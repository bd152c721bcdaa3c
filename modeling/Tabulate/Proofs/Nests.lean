import Tabulate.Proofs.Makings

/-! Walks that tell what they make. Every record is made inside the one around it, so what a walk makes
is a list of nests; a walk that answers them is the same walk otherwise. The keys are given out as the
nests are begun, from the outside in, and the records are put into their tables as they are done, from
the inside out. -/
namespace Tabulate

open Effects
open Xml (Location)

inductive Nest where
  | record (m : Making) (inner : List Nest)

namespace Nest

def outermost : Nest → Making
  | record m _ => m

mutual

/-- The records in the order in which they are begun. -/
def begun : Nest → List Making
  | record m inner => m :: begunIn inner
termination_by structural n => n

def begunIn : List Nest → List Making
  | [] => []
  | n :: ns => n.begun ++ begunIn ns
termination_by structural ns => ns

end

mutual

def done : Nest → List Making
  | record m inner => doneIn inner ++ [m]
termination_by structural n => n

def doneIn : List Nest → List Making
  | [] => []
  | n :: ns => n.done ++ doneIn ns
termination_by structural ns => ns

end

theorem begunIn_append (ns more : List Nest) : begunIn (ns ++ more) = begunIn ns ++ begunIn more := by
  induction ns with
  | nil => rfl
  | cons n ns ih => rw [List.cons_append, begunIn, begunIn, ih, List.append_assoc]

theorem doneIn_append (ns more : List Nest) : doneIn (ns ++ more) = doneIn ns ++ doneIn more := by
  induction ns with
  | nil => rfl
  | cons n ns ih => rw [List.cons_append, doneIn, doneIn, ih, List.append_assoc]

theorem begunIn_record (m : Making) (inner : List Nest) : begunIn [record m inner] = m :: begunIn inner := by
  rw [begunIn, begunIn, begun, List.append_nil]

theorem doneIn_record (m : Making) (inner : List Nest) : doneIn [record m inner] = doneIn inner ++ [m] := by
  rw [doneIn, doneIn, done, List.append_nil]

mutual

/-- What is begun is done, and nothing else. -/
theorem done_perm_begun : (n : Nest) → n.done.Perm n.begun
  | record m inner => by
    rw [done, begun]
    exact (List.perm_append_singleton m (doneIn inner)).trans ((doneIn_perm_begunIn inner).cons m)

theorem doneIn_perm_begunIn : (ns : List Nest) → (doneIn ns).Perm (begunIn ns)
  | [] => .nil
  | n :: ns => by
    rw [doneIn, begunIn]
    exact (done_perm_begun n).append (doneIn_perm_begunIn ns)

end

end Nest

open Nest (begunIn doneIn)

mutual

def SchemaNode.watch (s : Source) (path : String) (parent : Option Parent) :
    SchemaNode → List Location → Record → Walk (Record × List Nest)
  | .column name, ls, r => return (r.fill name .plain (ls.map s.document.text), [])
  | .field name rule, ls, r => return (r.fill name rule (ls.map s.document.text), [])
  | .entity e fields, ls, r => do
    let nests ← ls.mapM fun l => do
      let key ← s.recordKey e parent l
      let (filled, inner) ← watchFields s ⟨e.table, key⟩ l fields (s.newRecord e parent key)
      Harvest.push e.table filled
      return .record ⟨e, fields, parent, l, key, filled⟩ inner
    return (r, nests)
  | .alternatives nodes, ls, r =>
    ls.foldlM (fun (r, nests) l => do
      let (r, more) ← watchEach s path parent l nodes r
      return (r, nests ++ more)) (r, [])
  | .invalid description, ls, r =>
    if ls.isEmpty then return (r, []) else throw (.document (.invalidNode path description) {})
termination_by structural n => n

def watchEach (s : Source) (path : String) (parent : Option Parent) (l : Location) :
    List SchemaNode → Record → Walk (Record × List Nest)
  | [], r => return (r, [])
  | n :: ns, r => do
    let (r, nests) ← n.watch s path parent [l] r
    let (r, more) ← watchEach s path parent l ns r
    return (r, nests ++ more)
termination_by structural ns => ns

def watchFields (s : Source) (parent : Parent) (l : Location) :
    List (String × SchemaNode) → Record → Walk (Record × List Nest)
  | [], r => return (r, [])
  | (path, n) :: fs, r => do
    let found ← s.matchesOf path n l
    let (r, nests) ← n.watch s path (some parent) found r
    let (r, more) ← watchFields s parent l fs r
    return (r, nests ++ more)
termination_by structural fs => fs

end

def Source.watchPath (s : Source) (l : Location) (path : String) (n : SchemaNode) : Walk (List Nest) := do
  let found ← s.matchesOf path n l
  let (_, nests) ← n.watch s path none found Record.empty
  return nests

def Tabulator.watch (s : Source) (schema : Schema) : Walk (List Nest) := do
  let nests ← schema.paths.mapM fun p => s.watchPath s.document.element p.1 p.2
  return nests.flatten

section Watched
variable {s : Source}

theorem map_mapM_eq_forM {α β : Type} {f : α → Walk PUnit} {g : α → Walk β}
    (h : ∀ x, (fun _ => PUnit.unit) <$> g x = f x) (xs : List α) :
    (fun _ => PUnit.unit) <$> xs.mapM g = xs.forM f := by
  induction xs with
  | nil => rfl
  | cons x xs ih =>
    rw [List.mapM_cons]
    show _ = f x >>= fun _ => xs.forM f
    simp only [← ih, ← h x, map_eq_pure_bind, bind_assoc, pure_bind]

theorem map_foldlM_fst {α β γ : Type} {f : β → α → Walk β} {g : β × γ → α → Walk (β × γ)}
    (h : ∀ p x, Prod.fst <$> g p x = f p.1 x) (xs : List α) (p : β × γ) :
    Prod.fst <$> xs.foldlM g p = xs.foldlM f p.1 := by
  induction xs generalizing p with
  | nil => rfl
  | cons x xs ih =>
    simp only [List.foldlM_cons, map_bind, ih, ← h, bind_map_left]

mutual

/-- Watched or not, a walk fills the same record. -/
theorem SchemaNode.map_watch (path : String) (parent : Option Parent) :
    (n : SchemaNode) → ∀ (ls : List Location) (r : Record),
      Prod.fst <$> n.watch s path parent ls r = n.walk s path parent ls r
  | .column _ => fun _ _ => rfl
  | .field .. => fun _ _ => rfl
  | .entity e fields => fun ls r => by
    rw [SchemaNode.watch, SchemaNode.walk]
    simp only [map_bind, map_pure]
    rw [← map_mapM_eq_forM (fun l => ?_) ls, bind_map_left]
    simp only [map_bind, map_pure, ← map_watchFields, bind_map_left]
    rfl
  | .alternatives nodes => fun ls r => by
    rw [SchemaNode.watch, SchemaNode.walk]
    refine map_foldlM_fst (fun p l => ?_) ls (r, [])
    simp only [← map_watchEach path parent l nodes, map_eq_pure_bind, bind_assoc, pure_bind]
  | .invalid _ => fun ls r => by
    rw [SchemaNode.watch, SchemaNode.walk]
    split <;> rfl

theorem map_watchEach (path : String) (parent : Option Parent) (l : Location) :
    (ns : List SchemaNode) → ∀ r : Record,
      Prod.fst <$> watchEach s path parent l ns r = walkEach s path parent l ns r
  | [] => fun _ => rfl
  | n :: ns => fun r => by
    simp only [watchEach, walkEach, ← SchemaNode.map_watch path parent n, ← map_watchEach path parent l ns,
      map_eq_pure_bind, bind_assoc, pure_bind]

theorem map_watchFields (parent : Parent) (l : Location) :
    (fs : List (String × SchemaNode)) → ∀ r : Record,
      Prod.fst <$> watchFields s parent l fs r = walkFields s parent l fs r
  | [] => fun _ => rfl
  | (path, n) :: fs => fun r => by
    simp only [watchFields, walkFields, ← SchemaNode.map_watch path (some parent) n,
      ← map_watchFields parent l fs, map_eq_pure_bind, bind_assoc, pure_bind]

end

theorem map_watchPath (l : Location) (path : String) (n : SchemaNode) :
    (fun _ => PUnit.unit) <$> s.watchPath l path n = s.walkPath l path n := by
  have hdiscard (x : Walk Record) : (discard x : Walk PUnit) = (fun _ => PUnit.unit) <$> x := rfl
  simp only [Source.watchPath, Source.walkPath, hdiscard, ← SchemaNode.map_watch path none n,
    map_eq_pure_bind, bind_assoc, pure_bind]

/-- A walk that tells what it makes goes as any walk. -/
theorem map_watch (s : Source) (schema : Schema) :
    (fun _ => PUnit.unit) <$> Tabulator.watch s schema = Tabulator.walk s schema := by
  rw [Tabulator.watch, Tabulator.walk]
  simp only [map_bind, map_pure]
  rw [← map_mapM_eq_forM (fun p => map_watchPath ..)]
  rfl

theorem watchFields_eq_ok {parent : Parent} {l : Location} {fs : List (String × SchemaNode)}
    {r r' : Record} {h h' : Harvest} :
    (∃ ns, watchFields s parent l fs r h = .ok (r', ns) h') ↔ walkFields s parent l fs r h = .ok r' h' := by
  rw [← map_watchFields, map_eq_ok]
  exact ⟨fun ⟨ns, hw⟩ => ⟨_, hw, rfl⟩, fun ⟨⟨_, ns⟩, hw, hr⟩ => ⟨ns, hr ▸ hw⟩⟩

theorem watch_eq_ok {schema : Schema} {h h' : Harvest} :
    (∃ ns, Tabulator.watch s schema h = .ok ns h') ↔ Tabulator.walk s schema h = .ok () h' := by
  rw [← map_watch, map_eq_ok]
  exact ⟨fun ⟨ns, hw⟩ => ⟨ns, hw, rfl⟩, fun ⟨ns, hw, _⟩ => ⟨ns, hw⟩⟩

end Watched

/-- A relation between harvests, and the nests that lead from one to the other, that the steps of a
walk keep, where records are made of some declarations only. -/
structure NestStable (s : Source) (ds : List Declaration) (R : Harvest → List Nest → Harvest → Prop) :
    Prop where
  refl (h : Harvest) : R h [] h
  trans {a b c : Harvest} {ns more : List Nest} : R a ns b → R b more c → R a (ns ++ more) c
  warned (h : Harvest) (w : DocumentWarning) : R h [] { h with warnings := h.warnings ++ [w] }
  recorded {m : Making} {inner : List Nest} {h h₁ h₂ : Harvest} : m.declaration ∈ ds →
    s.recordKey m.entity m.parent m.place h = .ok m.key h₁ →
    watchFields s ⟨m.entity.table, m.key⟩ m.place m.fields (s.newRecord m.entity m.parent m.key) h₁ =
      .ok (m.record, inner) h₂ →
    R h₁ inner h₂ →
    R h [.record m inner] { h₂ with tables := h₂.tables.append m.entity.table [m.record] }

/-- What each member of a list brings in, a pass over the list brings in one after the other. -/
theorem collect_rel {α β γ : Type} {R : Harvest → List γ → Harvest → Prop} (refl : ∀ a, R a [] a)
    (trans : ∀ {a b c : Harvest} {cs ds : List γ}, R a cs b → R b ds c → R a (cs ++ ds) c)
    {f : β → α → Walk (β × List γ)} {xs : List α}
    (step : ∀ x ∈ xs, ∀ b a b' cs a', f b x a = .ok (b', cs) a' → R a cs a')
    {b b' : β} {cs ds : List γ} {h h' : Harvest}
    (hw : (xs.foldlM (fun (b, cs) x => do
      let (b, more) ← f b x
      return (b, cs ++ more)) (b, cs) : Walk (β × List γ)) h = .ok (b', ds) h') :
    ∃ more, ds = cs ++ more ∧ R h more h' := by
  refine foldlM_rel (R := fun p q => ∃ more, q.1.2 = p.1.2 ++ more ∧ R p.2 more q.2)
    (fun p => ⟨[], (List.append_nil _).symm, refl p.2⟩) ?_ ?_ hw
  · rintro p q r ⟨more, hmore, hR⟩ ⟨others, hothers, hR'⟩
    exact ⟨more ++ others, by rw [hothers, hmore, List.append_assoc], trans hR hR'⟩
  · intro x hx p a q a' hf
    obtain ⟨⟨b₁, more⟩, a₁, hf, hp⟩ := bind_eq_ok.1 hf
    cases hp
    exact ⟨more, rfl, step x hx p.1 a b₁ more a' hf⟩

section Stable
variable {s : Source} {ds : List Declaration} {R : Harvest → List Nest → Harvest → Prop} {h h' : Harvest}

theorem NestStable.nil_trans (W : NestStable s ds R) {a b c : Harvest} {ns : List Nest}
    (hab : R a [] b) (hbc : R b ns c) : R a ns c :=
  (List.nil_append ns) ▸ W.trans hab hbc

theorem NestStable.matchesOf (W : NestStable s ds R) {path : String} {n : SchemaNode} {l : Location}
    {ls : List Location} (hw : s.matchesOf path n l h = .ok ls h') : R h [] h' := by
  obtain ⟨-, rfl | ⟨w, rfl⟩⟩ := matchesOf_eq_ok hw
  · exact W.refl h'
  · exact W.warned h w

mutual

theorem NestStable.watch (W : NestStable s ds R) {path : String} {parent : Option Parent} :
    (n : SchemaNode) → (∀ d ∈ n.declarations (parent.map Parent.table), d ∈ ds) →
    ∀ {ls : List Location} {r r' : Record} {ns : List Nest} {h h' : Harvest},
      n.watch s path parent ls r h = .ok (r', ns) h' → R h ns h'
  | .column _, _ => fun hw => by
    cases hw
    exact W.refl _
  | .field .., _ => fun hw => by
    cases hw
    exact W.refl _
  | .entity e fields, hd => fun hw => by
    obtain ⟨nests, h₁, hloop, hp⟩ := bind_eq_ok.1 hw
    cases hp
    have hall := mapM_rel (g := fun n => [n]) W.refl W.trans (fun l _ a n b hl => ?_) hloop
    · rwa [List.flatMap_singleton'] at hall
    obtain ⟨key, a₁, hkey, hl⟩ := bind_eq_ok.1 hl
    obtain ⟨⟨filled, inner⟩, a₂, hfields, hl⟩ := bind_eq_ok.1 hl
    obtain ⟨_, a₃, hpush, hl⟩ := bind_eq_ok.1 hl
    cases hpush
    cases hl
    rw [SchemaNode.declarations] at hd
    have hin : R a₁ inner a₂ := W.watchFields fields (fun d hm => hd d (List.mem_append_left _ hm)) hfields
    exact W.recorded (m := ⟨e, fields, parent, l, key, filled⟩) (hd _ (by simp [Making.declaration]))
      hkey hfields hin
  | .alternatives nodes, hd => fun hw => by
    obtain ⟨more, rfl, hR⟩ := collect_rel (f := fun r l => Tabulate.watchEach s path parent l nodes r)
      W.refl W.trans (fun l _ _ _ _ _ _ hl => W.watchEach nodes hd hl) hw
    exact hR
  | .invalid _, _ => fun hw => by
    rw [SchemaNode.watch] at hw
    split at hw
    · cases hw
      exact W.refl _
    · exact absurd hw throw_ne_ok

theorem NestStable.watchEach (W : NestStable s ds R) {path : String} {parent : Option Parent}
    {l : Location} :
    (nodes : List SchemaNode) →
    (∀ d ∈ SchemaNode.declarationsOf (parent.map Parent.table) nodes, d ∈ ds) →
    ∀ {r r' : Record} {ns : List Nest} {h h' : Harvest},
      watchEach s path parent l nodes r h = .ok (r', ns) h' → R h ns h'
  | [], _ => fun hw => by
    cases hw
    exact W.refl _
  | n :: nodes, hd => fun hw => by
    obtain ⟨⟨r₁, ns⟩, h₁, hn, hw⟩ := bind_eq_ok.1 hw
    obtain ⟨⟨r₂, more⟩, h₂, hnodes, hp⟩ := bind_eq_ok.1 hw
    cases hp
    rw [SchemaNode.declarationsOf] at hd
    exact W.trans (W.watch n (fun d hm => hd d (List.mem_append_left _ hm)) hn)
      (W.watchEach nodes (fun d hm => hd d (List.mem_append_right _ hm)) hnodes)

theorem NestStable.watchFields (W : NestStable s ds R) {parent : Parent} {l : Location} :
    (fs : List (String × SchemaNode)) →
    (∀ d ∈ SchemaNode.declarationsIn parent.table fs, d ∈ ds) →
    ∀ {r r' : Record} {ns : List Nest} {h h' : Harvest},
      watchFields s parent l fs r h = .ok (r', ns) h' → R h ns h'
  | [], _ => fun hw => by
    cases hw
    exact W.refl _
  | (path, n) :: fs, hd => fun hw => by
    obtain ⟨found, h₁, hfound, hw⟩ := bind_eq_ok.1 hw
    obtain ⟨⟨r₁, ns⟩, h₂, hn, hw⟩ := bind_eq_ok.1 hw
    obtain ⟨⟨r₂, more⟩, h₃, hfs, hp⟩ := bind_eq_ok.1 hw
    cases hp
    rw [SchemaNode.declarationsIn] at hd
    have hin : R h₁ ns h₂ := by
      refine W.watch n ?_ hn
      exact fun d hm => hd d (List.mem_append_left _ hm)
    exact W.nil_trans (W.matchesOf hfound)
      (W.trans hin (W.watchFields fs (fun d hm => hd d (List.mem_append_right _ hm)) hfs))

end

theorem NestStable.watchPath (W : NestStable s ds R) {l : Location} {path : String} {n : SchemaNode}
    (hd : ∀ d ∈ n.declarations none, d ∈ ds) {ns : List Nest}
    (hw : s.watchPath l path n h = .ok ns h') : R h ns h' := by
  obtain ⟨found, h₁, hfound, hw⟩ := bind_eq_ok.1 hw
  obtain ⟨⟨r, ns⟩, h₂, hn, hp⟩ := bind_eq_ok.1 hw
  cases hp
  refine W.nil_trans (W.matchesOf hfound) (W.watch n ?_ hn)
  exact hd

theorem NestStable.watchSchema {schema : Schema} (W : NestStable s schema.declarations R)
    {ns : List Nest} (hw : Tabulator.watch s schema h = .ok ns h') : R h ns h' := by
  obtain ⟨nests, h₁, hloop, hp⟩ := bind_eq_ok.1 hw
  cases hp
  rw [← List.flatMap_id]
  refine mapM_rel W.refl W.trans (fun p hp a ns b hpath => ?_) hloop
  exact W.watchPath (fun d hd => List.mem_flatMap.2 ⟨p, hp, hd⟩) hpath

end Stable

/-- What a walk along a schema adds to the tables are the records of its nests, as they are done. -/
theorem watch_makings {s : Source} {schema : Schema} {ns : List Nest} {h h' : Harvest}
    (hw : Tabulator.watch s schema h = .ok ns h') :
    h'.tables = h.tables.merge (Making.tables (doneIn ns)) ∧
      ∀ m ∈ doneIn ns, m.declaration ∈ schema.declarations ∧ ∃ a b, m.Made s a b := by
  let R (a : Harvest) (ns : List Nest) (b : Harvest) : Prop :=
    b.tables = a.tables.merge (Making.tables (doneIn ns)) ∧
      ∀ m ∈ doneIn ns, m.declaration ∈ schema.declarations ∧ ∃ a b, m.Made s a b
  have W : NestStable s schema.declarations R :=
    { refl := fun h => ⟨rfl, by simp [doneIn]⟩
      trans := by
        rintro a b c ns more ⟨hab, hns⟩ ⟨hbc, hmore⟩
        simp only [R, Nest.doneIn_append, Making.tables_append]
        refine ⟨?_, fun m hm => (List.mem_append.1 hm).elim (hns m) (hmore m)⟩
        rw [hbc, hab, Tables.merge_assoc]
      warned := fun h w => ⟨rfl, by simp [doneIn]⟩
      recorded := by
        rintro m inner h h₁ h₂ hd hkey hfields ⟨htables, hinner⟩
        have hh : h₁.tables = h.tables := by
          obtain ⟨-, rfl⟩ | ⟨-, _, -, -, rfl⟩ := recordKey_eq_ok hkey <;> rfl
        have hmade : m.Made s h h₂ := ⟨h₁, hkey, watchFields_eq_ok.1 ⟨_, hfields⟩⟩
        simp only [R, Nest.doneIn_record, Making.tables_append, Making.tables_single,
          ← Tables.merge_append, Tables.merge_empty]
        refine ⟨?_, fun k hk => ?_⟩
        · rw [htables, hh, Tables.merge_append]
        · rcases List.mem_append.1 hk with hk | hk
          · exact hinner k hk
          · cases List.mem_singleton.1 hk
            exact ⟨hd, h, h₂, hmade⟩ }
  exact W.watchSchema hw

theorem walk_eq_makings {s : Source} {schema : Schema} {h h' : Harvest}
    (hw : Tabulator.walk s schema h = .ok () h') :
    ∃ ms : List Making, h'.tables = h.tables.merge (Making.tables ms) ∧
      ∀ m ∈ ms, m.declaration ∈ schema.declarations ∧ ∃ a b, m.Made s a b := by
  obtain ⟨ns, hns⟩ := watch_eq_ok.2 hw
  exact ⟨doneIn ns, watch_makings hns⟩

end Tabulate
