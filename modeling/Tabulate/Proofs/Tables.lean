import Tabulate.Proofs.Dictionary
import Tabulate.Proofs.Effects
import Tabulate.Record.Basic

/-! Tables under appending and merging. Merging concatenates table by table, so it is associative and
empty tables are neutral for it. -/
namespace Tabulate.Tables

/-- What is put in the place of a key counts for what was held under it. -/
theorem total_place {α : Type} (f : α → Nat) (key : String) (a : α) {es : List (String × α)}
    (hs : es.Pairwise fun a b => a.1 < b.1) :
    total ((Dictionary.place key a es).map fun e => f e.2) + ((es.lookup key).map f).getD 0 =
      total (es.map fun e => f e.2) + f a := by
  induction es with
  | nil => simp [Dictionary.place, total]
  | cons e es ih =>
    obtain ⟨hlt, hs⟩ := List.pairwise_cons.1 hs
    rw [Dictionary.place, Dictionary.lookup_cons]
    by_cases hbefore : key < e.1
    · have hne : key ≠ e.1 := fun h => String.lt_irrefl _ (h ▸ hbefore : e.1 < e.1)
      -- the keys ascend, so none that follows is the one that is put before them
      have hnone : es.lookup key = none := by
        refine Dictionary.lookup_eq_none fun hm => ?_
        obtain ⟨e', he', rfl⟩ := List.mem_map.1 hm
        exact String.lt_irrefl _ (String.lt_trans hbefore (hlt e' he'))
      rw [if_pos hbefore, if_neg hne, hnone]
      simp [total]
      omega
    · rw [if_neg hbefore]
      by_cases heq : key = e.1
      · rw [if_pos heq, if_pos heq]
        simp [total]
        omega
      · have hrest := ih hs
        rw [if_neg heq, if_neg heq, List.map_cons, List.map_cons, total, total]
        omega

theorem total_lengths (t : Tables) : total (t.entries.map (·.2.length)) = t.recordCount := by
  rw [recordCount, Dictionary.values, List.map_map]
  rfl

theorem recordCount_append (t : Tables) (table : String) (rs : List Record) :
    (t.append table rs).recordCount = t.recordCount + rs.length := by
  have hplace : total ((t.append table rs).entries.map (·.2.length)) +
      ((t.get? table).map List.length).getD 0 =
        total (t.entries.map (·.2.length)) + ((t.get? table).getD [] ++ rs).length :=
    total_place List.length table _ t.sorted
  rw [total_lengths, total_lengths, List.length_append] at hplace
  cases hget : t.get? table with
  | none =>
    simp only [hget, Option.map_none, Option.getD_none, List.length_nil] at hplace
    omega
  | some held =>
    simp only [hget, Option.map_some, Option.getD_some] at hplace
    omega

/-- Merging adds the records up. -/
theorem recordCount_merge (t more : Tables) :
    (t.merge more).recordCount = t.recordCount + more.recordCount := by
  have hall (es : List (String × List Record)) (t : Tables) :
      (es.foldl (fun t e => t.append e.1 e.2) t).recordCount =
        t.recordCount + total (es.map (·.2.length)) := by
    induction es generalizing t with
    | nil => rfl
    | cons e es ih =>
      rw [List.foldl_cons, ih, recordCount_append, List.map_cons, total, Nat.add_assoc]
  rw [merge, hall, total_lengths]

theorem get?_append (t : Tables) (table : String) (rs : List Record) (k : String) :
    (t.append table rs).get? k =
      if k = table then some ((t.get? table).getD [] ++ rs) else t.get? k := by
  rw [append, Dictionary.get?_insert]

theorem get?_appendAll (es : List (String × List Record)) (hn : (es.map (·.1)).Nodup) (t : Tables)
    (k : String) :
    (es.foldl (fun t e => t.append e.1 e.2) t).get? k =
      match es.lookup k with
      | none => t.get? k
      | some rs => some ((t.get? k).getD [] ++ rs) := by
  induction es generalizing t with
  | nil => rfl
  | cons e es ih =>
    obtain ⟨he, hn⟩ := List.nodup_cons.1 hn
    rw [List.foldl_cons, ih hn, get?_append, Dictionary.lookup_cons]
    by_cases h : k = e.1
    · -- no later entry has the same key
      subst h
      simp [Dictionary.lookup_eq_none he]
    · simp only [if_neg h]

theorem get?_merge (t more : Tables) (k : String) :
    (t.merge more).get? k =
      match more.get? k with
      | none => t.get? k
      | some rs => some ((t.get? k).getD [] ++ rs) :=
  get?_appendAll more.entries more.nodup_keys t k

@[simp] theorem merge_empty (t : Tables) : t.merge .empty = t := rfl

@[simp] theorem empty_merge (t : Tables) : Tables.empty.merge t = t := by
  refine Dictionary.ext_get? fun k => ?_
  rw [get?_merge]
  cases t.get? k <;> simp [empty]

theorem merge_assoc (a b c : Tables) : (a.merge b).merge c = a.merge (b.merge c) := by
  refine Dictionary.ext_get? fun k => ?_
  simp only [get?_merge]
  cases c.get? k <;> cases b.get? k <;> simp

/-- Appending to tables that are merged is appending to the last of them. -/
theorem merge_append (t more : Tables) (table : String) (rs : List Record) :
    (t.merge more).append table rs = t.merge (more.append table rs) := by
  refine Dictionary.ext_get? fun k => ?_
  simp only [get?_append, get?_merge]
  by_cases h : k = table
  · subst h
    cases more.get? k <;> simp
  · simp [h]

theorem mem_keys_merge (t more : Tables) (k : String) :
    k ∈ (t.merge more).keys ↔ k ∈ t.keys ∨ k ∈ more.keys := by
  simp only [Dictionary.mem_keys_iff, get?_merge]
  cases more.get? k <;> simp

def rows (t : Tables) (table : String) : List Record := (t.get? table).getD []

def only (table : String) (rs : List Record) (k : String) : List Record := if k = table then rs else []

theorem only_nil (table : String) : only table [] = fun _ => [] := by
  funext k
  simp [only]

theorem only_append (table : String) (rs more : List Record) :
    only table (rs ++ more) = fun k => only table rs k ++ only table more k := by
  funext k
  by_cases hk : k = table <;> simp [only, hk]

theorem lookup_cons_rows {e : String × List Record} {es : List (String × List Record)}
    (he : e.1 ∉ es.map (·.1)) (k : String) :
    ((e :: es).lookup k).getD [] = only e.1 e.2 k ++ (es.lookup k).getD [] := by
  rw [Dictionary.lookup_cons, only]
  by_cases hk : k = e.1
  · simp [hk, Dictionary.lookup_eq_none he]
  · simp [hk]

/-- What writing one table does, writing several does for their rows together. -/
theorem rel_of_mapM {ε σ : Type} {R : (String → List Record) → σ → σ → Prop}
    (refl : ∀ s, R (fun _ => []) s s)
    (trans : ∀ {rs more a b c}, R rs a b → R more b c → R (fun k => rs k ++ more k) a c)
    {f : String × List Record → EStateM ε σ Nat} {es : List (String × List Record)}
    (hn : (es.map (·.1)).Nodup)
    (step : ∀ e ∈ es, ∀ s n s', f e s = .ok n s' → R (only e.1 e.2) s s') {ns : List Nat} {s s' : σ}
    (h : es.mapM f s = .ok ns s') : R (fun k => (es.lookup k).getD []) s s' := by
  induction es generalizing s ns with
  | nil =>
    cases h
    exact refl _
  | cons e es ih =>
    obtain ⟨he, hn⟩ := List.nodup_cons.1 hn
    rw [List.mapM_cons] at h
    obtain ⟨n, s₁, hf, h⟩ := Effects.bind_eq_ok.1 h
    obtain ⟨more, s₂, hes, hp⟩ := Effects.bind_eq_ok.1 h
    cases hp
    rw [funext (lookup_cons_rows he)]
    exact trans (step e (by simp) s n s₁ hf) (ih hn (fun x hx => step x (List.mem_cons_of_mem e hx)) hes)

end Tabulate.Tables
