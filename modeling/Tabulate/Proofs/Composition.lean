import Tabulate.Proofs.Accepted
import Tabulate.Proofs.Chains

/-! Paths that are put behind each other. With a slash between their texts two paths are read as one, whose
steps are those of the first and then those of the second, so it leads to what the second leads to from the
places that the first leads to. -/
namespace Tabulate

open Effects
open Text (trim)
open Xml (Document Location Namespaces)

/-! ### Following -/

section Following
variable {d : Document} {m : Namespaces} {ls ks : List Location} {n : Location} {s : Step} {ss ts : List Step}

theorem inOrder_congr (h : ∀ l, l ∈ ls ↔ l ∈ ks) : inOrder ls = inOrder ks := by
  have hirrefl : Std.Irrefl fun a b : Location => a.key < b.key := ⟨fun a => List.lt_irrefl a.key⟩
  have hanti : Std.Antisymm fun a b : Location => a.key < b.key :=
    ⟨fun a b hab hba => absurd hba (List.lt_asymm hab)⟩
  exact (inOrder_increasing ls).eq_of_mem_iff (inOrder_increasing ks) fun l => by
    rw [mem_inOrder, mem_inOrder, h]

theorem inOrder_singleton (l : Location) : inOrder [l] = [l] := by
  rw [inOrder, List.mergeSort_singleton]
  rfl

theorem followSteps_append (ss ts : List Step) (ls : List Location) :
    followSteps d m (ss ++ ts) ls = followSteps d m ts (followSteps d m ss ls) := by
  induction ss generalizing ls with
  | nil => rfl
  | cons s ss ih => rw [List.cons_append, followSteps, followSteps, ih]

/-- Steps from several places lead to what they lead to from one of them. -/
theorem followSteps_gather (s : Step) (ss : List Step) (ls : List Location) :
    followSteps d m (s :: ss) ls = inOrder (ls.flatMap fun l => followSteps d m (s :: ss) [l]) := by
  induction ss generalizing s ls with
  | nil =>
    rw [followSteps, followSteps]
    exact inOrder_congr fun n => by simp [followSteps, mem_inOrder]
  | cons t ss ih =>
    rw [followSteps, ih]
    refine inOrder_congr fun n => ?_
    have hone (l : Location) : followSteps d m (s :: t :: ss) [l] =
        inOrder ((inOrder (s.reach d m l)).flatMap fun k => followSteps d m (t :: ss) [k]) := by
      rw [followSteps, ih, List.flatMap_singleton]
    simp only [hone, List.mem_flatMap, mem_inOrder]
    constructor
    · rintro ⟨k, ⟨l, hl, hk⟩, hn⟩
      exact ⟨l, hl, k, hk, hn⟩
    · rintro ⟨l, hl, k, hk, hn⟩
      exact ⟨k, ⟨l, hl, hk⟩, hn⟩

end Following

/-! ### Reading -/

section Extending
variable {inner inner' : List Char → Except PathError Path} {source source' cs : List Char}

def Extends (inner inner' : List Char → Except PathError Path) : Prop := ∀ cs p, inner cs = .ok p → inner' cs = .ok p

theorem predicate_extends (h : Extends inner inner') (hnever : Nesting.never ']' {} cs = true) {q : Predicate}
    (hq : Path.predicate inner source cs = .ok q) : Path.predicate inner' source' cs = .ok q := by
  by_cases hexpr : HoldsPath (trim cs)
  · cases hcut : Nesting.cutAt '=' {} (trim cs) with
    | none =>
      rw [predicate_holds hnever rfl hexpr hcut] at hq ⊢
      obtain ⟨p, hp, rfl⟩ := except_map_eq_ok.1 hq
      rw [h _ _ hp]
      rfl
    | some lr =>
      rw [predicate_equals hnever rfl hexpr hcut] at hq ⊢
      obtain ⟨p, hp, rfl⟩ := except_map_eq_ok.1 hq
      rw [h _ _ hp]
      rfl
  · exact (predicate_position hexpr rfl hq).2 rfl

theorem mapM_transfer {α α' β ε : Type} {f : α → Except ε β} {g : α' → Except ε β} {as : List α} {as' : List α'}
    {bs : List β} (h : List.Forall₂ (fun a a' => ∀ b, f a = .ok b → g a' = .ok b) as as')
    (hf : as.mapM f = .ok bs) : as'.mapM g = .ok bs := by
  induction h generalizing bs with
  | nil => exact hf
  | cons h _ ih =>
    obtain ⟨b, bs, hb, hbs, rfl⟩ := mapM_cons_eq_ok.1 hf
    exact mapM_cons_eq_ok.2 ⟨b, bs, h b hb, ih hbs, rfl⟩

theorem mapM_append_eq_ok {α β ε : Type} {f : α → Except ε β} {as as' : List α} {bs bs' : List β}
    (h : as.mapM f = .ok bs) (h' : as'.mapM f = .ok bs') : (as ++ as').mapM f = .ok (bs ++ bs') := by
  rw [List.mapM_append, h, h']
  rfl

/-- A step is read without regard to the blanks around it, and to the path that it stands in. -/
theorem step_extends (h : Extends inner inner') {cs' : List Char} (htrim : trim cs' = trim cs) {S : Step}
    (hS : Path.step inner source cs = .ok S) : Path.step inner' source' cs' = .ok S := by
  rw [step_eq_ok] at hS ⊢
  rw [htrim]
  obtain hself | hparent | ⟨hself, hparent, haxis, texts, ps, htexts, hps, htest⟩ := hS
  · exact .inl hself
  · exact .inr (.inl hparent)
  · refine .inr (.inr ⟨hself, hparent, haxis, texts, ps, htexts, ?_, htest⟩)
    have hnever := never_of_brackets (.inl rfl) htexts
    exact mapM_transfer (List.forall₂_same.2 fun text ht _ => predicate_extends h (hnever text ht)) hps

def SameStep (x y : Bool × List Char) : Prop := y.1 = x.1 ∧ trim y.2 = trim x.2

theorem readStep_extends (h : Extends inner inner') {x y : Bool × List Char} (hxy : SameStep x y)
    {ss : List Step} (hss : readStep inner source x = .ok ss) : readStep inner' source' y = .ok ss := by
  obtain ⟨S, hS, rfl⟩ := readStep_eq_ok.1 hss
  refine readStep_eq_ok.2 ⟨S, step_extends h hxy.2 hS, ?_⟩
  rw [hxy.1]

theorem readSteps_extends (h : Extends inner inner') {xs ys : List (Bool × List Char)}
    (hxy : List.Forall₂ SameStep xs ys) {sss : List (List Step)} (hs : xs.mapM (readStep inner source) = .ok sss) :
    ys.mapM (readStep inner' source') = .ok sss :=
  mapM_transfer (hxy.imp fun _ _ hxy _ => readStep_extends h hxy) hs

theorem exists_depth {depth : Nat} {p : Path} (h : Path.ofChars depth cs = .ok p) : ∃ k, depth = k + 1 := by
  cases depth with
  | zero => cases h
  | succ k => exact ⟨k, rfl⟩

/-- What can be read with predicates nested so deep can be read with predicates nested deeper. -/
theorem ofChars_extends {depth depth' : Nat} (h : depth ≤ depth') :
    Extends (Path.ofChars depth) (Path.ofChars depth') := by
  induction depth generalizing depth' with
  | zero => exact fun _ _ hp => nomatch hp
  | succ depth ih =>
    obtain ⟨depth', rfl⟩ : ∃ k, depth' = k + 1 := ⟨depth' - 1, by omega⟩
    intro cs p hp
    obtain ⟨hne, absolute, texts, steps, houtline, hsteps, rfl⟩ := ofChars_eq_ok.1 hp
    refine ofChars_eq_ok.2 ⟨hne, absolute, texts, steps, houtline, ?_, rfl⟩
    exact readSteps_extends (ih (Nat.le_of_succ_le_succ h)) (List.forall₂_same.2 fun _ _ => ⟨rfl, rfl⟩) hsteps

end Extending

/-! ### Cutting -/

section Cutting
variable {a b cs e p t : List Char} {absolute : Bool} {texts : List (Bool × List Char)}

theorem IsPart.append_blank (h : IsPart {} t) (he : Blank e) : IsPart {} (t ++ e) := by
  have hnever {x : Char} (hx : Text.isBlank x = false) (n : Nesting) : Nesting.never x n e = true :=
    Nesting.never_of_not_mem (he.not_mem hx)
  refine ⟨?_, ?_, by rw [Nesting.afterAll_append, h.closed, afterAll_blank he]⟩
  · exact Nesting.never_append_iff.2 ⟨h.whole, hnever (by decide) _⟩
  · exact Nesting.never_append_iff.2 ⟨h.balanced, hnever (by decide) _⟩

theorem IsPart.blank_append (hb : Blank b) (h : IsPart {} t) : IsPart {} (b ++ t) := by
  have hnever {x : Char} (hx : Text.isBlank x = false) : Nesting.never x {} b = true :=
    Nesting.never_of_not_mem (hb.not_mem hx)
  refine ⟨?_, ?_, by rw [Nesting.afterAll_append, afterAll_blank hb, h.closed]⟩
  · exact Nesting.never_append_iff.2 ⟨hnever (by decide), by rw [afterAll_blank hb]; exact h.whole⟩
  · exact Nesting.never_append_iff.2 ⟨hnever (by decide), by rw [afterAll_blank hb]; exact h.balanced⟩

theorem ne_nil_of_outline (h : Path.outline cs = .ok (absolute, texts)) : ∀ x ∈ texts, x.2 ≠ [] := by
  have hsteps (doubled : Bool) (ps : List (List Char)) : ∀ x ∈ Path.stepTexts doubled ps, x.2 ≠ [] := by
    induction ps generalizing doubled with
    | nil => exact List.forall_mem_nil _
    | cons p ps ih =>
      cases p with
      | nil => exact ih true
      | cons c p => exact List.forall_mem_cons.2 ⟨List.cons_ne_nil c p, ih false⟩
  obtain ⟨ps, -, h⟩ := except_bind_eq_ok.1 h
  split at h
  · cases h
    exact List.forall_mem_nil _
  · split at h <;> cases h
    exact hsteps false _
  · split at h <;> cases h
    exact hsteps false _

theorem isOutline_of_outline (hne : cs ≠ []) (hroot : cs ≠ ['/']) (h : Path.outline cs = .ok (absolute, texts)) :
    IsOutline cs absolute texts := by
  have hpart : ∀ x ∈ texts, IsPart {} x.2 ∧ x.2 ≠ [] := fun x hx =>
    ⟨isPart_of_outline h x hx, ne_nil_of_outline h x hx⟩
  obtain ⟨rfl, htext⟩ | ⟨rfl, first, rest, rfl, htext⟩ := outline_text hne h
  · cases texts with
    | nil => exact absurd htext hroot
    | cons x texts => exact ⟨List.cons_ne_nil x texts, hpart, nofun, htext⟩
  · refine ⟨List.cons_ne_nil _ rest, hpart, fun _ x hx => ?_, congrArg ('/' :: ·) htext⟩
    cases hx
    rfl

/-- Between two texts that are cut a third slash can stand, with blanks around it. -/
theorem IsOutline.join {xs ys : List (Bool × List Char)} (ha : IsOutline a absolute xs) (hc : IsOutline cs false ys)
    (he : Blank e) (hb : Blank b) : ∃ xs' ys', IsOutline (a ++ (e ++ '/' :: b) ++ cs) absolute (xs' ++ ys') ∧
      List.Forall₂ SameStep xs xs' ∧ List.Forall₂ SameStep ys ys' := by
  have hsame (zs : List (Bool × List Char)) : List.Forall₂ SameStep zs zs := List.forall₂_same.2 fun _ _ => ⟨rfl, rfl⟩
  rcases List.eq_nil_or_concat' xs with rfl | ⟨front, ⟨d, t⟩, rfl⟩
  · exact absurd rfl ha.nonempty
  obtain ⟨⟨doubled, u⟩, back, rfl⟩ := List.exists_cons_of_ne_nil hc.nonempty
  obtain rfl : doubled = false := hc.first rfl _ rfl
  have hlast : IsPart {} t ∧ t ≠ [] := ha.part (d, t) (by simp)
  obtain ⟨⟨hu, hune⟩, hback⟩ := List.forall_mem_cons.1 hc.part
  refine ⟨front ++ [(d, t ++ e)], (false, b ++ u) :: back, ⟨by simp, ?_, ?_, ?_⟩, ?_, ?_⟩
  · refine List.forall_mem_append.2 ⟨List.forall_mem_append.2 ⟨fun x hx => ha.part x (by simp [hx]), ?_⟩,
      List.forall_mem_cons.2 ⟨⟨hu.blank_append hb, by simp [hune]⟩, hback⟩⟩
    exact List.forall_mem_singleton.2 ⟨hlast.1.append_blank he, by simp [hlast.2]⟩
  · intro habsolute x hx
    have hfirst := ha.first habsolute
    cases front with
    | nil =>
      cases hx
      exact hfirst (d, t) rfl
    | cons y front => exact hfirst x hx
  · have hwhole : (if absolute then a ++ (e ++ '/' :: b) ++ cs else '/' :: (a ++ (e ++ '/' :: b) ++ cs)) =
        (if absolute then a else '/' :: a) ++ (e ++ '/' :: b ++ cs) := by cases absolute <;> simp
    have hcs : cs = u ++ back.flatMap slashed := (List.cons.inj hc.whole).2
    rw [hwhole, ha.whole, hcs]
    simp [slashed]
  · have hend : List.Forall₂ SameStep [(d, t)] [(d, t ++ e)] := .cons ⟨rfl, trim_append_blank he t⟩ .nil
    exact List.rel_append (hsame front) hend
  · exact .cons ⟨rfl, trim_blank_append hb u⟩ (hsame back)

end Cutting

/-! ### Joining -/

section Joining
variable {cs cs' : List Char} {p q r : String} {wp wq wr : WrittenPath}

theorem tight_trim (h : trim cs ≠ []) : Tight (trim cs) := by
  refine ⟨h, fun c hc => ?_, fun c hc => ?_⟩
  · obtain ⟨e, he, -⟩ := eq_trimEnd_append (Text.trimStart cs)
    have hhead : c ∈ (cs.dropWhile Text.isBlank).head? := by
      rw [← Text.trimStart, he]
      exact List.mem_head?_append_of_mem_head? hc
    have hfirst := List.head?_dropWhile_not Text.isBlank cs
    rw [Option.mem_def.1 hhead] at hfirst
    simpa using hfirst
  · rw [trim, Text.trimEnd, List.getLast?_reverse] at hc
    have hlast := List.head?_dropWhile_not Text.isBlank (Text.trimStart cs).reverse
    rw [Option.mem_def.1 hc] at hlast
    simpa using hlast

/-- Only the blanks next to the slash are not cut off. -/
theorem exists_trim_join (hne : trim cs ≠ []) (hne' : trim cs' ≠ []) :
    ∃ e b, Blank e ∧ Blank b ∧ trim (cs ++ '/' :: cs') = trim cs ++ (e ++ '/' :: b) ++ trim cs' := by
  obtain ⟨b, e, hb, he, hcs⟩ := exists_margins cs
  obtain ⟨b', e', hb', he', hcs'⟩ := exists_margins cs'
  have htext : cs ++ '/' :: cs' = b ++ (trim cs ++ (e ++ '/' :: b') ++ trim cs') ++ e' := by
    conv_lhs => rw [hcs, hcs']
    simp
  refine ⟨e, b', he, hb', ?_⟩
  rw [htext, trim_margins hb ((tight_trim hne).between _ (tight_trim hne')) he']

theorem flatten_ne_nil {inner : List Char → Except PathError Path} {source : List Char}
    {xs : List (Bool × List Char)} (hxs : xs ≠ []) {sss : List (List Step)}
    (h : xs.mapM (readStep inner source) = .ok sss) : sss.flatten ≠ [] := by
  obtain ⟨x, xs, rfl⟩ := List.exists_cons_of_ne_nil hxs
  obtain ⟨ss, sss, hss, -, rfl⟩ := mapM_cons_eq_ok.1 h
  obtain ⟨S, -, rfl⟩ := readStep_eq_ok.1 hss
  cases x.1 <;> simp

/-- A path that is not the document alone and one that does not begin at the document are read as one with a
slash between them. -/
theorem ofChars_join {depth depth' : Nat} (deeper : Nat) {absolute absolute' : Bool} {ss ts : List Step}
    (hp : Path.ofChars depth cs = .ok (.mk absolute ss)) (hq : Path.ofChars depth' cs' = .ok (.mk absolute' ts))
    (hroot : trim cs ≠ ['/']) (hrelative : (trim cs').head? ≠ some '/') (hdepth : depth ≤ deeper)
    (hdepth' : depth' ≤ deeper) :
    Path.ofChars deeper (cs ++ '/' :: cs') = .ok (.mk absolute (ss ++ ts)) ∧ absolute' = false ∧
      ss ≠ [] ∧ ts ≠ [] := by
  obtain ⟨depth, rfl⟩ := exists_depth hp
  obtain ⟨depth', rfl⟩ := exists_depth hq
  obtain ⟨deeper, rfl⟩ : ∃ k, deeper = k + 1 := ⟨deeper - 1, by omega⟩
  obtain ⟨hne, _, xs, sss, hxs, hsss, ⟨⟩⟩ := ofChars_eq_ok.1 hp
  obtain ⟨hne', _, ys, tss, hys, htss, ⟨⟩⟩ := ofChars_eq_ok.1 hq
  have hfront := isOutline_of_outline hne hroot hxs
  have hback := isOutline_of_outline hne' (fun h => hrelative (by rw [h]; rfl)) hys
  obtain rfl : absolute' = false := by
    cases absolute' with
    | false => rfl
    | true =>
      obtain ⟨⟨doubled, t⟩, ys, rfl⟩ := List.exists_cons_of_ne_nil hback.nonempty
      have hwhole : trim cs' = _ := hback.whole
      exact absurd (by rw [hwhole]; cases doubled <;> rfl) hrelative
  obtain ⟨e, b, he, hb, htrim⟩ := exists_trim_join hne hne'
  obtain ⟨xs', ys', hjoined, hxs', hys'⟩ := hfront.join hback he hb
  refine ⟨ofChars_eq_ok.2 ⟨?_, absolute, xs' ++ ys', sss ++ tss, ?_, ?_, by simp⟩, rfl, ?_, ?_⟩
  · rw [htrim]
    simp [hne]
  · rw [htrim]
    exact hjoined.outline_eq
  · refine mapM_append_eq_ok (readSteps_extends ?_ hxs' hsss) (readSteps_extends ?_ hys' htss)
    · exact ofChars_extends (Nat.le_of_succ_le_succ hdepth)
    · exact ofChars_extends (Nat.le_of_succ_le_succ hdepth')
  · exact flatten_ne_nil hfront.nonempty hsss
  · exact flatten_ne_nil hback.nonempty htss

def Path.Joins (p q w : Path) : Prop :=
  ∃ absolute ss ts, ss ≠ [] ∧ ts ≠ [] ∧ p = .mk absolute ss ∧ q = .mk false ts ∧ w = .mk absolute (ss ++ ts)

theorem trim_ne_nil_of_read (hp : Path.read p = .ok wp) : trim p.toList ≠ [] :=
  (ofChars_eq_ok.1 (read_eq_ok.1 hp).1).1

/-- A path that is put in front stands in front. -/
theorem head?_trim_join (hp : Path.read p = .ok wp) (hq : Path.read q = .ok wq) :
    (trim (p ++ "/" ++ q).toList).head? = (trim p.toList).head? := by
  obtain ⟨e, b, -, -, htrim⟩ := exists_trim_join (trim_ne_nil_of_read hp) (trim_ne_nil_of_read hq)
  have htext : (p ++ "/" ++ q).toList = p.toList ++ '/' :: q.toList := by simp
  rw [htext, htrim, List.append_assoc, List.head?_append_of_ne_nil _ (trim_ne_nil_of_read hp)]

theorem read_join (hp : Path.read p = .ok wp) (hq : Path.read q = .ok wq) (hroot : trim p.toList ≠ ['/'])
    (hrelative : (trim q.toList).head? ≠ some '/') :
    ∃ w, Path.read (p ++ "/" ++ q) = .ok w ∧ wp.path.Joins wq.path w.path := by
  obtain ⟨hread, -⟩ := read_eq_ok.1 hp
  obtain ⟨hread', -⟩ := read_eq_ok.1 hq
  obtain ⟨source, absolute, ss⟩ := wp
  obtain ⟨source', absolute', ts⟩ := wq
  have htext : (p ++ "/" ++ q).toList = p.toList ++ '/' :: q.toList := by simp
  have hlength : (p ++ "/" ++ q).toList.length = p.toList.length + q.toList.length + 1 := by
    rw [htext, List.length_append, List.length_cons]
    omega
  obtain ⟨hjoined, rfl, hss, hts⟩ := ofChars_join ((p ++ "/" ++ q).toList.length + 1) hread hread' hroot
    hrelative (by omega) (by omega)
  rw [← htext] at hjoined
  exact ⟨⟨_, _⟩, read_eq_ok.2 ⟨hjoined, rfl⟩, absolute, ss, ts, hss, hts, rfl, rfl, rfl⟩

end Joining

/-! ### Composing -/

section Composing
variable {p q w : Path} {d : Document} {m : Namespaces} {l : Location}

theorem Path.Joins.mem_follow (h : p.Joins q w) (n : Location) :
    n ∈ w.follow d m l ↔ ∃ k ∈ p.follow d m l, n ∈ q.follow d m k := by
  obtain ⟨absolute, ss, ts, -, hts, rfl, rfl, rfl⟩ := h
  obtain ⟨t, ts, rfl⟩ := List.exists_cons_of_ne_nil hts
  rw [Path.follow, followSteps_append, followSteps_gather, mem_inOrder, List.mem_flatMap]
  rfl

theorem Path.Joins.lists (h : p.Joins q w) (hw : w.fromOne = true) (hl : d.holds l = true) :
    d.Lists (fun n => ∃ k ∈ p.follow d m l, n ∈ q.follow d m k) (w.follow d m l) :=
  ⟨(w.follow_lists hw l hl).increasing, h.mem_follow⟩

theorem Path.Joins.assoc {r pq qr : Path} (hpq : p.Joins q pq) (hqr : q.Joins r qr) (h : p.Joins qr w) :
    pq.Joins r w := by
  obtain ⟨absolute, ss, ts, hss, hts, rfl, rfl, rfl⟩ := hpq
  obtain ⟨_, _, us, -, hus, ⟨⟩, rfl, rfl⟩ := hqr
  obtain ⟨_, _, _, -, -, ⟨⟩, ⟨⟩, rfl⟩ := h
  exact ⟨absolute, ss ++ ts, us, by simp [hss], hus, rfl, rfl, by rw [List.append_assoc]⟩

theorem Path.Joins.self_follow (h : (Path.mk false [.self]).Joins q w) : w.follow d m l = q.follow d m l := by
  obtain ⟨_, _, ts, -, -, ⟨⟩, rfl, rfl⟩ := h
  rw [Path.follow, Path.follow, followSteps_append, followSteps, followSteps]
  exact congrArg (followSteps d m ts) (inOrder_singleton l)

theorem Path.Joins.follow_self (h : p.Joins (Path.mk false [.self]) w) : w.follow d m l = p.follow d m l := by
  obtain ⟨absolute, ss, _, hss, -, rfl, ⟨⟩, rfl⟩ := h
  obtain ⟨s, ss, rfl⟩ := List.exists_cons_of_ne_nil hss
  -- what is found is in order already
  have hordered (k : Location) : inOrder (followSteps d m (s :: ss) [k]) = followSteps d m (s :: ss) [k] := by
    conv_rhs => rw [followSteps_gather, List.flatMap_singleton]
  rw [Path.follow, Path.follow, followSteps_append, followSteps, followSteps]
  simp only [Step.reach, List.flatMap_singleton']
  exact hordered _

end Composing

/-- Two paths with a slash between them are a path, which leads to what the second leads to from the places
that the first leads to, in document order; unless the first is the document alone or the second begins there.
A step to the place itself changes nothing, in front or behind, and of three paths any two can be taken
first. -/
theorem join_follows {p q : String} {wp wq : WrittenPath} (hp : Path.read p = .ok wp) (hq : Path.read q = .ok wq)
    (hroot : trim p.toList ≠ ['/']) (hrelative : (trim q.toList).head? ≠ some '/') :
    (∃ w, Path.read (p ++ "/" ++ q) = .ok w ∧ ∀ (d : Document) m l, d.holds l = true →
      d.Lists (fun n => ∃ k ∈ wp.path.follow d m l, n ∈ wq.path.follow d m k) (w.path.follow d m l)) ∧
    (∃ w, Path.read ("./" ++ q) = .ok w ∧ ∀ d m l, w.path.follow d m l = wq.path.follow d m l) ∧
    (∃ w, Path.read (p ++ "/.") = .ok w ∧ ∀ d m l, w.path.follow d m l = wp.path.follow d m l) ∧
    ∀ r wr, Path.read r = .ok wr → (trim r.toList).head? ≠ some '/' → ∃ wpq wqr w,
      Path.read (p ++ "/" ++ q) = .ok wpq ∧ Path.read (q ++ "/" ++ r) = .ok wqr ∧
      Path.read (p ++ "/" ++ q ++ "/" ++ r) = .ok w ∧ ∀ (d : Document) m l, d.holds l = true →
        d.Lists (fun n => ∃ k ∈ wpq.path.follow d m l, n ∈ wr.path.follow d m k) (w.path.follow d m l) ∧
        d.Lists (fun n => ∃ k ∈ wp.path.follow d m l, n ∈ wqr.path.follow d m k) (w.path.follow d m l) := by
  have hself : Path.read "." = .ok ⟨".", .mk false [.self]⟩ := by rfl
  obtain ⟨w, hw, hjoins⟩ := read_join hp hq hroot hrelative
  refine ⟨⟨w, hw, fun d m l hl => hjoins.lists (read_fromOne hw) hl⟩, ?_, ?_, fun r wr hr hrelative' => ?_⟩
  · obtain ⟨w, hw, hjoins⟩ := read_join hself hq (by decide) hrelative
    exact ⟨w, hw, fun d m l => hjoins.self_follow⟩
  · obtain ⟨w, hw, hjoins⟩ := read_join hp hself hroot (by decide)
    refine ⟨w, ?_, fun d m l => hjoins.follow_self⟩
    rw [String.append_assoc] at hw
    exact hw
  · have hroot' : trim q.toList ≠ ['/'] := fun h => hrelative (by rw [h]; rfl)
    obtain ⟨wqr, hwqr, hqr⟩ := read_join hq hr hroot' hrelative'
    have hfirst : (trim (q ++ "/" ++ r).toList).head? ≠ some '/' := by rwa [head?_trim_join hq hr]
    obtain ⟨w', hw', hjoins'⟩ := read_join hp hwqr hroot hfirst
    refine ⟨w, wqr, w', hw, hwqr, ?_, fun d m l hl => ⟨?_, ?_⟩⟩
    · rw [← hw']
      simp only [String.append_assoc]
    · exact (hjoins.assoc hqr hjoins').lists (read_fromOne hw') hl
    · exact hjoins'.lists (read_fromOne hw') hl

/-- A predicate with a slash in it, and blanks. -/
theorem join_follows_track :
    let p : Path := .mk true [.descendants, .child (.name (.named none "disc")) [.equals (.mk false [.parent]) "a/b"]]
    let q : Path := .mk false [.child (.name (.named none "track")) [.last]]
    Path.read " //disc[..='a/b'] " = .ok ⟨" //disc[..='a/b'] ", p⟩ ∧
      Path.read "track[last()]" = .ok ⟨"track[last()]", q⟩ ∧
      ∃ w, Path.read (" //disc[..='a/b'] " ++ "/" ++ "track[last()]") = .ok w ∧
        ∀ (d : Document) m l, d.holds l = true →
          d.Lists (fun n => ∃ k ∈ p.follow d m l, n ∈ q.follow d m k) (w.path.follow d m l) := by
  intro p q
  have hp : Path.read " //disc[..='a/b'] " = .ok ⟨" //disc[..='a/b'] ", p⟩ := by rfl
  have hq : Path.read "track[last()]" = .ok ⟨"track[last()]", q⟩ := by rfl
  exact ⟨hp, hq, (join_follows hp hq (by decide) (by decide)).1⟩

end Tabulate
