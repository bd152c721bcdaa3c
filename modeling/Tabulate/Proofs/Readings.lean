import Tabulate.Proofs.Steps

/-! What marked texts are read as. Where a text without marks is a path, the text with its marks is read
as the same path, but for the alias, exactly where all marks are harmless. -/
namespace Tabulate

open MarkedText (plain shown)

section Segments
variable {u : MarkedText} {us : List MarkedText} {b : Bool} {f : MarkedText → List Char}

def markedSteps : Bool → List MarkedText → List (Bool × MarkedText)
  | _, [] => []
  | _, [] :: us => markedSteps true us
  | doubled, u :: us => (doubled, u) :: markedSteps false us

theorem stepTexts_map (hf : ∀ u ∈ us, f u = [] ↔ u = []) (doubled : Bool) :
    Path.stepTexts doubled (us.map f) = (markedSteps doubled us).map fun x => (x.1, f x.2) := by
  induction us generalizing doubled with
  | nil => rfl
  | cons u us ih =>
    have hu := hf u List.mem_cons_self
    have hus (d : Bool) := ih (fun u hu => hf u (List.mem_cons_of_mem _ hu)) d
    cases u with
    | nil => rw [List.map_cons, hu.2 rfl, Path.stepTexts, hus, markedSteps]
    | cons t ts =>
      obtain ⟨c, cs, hc⟩ := List.exists_cons_of_ne_nil fun he => List.cons_ne_nil t ts (hu.1 he)
      rw [List.map_cons, hc, Path.stepTexts, hus, markedSteps, List.map_cons, hc]
      · simp
      · simp

theorem mem_markedSteps (doubled : Bool) :
    (∀ x ∈ markedSteps doubled us, x.2 ∈ us) ∧ ∀ u ∈ us, u ≠ [] → ∃ d, (d, u) ∈ markedSteps doubled us := by
  induction us generalizing doubled with
  | nil => simp [markedSteps]
  | cons u us ih =>
    cases u with
    | nil =>
      refine ⟨fun x hx => List.mem_cons_of_mem _ ((ih true).1 x hx), fun u hu hne => ?_⟩
      rcases List.mem_cons.1 hu with rfl | hu
      · exact absurd rfl hne
      · exact (ih true).2 u hu hne
    | cons t ts =>
      rw [markedSteps]
      · refine ⟨List.forall_mem_cons.2 ⟨List.mem_cons_self, fun x hx => ?_⟩, fun u hu hne => ?_⟩
        · exact List.mem_cons_of_mem _ ((ih false).1 x hx)
        · rcases List.mem_cons.1 hu with rfl | hu
          · exact ⟨doubled, List.mem_cons_self⟩
          · obtain ⟨d, hd⟩ := (ih false).2 u hu hne
            exact ⟨d, List.mem_cons_of_mem _ hd⟩
      · simp

def markedOutline (us : List MarkedText) : Except PathFault (Bool × List (Bool × MarkedText)) :=
  match us with
  | [[], []] => .ok (true, [])
  | [] :: us => if us.getLast? = some [] then .error .trailingSlash else .ok (true, markedSteps false us)
  | us => if us.getLast? = some [] then .error .trailingSlash else .ok (false, markedSteps false us)

theorem mem_markedOutline {absolute : Bool} {xs : List (Bool × MarkedText)}
    (h : markedOutline us = .ok (absolute, xs)) :
    (∀ x ∈ xs, x.2 ∈ us) ∧ ∀ u ∈ us, u ≠ [] → ∃ d, (d, u) ∈ xs := by
  have hslashed {a : Bool} {vs : List MarkedText}
      (hx : (if vs.getLast? = some [] then Except.error PathFault.trailingSlash
        else .ok (a, markedSteps false vs)) = .ok (absolute, xs)) : xs = markedSteps false vs := by
    split at hx <;> cases hx
    rfl
  rw [markedOutline.eq_def] at h
  split at h
  · cases h
    simp
  · obtain rfl := hslashed h
    refine ⟨fun x hx => List.mem_cons_of_mem _ ((mem_markedSteps false).1 x hx), fun u hu hne => ?_⟩
    rcases List.mem_cons.1 hu with rfl | hu
    · exact absurd rfl hne
    · exact (mem_markedSteps false).2 u hu hne
  · obtain rfl := hslashed h
    exact mem_markedSteps false

theorem getLast?_map_eq_nil (hf : ∀ u ∈ us, f u = [] ↔ u = []) :
    (us.map f).getLast? = some [] ↔ us.getLast? = some [] := by
  rw [List.getLast?_map, Option.map_eq_some_iff]
  constructor
  · rintro ⟨u, hu, hnil⟩
    rw [hu, (hf u (List.mem_of_getLast? hu)).1 hnil]
  · intro hu
    exact ⟨[], hu, (hf [] (List.mem_of_getLast? hu)).2 rfl⟩

theorem slashed_map (hf : ∀ u ∈ us, f u = [] ↔ u = []) (absolute : Bool) :
    (if (us.map f).getLast? = some [] then Except.error PathFault.trailingSlash
      else .ok (absolute, Path.stepTexts false (us.map f))) =
    Except.map (fun x => (x.1, x.2.map fun y => (y.1, f y.2)))
      (if us.getLast? = some [] then .error .trailingSlash else .ok (absolute, markedSteps false us)) := by
  by_cases hlast : us.getLast? = some []
  · rw [if_pos ((getLast?_map_eq_nil hf).2 hlast), if_pos hlast]
    rfl
  · rw [if_neg ((getLast?_map_eq_nil hf).not.2 hlast), if_neg hlast, stepTexts_map hf]
    rfl

theorem outline_map {cs : List Char} (hf : ∀ u ∈ us, f u = [] ↔ u = [])
    (h : Path.parts {} cs = .ok (us.map f)) :
    Path.outline cs = (markedOutline us).map fun x => (x.1, x.2.map fun y => (y.1, f y.2)) := by
  rw [Path.outline, h]
  have hcons {u : MarkedText} (hu : u ∈ us) (hne : u ≠ []) : ∃ c cs, f u = c :: cs :=
    List.exists_cons_of_ne_nil fun he => hne ((hf u hu).1 he)
  cases us with
  | nil => rfl
  | cons u us =>
    cases u with
    | cons t ts =>
      obtain ⟨c, cs, hc⟩ := hcons List.mem_cons_self (List.cons_ne_nil t ts)
      have hslashed := slashed_map hf false
      rw [List.map_cons, hc] at hslashed ⊢
      exact hslashed
    | nil =>
      have hnil : f [] = [] := (hf [] List.mem_cons_self).2 rfl
      have hslashed := slashed_map (fun u hu => hf u (List.mem_cons_of_mem _ hu)) true
      rw [List.map_cons, hnil]
      cases us with
      | nil => rfl
      | cons u us =>
        cases u with
        | cons t ts =>
          obtain ⟨c, cs, hc⟩ := hcons (List.mem_cons_of_mem _ List.mem_cons_self) (List.cons_ne_nil t ts)
          rw [List.map_cons, hc] at hslashed ⊢
          exact hslashed
        | nil =>
          rw [List.map_cons, hnil] at hslashed ⊢
          cases us with
          | nil => rfl
          | cons u us => exact hslashed

theorem placed_segments (h : Placed b (u ++ us.flatMap (some '/' :: ·))) :
    Placed b u ∧ ∀ v ∈ us, Placed true v := by
  refine ⟨h.left, ?_⟩
  induction us generalizing b u with
  | nil => exact List.forall_mem_nil _
  | cons v us ih =>
    have hrest : Placed true (v ++ us.flatMap (some '/' :: ·)) := h.right
    exact List.forall_mem_cons.2 ⟨hrest.left, ih hrest⟩

/-- What is marked is not empty, unless the mark stands at the end. -/
theorem eq_nil_of_placed {v w : MarkedText} (h : Placed b (v ++ some '/' :: w)) (hv : plain v = []) :
    v = [] := by
  cases v with
  | nil => rfl
  | cons t ts =>
    cases t with
    | some c => cases hv
    | none =>
      rw [plain] at hv
      cases h with
      | mark hm _ =>
        have hm : Markable (plain (ts ++ some '/' :: w)) := hm
        rw [plain_append, hv] at hm
        exact absurd (hm.first '/' rfl) (by decide)

theorem allHarmless_segments (h : ∀ v ∈ u :: us, ({} : PathPlace).afterAll (plain v) = {}) :
    allHarmless [] {} (u ++ us.flatMap (some '/' :: ·)) = true ↔
      ∀ v ∈ u :: us, allHarmless [] {} v = true := by
  induction us generalizing u with
  | nil => simp
  | cons v us ih =>
    obtain ⟨hu, hus⟩ := List.forall_mem_cons.1 h
    have hslash : ({} : PathPlace).after '/' = {} := rfl
    rw [List.flatMap_cons, List.cons_append, allHarmless_append, plain, List.cons_append,
      allHarmless_cut (by decide), hu, allHarmless, hslash, Bool.and_eq_true, ih hus,
      List.forall_mem_cons (a := u)]

theorem tidy_or_ends (h : Placed b (u ++ us.flatMap (some '/' :: ·))) :
    (∀ v ∈ u :: us, plain v = [] ↔ v = []) ∨ (u :: us).getLast? = some [none] := by
  induction us generalizing b u with
  | nil =>
    have hu : Placed b u := h.left
    cases hu with
    | nil => exact .inl (by simp [plain])
    | char _ => exact .inl (by simp [plain])
    | mark _ hts =>
      cases hts with
      | nil => exact .inr rfl
      | char _ => exact .inl (by simp [plain])
  | cons v us ih =>
    have hrest : Placed true (v ++ us.flatMap (some '/' :: ·)) := h.right
    rcases ih hrest with htidy | hends
    · refine .inl (List.forall_mem_cons.2 ⟨⟨eq_nil_of_placed h, fun he => by rw [he]; rfl⟩, htidy⟩)
    · exact .inr (by rwa [List.getLast?_cons_cons])

/-- A path that ends with a slash is that slash alone. -/
theorem outline_slash {cs : List Char} {ps : List (List Char)} {x : Bool × List (Bool × List Char)}
    (hp : Path.parts {} cs = .ok ps) (hone : ps ≠ [[]]) (hlast : ps.getLast? = some [])
    (h : Path.outline cs = .ok x) : ps = [[], []] ∧ x = (true, []) := by
  rw [Path.outline, hp] at h
  have hslashed {absolute : Bool} {qs : List (List Char)} (hqs : qs.getLast? = some [])
      (hx : (if qs.getLast? = some [] then Except.error PathFault.trailingSlash
        else .ok (absolute, Path.stepTexts false qs)) = .ok x) : False := by
    rw [if_pos hqs] at hx
    cases hx
  cases ps with
  | nil => cases hlast
  | cons p ps =>
    cases p with
    | cons c p => exact (hslashed hlast h).elim
    | nil =>
      cases ps with
      | nil => exact absurd rfl hone
      | cons q ps =>
        rw [List.getLast?_cons_cons] at hlast
        cases q with
        | cons c q => exact (hslashed hlast h).elim
        | nil =>
          cases ps with
          | nil =>
            cases h
            exact ⟨rfl, rfl⟩
          | cons r ps => exact (hslashed hlast h).elim

end Segments

section Paths
variable {inner inner' : List Char → Except PathError Path} {source source' cs : List Char}
  {ts : MarkedText} {b : Bool}

def readStep (inner : List Char → Except PathError Path) (source : List Char) (x : Bool × List Char) :
    Except PathError (List Step) := do
  let s ← Path.step inner source x.2
  return if x.1 then [.descendants, s] else [s]

theorem readStep_eq_ok {x : Bool × List Char} {ss : List Step} : readStep inner source x = .ok ss ↔
    ∃ S, Path.step inner source x.2 = .ok S ∧ ss = if x.1 then [.descendants, S] else [S] := by
  rw [readStep]
  cases Path.step inner source x.2 with
  | error e => simp [bind, Except.bind]
  | ok S =>
    constructor
    · intro h
      cases h
      exact ⟨S, rfl, rfl⟩
    · rintro ⟨S', hS', rfl⟩
      cases hS'
      rfl

def ReadsAs (inner : List Char → Except PathError Path) (source cs : List Char) (p : Path) : Prop :=
  ∃ absolute texts steps, Path.outline cs = .ok (absolute, texts) ∧
    texts.mapM (readStep inner source) = .ok steps ∧ p = .mk absolute steps.flatten

theorem ofChars_eq_ok {depth : Nat} {p : Path} : Path.ofChars (depth + 1) cs = .ok p ↔
    Text.trim cs ≠ [] ∧ ReadsAs (Path.ofChars depth) cs (Text.trim cs) p := by
  rw [Path.ofChars, ReadsAs]
  by_cases hempty : (Text.trim cs).isEmpty = true
  · rw [if_pos hempty]
    simp only [List.isEmpty_iff] at hempty
    simp [hempty, Path.blame]
  · rw [if_neg hempty]
    have hne : Text.trim cs ≠ [] := by simpa using hempty
    simp only [hne, ne_eq, not_false_eq_true, true_and]
    cases ho : Path.outline (Text.trim cs) with
    | error e => simp [Path.blame, bind, Except.bind]
    | ok r =>
      obtain ⟨absolute, ts⟩ := r
      show (do
        let steps ← ts.mapM (readStep (Path.ofChars depth) cs)
        pure (Path.mk absolute steps.flatten)) = .ok p ↔ _
      cases hs : ts.mapM (readStep (Path.ofChars depth) cs) with
      | error e => simp [hs, bind, Except.bind]
      | ok steps => simp [hs, bind, Except.bind, pure, Except.pure, eq_comm]

theorem readStep_marked (hinner : ReadsMarked inner inner') (h : Placed b ts) (hpart : IsPart {} (plain ts))
    {doubled : Bool} {ss : List Step} (hs : readStep inner source (doubled, plain ts) = .ok ss) :
    ({} : PathPlace).afterAll (plain ts) = {} ∧ (allHarmless [] {} ts = true ↔
      ∃ ss', readStep inner' source' (doubled, shown ts) = .ok ss' ∧ bareSteps ss' = bareSteps ss) := by
  obtain ⟨S, hS, rfl⟩ := readStep_eq_ok.1 hs
  obtain ⟨hcompared, hread⟩ : _ ∧ (_ ↔ ∃ S', Path.step inner' source' (shown ts) = .ok S' ∧ _) :=
    step_marked hinner h hpart hS
  constructor
  · have hnesting : (({} : PathPlace).afterAll (plain ts)).nesting = {} := by
      rw [PathPlace.nesting_afterAll, hpart.closed]
    generalize ({} : PathPlace).afterAll (plain ts) = s at hcompared hnesting
    obtain ⟨nesting, compared⟩ := s
    cases hnesting
    cases hcompared
    rfl
  · rw [hread]
    constructor
    · rintro ⟨S', hS', hbare⟩
      refine ⟨_, readStep_eq_ok.2 ⟨S', hS', rfl⟩, ?_⟩
      cases doubled <;> simp [bareSteps, hbare]
    · rintro ⟨ss', hss', hbare⟩
      obtain ⟨S', hS', rfl⟩ := readStep_eq_ok.1 hss'
      refine ⟨S', hS', ?_⟩
      cases doubled <;> simpa [bareSteps] using hbare

theorem bareSteps_flatten {ss ts : List (List Step)}
    (h : List.Forall₂ (fun s t => bareSteps t = bareSteps s) ss ts) :
    bareSteps ts.flatten = bareSteps ss.flatten := by
  induction h with
  | nil => rfl
  | cons hst _ ih => rw [List.flatten_cons, List.flatten_cons, bareSteps_append, bareSteps_append, hst, ih]

theorem length_bareSteps (ss : List Step) : (bareSteps ss).length = ss.length := by
  induction ss with
  | nil => rfl
  | cons s ss ih => rw [bareSteps, List.length_cons, List.length_cons, ih]

theorem forall₂_of_flatten {ss ts : List (List Step)}
    (hlen : List.Forall₂ (fun s t => t.length = s.length) ss ts)
    (h : bareSteps ts.flatten = bareSteps ss.flatten) :
    List.Forall₂ (fun s t => bareSteps t = bareSteps s) ss ts := by
  induction hlen with
  | nil => exact .nil
  | @cons s t ss ts hst _ ih =>
    rw [List.flatten_cons, List.flatten_cons, bareSteps_append, bareSteps_append] at h
    obtain ⟨hhead, htail⟩ := List.append_inj h (by rw [length_bareSteps, length_bareSteps, hst])
    exact .cons hhead (ih htail)

section Segmented
variable {u : MarkedText} {us : List MarkedText} {p : Path}

/-- The segments of a path, as they are read one by one, are read alike with their marks exactly where
all of them are harmless. -/
theorem segments_marked (hinner : ReadsMarked inner inner') {xs : List (Bool × MarkedText)}
    (hplaced : ∀ x ∈ xs, ∃ b, Placed b x.2) (hparts : ∀ x ∈ xs, IsPart {} (plain x.2))
    {steps : List (List Step)} (hs : xs.mapM (fun x => readStep inner source (x.1, plain x.2)) = .ok steps) :
    (∀ x ∈ xs, ({} : PathPlace).afterAll (plain x.2) = {}) ∧
      ((∀ x ∈ xs, allHarmless [] {} x.2 = true) ↔
        ∃ steps', xs.mapM (fun x => readStep inner' source' (x.1, shown x.2)) = .ok steps' ∧
          bareSteps steps'.flatten = bareSteps steps.flatten) := by
  have hread : ∀ x ∈ xs, ∀ ss, readStep inner source (x.1, plain x.2) = .ok ss →
      ({} : PathPlace).afterAll (plain x.2) = {} ∧ (allHarmless [] {} x.2 = true ↔
        ∃ ss', readStep inner' source' (x.1, shown x.2) = .ok ss' ∧ bareSteps ss' = bareSteps ss) := by
    intro x hx ss hss
    obtain ⟨b, hb⟩ := hplaced x hx
    exact readStep_marked hinner hb (hparts x hx) hss
  constructor
  · intro x hx
    obtain ⟨ss, hss⟩ := exists_of_mapM hs x hx
    exact (hread x hx ss hss).1
  · rw [mapM_iff (fun x hx ss hss => (hread x hx ss hss).2) hs]
    constructor
    · rintro ⟨steps', hs', hbare⟩
      exact ⟨steps', hs', bareSteps_flatten hbare⟩
    · rintro ⟨steps', hs', hbare⟩
      refine ⟨steps', hs', forall₂_of_flatten (mapM_forall₂ (fun x ss ss' hss hss' => ?_) hs hs') hbare⟩
      obtain ⟨S, -, rfl⟩ := readStep_eq_ok.1 hss
      obtain ⟨S', -, rfl⟩ := readStep_eq_ok.1 hss'
      cases x.1 <;> rfl

/-- A path in which no segment is nothing but a mark. -/
theorem reads_tidy (hinner : ReadsMarked inner inner') (h : Placed b (u ++ us.flatMap (some '/' :: ·)))
    (htidy : ∀ v ∈ u :: us, plain v = [] ↔ v = [])
    (hplain : Path.parts {} (plain (u ++ us.flatMap (some '/' :: ·))) = .ok ((u :: us).map plain))
    (hshown : Path.parts {} (shown (u ++ us.flatMap (some '/' :: ·))) = .ok ((u :: us).map shown))
    (hp : ReadsAs inner source (plain (u ++ us.flatMap (some '/' :: ·))) p) :
    allHarmless [] {} (u ++ us.flatMap (some '/' :: ·)) = true ↔
      ∃ p', ReadsAs inner' source' (shown (u ++ us.flatMap (some '/' :: ·))) p' ∧ p'.bare = p.bare := by
  obtain ⟨absolute, texts, steps, ho, hs, rfl⟩ := hp
  obtain ⟨-, -, _, _, he, -, hfirst, hrest⟩ := parts_eq_ok hplain
  cases he
  have hparts : ∀ v ∈ u :: us, IsPart {} (plain v) :=
    List.forall_mem_cons.2 ⟨hfirst, fun v hv => hrest _ (List.mem_map_of_mem hv)⟩
  obtain ⟨hu, hus⟩ := placed_segments h
  have hplaced : ∀ v ∈ u :: us, ∃ b', Placed b' v :=
    List.forall_mem_cons.2 ⟨⟨b, hu⟩, fun v hv => ⟨true, hus v hv⟩⟩
  have hshown' := outline_map (fun v _ => shown_eq_nil) hshown
  rw [outline_map htidy hplain] at ho
  cases hm : markedOutline (u :: us) with
  | error e =>
    rw [hm] at ho
    cases ho
  | ok r =>
    obtain ⟨a, xs⟩ := r
    rw [hm] at ho hshown'
    cases ho
    rw [List.mapM_map] at hs
    obtain ⟨hxs, hall⟩ := mem_markedOutline hm
    obtain ⟨hafter, hread⟩ := segments_marked hinner (fun x hx => hplaced x.2 (hxs x hx))
      (fun x hx => hparts x.2 (hxs x hx)) hs
    -- what holds of the empty segment and of all that are read holds of every segment
    have hsegment (P : MarkedText → Prop) (hnil : P []) : (∀ v ∈ u :: us, P v) ↔ ∀ x ∈ xs, P x.2 := by
      refine ⟨fun hv x hx => hv x.2 (hxs x hx), fun hx v hv => ?_⟩
      by_cases hne : v = []
      · rwa [hne]
      · obtain ⟨d, hd⟩ := hall v hv hne
        exact hx _ hd
    have hsegments := allHarmless_segments
      ((hsegment (fun v => ({} : PathPlace).afterAll (plain v) = {}) rfl).2 hafter)
    rw [hsegments, hsegment (fun v => allHarmless [] {} v = true) rfl, hread]
    constructor
    · rintro ⟨steps', hs', hbare⟩
      refine ⟨.mk a steps'.flatten, ⟨a, _, steps', hshown', by rwa [List.mapM_map], rfl⟩, ?_⟩
      rw [Path.bare, Path.bare, hbare]
    · rintro ⟨p', ⟨a', texts', steps', hout, hs', rfl⟩, hbare⟩
      cases hshown'.symm.trans hout
      rw [List.mapM_map] at hs'
      exact ⟨steps', hs', by simpa [Path.bare] using hbare⟩

/-- A mark behind the last slash makes a step where there is none. -/
theorem reads_ending (h : Placed b (u ++ us.flatMap (some '/' :: ·)))
    (hends : (u :: us).getLast? = some [none]) (hne : plain (u ++ us.flatMap (some '/' :: ·)) ≠ [])
    (hplain : Path.parts {} (plain (u ++ us.flatMap (some '/' :: ·))) = .ok ((u :: us).map plain))
    (hp : ReadsAs inner source (plain (u ++ us.flatMap (some '/' :: ·))) p) :
    allHarmless [] {} (u ++ us.flatMap (some '/' :: ·)) = true ↔
      ∃ p', ReadsAs inner' source' (shown (u ++ us.flatMap (some '/' :: ·))) p' ∧ p'.bare = p.bare := by
  obtain ⟨absolute, texts, steps, ho, hs, rfl⟩ := hp
  have hlast : ((u :: us).map plain).getLast? = some [] := by
    rw [List.getLast?_map, hends]
    rfl
  have hone : (u :: us).map plain ≠ [[]] := by
    intro he
    obtain ⟨hu, hus⟩ := List.cons.inj he
    obtain rfl := List.map_eq_nil_iff.1 hus
    exact hne (by simpa using hu)
  obtain ⟨hslash, hempty⟩ := outline_slash hplain hone hlast ho
  obtain ⟨v, rfl⟩ : ∃ v, us = [v] := by
    have hlen := congrArg List.length hslash
    simp only [List.length_cons, List.length_map, List.length_nil] at hlen
    exact List.length_eq_one_iff.1 (by omega)
  obtain rfl : v = [none] := by simpa using hends
  have hu : plain u = [] := (List.cons.inj hslash).1
  obtain rfl : u = [] := eq_nil_of_placed h hu
  cases hempty
  cases hs
  have hout : Path.outline (shown [some '/', none]) = .ok (true, [(false, ['_', ':'])]) := rfl
  have hharm : allHarmless [] {} ([] ++ [[none]].flatMap (some '/' :: ·)) = false := by decide
  rw [hharm]
  constructor
  · intro hfalse
    cases hfalse
  · rintro ⟨p', ⟨a', texts', steps', hout', hs', rfl⟩, hbare⟩
    cases hout.symm.trans hout'
    obtain ⟨ss, ss', hss, hnil, rfl⟩ := mapM_cons_eq_ok.1 hs'
    cases hnil
    obtain ⟨S, -, rfl⟩ := readStep_eq_ok.1 hss
    simp [Path.bare, bareSteps] at hbare

end Segmented

/-- The steps of a path are read alike with their marks exactly where all of them are harmless. -/
theorem reads_marked (hinner : ReadsMarked inner inner') (h : Placed b ts) (hne : plain ts ≠ [])
    {p : Path} (hp : ReadsAs inner source (plain ts) p) :
    allHarmless [] {} ts = true ↔ ∃ p', ReadsAs inner' source' (shown ts) p' ∧ p'.bare = p.bare := by
  obtain ⟨ps, hps⟩ : ∃ ps, Path.parts {} (plain ts) = .ok ps := by
    obtain ⟨absolute, texts, steps, ho, -, -⟩ := hp
    cases hps : Path.parts {} (plain ts) with
    | ok ps => exact ⟨ps, rfl⟩
    | error e =>
      rw [Path.outline, hps] at ho
      cases ho
  obtain ⟨u, us, rfl, rfl, hshown⟩ := parts_marked Nesting.quoted_default hps
  rcases tidy_or_ends h with htidy | hends
  · exact reads_tidy hinner h htidy hps hshown hp
  · exact reads_ending h hends hne hps hp

/-- The first step of a path that is not absolute. -/
theorem outline_relative {texts : List (Bool × List Char)} (h : Path.outline cs = .ok (false, texts)) :
    ∃ text rest, texts = (false, text) :: rest ∧ text <+: cs ∧ IsPart {} text := by
  rw [Path.outline] at h
  cases hps : Path.parts {} cs with
  | error e =>
    rw [hps] at h
    cases h
  | ok ps =>
    obtain ⟨-, -, p, qs, rfl, hprefix, hpart, -⟩ := parts_eq_ok hps
    rw [hps] at h
    cases p with
    | cons c p =>
      have hslashed : (if ((c :: p) :: qs).getLast? = some [] then Except.error PathFault.trailingSlash
          else .ok (false, Path.stepTexts false ((c :: p) :: qs))) = .ok (false, texts) := h
      split at hslashed <;> cases hslashed
      exact ⟨c :: p, _, rfl, hprefix, hpart⟩
    | nil =>
      have hslashed (ps : List (List Char)) :
          (if ps.getLast? = some [] then Except.error PathFault.trailingSlash
            else .ok (true, Path.stepTexts false ps)) ≠ .ok (false, texts) := by
        split <;> simp
      cases qs with
      | nil => exact absurd h (hslashed [])
      | cons q qs =>
        cases q with
        | cons c q => exact absurd h (hslashed ((c :: q) :: qs))
        | nil =>
          cases qs with
          | nil => cases h
          | cons r qs => exact absurd h (hslashed ([] :: r :: qs))

theorem outline_mark {a : Bool} {texts : List (Bool × List Char)}
    (h : Path.outline ('_' :: ':' :: cs) = .ok (a, texts)) :
    a = false ∧ ∃ q rest, texts = (false, '_' :: ':' :: q) :: rest ∧ q <+: cs := by
  rw [Path.outline, parts_mark Nesting.quoted_default] at h
  cases hps : Path.parts {} cs with
  | error e =>
    rw [hps] at h
    cases h
  | ok ps =>
    obtain ⟨-, -, p, qs, rfl, hprefix, -⟩ := parts_eq_ok hps
    rw [hps] at h
    have hslashed : (if (('_' :: ':' :: p) :: qs).getLast? = some [] then Except.error PathFault.trailingSlash
        else .ok (false, Path.stepTexts false (('_' :: ':' :: p) :: qs))) = .ok (a, texts) := h
    split at hslashed <;> cases hslashed
    exact ⟨rfl, p, _, rfl, hprefix⟩

theorem reads_mark {p : Path} (hblank : ∀ c ∈ cs.head?, Text.isBlank c = true)
    (h : ReadsAs inner source ('_' :: ':' :: cs) p) :
    ∃ own ps ss, p.bare = .mk false (.child (.name (.named none (String.ofList own))) ps :: ss) ∧
      ∀ c ∈ own.head?, Text.isBlank c = true := by
  obtain ⟨a, texts, steps, ho, hs, rfl⟩ := h
  obtain ⟨rfl, q, rest, rfl, hq⟩ := outline_mark ho
  obtain ⟨ss, sss, hss, -, rfl⟩ := mapM_cons_eq_ok.1 hs
  obtain ⟨S, hS, rfl⟩ := readStep_eq_ok.1 hss
  obtain ⟨own, ps, hown, hblank'⟩ := step_mark (fun c hc => hblank c (head?_of_start hq hc)) hS
  refine ⟨own, ps, bareSteps sss.flatten, ?_, hblank'⟩
  simp [Path.bare, bareSteps, hown]

theorem reads_own {p : Path} {own : List Char} {ps : List Predicate} {ss : List Step}
    (hmark : ':' ∉ cs.takeWhile fun c => c != '[' && c != '/') (h : ReadsAs inner source cs p)
    (hbare : p.bare = .mk false (.child (.name (.named none (String.ofList own))) ps :: ss)) :
    ∃ c ∈ own.head?, Text.isBlank c = false := by
  obtain ⟨a, texts, steps, ho, hs, rfl⟩ := h
  simp only [Path.bare, Path.mk.injEq] at hbare
  obtain ⟨rfl, hbare⟩ := hbare
  obtain ⟨text, rest, rfl, ⟨es, rfl⟩, hpart⟩ := outline_relative ho
  obtain ⟨ss, sss, hss, -, rfl⟩ := mapM_cons_eq_ok.1 hs
  obtain ⟨S, hS, rfl⟩ := readStep_eq_ok.1 hss
  simp only [Bool.false_eq_true, if_false, List.flatten_cons, List.cons_append, List.nil_append,
    bareSteps, List.cons.injEq] at hbare
  exact step_own (fun hc => hmark (takeWhile_subset_append _ es hc)) hpart hS hbare.1

theorem ofChars_stranded {depth depth' : Nat} (h : Placed b ts) (hs : stranded ts = true) {p p' : Path}
    (hp : Path.ofChars depth (plain ts) = .ok p) (hp' : Path.ofChars depth' (shown ts) = .ok p') :
    p'.bare ≠ p.bare := by
  intro hbare
  cases depth with
  | zero => cases hp
  | succ depth =>
    cases depth' with
    | zero => cases hp'
    | succ depth' =>
      obtain ⟨us, rfl, hus, -⟩ := exists_of_stranded h hs
      have hmark : Markable (plain us) := by
        cases h with
        | mark hm _ => exact hm
      have hblank : ∀ c ∈ (Text.trimEnd (shown us)).head?, Text.isBlank c = true := by
        obtain ⟨es, hes, -⟩ := eq_trimEnd_append (shown us)
        intro c hc
        have hc := head?_of_start ⟨es, hes.symm⟩ hc
        rcases hus with rfl | ⟨d, vs, rfl, hd⟩
        · cases hc
        · cases hc
          exact hd
      obtain ⟨-, hread'⟩ := ofChars_eq_ok.1 hp'
      obtain ⟨-, hread⟩ := ofChars_eq_ok.1 hp
      rw [shown, trim_mark] at hread'
      obtain ⟨own, ps, ss, hown, hblank⟩ := reads_mark hblank hread'
      obtain ⟨c, hc, hnot⟩ := reads_own (fun hc => hmark.colonless (takeWhile_trim_subset _ hc)) hread
        (hbare.symm.trans hown)
      rw [hblank c hc] at hnot
      cases hnot

/-- A text is read alike with its marks exactly where all of them are harmless. -/
theorem ofChars_marked (depth depth' : Nat) (hd : depth ≤ depth') (h : Placed b ts) {p : Path}
    (hp : Path.ofChars depth (plain ts) = .ok p) :
    allHarmless [] {} ts = true ↔ ∃ p', Path.ofChars depth' (shown ts) = .ok p' ∧ p'.bare = p.bare := by
  induction depth generalizing depth' b ts p with
  | zero => cases hp
  | succ depth ih =>
    cases depth' with
    | zero => exact absurd hd (Nat.not_succ_le_zero _)
    | succ depth' =>
      have hinner : ReadsMarked (Path.ofChars depth) (Path.ofChars depth') :=
        fun b ts p h hp => ih depth' (Nat.le_of_succ_le_succ hd) h hp
      by_cases hs : stranded ts = true
      · obtain ⟨us, -, -, hharm⟩ := exists_of_stranded h hs
        rw [hharm]
        constructor
        · intro hfalse
          cases hfalse
        · rintro ⟨p', hp', hbare⟩
          exact absurd hbare (ofChars_stranded h hs hp hp')
      · obtain ⟨b', us, -, hplain, hshown, hus, -, -, hharm⟩ := trim_marked h (Bool.eq_false_iff.2 hs)
        obtain ⟨hne, hread⟩ := ofChars_eq_ok.1 hp
        rw [hplain] at hne hread
        have hne' : shown us ≠ [] := by
          rw [ne_eq, shown_eq_nil]
          rintro rfl
          exact hne rfl
        have hmarked : _ ↔ ∃ p', ReadsAs (Path.ofChars depth') (shown ts) (shown us) p' ∧ _ :=
          reads_marked hinner hus hne hread
        rw [hharm, hmarked]
        simp only [ofChars_eq_ok, hshown, hne', ne_eq, not_false_eq_true, true_and]

end Paths

end Tabulate
