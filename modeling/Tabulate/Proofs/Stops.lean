import Tabulate.Proofs.Accepted

/-! Where the reading of a path is stopped. A path in a predicate is shorter than the path that it stands in,
so reading ends. A bracket in a literal is taken for the first bracket of a step, and the brackets behind it
are then counted from inside of the literal: there the count falls below zero. -/
namespace Tabulate

open Text (trim)

def PathFault.refuses (f : PathFault) : Bool := !f.stops && f != .tooDeep

theorem length_trim_le (cs : List Char) : (trim cs).length ≤ cs.length := (infix_trim cs).length_le

/-! ### Failing by a fault -/

section Faults
variable {α β : Type} {fault : PathFault} {y : Except PathError α} {g : α → Except PathError β} {source : List Char}

def FailsBy (fault : PathFault) (y : Except PathError α) : Prop := ∃ e, y = .error e ∧ e.fault = fault

theorem not_failsBy_ok (a : α) : ¬FailsBy fault (.ok a) := by
  rintro ⟨_, he, -⟩
  cases he

theorem failsBy_blame {x : Except PathFault α} : FailsBy fault (Path.blame source x) ↔ x = .error fault := by
  cases x with
  | ok a => simp [FailsBy, Path.blame]
  | error f => simp [FailsBy, Path.blame]

theorem failsBy_map {k : α → β} : FailsBy fault (y.map k) ↔ FailsBy fault y := by
  cases y with
  | ok a => simp [FailsBy, Except.map]
  | error e => simp [FailsBy, Except.map]

theorem failsBy_bind : FailsBy fault (y >>= g) ↔ FailsBy fault y ∨ ∃ a, y = .ok a ∧ FailsBy fault (g a) := by
  cases y with
  | ok a => simp [FailsBy, bind, Except.bind]
  | error e => simp [FailsBy, bind, Except.bind]

/-- A sequence fails at its first member that fails. -/
theorem failsBy_mapM {as : List α} : FailsBy fault (as.mapM g) ↔
    ∃ front a back, as = front ++ a :: back ∧ (∀ b ∈ front, ∃ y, g b = .ok y) ∧ FailsBy fault (g a) := by
  induction as with
  | nil =>
    refine ⟨fun h => absurd h (not_failsBy_ok []), ?_⟩
    rintro ⟨front, a, back, h, -⟩
    exact absurd h (by simp)
  | cons a as ih =>
    rw [List.mapM_cons, failsBy_bind]
    constructor
    · rintro (ha | ⟨y, hy, hrest⟩)
      · exact ⟨[], a, as, rfl, List.forall_mem_nil _, ha⟩
      · obtain hrest | ⟨_, -, hpure⟩ := failsBy_bind.1 hrest
        · obtain ⟨front, b, back, rfl, hfront, hb⟩ := ih.1 hrest
          exact ⟨a :: front, b, back, rfl, List.forall_mem_cons.2 ⟨⟨y, hy⟩, hfront⟩, hb⟩
        · exact absurd hpure (not_failsBy_ok _)
    · rintro ⟨front, b, back, heq, hfront, hb⟩
      cases front with
      | nil =>
        obtain ⟨rfl, rfl⟩ := List.cons.inj heq
        exact .inl hb
      | cons c front =>
        obtain ⟨rfl, rfl⟩ := List.cons.inj heq
        obtain ⟨⟨y, hy⟩, hfront⟩ := List.forall_mem_cons.1 hfront
        exact .inr ⟨y, hy, failsBy_bind.2 (.inl (ih.2 ⟨front, b, back, rfl, hfront, hb⟩))⟩

theorem mapM_congr {as : List α} {g' : α → Except PathError β} (h : ∀ a ∈ as, g a = g' a) :
    as.mapM g = as.mapM g' := by
  induction as with
  | nil => rfl
  | cons a as ih =>
    obtain ⟨ha, has⟩ := List.forall_mem_cons.1 h
    rw [List.mapM_cons, List.mapM_cons, ha, ih has]

end Faults

/-! ### Names and parts -/

section Refusals
variable {α β : Type} {fault : PathFault}

theorem refuses_of_map {x : Except PathFault α} {k : α → β} (hx : ∀ f, x = .error f → f.refuses = true)
    (h : x.map k = .error fault) : fault.refuses = true := by
  cases x with
  | ok a => cases h
  | error f =>
    cases h
    exact hx _ rfl

theorem nameTest_refuses {name : List Char} (h : Path.nameTest name = .error fault) : fault.refuses = true := by
  rw [Path.nameTest] at h
  split at h
  · cases h
    rfl
  split at h
  · cases h
  split at h
  · cases h
    rfl
  split at h <;> cases h

theorem test_refuses {head : List Char} {ps : List Predicate} (h : Path.test head ps = .error fault) :
    fault.refuses = true := by
  rw [Path.test.eq_def] at h
  split at h
  · exact refuses_of_map (fun _ => nameTest_refuses) h
  split at h
  · cases h
  split at h
  · cases h
  exact refuses_of_map (fun _ => nameTest_refuses) h

theorem parts_refuses {n : Nesting} {cs : List Char} (h : Path.parts n cs = .error fault) : fault.refuses = true := by
  induction cs generalizing n fault with
  | nil =>
    rw [Path.parts] at h
    split at h
    · cases h
      rfl
    split at h
    · cases h
      rfl
    · cases h
  | cons c cs ih =>
    rw [Path.parts] at h
    split at h
    · split at h
      · cases h
        rfl
      · exact refuses_of_map (fun _ => ih) h
    split at h
    · cases h
      rfl
    · exact refuses_of_map (fun _ => ih) h

theorem outline_refuses {cs : List Char} (h : Path.outline cs = .error fault) : fault.refuses = true := by
  rw [Path.outline] at h
  cases hparts : Path.parts {} cs with
  | error f =>
    rw [hparts] at h
    cases h
    exact parts_refuses hparts
  | ok ps =>
    rw [hparts] at h
    dsimp only [bind, Except.bind] at h
    split at h
    · cases h
    · split at h
      · cases h
        rfl
      · cases h
    · split at h
      · cases h
        rfl
      · cases h

end Refusals

/-! ### Predicates -/

section Predicates
variable {inner inner' : List Char → Except PathError Path} {source text : List Char} {fault : PathFault}

def pathIn (text : List Char) : List Char :=
  match Nesting.cutAt '=' {} (trim text) with
  | some (left, _) => trim left
  | none => trim text

theorem length_pathIn_le (text : List Char) : (pathIn text).length ≤ text.length := by
  have htrim := length_trim_le text
  rw [pathIn]
  split
  · next left right hcut =>
    have hexpr := congrArg List.length (Nesting.cutAt_eq_some hcut).1
    have hleft := length_trim_le left
    rw [List.length_append] at hexpr
    omega
  · exact htrim

/-- With a path in it a predicate is read as that path is, and otherwise it is read alike everywhere. -/
theorem predicate_path (source : List Char) (hnever : Nesting.never ']' {} text = true) :
    (HoldsPath (trim text) ∧ ∃ k : Path → Predicate, ∀ inner : List Char → Except PathError Path,
      Path.predicate inner source text = (inner (pathIn text)).map k) ∨
    (¬HoldsPath (trim text) ∧ ∃ y : Except PathError Predicate, (∀ fault, FailsBy fault y → fault.refuses = true) ∧
      ∀ inner : List Char → Except PathError Path, Path.predicate inner source text = y) := by
  simp only [predicate_eq hnever]
  by_cases hempty : (trim text).isEmpty = true
  · refine .inr ⟨fun h => h.nonempty (List.isEmpty_iff.1 hempty), _, fun fault hfault => ?_, fun _ => if_pos hempty⟩
    cases failsBy_blame.1 hfault
    rfl
  by_cases hlast : trim text = "last()".toList
  · refine .inr ⟨fun h => h.notLast hlast, .ok .last, fun fault hfault => absurd hfault (not_failsBy_ok _), fun _ => ?_⟩
    rw [if_neg hempty, if_pos hlast]
  cases hnumber : Path.number? (trim text) with
  | some n =>
    refine .inr ⟨fun h => Option.some_ne_none n (hnumber.symm.trans h.notNumber), ?_⟩
    cases n with
    | zero =>
      refine ⟨Path.blame source (.error .positionZero), fun fault hfault => ?_, fun _ => ?_⟩
      · cases failsBy_blame.1 hfault
        rfl
      · rw [if_neg hempty, if_neg hlast]
        rfl
    | succ n =>
      refine ⟨.ok (.position (n + 1)), fun fault hfault => absurd hfault (not_failsBy_ok _), fun _ => ?_⟩
      rw [if_neg hempty, if_neg hlast]
      rfl
  | none =>
    refine .inl ⟨⟨fun h => hempty (List.isEmpty_iff.2 h), hlast, hnumber⟩, ?_⟩
    rw [pathIn]
    cases hcut : Nesting.cutAt '=' {} (trim text) with
    | none =>
      refine ⟨.holds, fun _ => ?_⟩
      rw [if_neg hempty, if_neg hlast]
    | some lr =>
      refine ⟨(.equals · (String.ofList (Path.unquote (trim lr.2)))), fun _ => ?_⟩
      rw [if_neg hempty, if_neg hlast]

theorem predicate_congr (hnever : Nesting.never ']' {} text = true) (h : inner (pathIn text) = inner' (pathIn text)) :
    Path.predicate inner source text = Path.predicate inner' source text := by
  obtain ⟨-, k, hread⟩ | ⟨-, y, -, hread⟩ := predicate_path source hnever
  · rw [hread, hread, h]
  · rw [hread, hread]

theorem predicate_failsBy (hfault : fault.refuses = false) (hnever : Nesting.never ']' {} text = true) :
    FailsBy fault (Path.predicate inner source text) ↔ HoldsPath (trim text) ∧ FailsBy fault (inner (pathIn text)) := by
  obtain ⟨hholds, k, hread⟩ | ⟨hholds, y, hy, hread⟩ := predicate_path source hnever
  · rw [hread, failsBy_map, and_iff_right hholds]
  · rw [hread]
    exact ⟨fun h => absurd (hy fault h) (Bool.eq_false_iff.1 hfault), fun h => absurd h.1 hholds⟩

end Predicates

/-! ### Steps -/

section Steps
variable {inner inner' : List Char → Except PathError Path} {source text : List Char} {fault : PathFault}

/-- Texts in brackets are shorter than the step that they stand in, and close no bracket that they have not opened. -/
theorem mem_brackets {ts : List (List Char)} (hts : Path.brackets {} [] (behindName text) = some ts) {t : List Char}
    (ht : t ∈ ts) : t.length < text.length ∧ Nesting.never ']' {} t = true := by
  refine ⟨?_, never_of_brackets (.inl rfl) hts t ht⟩
  obtain ⟨head, rest, htrim, hbracket, hrest⟩ := exists_head (trim text)
  have hlength := length_trim_le text
  rw [htrim, List.length_append] at hlength
  rw [behindName, htrim, dropWhile_head hbracket hrest] at hts
  obtain rfl | ⟨r, rfl⟩ := hrest
  · cases hts
    cases ht
  · rw [brackets_open] at hts
    have hinfix := (infix_of_brackets hts t ht).length_le
    rw [if_pos rfl, List.reverse_nil, List.nil_append] at hinfix
    rw [List.length_cons] at hlength
    omega

theorem step_eq_unnamed (h : ¬IsNamed (trim text)) (inner inner' : List Char → Except PathError Path) :
    Path.step inner source text = Path.step inner' source text := by
  rw [Path.step, Path.step]
  dsimp only
  split
  · rfl
  split
  · rfl
  split
  · rfl
  · next hself hparent haxis => exact absurd ⟨hself, hparent, Bool.eq_false_iff.2 haxis⟩ h

/-- A step is read by reading shorter texts. -/
theorem step_congr (h : ∀ t, t.length < text.length → inner t = inner' t) :
    Path.step inner source text = Path.step inner' source text := by
  by_cases hnamed : IsNamed (trim text)
  · rw [step_eq_named hnamed, step_eq_named hnamed]
    cases hts : Path.brackets {} [] (behindName text) with
    | none => rfl
    | some ts =>
      dsimp only
      rw [mapM_congr fun t ht => ?_]
      obtain ⟨hlength, hnever⟩ := mem_brackets hts ht
      exact predicate_congr hnever (h _ ((length_pathIn_le t).trans_lt hlength))
  · exact step_eq_unnamed hnamed inner inner'

/-- The path in a predicate of a step, with all predicates in front of it read. -/
def ReachesPath (inner : List Char → Except PathError Path) (source text cs : List Char) : Prop :=
  ∃ front t back, Path.brackets {} [] (behindName text) = some (front ++ t :: back) ∧
    (∀ u ∈ front, ∃ p, Path.predicate inner source u = .ok p) ∧ HoldsPath (trim t) ∧ cs = pathIn t

theorem ReachesPath.length_lt {cs : List Char} (h : ReachesPath inner source text cs) : cs.length < text.length := by
  obtain ⟨front, t, back, hts, -, -, rfl⟩ := h
  exact (length_pathIn_le t).trans_lt (mem_brackets hts (by simp)).1

theorem ReachesPath.congr {cs : List Char} (h : ∀ t, t.length < text.length → inner t = inner' t)
    (hcs : ReachesPath inner source text cs) : ReachesPath inner' source text cs := by
  obtain ⟨front, t, back, hts, hfront, hholds, rfl⟩ := hcs
  refine ⟨front, t, back, hts, fun u hu => ?_, hholds, rfl⟩
  obtain ⟨hlength, hnever⟩ := mem_brackets hts (List.mem_append_left _ hu)
  rw [← predicate_congr hnever (h _ ((length_pathIn_le u).trans_lt hlength))]
  exact hfront u hu

/-- The reading of a step fails by no fault of the text at a bracket, or in a path inside of a predicate. -/
theorem step_failsBy (hfault : fault.refuses = false) : FailsBy fault (Path.step inner source text) ↔
    IsNamed (trim text) ∧ ((Path.overcloses {} (behindName text) = true ∧ fault = .belowZero) ∨
      ∃ cs, ReachesPath inner source text cs ∧ FailsBy fault (inner cs)) := by
  have hanswer {α : Type} (h : FailsBy (α := α) fault (.error ⟨String.ofList source, .afterPredicate
      (String.ofList (trim text))⟩)) : False := by
    obtain ⟨_, he, rfl⟩ := h
    cases he
    cases hfault
  by_cases hnamed : IsNamed (trim text)
  · rw [and_iff_right hnamed, step_eq_named hnamed]
    by_cases hover : Path.overcloses {} (behindName text) = true
    · have hnone : ∀ cs, ¬ReachesPath inner source text cs := by
        rintro cs ⟨front, t, back, hts, -⟩
        cases (brackets_of_overcloses hover []).symm.trans hts
      rw [if_pos hover, and_iff_right hover, or_iff_left fun ⟨cs, hcs, _⟩ => hnone cs hcs]
      simp [FailsBy, eq_comm]
    · rw [if_neg hover, or_iff_right fun h => hover h.1]
      cases hts : Path.brackets {} [] (behindName text) with
      | none =>
        refine ⟨fun h => (hanswer h).elim, ?_⟩
        rintro ⟨cs, ⟨front, t, back, hsome, -⟩, -⟩
        cases hts.symm.trans hsome
      | some ts =>
        -- the name is tested last, and that fails only by a fault of the text
        dsimp only
        rw [failsBy_bind, failsBy_mapM, or_iff_left]
        · constructor
          · rintro ⟨front, u, back, rfl, hfront, hu⟩
            rw [predicate_failsBy hfault (mem_brackets hts (by simp)).2] at hu
            exact ⟨pathIn u, ⟨front, u, back, hts, hfront, hu.1, rfl⟩, hu.2⟩
          · rintro ⟨cs, ⟨front, u, back, hsome, hfront, hholds, rfl⟩, hcs⟩
            obtain rfl := Option.some.inj (hts.symm.trans hsome)
            exact ⟨front, u, back, rfl, hfront,
              (predicate_failsBy hfault (mem_brackets hts (by simp)).2).2 ⟨hholds, hcs⟩⟩
        · rintro ⟨ps, -, htest⟩
          exact Bool.eq_false_iff.1 hfault (test_refuses (failsBy_blame.1 htest))
  · refine ⟨fun h => ?_, fun h => absurd h.1 hnamed⟩
    rw [Path.step] at h
    dsimp only at h
    split at h
    · exact absurd h (not_failsBy_ok _)
    split at h
    · exact absurd h (not_failsBy_ok _)
    split at h
    · cases failsBy_blame.1 h
      cases hfault
    · next hself hparent haxis => exact absurd ⟨hself, hparent, Bool.eq_false_iff.2 haxis⟩ hnamed

theorem depth_afterAll_name {n : Nesting} {cs : List Char} (hbracket : '[' ∉ cs)
    (hnever : Nesting.never ']' n cs = true) (hn : n.depth = 0) : (n.afterAll cs).depth = 0 := by
  induction cs generalizing n with
  | nil => exact hn
  | cons c cs ih =>
    rw [List.mem_cons, not_or] at hbracket
    rw [Nesting.never, Bool.and_eq_true, Bool.not_eq_true'] at hnever
    refine ih hbracket.2 hnever.2 ?_
    obtain ⟨d, quote⟩ := n
    obtain rfl : d = 0 := hn
    cases quote with
    | some q => rw [Nesting.after_literal]
    | none =>
      have hclose : c ≠ ']' := by
        rintro rfl
        exact absurd hnever.1 (by decide)
      rw [Nesting.depth_after_none, if_neg (Ne.symm hbracket.1), if_neg hclose]

/-- A bracket is closed that was not opened only where the first bracket of the step stands in a literal. -/
theorem isSome_of_overcloses (hpart : IsPart {} text) (h : Path.overcloses {} (behindName text) = true) :
    (Nesting.afterAll {} ((trim text).takeWhile (· != '['))).quote.isSome = true := by
  have hpart := hpart.trim
  obtain ⟨head, rest, htrim, hbracket, hrest⟩ := exists_head (trim text)
  rw [behindName, htrim, dropWhile_head hbracket hrest] at h
  rw [htrim] at hpart
  rw [htrim, takeWhile_head hbracket hrest]
  have hdepth := depth_afterAll_name hbracket (Nesting.never_of_append hpart.balanced) rfl
  have hbehind := Nesting.never_right hpart.balanced
  generalize Nesting.afterAll {} head = n at hdepth hbehind
  obtain ⟨d, quote⟩ := n
  obtain rfl : d = 0 := hdepth
  cases quote with
  | some q => rfl
  | none => exact absurd h (Bool.eq_false_iff.1 (overcloses_of_never hbehind))

end Steps

/-! ### Paths -/

section Paths
variable {inner inner' : List Char → Except PathError Path} {source text cs : List Char} {fault : PathFault}
  {absolute : Bool} {texts : List (Bool × List Char)}

theorem infix_of_outline (h : Path.outline cs = .ok (absolute, texts)) : ∀ x ∈ texts, x.2 <:+: cs := by
  have hslashed {xs : List (Bool × List Char)} {x : Bool × List Char} (hx : x ∈ xs) : x.2 <:+: xs.flatMap slashed :=
    (List.suffix_append _ x.2).isInfix.trans (List.infix_of_mem_flatten (List.mem_map_of_mem hx))
  by_cases hne : cs = []
  · subst hne
    cases h
    exact List.forall_mem_nil _
  obtain ⟨-, rfl⟩ | ⟨-, first, rest, rfl, rfl⟩ := outline_text hne h
  · intro x hx
    rw [if_neg (by simpa using List.ne_nil_of_mem hx)]
    exact hslashed hx
  · refine List.forall_mem_cons.2 ⟨(List.prefix_append first _).isInfix, fun x hx => ?_⟩
    exact (hslashed hx).trans (List.suffix_append first _).isInfix

theorem outline_part (h : Path.outline (trim source) = .ok (absolute, texts)) {x : Bool × List Char} (hx : x ∈ texts) :
    IsPart {} x.2 ∧ x.2.length ≤ source.length :=
  ⟨isPart_of_outline h x hx, (infix_of_outline h x hx).length_le.trans (length_trim_le source)⟩

def Path.readWith (inner : List Char → Except PathError Path) (source : List Char) : Except PathError Path :=
  if (trim source).isEmpty then blame source (.error .empty)
  else do
    let (absolute, texts) ← blame (trim source) (outline (trim source))
    let steps ← texts.mapM (readStep inner source)
    return .mk absolute steps.flatten

theorem ofChars_succ (depth : Nat) (source : List Char) :
    Path.ofChars (depth + 1) source = Path.readWith (Path.ofChars depth) source := rfl

/-- A path is read by reading shorter texts. -/
theorem readWith_congr (h : ∀ t, t.length < source.length → inner t = inner' t) :
    Path.readWith inner source = Path.readWith inner' source := by
  rw [Path.readWith, Path.readWith]
  split
  · rfl
  cases houtline : Path.outline (trim source) with
  | error f => rfl
  | ok r =>
    dsimp only [Path.blame, bind, Except.bind]
    rw [mapM_congr fun x hx => ?_]
    rw [readStep, readStep, step_congr fun t ht => h t (ht.trans_le (outline_part houtline hx).2)]

/-- More depth than the length of a path is not made use of. -/
theorem ofChars_eq_of_lt {depth depth' : Nat} (h : source.length < depth) (h' : source.length < depth') :
    Path.ofChars depth source = Path.ofChars depth' source := by
  induction depth generalizing source depth' with
  | zero => exact absurd h (Nat.not_lt_zero _)
  | succ depth ih =>
    obtain ⟨depth', rfl⟩ := Nat.exists_eq_succ_of_ne_zero (Nat.ne_zero_of_lt h')
    rw [ofChars_succ, ofChars_succ]
    exact readWith_congr fun t ht =>
      ih (ht.trans_le (Nat.le_of_lt_succ h)) (ht.trans_le (Nat.le_of_lt_succ h'))

/-- A step in a path, with all steps in front of it read. -/
def ReachesStep (source text : List Char) : Prop :=
  ∃ absolute front doubled back, Path.outline (trim source) = .ok (absolute, front ++ (doubled, text) :: back) ∧
    (∀ x ∈ front, ∃ S, Path.step (Path.ofChars source.length) source x.2 = .ok S) ∧ IsNamed (trim text)

theorem ReachesStep.named (h : ReachesStep source text) : IsNamed (trim text) := by
  obtain ⟨absolute, front, doubled, back, -, -, hnamed⟩ := h
  exact hnamed

theorem ReachesStep.part (h : ReachesStep source text) : IsPart {} text ∧ text.length ≤ source.length := by
  obtain ⟨absolute, front, doubled, back, houtline, -⟩ := h
  exact outline_part houtline (x := (doubled, text)) (by simp)

/-- Whether the reading of a path comes to a bracket that is closed and was not opened. -/
inductive Overcloses : List Char → Prop
  | step {source text : List Char} : ReachesStep source text →
      Path.overcloses {} (behindName text) = true → Overcloses source
  | inside {source text cs : List Char} : ReachesStep source text →
      ReachesPath (Path.ofChars source.length) source text cs → Overcloses cs → Overcloses source

theorem readStep_failsBy {x : Bool × List Char} :
    FailsBy fault (readStep inner source x) ↔ FailsBy fault (Path.step inner source x.2) := by
  rw [readStep, failsBy_bind]
  apply or_iff_left
  rintro ⟨S, -, hpure⟩
  exact not_failsBy_ok _ hpure

theorem exists_readStep_iff {x : Bool × List Char} :
    (∃ ss, readStep inner source x = .ok ss) ↔ ∃ S, Path.step inner source x.2 = .ok S := by
  constructor
  · rintro ⟨ss, hss⟩
    obtain ⟨S, hS, -⟩ := readStep_eq_ok.1 hss
    exact ⟨S, hS⟩
  · rintro ⟨S, hS⟩
    exact ⟨_, readStep_eq_ok.2 ⟨S, hS, rfl⟩⟩

/-- The reading of a path fails by no fault of the text at a step that is reached. -/
theorem readWith_failsBy (hfault : fault.refuses = false) :
    FailsBy fault (Path.readWith (Path.ofChars source.length) source) ↔ ∃ text, ReachesStep source text ∧
      FailsBy fault (Path.step (Path.ofChars source.length) source text) := by
  rw [Path.readWith]
  by_cases hempty : (trim source).isEmpty = true
  · have hnone : Path.outline (trim source) = .ok (true, []) := by
      rw [List.isEmpty_iff.1 hempty]
      rfl
    rw [if_pos hempty, failsBy_blame]
    constructor
    · intro h
      cases h
      cases hfault
    · rintro ⟨text, ⟨absolute, front, doubled, back, houtline, -⟩, -⟩
      have htexts := congrArg Prod.snd (Except.ok.inj (hnone.symm.trans houtline))
      exact absurd htexts (by simp)
  rw [if_neg hempty]
  cases houtline : Path.outline (trim source) with
  | error f =>
    rw [failsBy_bind, failsBy_blame]
    constructor
    · rintro (h | ⟨r, hr, -⟩)
      · cases h
        exact absurd (outline_refuses houtline) (Bool.eq_false_iff.1 hfault)
      · cases hr
    · rintro ⟨text, ⟨absolute, front, doubled, back, hreached, -⟩, -⟩
      cases houtline.symm.trans hreached
  | ok r =>
    obtain ⟨absolute, texts⟩ := r
    show FailsBy fault (texts.mapM (readStep _ source) >>= fun steps => pure (Path.mk absolute steps.flatten)) ↔ _
    rw [failsBy_bind, or_iff_left fun ⟨_, _, hpure⟩ => not_failsBy_ok _ hpure, failsBy_mapM]
    constructor
    · rintro ⟨front, x, back, rfl, hfront, hx⟩
      have hx := readStep_failsBy.1 hx
      refine ⟨x.2, ⟨absolute, front, x.1, back, houtline, fun y hy => ?_, ((step_failsBy hfault).1 hx).1⟩, hx⟩
      exact exists_readStep_iff.1 (hfront y hy)
    · rintro ⟨text, ⟨_, front, doubled, back, hreached, hfront, -⟩, hx⟩
      obtain ⟨-, rfl⟩ := Prod.mk.inj (Except.ok.inj (houtline.symm.trans hreached))
      exact ⟨front, (doubled, text), back, rfl, fun y hy => exists_readStep_iff.2 (hfront y hy),
        readStep_failsBy.2 hx⟩

/-- With enough depth a path is read step by step. -/
theorem ofChars_failsBy_step {depth : Nat} (hfault : fault.refuses = false) (h : source.length < depth) :
    FailsBy fault (Path.ofChars depth source) ↔ ∃ text, ReachesStep source text ∧
      FailsBy fault (Path.step (Path.ofChars source.length) source text) := by
  rw [ofChars_eq_of_lt h (Nat.lt_succ_self _), ofChars_succ, readWith_failsBy hfault]

theorem ReachesPath.length_lt_source (h : ReachesPath inner source text cs) (htext : ReachesStep source text) :
    cs.length < source.length :=
  h.length_lt.trans_le htext.part.2

theorem belowZero_of_fails {depth : Nat} (hfault : fault.refuses = false) (h : source.length < depth)
    (hfails : FailsBy fault (Path.ofChars depth source)) : fault = .belowZero ∧ Overcloses source := by
  -- the depth bounds the length, and the path in a predicate is shorter
  induction depth generalizing source with
  | zero => exact absurd h (Nat.not_lt_zero _)
  | succ depth ih =>
    obtain ⟨text, htext, hstep⟩ := (ofChars_failsBy_step hfault h).1 hfails
    obtain ⟨-, ⟨hover, rfl⟩ | ⟨cs, hcs, hinside⟩⟩ := (step_failsBy hfault).1 hstep
    · exact ⟨rfl, .step htext hover⟩
    · have hlength := hcs.length_lt_source htext
      have hdepth : cs.length < depth := hlength.trans_le (Nat.le_of_lt_succ h)
      rw [ofChars_eq_of_lt hlength hdepth] at hinside
      obtain ⟨rfl, hover⟩ := ih hdepth hinside
      exact ⟨rfl, .inside htext hcs hover⟩

theorem Overcloses.fails {depth : Nat} (hover : Overcloses source) (h : source.length < depth) :
    FailsBy .belowZero (Path.ofChars depth source) := by
  induction hover generalizing depth with
  | step htext hover =>
    rw [ofChars_failsBy_step rfl h]
    exact ⟨_, htext, (step_failsBy rfl).2 ⟨htext.named, .inl ⟨hover, rfl⟩⟩⟩
  | inside htext hcs _ ih =>
    rw [ofChars_failsBy_step rfl h]
    exact ⟨_, htext, (step_failsBy rfl).2 ⟨htext.named, .inr ⟨_, hcs, ih (hcs.length_lt_source htext)⟩⟩⟩

/-- With enough depth, reading fails by no fault of the text but at a bracket that is closed and was not opened. -/
theorem ofChars_failsBy {depth : Nat} (hfault : fault.refuses = false) (h : source.length < depth) :
    FailsBy fault (Path.ofChars depth source) ↔ fault = .belowZero ∧ Overcloses source := by
  constructor
  · exact belowZero_of_fails hfault h
  · rintro ⟨rfl, hover⟩
    exact hover.fails h

end Paths

theorem read_failsBy {fault : PathFault} (hfault : fault.refuses = false) (s : String) :
    FailsBy fault (Path.read s) ↔ fault = .belowZero ∧ Overcloses s.toList := by
  rw [Path.read, failsBy_map]
  exact ofChars_failsBy hfault (Nat.lt_succ_self _)

/-- Reading a path is stopped exactly where it comes to a bracket that is closed and was not opened, and the first
bracket of such a step stands in a literal. Everywhere else it answers with the path or a fault of its text: no
slice is out of range, and the depth is enough, since a path is read by reading shorter texts only. What is read
counts positions from one on. -/
theorem read_stops_iff (s : String) :
    (FailsBy .belowZero (Path.read s) ↔ Overcloses s.toList) ∧
    (¬Overcloses s.toList → (∃ w, Path.read s = .ok w) ∨ ∃ e, Path.read s = .error e ∧ e.fault.refuses = true) ∧
    ¬FailsBy .badSlice (Path.read s) ∧
    (∀ inner, (∀ t, t.length < s.toList.length → inner t = Path.ofChars s.toList.length t) →
      Path.read s = (Path.readWith inner s.toList).map (⟨s, ·⟩)) ∧
    (∀ w, Path.read s = .ok w → w.path.fromOne = true) ∧
    ∀ text, ReachesStep s.toList text → Path.overcloses {} (behindName text) = true →
      (Nesting.afterAll {} ((trim text).takeWhile (· != '['))).quote.isSome = true := by
  refine ⟨?_, fun hover => ?_, fun h => ?_, fun inner hinner => ?_, fun w => read_fromOne, fun text htext =>
    isSome_of_overcloses htext.part.1⟩
  · rw [read_failsBy rfl, and_iff_right rfl]
  · cases hread : Path.read s with
    | ok w => exact .inl ⟨w, rfl⟩
    | error e =>
      refine .inr ⟨e, rfl, ?_⟩
      by_contra hrefuses
      exact hover ((read_failsBy (Bool.eq_false_iff.2 hrefuses) s).1 ⟨e, hread, rfl⟩).2
  · cases ((read_failsBy rfl s).1 h).1
  · rw [Path.read, ofChars_succ, readWith_congr hinner]

/-- In a literal that is all of a path, a bracket is closed twice. -/
theorem stopped_in_literal : Path.read "'[1]]'" = .error ⟨"'[1]]'", .belowZero⟩ ∧
    ¬∀ s : String, (∃ w, Path.read s = .ok w) ∨ ∃ e, Path.read s = .error e ∧ e.fault.refuses = true := by
  have hstop : Path.read "'[1]]'" = .error ⟨"'[1]]'", .belowZero⟩ := by rfl
  refine ⟨hstop, fun h => ?_⟩
  obtain ⟨w, hw⟩ | ⟨e, he, hrefuses⟩ := h "'[1]]'"
  · cases hstop.symm.trans hw
  · cases hstop.symm.trans he
    cases hrefuses

end Tabulate
