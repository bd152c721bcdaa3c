import Tabulate.Path.Reader
import Mathlib.Data.List.DropRight

/-! Places in the text of a path: how brackets and literals are nested there, and whether the text
there is one that a predicate compares with. -/
namespace Tabulate

namespace Nesting

def afterAll (n : Nesting) (cs : List Char) : Nesting := cs.foldl after n

def never (x : Char) : Nesting → List Char → Bool
  | _, [] => true
  | n, c :: cs => !(n.outside && c = x) && never x (n.after c) cs

def cutAt (x : Char) : Nesting → List Char → Option (List Char × List Char)
  | _, [] => none
  | n, c :: cs =>
    if n.outside && c = x then some ([], cs) else (cutAt x (n.after c) cs).map fun r => (c :: r.1, r.2)

@[simp] theorem afterAll_nil (n : Nesting) : n.afterAll [] = n := rfl

@[simp] theorem afterAll_cons (n : Nesting) (c : Char) (cs : List Char) :
    n.afterAll (c :: cs) = (n.after c).afterAll cs := rfl

theorem afterAll_append (n : Nesting) (as bs : List Char) :
    n.afterAll (as ++ bs) = (n.afterAll as).afterAll bs := List.foldl_append ..

theorem quote_start (c : Char) : ({} : Nesting).quote ≠ some c := nofun

theorem outside_iff {n : Nesting} : n.outside = true ↔ n = {} := by
  obtain ⟨depth, quote⟩ := n
  cases quote <;> simp [outside]

theorem after_eq_self {n : Nesting} {c : Char} (h₁ : c ≠ '\'') (h₂ : c ≠ '"') (h₃ : c ≠ '[')
    (h₄ : c ≠ ']') (hq : n.quote ≠ some c) : n.after c = n := by
  cases hn : n.quote with
  | none => simp [after, hn, h₁, h₂, h₃, h₄]
  | some q =>
    have hc : c ≠ q := fun h => hq (h ▸ hn)
    simp [after, hn, hc]

theorem after_unquoted {d : Int} {c : Char} (h₁ : c ≠ '\'') (h₂ : c ≠ '"') (h₃ : c ≠ '[')
    (h₄ : c ≠ ']') : after ⟨d, none⟩ c = ⟨d, none⟩ :=
  after_eq_self h₁ h₂ h₃ h₄ (quote_start c)

theorem after_other {d : Int} {c : Char} (hquote : ¬(c = '\'' ∨ c = '"')) (hopen : c ≠ '[') (hclose : c ≠ ']') :
    after ⟨d, none⟩ c = ⟨d, none⟩ := by
  rw [not_or] at hquote
  exact after_unquoted hquote.1 hquote.2 hopen hclose

theorem depth_after_none (depth : Int) (c : Char) : (after ⟨depth, none⟩ c).depth =
    if c = '[' then depth + 1 else if c = ']' then depth - 1 else depth := by
  simp only [after]
  split
  · next h => rcases h with rfl | rfl <;> rfl
  · split
    · rfl
    · split <;> rfl

theorem after_literal (d : Int) (q c : Char) : after ⟨d, some q⟩ c = ⟨d, if c = q then none else some q⟩ := by
  rw [after]
  dsimp only
  split <;> rfl

theorem after_quote (d : Int) {c : Char} (h : c = '\'' ∨ c = '"') : after ⟨d, none⟩ c = ⟨d, some c⟩ := if_pos h

theorem after_close (d : Int) : after ⟨d, none⟩ ']' = ⟨d - 1, none⟩ := rfl

theorem depth_after_quoted {n : Nesting} {c : Char} (h : n.quote.isSome = true ∨ c = '\'' ∨ c = '"') :
    (n.after c).depth = n.depth := by
  obtain ⟨depth, quote⟩ := n
  cases quote with
  | some q => rw [after_literal]
  | none =>
    have hquote := h.resolve_left (by simp)
    rw [after_quote depth hquote]

/-- What a character can be for the count of brackets. -/
inductive Meets : Nesting → Char → Prop
  | quoted {n : Nesting} {c : Char} : n.quote.isSome = true ∨ c = '\'' ∨ c = '"' → Meets n c
  | opening (d : Int) : Meets ⟨d, none⟩ '['
  | closing (d : Int) : Meets ⟨d, none⟩ ']'
  | other {d : Int} {c : Char} : ¬(c = '\'' ∨ c = '"') → c ≠ '[' → c ≠ ']' → Meets ⟨d, none⟩ c

theorem meets (n : Nesting) (c : Char) : Meets n c := by
  by_cases hquoted : n.quote.isSome = true ∨ c = '\'' ∨ c = '"'
  · exact .quoted hquoted
  rw [not_or] at hquoted
  obtain ⟨d, quote⟩ := n
  obtain rfl : quote = none := by simpa using hquoted.1
  by_cases hopen : c = '['
  · rw [hopen]
    exact .opening d
  by_cases hclose : c = ']'
  · rw [hclose]
    exact .closing d
  · exact .other hquoted.2 hopen hclose

theorem cutAt_eq_none {x : Char} {n : Nesting} {cs : List Char} :
    cutAt x n cs = none ↔ never x n cs = true := by
  induction cs generalizing n with
  | nil => simp [cutAt, never]
  | cons c cs ih =>
    rw [cutAt, never]
    by_cases h : (n.outside && c = x) = true
    · simp [h]
    · simp [h, ih]

theorem cutAt_eq_some {x : Char} {n : Nesting} {cs l r : List Char} (h : cutAt x n cs = some (l, r)) :
    cs = l ++ x :: r ∧ never x n l = true ∧ n.afterAll l = {} := by
  induction cs generalizing n l with
  | nil => cases h
  | cons c cs ih =>
    rw [cutAt] at h
    by_cases hc : (n.outside && c = x) = true
    · rw [if_pos hc] at h
      cases h
      simp only [Bool.and_eq_true, decide_eq_true_eq] at hc
      exact ⟨by rw [hc.2]; rfl, rfl, outside_iff.1 hc.1⟩
    · rw [if_neg hc] at h
      obtain ⟨⟨l', r'⟩, hcut, heq⟩ := Option.map_eq_some_iff.1 h
      cases heq
      obtain ⟨rfl, hnever, hafter⟩ := ih hcut
      exact ⟨rfl, by simp [never, hc, hnever], hafter⟩

theorem cutAt_append {x : Char} {n : Nesting} {l : List Char} (hl : never x n l = true)
    (hend : n.afterAll l = {}) (r : List Char) : cutAt x n (l ++ x :: r) = some (l, r) := by
  induction l generalizing n with
  | nil =>
    rw [afterAll_nil] at hend
    simp [cutAt, hend, outside]
  | cons c l ih =>
    rw [never, Bool.and_eq_true, Bool.not_eq_true'] at hl
    rw [List.cons_append, cutAt, hl.1, ih hl.2 hend]
    rfl

theorem never_append_iff {x : Char} {n : Nesting} {as bs : List Char} :
    never x n (as ++ bs) = true ↔ never x n as = true ∧ never x (n.afterAll as) bs = true := by
  induction as generalizing n with
  | nil => simp [never]
  | cons a as ih => rw [List.cons_append, never, never, Bool.and_eq_true, Bool.and_eq_true, ih, and_assoc, afterAll_cons]

theorem never_right {x : Char} {n : Nesting} {as bs : List Char}
    (h : never x n (as ++ bs) = true) : never x (n.afterAll as) bs = true := (never_append_iff.1 h).2

theorem never_of_append {x : Char} {n : Nesting} {as bs : List Char}
    (h : never x n (as ++ bs) = true) : never x n as = true := (never_append_iff.1 h).1

end Nesting

/-- The same nesting, with brackets counted from further inside. -/
def Nesting.lower (n : Nesting) (k : Int) : Nesting := ⟨n.depth - k, n.quote⟩

theorem Nesting.after_lower (n : Nesting) (k : Int) (c : Char) :
    (n.lower k).after c = (n.after c).lower k := by
  obtain ⟨depth, quote⟩ := n
  cases quote with
  | some q =>
    simp only [after, lower]
    split <;> rfl
  | none =>
    simp only [after, lower]
    split
    · rfl
    · split
      · simp only [Nesting.mk.injEq, and_true]
        omega
      · split
        · simp only [Nesting.mk.injEq, and_true]
          omega
        · rfl

theorem Nesting.afterAll_lower (n : Nesting) (k : Int) (cs : List Char) :
    (n.lower k).afterAll cs = (n.afterAll cs).lower k := by
  induction cs generalizing n with
  | nil => rfl
  | cons c cs ih => rw [afterAll_cons, after_lower, ih, afterAll_cons]

structure PathPlace where
  nesting : Nesting := {}
  /-- The depth of the predicate that compares with the text this is part of. -/
  compared : Option Int := none

namespace PathPlace

def comparedAfter (depth : Int) (c : Char) : Option Int → Option Int
  | none => if c = '=' then some depth else none
  | some k => if c = ']' ∧ depth = k then none else some k

def after (s : PathPlace) (c : Char) : PathPlace where
  nesting := s.nesting.after c
  compared :=
    if s.nesting.quote.isSome then s.compared else comparedAfter s.nesting.depth c s.compared

def afterAll (s : PathPlace) (cs : List Char) : PathPlace := cs.foldl after s

@[simp] theorem nesting_after (s : PathPlace) (c : Char) :
    (s.after c).nesting = s.nesting.after c := rfl

@[simp] theorem afterAll_nil (s : PathPlace) : s.afterAll [] = s := rfl

@[simp] theorem afterAll_cons (s : PathPlace) (c : Char) (cs : List Char) :
    s.afterAll (c :: cs) = (s.after c).afterAll cs := rfl

theorem afterAll_append (s : PathPlace) (as bs : List Char) :
    s.afterAll (as ++ bs) = (s.afterAll as).afterAll bs := List.foldl_append ..

@[simp] theorem nesting_afterAll (s : PathPlace) (cs : List Char) :
    (s.afterAll cs).nesting = s.nesting.afterAll cs := by
  induction cs generalizing s with
  | nil => rfl
  | cons c cs ih => rw [afterAll_cons, ih, Nesting.afterAll_cons, nesting_after]

def lower (s : PathPlace) (k : Int) : PathPlace := ⟨s.nesting.lower k, s.compared.map (· - k)⟩

theorem after_lower (s : PathPlace) (k : Int) (c : Char) : (s.lower k).after c = (s.after c).lower k := by
  have hcompared : comparedAfter (s.nesting.depth - k) c (s.compared.map (· - k)) =
      (comparedAfter s.nesting.depth c s.compared).map (· - k) := by
    cases s.compared with
    | none =>
      simp only [Option.map_none, comparedAfter]
      split <;> rfl
    | some j =>
      have hj : s.nesting.depth - k = j - k ↔ s.nesting.depth = j := by omega
      simp only [Option.map_some, comparedAfter, hj]
      split <;> rfl
  simp only [after, lower, Nesting.after_lower, mk.injEq, true_and]
  cases hq : s.nesting.quote with
  | none => simpa [Nesting.lower, hq] using hcompared
  | some q => simp [Nesting.lower, hq]

theorem afterAll_lower (s : PathPlace) (k : Int) (cs : List Char) :
    (s.lower k).afterAll cs = (s.afterAll cs).lower k := by
  induction cs generalizing s with
  | nil => rfl
  | cons c cs ih => rw [afterAll_cons, after_lower, ih, afterAll_cons]

structure Sane (s : PathPlace) : Prop where
  depth : 0 ≤ s.nesting.depth
  compared : ∀ k, s.compared = some k → 0 ≤ k ∧ k ≤ s.nesting.depth

theorem sane_start : ({} : PathPlace).Sane := ⟨Int.le_refl 0, nofun⟩

theorem Sane.after {s : PathPlace} (h : s.Sane) {c : Char}
    (hc : (s.nesting.outside && c = ']') = false) : (s.after c).Sane := by
  obtain ⟨⟨depth, quote⟩, compared⟩ := s
  obtain ⟨hdepth, hcompared⟩ := h
  simp only at hdepth hcompared
  cases quote with
  | some q =>
    have hd : (Nesting.after ⟨depth, some q⟩ c).depth = depth := by
      simp only [Nesting.after]
      split <;> rfl
    exact ⟨by rwa [nesting_after, hd], fun k hk => by rw [nesting_after, hd]; exact hcompared k hk⟩
  | none =>
    have hd := Nesting.depth_after_none depth c
    have hclose : c = ']' → 0 < depth := by
      rintro rfl
      simp only [Nesting.outside, decide_true, Bool.and_true, Option.isNone_none,
        decide_eq_false_iff_not] at hc
      omega
    refine ⟨?_, fun k hk => ?_⟩
    · rw [nesting_after, hd]
      split
      · omega
      · split
        · next h => exact Int.sub_nonneg_of_le (hclose h)
        · exact hdepth
    · rw [nesting_after, hd]
      simp only [PathPlace.after, Option.isSome_none, Bool.false_eq_true, if_false] at hk
      cases compared with
      | none =>
        simp only [comparedAfter] at hk
        split at hk
        · next h =>
          cases hk
          subst h
          exact ⟨hdepth, by simp⟩
        · cases hk
      | some j =>
        obtain ⟨hj, hle⟩ := hcompared j rfl
        simp only [comparedAfter] at hk
        split at hk
        · cases hk
        · next h =>
          cases hk
          refine ⟨hj, ?_⟩
          split
          · omega
          · split
            · next hc =>
              have hne : depth ≠ k := fun he => h ⟨hc, he⟩
              omega
            · exact hle

theorem Sane.afterAll {s : PathPlace} (h : s.Sane) {cs : List Char}
    (hc : Nesting.never ']' s.nesting cs = true) : (s.afterAll cs).Sane := by
  induction cs generalizing s with
  | nil => exact h
  | cons c cs ih =>
    rw [Nesting.never, Bool.and_eq_true, Bool.not_eq_true'] at hc
    exact ih (h.after hc.1) hc.2

theorem Sane.compared_outside {s : PathPlace} (h : s.Sane) (hs : s.nesting = {}) :
    s.compared = none ∨ s.compared = some 0 := by
  cases hc : s.compared with
  | none => exact .inl rfl
  | some k =>
    have hk := h.compared k hc
    rw [hs] at hk
    simp only at hk
    exact .inr (by rw [show k = 0 by omega])

end PathPlace

section Blank
variable {c : Char} {cs : List Char}

theorem ne_of_blank (h : Text.isBlank c = true) {x : Char} (hx : Text.isBlank x = false) : c ≠ x := by
  rintro rfl
  rw [h] at hx
  cases hx

theorem Nesting.after_blank (n : Nesting) (h : Text.isBlank c = true)
    (hq : n.quote ≠ some c) : n.after c = n :=
  after_eq_self (ne_of_blank h (by decide)) (ne_of_blank h (by decide)) (ne_of_blank h (by decide))
    (ne_of_blank h (by decide)) hq

theorem PathPlace.after_blank (h : Text.isBlank c = true) : ({} : PathPlace).after c = {} := by
  have hn : ({} : Nesting).after c = {} := Nesting.after_blank {} h (Nesting.quote_start c)
  have he : c ≠ '=' := ne_of_blank h (by decide)
  simp [after, hn, comparedAfter, he]

def Nesting.Quoted (n : Nesting) : Prop := ∀ q, n.quote = some q → q = '\'' ∨ q = '"'

theorem Nesting.quoted_default : ({} : Nesting).Quoted := nofun

theorem Nesting.Quoted.after {n : Nesting} (h : n.Quoted) (c : Char) : (n.after c).Quoted := by
  obtain ⟨depth, quote⟩ := n
  cases quote with
  | some q =>
    simp only [Nesting.after]
    split
    · exact nofun
    · exact h
  | none =>
    simp only [Nesting.after]
    split
    · next hc =>
      intro q hq
      cases hq
      exact hc
    · split
      · exact nofun
      · split <;> exact nofun

theorem Nesting.Quoted.afterAll {n : Nesting} (h : n.Quoted) (cs : List Char) :
    (n.afterAll cs).Quoted := by
  induction cs generalizing n with
  | nil => exact h
  | cons c cs ih => exact ih (h.after c)

theorem Nesting.Quoted.after_blank {n : Nesting} (h : n.Quoted) (hc : Text.isBlank c = true) :
    n.after c = n := by
  refine Nesting.after_blank n hc fun hq => ?_
  rcases h c hq with rfl | rfl <;> exact absurd hc (by decide)

theorem Nesting.Quoted.afterAll_blank {n : Nesting} (h : n.Quoted)
    (hc : ∀ c ∈ cs, Text.isBlank c = true) : n.afterAll cs = n := by
  induction cs with
  | nil => rfl
  | cons c cs ih =>
    rw [afterAll_cons, h.after_blank (hc c (by simp))]
    exact ih fun x hx => hc x (List.mem_cons_of_mem _ hx)

theorem eq_trimEnd_append (cs : List Char) :
    ∃ bs, cs = Text.trimEnd cs ++ bs ∧ ∀ c ∈ bs, Text.isBlank c = true :=
  ⟨cs.rtakeWhile Text.isBlank, List.rdropWhile_append_rtakeWhile.symm, fun _ => List.mem_rtakeWhile_imp⟩

theorem eq_append_trimStart (cs : List Char) :
    ∃ bs, cs = bs ++ Text.trimStart cs ∧ ∀ c ∈ bs, Text.isBlank c = true :=
  ⟨cs.takeWhile Text.isBlank, List.takeWhile_append_dropWhile.symm, fun _ => List.mem_takeWhile_imp⟩

theorem Nesting.afterAll_trim {n : Nesting} (h : n.Quoted) (cs : List Char) :
    n.afterAll (Text.trim cs) = n.afterAll cs := by
  obtain ⟨bs, hcs, hbs⟩ := eq_append_trimStart cs
  obtain ⟨es, hes, hblank⟩ := eq_trimEnd_append (Text.trimStart cs)
  have hend : n.afterAll (Text.trimStart cs) = n.afterAll (Text.trim cs) := by
    rw [hes, afterAll_append, (h.afterAll _).afterAll_blank hblank]
    rfl
  rw [← hend]
  conv_rhs => rw [hcs, afterAll_append, h.afterAll_blank hbs]

theorem PathPlace.after_quoted_blank {s : PathPlace} (h : s.nesting.Quoted) (hc : Text.isBlank c = true) :
    s.after c = s := by
  obtain ⟨nesting, compared⟩ := s
  have hequals : c ≠ '=' := ne_of_blank hc (by decide)
  have hclose : c ≠ ']' := ne_of_blank hc (by decide)
  simp only [after, h.after_blank hc, mk.injEq, true_and]
  cases compared <;> simp [comparedAfter, hequals, hclose]

theorem PathPlace.afterAll_blank {s : PathPlace} (h : s.nesting.Quoted)
    (hc : ∀ c ∈ cs, Text.isBlank c = true) : s.afterAll cs = s := by
  induction cs with
  | nil => rfl
  | cons c cs ih =>
    rw [afterAll_cons, after_quoted_blank h (hc c (by simp))]
    exact ih fun x hx => hc x (List.mem_cons_of_mem _ hx)

theorem PathPlace.afterAll_trim {s : PathPlace} (h : s.nesting.Quoted) (cs : List Char) :
    s.afterAll (Text.trim cs) = s.afterAll cs := by
  obtain ⟨bs, hcs, hbs⟩ := eq_append_trimStart cs
  obtain ⟨es, hes, hblank⟩ := eq_trimEnd_append (Text.trimStart cs)
  have hend : s.afterAll (Text.trimStart cs) = s.afterAll (Text.trim cs) := by
    rw [hes, afterAll_append, afterAll_blank (by rw [nesting_afterAll]; exact h.afterAll _) hblank]
    rfl
  rw [← hend]
  conv_rhs => rw [hcs, afterAll_append, afterAll_blank h hbs]

theorem Nesting.never_trim {x : Char} (h : Nesting.never x {} cs = true) :
    Nesting.never x {} (Text.trim cs) = true := by
  obtain ⟨bs, hcs, hbs⟩ := eq_append_trimStart cs
  obtain ⟨es, hes, -⟩ := eq_trimEnd_append (Text.trimStart cs)
  rw [hcs] at h
  have hstart := never_right h
  rw [quoted_default.afterAll_blank hbs, hes] at hstart
  exact never_of_append hstart

end Blank

end Tabulate
