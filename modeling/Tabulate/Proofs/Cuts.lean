import Tabulate.Proofs.Brackets
import Tabulate.Proofs.Marks

/-! How marked texts are cut into steps and predicates. The pieces are those of the text without
marks, each with its own marks. -/
namespace Tabulate

open Tabulate.Path (parts brackets)
open MarkedText (plain shown)

structure IsPart (n : Nesting) (p : List Char) : Prop where
  whole : Nesting.never '/' n p = true
  balanced : Nesting.never ']' n p = true
  closed : n.afterAll p = {}

theorem IsPart.trim {p : List Char} (h : IsPart {} p) : IsPart {} (Text.trim p) := by
  refine ⟨Nesting.never_trim h.whole, Nesting.never_trim h.balanced, ?_⟩
  rw [Nesting.afterAll_trim Nesting.quoted_default, h.closed]

section Parts
variable {n : Nesting} {c : Char} {cs : List Char} {ps : List (List Char)} {b : Bool} {ts : MarkedText}

theorem parts_nil (h : parts n [] = .ok ps) : n = {} ∧ ps = [[]] := by
  obtain ⟨depth, quote⟩ := n
  rw [parts] at h
  split at h
  · cases h
  · next hq =>
    split at h
    · cases h
    · next hd =>
      cases h
      simp only [Bool.not_eq_true, Option.isSome_eq_false_iff, Option.isNone_iff_eq_none] at hq
      simp only [ne_eq, Decidable.not_not] at hd
      exact ⟨by rw [hd, hq], rfl⟩

/-- Put a character before the first part. -/
def attach (c : Char) : List (List Char) → List (List Char)
  | p :: ps => (c :: p) :: ps
  | [] => [[c]]

theorem parts_of_inside (hslash : (n.outside && c = '/') = false) (hclose : (n.outside && c = ']') = false)
    (cs : List Char) : parts n (c :: cs) = (parts (n.after c) cs).map (attach c) := by
  rw [parts, if_neg (Bool.eq_false_iff.1 hslash), if_neg (Bool.eq_false_iff.1 hclose)]
  cases parts (n.after c) cs with
  | error e => rfl
  | ok ps => cases ps <;> rfl

theorem parts_cons (h : parts n (c :: cs) = .ok ps) :
    (n = {} ∧ c = '/' ∧ Text.startsWith ['/', '/'] cs = false ∧
      ∃ qs, parts n cs = .ok qs ∧ ps = [] :: qs) ∨
    ((n.outside && c = '/') = false ∧ (n.outside && c = ']') = false ∧
      ∃ qs, parts (n.after c) cs = .ok qs ∧ ps = attach c qs) := by
  by_cases hslash : (n.outside && c = '/') = true
  · rw [parts, if_pos hslash] at h
    rw [Bool.and_eq_true, decide_eq_true_eq, Nesting.outside_iff] at hslash
    split at h
    · cases h
    · next hthree =>
      cases hqs : parts n cs with
      | error e =>
        rw [hqs] at h
        cases h
      | ok qs =>
        rw [hqs] at h
        cases h
        exact .inl ⟨hslash.1, hslash.2, Bool.eq_false_iff.2 hthree, qs, rfl, rfl⟩
  · have hslash := Bool.eq_false_iff.2 hslash
    by_cases hclose : (n.outside && c = ']') = true
    · rw [parts, if_neg (Bool.eq_false_iff.1 hslash), if_pos hclose] at h
      cases h
    · have hclose := Bool.eq_false_iff.2 hclose
      rw [parts_of_inside hslash hclose] at h
      cases hqs : parts (n.after c) cs with
      | error e =>
        rw [hqs] at h
        cases h
      | ok qs =>
        rw [hqs] at h
        cases h
        exact .inr ⟨hslash, hclose, qs, rfl, rfl⟩

theorem isPart_nil : IsPart {} [] := ⟨rfl, rfl, rfl⟩

theorem parts_eq_ok (h : parts n cs = .ok ps) :
    Nesting.never ']' n cs = true ∧ n.afterAll cs = {} ∧
      ∃ p qs, ps = p :: qs ∧ p <+: cs ∧ IsPart n p ∧ ∀ q ∈ qs, IsPart {} q := by
  induction cs generalizing n ps with
  | nil =>
    obtain ⟨rfl, rfl⟩ := parts_nil h
    exact ⟨rfl, rfl, [], [], rfl, List.prefix_rfl, isPart_nil, List.forall_mem_nil _⟩
  | cons c cs ih =>
    rcases parts_cons h with ⟨rfl, rfl, -, qs, hqs, rfl⟩ | ⟨hslash, hclose, qs, hqs, rfl⟩
    · obtain ⟨hnever, hend, p, rest, rfl, -, hp, hrest⟩ := ih hqs
      refine ⟨hnever, hend, [], p :: rest, rfl, List.nil_prefix, isPart_nil, ?_⟩
      intro q hq
      rcases List.mem_cons.1 hq with rfl | hq
      · exact hp
      · exact hrest q hq
    · obtain ⟨hnever, hend, p, rest, rfl, hpre, hp, hrest⟩ := ih hqs
      refine ⟨?_, hend, c :: p, rest, rfl, List.cons_prefix_cons.2 ⟨rfl, hpre⟩, ⟨?_, ?_, hp.closed⟩, hrest⟩
      · rw [Nesting.never, hclose, hnever]
        rfl
      · rw [Nesting.never, hslash, hp.whole]
        rfl
      · rw [Nesting.never, hclose, hp.balanced]
        rfl

theorem not_startsWith_slashes (h : Text.startsWith ['/', '/'] (plain ts) = false) :
    ¬Text.startsWith ['/', '/'] (shown ts) = true := by
  intro hs
  obtain ⟨rest, hr⟩ := Option.isSome_iff_exists.1 hs
  rw [Text.after?_eq_some_iff] at hr
  cases ts with
  | nil => cases hr
  | cons t ts =>
    cases t with
    | none => cases hr
    | some c =>
      cases ts with
      | nil => cases hr
      | cons t ts =>
        cases t with
        | none => cases hr
        | some d =>
          cases hr
          cases h

theorem parts_mark (h : n.Quoted) (cs : List Char) :
    parts n ('_' :: ':' :: cs) = (parts n cs).map fun ps => attach '_' (attach ':' ps) := by
  rw [parts_of_inside (by simp) (by simp), parts_of_inside (by simp) (by simp), h.after_mark]
  cases parts n cs <;> rfl

/-- A text and its marks are cut at the same slashes. -/
theorem parts_marked (h : n.Quoted) (hp : parts n (plain ts) = .ok ps) :
    ∃ (us : MarkedText) (uss : List MarkedText), ts = us ++ uss.flatMap (some '/' :: ·) ∧ ps = plain us :: uss.map plain ∧
      parts n (shown ts) = .ok (shown us :: uss.map shown) := by
  induction ts generalizing n ps with
  | nil =>
    obtain ⟨rfl, rfl⟩ := parts_nil hp
    exact ⟨[], [], rfl, rfl, hp⟩
  | cons t ts ih =>
    cases t with
    | none =>
      obtain ⟨us, uss, rfl, rfl, hshown⟩ := ih h hp
      refine ⟨none :: us, uss, rfl, rfl, ?_⟩
      rw [shown, parts_mark h, hshown]
      rfl
    | some c =>
      rcases parts_cons hp with ⟨rfl, rfl, hthree, qs, hqs, rfl⟩ | ⟨hslash, hclose, qs, hqs, rfl⟩
      · obtain ⟨us, uss, rfl, rfl, hshown⟩ := ih h hqs
        refine ⟨[], us :: uss, rfl, rfl, ?_⟩
        have hcut : parts {} ('/' :: shown (us ++ uss.flatMap (some '/' :: ·))) =
            (parts {} (shown (us ++ uss.flatMap (some '/' :: ·)))).map ([] :: ·) := by
          rw [parts, if_pos (by decide), if_neg (not_startsWith_slashes hthree)]
        exact hcut.trans (congrArg _ hshown)
      · obtain ⟨us, uss, rfl, rfl, hshown⟩ := ih (h.after c) hqs
        refine ⟨some c :: us, uss, rfl, rfl, ?_⟩
        rw [shown, parts_of_inside hslash hclose, hshown]
        rfl

theorem cutAt_marked {x : Char} {l r : List Char} (hx : x ∉ ['_', ':'])
    (h : Nesting.cutAt x {} (plain ts) = some (l, r)) :
    ∃ us vs : MarkedText, ts = us ++ some x :: vs ∧ l = plain us ∧ r = plain vs ∧
      Nesting.never x {} (plain us) = true ∧ Nesting.afterAll {} (plain us) = {} ∧
      Nesting.cutAt x {} (shown ts) = some (shown us, shown vs) := by
  obtain ⟨hts, hnever, hend⟩ := Nesting.cutAt_eq_some h
  obtain ⟨us, vs, rfl, rfl, rfl⟩ := exists_of_plain_eq hts
  refine ⟨us, vs, rfl, rfl, rfl, hnever, hend, ?_⟩
  rw [shown_append]
  refine Nesting.cutAt_append ?_ ?_ _
  · rwa [Nesting.never_shown hx Nesting.quoted_default]
  · rwa [Nesting.afterAll_shown Nesting.quoted_default]

end Parts

section Brackets
variable {n : Nesting} {c : Char} {cs : List Char} {s : PathPlace} {b : Bool} {ts : MarkedText}

/-- Outside of brackets it does not matter what has been read before. -/
theorem brackets_outer (hn : n.depth = 0) (inner : List Char) (cs : List Char) :
    brackets n inner cs = brackets n [] cs := by
  induction cs generalizing n inner with
  | nil => rfl
  | cons c cs ih =>
    cases n.meets c with
    | quoted hq =>
      have hd := (Nesting.depth_after_quoted hq).trans hn
      rw [brackets_quoted hq, brackets_quoted hq, ih hd, ih hd [c]]
    | opening d => rw [brackets_open, brackets_open, if_pos hn, if_pos hn]
    | closing d => rw [brackets_close, brackets_close, if_pos hn, if_pos hn]
    | other hquote hopen hclose =>
      rw [brackets_other hquote hopen hclose, brackets_other hquote hopen hclose, if_pos hn, if_pos hn]

def bracketsFrom (inner : List Char) : Option (List Char × List Char) → Option (List (List Char))
  | none => some []
  | some (t, r) => (brackets {} [] r).map ((inner.reverse ++ t) :: ·)

theorem brackets_inside (hn : 0 ≤ n.depth) (inner : List Char) (cs : List Char) :
    brackets ⟨n.depth + 1, n.quote⟩ inner cs = bracketsFrom inner (Nesting.cutAt ']' n cs) := by
  induction cs generalizing n inner with
  | nil => rfl
  | cons c cs ih =>
    have hnext (hd : 0 ≤ (n.after c).depth) (hcut : (n.outside && c = ']') = false) :
        brackets ⟨(n.after c).depth + 1, (n.after c).quote⟩ (c :: inner) cs =
          bracketsFrom inner (Nesting.cutAt ']' n (c :: cs)) := by
      rw [ih hd, Nesting.cutAt, hcut]
      cases Nesting.cutAt ']' (n.after c) cs <;> simp [bracketsFrom]
    cases n.meets c with
    | quoted hq =>
      have hd := Nesting.depth_after_quoted hq
      have hraise : Nesting.after ⟨n.depth + 1, n.quote⟩ c = ⟨(n.after c).depth + 1, (n.after c).quote⟩ := by
        have hraise := Nesting.after_lower n (-1) c
        simpa only [Nesting.lower, Int.sub_neg] using hraise
      rw [brackets_quoted (n := ⟨n.depth + 1, n.quote⟩) hq, hraise]
      refine hnext (by omega) ?_
      rcases hq with hq | rfl | rfl
      · simp [Nesting.outside, Option.isSome_iff_ne_none.1 hq]
      · simp
      · simp
    | opening d =>
      have hn : 0 ≤ d := hn
      have hinside : ¬d + 1 = 0 := by omega
      have hopened : 0 ≤ (Nesting.after ⟨d, none⟩ '[').depth := Int.le_add_one hn
      rw [brackets_open, if_neg hinside]
      exact hnext hopened (by simp)
    | closing d =>
      have hn : 0 ≤ d := hn
      have hinside : ¬d + 1 = 0 := by omega
      rw [brackets_close, if_neg hinside]
      by_cases hd : d = 0
      · subst hd
        rw [if_pos (Int.zero_add 1), brackets_outer rfl]
        simp [bracketsFrom, Nesting.cutAt, Nesting.outside]
      · have hout : Nesting.outside ⟨d, none⟩ = false := by simp [Nesting.outside, hd]
        have hclosed : 0 ≤ (Nesting.after ⟨d, none⟩ ']').depth := by
          show 0 ≤ d - 1
          omega
        have hdepth : d + 1 - 1 = d - 1 + 1 := by omega
        rw [if_neg (by omega : ¬d + 1 = 1), ← hnext hclosed (by simp [hout]), hdepth]
        rfl
    | @other d c hquote hopen hclose =>
      have hn : 0 ≤ d := hn
      have hinside : ¬d + 1 = 0 := by omega
      rw [brackets_other hquote hopen hclose, if_neg hinside]
      rw [Nesting.after_other hquote hopen hclose] at hnext
      exact hnext hn (by simp [hclose])

structure PathPlace.Behind (s : PathPlace) : Prop where
  quoted : s.nesting.Quoted
  depth : s.nesting.depth = 0
  compared : s.compared = none

theorem PathPlace.Behind.after (h : s.Behind)
    (hc : s.nesting.quote.isSome = true ∨ c = '\'' ∨ c = '"') : (s.after c).Behind := by
  refine ⟨h.quoted.after c, (Nesting.depth_after_quoted hc).trans h.depth, ?_⟩
  simp only [PathPlace.after, h.compared]
  split
  · rfl
  · next hnone =>
    rw [comparedAfter, if_neg]
    rintro rfl
    exact absurd (hc.resolve_left hnone) (by decide)

theorem PathPlace.behind_start : ({} : PathPlace).Behind := ⟨Nesting.quoted_default, rfl, rfl⟩

/-- A slash in a literal does not end it. -/
theorem Nesting.Quoted.slash_inside (h : n.Quoted)
    (hc : n.quote.isSome = true ∨ c = '\'' ∨ c = '"') (hq : (n.after c).quote = none) : c ≠ '/' := by
  rintro rfl
  obtain ⟨q, hsome⟩ := Option.isSome_iff_exists.1 (hc.resolve_right (by decide))
  have hne : '/' ≠ q := by
    rcases h q hsome with rfl | rfl <;> decide
  simp [Nesting.after, hsome, hne] at hq

theorem PathPlace.after_open (hn : s.nesting = {}) (hc : s.compared = none) :
    s.after '[' = ({} : PathPlace).lower (-1) := by
  obtain ⟨nesting, compared⟩ := s
  cases hn
  cases hc
  rfl

/-- Behind the bracket that closes a predicate. -/
theorem PathPlace.afterAll_predicate {t : List Char} (ht : Nesting.never ']' {} t = true)
    (hend : Nesting.afterAll {} t = {}) :
    (({} : PathPlace).lower (-1)).afterAll (t ++ [']']) = {} := by
  have hsane := PathPlace.sane_start.afterAll ht
  have hn : (({} : PathPlace).afterAll t).nesting = {} := by rw [nesting_afterAll, hend]
  rw [afterAll_lower, afterAll_append]
  generalize ({} : PathPlace).afterAll t = s at hsane hn
  obtain ⟨nesting, compared⟩ := s
  simp only at hn
  subst hn
  rcases hsane.compared_outside rfl with hc | hc
  · simp only at hc
    subst hc
    rfl
  · simp only at hc
    subst hc
    rfl

theorem brackets_mark (h : n.Quoted) (hq : n.quote.isSome = true) (hd : n.depth = 0) (cs : List Char) :
    brackets n [] ('_' :: ':' :: cs) = brackets n [] cs := by
  have hsame : n.after '_' = n := h.after_underscore
  have hmark := h.after_mark
  rw [hsame] at hmark
  rw [brackets_quoted (.inl hq), hsame, brackets_quoted (.inl hq), hmark, brackets_outer hd]

theorem brackets_predicate {l : List Char} (hl : Nesting.never ']' {} l = true)
    (hend : Nesting.afterAll {} l = {}) (r : List Char) :
    brackets {} [] ('[' :: (l ++ ']' :: r)) = (brackets {} [] r).map (l :: ·) := by
  have hopen : brackets {} [] ('[' :: (l ++ ']' :: r)) = brackets ⟨0 + 1, none⟩ [] (l ++ ']' :: r) :=
    brackets_open 0 [] _
  have hin := brackets_inside (n := {}) (Int.le_refl 0) [] (l ++ ']' :: r)
  rw [Nesting.cutAt_append hl hend] at hin
  exact hopen.trans hin

/-- A predicate whose bracket is not closed leaves the text open. -/
theorem cutAt_of_closed {t : List Char} (hend : (Nesting.after {} '[').afterAll t = {}) :
    ∃ l r, Nesting.cutAt ']' {} t = some (l, r) := by
  cases hcut : Nesting.cutAt ']' {} t with
  | some lr => exact ⟨lr.1, lr.2, rfl⟩
  | none =>
    have hsane := PathPlace.sane_start.afterAll (Nesting.cutAt_eq_none.1 hcut)
    have hdepth : 0 ≤ (Nesting.afterAll {} t).depth := by
      have hd := hsane.depth
      rwa [PathPlace.nesting_afterAll] at hd
    have hopen : Nesting.after {} '[' = Nesting.lower {} (-1) := rfl
    rw [hopen, Nesting.afterAll_lower] at hend
    have hzero : (Nesting.afterAll {} t).depth - (-1) = 0 := congrArg Nesting.depth hend
    omega

/-- The predicates of a text are the predicates of its marked text, and what is marked outside of them
is harmless. -/
def PredicatesMarked (s : PathPlace) (ts : MarkedText) (texts : List (List Char)) : Prop :=
  ∃ uss : List MarkedText, texts = uss.map plain ∧ brackets s.nesting [] (shown ts) = some (uss.map shown) ∧
    (∀ us ∈ uss, Placed false us ∧ Nesting.never ']' {} (plain us) = true) ∧
    (s.afterAll (plain ts)).compared = none ∧
    (allHarmless [] s ts = true ↔ ∀ us ∈ uss, allHarmless [] {} us = true)

section PredicatesMarked
variable {texts : List (List Char)}

theorem PathPlace.Behind.marked_nil (hs : s.Behind) : PredicatesMarked s [] [] :=
  ⟨[], rfl, rfl, List.forall_mem_nil _, hs.compared, by simp [allHarmless]⟩

theorem PathPlace.Behind.marked_mark (hs : s.Behind) (hq : s.nesting.quote.isSome = true)
    (h : PredicatesMarked s ts texts) : PredicatesMarked s (none :: ts) texts := by
  obtain ⟨uss, rfl, hshown, htexts, hcompared, hharm⟩ := h
  refine ⟨uss, rfl, ?_, htexts, hcompared, ?_⟩
  · rw [shown, brackets_mark hs.quoted hq hs.depth, hshown]
  · rw [allHarmless, PathPlace.harmless, hs.compared, hq, ← hharm]
    simp

theorem PathPlace.Behind.marked_quoted (hs : s.Behind)
    (hq : s.nesting.quote.isSome = true ∨ c = '\'' ∨ c = '"')
    (h : PredicatesMarked (s.after c) ts texts) : PredicatesMarked s (some c :: ts) texts := by
  obtain ⟨uss, rfl, hshown, htexts, hcompared, hharm⟩ := h
  have hdepth : (s.nesting.after c).depth = 0 := (hs.after hq).depth
  refine ⟨uss, rfl, ?_, htexts, hcompared, hharm⟩
  rw [shown, brackets_quoted hq, brackets_outer hdepth]
  exact hshown

/-- A predicate before others, which are found as if it were not there. -/
theorem PathPlace.Behind.marked_predicate (hs : s.Behind) (hn : s.nesting = {}) {us vs : MarkedText}
    (hus : Placed false us) (hnever : Nesting.never ']' {} (plain us) = true)
    (hclosed : Nesting.afterAll {} (plain us) = {}) (h : PredicatesMarked {} vs texts) :
    PredicatesMarked s (some '[' :: (us ++ some ']' :: vs)) (plain us :: texts) := by
  obtain ⟨uss, rfl, hshown, htexts, hcompared, hharm⟩ := h
  have hnever' : Nesting.never ']' {} (shown us) = true := by
    rwa [Nesting.never_shown (by decide) Nesting.quoted_default]
  have hclosed' : Nesting.afterAll {} (shown us) = {} := by
    rwa [Nesting.afterAll_shown Nesting.quoted_default]
  have hafter : ((s.after '[').afterAll (plain us)).after ']' = {} := by
    have hpredicate := PathPlace.afterAll_predicate hnever hclosed
    rwa [← PathPlace.after_open hn hs.compared, PathPlace.afterAll_append] at hpredicate
  refine ⟨us :: uss, rfl, ?_, List.forall_mem_cons.2 ⟨⟨hus, hnever⟩, htexts⟩, ?_, ?_⟩
  · rw [hn, shown, shown_append, shown, brackets_predicate hnever' hclosed', hshown]
    rfl
  · rw [plain, plain_append, plain, PathPlace.afterAll_cons, PathPlace.afterAll_append,
      PathPlace.afterAll_cons, hafter, hcompared]
  · rw [allHarmless, allHarmless_append, allHarmless, hafter, plain, List.cons_append,
      allHarmless_cut (by decide), PathPlace.after_open hn hs.compared, allHarmless_lower,
      Bool.and_eq_true, hharm, List.forall_mem_cons]

end PredicatesMarked

/-- Behind a predicate the text goes on as it would without it. -/
theorem Nesting.after_predicate {l r : List Char} (hl : Nesting.never ']' {} l = true)
    (hend : Nesting.afterAll {} l = {}) (hc : Nesting.never ']' (Nesting.after {} '[') (l ++ ']' :: r) = true) :
    Nesting.never ']' {} r = true ∧
      (Nesting.after {} '[').afterAll (l ++ ']' :: r) = Nesting.afterAll {} r := by
  have hsplit : l ++ ']' :: r = (l ++ [']']) ++ r := by simp
  have hnest : (Nesting.after {} '[').afterAll (l ++ [']']) = {} := by
    have hnesting := congrArg PathPlace.nesting (PathPlace.afterAll_predicate hl hend)
    rwa [PathPlace.nesting_afterAll] at hnesting
  rw [hsplit] at hc ⊢
  have hright := Nesting.never_right hc
  rw [hnest] at hright
  exact ⟨hright, by rw [Nesting.afterAll_append, hnest]⟩

/-- A text and its marks have the same predicates. -/
theorem brackets_marked (k : Nat) (hk : ts.length ≤ k) (h : Placed b ts) (hs : s.Behind)
    (hb : s.nesting.quote = none → b = false) (hclose : Nesting.never ']' s.nesting (plain ts) = true)
    (hend : s.nesting.afterAll (plain ts) = {}) {texts : List (List Char)}
    (hts : brackets s.nesting [] (plain ts) = some texts) : PredicatesMarked s ts texts := by
  induction k generalizing s b ts texts with
  | zero =>
    obtain rfl := List.length_eq_zero_iff.1 (Nat.le_zero.1 hk)
    cases hts
    exact hs.marked_nil
  | succ k ih =>
    cases h with
    | nil =>
      cases hts
      exact hs.marked_nil
    | @mark ts _ h =>
      have hq : s.nesting.quote.isSome = true := by
        cases hnone : s.nesting.quote with
        | some q => rfl
        | none => cases hb hnone
      exact hs.marked_mark hq (ih (Nat.le_of_succ_le_succ hk) h hs (fun _ => rfl) hclose hend hts)
    | @char _ c ts h =>
      have hlen : ts.length ≤ k := Nat.le_of_succ_le_succ hk
      rw [plain, Nesting.never, Bool.and_eq_true] at hclose
      rw [plain, Nesting.afterAll_cons] at hend
      rw [plain] at hts
      by_cases hq : s.nesting.quote.isSome = true ∨ c = '\'' ∨ c = '"'
      · have hs' := hs.after hq
        have hb' : (s.after c).nesting.quote = none → decide (c = '/') = false :=
          fun hnone => decide_eq_false (hs.quoted.slash_inside hq hnone)
        have hdepth : (s.nesting.after c).depth = 0 := hs'.depth
        rw [brackets_quoted hq, brackets_outer hdepth] at hts
        exact hs.marked_quoted hq (ih hlen h hs' hb' hclose.2 hend hts)
      · rw [not_or] at hq
        have hn : s.nesting = {} := by
          obtain ⟨⟨depth, quote⟩, compared⟩ := s
          have hnone : quote = none := by simpa using hq.1
          have hd : depth = 0 := hs.depth
          rw [hnone, hd]
        rw [hn] at hts hclose hend
        by_cases hopen : c = '['
        · subst hopen
          obtain ⟨l, r, hcut⟩ := cutAt_of_closed hend
          obtain ⟨us, vs, rfl, rfl, rfl, hnever, hclosed, -⟩ := cutAt_marked (by decide) hcut
          have hplain : plain (us ++ some ']' :: vs) = plain us ++ ']' :: plain vs := plain_append ..
          rw [hplain] at hts hclose hend
          rw [brackets_predicate hnever hclosed] at hts
          obtain ⟨texts', htexts', rfl⟩ := Option.map_eq_some_iff.1 hts
          have hshort : vs.length ≤ k := by
            simp only [List.length_append, List.length_cons] at hlen
            omega
          obtain ⟨hclose', hend'⟩ := Nesting.after_predicate hnever hclosed hclose.2
          have hrest := ih hshort h.right PathPlace.behind_start (fun _ => rfl) hclose' (hend'.symm.trans hend)
            htexts'
          exact hs.marked_predicate hn h.left hnever hclosed hrest
        by_cases hclosed : c = ']'
        · subst hclosed
          exact absurd hclose.1 (by decide)
        · rw [brackets_other hq.2 hopen hclosed, if_pos rfl] at hts
          cases hts

end Brackets

end Tabulate
