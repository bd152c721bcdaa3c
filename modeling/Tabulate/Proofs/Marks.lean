import Tabulate.Proofs.Places

/-! Texts of paths with marks in them. A mark is the alias of the default namespace, put where a piece
between slashes begins. It changes nothing about what is nested in what. -/
namespace Tabulate

abbrev MarkedText := List (Option Char)

namespace MarkedText

def plain : MarkedText → List Char
  | [] => []
  | some c :: ts => c :: plain ts
  | none :: ts => plain ts

def shown : MarkedText → List Char
  | [] => []
  | some c :: ts => c :: shown ts
  | none :: ts => '_' :: ':' :: shown ts

end MarkedText

open MarkedText (plain shown)

def isCut (c : Char) : Bool := Text.isBlank c || ['/', '[', ']', '='].contains c

def beginsName : List Char → Bool
  | [] => false
  | c :: cs =>
    !isCut c && !Text.startsWith "text()".toList (c :: cs) && !Text.startsWith "node()".toList (c :: cs)

/-- A mark is harmless outside of texts that are compared with, before a name or in a literal that
is passed over. -/
def PathPlace.harmless (s : PathPlace) (cs : List Char) : Bool :=
  s.compared.isNone && (s.nesting.quote.isSome || beginsName cs)

def allHarmless (rest : List Char) : PathPlace → MarkedText → Bool
  | _, [] => true
  | s, some c :: ts => allHarmless rest (s.after c) ts
  | s, none :: ts => s.harmless (plain ts ++ rest) && allHarmless rest s ts

/-- What may stand behind a mark. -/
structure Markable (cs : List Char) : Prop where
  first : ∀ c ∈ cs.head?, c ∉ ['/', '@', '[', '.', '*']
  colonless : ':' ∉ cs.takeWhile fun c => c != '[' && c != '/'

/-- Marks stand where pieces begin; the first argument says whether one begins with the text. -/
inductive Placed : Bool → MarkedText → Prop where
  | nil {b : Bool} : Placed b []
  | char {b : Bool} {c : Char} {ts : MarkedText} : Placed (c = '/') ts → Placed b (some c :: ts)
  | mark {ts : MarkedText} : Markable (plain ts) → Placed false ts → Placed true (none :: ts)

section Texts
variable {ts us vs : MarkedText} {c x : Char} {n : Nesting} {b : Bool}

@[simp] theorem plain_append (ts us : MarkedText) : plain (ts ++ us) = plain ts ++ plain us := by
  induction ts with
  | nil => rfl
  | cons t ts ih => cases t <;> simp [plain, ih]

@[simp] theorem shown_append (ts us : MarkedText) : shown (ts ++ us) = shown ts ++ shown us := by
  induction ts with
  | nil => rfl
  | cons t ts ih => cases t <;> simp [shown, ih]

theorem shown_eq_nil : shown ts = [] ↔ ts = [] := by
  cases ts with
  | nil => simp [shown]
  | cons t ts => cases t <;> simp [shown]

theorem length_shown (ts : MarkedText) :
    (shown ts).length = (plain ts).length + 2 * ts.countP (·.isNone) := by
  induction ts with
  | nil => rfl
  | cons t ts ih =>
    cases t with
    | none =>
      simp only [shown, plain, List.length_cons, List.countP_cons, Option.isNone_none, if_true, ih]
      omega
    | some c =>
      simp only [shown, plain, List.length_cons, List.countP_cons, Option.isNone_some,
        Bool.false_eq_true, if_false, ih]
      omega

theorem shown_eq_plain (h : none ∉ ts) : shown ts = plain ts := by
  induction ts with
  | nil => rfl
  | cons t ts ih =>
    cases t with
    | none => exact absurd List.mem_cons_self h
    | some c => rw [shown, plain, ih fun hn => h (List.mem_cons_of_mem _ hn)]

theorem not_mem_of_length (h : (shown ts).length = (plain ts).length) : none ∉ ts := by
  have hcount : ts.countP (·.isNone) = 0 := by
    have hlen := length_shown ts
    omega
  rw [List.countP_eq_zero] at hcount
  exact fun hn => hcount none hn rfl

theorem colon_of_mem (h : none ∈ ts) : ':' ∈ shown ts := by
  induction ts with
  | nil => cases h
  | cons t ts ih =>
    cases t with
    | none => simp [shown]
    | some c =>
      have hmem : none ∈ ts := by simpa using h
      exact List.mem_cons_of_mem _ (ih hmem)

theorem mem_shown (hx : x ∉ ['_', ':']) (ts : MarkedText) : x ∈ shown ts ↔ x ∈ plain ts := by
  simp only [List.mem_cons, List.not_mem_nil, or_false, not_or] at hx
  induction ts with
  | nil => exact Iff.rfl
  | cons t ts ih => cases t <;> simp [shown, plain, ih, hx]

theorem exists_of_plain_eq {as bs : List Char} (h : plain ts = as ++ x :: bs) :
    ∃ us vs, ts = us ++ some x :: vs ∧ plain us = as ∧ plain vs = bs := by
  induction ts generalizing as with
  | nil => cases as <;> cases h
  | cons t ts ih =>
    cases t with
    | none =>
      obtain ⟨us, vs, rfl, hus, hvs⟩ := ih h
      exact ⟨none :: us, vs, rfl, hus, hvs⟩
    | some c =>
      cases as with
      | nil =>
        cases h
        exact ⟨[], ts, rfl, rfl, rfl⟩
      | cons a as =>
        rw [plain, List.cons_append, List.cons.injEq] at h
        obtain ⟨rfl, h⟩ := h
        obtain ⟨us, vs, rfl, rfl, rfl⟩ := ih h
        exact ⟨some c :: us, vs, rfl, rfl, rfl⟩

theorem Nesting.Quoted.after_underscore (h : n.Quoted) : n.after '_' = n := by
  refine after_eq_self (by decide) (by decide) (by decide) (by decide) fun hq => ?_
  rcases h _ hq with he | he <;> cases he

/-- Marks do not touch what surrounds them. -/
theorem Nesting.Quoted.after_mark (h : n.Quoted) : (n.after '_').after ':' = n := by
  rw [h.after_underscore]
  refine after_eq_self (by decide) (by decide) (by decide) (by decide) fun hq => ?_
  rcases h _ hq with he | he <;> cases he

theorem Nesting.afterAll_shown (h : n.Quoted) (ts : MarkedText) :
    n.afterAll (shown ts) = n.afterAll (plain ts) := by
  induction ts generalizing n with
  | nil => rfl
  | cons t ts ih =>
    cases t with
    | none => rw [shown, afterAll_cons, afterAll_cons, h.after_mark, ih h, plain]
    | some c => rw [shown, afterAll_cons, ih (h.after c), plain, afterAll_cons]

theorem Nesting.never_shown (hx : x ∉ ['_', ':']) (h : n.Quoted) (ts : MarkedText) :
    never x n (shown ts) = never x n (plain ts) := by
  simp only [List.mem_cons, List.not_mem_nil, or_false, not_or] at hx
  induction ts generalizing n with
  | nil => rfl
  | cons t ts ih =>
    cases t with
    | none => simp [shown, plain, never, h.after_mark, ih h, Ne.symm hx.1, Ne.symm hx.2]
    | some c => rw [shown, never, ih (h.after c), plain, never]

end Texts

section Placing
variable {ts us vs : MarkedText} {c x : Char} {b : Bool}

theorem takeWhile_subset_append {p : Char → Bool} (as bs : List Char) :
    as.takeWhile p ⊆ (as ++ bs).takeWhile p := by
  rw [List.takeWhile_append]
  split
  · exact fun c hc => List.mem_append_left _ (List.takeWhile_subset p hc)
  · exact List.Subset.refl _

theorem Markable.of_append {as bs : List Char} (h : Markable (as ++ bs)) : Markable as := by
  refine ⟨fun c hc => h.first c ?_, fun hc => h.colonless (takeWhile_subset_append as bs hc)⟩
  rw [Option.mem_def] at hc ⊢
  rw [List.head?_append, hc]
  rfl

theorem Placed.left (h : Placed b (us ++ vs)) : Placed b us := by
  induction us generalizing b with
  | nil => exact .nil
  | cons u us ih =>
    cases h with
    | char h => exact .char (ih h)
    | mark hm h =>
      have hm : Markable (plain us ++ plain vs) := by
        rw [← plain_append]
        exact hm
      exact .mark hm.of_append (ih h)

theorem Placed.right (h : Placed b (us ++ some c :: vs)) : Placed (c = '/') vs := by
  induction us generalizing b with
  | nil =>
    cases h with
    | char h => exact h
  | cons u us ih =>
    cases h with
    | char h => exact ih h
    | mark _ h => exact ih h

/-- Without slashes only the beginning can be marked. -/
theorem Placed.not_mem (h : Placed false ts) (hc : '/' ∉ plain ts) : none ∉ ts := by
  generalize hb : false = b at h
  induction h with
  | nil => exact List.not_mem_nil
  | @char b c ts _ ih =>
    rw [plain, List.mem_cons, not_or] at hc
    rw [List.mem_cons, not_or]
    exact ⟨(Option.some_ne_none c).symm, ih hc.2 (decide_eq_false (Ne.symm hc.1)).symm⟩
  | mark _ _ _ => cases hb

/-- A name is marked at its beginning or not at all. -/
theorem Placed.of_no_slash (h : Placed b ts) (hc : '/' ∉ plain ts) :
    none ∉ ts ∨ ∃ us, ts = none :: us ∧ none ∉ us ∧ Markable (plain us) := by
  cases h with
  | nil => exact .inl List.not_mem_nil
  | @char _ c us h =>
    rw [plain, List.mem_cons, not_or] at hc
    rw [decide_eq_false (Ne.symm hc.1)] at h
    exact .inl (by simpa using h.not_mem hc.2)
  | mark hm h => exact .inr ⟨_, rfl, h.not_mem hc, hm⟩

end Placing

section Harm
variable {ts us vs : MarkedText} {c x : Char} {as bs rest : List Char} {s : PathPlace}

theorem startsWith_append_cut {p : List Char} (hx : x ∉ p) (as bs : List Char) :
    Text.startsWith p (as ++ x :: bs) = Text.startsWith p as := by
  induction p generalizing as with
  | nil => rfl
  | cons a p ih =>
    rw [List.mem_cons, not_or] at hx
    cases as with
    | nil =>
      simp [Text.startsWith, Text.after?, Ne.symm hx.1]
    | cons c as =>
      by_cases hc : a = c
      · simpa [Text.startsWith, Text.after?, hc] using ih hx.2 as
      · simp [Text.startsWith, Text.after?, hc]

theorem beginsName_append_cut (hx : isCut x = true) (as bs : List Char) :
    beginsName (as ++ x :: bs) = beginsName as := by
  have hkinds {p : List Char} (hp : (p.all fun c => !isCut c) = true) : x ∉ p := by
    intro hmem
    have hcut := List.all_eq_true.1 hp x hmem
    rw [hx] at hcut
    cases hcut
  cases as with
  | nil => simp [beginsName, hx]
  | cons c as =>
    rw [List.cons_append, beginsName, beginsName, ← List.cons_append,
      startsWith_append_cut (hkinds (by decide)), startsWith_append_cut (hkinds (by decide))]

theorem allHarmless_append (us vs : MarkedText) : allHarmless rest s (us ++ vs) =
    (allHarmless (plain vs ++ rest) s us && allHarmless rest (s.afterAll (plain us)) vs) := by
  induction us generalizing s with
  | nil => rfl
  | cons u us ih =>
    cases u with
    | none => simp only [List.cons_append, allHarmless, ih, plain_append, plain, List.append_assoc, Bool.and_assoc]
    | some c => simp only [List.cons_append, allHarmless, ih, plain, PathPlace.afterAll_cons]

theorem allHarmless_cut (hx : isCut x = true) (ts : MarkedText) :
    allHarmless (x :: rest) s ts = allHarmless [] s ts := by
  induction ts generalizing s with
  | nil => rfl
  | cons t ts ih =>
    cases t with
    | none => rw [allHarmless, allHarmless, ih, PathPlace.harmless, PathPlace.harmless,
        beginsName_append_cut hx, List.append_nil]
    | some c => rw [allHarmless, allHarmless, ih]

theorem allHarmless_of_not_mem (h : none ∉ ts) : allHarmless rest s ts = true := by
  induction ts generalizing s with
  | nil => rfl
  | cons t ts ih =>
    cases t with
    | none => exact absurd List.mem_cons_self h
    | some c => exact ih fun hn => h (List.mem_cons_of_mem _ hn)

theorem harmless_lower (k : Int) (cs : List Char) : (s.lower k).harmless cs = s.harmless cs := by
  simp [PathPlace.harmless, PathPlace.lower, Nesting.lower]

theorem allHarmless_lower (k : Int) (ts : MarkedText) :
    allHarmless rest (s.lower k) ts = allHarmless rest s ts := by
  induction ts generalizing s with
  | nil => rfl
  | cons t ts ih =>
    cases t with
    | none => rw [allHarmless, harmless_lower, ih, allHarmless]
    | some c => rw [allHarmless, PathPlace.after_lower, ih, allHarmless]

/-- Nothing is harmlessly marked in a text that is compared with. -/
theorem not_mem_of_compared (h : allHarmless rest s ts = true) (hs : s.compared = some 0)
    (hc : Nesting.never ']' s.nesting (plain ts) = true) : none ∉ ts := by
  induction ts generalizing s with
  | nil => exact List.not_mem_nil
  | cons t ts ih =>
    cases t with
    | none =>
      rw [allHarmless, PathPlace.harmless, hs] at h
      cases h
    | some c =>
      rw [plain, Nesting.never, Bool.and_eq_true, Bool.not_eq_true'] at hc
      rw [List.mem_cons, not_or]
      refine ⟨(Option.some_ne_none c).symm, ih h ?_ hc.2⟩
      simp only [PathPlace.after, hs, PathPlace.comparedAfter]
      split
      · rfl
      · next hq =>
        rw [if_neg]
        rintro ⟨rfl, hd⟩
        have hout : s.nesting.outside = true := by
          rw [Nesting.outside, hd]
          simpa using hq
        rw [hout] at hc
        exact absurd hc.1 (by decide)

end Harm

section Trimming
variable {ts us vs : MarkedText} {c : Char} {b : Bool}

def stranded : MarkedText → Bool
  | none :: ts => (plain ts).head?.all Text.isBlank
  | _ => false

theorem stranded_of_false (h : Placed false ts) : stranded ts = false := by
  cases h <;> rfl

theorem trimStart_marked (h : Placed b ts) (hs : stranded ts = false) :
    ∃ b' us, (b = false → b' = false) ∧ Text.trimStart (plain ts) = plain us ∧
      Text.trimStart (shown ts) = shown us ∧ Placed b' us ∧ stranded us = false ∧
      (none ∈ us ↔ none ∈ ts) ∧ allHarmless [] {} ts = allHarmless [] {} us := by
  induction ts generalizing b with
  | nil => exact ⟨b, [], id, rfl, rfl, h, hs, Iff.rfl, rfl⟩
  | cons t ts ih =>
    cases t with
    | none =>
      refine ⟨b, none :: ts, id, ?_, rfl, h, hs, Iff.rfl, rfl⟩
      cases hp : plain ts with
      | nil => simp [stranded, hp] at hs
      | cons c cs =>
        simp only [stranded, hp, List.head?_cons, Option.all_some] at hs
        rw [plain, hp, Text.trimStart, List.dropWhile_cons_of_neg (Bool.eq_false_iff.1 hs)]
    | some c =>
      by_cases hc : Text.isBlank c = true
      · cases h with
        | char h =>
          have hslash : decide (c = '/') = false := decide_eq_false (ne_of_blank hc (by decide))
          rw [hslash] at h
          obtain ⟨b', us, hb, hplain, hshown, hus, hstrand, hmem, hharm⟩ := ih h (stranded_of_false h)
          refine ⟨b', us, fun _ => hb rfl, ?_, ?_, hus, hstrand, by simp [hmem], ?_⟩
          · rw [plain, Text.trimStart, List.dropWhile_cons_of_pos hc]
            exact hplain
          · rw [shown, Text.trimStart, List.dropWhile_cons_of_pos hc]
            exact hshown
          · rw [allHarmless, PathPlace.after_blank hc, hharm]
      · refine ⟨b, some c :: ts, id, ?_, ?_, h, hs, Iff.rfl, rfl⟩
        · exact List.dropWhile_cons_of_neg hc
        · exact List.dropWhile_cons_of_neg hc

/-- A mark at the end of a text stands behind a slash. -/
theorem Placed.before_last (h : Placed b (us ++ [none])) : us = [] ∨ ∃ vs, us = vs ++ [some '/'] := by
  induction us generalizing b with
  | nil => exact .inl rfl
  | cons u us ih =>
    cases h with
    | @char _ c _ h =>
      rcases ih h with rfl | ⟨vs, rfl⟩
      · generalize hb : decide (c = '/') = b' at h
        cases h with
        | mark _ _ =>
          obtain rfl := of_decide_eq_true hb
          exact .inr ⟨[], rfl⟩
      · exact .inr ⟨some c :: vs, rfl⟩
    | mark _ h =>
      rcases ih h with rfl | ⟨vs, rfl⟩
      · cases h
      · exact .inr ⟨none :: vs, rfl⟩

theorem trimEnd_marked (h : Placed b ts) (hs : stranded ts = false) :
    ∃ us, Text.trimEnd (plain ts) = plain us ∧ Text.trimEnd (shown ts) = shown us ∧ Placed b us ∧
      stranded us = false ∧ (none ∈ us ↔ none ∈ ts) ∧ allHarmless [] {} ts = allHarmless [] {} us := by
  induction ts using List.reverseRecOn with
  | nil => exact ⟨[], rfl, rfl, h, rfl, Iff.rfl, rfl⟩
  | append_singleton ts t ih =>
    cases t with
    | none =>
      refine ⟨ts ++ [none], ?_, ?_, h, hs, Iff.rfl, rfl⟩
      · rcases h.before_last with rfl | ⟨vs, rfl⟩
        · cases hs
        · simp only [plain_append, plain, List.append_nil]
          exact List.rdropWhile_concat_neg _ _ _ (by decide)
      · have hlast : shown (ts ++ [none]) = (shown ts ++ ['_']) ++ [':'] := by simp [shown]
        rw [hlast]
        exact List.rdropWhile_concat_neg _ _ _ (by decide)
    | some c =>
      by_cases hc : Text.isBlank c = true
      · have hstrand : stranded ts = false := by
          cases ts with
          | nil => rfl
          | cons t ts =>
            cases t with
            | some d => rfl
            | none =>
              simp only [List.cons_append, stranded, plain_append, List.head?_append] at hs ⊢
              cases hhead : (plain ts).head? with
              | none => simp [hhead, plain, hc] at hs
              | some d => simpa [hhead] using hs
        obtain ⟨us, hplain, hshown, hus, hstrand', hmem, hharm⟩ := ih h.left hstrand
        refine ⟨us, ?_, ?_, hus, hstrand', by simp [hmem], ?_⟩
        · rw [← hplain, plain_append]
          exact List.rdropWhile_concat_pos _ _ _ hc
        · rw [← hshown, shown_append]
          exact List.rdropWhile_concat_pos _ _ _ hc
        · have hcut : isCut c = true := by rw [isCut, hc, Bool.true_or]
          have hend : plain [some c] ++ [] = [c] := rfl
          rw [← hharm, allHarmless_append, hend, allHarmless_cut hcut, allHarmless, allHarmless, Bool.and_true]
      · refine ⟨ts ++ [some c], ?_, ?_, h, hs, Iff.rfl, rfl⟩
        · rw [plain_append]
          exact List.rdropWhile_concat_neg _ _ _ hc
        · rw [shown_append]
          exact List.rdropWhile_concat_neg _ _ _ hc

/-- Where no mark is stranded, a text and its marks are trimmed alike. -/
theorem trim_marked (h : Placed b ts) (hs : stranded ts = false) :
    ∃ b' us, (b = false → b' = false) ∧ Text.trim (plain ts) = plain us ∧
      Text.trim (shown ts) = shown us ∧ Placed b' us ∧ stranded us = false ∧
      (none ∈ us ↔ none ∈ ts) ∧ allHarmless [] {} ts = allHarmless [] {} us := by
  obtain ⟨b', vs, hb, hplain, hshown, hvs, hstrand, hmem, hharm⟩ := trimStart_marked h hs
  obtain ⟨us, hplain', hshown', hus, hstrand', hmem', hharm'⟩ := trimEnd_marked hvs hstrand
  refine ⟨b', us, hb, ?_, ?_, hus, hstrand', hmem'.trans hmem, hharm.trans hharm'⟩
  · rw [Text.trim, hplain, hplain']
  · rw [Text.trim, hshown, hshown']

theorem getLast?_shown {q : Char} (h : Placed b ts) (hq : q ∉ ['/', ':']) :
    (shown ts).getLast? = some q ↔ (plain ts).getLast? = some q := by
  simp only [List.mem_cons, List.not_mem_nil, or_false, not_or] at hq
  induction ts using List.reverseRecOn with
  | nil => exact Iff.rfl
  | append_singleton ts t _ =>
    cases t with
    | some c => simp [plain, shown]
    | none =>
      have hshown : (shown (ts ++ [none])).getLast? = some ':' := by simp [shown]
      rw [hshown]
      rcases h.before_last with rfl | ⟨vs, rfl⟩
      · simp [plain, Ne.symm hq.2]
      · simp [plain, Ne.symm hq.1, Ne.symm hq.2]

/-- A stranded mark does harm. -/
theorem exists_of_stranded (h : Placed b ts) (hs : stranded ts = true) :
    ∃ us, ts = none :: us ∧ (us = [] ∨ ∃ c vs, us = some c :: vs ∧ Text.isBlank c = true) ∧
      allHarmless [] {} ts = false := by
  cases h with
  | nil => cases hs
  | char _ => cases hs
  | @mark us _ h =>
    refine ⟨us, rfl, ?_, ?_⟩
    · cases h with
      | nil => exact .inl rfl
      | @char _ c vs _ => exact .inr ⟨c, vs, rfl, by simpa [stranded, plain] using hs⟩
    · have hname : beginsName (plain us) = false := by
        cases hp : plain us with
        | nil => rfl
        | cons c cs =>
          simp only [stranded, hp, List.head?_cons, Option.all_some] at hs
          simp [beginsName, isCut, hs]
      simp [allHarmless, PathPlace.harmless, hname]

end Trimming

end Tabulate
