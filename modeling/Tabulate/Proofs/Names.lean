import Tabulate.Proofs.Aliases
import Tabulate.Proofs.Cuts
import Mathlib.Tactic.ByContra

/-! What names and numbers in marked texts are read as. A mark gives the alias to a name, and nothing
else that can be marked is read in its place. -/
namespace Tabulate

open Tabulate.Path (number? nameTest)
open MarkedText (plain shown)

section Numbers
variable {cs : List Char}

def numerals : List Char → List Char
  | '+' :: ds => ds
  | ds => ds

theorem mem_numerals {c : Char} (h : c ∈ cs) : c = '+' ∨ c ∈ numerals cs := by
  unfold numerals
  split
  · exact List.mem_cons.1 h
  · exact .inr h

theorem number?_chars {n : Nat} (h : number? cs = some n) : ∀ c ∈ cs, c = '+' ∨ c.isDigit = true := by
  have hall : (numerals cs).all Char.isDigit = true := by
    by_contra hne
    have hnone : number? cs = none := by
      show (if (numerals cs).isEmpty || !(numerals cs).all Char.isDigit then none else _) = none
      rw [if_pos (by simp [hne])]
    rw [h] at hnone
    cases hnone
  intro c hc
  exact (mem_numerals hc).imp_right (List.all_eq_true.1 hall c)

theorem not_mem_of_number? {n : Nat} (h : number? cs = some n) {c : Char} (hp : c ≠ '+')
    (hd : c.isDigit = false) : c ∉ cs := by
  intro hc
  rcases number?_chars h c hc with rfl | hdigit
  · exact hp rfl
  · rw [hdigit] at hd
    cases hd

theorem number?_eq_none {c : Char} (h : c ∈ cs) (hp : c ≠ '+') (hd : c.isDigit = false) : number? cs = none := by
  cases hn : number? cs with
  | none => rfl
  | some n => exact absurd h (not_mem_of_number? hn hp hd)

end Numbers

section Tests
variable {head : List Char} {ps ps' : List Predicate} {S : Step}

theorem nameTest_chars {name : List Char} {t : NameTest} (h : nameTest name = .ok t) :
    name ≠ [] ∧ ∀ c ∈ name, c ∉ ['=', '\'', '"', '('] := by
  rw [nameTest] at h
  split at h
  · cases h
  · next hne =>
    refine ⟨by simpa using hne, ?_⟩
    split at h
    · next hstar =>
      subst hstar
      simp
    · split at h
      · cases h
      · next hany =>
        intro c hc hbad
        refine hany (List.any_eq_true.2 ⟨c, hc, ?_⟩)
        simp only [List.mem_cons, List.not_mem_nil, or_false] at hbad
        rcases hbad with rfl | rfl | rfl | rfl <;> decide

theorem test_cases (h : Path.test head ps = .ok S) :
    (∃ name t, head = '@' :: name ∧ nameTest name = .ok t ∧ S = .attr t ps) ∨
    (head = "text()".toList ∧ S = .child .text ps) ∨ (head = "node()".toList ∧ S = .child .node ps) ∨
    (head ≠ "text()".toList ∧ head ≠ "node()".toList ∧ head.head? ≠ some '@' ∧
      ∃ t, nameTest head = .ok t ∧ S = .child (.name t) ps) := by
  have hmap {α β : Type} {x : Except PathFault α} {f : α → β} {b : β} (h : x.map f = .ok b) :
      ∃ a, x = .ok a ∧ b = f a := by
    cases x with
    | error e => cases h
    | ok a =>
      cases h
      exact ⟨a, rfl, rfl⟩
  rw [Path.test.eq_def] at h
  split at h
  · next name =>
    obtain ⟨t, ht, hS⟩ := hmap h
    exact .inl ⟨name, t, rfl, ht, hS⟩
  · next hat =>
    split at h
    · next htext =>
      cases h
      exact .inr (.inl ⟨htext, rfl⟩)
    · next htext =>
      split at h
      · next hnode =>
        cases h
        exact .inr (.inr (.inl ⟨hnode, rfl⟩))
      · next hnode =>
        obtain ⟨t, ht, hS⟩ := hmap h
        refine .inr (.inr (.inr ⟨htext, hnode, ?_, t, ht, hS⟩))
        intro hhead
        obtain ⟨name, rfl⟩ := List.head?_eq_some_iff.1 hhead
        exact hat name rfl

theorem test_name (htext : head ≠ "text()".toList) (hnode : head ≠ "node()".toList)
    (hat : head.head? ≠ some '@') :
    Path.test head ps = (nameTest head).map fun t => .child (.name t) ps := by
  rw [Path.test.eq_def]
  split
  · exact absurd rfl hat
  · rw [if_neg htext, if_neg hnode]

theorem test_chars (h : Path.test head ps = .ok S) : head ≠ [] ∧ ∀ c ∈ head, c ∉ ['=', '\'', '"'] := by
  have hname {name : List Char} {t : NameTest} (ht : nameTest name = .ok t) :
      ∀ c ∈ name, c ∉ ['=', '\'', '"'] := by
    intro c hc
    have hc' := (nameTest_chars ht).2 c hc
    simp only [List.mem_cons, List.not_mem_nil, or_false, not_or] at hc' ⊢
    exact ⟨hc'.1, hc'.2.1, hc'.2.2.1⟩
  obtain ⟨name, t, rfl, ht, -⟩ | ⟨rfl, -⟩ | ⟨rfl, -⟩ | ⟨-, -, -, t, ht, -⟩ := test_cases h
  · exact ⟨by simp, List.forall_mem_cons.2 ⟨by decide, hname ht⟩⟩
  · exact ⟨by simp, by simp⟩
  · exact ⟨by simp, by simp⟩
  · exact ⟨(nameTest_chars ht).1, hname ht⟩

/-- The test does not depend on the predicates. -/
theorem test_congr (h : Path.test head ps = .ok S) (ps' : List Predicate) :
    ∃ S', Path.test head ps' = .ok S' ∧ (S'.bare = S.bare ↔ barePredicates ps' = barePredicates ps) := by
  obtain ⟨name, t, rfl, ht, rfl⟩ | ⟨rfl, rfl⟩ | ⟨rfl, rfl⟩ | ⟨htext, hnode, hat, t, ht, rfl⟩ := test_cases h
  · exact ⟨.attr t ps', by rw [Path.test, ht]; rfl, by simp [Step.bare]⟩
  · exact ⟨.child .text ps', rfl, by simp [Step.bare]⟩
  · exact ⟨.child .node ps', rfl, by simp [Step.bare]⟩
  · refine ⟨.child (.name t) ps', ?_, by simp [Step.bare]⟩
    rw [test_name htext hnode hat, ht]
    rfl

/-- A name behind the alias. -/
theorem nameTest_mark {name : List Char} {t : NameTest} (h : nameTest ('_' :: ':' :: name) = .ok t) :
    name = ['*'] ∨ t = .named (some Xml.Namespaces.defaultAlias) (String.ofList name) := by
  rw [nameTest, if_neg (by simp), if_neg (by simp)] at h
  split at h
  · cases h
  · have hown : ('_' :: ':' :: name).dropWhile (· != ':') = ':' :: name := rfl
    simp only [hown] at h
    split at h
    · next heq => cases heq
    · next heq => exact .inl (List.cons.inj heq).2
    · next heq =>
      cases heq
      cases h
      exact .inr rfl

/-- A name that has no prefix is given the alias as its prefix by a mark. -/
theorem nameTest_marked {name : List Char} {t : NameTest} (hcolon : ':' ∉ name) (hstar : name ≠ ['*'])
    (h : nameTest name = .ok t) :
    t = .named none (String.ofList name) ∧
      nameTest ('_' :: ':' :: name) =
        .ok (.named (some Xml.Namespaces.defaultAlias) (String.ofList name)) := by
  have hne := (nameTest_chars h).1
  have hdrop : name.dropWhile (· != ':') = [] := by
    rw [List.dropWhile_eq_nil_iff]
    intro x hx
    exact bne_iff_ne.2 fun he => hcolon (he ▸ hx)
  rw [nameTest, if_neg (by simpa using hne), if_neg hstar] at h
  split at h
  · cases h
  · next hany =>
    simp only [hdrop] at h
    cases h
    refine ⟨rfl, ?_⟩
    rw [nameTest, if_neg (by simp), if_neg (by simp), if_neg (by simpa using hany)]
    have hown : ('_' :: ':' :: name).dropWhile (· != ':') = ':' :: name := rfl
    simp only [hown]
    split
    · next heq => cases heq
    · next heq => exact absurd (List.cons.inj heq).2 hstar
    · next heq =>
      cases heq
      rfl

theorem beginsName_of_nameTest {c : Char} {t : NameTest} (hc : isCut c = false)
    (h : nameTest (c :: head) = .ok t) : beginsName (c :: head) = true := by
  have hkind {k : List Char} (hk : '(' ∈ k) : Text.startsWith k (c :: head) = false := by
    rw [Bool.eq_false_iff]
    intro hs
    obtain ⟨rest, hr⟩ := Option.isSome_iff_exists.1 hs
    rw [Text.after?_eq_some_iff] at hr
    have hmem : '(' ∈ c :: head := by
      rw [hr]
      exact List.mem_append_left _ hk
    exact absurd ((nameTest_chars h).2 _ hmem) (by decide)
  simp [beginsName, hc, hkind]

end Tests

section Marked
variable {b : Bool} {ts : MarkedText} {ps ps' : List Predicate} {S : Step}

/-- The test of a step is read alike with its mark exactly where the mark is harmless. -/
theorem test_marked (hts : Placed b ts) (hs : stranded ts = false)
    (hcuts : ∀ c ∈ plain ts, c ∉ ['/', '[', ']']) (h : Path.test (plain ts) ps = .ok S) :
    (allHarmless [] {} ts = true ∧ barePredicates ps' = barePredicates ps) ↔
      ∃ S', Path.test (shown ts) ps' = .ok S' ∧ S'.bare = S.bare := by
  obtain ⟨hne, hchars⟩ := test_chars h
  have hslash : '/' ∉ plain ts := fun hc => hcuts _ hc (by simp)
  rcases hts.of_no_slash hslash with hmem | ⟨us, rfl, hmem, hmark⟩
  · obtain ⟨S', hS', hbare⟩ := test_congr h ps'
    rw [shown_eq_plain hmem, hS', allHarmless_of_not_mem hmem, ← hbare]
    simp
  · have hshown : shown (none :: us) = '_' :: ':' :: plain us := by rw [shown, shown_eq_plain hmem]
    have hharm : allHarmless [] {} (none :: us) = beginsName (plain us) := by
      simp [allHarmless, PathPlace.harmless, allHarmless_of_not_mem hmem]
    rw [hshown, hharm]
    rw [plain] at h hne hchars hcuts
    obtain ⟨c, cs, hcs⟩ := List.exists_cons_of_ne_nil hne
    rw [hcs] at h hchars hcuts ⊢
    have hfirst := hmark.first c (by rw [hcs]; rfl)
    have hkind {k : List Char} (hk : beginsName k = false)
        (he : (nameTest ('_' :: ':' :: k)).toOption = none) (hhead : c :: cs = k) :
        (beginsName (c :: cs) = true ∧ barePredicates ps' = barePredicates ps) ↔
          ∃ S', Path.test ('_' :: ':' :: c :: cs) ps' = .ok S' ∧ S'.bare = S.bare := by
      rw [hhead, hk, test_name (by simp) (by simp) (by simp)]
      cases ht : nameTest ('_' :: ':' :: k) with
      | ok t =>
        rw [ht] at he
        cases he
      | error e => simp [Except.map]
    obtain ⟨name, t, hhead, -⟩ | ⟨hhead, -⟩ | ⟨hhead, -⟩ | ⟨htext, hnode, hat, t, ht, rfl⟩ := test_cases h
    · simp [(List.cons.inj hhead).1] at hfirst
    · exact hkind (by decide) (by decide) hhead
    · exact hkind (by decide) (by decide) hhead
    · have hcut : isCut c = false := by
        have hblank : Text.isBlank c = false := by simpa [stranded, hcs] using hs
        have hc := hcuts c List.mem_cons_self
        have hc' := hchars c List.mem_cons_self
        simp only [List.mem_cons, List.not_mem_nil, or_false, not_or] at hc hc'
        simp [isCut, hblank, hc, hc']
      have hcolon : ':' ∉ c :: cs := by
        have hall : (c :: cs).takeWhile (fun x => x != '[' && x != '/') = c :: cs := by
          refine List.takeWhile_eq_self_iff.2 fun x hx => ?_
          have hx' := hcuts x hx
          simp only [List.mem_cons, List.not_mem_nil, or_false, not_or] at hx'
          simp [hx']
        rw [← hall, ← hcs]
        exact hmark.colonless
      have hstar : c :: cs ≠ ['*'] := by
        intro he
        simp [(List.cons.inj he).1] at hfirst
      obtain ⟨rfl, hmarked⟩ := nameTest_marked hcolon hstar ht
      rw [beginsName_of_nameTest hcut ht, test_name (by simp) (by simp) (by simp), hmarked]
      simp [Except.map, Step.bare, NodeTest.bare, NameTest.bare]

end Marked

end Tabulate
