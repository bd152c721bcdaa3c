import Tabulate.Proofs.Names
import Mathlib.Data.List.Forall2

/-! What predicates in marked texts are read as. The path in a predicate is read as without the marks,
but for the alias, where all its marks are harmless; a text that a path is compared with has no mark at
all that is harmless. -/
namespace Tabulate

open Tabulate.Path (number?)
open MarkedText (plain shown)

section Lists
variable {ε ε' α β β' : Type} {f : α → Except ε β} {g : α → Except ε' β'} {a : α} {as : List α}

theorem mapM_cons_eq_ok {bs : List β} : (a :: as).mapM f = .ok bs ↔
    ∃ b bs', f a = .ok b ∧ as.mapM f = .ok bs' ∧ bs = b :: bs' := by
  rw [List.mapM_cons]
  cases f a with
  | error e => simp [bind, Except.bind]
  | ok b =>
    cases as.mapM f with
    | error e => simp [bind, Except.bind]
    | ok bs' => simp [bind, Except.bind, pure, Except.pure, eq_comm]

theorem exists_of_mapM {bs : List β} (h : as.mapM f = .ok bs) : ∀ a ∈ as, ∃ b, f a = .ok b := by
  induction as generalizing bs with
  | nil => exact List.forall_mem_nil _
  | cons a as ih =>
    obtain ⟨b, bs, hb, hbs, -⟩ := mapM_cons_eq_ok.1 h
    exact List.forall_mem_cons.2 ⟨⟨b, hb⟩, ih hbs⟩

theorem forall_of_mapM {P : β → Prop} (hf : ∀ a ∈ as, ∀ b, f a = .ok b → P b) {bs : List β}
    (h : as.mapM f = .ok bs) : ∀ b ∈ bs, P b := by
  induction as generalizing bs with
  | nil =>
    cases h
    exact List.forall_mem_nil _
  | cons a as ih =>
    obtain ⟨b, bs, hb, hbs, rfl⟩ := mapM_cons_eq_ok.1 h
    exact List.forall_mem_cons.2 ⟨hf a (by simp) b hb, ih (fun a ha => hf a (List.mem_cons_of_mem _ ha)) hbs⟩

/-- Readings that agree where something holds agree along a list where it holds all along. -/
theorem mapM_iff {H : α → Prop} {R : β → β' → Prop}
    (hfg : ∀ a ∈ as, ∀ b, f a = .ok b → (H a ↔ ∃ b', g a = .ok b' ∧ R b b'))
    {bs : List β} (h : as.mapM f = .ok bs) :
    (∀ a ∈ as, H a) ↔ ∃ bs', as.mapM g = .ok bs' ∧ List.Forall₂ R bs bs' := by
  induction as generalizing bs with
  | nil =>
    cases h
    exact ⟨fun _ => ⟨[], rfl, .nil⟩, fun _ => List.forall_mem_nil _⟩
  | cons a as ih =>
    obtain ⟨b, bs, hb, hbs, rfl⟩ := mapM_cons_eq_ok.1 h
    have hhead := hfg a List.mem_cons_self b hb
    have htail := ih (fun a ha => hfg a (List.mem_cons_of_mem _ ha)) hbs
    rw [List.forall_mem_cons, hhead, htail]
    constructor
    · rintro ⟨⟨b', hb', hR⟩, bs', hbs', hRs⟩
      exact ⟨b' :: bs', mapM_cons_eq_ok.2 ⟨b', bs', hb', hbs', rfl⟩, .cons hR hRs⟩
    · rintro ⟨_, hmap, hall⟩
      obtain ⟨b', bs', hb', hbs', rfl⟩ := mapM_cons_eq_ok.1 hmap
      cases hall with
      | cons hR hRs => exact ⟨⟨b', hb', hR⟩, bs', hbs', hRs⟩

theorem mapM_forall₂ {R : β → β' → Prop} (hfg : ∀ a b b', f a = .ok b → g a = .ok b' → R b b')
    {bs : List β} {bs' : List β'} (hf : as.mapM f = .ok bs) (hg : as.mapM g = .ok bs') :
    List.Forall₂ R bs bs' := by
  induction as generalizing bs bs' with
  | nil =>
    cases hf
    cases hg
    exact .nil
  | cons a as ih =>
    obtain ⟨b, bs, hb, hbs, rfl⟩ := mapM_cons_eq_ok.1 hf
    obtain ⟨b', bs', hb', hbs', rfl⟩ := mapM_cons_eq_ok.1 hg
    exact .cons (hfg a b b' hb hb') (ih hbs hbs')

end Lists

theorem exists_map_eq_ok {ε α β : Type} {x : Except ε α} {f : α → β} {P : β → Prop} :
    (∃ b, x.map f = .ok b ∧ P b) ↔ ∃ a, x = .ok a ∧ P (f a) := by
  cases x <;> simp [Except.map]

section Predicates
variable {inner inner' : List Char → Except PathError Path} {source source' : List Char} {ts : MarkedText}

/-- The second way to read a path inside a predicate reads marked texts like the first reads those
without marks, exactly where all marks are harmless. -/
def ReadsMarked (inner inner' : List Char → Except PathError Path) : Prop :=
  ∀ b ts p, Placed b ts → inner (plain ts) = .ok p →
    (allHarmless [] {} ts = true ↔ ∃ p', inner' (shown ts) = .ok p' ∧ p'.bare = p.bare)

theorem PathPlace.compared_after_equals {l : List Char} (hl : Nesting.never ']' {} l = true)
    (hend : Nesting.afterAll {} l = {}) :
    ((({} : PathPlace).afterAll l).after '=').compared = some 0 := by
  have hsane := PathPlace.sane_start.afterAll hl
  have hn : (({} : PathPlace).afterAll l).nesting = {} := by rw [nesting_afterAll, hend]
  generalize ({} : PathPlace).afterAll l = s at hsane hn
  obtain ⟨nesting, compared⟩ := s
  cases hn
  rcases hsane.compared_outside rfl with hc | hc <;> cases hc <;> rfl

theorem unquote_cons (c : Char) (cs : List Char) : Path.unquote (c :: cs) =
    if (c = '\'' ∧ cs.getLast? = some '\'') ∨ (c = '"' ∧ cs.getLast? = some '"') then cs.dropLast
    else c :: cs := by
  rw [Path.unquote]
  by_cases hsingle : c = '\'' ∧ cs.getLast? = some '\''
  · simp [hsingle]
  · by_cases hdouble : c = '"' ∧ cs.getLast? = some '"'
    · simp [hdouble]
    · simp [hsingle, hdouble]

/-- A text that is compared with does not stay the same when it is marked. -/
theorem unquote_marked (h : Placed false ts) :
    Path.unquote (Text.trim (shown ts)) = Path.unquote (Text.trim (plain ts)) ↔ none ∉ ts := by
  obtain ⟨b, us, hb, hplain, hshown, hus, -, hmem, -⟩ := trim_marked h (stranded_of_false h)
  obtain rfl := hb rfl
  rw [hplain, hshown, ← hmem]
  refine ⟨fun he => ?_, fun hnone => by rw [shown_eq_plain hnone]⟩
  cases hus with
  | nil => exact List.not_mem_nil
  | @char _ c vs hvs =>
    have hlength : (shown vs).length = (plain vs).length := by
      have hsingle := getLast?_shown (q := '\'') hvs (by decide)
      have hdouble := getLast?_shown (q := '"') hvs (by decide)
      rw [shown, plain, unquote_cons, unquote_cons] at he
      simp only [hsingle, hdouble] at he
      split at he
      · next hquoted =>
        have hpos {cs : List Char} {q : Char} (hq : cs.getLast? = some q) : 0 < cs.length :=
          List.length_pos_of_mem (List.mem_of_getLast? hq)
        have hlen := congrArg List.length he
        rw [List.length_dropLast, List.length_dropLast] at hlen
        have hp : 0 < (plain vs).length := hquoted.elim (fun h => hpos h.2) fun h => hpos h.2
        have hs : 0 < (shown vs).length :=
          hquoted.elim (fun h => hpos (hsingle.2 h.2)) fun h => hpos (hdouble.2 h.2)
        omega
      · exact congrArg List.length (List.cons.inj he).2
    simpa using not_mem_of_length hlength

structure HoldsPath (expr : List Char) : Prop where
  nonempty : expr ≠ []
  notLast : expr ≠ "last()".toList
  notNumber : number? expr = none

theorem HoldsPath.shown (h : HoldsPath (plain ts)) : HoldsPath (shown ts) := by
  by_cases hmarked : none ∈ ts
  · have hcolon := colon_of_mem hmarked
    refine ⟨List.ne_nil_of_mem hcolon, fun he => ?_, number?_eq_none hcolon (by decide) (by decide)⟩
    rw [he] at hcolon
    exact absurd hcolon (by decide)
  · rwa [shown_eq_plain hmarked]

section Reading
variable {text text' expr : List Char}

theorem predicate_holds (hnever : Nesting.never ']' {} text = true) (ht : Text.trim text = expr) (h : HoldsPath expr)
    (hcut : Nesting.cutAt '=' {} expr = none) :
    Path.predicate inner source text = (inner expr).map .holds := by
  rw [predicate_eq hnever, ht, if_neg (by simpa using h.nonempty), if_neg h.notLast, h.notNumber, hcut]

theorem predicate_equals (hnever : Nesting.never ']' {} text = true) (ht : Text.trim text = expr) (h : HoldsPath expr)
    {l r : List Char}
    (hcut : Nesting.cutAt '=' {} expr = some (l, r)) :
    Path.predicate inner source text =
      (inner (Text.trim l)).map (.equals · (String.ofList (Path.unquote (Text.trim r)))) := by
  rw [predicate_eq hnever, ht, if_neg (by simpa using h.nonempty), if_neg h.notLast, h.notNumber, hcut]

/-- A position does not depend on how paths are read, and has no slash behind which to put a mark. -/
theorem predicate_position (h : ¬HoldsPath expr) (ht : Text.trim text = expr) {p : Predicate}
    (hp : Path.predicate inner source text = .ok p) : '/' ∉ expr ∧
      (Text.trim text' = expr → Path.predicate inner' source' text' = .ok p) := by
  have hne : expr ≠ [] := by
    intro he
    rw [Path.predicate, ht, he] at hp
    cases hp
  by_cases hlast : expr = "last()".toList
  · refine ⟨by rw [hlast]; decide, fun ht' => ?_⟩
    rw [Path.predicate, ht, if_neg (by simpa using hne), if_pos hlast] at hp
    rw [Path.predicate, ht', if_neg (by simpa using hne), if_pos hlast, ← hp]
  · cases hnumber : number? expr with
    | none => exact absurd ⟨hne, hlast, hnumber⟩ h
    | some n =>
      refine ⟨not_mem_of_number? hnumber (by decide) (by decide), fun ht' => ?_⟩
      rw [Path.predicate, ht, if_neg (by simpa using hne), if_neg hlast, hnumber] at hp
      rw [Path.predicate, ht', if_neg (by simpa using hne), if_neg hlast, hnumber]
      cases n with
      | zero => cases hp
      | succ n =>
        cases hp
        rfl

end Reading

/-- A comparison is read alike with its marks exactly where those in its path are harmless and its
text has none. -/
theorem equals_marked (hinner : ReadsMarked inner inner') {ls rs : MarkedText} (hls : Placed false ls)
    (hend : Nesting.afterAll {} (plain ls) = {})
    (hc : Nesting.never ']' {} (plain (ls ++ some '=' :: rs)) = true) {p : Path}
    (hp : inner (Text.trim (plain ls)) = .ok p) :
    allHarmless [] {} (ls ++ some '=' :: rs) = true ↔
      (∃ p', inner' (Text.trim (shown ls)) = .ok p' ∧ p'.bare = p.bare) ∧ none ∉ rs := by
  obtain ⟨b, us, -, hplain, hshown, hus, -, -, hharm⟩ := trim_marked hls (stranded_of_false hls)
  have hsplit : plain (ls ++ some '=' :: rs) = plain ls ++ '=' :: plain rs := plain_append ..
  rw [hsplit] at hc
  have hright : allHarmless [] ((({} : PathPlace).afterAll (plain ls)).after '=') rs = true ↔ none ∉ rs := by
    refine ⟨fun hr => not_mem_of_compared hr ?_ ?_, fun hr => allHarmless_of_not_mem hr⟩
    · exact PathPlace.compared_after_equals (Nesting.never_of_append hc) hend
    · have hafter := Nesting.never_right hc
      rw [Nesting.never, Bool.and_eq_true] at hafter
      rw [PathPlace.nesting_after, PathPlace.nesting_afterAll]
      exact hafter.2
  rw [hplain] at hp
  rw [allHarmless_append, plain, List.cons_append, allHarmless_cut (by decide), Bool.and_eq_true,
    hharm, allHarmless, hright, hinner b us p hus hp, hshown]

/-- A predicate is read alike with its marks exactly where all of them are harmless. -/
theorem predicate_marked (hinner : ReadsMarked inner inner') (h : Placed false ts)
    (hc : Nesting.never ']' {} (plain ts) = true) {p : Predicate}
    (hp : Path.predicate inner source (plain ts) = .ok p) :
    allHarmless [] {} ts = true ↔
      ∃ p', Path.predicate inner' source' (shown ts) = .ok p' ∧ p'.bare = p.bare := by
  obtain ⟨b, us, hb, hplain, hshown, hus, -, -, hharm⟩ := trim_marked h (stranded_of_false h)
  obtain rfl := hb rfl
  have hc' : Nesting.never ']' {} (shown ts) = true := by
    rwa [Nesting.never_shown (by decide) Nesting.quoted_default]
  have hclose := Nesting.never_trim hc
  rw [hplain] at hclose
  rw [hharm]
  by_cases hpath : HoldsPath (plain us)
  · cases hcut : Nesting.cutAt '=' {} (plain us) with
    | none =>
      have hcut' : Nesting.cutAt '=' {} (shown us) = none := by
        rw [Nesting.cutAt_eq_none] at hcut ⊢
        rwa [Nesting.never_shown (by decide) Nesting.quoted_default]
      rw [predicate_holds hc hplain hpath hcut] at hp
      rw [predicate_holds hc' hshown hpath.shown hcut']
      cases hread : inner (plain us) with
      | error e =>
        rw [hread] at hp
        cases hp
      | ok path =>
        rw [hread] at hp
        cases hp
        rw [hinner false us path hus hread, exists_map_eq_ok]
        simp [Predicate.bare]
    | some lr =>
      obtain ⟨l, r⟩ := lr
      obtain ⟨ls, rs, rfl, rfl, rfl, -, hend, hcut'⟩ := cutAt_marked (by decide) hcut
      rw [predicate_equals hc hplain hpath hcut] at hp
      rw [predicate_equals hc' hshown hpath.shown hcut']
      cases hread : inner (Text.trim (plain ls)) with
      | error e =>
        rw [hread] at hp
        cases hp
      | ok path =>
        rw [hread] at hp
        cases hp
        rw [equals_marked hinner hus.left hend hclose hread, exists_map_eq_ok,
          ← unquote_marked hus.right]
        simp only [Predicate.bare, Predicate.equals.injEq, String.ofList_inj]
        constructor
        · rintro ⟨⟨p', hp', hbare⟩, hliteral⟩
          exact ⟨p', hp', hbare, hliteral⟩
        · rintro ⟨p', hp', hbare, hliteral⟩
          exact ⟨⟨p', hp', hbare⟩, hliteral⟩
  · obtain ⟨hslash, hread⟩ : _ ∧ (_ → Path.predicate inner' source' (shown ts) = .ok p) :=
      predicate_position hpath hplain hp
    have hmem : none ∉ us := hus.not_mem hslash
    rw [hread (by rw [hshown, shown_eq_plain hmem]), allHarmless_of_not_mem hmem]
    simp

end Predicates

end Tabulate
