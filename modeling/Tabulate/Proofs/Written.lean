import Tabulate.Proofs.Readable

/-! The texts that the grammar writes: where they begin and end, and that no two colons in a row stand in
the text of a tree that can be read back. -/
namespace Tabulate

open Text (contains isBlank trim)

/-! ### Ends of texts -/

structure Tight (cs : List Char) : Prop where
  nonempty : cs ≠ []
  first : ∀ c ∈ cs.head?, isBlank c = false
  last : ∀ c ∈ cs.getLast?, isBlank c = false

namespace Tight
variable {as bs cs : List Char}

theorem trim_eq (h : Tight cs) : trim cs = cs := by
  have hdrop {bs : List Char} (hb : ∀ c ∈ bs.head?, isBlank c = false) : bs.dropWhile isBlank = bs := by
    cases bs with
    | nil => rfl
    | cons b bs => rw [List.dropWhile_cons_of_neg (by simp [hb b rfl])]
  have hstart : Text.trimStart cs = cs := hdrop h.first
  have hlast : ∀ c ∈ cs.reverse.head?, isBlank c = false := by
    rw [List.head?_reverse]
    exact h.last
  rw [trim, hstart, Text.trimEnd, hdrop hlast, List.reverse_reverse]

/-- Only the ends count. -/
theorem between (ha : Tight as) (ms : List Char) (hb : Tight bs) : Tight (as ++ ms ++ bs) where
  nonempty := by simp [ha.nonempty]
  first c hc := by
    rw [List.append_assoc, List.head?_append_of_ne_nil _ ha.nonempty] at hc
    exact ha.first c hc
  last c hc := by
    rw [List.getLast?_append_of_ne_nil _ hb.nonempty] at hc
    exact hb.last c hc

theorem single {c : Char} (h : isBlank c = false) : Tight [c] :=
  ⟨List.cons_ne_nil c [], by simpa using h, by simpa using h⟩

end Tight

/-! ### Heads and numbers -/

section Heads
variable {c : Char} {cs : List Char}

def Begins (c : Char) : Prop := c ≠ '.' ∧ c ≠ '+' ∧ c.isDigit = false

theorem begins_of_isNameStart (h : Xml.isNameStart c = true) : Begins c := by
  have hranges := h
  simp only [Xml.isNameStart, Xml.inRanges, Xml.nameStartRanges, List.any_cons, List.any_nil, Bool.or_eq_true,
    Bool.and_eq_true, decide_eq_true_eq, Bool.or_false] at hranges
  refine ⟨?_, ?_, ?_⟩
  · rintro rfl
    exact absurd h (by decide)
  · rintro rfl
    exact absurd h (by decide)
  · by_contra hdigit
    rw [Bool.not_eq_false, Char.isDigit_iff_toNat] at hdigit
    have hlow : 48 ≤ c.toNat := hdigit.1
    have hhigh : c.toNat ≤ 57 := hdigit.2
    omega

theorem begins_of_isNCName (h : Xml.isNCName cs = true) : ∀ c ∈ cs.head?, Begins c := by
  cases cs with
  | nil => exact nofun
  | cons c cs =>
    rw [Xml.isNCName, Bool.and_eq_true] at h
    intro x hx
    cases hx
    exact begins_of_isNameStart h.1

theorem NameTest.begins {t : NameTest} (h : t.IsProper) : ∀ c ∈ t.text.head?, Begins c := by
  have hfront {space : String} (hspace : Xml.isNCName space.toList = true) (rest : List Char) :
      ∀ c ∈ (space.toList ++ rest).head?, Begins c := by
    rw [List.head?_append_of_ne_nil _ (ne_nil_of_isNCName hspace)]
    exact begins_of_isNCName hspace
  cases t with
  | any =>
    intro c hc
    cases hc
    exact ⟨by decide, by decide, by decide⟩
  | anyUnder space => exact hfront h _
  | named space own =>
    cases space with
    | none => exact begins_of_isNCName h.2
    | some space => exact hfront (h.1 space rfl) _

theorem StepHead.begins {head : StepHead} (h : head.IsProper) : ∀ c ∈ head.text.head?, Begins c := by
  have hchar {x : Char} (hx : x ≠ '.' ∧ x ≠ '+' ∧ x.isDigit = false) : ∀ c ∈ some x, Begins c := by
    intro c hc
    cases hc
    exact hx
  cases head with
  | child test =>
    cases test with
    | name test => exact NameTest.begins h
    | text => exact hchar (x := 't') (by decide)
    | node => exact hchar (x := 'n') (by decide)
  | attr test => exact hchar (x := '@') (by decide)

theorem NameTest.plain_text {t : NameTest} (h : t.IsProper) :
    ¬(t.text.any fun c => ['(', ')', '=', ' ', '\'', '"'].contains c) = true := by
  rw [List.any_eq_true]
  rintro ⟨c, hc, hbad⟩
  have hname : Xml.isNameChar c = false ∧ c ≠ ':' ∧ c ≠ '*' := by
    simp only [List.contains_eq_mem, decide_eq_true_eq, List.mem_cons, List.not_mem_nil, or_false] at hbad
    rcases hbad with rfl | rfl | rfl | rfl | rfl | rfl <;> decide
  exact not_mem_text h hname.1 hname.2.1 hname.2.2 hc

theorem ne_colon_of_isNCName (h : Xml.isNCName cs = true) : ∀ c ∈ cs, (c != ':') = true := fun _ hc =>
  bne_iff_ne.2 fun he => not_mem_of_isNCName h (.inr rfl) (he ▸ hc)

/-- A name is cut behind its prefix. -/
theorem cut_colon (h : Xml.isNCName cs = true) (own : List Char) :
    (cs ++ ':' :: own).takeWhile (· != ':') = cs ∧ (cs ++ ':' :: own).dropWhile (· != ':') = ':' :: own := by
  have hcolon := ne_colon_of_isNCName h
  rw [List.takeWhile_append_of_pos hcolon, List.dropWhile_append_of_pos hcolon]
  simp

theorem nameTest_of_proper {t : NameTest} (h : t.IsProper) : Path.nameTest t.text = .ok t := by
  have hne := NameTest.text_ne_nil h
  have hplain := NameTest.plain_text h
  cases t with
  | any => rfl
  | anyUnder space =>
    have hstar : ¬(space.toList ++ [':', '*']) = ['*'] := by
      intro he
      have hlength := congrArg List.length he
      simp at hlength
    rw [NameTest.text] at hplain hne ⊢
    rw [Path.nameTest, if_neg (by simp), if_neg hstar, if_neg hplain, (cut_colon h ['*']).1, (cut_colon h ['*']).2]
    simp
  | named space own =>
    have hown : own.toList ≠ ['*'] := by
      intro he
      exact absurd (he ▸ h.2) (by decide)
    cases space with
    | none =>
      have hdrop : own.toList.dropWhile (· != ':') = [] := List.dropWhile_eq_nil_iff.2 (ne_colon_of_isNCName h.2)
      rw [NameTest.text] at hplain hne ⊢
      rw [Path.nameTest, if_neg (by simpa using hne), if_neg hown, if_neg hplain, hdrop]
      simp
    | some space =>
      have hcut := cut_colon (h.1 space rfl) own.toList
      have hstar : ¬(space.toList ++ ':' :: own.toList) = ['*'] := by
        intro he
        have hmem : ':' ∈ ['*'] := he ▸ List.mem_append_right _ (by simp)
        exact absurd hmem (by decide)
      rw [NameTest.text] at hplain hne ⊢
      rw [Path.nameTest, if_neg (by simp), if_neg hstar, if_neg hplain, hcut.1, hcut.2]
      split
      · next heq => cases heq
      · next heq =>
        rw [List.cons.injEq] at heq
        exact absurd heq.2 hown
      · next heq =>
        cases heq
        simp

theorem test_of_proper {head : StepHead} (h : head.IsProper) (ps : List Predicate) :
    Path.test head.text ps = .ok (head.step ps) := by
  cases head with
  | child test =>
    cases test with
    | name test =>
      have hparen : '(' ∉ test.text := NameTest.not_mem_text h (by decide) (by decide) (by decide)
      have hat : '@' ∉ test.text := NameTest.not_mem_text h (by decide) (by decide) (by decide)
      have htext : test.text ≠ "text()".toList := fun he => hparen (by rw [he]; decide)
      have hnode : test.text ≠ "node()".toList := fun he => hparen (by rw [he]; decide)
      have hfirst : test.text.head? ≠ some '@' := fun he => hat (List.mem_of_mem_head? he)
      exact (test_name htext hnode hfirst).trans (congrArg _ (nameTest_of_proper h))
    | text => rfl
    | node => rfl
  | attr test =>
    have htest : Path.nameTest test.text = .ok test := nameTest_of_proper h
    exact congrArg (Except.map _) htest

theorem isBlank_of_isDigit (h : c.isDigit = true) : isBlank c = false := by
  by_contra hblank
  rw [Char.isDigit_iff_toNat] at h
  have hlow : 48 ≤ c.toNat := h.1
  have hhigh : c.toNat ≤ 57 := h.2
  simp only [Bool.not_eq_false, isBlank, Text.blankRanges, List.any_cons, List.any_nil, Bool.or_eq_true,
    Bool.and_eq_true, decide_eq_true_eq, Bool.or_false] at hblank
  omega

theorem isDigit_toDigits (n : Nat) : ∀ c ∈ Nat.toDigits 10 n, c.isDigit = true := fun _ hc =>
  Nat.isDigit_of_mem_toDigits (by omega) (by omega) hc

theorem digitsValue_toDigits (n : Nat) : digitsValue (Nat.toDigits 10 n) = n := by
  have hdigits := Nat.ofDigitChars_toDigits (b := 10) (n := n) (by omega) (by omega)
  have hzero : '0'.toNat = 48 := rfl
  simpa only [digitsValue, Nat.ofDigitChars, Nat.mul_comm, hzero] using hdigits

theorem number?_toDigits (n : Nat) :
    Path.number? (Nat.toDigits 10 n) = if n < bitLimit 64 then some n else none := by
  have hdigit := isDigit_toDigits n
  have hsign : numerals (Nat.toDigits 10 n) = Nat.toDigits 10 n := by
    unfold numerals
    split
    · next ds heq => exact absurd (hdigit '+' (by rw [heq]; simp)) (by decide)
    · rfl
  rw [number?_eq, hsign, digitsValue_toDigits, if_neg]
  simpa [Nat.toDigits_ne_nil] using hdigit

end Heads

/-! ### Colons -/

section Colons
variable {as bs : List Char} {c : Char}

/-- An axis is written with two colons. -/
theorem not_contains_of_count (h : as.count ':' ≤ 1) : contains [':', ':'] as = false := by
  rw [Bool.eq_false_iff, ne_eq, contains_iff]
  intro hinfix
  have hcount := hinfix.sublist.count_le ':'
  simp only [List.count_cons_self, List.count_nil] at hcount
  omega

theorem contains_tail (hc : c ≠ ':') : contains [':', ':'] (c :: bs) = contains [':', ':'] bs := by
  have hstart : Text.startsWith [':', ':'] (c :: bs) = false := by simp [Text.startsWith, Text.after?, hc.symm]
  rw [contains_cons, hstart, Bool.false_or]

theorem contains_cut (hc : c ≠ ':') :
    contains [':', ':'] (as ++ c :: bs) = (contains [':', ':'] as || contains [':', ':'] bs) := by
  induction as with
  | nil =>
    rw [List.nil_append, contains_tail hc]
    rfl
  | cons a as ih =>
    have hsame : Text.startsWith [':', ':'] (a :: (as ++ c :: bs)) = Text.startsWith [':', ':'] (a :: as) := by
      cases as with
      | nil => simp [Text.startsWith, Text.after?, hc.symm]
      | cons b as =>
        rw [List.cons_append, Text.startsWith, Text.startsWith]
        simp only [Text.after?]
        split
        · split <;> rfl
        · rfl
    rw [List.cons_append, contains_cons, hsame, ih, contains_cons, Bool.or_assoc]

theorem not_contains_append (ha : contains [':', ':'] as = false) (hb : contains [':', ':'] bs = false)
    (hhead : bs.head? ≠ some ':') : contains [':', ':'] (as ++ bs) = false := by
  cases bs with
  | nil => rwa [List.append_nil]
  | cons b bs =>
    have hne : b ≠ ':' := fun he => hhead (by rw [he]; rfl)
    rw [contains_cons, Bool.or_eq_false_iff] at hb
    rw [contains_cut hne, ha, hb.2]
    rfl

theorem NameTest.not_contains_colons {t : NameTest} (h : t.IsProper) : contains [':', ':'] t.text = false := by
  have hnone {s : String} (hs : Xml.isNCName s.toList = true) : s.toList.count ':' = 0 :=
    List.count_eq_zero.2 (not_mem_of_isNCName hs (.inr rfl))
  refine not_contains_of_count ?_
  cases t with
  | any => decide
  | anyUnder space => simp [text, hnone h]
  | named space own =>
    cases space with
    | none => simp [text, hnone h.2]
    | some space => simp [text, hnone h.2, hnone (h.1 space rfl)]

theorem StepHead.not_contains_colons {head : StepHead} (h : head.IsProper) :
    contains [':', ':'] head.text = false := by
  cases head with
  | child test =>
    cases test with
    | name test => exact NameTest.not_contains_colons h
    | text => decide
    | node => decide
  | attr test =>
    have htest : contains [':', ':'] test.text = false := NameTest.not_contains_colons h
    exact (contains_tail (by decide)).trans htest

theorem Literal.not_contains_colons {l : Literal} (h : contains [':', ':'] l.chars = false) :
    contains [':', ':'] l.text = false := by
  have hquote : l.quote ≠ ':' := by
    rcases l.quoted with hq | hq <;> rw [hq] <;> decide
  have hend : contains [':', ':'] (l.chars ++ [l.quote]) = false := (contains_cut hquote).trans (by rw [h]; rfl)
  rwa [text, contains_tail hquote]

theorem head?_linksText (links : List (Bool × StepTree)) : (linksText links).head? ≠ some ':' := by
  cases links with
  | nil => exact nofun
  | cons link links =>
    obtain ⟨doubled, s⟩ := link
    rw [linksText]
    cases doubled <;> simp

theorem stepsReadable_append (ss ts : List Step) :
    stepsReadable (ss ++ ts) = (stepsReadable ss && stepsReadable ts) := by
  induction ss with
  | nil => rfl
  | cons s ss ih => rw [List.cons_append, stepsReadable, stepsReadable, ih, Bool.and_assoc]

theorem readable_linkSteps {doubled : Bool} {s : StepTree} {links : List (Bool × StepTree)} :
    stepsReadable (linkSteps ((doubled, s) :: links)) = (s.step.readable && stepsReadable (linkSteps links)) := by
  rw [linkSteps, stepsReadable_append]
  cases doubled <;> simp [stepsReadable, Step.readable]

mutual

theorem PathTree.not_contains_colons : (t : PathTree) → t.path.readable = true →
    contains [':', ':'] t.text = false
  | .absolute links => fun h => by
    rw [PathTree.path, Path.readable] at h
    rw [PathTree.text]
    split
    · decide
    · exact linksText_not_contains_colons links h
  | .relative first links => fun h => by
    rw [PathTree.path, Path.readable, stepsReadable, Bool.and_eq_true] at h
    rw [PathTree.text]
    exact not_contains_append (first.not_contains_colons h.1) (linksText_not_contains_colons links h.2)
      (head?_linksText links)

theorem StepTree.not_contains_colons : (s : StepTree) → s.step.readable = true →
    contains [':', ':'] s.text = false
  | .self => fun _ => by decide
  | .parent => fun _ => by decide
  | .test head proper ps => fun h => by
    rw [StepTree.step, StepHead.readable_step, Bool.and_eq_true] at h
    have hhead : (predicatesText ps).head? ≠ some ':' := by
      cases ps <;> simp [predicatesText]
    rw [StepTree.text]
    exact not_contains_append (StepHead.not_contains_colons proper)
      (predicatesText_not_contains_colons ps h.2) hhead

theorem PredicateTree.not_contains_colons : (p : PredicateTree) → p.predicate.readable = true →
    contains [':', ':'] p.text = false
  | .position n _ => fun _ => by
    rw [PredicateTree.text]
    refine not_contains_of_count (Nat.le_of_eq ?_ |>.trans (Nat.zero_le 1))
    exact List.count_eq_zero.2 fun hmem =>
      absurd (Nat.isDigit_of_mem_toDigits (by omega) (by omega) hmem) (by decide)
  | .last => fun _ => by decide
  | .holds p => fun h => by
    rw [PredicateTree.predicate, Predicate.readable] at h
    rw [PredicateTree.text]
    exact p.not_contains_colons h
  | .equals p l => fun h => by
    rw [PredicateTree.predicate, Predicate.readable, Bool.and_eq_true, Bool.not_eq_true', String.toList_ofList] at h
    rw [PredicateTree.text, contains_cut (by decide), p.not_contains_colons h.1, Literal.not_contains_colons h.2]
    rfl

theorem linksText_not_contains_colons : (links : List (Bool × StepTree)) →
    stepsReadable (linkSteps links) = true → contains [':', ':'] (linksText links) = false
  | [] => fun _ => by decide
  | (doubled, s) :: links => fun h => by
    rw [readable_linkSteps, Bool.and_eq_true] at h
    have htail : contains [':', ':'] (s.text ++ linksText links) = false :=
      not_contains_append (s.not_contains_colons h.1) (linksText_not_contains_colons links h.2)
        (head?_linksText links)
    rw [linksText]
    cases doubled with
    | false => exact (contains_tail (by decide)).trans htail
    | true => exact (contains_tail (by decide)).trans ((contains_tail (by decide)).trans htail)

theorem predicatesText_not_contains_colons : (ps : List PredicateTree) →
    predicatesReadable (treePredicates ps) = true → contains [':', ':'] (predicatesText ps) = false
  | [] => fun _ => by decide
  | p :: ps => fun h => by
    rw [treePredicates, predicatesReadable, Bool.and_eq_true] at h
    have htail : contains [':', ':'] (p.text ++ ']' :: predicatesText ps) = false := by
      rw [contains_cut (by decide), p.not_contains_colons h.1, predicatesText_not_contains_colons ps h.2]
      rfl
    rwa [predicatesText, contains_tail (by decide)]

end

end Colons

/-! ### Trees whose texts lose nothing -/

section Ends
variable {links : List (Bool × StepTree)} {p : List Char}

theorem readable_linkSteps_iff : stepsReadable (linkSteps links) = true ↔ ∀ x ∈ links, x.2.step.readable = true := by
  induction links with
  | nil => exact ⟨fun _ => List.forall_mem_nil _, fun _ => rfl⟩
  | cons x links ih =>
    obtain ⟨doubled, s⟩ := x
    rw [readable_linkSteps, Bool.and_eq_true, ih, List.forall_mem_cons]

theorem getLast?_predicatesText {ps : List PredicateTree} (h : ps ≠ []) :
    (predicatesText ps).getLast? = some ']' := by
  induction ps with
  | nil => exact absurd rfl h
  | cons p ps ih =>
    rw [predicatesText]
    cases ps with
    | nil => exact List.getLast?_concat (l := '[' :: p.text)
    | cons q ps => simp [List.getLast?_cons, ih (List.cons_ne_nil q ps)]

theorem StepTree.tight : (s : StepTree) → s.step.readable = true → Tight s.text
  | .self => fun _ => .single (by decide)
  | .parent => fun _ => (Tight.single (by decide)).between [] (.single (by decide))
  | .test head proper ps => fun h => by
    rw [StepTree.step, StepHead.readable_step, Bool.and_eq_true, headReadable, Bool.and_eq_true] at h
    obtain ⟨⟨hfirst, hlast⟩, -⟩ := h
    have hne := StepHead.text_ne_nil proper
    rw [StepTree.text]
    refine ⟨by simp [hne], fun c hc => ?_, fun c hc => ?_⟩
    · rw [List.head?_append_of_ne_nil _ hne] at hc
      rw [Option.mem_def] at hc
      simpa [hc] using hfirst
    · cases ps with
      | nil =>
        rw [predicatesText, List.append_nil, Option.mem_def] at hc
        simpa [treePredicates, hc] using hlast
      | cons p ps =>
        have hclose := getLast?_predicatesText (List.cons_ne_nil p ps)
        rw [List.getLast?_append, hclose] at hc
        cases hc
        decide

theorem tight_linksText (hp : Tight p) (h : ∀ x ∈ links, x.2.step.readable = true) : Tight (p ++ linksText links) := by
  induction links generalizing p with
  | nil => rwa [linksText, List.append_nil]
  | cons x links ih =>
    obtain ⟨doubled, s⟩ := x
    rw [List.forall_mem_cons] at h
    rw [linksText, ← List.append_assoc, ← List.append_assoc]
    exact ih (hp.between _ (s.tight h.1)) h.2

theorem PathTree.tight (t : PathTree) (h : t.path.readable = true) : Tight t.text := by
  cases t with
  | absolute links =>
    rw [PathTree.path, Path.readable, readable_linkSteps_iff] at h
    rw [PathTree.text]
    cases links with
    | nil => exact .single (by decide)
    | cons x links =>
      obtain ⟨doubled, s⟩ := x
      rw [List.forall_mem_cons] at h
      have hslash : Tight ['/'] := .single (by decide)
      have htail {p : List Char} (hp : Tight p) : Tight (p ++ linksText links) := tight_linksText hp h.2
      rw [if_neg (by simp), linksText]
      cases doubled with
      | false => exact htail (hslash.between [] (s.tight h.1))
      | true => exact htail (hslash.between ['/'] (s.tight h.1))
  | relative first links =>
    rw [PathTree.path, Path.readable, stepsReadable, Bool.and_eq_true, readable_linkSteps_iff] at h
    rw [PathTree.text]
    exact tight_linksText (first.tight h.1) h.2

theorem Literal.tight (l : Literal) : Tight l.text := by
  have hquote : isBlank l.quote = false := by
    rcases l.quoted with hq | hq <;> rw [hq] <;> decide
  exact (Tight.single hquote).between l.chars (.single hquote)

theorem PredicateTree.tight (p : PredicateTree) (h : p.predicate.readable = true) : Tight p.text := by
  cases p with
  | position n positive =>
    have hblank : ∀ c ∈ Nat.toDigits 10 n, isBlank c = false := by
      intro c hc
      exact isBlank_of_isDigit (Nat.isDigit_of_mem_toDigits (by omega) (by omega) hc)
    rw [PredicateTree.text]
    exact ⟨Nat.toDigits_ne_nil, fun c hc => hblank c (List.mem_of_mem_head? hc),
      fun c hc => hblank c (List.mem_of_getLast? hc)⟩
  | last => exact (Tight.single (by decide)).between "ast(".toList (.single (by decide))
  | holds p =>
    rw [PredicateTree.predicate, Predicate.readable] at h
    rw [PredicateTree.text]
    exact p.tight h
  | equals p l =>
    rw [PredicateTree.predicate, Predicate.readable, Bool.and_eq_true] at h
    have htight := (p.tight h.1).between ['='] l.tight
    rw [PredicateTree.text]
    simpa using htight

end Ends

/-! ### Margins -/

open Text (isBlank trim)

def Blank (cs : List Char) : Prop := ∀ c ∈ cs, isBlank c = true

instance (cs : List Char) : Decidable (Blank cs) := decidable_of_iff (cs.all isBlank = true) List.all_eq_true

section Margins
variable {b c e cs : List Char} {x : Char}

theorem blank_nil : Blank [] := List.forall_mem_nil _

theorem Blank.append (hb : Blank b) (he : Blank e) : Blank (b ++ e) := List.forall_mem_append.2 ⟨hb, he⟩

theorem Blank.not_mem (hb : Blank b) (hx : isBlank x = false) : x ∉ b := by
  intro hmem
  rw [hb x hmem] at hx
  cases hx

theorem trim_blank_append (hb : Blank b) (cs : List Char) : trim (b ++ cs) = trim cs := by
  rw [trim, trim, Text.trimStart, List.dropWhile_append_of_pos hb]
  rfl

theorem trimEnd_append_blank (he : Blank e) (cs : List Char) : Text.trimEnd (cs ++ e) = Text.trimEnd cs := by
  have hreverse : ∀ x ∈ e.reverse, isBlank x = true := fun x hx => he x (List.mem_reverse.1 hx)
  rw [Text.trimEnd, List.reverse_append, List.dropWhile_append_of_pos hreverse]
  rfl

theorem trim_append_blank (he : Blank e) (cs : List Char) : trim (cs ++ e) = trim cs := by
  rw [trim, trim, Text.trimStart, List.dropWhile_append]
  split
  · next hnil =>
    rw [List.isEmpty_iff] at hnil
    rw [Text.trimStart, hnil, List.dropWhile_eq_nil_iff.2 he]
  · exact trimEnd_append_blank he _

theorem trim_margins (hb : Blank b) (hc : Tight c) (he : Blank e) : trim (b ++ c ++ e) = c := by
  rw [trim_append_blank he, trim_blank_append hb, hc.trim_eq]

theorem exists_margins (cs : List Char) : ∃ b e, Blank b ∧ Blank e ∧ cs = b ++ trim cs ++ e := by
  obtain ⟨b, hcs, hb⟩ := eq_append_trimStart cs
  obtain ⟨e, he, hblank⟩ := eq_trimEnd_append (Text.trimStart cs)
  refine ⟨b, e, hb, hblank, ?_⟩
  rw [List.append_assoc]
  exact hcs.trans (congrArg (b ++ ·) he)

theorem trim_subset (cs : List Char) : trim cs ⊆ cs := by
  obtain ⟨b, e, -, -, hcs⟩ := exists_margins cs
  intro x hx
  rw [hcs]
  exact List.mem_append_left e (List.mem_append_right b hx)

theorem mem_trim_iff (hx : isBlank x = false) : x ∈ trim cs ↔ x ∈ cs := by
  obtain ⟨b, e, hb, he, hcs⟩ := exists_margins cs
  have hmem : x ∈ cs ↔ x ∈ b ++ trim cs ++ e := by rw [← hcs]
  simp [hmem, hb.not_mem hx, he.not_mem hx]

end Margins

end Tabulate
