import Mathlib.Data.Bool.AllAny
import Tabulate.Proofs.Written
import Tabulate.Proofs.RoundTrip

/-! Texts that spell a path. They are the texts that the grammar writes, with blanks around steps, predicates
and equals signs, and with leading zeros. What they spell has only proper names, and outside of literals they
have only the characters of the grammar, with one literal behind every equals sign. -/
namespace Tabulate

def Around (P : List Char → Prop) (cs : List Char) : Prop :=
  ∃ b core e, cs = b ++ core ++ e ∧ Blank b ∧ P core ∧ Blank e

/-! ### Spelling -/

mutual

def PathTree.Spells : PathTree → List Char → Prop
  | .absolute links => Around fun cs => if links.isEmpty then cs = ['/'] else linksSpell links cs
  | .relative first links => Around fun cs => ∃ s rest, cs = s ++ rest ∧ first.Spells s ∧ linksSpell links rest
termination_by structural t => t

def StepTree.Spells : StepTree → List Char → Prop
  | .self => Around (· = ['.'])
  | .parent => Around (· = ['.', '.'])
  | .test head _ ps => Around fun cs => ∃ rest, cs = head.text ++ rest ∧ predicatesSpell ps rest
termination_by structural s => s

def PredicateTree.Spells : PredicateTree → List Char → Prop
  | .position n _ => Around fun cs => cs ≠ [] ∧ cs.all Char.isDigit = true ∧ digitsValue cs = n
  | .last => Around (· = "last()".toList)
  | .holds p => p.Spells
  | .equals p l => fun cs => ∃ left right, cs = left ++ '=' :: right ∧ p.Spells left ∧ Around (· = l.text) right
termination_by structural p => p

def linksSpell : List (Bool × StepTree) → List Char → Prop
  | [], cs => cs = []
  | (doubled, s) :: links, cs => ∃ step rest, cs = (if doubled then ['/', '/'] else ['/']) ++ step ++ rest ∧
      s.Spells step ∧ linksSpell links rest
termination_by structural links => links

def predicatesSpell : List PredicateTree → List Char → Prop
  | [], cs => cs = []
  | p :: ps, cs => ∃ inside rest, cs = '[' :: (inside ++ ']' :: rest) ∧ p.Spells inside ∧ predicatesSpell ps rest
termination_by structural ps => ps

end

theorem Around.margins {P : List Char → Prop} {b cs e : List Char} (h : Around P cs) (hb : Blank b)
    (he : Blank e) : Around P (b ++ cs ++ e) := by
  obtain ⟨b', core, e', rfl, hb', hcore, he'⟩ := h
  exact ⟨b ++ b', core, e' ++ e, by simp, hb.append hb', hcore, he'.append he⟩

theorem PathTree.spells_margins {t : PathTree} {b cs e : List Char} (h : t.Spells cs) (hb : Blank b)
    (he : Blank e) : t.Spells (b ++ cs ++ e) := by
  cases t with
  | absolute links => exact Around.margins h hb he
  | relative first links => exact Around.margins h hb he

/-! ### Proper names -/

mutual

def Path.IsProper : Path → Prop
  | .mk _ steps => StepsProper steps

def StepsProper : List Step → Prop
  | [] => True
  | s :: ss => s.IsProper ∧ StepsProper ss

def Step.IsProper : Step → Prop
  | .self => True
  | .parent => True
  | .descendants => True
  | .child test ps => (StepHead.child test).IsProper ∧ PredicatesProper ps
  | .attr test ps => (StepHead.attr test).IsProper ∧ PredicatesProper ps

def PredicatesProper : List Predicate → Prop
  | [] => True
  | p :: ps => p.IsProper ∧ PredicatesProper ps

def Predicate.IsProper : Predicate → Prop
  | .position _ => True
  | .last => True
  | .holds p => p.IsProper
  | .equals p _ => p.IsProper

end

theorem StepHead.isProper_step (head : StepHead) (ps : List Predicate) :
    (head.step ps).IsProper ↔ head.IsProper ∧ PredicatesProper ps := by
  cases head <;> rfl

theorem stepsProper_linkSteps {doubled : Bool} {s : StepTree} {links : List (Bool × StepTree)} :
    StepsProper (linkSteps ((doubled, s) :: links)) ↔ s.step.IsProper ∧ StepsProper (linkSteps links) := by
  rw [linkSteps]
  cases doubled <;> simp [StepsProper, Step.IsProper]

mutual

/-- What a tree stands for has proper names. -/
theorem PathTree.isProper : (t : PathTree) → t.path.IsProper
  | .absolute links => linkSteps_proper links
  | .relative first links => ⟨first.isProper, linkSteps_proper links⟩

theorem StepTree.isProper : (s : StepTree) → s.step.IsProper
  | .self => trivial
  | .parent => trivial
  | .test head proper ps => (head.isProper_step _).2 ⟨proper, treePredicates_proper ps⟩

theorem PredicateTree.isProper : (p : PredicateTree) → p.predicate.IsProper
  | .position _ _ => trivial
  | .last => trivial
  | .holds p => p.isProper
  | .equals p _ => p.isProper

theorem linkSteps_proper : (links : List (Bool × StepTree)) → StepsProper (linkSteps links)
  | [] => trivial
  | (_, s) :: links => stepsProper_linkSteps.2 ⟨s.isProper, linkSteps_proper links⟩

theorem treePredicates_proper : (ps : List PredicateTree) → PredicatesProper (treePredicates ps)
  | [] => trivial
  | p :: ps => ⟨p.isProper, treePredicates_proper ps⟩

end

/-! ### Plain writing -/

def isPathSign (c : Char) : Bool :=
  Text.isBlank c || Xml.isNameChar c || ['/', '@', '*', '[', ']', '(', ')', '=', '\'', '"'].contains c

def comparesLiteral (cs : List Char) : Bool :=
  match Text.trimStart cs with
  | q :: rest =>
    (q = '\'' || q = '"') &&
      match rest.dropWhile (· != q) with
      | _ :: behind => (Text.trimStart behind).head? = some ']'
      | [] => false
  | [] => false

def isQuote (c : Char) : Bool := c = '\'' || c = '"'

/-- Whether outside of literals there are only signs of paths, and literals stand behind equals signs, one
behind each. The first argument says whether there are only blanks since the last of them. -/
def plainlyWritten (compared : Bool) (n : Nesting) : List Char → Bool
  | [] => true
  | c :: cs =>
    if n.quote.isSome then plainlyWritten false (n.after c) cs
    else isPathSign c && (c ≠ '=' || comparesLiteral cs) && (!isQuote c || compared) &&
      plainlyWritten (c = '=' || (compared && Text.isBlank c)) (n.after c) cs

section Plain
variable {b : Bool} {n m : Nesting} {c q : Char} {as bs cs : List Char}

theorem Nesting.quote_after (h : n.quote = m.quote) (c : Char) : (n.after c).quote = (m.after c).quote := by
  obtain ⟨d, quote⟩ := n
  obtain ⟨d', quote'⟩ := m
  obtain rfl : quote = quote' := h
  cases quote with
  | some q =>
    simp only [after]
    split <;> rfl
  | none =>
    simp only [after]
    split
    · rfl
    · split
      · rfl
      · split <;> rfl

/-- Brackets do not count. -/
theorem plainlyWritten_congr (h : n.quote = m.quote) : plainlyWritten b n cs = plainlyWritten b m cs := by
  induction cs generalizing b n m with
  | nil => rfl
  | cons c cs ih =>
    have hafter := Nesting.quote_after h c
    rw [plainlyWritten, plainlyWritten, h, ih hafter, ih hafter]

theorem plainlyWritten_right (h : plainlyWritten b n (as ++ bs) = true) :
    ∃ b', plainlyWritten b' (n.afterAll as) bs = true := by
  induction as generalizing b n with
  | nil => exact ⟨b, h⟩
  | cons a as ih =>
    rw [List.cons_append, plainlyWritten] at h
    split at h
    · exact ih h
    · exact ih (Bool.and_eq_true_iff.1 h).2

theorem plainlyWritten_cons (hn : n.quote = none) : plainlyWritten b n (c :: cs) =
    (isPathSign c && (c ≠ '=' || comparesLiteral cs) && (!isQuote c || b) &&
      plainlyWritten (c = '=' || (b && Text.isBlank c)) (n.after c) cs) := by
  rw [plainlyWritten, hn]
  rfl

def Passed (cs : List Char) : Prop := ∀ bs, plainlyWritten false {} (cs ++ bs) = plainlyWritten false {} bs

theorem Passed.nil : Passed [] := fun _ => rfl

theorem Passed.append (ha : Passed as) (hb : Passed bs) : Passed (as ++ bs) := by
  intro cs
  rw [List.append_assoc, ha, hb]

theorem quote_after_sign (h : c ∉ ['=', '\'', '"']) : (Nesting.after {} c).quote = none := by
  simp only [List.mem_cons, List.not_mem_nil, or_false, not_or] at h
  simp only [Nesting.after, h.2.1, h.2.2, or_self, if_false]
  split
  · rfl
  · split <;> rfl

theorem Passed.single (hc : isPathSign c = true) (h : c ∉ ['=', '\'', '"']) : Passed [c] := by
  intro bs
  have hquote := quote_after_sign h
  simp only [List.mem_cons, List.not_mem_nil, or_false, not_or] at h
  rw [List.singleton_append, plainlyWritten_cons rfl, hc, plainlyWritten_congr (m := {}) hquote]
  simp [h, isQuote]

theorem Passed.signs (h : ∀ c ∈ cs, isPathSign c = true ∧ c ∉ ['=', '\'', '"']) : Passed cs := by
  induction cs with
  | nil => exact .nil
  | cons c cs ih =>
    obtain ⟨hc, hcs⟩ := List.forall_mem_cons.1 h
    exact (Passed.single hc.1 hc.2).append (ih hcs)

theorem Passed.blank (h : Blank cs) : Passed cs := by
  refine .signs fun c hc => ⟨by rw [isPathSign, h c hc]; rfl, fun hmem => ?_⟩
  simp only [List.mem_cons, List.not_mem_nil, or_false] at hmem
  rcases hmem with rfl | rfl | rfl <;> exact absurd (h _ hc) (by decide)

theorem plainlyWritten_quoted (h : q ∉ cs) (bs : List Char) :
    plainlyWritten false ⟨0, some q⟩ (cs ++ q :: bs) = plainlyWritten false {} bs := by
  induction cs with
  | nil =>
    rw [List.nil_append, plainlyWritten, Nesting.after_closing]
    rfl
  | cons c cs ih =>
    rw [List.mem_cons, not_or] at h
    rw [List.cons_append, plainlyWritten, Nesting.after_within h.1, ih h.2]
    rfl

/-- Behind an equals sign and blanks a literal is passed over. -/
theorem plainlyWritten_compared (hb : Blank as) (l : Literal) (bs : List Char) :
    plainlyWritten true {} (as ++ l.text ++ bs) = plainlyWritten false {} bs := by
  induction as with
  | nil =>
    obtain ⟨q, chars, hq, hfree⟩ := l
    have hsign : isPathSign q = true ∧ q ≠ '=' ∧ Text.isBlank q = false := by rcases hq with rfl | rfl <;> decide
    have hliteral := plainlyWritten_quoted hfree bs
    rw [List.nil_append, Literal.text, List.cons_append, List.append_assoc, List.singleton_append,
      plainlyWritten_cons rfl, Nesting.after_opening hq, hsign.1, hsign.2.2]
    simp [hsign.2.1, hliteral]
  | cons a as ih =>
    obtain ⟨ha, has⟩ := List.forall_mem_cons.1 hb
    have hsame : Nesting.after {} a = {} := Nesting.quoted_default.after_blank ha
    have hsign : isPathSign a = true := by
      rw [isPathSign, ha]
      rfl
    have hequals : a ≠ '=' := ne_of_blank ha (by decide)
    rw [List.cons_append, List.cons_append, plainlyWritten_cons rfl, hsame, hsign, ha]
    simpa [hequals] using ih has

theorem trimStart_blank_append (h : Blank bs) (hc : Text.isBlank c = false) :
    Text.trimStart (bs ++ c :: cs) = c :: cs := by
  rw [Text.trimStart, List.dropWhile_append_of_pos h, List.dropWhile_cons_of_neg (by simp [hc])]

theorem comparesLiteral_text (l : Literal) (hb : Blank as) (he : Blank bs) (cs : List Char) :
    comparesLiteral (as ++ l.text ++ bs ++ ']' :: cs) = true := by
  have hblank : Text.isBlank l.quote = false := by rcases l.quoted with h | h <;> rw [h] <;> decide
  have htext : as ++ l.text ++ bs ++ ']' :: cs = as ++ l.quote :: (l.chars ++ l.quote :: (bs ++ ']' :: cs)) := by
    simp [Literal.text]
  have hquote : (decide (l.quote = '\'') || decide (l.quote = '"')) = true := by
    rcases l.quoted with h | h <;> rw [h] <;> decide
  rw [comparesLiteral, htext, trimStart_blank_append hb hblank]
  dsimp only
  rw [l.dropWhile_chars, hquote]
  dsimp only
  rw [trimStart_blank_append he (by decide)]
  simp

end Plain

/-! ### What is spelled is plainly written -/

section Signs
variable {c : Char} {cs : List Char}

theorem isNameChar_of_isNCName (h : Xml.isNCName cs = true) : ∀ c ∈ cs, Xml.isNameChar c = true := by
  cases cs with
  | nil => exact List.forall_mem_nil _
  | cons c cs =>
    rw [Xml.isNCName, Bool.and_eq_true, List.all_eq_true] at h
    exact fun x hx => (Bool.and_eq_true_iff.1 (h.2 x hx)).1

theorem isPathSign_of_isNameChar (h : Xml.isNameChar c = true) : isPathSign c = true := by
  rw [isPathSign, h, Bool.or_true, Bool.true_or]

theorem isNameChar_of_isDigit (h : c.isDigit = true) : Xml.isNameChar c = true := by
  rw [Char.isDigit_iff_toNat] at h
  have hlow : 48 ≤ c.toNat := h.1
  have hhigh : c.toNat ≤ 57 := h.2
  have hrange : Xml.inRanges Xml.nameFollowRanges c = true := by
    rw [Xml.inRanges, List.any_eq_true]
    refine ⟨(0x30, 0x39), by decide, ?_⟩
    rw [Bool.and_eq_true, decide_eq_true_eq, decide_eq_true_eq]
    exact ⟨hlow, hhigh⟩
  rw [Xml.isNameChar, hrange, Bool.or_true]

theorem NameTest.isPathSign_text {t : NameTest} (h : t.IsProper) : ∀ c ∈ t.text, isPathSign c = true := by
  have hname {cs : List Char} (hcs : Xml.isNCName cs = true) : ∀ c ∈ cs, isPathSign c = true := fun c hc =>
    isPathSign_of_isNameChar (isNameChar_of_isNCName hcs c hc)
  have hcolon : isPathSign ':' = true := by decide
  have hstar : isPathSign '*' = true := by decide
  cases t with
  | any => exact List.forall_mem_singleton.2 hstar
  | anyUnder space =>
    exact List.forall_mem_append.2 ⟨hname h, List.forall_mem_cons.2 ⟨hcolon, List.forall_mem_singleton.2 hstar⟩⟩
  | named space own =>
    cases space with
    | none => exact hname h.2
    | some space =>
      exact List.forall_mem_append.2 ⟨hname (h.1 space rfl), List.forall_mem_cons.2 ⟨hcolon, hname h.2⟩⟩

theorem StepHead.passed {head : StepHead} (h : head.IsProper) : Passed head.text := by
  have hcuts : ∀ c ∈ head.text, c ∉ ['=', '\'', '"'] := by
    intro c hc hbad
    refine StepHead.not_mem_text h ?_ hc
    simp only [List.mem_cons, List.not_mem_nil, or_false] at hbad ⊢
    tauto
  have hsign : ∀ c ∈ head.text, isPathSign c = true := by
    cases head with
    | child test =>
      cases test with
      | name test => exact NameTest.isPathSign_text h
      | text => exact List.all_eq_true.1 rfl
      | node => exact List.all_eq_true.1 rfl
    | attr test => exact List.forall_mem_cons.2 ⟨by decide, NameTest.isPathSign_text h⟩
  exact .signs fun c hc => ⟨hsign c hc, hcuts c hc⟩

theorem Passed.around {P : List Char → Prop} (hP : ∀ cs, P cs → Passed cs) (h : Around P cs) : Passed cs := by
  obtain ⟨b, core, e, rfl, hb, hcore, he⟩ := h
  exact ((Passed.blank hb).append (hP core hcore)).append (.blank he)

end Signs

mutual

theorem PathTree.passed : (t : PathTree) → ∀ cs, t.Spells cs → Passed cs
  | .absolute links, cs, h => by
    refine .around (fun cs hcs => ?_) h
    split at hcs
    · subst hcs
      exact .single (by decide) (by decide)
    · exact linksSpell_passed links cs hcs
  | .relative first links, cs, h => by
    refine .around (fun cs hcs => ?_) h
    obtain ⟨s, rest, rfl, hs, hrest⟩ := hcs
    exact (first.passed s hs).append (linksSpell_passed links rest hrest)

theorem StepTree.passed : (s : StepTree) → ∀ cs, s.Spells cs → Passed cs
  | .self, cs, h => by
    refine .around (fun cs hcs => ?_) h
    subst hcs
    exact .signs (List.all_iff_forall_prop.1 rfl)
  | .parent, cs, h => by
    refine .around (fun cs hcs => ?_) h
    subst hcs
    exact .signs (List.all_iff_forall_prop.1 rfl)
  | .test head proper ps, cs, h => by
    refine .around (fun cs hcs => ?_) h
    obtain ⟨rest, rfl, hrest⟩ := hcs
    exact (StepHead.passed proper).append (predicatesSpell_passed ps rest hrest)

/-- Behind the literal of a comparison the predicate ends. -/
theorem PredicateTree.passed : (p : PredicateTree) → ∀ cs, p.Spells cs → Passed (cs ++ [']'])
  | .position n _, cs, h => by
    refine .append (.around (fun cs hcs => .signs fun c hc => ?_) h) (.single (by decide) (by decide))
    have hdigit := List.all_eq_true.1 hcs.2.1 c hc
    refine ⟨isPathSign_of_isNameChar (isNameChar_of_isDigit hdigit), fun hbad => ?_⟩
    simp only [List.mem_cons, List.not_mem_nil, or_false] at hbad
    rcases hbad with rfl | rfl | rfl <;> exact absurd hdigit (by decide)
  | .last, cs, h => by
    refine .append (.around (fun cs hcs => ?_) h) (.single (by decide) (by decide))
    subst hcs
    exact .signs (List.all_iff_forall_prop.1 rfl)
  | .holds p, cs, h => (p.passed cs h).append (.single (by decide) (by decide))
  | .equals p l, cs, h => by
    obtain ⟨left, right, rfl, hleft, b, core, e, rfl, hb, rfl, he⟩ := h
    intro bs
    have hequals : plainlyWritten false {} ('=' :: (b ++ l.text ++ e ++ ']' :: bs)) =
        plainlyWritten true {} (b ++ l.text ++ (e ++ ']' :: bs)) := by
      rw [plainlyWritten_cons rfl, comparesLiteral_text l hb he, List.append_assoc (b ++ l.text)]
      rfl
    have hend : Passed (e ++ [']']) := (Passed.blank he).append (.single (by decide) (by decide))
    have hright := hend bs
    rw [List.append_assoc, List.singleton_append] at hright
    have hsplit : left ++ '=' :: (b ++ l.text ++ e) ++ [']'] ++ bs =
        left ++ '=' :: (b ++ l.text ++ e ++ ']' :: bs) := by simp
    rw [hsplit, p.passed left hleft, hequals, plainlyWritten_compared hb l, hright]

theorem linksSpell_passed : (links : List (Bool × StepTree)) → ∀ cs, linksSpell links cs → Passed cs
  | [], cs, h => by
    obtain rfl : cs = [] := h
    exact .nil
  | (doubled, s) :: links, cs, h => by
    obtain ⟨step, rest, rfl, hstep, hrest⟩ := h
    have hslashes : Passed (if doubled then ['/', '/'] else ['/']) := by split <;> exact .signs (List.all_iff_forall_prop.1 rfl)
    exact (hslashes.append (s.passed step hstep)).append (linksSpell_passed links rest hrest)

theorem predicatesSpell_passed : (ps : List PredicateTree) → ∀ cs, predicatesSpell ps cs → Passed cs
  | [], cs, h => by
    obtain rfl : cs = [] := h
    exact .nil
  | p :: ps, cs, h => by
    obtain ⟨inside, rest, rfl, hinside, hrest⟩ := h
    have hopen : Passed ['['] := .single (by decide) (by decide)
    have hall := hopen.append ((p.passed inside hinside).append (predicatesSpell_passed ps rest hrest))
    rwa [List.append_assoc, List.singleton_append, List.singleton_append] at hall

end

/-! ### The text of a tree -/

theorem Around.self {P : List Char → Prop} {cs : List Char} (h : P cs) : Around P cs :=
  ⟨[], cs, [], (List.append_nil cs).symm, blank_nil, h, blank_nil⟩

mutual

/-- The text that the grammar writes is the one without blanks. -/
theorem PathTree.spells_text : (t : PathTree) → t.Spells t.text
  | .absolute links => by
    refine .self ?_
    rw [PathTree.text]
    split
    · rfl
    · exact linksSpell_text links
  | .relative first links => .self ⟨first.text, linksText links, rfl, first.spells_text, linksSpell_text links⟩

theorem StepTree.spells_text : (s : StepTree) → s.Spells s.text
  | .self => .self rfl
  | .parent => .self rfl
  | .test _ _ ps => .self ⟨predicatesText ps, rfl, predicatesSpell_text ps⟩

theorem PredicateTree.spells_text : (p : PredicateTree) → p.Spells p.text
  | .position n _ => by
    exact .self ⟨Nat.toDigits_ne_nil, List.all_eq_true.2 (isDigit_toDigits n), digitsValue_toDigits n⟩
  | .last => .self rfl
  | .holds p => p.spells_text
  | .equals p l => ⟨p.text, l.text, rfl, p.spells_text, .self rfl⟩

theorem linksSpell_text : (links : List (Bool × StepTree)) → linksSpell links (linksText links)
  | [] => rfl
  | (_, s) :: links => ⟨s.text, linksText links, rfl, s.spells_text, linksSpell_text links⟩

theorem predicatesSpell_text : (ps : List PredicateTree) → predicatesSpell ps (predicatesText ps)
  | [] => rfl
  | p :: ps => ⟨p.text, predicatesText ps, rfl, p.spells_text, predicatesSpell_text ps⟩

end

end Tabulate
