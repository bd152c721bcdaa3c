import Tabulate.Proofs.Cuts
import Tabulate.Xml.Token

/-! The grammar of paths. A path is absolute or begins with a step, its steps stand behind one or two
slashes, and a step is a dot, two dots, or a test with predicates. Every such tree has a text, and stands
for a path as it should be read. -/
namespace Tabulate

def Xml.isNCName : List Char → Bool
  | [] => false
  | c :: cs => isNameStart c && (c :: cs).all fun x => isNameChar x && x != ':'

namespace NameTest

def text : NameTest → List Char
  | any => ['*']
  | anyUnder space => space.toList ++ [':', '*']
  | named none own => own.toList
  | named (some space) own => space.toList ++ ':' :: own.toList

def IsProper : NameTest → Prop
  | any => True
  | anyUnder space => Xml.isNCName space.toList = true
  | named space own => (∀ s ∈ space, Xml.isNCName s.toList = true) ∧ Xml.isNCName own.toList = true

end NameTest

inductive StepHead where
  | child (test : NodeTest)
  | attr (test : NameTest)

namespace StepHead

def text : StepHead → List Char
  | child (.name test) => test.text
  | child .text => "text()".toList
  | child .node => "node()".toList
  | attr test => '@' :: test.text

def IsProper : StepHead → Prop
  | child (.name test) => test.IsProper
  | child .text => True
  | child .node => True
  | attr test => test.IsProper

def step (ps : List Predicate) : StepHead → Step
  | child test => .child test ps
  | attr test => .attr test ps

end StepHead

structure Literal where
  quote : Char
  chars : List Char
  quoted : quote = '\'' ∨ quote = '"'
  free : quote ∉ chars

def Literal.text (l : Literal) : List Char := l.quote :: (l.chars ++ [l.quote])

/-- The next quote is the one that closes the literal. -/
theorem Literal.dropWhile_chars (l : Literal) (rest : List Char) :
    (l.chars ++ l.quote :: rest).dropWhile (· != l.quote) = l.quote :: rest := by
  have hchars : ∀ x ∈ l.chars, (x != l.quote) = true := by
    intro x hx
    rw [bne_iff_ne]
    rintro rfl
    exact l.free hx
  rw [List.dropWhile_append_of_pos hchars, List.dropWhile_cons_of_neg (by simp)]

mutual

inductive PathTree where
  | absolute (links : List (Bool × StepTree))
  | relative (first : StepTree) (links : List (Bool × StepTree))

inductive StepTree where
  | self
  | parent
  | test (head : StepHead) (proper : head.IsProper) (predicates : List PredicateTree)

inductive PredicateTree where
  | position (n : Nat) (positive : 0 < n)
  | last
  | holds (path : PathTree)
  | equals (path : PathTree) (literal : Literal)

end

/-! ### Texts -/

mutual

def PathTree.text : PathTree → List Char
  | .absolute links => if links.isEmpty then ['/'] else linksText links
  | .relative first links => first.text ++ linksText links
termination_by structural t => t

def StepTree.text : StepTree → List Char
  | .self => ['.']
  | .parent => ['.', '.']
  | .test head _ ps => head.text ++ predicatesText ps
termination_by structural s => s

def PredicateTree.text : PredicateTree → List Char
  | .position n _ => Nat.toDigits 10 n
  | .last => "last()".toList
  | .holds p => p.text
  | .equals p l => p.text ++ '=' :: l.text
termination_by structural p => p

def linksText : List (Bool × StepTree) → List Char
  | [] => []
  | (doubled, s) :: links => (if doubled then ['/', '/'] else ['/']) ++ s.text ++ linksText links
termination_by structural links => links

def predicatesText : List PredicateTree → List Char
  | [] => []
  | p :: ps => '[' :: (p.text ++ ']' :: predicatesText ps)
termination_by structural ps => ps

end

/-! ### What the trees stand for -/

mutual

def PathTree.path : PathTree → Path
  | .absolute links => .mk true (linkSteps links)
  | .relative first links => .mk false (first.step :: linkSteps links)
termination_by structural t => t

def StepTree.step : StepTree → Step
  | .self => .self
  | .parent => .parent
  | .test head _ ps => head.step (treePredicates ps)
termination_by structural s => s

def PredicateTree.predicate : PredicateTree → Predicate
  | .position n _ => .position n
  | .last => .last
  | .holds p => .holds p.path
  | .equals p l => .equals p.path (String.ofList l.chars)
termination_by structural p => p

def linkSteps : List (Bool × StepTree) → List Step
  | [] => []
  | (doubled, s) :: links => (if doubled then [.descendants, s.step] else [s.step]) ++ linkSteps links
termination_by structural links => links

def treePredicates : List PredicateTree → List Predicate
  | [] => []
  | p :: ps => p.predicate :: treePredicates ps
termination_by structural ps => ps

end

/-! ### Names -/

section Names
variable {c x : Char} {cs : List Char}

theorem ne_of_isNameChar (h : Xml.isNameChar c = true) (hx : Xml.isNameChar x = false) : c ≠ x := by
  rintro rfl
  rw [h] at hx
  cases hx

theorem ne_nil_of_isNCName (h : Xml.isNCName cs = true) : cs ≠ [] := by
  rintro rfl
  cases h

theorem not_mem_of_isNCName (h : Xml.isNCName cs = true) (hx : Xml.isNameChar x = false ∨ x = ':') : x ∉ cs := by
  cases cs with
  | nil => exact List.not_mem_nil
  | cons c cs =>
    rw [Xml.isNCName, Bool.and_eq_true, List.all_eq_true] at h
    intro hmem
    have hchar := h.2 x hmem
    rw [Bool.and_eq_true, bne_iff_ne] at hchar
    rcases hx with hx | hx
    · exact ne_of_isNameChar hchar.1 hx rfl
    · exact hchar.2 hx

theorem NameTest.not_mem_text {t : NameTest} (h : t.IsProper) (hx : Xml.isNameChar x = false)
    (hcolon : x ≠ ':') (hstar : x ≠ '*') : x ∉ t.text := by
  cases t with
  | any => simpa [text] using hstar
  | anyUnder space =>
    have hspace := not_mem_of_isNCName h (.inl hx)
    simp [text, hspace, hcolon, hstar]
  | named space own =>
    have hown := not_mem_of_isNCName h.2 (.inl hx)
    cases space with
    | none => exact hown
    | some space =>
      have hspace := not_mem_of_isNCName (h.1 space rfl) (.inl hx)
      simp [text, hspace, hown, hcolon]

theorem NameTest.text_ne_nil {t : NameTest} (h : t.IsProper) : t.text ≠ [] := by
  cases t with
  | any => simp [text]
  | anyUnder space => simp [text]
  | named space own =>
    cases space with
    | none => exact ne_nil_of_isNCName h.2
    | some space => simp [text]

theorem StepHead.text_ne_nil {head : StepHead} (h : head.IsProper) : head.text ≠ [] := by
  cases head with
  | child test =>
    cases test with
    | name test => exact NameTest.text_ne_nil h
    | text => decide
    | node => decide
  | attr test => exact List.cons_ne_nil _ _

/-- A head has none of the characters that paths are cut at. -/
theorem StepHead.not_mem_text {head : StepHead} (h : head.IsProper) (hx : x ∈ ['\'', '"', '[', ']', '/', '=']) :
    x ∉ head.text := by
  have hname : Xml.isNameChar x = false ∧ x ≠ ':' ∧ x ≠ '*' ∧ x ≠ '@' ∧ x ∉ "text()".toList ∧ x ∉ "node()".toList := by
    simp only [List.mem_cons, List.not_mem_nil, or_false] at hx
    rcases hx with rfl | rfl | rfl | rfl | rfl | rfl <;> decide
  obtain ⟨hname, hcolon, hstar, hat, htext, hnode⟩ := hname
  cases head with
  | child test =>
    cases test with
    | name test => exact NameTest.not_mem_text h hname hcolon hstar
    | text => exact htext
    | node => exact hnode
  | attr test =>
    show x ∉ '@' :: test.text
    rw [List.mem_cons, not_or]
    exact ⟨hat, NameTest.not_mem_text h hname hcolon hstar⟩

end Names

/-! ### What is nested in texts -/

namespace Nesting
variable {n : Nesting} {x : Char} {as bs cs : List Char}

theorem never_of_not_mem (h : x ∉ cs) : never x n cs = true := by
  induction cs generalizing n with
  | nil => rfl
  | cons c cs ih =>
    rw [List.mem_cons, not_or] at h
    rw [never, ih h.2, decide_eq_false (Ne.symm h.1)]
    simp

/-- What closes no bracket from outside of it leaves everything in it inside. -/
theorem never_lower {s : PathPlace} (hs : s.Sane) (h : never ']' s.nesting cs = true) :
    never x (s.nesting.lower (-1)) cs = true := by
  induction cs generalizing s with
  | nil => rfl
  | cons c cs ih =>
    rw [never, Bool.and_eq_true, Bool.not_eq_true'] at h
    have hinside : (s.nesting.lower (-1)).outside = false := by
      have hdepth := hs.depth
      have hne : s.nesting.depth + 1 ≠ 0 := by omega
      simp [outside, lower, hne]
    rw [never, hinside, after_lower]
    exact ih (hs.after h.1) h.2

theorem afterAll_plain (h : ∀ x ∈ ['\'', '"', '[', ']'], x ∉ cs) : afterAll {} cs = {} := by
  have hname (c : Char) (hc : c ∈ cs) : c ∉ ['\'', '"', '[', ']'] := fun hx => h c hx hc
  induction cs with
  | nil => rfl
  | cons c cs ih =>
    have hc := hname c (by simp)
    simp only [List.mem_cons, List.not_mem_nil, or_false, not_or] at hc
    rw [afterAll_cons, after_unquoted hc.1 hc.2.1 hc.2.2.1 hc.2.2.2]
    exact ih (fun x hx hmem => h x hx (List.mem_cons_of_mem c hmem)) fun x hx => hname x (List.mem_cons_of_mem c hx)

theorem after_opening {q : Char} (hq : q = '\'' ∨ q = '"') : after {} q = ⟨0, some q⟩ := by
  rcases hq with rfl | rfl <;> rfl

theorem after_closing (q : Char) : after ⟨0, some q⟩ q = {} := by simp [after]

theorem after_within {q c : Char} (h : q ≠ c) : after ⟨0, some q⟩ c = ⟨0, some q⟩ := by
  simp [after, h.symm]

theorem afterAll_quoted {q : Char} (h : q ∉ cs) : afterAll ⟨0, some q⟩ cs = ⟨0, some q⟩ := by
  induction cs with
  | nil => rfl
  | cons c cs ih =>
    rw [List.mem_cons, not_or] at h
    rw [afterAll_cons, after_within h.1, ih h.2]

theorem never_quoted {q : Char} (h : q ∉ cs) : never x ⟨0, some q⟩ cs = true := by
  induction cs with
  | nil => rfl
  | cons c cs ih =>
    rw [List.mem_cons, not_or] at h
    rw [never, after_within h.1, ih h.2]
    rfl

end Nesting

/-- Nothing is left open in a text, and the characters do not stand outside of brackets and literals. -/
structure Sealed (xs cs : List Char) : Prop where
  closed : Nesting.afterAll {} cs = {}
  never : ∀ x ∈ xs, Nesting.never x {} cs = true

namespace Sealed
variable {xs ys as bs cs : List Char}

theorem mono (h : Sealed xs cs) (hys : ys ⊆ xs) : Sealed ys cs := ⟨h.closed, fun x hx => h.never x (hys hx)⟩

theorem nil (xs : List Char) : Sealed xs [] := ⟨rfl, fun _ _ => rfl⟩

theorem append (ha : Sealed xs as) (hb : Sealed xs bs) : Sealed xs (as ++ bs) := by
  refine ⟨by rw [Nesting.afterAll_append, ha.closed, hb.closed], fun x hx => ?_⟩
  rw [Nesting.never_append_iff, ha.closed]
  exact ⟨ha.never x hx, hb.never x hx⟩

theorem plain (h : ∀ x ∈ ['\'', '"', '[', ']'] ++ xs, x ∉ cs) : Sealed xs cs :=
  ⟨Nesting.afterAll_plain fun x hx => h x (List.mem_append_left xs hx),
    fun x hx => Nesting.never_of_not_mem (h x (List.mem_append_right _ hx))⟩

theorem literal (l : Literal) (hxs : l.quote ∉ xs) : Sealed xs l.text := by
  obtain ⟨q, chars, hq, hfree⟩ := l
  have hopen := Nesting.after_opening hq
  have hclose := Nesting.after_closing q
  constructor
  · rw [Literal.text, Nesting.afterAll_cons, hopen, Nesting.afterAll_append, Nesting.afterAll_quoted hfree,
      Nesting.afterAll_cons, hclose, Nesting.afterAll_nil]
  · intro x hx
    have hne : q ≠ x := fun h => hxs (h ▸ hx)
    rw [Literal.text, Nesting.never, hopen, decide_eq_false hne, Bool.and_false, Bool.not_false, Bool.true_and,
      Nesting.never_append_iff, Nesting.afterAll_quoted hfree]
    exact ⟨Nesting.never_quoted hfree, rfl⟩

/-- What stands in brackets is inside. -/
theorem bracketed (h : Sealed [']'] cs) (hxs : '[' ∉ xs) : Sealed xs ('[' :: (cs ++ [']'])) := by
  have hopen : Nesting.after {} '[' = Nesting.lower {} (-1) := rfl
  have hbalanced : Nesting.never ']' {} cs = true := h.never ']' (by simp)
  constructor
  · rw [Nesting.afterAll_cons, hopen, Nesting.afterAll_append, Nesting.afterAll_lower, h.closed]
    rfl
  · intro x hx
    have hne : '[' ≠ x := fun hopen => hxs (hopen ▸ hx)
    rw [Nesting.never, hopen, decide_eq_false hne, Bool.and_false, Bool.not_false, Bool.true_and,
      Nesting.never_append_iff, Nesting.afterAll_lower, h.closed]
    exact ⟨Nesting.never_lower PathPlace.sane_start hbalanced, rfl⟩

end Sealed

def stepCuts : List Char := ['/', ']', '=']

theorem StepHead.sealed {head : StepHead} (h : head.IsProper) : Sealed stepCuts head.text := by
  refine .plain fun x hx => not_mem_text h ?_
  simp only [stepCuts, List.mem_append, List.mem_cons, List.not_mem_nil, or_false] at hx ⊢
  tauto

mutual

theorem PathTree.sealed : (t : PathTree) → Sealed [']', '='] t.text
  | .absolute links => by
    rw [PathTree.text]
    split
    · exact .plain (by simp)
    · exact linksText_sealed links
  | .relative first links => by
    rw [PathTree.text]
    exact (first.sealed.mono (by simp [stepCuts])).append (linksText_sealed links)

theorem StepTree.sealed : (s : StepTree) → Sealed stepCuts s.text
  | .self => .plain (by simp [StepTree.text, stepCuts])
  | .parent => .plain (by simp [StepTree.text, stepCuts])
  | .test head proper ps => by
    rw [StepTree.text]
    exact (StepHead.sealed proper).append (predicatesText_sealed ps)

theorem PredicateTree.sealed : (p : PredicateTree) → Sealed [']'] p.text
  | .position n _ => by
    rw [PredicateTree.text]
    refine .plain fun x hx hmem => ?_
    have hdigit := Nat.isDigit_of_mem_toDigits (by omega) (by omega) hmem
    simp only [List.mem_append, List.mem_cons, List.not_mem_nil, or_false] at hx
    rcases hx with (rfl | rfl | rfl | rfl) | rfl <;> exact absurd hdigit (by decide)
  | .last => .plain (by simp [PredicateTree.text])
  | .holds p => by
    rw [PredicateTree.text]
    exact p.sealed.mono (by simp)
  | .equals p l => by
    have hquote : l.quote ∉ [']'] := by rcases l.quoted with h | h <;> rw [h] <;> decide
    have hequals : Sealed [']'] ['='] := .plain (by simp)
    rw [PredicateTree.text]
    exact (p.sealed.mono (by simp)).append (hequals.append (.literal l hquote))

theorem linksText_sealed : (links : List (Bool × StepTree)) → Sealed [']', '='] (linksText links)
  | [] => .nil _
  | (doubled, s) :: links => by
    have hslashes : Sealed [']', '='] (if doubled then ['/', '/'] else ['/']) := by
      split <;> exact .plain (by simp)
    rw [linksText]
    exact (hslashes.append (s.sealed.mono (by simp [stepCuts]))).append (linksText_sealed links)

theorem predicatesText_sealed : (ps : List PredicateTree) → Sealed stepCuts (predicatesText ps)
  | [] => .nil _
  | p :: ps => by
    have hpredicate : Sealed stepCuts ('[' :: (p.text ++ [']'])) := p.sealed.bracketed (by decide)
    have hsplit : predicatesText (p :: ps) = '[' :: (p.text ++ [']']) ++ predicatesText ps := by
      rw [predicatesText, List.cons_append, List.append_assoc]
      rfl
    rw [hsplit]
    exact hpredicate.append (predicatesText_sealed ps)

end

end Tabulate
