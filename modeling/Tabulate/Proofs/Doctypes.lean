import Tabulate.Proofs.Prologs
import Tabulate.Xml.Document

/-! The document type that validation goes by is the first one mentioned anywhere in a text, and the one that
declares something is the one behind the prolog. They are the same where nothing in front of the declaration
looks like one, or nothing in the whole text where there is no declaration. -/
namespace Tabulate.Xml

open Text (after? after?_eq_some_iff isBlank)

section Appending

variable {α : Type} {p : α → Bool} {x : α} {as bs : List α}

theorem takeWhile_append_of_mem (hx : x ∈ as) (hp : p x = false) :
    (as ++ bs).takeWhile p = as.takeWhile p := by
  induction as with
  | nil => simp at hx
  | cons a as ih =>
    rcases List.mem_cons.1 hx with rfl | hx
    · simp [hp]
    · simp only [List.cons_append, List.takeWhile_cons, ih hx]

theorem dropWhile_append_of_mem (hx : x ∈ as) (hp : p x = false) :
    (as ++ bs).dropWhile p = as.dropWhile p ++ bs := by
  induction as with
  | nil => simp at hx
  | cons a as ih =>
    rcases List.mem_cons.1 hx with rfl | hx
    · simp [hp]
    · simp only [List.cons_append, List.dropWhile_cons, ih hx]
      split <;> rfl

theorem mem_dropWhile_of_mem (hx : x ∈ as) (hp : p x = false) : x ∈ as.dropWhile p := by
  rw [← List.takeWhile_append_dropWhile (p := p) (l := as)] at hx
  rcases List.mem_append.1 hx with h | h
  · exact absurd (List.mem_takeWhile_imp h) (by simp [hp])
  · exact h

end Appending

/-- A text that holds a character which the pattern does not is long enough to tell whether it begins with
the pattern. -/
theorem after?_append {p as : List Char} {x : Char} (hx : x ∈ as) (hp : x ∉ p) (bs : List Char) :
    after? p (as ++ bs) = (after? p as).map (· ++ bs) := by
  induction p generalizing as with
  | nil => rfl
  | cons a p ih =>
    cases as with
    | nil => simp at hx
    | cons c cs =>
      by_cases h : a = c
      · subst h
        have hmem : x ∈ cs := by grind
        simp [after?, ih hmem (fun h => hp (List.mem_cons_of_mem a h))]
      · simp [after?, h]

theorem blanks?_append {as : List Char} (h : '>' ∈ as) (bs : List Char) :
    blanks? (as ++ bs) = (blanks? as).map (· ++ bs) := by
  cases as with
  | nil => simp at h
  | cons c cs =>
    by_cases hc : isBlank c
    · have hmem : '>' ∈ cs := (List.mem_cons.1 h).resolve_left fun e => by
        subst e
        exact absurd hc (by decide)
      simp [blanks?, hc, dropWhile_append_of_mem hmem (show isBlank '>' = false by decide)]
    · simp [blanks?, hc]

theorem mem_of_blanks? {cs rest : List Char} {x : Char} (h : blanks? cs = some rest) (hx : x ∈ cs)
    (hb : isBlank x = false) : x ∈ rest := by
  cases cs with
  | nil => simp at hx
  | cons c cs =>
    simp only [blanks?, Option.ite_none_right_eq_some, Option.some.injEq] at h
    rcases List.mem_cons.1 hx with rfl | hx
    · simp [hb] at h
    · exact h.2 ▸ mem_dropWhile_of_mem hx hb

theorem declaredName?_eq_some_iff {cs name r : List Char} : declaredName? cs = some (name, r) ↔
    ∃ r₁ r₂, after? keyword cs = some r₁ ∧ blanks? r₁ = some r₂ ∧
      name = r₂.takeWhile (fun c => !endsDeclaredName c) ∧ r = r₂.drop name.length ∧ name ≠ [] := by
  simp only [declaredName?, Option.bind_eq_bind, Option.bind_eq_some_iff, Option.ite_none_left_eq_some,
    List.isEmpty_iff, Option.some.injEq, Prod.mk.injEq]
  constructor
  · rintro ⟨r₁, h₁, r₂, h₂, hne, rfl, rfl⟩
    exact ⟨r₁, r₂, h₁, h₂, rfl, rfl, hne⟩
  · rintro ⟨r₁, r₂, h₁, h₂, rfl, rfl, hne⟩
    exact ⟨r₁, h₁, r₂, h₂, hne, rfl, rfl⟩

def mention? (cs : List Char) : Option (List Char) := (declaredName? cs).map (·.1)

theorem mention?_eq_some_iff {cs name : List Char} : mention? cs = some name ↔
    ∃ r₁ r₂, after? keyword cs = some r₁ ∧ blanks? r₁ = some r₂ ∧
      name = r₂.takeWhile (fun c => !endsDeclaredName c) ∧ name ≠ [] := by
  simp only [mention?, Option.map_eq_some_iff, Prod.exists, exists_and_right, exists_eq_right,
    declaredName?_eq_some_iff]
  constructor
  · rintro ⟨r, r₁, r₂, h₁, h₂, hname, -, hne⟩
    exact ⟨r₁, r₂, h₁, h₂, hname, hne⟩
  · rintro ⟨r₁, r₂, h₁, h₂, hname, hne⟩
    exact ⟨_, r₁, r₂, h₁, h₂, hname, rfl, hne⟩

theorem mention?_of_ne {c : Char} (h : c ≠ '<') (cs : List Char) : mention? (c :: cs) = none := by
  refine Option.eq_none_iff_forall_ne_some.2 fun name hname => ?_
  obtain ⟨r, _, hr, -⟩ := mention?_eq_some_iff.1 hname
  exact h (List.cons.inj (after?_eq_some_iff.1 hr)).1

/-- What is mentioned at a place is the same whatever follows the next closing bracket. -/
theorem mention?_append {as : List Char} (h : '>' ∈ as) (bs : List Char) :
    mention? (as ++ bs) = mention? as := by
  have hkeyword := after?_append h (show '>' ∉ keyword by decide) bs
  cases hr : after? keyword as with
  | none => simp [mention?, declaredName?, hkeyword, hr]
  | some r =>
    have hmem : '>' ∈ r := by
      rw [after?_eq_some_iff.1 hr, List.mem_append] at h
      exact h.resolve_left (by decide)
    cases hb : blanks? r with
    | none => simp [mention?, declaredName?, hkeyword, hr, blanks?_append hmem, hb]
    | some r' =>
      have hname : (r' ++ bs).takeWhile (fun c => !endsDeclaredName c) =
          r'.takeWhile (fun c => !endsDeclaredName c) :=
        takeWhile_append_of_mem (mem_of_blanks? hb hmem (by decide)) (by decide)
      simp only [mention?, declaredName?, hkeyword, hr, blanks?_append hmem, hb, Option.map_some,
        Option.bind_eq_bind, Option.bind_some, hname]
      split <;> rfl

theorem firstFound?_map {α β : Type} (f : List Char → Option α) (g : α → β) (cs : List Char) :
    firstFound? (fun cs => (f cs).map g) cs = (firstFound? f cs).map fun r => (r.1, g r.2) := by
  induction cs with
  | nil => simp [firstFound?, Function.comp_def]
  | cons c cs ih =>
    simp only [firstFound?, ih]
    cases f (c :: cs) <;> simp [Function.comp_def]

def firstMention? (cs : List Char) : Option (List Char × List Char) := firstFound? mention? cs

theorem doctypeName?_eq (text : String) :
    doctypeName? text = (firstMention? text.toList).map fun m => String.ofList m.2 := by
  have hmap := firstFound?_map declaredName? (·.1) text.toList
  rw [doctypeName?, show firstMention? text.toList = _ from hmap, Option.map_map]
  rfl

theorem firstMention?_append {as : List Char} (h : Closed as) (bs : List Char) :
    firstMention? (as ++ bs) =
      (firstMention? as).or ((firstMention? bs).map fun m => (as ++ m.1, m.2)) := by
  induction as with
  | nil => simp [firstMention?, firstFound?, show mention? [] = none from rfl]
  | cons a as ih =>
    have hhere : mention? (a :: (as ++ bs)) = mention? (a :: as) := by
      by_cases ha : a = '<'
      · exact mention?_append (List.mem_cons_of_mem a (h.1 ha)) bs
      · rw [mention?_of_ne ha, mention?_of_ne ha]
    have ih := ih h.2
    unfold firstMention? at ih ⊢
    rw [List.cons_append, firstFound?, firstFound?, hhere]
    cases mention? (a :: as) with
    | some name => rfl
    | none => simp [ih, Option.map_or, Function.comp_def]

theorem isBlank_of_isSpace {c : Char} (h : isSpace c = true) : isBlank c = true := by
  simp only [isSpace, Bool.or_eq_true, decide_eq_true_eq] at h
  obtain ((rfl | rfl) | rfl) | rfl := h <;> decide

/-- A document type declaration that XML reads has a name, perhaps a reference to a file, and a subset or the
end. -/
theorem doctype?_cases {inner : List Char} {declared : List Token × List Char}
    (h : doctype? inner = some declared) :
    ∃ r₁ name r₂ found r₃ c rest, spaces? inner = some r₁ ∧ name? r₁ = some (name, r₂) ∧
      externalId? (skipSpaces r₂) = some (found, r₃) ∧ skipSpaces r₃ = c :: rest ∧ (c = '>' ∨ c = '[') := by
  simp only [doctype?, Option.bind_eq_bind, Option.bind_eq_some_iff, Prod.exists] at h
  obtain ⟨r₁, h₁, name, r₂, h₂, found, r₃, h₃, h₄⟩ := h
  split at h₄
  · next rest hrest => exact ⟨r₁, name, r₂, found, r₃, '>', rest, h₁, h₂, h₃, hrest, .inl rfl⟩
  · next rest hrest => exact ⟨r₁, name, r₂, found, r₃, '[', rest, h₁, h₂, h₃, hrest, .inr rfl⟩
  · exact absurd h₄ (by simp)

/-- Behind the name of a document type stands a space, a subset or the end: the keywords that may follow
begin with characters of names. -/
theorem name?_of_doctype? {cs : List Char} {declared : List Token × List Char}
    (h : doctype? cs = some declared) :
    ∃ r₁ name c rest, spaces? cs = some r₁ ∧ name? r₁ = some (name, c :: rest) ∧
      endsDeclaredName c = true := by
  obtain ⟨r₁, name, r₂, found, r₃, d, rest, h₁, h₂, h₃, hd, hends⟩ := doctype?_cases h
  cases r₂ with
  | nil =>
    have hempty : r₃ = [] := by
      rcases externalId?_cases h₃ with ⟨-, rfl⟩ | ⟨-, hhead⟩
      · rfl
      · simp [skipSpaces] at hhead
    simp [hempty, skipSpaces] at hd
  | cons c behind =>
    refine ⟨r₁, name, c, behind, h₁, h₂, ?_⟩
    obtain ⟨-, -, -, hnext⟩ := name?_eq_some_iff.1 h₂
    by_cases hspace : isSpace c = true
    · simp [endsDeclaredName, isBlank_of_isSpace hspace]
    · have hskip : skipSpaces (c :: behind) = c :: behind := List.dropWhile_cons_of_neg hspace
      rw [hskip] at h₃
      rcases externalId?_cases h₃ with ⟨-, rfl⟩ | ⟨-, hhead⟩
      · obtain ⟨rfl, -⟩ := List.cons.inj (hskip.symm.trans hd)
        rcases hends with rfl | rfl <;> rfl
      · have hchar : isNameChar c = false := hnext
        simp only [List.head?_cons, Option.some.injEq] at hhead
        rcases hhead with rfl | rfl
        all_goals exact absurd hchar (by decide)

/-- Where the spaces end at a character that is no blank, the blanks end too. -/
theorem dropBlanks_of_skipSpaces {cs rest : List Char} {c : Char} (h : skipSpaces cs = c :: rest)
    (hc : isBlank c = false) : cs.dropWhile isBlank = c :: rest := by
  have hall : ∀ x ∈ cs.takeWhile isSpace, isBlank x = true := fun x hx =>
    isBlank_of_isSpace (List.mem_takeWhile_imp hx)
  rw [eq_of_skipSpaces cs, h, List.dropWhile_append_of_pos hall]
  simp [hc]

theorem blanks?_of_spaces? {cs rest : List Char} {c : Char} (h : spaces? cs = some (c :: rest))
    (hc : isBlank c = false) : blanks? cs = some (c :: rest) := by
  cases cs with
  | nil => simp [spaces?] at h
  | cons a cs =>
    simp only [spaces?, Option.ite_none_right_eq_some, Option.some.injEq] at h
    simp [blanks?, isBlank_of_isSpace h.1, dropBlanks_of_skipSpaces h.2 hc]

/-- A declaration that XML reads has the same name for the pattern, if no character of it counts as a blank. -/
theorem declaredName?_of_name? {inner r name rest : List Char} {c : Char} (hspaces : spaces? inner = some r)
    (hname : name? r = some (name, c :: rest)) (hends : endsDeclaredName c = true)
    (hblank : ∀ x ∈ name, isBlank x = false) :
    declaredName? (keyword ++ inner) = some (name, c :: rest) := by
  obtain ⟨rfl, hstart, hchars, -⟩ := name?_eq_some_iff.1 hname
  obtain ⟨a, as, rfl⟩ : ∃ a as, name = a :: as := List.exists_cons_of_ne_nil fun e => by simp [e] at hstart
  have hkept : ∀ x ∈ a :: as, (!endsDeclaredName x) = true := by
    intro x hx
    have hne (y : Char) (hy : isNameChar y = false) : x ≠ y := fun e => by
      rw [← e, hchars x hx] at hy
      exact Bool.noConfusion hy
    simp [endsDeclaredName, hblank x hx, hne '[' (by decide), hne '>' (by decide)]
  refine declaredName?_eq_some_iff.2 ⟨inner, (a :: as) ++ c :: rest, after?_self keyword inner,
    blanks?_of_spaces? hspaces (hblank a List.mem_cons_self), ?_, List.drop_left.symm, by simp⟩
  rw [List.takeWhile_append_of_pos hkept]
  simp [hends]

def ownDoctype? (cs : List Char) : Option (List Char × List Char) := do
  let (_, rest) ← prolog? cs
  let (name, _) ← name? (← spaces? (← after? keyword rest))
  some (cs.take (cs.length - rest.length), name)

theorem eq_of_ownDoctype? {cs front name : List Char} (h : ownDoctype? cs = some (front, name)) :
    ∃ before inner r₁ r₂, cs = front ++ (keyword ++ inner) ∧ prolog? cs = some (before, keyword ++ inner) ∧
      spaces? inner = some r₁ ∧ name? r₁ = some (name, r₂) := by
  simp only [ownDoctype?, Option.bind_eq_bind, Option.bind_eq_some_iff, Prod.exists, Option.some.injEq,
    Prod.mk.injEq] at h
  obtain ⟨before, rest, hprolog, inner, hin, r₁, hspaces, name, r₂, hname, hfront, rfl⟩ := h
  obtain rfl := after?_eq_some_iff.1 hin
  obtain ⟨front', rfl, -⟩ := prolog?_exchange hprolog
  exact ⟨before, inner, r₁, r₂, by rw [← hfront]; simp, hprolog, hspaces, hname⟩

/-- A mention of a document type in front of the declaration, or anywhere if there is no declaration. -/
def strayMention? (cs : List Char) : Option (List Char × List Char) :=
  firstMention? (((ownDoctype? cs).map (·.1)).getD cs)

/-- A document has no document type declaration, or one behind a prolog whose brackets are closed. -/
theorem ownDoctype?_cases {cs : List Char} {ts : List Token} (h : Token.ofDocument? cs = some ts) :
    ownDoctype? cs = none ∨ ∃ front inner name, cs = front ++ (keyword ++ inner) ∧ Closed front ∧
      ownDoctype? cs = some (front, name) ∧
      ((∀ c ∈ name, isBlank c = false) → mention? (keyword ++ inner) = some name) := by
  obtain ⟨before, rest, hprolog, hdoctype⟩ := prolog?_of_ofDocument? h
  cases hin : after? keyword rest with
  | none => exact .inl (by simp [ownDoctype?, hprolog, hin])
  | some inner =>
    obtain ⟨type, after, behind, hdeclared, -⟩ := hdoctype inner hin
    obtain ⟨r₁, name, c, r₂, hspaces, hname, hends⟩ := name?_of_doctype? hdeclared
    obtain rfl := after?_eq_some_iff.1 hin
    obtain ⟨front, rfl, hclosed, -⟩ := prolog?_exchange hprolog
    have hown : ownDoctype? (front ++ (keyword ++ inner)) = some (front, name) := by
      simp [ownDoctype?, hprolog, hspaces, hname]
    refine .inr ⟨front, inner, name, rfl, hclosed, hown, fun hblank => ?_⟩
    rw [mention?, declaredName?_of_name? hspaces hname hends hblank, Option.map_some]

theorem isBlank_of_mem_mention? {cs name : List Char} (h : mention? cs = some name) :
    ∀ c ∈ name, isBlank c = false := by
  obtain ⟨_, r, -, -, rfl, -⟩ := mention?_eq_some_iff.1 h
  intro c hc
  have hends := List.mem_takeWhile_imp hc
  simp only [endsDeclaredName, Bool.not_eq_true', Bool.or_eq_false_iff] at hends
  exact hends.1.1

theorem eq_of_firstFound? {α : Type} {f : List Char → Option α} {cs before : List Char} {a : α}
    (h : firstFound? f cs = some (before, a)) : ∃ rest, cs = before ++ rest ∧ f rest = some a := by
  induction cs generalizing before with
  | nil =>
    simp only [firstFound?, Option.map_eq_some_iff, Prod.mk.injEq] at h
    obtain ⟨b, hb, rfl, rfl⟩ := h
    exact ⟨[], rfl, hb⟩
  | cons c cs ih =>
    rw [firstFound?] at h
    split at h
    · next b hb =>
      simp only [Option.some.injEq, Prod.mk.injEq] at h
      obtain ⟨rfl, rfl⟩ := h
      exact ⟨c :: cs, rfl, hb⟩
    · simp only [Option.map_eq_some_iff, Prod.mk.injEq, Prod.exists] at h
      obtain ⟨b, a', hb, rfl, rfl⟩ := h
      obtain ⟨rest, rfl, hrest⟩ := ih hb
      exact ⟨rest, rfl, hrest⟩

theorem firstFound?_of_some {α : Type} {f : List Char → Option α} {cs : List Char} {a : α}
    (h : f cs = some a) : firstFound? f cs = some ([], a) := by
  cases cs <;> simp [firstFound?, h]

/-- A stray mention comes first. -/
theorem firstMention?_of_strayMention? {cs : List Char} {ts : List Token} {m : List Char × List Char}
    (h : Token.ofDocument? cs = some ts) (hm : strayMention? cs = some m) : firstMention? cs = some m := by
  rcases ownDoctype?_cases h with hnone | ⟨front, inner, name, rfl, hclosed, hown, -⟩
  · simpa [strayMention?, hnone] using hm
  · rw [strayMention?, hown] at hm
    rw [firstMention?_append hclosed, show firstMention? front = some m from hm, Option.some_or]

/-- The first mention is the declaration itself exactly if there is no stray one and no character of the
declared name counts as a blank. -/
theorem firstMention?_eq_ownDoctype?_iff {cs : List Char} {ts : List Token}
    (h : Token.ofDocument? cs = some ts) :
    firstMention? cs = ownDoctype? cs ↔
      strayMention? cs = none ∧ ∀ m ∈ ownDoctype? cs, ∀ c ∈ m.2, isBlank c = false := by
  rcases ownDoctype?_cases h with hnone | ⟨front, inner, name, rfl, hclosed, hown, hmention⟩
  · simp [strayMention?, hnone]
  · have hstray : strayMention? (front ++ (keyword ++ inner)) = firstMention? front := by
      simp [strayMention?, hown]
    rw [hown, hstray]
    constructor
    · intro hfirst
      obtain ⟨rest, -, hrest⟩ := eq_of_firstFound? hfirst
      refine ⟨Option.eq_none_iff_forall_ne_some.2 fun m hm => ?_, ?_⟩
      · -- a mention in front of the declaration would stand before the place of the declaration
        obtain ⟨rest', hfront, hrest'⟩ := eq_of_firstFound? hm
        rw [firstMention?_append hclosed, hm, Option.some_or, Option.some.injEq] at hfirst
        rw [hfirst] at hfront
        rw [List.self_eq_append_right.1 hfront] at hrest'
        exact absurd hrest' (by simp [show mention? [] = none from rfl])
      · simpa using isBlank_of_mem_mention? hrest
    · rintro ⟨hnone, hblank⟩
      have hhere : firstMention? (keyword ++ inner) = some ([], name) :=
        firstFound?_of_some (hmention (by simpa using hblank))
      rw [firstMention?_append hclosed, hnone, hhere]
      simp

theorem Document.tokens_of_read? {text : String} {d : Document} (h : Document.read? text = some d) :
    ∃ ts, Token.ofDocument? text.toList = some ts := by
  cases hts : Token.ofDocument? text.toList with
  | none => simp [Document.read?, hts] at h
  | some ts => exact ⟨ts, rfl⟩

/-- Validation succeeds exactly if the first mention of a document type, wherever it stands, has the name of
the document element behind its last colon. That is the document's own declaration if and only if nothing in
front of it reads like one (nothing at all, if there is none) and no character of its name counts as a blank. -/
theorem Document.parse_validates_iff {text : String} {d : Document} {o : ParseOptions}
    (hread : Document.read? text = some d) (hv : o.validate = true) :
    ((∃ e, Document.parse text o = .ok e) ↔
      ∃ m ∈ firstMention? text.toList, afterLastColon (String.ofList m.2) = d.elementName) ∧
    (firstMention? text.toList = ownDoctype? text.toList ↔
      strayMention? text.toList = none ∧
        ∀ m ∈ ownDoctype? text.toList, ∀ c ∈ m.2, isBlank c = false) ∧
    ∀ m, strayMention? text.toList = some m → firstMention? text.toList = some m := by
  obtain ⟨ts, hts⟩ := Document.tokens_of_read? hread
  refine ⟨?_, firstMention?_eq_ownDoctype?_iff hts, fun m => firstMention?_of_strayMention? hts⟩
  rw [Document.parse, hread, hv, doctypeName?_eq]
  cases firstMention? text.toList with
  | none => simp
  | some m =>
    by_cases hm : afterLastColon (String.ofList m.2) = d.elementName
    · simp [hm]
    · simp [hm]

/-- Behind a comment that mentions nothing, the declaration decides. -/
theorem parse_validates_iff_commented :
    let text := "<!--x--><!DOCTYPE a><a/>"
    Document.read? text = some ⟨[.comment "x", .element ⟨none, "a"⟩ [] [] []]⟩ ∧
      firstMention? text.toList = ownDoctype? text.toList ∧
      ∃ e, Document.parse text ⟨none, true⟩ = .ok e := by
  have hread : Document.read? "<!--x--><!DOCTYPE a><a/>" =
      some ⟨[.comment "x", .element ⟨none, "a"⟩ [] [] []]⟩ := by rfl
  have hown : ownDoctype? "<!--x--><!DOCTYPE a><a/>".toList = some ("<!--x-->".toList, ['a']) := by rfl
  have hblank : isBlank 'a' = false := by rfl
  obtain ⟨hvalid, hfirst, -⟩ := Document.parse_validates_iff (o := ⟨none, true⟩) hread rfl
  rw [hown] at hfirst
  have hmention := hfirst.2 ⟨by rfl, by simpa using hblank⟩
  exact ⟨hread, hmention.trans hown.symm, hvalid.2 ⟨_, hmention, by rfl⟩⟩

/-- A comment or character data that quotes a declaration stands in for a missing one, and a comment in front
of the declaration takes its place. -/
theorem quoted_doctype_decides :
    let comment := "<!-- <!DOCTYPE a> --><a/>"
    let characters := "<a><![CDATA[<!DOCTYPE a>]]></a>"
    let misled := "<!--<!DOCTYPE b>--><!DOCTYPE a><a/>"
    let d : Document := ⟨[.comment "<!DOCTYPE b>", .element ⟨none, "a"⟩ [] [] []]⟩
    (ownDoctype? comment.toList = none ∧ ∃ e, Document.parse comment ⟨none, true⟩ = .ok e) ∧
      (ownDoctype? characters.toList = none ∧ ∃ e, Document.parse characters ⟨none, true⟩ = .ok e) ∧
      Document.read? misled = some d ∧ (ownDoctype? misled.toList).map (·.2) = some ['a'] ∧
      Document.parse misled ⟨none, true⟩ = .error (.otherElement "a" "b") := by
  refine ⟨⟨by rfl, _, rfl⟩, ⟨by rfl, _, rfl⟩, rfl, by rfl, rfl⟩

end Tabulate.Xml
