import Tabulate.Proofs.Moved
import Tabulate.Proofs.Qualified

/-! Paths that find the same places in a document without namespaces and in the same document moved
into a namespace. -/
namespace Tabulate

open MarkedText (plain shown)
open Xml (Document Location Namespaces xmlUri)

section Tags
variable {uri path own : String} {cs : List Char} {c x : Char}

theorem not_mem_of_localName (h : Xml.isLocalName own = true)
    (hx : (Xml.isNameChar x && x != ':') = false) : x ∉ own.toList := by
  rw [Xml.isLocalName] at h
  split at h
  · cases h
  · next hown =>
    rw [hown]
    rw [Bool.and_eq_true, List.all_eq_true] at h
    intro hmem
    exact absurd (h.2 x hmem) (by rw [hx]; exact Bool.false_ne_true)

theorem isBareStep_localName (h : Xml.isLocalName own = true) :
    Xml.Namespaces.isBareStep own.toList = true := by
  have hcolon : ':' ∉ own.toList := not_mem_of_localName h (by decide)
  have hbracket : '[' ∉ own.toList := not_mem_of_localName h (by decide)
  have hclose : ')' ∉ own.toList := not_mem_of_localName h (by decide)
  have hfirst : own.toList.head?.any Xml.isNameStart = true := by
    rw [Xml.isLocalName] at h
    split at h
    · cases h
    · next hown =>
      rw [hown]
      exact (Bool.and_eq_true_iff.1 h).1
  cases hown : own.toList with
  | nil =>
    rw [hown] at hfirst
    cases hfirst
  | cons c cs =>
    rw [hown] at hfirst hcolon hbracket hclose
    rw [List.head?_cons, Option.any_some] at hfirst
    have hstart : ['@', '[', '.', '*'].contains c = false := by
      rw [Bool.eq_false_iff]
      intro hc
      simp only [List.contains_eq_mem, List.mem_cons, List.not_mem_nil, or_false,
        decide_eq_true_eq] at hc
      rcases hc with rfl | rfl | rfl | rfl <;> exact absurd hfirst (by decide)
    have hname : (c :: cs).takeWhile (· != '[') = c :: cs := by
      refine List.takeWhile_eq_self_iff.2 fun x hx => bne_iff_ne.2 fun he => ?_
      exact hbracket (he ▸ hx)
    rw [Xml.Namespaces.isBareStep, if_neg (by rw [hstart]; exact Bool.false_ne_true), hname]
    simp only [Bool.and_eq_true, Bool.not_eq_true', List.contains_eq_mem, decide_eq_false_iff_not]
    refine ⟨hcolon, Bool.eq_false_iff.2 fun hsuffix => hclose ?_⟩
    exact (List.isSuffixOf_iff_suffix.1 hsuffix).subset (by simp)

/-- A path without slashes is marked at its beginning or not at all. -/
theorem shown_markPieces (b : Bool) (h : '/' ∉ cs) :
    shown (markPieces b cs) = cs ∨ shown (markPieces b cs) = '_' :: ':' :: cs := by
  have hplain := plain_markPieces b cs
  have hplaced := placed_markPieces b cs
  generalize markPieces b cs = ts at hplain hplaced
  rw [← hplain] at h ⊢
  rcases hplaced.of_no_slash h with hmem | ⟨us, rfl, hmem, -⟩
  · exact .inl (shown_eq_plain hmem)
  · rw [shown, plain, shown_eq_plain hmem]
    exact .inr rfl

theorem parts_of_name (h : ∀ c ∈ cs, c ∉ ['\'', '"', '[', ']', '/']) : Path.parts {} cs = .ok [cs] := by
  induction cs with
  | nil => rfl
  | cons c cs ih =>
    have hc := h c (by simp)
    simp only [List.mem_cons, List.not_mem_nil, or_false, not_or] at hc
    obtain ⟨hsingle, hdouble, hopen, hclose, hslash⟩ := hc
    have hnext : Nesting.after {} c = {} := Nesting.after_unquoted hsingle hdouble hopen hclose
    rw [Path.parts, if_neg (by simp [hslash]), if_neg (by simp [hclose]), hnext,
      ih fun x hx => h x (List.mem_cons_of_mem _ hx)]
    rfl

theorem unaliased_mark {t : NameTest} (ht : Path.nameTest ('_' :: ':' :: cs) = .ok t) :
    t.unaliased = false := by
  rcases nameTest_mark ht with rfl | rfl
  · cases ht
    decide
  · rfl

/-- A name with the alias is read as what it says. -/
theorem step_unaliased_mark {inner : List Char → Except PathError Path} {source : List Char} {S : Step}
    (h : '[' ∉ cs) (hS : Path.step inner source ('_' :: ':' :: cs) = .ok S) : S.unaliased = false := by
  have hname : '[' ∉ '_' :: ':' :: Text.trimEnd cs := by
    obtain ⟨bs, hcs, -⟩ := eq_trimEnd_append cs
    intro hmem
    simp only [List.mem_cons, Char.reduceEq, false_or] at hmem
    exact h (by rw [hcs]; exact List.mem_append_left _ hmem)
  have hhead : ('_' :: ':' :: Text.trimEnd cs).takeWhile (· != '[') = '_' :: ':' :: Text.trimEnd cs := by
    refine List.takeWhile_eq_self_iff.2 fun x hx => bne_iff_ne.2 fun he => ?_
    exact hname (he ▸ hx)
  rw [step_eq_ok, trim_mark] at hS
  obtain ⟨hself, -⟩ | ⟨hparent, -⟩ | ⟨-, -, -, ts, ps, -, -, htest⟩ := hS
  · cases hself
  · cases hparent
  · rw [hhead, test_name (by simp) (by simp) (by simp)] at htest
    cases ht : Path.nameTest ('_' :: ':' :: Text.trimEnd cs) with
    | error e =>
      rw [ht] at htest
      cases htest
    | ok t =>
      rw [ht] at htest
      cases htest
      rw [Step.unaliased, NodeTest.unaliased, unaliased_mark ht, Bool.false_and]

theorem ofChars_unaliased_mark {depth : Nat} {p : Path} (h : ∀ c ∈ cs, c ∉ ['\'', '"', '[', ']', '/'])
    (hp : Path.ofChars depth ('_' :: ':' :: cs) = .ok p) : p.unaliased = false := by
  cases depth with
  | zero => cases hp
  | succ depth =>
    have hend : ∀ c ∈ Text.trimEnd cs, c ∉ ['\'', '"', '[', ']', '/'] := by
      obtain ⟨bs, hcs, -⟩ := eq_trimEnd_append cs
      intro c hc
      exact h c (by rw [hcs]; exact List.mem_append_left _ hc)
    have hname : ∀ c ∈ '_' :: ':' :: Text.trimEnd cs, c ∉ ['\'', '"', '[', ']', '/'] :=
      List.forall_mem_cons.2 ⟨by decide, List.forall_mem_cons.2 ⟨by decide, hend⟩⟩
    obtain ⟨-, absolute, texts, sss, ho, hsteps, rfl⟩ := ofChars_eq_ok.1 hp
    rw [trim_mark, Path.outline, parts_of_name hname] at ho
    cases ho
    have htexts : Path.stepTexts false ['_' :: ':' :: Text.trimEnd cs] =
        [(false, '_' :: ':' :: Text.trimEnd cs)] := rfl
    rw [htexts] at hsteps
    obtain ⟨ss, -, hread, -, rfl⟩ := mapM_cons_eq_ok.1 hsteps
    obtain ⟨S, hS, rfl⟩ := readStep_eq_ok.1 hread
    have hS' : S.unaliased = false := step_unaliased_mark (fun hb => hend _ hb (by simp)) hS
    simp [Path.unaliased, unaliasedSteps, hS']

/-- Where a path is qualified to the alias and a local name, it is that name or uses the alias. -/
theorem eq_of_qualify {m : Namespaces} (hm : m.default? = some uri) (hown : Xml.isLocalName own = true)
    (hq : m.qualify path = Namespaces.defaultAlias ++ ":" ++ own)
    (hp : ∀ w, Path.read path = .ok w → w.path.unaliased = true) {w : WrittenPath}
    (hw : Path.read path = .ok w) : path = own := by
  have hlist : shown (markPieces true path.toList) = '_' :: ':' :: own.toList := by
    rw [← qualify_eq_shown hm, hq, String.toList_append, String.toList_append]
    rfl
  have hslash : '/' ∉ path.toList := by
    rw [← plain_markPieces true path.toList, ← mem_shown (by decide), hlist]
    simp only [List.mem_cons, Char.reduceEq, false_or]
    exact not_mem_of_localName hown (by decide)
  rcases shown_markPieces true hslash with heq | heq
  · -- the path itself uses the alias
    have haliased : w.path.unaliased = false := by
      obtain ⟨hpath, -⟩ := read_eq_ok.1 hw
      rw [← heq, hlist] at hpath
      refine ofChars_unaliased_mark ?_ hpath
      intro c hc hbad
      simp only [List.mem_cons, List.not_mem_nil, or_false] at hbad
      rcases hbad with rfl | rfl | rfl | rfl | rfl <;>
        exact not_mem_of_localName hown (by decide) hc
    rw [hp w hw] at haliased
    cases haliased
  · rw [hlist] at heq
    exact (String.toList_injective (List.cons.inj (List.cons.inj heq).2).2).symm

end Tags

section Resolving
variable {d : Document} {m : Namespaces} {uri path : String} {l : Location} {ls : List Location}

theorem qualify_empty (path : String) : Namespaces.empty.qualify path = path := rfl

theorem qualify_localName (hm : m.default? = some uri) {own : String} (h : Xml.isLocalName own = true) :
    m.qualify own = Namespaces.defaultAlias ++ ":" ++ own := by
  have hslash : '/' ∉ own.toList := not_mem_of_localName h (by decide)
  have hbare := isBareStep_localName h
  have hmark : shown (markPieces true own.toList) = '_' :: ':' :: own.toList := by
    cases hown : own.toList with
    | nil =>
      rw [hown] at hbare
      cases hbare
    | cons c cs =>
      rw [hown] at hbare hslash
      have hpiece : piece (c :: cs) = c :: cs :=
        List.takeWhile_eq_self_iff.2 fun x hx => bne_iff_ne.2 fun he => hslash (he ▸ hx)
      rcases shown_markPieces true hslash with heq | heq
      · rw [markPieces, hpiece, hbare, Bool.and_true, if_pos rfl, shown] at heq
        have hlength := congrArg List.length heq
        rw [List.length_cons, List.length_cons, length_shown] at hlength
        simp only [plain, plain_markPieces, List.length_cons] at hlength
        omega
      · exact heq
  refine String.toList_injective ?_
  rw [qualify_eq_shown hm, hmark, String.toList_append, String.toList_append]
  rfl

theorem tag_moved (uri own : String) :
    (Document.movedNames uri).tag ⟨some uri, own⟩ = Namespaces.defaultAlias ++ ":" ++ own := by
  simp [Namespaces.tag, Document.movedNames, Namespaces.aliasOf?, Namespaces.insert]

theorem resolve_element {address : List Nat} {n : Xml.Name} {bs : List Xml.Binding}
    {as : List Xml.Attribute} {cs : List Xml.Node} (hn : d.node? address = some (.element n bs as cs)) :
    d.resolve m path (.node address) = if m.qualify path = m.tag n then .ok [.node address]
      else (Path.read (m.qualify path)).map fun w => w.path.follow d m (.node address) := by
  simp [Document.resolve, hn]

/-- What a path finds in a document without namespaces, it finds in the document moved into a
namespace, if all marks are harmless. -/
theorem resolve_harmless (hd : d.plain = true) (hu : uri ≠ xmlUri) (hl : d.isElement l = true)
    (hp : ∀ w, Path.read path = .ok w → w.path.unaliased = true) (hm : marksHarmless path = true)
    (h : d.resolve (Namespaces.ofDocument d) path l = .ok ls) :
    (d.moved uri).isElement l = true ∧
      (d.moved uri).resolve (Namespaces.ofDocument (d.moved uri)) path l = .ok ls := by
  have hdefault : (Document.movedNames uri).default? = some uri := default?_movedNames uri
  rw [Document.namespaces_of_plain hd] at h
  rw [Document.namespaces_moved (Document.elementNode?_isSome hl)]
  cases l with
  | attr owner index => cases hl
  | node address =>
    obtain ⟨n, hn, helement⟩ := (Option.any_eq_true ..).1 hl
    cases n with
    | text _ => cases helement
    | comment _ => cases helement
    | instruction _ _ => cases helement
    | element name bs as cs =>
      obtain ⟨bs', hmoved⟩ : ∃ bs', (d.moved uri).node? address =
          some (.element ⟨some uri, name.localPart⟩ bs' as (Xml.allMoved uri cs)) := by
        obtain ⟨bs', hmoved⟩ := Document.node?_moved d uri address
        exact ⟨bs', by rw [hmoved, hn]; rfl⟩
      have hplain := Document.plain_of_node? hd hn
      simp only [Xml.Node.plain, Bool.and_eq_true, Option.isNone_iff_eq_none] at hplain
      obtain ⟨⟨⟨huri, hlocal⟩, -⟩, -⟩ := hplain
      have htag : Namespaces.empty.tag name = name.localPart := by rw [Namespaces.tag, huri]
      refine ⟨by rw [Document.isElement, hmoved]; rfl, ?_⟩
      rw [resolve_element hn, qualify_empty, htag] at h
      rw [resolve_element hmoved, tag_moved]
      split at h
      · next hown =>
        cases h
        rw [hown, qualify_localName hdefault hlocal, if_pos rfl]
      · next hother =>
        cases hw : Path.read path with
        | error e =>
          rw [hw] at h
          cases h
        | ok w =>
          rw [hw] at h
          cases h
          obtain ⟨w', hw', hbare⟩ := (read_qualify hdefault hw).1 hm
          rw [if_neg fun hq => hother (eq_of_qualify hdefault hlocal hq hp hw), hw']
          have hfollow : w'.path.follow (d.moved uri) (Document.movedNames uri) (.node address) =
              w.path.follow d .empty (.node address) := by
            rw [← Path.follow_bare hdefault, hbare, Path.follow_bare hdefault,
              Path.follow_moved hd hu _ (hp w hw)]
          exact congrArg Except.ok hfollow

/-- The names of the document moved into a namespace leave the meaning of a path alone exactly where
all marks are harmless, and there the path finds in it what it finds in the document itself. -/
theorem resolve_moved (hd : d.plain = true) (hu : uri ≠ xmlUri) (hl : d.isElement l = true)
    (hp : ∀ w, Path.read path = .ok w → w.path.unaliased = true) :
    (∀ w, Path.read path = .ok w → (marksHarmless path = true ↔
      ∃ w', Path.read ((Namespaces.ofDocument (d.moved uri)).qualify path) = .ok w' ∧
        w'.path.bare = w.path.bare)) ∧
    (marksHarmless path = true → ∀ ls, d.resolve (Namespaces.ofDocument d) path l = .ok ls →
      (d.moved uri).isElement l = true ∧
        (d.moved uri).resolve (Namespaces.ofDocument (d.moved uri)) path l = .ok ls) := by
  refine ⟨fun w hw => ?_, fun hm ls h => resolve_harmless hd hu hl hp hm h⟩
  rw [Document.namespaces_moved (Document.elementNode?_isSome hl)]
  exact read_qualify (default?_movedNames uri) hw

theorem resolve_moved_shelf :
    let el (name : String) (cs : List Xml.Node) : Xml.Node := .element ⟨none, name⟩ [] [] cs
    let d : Document := ⟨[el "a" [el "b" [el "c" [el "d" [.text "x"]]], el "b" []]]⟩
    (d.moved "u").isElement (.node [0]) = true ∧
      (d.moved "u").resolve (Namespaces.ofDocument (d.moved "u")) "b[c/d='x']/c" (.node [0]) =
        .ok [.node [0, 0, 0]] := by
  intro el d
  refine (resolve_moved (by decide +kernel) (by decide) (by decide +kernel) ?_).2 (by decide +kernel) _
    (by decide +kernel)
  intro w hw
  have hall : (Path.read "b[c/d='x']/c").toOption.all (fun w => w.path.unaliased) = true := by
    decide +kernel
  rw [hw] at hall
  exact hall

/-- A slash in a literal, a blank before a name and a test of the kind of node in a predicate each
make a path lose what it finds, as soon as the elements are in a namespace. -/
theorem marks_lose_element :
    let el (name : String) (cs : List Xml.Node) : Xml.Node := .element ⟨none, name⟩ [] [] cs
    let d : Document := ⟨[el "a" [el "b" [el "c" [.text "x/y"]]]]⟩
    d.plain = true ∧ ∀ path ∈ ["b[c='x/y']", "b[c=x/y]", " b", "b[c/text()='x/y']", "b[/]", "b[/='x/y']"],
      (Path.read path).toOption.all (fun w => w.path.unaliased) = true ∧
      d.resolve (Namespaces.ofDocument d) path (.node [0]) = .ok [.node [0, 0]] ∧
      (d.moved "u").resolve (Namespaces.ofDocument (d.moved "u")) path (.node [0]) ≠ .ok [.node [0, 0]] := by
  decide +kernel

end Resolving

end Tabulate
