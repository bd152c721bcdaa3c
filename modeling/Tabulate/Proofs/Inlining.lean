import Mathlib.Data.List.Infix
import Tabulate.Proofs.Doctypes
import Tabulate.Proofs.Subsets

/-! The declarations of a file that a document type refers to are put in front of the document's own. The first
declaration of an entity counts, so an entity declared in both has the value of the file. -/
namespace Tabulate.Xml

open Text (after? after?_eq_some_iff isBlank)

theorem literal?_eq (cs : List Char) : literal? cs = quoted? cs := by
  cases cs <;> rfl

def systemLiteral? (cs : List Char) : Option (List Char × List Char) :=
  match after? "SYSTEM".toList cs, after? "PUBLIC".toList cs with
  | some cs, _ => do literal? (← blanks? cs)
  | none, some cs => do
    let (_, cs) ← literal? (← blanks? cs)
    literal? (← blanks? cs)
  | none, none => none

theorem externalDoctype?_eq (cs : List Char) : externalDoctype? cs =
    (declaredName? cs).bind fun n => ((blanks? n.2).bind systemLiteral?).map fun s =>
      ⟨n.1, s.1, s.2.dropWhile isBlank⟩ := by
  simp only [externalDoctype?, systemLiteral?, Option.bind_eq_bind, Option.map_eq_bind, Option.bind_assoc]
  refine Option.bind_congr fun n _ => Option.bind_congr fun r _ => ?_
  cases after? "SYSTEM".toList r with
  | some cs =>
    simp only [Option.bind_assoc]
    rfl
  | none =>
    cases after? "PUBLIC".toList r with
    | some cs =>
      simp only [Option.bind_assoc]
      rfl
    | none => rfl

theorem quoted?_head {cs v r : List Char} (h : quoted? cs = some (v, r)) :
    ∃ c cs', cs = c :: cs' ∧ isBlank c = false := by
  obtain ⟨q, hq, rfl, -⟩ := quoted?_eq_some_iff.1 h
  rcases hq with rfl | rfl
  all_goals exact ⟨_, _, rfl, by decide⟩

theorem literal?_of_quoted? {cs r v r' : List Char} (hspaces : spaces? cs = some r)
    (hquoted : quoted? r = some (v, r')) : (blanks? cs).bind literal? = some (v, r') := by
  obtain ⟨c, cs', rfl, hc⟩ := quoted?_head hquoted
  rw [blanks?_of_spaces? hspaces hc, Option.bind_some, literal?_eq, hquoted]

theorem systemLiteral?_of_externalId? {cs r : List Char} (h : externalId? cs = some (true, r)) :
    ∃ systemId, systemLiteral? cs = some (systemId, r) := by
  unfold externalId? at h
  split at h
  · next r' hr =>
    simp only [Option.bind_eq_bind, Option.bind_eq_some_iff, Prod.exists, Option.some.injEq,
      Prod.mk.injEq, true_and] at h
    obtain ⟨r₁, h₁, value, r₂, h₂, rfl⟩ := h
    refine ⟨value, ?_⟩
    simp only [systemLiteral?, hr]
    exact literal?_of_quoted? h₁ h₂
  · next r' hno hr =>
    simp only [Option.bind_eq_bind, Option.bind_eq_some_iff, Prod.exists, Option.some.injEq,
      Prod.mk.injEq, true_and] at h
    obtain ⟨r₁, h₁, value, r₂, h₂, r₃, h₃, value', r₄, h₄, rfl⟩ := h
    refine ⟨value', ?_⟩
    simp only [systemLiteral?, hno, hr, Option.bind_eq_bind, ← Option.bind_assoc]
    rw [literal?_of_quoted? h₁ h₂, Option.bind_some]
    exact literal?_of_quoted? h₃ h₄
  · exact absurd h (by simp)

def ownSubset? (inner : List Char) : Option (List Char) := do
  let (_, r) ← name? (← spaces? inner)
  let (found, r) ← externalId? (skipSpaces r)
  if found then after? ['['] (skipSpaces r) else none

theorem eq_of_blanks? {cs r : List Char} (h : blanks? cs = some r) : r = cs.dropWhile isBlank := by
  cases cs with
  | nil => simp [blanks?] at h
  | cons c cs =>
    simp only [blanks?, Option.ite_none_right_eq_some, Option.some.injEq] at h
    rw [List.dropWhile_cons_of_pos h.1, h.2]

/-- Where no reference stands in front of a subset or the end, the pattern finds none. -/
theorem systemLiteral?_of_internal {cs r rest : List Char} {c : Char}
    (h : externalId? (skipSpaces cs) = some (false, r)) (hskip : skipSpaces r = c :: rest)
    (hc : c = '>' ∨ c = '[') : (blanks? cs).bind systemLiteral? = none := by
  have hcs : cs.dropWhile isBlank = c :: rest := by
    refine dropBlanks_of_skipSpaces ?_ (by rcases hc with rfl | rfl <;> decide)
    rcases externalId?_cases h with ⟨-, rfl⟩ | ⟨hfound, -⟩
    · rwa [skipSpaces, skipSpaces, List.dropWhile_idempotent] at hskip
    · exact absurd hfound (by decide)
  cases hr : blanks? cs with
  | none => rfl
  | some r =>
    rw [Option.bind_some, eq_of_blanks? hr, hcs]
    rcases hc with rfl | rfl <;> rfl

/-- Where a reference stands behind a declared name, the pattern reads it. -/
theorem systemLiteral?_of_external {a : Char} {cs r : List Char} (hends : endsDeclaredName a = true)
    (h : externalId? (skipSpaces (a :: cs)) = some (true, r)) :
    ∃ systemId, (blanks? (a :: cs)).bind systemLiteral? = some (systemId, r) := by
  obtain ⟨systemId, hliteral⟩ := systemLiteral?_of_externalId? h
  obtain ⟨-, hhead⟩ := (externalId?_cases h).resolve_left fun hno => absurd hno.1 (by decide)
  have hspace : isSpace a = true := by
    by_contra hno
    rw [skipSpaces, List.dropWhile_cons_of_neg hno, List.head?_cons, Option.some.injEq,
      Option.some.injEq] at hhead
    rcases hhead with rfl | rfl
    all_goals exact absurd hends (by decide)
  rw [skipSpaces, List.dropWhile_cons_of_pos hspace, ← skipSpaces] at hliteral hhead
  obtain ⟨b, r', hb, hbblank⟩ : ∃ b r', skipSpaces cs = b :: r' ∧ isBlank b = false := by
    cases hr : skipSpaces cs with
    | nil => simp [hr] at hhead
    | cons b r' =>
      rw [hr, List.head?_cons, Option.some.injEq, Option.some.injEq] at hhead
      rcases hhead with rfl | rfl
      all_goals exact ⟨_, r', rfl, by decide⟩
  have hblanks : blanks? (a :: cs) = some (b :: r') :=
    blanks?_of_spaces? (by simp [spaces?, hspace, hb]) hbblank
  exact ⟨systemId, by rw [hblanks, Option.bind_some, ← hb, hliteral]⟩

/-- At a declaration that XML reads, the pattern finds what XML reads: nothing if it refers to no file, and else
its name and what stands behind the reference. -/
theorem externalDoctype?_of_doctype? {inner r₁ name r₂ : List Char} {declared : List Token × List Char}
    (h : doctype? inner = some declared) (hspaces : spaces? inner = some r₁)
    (hname : name? r₁ = some (name, r₂)) (hblank : ∀ x ∈ name, isBlank x = false) :
    ∃ found r₃, externalId? (skipSpaces r₂) = some (found, r₃) ∧
      (found = false → externalDoctype? (keyword ++ inner) = none) ∧
      (found = true → ∃ systemId, externalDoctype? (keyword ++ inner) = some ⟨name, systemId, skipSpaces r₃⟩) := by
  obtain ⟨s₁, name', a, r, hs₁, hname', hends⟩ := name?_of_doctype? h
  obtain ⟨t₁, name'', t₂, found, r₃, c, rest, ht₁, hname'', hexternal, hskip, hc⟩ := doctype?_cases h
  obtain rfl : s₁ = r₁ := Option.some.inj (hs₁.symm.trans hspaces)
  obtain rfl : t₁ = s₁ := Option.some.inj (ht₁.symm.trans hspaces)
  obtain ⟨rfl, rfl⟩ := Prod.mk.inj (Option.some.inj (hname'.symm.trans hname))
  obtain ⟨rfl, rfl⟩ := Prod.mk.inj (Option.some.inj (hname''.symm.trans hname))
  have hfirst := declaredName?_of_name? hspaces hname hends hblank
  refine ⟨found, r₃, hexternal, ?_, ?_⟩
  · rintro rfl
    rw [externalDoctype?_eq, hfirst, Option.bind_some, systemLiteral?_of_internal hexternal hskip hc,
      Option.map_none]
  · rintro rfl
    obtain ⟨systemId, hliteral⟩ := systemLiteral?_of_external hends hexternal
    have hcblank : isBlank c = false := by rcases hc with rfl | rfl <;> decide
    exact ⟨systemId, by rw [externalDoctype?_eq, hfirst, Option.bind_some, hliteral, Option.map_some,
      dropBlanks_of_skipSpaces hskip hcblank, hskip]⟩

theorem doctype?_of_ownSubset? {inner subset : List Char} (h : ownSubset? inner = some subset) :
    doctype? inner = subset? (subset.length + 1) subset := by
  simp only [ownSubset?, Option.bind_eq_bind, Option.bind_eq_some_iff, Prod.exists,
    Option.ite_none_right_eq_some] at h
  obtain ⟨r₁, h₁, name, r₂, h₂, found, r₃, h₃, -, h₄⟩ := h
  rw [after?_eq_some_iff, List.singleton_append] at h₄
  simp only [doctype?, h₁, h₂, h₃, h₄, Option.bind_eq_bind, Option.bind_some]

theorem ownSubset?_iff {inner r₁ name r₂ subset : List Char} {declared : List Token × List Char}
    (h : doctype? inner = some declared) (hspaces : spaces? inner = some r₁)
    (hname : name? r₁ = some (name, r₂)) (hblank : ∀ x ∈ name, isBlank x = false) :
    ownSubset? inner = some subset ↔
      ∃ systemId, externalDoctype? (keyword ++ inner) = some ⟨name, systemId, '[' :: subset⟩ := by
  obtain ⟨found, r₃, hexternal, hno, hyes⟩ := externalDoctype?_of_doctype? h hspaces hname hblank
  cases found with
  | false => simp [ownSubset?, hspaces, hname, hexternal, hno rfl]
  | true =>
    obtain ⟨systemId, hfound⟩ := hyes rfl
    simp [ownSubset?, hspaces, hname, hexternal, hfound, after?_eq_some_iff]

def entities (ts : List Token) : List (List Char × List Char) :=
  ts.filterMap fun | .entity name value => some (name, value) | _ => none

theorem lookup_entities_append (e : List Char) (ts ts' : List Token) :
    (entities (ts ++ ts')).lookup e = ((entities ts).lookup e).or ((entities ts').lookup e) := by
  rw [entities, List.filterMap_append, List.lookup_append]
  rfl

theorem isSpace_of_isNameChar {c : Char} (h : isNameChar c = true) : isSpace c = false := by
  refine Bool.eq_false_iff.2 fun hspace => ?_
  simp only [isSpace, Bool.or_eq_true, decide_eq_true_eq] at hspace
  obtain ((rfl | rfl) | rfl) | rfl := hspace
  all_goals exact absurd h (by decide)

/-- A document type built from whole declarations of a file and a subset declares the former and then the
latter. -/
theorem doctype?_inlined {r name r₂ declarations subset after : List Char} {ds own : List Token}
    (hname : name? r = some (name, r₂))
    (hds : declarations? (declarations.length + 1) declarations = some ds)
    (hsubset : subset? (subset.length + 1) subset = some (own, after)) (hne : subset ≠ []) :
    doctype? (' ' :: (name ++ (" [\n".toList ++ (declarations ++ '\n' :: subset)))) =
      some (ds ++ own, after) := by
  obtain ⟨-, hstart, hchars, -⟩ := name?_eq_some_iff.1 hname
  obtain ⟨a, as, rfl⟩ : ∃ a as, name = a :: as := List.exists_cons_of_ne_nil fun e => by simp [e] at hstart
  have hspaces (x : List Char) : spaces? (' ' :: (a :: as ++ x)) = some (a :: as ++ x) := by
    have ha := isSpace_of_isNameChar (hchars a List.mem_cons_self)
    simp [spaces?, skipSpaces, ha, show isSpace ' ' = true from rfl]
  have hname' (x : List Char) : name? (a :: as ++ ' ' :: x) = some (a :: as, ' ' :: x) :=
    name?_eq_some_iff.2 ⟨rfl, hstart, hchars, rfl⟩
  have hall : subset? (('\n' :: (declarations ++ '\n' :: subset)).length + 1)
      ('\n' :: (declarations ++ '\n' :: subset)) = some (ds ++ own, after) := by
    have hskip : skipSpaces ('\n' :: (declarations ++ '\n' :: subset)) =
        skipSpaces (declarations ++ '\n' :: subset) := rfl
    rw [subset?_spaces hskip (by simp) (by simp)]
    refine subset?_mono ?_ (subset?_append hds hsubset hne)
    simp only [List.length_cons, List.length_append]
    omega
  have hopen : " [\n".toList ++ (declarations ++ '\n' :: subset) =
      ' ' :: '[' :: '\n' :: (declarations ++ '\n' :: subset) := rfl
  rw [hopen, doctype?, hspaces, Option.bind_eq_bind, Option.bind_some, hname']
  exact hall

theorem suffix_of_blanks? {cs r : List Char} (h : blanks? cs = some r) : r <:+ cs :=
  eq_of_blanks? h ▸ List.dropWhile_suffix isBlank

theorem suffix_of_literal? {cs v r : List Char} (h : literal? cs = some (v, r)) : r <:+ cs := by
  rw [literal?_eq] at h
  obtain ⟨q, -, rfl, -⟩ := quoted?_eq_some_iff.1 h
  exact ⟨q :: (v ++ [q]), by simp⟩

theorem suffix_of_systemLiteral? {cs v r : List Char} (h : systemLiteral? cs = some (v, r)) : r <:+ cs := by
  unfold systemLiteral? at h
  split at h
  · next r₁ h₁ =>
    simp only [Option.bind_eq_bind, Option.bind_eq_some_iff] at h
    obtain ⟨r₂, h₂, h₃⟩ := h
    have hr₁ : r₁ <:+ cs := ⟨_, (after?_eq_some_iff.1 h₁).symm⟩
    exact (suffix_of_literal? h₃).trans ((suffix_of_blanks? h₂).trans hr₁)
  · next r₁ _ h₁ =>
    simp only [Option.bind_eq_bind, Option.bind_eq_some_iff, Prod.exists] at h
    obtain ⟨r₂, h₂, v', r₃, h₃, r₄, h₄, h₅⟩ := h
    have hr₁ : r₁ <:+ cs := ⟨_, (after?_eq_some_iff.1 h₁).symm⟩
    have hr₃ : r₃ <:+ cs := (suffix_of_literal? h₃).trans ((suffix_of_blanks? h₂).trans hr₁)
    exact (suffix_of_literal? h₅).trans ((suffix_of_blanks? h₄).trans hr₃)
  · exact absurd h (by simp)

theorem externalDoctype?_eq_some_iff {cs : List Char} {found : ExternalDoctype} :
    externalDoctype? cs = some found ↔ ∃ r s, declaredName? cs = some (found.name, r) ∧
      (blanks? r).bind systemLiteral? = some (found.systemId, s) ∧ found.rest = s.dropWhile isBlank := by
  rw [externalDoctype?_eq]
  constructor
  · intro h
    obtain ⟨⟨name, r⟩, hname, h⟩ := Option.bind_eq_some_iff.1 h
    obtain ⟨⟨systemId, s⟩, hs, rfl⟩ := Option.map_eq_some_iff.1 h
    exact ⟨r, s, hname, hs, rfl⟩
  · obtain ⟨name, systemId, rest⟩ := found
    rintro ⟨r, s, hname, hs, rfl⟩
    exact Option.bind_eq_some_iff.2 ⟨_, hname, Option.map_eq_some_iff.2 ⟨_, hs, rfl⟩⟩

theorem eq_of_externalDoctype? {cs : List Char} {found : ExternalDoctype}
    (h : externalDoctype? cs = some found) :
    ∃ declaration, cs = keyword ++ (declaration ++ found.rest) := by
  obtain ⟨r, s, hname, hs, hrest⟩ := externalDoctype?_eq_some_iff.1 h
  obtain ⟨r', hr', hliteral⟩ := Option.bind_eq_some_iff.1 hs
  obtain ⟨r₁, r₂, h₁, h₂, -, rfl, -⟩ := declaredName?_eq_some_iff.1 hname
  have hsuffix : found.rest <:+ r₁ :=
    calc found.rest = s.dropWhile isBlank := hrest
      _ <:+ s := List.dropWhile_suffix isBlank
      _ <:+ r' := suffix_of_systemLiteral? hliteral
      _ <:+ r₂.drop found.name.length := suffix_of_blanks? hr'
      _ <:+ r₂ := List.drop_suffix _ r₂
      _ <:+ r₁ := suffix_of_blanks? h₂
  obtain ⟨declaration, rfl⟩ := hsuffix
  exact ⟨declaration, after?_eq_some_iff.1 h₁⟩

theorem isBlank_of_mem_externalDoctype? {cs : List Char} {found : ExternalDoctype}
    (h : externalDoctype? cs = some found) : ∀ c ∈ found.name, isBlank c = false := by
  obtain ⟨r, s, hname, -⟩ := externalDoctype?_eq_some_iff.1 h
  exact isBlank_of_mem_mention? (by rw [mention?, hname, Option.map_some])

/-- Where the pattern finds the declaration of the document, with its subset, the declarations that are put in
front of the subset come in front of its own among the tokens too, and all else stays. -/
theorem ofDocument?_inlined {cs front name systemId declarations subset : List Char} {ts ds : List Token}
    (hts : Token.ofDocument? cs = some ts) (hown : ownDoctype? cs = some (front, name))
    (hfound : firstFound? externalDoctype? cs = some (front, ⟨name, systemId, '[' :: subset⟩))
    (hne : subset ≠ []) (hds : declarations? (declarations.length + 1) declarations = some ds) :
    ∃ before own behind after, subset? (subset.length + 1) subset = some (own, after) ∧
      ts = before ++ own ++ behind ∧
      Token.ofDocument? (front ++ (keyword ++
          (' ' :: (name ++ (" [\n".toList ++ (declarations ++ '\n' :: subset)))))) =
        some (before ++ (ds ++ own) ++ behind) := by
  obtain ⟨rest, htext, hrest⟩ := eq_of_firstFound? hfound
  obtain ⟨before, inner, r₁, r₂, htext', hprolog, hspaces, hname⟩ := eq_of_ownDoctype? hown
  obtain rfl : rest = keyword ++ inner := List.append_cancel_left (htext.symm.trans htext')
  obtain ⟨before', rest', hprolog', hdoctype⟩ := prolog?_of_ofDocument? hts
  obtain ⟨rfl, rfl⟩ := Prod.mk.inj (Option.some.inj (hprolog.symm.trans hprolog'))
  obtain ⟨own, after, behind, hdeclared, rfl, hexchange⟩ := hdoctype inner (after?_self _ _)
  have hsubset : ownSubset? inner = some subset :=
    (ownSubset?_iff hdeclared hspaces hname (isBlank_of_mem_externalDoctype? hrest)).2 ⟨systemId, hrest⟩
  rw [doctype?_of_ownSubset? hsubset] at hdeclared
  obtain ⟨front', hfront', -, hprologs⟩ := prolog?_exchange hprolog
  obtain rfl : front' = front := List.append_cancel_right (hfront'.symm.trans htext')
  exact ⟨before, own, behind, after, hdeclared, rfl,
    hexchange _ _ _ (hprologs _) (doctype?_inlined hname hds hdeclared hne)⟩

/-- Declarations in front keep a value just if they declare none for its entity or the same. -/
theorem keeps_iff (ds own : List Token) :
    (∀ e v, (entities own).lookup e = some v → (entities (ds ++ own)).lookup e = some v) ↔
      ∀ e v w, (entities own).lookup e = some v → (entities ds).lookup e = some w → w = v := by
  simp only [lookup_entities_append]
  constructor
  · intro hkept e v w hv hw
    simpa [hw] using hkept e v hv
  · intro hsame e v hv
    cases hw : (entities ds).lookup e with
    | none => simpa using hv
    | some w => simp [hsame e v w hv hw]

/-- The declarations of the file come first. So every entity that the document itself declares keeps its value
exactly if the file declares no value for it or the same; what stands in front of the document type and from its
opening bracket on is left as it is. -/
theorem inlineDtd_keeps_iff {fs : FileSystem} {directory text dtd : String} {front subset : List Char}
    {found : ExternalDoctype} (hfound : firstFound? externalDoctype? text.toList = some (front, found))
    (hsubset : found.rest = '[' :: subset)
    (hdtd : fs.readText (dtdFile directory (String.ofList found.systemId)) = .ok dtd) :
    let declarations := dropTextDeclaration dtd.toList
    ∃ inlined, inlineDtd fs directory text = .ok inlined ∧
      (∃ declaration, text.toList = front ++ (keyword ++ (declaration ++ '[' :: subset))) ∧
      inlined.toList = front ++ (keyword ++
        (' ' :: (found.name ++ (" [\n".toList ++ (declarations ++ '\n' :: subset))))) ∧
      ∀ ts ds, Token.ofDocument? text.toList = some ts → ownDoctype? text.toList = some (front, found.name) →
        subset ≠ [] → declarations? (declarations.length + 1) declarations = some ds →
        ∃ before own behind after, subset? (subset.length + 1) subset = some (own, after) ∧
          ts = before ++ own ++ behind ∧
          Token.ofDocument? inlined.toList = some (before ++ (ds ++ own) ++ behind) ∧
          ((∀ e v, (entities own).lookup e = some v → (entities (ds ++ own)).lookup e = some v) ↔
            ∀ e v w, (entities own).lookup e = some v → (entities ds).lookup e = some w → w = v) := by
  intro declarations
  obtain ⟨name, systemId, rest⟩ := found
  obtain rfl : rest = '[' :: subset := hsubset
  obtain ⟨rest, htext, hrest⟩ := eq_of_firstFound? hfound
  obtain ⟨declaration, rfl⟩ := eq_of_externalDoctype? hrest
  have hinlined : inlineDtd fs directory text = .ok (String.ofList (front ++ (keyword ++
      (' ' :: (name ++ (" [\n".toList ++ (declarations ++ '\n' :: subset))))))) := by
    rw [inlineDtd, hfound]
    simp only [hdtd]
    rw [show "<!DOCTYPE ".toList = keyword ++ [' '] from rfl]
    simp only [List.append_assoc, List.cons_append, List.nil_append]
    rfl
  refine ⟨_, hinlined, ⟨declaration, htext⟩, String.toList_ofList, fun ts ds hts hown hne hds => ?_⟩
  obtain ⟨before, own, behind, after, hsubset, htokens, hread⟩ := ofDocument?_inlined hts hown hfound hne hds
  exact ⟨before, own, behind, after, hsubset, htokens, by rw [String.toList_ofList, hread], keeps_iff ds own⟩

/-- A file that declares other entities than the document. -/
theorem inlineDtd_keeps_iff_disjoint :
    let fs : FileSystem := ⟨[(["d"], .directory),
      (["d", "a.dtd"], .file (Text.Utf8.encode "<!ENTITY f \"file\">".toList))], [], none⟩
    ∃ inlined own ds, inlineDtd fs "d" "<!DOCTYPE a SYSTEM \"a.dtd\" [<!ENTITY e \"own\">]><a/>" = .ok inlined ∧
      (∃ before behind, Token.ofDocument? inlined.toList = some (before ++ (ds ++ own) ++ behind)) ∧
      (entities ds).lookup ['f'] = some "file".toList ∧ (entities own).lookup ['e'] = some "own".toList ∧
      ∀ e v, (entities own).lookup e = some v → (entities (ds ++ own)).lookup e = some v := by
  have hfound : firstFound? externalDoctype? "<!DOCTYPE a SYSTEM \"a.dtd\" [<!ENTITY e \"own\">]><a/>".toList =
      some ([], ⟨['a'], "a.dtd".toList, '[' :: "<!ENTITY e \"own\">]><a/>".toList⟩) := by rfl
  have hdtd : (⟨[(["d"], .directory), (["d", "a.dtd"], .file (Text.Utf8.encode
      "<!ENTITY f \"file\">".toList))], [], none⟩ : FileSystem).readText
      (dtdFile "d" (String.ofList "a.dtd".toList)) = .ok "<!ENTITY f \"file\">" := by rfl
  have hts : Token.ofDocument? "<!DOCTYPE a SYSTEM \"a.dtd\" [<!ENTITY e \"own\">]><a/>".toList =
      some ([.entity ['e'] "own".toList] ++ [.start ⟨"", "a"⟩, .leave]) := by rfl
  have hds : declarations? ("<!ENTITY f \"file\">".toList.length + 1) "<!ENTITY f \"file\">".toList =
      some [.entity ['f'] "file".toList] := by rfl
  obtain ⟨inlined, hinlined, -, -, hall⟩ := inlineDtd_keeps_iff hfound rfl hdtd
  obtain ⟨before, own, behind, after, hsubset, -, htokens, hkept⟩ := hall _ _ hts rfl (by decide) hds
  obtain ⟨rfl, -⟩ : own = [.entity ['e'] "own".toList] ∧ after = "<a/>".toList := by
    have hread : subset? ("<!ENTITY e \"own\">]><a/>".toList.length + 1) "<!ENTITY e \"own\">]><a/>".toList =
        some ([.entity ['e'] "own".toList], "<a/>".toList) := by rfl
    simpa [eq_comm] using hread.symm.trans hsubset
  refine ⟨inlined, _, _, hinlined, ⟨before, behind, htokens⟩, rfl, rfl, hkept.2 fun e v w hv hw => ?_⟩
  simp only [entities, List.filterMap_cons, List.filterMap_nil, List.lookup_cons, List.lookup_nil] at hv hw
  grind

/-- An entity that the file and the document declare has the value of the file. -/
theorem own_value_replaced :
    let fs : FileSystem := ⟨[(["d"], .directory),
      (["d", "a.dtd"], .file (Text.Utf8.encode "<!ENTITY e \"file\">".toList))], [], none⟩
    let text := "<!DOCTYPE a SYSTEM \"a.dtd\" [<!ENTITY e \"own\">]><a>&e;</a>"
    let inlined := "<!DOCTYPE a [\n<!ENTITY e \"file\">\n<!ENTITY e \"own\">]><a>&e;</a>"
    Document.read? text = some ⟨[.element ⟨none, "a"⟩ [] [] [.text "own"]]⟩ ∧
      inlineDtd fs "d" text = .ok inlined ∧
      Document.read? inlined = some ⟨[.element ⟨none, "a"⟩ [] [] [.text "file"]]⟩ := by
  refine ⟨by rfl, by rfl, by rfl⟩

end Tabulate.Xml
