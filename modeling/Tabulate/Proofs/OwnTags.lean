import Tabulate.Proofs.Bindings
import Tabulate.Proofs.Written
import Tabulate.Proofs.Order
import Tabulate.Proofs.RoundTrip
import Tabulate.Proofs.Transparency

/-! Paths that name the element they are followed from. Such a path finds the element itself, and it is
told from the element's tag, which has one prefix for a namespace: the one that was declared last. So it is
the name that counts only where the namespace goes by no other. -/
namespace Tabulate

open Xml (Binding Document Location Namespaces Unambiguous isNCName registered xmlUri)

section Following
variable {m : Namespaces} {d : Document} {cs : List Char} {address : List Nat}

theorem step_qualified {inner : List Char → Except PathError Path} {source : List Char} {S : Step}
    (h : ∀ x ∈ ['[', '@'], x ∉ cs) (hcolon : ':' ∈ cs) (hS : Path.step inner source cs = .ok S) :
    ∃ t, S = .child t [] := by
  have hfree (x : Char) (hx : x ∈ ['[', '@']) : x ∉ Text.trim cs := fun hmem => h x hx (trim_subset cs hmem)
  replace hcolon : ':' ∈ Text.trim cs := (mem_trim_iff (by decide)).2 hcolon
  have hname : ∀ x ∈ Text.trim cs, (x != '[') = true := fun x hx => by
    rw [bne_iff_ne]
    rintro rfl
    exact hfree _ (by simp) hx
  rw [step_eq_ok, List.takeWhile_eq_self_iff.2 hname, List.dropWhile_eq_nil_iff.2 hname] at hS
  obtain ⟨hself, -⟩ | ⟨hparent, -⟩ | ⟨-, -, -, ts, ps, hts, hps, htest⟩ := hS
  · exact absurd hcolon (by rw [hself]; decide)
  · exact absurd hcolon (by rw [hparent]; decide)
  · cases hts
    cases hps
    obtain ⟨name, t, hat, -⟩ | ⟨-, rfl⟩ | ⟨-, rfl⟩ | ⟨-, -, -, t, -, rfl⟩ := test_cases htest
    · exact absurd (by rw [hat]; simp) (hfree '@' (by simp))
    · exact ⟨_, rfl⟩
    · exact ⟨_, rfl⟩
    · exact ⟨_, rfl⟩

/-- A text with a colon in it and nothing to cut it at is one test of the children. -/
theorem ofChars_qualified {depth : Nat} {p : Path} (h : ∀ x ∈ ['\'', '"', '[', ']', '/', '@'], x ∉ cs)
    (hcolon : ':' ∈ cs) (hp : Path.ofChars depth cs = .ok p) : ∃ t, p = .mk false [.child t []] := by
  cases depth with
  | zero => cases hp
  | succ depth =>
    have hfree (x : Char) (hx : x ∈ ['\'', '"', '[', ']', '/', '@']) : x ∉ Text.trim cs :=
      fun hmem => h x hx (trim_subset cs hmem)
    replace hcolon : ':' ∈ Text.trim cs := (mem_trim_iff (by decide)).2 hcolon
    have hne : Text.trim cs ≠ [] := List.ne_nil_of_mem hcolon
    have hparts : Path.parts {} (Text.trim cs) = .ok [Text.trim cs] := by
      refine parts_of_name fun c hc hbad => hfree c ?_ hc
      simp only [List.mem_cons, List.not_mem_nil, or_false] at hbad ⊢
      tauto
    have houtline : Path.outline (Text.trim cs) = .ok (false, [(false, Text.trim cs)]) := by
      rw [outline_of_first hparts hne (by simpa using hne)]
      obtain ⟨c, cs', hcs⟩ := List.exists_cons_of_ne_nil hne
      rw [hcs]
      rfl
    obtain ⟨-, absolute, texts, sss, ho, hsteps, rfl⟩ := ofChars_eq_ok.1 hp
    rw [houtline] at ho
    cases ho
    obtain ⟨ss, rest, hread, hrest, rfl⟩ := mapM_cons_eq_ok.1 hsteps
    cases hrest
    obtain ⟨S, hS, rfl⟩ := readStep_eq_ok.1 hread
    obtain ⟨t, rfl⟩ := step_qualified (fun x hx => hfree x (by simp at hx ⊢; tauto)) hcolon hS
    exact ⟨t, rfl⟩

/-- What is below a place is not the place. -/
theorem not_mem_childrenPassing (t : NodeTest) :
    Location.node address ∉ d.childrenPassing m t (.node address) := by
  intro hmem
  rw [Document.childrenPassing, List.mem_map] at hmem
  obtain ⟨c, -, hc⟩ := hmem
  have hlength := congrArg List.length (Location.node.inj hc)
  rw [List.length_append, List.length_singleton] at hlength
  omega

theorem follow_child_ne (t : NodeTest) :
    (Path.mk false [.child t []]).follow d m (.node address) ≠ [.node address] := by
  intro h
  have hmem : Location.node address ∈ (Path.mk false [.child t []]).follow d m (.node address) := by
    rw [h]
    exact List.mem_singleton_self _
  rw [Path.follow, followSteps, followSteps, mem_inOrder] at hmem
  simp only [Bool.false_eq_true, if_false, List.flatMap_cons, List.flatMap_nil, List.append_nil, Step.reach,
    keepAll] at hmem
  exact not_mem_childrenPassing t hmem

end Following

section Tags
variable {m : Namespaces} {n : Xml.Name} {space? : Option String} {key own uri : String}

def nameText (space? : Option String) (own : String) : String :=
  String.ofList (NameTest.named space? own).text

theorem isLocalName_eq (own : String) : Xml.isLocalName own = isNCName own.toList := by
  rw [Xml.isLocalName]
  split <;> simp [isNCName, *]

theorem qualify_eq_self {path : String} (hslash : '/' ∉ path.toList) (hbracket : '[' ∉ path.toList)
    (hcolon : ':' ∈ path.toList) : m.qualify path = path := by
  have hbare : Namespaces.isBareStep path.toList = false := by
    have hname : path.toList.takeWhile (· != '[') = path.toList :=
      List.takeWhile_eq_self_iff.2 fun x hx => bne_iff_ne.2 fun he => hbracket (he ▸ hx)
    cases hcs : path.toList with
    | nil => rfl
    | cons c cs =>
      rw [hcs] at hname hcolon
      rw [Namespaces.isBareStep, hname]
      simp only [List.contains_eq_mem, hcolon, decide_true, Bool.not_true, Bool.false_and, ite_self]
  rw [Namespaces.qualify]
  split
  · rfl
  · dsimp only
    rw [List.splitOn_eq_singleton hslash, List.map_cons, hbare]
    simp [List.intercalate]

theorem qualify_nameText (hm : m.default? = some uri) (h : (NameTest.named space? own).IsProper) :
    m.qualify (nameText space? own) = space?.getD Namespaces.defaultAlias ++ ":" ++ own := by
  cases space? with
  | none =>
    rw [nameText, NameTest.text, String.ofList_toList, Option.getD_none]
    exact qualify_localName hm ((isLocalName_eq own).trans h.2)
  | some space =>
    have hfree (x : Char) (hx : Xml.isNameChar x = false) (hcolon : x ≠ ':') (hstar : x ≠ '*') :
        x ∉ (nameText (some space) own).toList := by
      rw [nameText, String.toList_ofList]
      exact NameTest.not_mem_text h hx hcolon hstar
    have hcolon : ':' ∈ (nameText (some space) own).toList := by
      rw [nameText, String.toList_ofList, NameTest.text]
      simp
    rw [qualify_eq_self (hfree '/' (by decide) (by decide) (by decide))
      (hfree '[' (by decide) (by decide) (by decide)) hcolon, nameText, NameTest.text, Option.getD_some]
    exact String.toList_injective (by simp)

/-- A tag in braces is none of a prefix. -/
theorem expanded_ne {localPart : String} (hkey : isNCName key.toList = true) :
    Xml.Name.expanded ⟨some uri, localPart⟩ ≠ key ++ ":" ++ own := by
  intro h
  have hlist : '\x7b' :: (uri.toList ++ '\x7d' :: localPart.toList) = key.toList ++ ':' :: own.toList := by
    simpa [Xml.Name.expanded] using congrArg String.toList h
  have hbrace : '\x7b' ∉ key.toList := not_mem_of_isNCName hkey (.inl (by decide))
  obtain ⟨c, cs, hcs⟩ := List.exists_cons_of_ne_nil (ne_nil_of_isNCName hkey)
  rw [hcs] at hlist hbrace
  rw [(List.cons.inj hlist).1] at hbrace
  exact hbrace List.mem_cons_self

theorem tag_eq_iff (hlocal : isNCName n.localPart.toList = true) (hown : isNCName own.toList = true)
    (hkey : isNCName key.toList = true) :
    m.tag n = key ++ ":" ++ own ↔ n.uri.bind m.aliasOf? = some key ∧ n.localPart = own := by
  have hlocal : ':' ∉ n.localPart.toList := not_mem_of_isNCName hlocal (.inr rfl)
  have hown : ':' ∉ own.toList := not_mem_of_isNCName hown (.inr rfl)
  have htext (space : String) : (space ++ ":" ++ own).toList = space.toList ++ ':' :: own.toList := by simp
  obtain ⟨uri?, localPart⟩ := n
  cases uri? with
  | none =>
    refine iff_of_false (fun h => hlocal ?_) (by simp)
    have h : localPart = key ++ ":" ++ own := h
    rw [h, htext]
    simp
  | some uri =>
    rw [Namespaces.tag]
    dsimp only [Option.bind_some]
    cases m.aliasOf? uri with
    | none => exact iff_of_false (expanded_ne hkey) (by simp)
    | some space =>
      rw [Option.some.injEq]
      constructor
      · intro h
        have hlist : space.toList ++ ':' :: localPart.toList = key.toList ++ ':' :: own.toList := by
          simpa using congrArg String.toList h
        obtain ⟨hspace, hname⟩ := Text.append_cons_inj hlist hlocal hown
        exact ⟨String.toList_injective hspace, String.toList_injective hname⟩
      · rintro ⟨rfl, rfl⟩
        rfl

end Tags

section Resolving
variable {d : Document} {m : Namespaces} {address : List Nat} {n : Xml.Name} {bs : List Binding}
  {space? : Option String} {key own uri : String}

/-- A name with a prefix finds nothing but children. -/
theorem follow_qualified_ne {w : WrittenPath} (hkey : isNCName key.toList = true)
    (hown : isNCName own.toList = true) (hw : Path.read (key ++ ":" ++ own) = .ok w) :
    w.path.follow d m (.node address) ≠ [.node address] := by
  have hproper : (NameTest.named (some key) own).IsProper := ⟨by simpa using hkey, hown⟩
  have htext : (key ++ ":" ++ own).toList = (NameTest.named (some key) own).text := by simp [NameTest.text]
  have hfree (x : Char) (hx : x ∈ ['\'', '"', '[', ']', '/', '@']) : x ∉ (key ++ ":" ++ own).toList := by
    have hname : Xml.isNameChar x = false ∧ x ≠ ':' ∧ x ≠ '*' := by
      simp only [List.mem_cons, List.not_mem_nil, or_false] at hx
      rcases hx with rfl | rfl | rfl | rfl | rfl | rfl <;> decide
    rw [htext]
    exact NameTest.not_mem_text hproper hname.1 hname.2.1 hname.2.2
  obtain ⟨t, ht⟩ := ofChars_qualified hfree (by simp) (read_eq_ok.1 hw).1
  rw [ht]
  exact follow_child_ne t

theorem resolve_nameText {ds : List Binding} {as : List Xml.Attribute} {cs : List Xml.Node}
    (hm : m.default? = some uri) (hn : d.node? address = some (.element n ds as cs))
    (hlocal : isNCName n.localPart.toList = true) (h : (NameTest.named space? own).IsProper) :
    d.resolve m (nameText space? own) (.node address) = .ok [.node address] ↔
      n.uri.bind m.aliasOf? = some (space?.getD Namespaces.defaultAlias) ∧ n.localPart = own := by
  have hkey : isNCName (space?.getD Namespaces.defaultAlias).toList = true := by
    cases space? with
    | none => decide
    | some space => exact h.1 space rfl
  rw [← tag_eq_iff hlocal h.2 hkey, resolve_element hn, qualify_nameText hm h]
  constructor
  · intro hresolve
    by_contra hne
    rw [if_neg (Ne.symm hne)] at hresolve
    cases hw : Path.read (space?.getD Namespaces.defaultAlias ++ ":" ++ own) with
    | error e =>
      rw [hw] at hresolve
      cases hresolve
    | ok w =>
      rw [hw] at hresolve
      exact follow_qualified_ne hkey h.2 hw (Except.ok.inj hresolve)
  · intro htag
    rw [if_pos htag.symm]

theorem Xml.exists_default {bs : List Binding} (h : ⟨none, uri⟩ ∈ bs) :
    ∃ v, (Namespaces.ofBindings bs).default? = some v := by
  have hreg : ⟨none, uri⟩ ∈ registered bs := Xml.mem_registered.2 ⟨h, by simp⟩
  obtain ⟨e, hfind⟩ := Xml.exists_find? (p := (·.1 = Namespaces.defaultAlias)) hreg (decide_eq_true rfl)
  exact ⟨e.2, by rw [Namespaces.default?, Namespaces.uri?, hfind]⟩

end Resolving

section Naming
variable {bs : List Binding} {b c : Binding} {key u uri : String}

/-- The last name of a namespace is one that it is declared with. -/
theorem exists_of_aliasOf? (h : (Namespaces.ofBindings bs).aliasOf? uri = some key) :
    ∃ b ∈ registered bs, b.uri = uri ∧ b.key = key := by
  rw [Namespaces.aliasOf?, Option.map_eq_some_iff] at h
  obtain ⟨e, hfind, rfl⟩ := h
  obtain ⟨huri, b, hb, rfl⟩ := Xml.exists_of_find? hfind
  exact ⟨b, hb, of_decide_eq_true huri, rfl⟩

theorem exists_aliasOf? (hb : b ∈ registered bs) :
    ∃ key, (Namespaces.ofBindings bs).aliasOf? b.uri = some key := by
  obtain ⟨e, hfind⟩ := Xml.exists_find? (p := (·.2 = b.uri)) hb (decide_eq_true rfl)
  exact ⟨e.1, by rw [Namespaces.aliasOf?, hfind, Option.map_some]⟩

def Declares (bs : List Binding) (space? : Option String) (uri : String) : Prop :=
  ⟨space?, uri⟩ ∈ bs ∨ (space? = some "xml" ∧ uri = xmlUri)

/-- The elements of a namespace are written with every name that is declared for it and that paths can
use, and with no other. -/
structure OneName (bs : List Binding) (uri : String) : Prop where
  notXml : uri ≠ xmlUri
  last : ∀ b ∈ bs, b.alias? ≠ some Namespaces.defaultAlias →
    (b.uri = uri ↔ (Namespaces.ofBindings bs).aliasOf? uri = some b.key)

theorem OneName.aliasOf?_iff (hone : OneName bs uri) (hdefault : ⟨none, u⟩ ∈ bs) {space? : Option String}
    (hspace : space? ≠ some Namespaces.defaultAlias) :
    (Namespaces.ofBindings bs).aliasOf? uri = some (space?.getD Namespaces.defaultAlias) ↔
      Declares bs space? uri := by
  constructor
  · intro hlast
    refine .inl ?_
    cases space? with
    | none =>
      have hu : u = uri := (hone.last _ hdefault nofun).2 hlast
      rwa [← hu]
    | some space =>
      obtain ⟨⟨alias?, _⟩, hb, rfl, hkey⟩ := exists_of_aliasOf? hlast
      obtain halias | ⟨-, halias⟩ := Xml.Binding.key_eq_iff.1 hkey
      · obtain rfl : alias? = some space := halias
        exact (Xml.mem_registered.1 hb).1
      · exact absurd (congrArg some halias) hspace
  · rintro (hmem | ⟨-, rfl⟩)
    · exact (hone.last _ hmem hspace).1 rfl
    · exact absurd rfl hone.notXml

theorem oneName_of_aliasOf? (h : Unambiguous bs)
    (hnames : ∀ b ∈ bs, ∀ space ∈ b.alias?, isNCName space.toList = true)
    (hall : ∀ space?, (∀ space ∈ space?, isNCName space.toList = true) →
      space? ≠ some Namespaces.defaultAlias →
        ((Namespaces.ofBindings bs).aliasOf? uri = some (space?.getD Namespaces.defaultAlias) ↔
          Declares bs space? uri)) : OneName bs uri := by
  have hxml : uri ≠ xmlUri := by
    rintro rfl
    have hlast := (hall (some "xml") (by simp; decide) (by decide)).2 (.inr ⟨rfl, rfl⟩)
    obtain ⟨b, hb, -, hkey⟩ := exists_of_aliasOf? hlast
    exact Xml.key_ne_xml hb hkey
  refine ⟨hxml, fun b hb halias => ?_⟩
  have hpath := hall b.alias? (hnames b hb) halias
  constructor
  · intro huri
    refine hpath.2 (.inl ?_)
    rw [← huri]
    exact hb
  · intro hlast
    obtain hmem | ⟨-, he⟩ := hpath.1 hlast
    · exact congrArg Binding.uri (h.eq_of_alias hb hmem rfl)
    · exact absurd he hxml

/-- Where nothing is declared under the alias of the default namespace, every name is registered for one
declaration. -/
theorem eq_of_key (h : Unambiguous bs) (halias : ∀ b ∈ bs, b.alias? ≠ some Namespaces.defaultAlias)
    (hb : b ∈ bs) (hc : c ∈ bs) (hkey : b.key = c.key) : b = c := by
  refine h.eq_of_alias hb hc ?_
  have hb := halias b hb
  have hc := halias c hc
  rw [Binding.key, Binding.key] at hkey
  cases hbs : b.alias? <;> cases hcs : c.alias? <;> simp_all

/-- Such a namespace has one name if it is declared once. -/
theorem oneName_iff (h : Unambiguous bs) (halias : ∀ b ∈ bs, b.alias? ≠ some Namespaces.defaultAlias)
    (hxml : uri ≠ xmlUri) :
    OneName bs uri ↔ ∀ b ∈ registered bs, ∀ c ∈ registered bs, b.uri = uri → c.uri = uri → b = c := by
  constructor
  · intro hone b hb c hc hbu hcu
    have hb := (Xml.mem_registered.1 hb).1
    have hc := (Xml.mem_registered.1 hc).1
    have hkey := ((hone.last b hb (halias b hb)).1 hbu).symm.trans ((hone.last c hc (halias c hc)).1 hcu)
    exact eq_of_key h halias hb hc (Option.some.inj hkey)
  · intro honce
    refine ⟨hxml, fun b hb _ => ⟨fun hbu => ?_, fun hlast => ?_⟩⟩
    · have hreg : b ∈ registered bs := by
        refine Xml.mem_registered.2 ⟨hb, fun he => hxml ?_⟩
        rw [← hbu]
        exact h.xml b hb he
      obtain ⟨key, hlast⟩ := exists_aliasOf? hreg
      obtain ⟨c, hc, hcu, rfl⟩ := exists_of_aliasOf? hlast
      rw [honce b hreg c hc hbu (hcu.trans hbu), ← hbu]
      exact hlast
    · obtain ⟨c, hc, hcu, hkey⟩ := exists_of_aliasOf? hlast
      rw [← eq_of_key h halias (Xml.mem_registered.1 hc).1 hb hkey]
      exact hcu

/-- A name finds the element it is followed from, wherever it is the element's own, exactly if the
namespace of the element has one name. -/
theorem own_name_found_iff {d : Document} {address : List Nat} {root n : Xml.Name}
    {as as' : List Xml.Attribute} {cs cs' : List Xml.Node} {ds : List Binding}
    (hd : d.elementNode? = some (.element root bs as cs)) (h : Unambiguous bs)
    (hnames : ∀ b ∈ bs, ∀ space ∈ b.alias?, isNCName space.toList = true) (hdefault : ⟨none, u⟩ ∈ bs)
    (hn : d.node? address = some (.element n ds as' cs')) (hlocal : isNCName n.localPart.toList = true) :
    (∀ space? own, (NameTest.named space? own).IsProper → space? ≠ some Namespaces.defaultAlias →
      (d.resolve (Namespaces.ofDocument d) (nameText space? own) (.node address) = .ok [.node address] ↔
        (∃ uri ∈ n.uri, Declares bs space? uri) ∧ n.localPart = own)) ↔
      ∀ uri ∈ n.uri, OneName bs uri := by
  have hm : Namespaces.ofDocument d = Namespaces.ofBindings bs := by rw [Namespaces.ofDocument, hd]; rfl
  obtain ⟨v, hv⟩ := Xml.exists_default hdefault
  rw [hm]
  constructor
  · intro hright uri huri
    refine oneName_of_aliasOf? h hnames fun space? hspace hne => ?_
    have hproper : (NameTest.named space? n.localPart).IsProper := ⟨hspace, hlocal⟩
    have hfound := hright space? n.localPart hproper hne
    rw [resolve_nameText hv hn hlocal hproper, Option.mem_def.1 huri, Option.bind_some] at hfound
    simpa using hfound
  · intro hone space? own hproper hne
    rw [resolve_nameText hv hn hlocal hproper]
    refine and_congr_left fun _ => ?_
    cases huri : n.uri with
    | none => simp
    | some uri => simpa using (hone uri huri).aliasOf?_iff hdefault hne

/-- A prefix and an element that has it, next to the default namespace. -/
theorem own_name_found_track :
    let bs : List Binding := [⟨none, "u"⟩, ⟨some "t", "v"⟩]
    let d : Document := ⟨[.element ⟨some "u", "album"⟩ bs [] [.element ⟨some "v", "track"⟩ [] [] []]]⟩
    (∀ uri ∈ some "v", OneName bs uri) ∧
      d.resolve (Namespaces.ofDocument d) (nameText (some "t") "track") (.node [0, 0]) =
        .ok [.node [0, 0]] := by
  intro bs d
  have hone : ∀ uri ∈ some "v", OneName bs uri := by
    intro uri huri
    cases huri
    exact ⟨by decide, by decide⟩
  have hd : d.elementNode? = d.node? [0] := rfl
  have hn : d.node? [0, 0] = some (.element ⟨some "v", "track"⟩ [] [] []) := rfl
  have hdefault : ⟨none, "u"⟩ ∈ bs := by decide
  have hfound := (own_name_found_iff hd ⟨by decide, by decide⟩ (by decide) hdefault hn (by decide)).2 hone
  exact ⟨hone, (hfound (some "t") "track" ⟨by decide, by decide⟩ (by decide)).2
    ⟨⟨"v", rfl, .inl (by decide)⟩, rfl⟩⟩

/-- A second name for the default namespace: the document element is not found by its own name. -/
theorem own_name_lost :
    let bs : List Binding := [⟨none, "u"⟩, ⟨some "a", "u"⟩]
    let d : Document := ⟨[.element ⟨some "u", "album"⟩ bs [] []]⟩
    Document.read? "<album xmlns=\"u\" xmlns:a=\"u\"/>" = some d ∧ Unambiguous bs ∧
      Declares bs none "u" ∧ (Namespaces.ofDocument d).default? = some "u" ∧
      d.resolve (Namespaces.ofDocument d) (nameText none "album") d.element = .ok [] := by
  refine ⟨by rfl, ⟨by decide, by decide⟩, .inl (by decide), by decide +kernel, by decide +kernel⟩

end Naming

end Tabulate
