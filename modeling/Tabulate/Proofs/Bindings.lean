import Tabulate.Path.Follow
import Tabulate.Proofs.Grammar
import Tabulate.Xml.Builder
import Mathlib.Data.List.Nodup

/-! The names that a document element declares. The default namespace is registered under an alias that is
a prefix like any other, so it is told from the declarations alone exactly where no other namespace is
declared under the alias. -/
namespace Tabulate.Xml

def Binding.key (b : Binding) : String := b.alias?.getD Namespaces.defaultAlias

/-- Declarations of one tag: no prefix is declared twice, and `xml` only for the URI it always has. -/
structure Unambiguous (bs : List Binding) : Prop where
  distinct : (bs.map Binding.alias?).Nodup
  xml : ∀ b ∈ bs, b.alias? = some "xml" → b.uri = xmlUri

def registered (bs : List Binding) : List Binding := bs.filter fun b => b.alias? ≠ some "xml"

section Registered
variable {bs : List Binding} {b c : Binding} {space uri : String}

theorem mem_registered : b ∈ registered bs ↔ b ∈ bs ∧ b.alias? ≠ some "xml" := by
  simp [registered]

theorem Binding.key_of_alias (h : b.alias? = some space) : b.key = space := by
  rw [key, h, Option.getD_some]

theorem Binding.key_eq_iff : b.key = space ↔
    b.alias? = some space ∨ (b.alias? = none ∧ space = Namespaces.defaultAlias) := by
  rw [key]
  cases b.alias? with
  | none => simp [eq_comm]
  | some a => simp

theorem Unambiguous.eq_of_alias (h : Unambiguous bs) (hb : b ∈ bs) (hc : c ∈ bs) (he : b.alias? = c.alias?) :
    b = c := List.inj_on_of_nodup_map h.distinct hb hc he

theorem key_ne_xml (hb : b ∈ registered bs) : b.key ≠ "xml" := by
  rw [ne_eq, Binding.key_eq_iff, not_or]
  exact ⟨(mem_registered.1 hb).2, fun hdefault => absurd hdefault.2 (by decide)⟩

/-- The newest registration stands first. -/
theorem entries_ofBindings (bs : List Binding) :
    (Namespaces.ofBindings bs).entries = ((registered bs).map fun b => (b.key, b.uri)).reverse := by
  have hfold (m : Namespaces) : (bs.foldl (fun m b => if b.alias? = some "xml" then m
      else m.insert (b.alias?.getD Namespaces.defaultAlias) b.uri) m).entries =
      ((registered bs).map fun b => (b.key, b.uri)).reverse ++ m.entries := by
    induction bs generalizing m with
    | nil => rfl
    | cons b bs ih =>
      rw [List.foldl_cons, ih]
      by_cases hxml : b.alias? = some "xml"
      · simp [hxml, registered]
      · simp [hxml, registered, Namespaces.insert, Binding.key]
  exact (hfold .empty).trans (List.append_nil _)

/-- What is looked up among the entries is a declaration that is registered. -/
theorem exists_of_find? {p : String × String → Bool} {e : String × String}
    (h : (Namespaces.ofBindings bs).entries.find? p = some e) :
    p e = true ∧ ∃ b ∈ registered bs, (b.key, b.uri) = e := by
  have hmem := List.mem_of_find?_eq_some h
  rw [entries_ofBindings, List.mem_reverse, List.mem_map] at hmem
  exact ⟨List.find?_some h, hmem⟩

theorem exists_find? {p : String × String → Bool} (hb : b ∈ registered bs) (hp : p (b.key, b.uri) = true) :
    ∃ e, (Namespaces.ofBindings bs).entries.find? p = some e := by
  rw [← Option.isSome_iff_exists, List.find?_isSome, entries_ofBindings]
  exact ⟨(b.key, b.uri), List.mem_reverse.2 (List.mem_map_of_mem hb), hp⟩

theorem exists_of_uri? (h : (Namespaces.ofBindings bs).uri? space = some uri) :
    (∃ b ∈ registered bs, b.key = space ∧ b.uri = uri) ∨ (space = "xml" ∧ uri = xmlUri) := by
  rw [Namespaces.uri?] at h
  split at h
  · next hfind =>
    cases h
    obtain ⟨hkey, b, hb, he⟩ := exists_of_find? hfind
    cases he
    exact .inl ⟨b, hb, of_decide_eq_true hkey, rfl⟩
  · split at h
    · next hxml =>
      cases h
      exact .inr ⟨hxml, rfl⟩
    · cases h

/-- A prefix stands for the URI it is registered with, if it is registered with no other. -/
theorem uri?_key (hb : b ∈ registered bs) (hsame : ∀ c ∈ registered bs, c.key = b.key → c.uri = b.uri) :
    (Namespaces.ofBindings bs).uri? b.key = some b.uri := by
  obtain ⟨e, hfind⟩ := exists_find? (p := (·.1 = b.key)) hb (decide_eq_true rfl)
  obtain ⟨hkey, c, hc, rfl⟩ := exists_of_find? hfind
  rw [Namespaces.uri?, hfind]
  exact congrArg some (hsame c hc (of_decide_eq_true hkey))

/-- `xml` is never registered, and has its URI without that. -/
theorem uri?_xml (bs : List Binding) : (Namespaces.ofBindings bs).uri? "xml" = some xmlUri := by
  have hnone : (Namespaces.ofBindings bs).entries.find? (·.1 = "xml") = none := by
    rw [entries_ofBindings, List.find?_eq_none]
    intro e he
    rw [List.mem_reverse, List.mem_map] at he
    obtain ⟨b, hb, rfl⟩ := he
    simpa using key_ne_xml hb
  rw [Namespaces.uri?, hnone, if_pos rfl]

end Registered

/-- The names tell what is declared: the default namespace is the one that is declared as such, every
prefix stands for the URI it is declared with, and `xml` for its own. So a path is left as it is unless a
default namespace is declared, and a name without a prefix is looked for in no other namespace. -/
structure Namespaces.Tells (m : Namespaces) (bs : List Binding) : Prop where
  default : ∀ uri, m.default? = some uri ↔ ⟨none, uri⟩ ∈ bs
  declared : ∀ b ∈ bs, ∀ space, b.alias? = some space → m.uri? space = some b.uri
  xml : m.uri? "xml" = some xmlUri
  path : ∀ path, m.qualify path ≠ path → ∃ uri, ⟨none, uri⟩ ∈ bs
  name : ∀ own n, (NameTest.named none own).accepts m true n = true → ∀ uri ∈ n.uri, ⟨none, uri⟩ ∈ bs

section Telling
variable {bs : List Binding}

/-- With the alias out of the way a prefix is registered with one URI. -/
theorem Unambiguous.uri_eq_of_key (h : Unambiguous bs)
    (halias : ∀ uri, ⟨some Namespaces.defaultAlias, uri⟩ ∈ bs → ⟨none, uri⟩ ∈ bs) {b c : Binding}
    (hb : b ∈ bs) (hc : c ∈ bs) (hkey : b.key = c.key) : b.uri = c.uri := by
  -- a declaration under the alias has the URI of the default declaration
  have hdefault {b : Binding} (hb : b ∈ bs) (hkey : b.key = Namespaces.defaultAlias) : ⟨none, b.uri⟩ ∈ bs := by
    obtain ⟨alias?, uri⟩ := b
    obtain ha | ⟨ha, -⟩ := Binding.key_eq_iff.1 hkey
    · cases ha
      exact halias uri hb
    · cases ha
      exact hb
  by_cases hd : c.key = Namespaces.defaultAlias
  · have he := h.eq_of_alias (hdefault hb (hkey.trans hd)) (hdefault hc hd) rfl
    exact (Binding.mk.inj he).2
  · have hsome {b : Binding} (hb : b.key ≠ Namespaces.defaultAlias) : b.alias? = some b.key :=
      (Binding.key_eq_iff.1 rfl).resolve_right fun hnone => hb hnone.2
    have hne : b.key ≠ Namespaces.defaultAlias := fun he => hd (hkey.symm.trans he)
    have he : b.alias? = c.alias? := by rw [hsome hne, hsome hd, hkey]
    exact congrArg Binding.uri (h.eq_of_alias hb hc he)

theorem uri?_of_alias (h : Unambiguous bs)
    (halias : ∀ uri, ⟨some Namespaces.defaultAlias, uri⟩ ∈ bs → ⟨none, uri⟩ ∈ bs) {b : Binding}
    (hb : b ∈ registered bs) : (Namespaces.ofBindings bs).uri? b.key = some b.uri :=
  uri?_key hb fun _ hc => h.uri_eq_of_key halias (mem_registered.1 hc).1 (mem_registered.1 hb).1

/-- The names of an element tell what it declares exactly if the alias of the default namespace is not
itself declared as the prefix of another namespace. -/
theorem ofBindings_tells_iff (h : Unambiguous bs) :
    (Namespaces.ofBindings bs).Tells bs ↔
      ∀ uri, ⟨some Namespaces.defaultAlias, uri⟩ ∈ bs → ⟨none, uri⟩ ∈ bs := by
  constructor
  · intro htells uri hmem
    exact (htells.default uri).1 (htells.declared _ hmem _ rfl)
  · intro halias
    have hdefault (uri : String) : (Namespaces.ofBindings bs).default? = some uri ↔ ⟨none, uri⟩ ∈ bs := by
      constructor
      · intro hd
        obtain ⟨⟨alias?, v⟩, hb, hkey, rfl⟩ | ⟨hxml, -⟩ := exists_of_uri? hd
        · have hb := (mem_registered.1 hb).1
          obtain ha | ⟨ha, -⟩ := Binding.key_eq_iff.1 hkey
          · cases ha
            exact halias v hb
          · cases ha
            exact hb
        · exact absurd hxml (by decide)
      · intro hmem
        exact uri?_of_alias h halias (mem_registered.2 ⟨hmem, nofun⟩)
    refine ⟨hdefault, fun b hb space ha => ?_, uri?_xml bs, fun path hpath => ?_, fun own n hn uri hu => ?_⟩
    · by_cases hxml : space = "xml"
      · subst hxml
        rw [h.xml b hb ha]
        exact uri?_xml bs
      · have hreg : b ∈ registered bs := mem_registered.2 ⟨hb, by rwa [ha, ne_eq, Option.some.injEq]⟩
        rw [← Binding.key_of_alias ha]
        exact uri?_of_alias h halias hreg
    · cases hd : (Namespaces.ofBindings bs).default? with
      | none => exact absurd (by rw [Namespaces.qualify, hd]) hpath
      | some uri => exact ⟨uri, (hdefault uri).1 hd⟩
    · simp only [NameTest.accepts, if_true, Bool.and_eq_true, decide_eq_true_eq] at hn
      exact (hdefault uri).1 (hn.1.symm.trans hu)

/-- The alias may be a second prefix of the default namespace. -/
theorem ofBindings_tells_iff_twice :
    let bs : List Binding := [⟨some "dc", "urn:dc"⟩, ⟨none, "u"⟩, ⟨some "xml", xmlUri⟩, ⟨some "_", "u"⟩]
    Unambiguous bs ∧ (Namespaces.ofBindings bs).Tells bs := by
  intro bs
  have hbs : Unambiguous bs := ⟨by decide, by decide⟩
  have halias : ∀ uri, ⟨some Namespaces.defaultAlias, uri⟩ ∈ bs → ⟨none, uri⟩ ∈ bs := by
    intro uri hmem
    simp only [bs, Namespaces.defaultAlias, List.mem_cons, Binding.mk.injEq, List.not_mem_nil] at hmem ⊢
    tauto
  exact ⟨hbs, (ofBindings_tells_iff hbs).2 halias⟩

/-- An underscore is a name, and its declaration is taken for that of a default namespace: the path that
finds the child where nothing is declared finds nothing. -/
theorem declared_alias_taken_for_default :
    let b : Binding := ⟨some "_", "u"⟩
    let d : Document := ⟨[.element ⟨none, "a"⟩ [b] [] [.element ⟨none, "b"⟩ [] [] []]]⟩
    isNCName "_".toList = true ∧ Unambiguous [b] ∧
      Document.read? "<a xmlns:_=\"u\"><b/></a>" = some d ∧
      (Namespaces.ofDocument d).default? = some "u" ∧ ⟨none, "u"⟩ ∉ [b] ∧
      d.resolve (Namespaces.ofDocument d) "b" d.element = .ok [] ∧
      d.resolve .empty "b" d.element = .ok [.node [0, 0]] := by
  refine ⟨by decide, ⟨by decide, by decide⟩, by rfl, ?_, ?_, ?_, ?_⟩ <;> decide +kernel

end Telling

end Tabulate.Xml
