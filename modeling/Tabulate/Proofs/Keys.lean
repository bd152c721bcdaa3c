import Tabulate.Proofs.Makings
import Tabulate.Proofs.Predicates

/-! What the key of a record tells. A key is put together with hyphens that may as well stand in its
parts, so it tells the pieces between all hyphens, and the parts only where it is known how many pieces
each of them has. -/
namespace Tabulate

open Xml (Document Location Namespaces)

namespace Text

def pieces (text : String) : List (List Char) := text.toList.splitOn '-'

theorem pieces_inj {a b : String} : pieces a = pieces b ↔ a = b := by
  refine ⟨fun h => String.toList_inj.1 ?_, congrArg pieces⟩
  have hjoined := congrArg (['-'].intercalate ·) h
  simpa only [pieces, List.intercalate_splitOn] using hjoined

/-- A hyphen between texts does not differ from one in a text. -/
theorem pieces_intercalate {texts : List String} (hne : texts ≠ []) :
    pieces ("-".intercalate texts) = texts.flatMap pieces := by
  induction texts with
  | nil => exact absurd rfl hne
  | cons text texts ih =>
    cases texts with
    | nil => simp
    | cons next rest =>
      have hrest := ih (List.cons_ne_nil next rest)
      rw [pieces, String.toList_intercalate] at hrest ⊢
      rw [List.flatMap_cons, ← hrest, pieces]
      exact List.splitOn_append_cons_self text.toList _

section Lists
variable {texts texts' : List String}

/-- Texts that are joined come to the same exactly if they have the same pieces. -/
theorem intercalate_eq_iff (hlength : texts.length = texts'.length) :
    "-".intercalate texts = "-".intercalate texts' ↔ texts.flatMap pieces = texts'.flatMap pieces := by
  by_cases hnil : texts = []
  · have hnil' : texts' = [] := List.length_eq_zero_iff.1 (by rw [← hlength, hnil, List.length_nil])
    rw [hnil, hnil']
    exact iff_of_true rfl rfl
  · have hnil' : texts' ≠ [] := fun h => hnil (List.length_eq_zero_iff.1 (by rw [hlength, h, List.length_nil]))
    rw [← pieces_inj, pieces_intercalate hnil, pieces_intercalate hnil']

/-- Place by place the texts have as many pieces, except perhaps at one place. -/
def AlikeBut (i : Nat) (texts texts' : List String) : Prop :=
  ∀ j, j ≠ i → (texts[j]?).map (fun text => (pieces text).length) =
    (texts'[j]?).map (fun text => (pieces text).length)

/-- Lists that come to the same one after the other are the same, if all but one are as long. -/
theorem eq_of_flatten_eq {α : Type} {i : Nat} {xss yss : List (List α)} (hlength : xss.length = yss.length)
    (halike : ∀ j, j ≠ i → (xss[j]?).map List.length = (yss[j]?).map List.length)
    (h : xss.flatten = yss.flatten) : xss = yss := by
  induction xss generalizing yss i with
  | nil => exact (List.length_eq_zero_iff.1 hlength.symm).symm
  | cons xs xss ih =>
    cases yss with
    | nil => cases hlength
    | cons ys yss =>
      rw [List.flatten_cons, List.flatten_cons] at h
      cases i with
      | zero =>
        -- the others leave the same length to the one that is not known
        have hcounts : xss.map List.length = yss.map List.length :=
          List.ext_getElem? fun j => by simpa using halike (j + 1) (by omega)
        have hrest : xss.flatten.length = yss.flatten.length := by
          rw [List.length_flatten, hcounts, List.length_flatten]
        obtain ⟨hhead, htail⟩ := List.append_inj' h hrest
        rw [hhead, List.eq_iff_flatten_eq.2 ⟨htail, hcounts⟩]
      | succ i =>
        have hfirst : xs.length = ys.length := Option.some.inj (halike 0 (by omega))
        have hothers (j : Nat) (hj : j ≠ i) : (xss[j]?).map List.length = (yss[j]?).map List.length :=
          halike (j + 1) (by omega)
        obtain ⟨hhead, htail⟩ := List.append_inj h hfirst
        rw [hhead, ih (Nat.succ.inj hlength) hothers htail]

/-- The same pieces make the same texts where all texts but one have as many of them. -/
theorem eq_of_pieces {i : Nat} (hlength : texts.length = texts'.length) (halike : AlikeBut i texts texts')
    (h : texts.flatMap pieces = texts'.flatMap pieces) : texts = texts' := by
  have hcounts (j : Nat) (hj : j ≠ i) :
      ((texts.map pieces)[j]?).map List.length = ((texts'.map pieces)[j]?).map List.length := by
    simpa [Function.comp_def] using halike j hj
  have hpieces : texts.map pieces = texts'.map pieces := eq_of_flatten_eq (by simpa using hlength) hcounts h
  exact List.map_injective_iff.2 (fun _ _ => pieces_inj.1) hpieces

end Lists

end Text

def Xml.Document.keyParts (d : Document) (m : Namespaces) (key : PrimaryKey) (l : Location) :
    Except DocumentError (List String) :=
  key.components.mapM (d.keyPart m l)

theorem Xml.Document.primaryKey_eq_ok {d : Document} {m : Namespaces} {key : PrimaryKey} {l : Location}
    {text : String} : d.primaryKey m key l = .ok text ↔
      ∃ parts, d.keyParts m key l = .ok parts ∧ "-".intercalate parts = text :=
  Effects.except_map_eq_ok

/-- A record gets its key text for its key, or the next number below the key of the record around if the
text is empty. -/
def Source.Keys (s : Source) (e : Entity) (l : Location) (text : String) : Prop :=
  ∀ (parent : Option Parent) (h : Harvest),
    let parentKey := (parent.map Parent.key).getD noParentKey
    (text ≠ "" → s.recordKey e parent l h = .ok text h) ∧
    (text = "" → s.recordKey e parent l h = .ok (syntheticKey parentKey (h.counters.count e.table parentKey))
      { h with counters := (h.counters.next e.table parentKey).2 })

theorem Source.keys_of_primaryKey {s : Source} {e : Entity} {l : Location} {key : PrimaryKey} {text : String}
    (he : e.primaryKey = some key) (ht : s.document.primaryKey s.namespaces key l = .ok text) :
    s.Keys e l text := by
  intro parent h parentKey
  have hexplicit : s.explicitKey e l = .ok (some text) := by
    rw [explicitKey, he]
    exact congrArg (Except.map some) ht
  have hpure : (MonadExcept.ofExcept (.ok (some text) : Except DocumentError (Option String)) :
      Walk (Option String)) = pure (some text) := rfl
  rw [recordKey, hexplicit, hpure, pure_bind]
  constructor
  · intro htext
    have hkept : (some text).filter (fun key => !key.isEmpty) = some text := by
      rw [Option.filter_some, if_pos (by simpa using htext)]
    rw [hkept]
    rfl
  · rintro rfl
    rfl

/-- Two key texts by the same key paths are equal exactly if the texts at the paths have the same pieces
between hyphens, one after the other. Then these texts are equal too, if place by place they have as many
pieces, except perhaps at one place (so always if there is but one path). Records get the key texts for
their keys, so their keys are equal in the same cases, but an empty key text gives way to a number. -/
theorem keys_tell_pieces {key : PrimaryKey} {s s' : Source} {e e' : Entity} {l l' : Location}
    {text text' : String} (he : e.primaryKey = some key) (he' : e'.primaryKey = some key)
    (ht : s.document.primaryKey s.namespaces key l = .ok text)
    (ht' : s'.document.primaryKey s'.namespaces key l' = .ok text') :
    ∃ parts parts',
      s.document.keyParts s.namespaces key l = .ok parts ∧
      s'.document.keyParts s'.namespaces key l' = .ok parts' ∧
      (text = text' ↔ parts.flatMap Text.pieces = parts'.flatMap Text.pieces) ∧
      (∀ i, Text.AlikeBut i parts parts' → (text = text' ↔ parts = parts')) ∧
      (∀ path, key = .single path → (text = text' ↔ parts = parts')) ∧
      s.Keys e l text ∧ s'.Keys e' l' text' := by
  obtain ⟨parts, hparts, rfl⟩ := Document.primaryKey_eq_ok.1 ht
  obtain ⟨parts', hparts', rfl⟩ := Document.primaryKey_eq_ok.1 ht'
  have hlength : parts.length = parts'.length :=
    (mapM_forall₂ (R := fun _ _ => True) (fun _ _ _ _ _ => trivial) hparts hparts').length_eq
  have hpieces := Text.intercalate_eq_iff hlength
  have halike (i : Nat) (h : Text.AlikeBut i parts parts') :
      "-".intercalate parts = "-".intercalate parts' ↔ parts = parts' :=
    ⟨fun heq => Text.eq_of_pieces hlength h (hpieces.1 heq), congrArg _⟩
  refine ⟨parts, parts', hparts, hparts', hpieces, halike, ?_, s.keys_of_primaryKey he ht,
    s'.keys_of_primaryKey he' ht'⟩
  rintro path rfl
  have hone {d : Document} {m : Namespaces} {l : Location} {parts : List String}
      (h : d.keyParts m (.single path) l = .ok parts) : parts.length = 1 := by
    obtain ⟨part, rest, -, hrest, rfl⟩ := mapM_cons_eq_ok.1 h
    cases hrest
    rfl
  refine halike 0 fun j hj => ?_
  rw [List.getElem?_eq_none (by rw [hone hparts]; omega), List.getElem?_eq_none (by rw [hone hparts']; omega)]

def twoTexts (texts : List (String × String)) : Source where
  document := ⟨[.element ⟨none, "a"⟩ [] [] (texts.map fun t => .element ⟨none, "b"⟩ [] []
    [.element ⟨none, "n"⟩ [] [] [.text t.1], .element ⟨none, "m"⟩ [] [] [.text t.2]])]⟩
  namespaces := .empty
  filename := none

theorem keys_tell_two_texts :
    let s := twoTexts [("x-y", "z"), ("x-y", "z-")]
    let key := PrimaryKey.composite ["n", "m"]
    let e : Entity := ⟨"b", some key, none⟩
    s.document.primaryKey s.namespaces key (.node [0, 0]) = .ok "x-y-z" ∧
    s.document.primaryKey s.namespaces key (.node [0, 1]) = .ok "x-y-z-" ∧
    (∃ parts parts',
      s.document.keyParts s.namespaces key (.node [0, 0]) = .ok parts ∧
      s.document.keyParts s.namespaces key (.node [0, 1]) = .ok parts' ∧
      parts.flatMap Text.pieces ≠ parts'.flatMap Text.pieces) ∧
    s.Keys e (.node [0, 0]) "x-y-z" ∧ s.Keys e (.node [0, 1]) "x-y-z-" := by
  intro s key e
  have he : e.primaryKey = some key := rfl
  have ht : s.document.primaryKey s.namespaces key (.node [0, 0]) = .ok "x-y-z" := by decide +kernel
  have ht' : s.document.primaryKey s.namespaces key (.node [0, 1]) = .ok "x-y-z-" := by decide +kernel
  obtain ⟨parts, parts', hparts, hparts', hpieces, -, -, hkeys, hkeys'⟩ := keys_tell_pieces he he ht ht'
  have hne : "x-y-z" ≠ "x-y-z-" := by decide
  exact ⟨ht, ht', ⟨parts, parts', hparts, hparts', fun h => hne (hpieces.2 h)⟩, hkeys, hkeys'⟩

/-- Elements with different texts get the same key where a hyphen in a text stands for one between texts,
and where a text is the number of an element without text. -/
theorem keys_of_different_texts :
    (let s := twoTexts [("x-y", "z"), ("x", "y-z")]
      let key := PrimaryKey.composite ["n", "m"]
      let e : Entity := ⟨"b", some key, none⟩
      s.document.keyParts s.namespaces key (.node [0, 0]) = .ok ["x-y", "z"] ∧
      s.document.keyParts s.namespaces key (.node [0, 1]) = .ok ["x", "y-z"] ∧
      s.document.primaryKey s.namespaces key (.node [0, 0]) = .ok "x-y-z" ∧
      s.document.primaryKey s.namespaces key (.node [0, 1]) = .ok "x-y-z" ∧
      s.recordKey e none (.node [0, 0]) {} = .ok "x-y-z" {} ∧
      s.recordKey e none (.node [0, 1]) {} = .ok "x-y-z" {}) ∧
    (let s := twoTexts [("", ""), ("None_0", "")]
      let key := PrimaryKey.single "n"
      let e : Entity := ⟨"b", some key, none⟩
      s.document.keyParts s.namespaces key (.node [0, 0]) = .ok [""] ∧
      s.document.keyParts s.namespaces key (.node [0, 1]) = .ok ["None_0"] ∧
      ∃ h, s.recordKey e none (.node [0, 0]) {} = .ok "None_0" h ∧
        s.recordKey e none (.node [0, 1]) h = .ok "None_0" h) := by
  refine ⟨?_, ?_⟩
  · intro s key e
    have he : e.primaryKey = some key := rfl
    have ht : s.document.primaryKey s.namespaces key (.node [0, 0]) = .ok "x-y-z" := by decide +kernel
    have ht' : s.document.primaryKey s.namespaces key (.node [0, 1]) = .ok "x-y-z" := by decide +kernel
    exact ⟨by decide +kernel, by decide +kernel, ht, ht',
      (s.keys_of_primaryKey he ht none {}).1 (by decide), (s.keys_of_primaryKey he ht' none {}).1 (by decide)⟩
  · intro s key e
    have he : e.primaryKey = some key := rfl
    have ht : s.document.primaryKey s.namespaces key (.node [0, 0]) = .ok "" := by decide +kernel
    have ht' : s.document.primaryKey s.namespaces key (.node [0, 1]) = .ok "None_0" := by decide +kernel
    have hnumber : syntheticKey noParentKey (KeyCounters.empty.count "b" noParentKey) = "None_0" := by
      decide +kernel
    have hfirst : s.recordKey e none (.node [0, 0]) {} =
        .ok "None_0" { counters := (KeyCounters.empty.next "b" noParentKey).2 } := by
      rw [← hnumber]
      exact (s.keys_of_primaryKey he ht none {}).2 rfl
    exact ⟨by decide +kernel, by decide +kernel, _, hfirst,
      (s.keys_of_primaryKey he ht' none _).1 (by decide)⟩

end Tabulate
