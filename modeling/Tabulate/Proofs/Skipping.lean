import Tabulate.Record.Tabulator

/-! Documents that are skipped. A document that fails gives no records and no keys, so a tabulator
differs by it in nothing but the names it took to read paths by: it is the same as if it had been given
the names of the first readable document and fed the documents it kept. -/
namespace Tabulate

open Xml (Document Namespaces)

structure Feed where
  text : String
  filename : Option String := none
  line : Option Nat := none
deriving DecidableEq

namespace Tabulator

def feed (t : Tabulator) (fs : FileSystem) (f : Feed) : TabulatorStep :=
  t.process fs f.text f.filename f.line

def accepts (t : Tabulator) (fs : FileSystem) (f : Feed) : Bool :=
  (t.addDocument fs f.text f.filename).result.isOk

def feedAll (t : Tabulator) (fs : FileSystem) : List Feed → Tabulator
  | [] => t
  | f :: ds => (t.feed fs f).next.feedAll fs ds

def kept (t : Tabulator) (fs : FileSystem) : List Feed → List Feed
  | [] => []
  | f :: ds => (if t.accepts fs f then [f] else []) ++ (t.feed fs f).next.kept fs ds

def declaredBy? (t : Tabulator) (fs : FileSystem) (f : Feed) : Option Namespaces :=
  (t.parse fs f.text).toOption.map Namespaces.ofDocument

def firstNames? (t : Tabulator) (fs : FileSystem) (ds : List Feed) : Option Namespaces :=
  ds.findSome? (t.declaredBy? fs)

def named (t : Tabulator) (names : Option Namespaces) : Tabulator := { t with namespaces := names }

variable {t : Tabulator} {fs : FileSystem} {f : Feed} {names : Option Namespaces}

@[simp] theorem namespaces_named : (t.named names).namespaces = names := rfl

theorem named_self : t.named t.namespaces = t := rfl

/-- Whether an error is told or turned into a warning, the tabulator goes on from the same state. -/
theorem next_feed (t : Tabulator) (fs : FileSystem) (f : Feed) :
    (t.feed fs f).next = (t.addDocument fs f.text f.filename).next := by
  rw [feed, process]
  cases (t.addDocument fs f.text f.filename).result with
  | ok _ => rfl
  | error e =>
    dsimp only
    split <;> rfl

/-- The three ways to take in a document: it cannot be read, it fails, or it is kept. -/
theorem feed_cases (t : Tabulator) (fs : FileSystem) (f : Feed) :
    (t.declaredBy? fs f = none ∧ t.accepts fs f = false ∧ (t.feed fs f).next = t) ∨
    (∃ d h e, t.parse fs f.text = .ok d ∧ t.accepts fs f = false ∧
      walk ⟨d, t.namespacesFor d, f.filename⟩ t.schema { counters := t.counters } = .error e h ∧
      (t.feed fs f).next = t.named (some (t.namespacesFor d))) ∨
    (∃ d h, t.parse fs f.text = .ok d ∧ t.accepts fs f = true ∧
      walk ⟨d, t.namespacesFor d, f.filename⟩ t.schema { counters := t.counters } = .ok () h ∧
      (t.feed fs f).next =
        { t with
          namespaces := some (t.namespacesFor d), counters := h.counters,
          tables := t.tables.merge h.tables }) := by
  rw [next_feed, accepts, declaredBy?, addDocument]
  cases hp : t.parse fs f.text with
  | error e => exact .inl ⟨rfl, rfl, rfl⟩
  | ok d =>
    dsimp only
    cases hw : walk ⟨d, t.namespacesFor d, f.filename⟩ t.schema { counters := t.counters } with
    | error e h => exact .inr (.inl ⟨d, h, e, rfl, rfl, hw, rfl⟩)
    | ok u h => exact .inr (.inr ⟨d, h, rfl, rfl, hw, rfl⟩)

theorem namespacesFor_eq (t : Tabulator) (d : Document) (hr : t.options.refreshNamespaces = false) :
    some (t.namespacesFor d) = t.namespaces.or (some (Namespaces.ofDocument d)) := by
  rw [namespacesFor, hr]
  cases t.namespaces <;> rfl

theorem namespacesFor_refreshed (t : Tabulator) (d : Document)
    (hr : t.options.refreshNamespaces = true) : t.namespacesFor d = Namespaces.ofDocument d := by
  rw [namespacesFor, if_pos hr]

theorem declaredBy?_of_parse {d : Document} (hp : t.parse fs f.text = .ok d) :
    t.declaredBy? fs f = some (Namespaces.ofDocument d) := by
  rw [declaredBy?, hp]
  rfl

@[simp] theorem declaredBy?_next (t : Tabulator) (fs : FileSystem) (f : Feed) :
    (t.feed fs f).next.declaredBy? fs = t.declaredBy? fs := by
  obtain ⟨-, -, h⟩ | ⟨_, _, _, -, -, -, h⟩ | ⟨_, _, -, -, -, h⟩ := t.feed_cases fs f
  · rw [h]
  · rw [h]
    rfl
  · rw [h]
    rfl

@[simp] theorem firstNames?_next (t : Tabulator) (fs : FileSystem) (f : Feed) (ds : List Feed) :
    (t.feed fs f).next.firstNames? fs ds = t.firstNames? fs ds := by
  rw [firstNames?, declaredBy?_next, firstNames?]

@[simp] theorem refreshNamespaces_next (t : Tabulator) (fs : FileSystem) (f : Feed) :
    (t.feed fs f).next.options.refreshNamespaces = t.options.refreshNamespaces := by
  obtain ⟨-, -, h⟩ | ⟨_, _, _, -, -, -, h⟩ | ⟨_, _, -, -, -, h⟩ := t.feed_cases fs f
  · rw [h]
  · rw [h]
    rfl
  · rw [h]

theorem firstNames?_cons (t : Tabulator) (fs : FileSystem) (f : Feed) (ds : List Feed) :
    t.firstNames? fs (f :: ds) = (t.declaredBy? fs f).or (t.firstNames? fs ds) := by
  rw [firstNames?, List.findSome?_cons, firstNames?]
  cases t.declaredBy? fs f <;> rfl

/-- A document that fails leaves the names it declares, where there are none before it. -/
theorem next_of_not_accepts (hr : t.options.refreshNamespaces = false)
    (ha : t.accepts fs f = false) :
    (t.feed fs f).next = t.named (t.namespaces.or (t.declaredBy? fs f)) := by
  obtain ⟨hn, -, h⟩ | ⟨d, _, _, hp, -, -, h⟩ | ⟨_, _, -, ht, -⟩ := t.feed_cases fs f
  · rw [h, hn, Option.or_none, named_self]
  · rw [h, declaredBy?_of_parse hp, namespacesFor_eq t d hr]
  · exact absurd (ht.symm.trans ha) nofun

theorem namespaces_next (hr : t.options.refreshNamespaces = false) :
    (t.feed fs f).next.namespaces = t.namespaces.or (t.declaredBy? fs f) := by
  obtain ⟨-, ha, -⟩ | ⟨_, _, _, -, ha, -⟩ | ⟨d, h, hp, -, -, hs⟩ := t.feed_cases fs f
  · rw [next_of_not_accepts hr ha, namespaces_named]
  · rw [next_of_not_accepts hr ha, namespaces_named]
  · rw [hs, declaredBy?_of_parse hp, ← namespacesFor_eq t d hr]

/-- Where a document is read by the same names, the names a tabulator has make no difference to it. -/
theorem feed_named (names : Option Namespaces) (f : Feed) (hn : ∀ d, t.parse fs f.text = .ok d →
    (t.named names).namespacesFor d = t.namespacesFor d) :
    (t.named names).accepts fs f = t.accepts fs f ∧
      (t.declaredBy? fs f = none → ((t.named names).feed fs f).next = t.named names) ∧
      (t.declaredBy? fs f ≠ none → ((t.named names).feed fs f).next = (t.feed fs f).next) := by
  simp only [next_feed, accepts, declaredBy?]
  have hparse : (t.named names).parse fs f.text = t.parse fs f.text := rfl
  cases hp : t.parse fs f.text with
  | error e => simp [addDocument, hparse, hp, Except.toOption]
  | ok d =>
    have hadd : (t.named names).addDocument fs f.text f.filename =
        t.addDocument fs f.text f.filename := by
      simp only [addDocument, hparse, hp, hn d hp]
      rfl
    simp [hadd, Except.toOption]

theorem namespacesFor_named {d : Document} (hr : t.options.refreshNamespaces = false) :
    (t.named (some (t.namespacesFor d))).namespacesFor d = t.namespacesFor d := by
  have hnamed := namespacesFor_eq (t.named (some (t.namespacesFor d))) d hr
  rw [namespaces_named, Option.some_or] at hnamed
  exact Option.some.inj hnamed

/-- Names that the next readable document would give can as well be there before. -/
theorem feedAll_named_first (fs : FileSystem)
    (hr : t.options.refreshNamespaces = false) (ds : List Feed) :
    t.feedAll fs ds = (t.named (t.namespaces.or (t.firstNames? fs ds))).feedAll fs ds := by
  induction ds with
  | nil => rw [firstNames?, List.findSome?_nil, Option.or_none, named_self]
  | cons f ds ih =>
    rw [feedAll, feedAll, firstNames?_cons]
    obtain ⟨hn, -, h⟩ | hread := t.feed_cases fs f
    · rw [h, hn, Option.none_or, ih]
      have hsame := (feed_named (t.namespaces.or (t.firstNames? fs ds)) f
        fun d hp => absurd (hn.symm.trans (declaredBy?_of_parse hp)) nofun).2.1 hn
      rw [hsame]
    · obtain ⟨d, hp⟩ : ∃ d, t.parse fs f.text = .ok d :=
        hread.elim (fun ⟨d, _, _, hp, _⟩ => ⟨d, hp⟩) (fun ⟨d, _, hp, _⟩ => ⟨d, hp⟩)
      have hd := declaredBy?_of_parse hp
      rw [hd, Option.some_or, ← namespacesFor_eq t d hr]
      rw [(feed_named _ _ fun d' hp' => by cases hp.symm.trans hp'; exact namespacesFor_named hr).2.2
        (by rw [hd]; nofun)]

theorem namespaces_feedAll (fs : FileSystem)
    (hr : t.options.refreshNamespaces = false) (ds : List Feed) :
    (t.feedAll fs ds).namespaces = t.namespaces.or (t.firstNames? fs ds) := by
  induction ds generalizing t with
  | nil => rw [feedAll, firstNames?, List.findSome?_nil, Option.or_none]
  | cons f ds ih =>
    rw [feedAll, ih (by rwa [refreshNamespaces_next]), namespaces_next hr, firstNames?_next,
      firstNames?_cons, Option.or_assoc]

/-- Fed with all documents, a tabulator comes to where it would have come with the first names given
and those documents alone that do not fail. -/
theorem feedAll_eq_feedAll_kept (fs : FileSystem)
    (hr : t.options.refreshNamespaces = false) (ds : List Feed) :
    t.feedAll fs ds =
      (t.named (t.namespaces.or (t.firstNames? fs ds))).feedAll fs (t.kept fs ds) := by
  induction ds generalizing t with
  | nil => rw [firstNames?, List.findSome?_nil, Option.or_none, named_self, kept]
  | cons f ds ih =>
    have hnext := ih (t := (t.feed fs f).next) (by rwa [refreshNamespaces_next])
    rw [feedAll, hnext, kept, firstNames?_cons, firstNames?_next, namespaces_next hr, Option.or_assoc]
    cases ha : t.accepts fs f with
    | false =>
      rw [next_of_not_accepts hr ha]
      rfl
    | true =>
      obtain ⟨-, hf, -⟩ | ⟨_, _, _, -, hf, -⟩ | ⟨d, h, hp, -, -, hs⟩ := t.feed_cases fs f
      · exact absurd (ha.symm.trans hf) nofun
      · exact absurd (ha.symm.trans hf) nofun
      · have hd := declaredBy?_of_parse hp
        rw [hd, Option.some_or, ← namespacesFor_eq t d hr]
        have hsame := (feed_named _ _ fun d' hp' => by
          cases hp.symm.trans hp'; exact namespacesFor_named hr).2.2 (by rw [hd]; nofun)
        rw [if_pos rfl, List.singleton_append, feedAll, hsame, hs]
        rfl

/-- Where every document is read by its own names, those a tabulator has are never used. -/
theorem feedAll_named (hr : t.options.refreshNamespaces = true) (ds : List Feed) :
    ((t.named names).feedAll fs ds).named none = (t.feedAll fs ds).named none := by
  cases ds with
  | nil => rfl
  | cons f ds =>
    have hsame := feed_named names f fun d (_ : t.parse fs f.text = .ok d) =>
      (namespacesFor_refreshed (t.named names) d hr).trans (namespacesFor_refreshed t d hr).symm
    rw [feedAll, feedAll]
    obtain ⟨hn, -, h⟩ | hread := t.feed_cases fs f
    · rw [hsame.2.1 hn, h]
      exact feedAll_named hr ds
    · obtain ⟨d, hp⟩ : ∃ d, t.parse fs f.text = .ok d :=
        hread.elim (fun ⟨d, _, _, hp, _⟩ => ⟨d, hp⟩) (fun ⟨d, _, hp, _⟩ => ⟨d, hp⟩)
      rw [hsame.2.2 (by rw [declaredBy?_of_parse hp]; nofun)]

/-- With names taken anew, a document that fails leaves nothing that is ever looked at. -/
theorem feedAll_refreshed (fs : FileSystem)
    (hr : t.options.refreshNamespaces = true) (ds : List Feed) :
    (t.feedAll fs ds).named none = (t.feedAll fs (t.kept fs ds)).named none := by
  induction ds generalizing t with
  | nil => rfl
  | cons f ds ih =>
    rw [feedAll, ih (by rwa [refreshNamespaces_next]), kept]
    obtain ⟨-, ha, h⟩ | ⟨d, _, _, -, ha, -, h⟩ | ⟨d, _, -, ha, -, -⟩ := t.feed_cases fs f
    · rw [ha, h]
      rfl
    · rw [ha, h]
      exact feedAll_named hr _
    · rw [ha]
      rfl

/-- A new tabulator fed with documents has the tables and keys of one fed only with those it kept, if
names are taken anew or the first readable document declares what the first kept one does. -/
theorem feedAll_kept {schema : Schema} {o : TabulatorOptions}
    (ht : Tabulator.ofSchema schema o = .ok t) (fs : FileSystem) (ds : List Feed) :
    (o.refreshNamespaces = true ∨ t.kept fs ds = [] ∨
        t.firstNames? fs ds = t.firstNames? fs (t.kept fs ds) →
      (t.feedAll fs ds).tables = (t.feedAll fs (t.kept fs ds)).tables ∧
      (t.feedAll fs ds).counters = (t.feedAll fs (t.kept fs ds)).counters) ∧
    (o.refreshNamespaces = false →
      t.feedAll fs ds = (t.named (t.firstNames? fs ds)).feedAll fs (t.kept fs ds) ∧
      (t.feedAll fs ds = t.feedAll fs (t.kept fs ds) ↔
        t.firstNames? fs ds = t.firstNames? fs (t.kept fs ds))) := by
  obtain ⟨rfl, hnames⟩ : t.options = o ∧ t.namespaces = none := by
    rw [ofSchema] at ht
    split at ht
    · cases ht
    · cases ht
      exact ⟨rfl, rfl⟩
  have hall (hr : t.options.refreshNamespaces = false) :
      t.feedAll fs ds = (t.named (t.firstNames? fs ds)).feedAll fs (t.kept fs ds) := by
    have hkept := feedAll_eq_feedAll_kept fs hr ds
    rwa [hnames, Option.none_or] at hkept
  have hfirst (hr : t.options.refreshNamespaces = false) (es : List Feed) :
      t.feedAll fs es = (t.named (t.firstNames? fs es)).feedAll fs es := by
    have hnamed := feedAll_named_first fs hr es
    rwa [hnames, Option.none_or] at hnamed
  have hsame (hr : t.options.refreshNamespaces = false)
      (h : t.firstNames? fs ds = t.firstNames? fs (t.kept fs ds)) :
      t.feedAll fs ds = t.feedAll fs (t.kept fs ds) := by
    rw [hall hr, h, ← hfirst hr]
  constructor
  · intro h
    cases hr : t.options.refreshNamespaces with
    | true =>
      have hrest := feedAll_refreshed fs hr ds
      exact ⟨(congrArg tables hrest :), (congrArg counters hrest :)⟩
    | false =>
      obtain h | h | h := h
      · exact absurd (hr.symm.trans h) nofun
      · rw [hall hr, h]
        exact ⟨rfl, rfl⟩
      · rw [← hsame hr h]
        exact ⟨rfl, rfl⟩
  · intro hr
    refine ⟨hall hr, fun h => ?_, hsame hr⟩
    have hd := namespaces_feedAll fs hr ds
    have hk := namespaces_feedAll fs hr (t.kept fs ds)
    rw [hnames, Option.none_or] at hd hk
    rw [← hd, h, hk]

end Tabulator

def keyedAlbums : Schema where
  paths := [("album", .entity ⟨"album", some (.single "name"), none⟩ [("name", .column "name")])]

def keyedTabulator : Tabulator where
  schema := keyedAlbums
  options := { continueOnError := true }

def namelessAlbum : Feed := { text := "<album/>" }

def foreignAlbum : Feed := { text := "<album xmlns=\"u\"/>" }

def namedAlbum : Feed := { text := "<album><name>X</name></album>" }

theorem feedAll_kept_albums :
    Tabulator.ofSchema keyedAlbums { continueOnError := true } = .ok keyedTabulator ∧
    keyedTabulator.kept ⟨[], [], none⟩ [namelessAlbum, namedAlbum] = [namedAlbum] ∧
    (keyedTabulator.feedAll ⟨[], [], none⟩ [namelessAlbum, namedAlbum]).tables =
      (keyedTabulator.feedAll ⟨[], [], none⟩ [namedAlbum]).tables := by
  have ht : Tabulator.ofSchema keyedAlbums { continueOnError := true } = .ok keyedTabulator := rfl
  have hk : keyedTabulator.kept ⟨[], [], none⟩ [namelessAlbum, namedAlbum] = [namedAlbum] := by
    decide +kernel
  have hn : keyedTabulator.firstNames? ⟨[], [], none⟩ [namelessAlbum, namedAlbum] =
      keyedTabulator.firstNames? ⟨[], [], none⟩ [namedAlbum] := by
    decide +kernel
  have hkept := (Tabulator.feedAll_kept ht ⟨[], [], none⟩ [namelessAlbum, namedAlbum]).1
    (.inr (.inr (by rw [hk, hn])))
  rw [hk] at hkept
  exact ⟨ht, hk, hkept.1⟩

/-- An album that fails in another namespace hides the one after it, which alone is found. -/
theorem foreign_album_leaves_trace :
    Tabulator.ofSchema keyedAlbums { continueOnError := true } = .ok keyedTabulator ∧
    keyedTabulator.kept ⟨[], [], none⟩ [foreignAlbum, namedAlbum] = [namedAlbum] ∧
    (keyedTabulator.feedAll ⟨[], [], none⟩ [foreignAlbum, namedAlbum]).tables.keys = [] ∧
    (keyedTabulator.feedAll ⟨[], [], none⟩ [namedAlbum]).tables.keys = ["album"] := by
  refine ⟨rfl, ?_, ?_, ?_⟩ <;> decide +kernel

end Tabulate
