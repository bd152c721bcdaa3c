import Tabulate.Proofs.Declarations
import Tabulate.Proofs.Preparations

/-! Making the tables of a schema where there are none. Layouts are never refused but for having no
columns, and a layout has none only if all entities of its table stand at the top, have no key that is
told, and hold nothing but other entities. -/
namespace Tabulate

open Effects

def StoreError.concernsLayout : StoreError → Bool
  | noColumns _ => true
  | tooManyColumns .. => true
  | keyNotColumn .. => true
  | tooWide .. => true
  | _ => false

/-- Records of such an entity have no column that is kept. -/
structure Declaration.IsBare (d : Declaration) : Prop where
  keyless : d.hasKeyColumn = false
  filenameless : d.entity.filenameColumn = none
  fieldless : SchemaNode.fieldColumns d.fields = []

theorem Declaration.columns_eq_nil_iff (d : Declaration) : d.columns = [] ↔ d.IsBare := by
  rw [columns, Entity.columns]
  constructor
  · intro h
    simp only [List.append_eq_nil_iff] at h
    obtain ⟨⟨⟨hkey, -⟩, hfile⟩, hfields⟩ := h
    refine ⟨?_, by simpa using hfile, hfields⟩
    rw [hasKeyColumn, Bool.eq_false_iff]
    intro hk
    rw [if_pos hk] at hkey
    cases hkey
  · rintro ⟨hkey, hfile, hfields⟩
    rw [hasKeyColumn, Bool.or_eq_false_iff] at hkey
    have henclosing : d.enclosing = none := by simpa using hkey.2
    simp [hkey.1, henclosing, hfile, hfields]

namespace Schema
variable {schema : Schema} {ls : List TableLayout} {l : TableLayout}

theorem primaryKey_mem_columns (h : schema.layouts = .ok ls) (hl : l ∈ ls) {k : String}
    (hk : l.primaryKey = some k) : k ∈ l.columns := by
  rw [keyedById_of_layout h hl] at hk
  split at hk
  · next hid => exact Option.some.inj hk ▸ hid
  · cases hk

theorem columns_eq_nil_iff (h : schema.layouts = .ok ls) (hl : l ∈ ls) :
    l.columns = [] ↔ ∀ d ∈ schema.declarations, d.entity.table = l.name → d.IsBare := by
  simp only [← Declaration.columns_eq_nil_iff, List.eq_nil_iff_forall_not_mem, mem_columns_iff h hl]
  constructor
  · intro hnone d hd ht c hc
    exact hnone c ⟨d, hd, ht, hc⟩
  · rintro hbare c ⟨d, hd, ht, hc⟩
    exact hbare d hd ht c hc

end Schema

namespace Store
variable {s s' : Store} {l : TableLayout} {ls : List TableLayout} {e : StoreError}

/-- A layout that is narrow enough and has its primary key among its columns. -/
structure Creatable (c : StoreConfig) (l : TableLayout) : Prop where
  narrow : l.columns.length ≤ c.maxColumns
  key : ∀ k, l.primaryKey = some k → k ∈ l.columns

/-- The table of such a layout is made by one statement, unless it has no columns. -/
theorem prepareTable_new (h : Creatable s.config l) : prepareTable [] l s =
    if l.columns = [] then .error (.noColumns l.name) s
    else execute (Statement.createTable l.name (tableOf l).columns)
      (·.create? l.name (tableOf l).columns) s := by
  obtain ⟨name, columns, key⟩ := l
  split
  · next hnil =>
    have hnone : columns = [] := hnil
    subst hnone
    rfl
  · next hne =>
    have hordered : (tableOf ⟨name, columns, key⟩).columns =
        inOrder columns ((columns.map (·, ColumnType.text)).map fun c => ⟨c.1, c.2, key = some c.1⟩) := by
      rw [tableOf, List.map_map]
      rfl
    have hempty : ¬(columns.map (·, ColumnType.text)).isEmpty = true := by simpa using hne
    have hmany : ¬(columns.map (·, ColumnType.text)).length > s.config.maxColumns := by
      simpa using h.narrow
    rw [hordered]
    show createTable name (columns.map (·, .text)) key columns s = _
    rw [createTable]
    show (if _ then _ else _ : Storing Unit) s = _
    rw [if_neg hempty]
    show (if _ then _ else _ : Storing Unit) s = _
    rw [if_neg hmany]
    cases key with
    | none => rfl
    | some k =>
      have hkey : ¬(!(columns.map (·, ColumnType.text)).any (·.1 = k)) = true := by
        simpa using h.key k rfl
      show (if _ then _ else _ : Storing Unit) s = _
      rw [if_neg hkey]

theorem prepareTable_layoutFault (h : Creatable s.config l) (he : e.concernsLayout = true) :
    prepareTable [] l s = .error e s' ↔ l.columns = [] ∧ e = .noColumns l.name ∧ s' = s := by
  rw [prepareTable_new h]
  by_cases hnil : l.columns = []
  · rw [if_pos hnil]
    constructor
    · intro hfault
      cases hfault
      exact ⟨hnil, rfl, rfl⟩
    · rintro ⟨-, rfl, rfl⟩
      rfl
  · rw [if_neg hnil]
    constructor
    · intro hfault
      rw [(execute_eq_error hfault).1] at he
      cases he
    · rintro ⟨hc, -⟩
      exact absurd hc hnil

/-- Making tables goes wrong by a layout exactly where it gets to one without columns. -/
theorem forM_prepareTable_layoutFault (h : ∀ l ∈ ls, Creatable s.config l) (he : e.concernsLayout = true) :
    ls.forM (prepareTable []) s = .error e s' ↔ ∃ before l behind, ls = before ++ l :: behind ∧
      l.columns = [] ∧ e = .noColumns l.name ∧ before.forM (prepareTable []) s = .ok () s' := by
  rw [forM_eq_error]
  constructor
  · rintro ⟨before, l, behind, s₁, rfl, hbefore, hl⟩
    have hconfig : s₁.config = s.config := (forM_prepareTable_widens hbefore).1
    have hcreatable : Creatable s₁.config l := hconfig ▸ h l (by simp)
    obtain ⟨hnil, rfl, rfl⟩ := (prepareTable_layoutFault hcreatable he).1 hl
    exact ⟨before, l, behind, rfl, hnil, rfl, hbefore⟩
  · rintro ⟨before, l, behind, rfl, hnil, hfault, hbefore⟩
    have hconfig : s'.config = s.config := (forM_prepareTable_widens hbefore).1
    have hcreatable : Creatable s'.config l := hconfig ▸ h l (by simp)
    exact ⟨before, l, behind, s', rfl, hbefore, (prepareTable_layoutFault hcreatable he).2 ⟨hnil, hfault, rfl⟩⟩

theorem prepare_of_empty (hs : s.database = .empty) (ls : List TableLayout) :
    prepare ls s = ls.forM (prepareTable []) s := by
  have hnone : s.tableNames = [] := by
    rw [tableNames, hs]
    rfl
  show ls.forM (prepareTable s.tableNames) s = _
  rw [hnone]

theorem columns_ne_nil_of_prepare (hs : s.database = .empty) (h : ∀ l ∈ ls, Creatable s.config l)
    (hprepare : prepare ls s = .ok () s') : ∀ l ∈ ls, l.columns ≠ [] := by
  intro l hl hnil
  obtain ⟨before, behind, rfl⟩ := List.append_of_mem hl
  rw [prepare_of_empty hs] at hprepare
  obtain ⟨s₁, hbefore, hprepare⟩ := forM_append_eq_ok.1 hprepare
  obtain ⟨_, s₂, hmade, -⟩ := bind_eq_ok.1 hprepare
  have hconfig : s₁.config = s.config := (forM_prepareTable_widens hbefore).1
  rw [prepareTable_new (hconfig ▸ h l hl), if_pos hnil] at hmade
  cases hmade

end Store

/-- In an empty database every layout of a schema can be made a table, but for one without columns: that
there is no other fault with a layout, whatever the schema. A layout has no columns exactly if all
entities of its table are bare, and then no preparation succeeds. -/
theorem prepare_refuses_bare {schema : Schema} {ls : List TableLayout} (hl : schema.layouts = .ok ls)
    {s : Store} (hs : s.database = .empty)
    (hwide : ∀ l ∈ ls, l.columns.length ≤ s.config.maxVars ∧ l.columns.length ≤ maxTableColumns) :
    (∀ l ∈ ls, ∀ k, l.primaryKey = some k → k ∈ l.columns) ∧
    (∀ l ∈ ls, l.columns = [] ↔ ∀ d ∈ schema.declarations, d.entity.table = l.name → d.IsBare) ∧
    ((∀ l ∈ ls, l.columns ≠ []) → ∀ e s', Store.prepare ls s = .error e s' → e.concernsLayout = false) ∧
    (∀ e s', e.concernsLayout = true → (Store.prepare ls s = .error e s' ↔
      ∃ before l behind, ls = before ++ l :: behind ∧ l.columns = [] ∧ e = .noColumns l.name ∧
        Store.prepare before s = .ok () s')) ∧
    ((∃ l ∈ ls, l.columns = []) → ∃ e s', Store.prepare ls s = .error e s') := by
  have hkey (l : TableLayout) (hmem : l ∈ ls) (k : String) (hk : l.primaryKey = some k) : k ∈ l.columns :=
    Schema.primaryKey_mem_columns hl hmem hk
  have hcreatable (l : TableLayout) (hmem : l ∈ ls) : Store.Creatable s.config l :=
    ⟨Nat.le_min.2 (hwide l hmem), hkey l hmem⟩
  have hfault (e : StoreError) (s' : Store) (he : e.concernsLayout = true) :
      Store.prepare ls s = .error e s' ↔ ∃ before l behind, ls = before ++ l :: behind ∧ l.columns = [] ∧
        e = .noColumns l.name ∧ Store.prepare before s = .ok () s' := by
    simp only [Store.prepare_of_empty hs]
    exact Store.forM_prepareTable_layoutFault hcreatable he
  refine ⟨hkey, fun l hmem => Schema.columns_eq_nil_iff hl hmem, fun hfull e s' hprepare => ?_, hfault, ?_⟩
  · by_contra he
    obtain ⟨before, l, behind, hls, hnil, -⟩ := (hfault e s' (by simpa using he)).1 hprepare
    exact hfull l (by simp [hls]) hnil
  · rintro ⟨l, hmem, hnil⟩
    cases hprepare : Store.prepare ls s with
    | error e s' => exact ⟨e, s', rfl⟩
    | ok _ s' => exact absurd hnil (Store.columns_ne_nil_of_prepare hs hcreatable hprepare l hmem)

def boxedAlbums : Schema where
  paths := [("album", .entity ⟨"album", none, none⟩ [("track", .entity ⟨"track", none, none⟩ [(".", .column "title")])]),
    ("box", .entity ⟨"box", some (.single "name"), none⟩ [("album", .entity ⟨"album", none, none⟩ [])])]

def emptyStore : Store := ⟨.inMemory, none, .empty, []⟩

theorem prepare_refuses_bare_boxes : ∃ ls, boxedAlbums.layouts = .ok ls ∧
    ls.map TableLayout.columns = [["id", "album_id", "title"], ["id", "box_id"], ["id"]] ∧
    ∀ e s', Store.prepare ls emptyStore = .error e s' → e.concernsLayout = false := by
  have hl : boxedAlbums.layouts = .ok [⟨"track", ["id", "album_id", "title"], some "id"⟩,
      ⟨"album", ["id", "box_id"], some "id"⟩, ⟨"box", ["id"], some "id"⟩] := by decide
  obtain ⟨-, -, hnever, -⟩ := prepare_refuses_bare hl (s := emptyStore) rfl (by decide)
  exact ⟨_, hl, rfl, hnever (by decide)⟩

def wrappedTracks : Schema where
  paths := [("album", .entity ⟨"album", none, none⟩ [("track", .entity ⟨"track", none, none⟩ [(".", .column "title")])])]

/-- A table of nothing but wrappers cannot be made. -/
theorem wrappers_not_stored : ∃ ls s', wrappedTracks.layouts = .ok ls ∧
    (∀ l ∈ ls, l.columns.length ≤ emptyStore.config.maxVars ∧ l.columns.length ≤ maxTableColumns) ∧
    Store.prepare ls emptyStore = .error (.noColumns "album") s' := by
  have hl : wrappedTracks.layouts =
      .ok [⟨"track", ["id", "album_id", "title"], some "id"⟩, ⟨"album", [], none⟩] := by decide
  have hcreatable : Store.Creatable emptyStore.config ⟨"track", ["id", "album_id", "title"], some "id"⟩ :=
    ⟨by decide, by decide⟩
  have htrack : ∃ s', Store.prepareTable [] ⟨"track", ["id", "album_id", "title"], some "id"⟩ emptyStore =
      .ok () s' := by
    rw [Store.prepareTable_new hcreatable, if_neg (by decide), Store.columns_tableOf (by decide)]
    exact ⟨_, Store.execute_eq_ok.2 ⟨_, if_neg (by decide +kernel), rfl⟩⟩
  obtain ⟨s', htrack⟩ := htrack
  exact ⟨_, s', hl, by decide,
    forM_eq_error.2 ⟨[_], _, [], s', rfl, bind_eq_ok.2 ⟨(), s', htrack, rfl⟩, rfl⟩⟩

end Tabulate
