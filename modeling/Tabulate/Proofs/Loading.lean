import Tabulate.Proofs.Configuration

/-! Loading and spelling a schema node undo each other. Every node that a configuration can spell is read from
each of its spellings, and whatever is read has names and paths as a spelling needs them; only paths may come
twice, where two keys have one text. -/
namespace Tabulate.SchemaNode

open Value (keyed Writes)

mutual

/-- A node is read from whatever spells it. -/
theorem ofValue_of_spelledBy : (n : SchemaNode) → n.Legal → ∀ v, n.SpelledBy v → ofValue v = n
  | column name, _, v, hv => by
    rw [SpelledBy] at hv
    rw [hv, ofValue]
  | field name rule, hn, v, hv => by
    rw [SpelledBy] at hv
    obtain ⟨ds, w, rs, rfl, hds, hw, hrule⟩ := hv
    exact ofValue_field hds hw hrule (hn.shaped)
  | entity e fields, hn, v, hv => by
    rw [SpelledBy] at hv
    obtain ⟨ds, w, fs, key?, file?, rfl, hds, hw, hfs, hkey, hfile⟩ := hv
    have hshaped := hn.shaped
    exact ofValue_entity hds hw (ofEntries_of_spelledBy fields hn.ofField hshaped.2.2.1 fs hfs) hkey hfile hshaped
  | alternatives nodes, hn, v, hv => by
    rw [SpelledBy] at hv
    obtain ⟨vs, rfl, hvs⟩ := hv
    rw [ofValue, ofValues_of_spelledBy nodes hn.alternative vs hvs]
  | invalid description, hn, _, _ => absurd hn Legal.not_invalid

theorem ofValues_of_spelledBy : (ns : List SchemaNode) → (∀ n ∈ ns, n.Legal) → ∀ vs, EachSpelledBy vs ns →
    ofValues vs = ns
  | [], _, vs, hvs => by
    rw [EachSpelledBy] at hvs
    rw [hvs, ofValues]
  | n :: ns, hns, vs, hvs => by
    rw [EachSpelledBy] at hvs
    obtain ⟨w, ws, rfl, hw, hws⟩ := hvs
    obtain ⟨hn, hns⟩ := List.forall_mem_cons.1 hns
    rw [ofValues, ofValue_of_spelledBy n hn w hw, ofValues_of_spelledBy ns hns ws hws]

theorem ofEntries_of_spelledBy : (fields : List (String × SchemaNode)) → (∀ f ∈ fields, f.2.Legal) →
    (∀ f ∈ fields, IsPath f.1) → ∀ es, EntriesSpelledBy es fields → List.Forall₂ IsField (ofEntries es) fields
  | [], _, _, es, hes => by
    rw [EntriesSpelledBy] at hes
    rw [hes, ofEntries]
    exact .nil
  | (path, n) :: fields, hlegal, hpaths, es, hes => by
    rw [EntriesSpelledBy] at hes
    obtain ⟨k, w, ws, rfl, hk, hw, hws⟩ := hes
    obtain ⟨hn, hlegal⟩ := List.forall_mem_cons.1 hlegal
    obtain ⟨hpath, hpaths⟩ := List.forall_mem_cons.1 hpaths
    rw [ofEntries]
    exact .cons ⟨hk, ofValue_of_spelledBy n hn w hw, hpath⟩ (ofEntries_of_spelledBy fields hlegal hpaths ws hws)

end

theorem forall₂_map_string (ts : List String) : List.Forall₂ Writes (ts.map .string) ts := by
  rw [List.forall₂_map_left_iff, List.forall₂_same]
  exact fun _ _ => rfl

theorem primaryKey_spelledBy (key? : Option PrimaryKey) :
    Option.Rel PrimaryKey.SpelledBy (key?.map PrimaryKey.spelled) key? := by
  cases key? with
  | none => exact .none
  | some key =>
    cases key with
    | single path => exact .some rfl
    | composite paths => exact .some ⟨_, rfl, forall₂_map_string paths⟩

theorem rule_spelledBy (rule : FieldRule) : rule.SpelledBy rule.spelled := by
  cases rule with
  | plain => rfl
  | joiner separator => exact ⟨_, rfl, rfl⟩
  | enumMap table =>
    refine ⟨_, table.entries, rfl, .refl _, ?_⟩
    rw [keyed, List.map_map, List.forall₂_map_left_iff, List.forall₂_same]
    exact fun _ _ => ⟨rfl, rfl⟩
  | enumType constant => exact ⟨_, rfl, rfl⟩

mutual

/-- A node without invalid parts has a spelling. -/
theorem spelledBy_spelled : (n : SchemaNode) → n.Legal → n.SpelledBy n.spelled
  | column name, _ => by rw [SpelledBy, spelled]
  | field name rule, _ => by
    rw [SpelledBy, spelled]
    exact ⟨_, _, _, rfl, .refl _, rfl, rule_spelledBy rule⟩
  | entity e fields, hn => by
    have hfile : Option.Rel Writes (e.filenameColumn.map .string) e.filenameColumn := by
      cases e.filenameColumn with
      | none => exact .none
      | some column => exact .some rfl
    rw [SpelledBy, spelled]
    exact ⟨_, _, _, _, _, rfl, .refl _, rfl, entriesSpelledBy_spelled fields hn.ofField, primaryKey_spelledBy _, hfile⟩
  | alternatives nodes, hn => by
    rw [SpelledBy, spelled]
    exact ⟨_, rfl, eachSpelledBy_spelled nodes hn.alternative⟩
  | invalid description, hn => absurd hn Legal.not_invalid

theorem eachSpelledBy_spelled : (ns : List SchemaNode) → (∀ n ∈ ns, n.Legal) → EachSpelledBy (spelledEach ns) ns
  | [], _ => by rw [EachSpelledBy, spelledEach]
  | n :: ns, hns => by
    obtain ⟨hn, hns⟩ := List.forall_mem_cons.1 hns
    rw [EachSpelledBy, spelledEach]
    exact ⟨_, _, rfl, spelledBy_spelled n hn, eachSpelledBy_spelled ns hns⟩

theorem entriesSpelledBy_spelled : (fields : List (String × SchemaNode)) → (∀ f ∈ fields, f.2.Legal) →
    EntriesSpelledBy (keyed (spelledFields fields)) fields
  | [], _ => by rw [EntriesSpelledBy, spelledFields, keyed, List.map_nil]
  | (path, n) :: fields, hfields => by
    obtain ⟨hn, hfields⟩ := List.forall_mem_cons.1 hfields
    rw [EntriesSpelledBy, spelledFields]
    exact ⟨_, _, _, rfl, rfl, spelledBy_spelled n hn, entriesSpelledBy_spelled fields hfields⟩

end

theorem map_fst_spelledFields (fields : List (String × SchemaNode)) :
    (spelledFields fields).map (·.1) = fields.map (·.1) := by
  induction fields with
  | nil => rfl
  | cons f fields ih => rw [spelledFields, List.map_cons, List.map_cons, ih]

theorem hasDistinctItems_texts (ts : List String) : Value.HasDistinctItems (ts.map .string) :=
  Value.hasDistinctItems_of_forall fun v hv => by
    obtain ⟨t, -, rfl⟩ := List.mem_map.1 hv
    trivial

theorem hasDistinctKeys_rule (rule : FieldRule) (name : String) :
    (Value.mapping (keyed (("<fieldname>", .string name) :: rule.spelled))).HasDistinctKeys := by
  refine Value.hasDistinctKeys_keyed (directives_of_rule (rule_spelledBy rule) (.string name)).1 ?_
  cases rule with
  | enumMap table =>
    have htable : (Value.mapping (keyed (table.entries.map fun e => (e.1, .string e.2)))).HasDistinctKeys := by
      refine Value.hasDistinctKeys_keyed ?_ ?_
      · rw [List.map_map]
        exact table.nodup_keys
      · intro d hd
        obtain ⟨t, -, rfl⟩ := List.mem_map.1 hd
        trivial
    simpa [FieldRule.spelled, Value.HasDistinctKeys] using htable
  | _ => simp [FieldRule.spelled, Value.HasDistinctKeys]

mutual

theorem hasDistinctKeys_spelled : (n : SchemaNode) → n.Legal → n.spelled.HasDistinctKeys
  | column _, _ => by
    rw [spelled]
    trivial
  | field name rule, _ => by
    rw [spelled]
    exact hasDistinctKeys_rule rule name
  | entity e fields, hn => by
    have hfields : (Value.mapping (keyed (spelledFields fields))).HasDistinctKeys := by
      refine Value.hasDistinctKeys_keyed ?_ (hasDistinctKeys_spelledFields fields hn.ofField)
      rw [map_fst_spelledFields]
      exact hn.distinct
    have hkey : ∀ v ∈ e.primaryKey.map PrimaryKey.spelled, v.HasDistinctKeys := by
      intro v hv
      obtain ⟨key, -, rfl⟩ := Option.map_eq_some_iff.1 hv
      cases key with
      | single _ => trivial
      | composite paths => exact hasDistinctItems_texts paths
    have hfile : ∀ v ∈ e.filenameColumn.map Value.string, v.HasDistinctKeys := by
      intro v hv
      obtain ⟨column, -, rfl⟩ := Option.map_eq_some_iff.1 hv
      trivial
    rw [spelled]
    refine Value.hasDistinctKeys_keyed (nodup_directives ..) ?_
    refine List.forall_mem_cons.2 ⟨trivial, List.forall_mem_cons.2 ⟨hfields, List.forall_mem_append.2 ⟨?_, ?_⟩⟩⟩
    · simpa using hkey
    · simpa using hfile
  | alternatives nodes, hn => by
    rw [spelled]
    exact hasDistinctItems_spelledEach nodes hn.alternative
  | invalid description, hn => absurd hn Legal.not_invalid

theorem hasDistinctItems_spelledEach : (ns : List SchemaNode) → (∀ n ∈ ns, n.Legal) →
    Value.HasDistinctItems (spelledEach ns)
  | [], _ => by
    rw [spelledEach]
    trivial
  | n :: ns, hns => by
    obtain ⟨hn, hns⟩ := List.forall_mem_cons.1 hns
    rw [spelledEach]
    exact ⟨hasDistinctKeys_spelled n hn, hasDistinctItems_spelledEach ns hns⟩

theorem hasDistinctKeys_spelledFields : (fields : List (String × SchemaNode)) → (∀ f ∈ fields, f.2.Legal) →
    ∀ d ∈ spelledFields fields, d.2.HasDistinctKeys
  | [], _ => by
    rw [spelledFields]
    exact List.forall_mem_nil _
  | (path, n) :: fields, hfields => by
    obtain ⟨hn, hfields⟩ := List.forall_mem_cons.1 hfields
    rw [spelledFields]
    exact List.forall_mem_cons.2 ⟨hasDistinctKeys_spelled n hn, hasDistinctKeys_spelledFields fields hfields⟩

end

theorem exists_of_forall₂ {α β : Type} {R : α → β → Prop} {as : List α} {bs : List β} (h : List.Forall₂ R as bs) :
    ∀ b ∈ bs, ∃ a ∈ as, R a b := by
  induction h with
  | nil => exact List.forall_mem_nil _
  | cons hab _ ih =>
    refine List.forall_mem_cons.2 ⟨⟨_, List.mem_cons_self, hab⟩, fun b hb => ?_⟩
    obtain ⟨a, ha, hab⟩ := ih b hb
    exact ⟨a, List.mem_cons_of_mem _ ha, hab⟩

theorem primaryKey?_ne_composite_nil {es : List (Value × Value)} {key? : Option PrimaryKey}
    (h : primaryKey? es = some key?) : key? ≠ some (.composite []) := by
  rw [primaryKey?] at h
  split at h
  · cases h
    simp
  · cases h
    simp
  · next v vs _ =>
    obtain ⟨texts, htexts, rfl⟩ := Option.map_eq_some_iff.1 h
    cases Value.mapM_eq_some_iff.1 htexts
    simp
  · cases h

/-- What a mapping is read as: an entity with the fields in it, a field, or an invalid node. -/
theorem ofValue_mapping (es : List (Value × Value)) :
    entity? es (fieldsIn es) = some (ofValue (.mapping es)) ∨ field? es = some (ofValue (.mapping es)) ∨
      ofValue (.mapping es) = invalid (Value.mapping es).toYaml := by
  rw [ofValue]
  cases hasKey "<entity>" es with
  | true =>
    cases entity? es (fieldsIn es) with
    | some n => exact .inl rfl
    | none => exact .inr (.inr rfl)
  | false =>
    cases hasKey "<fieldname>" es with
    | true =>
      cases field? es with
      | some n => exact .inr (.inl rfl)
      | none => exact .inr (.inr rfl)
    | false => exact .inr (.inr rfl)

theorem shaped_entity {es : List (Value × Value)} {nodes : List (Value × SchemaNode)} {n : SchemaNode}
    (h : entity? es nodes = some n) (hnodes : ∀ k ∈ nodes, ∀ m ∈ k.2.parts, m.Shaped) : ∀ m ∈ n.parts, m.Shaped := by
  obtain ⟨-, hne, e, fields, rfl, -, htable, hfields, hkey, -⟩ := entity?_eq_some_iff.1 h
  have hfield : ∀ f ∈ fields, IsPath f.1 ∧ ∃ k ∈ nodes, k.2 = f.2 := by
    intro f hf
    obtain ⟨k, hk, -, hnode, hpath⟩ := exists_of_forall₂ hfields f hf
    exact ⟨hpath, k, hk, hnode⟩
  intro m hm
  rcases List.mem_cons.1 hm with rfl | hm
  · refine ⟨htable, fun hnil => ?_, fun f hf => (hfield f hf).1, primaryKey?_ne_composite_nil hkey⟩
    rw [hnil] at hfields
    exact hne (List.forall₂_nil_right_iff.1 hfields)
  · obtain ⟨f, hf, hm⟩ := mem_fieldParts.1 hm
    obtain ⟨-, k, hk, hnode⟩ := hfield f hf
    exact hnodes k hk m (hnode ▸ hm)

theorem shaped_field {es : List (Value × Value)} {n : SchemaNode} (h : field? es = some n) :
    ∀ m ∈ n.parts, m.Shaped := by
  obtain ⟨-, own, rule, rfl, -, hne, -⟩ := field?_eq_some_iff.1 h
  intro m hm
  rw [List.mem_singleton.1 hm]
  exact hne

theorem shaped_invalid (description : String) : ∀ m ∈ (invalid description).parts, m.Shaped := by
  intro m hm
  rw [List.mem_singleton.1 hm]
  trivial

mutual

/-- Whatever a value is read as, the nodes in it have names and paths as they should be. -/
theorem shaped_ofValue : (v : Value) → ∀ m ∈ (ofValue v).parts, m.Shaped
  | .string name, m, hm => by
    rw [ofValue] at hm
    rw [List.mem_singleton.1 hm]
    trivial
  | .sequence vs, m, hm => by
    rw [ofValue, parts] at hm
    rcases List.mem_cons.1 hm with rfl | hm
    · trivial
    · exact shaped_ofValues vs m hm
  | .mapping es, m, hm => by
    rcases ofValue_mapping es with hentity | hfield | hinvalid
    · exact shaped_entity hentity (shaped_fieldsIn es) m hm
    · exact shaped_field hfield m hm
    · exact shaped_invalid _ m (hinvalid ▸ hm)
  | .null, m, hm | .bool _, m, hm | .number _, m, hm | .tagged .., m, hm => shaped_invalid _ m hm

theorem shaped_ofValues : (vs : List Value) → ∀ m ∈ partsOf (ofValues vs), m.Shaped
  | [], m, hm => by
    rw [ofValues, partsOf] at hm
    cases hm
  | v :: vs, m, hm => by
    rw [ofValues, partsOf] at hm
    rcases List.mem_append.1 hm with hm | hm
    · exact shaped_ofValue v m hm
    · exact shaped_ofValues vs m hm

theorem shaped_fieldsIn : (es : List (Value × Value)) → ∀ k ∈ fieldsIn es, ∀ m ∈ k.2.parts, m.Shaped
  | [], k, hk => by
    rw [fieldsIn] at hk
    cases hk
  | (key, v) :: es, k, hk => by
    cases v with
    | mapping fields =>
      rw [fieldsIn] at hk
      split at hk
      · exact shaped_ofEntries fields k hk
      · exact shaped_fieldsIn es k hk
    | _ =>
      rw [fieldsIn] at hk
      · split at hk
        · cases hk
        · exact shaped_fieldsIn es k hk
      · nofun

theorem shaped_ofEntries : (es : List (Value × Value)) → ∀ k ∈ ofEntries es, ∀ m ∈ k.2.parts, m.Shaped
  | [], k, hk => by
    rw [ofEntries] at hk
    cases hk
  | (key, v) :: es, k, hk => by
    rw [ofEntries] at hk
    rcases List.mem_cons.1 hk with rfl | hk
    · exact shaped_ofValue v
    · exact shaped_ofEntries es k hk

end

/-- Loading inverts spelling: a node that can be spelled has a spelling whose mappings have no key twice, and
from each of its spellings it is read again. Conversely, whatever value is read, the names of its entities and
fields and the paths of its fields are not empty, no path is taken for a directive, entities have fields and
composite keys have parts. -/
theorem loading_inverts_spelling :
    (∀ n : SchemaNode, n.Legal → n.spelled.HasDistinctKeys ∧ n.SpelledBy n.spelled ∧
      ∀ v, n.SpelledBy v → ofValue v = n) ∧
    ∀ v : Value, ∀ m ∈ (ofValue v).parts, m.Shaped :=
  ⟨fun n hn => ⟨hasDistinctKeys_spelled n hn, spelledBy_spelled n hn, ofValue_of_spelledBy n hn⟩, shaped_ofValue⟩

def albumNode : SchemaNode :=
  .entity ⟨"album", some (.composite ["name", "released"]), some "1"⟩
    [("name", .column "name"),
      ("format", .alternatives [.field "format" (.enumMap (.ofList [("CD", "compact disc"), ("LP", "vinyl")])),
        .field "kind" (.enumType "album")]),
      ("track", .entity ⟨"track", none, none⟩ [(".", .field "title" (.joiner " "))])]

/-- A spelling of the album with the directives in other orders, and a number for a name. -/
theorem loading_inverts_spelling_album :
    let formats : Value := .mapping [(.string "LP", .string "vinyl"), (.string "CD", .string "compact disc")]
    let title : Value := .mapping [(.string "<joiner>", .string " "), (.string "<fieldname>", .string "title")]
    let track : Value :=
      .mapping [(.string "<fields>", .mapping [(.string ".", title)]), (.string "<entity>", .string "track")]
    let fields : List (Value × Value) := [(.string "name", .string "name"),
      (.string "format", .sequence [
        .mapping [(.string "<fieldname>", .string "format"), (.string "<enum_map>", formats)],
        .mapping [(.string "<fieldname>", .string "kind"), (.string "<enum_type>", .string "album")]]),
      (.string "track", track)]
    let v : Value := .mapping [(.string "<primary_key>", .sequence [.string "name", .string "released"]),
      (.string "<filename_field>", .number (.integer 1)), (.string "<entity>", .string "album"),
      (.string "<fields>", .mapping fields)]
    albumNode.Legal ∧ albumNode.SpelledBy v ∧ ofValue v = albumNode ∧ ofValue albumNode.spelled = albumNode ∧
      ∀ m ∈ (ofValue v).parts, m.Shaped := by
  intro formats title track fields v
  have hlegal : albumNode.Legal := by decide
  have hformat : FieldRule.SpelledBy [("<enum_map>", formats)]
      (.enumMap (.ofList [("CD", "compact disc"), ("LP", "vinyl")])) :=
    ⟨_, [("LP", "vinyl"), ("CD", "compact disc")], rfl, by decide, .cons ⟨rfl, rfl⟩ (.cons ⟨rfl, rfl⟩ .nil)⟩
  have halternatives : SpelledBy (.sequence [
      .mapping [(.string "<fieldname>", .string "format"), (.string "<enum_map>", formats)],
      .mapping [(.string "<fieldname>", .string "kind"), (.string "<enum_type>", .string "album")]])
      (.alternatives [.field "format" (.enumMap (.ofList [("CD", "compact disc"), ("LP", "vinyl")])),
        .field "kind" (.enumType "album")]) :=
    ⟨_, rfl, _, _, rfl,
      ⟨[("<fieldname>", .string "format"), ("<enum_map>", formats)], _, _, rfl, .refl _, rfl, hformat⟩, _, _, rfl,
      ⟨[("<fieldname>", .string "kind"), ("<enum_type>", .string "album")], _, _, rfl, .refl _, rfl, _, rfl, rfl⟩,
      rfl⟩
  have htitle : SpelledBy title (.field "title" (.joiner " ")) :=
    ⟨[("<joiner>", .string " "), ("<fieldname>", .string "title")], _, _, rfl, .swap .., rfl, _, rfl, rfl⟩
  have htrack : SpelledBy track (.entity ⟨"track", none, none⟩ [(".", .field "title" (.joiner " "))]) :=
    ⟨[("<fields>", .mapping [(.string ".", title)]), ("<entity>", .string "track")], _, _, none, none, rfl,
      .swap .., rfl,
      ⟨_, _, _, rfl, rfl, htitle, rfl⟩, .none, .none⟩
  have hspelled : albumNode.SpelledBy v :=
    ⟨[("<primary_key>", .sequence [.string "name", .string "released"]), ("<filename_field>", .number (.integer 1)),
        ("<entity>", .string "album"), ("<fields>", .mapping fields)], .string "album", fields, some _, some _, rfl,
      @List.perm_append_comm _ [_, _] [_, _], rfl,
      ⟨_, _, _, rfl, rfl, rfl, _, _, _, rfl, rfl, halternatives, _, _, _, rfl, rfl, htrack, rfl⟩,
      .some ⟨_, rfl, .cons rfl (.cons rfl .nil)⟩, .some rfl⟩
  obtain ⟨hreads, hshaped⟩ := loading_inverts_spelling
  obtain ⟨-, hown, hread⟩ := hreads albumNode hlegal
  exact ⟨hlegal, hspelled, hread v hspelled, hread _ hown, hshaped v⟩

/-- Different keys may have one text. -/
example :
    let v : Value := .mapping [(.string "<entity>", .string "a"),
      (.string "<fields>", .mapping [(.number (.integer 1), .string "b"), (.string "1", .string "c")])]
    v.HasDistinctKeys ∧ ofValue v = .entity ⟨"a", none, none⟩ [("1", .column "b"), ("1", .column "c")] :=
  ⟨by simp [Value.HasDistinctKeys, Value.HasDistinctEntries, Value.distinctKeys?, Value.distinctKeys?.go,
    Value.same], rfl⟩

end Tabulate.SchemaNode
