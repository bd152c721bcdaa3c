import Tabulate.Proofs.Dictionary
import Tabulate.Schema.Loader
import Mathlib.Data.List.Forall2
import Mathlib.Data.List.Nodup

/-! How schema nodes are spelled in configurations. A text may be written as any scalar with that text, and
directives and the entries of a table of texts in any order; fields stand in their order. What is spelled so
is read as the node again, and whatever is read has passed the checks on names and paths. -/
namespace Tabulate

namespace Value

def keyed (ds : List (String × Value)) : List (Value × Value) := ds.map fun d => (.string d.1, d.2)

def Writes (v : Value) (text : String) : Prop := v.scalarText? = some text

mutual

/-- Whether no mapping in a value, at any depth, has a key twice. -/
def HasDistinctKeys : Value → Prop
  | sequence vs => HasDistinctItems vs
  | mapping es => distinctKeys? es = some es ∧ HasDistinctEntries es
  | tagged _ v => v.HasDistinctKeys
  | _ => True
termination_by structural v => v

def HasDistinctItems : List Value → Prop
  | [] => True
  | v :: vs => v.HasDistinctKeys ∧ HasDistinctItems vs
termination_by structural vs => vs

def HasDistinctEntries : List (Value × Value) → Prop
  | [] => True
  | (k, v) :: es => k.HasDistinctKeys ∧ v.HasDistinctKeys ∧ HasDistinctEntries es
termination_by structural es => es

end

section Keyed
variable {ds es : List (String × Value)} {key : String}

theorem keyed_cons (d : String × Value) (ds : List (String × Value)) :
    keyed (d :: ds) = (.string d.1, d.2) :: keyed ds := rfl

theorem get?_keyed (ds : List (String × Value)) (key : String) : get? (keyed ds) key = ds.lookup key := by
  induction ds with
  | nil => rfl
  | cons d ds ih =>
    rw [get?] at ih ⊢
    rw [Dictionary.lookup_cons, keyed_cons, List.find?_cons]
    by_cases h : d.1 = key
    · simp [h]
    · simpa [h, Ne.symm h] using ih

theorem hasKey_keyed (ds : List (String × Value)) (key : String) :
    SchemaNode.hasKey key (keyed ds) = (ds.lookup key).isSome := by
  induction ds with
  | nil => rfl
  | cons d ds ih =>
    rw [SchemaNode.hasKey] at ih ⊢
    rw [Dictionary.lookup_cons, keyed_cons, List.any_cons, ih]
    by_cases h : d.1 = key
    · simp [isKey, h]
    · simp [isKey, h, Ne.symm h]

theorem onlyKeys_keyed {allowed : List String} (h : ∀ d ∈ ds, d.1 ∈ allowed) :
    SchemaNode.onlyKeys allowed (keyed ds) = true := by
  simp only [SchemaNode.onlyKeys, keyed, List.all_map, List.all_eq_true, Function.comp_apply, untagged, isKey,
    List.any_eq_true, decide_eq_true_eq]
  exact fun d hd => ⟨d.1, h d hd, rfl⟩

/-- Of different keys each is found wherever it stands. -/
theorem lookup_perm {α : Type} {ds es : List (String × α)} (h : ds.Perm es) (hn : (es.map (·.1)).Nodup)
    (key : String) :
    ds.lookup key = es.lookup key := by
  induction h with
  | nil => rfl
  | cons d _ ih => rw [Dictionary.lookup_cons, Dictionary.lookup_cons, ih (List.nodup_cons.1 hn).2]
  | swap d e ds =>
    have hne : d.1 ≠ e.1 := fun he => (List.nodup_cons.1 hn).1 (by simp [he])
    simp only [Dictionary.lookup_cons]
    by_cases hd : key = d.1
    · simp [hd, hne]
    · simp [hd]
  | trans _ h₂ ih₁ ih₂ => exact (ih₁ ((h₂.map _).nodup_iff.2 hn)).trans (ih₂ hn)

theorem distinctKeys?_keyed (h : (ds.map (·.1)).Nodup) : distinctKeys? (keyed ds) = some (keyed ds) := by
  have hgo : distinctKeys?.go (keyed ds) = true := by
    induction ds with
    | nil => rfl
    | cons d ds ih =>
      obtain ⟨hd, hn⟩ := List.nodup_cons.1 h
      have hnone : (keyed ds).any (fun o => same (.string d.1) o.1) = false := by
        simp only [keyed, List.any_map, List.any_eq_false, Function.comp_apply, same, decide_eq_true_eq]
        exact fun e he (heq : d.1 = e.1) => hd (List.mem_map.2 ⟨e, he, heq.symm⟩)
      rw [keyed_cons, distinctKeys?.go, hnone, ih hn]
      rfl
  rw [distinctKeys?, if_pos hgo]

theorem hasDistinctEntries_keyed (h : ∀ d ∈ ds, d.2.HasDistinctKeys) : HasDistinctEntries (keyed ds) := by
  induction ds with
  | nil => trivial
  | cons d ds ih =>
    obtain ⟨hd, hds⟩ := List.forall_mem_cons.1 h
    exact ⟨trivial, hd, ih hds⟩

theorem hasDistinctKeys_keyed (hn : (ds.map (·.1)).Nodup) (h : ∀ d ∈ ds, d.2.HasDistinctKeys) :
    (mapping (keyed ds)).HasDistinctKeys :=
  ⟨distinctKeys?_keyed hn, hasDistinctEntries_keyed h⟩

theorem hasDistinctItems_of_forall {vs : List Value} (h : ∀ v ∈ vs, v.HasDistinctKeys) : HasDistinctItems vs := by
  induction vs with
  | nil => trivial
  | cons v vs ih =>
    obtain ⟨hv, hvs⟩ := List.forall_mem_cons.1 h
    exact ⟨hv, ih hvs⟩

end Keyed

section Scalars
variable {α β : Type} {f : α → Option β} {as : List α} {bs : List β}

theorem mapM_eq_some_iff : as.mapM f = some bs ↔ List.Forall₂ (fun a b => f a = some b) as bs := by
  induction as generalizing bs with
  | nil => simp [eq_comm]
  | cons a as ih =>
    rw [List.mapM_cons]
    cases bs with
    | nil => cases f a <;> cases as.mapM f <;> simp
    | cons b bs =>
      rw [List.forall₂_cons, ← ih]
      cases f a <;> cases as.mapM f <;> simp

/-- Null is no scalar, with a tag or without. -/
theorem Writes.untagged_ne_null {v : Value} {text : String} (h : v.Writes text) : v.untagged ≠ .null := by
  cases v <;> simp_all [Writes, scalarText?, untagged]

end Scalars

end Value

open Value (keyed Writes)

def PrimaryKey.spelled : PrimaryKey → Value
  | single path => .string path
  | composite paths => .sequence (paths.map .string)

def PrimaryKey.SpelledBy (v : Value) : PrimaryKey → Prop
  | single path => v = .string path
  | composite paths => ∃ vs, v = .sequence vs ∧ List.Forall₂ Writes vs paths

namespace FieldRule

def spelled : FieldRule → List (String × Value)
  | plain => []
  | joiner separator => [("<joiner>", .string separator)]
  | enumMap table => [("<enum_map>", .mapping (keyed (table.entries.map fun e => (e.1, .string e.2))))]
  | enumType constant => [("<enum_type>", .string constant)]

def SpelledBy (ds : List (String × Value)) : FieldRule → Prop
  | plain => ds = []
  | joiner separator => ∃ v, ds = [("<joiner>", v)] ∧ v.Writes separator
  | enumMap table => ∃ es entries, ds = [("<enum_map>", .mapping es)] ∧ entries.Perm table.entries ∧
      List.Forall₂ (fun e t => e.1.Writes t.1 ∧ e.2.Writes t.2) es entries
  | enumType constant => ∃ v, ds = [("<enum_type>", v)] ∧ v.Writes constant

end FieldRule

def Entity.directives (name : Value) (fields : List (Value × Value)) (key? file? : Option Value) :
    List (String × Value) :=
  ("<entity>", name) :: ("<fields>", .mapping fields) ::
    ((key?.map ("<primary_key>", ·)).toList ++ (file?.map ("<filename_field>", ·)).toList)

namespace SchemaNode

mutual

def spelled : SchemaNode → Value
  | column name => .string name
  | field name rule => .mapping (keyed (("<fieldname>", .string name) :: rule.spelled))
  | entity e fields => .mapping (keyed (Entity.directives (.string e.table) (keyed (spelledFields fields))
      (e.primaryKey.map PrimaryKey.spelled) (e.filenameColumn.map .string)))
  | alternatives nodes => .sequence (spelledEach nodes)
  | invalid _ => .null
termination_by structural n => n

def spelledEach : List SchemaNode → List Value
  | [] => []
  | n :: ns => n.spelled :: spelledEach ns
termination_by structural ns => ns

def spelledFields : List (String × SchemaNode) → List (String × Value)
  | [] => []
  | (path, n) :: fs => (path, n.spelled) :: spelledFields fs
termination_by structural fs => fs

end

mutual

/-- Whether a value spells a node. -/
def SpelledBy (v : Value) : SchemaNode → Prop
  | column name => v = .string name
  | field name rule => ∃ ds w rs, v = .mapping (keyed ds) ∧ ds.Perm (("<fieldname>", w) :: rs) ∧
      w.Writes name ∧ rule.SpelledBy rs
  | entity e fields => ∃ ds w fs key? file?, v = .mapping (keyed ds) ∧ ds.Perm (Entity.directives w fs key? file?) ∧
      w.Writes e.table ∧ EntriesSpelledBy fs fields ∧
      Option.Rel PrimaryKey.SpelledBy key? e.primaryKey ∧ Option.Rel Writes file? e.filenameColumn
  | alternatives nodes => ∃ vs, v = .sequence vs ∧ EachSpelledBy vs nodes
  | invalid _ => False
termination_by structural n => n

def EachSpelledBy (vs : List Value) : List SchemaNode → Prop
  | [] => vs = []
  | n :: ns => ∃ w ws, vs = w :: ws ∧ n.SpelledBy w ∧ EachSpelledBy ws ns
termination_by structural ns => ns

def EntriesSpelledBy (es : List (Value × Value)) : List (String × SchemaNode) → Prop
  | [] => es = []
  | (path, n) :: fs => ∃ k w ws, es = (k, w) :: ws ∧ k.Writes path ∧ n.SpelledBy w ∧ EntriesSpelledBy ws fs
termination_by structural fs => fs

end

mutual

def parts : SchemaNode → List SchemaNode
  | entity e fields => entity e fields :: fieldParts fields
  | alternatives nodes => alternatives nodes :: partsOf nodes
  | n => [n]
termination_by structural n => n

def partsOf : List SchemaNode → List SchemaNode
  | [] => []
  | n :: ns => n.parts ++ partsOf ns
termination_by structural ns => ns

def fieldParts : List (String × SchemaNode) → List SchemaNode
  | [] => []
  | (_, n) :: fs => n.parts ++ fieldParts fs
termination_by structural fs => fs

end

/-- A path is not empty and is not taken for a directive. -/
abbrev IsPath (path : String) : Prop := path ≠ "" ∧ startsWithAngle path = false

def Shaped : SchemaNode → Prop
  | field name _ => name ≠ ""
  | entity e fields => e.table ≠ "" ∧ fields ≠ [] ∧ (∀ f ∈ fields, IsPath f.1) ∧ e.primaryKey ≠ some (.composite [])
  | _ => True

def HasDistinctPaths : SchemaNode → Prop
  | entity _ fields => (fields.map (·.1)).Nodup
  | _ => True

instance : DecidablePred Shaped
  | field .. => inferInstanceAs (Decidable (_ ≠ _))
  | entity .. => inferInstanceAs (Decidable (_ ∧ _ ∧ _ ∧ _))
  | column _ | alternatives _ | invalid _ => isTrue trivial

instance : DecidablePred HasDistinctPaths
  | entity .. => inferInstanceAs (Decidable (List.Nodup _))
  | column _ | field .. | alternatives _ | invalid _ => isTrue trivial

/-- A node that a configuration can spell. -/
def Legal (n : SchemaNode) : Prop := ∀ m ∈ n.parts, m.Shaped ∧ m.isInvalid = false ∧ m.HasDistinctPaths

instance : DecidablePred Legal := fun n => inferInstanceAs (Decidable (∀ m ∈ n.parts, _))

theorem mem_parts_self (n : SchemaNode) : n ∈ n.parts := by
  cases n <;> simp [parts]

theorem mem_partsOf {m : SchemaNode} {ns : List SchemaNode} : m ∈ partsOf ns ↔ ∃ n ∈ ns, m ∈ n.parts := by
  induction ns with
  | nil => simp [partsOf]
  | cons n ns ih => simp [partsOf, ih]

theorem mem_fieldParts {m : SchemaNode} {fs : List (String × SchemaNode)} :
    m ∈ fieldParts fs ↔ ∃ f ∈ fs, m ∈ f.2.parts := by
  induction fs with
  | nil => simp [fieldParts]
  | cons f fs ih => simp [fieldParts, ih]

namespace Legal
variable {n : SchemaNode} {e : Entity} {fields : List (String × SchemaNode)} {nodes : List SchemaNode}

theorem shaped (h : n.Legal) : n.Shaped := (h n n.mem_parts_self).1

theorem not_invalid {description : String} : ¬(invalid description).Legal := by
  intro h
  cases (h _ (mem_parts_self _)).2.1

theorem distinct (h : (entity e fields).Legal) : (fields.map (·.1)).Nodup := (h _ (mem_parts_self _)).2.2

theorem alternative (h : (alternatives nodes).Legal) : ∀ n ∈ nodes, n.Legal := fun n hn m hm =>
  h m (List.mem_cons_of_mem _ (mem_partsOf.2 ⟨n, hn, hm⟩))

theorem ofField (h : (entity e fields).Legal) : ∀ f ∈ fields, f.2.Legal := fun f hf m hm =>
  h m (List.mem_cons_of_mem _ (mem_fieldParts.2 ⟨f, hf, hm⟩))

end Legal

section Reading
variable {ds fs : List (String × Value)} {es : List (Value × Value)} {name : Value}

theorem nodup_directives (w : Value) (fields : List (Value × Value)) (key? file? : Option Value) :
    ((Entity.directives w fields key? file?).map (·.1)).Nodup := by
  cases key? <;> cases file? <;> simp [Entity.directives]

theorem allowed_directives (w : Value) (fields : List (Value × Value)) (key? file? : Option Value) :
    ∀ d ∈ Entity.directives w fields key? file?,
      d.1 ∈ ["<entity>", "<fields>", "<primary_key>", "<filename_field>"] := by
  cases key? <;> cases file? <;> simp [Entity.directives]

theorem lookup_directives (w : Value) (fields : List (Value × Value)) (key? file? : Option Value) :
    let ds := Entity.directives w fields key? file?
    ds.lookup "<entity>" = some w ∧ ds.lookup "<fields>" = some (.mapping fields) ∧
      ds.lookup "<primary_key>" = key? ∧ ds.lookup "<filename_field>" = file? := by
  cases key? <;> cases file? <;> simp [Entity.directives, Dictionary.lookup_cons]

theorem fieldsIn_keyed {fields : List (Value × Value)} (h : ds.lookup "<fields>" = some (.mapping fields)) :
    fieldsIn (keyed ds) = ofEntries fields := by
  induction ds with
  | nil => cases h
  | cons d ds ih =>
    obtain ⟨k, v⟩ := d
    rw [Dictionary.lookup_cons] at h
    by_cases hk : k = "<fields>"
    · subst hk
      cases h
      rfl
    · rw [if_neg (Ne.symm hk)] at h
      rw [Value.keyed_cons, ← ih h]
      cases v <;> simp [fieldsIn, Value.isKey, hk]

theorem nonempty?_eq_some {s? : Option String} {s : String} : nonempty? s? = some s ↔ s? = some s ∧ s ≠ "" := by
  rw [nonempty?, Option.filter_eq_some_iff]
  simp

theorem primaryKey?_keyed {key? : Option Value} {e : Entity} (hlookup : ds.lookup "<primary_key>" = key?)
    (h : Option.Rel PrimaryKey.SpelledBy key? e.primaryKey) (hne : e.primaryKey ≠ some (.composite [])) :
    primaryKey? (keyed ds) = some e.primaryKey := by
  rw [primaryKey?, Value.get?_keyed, hlookup]
  generalize e.primaryKey = primaryKey at h hne
  cases h with
  | none => rfl
  | @some v key hkey =>
    cases key with
    | single path =>
      cases hkey
      rfl
    | composite paths =>
      obtain ⟨vs, rfl, hvs⟩ := hkey
      have htexts : vs.mapM Value.scalarText? = some paths := Value.mapM_eq_some_iff.2 hvs
      cases hvs with
      | nil => exact absurd rfl hne
      | cons _ _ =>
        dsimp only
        rw [htexts]
        rfl

theorem filenameColumn?_keyed {file? column? : Option _} (hlookup : ds.lookup "<filename_field>" = file?)
    (h : Option.Rel Writes file? column?) : filenameColumn? (keyed ds) = some column? := by
  rw [filenameColumn?, Value.get?_keyed, hlookup]
  cases h with
  | none => rfl
  | some hv =>
    dsimp only
    rw [hv]
    rfl

def IsField (k : Value × SchemaNode) (f : String × SchemaNode) : Prop := k.1.Writes f.1 ∧ k.2 = f.2 ∧ IsPath f.1

theorem fields_eq_some_iff {nodes : List (Value × SchemaNode)} {fields : List (String × SchemaNode)} :
    nodes.mapM (fun k => ((nonempty? k.1.scalarText?).filter fun p => !startsWithAngle p).bind fun path =>
      some (path, k.2)) = some fields ↔ List.Forall₂ IsField nodes fields := by
  rw [Value.mapM_eq_some_iff]
  refine Iff.of_eq (congrArg (fun R => List.Forall₂ R nodes fields) ?_)
  funext k ⟨path, own⟩
  simp only [Option.bind_eq_some_iff, Option.filter_eq_some_iff, nonempty?_eq_some, Option.some.injEq,
    Prod.mk.injEq, Bool.not_eq_true', eq_iff_iff]
  constructor
  · rintro ⟨_, ⟨⟨hkey, hne⟩, hangle⟩, rfl, hnode⟩
    exact ⟨hkey, hnode, hne, hangle⟩
  · rintro ⟨hkey, hnode, hne, hangle⟩
    exact ⟨path, ⟨⟨hkey, hne⟩, hangle⟩, rfl, hnode⟩

theorem entity?_eq_some_iff {nodes : List (Value × SchemaNode)} {n : SchemaNode} :
    entity? es nodes = some n ↔
      onlyKeys ["<entity>", "<fields>", "<primary_key>", "<filename_field>"] es = true ∧ nodes ≠ [] ∧
      ∃ e fields, n = entity e fields ∧ (∃ v, Value.get? es "<entity>" = some v ∧ v.Writes e.table) ∧ e.table ≠ "" ∧
        List.Forall₂ IsField nodes fields ∧ primaryKey? es = some e.primaryKey ∧
        filenameColumn? es = some e.filenameColumn := by
  cases honly : onlyKeys ["<entity>", "<fields>", "<primary_key>", "<filename_field>"] es with
  | false => simp [entity?, honly]
  | true =>
    cases nodes with
    | nil => simp [entity?, honly]
    | cons k nodes =>
      rw [entity?, honly]
      simp only [Bool.not_true, Bool.false_eq_true, if_false, Option.bind_eq_bind, List.isEmpty_cons,
        Option.bind_eq_some_iff, nonempty?_eq_some, fields_eq_some_iff, Option.some.injEq]
      constructor
      · rintro ⟨table, ⟨hname, htable⟩, fields, hfields, key, hkey, file, hfile, rfl⟩
        exact ⟨trivial, nofun, ⟨table, key, file⟩, fields, rfl, hname, htable, hfields, hkey, hfile⟩
      · rintro ⟨-, -, ⟨table, key, file⟩, fields, rfl, hname, htable, hfields, hkey, hfile⟩
        exact ⟨table, ⟨hname, htable⟩, fields, hfields, key, hkey, file, hfile, rfl⟩

theorem field?_eq_some_iff {n : SchemaNode} :
    field? es = some n ↔ onlyKeys ["<fieldname>", "<joiner>", "<enum_map>", "<enum_type>"] es = true ∧
      ∃ own rule, n = field own rule ∧ (∃ v, Value.get? es "<fieldname>" = some v ∧ v.Writes own) ∧ own ≠ "" ∧
        rule? es = some rule := by
  cases honly : onlyKeys ["<fieldname>", "<joiner>", "<enum_map>", "<enum_type>"] es with
  | false => simp [field?, honly]
  | true =>
    rw [field?, honly]
    simp only [Bool.not_true, Bool.false_eq_true, if_false, Option.bind_eq_bind, Option.bind_eq_some_iff,
      nonempty?_eq_some, Option.some.injEq]
    constructor
    · rintro ⟨own, ⟨hname, hne⟩, rule, hrule, rfl⟩
      exact ⟨trivial, own, rule, rfl, hname, hne, hrule⟩
    · rintro ⟨-, own, rule, rfl, hname, hne, hrule⟩
      exact ⟨own, ⟨hname, hne⟩, rule, hrule, rfl⟩

theorem enumTable?_cons {k v : Value} (h : v.untagged ≠ .null) : enumTable? ((k, v) :: es) =
    k.scalarText?.bind fun key => v.scalarText?.bind fun text => (enumTable? es).map ((key, text) :: ·) := by
  rw [enumTable?]
  split
  · next hnull => exact absurd hnull h
  · cases k.scalarText? <;> cases v.scalarText? <;> cases enumTable? es <;> rfl

theorem enumTable?_of_writes {ts : List (String × String)}
    (h : List.Forall₂ (fun e t => e.1.Writes t.1 ∧ e.2.Writes t.2) es ts) : enumTable? es = some ts := by
  induction h with
  | nil => rfl
  | cons ht _ ih =>
    obtain ⟨hk, hv⟩ := ht
    rw [enumTable?_cons hv.untagged_ne_null, hk, hv, ih]
    rfl

theorem directives_of_rule {rs : List (String × Value)} {rule : FieldRule} (h : rule.SpelledBy rs) (w : Value) :
    let ds := ("<fieldname>", w) :: rs
    (ds.map (·.1)).Nodup ∧ (∀ d ∈ ds, d.1 ∈ ["<fieldname>", "<joiner>", "<enum_map>", "<enum_type>"]) ∧
      ds.lookup "<fieldname>" = some w ∧ ds.lookup "<entity>" = none := by
  cases rule with
  | plain =>
    cases h
    simp [Dictionary.lookup_cons]
  | joiner separator =>
    obtain ⟨v, rfl, -⟩ := h
    simp [Dictionary.lookup_cons]
  | enumMap table =>
    obtain ⟨es, entries, rfl, -⟩ := h
    simp [Dictionary.lookup_cons]
  | enumType constant =>
    obtain ⟨v, rfl, -⟩ := h
    simp [Dictionary.lookup_cons]

theorem rule?_keyed {w : Value} {rs : List (String × Value)} {rule : FieldRule}
    (hlookup : ∀ key, ds.lookup key = List.lookup key (("<fieldname>", w) :: rs)) (h : rule.SpelledBy rs) :
    rule? (keyed ds) = some rule := by
  rw [rule?]
  simp only [Value.get?_keyed, hlookup, Dictionary.lookup_cons]
  cases rule with
  | plain =>
    cases h
    rfl
  | joiner separator =>
    obtain ⟨v, rfl, hv⟩ := h
    simp [Dictionary.lookup_cons, show v.scalarText? = some separator from hv]
  | enumMap table =>
    obtain ⟨es, entries, rfl, hperm, hes⟩ := h
    have htable : Dictionary.ofList entries = table := Dictionary.ext_get? fun key => by
      have hn : (entries.map (·.1)).Nodup := (hperm.map _).nodup_iff.2 table.nodup_keys
      rw [Dictionary.get?_ofList hn, Value.lookup_perm hperm table.nodup_keys]
      rfl
    simp [Dictionary.lookup_cons, enumTable?_of_writes hes, htable]
  | enumType constant =>
    obtain ⟨v, rfl, hv⟩ := h
    simp [Dictionary.lookup_cons, show v.scalarText? = some constant from hv]

/-- A value whose directives are those of an entity. -/
theorem ofValue_entity {es : List (Value × Value)} {key? file? : Option Value} {e : Entity}
    {fields : List (String × SchemaNode)} (hds : ds.Perm (Entity.directives name es key? file?))
    (hname : name.Writes e.table) (hfields : List.Forall₂ IsField (ofEntries es) fields)
    (hkey : Option.Rel PrimaryKey.SpelledBy key? e.primaryKey) (hfile : Option.Rel Writes file? e.filenameColumn)
    (hshaped : (entity e fields).Shaped) : ofValue (.mapping (keyed ds)) = entity e fields := by
  obtain ⟨htable, hne, -, hparts⟩ := hshaped
  have hlookup := Value.lookup_perm hds (nodup_directives name es key? file?)
  obtain ⟨hn, hf, hk, hc⟩ := lookup_directives name es key? file?
  have hhas : hasKey "<entity>" (keyed ds) = true := by rw [Value.hasKey_keyed, hlookup, hn, Option.isSome_some]
  have hnodes : ofEntries es ≠ [] := by
    intro hnil
    rw [hnil] at hfields
    exact hne (List.forall₂_nil_left_iff.1 hfields)
  have hentity : entity? (keyed ds) (ofEntries es) = some (entity e fields) := by
    refine entity?_eq_some_iff.2 ⟨Value.onlyKeys_keyed fun d hd => ?_, hnodes, e, fields, rfl,
      ⟨name, ?_, hname⟩, htable, hfields, primaryKey?_keyed ((hlookup _).trans hk) hkey hparts,
      filenameColumn?_keyed ((hlookup _).trans hc) hfile⟩
    · exact allowed_directives name es key? file? d (hds.subset hd)
    · rw [Value.get?_keyed, hlookup, hn]
  rw [ofValue, if_pos hhas, fieldsIn_keyed ((hlookup _).trans hf), hentity]
  rfl

theorem ofValue_field {rs : List (String × Value)} {own : String} {rule : FieldRule}
    (hds : ds.Perm (("<fieldname>", name) :: rs)) (hname : name.Writes own) (hrule : rule.SpelledBy rs)
    (hne : own ≠ "") :
    ofValue (.mapping (keyed ds)) = field own rule := by
  obtain ⟨hn, hallowed, hfield, hentity⟩ := directives_of_rule hrule name
  have hlookup := Value.lookup_perm hds hn
  have hno : hasKey "<entity>" (keyed ds) = false := by rw [Value.hasKey_keyed, hlookup, hentity, Option.isSome_none]
  have hhas : hasKey "<fieldname>" (keyed ds) = true := by rw [Value.hasKey_keyed, hlookup, hfield, Option.isSome_some]
  have hread : field? (keyed ds) = some (field own rule) := by
    refine field?_eq_some_iff.2 ⟨Value.onlyKeys_keyed fun d hd => hallowed d (hds.subset hd), own, rule, rfl,
      ⟨name, ?_, hname⟩, hne, rule?_keyed hlookup hrule⟩
    rw [Value.get?_keyed, hlookup, hfield]
  rw [ofValue, if_neg (Bool.eq_false_iff.1 hno), if_pos hhas, hread]
  rfl

end Reading

end SchemaNode

end Tabulate
