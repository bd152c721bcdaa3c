import Tabulate.Json.Reader
import Tabulate.Schema.Basic
import Tabulate.Yaml.Printer

/-! Schemas from configuration values. Keys in angle brackets are directives, all other keys are
paths. A node of no known shape is kept as invalid, so that it does no harm where nothing matches
it. -/
namespace Tabulate

namespace Value

def scalarText? : Value → Option String
  | .string s => some s
  | .number n => some n.text
  | .bool b => some (toString b)
  | _ => none

def isKey (key : String) : Value → Bool
  | .string s => s = key
  | _ => false

end Value

namespace SchemaNode

def startsWithAngle (s : String) : Bool := s.toList.head? = some '<'

def onlyKeys (allowed : List String) (es : List (Value × Value)) : Bool :=
  es.all fun e => allowed.any fun key => e.1.untagged.isKey key

def hasKey (key : String) (es : List (Value × Value)) : Bool := es.any fun e => e.1.isKey key

def nonempty? (s : Option String) : Option String := s.filter fun s => !s.isEmpty

def primaryKey? (es : List (Value × Value)) : Option (Option PrimaryKey) :=
  match Value.get? es "<primary_key>" with
  | none => some none
  | some (.string path) => some (some (.single path))
  | some (.sequence (v :: vs)) => ((v :: vs).mapM Value.scalarText?).map (some <| .composite ·)
  | some _ => none

def filenameColumn? (es : List (Value × Value)) : Option (Option String) :=
  match Value.get? es "<filename_field>" with
  | none => some none
  | some v => v.scalarText?.map some

def entity? (es : List (Value × Value)) (fields : List (Value × SchemaNode)) : Option SchemaNode := do
  if !onlyKeys ["<entity>", "<fields>", "<primary_key>", "<filename_field>"] es then none
  else
    let table ← nonempty? ((Value.get? es "<entity>").bind Value.scalarText?)
    if fields.isEmpty then none
    else
      let fields ← fields.mapM fun (key, node) => do
        let path ← (nonempty? key.scalarText?).filter fun p => !startsWithAngle p
        some (path, node)
      some (.entity ⟨table, ← primaryKey? es, ← filenameColumn? es⟩ fields)

/-- The texts that a table of texts maps to others. What is mapped to null is left out. -/
def enumTable? : List (Value × Value) → Option (List (String × String))
  | [] => some []
  | (k, v) :: es =>
    match v.untagged with
    | .null => enumTable? es
    | _ => do some ((← k.scalarText?, ← v.scalarText?) :: (← enumTable? es))

def rule? (es : List (Value × Value)) : Option FieldRule :=
  match Value.get? es "<joiner>", Value.get? es "<enum_map>", Value.get? es "<enum_type>" with
  | none, none, none => some .plain
  | some v, none, none => v.scalarText?.map .joiner
  | none, some (.mapping table), none => (enumTable? table).map fun t => .enumMap (Dictionary.ofList t)
  | none, none, some v => v.scalarText?.map .enumType
  | _, _, _ => none

def field? (es : List (Value × Value)) : Option SchemaNode := do
  if !onlyKeys ["<fieldname>", "<joiner>", "<enum_map>", "<enum_type>"] es then none
  else
    let name ← nonempty? ((Value.get? es "<fieldname>").bind Value.scalarText?)
    some (.field name (← rule? es))

mutual

def ofValue : Value → SchemaNode
  | .string name => .column name
  | .sequence vs => .alternatives (ofValues vs)
  | .mapping es =>
    let node? :=
      if hasKey "<entity>" es then entity? es (fieldsIn es)
      else if hasKey "<fieldname>" es then field? es
      else none
    node?.getD (.invalid (Value.mapping es).toYaml)
  | v => .invalid v.toYaml
termination_by structural v => v

def ofValues : List Value → List SchemaNode
  | [] => []
  | v :: vs => ofValue v :: ofValues vs
termination_by structural vs => vs

def fieldsIn : List (Value × Value) → List (Value × SchemaNode)
  | [] => []
  | (k, .mapping fields) :: es => if k.isKey "<fields>" then ofEntries fields else fieldsIn es
  | (k, _) :: es => if k.isKey "<fields>" then [] else fieldsIn es
termination_by structural es => es

def ofEntries : List (Value × Value) → List (Value × SchemaNode)
  | [] => []
  | (k, v) :: es => (k, ofValue v) :: ofEntries es
termination_by structural es => es

end

end SchemaNode

namespace Schema

def addEntry (s : Schema) (key value : Value) : Except SchemaError Schema :=
  match key.scalarText? with
  | none => .error (.keyNotText key.toYaml)
  | some key =>
    if key = "<root_element>" then
      match value.scalarText? with
      | some name => .ok { s with rootElement := some name }
      | none => .error .rootElementNotName
    -- other directives are passed over
    else if SchemaNode.startsWithAngle key then .ok s
    else .ok { s with paths := s.paths ++ [(key, SchemaNode.ofValue value)] }

def ofValue : Value → Except SchemaError Schema
  | .mapping es => es.foldlM (fun s e => s.addEntry e.1 e.2) {}
  | _ => .error .notMapping

def ofYaml (text : String) : Except SchemaError Schema :=
  match Value.ofYaml? text with
  | some v => ofValue v
  | none => .error .notYaml

def ofJson (text : String) : Except SchemaError Schema :=
  match Value.ofJson? text with
  | some v => ofValue v
  | none => .error .notJson

def load (fs : FileSystem) (path : String) : Except SchemaError Schema :=
  match fs.readText path with
  | .error fault => .error (.io fault)
  | .ok text =>
    if FilePath.hasExtension "json" path then ofJson text else ofYaml text

end Schema

end Tabulate
