import Tabulate.Files.System
import Tabulate.Text.Dictionary

/-! Schemas: which paths of a document fill which columns of which tables, and why a schema cannot be
loaded or laid out. -/
namespace Tabulate

inductive SchemaError where
  | notMapping
  | keyNotText (key : String)
  | rootElementNotName
  | invalidNode (path description : String)
  | io (fault : IoFault)
  | notYaml
  | notJson
deriving DecidableEq, Repr

def SchemaError.message : SchemaError → String
  | notMapping =>
    "Invalid configuration format: configuration must be a mapping of paths to field or entity definitions"
  | keyNotText key =>
    "Invalid configuration format: configuration keys must be strings, found " ++ key
  | rootElementNotName =>
    "Invalid configuration format: <root_element> must be an element name"
  | invalidNode path description =>
    "Invalid configuration for \"" ++ path ++ "\":\n" ++ description
  | io fault => "IO error: " ++ fault.message
  | notYaml => "Parse error: YAML parse error"
  | notJson => "Parse error: JSON parse error"

inductive FieldRule where
  | plain
  | joiner (separator : String)
  | enumMap (table : Dictionary String)
  | enumType (constant : String)
deriving DecidableEq

inductive PrimaryKey where
  | single (path : String)
  | composite (paths : List String)
deriving DecidableEq, Repr

def PrimaryKey.components : PrimaryKey → List String
  | single path => [path]
  | composite paths => paths

structure Entity where
  table : String
  primaryKey : Option PrimaryKey
  filenameColumn : Option String
deriving DecidableEq, Repr

inductive SchemaNode where
  | column (name : String)
  | field (name : String) (rule : FieldRule)
  | entity (e : Entity) (fields : List (String × SchemaNode))
  | alternatives (nodes : List SchemaNode)
  | invalid (description : String)

namespace SchemaNode

/-- Whether several matches are as good as one. Of a list of alternatives this is never said. -/
def toleratesMultiple : SchemaNode → Bool
  | entity .. => true
  | field _ rule => rule != .plain
  | _ => false

def isInvalid : SchemaNode → Bool
  | invalid _ => true
  | _ => false

end SchemaNode

structure Schema where
  rootElement : Option String := none
  paths : List (String × SchemaNode) := []

def Schema.get? (s : Schema) (path : String) : Option SchemaNode := s.paths.lookup path

end Tabulate
