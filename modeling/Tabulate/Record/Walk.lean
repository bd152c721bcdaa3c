import Tabulate.Record.Basic
import Tabulate.Schema.Layout

/-! Walking a document along a schema. Every match of an entity makes a record, whose fields are
looked for from the matched element on. -/
namespace Tabulate

open Xml (Document Location Namespaces)

structure Source where
  document : Document
  namespaces : Namespaces
  filename : Option String

/-- What a walk has brought in so far. It is kept where the walk breaks off. -/
structure Harvest where
  counters : KeyCounters := .empty
  tables : Tables := .empty
  warnings : List DocumentWarning := []

abbrev Walk := EStateM DocumentError Harvest

structure Parent where
  table : String
  key : String

namespace Harvest

def warn (w : DocumentWarning) : Walk Unit :=
  modify fun h => { h with warnings := h.warnings ++ [w] }

def push (table : String) (r : Record) : Walk Unit :=
  modify fun h => { h with tables := h.tables.append table [r] }

def number (entity parentKey : String) : Walk Nat :=
  modifyGet fun h =>
    let (n, counters) := h.counters.next entity parentKey
    (n, { h with counters })

end Harvest

namespace Source

def explicitKey (s : Source) (e : Entity) (l : Location) : Except DocumentError (Option String) :=
  match e.primaryKey with
  | none => .ok none
  | some key => (s.document.primaryKey s.namespaces key l).map some

/-- The key of a new record. An empty text is no key. -/
def recordKey (s : Source) (e : Entity) (parent : Option Parent) (l : Location) : Walk String := do
  let explicit ← MonadExcept.ofExcept (s.explicitKey e l)
  match explicit.filter fun key => !key.isEmpty with
  | some key => return key
  | none =>
    let parentKey := (parent.map Parent.key).getD noParentKey
    return syntheticKey parentKey (← Harvest.number e.table parentKey)

def newRecord (s : Source) (e : Entity) (parent : Option Parent) (key : String) : Record :=
  let r := Record.empty.insert idColumn (some key)
  let r := match parent with
    | some p => r.insert (parentColumn p.table) (some p.key)
    | none => r
  match e.filenameColumn with
  | some column => r.insert column s.filename
  | none => r

/-- The matches of a path declared for a node. The walk is warned of matches that will be lost. -/
def matchesOf (s : Source) (path : String) (node : SchemaNode) (l : Location) : Walk (List Location) := do
  match s.document.resolve s.namespaces path l with
  -- what stops the reading of a path ends the walk like a refusal
  | .error e => throw (.document (.invalidNode path e.message) {})
  | .ok ls =>
    if ls.length > 1 && !node.toleratesMultiple then
      Harvest.warn (.severalMatches path (ls.map s.document.text))
    return ls

end Source

mutual

def SchemaNode.walk (s : Source) (path : String) (parent : Option Parent) :
    SchemaNode → List Location → Record → Walk Record
  | .column name, ls, r => return r.fill name .plain (ls.map s.document.text)
  | .field name rule, ls, r => return r.fill name rule (ls.map s.document.text)
  | .entity e fields, ls, r => do
    ls.forM fun l => do
      let key ← s.recordKey e parent l
      let filled ← walkFields s ⟨e.table, key⟩ l fields (s.newRecord e parent key)
      Harvest.push e.table filled
    return r
  | .alternatives nodes, ls, r => ls.foldlM (fun r l => walkEach s path parent l nodes r) r
  | .invalid description, ls, r =>
    if ls.isEmpty then return r else throw (.document (.invalidNode path description) {})
termination_by structural n => n

def walkEach (s : Source) (path : String) (parent : Option Parent) (l : Location) :
    List SchemaNode → Record → Walk Record
  | [], r => return r
  | n :: ns, r => do walkEach s path parent l ns (← n.walk s path parent [l] r)
termination_by structural ns => ns

def walkFields (s : Source) (parent : Parent) (l : Location) :
    List (String × SchemaNode) → Record → Walk Record
  | [], r => return r
  | (path, n) :: fs, r => do
    let found ← s.matchesOf path n l
    walkFields s parent l fs (← n.walk s path (some parent) found r)
termination_by structural fs => fs

end

/-- Apply a top-level node from a place on. What it would fill in a record around it is lost. -/
def Source.walkPath (s : Source) (l : Location) (path : String) (n : SchemaNode) : Walk Unit := do
  let found ← s.matchesOf path n l
  discard <| n.walk s path none found Record.empty

end Tabulate
