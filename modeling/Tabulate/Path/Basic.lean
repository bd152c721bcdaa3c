import Tabulate.Xml.Namespaces

/-! Location paths as written: steps from a place to places, with names that are looked up in a
namespace map only when a path is followed. -/
namespace Tabulate

inductive NameTest where
  | any
  | anyUnder (space : String)
  | named (space : Option String) (localPart : String)
deriving DecidableEq, Repr

inductive NodeTest where
  | name (test : NameTest)
  | text
  | node
deriving DecidableEq, Repr

mutual

inductive Path where
  | mk (absolute : Bool) (steps : List Step)

inductive Step where
  | self
  | parent
  | descendants
  | child (test : NodeTest) (predicates : List Predicate)
  | attr (test : NameTest) (predicates : List Predicate)

inductive Predicate where
  | position (n : Nat)
  | last
  | holds (path : Path)
  | equals (path : Path) (literal : String)

end

deriving instance Repr for Path, Step, Predicate

structure WrittenPath where
  source : String
  path : Path
deriving Repr

/-- Why a text is no path, or what stops the program that reads it: a count that falls below zero, and a
slice that does not begin and end between characters. -/
inductive PathFault where
  | empty
  | trailingSlash
  | tooManySlashes
  | unmatchedClose
  | unmatchedOpen
  | openLiteral
  | axis (step : String)
  | afterPredicate (step : String)
  | emptyPredicate
  | positionZero
  | emptyName
  | unsupported (step : String)
  | tooDeep
  | belowZero
  | badSlice
deriving DecidableEq, Repr

def PathFault.message : PathFault → String
  | empty => "path is empty"
  | trailingSlash => "path ends with '/'"
  | tooManySlashes => "too many consecutive '/'"
  | unmatchedClose => "unbalanced ']'"
  | unmatchedOpen => "unbalanced '['"
  | openLiteral => "unterminated string literal"
  | axis step => "explicit axes are not supported: '" ++ step ++ "'"
  | afterPredicate step => "unexpected text after predicate in '" ++ step ++ "'"
  | emptyPredicate => "empty predicate"
  | positionZero => "positions start at 1"
  | emptyName => "empty name test"
  | unsupported step => "unsupported step '" ++ step ++ "'"
  | tooDeep => "predicates are nested too deeply"
  | belowZero => "attempt to subtract with overflow"
  | badSlice => "byte index is out of range or not a char boundary"

/-- Faults that are not answered: the program does not come to an answer. -/
def PathFault.stops : PathFault → Bool
  | belowZero => true
  | badSlice => true
  | _ => false

structure PathError where
  path : String
  fault : PathFault
deriving DecidableEq, Repr

def PathError.message (e : PathError) : String :=
  if e.fault.stops then e.fault.message else "Invalid path '" ++ e.path ++ "': " ++ e.fault.message

end Tabulate
