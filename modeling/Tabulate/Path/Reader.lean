import Tabulate.Number
import Tabulate.Path.Basic
import Tabulate.Text.Basic
import Tabulate.Text.Utf8

/-! Reading a path. The text is cut into steps at the slashes outside of predicates, a step into
its test and its predicates, and a predicate is read as a path again where it holds one. Inside a
literal nothing but its own quote counts, and what stands inside brackets belongs to a predicate. -/
namespace Tabulate

open Text (trim)

structure Nesting where
  depth : Int := 0
  quote : Option Char := none
deriving DecidableEq, Repr

namespace Nesting

def after (n : Nesting) (c : Char) : Nesting :=
  match n.quote with
  | some q => if c = q then { n with quote := none } else n
  | none =>
    if c = '\'' ∨ c = '"' then { n with quote := some c }
    else if c = '[' then { n with depth := n.depth + 1 }
    else if c = ']' then { n with depth := n.depth - 1 }
    else n

def outside (n : Nesting) : Bool := n.depth = 0 && n.quote.isNone

end Nesting

namespace Path

def parts (n : Nesting) : List Char → Except PathFault (List (List Char))
  | [] =>
    if n.quote.isSome then .error .openLiteral
    else if n.depth ≠ 0 then .error .unmatchedOpen
    else .ok [[]]
  | c :: cs =>
    if n.outside && c = '/' then
      if Text.startsWith ['/', '/'] cs then .error .tooManySlashes
      else (parts n cs).map ([] :: ·)
    else if n.outside && c = ']' then .error .unmatchedClose
    else (parts (n.after c) cs).map fun
      | p :: ps => (c :: p) :: ps
      | [] => [[c]]

def stepTexts : Bool → List (List Char) → List (Bool × List Char)
  | _, [] => []
  | _, [] :: ps => stepTexts true ps
  | doubled, p :: ps => (doubled, p) :: stepTexts false ps

def outline (cs : List Char) : Except PathFault (Bool × List (Bool × List Char)) := do
  match ← parts {} cs with
  | [[], []] => .ok (true, [])
  | [] :: ps => if ps.getLast? = some [] then .error .trailingSlash else .ok (true, stepTexts false ps)
  | ps => if ps.getLast? = some [] then .error .trailingSlash else .ok (false, stepTexts false ps)

def countDown : Nat → Except PathFault Nat
  | 0 => .error .belowZero
  | n + 1 => .ok n

def slice (cs : List Char) (i j : Nat) : Except PathFault (List Char) :=
  match Text.slice? cs i j with
  | some text => .ok text
  | none => .error .badSlice

/-- The texts inside the outermost brackets. `opened` is where the last of them begins. Nothing has been
seen to it that brackets are closed only where they are open. -/
def predicateTexts (raw : List Char) (depth : Nat) (quote : Option Char) (opened : Nat) :
    List (Nat × Char) → Except PathFault (List (List Char))
  | [] => .ok []
  | (i, c) :: rest =>
    match quote with
    | some q => predicateTexts raw depth (if c = q then none else some q) opened rest
    | none =>
      if c = '\'' ∨ c = '"' then predicateTexts raw depth (some c) opened rest
      else if c = '[' then predicateTexts raw (depth + 1) none (if depth = 0 then i else opened) rest
      else if c = ']' then do
        let depth ← countDown depth
        if depth = 0 then
          let text ← slice raw (opened + 1) i
          let texts ← predicateTexts raw 0 none opened rest
          return text :: texts
        else predicateTexts raw depth none opened rest
      else if depth = 0 then .error (.afterPredicate (String.ofList raw))
      else predicateTexts raw depth none opened rest

/-- Cut a step at its first bracket, and what follows into predicates. A literal in front of the first
bracket is not looked at. -/
def cutStep (raw : List Char) : Except PathFault (List Char × List (List Char)) :=
  match (Text.charIndices 0 raw).find? (·.2 = '[') with
  | none => .ok (raw, [])
  | some (start, _) => do
    let head ← slice raw 0 start
    let texts ← predicateTexts raw 0 none start ((Text.charIndices 0 raw).dropWhile (·.1 < start))
    return (head, texts)

def equalsAt (depth : Nat) (quote : Option Char) : List (Nat × Char) → Option Nat
  | [] => none
  | (i, c) :: rest =>
    match quote with
    | some q => equalsAt depth (if c = q then none else some q) rest
    | none =>
      if c = '\'' ∨ c = '"' then equalsAt depth (some c) rest
      else if c = '[' then equalsAt (depth + 1) none rest
      else if c = ']' then equalsAt (depth - 1) none rest
      else if c = '=' ∧ depth = 0 then some i
      else equalsAt depth none rest

def unquote (cs : List Char) : List Char :=
  let inside (q : Char) : Option (List Char) :=
    match cs with
    | c :: rest => if c = q ∧ rest.getLast? = some q then some rest.dropLast else none
    | [] => none
  match inside '\'', inside '"' with
  | some inner, _ => inner
  | none, some inner => inner
  | none, none => cs

def number? (cs : List Char) : Option Nat :=
  let digits := match cs with
    | '+' :: ds => ds
    | ds => ds
  if digits.isEmpty || !digits.all Char.isDigit then none
  else
    let n := digits.foldl (fun n c => n * 10 + (c.toNat - 48)) 0
    if n < bitLimit 64 then some n else none

def nameTest (name : List Char) : Except PathFault NameTest :=
  if name.isEmpty then .error .emptyName
  else if name = ['*'] then .ok .any
  else if name.any fun c => ['(', ')', '=', ' ', '\'', '"'].contains c then
    .error (.unsupported (String.ofList name))
  else
    let space := name.takeWhile (· != ':')
    match name.dropWhile (· != ':') with
    | [] => .ok (.named none (String.ofList name))
    | [':', '*'] => .ok (.anyUnder (String.ofList space))
    | _ :: own => .ok (.named (some (String.ofList space)) (String.ofList own))

def test (head : List Char) (predicates : List Predicate) : Except PathFault Step :=
  match head with
  | '@' :: name => (nameTest name).map (.attr · predicates)
  | _ =>
    if head = "text()".toList then .ok (.child .text predicates)
    else if head = "node()".toList then .ok (.child .node predicates)
    else (nameTest head).map fun t => .child (.name t) predicates

/-- Lay a fault to the charge of the path it was found in. -/
def blame (source : List Char) : Except PathFault α → Except PathError α
  | .ok a => .ok a
  | .error fault => .error ⟨String.ofList source, fault⟩

def predicate (inner : List Char → Except PathError Path) (source text : List Char) :
    Except PathError Predicate :=
  let expr := trim text
  if expr.isEmpty then blame source (.error .emptyPredicate)
  else if expr = "last()".toList then .ok .last
  else match number? expr with
    | some 0 => blame source (.error .positionZero)
    | some n => .ok (.position n)
    | none =>
      match equalsAt 0 none (Text.charIndices 0 expr) with
      | some i => do
        let left ← blame source (slice expr 0 i)
        let right ← blame source (slice expr (i + 1) (Text.byteLength expr))
        (inner (trim left)).map (.equals · (String.ofList (unquote (trim right))))
      | none => (inner expr).map .holds

def step (inner : List Char → Except PathError Path) (source text : List Char) :
    Except PathError Step :=
  let raw := trim text
  if raw = ['.'] then .ok .self
  else if raw = ['.', '.'] then .ok .parent
  else if Text.contains [':', ':'] raw then blame source (.error (.axis (String.ofList raw)))
  else do
    let (head, texts) ← blame source (cutStep raw)
    let predicates ← texts.mapM (predicate inner source)
    blame source (test head predicates)

/-- A path whose predicates are nested no deeper than the first argument. -/
def ofChars : Nat → List Char → Except PathError Path
  | 0, source => blame source (.error .tooDeep)
  | depth + 1, source => do
    let trimmed := trim source
    if trimmed.isEmpty then blame source (.error .empty)
    else
      let (absolute, texts) ← blame trimmed (outline trimmed)
      let steps ← texts.mapM fun (doubled, text) => do
        let s ← step (ofChars depth) source text
        return if doubled then [.descendants, s] else [s]
      return .mk absolute steps.flatten

def read (source : String) : Except PathError WrittenPath :=
  (ofChars (source.toList.length + 1) source.toList).map (⟨source, ·⟩)

end Path

end Tabulate
