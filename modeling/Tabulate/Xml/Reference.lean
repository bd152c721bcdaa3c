import Tabulate.Number
import Tabulate.Xml.Token

/-! Text between references. A character reference and the five predefined entities stand for one
character each, any other name for a declared entity. -/
namespace Tabulate.Xml

open Text (after?)

inductive Piece where
  | char (c : Char)
  | reference (c : Char)
  | entity (name : List Char)
deriving Repr

def digit? (base : Nat) (c : Char) : Option Nat :=
  let value? :=
    if '0' ≤ c ∧ c ≤ '9' then some (c.toNat - 48)
    else if 'a' ≤ c ∧ c ≤ 'f' then some (c.toNat - 87)
    else if 'A' ≤ c ∧ c ≤ 'F' then some (c.toNat - 55)
    else none
  value?.filter (· < base)

def codePoint? (base : Nat) (digits : List Char) : Option Nat := do
  if digits.isEmpty then none
  else
    let values ← digits.mapM (digit? base)
    let n := values.foldl (fun n d => n * base + d) 0
    if n < bitLimit 32 then some n else none

def ofCodePoint? (n : Nat) : Option Char :=
  let c := if n.isValidChar then Char.ofNat n else '\uFFFD'
  if isDocumentChar c then some c else none

def predefined : List (String × Char) :=
  [("quot", '"'), ("amp", '&'), ("apos", '\''), ("lt", '<'), ("gt", '>')]

def reference? (cs : List Char) : Option (Piece × List Char) := do
  match cs with
  | '#' :: cs =>
    let (base, cs) := match cs with
      | 'x' :: cs => (16, cs)
      | cs => (10, cs)
    let digits := cs.takeWhile fun c => (digit? base c).isSome
    let c ← ofCodePoint? (← codePoint? base digits)
    some (.reference c, ← after? [';'] (cs.drop digits.length))
  | cs =>
    let (name, rest) ← name? cs
    let rest ← after? [';'] rest
    match predefined.find? (·.1.toList = name) with
    | some (_, c) => some (.reference c, rest)
    | none => some (.entity name, rest)

def pieces? : Nat → List Char → Option (List Piece)
  | 0, _ => none
  | _, [] => some []
  | fuel + 1, '&' :: cs => do
    let (piece, rest) ← reference? cs
    some (piece :: (← pieces? fuel rest))
  | fuel + 1, c :: cs => do some (.char c :: (← pieces? fuel cs))

def Piece.ofText? (raw : List Char) : Option (List Piece) := pieces? (raw.length + 1) raw

end Tabulate.Xml
