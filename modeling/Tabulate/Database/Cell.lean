import Tabulate.Number

/-! What a table cell holds, and how a text is stored in a column of a declared type: text and blob
columns keep it, number columns turn it into a number where all of it reads as one. -/
namespace Tabulate

inductive ColumnType where
  | text
  | integer
  | float
  | blob
deriving DecidableEq, Repr

def ColumnType.sql : ColumnType → String
  | text => "TEXT"
  | integer => "INTEGER"
  | float => "FLOAT"
  | blob => "BLOB"

inductive Cell where
  | null
  | text (s : String)
  | integer (n : Int)
  | real (negative : Bool) (magnitude : Double)
  | infinite (negative : Bool)
deriving DecidableEq, Repr

namespace Cell

def isTextSpace (c : Char) : Bool := c = ' ' || ('\t' ≤ c && c ≤ '\r')

structure Numeral where
  negative : Bool
  whole : List Char
  fraction : Option (List Char)
  exponent : Option Int

def signed (cs : List Char) : Bool × List Char :=
  match cs with
  | '-' :: cs => (true, cs)
  | '+' :: cs => (false, cs)
  | cs => (false, cs)

def natOf (cs : List Char) : Nat := cs.foldl (fun n c => n * 10 + (c.toNat - 48)) 0

def Numeral.ofText? (s : String) : Option Numeral :=
  let cs := s.toList.dropWhile isTextSpace
  let (negative, cs) := signed cs
  let whole := cs.takeWhile Char.isDigit
  let (fraction, cs) : Option (List Char) × List Char :=
    match cs.dropWhile Char.isDigit with
    | '.' :: cs => (some (cs.takeWhile Char.isDigit), cs.dropWhile Char.isDigit)
    | cs => (none, cs)
  if whole.isEmpty && (fraction.getD []).isEmpty then none
  else
    let exponent? : Option (Option Int × List Char) :=
      match cs with
      | c :: cs =>
        if c = 'e' ∨ c = 'E' then
          let (below, cs) := signed cs
          let digits := cs.takeWhile Char.isDigit
          if digits.isEmpty then none
          else
            let n : Int := natOf digits
            some (some (if below then -n else n), cs.dropWhile Char.isDigit)
        else some (none, c :: cs)
      | [] => some (none, [])
    match exponent? with
    | none => none
    | some (exponent, cs) =>
      if cs.all isTextSpace then some ⟨negative, whole, fraction, exponent⟩ else none

def Numeral.isInteger (n : Numeral) : Bool := n.fraction.isNone && n.exponent.isNone

def Numeral.toInt? (n : Numeral) : Option Int :=
  let magnitude : Int := natOf n.whole
  let value := if n.negative then -magnitude else magnitude
  if n.isInteger && -(bitLimit 63) ≤ value && value < bitLimit 63 then some value else none

def Numeral.toReal (n : Numeral) : Cell :=
  let digits := n.whole ++ n.fraction.getD []
  let exponent : Int := n.exponent.getD 0 - (n.fraction.getD []).length
  match Double.ofDecimal? digits.length ⟨natOf digits, exponent⟩ with
  | some x => .real (n.negative && x.mantissa != 0) x
  | none => .infinite n.negative

/-- A real number that is an integer of less than 64 bits, as that integer. -/
def narrowed : Cell → Cell
  | .real negative x =>
    match x.toNat? with
    | some n =>
      if n < bitLimit 63 then .integer (if negative then -(n : Int) else n) else .real negative x
    | none => .real negative x
  | c => c

/-- The cell that stores a text in a column. A decimal becomes the nearest double; SQLite may miss
that by the last place where there are more than 19 digits. -/
def ofText (type : ColumnType) (s : String) : Cell :=
  match type, Numeral.ofText? s with
  | .integer, some n => (n.toInt?.map Cell.integer).getD (narrowed n.toReal)
  | .float, some n => n.toReal
  | _, _ => .text s

def ofValue (type : ColumnType) : Option String → Cell
  | some s => ofText type s
  | none => .null

def toValue : Cell → Option String
  | .null => none
  | .text s => some s
  | .integer n => some (toString n)
  | .real negative x => some ((if negative then "-" else "") ++ x.shortest.positional)
  | .infinite negative => some (if negative then "-inf" else "inf")

/-- The value of a number as a fraction with its sign. -/
def ratio : Cell → Int × Nat
  | .integer n => (n, 1)
  | .real negative x => (if negative then -(x.ratio.1 : Int) else x.ratio.1, x.ratio.2)
  | _ => (0, 1)

def rank : Cell → Nat
  | .null => 0
  | .infinite true => 1
  | .integer _ => 2
  | .real .. => 2
  | .infinite false => 3
  | .text _ => 4

def le (a b : Cell) : Bool :=
  if a.rank ≠ b.rank then a.rank < b.rank
  else match a, b with
    | .text s, .text t => s ≤ t
    | _, _ => a.ratio.1 * b.ratio.2 ≤ b.ratio.1 * a.ratio.2

def sameKey (a b : Cell) : Bool := a != .null && a.le b && b.le a

end Cell

end Tabulate
