import Tabulate.Number
import Tabulate.Yaml.Value

/-! Numbers in JSON. A number keeps as many digits as fit in 64 bits and drops the others; its power
of ten is then applied in double precision, each step rounded. -/
namespace Tabulate.Json

def maxSignificand : Nat := bitLimit 64 - 1

/-- Join digits to a significand until one does not fit, and answer the digits from there on. -/
def absorb (n : Nat) : List Char → Nat × List Char
  | [] => (n, [])
  | d :: ds =>
    let m := n * 10 + (d.toNat - 48)
    if m ≤ maxSignificand then absorb m ds else (n, d :: ds)

def powerOfTen (n : Nat) : Double := (Double.ofRatio? (Nat.pow 10 n) 1).getD Double.zero

def maxPower : Nat := 308

def dividedBy : (steps : Nat) → Double → Nat → Double
  | 0, _, _ => Double.zero
  | steps + 1, x, power =>
    let quotient (k : Nat) : Double :=
      let p := (powerOfTen k).ratio
      (Double.ofRatio? (x.ratio.1 * p.2) (x.ratio.2 * p.1)).getD Double.zero
    if power ≤ maxPower then quotient power
    else dividedBy steps (quotient maxPower) (power - maxPower)

/-- A significand times a power of ten, unless that is too large. After three divisions by the largest
power nothing is left of any significand. -/
def scaled? (significand : Nat) (exponent : Int) : Option Double := do
  let x ← Double.ofRatio? significand 1
  match exponent with
  | .ofNat n =>
    if n ≤ maxPower then
      let p := (powerOfTen n).ratio
      Double.ofRatio? (x.ratio.1 * p.1) (x.ratio.2 * p.2)
    else if significand = 0 then some Double.zero
    else none
  | .negSucc n => some (dividedBy 4 x (n + 1))

def maxExponent : Nat := bitLimit 31 - 1

structure Numeral where
  negative : Bool
  whole : List Char
  fraction : Option (List Char)
  exponent : Option (Bool × Nat)

def exponent? (cs : List Char) : Option ((Bool × Nat) × List Char) :=
  let (negative, cs) := match cs with
    | '-' :: cs => (true, cs)
    | '+' :: cs => (false, cs)
    | cs => (false, cs)
  let digits := cs.takeWhile Char.isDigit
  if digits.isEmpty then none
  else
    let n := digits.foldl (fun n d => n * 10 + (d.toNat - 48)) 0
    some ((negative, n), cs.dropWhile Char.isDigit)

def Numeral.ofChars? (cs : List Char) : Option (Numeral × List Char) := do
  let (negative, cs) := match cs with
    | '-' :: cs => (true, cs)
    | cs => (false, cs)
  let whole := cs.takeWhile Char.isDigit
  let cs := cs.dropWhile Char.isDigit
  if whole.isEmpty || (whole.length > 1 && whole.head? = some '0') then none
  else
    let (fraction, cs) ← match cs with
      | '.' :: cs =>
        let digits := cs.takeWhile Char.isDigit
        if digits.isEmpty then none else some (some digits, cs.dropWhile Char.isDigit)
      | cs => some (none, cs)
    let (exponent, cs) ← match cs with
      | c :: rest =>
        if c = 'e' ∨ c = 'E' then (exponent? rest).map fun r => (some r.1, r.2)
        else some (none, c :: rest)
      | [] => some (none, [])
    some (⟨negative, whole, fraction, exponent⟩, cs)

/-- A number that is written without point and exponent and fits in 64 bits is an integer, unless it is
a negative zero. -/
def Numeral.value? (n : Numeral) : Option Number :=
  let (whole, dropped) := absorb 0 n.whole
  let isWhole : Bool := dropped.isEmpty && n.fraction.isNone && n.exponent.isNone
  if isWhole && !n.negative then some (.integer whole)
  else if isWhole && 0 < whole && whole ≤ bitLimit 63 then some (.integer (-whole))
  else
    let digits := n.fraction.getD []
    let (significand, left) := absorb whole digits
    let shift : Int := dropped.length - (digits.length - left.length : Nat)
    match n.exponent with
    | none => (scaled? significand shift).map (.real n.negative)
    | some (false, e) =>
      if e > maxExponent then
        if significand = 0 then some (.real n.negative Double.zero) else none
      else (scaled? significand (shift + e)).map (.real n.negative)
    | some (true, e) =>
      if e > maxExponent then some (.real n.negative Double.zero)
      else (scaled? significand (shift - e)).map (.real n.negative)

end Tabulate.Json
