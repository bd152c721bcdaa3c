/-! What fits in a number of bits, sums of counts, and numbers of double precision as exact fractions: the
nearest one to a fraction, and the shortest decimal that reads back as one. -/
namespace Tabulate

/-- The least natural number that does not fit in so many bits. -/
def bitLimit (bits : Nat) : Nat := Nat.pow 2 bits

def total : List Nat → Nat
  | [] => 0
  | n :: ns => n + total ns

theorem total_append (ms ns : List Nat) : total (ms ++ ns) = total ms + total ns := by
  induction ms with
  | nil => simp [total]
  | cons m ms ih => simp [total, ih, Nat.add_assoc]

structure Double where
  mantissa : Nat
  exponent : Int
deriving DecidableEq, Repr

structure Decimal where
  digits : Nat
  exponent : Int
deriving DecidableEq, Repr

def powRatio (base : Nat) : Int → Nat × Nat
  | .ofNat n => (Nat.pow base n, 1)
  | .negSucc n => (1, Nat.pow base (n + 1))

namespace Double

def lowestExponent : Int := -1074
def highestExponent : Int := 971

def zero : Double := ⟨0, lowestExponent⟩

def ratio (x : Double) : Nat × Nat :=
  let p := powRatio 2 x.exponent
  (x.mantissa * p.1, p.2)

/-- The quotient rounded to the nearest integer, a half to the even one. -/
def roundDiv (num den : Nat) : Nat :=
  let q := num / den
  let r := num % den
  if 2 * r > den ∨ (2 * r = den ∧ q % 2 = 1) then q + 1 else q

def ofRatio? (num den : Nat) : Option Double :=
  if num = 0 then some zero
  else
    let guess : Int := (Nat.log2 num : Int) - Nat.log2 den - 53
    let mantissaAt (e : Int) : Nat × Nat :=
      let p := powRatio 2 e
      (num * p.2, den * p.1)
    let fits (e : Int) : Bool := (mantissaAt e).1 / (mantissaAt e).2 < bitLimit 53
    let e := max (if fits guess then guess else guess + 1) lowestExponent
    let m := roundDiv (mantissaAt e).1 (mantissaAt e).2
    let x : Double := if m = bitLimit 53 then ⟨bitLimit 52, e + 1⟩ else ⟨m, e⟩
    if x.exponent > highestExponent then none else some x

def ofDecimal? (count : Nat) (d : Decimal) : Option Double :=
  if d.digits = 0 ∨ d.exponent + count < -400 then some zero
  else if d.exponent > 400 then none
  else
    let p := powRatio 10 d.exponent
    ofRatio? (d.digits * p.1) p.2

def decimalPoint (num den : Nat) : Int :=
  if num / den = 0 then below 400 0 num else (Nat.toDigits 10 (num / den)).length
where
  below : Nat → Int → Nat → Int
    | 0, k, _ => k
    | fuel + 1, k, num => if num * 10 ≥ den then k else below fuel (k - 1) (num * 10)

/-- The decimal on the grid `10 ^ p` that is nearest to `x` among those that read back as `x`. -/
def onGrid? (x : Double) (p : Int) : Option Decimal :=
  let two := powRatio 2 (x.exponent - 2)
  let ten := powRatio 10 p
  -- below a power of two the next double is half as far away
  let lower := if x.mantissa = bitLimit 52 ∧ x.exponent > lowestExponent then 1 else 2
  let scaled (quarters : Nat) : Nat := quarters * two.1 * ten.2
  let value (c : Nat) : Nat := c * two.2 * ten.1
  let low := scaled (4 * x.mantissa - lower)
  let high := scaled (4 * x.mantissa + 2)
  let middle := scaled (4 * x.mantissa)
  let inside (c : Nat) : Bool :=
    if x.mantissa % 2 = 0 then low ≤ value c && value c ≤ high else low < value c && value c < high
  let c := middle / value 1
  let downFirst := middle - value c ≤ value (c + 1) - middle
  let first := if downFirst then c else c + 1
  let second := if downFirst then c + 1 else c
  if inside first then some ⟨first, p⟩ else if inside second then some ⟨second, p⟩ else none

def stripZeros : Nat → Decimal → Decimal
  | 0, d => d
  | fuel + 1, d =>
    if d.digits ≠ 0 ∧ d.digits % 10 = 0 then stripZeros fuel ⟨d.digits / 10, d.exponent + 1⟩ else d

def shortest (x : Double) : Decimal :=
  if x.mantissa = 0 then ⟨0, 0⟩
  else
    let point := decimalPoint x.ratio.1 x.ratio.2
    let found := (List.range 17).findSome? fun (n : Nat) => x.onGrid? (point - (n + 1))
    stripZeros 400 (found.getD ⟨x.ratio.1, 0⟩)

def toNat? (x : Double) : Option Nat :=
  if x.ratio.1 % x.ratio.2 = 0 then some (x.ratio.1 / x.ratio.2) else none

end Double

namespace Decimal

def zeros (n : Nat) : String := String.ofList (List.replicate n '0')

def positional (d : Decimal) : String :=
  let digits := toString d.digits
  match d.exponent with
  | .ofNat n => if d.digits = 0 then "0" else digits ++ zeros n
  | .negSucc n =>
    let places := n + 1
    if digits.length > places then
      let cs := digits.toList
      String.ofList (cs.take (cs.length - places)) ++ "." ++ String.ofList (cs.drop (cs.length - places))
    else "0." ++ zeros (places - digits.length) ++ digits

def mixed (d : Decimal) : String :=
  let digits := toString d.digits
  let point : Int := digits.length + d.exponent
  if d.digits = 0 then "0.0"
  else if -5 < point ∧ point ≤ 16 then
    if 0 ≤ d.exponent then positional d ++ ".0" else positional d
  else
    let cs := digits.toList
    let head := String.ofList (cs.take 1)
    let tail := String.ofList (cs.drop 1)
    let exponent := toString (point - 1)
    if tail.isEmpty then head ++ "e" ++ exponent else head ++ "." ++ tail ++ "e" ++ exponent

end Decimal

end Tabulate
