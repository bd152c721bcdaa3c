import Tabulate.Number

/-! Values of configurations: what YAML and JSON texts stand for. -/
namespace Tabulate

inductive Number where
  | integer (n : Int)
  | real (negative : Bool) (magnitude : Double)
  | infinite (negative : Bool)
  | notANumber
deriving DecidableEq, Repr

def Number.text : Number → String
  | integer n => toString n
  | real negative x => (if negative then "-" else "") ++ x.shortest.mixed
  | infinite negative => if negative then "-.inf" else ".inf"
  | notANumber => ".nan"

/-- Whether two numbers are one and the same key. The sign of zero makes no difference. -/
def Number.same : Number → Number → Bool
  | real p x, real q y => x = y && (p = q || x.mantissa = 0)
  | a, b => a = b

inductive Value where
  | null
  | bool (b : Bool)
  | number (n : Number)
  | string (s : String)
  | sequence (items : List Value)
  | mapping (entries : List (Value × Value))
  | tagged (tag : String) (value : Value)
deriving Repr

namespace Value

mutual

def same : Value → Value → Bool
  | null, null => true
  | bool a, bool b => a = b
  | number a, number b => a.same b
  | string a, string b => a = b
  | sequence xs, sequence ys => sameItems xs ys
  | mapping xs, mapping ys => xs.length = ys.length && entriesIn ys xs
  | tagged t x, tagged u y => t = u && same x y
  | _, _ => false
termination_by structural v => v

def sameItems : List Value → List Value → Bool
  | [], [] => true
  | x :: xs, y :: ys => same x y && sameItems xs ys
  | _, _ => false
termination_by structural xs => xs

def entriesIn (ys : List (Value × Value)) : List (Value × Value) → Bool
  | [] => true
  | (k, v) :: xs => ys.any (fun e => same k e.1 && same v e.2) && entriesIn ys xs
termination_by structural xs => xs

end

def untagged : Value → Value
  | tagged _ v => v.untagged
  | v => v

def get? (entries : List (Value × Value)) (key : String) : Option Value :=
  (entries.find? fun e => match e.1 with
    | .string s => s = key
    | _ => false).map (·.2)

def distinctKeys? (entries : List (Value × Value)) : Option (List (Value × Value)) :=
  if go entries then some entries else none
where
  go : List (Value × Value) → Bool
    | [] => true
    | e :: es => !es.any (fun o => same e.1 o.1) && go es

end Value

end Tabulate
