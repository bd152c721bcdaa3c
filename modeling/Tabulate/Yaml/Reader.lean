import Tabulate.Number
import Tabulate.Yaml.Node
import Tabulate.Yaml.Value

/-! From the nodes of a document to its value: plain scalars are told apart by their text, aliases are
replaced by what they stand for. -/
namespace Tabulate

namespace Yaml

def isZeroPadded (s : String) : Bool :=
  let cs := match s.toList with
    | '-' :: cs => cs
    | '+' :: cs => cs
    | cs => cs
  cs.length > 1 && cs.head? = some '0' && cs.all Char.isDigit

def isNull (s : String) : Bool := ["null", "Null", "NULL", "~"].contains s

def bool? (s : String) : Option Bool :=
  if ["true", "True", "TRUE"].contains s then some true
  else if ["false", "False", "FALSE"].contains s then some false
  else none

def natural? (base : Nat) (cs : List Char) : Option Nat := do
  if cs.isEmpty then none
  else
    let ds ← cs.mapM fun c => (hexDigit? c).filter (· < base)
    some (ds.foldl (fun n d => n * base + d) 0)

def based? (cs : List Char) (limit : Nat) : Option Nat :=
  let fits (n : Nat) : Option Nat := if n < limit then some n else none
  let of (base : Nat) (rest : List Char) : Option Nat := (natural? base rest).bind fits
  match cs with
  | '0' :: 'x' :: rest => of 16 rest
  | '0' :: 'o' :: rest => of 8 rest
  | '0' :: 'b' :: rest => of 2 rest
  | cs => if isZeroPadded (String.ofList cs) then none else of 10 cs

def integer? (s : String) (above below : Nat) : Option Int :=
  match s.toList with
  | '-' :: cs => (based? cs (below + 1)).map fun n => -(n : Int)
  | '+' :: cs => (based? cs above).map Int.ofNat
  | cs => (based? cs above).map Int.ofNat

def decimal? (s : String) : Option Number := do
  let (negative, cs) := match s.toList with
    | '-' :: cs => (true, cs)
    | '+' :: cs => (false, cs)
    | cs => (false, cs)
  let whole := cs.takeWhile Char.isDigit
  let (fraction, cs) := match cs.dropWhile Char.isDigit with
    | '.' :: cs => (cs.takeWhile Char.isDigit, cs.dropWhile Char.isDigit)
    | cs => ([], cs)
  let digits := whole ++ fraction
  let exponent : Int ← match cs with
    | [] => some 0
    | c :: cs =>
      if c = 'e' ∨ c = 'E' then
        match cs with
        | '-' :: cs => (natural? 10 cs).map fun n => -(n : Int)
        | '+' :: cs => (natural? 10 cs).map Int.ofNat
        | cs => (natural? 10 cs).map Int.ofNat
      else none
  let x ← Double.ofDecimal? digits.length ⟨← natural? 10 digits, exponent - fraction.length⟩
  some (.real negative x)

def real? (s : String) : Option Number :=
  if [".inf", ".Inf", ".INF", "+.inf", "+.Inf", "+.INF"].contains s then some (.infinite false)
  else if ["-.inf", "-.Inf", "-.INF"].contains s then some (.infinite true)
  else if [".nan", ".NaN", ".NAN"].contains s then some .notANumber
  else if isZeroPadded s then none
  else decimal? s

/-- What a plain scalar stands for. An integer that takes more than 64 bits is refused, unless it
takes more than 128. -/
def plainValue? (s : String) : Option Value :=
  if s.isEmpty || isNull s then some .null
  else match bool? s with
    | some b => some (.bool b)
    | none =>
      match integer? s (bitLimit 64) (bitLimit 63) with
      | some n => some (.number (.integer n))
      | none =>
        if (integer? s (bitLimit 128) (bitLimit 127)).isSome then none
        else match real? s with
          | some n => some (.number n)
          | none => some (.string s)

/-- A scalar's value. The tags of the core types say which of them it is, a tag of its own goes with
the value, and any other makes it a string. -/
def scalarValue? (tag : Option String) (plain : Bool) (s : String) : Option Value :=
  let untagged := if plain then plainValue? s else some (.string s)
  match tag with
  | none => untagged
  | some "tag:yaml.org,2002:bool" => (bool? s).map .bool
  | some "tag:yaml.org,2002:int" => (integer? s (bitLimit 64) (bitLimit 63)).map fun n => .number (.integer n)
  | some "tag:yaml.org,2002:float" => (real? s).map .number
  | some "tag:yaml.org,2002:null" => if isNull s then some .null else none
  | some tag => if tag.toList.head? = some '!' then untagged else some (.string s)

def withTag? (tag : Option String) (v : Value) : Option Value :=
  match tag.map String.toList with
  | some ['!'] => none
  | some ('!' :: cs) => some (.tagged (String.ofList cs) v)
  | _ => some v

def maxDepth : Nat := 128

/-- How many aliases may be followed for each part of the document. -/
def maxAliasesPerPart : Nat := 100

/-- What an anchor stands for: its value, how deep that is and how many aliases were followed for it.
An anchor on a node that is still being read stands for nothing yet. -/
structure Anchored where
  value : Value
  depth : Nat
  follows : Nat

abbrev Anchors := List (String × Option Anchored)

def noteAnchor (anchors : Anchors) (name : Option String) (a : Option Anchored) : Anchors :=
  match name with
  | some name => (name, a) :: anchors
  | none => anchors

mutual

def Node.value? (anchors : Anchors) : Node → Option (Anchored × Anchors)
  | .alias name => do
    let a ← (← anchors.lookup name)
    some ({ a with follows := a.follows + 1 }, anchors)
  | .scalar anchor tag plain text => do
    let v ← withTag? tag (← scalarValue? tag plain text)
    let a : Anchored := ⟨v, 0, 0⟩
    some (a, noteAnchor anchors anchor (some a))
  | .sequence anchor tag items => do
    let (vs, anchors) ← itemValues? (noteAnchor anchors anchor none) items
    let v ← withTag? tag (.sequence (vs.map Anchored.value))
    let a : Anchored :=
      ⟨v, (vs.map Anchored.depth).foldl max 0 + 1, (vs.map Anchored.follows).foldl (· + ·) 0⟩
    some (a, noteAnchor anchors anchor (some a))
  | .mapping anchor tag entries => do
    let (vs, anchors) ← entryValues? (noteAnchor anchors anchor none) entries
    let entries ← Value.distinctKeys? (vs.map fun e => (e.1.value, e.2.value))
    let v ← withTag? tag (.mapping entries)
    let all := vs.flatMap fun e => [e.1, e.2]
    let a : Anchored :=
      ⟨v, (all.map Anchored.depth).foldl max 0 + 1, (all.map Anchored.follows).foldl (· + ·) 0⟩
    some (a, noteAnchor anchors anchor (some a))

def itemValues? (anchors : Anchors) : List Node → Option (List Anchored × Anchors)
  | [] => some ([], anchors)
  | n :: ns => do
    let (v, anchors) ← n.value? anchors
    let (vs, anchors) ← itemValues? anchors ns
    some (v :: vs, anchors)

def entryValues? (anchors : Anchors) :
    List (Node × Node) → Option (List (Anchored × Anchored) × Anchors)
  | [] => some ([], anchors)
  | (k, v) :: es => do
    let (k, anchors) ← k.value? anchors
    let (v, anchors) ← v.value? anchors
    let (vs, anchors) ← entryValues? anchors es
    some ((k, v) :: vs, anchors)

end

mutual

def Node.parts : Node → Nat
  | .sequence _ _ items => 2 + itemParts items
  | .mapping _ _ entries => 2 + entryParts entries
  | _ => 1

def itemParts : List Node → Nat
  | [] => 0
  | n :: ns => n.parts + itemParts ns

def entryParts : List (Node × Node) → Nat
  | [] => 0
  | (k, v) :: es => k.parts + v.parts + entryParts es

end

end Yaml

def Value.ofYaml? (text : String) : Option Value := do
  match ← Yaml.Node.ofTokens? (← Yaml.Token.ofText? text.toList) with
  | none => some .null
  | some n =>
    let (a, _) ← n.value? []
    if a.depth > Yaml.maxDepth || a.follows > Yaml.maxAliasesPerPart * n.parts then none
    else some a.value

end Tabulate
