import Tabulate.Json.Number
import Tabulate.Text.Basic
import Tabulate.Yaml.Scalar

/-! Reading JSON. Every function that reads answers what it read and the text behind it. -/
namespace Tabulate

namespace Json

def isBlank (c : Char) : Bool := c = ' ' || c = '\n' || c = '\t' || c = '\r'

def skipBlanks (cs : List Char) : List Char := cs.dropWhile isBlank

def hex4? (cs : List Char) : Option (Nat × List Char) := do
  match cs with
  | a :: b :: c :: d :: rest =>
    let ds ← [a, b, c, d].mapM Yaml.hexDigit?
    some (ds.foldl (fun n d => n * 16 + d) 0, rest)
  | _ => none

def codeEscape? (cs : List Char) : Option (Char × List Char) := do
  let (high, rest) ← hex4? cs
  if 0xD800 ≤ high ∧ high < 0xDC00 then
    -- half of a character, whose other half must follow
    match rest with
    | '\\' :: 'u' :: rest =>
      let (low, rest) ← hex4? rest
      if 0xDC00 ≤ low ∧ low < 0xE000 then
        some (Char.ofNat (0x10000 + (high - 0xD800) * 0x400 + (low - 0xDC00)), rest)
      else none
    | _ => none
  else if 0xDC00 ≤ high ∧ high < 0xE000 then none
  else some (Char.ofNat high, rest)

def escapes : List (Char × Char) :=
  [('"', '"'), ('\\', '\\'), ('/', '/'), ('b', '\x08'), ('f', '\x0C'), ('n', '\n'), ('r', '\r'),
   ('t', '\t')]

def string? : (fuel : Nat) → List Char → Option (List Char × List Char)
  | 0, _ => none
  | fuel + 1, cs => do
    match cs with
    | [] => none
    | '"' :: rest => some ([], rest)
    | '\\' :: 'u' :: rest => do
      let (c, rest) ← codeEscape? rest
      let (text, rest) ← string? fuel rest
      some (c :: text, rest)
    | '\\' :: e :: rest => do
      let c ← escapes.lookup e
      let (text, rest) ← string? fuel rest
      some (c :: text, rest)
    | c :: rest =>
      if c.toNat < 0x20 || c = '\\' then none
      else do
        let (text, rest) ← string? fuel rest
        some (c :: text, rest)

def literal? (cs : List Char) : Option (Value × List Char) :=
  match Text.after? "null".toList cs, Text.after? "true".toList cs, Text.after? "false".toList cs with
  | some rest, _, _ => some (.null, rest)
  | _, some rest, _ => some (.bool true, rest)
  | _, _, some rest => some (.bool false, rest)
  | _, _, _ => none

mutual

def value? : (fuel depth : Nat) → List Char → Option (Value × List Char)
  | 0, _, _ => none
  | fuel + 1, depth, cs => do
    match skipBlanks cs with
    | '"' :: rest => do
      let (text, rest) ← string? (rest.length + 1) rest
      some (.string (String.ofList text), rest)
    | '[' :: rest => do
      match depth with
      | 0 => none
      | depth + 1 =>
        match skipBlanks rest with
        | ']' :: rest => some (.sequence [], rest)
        | rest => do
          let (vs, rest) ← items? fuel depth rest
          some (.sequence vs, rest)
    | '\x7b' :: rest => do
      match depth with
      | 0 => none
      | depth + 1 =>
        match skipBlanks rest with
        | '\x7d' :: rest => some (.mapping [], rest)
        | rest => do
          let (es, rest) ← entries? fuel depth rest
          some (.mapping (← Value.distinctKeys? es), rest)
    | c :: rest =>
      if c = '-' || c.isDigit then do
        let (n, rest) ← Numeral.ofChars? (c :: rest)
        some (.number (← n.value?), rest)
      else literal? (c :: rest)
    | [] => none

def items? : (fuel depth : Nat) → List Char → Option (List Value × List Char)
  | 0, _, _ => none
  | fuel + 1, depth, cs => do
    let (v, rest) ← value? fuel depth cs
    match skipBlanks rest with
    | ',' :: rest => do
      let (vs, rest) ← items? fuel depth rest
      some (v :: vs, rest)
    | ']' :: rest => some ([v], rest)
    | _ => none

def entries? : (fuel depth : Nat) → List Char → Option (List (Value × Value) × List Char)
  | 0, _, _ => none
  | fuel + 1, depth, cs => do
    match skipBlanks cs with
    | '"' :: rest => do
      let (key, rest) ← string? (rest.length + 1) rest
      match skipBlanks rest with
      | ':' :: rest => do
        let (v, rest) ← value? fuel depth rest
        let e := (Value.string (String.ofList key), v)
        match skipBlanks rest with
        | ',' :: rest => do
          let (es, rest) ← entries? fuel depth rest
          some (e :: es, rest)
        | '\x7d' :: rest => some ([e], rest)
        | _ => none
      | _ => none
    | _ => none

end

def maxDepth : Nat := 127

end Json

def Value.ofJson? (text : String) : Option Value := do
  let cs := text.toList
  let (v, rest) ← Json.value? (2 * cs.length + 2) Json.maxDepth cs
  if rest.all Json.isBlank then some v else none

end Tabulate
