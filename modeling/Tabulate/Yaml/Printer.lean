import Tabulate.Text.Basic
import Tabulate.Text.Utf8
import Tabulate.Yaml.Reader

/-! The text of a value in YAML's block style. Strings are plain where that reads back as the same
string, else in single quotes; strings of several lines are block scalars, and strings that hold what
cannot be shown are in double quotes. -/
namespace Tabulate.Yaml

def isShown (c : Char) : Bool :=
  c = '\n' || (0x20 ≤ c.toNat && c.toNat ≤ 0x7E) || (0xA0 ≤ c.toNat && c.toNat ≤ 0xFFFD && c != '\uFEFF') ||
    0x10000 ≤ c.toNat

def adjacent (p q : Char → Bool) : List Char → Bool
  | a :: b :: cs => (p a && q b) || adjacent p q (b :: cs)
  | _ => false

def isSpace (c : Char) : Bool := c = ' '

def reservedFirst : List Char :=
  ['#', ',', '[', ']', '\x7b', '\x7d', '&', '*', '!', '|', '>', '\'', '"', '%', '@', '`']

def hasIndicator (cs : List Char) : Bool :=
  ["---".toList, "...".toList].contains (cs.take 3) ||
    cs.head?.any reservedFirst.contains ||
    (cs.head?.any ['?', '-'].contains && isGapOrEnd cs[1]?) ||
    adjacent (fun c => isGap c || isBreak c) (· = '#') cs ||
    adjacent (· = ':') (fun c => isGap c || isBreak c) cs || cs.getLast? = some ':'

def needsEscapes (cs : List Char) : Bool := !cs.all isShown || adjacent isSpace isBreak cs

def singleAllowed (cs : List Char) : Bool := !needsEscapes cs && !adjacent isBreak isSpace cs

def blockAllowed (cs : List Char) : Bool := !needsEscapes cs && cs.getLast? != some ' '

def plainAllowed (cs : List Char) : Bool :=
  !needsEscapes cs && !cs.any isBreak && !hasIndicator cs && cs.head? != some ' ' &&
    cs.getLast? != some ' '

/-- A plain text that would be read as something else than a string, or that looks like a number. -/
def isAmbiguous (s : String) : Bool :=
  match plainValue? s with
  | some (.string _) => isZeroPadded s
  | _ => true

def spaces (n : Nat) : List Char := List.replicate n ' '

def singleQuoted (indent : Nat) (cs : List Char) : List Char :=
  '\'' :: go false cs
where
  go : Bool → List Char → List Char
    | broken, [] => (if broken then spaces indent else []) ++ ['\'']
    | broken, c :: cs =>
      if isBreak c then c :: go true cs
      else
        (if broken then spaces indent else []) ++ (if c = '\'' then ['\'', c] else [c]) ++ go false cs

def hexDigit (n : Nat) : Char := if n < 10 then Char.ofNat (48 + n) else Char.ofNat (55 + n)

def hexDigits : (count : Nat) → Nat → List Char
  | 0, _ => []
  | count + 1, n => hexDigits count (n / 16) ++ [hexDigit (n % 16)]

def writtenEscapes : List (Char × Char) :=
  escapes.filter fun e => !([('\t', '\t'), (' ', ' '), ('/', '/')].contains e)

def escaped (c : Char) : List Char :=
  match writtenEscapes.find? (·.2 = c) with
  | some (e, _) => ['\\', e]
  | none =>
    if c.toNat ≤ 0xFF then '\\' :: 'x' :: hexDigits 2 c.toNat
    else if c.toNat ≤ 0xFFFF then '\\' :: 'u' :: hexDigits 4 c.toNat
    else '\\' :: 'U' :: hexDigits 8 c.toNat

def doubleQuoted (cs : List Char) : List Char :=
  '"' :: cs.flatMap (fun c => if isShown c && !isBreak c && c != '"' && c != '\\' then [c] else escaped c) ++
    ['"']

def blockScalar (indent : Nat) (cs : List Char) : List Char :=
  let indentation := if cs.head?.any fun c => c = ' ' || isBreak c then ['2'] else []
  let chomping := match cs.reverse with
    | last :: before =>
      if !isBreak last then ['-'] else if before.isEmpty || before.head?.any isBreak then ['+'] else []
    | [] => ['-']
  '|' :: indentation ++ chomping ++ '\n' :: go true cs
where
  go : Bool → List Char → List Char
    | _, [] => []
    | broken, c :: cs =>
      if isBreak c then c :: go true cs
      else (if broken then spaces indent else []) ++ c :: go false cs

def stringText (indent : Nat) (s : String) : List Char :=
  let cs := s.toList
  if cs.contains '\n' then
    if blockAllowed cs then blockScalar indent cs else doubleQuoted cs
  else if plainAllowed cs && !isAmbiguous s then cs
  else if singleAllowed cs then singleQuoted indent cs
  else doubleQuoted cs

def flatText? (indent : Nat) : Value → Option (List Char)
  | .null => some "null".toList
  | .bool b => some (toString b).toList
  | .number n => some n.text.toList
  | .string s => some (stringText indent s)
  | .sequence [] => some ['[', ']']
  | .mapping [] => some ['\x7b', '\x7d']
  | _ => none

def tagText (tag : String) : List Char :=
  let cs := match tag.toList with
    | '!' :: c :: cs => c :: cs
    | cs => cs
  let suffix := match cs with
    | '!' :: cs => cs
    | cs => cs
  '!' :: suffix.flatMap fun c =>
    if isWordChar c || ";/?:@&=+$,_.~*'()[]".toList.contains c then [c]
    else (Text.Utf8.encode [c]).flatMap fun b => '%' :: hexDigits 2 b.toNat

def maxInlineKey : Nat := 128

def inlineKey? (indent : Nat) : Value → Option (List Char)
  | .tagged tag v => go (tagText tag) v
  | v => go [] v
where
  go (tag : List Char) (v : Value) : Option (List Char) :=
    let fits : Bool := match v with
      | .string s => !s.toList.any isBreak && tag.length + s.utf8ByteSize ≤ maxInlineKey
      | _ => tag.length ≤ maxInlineKey
    if fits then (flatText? indent v).map fun cs => tag ++ (if tag.isEmpty then [] else [' ']) ++ cs
    else none

structure Place where
  column : Option Nat := none
  inMapping : Bool := false
  mayBegin : Bool := true

namespace Place

def gap (p : Place) : List Char := if p.column.isSome then [' '] else []

def indented (p : Place) : Nat := (p.column.map (· + 2)).getD 0

def scalarIndent (p : Place) : Nat := (p.column.map (· + 2)).getD 2

def sequenceColumn (p : Place) (tagged : Bool) : Nat :=
  match p.column with
  | some c => if p.inMapping && (tagged || !p.mayBegin) then c else c + 2
  | none => 0

def opening (p : Place) (tag : List Char) (column : Nat) : List Char :=
  if !tag.isEmpty then p.gap ++ tag ++ '\n' :: spaces column
  else if p.mayBegin then p.gap
  else '\n' :: spaces column

end Place

def nextLine (column : Nat) (before : List Char) : List Char :=
  (if before.getLast?.any isBreak then [] else ['\n']) ++ spaces column

mutual

def written (p : Place) (tag : List Char) : Value → List Char
  | .tagged t v => written p (tagText t) v
  | .sequence (v :: vs) =>
    let column := p.sequenceColumn (!tag.isEmpty)
    p.opening tag column ++ writtenItems column (v :: vs)
  | .mapping (e :: es) => p.opening tag p.indented ++ writtenEntries p.indented (e :: es)
  | v =>
    let cs := (flatText? p.scalarIndent v).getD []
    p.gap ++ tag ++ (if tag.isEmpty then [] else [' ']) ++ cs

def writtenItems (column : Nat) : List Value → List Char
  | [] => []
  | [v] => '-' :: written ⟨column, false, true⟩ [] v
  | v :: vs =>
    let item := '-' :: written ⟨column, false, true⟩ [] v
    item ++ nextLine column item ++ writtenItems column vs

def writtenEntry (column : Nat) : Value × Value → List Char
  | (k, v) =>
    match inlineKey? (column + 2) k with
    | some key => key ++ ':' :: written ⟨column, true, false⟩ [] v
    | none =>
      let key := '?' :: written ⟨column, true, true⟩ [] k
      key ++ nextLine column key ++ ':' :: written ⟨column, true, true⟩ [] v

def writtenEntries (column : Nat) : List (Value × Value) → List Char
  | [] => []
  | [e] => writtenEntry column e
  | e :: es =>
    let entry := writtenEntry column e
    entry ++ nextLine column entry ++ writtenEntries column es

end

end Yaml

def Value.toYaml (v : Value) : String := String.ofList (Text.trimEnd (Yaml.written {} [] v))

end Tabulate
