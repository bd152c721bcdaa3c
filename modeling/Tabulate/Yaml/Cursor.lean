/-! A place in a YAML text, and the characters that count as blanks and line breaks there. -/
namespace Tabulate.Yaml

structure Cursor where
  rest : List Char
  index : Nat := 0
  line : Nat := 0
  column : Nat := 0

def isGap (c : Char) : Bool := c = ' ' || c = '\t'

def isBreak (c : Char) : Bool :=
  c = '\n' || c = '\r' || c = '\u0085' || c = '\u2028' || c = '\u2029'

def isGapOrEnd : Option Char → Bool
  | some c => isGap c || isBreak c
  | none => true

def isBreakOrEnd : Option Char → Bool
  | some c => isBreak c
  | none => true

def isWordChar (c : Char) : Bool := c.isAlphanum || c = '-' || c = '_'

/-- Characters a text may consist of. -/
def isPermitted (c : Char) : Bool :=
  c = '\t' || c = '\n' || c = '\r' || c = '\u0085' || (0x20 ≤ c.toNat && c.toNat ≤ 0x7E) ||
    (0xA0 ≤ c.toNat && c.toNat ≤ 0xFFFD) || 0x10000 ≤ c.toNat

namespace Cursor

def char? (k : Cursor) (offset : Nat) : Option Char := k.rest[offset]?

def atEnd (k : Cursor) : Bool := k.rest.isEmpty

def skip (k : Cursor) (n : Nat) : Cursor :=
  { k with rest := k.rest.drop n, index := k.index + n, column := k.column + n }

def takeBreak (k : Cursor) : List Char × Cursor :=
  match k.rest with
  | '\r' :: '\n' :: rest => (['\n'], ⟨rest, k.index + 2, k.line + 1, 0⟩)
  | c :: rest =>
    if isBreak c then
      ([if c = '\u2028' ∨ c = '\u2029' then c else '\n'], ⟨rest, k.index + 1, k.line + 1, 0⟩)
    else ([], k)
  | [] => ([], k)

def skipBreak (k : Cursor) : Cursor := k.takeBreak.2

def takeWhile (p : Char → Bool) (k : Cursor) : List Char × Cursor :=
  let run := k.rest.takeWhile p
  (run, k.skip run.length)

def skipWhile (p : Char → Bool) (k : Cursor) : Cursor := (k.takeWhile p).2

def skipOrderMark (k : Cursor) : Cursor :=
  if k.column = 0 && k.char? 0 = some '\uFEFF' then k.skip 1 else k

def atMarker (k : Cursor) (mark : String) : Bool :=
  k.column = 0 && k.rest.take 3 = mark.toList && isGapOrEnd (k.char? 3)

def atDocumentMarker (k : Cursor) : Bool := k.atMarker "---" || k.atMarker "..."

end Cursor

end Tabulate.Yaml
