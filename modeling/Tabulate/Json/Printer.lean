/-! JSON text that is easy to read: each member and item on a line of its own, indented by its depth. -/
namespace Tabulate.Json

inductive Tree where
  | text (s : String)
  | count (n : Nat)
  | list (items : List Tree)
  | object (members : List (String × Tree))

def hexDigit (n : Nat) : Char := if n < 10 then Char.ofNat (48 + n) else Char.ofNat (87 + n)

def escaped (c : Char) : List Char :=
  if c = '"' then ['\\', '"']
  else if c = '\\' then ['\\', '\\']
  else if c = '\n' then ['\\', 'n']
  else if c = '\r' then ['\\', 'r']
  else if c = '\t' then ['\\', 't']
  else if c = '\x08' then ['\\', 'b']
  else if c = '\x0c' then ['\\', 'f']
  else if c.toNat < 0x20 then
    ['\\', 'u', '0', '0', hexDigit (c.toNat / 16), hexDigit (c.toNat % 16)]
  else [c]

def quoted (s : String) : List Char := '"' :: s.toList.flatMap escaped ++ ['"']

def newLine (depth : Nat) : List Char := '\n' :: List.replicate (2 * depth) ' '

def bracketed (opening closing : Char) (depth : Nat) (pieces : List (List Char)) : List Char :=
  if pieces.isEmpty then [opening, closing]
  else opening :: newLine (depth + 1) ++ (',' :: newLine (depth + 1)).intercalate pieces ++
    newLine depth ++ [closing]

mutual

def Tree.written (depth : Nat) : Tree → List Char
  | .text s => quoted s
  | .count n => Nat.toDigits 10 n
  | .list items => bracketed '[' ']' depth (writtenItems (depth + 1) items)
  | .object members => bracketed '\x7b' '\x7d' depth (writtenMembers (depth + 1) members)
termination_by structural t => t

def writtenItems (depth : Nat) : List Tree → List (List Char)
  | [] => []
  | t :: ts => t.written depth :: writtenItems depth ts
termination_by structural ts => ts

def writtenMember (depth : Nat) : String × Tree → List Char
  | (key, t) => quoted key ++ [':', ' '] ++ t.written depth
termination_by structural m => m

def writtenMembers (depth : Nat) : List (String × Tree) → List (List Char)
  | [] => []
  | m :: ms => writtenMember depth m :: writtenMembers depth ms
termination_by structural ms => ms

end

def Tree.pretty (t : Tree) : String := String.ofList (t.written 0)

end Tabulate.Json
