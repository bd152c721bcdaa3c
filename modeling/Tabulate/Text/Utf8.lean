/-! Characters as UTF-8 bytes. Reading never fails: what is no character is answered as a gap, one
gap for each longest start of a character that breaks off. A text can be cut at a byte only where a
character begins or the text ends. -/
namespace Tabulate.Text

def byteLength : List Char → Nat
  | [] => 0
  | c :: cs => c.utf8Size + byteLength cs

/-- Every character with the byte that it begins at. -/
def charIndices : Nat → List Char → List (Nat × Char)
  | _, [] => []
  | i, c :: cs => (i, c) :: charIndices (i + c.utf8Size) cs

def boundaries (cs : List Char) : List Nat := (charIndices 0 cs).map Prod.fst ++ [byteLength cs]

def slice? (cs : List Char) (i j : Nat) : Option (List Char) :=
  if i ≤ j ∧ i ∈ boundaries cs ∧ j ∈ boundaries cs then
    some (((charIndices 0 cs).filter fun x => i ≤ x.1 && x.1 < j).map Prod.snd)
  else none

namespace Utf8

def encode (cs : List Char) : List UInt8 := cs.flatMap String.utf8EncodeChar

/-- A character whose first bytes have been read: their share of the code point, the count of bytes
still to come and the range of the next one. -/
structure Partial where
  value : Nat
  missing : Nat
  lo : Nat
  hi : Nat

def Partial.ofLead? (b : Nat) : Option Partial :=
  if 0xC2 ≤ b ∧ b ≤ 0xDF then some ⟨b - 0xC0, 1, 0x80, 0xBF⟩
  else if b = 0xE0 then some ⟨0, 2, 0xA0, 0xBF⟩
  else if b = 0xED then some ⟨0xD, 2, 0x80, 0x9F⟩
  else if 0xE1 ≤ b ∧ b ≤ 0xEF then some ⟨b - 0xE0, 2, 0x80, 0xBF⟩
  else if b = 0xF0 then some ⟨0, 3, 0x90, 0xBF⟩
  else if 0xF1 ≤ b ∧ b ≤ 0xF3 then some ⟨b - 0xF0, 3, 0x80, 0xBF⟩
  else if b = 0xF4 then some ⟨4, 3, 0x80, 0x8F⟩
  else none

def Partial.takes (p : Partial) (b : Nat) : Bool := p.lo ≤ b && b ≤ p.hi

def Partial.add (p : Partial) (b : Nat) : Partial :=
  ⟨p.value * 64 + (b - 0x80), p.missing - 1, 0x80, 0xBF⟩

def start (b : Nat) : List (Option Char) × Option Partial :=
  if b < 0x80 then ([some (Char.ofNat b)], none)
  else match Partial.ofLead? b with
    | some p => ([], some p)
    | none => ([none], none)

def step : Option Partial → Nat → List (Option Char) × Option Partial
  | none, b => start b
  | some p, b =>
    if p.takes b then
      if p.missing = 1 then ([some (Char.ofNat (p.add b).value)], none) else ([], some (p.add b))
    else (none :: (start b).1, (start b).2)

def scan : Option Partial → List UInt8 → List (Option Char)
  | none, [] => []
  | some _, [] => [none]
  | open?, b :: bs => (step open? b.toNat).1 ++ scan (step open? b.toNat).2 bs

def decodeLossy (bs : List UInt8) : List Char := (scan none bs).map (·.getD '\uFFFD')

def decode? (bs : List UInt8) : Option (List Char) := (scan none bs).mapM id

end Utf8

end Tabulate.Text
