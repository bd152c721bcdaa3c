/-! Texts as lists of characters. A blank is any character with Unicode's `White_Space` property, and the
normal form of a text is its words with one space between. Fixed patterns are found and replaced, and
characters are shown in messages in quotes, and by their code point where they would not be seen. -/
namespace Tabulate.Text

def blankRanges : List (Nat × Nat) :=
  [(0x9, 0xD), (0x20, 0x20), (0x85, 0x85), (0xA0, 0xA0), (0x1680, 0x1680), (0x2000, 0x200A),
   (0x2028, 0x2029), (0x202F, 0x202F), (0x205F, 0x205F), (0x3000, 0x3000)]

def isBlank (c : Char) : Bool :=
  blankRanges.any fun r => r.1 ≤ c.toNat && c.toNat ≤ r.2

def trimStart (cs : List Char) : List Char := cs.dropWhile isBlank

def trimEnd (cs : List Char) : List Char := (cs.reverse.dropWhile isBlank).reverse

def trim (cs : List Char) : List Char := trimEnd (trimStart cs)

def words (cs : List Char) : List (List Char) :=
  (cs.splitOnP isBlank).filter fun w => !w.isEmpty

def normalize (s : String) : String :=
  String.ofList ([' '].intercalate (words s.toList))

example : isBlank ' ' ∧ isBlank '\n' ∧ isBlank (Char.ofNat 0x3000) ∧ !isBlank (Char.ofNat 0x200B) := by
  decide

theorem append_cons_inj {α : Type} {a : α} {xs ys us vs : List α} (h : xs ++ a :: ys = us ++ a :: vs)
    (hy : a ∉ ys) (hv : a ∉ vs) : xs = us ∧ ys = vs := by
  rcases List.append_eq_append_iff.1 h with ⟨as, hu, ha⟩ | ⟨as, hx, ha⟩
  · cases as with
    | nil => exact ⟨by simpa using hu.symm, (List.cons.inj ha).2⟩
    | cons b bs => exact absurd ((List.cons.inj ha).2 ▸ by simp) hy
  · cases as with
    | nil => exact ⟨by simpa using hx, (List.cons.inj ha).2.symm⟩
    | cons b bs => exact absurd ((List.cons.inj ha).2 ▸ by simp) hv

def after? : List Char → List Char → Option (List Char)
  | [], cs => some cs
  | _ :: _, [] => none
  | p :: ps, c :: cs => if p = c then after? ps cs else none

theorem after?_eq_some_iff {p cs rest : List Char} : after? p cs = some rest ↔ cs = p ++ rest := by
  induction p generalizing cs with
  | nil => simp [after?, eq_comm]
  | cons a p ih =>
    cases cs with
    | nil => simp [after?]
    | cons c cs => by_cases h : a = c <;> simp [after?, h, ih]; exact fun e => absurd e.symm h

def startsWith (p cs : List Char) : Bool := (after? p cs).isSome

def cut? (p : List Char) : List Char → Option (List Char × List Char)
  | [] => (after? p []).map ([], ·)
  | c :: cs =>
    match after? p (c :: cs) with
    | some rest => some ([], rest)
    | none => (cut? p cs).map fun r => (c :: r.1, r.2)

theorem eq_of_cut? {p cs before rest : List Char} (h : cut? p cs = some (before, rest)) :
    cs = before ++ p ++ rest := by
  induction cs generalizing before with
  | nil =>
    simp only [cut?, Option.map_eq_some_iff, Prod.mk.injEq] at h
    obtain ⟨r, hr, rfl, rfl⟩ := h
    simpa using after?_eq_some_iff.1 hr
  | cons c cs ih =>
    rw [cut?] at h
    split at h
    · next r hr =>
      simp only [Option.some.injEq, Prod.mk.injEq] at h
      obtain ⟨rfl, rfl⟩ := h
      simpa using after?_eq_some_iff.1 hr
    · simp only [Option.map_eq_some_iff, Prod.mk.injEq] at h
      obtain ⟨r, hr, rfl, rfl⟩ := h
      simpa using ih hr

def contains (p cs : List Char) : Bool := (cut? p cs).isSome

/-- Replace every occurrence of a pattern; the first argument counts the characters that belong
to an occurrence already replaced. An empty pattern occurs before every character and at the end. -/
def replaceFrom (p r : List Char) : Nat → List Char → List Char
  | k + 1, _ :: cs => replaceFrom p r k cs
  | _ + 1, [] => []
  | 0, [] => if p.isEmpty then r else []
  | 0, c :: cs =>
    if p.isEmpty then r ++ c :: replaceFrom p r 0 cs
    else if startsWith p (c :: cs) then r ++ replaceFrom p r (p.length - 1) cs
    else c :: replaceFrom p r 0 cs

def replace (p r s : String) : String :=
  String.ofList (replaceFrom p.toList r.toList 0 s.toList)

def lines (cs : List Char) : List (List Char) :=
  let pieces := cs.splitOn '\n'
  -- no line follows the last end
  let ended := if pieces.getLast? = some [] then pieces.dropLast else pieces
  match ended.getLast? with
  | none => []
  | some last =>
    ended.dropLast.map dropReturn ++ [if pieces.length = ended.length then last else dropReturn last]
where
  dropReturn (line : List Char) : List Char :=
    if line.getLast? = some '\r' then line.dropLast else line

/-- Inclusive ranges of code points outside ASCII that are not shown: controls, separators, marks that
join what is before them, characters that only direct the layout, and those for private use or none. -/
def hiddenRanges : List (Nat × Nat) :=
  [(0x80, 0xA0), (0xAD, 0xAD), (0x300, 0x36F), (0x378, 0x379), (0x483, 0x489), (0x591, 0x5BD),
   (0x600, 0x605), (0x610, 0x61A), (0x61C, 0x61C), (0x64B, 0x65F), (0x6DD, 0x6DD), (0x70F, 0x70F),
   (0x1680, 0x1680), (0x180B, 0x180F), (0x1AB0, 0x1AFF), (0x1DC0, 0x1DFF), (0x2000, 0x200F),
   (0x2028, 0x202F), (0x205F, 0x206F), (0x20D0, 0x20F0), (0x3000, 0x3000), (0x302A, 0x302F),
   (0x3099, 0x309A), (0xE000, 0xF8FF), (0xFE00, 0xFE0F), (0xFE20, 0xFE2F), (0xFEFF, 0xFEFF),
   (0xFF9E, 0xFF9F), (0xFFF0, 0xFFFB), (0xFFFE, 0xFFFF), (0x1D173, 0x1D17A), (0xE0000, 0x10FFFF)]

def isHidden (c : Char) : Bool :=
  c.toNat < 0x20 || c.toNat = 0x7F || hiddenRanges.any fun r => r.1 ≤ c.toNat && c.toNat ≤ r.2

def quoteChar (c : Char) : String :=
  let inner :=
    if c = '\'' then "\\'"
    else if c = '\\' then "\\\\"
    else if c = '\t' then "\\t"
    else if c = '\r' then "\\r"
    else if c = '\n' then "\\n"
    else if c.toNat = 0 then "\\0"
    else if isHidden c then "\\u\x7b" ++ String.ofList (Nat.toDigits 16 c.toNat) ++ "\x7d"
    else c.toString
  "'" ++ inner ++ "'"

end Tabulate.Text
