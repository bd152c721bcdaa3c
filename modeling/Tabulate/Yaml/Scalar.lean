import Tabulate.Yaml.Cursor

/-! The text of scalars. Breaks inside plain and quoted scalars are folded: a single one becomes a
space, and of several the first is dropped. Block scalars keep their lines or fold them. -/
namespace Tabulate.Yaml

structure Pending where
  gaps : List Char := []
  first : List Char := []
  more : List Char := []
  broken : Bool := false

namespace Pending

def isEmpty (p : Pending) : Bool := p.gaps.isEmpty && !p.broken

def text (p : Pending) : List Char :=
  if p.broken then
    if p.first = ['\n'] then (if p.more.isEmpty then [' '] else p.more) else p.first ++ p.more
  else p.gaps

/-- Read gaps and breaks. In a plain scalar a tab may not stand before column `indent` of a later
line. -/
def read? (indent : Option Int) : Nat → Pending → Cursor → Option (Pending × Cursor)
  | 0, p, k => some (p, k)
  | fuel + 1, p, k =>
    match k.rest with
    | [] => some (p, k)
    | c :: _ =>
      if isGap c then
        if p.broken then
          if c = '\t' && indent.any (fun i => (k.column : Int) < i) then none
          else read? indent fuel p (k.skip 1)
        else read? indent fuel { p with gaps := p.gaps ++ [c] } (k.skip 1)
      else if isBreak c then
        let (b, k) := k.takeBreak
        if p.broken then read? indent fuel { p with more := p.more ++ b } k
        else read? indent fuel { p with gaps := [], first := b, broken := true } k
      else some (p, k)

end Pending

def endsPlain (inFlow : Bool) (c : Char) (next : Option Char) : Bool :=
  (c = ':' && isGapOrEnd next) || (inFlow && [',', '[', ']', '{', '}'].contains c)

def misplacedColon (inFlow : Bool) (c : Char) (next : Option Char) : Bool :=
  inFlow && c = ':' && next.any fun n => [',', '?', '[', ']', '{', '}'].contains n

def plainWord? (inFlow : Bool) : Nat → Cursor → Option (List Char × Cursor)
  | 0, k => some ([], k)
  | fuel + 1, k =>
    match k.rest with
    | [] => some ([], k)
    | c :: _ =>
      if isGap c || isBreak c then some ([], k)
      else if misplacedColon inFlow c (k.char? 1) then none
      else if endsPlain inFlow c (k.char? 1) then some ([], k)
      else (plainWord? inFlow fuel (k.skip 1)).map fun r => (c :: r.1, r.2)

def plain? (inFlow : Bool) (indent : Int) : Nat → Pending → Cursor →
    Option (List Char × Bool × Cursor)
  | 0, _, _ => none
  | fuel + 1, p, k => do
    if k.atDocumentMarker || k.char? 0 = some '#' then return ([], p.broken, k)
    let (word, k) ← plainWord? inFlow (k.rest.length + 1) k
    let front := if word.isEmpty then [] else p.text ++ word
    let p := if word.isEmpty then p else {}
    if (k.char? 0).any fun c => isGap c || isBreak c then
      let (p, k) ← p.read? (some indent) (k.rest.length + 1) k
      if !inFlow && k.column < indent then return (front, p.broken, k)
      let (text, broken, k) ← plain? inFlow indent fuel p k
      return (front ++ text, broken, k)
    else return (front, p.broken, k)

def hexDigit? (c : Char) : Option Nat :=
  if '0' ≤ c ∧ c ≤ '9' then some (c.toNat - 48)
  else if 'a' ≤ c ∧ c ≤ 'f' then some (c.toNat - 87)
  else if 'A' ≤ c ∧ c ≤ 'F' then some (c.toNat - 55)
  else none

def escapes : List (Char × Char) :=
  [('0', '\x00'), ('a', '\x07'), ('b', '\x08'), ('t', '\t'), ('\t', '\t'), ('n', '\n'),
   ('v', '\x0B'), ('f', '\x0C'), ('r', '\r'), ('e', '\x1B'), (' ', ' '), ('"', '"'), ('/', '/'),
   ('\\', '\\'), ('N', '\u0085'), ('_', '\u00A0'), ('L', '\u2028'), ('P', '\u2029')]

def codeEscapes : List (Char × Nat) := [('x', 2), ('u', 4), ('U', 8)]

/-- The character that an escape stands for, its backslash already read. -/
def escape? (k : Cursor) : Option (Char × Cursor) := do
  let c ← k.char? 0
  match escapes.lookup c, codeEscapes.lookup c with
  | some e, _ => some (e, k.skip 1)
  | none, some count => do
    let digits := (k.rest.drop 1).take count
    if digits.length < count then none
    else
      let values ← digits.mapM hexDigit?
      let n := values.foldl (fun n d => n * 16 + d) 0
      if n.isValidChar then some (Char.ofNat n, k.skip (count + 1)) else none
  | none, none => none

def quotedWord? (single : Bool) : Nat → Cursor → Option (List Char × Bool × Cursor)
  | 0, k => some ([], false, k)
  | fuel + 1, k =>
    let go (c : Char) (k : Cursor) : Option (List Char × Bool × Cursor) :=
      (quotedWord? single fuel k).map fun r => (c :: r.1, r.2)
    match k.rest with
    | [] => some ([], false, k)
    | c :: rest =>
      if isGap c || isBreak c then some ([], false, k)
      else if single && c = '\'' then
        if rest.head? = some '\'' then go '\'' (k.skip 2) else some ([], false, k)
      else if !single && c = '"' then some ([], false, k)
      else if !single && c = '\\' then
        if rest.head?.any isBreak then some ([], true, (k.skip 1).skipBreak)
        else match escape? (k.skip 1) with
          | some (e, k) => go e k
          | none => none
      else go c (k.skip 1)

def quoted? (single : Bool) : Nat → Cursor → Option (List Char × Cursor)
  | 0, _ => none
  | fuel + 1, k => do
    if k.atDocumentMarker || k.atEnd then none
    else
      let (word, broken, k) ← quotedWord? single (k.rest.length + 1) k
      if k.char? 0 = some (if single then '\'' else '"') then some (word, k.skip 1)
      else
        let (p, k) ← ({ broken := broken } : Pending).read? none (k.rest.length + 1) k
        let (text, k) ← quoted? single fuel k
        some (word ++ p.text ++ text, k)

inductive Chomping where
  | strip
  | clip
  | keep
deriving DecidableEq

def blockHeader? (k : Cursor) : Option (Chomping × Nat × Cursor) :=
  let chomping? (k : Cursor) : Chomping × Cursor :=
    match k.char? 0 with
    | some '+' => (.keep, k.skip 1)
    | some '-' => (.strip, k.skip 1)
    | _ => (.clip, k)
  let indent? (k : Cursor) : Option (Nat × Cursor) :=
    match k.char? 0 with
    | some c =>
      if c = '0' then none else if c.isDigit then some (c.toNat - 48, k.skip 1) else some (0, k)
    | none => some (0, k)
  match chomping? k with
  | (.clip, k) => do
    let (indent, k) ← indent? k
    if indent = 0 then some (.clip, 0, k)
    else let (chomping, k) := chomping? k; some (chomping, indent, k)
  | (chomping, k) => do
    let (indent, k) ← indent? k
    some (chomping, indent, k)

/-- Skip indentation and blank lines in a block scalar. An indentation of zero is not known yet;
answers the breaks skipped and the widest indentation met. -/
def blockBreaks? (indent : Int) : Nat → Int → Cursor → Option (List Char × Int × Cursor)
  | 0, widest, k => some ([], widest, k)
  | fuel + 1, widest, k =>
    let blanks := k.rest.takeWhile (· = ' ')
    let room := if indent = 0 then blanks.length else min blanks.length (indent - k.column).toNat
    let k := k.skip room
    let widest := max widest k.column
    if (indent = 0 || k.column < indent) && k.char? 0 = some '\t' then none
    else if (k.char? 0).any isBreak then
      let (b, k) := k.takeBreak
      (blockBreaks? indent fuel widest k).map fun r => (b ++ r.1, r.2)
    else some ([], widest, k)

/-- The lines of a block scalar. `first` is the break before the next line, `more` are the breaks of
blank lines behind it, and `gapBefore` says that the line before began with a gap. -/
def blockLines? (literal : Bool) (chomping : Chomping) (indent : Int) :
    Nat → (first more : List Char) → (gapBefore : Bool) → Cursor → Option (List Char × Cursor)
  | 0, _, _, _, _ => none
  | fuel + 1, first, more, gapBefore, k =>
    if k.column = indent && !k.atEnd then do
      let gap := (k.char? 0).any isGap
      let joint :=
        if !literal && first = ['\n'] && !gapBefore && !gap then
          (if more.isEmpty then [' '] else more)
        else first ++ more
      let (line, k) := k.takeWhile fun c => !isBreak c
      let (first, k) := k.takeBreak
      let (more, _, k) ← blockBreaks? indent (k.rest.length + 1) 0 k
      let (text, k) ← blockLines? literal chomping indent fuel first more gap k
      some (joint ++ line ++ text, k)
    else
      let tail := match chomping with
        | .strip => []
        | .clip => first
        | .keep => first ++ more
      some (tail, k)

def block? (literal : Bool) (parent : Int) (k : Cursor) : Option (List Char × Cursor) := do
  let (chomping, increment, k) ← blockHeader? k
  let k := k.skipWhile isGap
  let k := if k.char? 0 = some '#' then k.skipWhile fun c => !isBreak c else k
  if !isBreakOrEnd (k.char? 0) then none
  else
    let k := k.skipBreak
    let given : Int := if increment = 0 then 0 else if parent ≥ 0 then parent + increment else increment
    let (more, widest, k) ← blockBreaks? given (k.rest.length + 1) 0 k
    let indent := if given = 0 then max widest (max (parent + 1) 1) else given
    blockLines? literal chomping indent (k.rest.length + 2) [] more false k

end Tabulate.Yaml
