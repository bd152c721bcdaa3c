import Tabulate.Yaml.Scalar

/-! The tokens of a YAML text. Indentation opens and closes blocks, and a colon turns what stands
before it on its line into a key, so that tokens for the key and its block are put in before what
has been read already. -/
namespace Tabulate.Yaml

inductive Token where
  | version (major minor : Nat)
  | tagHandle (handle lead : List Char)
  | documentStart
  | documentEnd
  | blockSequence
  | blockMapping
  | blockEnd
  | flowSequence
  | flowSequenceEnd
  | flowMapping
  | flowMappingEnd
  | blockEntry
  | flowEntry
  | key
  | value
  | alias (name : List Char)
  | anchor (name : List Char)
  | tag (handle suffix : List Char)
  | scalar (text : List Char) (plain : Bool)
deriving DecidableEq, Repr

structure KeyPlace where
  required : Bool
  tokens : Nat
  index : Nat
  line : Nat
  column : Nat

/-- A text being scanned: whether a key may begin here, the place of a possible key for each open
flow collection and for the block around them, the columns of the open blocks, and the tokens so
far, newest first. -/
structure Scanner where
  cursor : Cursor
  flow : Nat := 0
  keyAllowed : Bool := true
  keys : List (Option KeyPlace) := [none]
  indent : Int := -1
  outer : List Int := []
  tokens : List Token := []
  count : Nat := 0

def maxKeyLength : Nat := 1024

namespace Scanner

def inFlow (s : Scanner) : Bool := s.flow > 0

def push (s : Scanner) (t : Token) : Scanner :=
  { s with tokens := t :: s.tokens, count := s.count + 1 }

/-- Put a token in after the first `n` tokens. -/
def insertAt (s : Scanner) (n : Nat) (t : Token) : Scanner :=
  let late := s.count - n
  { s with tokens := s.tokens.take late ++ t :: s.tokens.drop late, count := s.count + 1 }

def skip (s : Scanner) (n : Nat) : Scanner := { s with cursor := s.cursor.skip n }

def columnHere (s : Scanner) : Int := s.cursor.column

def nextIsGap (s : Scanner) : Bool := isGapOrEnd (s.cursor.char? 1)

/-- Give up a possible key, which must not be a required one. -/
def dropKey? (s : Scanner) : Option Scanner :=
  match s.keys with
  | some k :: ks => if k.required then none else some { s with keys := none :: ks }
  | _ => some s

def noteKey? (s : Scanner) : Option Scanner := do
  if !s.keyAllowed then some s
  else
    let required := !s.inFlow && s.indent = s.columnHere
    let place : KeyPlace :=
      ⟨required, s.count, s.cursor.index, s.cursor.line, s.cursor.column⟩
    let s ← s.dropKey?
    some { s with keys := some place :: s.keys.drop 1 }

def dropStaleKeys? (s : Scanner) : Option Scanner := do
  let keys ← s.keys.mapM fun
    | some k =>
      if k.line < s.cursor.line || k.index + maxKeyLength < s.cursor.index then
        if k.required then none else some none
      else some (some k)
    | none => some none
  some { s with keys := keys }

def openBlock (s : Scanner) (column : Int) (n : Nat) (t : Token) : Scanner :=
  if s.inFlow || s.indent ≥ column then s
  else { s.insertAt n t with indent := column, outer := s.indent :: s.outer }

def closeBlocks (s : Scanner) (column : Int) : Scanner :=
  if s.inFlow then s else go s.outer s
where
  go : List Int → Scanner → Scanner
    | [], s => s
    | o :: os, s => if s.indent > column then go os { s.push .blockEnd with indent := o, outer := os } else s

def toNextToken : Nat → Scanner → Scanner
  | 0, s => s
  | fuel + 1, s =>
    let k := s.cursor.skipOrderMark.skipWhile fun c => c = ' ' || ((s.inFlow || !s.keyAllowed) && c = '\t')
    let k := if k.char? 0 = some '#' then k.skipWhile fun c => !isBreak c else k
    if (k.char? 0).any isBreak then
      toNextToken fuel { s with cursor := k.skipBreak, keyAllowed := s.keyAllowed || !s.inFlow }
    else { s with cursor := k }

def number? (k : Cursor) : Option (Nat × Cursor) :=
  let (digits, rest) := k.takeWhile Char.isDigit
  if digits.isEmpty || digits.length > 9 then none
  else some (digits.foldl (fun n d => n * 10 + (d.toNat - 48)) 0, rest)

def tagHandle? (directive : Bool) (k : Cursor) : Option (List Char × Cursor) :=
  if k.char? 0 != some '!' then none
  else
    let (word, k) := (k.skip 1).takeWhile isWordChar
    if k.char? 0 = some '!' then some ('!' :: word ++ ['!'], k.skip 1)
    else if directive && !word.isEmpty then none
    else some ('!' :: word, k)

def uriMarks : List Char :=
  [';', '/', '?', ':', '@', '&', '=', '+', '$', '.', '!', '~', '*', '\'', '(', ')', '%']

def uriEscape? (k : Cursor) : Option (Char × Cursor) := do
  let byte? (k : Cursor) : Option (Nat × Cursor) :=
    match k.rest with
    | '%' :: a :: b :: _ => do some ((← hexDigit? a) * 16 + (← hexDigit? b), k.skip 3)
    | _ => none
  let (lead, k) ← byte? k
  let further (n : Nat) (value : Nat) (k : Cursor) : Option (Nat × Cursor) :=
    (List.range n).foldlM (fun (v, k) _ => do
      let (b, k) ← byte? k
      if b / 64 = 2 then some (v * 64 + b % 64, k) else none) (value, k)
  let (value, k) ←
    if lead < 0x80 then some (lead, k)
    else if lead / 32 = 6 then further 1 (lead % 32) k
    else if lead / 16 = 14 then further 2 (lead % 16) k
    else if lead / 8 = 30 then further 3 (lead % 8) k
    else none
  if value.isValidChar then some (Char.ofNat value, k) else none

def uri? (verbatim : Bool) : Nat → Cursor → Option (List Char × Cursor)
  | 0, k => some ([], k)
  | fuel + 1, k =>
    match k.char? 0 with
    | none => some ([], k)
    | some c =>
      if c = '%' then do
        let (c, k) ← uriEscape? k
        let (cs, k) ← uri? verbatim fuel k
        some (c :: cs, k)
      else if isWordChar c || uriMarks.contains c || (verbatim && [',', '[', ']'].contains c) then do
        let (cs, k) ← uri? verbatim fuel (k.skip 1)
        some (c :: cs, k)
      else some ([], k)

def tag? (inFlow : Bool) (k : Cursor) : Option (Token × Cursor) := do
  let fuel := k.rest.length
  let (token, k) ←
    if k.char? 1 = some '<' then do
      let (suffix, k) ← uri? true fuel (k.skip 2)
      if suffix.isEmpty || k.char? 0 != some '>' then none else some (Token.tag [] suffix, k.skip 1)
    else do
      let (handle, k) ← tagHandle? false k
      if handle.length > 1 && handle.getLast? = some '!' then
        let (suffix, k) ← uri? false fuel k
        if suffix.isEmpty then none else some (Token.tag handle suffix, k)
      else
        let (more, k) ← uri? false fuel k
        let suffix := handle.drop 1 ++ more
        some (if suffix.isEmpty then Token.tag [] ['!'] else Token.tag ['!'] suffix, k)
  if isGapOrEnd (k.char? 0) || (inFlow && k.char? 0 = some ',') then some (token, k) else none

def directive? (k : Cursor) : Option (Token × Cursor) := do
  let (name, k) := (k.skip 1).takeWhile isWordChar
  if name.isEmpty || !isGapOrEnd (k.char? 0) then none
  else
    let k := k.skipWhile isGap
    let (token, k) ←
      if name = "YAML".toList then do
        let (major, k) ← number? k
        if k.char? 0 != some '.' then none
        else
          let (minor, k) ← number? (k.skip 1)
          some (Token.version major minor, k)
      else if name = "TAG".toList then do
        let (handle, k) ← tagHandle? true k
        if !(k.char? 0).any isGap then none
        else
          let (lead, k) ← uri? true k.rest.length (k.skipWhile isGap)
          if lead.isEmpty || !isGapOrEnd (k.char? 0) then none
          else some (Token.tagHandle handle lead, k)
      else none
    let k := k.skipWhile isGap
    let k := if k.char? 0 = some '#' then k.skipWhile fun c => !isBreak c else k
    if isBreakOrEnd (k.char? 0) then some (token, k.skipBreak) else none

def anchorName? (k : Cursor) : Option (List Char × Cursor) :=
  let (name, k) := k.takeWhile isWordChar
  let ends := isGapOrEnd (k.char? 0) ||
    (k.char? 0).any fun c => ['?', ':', ',', ']', '}', '%', '@', '`'].contains c
  if name.isEmpty || !ends then none else some (name, k)

def leaveBlocks? (s : Scanner) : Option Scanner := do
  let s ← (s.closeBlocks (-1)).dropKey?
  some { s with keyAllowed := false }

def indicator? (s : Scanner) (t : Token) (keyAllowed : Bool) : Option Scanner := do
  let s ← s.dropKey?
  some { (s.skip 1).push t with keyAllowed := keyAllowed }

/-- An indicator that opens a block where it stands, if it stands in a block. -/
def blockIndicator? (s : Scanner) (block t : Token) (keyAllowed : Bool) : Option Scanner :=
  if s.inFlow then s.indicator? t keyAllowed
  else if s.keyAllowed then (s.openBlock s.columnHere s.count block).indicator? t keyAllowed
  else none

def openFlow? (s : Scanner) (t : Token) : Option Scanner := do
  let s ← s.noteKey?
  some { (s.skip 1).push t with flow := s.flow + 1, keys := none :: s.keys, keyAllowed := true }

def closeFlow? (s : Scanner) (t : Token) : Option Scanner := do
  let s ← s.dropKey?
  let s := (s.skip 1).push t
  some { s with
    flow := s.flow - 1
    keys := if s.inFlow then s.keys.drop 1 else s.keys
    keyAllowed := false }

def keyEnd? (s : Scanner) : Option Scanner :=
  match s.keys with
  | some k :: ks =>
    let s := (s.insertAt k.tokens .key).openBlock k.column k.tokens .blockMapping
    some { (s.skip 1).push .value with keys := none :: ks, keyAllowed := false }
  | _ =>
    if s.inFlow then some { (s.skip 1).push .value with keyAllowed := false }
    else if s.keyAllowed then
      let s := s.openBlock s.columnHere s.count .blockMapping
      some { (s.skip 1).push .value with keyAllowed := true }
    else none

def node? (s : Scanner) (read : Cursor → Option (Token × Cursor)) : Option Scanner := do
  let s ← s.noteKey?
  let (t, k) ← read s.cursor
  some { s.push t with cursor := k, keyAllowed := false }

def blockScalar? (s : Scanner) (literal : Bool) : Option Scanner := do
  let s ← s.dropKey?
  let (text, k) ← block? literal s.indent (s.cursor.skip 1)
  some { s.push (.scalar text false) with cursor := k, keyAllowed := true }

def plainScalar? (s : Scanner) : Option Scanner := do
  let s ← s.noteKey?
  let (text, broken, k) ← plain? s.inFlow (s.indent + 1) (s.cursor.rest.length + 1) {} s.cursor
  some { s.push (.scalar text true) with cursor := k, keyAllowed := broken }

def indicators : List Char :=
  ['-', '?', ':', ',', '[', ']', '{', '}', '#', '&', '*', '!', '|', '>', '\'', '"', '%', '@', '`']

def beginsPlain (s : Scanner) (c : Char) : Bool :=
  (!indicators.contains c && !isGap c) || (c = '-' && !(s.cursor.char? 1).any isGap) ||
    (!s.inFlow && (c = '?' || c = ':') && !s.nextIsGap)

def token? (s : Scanner) (c : Char) : Option Scanner :=
  if s.cursor.column = 0 && c = '%' then do
    let s ← s.leaveBlocks?
    let (t, k) ← directive? s.cursor
    some { s.push t with cursor := k }
  else if s.cursor.atMarker "---" then do some ((← s.leaveBlocks?).skip 3 |>.push .documentStart)
  else if s.cursor.atMarker "..." then do some ((← s.leaveBlocks?).skip 3 |>.push .documentEnd)
  else if c = '[' then s.openFlow? .flowSequence
  else if c = '{' then s.openFlow? .flowMapping
  else if c = ']' then s.closeFlow? .flowSequenceEnd
  else if c = '}' then s.closeFlow? .flowMappingEnd
  else if c = ',' then s.indicator? .flowEntry true
  else if c = '-' && s.nextIsGap then s.blockIndicator? .blockSequence .blockEntry true
  else if c = '?' && (s.inFlow || s.nextIsGap) then s.blockIndicator? .blockMapping .key (!s.inFlow)
  else if c = ':' && (s.inFlow || s.nextIsGap) then s.keyEnd?
  else if c = '*' then s.node? fun k => (anchorName? (k.skip 1)).map fun r => (.alias r.1, r.2)
  else if c = '&' then s.node? fun k => (anchorName? (k.skip 1)).map fun r => (.anchor r.1, r.2)
  else if c = '!' then s.node? (tag? s.inFlow)
  else if c = '|' && !s.inFlow then s.blockScalar? true
  else if c = '>' && !s.inFlow then s.blockScalar? false
  else if c = '\'' ∨ c = '"' then
    s.node? fun k =>
      (quoted? (c = '\'') (k.rest.length + 1) (k.skip 1)).map fun r => (.scalar r.1 false, r.2)
  else if s.beginsPlain c then s.plainScalar?
  else none

def run? : Nat → Scanner → Option (List Token)
  | 0, _ => none
  | fuel + 1, s => do
    let s ← (s.toNextToken (s.cursor.rest.length + 1)).dropStaleKeys?
    let s := s.closeBlocks s.columnHere
    match s.cursor.char? 0 with
    | none =>
      let s ← s.leaveBlocks?
      some s.tokens.reverse
    | some c => run? fuel (← s.token? c)

end Scanner

def Token.ofText? (cs : List Char) : Option (List Token) :=
  if cs.all isPermitted then Scanner.run? (cs.length + 1) { cursor := { rest := cs } } else none

end Tabulate.Yaml
