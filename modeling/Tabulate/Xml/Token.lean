import Tabulate.Text.Basic

/-! Characters and names of XML 1.0, and markup as a list of tokens. A tag is one token for its name, one for
each attribute and one for its end; references are left as written. Every function that reads answers what it
read and the rest of the text, or nothing where the text is not well formed. -/
namespace Tabulate.Xml

def isSpace (c : Char) : Bool := c = ' ' || c = '\t' || c = '\n' || c = '\r'

def isDocumentChar (c : Char) : Bool :=
  if c.toNat < 0x20 then isSpace c else c.toNat != 0xFFFE && c.toNat != 0xFFFF

def nameStartRanges : List (Nat × Nat) :=
  [(0x3A, 0x3A), (0x41, 0x5A), (0x5F, 0x5F), (0x61, 0x7A), (0xC0, 0xD6), (0xD8, 0xF6),
   (0xF8, 0x2FF), (0x370, 0x37D), (0x37F, 0x1FFF), (0x200C, 0x200D), (0x2070, 0x218F),
   (0x2C00, 0x2FEF), (0x3001, 0xD7FF), (0xF900, 0xFDCF), (0xFDF0, 0xFFFD), (0x10000, 0xEFFFF)]

def nameFollowRanges : List (Nat × Nat) :=
  [(0x2D, 0x2E), (0x30, 0x39), (0xB7, 0xB7), (0x300, 0x36F), (0x203F, 0x2040)]

def inRanges (ranges : List (Nat × Nat)) (c : Char) : Bool :=
  ranges.any fun r => r.1 ≤ c.toNat && c.toNat ≤ r.2

def isNameStart (c : Char) : Bool := inRanges nameStartRanges c

def isNameChar (c : Char) : Bool := isNameStart c || inRanges nameFollowRanges c

/-- A name and the URI of its namespace. No namespace and the namespace with the empty URI differ. -/
structure Name where
  uri : Option String
  localPart : String
deriving DecidableEq, Repr

def Name.expanded (n : Name) : String :=
  match n.uri with
  | some uri => "\x7b" ++ uri ++ "\x7d" ++ n.localPart
  | none => n.localPart

def xmlUri : String := "http://www.w3.org/XML/1998/namespace"

def declarationUri : String := "http://www.w3.org/2000/xmlns/"

open Text (after? cut?)

structure Written where
  space : String
  localPart : String
deriving DecidableEq, Repr

inductive Token where
  | start (name : Written)
  | attr (name : Written) (value : List Char)
  | enter
  | leave
  | close (name : Written)
  | text (raw : List Char)
  | cdata (raw : List Char)
  | comment (value : List Char)
  | instruction (target content : List Char)
  | entity (name value : List Char)
deriving Repr

def skipSpaces (cs : List Char) : List Char := cs.dropWhile isSpace

def spaces? : List Char → Option (List Char)
  | c :: cs => if isSpace c then some (skipSpaces cs) else none
  | [] => none

def name? : List Char → Option (List Char × List Char)
  | c :: cs =>
    if isNameStart c then some (c :: cs.takeWhile isNameChar, cs.dropWhile isNameChar) else none
  | [] => none

def qname? (cs : List Char) : Option (Written × List Char) :=
  let whole := cs.takeWhile isNameChar
  let rest := cs.dropWhile isNameChar
  let starts (part : List Char) : Bool := part.head?.all isNameStart
  match whole.splitOn ':' with
  | [own] =>
    if !own.isEmpty && starts own then some (⟨"", String.ofList own⟩, rest) else none
  | [space, own] =>
    if starts space && !own.isEmpty && starts own then
      some (⟨String.ofList space, String.ofList own⟩, rest)
    else none
  | _ => none

def upToQuote? (quote : Char) (cs : List Char) : Option (List Char × List Char) :=
  match cs.dropWhile (· != quote) with
  | _ :: rest => some (cs.takeWhile (· != quote), rest)
  | [] => none

def quoted? : List Char → Option (List Char × List Char)
  | c :: cs => if c = '"' ∨ c = '\'' then upToQuote? c cs else none
  | [] => none

def documentChars? (cs : List Char) : Option (List Char) :=
  if cs.all isDocumentChar then some cs else none

def upTo? (mark : String) (cs : List Char) : Option (List Char × List Char) := do
  let (before, rest) ← cut? mark.toList cs
  some (← documentChars? before, rest)

def attribute? (cs : List Char) : Option ((Written × List Char) × List Char) := do
  let (name, rest) ← qname? cs
  let rest ← after? ['='] (skipSpaces rest)
  let (value, rest) ← quoted? (skipSpaces rest)
  if value.contains '<' then none else some ((name, ← documentChars? value), rest)

def comment? (cs : List Char) : Option (Token × List Char) := do
  let (value, rest) ← upTo? "-->" cs
  if Text.contains ['-', '-'] value ∨ value.getLast? = some '-' then none
  else some (.comment value, rest)

def instruction? (cs : List Char) : Option (Token × List Char) := do
  if Text.startsWith "<?xml ".toList cs then none
  else
    let (target, rest) ← name? (cs.drop 2)
    let (content, rest) ← upTo? "?>" (skipSpaces rest)
    some (.instruction target content, rest)

/-- The attributes and the end of a tag. A tag that breaks off at the end of the text has no end. -/
def tagEnd? : Nat → List Char → Option (List Token × List Char)
  | 0, _ => none
  | _, [] => some ([], [])
  | fuel + 1, cs =>
    match skipSpaces cs with
    | [] => none
    | '/' :: rest => (after? ['>'] rest).map ([.leave], ·)
    | '>' :: rest => some ([.enter], rest)
    | rest => do
      if cs.head?.all isSpace then
        let ((name, value), rest) ← attribute? rest
        let (tokens, rest) ← tagEnd? fuel rest
        some (.attr name value :: tokens, rest)
      else none

def tag? (cs : List Char) : Option (List Token × List Char) := do
  let (name, rest) ← qname? cs
  let (tokens, rest) ← tagEnd? (rest.length + 1) rest
  some (.start name :: tokens, rest)

def closingTag? (cs : List Char) : Option (Written × List Char) := do
  let (name, rest) ← qname? cs
  some (name, ← after? ['>'] (skipSpaces rest))

def entered (tokens : List Token) : Bool := tokens.any fun | .enter => true | _ => false

def content? : Nat → Nat → List Char → Option (List Token × List Char)
  | 0, _, _ => none
  | fuel + 1, level, cs =>
    match cs with
    | [] => some ([], [])
    | ['<'] => none
    | '<' :: '!' :: rest =>
      match after? ['-', '-'] rest with
      | some rest => do
        let (token, rest) ← comment? rest
        let (tokens, rest) ← content? fuel level rest
        some (token :: tokens, rest)
      | none => do
        let rest ← after? "[CDATA[".toList rest
        let (raw, rest) ← upTo? "]]>" rest
        let (tokens, rest) ← content? fuel level rest
        some (.cdata raw :: tokens, rest)
    | '<' :: '?' :: _ => do
      let (token, rest) ← instruction? cs
      let (tokens, rest) ← content? fuel level rest
      some (token :: tokens, rest)
    | '<' :: '/' :: rest => do
      let (name, rest) ← closingTag? rest
      if level ≤ 1 then some ([.close name], rest)
      else
        let (tokens, rest) ← content? fuel (level - 1) rest
        some (.close name :: tokens, rest)
    | '<' :: rest => do
      let (tag, rest) ← tag? rest
      let (tokens, rest) ← content? fuel (if entered tag then level + 1 else level) rest
      some (tag ++ tokens, rest)
    | _ => do
      let raw ← documentChars? (cs.takeWhile (· != '<'))
      if Text.contains "]]>".toList raw then none
      else
        let (tokens, rest) ← content? fuel level (cs.dropWhile (· != '<'))
        some (.text raw :: tokens, rest)

/-- The tokens of a text that stands for content, such as the value of an entity. What follows a tag
that closes more than was opened is no part of it. -/
def Token.ofContent? (cs : List Char) : Option (List Token) :=
  (content? (cs.length + 1) 1 cs).map (·.1)

end Tabulate.Xml
