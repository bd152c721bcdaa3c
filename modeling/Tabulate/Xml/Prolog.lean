import Tabulate.Xml.Token

/-! The parts of a document around its element: the declaration, the document type with its
entities, comments and instructions. Of the declarations in a document type only entities with a
literal value count, and parameter entities are read and passed over. -/
namespace Tabulate.Xml

open Text (after?)

def declarationSpace? (cs : List Char) : Option (List Char) :=
  if cs.head?.any isSpace then some (skipSpaces cs)
  else if cs.isEmpty || Text.startsWith "?>".toList cs then some cs
  else none

def declarationPart? (keyword : String) (cs : List Char) : Option (List Char) :=
  if Text.startsWith keyword.toList cs then (attribute? cs).map (·.2) else some cs

def declaration? (cs : List Char) : Option (List Char) := do
  let cs ← declarationSpace? cs
  if Text.startsWith "version".toList cs then
    let cs ← declarationSpace? (← declarationPart? "version" cs)
    let cs ← if Text.startsWith "encoding".toList cs then
      declarationSpace? (← declarationPart? "encoding" cs) else some cs
    let cs ← declarationPart? "standalone" cs
    after? "?>".toList (skipSpaces cs)
  else none

def misc? : Nat → List Char → Option (List Token × List Char)
  | 0, cs => some ([], cs)
  | fuel + 1, cs =>
    match skipSpaces cs with
    | '<' :: '!' :: '-' :: '-' :: rest => do
      let (token, rest) ← comment? rest
      let (tokens, rest) ← misc? fuel rest
      some (token :: tokens, rest)
    | '<' :: '?' :: rest => do
      let (token, rest) ← instruction? ('<' :: '?' :: rest)
      let (tokens, rest) ← misc? fuel rest
      some (token :: tokens, rest)
    | rest => some ([], rest)

def externalId? (cs : List Char) : Option (Bool × List Char) :=
  match after? "SYSTEM".toList cs, after? "PUBLIC".toList cs with
  | some rest, _ => do
    let (_, rest) ← quoted? (← spaces? rest)
    some (true, rest)
  | none, some rest => do
    let (_, rest) ← quoted? (← spaces? rest)
    let (_, rest) ← quoted? (← spaces? rest)
    some (true, rest)
  | none, none => some (false, cs)

def entityValue? (general : Bool) (cs : List Char) : Option (Option (List Char) × List Char) :=
  match quoted? cs with
  | some (value, rest) => some (some value, rest)
  | none => do
    let (found, rest) ← externalId? cs
    if !found then none
    else if !general then some (none, rest)
    else match after? "NDATA".toList (skipSpaces rest) with
      | none => some (none, skipSpaces rest)
      | some rest => do
        let (_, rest) ← name? (← spaces? rest)
        some (none, rest)

def entity? (cs : List Char) : Option (List Token × List Char) := do
  let cs ← spaces? cs
  let general := cs.head? != some '%'
  let cs ← if general then some cs else spaces? (cs.drop 1)
  let (name, rest) ← name? cs
  let (value?, rest) ← entityValue? general (← spaces? rest)
  let rest ← after? ['>'] (skipSpaces rest)
  match value? with
  | some value => some (if general then [.entity name value] else [], rest)
  | none => some ([], rest)

def subset? : Nat → List Char → Option (List Token × List Char)
  | 0, _ => none
  | fuel + 1, cs =>
    match cs, skipSpaces cs with
    | [], _ => some ([], [])
    | _, ']' :: rest => (after? ['>'] (skipSpaces rest)).map ([], ·)
    | _, rest =>
      match after? "<!ENTITY".toList rest, after? "<!--".toList rest with
      | some rest, _ => do
        let (declared, rest) ← entity? rest
        let (tokens, rest) ← subset? fuel rest
        some (declared ++ tokens, rest)
      | none, some rest => do
        let (token, rest) ← comment? rest
        let (tokens, rest) ← subset? fuel rest
        some (token :: tokens, rest)
      | none, none =>
        if Text.startsWith "<?".toList rest then do
          let (token, rest) ← instruction? rest
          let (tokens, rest) ← subset? fuel rest
          some (token :: tokens, rest)
        else if ["<!ELEMENT", "<!ATTLIST", "<!NOTATION"].any (Text.startsWith ·.toList rest) then do
          let (_, rest) ← upToQuote? '>' rest
          subset? fuel rest
        else none

def doctype? (cs : List Char) : Option (List Token × List Char) := do
  let (_, rest) ← name? (← spaces? cs)
  let (_, rest) ← externalId? (skipSpaces rest)
  match skipSpaces rest with
  | '>' :: rest => some ([], rest)
  | '[' :: rest => subset? (rest.length + 1) rest
  | _ => none

def Token.ofDocument? (cs : List Char) : Option (List Token) := do
  let cs := (after? ['\uFEFF'] cs).getD cs
  let cs ← if Text.startsWith "<?xml ".toList cs then declaration? (cs.drop 5) else some cs
  let (before, cs) ← misc? cs.length cs
  let (type, cs) ← match after? "<!DOCTYPE".toList (skipSpaces cs) with
    | none => some ([], cs)
    | some cs => do
      let (type, cs) ← doctype? cs
      let (between, cs) ← misc? cs.length cs
      some (type ++ between, cs)
  let (element, cs) ← match skipSpaces cs with
    | '<' :: cs => do
      let (tag, cs) ← tag? cs
      if entered tag then
        let (tokens, cs) ← content? (cs.length + 1) 1 cs
        some (tag ++ tokens, cs)
      else some (tag, cs)
    | cs => some ([], cs)
  let (following, cs) ← misc? cs.length cs
  if cs.isEmpty then some (before ++ type ++ element ++ following) else none

end Tabulate.Xml
