import Tabulate.Yaml.Token

/-! The nodes of a YAML document, read from its tokens. Every function that reads answers what it
read and the tokens behind it. -/
namespace Tabulate.Yaml

/-- A scalar is plain if it was written without quotes; a tag keeps its exclamation mark. -/
inductive Node where
  | scalar (anchor tag : Option String) (plain : Bool) (text : String)
  | sequence (anchor tag : Option String) (items : List Node)
  | mapping (anchor tag : Option String) (entries : List (Node × Node))
  | alias (name : String)
deriving Repr

namespace Node

def empty : Node := .scalar none none true ""

abbrev Handles := List (List Char × List Char)

def standardHandles : Handles :=
  [(['!'], ['!']), (['!', '!'], "tag:yaml.org,2002:".toList)]

def tagOf? (handles : Handles) (handle suffix : List Char) : Option String :=
  if handle.isEmpty then some (String.ofList suffix)
  else (handles.lookup handle).map fun lead => String.ofList (lead ++ suffix)

def properties? (handles : Handles) (ts : List Token) :
    Option (Option String × Option String × List Token) := do
  match ts with
  | .anchor a :: .tag h s :: ts => some (some (String.ofList a), some (← tagOf? handles h s), ts)
  | .tag h s :: .anchor a :: ts => some (some (String.ofList a), some (← tagOf? handles h s), ts)
  | .anchor a :: ts => some (some (String.ofList a), none, ts)
  | .tag h s :: ts => some (none, some (← tagOf? handles h s), ts)
  | ts => some (none, none, ts)

def isOneOf (stops : List Token) (ts : List Token) : Bool := ts.head?.any stops.contains

mutual

def read? (handles : Handles) : Nat → (block bare : Bool) → List Token → Option (Node × List Token)
  | 0, _, _, _ => none
  | fuel + 1, block, bare, ts =>
    match ts with
    | .alias name :: ts => some (.alias (String.ofList name), ts)
    | _ => do
      let (anchor, tag, ts) ← properties? handles ts
      match ts with
      | .blockEntry :: _ =>
        -- under a key a sequence may stand in the column of the mapping, where it has no block of its own
        if bare then
          let (items, ts) ← bareItems? handles fuel ts
          some (.sequence anchor tag items, ts)
        else if anchor.isSome || tag.isSome then some (.scalar anchor tag true "", ts)
        else none
      | .scalar text plain :: ts => some (.scalar anchor tag plain (String.ofList text), ts)
      | .flowSequence :: ts => do
        let (items, ts) ← flowItems? handles fuel true ts
        some (.sequence anchor tag items, ts)
      | .flowMapping :: ts => do
        let (entries, ts) ← flowEntries? handles fuel true ts
        some (.mapping anchor tag entries, ts)
      | .blockSequence :: rest => do
        if !block then
          if anchor.isSome || tag.isSome then some (.scalar anchor tag true "", ts) else none
        else
          let (items, ts) ← blockItems? handles fuel rest
          some (.sequence anchor tag items, ts)
      | .blockMapping :: rest => do
        if !block then
          if anchor.isSome || tag.isSome then some (.scalar anchor tag true "", ts) else none
        else
          let (entries, ts) ← blockEntries? handles fuel rest
          some (.mapping anchor tag entries, ts)
      | _ => if anchor.isSome || tag.isSome then some (.scalar anchor tag true "", ts) else none

def optional? (handles : Handles) :
    Nat → (block bare : Bool) → (stops : List Token) → List Token → Option (Node × List Token)
  | 0, _, _, _, _ => none
  | fuel + 1, block, bare, stops, ts =>
    if isOneOf stops ts then some (empty, ts) else read? handles fuel block bare ts

def blockItems? (handles : Handles) : Nat → List Token → Option (List Node × List Token)
  | 0, _ => none
  | fuel + 1, ts =>
    match ts with
    | .blockEntry :: ts => do
      let (n, ts) ← optional? handles fuel true false [.blockEntry, .blockEnd] ts
      let (ns, ts) ← blockItems? handles fuel ts
      some (n :: ns, ts)
    | .blockEnd :: ts => some ([], ts)
    | _ => none

def bareItems? (handles : Handles) : Nat → List Token → Option (List Node × List Token)
  | 0, _ => none
  | fuel + 1, ts =>
    match ts with
    | .blockEntry :: ts => do
      let (n, ts) ← optional? handles fuel true false [.blockEntry, .key, .value, .blockEnd] ts
      let (ns, ts) ← bareItems? handles fuel ts
      some (n :: ns, ts)
    | _ => some ([], ts)

def blockEntries? (handles : Handles) : Nat → List Token → Option (List (Node × Node) × List Token)
  | 0, _ => none
  | fuel + 1, ts =>
    match ts with
    | .key :: ts => do
      let stops := [Token.key, .value, .blockEnd]
      let (k, ts) ← optional? handles fuel true true stops ts
      let (v, ts) ← match ts with
        | .value :: ts => optional? handles fuel true true stops ts
        | _ => some (empty, ts)
      let (es, ts) ← blockEntries? handles fuel ts
      some ((k, v) :: es, ts)
    | .blockEnd :: ts => some ([], ts)
    | _ => none

def flowItems? (handles : Handles) : Nat → (first : Bool) → List Token → Option (List Node × List Token)
  | 0, _, _ => none
  | fuel + 1, first, ts =>
    match ts with
    | .flowSequenceEnd :: ts => some ([], ts)
    | _ => do
      let ts ← if first then some ts else match ts with
        | .flowEntry :: ts => some ts
        | _ => none
      match ts with
      | .flowSequenceEnd :: ts => some ([], ts)
      | .key :: ts => do
        let stops := [Token.flowEntry, .flowSequenceEnd]
        let (k, ts) ←
          if isOneOf (.value :: stops) ts then some (empty, ts.drop 1)
          else read? handles fuel false false ts
        let (v, ts) ← match ts with
          | .value :: ts => optional? handles fuel false false stops ts
          | _ => some (empty, ts)
        let (ns, ts) ← flowItems? handles fuel false ts
        some (.mapping none none [(k, v)] :: ns, ts)
      | _ => do
        let (n, ts) ← read? handles fuel false false ts
        let (ns, ts) ← flowItems? handles fuel false ts
        some (n :: ns, ts)

def flowEntries? (handles : Handles) :
    Nat → (first : Bool) → List Token → Option (List (Node × Node) × List Token)
  | 0, _, _ => none
  | fuel + 1, first, ts =>
    match ts with
    | .flowMappingEnd :: ts => some ([], ts)
    | _ => do
      let ts ← if first then some ts else match ts with
        | .flowEntry :: ts => some ts
        | _ => none
      match ts with
      | .flowMappingEnd :: ts => some ([], ts)
      | .key :: ts => do
        let stops := [Token.flowEntry, .flowMappingEnd]
        let (k, ts) ← optional? handles fuel false false (.value :: stops) ts
        let (v, ts) ← match ts with
          | .value :: ts => optional? handles fuel false false stops ts
          | _ => some (empty, ts)
        let (es, ts) ← flowEntries? handles fuel false ts
        some ((k, v) :: es, ts)
      | _ => do
        let (k, ts) ← read? handles fuel false false ts
        let (es, ts) ← flowEntries? handles fuel false ts
        some ((k, empty) :: es, ts)

end

def directives? : Bool → Handles → List Token → Option (Handles × List Token)
  | seen, hs, .version major minor :: ts =>
    if seen || major != 1 || (minor != 1 && minor != 2) then none else directives? true hs ts
  | seen, hs, .tagHandle h lead :: ts =>
    if (hs.lookup h).isSome then none else directives? seen ((h, lead) :: hs) ts
  | _, hs, ts => some (hs, ts)

def ofTokens? (ts : List Token) : Option (Option Node) := do
  let fuel := 4 * ts.length + 4
  let closed (r : Node × List Token) : Option (Option Node) :=
    if r.2.all (· = .documentEnd) then some (some r.1) else none
  match ts with
  | [] => some none
  | .version .. :: _ | .tagHandle .. :: _ | .documentStart :: _ =>
    let (hs, ts) ← directives? false [] ts
    match ts with
    | .documentStart :: ts =>
      match ts with
      | .version .. :: _ | .tagHandle .. :: _ | .documentStart :: _ => none
      | [] => some (some empty)
      | .documentEnd :: _ => closed (empty, ts)
      | _ => closed (← read? (hs ++ standardHandles) fuel true false ts)
    | _ => none
  | _ => closed (← read? standardHandles fuel true false ts)

end Node

end Tabulate.Yaml
