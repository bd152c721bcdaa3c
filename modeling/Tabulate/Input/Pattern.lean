import Tabulate.Files.Path
import Tabulate.Text.Basic
import Tabulate.Text.Utf8

/-! Patterns for file paths. They are matched byte by byte: a question mark stands for one byte, a
star for any within a part of the path, and two stars as a part of their own for any parts. -/
namespace Tabulate

inductive Pattern where
  | literal (c : Char)
  | anyByte
  | anyBytes
  | leadingParts
  | trailingParts
  | innerParts
  | oneOf (negated : Bool) (ranges : List (Char × Char))
  | either (branches : List (List Pattern))

namespace Pattern

/-- A pattern being read, newest parts first: the branch, the branches before it in the group, and
the groups around it. -/
structure Draft where
  branch : List Pattern := []
  branches : List (List Pattern) := []
  outer : List (List Pattern × List (List Pattern)) := []

namespace Draft

def push (d : Draft) (p : Pattern) : Draft := { d with branch := p :: d.branch }

def inGroup (d : Draft) : Bool := !d.outer.isEmpty

def openGroup (d : Draft) : Draft := ⟨[], [], (d.branch, d.branches) :: d.outer⟩

def closeGroup? (d : Draft) : Option Draft :=
  match d.outer with
  | [] => none
  | (branch, branches) :: outer =>
    some ⟨.either (d.branch.reverse :: d.branches).reverse :: branch, branches, outer⟩

def comma (d : Draft) : Draft :=
  if d.inGroup then { d with branch := [], branches := d.branch.reverse :: d.branches }
  else d.push (.literal ',')

/-- Put two stars as a part of their own in the place of the slash before them. Where any parts may
stand already they add nothing. -/
def wholePart (d : Draft) (last : Bool) : Draft :=
  match d.branch with
  | .leadingParts :: _ => d
  | .trailingParts :: _ => d
  | _ :: ps => { d with branch := (if last then .trailingParts else .innerParts) :: ps }
  | [] => d

end Draft

def doubleStar (prev : Option Char) (d : Draft) (rest : List Char) : Draft × List Char × Char :=
  let plain := ((d.push .anyBytes).push .anyBytes, rest, '*')
  if d.branch.isEmpty then
    match rest with
    | [] => (d.push .leadingParts, [], '*')
    | '/' :: rest => (d.push .leadingParts, rest, '/')
    | _ => plain
  else if prev != some '/' && (!d.inGroup || (prev != some ',' && prev != some '\x7b')) then plain
  else match rest with
    | [] => (d.wholePart true, [], '*')
    | '/' :: rest => (d.wholePart false, rest, '/')
    | c :: _ => if d.inGroup && (c = ',' || c = '\x7d') then (d.wholePart true, rest, '*') else plain

def extend? (c : Char) : List (Char × Char) → Option (List (Char × Char))
  | (lo, _) :: rs => if c < lo then none else some ((lo, c) :: rs)
  | [] => none

/-- The ranges of a class up to its end, newest first. `first` holds before its first character, and
`inRange` behind a dash that the end of a range may follow. -/
def class? (first inRange : Bool) (ranges : List (Char × Char)) :
    List Char → Option (List (Char × Char) × List Char)
  | [] => none
  | c :: cs =>
    if c = ']' && !first then some (if inRange then ('-', '-') :: ranges else ranges, cs)
    else if c = '-' && !first && !inRange then class? false true ranges cs
    else if inRange then do class? false false (← extend? c ranges) cs
    else class? false false ((c, c) :: ranges) cs

def read? : Nat → Option Char → Draft → List Char → Option Draft
  | _, _, d, [] => some d
  | 0, _, _, _ => none
  | fuel + 1, prev, d, c :: cs =>
    match c, cs with
    | '?', _ => read? fuel (some c) (d.push .anyByte) cs
    | '*', '*' :: rest =>
      let (d, rest, last) := doubleStar prev d rest
      read? fuel (some last) d rest
    | '*', _ => read? fuel (some c) (d.push .anyBytes) cs
    | '[', _ => do
      let negated := cs.head?.any fun c => c = '!' || c = '^'
      let (ranges, rest) ← class? true false [] (if negated then cs.drop 1 else cs)
      read? fuel (some ']') (d.push (.oneOf negated ranges.reverse)) rest
    | '\x7b', _ => read? fuel (some c) d.openGroup cs
    | '\x7d', _ => do read? fuel (some c) (← d.closeGroup?) cs
    | ',', _ => read? fuel (some c) d.comma cs
    | '\\', e :: rest => read? fuel (some e) (d.push (.literal e)) rest
    | '\\', [] => none
    | c, cs => read? fuel (some c) (d.push (.literal c)) cs

def ofText? (text : String) : Option (List Pattern) := do
  let cs := text.toList
  let d ← read? cs.length none {} cs
  if d.inGroup then none else some d.branch.reverse

def slash : UInt8 := 0x2F

def afterSlashes : List UInt8 → List (List UInt8)
  | [] => []
  | b :: bs => if b = slash then bs :: afterSlashes bs else afterSlashes bs

def withinPart : List UInt8 → List (List UInt8)
  | [] => [[]]
  | b :: bs => if b = slash then [b :: bs] else (b :: bs) :: withinPart bs

def suffixes : List UInt8 → List (List UInt8)
  | [] => [[]]
  | b :: bs => (b :: bs) :: suffixes bs

def bytes (c : Char) : List UInt8 := Text.Utf8.encode [c]

def byteRanges (r : Char × Char) : List (UInt8 × UInt8) :=
  let single (b : UInt8) : UInt8 × UInt8 := (b, b)
  if r.1 = r.2 then (bytes r.1).map single
  else
    match (bytes r.1).reverse, bytes r.2 with
    | lo :: before, hi :: behind => before.reverse.map single ++ (lo, hi) :: behind.map single
    | _, _ => []

mutual

def isVoid : Pattern → Bool
  | either branches => allVoid branches
  | _ => false
termination_by structural p => p

def areVoid : List Pattern → Bool
  | [] => true
  | p :: ps => p.isVoid && areVoid ps
termination_by structural ps => ps

def allVoid : List (List Pattern) → Bool
  | [] => true
  | ps :: pss => areVoid ps && allVoid pss
termination_by structural pss => pss

end

mutual

def rests : Pattern → List UInt8 → List (List UInt8)
  | literal c, bs => if (bytes c).isPrefixOf bs then [bs.drop (bytes c).length] else []
  | anyByte, b :: bs => if b = slash then [] else [bs]
  | anyByte, [] => []
  | anyBytes, bs => withinPart bs
  | leadingParts, bs => bs :: afterSlashes bs
  | trailingParts, bs => if bs.head? = some slash then suffixes (bs.drop 1) else []
  | innerParts, bs => if bs.head? = some slash then bs.drop 1 :: afterSlashes (bs.drop 1) else []
  | oneOf negated ranges, b :: bs =>
    let isIn := (ranges.flatMap byteRanges).any fun r => r.1 ≤ b && b ≤ r.2
    if isIn != negated then [bs] else []
  | oneOf .., [] => []
  | either branches, bs => if allVoid branches then [bs] else restsOfAny branches bs
termination_by structural p => p

def restsOf : List Pattern → List UInt8 → List (List UInt8)
  | [], bs => [bs]
  | p :: ps, bs => ((p.rests bs).flatMap (restsOf ps)).eraseDups
termination_by structural ps => ps

/-- Branches that say nothing are passed over. -/
def restsOfAny : List (List Pattern) → List UInt8 → List (List UInt8)
  | [], _ => []
  | ps :: pss, bs => (if areVoid ps then [] else restsOf ps bs) ++ restsOfAny pss bs
termination_by structural pss => pss

end

def accepts (ps : List Pattern) (path : String) : Bool :=
  match ps with
  | [.leadingParts] => true
  | ps => (restsOf ps (Text.Utf8.encode path.toList)).any List.isEmpty

def isPattern (text : String) : Bool := text.toList.any ['*', '?', '[', '\x7b'].contains

def literalParts (path : String) : List FilePath.Part :=
  (FilePath.parts path).takeWhile fun p => !isPattern p.text

end Pattern

end Tabulate
