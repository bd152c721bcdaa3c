import Tabulate.CommandLine.Setting

/-! The words of a command line, read from the left: inputs, flags and settings with their values. A word
of two dashes makes inputs of all words behind it. -/
namespace Tabulate.CommandLine

inductive Refusal where
  | help
  | version
  | unknown (word : String)
  | missingValue (s : Setting)
  | surplusValue (s : Setting) (text : String)
  | badChoice (s : Setting) (text : String)
  | badValue (s : Setting) (text : String)
  | emptyPath (s : Setting)
  | repeated (s : Setting)
  | conflict (s other : Setting)
  | incomplete
deriving DecidableEq, Repr

inductive Given where
  | input (text : String)
  | flag (s : Setting)
  | value (s : Setting) (text : Option String)
deriving DecidableEq, Repr

/-- A setting whose value is the word behind it, or is still to come. It is given only once the word
after that can be read. -/
abbrev Pending := Option (Setting × Option String)

def Pending.settled : Pending → List Given
  | some (s, text) => [.value s text]
  | none => []

structure Reading where
  given : List Given := []
  refusal : Option Refusal := none
deriving DecidableEq, Repr

def Reading.behind (gs : List Given) (r : Reading) : Reading := { r with given := gs ++ r.given }

/-- The letters of one word. The first that takes a value takes the rest of the word, or the next word. -/
def readLetters (pending : Pending) : List Char → List Given × Except Refusal Pending
  | [] => ([], .ok pending)
  | c :: cs =>
    match Setting.ofLetter? c with
    | none => ([], .error (.unknown (String.ofList ['-', c])))
    | some s =>
      if s.takesValue then
        match cs with
        | [] => (pending.settled, .ok (some (s, none)))
        | '=' :: cs => (pending.settled ++ [.value s (some (String.ofList cs))], .ok none)
        | cs => (pending.settled ++ [.value s (some (String.ofList cs))], .ok none)
      else
        let (given, rest) := readLetters none cs
        (pending.settled ++ .flag s :: given, rest)

def nameAndValue (cs : List Char) : String × Option String :=
  let name := String.ofList (cs.takeWhile (· != '='))
  match cs.dropWhile (· != '=') with
  | _ :: text => (name, some (String.ofList text))
  | [] => (name, none)

def readWords (pending : Pending) : List String → Reading
  | [] => ⟨pending.settled, none⟩
  | w :: ws =>
    match w.toList with
    | ['-', '-'] => ⟨pending.settled ++ ws.map .input, none⟩
    | '-' :: '-' :: cs =>
      let (name, text) := nameAndValue cs
      match Setting.ofName? name with
      | none => ⟨[], some (.unknown w)⟩
      | some s =>
        match s.takesValue, text with
        | true, some text => (readWords none ws).behind (pending.settled ++ [.value s (some text)])
        | true, none => (readWords (some (s, none)) ws).behind pending.settled
        | false, some text => ⟨[], some (.surplusValue s text)⟩
        | false, none => (readWords none ws).behind (pending.settled ++ [.flag s])
    | '-' :: c :: cs =>
      match readLetters pending (c :: cs) with
      | (given, .ok pending) => (readWords pending ws).behind given
      | (given, .error e) => ⟨given, some e⟩
    | _ =>
      match pending with
      | some (s, none) => readWords (some (s, some w)) ws
      | _ => (readWords none ws).behind (pending.settled ++ [.input w])

def Reading.ofWords (words : List String) : Reading := readWords none words

end Tabulate.CommandLine
