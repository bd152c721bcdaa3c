import Tabulate.CommandLine.Reading
import Tabulate.Number
import Tabulate.Run.Basic

/-! What a command line asks for. -/
namespace Tabulate.CommandLine

inductive OutputType where
  | csv
  | sqlite
deriving DecidableEq, Repr

structure Arguments where
  inputs : List String := []
  config : String := ""
  outputPath : String := "output"
  outputType : OutputType := .csv
  dtdPath : Option String := none
  recurse : Bool := false
  validate : Bool := false
  checkDoctype : Bool := false
  processes : Option Nat := none
  continueOnError : Bool := false
  csvDelimiter : Char := ','
  csvNull : String := ""
  csvLineEnding : Csv.LineEnd := .crlf
  sqliteMaxVars : Nat := defaultMaxVars
  summary : Bool := false
  verbose : Bool := false
  quiet : Bool := false
deriving DecidableEq, Repr

def maxCount : Nat := bitLimit 64 - 1

def count? (text : String) : Option Nat :=
  let digits := match text.toList with
    | '+' :: cs => cs
    | cs => cs
  if digits.isEmpty || !digits.all Char.isDigit then none
  else
    let n := digits.foldl (fun n c => n * 10 + (c.toNat - 48)) 0
    if n ≤ maxCount then some n else none

def pathOf (s : Setting) (text : String) : Except Refusal String :=
  if text.isEmpty then .error (.emptyPath s) else .ok text

def countOf (s : Setting) (text : String) : Except Refusal Nat :=
  match count? text with
  | some n => .ok n
  | none => .error (.badValue s text)

def charOf (s : Setting) (text : String) : Except Refusal Char :=
  match text.toList with
  | [c] => .ok c
  | _ => .error (.badValue s text)

def choiceOf (s : Setting) (choices : List (String × α)) (text : String) : Except Refusal α :=
  match choices.lookup text with
  | some a => .ok a
  | none => .error (.badChoice s text)

def outputTypes : List (String × OutputType) := [("csv", .csv), ("sqlite", .sqlite)]

def lineEndings : List (String × Csv.LineEnd) := [("crlf", .crlf), ("lf", .lf)]

namespace Arguments

def withValue (a : Arguments) (s : Setting) (text : String) : Except Refusal Arguments :=
  match s with
  | .config => (pathOf s text).map fun p => { a with config := p }
  | .outputPath => (pathOf s text).map fun p => { a with outputPath := p }
  | .outputType => (choiceOf s outputTypes text).map fun t => { a with outputType := t }
  | .dtdPath => (pathOf s text).map fun p => { a with dtdPath := some p }
  | .processes => (countOf s text).map fun n => { a with processes := some n }
  | .csvDelimiter => (charOf s text).map fun c => { a with csvDelimiter := c }
  | .csvNull => .ok { a with csvNull := text }
  | .csvLineEnding => (choiceOf s lineEndings text).map fun e => { a with csvLineEnding := e }
  | .sqliteMaxVars => (countOf s text).map fun n => { a with sqliteMaxVars := n }
  | _ => .error (.surplusValue s text)

def withFlag (a : Arguments) (s : Setting) : Except Refusal Arguments :=
  match s with
  | .recurse => .ok { a with recurse := true }
  | .validate => .ok { a with validate := true }
  | .checkDoctype => .ok { a with checkDoctype := true }
  | .continueOnError => .ok { a with continueOnError := true }
  | .summary => .ok { a with summary := true }
  | .verbose => .ok { a with verbose := true }
  | .quiet => .ok { a with quiet := true }
  | .help => .error .help
  | .version => .error .version
  | _ => .error (.missingValue s)

end Arguments

structure Draft where
  made : List Setting := []
  arguments : Arguments := {}

namespace Draft

def make (d : Draft) (s : Setting) (set : Arguments → Except Refusal Arguments) : Except Refusal Draft :=
  if d.made.contains s then .error (.repeated s)
  else (set d.arguments).map fun a => ⟨s :: d.made, a⟩

def add (d : Draft) : Given → Except Refusal Draft
  | .input text => .ok { d with arguments.inputs := d.arguments.inputs ++ [text] }
  | .flag s => d.make s (·.withFlag s)
  | .value s none => .error (.missingValue s)
  | .value s (some text) => d.make s (·.withValue s text)

/-- What is asked for, once all has been read. A configuration and an input must be named. -/
def finish (d : Draft) : Except Refusal Arguments :=
  if d.arguments.quiet && d.arguments.verbose then .error (.conflict .quiet .verbose)
  else if d.arguments.inputs.isEmpty || !d.made.contains .config then .error .incomplete
  else .ok d.arguments

end Draft

namespace Arguments

/-- What a command line asks for. Of several faults the first one from the left counts. -/
def ofWords (words : List String) : Except Refusal Arguments := do
  let r := Reading.ofWords words
  let d ← r.given.foldlM Draft.add {}
  match r.refusal with
  | some e => throw e
  | none => d.finish

def format (a : Arguments) : Csv.Format :=
  { delimiter := a.csvDelimiter, null := .ofText a.csvNull, lineEnd := a.csvLineEnding }

def options (a : Arguments) : TabulatorOptions :=
  { checkDoctype := a.checkDoctype, validate := a.validate, dtdPath := a.dtdPath
    continueOnError := a.continueOnError }

def output (a : Arguments) : OutputTarget :=
  match a.outputType with
  | .csv => .csv a.outputPath
  | .sqlite => .sqliteIn a.outputPath

def runConfig (a : Arguments) : RunConfig :=
  { inputs := a.inputs, recurse := a.recurse, output := a.output, options := a.options
    csv := a.format, maxVars := a.sqliteMaxVars }

end Arguments

inductive ArgumentFault where
  | noProcesses
  | noVariables
  | delimiter (c : Char)
  | notDirectory (path : String)
deriving DecidableEq, Repr

def ArgumentFault.message : ArgumentFault → String
  | noProcesses => "--processes must be greater than 0"
  | noVariables => "--sqlite-max-vars must be greater than 0"
  | delimiter c => "--csv-delimiter must be an ASCII character, got " ++ Text.quoteChar c
  | notDirectory path => "DTD path is not a directory: " ++ path

def Arguments.fault? (a : Arguments) (fs : FileSystem) : Option ArgumentFault :=
  if a.processes = some 0 then some .noProcesses
  else if a.sqliteMaxVars = 0 then some .noVariables
  else if (Csv.asciiByte? a.csvDelimiter).isNone then some (.delimiter a.csvDelimiter)
  else match a.dtdPath.filter (!fs.isDirectory ·) with
    | some path => some (.notDirectory path)
    | none => none

inductive LogLevel where
  | debug
  | info
  | warn
deriving DecidableEq, Repr

def LogLevel.name : LogLevel → String
  | debug => "debug"
  | info => "info"
  | warn => "warn"

def Arguments.logLevel (a : Arguments) : LogLevel :=
  if a.verbose then .debug else if a.quiet then .warn else .info

end Tabulate.CommandLine
