import Tabulate.CommandLine.Arguments
import Tabulate.Json.Printer
import Tabulate.Schema.Loader

/-! A whole command: from the words on the command line to what is said and what is left in the files. A
command says the summary of a run, why a run failed and what caused that, or why there was none. -/
namespace Tabulate

open Json (Tree)

def FileSummary.tree (s : FileSummary) : Tree :=
  .object [("path", .text s.path), ("documents", .count s.documents),
    ("records", .object (s.records.entries.map fun e => (e.1, .count e.2)))]

def RunSummary.tree (s : RunSummary) : Tree := .object [("files", .list (s.files.map FileSummary.tree))]

def RunError.fault? : RunError → Option IoFault
  | input (.unreadable _ fault) => some fault
  | schema (.io fault) => some fault
  | csv (.io _ fault) => some fault
  | store (.io fault) => some fault
  | _ => none

namespace CommandLine

inductive Failure where
  | arguments (fault : ArgumentFault)
  | loading (path : String) (e : SchemaError)
  | run (e : RunError)
deriving DecidableEq, Repr

namespace Failure

def message : Failure → String
  | arguments fault => fault.message
  | loading path _ => "loading configuration " ++ path
  | run e => e.message

def causes : Failure → List String
  | arguments _ => []
  | loading _ e => e.message :: ((RunError.schema e).fault?.map IoFault.message).toList
  | run e => (e.fault?.map IoFault.message).toList

/-- One cause below the others, behind its number if there are several. Its lines are aligned. -/
def causeText (number : Option Nat) (cause : String) : String :=
  let mark := match number with
    | some n => String.ofList ((toString n).toList.leftpad 5 ' ') ++ ": "
    | none => "    "
  let margin := String.ofList (List.replicate mark.length ' ')
  mark ++ Text.replace "\n" ("\n" ++ margin) cause

def report (f : Failure) : String :=
  let causes := match f.causes with
    | [] => []
    | [cause] => ["\nCaused by:", causeText none cause]
    | causes => "\nCaused by:" :: causes.mapIdx fun i cause => causeText (some i) cause
  "\n".intercalate (("Error: " ++ f.message) :: causes)

end Failure

def commandName : String := "tabulate"

def versionText : String := commandName ++ " 0.1.0"

def Setting.shown (s : Setting) : String := "--" ++ s.name

def Setting.usage (s : Setting) : String :=
  (match s.letter? with
    | some c => "  -" ++ c.toString ++ ", "
    | none => "      ") ++ s.shown ++ if s.takesValue then " <VALUE>" else ""

def helpText : String :=
  "\n".intercalate
    (["Convert XML documents to CSV or SQLite tables according to a YAML mapping", "",
      "Usage: " ++ commandName ++ " [OPTIONS] --config <VALUE> <INPUTS>...", "", "Options:"] ++
      Setting.all.map Setting.usage)

namespace Refusal

def isError : Refusal → Bool
  | help => false
  | version => false
  | _ => true

def exitCode (r : Refusal) : Nat := if r.isError then 2 else 0

def message : Refusal → String
  | help => helpText
  | version => versionText
  | unknown word => "error: unexpected argument '" ++ word ++ "' found"
  | missingValue s => "error: a value is required for '" ++ s.shown ++ "' but none was supplied"
  | surplusValue s text => "error: unexpected value '" ++ text ++ "' for '" ++ s.shown ++ "' found"
  | badChoice s text => "error: invalid value '" ++ text ++ "' for '" ++ s.shown ++ "'"
  | badValue s text => "error: invalid value '" ++ text ++ "' for '" ++ s.shown ++ "'"
  | emptyPath s => "error: a value is required for '" ++ s.shown ++ "' but none was supplied"
  | repeated s => "error: the argument '" ++ s.shown ++ "' cannot be used multiple times"
  | conflict s other =>
    "error: the argument '" ++ s.shown ++ "' cannot be used with '" ++ other.shown ++ "'"
  | incomplete => "error: the required arguments were not provided"

end Refusal

end CommandLine

end Tabulate

namespace Tabulate.CommandLine

structure Outcome where
  exitCode : Nat
  output : String := ""
  error : String := ""
  warnings : List RunWarning := []
  files : FileSystem

def Arguments.carryOut (a : Arguments) (fs : FileSystem) : Except Failure RunSummary × Scene :=
  match a.fault? fs with
  | some fault => (.error (.arguments fault), ⟨fs, []⟩)
  | none =>
    match Schema.load fs a.config with
    | .error e => (.error (.loading a.config e), ⟨fs, []⟩)
    | .ok schema =>
      match (Run.start schema a.runConfig >>= Run.convert) { files := fs } with
      | .ok summary s => (.ok summary, s)
      | .error e s => (.error (.run e), s)

def command (words : List String) (fs : FileSystem) : Outcome :=
  match Arguments.ofWords words with
  | .error r =>
    if r.isError then { exitCode := r.exitCode, error := r.message ++ "\n", files := fs }
    else { exitCode := r.exitCode, output := r.message ++ "\n", files := fs }
  | .ok a =>
    match a.carryOut fs with
    | (.error f, s) =>
      { exitCode := 1, error := f.report ++ "\n", warnings := s.warnings, files := s.files }
    | (.ok summary, s) =>
      { exitCode := 0, output := if a.summary then summary.tree.pretty ++ "\n" else ""
        warnings := s.warnings, files := s.files }

end Tabulate.CommandLine
