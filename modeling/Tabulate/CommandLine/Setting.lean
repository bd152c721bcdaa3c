/-! What can be set on the command line, by the names and letters it is set by. -/
namespace Tabulate.CommandLine

inductive Setting where
  | config
  | outputPath
  | outputType
  | dtdPath
  | recurse
  | validate
  | checkDoctype
  | processes
  | continueOnError
  | csvDelimiter
  | csvNull
  | csvLineEnding
  | sqliteMaxVars
  | summary
  | verbose
  | quiet
  | help
  | version
deriving DecidableEq, Repr

namespace Setting

def all : List Setting :=
  [config, outputPath, outputType, dtdPath, recurse, validate, checkDoctype, processes, continueOnError,
   csvDelimiter, csvNull, csvLineEnding, sqliteMaxVars, summary, verbose, quiet, help, version]

def name : Setting → String
  | config => "config"
  | outputPath => "output-path"
  | outputType => "output-type"
  | dtdPath => "dtd-path"
  | recurse => "recurse"
  | validate => "validate"
  | checkDoctype => "check-doctype"
  | processes => "processes"
  | continueOnError => "continue-on-error"
  | csvDelimiter => "csv-delimiter"
  | csvNull => "csv-null"
  | csvLineEnding => "csv-line-ending"
  | sqliteMaxVars => "sqlite-max-vars"
  | summary => "summary"
  | verbose => "verbose"
  | quiet => "quiet"
  | help => "help"
  | version => "version"

def letter? : Setting → Option Char
  | config => some 'c'
  | outputPath => some 'o'
  | outputType => some 't'
  | dtdPath => some 'd'
  | recurse => some 'r'
  | processes => some 'p'
  | verbose => some 'v'
  | quiet => some 'q'
  | help => some 'h'
  | version => some 'V'
  | _ => none

def takesValue : Setting → Bool
  | config => true
  | outputPath => true
  | outputType => true
  | dtdPath => true
  | processes => true
  | csvDelimiter => true
  | csvNull => true
  | csvLineEnding => true
  | sqliteMaxVars => true
  | _ => false

def ofName? (name : String) : Option Setting := all.find? (·.name = name)

def ofLetter? (c : Char) : Option Setting := all.find? (·.letter? = some c)

theorem mem_all (s : Setting) : s ∈ all := by cases s <;> decide

theorem ofName?_name (s : Setting) : ofName? s.name = some s := by cases s <;> rfl

end Setting

end Tabulate.CommandLine
