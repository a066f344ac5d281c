import TinyLisp.Settings

/-!
# Command line options

The words of a command line are options, each perhaps with a value in the next word, and the
files to run. A word that starts with a dash and goes on is an option; a lone dash is a file.
-/

namespace TinyLisp

/-- What can be wrong with a command line. -/
inductive UsageError
  | missingValue (option : String)
  | notPositive (text : String)
  | unknownOption (text : String)
  deriving Repr, DecidableEq

/-- The wording of a fault in a command line. -/
def UsageError.message : UsageError → String
  | missingValue option => option ++ " needs a value"
  | notPositive s => "expected a positive number, got " ++ s
  | unknownOption s => "unknown option " ++ s

/-- What a command line asks for. -/
structure Invocation where
  settings : Settings
  /-- Whether an interactive session keeps its input for the next one. -/
  history : Bool
  files : List String
  deriving Repr, DecidableEq

namespace Invocation

/-- One line that says how the program is called. -/
def usage : String :=
  "usage: mlisp [--legacy-closures] [--max-expansion N] [-I dir]... [--no-history] [FILE]..."

/-- The variable that names further directories to search. -/
def pathVariable : String := "MLISP_PATH"

/-- The number that digits spell, perhaps after a plus, if it fits into 64 bits. -/
def readCount? (s : String) : Option Nat :=
  let digits := match s.toList with
    | '+' :: ds => ds
    | ds => ds
  if digits.isEmpty || !digits.all Char.isDigit then none
  else
    let n := digits.foldl (fun n d => 10 * n + (d.toNat - '0'.toNat)) 0
    if n < UInt64.size then some n else none

/-- The options read so far. -/
structure Options where
  strategy : Strategy
  expansionLimit : Nat
  history : Bool
  /-- The directories given, the latest first. -/
  include_ : List String
  /-- The files given, the latest first. -/
  files : List String

/-- The options of an empty command line. -/
def Options.default : Options :=
  ⟨Settings.default.strategy, Settings.default.expansionLimit, true, [], []⟩

/-- Reads the words of a command line. -/
def readWords (o : Options) : List String → Except UsageError Options
  | [] => .ok o
  | "--legacy-closures" :: rest => readWords { o with strategy := .wholeScope } rest
  | "--no-history" :: rest => readWords { o with history := false } rest
  | ["--max-expansion"] => .error (.missingValue "--max-expansion")
  | "--max-expansion" :: value :: rest =>
    match readCount? value with
    | none => .error (.notPositive value)
    | some 0 => .error (.notPositive value)
    | some n => readWords { o with expansionLimit := n } rest
  | ["-I"] => .error (.missingValue "-I")
  | "-I" :: dir :: rest => readWords { o with include_ := dir :: o.include_ } rest
  | word :: rest =>
    if word.toList.head? = some '-' && word ≠ "-" then .error (.unknownOption word)
    else readWords { o with files := word :: o.files } rest

/-- The directories in the value of the path variable, separated by colons. -/
def splitPath (s : String) : List String :=
  s.splitOn ":"

/-- Reads a command line without the program's name. Directories given as options are searched
first, then the working directory, then those of the path variable. -/
def ofArguments (args : List String) (path : Option String) : Except UsageError Invocation :=
  (readWords .default args).map fun o => {
    settings := {
      strategy := o.strategy
      expansionLimit := o.expansionLimit
      searchPath := o.include_.reverse ++ Settings.default.searchPath ++
        (path.map splitPath).getD [] }
    history := o.history
    files := o.files.reverse }

end Invocation

end TinyLisp
