import TinyLisp.Session
import TinyLisp.Invocation

/-!
# The command line

A command line either asks for help, or runs files one after another up to the first failure,
or, without files, opens an interactive session (`TinyLisp.Dialogue`).
-/

namespace TinyLisp

/-- Why a command line fails. -/
inductive CommandLineError
  | usage (e : UsageError)
  | session (e : SessionError)

/-- The wording of a failure; a fault in the command line comes with the usage line. -/
def CommandLineError.message : CommandLineError → String
  | usage e => e.message ++ "\n" ++ Invocation.usage
  | session e => e.message

/-- How a failure is reported. -/
def report (message : String) : String :=
  "error: " ++ message

/-- What is left to do after a command line. -/
inductive Remaining
  /-- Nothing. -/
  | done
  /-- An interactive session. -/
  | interactive (s : Session)

/-- The words that ask for help. -/
def helpWords : List String := ["-h", "--help"]

/-- Runs files up to the first failure. -/
def Session.runFiles (s : Session) : List String → Except SessionError Unit × Session
  | [] => (.ok (), s)
  | path :: paths =>
    match s.evalFile path with
    | (.ok _, s) => s.runFiles paths
    | (.error e, s) => (.error e, s)

/-- Carries out a command line without the program's name. Gives what is left to do, or the
failure, and the text written. -/
def runCommandLine (args : List String) (path : Option String) (disk : Disk) :
    Except CommandLineError Remaining × String :=
  if args.any helpWords.contains then (.ok .done, Invocation.usage ++ "\n")
  else
    match Invocation.ofArguments args path with
    | .error e => (.error (.usage e), "")
    | .ok inv =>
      match Session.start ⟨inv.settings, disk⟩ with
      | .error e => (.error (.session e), "")
      | .ok s =>
        if inv.files.isEmpty then (.ok (.interactive s), "")
        else
          match s.runFiles inv.files with
          | (.ok _, s) => (.ok .done, s.takeOutput.1)
          | (.error e, s) => (.error (.session e), s.takeOutput.1)

end TinyLisp
