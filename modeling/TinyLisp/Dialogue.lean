import TinyLisp.CommandLine

/-!
# Interactive sessions

Lines are gathered until they make up complete forms, which are then evaluated. A line break
counts as part of the text. While a list or a string is open, a second prompt asks for more. A
failure is reported, and the dialogue goes on.
-/

namespace TinyLisp

/-- A session with the lines that do not yet make up complete forms. -/
structure Dialogue where
  session : Session
  pending : String

/-- What a line leads to. -/
inductive Reply
  /-- More lines are needed. -/
  | more
  /-- The text of a value. -/
  | value (text : String)
  /-- The report of a failure. -/
  | failure (report : String)
  deriving Repr, DecidableEq

namespace Dialogue

/-- A dialogue in a session, before the first line. -/
def start (s : Session) : Dialogue := ⟨s, ""⟩

/-- The prompt for a new form. -/
def firstPrompt : String := "mlisp> "

/-- The prompt for the rest of a form. -/
def furtherPrompt : String := "  ...> "

/-- The prompt for the next line. -/
def prompt (d : Dialogue) : String :=
  if d.pending.isEmpty then firstPrompt else furtherPrompt

/-- Whether a text stops partway through a form. -/
def needsMore (source : String) : Bool :=
  match readData source with
  | .error e => e.incomplete
  | .ok _ => false

/-- Takes a line. -/
def feed (d : Dialogue) (line : String) : Reply × Dialogue :=
  let source := d.pending ++ line ++ "\n"
  if needsMore source then (.more, { d with pending := source })
  else
    match d.session.evalText source with
    | (.ok v, s) => (.value v.text, ⟨s, ""⟩)
    | (.error e, s) => (.failure (report e.message), ⟨s, ""⟩)

/-- What a dialogue shows: the lines on the screen, each prompt with what was typed behind it,
and the reports of failures. -/
structure Transcript where
  screen : List String
  reports : List String
  deriving Repr, DecidableEq

/-- The lines that a text takes up on the screen. -/
def shownLines (text : String) : List String :=
  text.splitOn "\n"

/-- Takes lines up to the end of the input. -/
def converse (d : Dialogue) : List String → Transcript × Dialogue
  | [] => (⟨[d.prompt], []⟩, d)
  | line :: lines =>
    let shown := d.prompt ++ line
    let (reply, d) := d.feed line
    let (t, d) := d.converse lines
    match reply with
    | .more => (⟨shown :: t.screen, t.reports⟩, d)
    | .value text => (⟨shown :: (shownLines text ++ t.screen), t.reports⟩, d)
    | .failure report => (⟨shown :: t.screen, report :: t.reports⟩, d)

end Dialogue

end TinyLisp
