import TinyLisp.Eval.Step
import TinyLisp.Prelude

/-!
# Sessions

A session evaluates texts and files one after another in the outermost scope. It starts with
the primitive operations bound to their names and the prelude evaluated. A text is read as a
whole before its first form is evaluated; the forms are then built and evaluated in turn, and
the first failure ends the text. What was done before a failure stays done.
-/

namespace TinyLisp

/-- Why a text or a file gives no value. -/
inductive SessionError
  | read (e : ReadError)
  | eval (e : EvalError)
  | unreadable (path : String) (e : FileError)
  /-- The recursion went deeper than a session allows. -/
  | tooDeep

/-- The wording of a session's failure. -/
def SessionError.message : SessionError → String
  | read e => "read error: " ++ e.message
  | eval e => e.message
  | unreadable path e => "cannot read " ++ path ++ ": " ++ e.message
  | tooDeep => "evaluation is nested too deeply"

/-- What an evaluation ends with. -/
abbrev Outcome := Except SessionError Value

/-- A session: what is fixed for it and what it has done. -/
structure Session where
  context : Context
  /-- The levels of recursion that the session allows. -/
  depth : Nat
  world : World

namespace Session

/-- The levels of recursion that a session allows for which nothing else is asked. -/
def standardDepth : Nat := 1000000

/-- A session's engine. -/
def engine (s : Session) : Engine :=
  Engine.ofDepth s.context s.depth

/-- Runs a computation in a session. -/
def run (s : Session) (x : Eval Value) : Outcome × Session :=
  match x s.world with
  | .ok v w => (.ok v, { s with world := w })
  | .error (.failed e) w => (.error (.eval e), { s with world := w })
  | .error .exhausted w => (.error .tooDeep, { s with world := w })

/-- Evaluates data just read, one after another. -/
def evalData (s : Session) (forms : List Value) : Outcome × Session :=
  s.run (s.engine.evalForms rootScope .nil forms)

/-- Evaluates a text; gives the value of its last form. -/
def evalText (s : Session) (source : String) : Outcome × Session :=
  match readData source with
  | .error e => (.error (.read e), s)
  | .ok forms => s.evalData forms

/-- Evaluates the text of a file. -/
def evalFile (s : Session) (path : String) : Outcome × Session :=
  match s.context.disk.readText path with
  | .error e => (.error (.unreadable path e), s)
  | .ok source => s.evalText source

/-- A world in which the primitive operations are bound to their names. -/
def primitiveWorld : World :=
  let w := World.initial
  { w with store := w.store.bindAll rootFrame (Primitive.all.map fun p => (p.name, .primitive p)) }

/-- The session after its first text, unless that text failed. -/
def begun : Outcome × Session → Except SessionError Session
  | (.ok _, s) => .ok s
  | (.error e, _) => .error e

/-- A new session that allows some levels of recursion. -/
def startWithin (depth : Nat) (ctx : Context) : Except SessionError Session :=
  begun (evalText ⟨ctx, depth, primitiveWorld⟩ prelude)

/-- A new session. -/
def start (ctx : Context) : Except SessionError Session :=
  startWithin standardDepth ctx

/-- The names that the outermost frame binds, ascending. -/
def rootNames (s : Session) : List String :=
  s.world.store.names rootFrame

/-- Takes the text written so far. -/
def takeOutput (s : Session) : String × Session :=
  (s.world.output, { s with world := { s.world with output := "" } })

end Session

end TinyLisp
