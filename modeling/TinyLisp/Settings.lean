import TinyLisp.Disk

/-!
# Settings

What is fixed for the whole of a session: how functions keep the scope they were made in, how
often a form may be expanded again, and where modules are searched.
-/

namespace TinyLisp

/-- How functions keep the bindings that they were made under. -/
inductive Strategy
  /-- By their defining scope. -/
  | wholeScope
  /-- By a table of the slots that their free variables have in the defining frame, and by
  their defining scope for all other names. -/
  | captureTable
  deriving Repr, DecidableEq

/-- The settings of a session. -/
structure Settings where
  strategy : Strategy
  /-- How many times in a row the form of one call may be expanded. -/
  expansionLimit : Nat
  /-- The directories that are searched for modules, in order. -/
  searchPath : List String
  deriving Repr, DecidableEq

/-- The settings of a session for which nothing else is asked. -/
def Settings.default : Settings := ⟨.captureTable, 1024, ["."]⟩

/-- The settings of a session and the files it can reach. -/
structure Context where
  settings : Settings
  disk : Disk

end TinyLisp
