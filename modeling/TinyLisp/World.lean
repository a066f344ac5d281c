import TinyLisp.Store
import TinyLisp.Gensym

/-!
# The state of a session

Everything that evaluation can change: the store, the bodies of the functions and expanders
made so far, the tags handed out, the counter of fresh names, the modules known and the files
loaded, and the text written so far.
-/

namespace TinyLisp

/-- What a session knows of modules. -/
structure Library where
  /-- The modules defined at top level, by name. -/
  registry : Table String Module
  /-- The modules of the files loaded, by place. -/
  files : Table Place Module
  /-- The files whose loading has begun and not ended, the innermost first. -/
  loading : List Place

/-- The state of a session. -/
structure World where
  store : Store
  /-- The bodies of functions and expanders, by their number. -/
  bodies : Array Expr
  nextTag : Nat
  gensym : Gensym
  library : Library
  output : String

namespace World

/-- A world with a root frame and nothing in it. -/
def initial : World where
  store := Store.empty.newFrame.2
  bodies := #[]
  nextTag := 0
  gensym := .start
  library := ⟨[], [], []⟩
  output := ""

theorem slotIn?_initial (f : FrameId) (name : String) : initial.store.slotIn? f name = none := by
  show (Store.empty.newFrame.2.frame f).get? name = none
  rw [Store.frame_newFrame]
  rfl

end World

/-- The number of the outermost frame, which holds the primitive operations. -/
def rootFrame : FrameId := 0

/-- The outermost scope. -/
def rootScope : Scope := [rootFrame]

end TinyLisp
