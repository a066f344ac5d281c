import TinyLisp.Proofs.EvalLaws
import TinyLisp.Eval.Module

/-!
# Laws of loading

What it is to load the file that a path leads to, in each of the three cases that there are: the
file was loaded before, it is being loaded, or it is neither.
-/

namespace TinyLisp

namespace Eval

variable {α : Type} {w : World}

theorem library_bind (k : Library → Eval α) : (library >>= k) w = k w.library w :=
  rfl

theorem modifyLibrary_bind (f : Library → Library) (k : Unit → Eval α) :
    (modifyLibrary f >>= k) w = k () { w with library := f w.library } :=
  rfl

end Eval

namespace Engine

variable {en : Engine} {ctx : Context} {path : String} {p : Place} {w : World}

/-- A path that leads nowhere is refused. -/
theorem load_of_unresolved {e : FileError} (h : ctx.disk.resolve path = .error e) :
    en.load ctx path w = .error (.failed (.unavailable path (.file e))) w := by
  unfold load
  rw [h]
  rfl

/-- A file that was loaded before gives its module, and nothing happens. -/
theorem load_of_kept (h : ctx.disk.resolve path = .ok p) {m : Module}
    (hm : w.library.files.get? p = some m) : en.load ctx path w = .ok m w := by
  unfold load
  rw [h]
  dsimp only
  rw [Eval.library_bind, hm]
  rfl

/-- A file that is being loaded is refused, and nothing happens. -/
theorem load_of_loading (h : ctx.disk.resolve path = .ok p)
    (hm : w.library.files.get? p = none) (hp : w.library.loading.contains p = true) :
    en.load ctx path w = .error (.failed (.unavailable path .circular)) w := by
  unfold load
  rw [h]
  dsimp only
  rw [Eval.library_bind, hm]
  dsimp only
  rw [Eval.library_bind, if_pos hp]
  rfl

/-- Any other file is run while it is noted as being loaded. Its module is kept if there is
one. -/
theorem load_of_new (h : ctx.disk.resolve path = .ok p)
    (hm : w.library.files.get? p = none) (hp : w.library.loading.contains p = false) :
    en.load ctx path w =
      match en.runFile ctx p { w with library := w.library.enter p } with
      | .ok m w' => .ok m { w' with library := (w'.library.leave p).keep p m }
      | .error halt w' => .error halt { w' with library := w'.library.leave p } := by
  unfold load
  rw [h]
  dsimp only
  rw [Eval.library_bind, hm]
  dsimp only
  rw [Eval.library_bind, if_neg (by rw [hp]; simp), Eval.modifyLibrary_bind]
  -- what is observed is the end of the run, whatever it is
  cases hrun : en.runFile ctx p { w with library := w.library.enter p } with
  | ok m w' =>
    rw [Eval.bind_of_ok (Eval.observe_of_ok hrun)]
    rfl
  | error halt w' =>
    rw [Eval.bind_of_ok (Eval.observe_of_error hrun)]
    rfl

/-- What the loading of a file comes to when the file was run: the place is left, and the module is
kept if there is one. -/
def leaveFile (p : Place) : EStateM.Result Halt World Module → EStateM.Result Halt World Module
  | .ok m w => .ok m { w with library := (w.library.leave p).keep p m }
  | .error e w => .error e { w with library := w.library.leave p }

/-- A file that is not read is refused without anything being asked for. -/
theorem runFile_of_unread (h : ∀ source forms, ctx.disk.readPlace p = .ok source →
    readData source ≠ .ok forms) :
    ∃ fault, ∀ en : Engine, en.runFile ctx p = Eval.refuse (Path.ofParts p) fault := by
  unfold runFile
  cases hsource : ctx.disk.readPlace p with
  | error e => exact ⟨.file e, fun _ => rfl⟩
  | ok source =>
    dsimp only
    cases hread : readData source with
    | error e => exact ⟨.read e, fun _ => rfl⟩
    | ok forms => exact absurd hread (h source forms hsource)

/-- A file that is read is run in a frame of its own. -/
theorem runFile_of_read {source : String} {forms : List Value}
    (hsource : ctx.disk.readPlace p = .ok source) (hread : readData source = .ok forms) :
    en.runFile ctx p = Eval.extend rootScope >>= fun inner =>
      en.evalForms inner .nil forms >>= fun _ =>
        fileModule (Path.stem (p.getLast?.getD "")) inner := by
  unfold runFile
  rw [hsource]
  dsimp only
  rw [hread]

end Engine

end TinyLisp
