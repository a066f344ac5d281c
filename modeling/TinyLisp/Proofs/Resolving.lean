import TinyLisp.Proofs.LoadLaws
import TinyLisp.Proofs.Stems

/-!
# Resolving targets

Where the target of an import leads: to a module that is found as things stand (`Context.Finds`), or
to a file that is loaded. A file that is loaded is kept, and its module is registered under the stem
of the file; for a name without a slash that is the name itself.
-/

namespace TinyLisp

/-! ## §1. Where a target leads -/

/-- A name is unbound in a scope. -/
def Store.Unbound (s : Store) (scope : Scope) (name : String) : Prop :=
  ∃ reported, s.lookup scope name = .error (.unbound reported)

namespace Context

/-- A path leads to a file whose module is kept. -/
def Keeps (ctx : Context) (w : World) (path : String) (m : Module) : Prop :=
  ∃ p, ctx.disk.resolve path = .ok p ∧ w.library.files.get? p = some m

/-- A target leads to a module without a file being run: a path to one that is kept; and a name to
what it means in the scope, or, if it is unbound, to the module registered under it, or, if there is
none, to the one kept for the file in the search path. -/
def Finds (ctx : Context) (w : World) (scope : Scope) (m : Module) : ImportTarget → Prop
  | .path path => ctx.Keeps w (ctx.pathToLoad path) m
  | .name name => w.store.lookup scope name = .ok (.module m) ∨
      w.store.Unbound scope name ∧ (w.library.registry.get? name = some m ∨
        w.library.registry.get? name = none ∧
          ∃ path, ctx.search? (name ++ moduleExtension) = some path ∧ ctx.Keeps w path m)

end Context

namespace Engine

variable {en : Engine} {ctx : Context} {scope : Scope} {target : ImportTarget} {m : Module}
  {path name : String} {p : Place} {w w' w₁ : World}

/-- What is found is resolved, and nothing happens. -/
theorem resolve_of_finds (h : ctx.Finds w scope m target) :
    en.resolve ctx scope target w = .ok m w := by
  cases target with
  | path path =>
    obtain ⟨p, hp, hm⟩ := h
    exact load_of_kept hp hm
  | name name =>
    unfold resolve
    dsimp only
    rw [Eval.get_bind]
    -- the scope comes first, then the registry, then the files that are kept
    rcases h with hbound | ⟨⟨reported, hunbound⟩, hregistry⟩
    · rw [hbound]
      rfl
    · rw [hunbound]
      dsimp only
      unfold resolveUnbound
      rw [Eval.library_bind]
      rcases hregistry with hsome | ⟨hnone, path, hpath, p, hp, hm⟩
      · rw [hsome]
        rfl
      · rw [hnone]
        dsimp only
        rw [hpath]
        exact load_of_kept hp hm

/-- What a frame binds to its own name. -/
theorem read_of_mem_ownModules {s : Store} {f : FrameId} (h : m ∈ s.ownModules f) :
    (s.slotIn? f m.name).map s.read = some (.module m) := by
  unfold Store.ownModules at h
  obtain ⟨name, -, hname⟩ := List.mem_filterMap.1 h
  split at hname
  · next m' hread =>
    split at hname
    · next heq =>
      obtain rfl := Option.some.inj hname
      rw [heq]
      exact hread
    · exact absurd hname (by simp)
  · exact absurd hname (by simp)

end Engine

end TinyLisp
