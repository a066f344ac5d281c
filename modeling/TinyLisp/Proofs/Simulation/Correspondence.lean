import TinyLisp.Proofs.Like.Failure
import TinyLisp.Proofs.Simulation.Coverage
import TinyLisp.Eval.Engine

/-!
# Correspondence of two runs

Two runs that differ in how functions keep their scope make different frames. A call under the
strategy of tables puts a frame with captured slots, a *veil*, between the parameters and the
defining scope; all other frames come in pairs. A `Correspondence` says which frames and which
bodies belong together. Slots and tags need no such table: both runs make the same ones.

A veil changes nothing of what names mean, since each of its bindings is also one of the frame
behind it, and for good: no binding of a frame is ever given another slot. Bindings that were
relied on in this way are *pinned*. A correspondence grows as the runs go on (`Le`), and what is
alike stays alike.

Two runs may also differ from the outset, in scopes that stand for each other although they are not
alike for all names. What there is of this kind, the *backdrop*, stays as it is: nothing is bound in
the frames of such scopes any more. Inside them, scopes are alike as far as some view goes, and the
code evaluated there has to be covered by it. The bare backdrop has nothing of the kind.
-/

namespace TinyLisp

/-! ## §1. Backdrops -/

/-- What two runs differ in from the outset. -/
structure Backdrop where
  /-- Scopes that stand for each other. -/
  aside : Scope → Scope → Prop
  /-- Code is evaluated in these scopes themselves. -/
  live : Prop
  /-- Names for which these scopes are alike. -/
  shared : String → Prop
  /-- Functions, expanders and modules may keep such scopes. -/
  held : Prop
  /-- Scopes of the run on the left in which names may mean different things. -/
  own : Scope → Prop
  /-- Frames of the run on the left that are left alone, empty and without a partner. -/
  apart : FrameId → Prop
  /-- What the run on the left may fail with, whatever the other run does. -/
  excused : Halt → Prop
  aside_ne : ∀ {scope scope'}, aside scope scope' → scope ≠ [] ∧ scope' ≠ []
  shared_dots : ∀ n, firstSegment n ≠ n → shared n
  own_cons : ∀ f {scope}, own scope → own (f :: scope)

/-- Two runs that do not differ from the outset. -/
def Backdrop.bare : Backdrop where
  aside _ _ := False
  live := False
  shared _ := True
  held := True
  own _ := False
  apart _ := False
  excused _ := False
  aside_ne h := h.elim
  shared_dots _ _ := trivial
  own_cons _ _ h := h

/-! ## §2. Correspondences -/

/-- What is relied on in one of two runs. -/
structure Side where
  /-- A frame binds a name to a slot, for good. -/
  pinned : FrameId → String → SlotId → Prop
  /-- A frame stands before another and binds nothing that the other does not. -/
  veil : FrameId → FrameId → Prop

/-- Which frames and bodies of two runs belong together, one to one, which expressions the bodies of
the run on the left are, and what is relied on in either run. The outermost frames belong together;
frames that are left alone belong to nothing. -/
structure Correspondence (O : Backdrop) where
  frame : FrameId → FrameId → Prop
  body : Nat → Nat → Prop
  code : Nat → Expr → Prop
  left : Side
  right : Side
  frame_inj : ∀ f f' g g', frame f f' → frame g g' → (f = g ↔ f' = g')
  body_inj : ∀ b b' c c', body b b' → body c c' → (b = c ↔ b' = c')
  root : frame rootFrame rootFrame
  apart : ∀ f, O.apart f → (∀ f', ¬ frame f f') ∧ ∀ g, ¬ left.veil f g

namespace Side

/-- More is relied on in `b` than in `a`. -/
structure Le (a b : Side) : Prop where
  pinned : ∀ f name slot, a.pinned f name slot → b.pinned f name slot
  veil : ∀ g f, a.veil g f → b.veil g f

theorem Le.refl (a : Side) : Le a a := ⟨fun _ _ _ h => h, fun _ _ h => h⟩

theorem Le.trans {a b c : Side} (h : Le a b) (h' : Le b c) : Le a c :=
  ⟨fun f n s hp => h'.pinned f n s (h.pinned f n s hp),
    fun g f hv => h'.veil g f (h.veil g f hv)⟩

/-- A table of captured slots holds pinned bindings of the innermost frame of a scope only. -/
def Covers (side : Side) (scope : Scope) : Captures → Prop
  | .scope => True
  | .table slots => ∀ b ∈ slots, ∃ f, scope.head? = some f ∧ side.pinned f b.1 b.2

theorem Covers.mono {a b : Side} (h : Le a b) {scope : Scope} {captures : Captures}
    (hc : a.Covers scope captures) : b.Covers scope captures := by
  cases captures with
  | scope => trivial
  | table slots =>
    intro e he
    obtain ⟨f, hf, hp⟩ := hc e he
    exact ⟨f, hf, h.pinned f e.1 e.2 hp⟩

end Side

namespace Correspondence

variable {O : Backdrop} {K K' K'' : Correspondence O} {V : View} {N M : String → Prop} {h h' : Prop}
variable {f f' : FrameId} {scope scope' : Scope}

/-- One correspondence is part of a later one. -/
structure Le (K K' : Correspondence O) : Prop where
  frame : ∀ f f', K.frame f f' → K'.frame f f'
  body : ∀ b b', K.body b b' → K'.body b b'
  code : ∀ b e, K.code b e → K'.code b e
  left : K.left.Le K'.left
  right : K.right.Le K'.right

theorem Le.refl (K : Correspondence O) : Le K K :=
  ⟨fun _ _ h => h, fun _ _ h => h, fun _ _ h => h, .refl _, .refl _⟩

theorem Le.trans (h : Le K K') (h' : Le K' K'') : Le K K'' :=
  ⟨fun f f' hf => h'.frame f f' (h.frame f f' hf), fun b b' hb => h'.body b b' (h.body b b' hb),
    fun b e he => h'.code b e (h.code b e he), h.left.trans h'.left, h.right.trans h'.right⟩

/-- Frames that belong together and in which names may still be bound. -/
structure Works (K : Correspondence O) (f f' : FrameId) : Prop where
  frame : K.frame f f'
  left : ∀ {B B'}, O.aside B B' → f ∉ B
  right : ∀ {B B'}, O.aside B B' → f' ∉ B'

/-- A frame of the run on the left binds a name for good. -/
def Binds (K : Correspondence O) (f : FrameId) (name : String) : Prop :=
  ∃ slot, K.left.pinned f name slot

/-- Some frame of a scope does. -/
def Bound (K : Correspondence O) (scope : Scope) (name : String) : Prop :=
  ∃ f ∈ scope, K.Binds f name

theorem Works.mono (hK : Le K K') (hf : K.Works f f') : K'.Works f f' :=
  ⟨hK.frame f f' hf.frame, hf.left, hf.right⟩

/-- Before the bare backdrop, names may be bound in all frames that belong together. -/
theorem Works.bare {K : Correspondence Backdrop.bare} (hf : K.frame f f') : K.Works f f' :=
  ⟨hf, fun ha => ha.elim, fun ha => ha.elim⟩

theorem Binds.mono (hK : Le K K') {name : String} (hb : K.Binds f name) : K'.Binds f name := by
  obtain ⟨slot, hp⟩ := hb
  exact ⟨slot, hK.left.pinned f name slot hp⟩

theorem Bound.mono (hK : Le K K') {name : String} (hb : K.Bound scope name) :
    K'.Bound scope name := by
  obtain ⟨f, hf, hb⟩ := hb
  exact ⟨f, hf, hb.mono hK⟩

theorem Bound.cons (f : FrameId) {name : String} (hb : K.Bound scope name) :
    K.Bound (f :: scope) name := by
  obtain ⟨g, hg, hb⟩ := hb
  exact ⟨g, List.mem_cons_of_mem f hg, hb⟩

/-! ## §3. Scopes -/

/-- Scopes that belong together as far as some names go: frame by frame, up to veils on either side,
and with scopes of the backdrop behind the last pair only if `h` allows for it. A name that a paired
frame binds for good need not be one of the names further on. -/
inductive Along (K : Correspondence O) (h : Prop) : (String → Prop) → Scope → Scope → Prop
  | nil {N : String → Prop} : Along K h N [] []
  | aside {N : String → Prop} {scope scope' : Scope} :
      h → O.aside scope scope' → (∀ n, N n → O.shared n) → Along K h N scope scope'
  | cons {N M : String → Prop} {f f' : FrameId} {scope scope' : Scope} :
      K.frame f f' → (∀ n, N n → M n ∨ K.Binds f n) → Along K h M scope scope' →
        Along K h N (f :: scope) (f' :: scope')
  | left {N : String → Prop} {g f : FrameId} {scope scope' : Scope} :
      K.left.veil g f → Along K h N (f :: scope) scope' → Along K h N (g :: f :: scope) scope'
  | right {N : String → Prop} {g f : FrameId} {scope scope' : Scope} :
      K.right.veil g f → Along K h N scope (f :: scope') → Along K h N scope (g :: f :: scope')

theorem Along.mono (hK : Le K K') (hs : K.Along h N scope scope') :
    K'.Along h N scope scope' := by
  induction hs with
  | nil => exact .nil
  | aside hh ha hN => exact .aside hh ha hN
  | cons hf hN _ ih =>
    exact .cons (hK.frame _ _ hf) (fun n hn => (hN n hn).imp_right (.mono hK)) ih
  | left hv _ ih => exact .left (hK.left.veil _ _ hv) ih
  | right hv _ ih => exact .right (hK.right.veil _ _ hv) ih

/-- The backdrop may be behind the scopes where more is allowed. -/
theorem Along.imp (hs : K.Along h N scope scope') (hh : h → h') : K.Along h' N scope scope' := by
  induction hs with
  | nil => exact .nil
  | aside ha hs hN => exact .aside (hh ha) hs hN
  | cons hf hN _ ih => exact .cons hf hN ih
  | left hv _ ih => exact .left hv ih
  | right hv _ ih => exact .right hv ih

/-- Names for which the scopes of the backdrop are alike may be added. -/
theorem Along.sharing (hs : K.Along h N scope scope') :
    K.Along h (fun n => N n ∨ O.shared n) scope scope' := by
  induction hs with
  | nil => exact .nil
  | aside hh ha hN => exact .aside hh ha fun n hn => hn.elim (hN n) id
  | cons hf hN _ ih =>
    refine .cons hf (fun n hn => ?_) ih
    rcases hn with hn | hn
    · exact (hN n hn).imp_left .inl
    · exact .inl (.inr hn)
  | left hv _ ih => exact .left hv ih
  | right hv _ ih => exact .right hv ih

/-- Where no scope of the backdrop is part of the scope on the left, it is not behind the scopes. -/
theorem Along.clear (hs : K.Along h N scope scope')
    (hno : ∀ {B B'}, O.aside B B' → ¬ B <:+ scope) : K.Along h' N scope scope' := by
  induction hs with
  | nil => exact .nil
  | aside _ ha _ => exact absurd List.suffix_rfl (hno ha)
  | cons hf hN _ ih =>
    exact .cons hf hN (ih fun ha hB => hno ha (hB.trans (List.suffix_cons _ _)))
  | left hv _ ih => exact .left hv (ih fun ha hB => hno ha (hB.trans (List.suffix_cons _ _)))
  | right hv _ ih => exact .right hv (ih hno)

/-- Only a scope without frames belongs to one without frames. -/
theorem Along.nil_iff (hs : K.Along h N scope scope') : scope = [] ↔ scope' = [] := by
  induction hs with
  | nil => exact Iff.rfl
  | aside _ ha _ => exact iff_of_false (O.aside_ne ha).1 (O.aside_ne ha).2
  | cons _ _ _ _ => simp
  | left _ _ ih => simp at ih ⊢; exact ih
  | right _ _ ih => simp at ih ⊢; exact ih

/-- Scopes that are alike as a view says. Where the view leaves names out, the scopes are among those
in which names may mean different things. -/
structure Scopes (K : Correspondence O) (h : Prop) (V : View) (scope scope' : Scope) : Prop where
  along : K.Along h V.seen scope scope'
  bound : ∀ n, V.bound n → K.Bound scope n
  own : V.Whole ∨ O.own scope

/-- Scopes in which names may be bound: there is a frame to write to on either side, these frames
belong together, and they are not part of the backdrop. -/
inductive Active (K : Correspondence O) (h : Prop) (V : View) : Scope → Scope → Prop
  | cons {M : String → Prop} {f f' : FrameId} {scope scope' : Scope} (hf : K.Works f f')
      (hs : K.Along h M scope scope') (seen : ∀ n, V.seen n → M n ∨ K.Binds f n)
      (bound : ∀ n, V.bound n → K.Bound (f :: scope) n) (own : V.Whole ∨ O.own (f :: scope)) :
      Active K h V (f :: scope) (f' :: scope')

/-- Scopes that functions, expanders and modules may keep. -/
structure Kept (K : Correspondence O) (V : View) (scope scope' : Scope) : Prop where
  scopes : K.Scopes O.held V scope scope'
  left_ne : scope ≠ []
  right_ne : scope' ≠ []

/-- Scopes to evaluate in: names may be bound there, or they are the scopes of the backdrop
themselves. -/
inductive Stands (K : Correspondence O) (V : View) (scope scope' : Scope) : Prop
  | active (hs : K.Active True V scope scope')
  | aside (hl : O.live) (ha : O.aside scope scope') (hs : K.Scopes True V scope scope')

theorem Scopes.mono (hK : Le K K') (hs : K.Scopes h V scope scope') :
    K'.Scopes h V scope scope' :=
  ⟨hs.along.mono hK, fun n hn => (hs.bound n hn).mono hK, hs.own⟩

/-- Frames to write to, inside scopes that are alike. -/
theorem Scopes.inside (hs : K.Scopes h V scope scope') (hf : K.Works f f') :
    K.Active h V (f :: scope) (f' :: scope') :=
  .cons hf hs.along (fun _ hn => .inl hn) (fun n hn => (hs.bound n hn).cons f)
    (hs.own.imp_right (O.own_cons f))

namespace Active

theorem mono (hK : Le K K') (hs : K.Active h V scope scope') : K'.Active h V scope scope' := by
  cases hs with
  | cons hf hs seen bound own =>
    exact .cons (hf.mono hK) (hs.mono hK) (fun n hn => (seen n hn).imp_right (.mono hK))
      (fun n hn => (bound n hn).mono hK) own

theorem imp (hs : K.Active h V scope scope') (hh : h → h') : K.Active h' V scope scope' := by
  cases hs with
  | cons hf hs seen bound own => exact .cons hf (hs.imp hh) seen bound own

theorem clear (hs : K.Active h V scope scope') (hno : ∀ {B B'}, O.aside B B' → ¬ B <:+ scope) :
    K.Active h' V scope scope' := by
  cases hs with
  | cons hf hs seen bound own =>
    exact .cons hf (hs.clear fun ha hB => hno ha (hB.trans (List.suffix_cons _ _))) seen bound own

theorem scopes (hs : K.Active h V scope scope') : K.Scopes h V scope scope' := by
  cases hs with
  | cons hf hs seen bound own => exact ⟨.cons hf.frame seen hs, bound, own⟩

theorem kept (hs : K.Active O.held V scope scope') : K.Kept V scope scope' := by
  refine ⟨hs.scopes, ?_, ?_⟩
  · cases hs with
    | cons => simp
  · cases hs with
    | cons => simp

theorem sharing (hs : K.Active h V scope scope') : K.Active h (V.sharing O.shared) scope scope' := by
  cases hs with
  | cons hf hs seen bound own =>
    refine .cons hf hs.sharing (fun n hn => ?_) bound (own.imp_left fun hV => hV.sharing _)
    rcases hn with hn | hn
    · exact (seen n hn).imp_left .inl
    · exact .inl (.inr hn)

/-- More names are seen, and bound, once the innermost frame binds them for good. -/
theorem adding (hs : K.Active h V (f :: scope) scope') {names : List String}
    (hb : ∀ n ∈ names, K.Binds f n) : K.Active h (V.adding names) (f :: scope) scope' := by
  cases hs with
  | cons hf hs seen bound own =>
    refine .cons hf hs (fun n hn => ?_) (fun n hn => ?_) (own.imp_left fun hV => hV.adding names)
    · rcases hn with hn | hn
      · exact seen n hn
      · exact .inr (hb n hn)
    · rcases hn with hn | hn
      · exact bound n hn
      · exact ⟨f, by simp, hb n hn⟩

/-- A scope is the outermost one in both runs or in neither. -/
theorem rootScope_iff (hs : K.Active h V scope scope') :
    scope = rootScope ↔ scope' = rootScope := by
  cases hs with
  | @cons M f f' scope scope' hf hs seen bound own =>
    have hroot := K.frame_inj f f' _ _ hf.frame K.root
    unfold rootScope
    rw [List.cons.injEq, List.cons.injEq, hroot, hs.nil_iff]

end Active

theorem Kept.mono (hK : Le K K') (hs : K.Kept V scope scope') : K'.Kept V scope scope' :=
  ⟨hs.scopes.mono hK, hs.left_ne, hs.right_ne⟩

theorem Stands.mono (hK : Le K K') (hs : K.Stands V scope scope') : K'.Stands V scope scope' := by
  cases hs with
  | active hs => exact .active (hs.mono hK)
  | aside hl ha hs => exact .aside hl ha (hs.mono hK)

theorem Stands.scopes (hs : K.Stands V scope scope') : K.Scopes True V scope scope' := by
  cases hs with
  | active hs => exact hs.scopes
  | aside _ _ hs => exact hs

/-- The outermost scope belongs to itself. -/
theorem kept_root (K : Correspondence O) : K.Kept View.whole rootScope rootScope :=
  ⟨⟨.cons K.root (fun _ => .inl) .nil, fun _ h => h.elim, .inl View.whole_whole⟩, by decide,
    by decide⟩

theorem active_root (K : Correspondence Backdrop.bare) :
    K.Active True View.whole rootScope rootScope :=
  .cons (.bare K.root) .nil (fun _ => .inl) (fun _ h => h.elim) (.inl View.whole_whole)

/-! ## §4. Functions, expanders and modules -/

/-- Functions that belong together: their scopes are alike as a view says that covers the body. -/
structure Closures (K : Correspondence O) (c c' : Closure) : Prop where
  id : K.body c.id c'.id
  name : c.name = c'.name
  params : c.params = c'.params
  scope : ∃ V e, K.Kept V c.scope c'.scope ∧ K.code c.id e ∧ e.Covered (V.adding c.params.names)
  left : K.left.Covers c.scope c.captures
  right : K.right.Covers c'.scope c'.captures

/-- Expanders that belong together. -/
structure Expanders (K : Correspondence O) (m m' : Expander) : Prop where
  id : K.body m.id m'.id
  name : m.name = m'.name
  params : m.params = m'.params
  scope : ∃ V e, K.Kept V m.scope m'.scope ∧ K.code m.id e ∧ e.Covered (V.adding m.params.names)

/-- Modules that belong together: what they show can be read in their scopes. -/
structure Modules (K : Correspondence O) (m m' : Module) : Prop where
  id : m.id = m'.id
  name : m.name = m'.name
  exports : m.exports = m'.exports
  scope : ∃ V, K.Kept V m.scope m'.scope ∧ (∀ n ∈ m.exports, V.Reads n) ∧
    ∀ n, firstSegment n ∈ m.exports → V.Reads n

theorem Closures.mono (hK : Le K K') {c c' : Closure} (hc : K.Closures c c') :
    K'.Closures c c' := by
  obtain ⟨V, e, hs, he, hcov⟩ := hc.scope
  exact ⟨hK.body _ _ hc.id, hc.name, hc.params, ⟨V, e, hs.mono hK, hK.code _ _ he, hcov⟩,
    hc.left.mono hK.left, hc.right.mono hK.right⟩

theorem Expanders.mono (hK : Le K K') {m m' : Expander} (hm : K.Expanders m m') :
    K'.Expanders m m' := by
  obtain ⟨V, e, hs, he, hcov⟩ := hm.scope
  exact ⟨hK.body _ _ hm.id, hm.name, hm.params, V, e, hs.mono hK, hK.code _ _ he, hcov⟩

theorem Modules.mono (hK : Le K K') {m m' : Module} (hm : K.Modules m m') : K'.Modules m m' := by
  obtain ⟨V, hs, hreads⟩ := hm.scope
  exact ⟨hm.id, hm.name, hm.exports, V, hs.mono hK, hreads⟩

/-- The relations that a correspondence gives for what values are made of. -/
def leaves (K : Correspondence O) : Leaves := ⟨K.Closures, K.Expanders, K.Modules⟩

theorem leaves_le (hK : Le K K') : K.leaves.Le K'.leaves :=
  ⟨fun _ _ hc => hc.mono hK, fun _ _ hm => hm.mono hK, fun _ _ hm => hm.mono hK⟩

/-- Corresponding values print alike and are one with corresponding values. -/
theorem faithful (K : Correspondence O) : K.leaves.Faithful where
  label := by
    intro c c' h
    unfold Closure.label
    rw [h.name]
  expander_name _ _ h := h.name
  module_name _ _ h := h.name
  closure_id _ _ _ _ h g := K.body_inj _ _ _ _ h.id g.id
  expander_id _ _ _ _ h g := K.body_inj _ _ _ _ h.id g.id
  module_id _ _ _ _ h g := by rw [h.id, g.id]

/-- Values that belong together. -/
abbrev Values (K : Correspondence O) : Value → Value → Prop :=
  Value.Like K.leaves

/-- Expressions that belong together. -/
abbrev Exprs (K : Correspondence O) : Expr → Expr → Prop :=
  Expr.Like K.leaves

end Correspondence

end TinyLisp
