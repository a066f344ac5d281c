import TinyLisp.Proofs.Simulation.Bare
import TinyLisp.Proofs.Simulation.Self
import TinyLisp.Proofs.Expansion

/-!
# Sequential bindings are nested bindings

A sequential `let` form stands for parallel ones with a single binding each, one inside the other
(`Expr.nested`). It does not open its frames when these do: the frame in which the first name is
bound is there already when the first initial value is evaluated, inside of it. Before the name is
bound the frame is empty, and what is looked up through it is looked up behind it. So the two forms
end alike if the evaluation leaves the frame alone: it binds nothing in the frame, and makes nothing
that keeps a scope with the frame in it (`Engine.sequential_nested`).

The run of the nested forms has no such frame. While the first initial value is evaluated, the frame
stands apart from the frames that belong together; afterwards it becomes the partner of the frame
that the nested forms open then.
-/

namespace TinyLisp

open Correspondence

/-! ## §1. Frames that are left alone -/

/-- A form asks for a frame: it binds a name in it, or makes something that keeps a scope with the
frame in it. -/
def Expr.Uses (f : FrameId) (e : Expr) (scope : Scope) : Prop :=
  (e.Writes ∧ scope.head? = some f) ∨ (e.Keeps ∧ f ∈ scope)

/-- A body inside of bindings, each of them in a form of its own. -/
def Expr.nested : List (String × Expr) → Expr → Expr
  | [], body => body
  | b :: bs, body => .letIn .parallel [b] (nested bs body)

/-- What a sequential form evaluates first, in the frame that it opens. -/
def Expr.foremost : List (String × Expr) → Expr → Expr
  | [], body => body
  | b :: _, _ => b.2

/-- In a new frame inside a scope an expression is evaluated without any form, on the way, that asks
for this frame. -/
def Expr.Spares (ctx : Context) (e : Expr) (scope : Scope) (w : World) : Prop :=
  ∀ n, Moment.Clear ctx (fun e scope _ => e.Uses w.store.frames.size scope)
    ⟨n, .eval e (w.store.frames.size :: scope), { w with store := w.store.newFrame.2 }⟩

/-- The run on the left has opened a frame inside a scope, and it leaves the frame alone, or fails. -/
def Backdrop.ahead (f : FrameId) (scope : Scope) (hne : scope ≠ []) (h : Halt) : Backdrop where
  aside B B' := B = f :: scope ∧ B' = scope
  live := True
  shared _ := True
  held := False
  own _ := False
  apart g := g = f
  excused h' := h' = h
  aside_ne := by
    rintro B B' ⟨rfl, rfl⟩
    exact ⟨by simp, hne⟩
  shared_dots _ _ := trivial
  own_cons _ _ h := h

namespace Backdrop

variable {f : FrameId} {scope : Scope} {hne : scope ≠ []} {h : Halt}

theorem passing_ahead : (ahead f scope hne h).Passing :=
  ⟨fun hheld => hheld, fun _ hown => hown⟩

/-- Only forms that ask for the frame ask for more than the scopes give. -/
theorem heeds_ahead : (ahead f scope hne h).Heeds fun e scope _ => e.Uses f scope := by
  intro K V e S S' w hs hc hfree
  have hwhole : V.Whole := hs.scopes.own.resolve_right fun hown => hown
  have hapart : e.Keeps → ∀ {B B'}, (ahead f scope hne h).aside B B' → ¬ B <:+ S := by
    rintro hkeeps B B' ⟨rfl, rfl⟩ hB
    exact hfree (.inr ⟨hkeeps, hB.subset (by simp)⟩)
  cases hs with
  | aside hl ha hs =>
    obtain ⟨rfl, rfl⟩ := id ha
    exact ⟨fun hkeeps => absurd List.suffix_rfl (hapart hkeeps ha),
      fun hwrites => absurd (.inl ⟨hwrites, rfl⟩) hfree, fun _ => hwhole⟩
  | active hs =>
    refine ⟨fun hkeeps => (hs.clear (hapart hkeeps)).kept, fun _ => ?_, fun _ => hwhole⟩
    by_cases hkeeps : e.Keeps
    · exact hs.clear (hapart hkeeps)
    · exact hs.imp fun _ hkeeps' => absurd hkeeps' hkeeps

end Backdrop

namespace Engine

variable {ctx : Context} {w : World} {scope : Scope}

/-! ## §2. Before the frame and inside of it -/

/-- An empty frame before a scope changes nothing of what names mean. -/
theorem holds_ahead (hs : w.Inside scope) (h : Halt) :
    (Backdrop.ahead w.store.frames.size scope hs.ne h).Holds w.store.newFrame.2 w.store where
  left_lt := by
    rintro B B' ⟨rfl, rfl⟩ f hf
    rw [Store.frames_size_newFrame]
    rcases List.mem_cons.1 hf with rfl | hf
    · exact Nat.lt_succ_self _
    · exact Nat.lt_succ_of_lt (hs.lt f hf)
  right_lt := by
    rintro B B' ⟨rfl, rfl⟩ f hf
    exact hs.lt f hf
  alike := by
    rintro _ scope ⟨rfl, rfl⟩ n -
    have hempty : n ∉ (w.store.newFrame.2.frame w.store.frames.size).keys := by
      rw [Store.frame_newFrame_size]
      exact List.not_mem_nil
    rw [Store.slot?_cons_of_not_mem hempty]
    exact Store.slot?_congr (fun f _ => Store.frame_newFrame w.store f) n
  apart_lt := by
    rintro f rfl
    rw [Store.frames_size_newFrame]
    exact Nat.lt_succ_self _
  apart_empty := by
    rintro f rfl
    exact Store.frame_newFrame_size w.store

/-- The world as it is belongs to itself. -/
abbrev itself (w : World) (hw : w.Grounded) : Correspondence Backdrop.bare :=
  .self Backdrop.bare w hw fun _ hf => hf.elim

/-- A value with the scope to bind it in. -/
def Correspondence.Ready (K : Correspondence Backdrop.bare) (p p' : Value × Scope) : Prop :=
  K.Values p.1 p'.1 ∧ K.Active True View.whole p.2 p'.2

/-- What two runs end with when the first has left the new frame alone, and the other has not opened
it: the frame is there in the one run, empty and without a partner. -/
inductive Spared (hw : w.Grounded) :
    EStateM.Result Halt World Value → EStateM.Result Halt World Value → Prop
  | ok {K : Correspondence Backdrop.bare} {v v' : Value} {w₁ w₂ : World}
    (hK : (itself w hw).Le K) (hworlds : K.Worlds w₁ w₂) (hv : K.Values v v')
    (hlt : w.store.frames.size < w₁.store.frames.size)
    (hempty : w₁.store.frame w.store.frames.size = [])
    (hunpaired : ∀ f', ¬ K.frame w.store.frames.size f')
    (hveil : ∀ g, ¬ K.left.veil w.store.frames.size g) : Spared hw (.ok v w₁) (.ok v' w₂)
  | error {K : Correspondence Backdrop.bare} {h h' : Halt} {w₁ w₂ : World}
    (hK : (itself w hw).Le K) (hworlds : K.Worlds w₁ w₂) (hh : HaltsAlike h h') :
    Spared hw (.error h w₁) (.error h' w₂)

/-- An expression that spares the new frame is evaluated in the frame as it is before the frame is
opened. -/
theorem spared_of_spares (hw : w.Grounded) (hs : w.Inside scope) {e : Expr}
    (he : e.Every w.Supports) (hspares : e.Spares ctx scope w) (n : Nat) :
    Spared hw
      ((ofDepth ctx n).eval e (w.store.frames.size :: scope)
        { w with store := w.store.newFrame.2 })
      ((ofDepth ctx n).eval e scope w) := by
  let f := w.store.frames.size
  let w₁ : World := { w with store := w.store.newFrame.2 }
  -- the failure of the guard is not what the run in the frame ends with anyway
  obtain ⟨fault, hguard, hfault⟩ := exists_guarded (hspares n)
  let O := Backdrop.ahead f scope hs.ne (.failed fault)
  have hO : ∀ g, O.apart g → w.store.frames.size ≤ g := fun g hg => Nat.le_of_eq hg.symm
  let K := Correspondence.self O w hw hO
  have hstores : K.Stores w.store.newFrame.2 w.store :=
    stores_self rfl (by simp) (fun g _ => Store.frame_newFrame w.store g) (holds_ahead hs _)
  have hstands : K.Stands View.whole (f :: scope) scope := by
    refine .aside trivial ⟨rfl, rfl⟩ ⟨?_, fun _ hn => hn.elim, .inl View.whole_whole⟩
    exact .aside trivial ⟨rfl, rfl⟩ fun _ _ => trivial
  have hinStep : (guarded ctx (fun e scope _ => e.Uses f scope) (.failed fault) n).InStep O
      (ofDepth ctx n) :=
    guarded_inStep Backdrop.heeds_ahead rfl ⟨rfl, rfl, rfl⟩ n
  have hends := hinStep.eval K (.self own_self he) (.whole View.whole_whole) hstands w₁ w
    (worlds_self hstores)
  rw [show (guarded ctx _ (.failed fault) n).eval e (f :: scope) w₁ =
    (ofDepth ctx n).eval e (f :: scope) w₁ from hguard] at hends
  have hpassing : O.Passing := Backdrop.passing_ahead
  change Spared hw ((ofDepth ctx n).eval e (f :: scope) w₁) _
  change ∀ w', (ofDepth ctx n).eval e (f :: scope) w₁ ≠ _ at hfault
  generalize (ofDepth ctx n).eval e (f :: scope) w₁ = r, (ofDepth ctx n).eval e scope w = r'
    at hends hfault
  cases hends with
  | excused hexcused =>
    obtain rfl : _ = Halt.failed fault := hexcused
    exact absurd rfl (hfault _)
  | error hK hw' hh => exact .error (le_bare hK) (hw'.bare hpassing) hh
  | @ok K₁ v v' wa wb hK hw' hv =>
    have hback := hw'.store.backdrop
    obtain ⟨hunpaired, hveil⟩ := K₁.apart f rfl
    exact .ok (le_bare hK) (hw'.bare hpassing) (hv.bare hpassing) (hback.apart_lt rfl)
      (hback.apart_empty rfl) hunpaired hveil

/-- In a form without bindings, a body that spares the frame of the form is evaluated as it is
outside of the form. -/
theorem spared_body_ends (hw : w.Grounded) (hs : w.Inside scope) {e : Expr}
    (he : e.Every w.Supports) (hspares : e.Spares ctx scope w) (n : Nat) :
    (itself w hw).Ends Values
      ((Eval.extend scope >>= fun inner => (ofDepth ctx n).eval e inner) w)
      ((ofDepth ctx n).eval e scope w) := by
  rw [Eval.bind_of_ok (show Eval.extend scope w = .ok (w.store.frames.size :: scope)
    { w with store := w.store.newFrame.2 } from rfl)]
  have hspared := spared_of_spares hw hs he hspares n
  generalize (ofDepth ctx n).eval e (w.store.frames.size :: scope) _ = r,
    (ofDepth ctx n).eval e scope w = r' at hspared ⊢
  cases hspared with
  | error hK hworlds hh => exact .error hK hworlds hh
  | ok hK hworlds hv => exact .ok hK hworlds hv

/-- An initial value that spares the frame of its form may be evaluated before the frame is opened;
then the two frames belong together. -/
theorem spared_init_ends (hw : w.Grounded) (hs : w.Inside scope) {e : Expr}
    (he : e.Every w.Supports) (hspares : e.Spares ctx scope w) (n : Nat) :
    (itself w hw).Ends Correspondence.Ready
      ((Eval.extend scope >>= fun inner => (ofDepth ctx n).eval e inner >>= fun v =>
        pure (v, inner)) w)
      (((ofDepth ctx n).eval e scope >>= fun v => Eval.extend scope >>= fun inner =>
        pure (v, inner)) w) := by
  rw [Eval.bind_of_ok (show Eval.extend scope w = .ok (w.store.frames.size :: scope)
    { w with store := w.store.newFrame.2 } from rfl), Eval.bind_eq, Eval.bind_eq]
  have hspared := spared_of_spares hw hs he hspares n
  generalize (ofDepth ctx n).eval e (w.store.frames.size :: scope) _ = r,
    (ofDepth ctx n).eval e scope w = r' at hspared ⊢
  cases hspared with
  | error hK hworlds hh => exact .error hK hworlds hh
  | @ok K v v' w₁ w₂ hK hworlds hv hlt hempty hunpaired hveil =>
    -- the frame is still empty, and the frame that the other run opens becomes its partner
    obtain ⟨K', hle, hadopted, hframe, hbody, hcode⟩ :=
      hworlds.store.adopt hlt hempty hunpaired hveil
    have hself : (itself w hw).Along True View.whole.seen scope scope := along_self hs.lt
    have hactive : K'.Active True View.whole (w.store.frames.size :: scope)
        (w₂.store.frames.size :: scope) :=
      .cons (.bare hframe) (hself.mono (hK.trans hle)) (fun _ => .inl) (fun _ hn => hn.elim)
        (.inl View.whole_whole)
    exact .ok (hK.trans hle) (hworlds.withStores hle hbody hcode hadopted)
      ⟨Values.mono hle hv, hactive⟩

/-! ## §3. Nested bindings -/

variable {name : String} {init body : Expr} {bs : List (String × Expr)}

/-- At every depth, sequential bindings go with bindings in new frames one after another. -/
theorem sequential_ends (hw : w.Grounded) (hs : w.Inside scope)
    (he : (Expr.letIn .sequential ((name, init) :: bs) body).Every w.Supports)
    (hspares : init.Spares ctx scope w) (n : Nat) :
    (itself w hw).Ends Values
      ((ofDepth ctx n).evalLet scope .sequential ((name, init) :: bs) body w)
      (((ofDepth ctx n).bindNested scope ((name, init) :: bs) >>= fun inner =>
        (ofDepth ctx n).eval body inner) w) := by
  obtain ⟨hinits, hbody⟩ := Expr.every_letIn.1 he
  have hfirst := spared_init_ends hw hs (hinits (name, init) (by simp)) hspares n
  have hen : (ofDepth ctx n).InStep Backdrop.bare (ofDepth ctx n) :=
    inStep_ofDepth ⟨rfl, rfl, rfl⟩ n
  have hbindings : (itself w hw).Bindings bs bs :=
    List.forall₂_same.2 fun b hb => ⟨rfl, .self own_self (hinits b (by simp [hb]))⟩
  have hbodies : (itself w hw).Exprs body body := .self own_self hbody
  -- when the first value has been found, both runs do the same
  let rest (p : Value × Scope) : Eval Value := Eval.bindName p.2 name p.1 >>= fun _ =>
    (ofDepth ctx n).bindNested p.2 bs >>= fun inner => (ofDepth ctx n).eval body inner
  have hleft : (ofDepth ctx n).evalLet scope .sequential ((name, init) :: bs) body =
      (Eval.extend scope >>= fun inner => (ofDepth ctx n).eval init inner >>= fun v =>
        pure (v, inner)) >>= rest := by
    simp only [evalLet, letScope, bind_assoc, pure_bind, rest]
  have hright : ((ofDepth ctx n).bindNested scope ((name, init) :: bs) >>= fun inner =>
      (ofDepth ctx n).eval body inner) =
      ((ofDepth ctx n).eval init scope >>= fun v => Eval.extend scope >>= fun inner =>
        pure (v, inner)) >>= rest := by
    simp only [bindNested, bind_assoc, pure_bind, rest]
  rw [hleft, hright]
  refine hfirst.bind fun K hK p p' hp => ?_
  obtain ⟨hv, hactive⟩ := hp
  refine (Sim.bindName hactive name hv).bind fun K₁ hK₁ _ _ h₁ => ?_
  have hcovers : (Expr.letIn .sequential bs body).Covered (View.whole.adding [name]) :=
    .whole (View.whole_whole.adding _)
  refine (hen.bindNested (bindings_mono (hK.trans hK₁) hbindings) hcovers h₁).bind
    fun K₂ hK₂ S S' hsuits => ?_
  obtain ⟨V, hinner, hcovered⟩ := hsuits
  exact hen.eval K₂ (Exprs.mono ((hK.trans hK₁).trans hK₂) hbodies) hcovered (.active hinner)

/-- One parallel binding is one nested binding. -/
theorem letScope_single (en : Engine) (scope : Scope) (b : String × Expr) :
    en.letScope scope .parallel [b] = en.bindNested scope [b] := by
  obtain ⟨name, init⟩ := b
  have hbind : ∀ inner v, Eval.bindAll inner [(name, v)] = Eval.bindName inner name v := by
    intro inner v
    cases inner with
    | nil => rfl
    | cons f inner => rfl
  simp [letScope, bindNested, evalEach, hbind]

theorem bindNested_cons (en : Engine) (scope : Scope) (b : String × Expr)
    (bs : List (String × Expr)) :
    en.bindNested scope (b :: bs) = en.bindNested scope [b] >>= fun inner =>
      en.bindNested inner bs := by
  simp [bindNested]

/-- Nested forms end as nested bindings with the body inside do. -/
theorem finishes_nested {r : EStateM.Result Halt World Value} :
    Finishes ctx (fun en => en.eval (.nested bs body) scope) w r ↔
      Finishes ctx (fun en => en.bindNested scope bs >>= fun inner => en.eval body inner) w r := by
  induction bs generalizing scope w r with
  | nil => exact finishes_congr fun _ => rfl
  | cons b bs ih =>
    have hbody (inner : Scope) : Deepens ctx fun en =>
        en.bindNested inner bs >>= fun S => en.eval body S :=
      (deepens_bindNested inner bs).bind fun S => deepens_eval body S
    have hrest := finishes_bind_congr (w := w) (r := r) (deepens_letScope scope .parallel [b])
      (fun inner => deepens_eval (.nested bs body) inner) hbody fun _ _ _ => ih
    refine finishes_eval.trans (hrest.trans (finishes_congr fun n => ?_))
    show ((ofDepth ctx n).letScope scope .parallel [b] >>= _) w = _
    rw [letScope_single, bindNested_cons _ scope b bs, bind_assoc]

/-! ## §4. Expressions that end alike -/

/-- In a world an expression ends as another does: whatever the one ends with, other than for want
of depth, the other ends with something that belongs to it. The values are alike up to frames and
bodies, or the failures are alike; the same has been written; and what was in the world before, the
frames of the scope among it, belongs to itself in the two worlds that are left behind. -/
def EndsAs (ctx : Context) (hw : w.Grounded) (scope : Scope) (e e' : Expr) : Prop :=
  (∀ r, Finishes ctx (fun en => en.eval e scope) w r →
    ∃ r', Finishes ctx (fun en => en.eval e' scope) w r' ∧ (itself w hw).Ends Values r r') ∧
  ∀ r', Finishes ctx (fun en => en.eval e' scope) w r' →
    ∃ r, Finishes ctx (fun en => en.eval e scope) w r ∧ (itself w hw).Ends Values r r'

/-- Two ends belong together: there is an end that belongs to either of them. -/
def Together (hw : w.Grounded) (r r' : EStateM.Result Halt World Value) : Prop :=
  ∃ r₀, (itself w hw).Ends Values r r₀ ∧ (itself w hw).Ends Values r' r₀

/-- In a world two expressions end alike in a scope: whatever one of them ends with, other than for
want of depth, the other ends with something that belongs together with it. -/
def EndAlike (ctx : Context) (hw : w.Grounded) (scope : Scope) (e e' : Expr) : Prop :=
  (∀ r, Finishes ctx (fun en => en.eval e scope) w r →
    ∃ r', Finishes ctx (fun en => en.eval e' scope) w r' ∧ Together hw r r') ∧
  ∀ r', Finishes ctx (fun en => en.eval e' scope) w r' →
    ∃ r, Finishes ctx (fun en => en.eval e scope) w r ∧ Together hw r r'

/-- Two expressions that both end as a third does end alike. -/
theorem EndsAs.endAlike {hw : w.Grounded} {e e' e₀ : Expr} (h : EndsAs ctx hw scope e e₀)
    (h' : EndsAs ctx hw scope e' e₀) : EndAlike ctx hw scope e e' := by
  constructor
  · intro r hr
    obtain ⟨r₀, hr₀, hends⟩ := h.1 r hr
    obtain ⟨r', hr', hends'⟩ := h'.2 r₀ hr₀
    exact ⟨r', hr', r₀, hends, hends'⟩
  · intro r' hr'
    obtain ⟨r₀, hr₀, hends'⟩ := h'.1 r' hr'
    obtain ⟨r, hr, hends⟩ := h.2 r₀ hr₀
    exact ⟨r, hr, r₀, hends, hends'⟩

/-- It is enough that the two end alike at every depth. -/
theorem endsAs_of_ends {hw : w.Grounded} {e e' : Expr} {x y : Engine → Eval Value}
    (hx : ∀ {r}, Finishes ctx (fun en => en.eval e scope) w r ↔ Finishes ctx x w r)
    (hy : ∀ {r}, Finishes ctx (fun en => en.eval e' scope) w r ↔ Finishes ctx y w r)
    (h : ∀ n, (itself w hw).Ends Values (x (ofDepth ctx n) w) (y (ofDepth ctx n) w)) :
    EndsAs ctx hw scope e e' := by
  -- one of two ends that belong together is for want of depth only if the other is
  have hexhausted : ∀ {r r' : EStateM.Result Halt World Value}, (itself w hw).Ends Values r r' →
      ((∃ w', r = .error .exhausted w') ↔ ∃ w', r' = .error .exhausted w') := by
    intro r r' hends
    cases hends with
    | ok => simp
    | error _ _ hh => cases hh <;> simp
    | excused hexcused => exact hexcused.elim
  constructor
  · intro r hr
    obtain ⟨⟨n, rfl⟩, hne⟩ := hx.1 hr
    refine ⟨_, hy.2 ⟨⟨n, rfl⟩, fun w' h' => ?_⟩, h n⟩
    obtain ⟨w₁, h₁⟩ := (hexhausted (h n)).2 ⟨w', h'⟩
    exact hne w₁ h₁
  · intro r' hr'
    obtain ⟨⟨n, rfl⟩, hne⟩ := hy.1 hr'
    refine ⟨_, hx.2 ⟨⟨n, rfl⟩, fun w' h' => ?_⟩, h n⟩
    obtain ⟨w₁, h₁⟩ := (hexhausted (h n)).1 ⟨w', h'⟩
    exact hne w₁ h₁

/-- Sequential bindings end as nested ones do, if what is evaluated first in the frame that their
form opens spares the frame. -/
theorem sequential_endsAs (hw : w.Grounded) (hs : w.Inside scope)
    (he : (Expr.letIn .sequential bs body).Every w.Supports)
    (hspares : (Expr.foremost bs body).Spares ctx scope w) :
    EndsAs ctx hw scope (.letIn .sequential bs body) (.nested bs body) := by
  cases bs with
  | nil =>
    refine endsAs_of_ends finishes_eval Iff.rfl fun n => ?_
    exact spared_body_ends hw hs (Expr.every_letIn.1 he).2 hspares n
  | cons b bs =>
    exact endsAs_of_ends finishes_eval finishes_nested fun n => sequential_ends hw hs he hspares n

/-! ## §5. After the first binding -/

/-- What was in a world belongs to itself in the worlds that have grown from it. -/
theorem itself_le {w' : World} (hw : w.Grounded) (hw' : w'.Grounded) (hg : w.Grows w') :
    (itself w hw).Le (itself w' hw') where
  frame f f' hf := ⟨hf.1, Nat.lt_of_lt_of_le hf.2 hg.store.frames_le⟩
  body b b' hb := ⟨hb.1, Nat.lt_of_lt_of_le hb.2 hg.bodies_le⟩
  code b e he := by
    refine ⟨Nat.lt_of_lt_of_le he.1 hg.bodies_le, ?_⟩
    rw [← he.2, Array.getD_eq_getD_getElem?, Array.getD_eq_getD_getElem?, hg.bodies_eq he.1]
  left := ⟨fun _ _ _ hs => hg.store.kept hs, fun _ _ hv => hv⟩
  right := ⟨fun _ _ _ hs => hg.store.kept hs, fun _ _ hv => hv⟩

/-- Bindings leave a grounded world behind. -/
theorem bindNested_grounded (ctx : Context) (hw : w.Grounded) (hs : w.Inside scope)
    (hbs : ∀ b ∈ bs, b.2.Every w.Supports) (n : Nat) :
    let w' := ((ofDepth ctx n).bindNested scope bs).after w
    w.Grows w' ∧ w'.Grounded ∧
      ∀ inner, (ofDepth ctx n).bindNested scope bs w = .ok inner w' → w'.Inside inner := by
  have hactive : Invariant.grounding.Active w scope :=
    ⟨hs.lt, fun f hf => hs.lt f (List.mem_of_mem_head? hf), fun h => absurd h hs.ne⟩
  have hen := Invariant.kept_grounding.engines_ofDepth ctx n
  have hends := (hen.bindNested (K := w) hbs hactive w ⟨rfl, hw⟩).ends
  intro w'
  cases hrun : (ofDepth ctx n).bindNested scope bs w with
  | ok inner w₁ =>
    obtain rfl : w' = w₁ := Eval.after_of_ok hrun
    rw [hrun] at hends
    obtain ⟨v, hg, ⟨rfl, hgrounded⟩, hinner⟩ := hends
    refine ⟨hg, hgrounded, fun S hS => ?_⟩
    cases hS
    exact Invariant.inside_of_active hinner
  | error e w₁ =>
    obtain rfl : w' = w₁ := Eval.after_of_error hrun
    rw [hrun] at hends
    exact ⟨hends.1, hends.2, fun S hS => absurd hS (by simp)⟩

/-- A world belongs to itself. -/
theorem worlds_itself (hw : w.Grounded) : (itself w hw).Worlds w w :=
  worlds_self (stores_self rfl (Nat.le_refl _) (fun _ _ => rfl) (Backdrop.holds_bare _ _))

/-- The form with the first binding taken out ends as the nested forms do, if what is evaluated first
in the form that is left spares its frame. -/
theorem parallel_endsAs (hw : w.Grounded) (hs : w.Inside scope) {b : String × Expr}
    (he : (Expr.letIn .sequential (b :: bs) body).Every w.Supports)
    (hspares : ∀ (inner : Scope) (w' : World),
      Finishes ctx (fun en => en.letScope scope .parallel [b]) w (.ok inner w') →
        (Expr.foremost bs body).Spares ctx inner w') :
    EndsAs ctx hw scope (.letIn .parallel [b] (.letIn .sequential bs body))
      (.nested (b :: bs) body) := by
  obtain ⟨hinits, hbody⟩ := Expr.every_letIn.1 he
  -- both forms begin with the same binding, and leave a grounded world behind
  have hfirst (n : Nat) := bindNested_grounded ctx hw hs
    (fun b' (hb' : b' ∈ [b]) => hinits b' (by simp_all)) n
  simp only [← letScope_single] at hfirst
  have herror : ∀ e w', Finishes ctx (fun en => en.letScope scope .parallel [b]) w (.error e w') →
      (itself w hw).Ends Values (.error e w') (.error e w') := by
    rintro e w' ⟨⟨n, hrun⟩, -⟩
    obtain ⟨hg, hw', -⟩ := hfirst n
    rw [Eval.after_of_error hrun] at hg hw'
    refine .error (itself_le hw hw' hg) (worlds_itself hw') ?_
    cases e with
    | failed e => exact .failed (.refl e)
    | exhausted => exact .exhausted
  have hok : ∀ (inner : Scope) (w' : World),
      Finishes ctx (fun en => en.letScope scope .parallel [b]) w (.ok inner w') →
      ∃ hw' : w'.Grounded, (itself w hw).Le (itself w' hw') ∧
        EndsAs ctx hw' inner (.letIn .sequential bs body) (.nested bs body) := by
    rintro inner w' ⟨⟨n, hrun⟩, hne⟩
    obtain ⟨hg, hw', hinside⟩ := hfirst n
    rw [Eval.after_of_ok hrun] at hg hw' hinside
    have hlater : (Expr.letIn .sequential bs body).Every w'.Supports :=
      (Expr.every_letIn.2 ⟨fun b' hb' => hinits b' (by simp_all), hbody⟩).mono
        fun _ hu => hu.later hg
    exact ⟨hw', itself_le hw hw' hg, sequential_endsAs hw' (hinside inner hrun) hlater
      (hspares inner w' ⟨⟨n, hrun⟩, hne⟩)⟩
  have hx : Deepens ctx fun en => en.letScope scope .parallel [b] := deepens_letScope _ _ _
  have hk (e : Expr) (inner : Scope) : Deepens ctx fun en => en.eval e inner :=
    deepens_eval e inner
  constructor
  · intro r hr
    obtain ⟨r', hr', hends⟩ := exists_finishes_bind (Q := (itself w hw).Ends Values) hx
      (hk (.letIn .sequential bs body)) (hk (.nested bs body)) herror
      (fun inner w' hfin r hr => by
        obtain ⟨hw', hle, hendsAs⟩ := hok inner w' hfin
        obtain ⟨r', hr', hends⟩ := hendsAs.1 r hr
        exact ⟨r', hr', hends.since hle⟩) (finishes_eval.1 hr)
    exact ⟨r', finishes_eval.2 hr', hends⟩
  · intro r hr
    obtain ⟨r', hr', hends⟩ := exists_finishes_bind (Q := fun r' r => (itself w hw).Ends Values r r')
      hx (hk (.nested bs body)) (hk (.letIn .sequential bs body)) herror
      (fun inner w' hfin r hr => by
        obtain ⟨hw', hle, hendsAs⟩ := hok inner w' hfin
        obtain ⟨r', hr', hends⟩ := hendsAs.2 r hr
        exact ⟨r', hr', hends.since hle⟩) (finishes_eval.1 hr)
    exact ⟨r', finishes_eval.2 hr', hends⟩

/-! ## §6. Sequential and nested forms -/

/-- Sequential bindings are nested bindings. In every world of a session and in every scope there,
a sequential `let` form with at least one binding ends like the parallel form of its first binding
around the sequential form of the others: with values that are alike up to frames and bodies, or with
the same failure, with the same text written, and with the same bindings in what was there before.
And it ends as parallel forms do with a single binding each, one inside the other. This is so where
what a sequential form evaluates first, in the frame that it opens, spares this frame. -/
theorem sequential_nested (h : w.Arises ctx) (hs : w.Inside scope) {b : String × Expr}
    (he : (Expr.letIn .sequential (b :: bs) body).Every w.Supports)
    (hspares : b.2.Spares ctx scope w) :
    EndsAs ctx h.grounded scope (.letIn .sequential (b :: bs) body) (.nested (b :: bs) body) ∧
      ((∀ (inner : Scope) (w' : World),
          Finishes ctx (fun en => en.letScope scope .parallel [b]) w (.ok inner w') →
            (Expr.foremost bs body).Spares ctx inner w') →
        EndAlike ctx h.grounded scope (.letIn .sequential (b :: bs) body)
          (.letIn .parallel [b] (.letIn .sequential bs body))) := by
  have hnested := sequential_endsAs h.grounded hs he hspares
  exact ⟨hnested, fun hrest => hnested.endAlike (parallel_endsAs h.grounded hs he hrest)⟩

/-- An expression that asks the engine for nothing spares every frame, if it binds nothing itself
and keeps no scope. -/
theorem spares_of_const {e : Expr} (hwrites : ¬ e.Writes) (hkeeps : ¬ e.Keeps)
    (hconst : ∀ en en' S, evalStep ctx en e S = evalStep ctx en' e S) : e.Spares ctx scope w := by
  have hclosed : Expr.Closed ctx (· = e) := by
    rintro _ rfl en en' -
    exact funext (hconst en en')
  intro n k x S v hpart huses
  obtain ⟨_, _, heq, rfl⟩ := part_of_closed hclosed rfl hpart
  cases heq
  exact huses.elim (fun h => hwrites h.1) fun h => hkeeps h.1

/-- The world of a session that has done nothing. -/
theorem arises_primitive (ctx : Context) : Session.primitiveWorld.Arises ctx := by
  have h : (Session.mk ctx 4 Session.primitiveWorld).world.Arises ctx := .top (.bare 4)
  exact h

/-- In `(let* ((x 1) (y x)) y)` the initial values are a literal and a variable. -/
theorem sequential_nested_variables :
    let ctx : Context := ⟨.default, ⟨[], []⟩⟩
    let bs : List (String × Expr) := [("x", .literal (.int 1)), ("y", .var "x")]
    ∃ h : Session.primitiveWorld.Arises ctx,
      EndsAs ctx h.grounded rootScope (.letIn .sequential bs (.var "y"))
          (.nested bs (.var "y")) ∧
        EndAlike ctx h.grounded rootScope (.letIn .sequential bs (.var "y"))
          (.letIn .parallel [("x", .literal (.int 1))]
            (.letIn .sequential [("y", .var "x")] (.var "y"))) := by
  intro ctx bs
  have harises := arises_primitive ctx
  have hsupports : (Expr.letIn .sequential bs (.var "y")).Every
      Session.primitiveWorld.Supports := by
    refine Expr.every_letIn.2 ⟨fun b hb => ?_, Expr.every_var _⟩
    rcases List.mem_cons.1 hb with rfl | hb
    · exact Expr.every_literal.2 ((Value.every_single rfl).2 trivial)
    · obtain rfl := List.mem_singleton.1 hb
      exact Expr.every_var _
  have hnested := sequential_nested harises (inside_root harises.grounded) hsupports
    (spares_of_const (fun h => h) (fun h => h) fun _ _ _ => rfl)
  exact ⟨harises, hnested.1, hnested.2 fun _ _ _ =>
    spares_of_const (fun h => h) (fun h => h) fun _ _ _ => rfl⟩

/-! ## §7. Where the frame is asked for -/

/-- Ends that belong together leave worlds behind that do. -/
theorem ends_worlds {K : Correspondence Backdrop.bare} {α β : Type}
    {R : Correspondence Backdrop.bare → α → β → Prop} {r : EStateM.Result Halt World α}
    {r' : EStateM.Result Halt World β} (h : K.Ends R r r') :
    ∃ K', K.Le K' ∧ K'.Worlds (Eval.worldOf r) (Eval.worldOf r') := by
  cases h with
  | ok hK hw _ => exact ⟨_, hK, hw⟩
  | error hK hw _ => exact ⟨_, hK, hw⟩
  | excused he => exact he.elim

theorem finishes_of_intOf?_eq {x : Engine → Eval Value} {n : Nat} {i : Int64}
    (h : intOf? (x (ofDepth ctx n) w) = some i) : Finishes ctx x w (x (ofDepth ctx n) w) := by
  refine ⟨⟨n, rfl⟩, fun w' heq => ?_⟩
  rw [heq] at h
  exact absurd h (by simp [intOf?])

set_option maxRecDepth 100000 in
/-- In `(let* ((x (define y 5))) x)` the definition is made in the frame of `x`, and in
`(let ((x (define y 5))) (let* () x))` it is made in the scope around the form. -/
theorem sequential_shares_frame :
    let ctx : Context := ⟨.default, ⟨[], []⟩⟩
    let b : String × Expr := ("x", .define "y" (.literal (.int 5)))
    ∃ h : Session.primitiveWorld.Arises ctx, Session.primitiveWorld.Inside rootScope ∧
      (Expr.letIn .sequential [b] (.var "x")).Every Session.primitiveWorld.Supports ∧
        ¬ EndAlike ctx h.grounded rootScope (.letIn .sequential [b] (.var "x"))
          (.letIn .parallel [b] (.letIn .sequential [] (.var "x"))) := by
  intro ctx b
  have harises := arises_primitive ctx
  refine ⟨harises, inside_root harises.grounded, ?_, fun halike => ?_⟩
  · refine Expr.every_letIn.2 ⟨fun b' hb' => ?_, Expr.every_var _⟩
    obtain rfl := List.mem_singleton.1 hb'
    exact Expr.every_define.2 (Expr.every_literal.2 ((Value.every_single rfl).2 trivial))
  · let x (en : Engine) := en.eval (.letIn .sequential [b] (.var "x")) rootScope
    let y (en : Engine) := en.eval (.letIn .parallel [b] (.letIn .sequential [] (.var "x"))) rootScope
    have hx : Finishes ctx x Session.primitiveWorld (x (ofDepth ctx 4) Session.primitiveWorld) :=
      finishes_of_intOf?_eq (i := 5) (by decide +kernel)
    have hy : Finishes ctx y Session.primitiveWorld (y (ofDepth ctx 4) Session.primitiveWorld) :=
      finishes_of_intOf?_eq (i := 5) (by decide +kernel)
    obtain ⟨r', hr', r₀, hends, hends'⟩ := halike.1 _ hx
    obtain rfl := hr'.unique (deepens_eval _ _) hy
    -- the two runs would leave the same names bound in the outermost frame
    obtain ⟨K, -, hw⟩ := ends_worlds hends
    obtain ⟨K', -, hw'⟩ := ends_worlds hends'
    have hframes := (hw.store.frame_eq _ _ K.root).trans (hw'.store.frame_eq _ _ K'.root).symm
    have hroot := congrArg (fun fr => (Table.get? "y" fr).isSome) hframes
    exact absurd hroot (by decide +kernel)

end Engine

end TinyLisp
