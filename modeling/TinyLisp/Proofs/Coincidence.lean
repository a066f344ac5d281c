import TinyLisp.Proofs.Sequential
import TinyLisp.Proofs.Simulation.References
import Mathlib.Data.List.TakeWhile

/-!
# The free variables of a function are all that it needs

A function may be made in either of two scopes that have the same slots for its free variables and
for all names with a dot. Called on the same arguments, it then shows the same: the same value in
print or the same failure, and the same text written (`Session.calls_coincide`). Imports and
expansions are left out of its body, and so are runs in which the body comes to call an expander:
what these refer to, the text of the body does not show.

The two runs are alike from the frame of the parameters inward. The scopes behind it are a backdrop
before which names that are neither free in the body nor dotted may mean different things; what the
body makes may keep them. Code from elsewhere does not see them, and the body's own code is covered
by the names that it refers to.
-/

namespace TinyLisp

open Correspondence

variable {w : World} {scope scope' : Scope} {free : List String} {h : Halt}

/-! ## §1. Scopes that agree -/

/-- Two scopes are there and have the same slots, or none in both, for some names and for all names
with a dot. -/
structure World.Agree (w : World) (free : List String) (scope scope' : Scope) : Prop where
  left : w.Inside scope
  right : w.Inside scope'
  free : ∀ n ∈ free, w.store.slot? scope n = w.store.slot? scope' n
  dotted : ∀ n, '.' ∈ n.toList → w.store.slot? scope n = w.store.slot? scope' n

/-- A name is its own first segment unless there is a dot in it. -/
theorem dot_mem_of_firstSegment_ne {name : String} (h : firstSegment name ≠ name) :
    '.' ∈ name.toList := by
  by_contra hdot
  have hplain : name.toList.takeWhile (· ≠ '.') = name.toList := by
    refine List.takeWhile_eq_self_iff.2 fun c hc => ?_
    have hne : c ≠ '.' := by
      rintro rfl
      exact hdot hc
    simpa using hne
  refine h ?_
  unfold firstSegment headChars
  rw [hplain, String.ofList_toList]

/-- A view in which some names are seen, and all names with a dot. -/
def View.sparing (free : List String) : View :=
  ⟨fun n => n ∈ free ∨ firstSegment n ≠ n, fun _ => False⟩

/-- Scopes that agree are behind a call; or the run on the left fails. The code of the call is what
is evaluated inside of the first frame that it opens. -/
def Backdrop.behind (hs : w.Agree free scope scope') (h : Halt) : Backdrop where
  aside B B' := B = scope ∧ B' = scope'
  live := False
  shared := (View.sparing free).seen
  held := True
  own S := w.store.frames.size ∈ S
  apart _ := False
  excused h' := h' = h
  aside_ne := by
    rintro B B' ⟨rfl, rfl⟩
    exact ⟨hs.left.ne, hs.right.ne⟩
  shared_dots _ hn := .inr hn
  own_cons _ _ hf := List.mem_cons_of_mem _ hf

/-- Calls of expanders inside of a frame. -/
def Guard.expanding (f : FrameId) : Guard :=
  fun e scope w => f ∈ scope ∧ e.Expands w.store scope

namespace Backdrop

/-- Only a call of an expander asks for more than the scopes inside of the frame give. -/
theorem heeds_behind {hs : w.Agree free scope scope'} :
    (behind hs h).Heeds (.expanding w.store.frames.size) := by
  intro K V e S S' w hs _ hfree
  cases hs with
  | aside hl _ _ => exact hl.elim
  | active hs =>
    refine ⟨fun _ => (hs.imp fun _ => trivial).kept, fun _ => hs.imp fun _ _ => trivial, ?_⟩
    exact fun hexpands => hs.scopes.own.resolve_right fun hown => hfree ⟨hown, hexpands⟩

theorem holds_behind (hs : w.Agree free scope scope') (h : Halt) :
    (behind hs h).Holds w.store w.store where
  left_lt := by
    rintro B B' ⟨rfl, rfl⟩
    exact hs.left.lt
  right_lt := by
    rintro B B' ⟨rfl, rfl⟩
    exact hs.right.lt
  alike := by
    rintro B B' ⟨rfl, rfl⟩ n (hn | hn)
    · exact hs.free n hn
    · exact hs.dotted n (dot_mem_of_firstSegment_ne hn)
  apart_lt hf := hf.elim
  apart_empty hf := hf.elim

end Backdrop

/-! ## §2. Making a function and calling it -/

/-- The function with parameters and a body that is made in a scope. -/
def World.function (w : World) (strategy : Strategy) (params : Params) (body : Expr)
    (scope : Scope) : Closure :=
  ⟨w.bodies.size, none, params,
    w.store.captures strategy scope (Expr.freeVariables params none body), scope⟩

/-- The world once the body has been kept. -/
def World.keeping (w : World) (body : Expr) : World :=
  { w with bodies := w.bodies.push body }

/-- Makes a function in a scope and calls it. -/
def Engine.callIn (en : Engine) (strategy : Strategy) (params : Params) (body : Expr)
    (args : List Value) (scope : Scope) : Eval Value := do
  let c ← Eval.newClosure strategy none params body scope
  en.apply (.closure c) args

theorem Engine.callIn_eq (en : Engine) (strategy : Strategy) (params : Params) (body : Expr)
    (args : List Value) (scope : Scope) (w : World) :
    en.callIn strategy params body args scope w =
      en.apply (.closure (w.function strategy params body scope)) args (w.keeping body) :=
  rfl

/-- In the call of a function, no form of the body's own code comes to call an expander. This code
is what is evaluated inside of the first frame that the call opens. -/
def Closure.CallsNoExpander (ctx : Context) (n : Nat) (c : Closure) (args : List Value)
    (w : World) : Prop :=
  Moment.Clear ctx (.expanding w.store.frames.size) ⟨n, .apply (.closure c) args, w⟩

/-- The scope of a call has the first frame in it that the call opens. -/
theorem mem_callScope {c : Closure} {S : Scope} {w' : World}
    (h : Eval.callScope c w = .ok S w') : w.store.frames.size ∈ S := by
  unfold Eval.callScope at h
  cases hc : c.captures with
  | scope =>
    rw [hc] at h
    cases h
    exact List.mem_cons_self
  | table slots =>
    rw [hc] at h
    cases h
    exact List.mem_cons_of_mem _ List.mem_cons_self

variable {ctx : Context} {params : Params} {form : Value} {body : Expr} {args : List Value}
variable {strategy : Strategy}

/-- The world with the body belongs to itself before the scopes of two functions. -/
abbrev Correspondence.behind (hw : (w.keeping body).Grounded) (hs : w.Agree free scope scope')
    (h : Halt) : Correspondence (Backdrop.behind hs h) :=
  .self _ (w.keeping body) hw fun _ hf => hf.elim

theorem worlds_behind (hw : (w.keeping body).Grounded) (hs : w.Agree free scope scope') (h : Halt) :
    (Correspondence.behind hw hs h).Worlds (w.keeping body) (w.keeping body) :=
  worlds_self (stores_self rfl (Nat.le_refl _) (fun _ _ => rfl) (Backdrop.holds_behind hs h))

/-- The functions made in two scopes that agree open frames inside of which the code need not see all
names. -/
theorem callScope_behind (hw : (w.keeping body).Grounded)
    (hs : w.Agree (Expr.freeVariables params none body) scope scope') (h : Halt) :
    (Correspondence.behind hw hs h).Ends
      (fun K S S' => K.Active True (View.sparing (Expr.freeVariables params none body)) S S')
      (Eval.callScope (w.function strategy params body scope) (w.keeping body))
      (Eval.callScope (w.function strategy params body scope') (w.keeping body)) := by
  have halong : (Correspondence.behind hw hs h).Along True
      (View.sparing (Expr.freeVariables params none body)).seen scope scope' :=
    .aside trivial ⟨rfl, rfl⟩ fun _ hn => hn
  have hcovers : ∀ S, (Side.of w.store).Covers S
      (w.store.captures strategy S (Expr.freeVariables params none body)) :=
    fun S => Side.covers_captures (Side.of w.store) w.store strategy S _
  have hsim : (Correspondence.behind hw hs h).Sim _
      (Eval.callScope (w.function strategy params body scope))
      (Eval.callScope (w.function strategy params body scope')) :=
    callScope_sim hs.left.ne hs.right.ne halong (hcovers scope) (hcovers scope')
  have hends := hsim _ _ (worlds_behind hw hs h)
  generalize hr : Eval.callScope (w.function strategy params body scope) (w.keeping body) = r,
    Eval.callScope (w.function strategy params body scope') (w.keeping body) = r' at hends
  cases hends with
  | ok hK hworlds hcall =>
    obtain ⟨T, T', ⟨f, f', hf, rfl, rfl⟩, halong', -⟩ := hcall
    have hown := mem_callScope (w := w.keeping body) hr
    exact .ok hK hworlds (.cons hf halong' (fun _ => .inl) (fun _ hn => hn.elim) (.inr hown))
  | error hK hworlds hh => exact .error hK hworlds hh
  | excused he => exact .excused he

/-- Their calls belong together, over engines in step. -/
theorem applyClosure_behind {en en' : Engine} (hw : (w.keeping body).Grounded)
    (hbuilt : Expr.build form = .ok body) (hovert : body.Throughout fun e => ¬ e.Covert)
    (hargs : ∀ v ∈ args, v.Every (w.keeping body).Supports)
    (hs : w.Agree (Expr.freeVariables params none body) scope scope')
    (hen : en.InStep (.behind hs h) en') :
    (Correspondence.behind hw hs h).Ends Values
      (en.applyClosure (w.function strategy params body scope) args (w.keeping body))
      (en'.applyClosure (w.function strategy params body scope') args (w.keeping body)) := by
  let c := w.function strategy params body scope
  let c' := w.function strategy params body scope'
  have hid : (Correspondence.behind hw hs h).body c.id c'.id :=
    ⟨rfl, by simp [World.keeping, c, World.function]⟩
  have hcode : (Correspondence.behind hw hs h).code c.id body :=
    ⟨hid.2, by simp [World.keeping, c, World.function]⟩
  have hcovered : body.Covered
      ((View.sparing (Expr.freeVariables params none body)).adding params.names) :=
    Expr.covered_of_freeVariables hbuilt hovert params (fun _ hn => .inl hn) fun _ hn => .inr hn
  refine (callScope_behind hw hs h).bind fun K hK S S' hactive => ?_
  exact hen.runBody (hK.body _ _ hid) (hK.code _ _ hcode) hcovered
    (Lists.mono hK (Value.Like.self_of_each own_self hargs)) hactive c.label

/-! ## §3. Code without calls -/

namespace Engine

/-- What a call does before the body is evaluated depends on no engine, and the body is still there. -/
theorem applyClosure_congr {en en' : Engine} (h : en.eval body = en'.eval body) :
    en.applyClosure (w.function strategy params body scope) args (w.keeping body) =
      en'.applyClosure (w.function strategy params body scope) args (w.keeping body) := by
  let c := w.function strategy params body scope
  let enter : Eval Scope := Eval.callScope c >>= fun S =>
    Eval.bindParams params args S c.label >>= fun _ => pure S
  have henter : Eval.Quiet enter :=
    (Eval.quiet_callScope c).bind fun S =>
      (Eval.quiet_bindParams params args S _).bind fun _ => Eval.quiet_pure S
  have happly : ∀ en : Engine, en.applyClosure c args =
      enter >>= fun S => Eval.body c.id >>= fun x => en.eval x S := by
    intro en
    simp only [applyClosure, enter, bind_assoc, pure_bind, c, World.function]
  rw [happly, happly, Eval.bind_eq, Eval.bind_eq]
  have hquiet := henter (w.keeping body)
  cases hrun : enter (w.keeping body) with
  | error e w₁ => rfl
  | ok S w₁ =>
    rw [Eval.after_of_ok hrun] at hquiet
    have hbody : w₁.bodies.getD w.bodies.size (.literal .nil) = body := by
      have hlt : w.bodies.size < (w.keeping body).bodies.size := by simp [World.keeping]
      have hkept := hquiet.still.grows.bodies_eq hlt
      rw [Array.getD_eq_getD_getElem?, hkept]
      simp [World.keeping]
    show en.eval (w₁.bodies.getD w.bodies.size (.literal .nil)) S w₁ =
      en'.eval (w₁.bodies.getD w.bodies.size (.literal .nil)) S w₁
    rw [hbody, h]

end Engine

/-- A function whose code asks for nothing but evaluations of expressions that are not calls does not
come to call an expander. -/
theorem callsNoExpander_of_closed {E : Expr → Prop} (hE : Expr.Closed ctx E) (hbody : E body)
    (hcalls : ∀ e, E e → ∀ (s : Store) (S : Scope), ¬ e.Expands s S) (n : Nat) :
    (w.function strategy params body scope).CallsNoExpander ctx n args (w.keeping body) := by
  rintro k e S v hpart ⟨-, hexpands⟩
  cases hpart with
  | task hconsults hpart =>
    obtain ⟨x, T, rfl, hx⟩ := Engine.task_of_consults (Q := fun t => ∃ x T, t = .eval x T ∧ E x)
      (fun en en' h => Engine.applyClosure_congr
        (funext fun T => h (.eval body T) ⟨body, T, rfl, hbody⟩)) hconsults
    obtain ⟨y, U, heq, hy⟩ := Engine.part_of_closed hE hx hpart
    cases heq
    exact hcalls e hy v.store S hexpands

/-! ## §4. What is seen of a call -/

namespace Session

/-- What is seen of a session when a function has been made in a scope and called. -/
def seenOfCall (s : Session) (params : Params) (body : Expr) (args : List Value)
    (scope : Scope) : Observation :=
  let r := s.run (s.engine.callIn s.context.settings.strategy params body args scope)
  r.2.observe r.1

/-- Runs that end alike look the same. -/
theorem observe_run_eq {O : Backdrop} {K : Correspondence O} {s : Session} {x y : Eval Value}
    (h : K.Ends Values (x s.world) (y s.world))
    (hexcused : ∀ e w', x s.world = .error e w' → ¬ O.excused e) :
    (s.run x).2.observe (s.run x).1 = (s.run y).2.observe (s.run y).1 := by
  unfold Session.run
  generalize x s.world = r, y s.world = r' at h hexcused
  cases h with
  | ok _ hw hv => exact observe_eq hw (sameEnding_value hv)
  | error _ hw hh =>
    cases hh with
    | failed he => exact observe_eq hw (sameEnding_eval he)
    | exhausted => exact observe_eq hw rfl
  | excused he => exact absurd he (hexcused _ _ rfl)

/-- A session in the default settings that has run a text. -/
def having (text : String) : Session :=
  let ctx : Context := ⟨.default, ⟨[], []⟩⟩
  ⟨ctx, 8, (Session.evalText ⟨ctx, 8, primitiveWorld⟩ text).2.world⟩

theorem arises_having (text : String) : (having text).world.Arises (having text).context := by
  have hbare : Session.Arises ⟨.default, ⟨[], []⟩⟩ ⟨⟨.default, ⟨[], []⟩⟩, 8, primitiveWorld⟩ :=
    .bare 8
  have h := World.Arises.top (hbare.evalText text)
  exact h

/-- A function needs no more of the scope that it is made in than its free variables, and names with
a dot. In every state of a session, and for every body without imports and expansions, two scopes
that agree in these make functions that show the same when they are called on the same arguments: the
same value in print or the same failure, and the same text written, at every depth. This is so if in
the one call no form of the body's own code is a call of an expander. -/
theorem calls_coincide {s : Session} (h : s.world.Arises s.context)
    (hform : form.Every s.world.Supports) (hbuilt : Expr.build form = .ok body)
    (hovert : body.Throughout fun e => ¬ e.Covert) (hargs : ∀ v ∈ args, v.Every s.world.Supports)
    (hs : s.world.Agree (Expr.freeVariables params none body) scope scope')
    (hcalls : (s.world.function s.context.settings.strategy params body scope).CallsNoExpander
      s.context s.depth args (s.world.keeping body)) :
    s.seenOfCall params body args scope = s.seenOfCall params body args scope' := by
  obtain ⟨ctx, n, w⟩ := s
  let c := w.function ctx.settings.strategy params body scope
  let c' := w.function ctx.settings.strategy params body scope'
  have hw : (w.keeping body).Grounded :=
    h.grounded.push (Expr.build_every (fun _ => World.supports_of_plain) hform hbuilt)
  have hlater : ∀ v ∈ args, v.Every (w.keeping body).Supports := fun v hv =>
    (hargs v hv).mono fun _ hu => hu.later (World.grows_push w body)
  -- the failure of the guard is not what the run on the left ends with anyway
  obtain ⟨fault, hguard, hfault⟩ := Engine.exists_guarded hcalls
  let guarded := Engine.guarded ctx (.expanding w.store.frames.size) (.failed fault)
  have hends : (Correspondence.behind hw hs (.failed fault)).Ends Values
      ((guarded n).apply (.closure c) args (w.keeping body))
      ((Engine.ofDepth ctx n).apply (.closure c') args (w.keeping body)) := by
    cases n with
    | zero => exact .error (.refl _) (worlds_behind hw hs _) .exhausted
    | succ n =>
      exact applyClosure_behind hw hbuilt hovert hlater hs
        (Engine.guarded_inStep Backdrop.heeds_behind rfl ⟨rfl, rfl, rfl⟩ n)
  rw [show (guarded n).apply (.closure c) args (w.keeping body) =
    (Engine.ofDepth ctx n).apply (.closure c) args (w.keeping body) from hguard] at hends
  refine observe_run_eq (K := .behind hw hs (.failed fault)) ?_ fun e w' he hexcused => ?_
  · exact hends
  · obtain rfl : e = .failed fault := hexcused
    exact hfault w' ((Engine.callIn_eq ..).symm.trans he)

set_option maxRecDepth 100000 in
/-- The function `(lambda (x) (let ((z x)) (lambda () (car z))))`, made in the outermost scope and
inside of a frame with `y`. -/
theorem calls_coincide_nested :
    let s := having "(let ((y 1)) y)"
    let params : Params := ⟨["x"], none⟩
    let inner : Expr := .lambda none ⟨[], none⟩ (.call (.var "car") [.var "z"] [.symbol "z"])
    let body : Expr := .letIn .parallel [("z", .var "x")] inner
    s.world.Agree (Expr.freeVariables params none body) rootScope [1, rootFrame] ∧
      s.seenOfCall params body [.int 7] rootScope =
        s.seenOfCall params body [.int 7] [1, rootFrame] := by
  intro s params inner body
  let form := Value.ofList [.symbol "let", Value.ofList [Value.ofList [.symbol "z", .symbol "x"]],
    Value.ofList [.symbol "lambda", .nil, Value.ofList [.symbol "car", .symbol "z"]]]
  have harises : s.world.Arises s.context := arises_having _
  have hroot : s.world.Inside rootScope := Engine.inside_root harises.grounded
  have hkeys : (s.world.store.frame 1).keys = ["y"] := by decide +kernel
  have hagree : s.world.Agree (Expr.freeVariables params none body) rootScope [1, rootFrame] := by
    refine ⟨hroot, hroot.cons (by decide +kernel), by decide +kernel, fun n hn => ?_⟩
    refine (Store.slot?_cons_of_not_mem ?_).symm
    rw [hkeys, List.mem_singleton]
    rintro rfl
    exact absurd hn (by decide)
  have hform : form.Every s.world.Supports := by
    simp [form, Value.ofList, Value.chain, World.Supports]
  have hovert : body.Throughout fun e => ¬ e.Covert :=
    .letIn id (by simpa using .var id) (.lambda id (.call id (.var id) (by simpa using .var id)))
  have hclosed : Expr.Closed s.context (· ∈ [body, .var "x", inner]) := by
    intro e he en en' h
    simp only [List.mem_cons, List.not_mem_nil, or_false] at he
    rcases he with rfl | rfl | rfl
    · have hvar := h (.var "x") (by simp)
      have hinner := h inner (by simp)
      funext S
      simp only [Engine.evalStep, Engine.evalLet, Engine.letScope, Engine.evalEach, List.map_cons,
        List.map_nil, body, hvar, hinner]
    · rfl
    · rfl
  have hcalls : ∀ e ∈ [body, .var "x", inner], ∀ (t : Store) (S : Scope), ¬ e.Expands t S := by
    simp [body, inner, Expr.Expands]
  exact ⟨hagree, calls_coincide harises hform (by rfl) hovert
    (by simp [World.Supports]) hagree
    (callsNoExpander_of_closed hclosed (by simp) hcalls _)⟩

set_option maxRecDepth 100000 in
/-- Names that only end in a dot count too. The function
`(lambda () (module m (export a) (define a 1)) m.a.)` finds no `a.` in the outermost scope, but inside
of a frame with `a.` it finds that, past the module and past the call. The name is not among its free
variables, and has no dot between two parts of it. -/
theorem calls_differ_in_last_dot :
    let s := having "(let ((a. 5)) a.)"
    let params : Params := ⟨[], none⟩
    let body : Expr :=
      .sequence [.module "m" ["a"] [.define "a" (.literal (.int 1))], .var "m.a."]
    let made (scope : Scope) := s.world.function s.context.settings.strategy params body scope
    s.world.Arises s.context ∧ s.world.Inside rootScope ∧ s.world.Inside [1, rootFrame] ∧
      (∃ form, form.Every s.world.Supports ∧ Expr.build form = .ok body) ∧
      body.Throughout (fun e => ¬ e.Covert) ∧
      (∀ n, n ∈ Expr.freeVariables params none body ∨ splitMember? n ≠ none →
        s.world.store.slot? rootScope n = s.world.store.slot? [1, rootFrame] n) ∧
      (∀ scope, (made scope).CallsNoExpander s.context s.depth [] (s.world.keeping body)) ∧
      s.seenOfCall params body [] rootScope ≠ s.seenOfCall params body [] [1, rootFrame] := by
  intro s params body made
  let value : Expr := .literal (.int 1)
  let member : Expr := .define "a" value
  let home : Expr := .module "m" ["a"] [member]
  let form := Value.ofList [.symbol "begin",
    Value.ofList [.symbol "module", .symbol "m", Value.ofList [.symbol "export", .symbol "a"],
      Value.ofList [.symbol "define", .symbol "a", .int 1]], .symbol "m.a."]
  have harises : s.world.Arises s.context := arises_having _
  have hroot : s.world.Inside rootScope := Engine.inside_root harises.grounded
  have hform : form.Every s.world.Supports := by
    simp [form, Value.ofList, Value.chain, World.Supports]
  have hovert : body.Throughout fun e => ¬ e.Covert := by
    have hvalue : value.Throughout fun e => ¬ e.Covert := .literal id (by simp)
    have hhome : home.Throughout fun e => ¬ e.Covert :=
      .module id (by simpa using .define id hvalue)
    exact .sequence id (by simpa using ⟨hhome, .var id⟩)
  have hkeys : (s.world.store.frame 1).keys = ["a."] := by decide +kernel
  have hagree : ∀ n, n ∈ Expr.freeVariables params none body ∨ splitMember? n ≠ none →
      s.world.store.slot? rootScope n = s.world.store.slot? [1, rootFrame] n := by
    intro n hn
    refine (Store.slot?_cons_of_not_mem ?_).symm
    rw [hkeys, List.mem_singleton]
    rintro rfl
    exact absurd hn (by decide +kernel)
  have hclosed : Expr.Closed s.context (· ∈ [body, home, member, value, .var "m.a."]) := by
    intro e he en en' h
    simp only [List.mem_cons, List.not_mem_nil, or_false] at he
    rcases he with rfl | rfl | rfl | rfl | rfl
    · have hhome : en.eval (.module "m" ["a"] [.define "a" (.literal (.int 1))]) = _ :=
        h home (by simp)
      have hvar := h (.var "m.a.") (by simp)
      funext S
      simp only [Engine.evalStep, Engine.evalSequence, body, hhome, hvar]
      rfl
    · have hmember := h member (by simp)
      funext S
      simp only [Engine.evalStep, Engine.defineModule, Engine.evalEach, home, hmember]
    · have hvalue := h value (by simp)
      funext S
      simp only [Engine.evalStep, member, hvalue]
    · rfl
    · rfl
  have hcalls : ∀ e ∈ [body, home, member, value, .var "m.a."], ∀ (t : Store) (S : Scope),
      ¬ e.Expands t S := by
    simp [body, home, member, value, Expr.Expands]
  refine ⟨harises, hroot, hroot.cons (by decide +kernel), ⟨form, hform, by rfl⟩, hovert, hagree,
    fun scope => callsNoExpander_of_closed hclosed (by simp) hcalls _, fun heq => ?_⟩
  have hends := congrArg (fun o : Observation => o.ending.isOk) heq
  exact absurd hends (by decide +kernel)

end Session

end TinyLisp
