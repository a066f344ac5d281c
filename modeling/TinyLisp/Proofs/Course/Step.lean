import TinyLisp.Proofs.Course.Quiet

/-!
# The courses of the evaluator

Everything that the evaluator does over an engine takes a steady course, with one lemma for each of
its definitions that ask for something. In all of them but module forms and loads the whole is as
quiet as its parts; there modules are registered after the last task, so that the world is only
known to have grown. One task hands out a fresh name itself, the call of the operation that makes
them; the course of every other is calm.
-/

namespace TinyLisp

open World (Allows allows_calm allows_nameless)
open Eval (Quiet Growing Follows Calmly)

/-! ## §1. Sequences of tasks -/

namespace Eval

theorem follows_evalEach (scope : Scope) (es : List Expr) :
    Calmly fun en => en.evalEach scope es := by
  induction es with
  | nil => exact (quiet_pure []).follows allows_calm
  | cons e es ih =>
    unfold Engine.evalEach
    exact (follows_eval e scope).bind allows_calm fun v => ih.bind allows_calm fun vs =>
      (quiet_pure _).follows allows_calm

theorem follows_evalForm (scope : Scope) (form : Value) :
    Calmly fun en => en.evalForm scope form := by
  unfold Engine.evalForm
  cases Expr.build form with
  | ok e => exact follows_eval e scope
  | error fault => exact (quiet_fail _).follows allows_calm

theorem follows_evalForms (scope : Scope) (last : Value) (forms : List Value) :
    Calmly fun en => en.evalForms scope last forms := by
  induction forms generalizing last with
  | nil => exact (quiet_pure last).follows allows_calm
  | cons form forms ih =>
    unfold Engine.evalForms
    exact (quiet_tagForm form).before allows_calm fun tagged =>
      (follows_evalForm scope tagged).bind allows_calm fun v => ih v

theorem follows_evalAnd (scope : Scope) (last : Value) (es : List Expr) :
    Calmly fun en => en.evalAnd scope last es := by
  induction es generalizing last with
  | nil => exact (quiet_pure last).follows allows_calm
  | cons e es ih =>
    unfold Engine.evalAnd
    refine (follows_eval e scope).bind allows_calm fun v => ?_
    split
    · exact ih v
    · exact (quiet_pure v).follows allows_calm

theorem follows_evalOr (scope : Scope) (es : List Expr) :
    Calmly fun en => en.evalOr scope es := by
  induction es with
  | nil => exact (quiet_pure _).follows allows_calm
  | cons e es ih =>
    unfold Engine.evalOr
    refine (follows_eval e scope).bind allows_calm fun v => ?_
    split
    · exact (quiet_pure v).follows allows_calm
    · exact ih

theorem follows_evalSequence (scope : Scope) (last : Value) (es : List Expr) :
    Calmly fun en => en.evalSequence scope last es := by
  induction es generalizing last with
  | nil => exact (quiet_pure last).follows allows_calm
  | cons e es ih =>
    unfold Engine.evalSequence
    exact (follows_eval e scope).bind allows_calm fun v => ih v

/-! ## §2. Templates and expansion -/

/-- A wrapper in a template is put around what the wrapped part is filled to. -/
theorem follows_wrapped {x : Engine → Eval (List Value × Value)} (hx : Calmly x)
    (wrap : Value → Value) :
    Calmly fun en =>
      x en >>= fun p => newChain p.2 p.1 >>= fun v => pure (([] : List Value), wrap v) :=
  hx.bind allows_calm fun _ => (quiet_newChain _ _).before allows_calm fun _ =>
    (quiet_pure _).follows allows_calm

/-- A template is filled by a computation for each payload. -/
theorem follows_fillParts {hole : Engine → Value → Eval Value}
    (hh : ∀ p, Calmly fun en => hole en p) (d : Nat) (t : Value) :
    Calmly fun en => t.fillParts (hole en) d := by
  -- the cases are those of the definition: a splice in the place of an element, an element, a
  -- hole, a wrapper, and a datum kept as it is
  fun_induction Value.fillParts (hole Engine.exhausted) d t with
  | case1 cell payload r ihr =>
    exact (hh payload).bind allows_calm fun v => (quiet_spliced v).before allows_calm fun _ =>
      ihr.bind allows_calm fun _ => (quiet_pure _).follows allows_calm
  | case2 d cell a r hne iha ihr =>
    have helement : (fun en => (Value.pair cell a r).fillParts (hole en) d) = fun en =>
        a.fillParts (hole en) d >>= fun p => newChain p.2 p.1 >>= fun here =>
          r.fillParts (hole en) d >>= fun q => pure (here :: q.1, q.2) :=
      funext fun en => Value.fillParts.eq_2 (hole en) d cell a r hne
    rw [helement]
    exact iha.bind allows_calm fun _ => (quiet_newChain _ _).before allows_calm fun _ =>
      ihr.bind allows_calm fun _ => (quiet_pure _).follows allows_calm
  | case3 payload =>
    exact (hh payload).bind allows_calm fun _ => (quiet_pure _).follows allows_calm
  | case4 d v ih => exact follows_wrapped ih _
  | case5 v => exact (quiet_typeError _).follows allows_calm
  | case6 d v ih => exact follows_wrapped ih _
  | case7 d v ih =>
    simp only [Value.fillParts]
    exact follows_wrapped ih Value.quasiquote
  | case8 d v ih =>
    simp only [Value.fillParts]
    exact follows_wrapped ih Value.quote
  | case9 d v =>
    have hkept : (fun en => v.fillParts (hole en) d) = fun _ => pure ([], v) := by
      funext en
      rw [Value.fillParts.eq_9] <;> assumption
    rw [hkept]
    exact (quiet_pure _).follows allows_calm

theorem follows_fillTemplate (scope : Scope) (t : Value) :
    Calmly fun en => en.fillTemplate scope t := by
  unfold Engine.fillTemplate
  exact (follows_fillParts (follows_evalForm scope) 0 t).bind allows_calm fun _ =>
    (quiet_newChain _ _).follows allows_calm

theorem follows_runExpander (name : String) (m : Expander) (args : List Value) :
    Calmly fun en => en.runExpander name m args := by
  unfold Engine.runExpander
  refine (quiet_extend m.scope).before allows_calm fun inner => ?_
  refine (quiet_bindParams m.params args inner name).before allows_calm fun _ => ?_
  refine (quiet_body m.id).before allows_calm fun e => ?_
  exact (follows_eval e inner).bind allows_calm fun _ => (quiet_pure _).follows allows_calm

theorem follows_settle (limit : Nat) (first : String) (scope : Scope) (n : Nat) (form : Value) :
    Calmly fun en => en.settle limit first scope n form := by
  -- on the expansions that are left: each gives another form, in another world
  induction n generalizing form with
  | zero =>
    unfold Engine.settle
    refine follows_get fun w => ?_
    cases w.store.expanderCall? scope form with
    | none => exact (quiet_pure form).follows allows_calm
    | some call => exact (quiet_fail _).follows allows_calm
  | succ n ih =>
    unfold Engine.settle
    refine follows_get fun w => ?_
    cases w.store.expanderCall? scope form with
    | none => exact (quiet_pure form).follows allows_calm
    | some call =>
      obtain ⟨name, m, args⟩ := call
      exact (follows_runExpander name m args).bind allows_calm fun expansion => ih expansion

theorem follows_expand (limit : Nat) (name : String) (m : Expander) (args : List Value)
    (scope : Scope) : Calmly fun en => en.expand limit name m args scope := by
  unfold Engine.expand
  exact (follows_runExpander name m args).bind allows_calm fun expansion =>
    follows_settle limit name scope (limit - 1) expansion

theorem follows_macroexpand (limit : Nat) (form : Value) (scope : Scope) :
    Calmly fun en => en.macroexpand limit form scope := by
  unfold Engine.macroexpand
  refine follows_get fun w => ?_
  cases w.store.expanderCall? scope form with
  | none => exact (quiet_fail _).follows allows_calm
  | some call =>
    obtain ⟨name, m, args⟩ := call
    exact follows_expand limit name m args scope

/-! ## §3. Scopes and definitions -/

theorem follows_bindNested (scope : Scope) (bs : List (String × Expr)) :
    Calmly fun en => en.bindNested scope bs := by
  induction bs generalizing scope with
  | nil => exact (quiet_pure scope).follows allows_calm
  | cons b bs ih =>
    obtain ⟨name, init⟩ := b
    unfold Engine.bindNested
    exact (follows_eval init scope).bind allows_calm fun v =>
      (quiet_extend scope).before allows_calm fun inner =>
        (quiet_bindName inner name v).before allows_calm fun _ => ih inner

theorem follows_fillSlots (scope : Scope) (bs : List ((String × Expr) × SlotId)) :
    Calmly fun en => en.fillSlots scope bs := by
  induction bs with
  | nil => exact (quiet_pure ()).follows allows_calm
  | cons b bs ih =>
    obtain ⟨⟨name, init⟩, slot⟩ := b
    unfold Engine.fillSlots
    exact (follows_eval init scope).bind allows_calm fun v =>
      (quiet_fill slot v).before allows_calm fun _ => ih

theorem follows_letScope (scope : Scope) (kind : LetKind) (bs : List (String × Expr)) :
    Calmly fun en => en.letScope scope kind bs := by
  cases kind with
  | parallel =>
    unfold Engine.letScope
    -- all initial values come before the new frame
    exact (follows_evalEach scope (bs.map Prod.snd)).bind allows_calm fun vs =>
      (quiet_extend scope).before allows_calm fun inner =>
        (quiet_bindAll inner _).before allows_calm fun _ =>
          (quiet_pure inner).follows allows_calm
  | sequential =>
    cases bs with
    | nil => exact (quiet_extend scope).follows allows_calm
    | cons b bs =>
      obtain ⟨name, init⟩ := b
      unfold Engine.letScope
      -- each binding has a frame of its own, inside that of the one before
      exact (quiet_extend scope).before allows_calm fun inner =>
        (follows_eval init inner).bind allows_calm fun v =>
          (quiet_bindName inner name v).before allows_calm fun _ => follows_bindNested inner bs
  | recursive =>
    intro w
    -- the new frame has its names before the first initial value is evaluated
    let inner : Scope := w.store.frames.size :: scope
    let t := w.store.newFrame.2.newSlots (bs.map Prod.fst)
    let store := t.2.bindSlots w.store.frames.size ((bs.map Prod.fst).zip t.1)
    have hcalm : w.Calm { w with store := store } :=
      calm_of_store (((Store.Grows.refl w.store).newFrame.newSlots _).bindSlots (Nat.le_refl _) _)
    have hfill : Calmly fun en =>
        en.fillSlots inner (bs.zip t.1) >>= fun _ => (pure inner : Eval Scope) :=
      (follows_fillSlots inner (bs.zip t.1)).bind allows_calm fun _ =>
        (quiet_pure inner).follows allows_calm
    obtain ⟨c, hc, hpaced⟩ := hfill { w with store := store }
    exact ⟨c, hc, hpaced.since allows_calm allows_calm hcalm⟩

theorem follows_evalLet (scope : Scope) (kind : LetKind) (bs : List (String × Expr))
    (body : Expr) : Calmly fun en => en.evalLet scope kind bs body := by
  unfold Engine.evalLet
  exact (follows_letScope scope kind bs).bind allows_calm fun inner => follows_eval body inner

theorem follows_evalDefinition (scope : Scope) (kind : DefinitionKind) (name : String)
    (params : Params) (body : Expr) :
    Calmly fun en => en.evalDefinition scope kind name params body := by
  unfold Engine.evalDefinition
  cases kind with
  | function =>
    exact (follows_evalLet scope _ _ _).bind allows_calm fun f =>
      (quiet_bindName scope name f).before allows_calm fun _ =>
        (quiet_pure _).follows allows_calm
  | expander =>
    exact (quiet_newExpander name params body scope).before allows_calm fun m =>
      (quiet_bindName scope name _).before allows_calm fun _ =>
        (quiet_pure _).follows allows_calm

/-! ## §4. Calls -/

theorem follows_applyClosure (c : Closure) (args : List Value) :
    Calmly fun en => en.applyClosure c args := by
  unfold Engine.applyClosure
  refine (quiet_callScope c).before allows_calm fun inner => ?_
  refine (quiet_bindParams c.params args inner c.label).before allows_calm fun _ => ?_
  exact (quiet_body c.id).before allows_calm fun e => follows_eval e inner

theorem follows_evalCall (ctx : Context) (scope : Scope) (callee : Expr)
    (args : Except FormError (List Expr)) (forms : List Value) :
    Calmly fun en => en.evalCall ctx scope callee args forms := by
  unfold Engine.evalCall
  refine (Engine.quiet_expanderAt scope callee).before allows_calm fun call => ?_
  cases call with
  | some call =>
    obtain ⟨name, m⟩ := call
    exact (follows_expand _ name m forms scope).bind allows_calm fun expansion =>
      follows_evalForm scope expansion
  | none =>
    cases args with
    | error fault => exact (quiet_fail _).follows allows_calm
    | ok args =>
      exact (follows_eval callee scope).bind allows_calm fun f =>
        (follows_evalEach scope args).bind allows_calm fun vs => follows_apply f vs

theorem follows_evalLiteral (scope : Scope) (v : Value) :
    Calmly fun en => en.evalLiteral scope v := by
  cases v with
  | quote v => exact (quiet_pure v).follows allows_calm
  | quasiquote t => exact follows_fillTemplate scope t
  | unquote v => exact (quiet_typeError _).follows allows_calm
  | unquoteSplicing v => exact (quiet_typeError _).follows allows_calm
  | _ => exact (quiet_pure _).follows allows_calm

theorem follows_applyEach (f : Value) (vs : List Value) :
    Calmly fun en => en.applyEach f vs := by
  induction vs with
  | nil => exact (quiet_pure []).follows allows_calm
  | cons v vs ih =>
    unfold Engine.applyEach
    exact (follows_apply f [v]).bind allows_calm fun w => ih.bind allows_calm fun ws =>
      (quiet_pure _).follows allows_calm

end Eval

/-! ## §5. Primitive operations -/

namespace Primitive

open Eval

theorem follows_spread (f : Value) (args : List Value) :
    Calmly fun en => spread en f args := by
  unfold spread
  cases args.getLast? with
  | none => exact follows_apply f []
  | some last => exact (quiet_expect _).before allows_calm fun vs => follows_apply f _

/-- Only `apply` and `map` ask for anything. -/
theorem follows_run {p : Primitive} (hp : p ≠ .gensym) (args : List Value) :
    Calmly fun en => p.run en args := by
  unfold run
  -- by operation; the numbered cases are the few that do more than look at their arguments
  split
  case h_5 => exact (quiet_modulo _ _).follows allows_calm
  case h_13 => exact (quiet_newTag.bind fun _ => quiet_pure _).follows allows_calm
  case h_20 => exact (quiet_lengthOf _).follows allows_calm
  case h_21 => exact (quiet_appendAll _).follows allows_calm
  case h_23 => exact (quiet_elementAt _ _).follows allows_calm
  case h_24 => exact follows_spread _ _
  case h_25 =>
    exact (quiet_expect _).before allows_calm fun vs =>
      (follows_applyEach _ vs).bind allows_calm fun ws => (quiet_newList ws).follows allows_calm
  case h_38 => exact (quiet_makeRecord _ _).follows allows_calm
  case h_39 => exact (quiet_getField _ _).follows allows_calm
  case h_40 => exact (quiet_setField _ _ _).follows allows_calm
  case h_42 => exact absurd rfl hp
  case h_43 => exact absurd rfl hp
  case h_48 => exact (quiet_fault _ _).follows allows_calm
  case h_49 => exact (quiet_fail _).follows allows_calm
  all_goals first
    | exact (quiet_pure _).follows allows_calm
    | exact ((quiet_expect _).bind fun _ => quiet_pure _).follows allows_calm
    | exact ((quiet_expect _).bind fun _ => quiet_newList _).follows allows_calm
    | exact (quiet_newList _).follows allows_calm
    | exact (quiet_print _ _ _).follows allows_calm
    | exact (quiet_compare _ _ _ _).follows allows_calm
    | exact (quiet_divide _ _).follows allows_calm

theorem follows_call {p : Primitive} (hp : p ≠ .gensym) (args : List Value) :
    Calmly fun en => p.call en args := by
  unfold call
  exact (quiet_checkArity _ _ _).before allows_calm fun _ => follows_run hp args

end Primitive

namespace Eval

/-- A fresh name is made of a stem and the counter, which then goes on. -/
theorem gensym_eq (stem : String) (w : World) : gensym stem w =
    .ok (.symbol (Gensym.nameOf stem w.gensym.next)) { w with gensym := ⟨w.gensym.next + 1⟩ } :=
  rfl

end Eval

/-- The call of the operation that makes fresh names: it hands out one, or it fails and nothing
happens. Nothing is asked for. -/
theorem Primitive.call_gensym (args : List Value) (w : World) :
    (∃ stem, ∀ en : Engine, Primitive.gensym.call en args w = Eval.gensym stem w) ∨
      ∃ e, ∀ en : Engine, Primitive.gensym.call en args w = .error e w := by
  unfold Primitive.call
  cases args with
  | nil => exact .inl ⟨_, fun _ => rfl⟩
  | cons a rest =>
    cases rest with
    | cons b rest => exact .inr ⟨_, fun _ => rfl⟩
    | nil =>
      show (∃ stem, ∀ _ : Engine,
          (Eval.expect a.expectName >>= fun stem => Eval.gensym stem) w = _) ∨
        ∃ e, ∀ _ : Engine, (Eval.expect a.expectName >>= fun stem => Eval.gensym stem) w = _
      cases a.expectName with
      | ok stem => exact .inl ⟨stem, fun _ => rfl⟩
      | error fault => exact .inr ⟨_, fun _ => rfl⟩


/-! ## §6. Modules and files -/

namespace Eval

variable {α β : Type}

/-- Work that asks for nothing may follow where modules have been registered. -/
theorem Follows.growing {x : Engine → Eval α} {k : α → Eval β}
    (hx : Follows World.Calm World.Nameless x) (hk : ∀ a, Growing (k a)) :
    Follows World.Calm World.Nameless fun en => x en >>= k := by
  intro w
  obtain ⟨c, hc, hpaced⟩ := hx w
  refine ⟨c.andThen fun r => .ends (andThen r k), ?_,
    hpaced.andThen ?_ fun e w₁ => ⟨w₁, rfl, rfl, rfl⟩⟩
  · intro en
    show (x en >>= k) w = _
    rw [bind_eq, Course.under_andThen, ← hc en]
    rfl
  · intro w₁ r hw
    exact World.Nameless.trans hw (Growing.andThen hk r)

theorem follows_defineModule (name : String) (exports : List String) (body : List Expr)
    (scope : Scope) : Follows World.Calm World.Nameless fun en =>
      en.defineModule name exports body scope := by
  simp only [defineModule_eq]
  exact (quiet_extend scope).before allows_nameless fun inner =>
    (follows_evalEach inner body).bind allows_nameless fun _ =>
      (growing_closeModule name exports scope inner).follows

/-- To load a file is to evaluate its forms, if it has to be run; a failure of one is a failure of
the whole. -/
theorem follows_load (ctx : Context) (path : String) :
    Follows World.Calm World.Nameless fun en => en.load ctx path := by
  intro w
  rcases Engine.load_or_run ctx path w with ⟨r, hload, hcalm⟩ | ⟨p, source, forms, -, -, -, hload⟩
  · exact ⟨.ends r, hload, hcalm.nameless⟩
  · let own : Scope := [w.store.frames.size, rootFrame]
    let w₀ : World := { w with library := w.library.enter p, store := w.store.newFrame.2 }
    let file : Eval Module := Engine.fileModule (Path.stem (p.getLast?.getD "")) own
    obtain ⟨c, hc, hpaced⟩ := follows_evalForms own .nil forms w₀
    have hbegin : w.Calm w₀ :=
      ⟨⟨World.grows_of_store (Store.Grows.refl w.store).newFrame rfl, rfl⟩, rfl⟩
    -- the forms have run: the file is closed and left, whether they have failed or not
    refine ⟨c.andThen fun r => .ends (Engine.leaveFile p (andThen r fun _ => file)), ?_,
      (hpaced.since allows_calm allows_calm hbegin).andThen ?_ ?_⟩
    · intro en
      rw [Course.under_andThen, ← hc en]
      exact hload en
    · intro w₁ r hw
      have hfile : (worldOf r).Nameless (worldOf (andThen r fun _ => file)) :=
        Growing.andThen (fun _ => growing_fileModule _ own) r
      exact hw.nameless.trans (hfile.trans (nameless_leaveFile p _))
    · exact fun e w' => ⟨{ w' with library := w'.library.leave p }, rfl, rfl, rfl⟩

theorem follows_resolve (ctx : Context) (scope : Scope) (target : ImportTarget) :
    Follows World.Calm World.Nameless fun en => en.resolve ctx scope target := by
  intro w
  rcases Engine.resolve_or_load ctx scope target w with ⟨r, hresolve, hcalm⟩ | ⟨path, hresolve⟩
  · exact ⟨.ends r, hresolve, hcalm.nameless⟩
  · obtain ⟨c, hc, hpaced⟩ := follows_load ctx path w
    exact ⟨c, fun en => (hresolve en).trans (hc en), hpaced⟩

end Eval

/-! ## §7. Steps -/

/-- A task whose own work may register modules: a module form, or an import. -/
inductive Task.Registers : Task → Prop
  | module (name : String) (exports : List String) (body : List Expr) (scope : Scope) :
    Registers (.eval (.module name exports body) scope)
  | importFrom (target : ImportTarget) (spec : ImportSpec) (scope : Scope) :
    Registers (.eval (.importFrom target spec) scope)

/-- The task that hands out a fresh name itself: the call of the operation that makes them. -/
inductive Task.Coins : Task → Prop
  | call (args : List Value) : Coins (.apply (.primitive .gensym) args)

theorem Task.not_coins_eval (e : Expr) (scope : Scope) : ¬ (Task.eval e scope).Coins := by
  rintro ⟨⟩

namespace Engine

open Eval

variable {ctx : Context}

/-- A step for any other task takes a course in which nothing but its tasks registers modules and
hands out names. -/
theorem calmly_step {t : Task} (hr : ¬ t.Registers) (hc : ¬ t.Coins) :
    Calmly fun en => en.step ctx t := by
  cases t with
  | apply f args =>
    show Calmly fun en => applyStep en f args
    cases f with
    | primitive p =>
      have hp : p ≠ .gensym := by
        rintro rfl
        exact hc (.call args)
      exact Primitive.follows_call hp args
    | closure c => exact follows_applyClosure c args
    | _ => exact (quiet_typeError _).follows allows_calm
  | eval e scope =>
    show Calmly fun en => evalStep ctx en e scope
    cases e with
    | literal v => exact follows_evalLiteral scope v
    | var name => exact (quiet_evalVar scope name).follows allows_calm
    | ite c t e =>
      refine (follows_eval c scope).bind allows_calm fun v => ?_
      split
      · exact follows_eval t scope
      · exact follows_eval e scope
    | and es => exact follows_evalAnd scope _ es
    | or es => exact follows_evalOr scope es
    | sequence es => exact follows_evalSequence scope _ es
    | call callee args forms => exact follows_evalCall ctx scope callee (.ok args) forms
    | deferred callee fault forms => exact follows_evalCall ctx scope callee (.error fault) forms
    | letIn kind bs body => exact follows_evalLet scope kind bs body
    | lambda name params body =>
      exact ((quiet_newClosure _ _ _ _ _).bind fun c => quiet_pure _).follows allows_calm
    | define name e =>
      exact (follows_eval e scope).bind allows_calm fun v =>
        (quiet_bindName scope name v).before allows_calm fun _ =>
          (quiet_pure v).follows allows_calm
    | definition kind name params body =>
      exact follows_evalDefinition scope kind name params body
    | module name exports body => exact absurd (.module name exports body scope) hr
    | importFrom target spec => exact absurd (.importFrom target spec scope) hr
    | macroexpand form => exact follows_macroexpand _ form scope

/-- A step for any task but one takes a course in which nothing but its tasks hands out names. -/
theorem follows_step_nameless {t : Task} (hc : ¬ t.Coins) :
    Follows World.Calm World.Nameless fun en => en.step ctx t := by
  by_cases hr : t.Registers
  · cases hr with
    | module name exports body scope =>
      exact (follows_defineModule name exports body scope).growing fun m =>
        (quiet_pure _).growing
    | importFrom target spec scope =>
      refine (follows_resolve ctx scope target).growing fun m => ?_
      exact ((quiet_importModule m scope spec).bind fun _ => quiet_pure _).growing
  · exact (calmly_step hr hc).mono (fun h => h) fun h => h.nameless

/-- A step that may hand out a name asks for nothing. -/
theorem follows_step_coins {t : Task} (hc : t.Coins) :
    Follows World.Still World.Still fun en => en.step ctx t := by
  obtain ⟨args⟩ := hc
  intro w
  rcases Primitive.call_gensym args w with ⟨stem, hcall⟩ | ⟨e, hcall⟩
  · exact ⟨.ends (gensym stem w), hcall, World.grows_of_store (.refl _) rfl, rfl⟩
  · exact ⟨.ends (.error e w), hcall, World.Still.refl w⟩

/-- A step for a task that is no module form and no import takes a course in which nothing but its
tasks registers modules. -/
theorem follows_step_still {t : Task} (hr : ¬ t.Registers) :
    Follows World.Still World.Still fun en => en.step ctx t := by
  by_cases hc : t.Coins
  · exact follows_step_coins hc
  · exact (calmly_step hr hc).mono (fun h => h.still) fun h => h.still

/-- Every step takes a steady course. -/
theorem follows_step (ctx : Context) (t : Task) :
    Follows World.Still World.Grows fun en => en.step ctx t := by
  by_cases hc : t.Coins
  · exact (follows_step_coins hc).mono (fun h => h) fun h => h.grows
  · exact (follows_step_nameless hc).mono (fun h => h.still) fun h => h.grows

end Engine

end TinyLisp
