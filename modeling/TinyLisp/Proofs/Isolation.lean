import TinyLisp.Proofs.Within
import TinyLisp.Eval.Step

/-!
# Isolation of frames

An evaluation in a scope changes no frame but the innermost one of the scope, of all those that
were there when it began, and no content of an old slot that this frame does not bind. This holds
whether it ends with a value, with a failure, or for want of depth; for every expression, every
world and either strategy (`Engine.frame_isolation`).

The sections go through the evaluator, one lemma for each of its definitions, over an engine
that has the property; `Engine.ofDepth` has it by induction on the depth.
-/

namespace TinyLisp

open Eval (Within Opens Nests)
open Store (Confined Fresh)

variable {en : Engine} {ctx : Context} {scope : Scope}

/-- An engine isolates frames if it evaluates within the scope given and applies within no old
frame at all. -/
structure Engine.Isolates (en : Engine) : Prop where
  eval : ∀ e scope, Within scope (en.eval e scope)
  apply : ∀ f args, Within [] (en.apply f args)

/-! ## §1. Forms and templates -/

theorem Engine.Isolates.evalEach (hen : en.Isolates) (es : List Expr) :
    Within scope (en.evalEach scope es) := by
  induction es with
  | nil => exact Eval.within_pure []
  | cons e es ih =>
    unfold Engine.evalEach
    exact (hen.eval e scope).bind fun v => ih.bind fun vs => Eval.within_pure _

theorem Engine.Isolates.evalForm (hen : en.Isolates) (form : Value) :
    Within scope (en.evalForm scope form) := by
  unfold Engine.evalForm
  cases Expr.build form with
  | ok e => exact hen.eval e scope
  | error fault => exact Eval.within_fail _

theorem Eval.within_spliced (v : Value) : Within scope v.spliced := by
  unfold Value.spliced
  cases v.elements? with
  | some vs => exact Eval.within_pure vs
  | none => exact Eval.within_typeError _

/-- A template is filled within the scope in which its payloads are evaluated. -/
theorem Eval.within_fillParts {hole : Value → Eval Value} (hh : ∀ p, Within scope (hole p))
    (d : Nat) (t : Value) : Within scope (t.fillParts hole d) := by
  -- the cases are those of the definition: a splice in the place of an element, an element, a
  -- hole, a wrapper, and a datum kept as it is
  fun_induction Value.fillParts hole d t with
  | case1 cell payload r ihr =>
    exact (hh payload).bind fun v => (within_spliced v).bind fun here =>
      ihr.bind fun _ => within_pure _
  | case2 d cell a r _ iha ihr =>
    exact iha.bind fun _ => (within_newChain _ _).bind fun _ => ihr.bind fun _ => within_pure _
  | case3 payload => exact (hh payload).bind fun _ => within_pure _
  | case4 d v ih => exact ih.bind fun _ => (within_newChain _ _).bind fun _ => within_pure _
  | case5 v => exact within_typeError _
  | case6 d v ih => exact ih.bind fun _ => (within_newChain _ _).bind fun _ => within_pure _
  | case7 d v ih => exact ih.bind fun _ => (within_newChain _ _).bind fun _ => within_pure _
  | case8 d v ih => exact ih.bind fun _ => (within_newChain _ _).bind fun _ => within_pure _
  | case9 => exact within_pure _

theorem Engine.Isolates.fillTemplate (hen : en.Isolates) (t : Value) :
    Within scope (en.fillTemplate scope t) := by
  unfold Engine.fillTemplate
  exact (Eval.within_fillParts hen.evalForm 0 t).bind fun _ => Eval.within_newChain _ _

/-! ## §2. Functions and expanders -/

theorem Eval.within_newClosure (strategy : Strategy) (name : Option String) (params : Params)
    (body : Expr) (defining : Scope) :
    Within scope (newClosure strategy name params body defining) := by
  unfold newClosure
  exact within_get.bind fun _ => (within_newBody body).bind fun _ => within_pure _

theorem Eval.within_newExpander (name : String) (params : Params) (body : Expr)
    (defining : Scope) : Within scope (newExpander name params body defining) := by
  unfold newExpander
  exact (within_newBody body).bind fun _ => within_pure _

/-- A call opens its scope, whatever the table of captured slots holds: the frame of the table
is new, and it is not the innermost one of the call. -/
theorem Eval.opens_callScope (c : Closure) : Opens scope (callScope c) := by
  intro w hr
  unfold callScope
  cases c.captures with
  | scope => exact opens_extend scope c.scope w hr
  | table slots =>
    have hopen := Store.confined_newFrame scope.head? w.store
    have hbind := hopen.bindSlots hr (Store.fresh_newFrame w.store c.scope) slots
    refine ⟨hbind.trans (Store.confined_newFrame _ _), ?_⟩
    intro inner w' hw
    cases hw
    exact (Store.fresh_newFrame _ _).since hbind

theorem Eval.within_bindParams (params : Params) (args : List Value) (name : String) :
    Within scope (bindParams params args scope name) := by
  unfold bindParams
  refine (within_checkArity _ _ _).bind fun _ => (within_bindAll _).bind fun _ => ?_
  cases params.rest with
  | none => exact within_pure _
  | some rest => exact (within_newList _).bind fun _ => within_bindName _ _

theorem Engine.Isolates.applyClosure (hen : en.Isolates) (c : Closure) (args : List Value) :
    Within scope (en.applyClosure c args) := by
  unfold Engine.applyClosure
  refine Within.open (Eval.opens_callScope c) fun inner => ?_
  exact (Eval.within_bindParams _ _ _).bind fun _ =>
    (Eval.within_body _).bind fun body => hen.eval body inner

/-- The body of an expander runs in a frame of its own, away from the scope of the call. -/
theorem Engine.Isolates.runExpander (hen : en.Isolates) (name : String) (m : Expander)
    (args : List Value) : Within scope (en.runExpander name m args) := by
  unfold Engine.runExpander
  refine Within.open (Eval.opens_extend scope m.scope) fun inner => ?_
  refine (Eval.within_bindParams _ _ _).bind fun _ => (Eval.within_body _).bind fun body => ?_
  exact (hen.eval body inner).bind fun _ => Eval.within_pure _

theorem Engine.Isolates.settle (hen : en.Isolates) (limit : Nat) (first : String)
    (site : Scope) (n : Nat) (form : Value) :
    Within scope (en.settle limit first site n form) := by
  induction n generalizing form with
  | zero =>
    unfold Engine.settle
    refine Eval.within_get.bind fun w => ?_
    cases w.store.expanderCall? site form with
    | none => exact Eval.within_pure form
    | some call => exact Eval.within_fail _
  | succ n ih =>
    unfold Engine.settle
    refine Eval.within_get.bind fun w => ?_
    cases w.store.expanderCall? site form with
    | none => exact Eval.within_pure form
    | some call =>
      obtain ⟨name, m, args⟩ := call
      exact (hen.runExpander name m args).bind fun expansion => ih expansion

theorem Engine.Isolates.expand (hen : en.Isolates) (limit : Nat) (name : String)
    (m : Expander) (args : List Value) (site : Scope) :
    Within scope (en.expand limit name m args site) := by
  unfold Engine.expand
  exact (hen.runExpander name m args).bind fun _ => hen.settle _ _ _ _ _

theorem Engine.Isolates.macroexpand (hen : en.Isolates) (limit : Nat) (form : Value)
    (site : Scope) : Within scope (en.macroexpand limit form site) := by
  unfold Engine.macroexpand
  refine Eval.within_get.bind fun w => ?_
  cases w.store.expanderCall? site form with
  | none => exact Eval.within_fail _
  | some call =>
    obtain ⟨name, m, args⟩ := call
    exact hen.expand _ _ _ _ _

/-! ## §3. Modules and files -/

theorem Eval.within_library : Within scope library := by
  unfold library
  exact within_get.bind fun _ => within_pure _

theorem Eval.within_modifyLibrary (g : Library → Library) :
    Within scope (modifyLibrary g) :=
  .of_store_eq fun _ => rfl

theorem Eval.within_register (m : Module) : Within scope (register m) :=
  within_modifyLibrary _

theorem Eval.within_newModule (name : String) (own : Scope) (exports : List String) :
    Within scope (newModule name own exports) := by
  unfold newModule
  exact within_newTag.bind fun _ => within_pure _

theorem Eval.within_refuse {α : Type} (path : String) (fault : LoadFault) :
    Within scope (refuse path fault : Eval α) :=
  within_fail _

/-- The body of a module form runs in a frame of its own; only the module's name is bound in the
surrounding scope. -/
theorem Engine.Isolates.defineModule (hen : en.Isolates) (name : String)
    (exports : List String) (body : List Expr) :
    Within scope (en.defineModule name exports body scope) := by
  unfold Engine.defineModule
  refine Within.enter (Eval.opens_extend scope scope) (fun inner => hen.evalEach body)
    fun inner _ => ?_
  refine Eval.within_get.bind fun w => ?_
  cases w.store.firstMissing? inner.innermost exports with
  | some missing => exact Eval.within_refuse _ _
  | none =>
    refine (Eval.within_newModule _ _ _).bind fun m => ?_
    split
    · exact (Eval.within_register m).bind fun _ =>
        (Eval.within_bindName _ _).bind fun _ => Eval.within_pure m
    · exact (Eval.within_bindName _ _).bind fun _ => Eval.within_pure m

theorem Engine.Isolates.evalForms (hen : en.Isolates) (last : Value) (forms : List Value) :
    Within scope (en.evalForms scope last forms) := by
  induction forms generalizing last with
  | nil => exact Eval.within_pure last
  | cons form forms ih =>
    unfold Engine.evalForms
    exact (Eval.within_tagForm form).bind fun tagged =>
      (hen.evalForm tagged).bind fun v => ih v

theorem Engine.within_fileModule (name : String) (own : Scope) :
    Within scope (fileModule name own) := by
  unfold fileModule
  refine Eval.within_get.bind fun w => (Eval.within_modifyLibrary _).bind fun _ => ?_
  cases (w.store.ownModules own.innermost).find? fun m => m.name = name with
  | some m => exact Eval.within_pure m
  | none =>
    exact (Eval.within_newModule _ _ _).bind fun m =>
      (Eval.within_register m).bind fun _ => Eval.within_pure m

/-- The forms of a file run in a frame of their own. -/
theorem Engine.Isolates.runFile (hen : en.Isolates) (p : Place) :
    Within scope (en.runFile ctx p) := by
  unfold Engine.runFile
  split
  · exact Eval.within_refuse _ _
  · split
    · exact Eval.within_refuse _ _
    · next forms _ =>
      exact Within.enter (Eval.opens_extend scope rootScope)
        (fun inner => hen.evalForms .nil forms) fun inner _ => within_fileModule _ inner

theorem Engine.Isolates.load (hen : en.Isolates) (path : String) :
    Within scope (en.load ctx path) := by
  unfold Engine.load
  cases ctx.disk.resolve path with
  | error e => exact Eval.within_refuse _ _
  | ok p =>
    refine Eval.within_library.bind fun l => ?_
    cases l.files.get? p with
    | some m => exact Eval.within_pure m
    | none =>
      refine Eval.within_library.bind fun l => ?_
      split
      · exact Eval.within_refuse _ _
      · refine (Eval.within_modifyLibrary _).bind fun _ => ?_
        refine (hen.runFile p).observe.bind fun result => ?_
        refine (Eval.within_modifyLibrary _).bind fun _ => ?_
        cases result with
        | error halt => exact Eval.within_throw halt
        | ok m => exact (Eval.within_modifyLibrary _).bind fun _ => Eval.within_pure m

theorem Engine.Isolates.resolveUnbound (hen : en.Isolates) (name : String) :
    Within scope (en.resolveUnbound ctx name) := by
  unfold Engine.resolveUnbound
  refine Eval.within_library.bind fun l => ?_
  cases l.registry.get? name with
  | some m => exact Eval.within_pure m
  | none =>
    cases ctx.search? (name ++ moduleExtension) with
    | some path => exact hen.load path
    | none => exact Eval.within_refuse _ _

theorem Engine.Isolates.resolve (hen : en.Isolates) (site : Scope) (target : ImportTarget) :
    Within scope (en.resolve ctx site target) := by
  unfold Engine.resolve
  cases target with
  | path path => exact hen.load _
  | name name =>
    refine Eval.within_get.bind fun w => ?_
    split
    · exact Eval.within_pure _
    · exact Eval.within_fail _
    · exact hen.resolveUnbound name
    · exact Eval.within_fail _

theorem Eval.within_importNames (m : Module) (names : List String) :
    Within scope (importNames m scope names) := by
  induction names with
  | nil => exact within_pure ()
  | cons name names ih =>
    unfold importNames
    exact (within_lookup _ _ _).bind fun v => (within_bindName _ v).bind fun _ => ih

theorem Eval.within_importShown (m : Module) (names : List String) :
    Within scope (importShown m scope names) := by
  induction names with
  | nil => exact within_pure ()
  | cons name names ih =>
    unfold importShown
    split
    · exact (within_lookup _ _ _).bind fun v => (within_bindName _ v).bind fun _ => ih
    · exact within_fail _

theorem Eval.within_importModule (m : Module) (spec : ImportSpec) :
    Within scope (importModule m scope spec) := by
  unfold importModule
  cases spec with
  | all => exact within_importNames m m.exports
  | only names => exact within_importShown m names
  | renamed name => exact within_bindName _ _

/-! ## §4. Primitive operations -/

theorem Eval.within_expect {α : Type} (r : Except TypeFault α) : Within scope (expect r) := by
  cases r with
  | ok a => exact within_pure a
  | error fault => exact within_typeError fault

theorem Eval.within_print (style : Style) (vs : List Value) (end_ : String) :
    Within scope (print style vs end_) := by
  unfold print
  exact (within_write _).bind fun _ => within_pure _

theorem Eval.within_newRecord (name : String) (fields : Fields) :
    Within scope (newRecord name fields) := by
  unfold newRecord
  exact within_newTag.bind fun _ => within_pure _

theorem Eval.within_gensym (stem : String) : Within scope (gensym stem) :=
  .of_store_eq fun _ => rfl

theorem Engine.Isolates.applyEach (hen : en.Isolates) (f : Value) (vs : List Value) :
    Within [] (en.applyEach f vs) := by
  induction vs with
  | nil => exact Eval.within_pure []
  | cons v vs ih =>
    unfold Engine.applyEach
    exact (hen.apply f [v]).bind fun w => ih.bind fun ws => Eval.within_pure _

namespace Primitive

theorem within_fault {α : Type} (p : Primitive) (f : PrimitiveFault) :
    Within scope (p.fault f : Eval α) :=
  Eval.within_fail _

theorem within_compare (onInts : Int64 → Int64 → Bool) (onFloats : Float → Float → Bool)
    (a b : Value) : Within scope (compare onInts onFloats a b) := by
  unfold compare
  refine (Eval.within_expect _).bind fun ns => ?_
  split
  · exact Eval.within_pure _
  · exact Eval.within_pure _

theorem within_divide (a b : Value) : Within scope (divide a b) := by
  unfold divide
  refine (Eval.within_expect _).bind fun ns => ?_
  split
  · split
    · exact Eval.within_pure _
    · exact within_fault _ _
  · exact within_fault _ _

theorem within_modulo (a b : Value) : Within scope (modulo a b) := by
  unfold modulo
  refine (Eval.within_expect _).bind fun m => (Eval.within_expect _).bind fun n => ?_
  cases remainder? m n with
  | some r => exact Eval.within_pure _
  | none => exact within_fault _ _

theorem within_lengthOf (v : Value) : Within scope (lengthOf v) := by
  unfold lengthOf
  split
  · exact Eval.within_pure _
  · exact (Eval.within_expect _).bind fun vs => Eval.within_pure _

theorem within_appendAll (args : List Value) : Within scope (appendAll args) := by
  unfold appendAll
  split
  · exact Eval.within_pure _
  · exact (Eval.within_expect _).bind fun vs => Eval.within_newChain _ vs

theorem within_elementAt (list index : Value) : Within scope (elementAt list index) := by
  unfold elementAt
  refine (Eval.within_expect _).bind fun vs => (Eval.within_expect _).bind fun i => ?_
  split
  · exact Eval.within_pure _
  · exact within_fault _ _

theorem within_spread (hen : en.Isolates) (f : Value) (args : List Value) :
    Within [] (spread en f args) := by
  unfold spread
  split
  · exact hen.apply f []
  · exact (Eval.within_expect _).bind fun vs => hen.apply f _

theorem within_makeRecord (name : Value) (args : List Value) :
    Within scope (makeRecord name args) := by
  unfold makeRecord
  refine (Eval.within_expect _).bind fun name => ?_
  split
  · exact within_fault _ _
  · split
    · exact Eval.within_newRecord _ _
    · exact Eval.within_typeError _
    · exact within_fault _ _

theorem within_getField (record field : Value) : Within scope (getField record field) := by
  unfold getField
  refine (Eval.within_expect _).bind fun r => (Eval.within_expect _).bind fun f => ?_
  split
  · exact Eval.within_pure _
  · exact within_fault _ _

theorem within_setField (record field v : Value) : Within scope (setField record field v) := by
  unfold setField
  exact (Eval.within_expect _).bind fun r => (Eval.within_expect _).bind fun f =>
    Eval.within_newRecord _ _

/-- Only `apply` and `map` reach the store, and they do so by applying functions. -/
theorem within_run (hen : en.Isolates) (p : Primitive) (args : List Value) :
    Within [] (p.run en args) := by
  unfold run
  split
  case h_5 => exact within_modulo _ _
  case h_13 => exact Eval.within_newPair _ _
  case h_20 => exact within_lengthOf _
  case h_21 => exact within_appendAll _
  case h_23 => exact within_elementAt _ _
  case h_24 => exact within_spread hen _ _
  case h_25 =>
    exact (Eval.within_expect _).bind fun vs => (hen.applyEach _ vs).bind fun ws =>
      Eval.within_newList ws
  case h_38 => exact within_makeRecord _ _
  case h_39 => exact within_getField _ _
  case h_40 => exact within_setField _ _ _
  case h_42 => exact Eval.within_gensym _
  case h_43 => exact (Eval.within_expect _).bind fun stem => Eval.within_gensym stem
  case h_48 => exact within_fault _ _
  case h_49 => exact Eval.within_fail _
  all_goals first
    | exact Eval.within_pure _
    | exact (Eval.within_expect _).bind fun _ => Eval.within_pure _
    | exact (Eval.within_expect _).bind fun _ => Eval.within_newList _
    | exact Eval.within_newList _
    | exact Eval.within_print _ _ _
    | exact within_compare _ _ _ _
    | exact within_divide _ _

theorem within_call (hen : en.Isolates) (p : Primitive) (args : List Value) :
    Within [] (p.call en args) := by
  unfold call
  exact (Eval.within_checkArity _ _ _).bind fun _ => within_run hen p args

end Primitive

/-! ## §5. Special forms -/

theorem Engine.Isolates.evalLiteral (hen : en.Isolates) (v : Value) :
    Within scope (en.evalLiteral scope v) := by
  unfold Engine.evalLiteral
  split
  · exact Eval.within_pure _
  · exact hen.fillTemplate _
  · exact Eval.within_typeError _
  · exact Eval.within_typeError _
  · exact Eval.within_pure _

theorem Engine.within_evalVar (name : String) : Within scope (evalVar scope name) := by
  unfold evalVar
  refine (Eval.within_lookup _ _ _).bind fun v => ?_
  split
  · exact Eval.within_fail _
  · exact Eval.within_pure _

theorem Engine.Isolates.evalAnd (hen : en.Isolates) (last : Value) (es : List Expr) :
    Within scope (en.evalAnd scope last es) := by
  induction es generalizing last with
  | nil => exact Eval.within_pure last
  | cons e es ih =>
    unfold Engine.evalAnd
    refine (hen.eval e scope).bind fun v => ?_
    split
    · exact ih v
    · exact Eval.within_pure v

theorem Engine.Isolates.evalOr (hen : en.Isolates) (es : List Expr) :
    Within scope (en.evalOr scope es) := by
  induction es with
  | nil => exact Eval.within_pure _
  | cons e es ih =>
    unfold Engine.evalOr
    refine (hen.eval e scope).bind fun v => ?_
    split
    · exact Eval.within_pure v
    · exact ih

theorem Engine.Isolates.evalSequence (hen : en.Isolates) (last : Value) (es : List Expr) :
    Within scope (en.evalSequence scope last es) := by
  induction es generalizing last with
  | nil => exact Eval.within_pure last
  | cons e es ih =>
    unfold Engine.evalSequence
    exact (hen.eval e scope).bind fun v => ih v

/-- Each binding but the first is made in a frame inside the one before. -/
theorem Engine.Isolates.bindNested (hen : en.Isolates) (bs : List (String × Expr)) :
    Nests scope (en.bindNested scope bs) := by
  induction bs generalizing scope with
  | nil => exact Eval.nests_pure scope
  | cons b bs ih =>
    obtain ⟨name, init⟩ := b
    unfold Engine.bindNested
    refine Nests.after (hen.eval init scope) fun v => Opens.nests ?_
    refine Opens.nest (Eval.opens_extend scope scope) fun inner => ?_
    exact Nests.after (Eval.within_bindName name v) fun _ => ih

/-- Filling new slots changes nothing old, although their frame need not bind them any more: of
two bindings of one name, only the second keeps its slot. -/
theorem Engine.Isolates.fillSlots (hen : en.Isolates) {s : Store} {o : Option FrameId}
    {w : World} (ho : ∀ f, o = some f → f < s.frames.size)
    (bs : List ((String × Expr) × SlotId)) (hslots : ∀ b ∈ bs, s.slots.size ≤ b.2)
    (hc : Confined o s w.store) (hi : Fresh s w.store scope) :
    Confined o s ((en.fillSlots scope bs).after w).store ∧
      Fresh s ((en.fillSlots scope bs).after w).store scope := by
  induction bs generalizing w with
  | nil => exact ⟨hc, hi⟩
  | cons b bs ih =>
    obtain ⟨⟨name, init⟩, slot⟩ := b
    unfold Engine.fillSlots
    have h := (hen.eval init scope).inside ho hc hi
    cases hw : en.eval init scope w with
    | error e w1 =>
      rw [Eval.after_of_error hw] at h
      rw [Eval.after_bind_of_error hw]
      exact h
    | ok v w1 =>
      rw [Eval.after_of_ok hw] at h
      rw [Eval.after_bind_of_ok hw]
      have hslot : s.slots.size ≤ slot := hslots ((name, init), slot) (by simp)
      have hrest : ∀ b ∈ bs, s.slots.size ≤ b.2 := by
        intro b hb
        exact hslots b (by simp [hb])
      exact ih hrest (h.1.fill hslot v) h.2

theorem Engine.Isolates.opens_letScope (hen : en.Isolates) (kind : LetKind)
    (bs : List (String × Expr)) : Opens scope (en.letScope scope kind bs) := by
  cases kind with
  | parallel =>
    unfold Engine.letScope
    refine Opens.after (hen.evalEach _) fun vs => ?_
    refine Opens.nest (Eval.opens_extend scope scope) fun inner => ?_
    exact Nests.after (Eval.within_bindAll _) fun _ => Eval.nests_pure inner
  | sequential =>
    cases bs with
    | nil => exact Eval.opens_extend scope scope
    | cons b bs =>
      obtain ⟨name, init⟩ := b
      unfold Engine.letScope
      refine Opens.nest (Eval.opens_extend scope scope) fun inner => ?_
      refine Nests.after (hen.eval init inner) fun v => ?_
      exact Nests.after (Eval.within_bindName name v) fun _ => hen.bindNested bs
  | recursive =>
    intro w hr
    -- the world in which the first initial value is evaluated
    let t := w.store.newFrame.2.newSlots (bs.map Prod.fst)
    let store := t.2.bindSlots w.store.newFrame.1 ((bs.map Prod.fst).zip t.1)
    have hc := Store.confined_newFrame scope.head? w.store
    have hi := Store.fresh_newFrame w.store scope
    have hnew : ∀ slot ∈ t.1, w.store.slots.size ≤ slot := fun _ => hc.le_of_mem_newSlots
    have hc' : Confined scope.head? w.store store :=
      (hc.newSlots (bs.map Prod.fst)).bindSlots hr (hi.newSlots _) _
    have hi' : Fresh w.store store (w.store.newFrame.1 :: scope) :=
      (hi.newSlots (bs.map Prod.fst)).bindSlots fun b hb => hnew b.2 (List.of_mem_zip hb).2
    have hzip : ∀ b ∈ bs.zip t.1, w.store.slots.size ≤ b.2 :=
      fun b hb => hnew b.2 (List.of_mem_zip hb).2
    have hw' : Confined scope.head? w.store ({ w with store := store } : World).store := hc'
    have h := hen.fillSlots hr (bs.zip t.1) hzip hw' hi'
    have hrun : en.letScope scope .recursive bs w =
        (en.fillSlots (w.store.newFrame.1 :: scope) (bs.zip t.1) >>= fun _ =>
          (pure (w.store.newFrame.1 :: scope) : Eval Scope)) { w with store := store } := rfl
    cases hw : en.fillSlots (w.store.newFrame.1 :: scope) (bs.zip t.1)
        { w with store := store } with
    | error e w1 =>
      rw [Eval.after_of_error hw] at h
      rw [Eval.bind_of_error hw] at hrun
      rw [Eval.after_of_error hrun]
      refine ⟨h.1, ?_⟩
      intro inner w' hok
      rw [hrun] at hok
      exact absurd hok (by simp)
    | ok u w1 =>
      rw [Eval.after_of_ok hw] at h
      rw [Eval.bind_of_ok hw] at hrun
      rw [Eval.after_of_ok hrun]
      refine ⟨h.1, ?_⟩
      intro inner w' hok
      rw [hrun] at hok
      cases hok
      exact h.2

theorem Engine.Isolates.evalLet (hen : en.Isolates) (kind : LetKind)
    (bs : List (String × Expr)) (body : Expr) :
    Within scope (en.evalLet scope kind bs body) := by
  unfold Engine.evalLet
  exact Within.open (hen.opens_letScope kind bs) fun inner => hen.eval body inner

theorem Engine.Isolates.evalDefinition (hen : en.Isolates) (kind : DefinitionKind)
    (name : String) (params : Params) (body : Expr) :
    Within scope (en.evalDefinition scope kind name params body) := by
  unfold Engine.evalDefinition
  cases kind with
  | function =>
    exact (hen.evalLet _ _ _).bind fun f => (Eval.within_bindName name f).bind fun _ =>
      Eval.within_pure _
  | expander =>
    exact (Eval.within_newExpander _ _ _ _).bind fun m =>
      (Eval.within_bindName name _).bind fun _ => Eval.within_pure _

/-! ## §6. Calls -/

theorem Engine.within_expanderAt (callee : Expr) : Within scope (expanderAt scope callee) := by
  unfold expanderAt
  split
  · exact (Eval.within_expander? _ _ _).bind fun _ => Eval.within_pure _
  · exact Eval.within_pure _

theorem Engine.Isolates.evalCall (hen : en.Isolates) (callee : Expr)
    (args : Except FormError (List Expr)) (forms : List Value) :
    Within scope (en.evalCall ctx scope callee args forms) := by
  unfold Engine.evalCall
  refine (Engine.within_expanderAt callee).bind fun call => ?_
  cases call with
  | some call =>
    obtain ⟨name, m⟩ := call
    exact (hen.expand _ _ _ _ _).bind fun expansion => hen.evalForm expansion
  | none =>
    cases args with
    | error fault => exact Eval.within_fail _
    | ok args =>
      exact (hen.eval callee scope).bind fun f => (hen.evalEach args).bind fun vs =>
        (hen.apply f vs).of_nil

/-! ## §7. Every engine -/

theorem Engine.Isolates.evalStep (hen : en.Isolates) (e : Expr) :
    Within scope (evalStep ctx en e scope) := by
  cases e with
  | literal v => exact hen.evalLiteral v
  | var name => exact Engine.within_evalVar name
  | ite c t e =>
    refine (hen.eval c scope).bind fun v => ?_
    split
    · exact hen.eval t scope
    · exact hen.eval e scope
  | and es => exact hen.evalAnd _ es
  | or es => exact hen.evalOr es
  | sequence es => exact hen.evalSequence _ es
  | call callee args forms => exact hen.evalCall callee (.ok args) forms
  | deferred callee fault forms => exact hen.evalCall callee (.error fault) forms
  | letIn kind bs body => exact hen.evalLet kind bs body
  | lambda name params body =>
    exact (Eval.within_newClosure _ _ _ _ _).bind fun c => Eval.within_pure _
  | define name e =>
    exact (hen.eval e scope).bind fun v => (Eval.within_bindName name v).bind fun _ =>
      Eval.within_pure v
  | definition kind name params body => exact hen.evalDefinition kind name params body
  | module name exports body =>
    exact (hen.defineModule name exports body).bind fun m => Eval.within_pure _
  | importFrom target spec =>
    exact (hen.resolve scope target).bind fun m => (Eval.within_importModule m spec).bind fun _ =>
      Eval.within_pure _
  | macroexpand form => exact hen.macroexpand _ form scope

theorem Engine.Isolates.applyStep (hen : en.Isolates) (f : Value) (args : List Value) :
    Within [] (applyStep en f args) := by
  unfold Engine.applyStep
  split
  · exact Primitive.within_call hen _ args
  · exact hen.applyClosure _ args
  · exact Eval.within_typeError _
  · exact Eval.within_typeError _

/-- Every engine isolates frames: the one without depth does nothing, and each further level
takes one step over the level before. -/
theorem Engine.isolates_ofDepth (ctx : Context) (n : Nat) : (ofDepth ctx n).Isolates := by
  induction n with
  | zero => exact ⟨fun _ _ => Eval.within_throw _, fun _ _ => Eval.within_throw _⟩
  | succ n ih => exact ⟨fun e _ => ih.evalStep e, fun f args => ih.applyStep f args⟩

/-! ## §8. What stays as it was -/

/-- Every frame of `w`, except the one in `o`, binds the same names to the same slots in `w'`,
and every slot of `w` that the frame in `o` does not bind has the same content in `w'`. -/
structure World.AgreesOutside (o : Option FrameId) (w w' : World) : Prop where
  frames : ∀ g, g < w.store.frames.size → o ≠ some g → w'.store.frame g = w.store.frame g
  slots : ∀ slot, slot < w.store.slots.size →
    (∀ f, o = some f → ∀ name, w.store.slotIn? f name ≠ some slot) →
    w'.store.content slot = w.store.content slot

theorem Eval.Within.agreesOutside {α : Type} {x : Eval α} {w : World} (hx : Within scope x)
    (hr : Reaches w scope) : w.AgreesOutside scope.head? (x.after w) :=
  ⟨(hx w hr).frame_eq, (hx w hr).content_eq⟩

/-- An evaluation in a scope leaves everything that is there as it was, except the innermost
frame of the scope and the slots that this frame binds. An application, an expansion and the
loading of a file leave everything as it was. This holds for either strategy, whether the
computation succeeds or fails, and however many definitions it makes on its way. -/
theorem Engine.frame_isolation (ctx : Context) (n : Nat) (w : World) :
    (∀ e f rest, f < w.store.frames.size →
      w.AgreesOutside (some f) (((ofDepth ctx n).eval e (f :: rest)).after w)) ∧
    (∀ v args, w.AgreesOutside none (((ofDepth ctx n).apply v args).after w)) ∧
    (∀ limit name m args site,
      w.AgreesOutside none (((ofDepth ctx n).expand limit name m args site).after w)) ∧
    (∀ path, w.AgreesOutside none (((ofDepth ctx n).load ctx path).after w)) := by
  have hen := isolates_ofDepth ctx n
  have hnil : Eval.Reaches w [] := fun f hf => absurd hf (by simp)
  refine ⟨?_, ?_, ?_, ?_⟩
  · intro e f rest hf
    have hr : Eval.Reaches w (f :: rest) := by
      rintro _ ⟨rfl⟩
      exact hf
    exact (hen.eval e (f :: rest)).agreesOutside hr
  · intro v args
    exact (hen.apply v args).agreesOutside hnil
  · intro limit name m args site
    have hx : Eval.Within [] ((ofDepth ctx n).expand limit name m args site) :=
      hen.expand limit name m args site
    exact hx.agreesOutside hnil
  · intro path
    have hx : Eval.Within [] ((ofDepth ctx n).load ctx path) := hen.load path
    exact hx.agreesOutside hnil

/-- A definition made in a frame inside the outermost one leaves the outermost one alone. -/
theorem Engine.frame_isolation_define :
    let w := { World.initial with store := World.initial.store.newFrame.2 }
    1 < w.store.frames.size ∧
      w.AgreesOutside (some 1)
        (((ofDepth ⟨.default, ⟨[], []⟩⟩ 2).eval (.define "x" (.literal (.int 1))) [1, 0]).after w) :=
  ⟨by decide, (frame_isolation _ _ _).1 _ 1 [0] (by decide)⟩

end TinyLisp
