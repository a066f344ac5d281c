import TinyLisp.Proofs.Course.Basic

/-!
# Work that asks for nothing

What the evaluator does between two tasks lets the world grow and leaves the registered modules and
the counter of fresh names alone, with one lemma for each of its definitions that asks for nothing.
Modules are registered only at the end of a module form and at the end of a file, where the world
is known to have grown. For an import this makes two cases: nothing is asked for, or the forms of a
file are evaluated. The one operation that hands out a fresh name is left out.
-/

namespace TinyLisp

open Eval (Quiet Growing)

/-! ## §1. Scopes, bindings and values -/

namespace Eval

variable {α β : Type}

theorem quiet_pure (a : α) : Quiet (pure a : Eval α) :=
  fun w => .refl w

theorem quiet_fail (e : EvalError) : Quiet (fail e : Eval α) :=
  fun w => .refl w

theorem quiet_typeError (fault : TypeFault) : Quiet (typeError fault : Eval α) :=
  quiet_fail _

theorem quiet_refuse (path : String) (fault : LoadFault) : Quiet (refuse path fault : Eval α) :=
  quiet_fail _

/-- One after the other, if the relation can be followed through both. -/
theorem Leaves.bind {E : World → World → Prop} (hE : ∀ {w w' w''}, E w w' → E w' w'' → E w w'')
    {x : Eval α} {k : α → Eval β} (hx : Leaves E x) (hk : ∀ a, Leaves E (k a)) :
    Leaves E (x >>= k) := by
  intro w
  have hfirst := hx w
  cases hw : x w with
  | ok a w₁ =>
    rw [after_of_ok hw] at hfirst
    rw [after_bind_of_ok hw]
    exact hE hfirst (hk a w₁)
  | error e w₁ =>
    rw [after_of_error hw] at hfirst
    rw [after_bind_of_error hw]
    exact hfirst

theorem Quiet.bind {x : Eval α} {k : α → Eval β} (hx : Quiet x) (hk : ∀ a, Quiet (k a)) :
    Quiet (x >>= k) :=
  Leaves.bind (fun h h' => h.trans h') hx hk

theorem Growing.bind {x : Eval α} {k : α → Eval β} (hx : Growing x) (hk : ∀ a, Growing (k a)) :
    Growing (x >>= k) :=
  Leaves.bind (fun h h' => h.trans h') hx hk

theorem Quiet.growing {x : Eval α} (h : Quiet x) : Growing x :=
  fun w => (h w).nameless

/-- What follows a result of work that lets the world grow. -/
theorem Growing.andThen {k : α → Eval β} (hk : ∀ a, Growing (k a))
    (r : EStateM.Result Halt World α) : (worldOf r).Nameless (worldOf (Eval.andThen r k)) := by
  cases r with
  | ok a w =>
    have hlast := hk a w
    rwa [after_eq] at hlast
  | error e w => exact (World.Calm.refl w).nameless

/-- What follows a look at the world. -/
theorem leaves_get {E : World → World → Prop} {k : World → Eval α} (hk : ∀ w, Leaves E (k w)) :
    Leaves E (get >>= k) :=
  fun w => hk w w

/-- A change of the store in which it grows. -/
theorem calm_of_store {w : World} {store : Store} (h : w.store.Grows store) :
    w.Calm { w with store := store } :=
  ⟨⟨World.grows_of_store h rfl, rfl⟩, rfl⟩

/-- A change of tags and text. -/
theorem calm_aside (w : World) (tag : Nat) (output : String) :
    w.Calm { w with nextTag := tag, output := output } :=
  ⟨⟨World.grows_of_store (.refl _) rfl, rfl⟩, rfl⟩

theorem quiet_ofExcept (r : Except EvalError α) : Quiet (ofExcept r) := by
  cases r with
  | ok a => exact quiet_pure a
  | error e => exact quiet_fail e

theorem quiet_checkArity (a : Arity) (n : Nat) (name : String) : Quiet (checkArity a n name) :=
  quiet_ofExcept _

theorem quiet_extend (scope : Scope) : Quiet (extend scope) :=
  fun w => calm_of_store (Store.Grows.refl w.store).newFrame

theorem quiet_bindAll (scope : Scope) (bs : List (String × Value)) : Quiet (bindAll scope bs) := by
  intro w
  cases scope with
  | nil => exact .refl w
  | cons f rest =>
    -- on the bindings: each one is a change of the store that the ones before it have left
    have hgrows : w.store.Grows (w.store.bindAll f bs) := by
      induction bs generalizing w with
      | nil => exact .refl _
      | cons b bs ih =>
        obtain ⟨name, v⟩ := b
        exact (Store.grows_bind w.store f name v).trans
          (ih { w with store := w.store.bind f name v })
    exact calm_of_store hgrows

theorem quiet_bindName (scope : Scope) (name : String) (v : Value) :
    Quiet (bindName scope name v) := by
  intro w
  cases scope with
  | nil => exact .refl w
  | cons f rest => exact calm_of_store (Store.grows_bind w.store f name v)

theorem quiet_fill (slot : SlotId) (v : Value) : Quiet (fill slot v) :=
  fun w => calm_of_store (Store.grows_fill w.store slot v)

theorem quiet_lookup (scope : Scope) (name : String) : Quiet (lookup scope name) :=
  leaves_get fun _ => quiet_ofExcept _

theorem quiet_newBody (e : Expr) : Quiet (newBody e) :=
  fun w => ⟨⟨World.grows_push w e, rfl⟩, rfl⟩

theorem quiet_body (id : Nat) : Quiet (body id) :=
  fun w => .refl w

theorem quiet_newTag : Quiet newTag :=
  fun w => calm_aside w _ w.output

theorem quiet_newChain (tail : Value) (vs : List Value) : Quiet (newChain tail vs) := by
  induction vs with
  | nil => exact quiet_pure tail
  | cons v vs ih =>
    unfold newChain
    exact ih.bind fun _ => quiet_newTag.bind fun _ => quiet_pure _

theorem quiet_newList (vs : List Value) : Quiet (newList vs) :=
  quiet_newChain .nil vs

theorem quiet_tagForm (form : Value) : Quiet (tagForm form) :=
  fun w => calm_aside w _ w.output

theorem quiet_newClosure (strategy : Strategy) (name : Option String) (params : Params)
    (body : Expr) (scope : Scope) : Quiet (newClosure strategy name params body scope) := by
  unfold newClosure
  exact leaves_get fun _ => (quiet_newBody body).bind fun _ => quiet_pure _

theorem quiet_newExpander (name : String) (params : Params) (body : Expr) (scope : Scope) :
    Quiet (newExpander name params body scope) := by
  unfold newExpander
  exact (quiet_newBody body).bind fun _ => quiet_pure _

/-- The frame of a table is new when it is given its slots. -/
theorem quiet_callScope (c : Closure) : Quiet (callScope c) := by
  intro w
  unfold callScope
  cases c.captures with
  | scope => exact quiet_extend c.scope w
  | table slots =>
    have htable := (Store.Grows.refl w.store).newFrame.bindSlots (Nat.le_refl _) slots
    exact calm_of_store htable.newFrame

theorem quiet_bindParams (params : Params) (args : List Value) (scope : Scope) (name : String) :
    Quiet (bindParams params args scope name) := by
  unfold bindParams
  refine (quiet_checkArity _ _ _).bind fun _ => (quiet_bindAll _ _).bind fun _ => ?_
  cases params.rest with
  | none => exact quiet_pure ()
  | some rest => exact (quiet_newList _).bind fun _ => quiet_bindName _ _ _

theorem quiet_spliced (v : Value) : Quiet v.spliced := by
  unfold Value.spliced
  cases v.elements? with
  | some vs => exact quiet_pure vs
  | none => exact quiet_typeError _

theorem quiet_importNames (m : Module) (scope : Scope) (names : List String) :
    Quiet (importNames m scope names) := by
  induction names with
  | nil => exact quiet_pure ()
  | cons name names ih =>
    unfold importNames
    exact (quiet_lookup _ _).bind fun v => (quiet_bindName _ _ v).bind fun _ => ih

theorem quiet_importShown (m : Module) (scope : Scope) (names : List String) :
    Quiet (importShown m scope names) := by
  induction names with
  | nil => exact quiet_pure ()
  | cons name names ih =>
    unfold importShown
    split
    · exact (quiet_lookup _ _).bind fun v => (quiet_bindName _ _ v).bind fun _ => ih
    · exact quiet_fail _

theorem quiet_importModule (m : Module) (scope : Scope) (spec : ImportSpec) :
    Quiet (importModule m scope spec) := by
  unfold importModule
  cases spec with
  | all => exact quiet_importNames m scope m.exports
  | only names => exact quiet_importShown m scope names
  | renamed name => exact quiet_bindName _ _ _

end Eval

theorem Engine.quiet_evalVar (scope : Scope) (name : String) : Quiet (evalVar scope name) := by
  unfold evalVar
  refine (Eval.quiet_lookup scope name).bind fun v => ?_
  split
  · exact Eval.quiet_fail _
  · exact Eval.quiet_pure _

theorem Engine.quiet_expanderAt (scope : Scope) (callee : Expr) :
    Quiet (expanderAt scope callee) := by
  unfold expanderAt
  split
  · exact Eval.leaves_get fun _ => Eval.quiet_pure _
  · exact Eval.quiet_pure _

/-! ## §2. Primitive operations -/

namespace Eval

theorem quiet_expect {α : Type} (r : Except TypeFault α) : Quiet (expect r) := by
  cases r with
  | ok a => exact quiet_pure a
  | error fault => exact quiet_typeError fault

theorem quiet_print (style : Style) (vs : List Value) (end_ : String) :
    Quiet (print style vs end_) :=
  fun w => calm_aside w w.nextTag _

theorem quiet_newRecord (name : String) (fields : Fields) : Quiet (newRecord name fields) :=
  quiet_newTag.bind fun _ => quiet_pure _

end Eval

namespace Primitive

open Eval

theorem quiet_fault {α : Type} (p : Primitive) (f : PrimitiveFault) :
    Quiet (p.fault f : Eval α) :=
  quiet_fail _

theorem quiet_compare (onInts : Int64 → Int64 → Bool) (onFloats : Float → Float → Bool)
    (a b : Value) : Quiet (compare onInts onFloats a b) := by
  unfold compare
  refine (quiet_expect _).bind fun ns => ?_
  split
  · exact quiet_pure _
  · exact quiet_pure _

theorem quiet_divide (a b : Value) : Quiet (divide a b) := by
  unfold divide
  refine (quiet_expect _).bind fun ns => ?_
  split
  · split
    · exact quiet_pure _
    · exact quiet_fault _ _
  · exact quiet_fault _ _

theorem quiet_modulo (a b : Value) : Quiet (modulo a b) := by
  unfold modulo
  refine (quiet_expect _).bind fun m => (quiet_expect _).bind fun n => ?_
  cases remainder? m n with
  | some r => exact quiet_pure _
  | none => exact quiet_fault _ _

theorem quiet_lengthOf (v : Value) : Quiet (lengthOf v) := by
  unfold lengthOf
  split
  · exact quiet_pure _
  · exact (quiet_expect _).bind fun vs => quiet_pure _

theorem quiet_appendAll (args : List Value) : Quiet (appendAll args) := by
  unfold appendAll
  split
  · exact quiet_pure _
  · exact (quiet_expect _).bind fun vs => quiet_newChain _ vs

theorem quiet_elementAt (list index : Value) : Quiet (elementAt list index) := by
  unfold elementAt
  refine (quiet_expect _).bind fun vs => (quiet_expect _).bind fun i => ?_
  split
  · exact quiet_pure _
  · exact quiet_fault _ _

theorem quiet_makeRecord (name : Value) (args : List Value) : Quiet (makeRecord name args) := by
  unfold makeRecord
  refine (quiet_expect _).bind fun name => ?_
  split
  · exact quiet_fault _ _
  · split
    · exact quiet_newRecord _ _
    · exact quiet_typeError _
    · exact quiet_fault _ _

theorem quiet_getField (record field : Value) : Quiet (getField record field) := by
  unfold getField
  refine (quiet_expect _).bind fun r => (quiet_expect _).bind fun f => ?_
  split
  · exact quiet_pure _
  · exact quiet_fault _ _

theorem quiet_setField (record field v : Value) : Quiet (setField record field v) := by
  unfold setField
  exact (quiet_expect _).bind fun r => (quiet_expect _).bind fun f => quiet_newRecord _ _

end Primitive

/-! ## §3. Ends of modules and files -/

namespace Eval

/-- A world in which other modules are known. -/
theorem nameless_library (w : World) (library : Library) :
    w.Nameless { w with library := library } :=
  ⟨World.grows_of_store (.refl _) rfl, rfl⟩

theorem growing_register (m : Module) : Growing (register m) :=
  fun w => nameless_library w _

theorem quiet_newModule (name : String) (scope : Scope) (exports : List String) :
    Quiet (newModule name scope exports) :=
  quiet_newTag.bind fun _ => quiet_pure _

/-- What a module form does when its body has run. -/
def closeModule (name : String) (exports : List String) (scope inner : Scope) : Eval Module := do
  match (← get).store.firstMissing? inner.innermost exports with
  | some missing => refuse name (.missingExport missing)
  | none =>
    let m ← newModule name inner exports
    if scope = rootScope then register m
    bindName scope name (.module m)
    pure m

theorem defineModule_eq (en : Engine) (name : String) (exports : List String) (body : List Expr)
    (scope : Scope) : en.defineModule name exports body scope =
      extend scope >>= fun inner => en.evalEach inner body >>= fun _ =>
        closeModule name exports scope inner :=
  rfl

theorem growing_closeModule (name : String) (exports : List String) (scope inner : Scope) :
    Growing (closeModule name exports scope inner) := by
  unfold closeModule
  refine leaves_get fun w => ?_
  cases w.store.firstMissing? inner.innermost exports with
  | some missing => exact (quiet_refuse _ _).growing
  | none =>
    refine (quiet_newModule _ _ _).growing.bind fun m => ?_
    -- the name is bound in every scope, but the module is registered in the outermost one only
    have hbind := (quiet_bindName scope name (.module m)).bind fun _ => quiet_pure m
    split
    · exact (growing_register m).bind fun _ => hbind.growing
    · exact hbind.growing

theorem growing_fileModule (name : String) (scope : Scope) :
    Growing (Engine.fileModule name scope) := by
  unfold Engine.fileModule
  refine leaves_get fun w => ?_
  refine Growing.bind (fun w => nameless_library w _) fun _ => ?_
  -- what the frame binds is registered by now; the module of the file is among it or made
  cases (w.store.ownModules scope.innermost).find? fun m => m.name = name with
  | some m => exact (quiet_pure m).growing
  | none =>
    exact (quiet_newModule _ _ _).growing.bind fun m => (growing_register m).bind fun _ =>
      (quiet_pure m).growing

theorem nameless_leaveFile (p : Place) (r : EStateM.Result Halt World Module) :
    (worldOf r).Nameless (worldOf (Engine.leaveFile p r)) := by
  cases r with
  | ok m w => exact nameless_library w _
  | error e w => exact nameless_library w _

end Eval

/-! ## §4. Loads and targets -/

namespace Engine

/-- What a name or a path in an import leads to is known at once, or a file is loaded. -/
theorem resolve_or_load (ctx : Context) (scope : Scope) (target : ImportTarget) (w : World) :
    (∃ r, (∀ en : Engine, en.resolve ctx scope target w = r) ∧ w.Calm (Eval.worldOf r)) ∨
      ∃ path, ∀ en : Engine, en.resolve ctx scope target w = en.load ctx path w := by
  cases target with
  | path path => exact .inr ⟨ctx.pathToLoad path, fun _ => rfl⟩
  | name name =>
    unfold resolve
    simp only [Eval.get_bind]
    cases w.store.lookup scope name with
    | ok v =>
      refine .inl ?_
      cases v with
      | module m => exact ⟨_, fun _ => rfl, .refl w⟩
      | _ => exact ⟨_, fun _ => rfl, .refl w⟩
    | error e =>
      cases e with
      | unbound reported =>
        -- only a name that is unbound leads to the registry and the search path
        unfold resolveUnbound
        simp only [Eval.library_bind]
        cases w.library.registry.get? name with
        | some m => exact .inl ⟨_, fun _ => rfl, .refl w⟩
        | none =>
          dsimp only
          cases ctx.search? (name ++ moduleExtension) with
          | some path => exact .inr ⟨path, fun _ => rfl⟩
          | none => exact .inl ⟨_, fun _ => rfl, .refl w⟩
      | _ => exact .inl ⟨_, fun _ => rfl, .refl w⟩

/-- To load a file registers nothing, or the forms of the file are evaluated in a frame of their
own. -/
theorem load_or_run (ctx : Context) (path : String) (w : World) :
    (∃ r, (∀ en : Engine, en.load ctx path w = r) ∧ w.Calm (Eval.worldOf r)) ∨
      ∃ p source forms, ctx.disk.resolve path = .ok p ∧ ctx.disk.readPlace p = .ok source ∧
        readData source = .ok forms ∧ ∀ en : Engine, en.load ctx path w = leaveFile p
          (Eval.andThen (en.evalForms [w.store.frames.size, rootFrame] .nil forms
              { w with library := w.library.enter p, store := w.store.newFrame.2 })
            fun _ =>
              fileModule (Path.stem (p.getLast?.getD "")) [w.store.frames.size, rootFrame]) := by
  cases hp : ctx.disk.resolve path with
  | error e => exact .inl ⟨_, fun _ => load_of_unresolved hp, .refl w⟩
  | ok p =>
    cases hm : w.library.files.get? p with
    | some m => exact .inl ⟨_, fun _ => load_of_kept hp hm, .refl w⟩
    | none =>
      cases hl : w.library.loading.contains p with
      | true => exact .inl ⟨_, fun _ => load_of_loading hp hm hl, .refl w⟩
      | false =>
        -- the file has to be run, and meanwhile its place is noted as being loaded
        let w₁ : World := { w with library := w.library.enter p }
        have hload : ∀ en : Engine, en.load ctx path w = leaveFile p (en.runFile ctx p w₁) := by
          intro en
          rw [load_of_new hp hm hl]
          cases en.runFile ctx p w₁ with
          | ok m w' => rfl
          | error e w' => rfl
        -- a file that cannot be read or is no text of forms is refused before any form is run
        by_cases hforms : ∃ source forms, ctx.disk.readPlace p = .ok source ∧
            readData source = .ok forms
        · obtain ⟨source, forms, hsource, hread⟩ := hforms
          refine .inr ⟨p, source, forms, rfl, hsource, hread, fun en => ?_⟩
          rw [hload, runFile_of_read hsource hread, Eval.bind_eq]
          exact congrArg (leaveFile p) (Eval.bind_eq _ _ _)
        · obtain ⟨fault, hfault⟩ := runFile_of_unread
            fun source forms hsource hread => hforms ⟨source, forms, hsource, hread⟩
          refine .inl ⟨leaveFile p (Eval.refuse (Path.ofParts p) fault w₁), fun en => ?_, ?_⟩
          · rw [hload, hfault]
          · exact ⟨⟨World.grows_of_store (.refl _) rfl, rfl⟩, rfl⟩

end Engine

end TinyLisp
