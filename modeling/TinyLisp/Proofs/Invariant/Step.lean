import TinyLisp.Proofs.Invariant.Module
import TinyLisp.Proofs.Invariant.Primitive

/-!
# Every evaluation keeps an invariant

One lemma for each special form, and from all of them one for a step over two engines. The
engines of two depths follow by induction (`Invariant.Kept.engines_ofDepth`).
-/

namespace TinyLisp

open Invariant

variable {I : Invariant} {K : I.Stage} {scope : Scope} {en en' : Engine} {ctx : Context}

namespace Invariant.Engines

/-! ## §1. Literals and variables -/

theorem evalLiteral (hen : I.Engines en en') {v : Value} (h : I.Good K v)
    (hs : I.Active K scope) :
    I.Runs K (fun K' v => I.Good K' v) (en.evalLiteral scope v) (en'.evalLiteral scope v) := by
  cases v with
  | quote v => exact .pure (Value.every_quote.1 h).2
  | quasiquote t => exact hen.fillTemplate (Value.every_quasiquote.1 h).2 hs
  | unquote v => exact .typeError hen.kept _
  | unquoteSplicing v => exact .typeError hen.kept _
  | _ => exact .pure h

theorem evalVar (hI : I.KeptOutside) (hs : I.Knows K scope) (name : String) :
    I.Runs K (fun K' v => I.Good K' v) (Engine.evalVar scope name)
      (Engine.evalVar scope name) := by
  unfold Engine.evalVar
  refine (hI.lookupName hs name).bind hI fun K' v _ hv => ?_
  split
  · exact .fail hI _
  · next hne => exact .pure (hv hne)

/-! ## §2. Sequences -/

theorem evalAnd (hen : I.Engines en en') {last : Value} {es : List Expr} (hl : I.Good K last)
    (h : ∀ e ∈ es, I.Fits K e) (hs : I.Active K scope) :
    I.Runs K (fun K' v => I.Good K' v) (en.evalAnd scope last es)
      (en'.evalAnd scope last es) := by
  have hI := hen.kept
  induction es generalizing K last with
  | nil => exact .pure hl
  | cons e es ih =>
    unfold Engine.evalAnd
    refine (hen.eval (h e (by simp)) hs).bind hI fun K' v hK hv => ?_
    split
    · exact ih hv (fun e he => hI.fits_mono hK (h e (by simp [he]))) (hI.active_mono hK hs)
    · exact .pure hv

theorem evalOr (hen : I.Engines en en') {es : List Expr} (h : ∀ e ∈ es, I.Fits K e)
    (hs : I.Active K scope) :
    I.Runs K (fun K' v => I.Good K' v) (en.evalOr scope es) (en'.evalOr scope es) := by
  have hI := hen.kept
  induction es generalizing K with
  | nil => exact hI.pureAtom rfl trivial
  | cons e es ih =>
    unfold Engine.evalOr
    refine (hen.eval (h e (by simp)) hs).bind hI fun K' v hK hv => ?_
    split
    · exact .pure hv
    · exact ih (fun e he => hI.fits_mono hK (h e (by simp [he]))) (hI.active_mono hK hs)

theorem evalSequence (hen : I.Engines en en') {last : Value} {es : List Expr}
    (hl : I.Good K last) (h : ∀ e ∈ es, I.Fits K e) (hs : I.Active K scope) :
    I.Runs K (fun K' v => I.Good K' v) (en.evalSequence scope last es)
      (en'.evalSequence scope last es) := by
  have hI := hen.kept
  induction es generalizing K last with
  | nil => exact .pure hl
  | cons e es ih =>
    unfold Engine.evalSequence
    refine (hen.eval (h e (by simp)) hs).bind hI fun K' v hK hv => ?_
    exact ih hv (fun e he => hI.fits_mono hK (h e (by simp [he]))) (hI.active_mono hK hs)

/-! ## §3. `let` forms -/

theorem bindNested (hen : I.Engines en en') {bs : List (String × Expr)}
    (h : ∀ b ∈ bs, I.Fits K b.2) (hs : I.Active K scope) :
    I.Runs K (fun K' inner => I.Active K' inner) (en.bindNested scope bs)
      (en'.bindNested scope bs) := by
  have hI := hen.kept
  induction bs generalizing K scope with
  | nil => exact .pure hs
  | cons b bs ih =>
    obtain ⟨name, init⟩ := b
    have hinit : I.Fits K init := h (name, init) (by simp)
    unfold Engine.bindNested
    refine (hen.eval hinit hs).bind hI fun K₁ v hK₁ hv => ?_
    have hs₁ := hI.active_mono hK₁ hs
    refine (hI.openFrame hs₁.knows).bind hI fun K₂ inner hK₂ hinner => ?_
    refine (hI.bindName hinner.1 (hI.good_mono hK₂ hv) name).bind hI fun K₃ _ hK₃ _ => ?_
    have hK := hK₁.trans (hK₂.trans hK₃)
    exact ih (fun b hb => hI.fits_mono hK (h b (by simp [hb]))) (hI.active_mono hK₃ hinner.1)

/-- The slots of a frame are filled one after another, each evaluation being at a stage at which
the slots after it are empty. When none is left, the frame is like any other. -/
theorem fillSlots (hen : I.Engines en en') {K' : I.Stage} {f : FrameId}
    {bs : List ((String × Expr) × SlotId)} (h : ∀ b ∈ bs, I.Fits K b.1.2)
    (hs : I.Knows K scope) (hfilling : I.Filling K K' f (bs.map Prod.snd)) {w : World}
    (hw : I.Holds K' w) :
    I.RunsFrom K K' (fun K'' _ => I.Works K'' f) (en.fillSlots (f :: scope) bs)
      (en'.fillSlots (f :: scope) bs) w := by
  have hI := hen.kept
  induction bs generalizing K' w with
  | nil =>
    have hfilled := hI.filled hfilling hw
    refine ⟨.ok rfl (hfilled.mono fun _ _ hf => hf.1), ?_⟩
    intro hapart
    exact Later.mono hfilled fun _ _ hf => ⟨hf.2 hapart, hf.1⟩
  | cons b bs ih =>
    obtain ⟨⟨name, init⟩, slot⟩ := b
    have hinit : I.Fits K' init :=
      (h ((name, init), slot) (by simp)).mono fun _ hu => hI.filling_node hfilling hu
    have hknows : I.Knows K' scope := fun g hg => hI.filling_frame hfilling (hs g hg)
    have hactive := hI.active_cons (hI.filling_works hfilling) hknows
    unfold Engine.fillSlots
    refine (hen.eval hinit hactive w hw).step hI (fun w' => hI.unfilled hfilling) ?_
    intro K₁ v w₁ hK₁ hw₁ hv
    obtain ⟨K₂, hfilling₂, hw₂, hapart₂⟩ := hI.fill (hI.filling_later hfilling hK₁) hw₁ hv
    have hrest := ih (fun b hb => h b (by simp [hb])) hfilling₂ hw₂
    exact ⟨⟨hrest.agree, hrest.ends⟩, fun hapart => hrest.apart (hapart₂ hapart)⟩

theorem letScope (hen : I.Engines en en') (kind : LetKind) {bs : List (String × Expr)}
    (h : ∀ b ∈ bs, I.Fits K b.2) (hs : I.Active K scope) :
    I.Runs K (fun K' inner => I.Active K' inner) (en.letScope scope kind bs)
      (en'.letScope scope kind bs) := by
  have hI := hen.kept
  cases kind with
  | parallel =>
    have hinits : ∀ e ∈ bs.map Prod.snd, I.Fits K e := by
      intro e he
      obtain ⟨b, hb, rfl⟩ := List.mem_map.1 he
      exact h b hb
    unfold Engine.letScope
    refine (hen.evalEach hinits hs).bind hI fun K₁ vs hK₁ hvs => ?_
    refine (hI.openFrame (hI.knows_mono hK₁ hs.knows)).bind hI fun K₂ inner hK₂ hinner => ?_
    have hbs : ∀ b ∈ (bs.map Prod.fst).zip vs, I.Good K₂ b.2 :=
      fun b hb => hI.good_mono hK₂ (hvs b.2 (List.of_mem_zip hb).2)
    refine (hI.bindAll hinner.1 hbs).bind hI fun K₃ _ hK₃ _ => ?_
    exact .pure (hI.active_mono hK₃ hinner.1)
  | sequential =>
    cases bs with
    | nil => exact (hI.openFrame hs.knows).mono fun _ _ _ hinner => hinner.1
    | cons b bs =>
      obtain ⟨name, init⟩ := b
      have hinit : I.Fits K init := h (name, init) (by simp)
      unfold Engine.letScope
      refine (hI.openFrame hs.knows).bind hI fun K₁ inner hK₁ hinner => ?_
      refine (hen.eval (hI.fits_mono hK₁ hinit) hinner.1).bind hI fun K₂ v hK₂ hv => ?_
      refine (hI.bindName (hI.active_mono hK₂ hinner.1) hv name).bind hI fun K₃ _ hK₃ _ => ?_
      have hK := hK₁.trans (hK₂.trans hK₃)
      exact hen.bindNested (fun b hb => hI.fits_mono hK (h b (by simp [hb])))
        (hI.active_mono (hK₂.trans hK₃) hinner.1)
  | recursive =>
    intro w hw
    obtain ⟨K', hfilling, hw'⟩ := hI.filling (bs.map Prod.fst) hw hs
    -- the slots, and the world in which the first initial value is evaluated
    let t := w.store.newFrame.2.newSlots (bs.map Prod.fst)
    let w₁ : World := { w with
      store := t.2.bindSlots w.store.frames.size ((bs.map Prod.fst).zip t.1) }
    have hlength : t.1.length = bs.length := by
      rw [Store.newSlots_fst, List.length_range', List.length_map]
    have hslots : (bs.zip t.1).map Prod.snd = t.1 := List.map_snd_zip (Nat.le_of_eq hlength)
    have hinits : ∀ b ∈ bs.zip t.1, I.Fits K b.1.2 :=
      fun b hb => h b.1 (List.of_mem_zip hb).1
    have hfill := hen.fillSlots hinits hs.knows (hslots.symm ▸ hfilling) hw'
    have hdone := hfill.toRunsAt.bind hI fun K₂ _ hK₂ hf =>
      Runs.pure (P := fun K' inner => I.Active K' inner)
        (hI.active_cons hf (hI.knows_mono hK₂ hs.knows))
    have hrun : ∀ en : Engine, en.letScope scope .recursive bs w =
        (en.fillSlots (w.store.frames.size :: scope) (bs.zip t.1) >>= fun _ =>
          (pure (w.store.frames.size :: scope) : Eval Scope)) w₁ := fun _ => rfl
    refine ⟨?_, ?_⟩
    · rw [hrun en, hrun en']
      exact hdone.agree
    · rw [hrun en]
      exact hdone.ends

theorem evalLet (hen : I.Engines en en') (kind : LetKind) {bs : List (String × Expr)}
    {body : Expr} (h : ∀ b ∈ bs, I.Fits K b.2) (hb : I.Fits K body) (hs : I.Active K scope) :
    I.Runs K (fun K' v => I.Good K' v) (en.evalLet scope kind bs body)
      (en'.evalLet scope kind bs body) := by
  unfold Engine.evalLet
  exact (hen.letScope kind h hs).bind hen.kept fun K' inner hK hinner =>
    hen.eval (hen.kept.fits_mono hK hb) hinner

/-! ## §4. Definitions -/

theorem evalDefinition (hen : I.Engines en en') (kind : DefinitionKind) (name : String)
    (params : Params) {body : Expr} (hb : I.Fits K body) (hs : I.Active K scope) :
    I.Runs K (fun K' v => I.Good K' v) (en.evalDefinition scope kind name params body)
      (en'.evalDefinition scope kind name params body) := by
  have hI := hen.kept
  unfold Engine.evalDefinition
  cases kind with
  | function =>
    have hbs : ∀ b ∈ [(name, Expr.lambda (some name) params body)], I.Fits K b.2 := by
      intro b hmem
      rw [List.mem_singleton.1 hmem]
      exact Expr.every_lambda.2 hb
    have hvar : I.Fits K (.var name) := Expr.every_var name
    refine (hen.evalLet .recursive hbs hvar hs).bind hI fun K₁ f hK₁ hf => ?_
    refine (hI.bindName (hI.active_mono hK₁ hs) hf name).bind hI fun K₂ _ _ _ => ?_
    exact hI.pureAtom rfl trivial
  | expander =>
    refine (hI.newExpander name params hb hs).bind hI fun K₁ m hK₁ hm => ?_
    refine (hI.bindName (hI.active_mono hK₁ hs) hm name).bind hI fun K₂ _ _ _ => ?_
    exact hI.pureAtom rfl trivial

/-! ## §5. Calls -/

theorem expanderAt (hI : I.KeptOutside) (hs : I.Knows K scope) (callee : Expr) :
    I.Runs K (fun K' r => ∀ name m, r = some (name, m) → I.Node K' (.expander m))
      (Engine.expanderAt scope callee) (Engine.expanderAt scope callee) := by
  unfold Engine.expanderAt
  split
  · next name =>
    refine .get fun w hw => .ok rfl (later_now hw ?_)
    intro name' m hcall
    obtain ⟨m', hm', heq⟩ := Option.map_eq_some_iff.1 hcall
    cases heq
    exact hI.expander?_node hw hs hm'
  · exact .pure fun _ _ h => absurd h (by simp)

theorem evalCall (hen : I.Engines en en') {callee : Expr}
    {args : Except FormError (List Expr)} {forms : List Value} (hc : I.Fits K callee)
    (ha : ∀ es, args = .ok es → ∀ e ∈ es, I.Fits K e) (hf : I.Lists K forms)
    (hs : I.Active K scope) :
    I.Runs K (fun K' v => I.Good K' v) (en.evalCall ctx scope callee args forms)
      (en'.evalCall ctx scope callee args forms) := by
  have hI := hen.kept
  unfold Engine.evalCall
  refine (expanderAt hI hs.knows callee).bind hI fun K₁ call hK₁ hcall => ?_
  have hs₁ := hI.active_mono hK₁ hs
  cases call with
  | some call =>
    obtain ⟨name, m⟩ := call
    refine (hen.expand _ name (hcall name m rfl) (hI.lists_mono hK₁ hf) hs₁.knows).bind hI
      fun K₂ v hK₂ hv => ?_
    exact hen.evalForm hv (hI.active_mono hK₂ hs₁)
  | none =>
    cases args with
    | error fault => exact .fail hI _
    | ok es =>
      have hes : ∀ e ∈ es, I.Fits K₁ e := fun e he => hI.fits_mono hK₁ (ha es rfl e he)
      refine (hen.eval (hI.fits_mono hK₁ hc) hs₁).bind hI fun K₂ f hK₂ hf₂ => ?_
      refine (hen.evalEach (fun e he => hI.fits_mono hK₂ (hes e he))
        (hI.active_mono hK₂ hs₁)).bind hI fun K₃ vs hK₃ hvs => ?_
      exact hen.apply (hI.good_mono hK₃ hf₂) hvs

/-! ## §6. Steps -/

/-- A step for an expression that makes no function itself. -/
theorem evalOther (hen : I.Engines en en') {e : Expr} (h : I.Fits K e) (hs : I.Active K scope)
    (he : ∀ name params body, e ≠ .lambda name params body) :
    I.Runs K (fun K' v => I.Good K' v) (Engine.evalStep ctx en e scope)
      (Engine.evalStep ctx en' e scope) := by
  have hI := hen.kept
  cases e with
  | literal v => exact hen.evalLiteral (Expr.every_literal.1 h) hs
  | var name => exact evalVar hI hs.knows name
  | ite c t e =>
    obtain ⟨hc, ht, he⟩ := Expr.every_ite.1 h
    refine (hen.eval hc hs).bind hI fun K' v hK _ => ?_
    split
    · exact hen.eval (hI.fits_mono hK ht) (hI.active_mono hK hs)
    · exact hen.eval (hI.fits_mono hK he) (hI.active_mono hK hs)
  | and es => exact hen.evalAnd (hI.atom rfl trivial) (Expr.every_and.1 h) hs
  | or es => exact hen.evalOr (Expr.every_or.1 h) hs
  | sequence es => exact hen.evalSequence (hI.atom rfl trivial) (Expr.every_sequence.1 h) hs
  | call callee args forms =>
    obtain ⟨hc, ha, hf⟩ := Expr.every_call.1 h
    have hargs : ∀ es, Except.ok args = (Except.ok es : Except FormError (List Expr)) →
        ∀ e ∈ es, I.Fits K e := by
      rintro _ ⟨rfl⟩
      exact ha
    exact hen.evalCall hc hargs hf hs
  | deferred callee fault forms =>
    obtain ⟨hc, hf⟩ := Expr.every_deferred.1 h
    have hargs : ∀ es, Except.error fault = (Except.ok es : Except FormError (List Expr)) →
        ∀ e ∈ es, I.Fits K e := fun _ hes => absurd hes (by simp)
    exact hen.evalCall hc hargs hf hs
  | letIn kind bs body =>
    obtain ⟨hbs, hb⟩ := Expr.every_letIn.1 h
    exact hen.evalLet kind hbs hb hs
  | lambda name params body => exact absurd rfl (he name params body)
  | define name e =>
    refine (hen.eval (Expr.every_define.1 h) hs).bind hI fun K₁ v hK₁ hv => ?_
    refine (hI.bindName (hI.active_mono hK₁ hs) hv name).bind hI fun K₂ _ hK₂ _ => ?_
    exact .pure (hI.good_mono hK₂ hv)
  | definition kind name params body =>
    exact hen.evalDefinition kind name params (Expr.every_definition.1 h) hs
  | module name exports body =>
    refine (hen.defineModule name exports (Expr.every_module.1 h) hs).bind hI
      fun K' m _ hm => .pure (Value.every_module.2 hm)
  | importFrom target spec =>
    refine (hen.resolve target hs.knows).bind hI fun K₁ m hK₁ hm => ?_
    refine (hI.importModule hm (hI.active_mono hK₁ hs) spec).bind hI fun K₂ _ hK₂ _ => ?_
    exact .pure (Value.every_module.2 (hI.node_mono hK₂ hm))
  | macroexpand form => exact hen.macroexpand _ (Expr.every_macroexpand.1 h) hs.knows

theorem evalStep (hen : I.Engines en en') (hI : I.Kept) {e : Expr} (h : I.Fits K e)
    (hs : I.Active K scope) :
    I.Runs K (fun K' v => I.Good K' v) (Engine.evalStep ctx en e scope)
      (Engine.evalStep ctx en' e scope) := by
  by_cases he : ∃ name params body, e = .lambda name params body
  · obtain ⟨name, params, body, rfl⟩ := he
    refine (hI.newClosure _ name params (Expr.every_lambda.1 h) hs).bind hen.kept
      fun K' c _ hc => .pure hc
  · refine hen.evalOther h hs ?_
    intro name params body heq
    exact he ⟨name, params, body, heq⟩

/-- A step for the application of anything but a function. -/
theorem applyOther (hen : I.Engines en en') {f : Value} {args : List Value}
    (h : I.Lists K args) (hf : ∀ c, f ≠ .closure c) :
    I.Runs K (fun K' v => I.Good K' v) (Engine.applyStep en f args)
      (Engine.applyStep en' f args) := by
  have hI := hen.kept
  cases f with
  | primitive p => exact Primitive.call_runs hen p h
  | closure c => exact absurd rfl (hf c)
  | expander m => exact .typeError hI _
  | _ => exact .typeError hI _

theorem applyStep (hen : I.Engines en en') (hI : I.Kept) {f : Value} {args : List Value}
    (hf : I.Good K f) (h : I.Lists K args) :
    I.Runs K (fun K' v => I.Good K' v) (Engine.applyStep en f args)
      (Engine.applyStep en' f args) := by
  by_cases hc : ∃ c, f = .closure c
  · obtain ⟨c, rfl⟩ := hc
    exact hen.applyClosure hI (Value.every_closure.1 hf) h
  · refine hen.applyOther h ?_
    intro c heq
    exact hc ⟨c, heq⟩

/-! ## §7. Depths -/

/-- One more level over each of two engines. -/
theorem next (hen : I.Engines en en') (hI : I.Kept) (ctx : Context) :
    I.Engines (en.next ctx) (en'.next ctx) where
  kept := hen.kept
  isolates := ⟨fun e _ => hen.isolates.evalStep e, fun f args => hen.isolates.applyStep f args⟩
  eval h hs := hen.evalStep hI h hs
  apply hf h := hen.applyStep hI hf h

/-- The engine without depth agrees with itself, and under a lax invariant with every engine. -/
theorem exhausted (hI : I.KeptOutside) (h : en = Engine.exhausted ∨ I.lax) :
    I.Engines Engine.exhausted en where
  kept := hI
  isolates := ⟨fun _ _ => Eval.within_throw _, fun _ _ => Eval.within_throw _⟩
  eval := by
    intro K e scope _ _ w hw
    rcases h with rfl | hlax
    · exact Runs.throw hI _ w hw
    · exact .of_ends ⟨.inr ⟨hlax, w, rfl⟩, hI.left_of_holds hw⟩
  apply := by
    intro K f vs _ _ w hw
    rcases h with rfl | hlax
    · exact Runs.throw hI _ w hw
    · exact .of_ends ⟨.inr ⟨hlax, w, rfl⟩, hI.left_of_holds hw⟩

end Invariant.Engines

namespace Invariant.Kept

/-- The engine of every depth keeps an invariant. -/
theorem engines_ofDepth (hI : I.Kept) (ctx : Context) (n : Nat) :
    I.Engines (Engine.ofDepth ctx n) (Engine.ofDepth ctx n) := by
  induction n with
  | zero => exact .exhausted hI.toKeptOutside (.inl rfl)
  | succ n ih => exact ih.next hI ctx

/-- Under a lax invariant, an engine agrees with every engine of more depth. -/
theorem engines_of_le (hI : I.Kept) (hlax : I.lax) (ctx : Context) {m n : Nat} (h : m ≤ n) :
    I.Engines (Engine.ofDepth ctx m) (Engine.ofDepth ctx n) := by
  induction m generalizing n with
  | zero => exact .exhausted hI.toKeptOutside (.inr hlax)
  | succ m ih =>
    cases n with
    | zero => exact absurd h (by simp)
    | succ n => exact (ih (Nat.le_of_succ_le_succ h)).next hI ctx

end Invariant.Kept

end TinyLisp
