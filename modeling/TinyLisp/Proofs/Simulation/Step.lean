import TinyLisp.Proofs.Simulation.Module
import TinyLisp.Eval.Step

/-!
# Evaluation in step

One lemma for each special form, over engines in step. A form that binds names, keeps its scope or
calls an expander may ask more of its scopes than that they stand for each other
(`Correspondence.Permits`); then one step of evaluation keeps engines in step, and one step of
application does in any case, whatever the two strategies are. Before the bare backdrop nothing more
is asked (`Engine.inStep_ofDepth`).
-/

namespace TinyLisp

open Correspondence

variable {O : Backdrop} {K : Correspondence O} {V : View} {p : Prop} {en en' : Engine}
variable {ctx ctx' : Context} {scope scope' : Scope}

/-! ## §1. What forms need -/

/-- The expander that a callee names in a scope, with the name. -/
def Store.expanderAt? (s : Store) (scope : Scope) : Expr → Option (String × Expander)
  | .var name => (s.expander? scope name).map fun m => (name, m)
  | _ => none

/-- A form that binds a name in its scope when its parts have been evaluated. -/
def Expr.Writes : Expr → Prop
  | .define .. | .definition .. | .module .. | .importFrom .. => True
  | _ => False

/-- A form that makes something that keeps the scope. A function that a definition makes keeps a
scope inside it. -/
def Expr.Keeps : Expr → Prop
  | .lambda .. | .definition .expander .. | .module .. => True
  | _ => False

/-- A call of an expander. -/
def Expr.Expands (s : Store) (scope : Scope) : Expr → Prop
  | .call callee .. | .deferred callee .. => s.expanderAt? scope callee ≠ none
  | _ => False

/-- Scopes are such as a form needs. What it binds needs frames outside of the backdrop, which may be
behind them only if what the form keeps may keep it; and what a call expands to may refer to any
name. -/
structure Correspondence.Permits (K : Correspondence O) (V : View) (scope scope' : Scope) (s : Store)
    (e : Expr) : Prop where
  keeps : e.Keeps → K.Kept V scope scope'
  writes : e.Writes → K.Active (e.Keeps → O.held) V scope scope'
  expands : e.Expands s scope → V.Whole

/-! ## §2. Special forms -/

theorem Engine.InStep.evalLiteral (hen : en.InStep O en') {v v' : Value} (h : K.Values v v')
    (hc : Expr.Covered V (.literal v)) (hs : K.Stands V scope scope') :
    K.Sim Values (en.evalLiteral scope v) (en'.evalLiteral scope' v') := by
  cases h with
  | quote hv => exact .pure hv
  | quasiquote ht => exact hen.fillTemplate ht hc hs
  | unquote _ => exact .typeError rfl
  | unquoteSplicing _ => exact .typeError rfl
  | _ => exact .pure (by constructor <;> assumption)

theorem evalVar_sim (hs : K.Scopes p V scope scope') {name : String} (hr : V.Reads name) :
    K.Sim Values (Engine.evalVar scope name) (Engine.evalVar scope' name) := by
  unfold Engine.evalVar
  refine (Sim.lookup hs hr).bind fun K₁ hK₁ v v' hv => ?_
  have hself := hv
  cases hv with
  | unspecified => exact .fail (.refl _)
  | _ => exact .pure hself

/-- A list of expressions stays alike under a later correspondence. -/
theorem exprs_mono {K' : Correspondence O} (hK : K.Le K') {es es' : List Expr}
    (h : List.Forall₂ K.Exprs es es') : List.Forall₂ K'.Exprs es es' :=
  h.imp fun _ _ he => Exprs.mono hK he

theorem Engine.InStep.evalAnd (hen : en.InStep O en') (hs : K.Stands V scope scope')
    {last last' : Value} (hl : K.Values last last') {es es' : List Expr}
    (h : List.Forall₂ K.Exprs es es') (hc : ∀ e ∈ es, e.Covered V) :
    K.Sim Values (en.evalAnd scope last es) (en'.evalAnd scope' last' es') := by
  induction es generalizing K es' last last' with
  | nil =>
    cases h
    exact .pure hl
  | cons e es ih =>
    cases h with
    | cons he h =>
      have hrest : ∀ e ∈ es, e.Covered V := fun e he => hc e (List.mem_cons_of_mem _ he)
      unfold Engine.evalAnd
      refine (hen.eval K he (hc _ (by simp)) hs).bind fun K₁ hK₁ v v' hv => ?_
      rw [hv.isTrue_eq]
      split
      · exact ih (hs.mono hK₁) hv (exprs_mono hK₁ h) hrest
      · exact .pure hv

theorem Engine.InStep.evalOr (hen : en.InStep O en') (hs : K.Stands V scope scope')
    {es es' : List Expr} (h : List.Forall₂ K.Exprs es es') (hc : ∀ e ∈ es, e.Covered V) :
    K.Sim Values (en.evalOr scope es) (en'.evalOr scope' es') := by
  induction es generalizing K es' with
  | nil =>
    cases h
    exact .pure (.bool false)
  | cons e es ih =>
    cases h with
    | cons he h =>
      have hrest : ∀ e ∈ es, e.Covered V := fun e he => hc e (List.mem_cons_of_mem _ he)
      unfold Engine.evalOr
      refine (hen.eval K he (hc _ (by simp)) hs).bind fun K₁ hK₁ v v' hv => ?_
      rw [hv.isTrue_eq]
      split
      · exact .pure hv
      · exact ih (hs.mono hK₁) (exprs_mono hK₁ h) hrest

theorem Engine.InStep.evalSequence (hen : en.InStep O en') (hs : K.Stands V scope scope')
    {last last' : Value} (hl : K.Values last last') {es es' : List Expr}
    (h : List.Forall₂ K.Exprs es es') (hc : ∀ e ∈ es, e.Covered V) :
    K.Sim Values (en.evalSequence scope last es) (en'.evalSequence scope' last' es') := by
  induction es generalizing K es' last last' with
  | nil =>
    cases h
    exact .pure hl
  | cons e es ih =>
    cases h with
    | cons he h =>
      have hrest : ∀ e ∈ es, e.Covered V := fun e he => hc e (List.mem_cons_of_mem _ he)
      unfold Engine.evalSequence
      refine (hen.eval K he (hc _ (by simp)) hs).bind fun K₁ hK₁ v v' hv => ?_
      exact ih (hs.mono hK₁) hv (exprs_mono hK₁ h) hrest

/-! ## §3. Local bindings -/

/-- Lists of bindings that belong together, one by one. -/
abbrev Correspondence.Bindings (K : Correspondence O) :
    List (String × Expr) → List (String × Expr) → Prop :=
  BindingsLike K.leaves

theorem bindings_mono {K' : Correspondence O} (hK : K.Le K') {bs bs' : List (String × Expr)}
    (h : K.Bindings bs bs') : K'.Bindings bs bs' :=
  TableLike.mono (fun _ _ he => Exprs.mono hK he) h

/-- Scopes to evaluate the body of a form in. -/
def Correspondence.Suits (K : Correspondence O) (body : Expr) (scope scope' : Scope) : Prop :=
  ∃ V, K.Active True V scope scope' ∧ body.Covered V

theorem Engine.InStep.bindNested (hen : en.InStep O en') {bs bs' : List (String × Expr)}
    (h : K.Bindings bs bs') {body : Expr} (hc : Expr.Covered V (.letIn .sequential bs body))
    (hs : K.Active True V scope scope') :
    K.Sim (fun K' => K'.Suits body) (en.bindNested scope bs) (en'.bindNested scope' bs') := by
  induction bs generalizing K V scope scope' bs' with
  | nil =>
    cases h
    exact .pure ⟨V, hs, hc.of_sequentialNil⟩
  | cons b bs ih =>
    cases h with
    | @cons _ b' _ bs' hb h =>
      obtain ⟨name, init⟩ := b
      obtain ⟨name', init'⟩ := b'
      obtain ⟨rfl, he⟩ := hb
      obtain ⟨hinit, hrest⟩ := hc.of_sequentialCons
      unfold Engine.bindNested
      refine (hen.eval K he hinit (.active hs)).bind fun K₁ hK₁ v v' hv => ?_
      refine (Sim.extend scope scope').bind fun K₂ hK₂ S S' hopen => ?_
      have hK := hK₁.trans hK₂
      have hi := hopen.active (hs.mono hK).scopes
      refine (Sim.bindName hi name (Values.mono hK₂ hv)).bind fun K₃ hK₃ _ _ hi₃ => ?_
      exact ih (bindings_mono (hK.trans hK₃) h) hrest hi₃

theorem Engine.InStep.fillSlots (hen : en.InStep O en') (hs : K.Stands V scope scope')
    {bs bs' : List (String × Expr)} (h : K.Bindings bs bs') (hc : ∀ b ∈ bs, b.2.Covered V)
    (slots : List SlotId) :
    K.Sim same (en.fillSlots scope (bs.zip slots)) (en'.fillSlots scope' (bs'.zip slots)) := by
  induction bs generalizing K bs' slots with
  | nil =>
    cases h
    exact .pure rfl
  | cons b bs ih =>
    cases h with
    | @cons _ b' _ bs' hb h =>
      obtain ⟨name, init⟩ := b
      obtain ⟨name', init'⟩ := b'
      obtain ⟨rfl, he⟩ := hb
      cases slots with
      | nil => exact .pure rfl
      | cons slot slots =>
        rw [List.zip_cons_cons, List.zip_cons_cons]
        unfold Engine.fillSlots
        refine (hen.eval K he (hc _ (by simp)) hs).bind fun K₁ hK₁ v v' hv => ?_
        refine (Sim.fill slot hv).bind fun K₂ hK₂ _ _ _ => ?_
        have hK := hK₁.trans hK₂
        have hrest : ∀ b ∈ bs, b.2.Covered V := fun b hb => hc b (List.mem_cons_of_mem _ hb)
        exact ih (hs.mono hK) (bindings_mono hK h) hrest slots

/-- Opens a frame in which names have slots of their own, still empty. -/
def Eval.extendWith (scope : Scope) (names : List String) : Eval (Scope × List SlotId) := do
  let inner ← extend scope
  let slots ← newSlots names
  bindSlots inner (names.zip slots)
  pure (inner, slots)

/-- Both runs give the names the same slots, for good. -/
theorem extendWith_sim (hs : K.Scopes p V scope scope') (names : List String) :
    K.Sim (fun K' x x' => K'.Active p (V.adding names) x.1 x'.1 ∧ x.2 = x'.2)
      (Eval.extendWith scope names) (Eval.extendWith scope' names) := by
  intro w w' hw
  have hK := hw.store.le_opened
  obtain ⟨hslots, hst⟩ := hw.store.newFrame.newSlots names
  have hempty : (w.store.newFrame.2.newSlots names).2.frame w.store.frames.size = [] := by
    unfold Store.frame
    rw [Store.frames_newSlots]
    exact Store.frame_newFrame_size w.store
  have hbound := hst.bindSlots hw.store.works_opened hempty
    (names.zip (w.store.newFrame.2.newSlots names).1)
  have hpin := hbound.le_pin
  have hnew := (hs.mono hK).inside hw.store.works_opened
  refine .ok (hK.trans hpin) (hw.withStores (hK.trans hpin) (fun _ _ hb => hb) (fun _ _ he => he) ?_)
    ⟨(hnew.mono hpin).adding fun n hn => ?_, hslots⟩
  · show Stores _ (Store.bindSlots _ _ (names.zip (w.store.newFrame.2.newSlots names).1))
      (Store.bindSlots _ _ (names.zip (w'.store.newFrame.2.newSlots names).1))
    rw [← hslots]
    exact hbound.pin
  · -- every name has been given a slot
    refine Store.exists_slotIn?_bindSlots ?_ ?_
    · rw [Store.frames_newSlots, Store.frames_size_newFrame]
      exact Nat.lt_succ_self _
    · rw [Store.newSlots_fst, List.map_fst_zip (by simp)]
      exact .inr hn

theorem letScope_recursive_eq (en : Engine) (scope : Scope) (bs : List (String × Expr)) :
    en.letScope scope .recursive bs =
      (Eval.extendWith scope (bs.map Prod.fst) >>= fun p =>
        en.fillSlots p.1 (bs.zip p.2) >>= fun _ => pure p.1) := rfl

theorem Engine.InStep.letScope (hen : en.InStep O en') (hs : K.Stands V scope scope')
    (kind : LetKind) {bs bs' : List (String × Expr)} (h : K.Bindings bs bs') {body : Expr}
    (hc : Expr.Covered V (.letIn kind bs body)) :
    K.Sim (fun K' => K'.Suits body) (en.letScope scope kind bs) (en'.letScope scope' kind bs') := by
  cases kind with
  | parallel =>
    -- the initial values are all evaluated outside, and then bound in a frame of their own
    obtain ⟨hinits, hbody⟩ := hc.of_parallel
    have hcov : ∀ e ∈ bs.map Prod.snd, e.Covered V := by
      intro e he
      obtain ⟨b, hb, rfl⟩ := List.mem_map.1 he
      exact hinits b hb
    unfold Engine.letScope
    refine (hen.evalEach h.entries hcov hs).bind fun K₁ hK₁ vs vs' hvs => ?_
    refine (Sim.extend scope scope').bind fun K₂ hK₂ S S' hopen => ?_
    have hi := hopen.active (hs.mono (hK₁.trans hK₂)).scopes
    rw [← h.keys_eq]
    have hvs₂ := zip_like (bs.map Prod.fst) (Lists.mono hK₂ hvs.1)
    have hkeys : ((bs.map Prod.fst).zip vs).map Prod.fst = bs.map Prod.fst :=
      List.map_fst_zip (by simp [hvs.2])
    have hall := Sim.bindAll hi hvs₂
    rw [hkeys] at hall
    exact hall.bind fun K₃ hK₃ _ _ hi₃ => .pure ⟨_, hi₃, hbody⟩
  | sequential =>
    cases h with
    | nil =>
      refine (Sim.extend scope scope').weaken fun K₁ hK₁ S S' hopen => ?_
      exact ⟨V, hopen.active (hs.mono hK₁).scopes, hc.of_sequentialNil⟩
    | @cons b b' bs bs' hb h =>
      obtain ⟨name, init⟩ := b
      obtain ⟨name', init'⟩ := b'
      obtain ⟨rfl, he⟩ := hb
      obtain ⟨hinit, hrest⟩ := hc.of_sequentialCons
      unfold Engine.letScope
      refine (Sim.extend scope scope').bind fun K₁ hK₁ S S' hopen => ?_
      have hi := hopen.active (hs.mono hK₁).scopes
      refine (hen.eval K₁ (Exprs.mono hK₁ he) hinit (.active hi)).bind fun K₂ hK₂ v v' hv => ?_
      refine (Sim.bindName (hi.mono hK₂) name hv).bind fun K₃ hK₃ _ _ hi₃ => ?_
      exact hen.bindNested (bindings_mono ((hK₁.trans hK₂).trans hK₃) h) hrest hi₃
  | recursive =>
    -- the names are bound to empty slots before any initial value is evaluated
    obtain ⟨hinits, hbody⟩ := hc.of_recursive
    rw [letScope_recursive_eq, letScope_recursive_eq, ← h.keys_eq]
    refine (extendWith_sim hs.scopes _).bind fun K₁ hK₁ x x' hx => ?_
    obtain ⟨hi, hslots⟩ := hx
    rw [hslots]
    have h₁ := bindings_mono hK₁ h
    refine (hen.fillSlots (.active hi) h₁ hinits x'.2).bind fun K₂ hK₂ _ _ _ => ?_
    exact .pure ⟨_, hi.mono hK₂, hbody⟩

theorem Engine.InStep.evalLet (hen : en.InStep O en') (hs : K.Stands V scope scope')
    (kind : LetKind) {bs bs' : List (String × Expr)} (h : K.Bindings bs bs')
    {body body' : Expr} (hb : K.Exprs body body') (hc : Expr.Covered V (.letIn kind bs body)) :
    K.Sim Values (en.evalLet scope kind bs body) (en'.evalLet scope' kind bs' body') := by
  unfold Engine.evalLet
  refine (hen.letScope hs kind h hc).bind fun K₁ hK₁ S S' hsuits => ?_
  obtain ⟨W, hi, hbody⟩ := hsuits
  exact hen.eval K₁ (Exprs.mono hK₁ hb) hbody (.active hi)

/-- In a frame that is there, a name may be bound first to anything. -/
theorem bindName_first {w : World} {f : FrameId} (hf : f < w.store.frames.size) (name : String)
    (params : Params) (body : Expr) :
    (Eval.newExpander name params body (f :: scope) >>= fun m =>
        Eval.bindName (f :: scope) name (.expander m)) w =
      (Eval.bindName (f :: scope) name .nil >>= fun _ =>
        Eval.newExpander name params body (f :: scope) >>= fun m =>
          Eval.bindName (f :: scope) name (.expander m)) w := by
  show EStateM.Result.ok () _ = EStateM.Result.ok () _
  simp only [Store.bind_bind hf]

theorem Engine.InStep.evalDefinition (hen : en.InStep O en')
    (kind : DefinitionKind) (name : String) (params : Params) {body body' : Expr}
    (hb : K.Exprs body body') (hc : Expr.Covered V (.definition kind name params body))
    (hs : K.Active (Expr.Keeps (.definition kind name params body) → O.held) V scope scope') :
    K.Sim Values (en.evalDefinition scope kind name params body)
      (en'.evalDefinition scope' kind name params body') := by
  unfold Engine.evalDefinition
  cases kind with
  | function =>
    have hself : K.Bindings [(name, .lambda (some name) params body)]
        [(name, .lambda (some name) params body')] :=
      .cons ⟨rfl, .lambda (some name) params hb⟩ .nil
    have hcov : Expr.Covered V
        (.letIn .recursive [(name, .lambda (some name) params body)] (.var name)) := by
      refine .recursive (fun b hmem => ?_) (.var (View.reads_adding V (by simp)))
      obtain rfl := List.mem_singleton.1 hmem
      exact .lambda hc.of_definition
    have hs := hs.imp fun _ => trivial
    refine (hen.evalLet (.active hs) .recursive hself (.var name) hcov).bind
      fun K₁ hK₁ f f' hf => ?_
    refine (Sim.bindName (hs.mono hK₁) name hf).bind fun K₂ hK₂ _ _ _ => ?_
    exact .pure (.symbol name)
  | expander =>
    have hs := hs.imp fun h => h trivial
    have hbound : K.Sim same
        (Eval.newExpander name params body scope >>= fun m =>
          Eval.bindName scope name (.expander m))
        (Eval.newExpander name params body' scope' >>= fun m =>
          Eval.bindName scope' name (.expander m)) := by
      -- the body may refer to the expander itself, so that its name has to be bound before
      intro w w' hw
      have hfirst : K.Sim same
          (Eval.bindName scope name .nil >>= fun _ =>
            Eval.newExpander name params body scope >>= fun m =>
              Eval.bindName scope name (.expander m))
          (Eval.bindName scope' name .nil >>= fun _ =>
            Eval.newExpander name params body' scope' >>= fun m =>
              Eval.bindName scope' name (.expander m)) := by
        refine (Sim.bindName hs name .nil).bind fun K₁ hK₁ _ _ hs₁ => ?_
        refine (newExpander_sim name params (Exprs.mono hK₁ hb) hc.of_definition hs₁.kept).bind
          fun K₂ hK₂ m m' hm => ?_
        exact (Sim.bindName (hs₁.mono hK₂) name (.expander hm)).weaken fun _ _ _ _ _ => rfl
      cases hs with
      | @cons M f f' scope scope' hf =>
        obtain ⟨hlt, hlt'⟩ := hw.store.frame_lt f f' hf.frame
        rw [bindName_first hlt, bindName_first hlt']
        exact hfirst w w' hw
    exact hbound.bind fun K₁ hK₁ _ _ _ => .pure (.symbol name)

/-! ## §4. Calls -/

/-- Expanders that belong together, under the same name. -/
def Correspondence.NamedExpanders (K : Correspondence O) (x x' : String × Expander) : Prop :=
  x.1 = x'.1 ∧ K.Expanders x.2 x'.2

theorem expanderAt?_like {w w' : World} (hw : K.Worlds w w') (hs : K.Scopes p V scope scope')
    {callee callee' : Expr} (h : K.Exprs callee callee') (hc : callee.Covered V) :
    Option.Rel K.NamedExpanders (w.store.expanderAt? scope callee)
      (w'.store.expanderAt? scope' callee') := by
  cases h with
  | var name =>
    have hm := hw.store.expander? hs hc.reads
    unfold Store.expanderAt?
    simp only
    generalize w.store.expander? scope name = m, w'.store.expander? scope' name = m' at hm
    cases hm with
    | none => exact .none
    | some hm => exact .some ⟨rfl, hm⟩
  | _ => exact .none

/-- The expander of a callee is found without changing anything. -/
theorem Engine.expanderAt_eq (w : World) (scope : Scope) (callee : Expr) :
    Engine.expanderAt scope callee w = .ok (w.store.expanderAt? scope callee) w := by
  cases callee <;> rfl

theorem Engine.InStep.evalCall (hen : en.InStep O en') (hctx : ctx.Alike ctx')
    (hs : K.Stands V scope scope') {callee callee' : Expr} (hc : K.Exprs callee callee')
    (hcov : callee.Covered V) {args args' : Except FormError (List Expr)}
    (ha : ResultLike FormError.Alike (List.Forall₂ K.Exprs) args args')
    (hacov : ∀ es, args = .ok es → ∀ e ∈ es, e.Covered V)
    {forms forms' : List Value} (hf : K.Lists forms forms') {w w' : World} (hw : K.Worlds w w')
    (hx : w.store.expanderAt? scope callee ≠ none → V.Whole) :
    K.Ends Values (en.evalCall ctx scope callee args forms w)
      (en'.evalCall ctx' scope' callee' args' forms' w') := by
  have hm := expanderAt?_like hw hs.scopes hc hcov
  unfold Engine.evalCall
  rw [Eval.bind_of_ok (Engine.expanderAt_eq w scope callee),
    Eval.bind_of_ok (Engine.expanderAt_eq w' scope' callee')]
  generalize w.store.expanderAt? scope callee = m, w'.store.expanderAt? scope' callee' = m'
    at hm hx
  refine (?_ : K.Sim Values _ _) w w' hw
  cases hm with
  | @some m m' hm =>
    have hV := hx (by simp)
    obtain ⟨name, m⟩ := m
    obtain ⟨name', m'⟩ := m'
    obtain ⟨rfl, hm⟩ := hm
    simp only
    rw [hctx.expansionLimit]
    refine (hen.expand _ name hm hf hV hs.scopes).bind fun K₁ hK₁ v v' hv => ?_
    exact hen.evalForm hv (fun _ _ => .whole hV) (hs.mono hK₁)
  | none =>
    cases ha with
    | error he => exact .fail (.form he)
    | ok ha =>
      refine (hen.eval K hc hcov hs).bind fun K₁ hK₁ f f' hf => ?_
      have ha₁ := exprs_mono hK₁ ha
      refine (hen.evalEach ha₁ (hacov _ rfl) (hs.mono hK₁)).bind fun K₂ hK₂ vs vs' hvs => ?_
      exact hen.apply K₂ (Values.mono hK₂ hf) hvs.1

/-! ## §5. Every engine -/

/-- One step of evaluation, in scopes such as the form needs. -/
theorem Engine.InStep.evalStep (hen : en.InStep O en') (hctx : ctx.Alike ctx') {e e' : Expr}
    (he : K.Exprs e e') (hc : e.Covered V) (hs : K.Stands V scope scope') {w w' : World}
    (hw : K.Worlds w w') (hp : K.Permits V scope scope' w.store e) :
    K.Ends Values (en.evalStep ctx e scope w) (en'.evalStep ctx' e' scope' w') := by
  -- the expressions are of one kind, so that both runs take the same branch
  cases he with
  | literal hv => exact hen.evalLiteral hv hc hs w w' hw
  | var name => exact evalVar_sim hs.scopes hc.reads w w' hw
  | ite hi ht he =>
    obtain ⟨hci, hct, hce⟩ := hc.of_ite
    refine (?_ : K.Sim Values _ _) w w' hw
    refine (hen.eval K hi hci hs).bind fun K₁ hK₁ v v' hv => ?_
    rw [hv.isTrue_eq]
    split
    · exact hen.eval K₁ (Exprs.mono hK₁ ht) hct (hs.mono hK₁)
    · exact hen.eval K₁ (Exprs.mono hK₁ he) hce (hs.mono hK₁)
  | and h => exact hen.evalAnd hs (.bool true) h hc.of_and w w' hw
  | or h => exact hen.evalOr hs h hc.of_or w w' hw
  | sequence h => exact hen.evalSequence hs .nil h hc.of_sequence w w' hw
  | call hcallee ha hf =>
    obtain ⟨hcc, hca⟩ := hc.of_call
    refine hen.evalCall hctx hs hcallee hcc (.ok ha) ?_ hf hw hp.expands
    rintro es ⟨⟩
    exact hca
  | deferred hcallee hfault hf =>
    refine hen.evalCall hctx hs hcallee hc.of_deferred (.error hfault) ?_ hf hw hp.expands
    rintro es ⟨⟩
  | letIn kind hn hv hb => exact hen.evalLet hs kind (TableLike.of_maps hn hv) hb hc w w' hw
  | lambda name params hb =>
    refine (?_ : K.Sim Values _ _) w w' hw
    refine (newClosure_sim _ _ name params hb hc.of_lambda (hp.keeps trivial)).bind
      fun K₁ hK₁ c c' hc => ?_
    exact .pure (.closure hc)
  | define name he =>
    have hs' := hp.writes trivial
    refine (?_ : K.Sim Values _ _) w w' hw
    refine (hen.eval K he hc.of_define hs).bind fun K₁ hK₁ v v' hv => ?_
    refine (Sim.bindName (hs'.mono hK₁) name hv).bind fun K₂ hK₂ _ _ _ => ?_
    exact .pure (Values.mono hK₂ hv)
  | definition kind name params hb =>
    exact hen.evalDefinition kind name params hb hc (hp.writes trivial) w w' hw
  | module name exports h =>
    have hs' := (hp.writes trivial).imp fun h => h trivial
    refine (?_ : K.Sim Values _ _) w w' hw
    refine (hen.defineModule name exports h hc.of_module hs').bind fun K₁ hK₁ m m' hm => ?_
    exact .pure (.module hm)
  | importFrom target spec =>
    have hs' := hp.writes trivial
    refine (?_ : K.Sim Values _ _) w w' hw
    refine (hen.resolve hctx hc.of_importFrom hs.scopes target).bind fun K₁ hK₁ m m' hm => ?_
    refine (importModule_sim hm (hs'.mono hK₁) spec).bind fun K₂ hK₂ _ _ _ => ?_
    exact .pure (.module (hm.mono hK₂))
  | macroexpand hv =>
    unfold Engine.evalStep
    rw [hctx.expansionLimit]
    exact hen.macroexpand _ hv hc.of_macroexpand hs.scopes w w' hw

theorem Engine.InStep.applyStep (hen : en.InStep O en') {f f' : Value} (hf : K.Values f f')
    {vs vs' : List Value} (h : K.Lists vs vs') :
    K.Sim Values (en.applyStep f vs) (en'.applyStep f' vs') := by
  have hfault : TypeFault.Alike (.notApplicable f) (.notApplicable f') := by
    show "cannot apply " ++ f.text ++ " of type " ++ f.typeName =
      "cannot apply " ++ f'.text ++ " of type " ++ f'.typeName
    rw [hf.text_eq K.faithful, hf.typeName_eq]
  cases hf with
  | primitive p => exact Primitive.call_sim hen p h
  | closure hc => exact hen.applyClosure hc h
  | @expander m m' hm =>
    unfold Engine.applyStep
    simp only
    rw [show m.name = m'.name from hm.name]
    exact .typeError rfl
  | _ => exact .typeError hfault

/-- Before the bare backdrop, scopes that stand for each other are such as every form needs. -/
theorem permits_bare {K : Correspondence Backdrop.bare} (hs : K.Stands V scope scope') (s : Store)
    (e : Expr) : K.Permits V scope scope' s e := by
  cases hs with
  | active hs =>
    refine ⟨fun _ => hs.kept, fun _ => hs.imp fun _ _ => trivial, fun _ => ?_⟩
    exact hs.scopes.own.resolve_right id
  | aside hl _ _ => exact hl.elim

/-- Engines of the same depth are in step: those without depth end alike at once, and each
further level takes one step over the level before. -/
theorem Engine.inStep_ofDepth (hctx : ctx.Alike ctx') (n : Nat) :
    (ofDepth ctx n).InStep Backdrop.bare (ofDepth ctx' n) := by
  induction n with
  | zero =>
    exact ⟨fun _ _ _ _ _ _ _ _ _ => .throw .exhausted, fun _ _ _ _ _ _ _ => .throw .exhausted⟩
  | succ n ih =>
    exact ⟨fun _ _ _ _ _ _ he hc hs w _ hw => ih.evalStep hctx he hc hs hw (permits_bare hs _ _),
      fun _ _ _ _ _ hf h => ih.applyStep hf h⟩

end TinyLisp
