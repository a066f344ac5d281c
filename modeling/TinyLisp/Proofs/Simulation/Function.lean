import TinyLisp.Proofs.Simulation.Primitive
import TinyLisp.Eval.Template
import TinyLisp.Eval.Expansion

/-!
# Templates, functions and expanders in step

One lemma for each definition, over engines in step. This is where the strategies show: making
a function pins the bindings that it may capture (`newClosure_sim`), and calling one hangs a
veil on a side that keeps tables (`callScope_sim`).
-/

namespace TinyLisp

open Correspondence

variable {O : Backdrop} {K : Correspondence O} {V : View} {p : Prop} {en en' : Engine}
variable {scope scope' : Scope}

/-! ## §1. Forms and templates -/

theorem Engine.InStep.evalEach (hen : en.InStep O en') {es es' : List Expr}
    (h : List.Forall₂ K.Exprs es es') (hc : ∀ e ∈ es, e.Covered V)
    (hs : K.Stands V scope scope') :
    K.Sim (fun K' vs vs' => K'.Lists vs vs' ∧ vs.length = es.length) (en.evalEach scope es)
      (en'.evalEach scope' es') := by
  induction es generalizing K es' with
  | nil =>
    cases h
    exact .pure ⟨.nil, rfl⟩
  | cons e es ih =>
    cases h with
    | cons he h =>
      unfold Engine.evalEach
      refine (hen.eval K he (hc e (by simp)) hs).bind fun K₁ hK₁ v v' hv => ?_
      have h₁ := h.imp fun _ _ he => Exprs.mono hK₁ he
      have hc₁ : ∀ e ∈ es, e.Covered V := fun e he => hc e (List.mem_cons_of_mem _ he)
      refine (ih h₁ hc₁ (hs.mono hK₁)).bind fun K₂ hK₂ vs vs' hvs => ?_
      exact .pure ⟨.cons (Values.mono hK₂ hv) hvs.1, congrArg (· + 1) hvs.2⟩

theorem Engine.InStep.evalForm (hen : en.InStep O en') {v v' : Value} (h : K.Values v v')
    (hc : ∀ e, Expr.build v = .ok e → e.Covered V) (hs : K.Stands V scope scope') :
    K.Sim Values (en.evalForm scope v) (en'.evalForm scope' v') := by
  have hbuilt := Expr.build_like K.faithful h
  unfold Engine.evalForm
  generalize Expr.build v = x, Expr.build v' = x' at hbuilt hc
  cases hbuilt with
  | ok he => exact hen.eval K he (hc _ rfl) hs
  | error he => exact .fail (.form he)

theorem spliced_sim {v v' : Value} (h : K.Values v v') :
    K.Sim Lists v.spliced v'.spliced := by
  have hitems := h.elements?
  have hm : TypeFault.Alike (.spliceNotAList v) (.spliceNotAList v') :=
    congrArg (fun t => "unquote-splicing expects a proper list, got " ++ t)
      (h.text_eq K.faithful)
  unfold Value.spliced
  generalize v.elements? = items, v'.elements? = items' at hitems
  cases hitems with
  | some hs => exact .pure hs
  | none => exact .typeError hm

/-- Elements and a tail that belong together. -/
def Correspondence.Parts (K : Correspondence O) (p p' : List Value × Value) : Prop :=
  K.Lists p.1 p'.1 ∧ K.Values p.2 p'.2

/-- Fillings that belong together, under the wrapper that both are put in. -/
theorem wrapped_sim {x y : Eval (List Value × Value)} (hxy : K.Sim Parts x y)
    {wrap : Value → Value}
    (hwrap : ∀ {K : Correspondence O} {v v'}, K.Values v v' → K.Values (wrap v) (wrap v')) :
    K.Sim Parts
      (x >>= fun p => Eval.newChain p.2 p.1 >>= fun v => pure ([], wrap v))
      (y >>= fun p => Eval.newChain p.2 p.1 >>= fun v => pure ([], wrap v)) := by
  refine hxy.bind fun K₁ hK₁ p p' hp => ?_
  exact (Sim.newChain hp.2 hp.1).bind fun K₂ hK₂ v v' hv => .pure ⟨.nil, hwrap hv⟩

/-- Templates that belong together are filled to parts that belong together. -/
theorem fillParts_sim {hole hole' : Value → Eval Value}
    (d : Nat) {t t' : Value} (h : K.Values t t')
    (hh : ∀ (K' : Correspondence O), K.Le K' → ∀ {p p'}, p ∈ t.holes d → K'.Values p p' →
      K'.Sim Values (hole p) (hole' p')) :
    K.Sim Parts (t.fillParts hole d) (t'.fillParts hole' d) := by
  induction t generalizing K d t' with
  | pair cell a r iha ihr =>
    cases h with
    | @pair _ _ a' _ r' ha hr =>
      -- an element that is not spliced in is filled by itself
      have helement (hne : ∀ payload, d = 0 → a = .unquoteSplicing payload → False) :
          K.Sim Parts ((Value.pair cell a r).fillParts hole d)
            ((Value.pair cell a' r').fillParts hole' d) := by
        have hne' : ∀ payload, d = 0 → a' = .unquoteSplicing payload → False := by
          intro payload hd ha'
          subst ha'
          cases ha
          exact hne _ hd rfl
        rw [Value.fillParts.eq_2 hole d cell a r hne, Value.fillParts.eq_2 hole' d cell a' r' hne']
        have hha : ∀ K', K.Le K' → ∀ {p p'}, p ∈ a.holes d → K'.Values p p' →
            K'.Sim Values (hole p) (hole' p') :=
          fun K' hK' _ _ hp => hh K' hK' (by simp [Value.holes, hp])
        refine (iha d ha hha).bind fun K₁ hK₁ p p' hp => ?_
        refine (Sim.newChain hp.2 hp.1).bind fun K₂ hK₂ v v' hv => ?_
        have hK := hK₁.trans hK₂
        have hhr : ∀ K', K₂.Le K' → ∀ {p p'}, p ∈ r.holes d → K'.Values p p' →
            K'.Sim Values (hole p) (hole' p') :=
          fun K' hK' _ _ hp => hh K' (hK.trans hK') (by simp [Value.holes, hp])
        refine (ihr d (Values.mono hK hr) hhr).bind fun K₃ hK₃ q q' hq => ?_
        exact .pure ⟨.cons (Values.mono hK₃ hv) hq.1, hq.2⟩
      cases d with
      | succ d => exact helement fun _ hd => absurd hd (by simp)
      | zero =>
        cases ha with
        | unquoteSplicing hp =>
          rw [Value.fillParts.eq_1, Value.fillParts.eq_1]
          refine (hh K (.refl K) (by simp [Value.holes]) hp).bind fun K₁ hK₁ v v' hv => ?_
          refine (spliced_sim hv).bind fun K₂ hK₂ here here' hhere => ?_
          have hK := hK₁.trans hK₂
          have hhr : ∀ K', K₂.Le K' → ∀ {p p'}, p ∈ r.holes 0 → K'.Values p p' →
              K'.Sim Values (hole p) (hole' p') :=
            fun K' hK' _ _ hp => hh K' (hK.trans hK') (by simp [Value.holes, hp])
          refine (ihr 0 (Values.mono hK hr) hhr).bind fun K₃ hK₃ q q' hq => ?_
          exact .pure ⟨List.rel_append (Lists.mono hK₃ hhere) hq.1, hq.2⟩
        | _ => exact helement fun _ _ he => absurd he (by simp)
  | quote v ih =>
    cases h with
    | quote hv =>
      simp only [Value.fillParts]
      exact wrapped_sim (ih d hv fun K' hK' _ _ hp => hh K' hK' (by simpa [Value.holes] using hp)) .quote
  | quasiquote v ih =>
    cases h with
    | quasiquote hv =>
      simp only [Value.fillParts]
      exact wrapped_sim (ih (d + 1) hv fun K' hK' _ _ hp => hh K' hK' (by simpa [Value.holes] using hp))
        .quasiquote
  | unquote v ih =>
    cases h with
    | unquote hv =>
      cases d with
      | zero =>
        exact (hh K (.refl K) (by simp [Value.holes]) hv).bind fun K₁ hK₁ v v' hv => .pure ⟨.nil, hv⟩
      | succ d =>
        exact wrapped_sim (ih d hv fun K' hK' _ _ hp => hh K' hK' (by simpa [Value.holes] using hp))
          .unquote
  | unquoteSplicing v ih =>
    cases h with
    | unquoteSplicing hv =>
      cases d with
      | zero => exact .typeError rfl
      | succ d =>
        exact wrapped_sim (ih d hv fun K' hK' _ _ hp => hh K' hK' (by simpa [Value.holes] using hp))
          .unquoteSplicing
  | _ =>
    cases d <;> cases h <;> exact .pure ⟨.nil, by constructor <;> assumption⟩

theorem Engine.InStep.fillTemplate (hen : en.InStep O en') {t t' : Value} (h : K.Values t t')
    (hc : Expr.Covered V (.literal (.quasiquote t))) (hs : K.Stands V scope scope') :
    K.Sim Values (en.fillTemplate scope t) (en'.fillTemplate scope' t') := by
  unfold Engine.fillTemplate
  have hh : ∀ K', K.Le K' → ∀ {p p'}, p ∈ t.holes 0 → K'.Values p p' →
      K'.Sim Values (en.evalForm scope p) (en'.evalForm scope' p') :=
    fun K' hK' _ _ hmem hp => hen.evalForm hp (fun _ he => hc.of_hole hmem he) (hs.mono hK')
  exact (fillParts_sim 0 h hh).bind fun K₁ hK₁ p p' hp => .newChain hp.2 hp.1

/-! ## §2. Making and calling functions -/

/-- A table of captured slots holds bindings of the moment, and these are pinned. -/
theorem Side.covers_captures (side : Side) (s : Store) (strategy : Strategy) (scope : Scope)
    (free : List String) : (side.pin s).Covers scope (s.captures strategy scope free) := by
  cases strategy with
  | wholeScope => trivial
  | captureTable =>
    cases scope with
    | nil =>
      intro b hb
      exact absurd hb (by simp)
    | cons f rest =>
      intro b hb
      refine ⟨f, rfl, ?_⟩
      obtain ⟨name, -, hname⟩ := List.mem_filterMap.1 hb
      obtain ⟨slot, hslot, rfl⟩ := Option.map_eq_some_iff.1 hname
      exact hslot

/-- Functions made alike belong together, whatever they keep of their scope. -/
theorem newClosure_sim (strategy strategy' : Strategy) (name : Option String) (params : Params)
    {body body' : Expr} (hb : K.Exprs body body') (hc : body.Covered (V.adding params.names))
    (hs : K.Kept V scope scope') :
    K.Sim Closures (Eval.newClosure strategy name params body scope)
      (Eval.newClosure strategy' name params body' scope') := by
  unfold Eval.newClosure
  refine Sim.getPinned fun w w' hw => ?_
  have hK := hw.store.le_pin
  refine (Sim.newBody (Exprs.mono hK hb)).bind fun K₁ hK₁ id id' hid => ?_
  refine .pure ⟨hid.1, rfl, rfl, ⟨V, body, (hs.mono hK).mono hK₁, hid.2, hc⟩, ?_, ?_⟩
  · exact (Side.covers_captures K.left w.store strategy scope _).mono hK₁.left
  · exact (Side.covers_captures K.right w'.store strategy' scope' _).mono hK₁.right

theorem newExpander_sim (name : String) (params : Params) {body body' : Expr}
    (hb : K.Exprs body body') (hc : body.Covered (V.adding params.names))
    (hs : K.Kept V scope scope') :
    K.Sim Expanders (Eval.newExpander name params body scope)
      (Eval.newExpander name params body' scope') := by
  unfold Eval.newExpander
  refine (Sim.newBody hb).bind fun K₁ hK₁ id id' hid => ?_
  exact .pure ⟨hid.1, rfl, rfl, V, body, hs.mono hK₁, hid.2, hc⟩

/-- The scope that a call puts its parameters inside. -/
def Eval.capturedScope (c : Closure) : Eval Scope :=
  match c.captures with
  | .scope => pure c.scope
  | .table slots => do
    let captured ← extend c.scope
    bindSlots captured slots
    pure captured

theorem callScope_eq (c : Closure) : Eval.callScope c = Eval.capturedScope c >>= Eval.extend := by
  unfold Eval.callScope Eval.capturedScope
  cases c.captures with
  | scope => rfl
  | table slots => rfl

/-- On the left a veil is hung, or nothing happens. -/
theorem capturedScope_left {N : String → Prop} {w w' : World} (hw : K.Worlds w w') {c : Closure}
    {S' : Scope} (hne : c.scope ≠ []) (hs : K.Along p N c.scope S')
    (hcov : K.left.Covers c.scope c.captures) :
    ∃ S w₁ K', Eval.capturedScope c w = .ok S w₁ ∧ K.Le K' ∧ K'.Worlds w₁ w' ∧
      K'.Along p N S S' ∧ c.scope <:+ S := by
  obtain ⟨f, rest, hc⟩ := List.exists_cons_of_ne_nil hne
  unfold Eval.capturedScope
  cases hcap : c.captures with
  | scope => exact ⟨c.scope, w, K, rfl, .refl K, hw, hs, List.suffix_rfl⟩
  | table slots =>
    have hpinned : ∀ b ∈ slots, K.left.pinned f b.1 b.2 := by
      intro b hb
      rw [hcap] at hcov
      obtain ⟨g, hg, hp⟩ := hcov b hb
      rw [hc] at hg
      cases hg
      exact hp
    have hK := le_hangLeft K w.store.frames.size f hw.store.not_apart_new
    -- the frame of the table becomes a veil before the frame that the slots were captured in
    refine ⟨w.store.frames.size :: c.scope, _, _, rfl, hK, hw.withStores hK (fun _ _ hb => hb)
      (fun _ _ he => he) (hw.store.hangLeft hpinned), ?_, List.suffix_cons _ _⟩
    rw [hc] at hs ⊢
    exact .left (.inr ⟨rfl, rfl⟩) (hs.mono hK)

/-- On the right a veil is hung, or nothing happens. -/
theorem capturedScope_right {N : String → Prop} {w w' : World} (hw : K.Worlds w w') {c : Closure}
    {S : Scope} (hne : c.scope ≠ []) (hs : K.Along p N S c.scope)
    (hcov : K.right.Covers c.scope c.captures) :
    ∃ S' w₁' K', Eval.capturedScope c w' = .ok S' w₁' ∧ K.Le K' ∧ K'.Worlds w w₁' ∧
      K'.Along p N S S' := by
  obtain ⟨f', rest', hc⟩ := List.exists_cons_of_ne_nil hne
  unfold Eval.capturedScope
  cases hcap : c.captures with
  | scope => exact ⟨c.scope, w', K, rfl, .refl K, hw, hs⟩
  | table slots =>
    have hpinned : ∀ b ∈ slots, K.right.pinned f' b.1 b.2 := by
      intro b hb
      rw [hcap] at hcov
      obtain ⟨g, hg, hp⟩ := hcov b hb
      rw [hc] at hg
      cases hg
      exact hp
    have hK := le_hangRight K w'.store.frames.size f'
    refine ⟨w'.store.frames.size :: c.scope, _, _, rfl, hK, hw.withStores hK (fun _ _ hb => hb)
      (fun _ _ he => he) (hw.store.hangRight hpinned), ?_⟩
    rw [hc] at hs ⊢
    exact .right (.inr ⟨rfl, rfl⟩) (hs.mono hK)

/-- Calls in scopes that are alike open frames in scopes that are alike. -/
theorem callScope_sim {N : String → Prop} {c c' : Closure} (hne : c.scope ≠ [])
    (hne' : c'.scope ≠ []) (hs : K.Along p N c.scope c'.scope)
    (hleft : K.left.Covers c.scope c.captures) (hright : K.right.Covers c'.scope c'.captures) :
    K.Sim (fun K' S S' => ∃ T T', K'.Opened T T' S S' ∧ K'.Along p N T T' ∧ c.scope <:+ T)
      (Eval.callScope c) (Eval.callScope c') := by
  intro w w' hw
  obtain ⟨T, w₁, K₁, hT, hK₁, hw₁, hs₁, hsuffix⟩ := capturedScope_left hw hne hs hleft
  obtain ⟨T', w₁', K₂, hT', hK₂, hw₂, hs₂⟩ :=
    capturedScope_right hw₁ hne' hs₁ (hright.mono hK₁.right)
  rw [callScope_eq, callScope_eq, Eval.bind_of_ok hT, Eval.bind_of_ok hT']
  have he := Sim.extend T T' w₁ w₁' hw₂
  generalize Eval.extend T w₁ = r, Eval.extend T' w₁' = r' at he
  cases he with
  | ok hK hw₃ ho => exact .ok ((hK₁.trans hK₂).trans hK) hw₃ ⟨T, T', ho, hs₂.mono hK, hsuffix⟩
  | error hK hw₃ hh => exact .error ((hK₁.trans hK₂).trans hK) hw₃ hh
  | excused he => exact .excused he

/-- What holds inside a scope holds inside longer ones. -/
theorem Correspondence.Scopes.of_suffix {T T' : Scope}
    (hs : K.Scopes p V scope scope') (hsuffix : scope <:+ T) (halong : K.Along p V.seen T T') :
    K.Scopes p V T T' := by
  obtain ⟨pre, rfl⟩ := hsuffix
  refine ⟨halong, fun n hn => ?_, hs.own.imp_right fun ho => ?_⟩
  · obtain ⟨f, hf, hb⟩ := hs.bound n hn
    exact ⟨f, List.mem_append_right pre hf, hb⟩
  · clear halong
    induction pre with
    | nil => exact ho
    | cons f pre ih => exact O.own_cons f ih

theorem zip_like {vs vs' : List Value} (names : List String) (h : K.Lists vs vs') :
    TableLike K.Values (names.zip vs) (names.zip vs') := by
  induction names generalizing vs vs' with
  | nil => exact .nil
  | cons name names ih =>
    cases h with
    | nil => exact .nil
    | cons hv h => exact .cons ⟨rfl, hv⟩ (ih h)

/-- With a right number of arguments, every parameter is bound. -/
theorem bindParams_sim (params : Params) {args args' : List Value} (h : K.Lists args args')
    (hs : K.Active p V scope scope') (name : String) :
    K.Sim (fun K' _ _ => K'.Active p (V.adding params.names) scope scope')
      (Eval.bindParams params args scope name) (Eval.bindParams params args' scope' name) := by
  unfold Eval.bindParams
  by_cases harity : params.arity.contains args.length = true
  · rw [Eval.checkArity_of_contains harity, Eval.checkArity_of_contains (h.length_eq ▸ harity)]
    have hkeys : (params.fixed.zip args).map Prod.fst = params.fixed :=
      List.map_fst_zip (Params.length_fixed_le harity)
    have hall := Sim.bindAll hs (zip_like params.fixed h)
    rw [hkeys] at hall
    refine hall.bind fun K₁ hK₁ _ _ hs₁ => ?_
    unfold Params.names
    cases params.rest with
    | none =>
      rw [show params.fixed ++ (none : Option String).toList = params.fixed from
        List.append_nil _]
      exact .pure hs₁
    | some rest =>
      have hrest := List.forall₂_drop params.fixed.length (Lists.mono hK₁ h)
      rw [← View.adding_adding]
      exact (Sim.newList hrest).bind fun K₂ hK₂ v v' hv => .bindName (hs₁.mono hK₂) rest hv
  · rw [Eval.checkArity_of_not_contains harity,
      Eval.checkArity_of_not_contains (h.length_eq ▸ harity), h.length_eq]
    exact (Sim.fail (R := fun _ (_ _ : Unit) => False) (.refl _)).bind fun _ _ _ _ h => h.elim

/-- What a call does in its scope: parameters are bound, and the body is evaluated. -/
theorem Engine.InStep.runBody (hen : en.InStep O en') {id id' : Nat} {e : Expr} {params : Params}
    (hid : K.body id id') (hcode : K.code id e) (hcov : e.Covered (V.adding params.names))
    {args args' : List Value} (h : K.Lists args args') (hs : K.Active p V scope scope')
    (name : String) :
    K.Sim Values
      (Eval.bindParams params args scope name >>= fun _ =>
        Eval.body id >>= fun x => en.eval x scope)
      (Eval.bindParams params args' scope' name >>= fun _ =>
        Eval.body id' >>= fun x => en'.eval x scope') := by
  refine (bindParams_sim params h hs name).bind fun K₁ hK₁ _ _ hs₁ => ?_
  refine (Sim.body (hK₁.body _ _ hid) (hK₁.code _ _ hcode)).bind fun K₂ hK₂ x x' hx => ?_
  obtain ⟨hx, rfl⟩ := hx
  exact hen.eval K₂ hx hcov (.active ((hs₁.mono hK₂).imp fun _ => trivial))

theorem Engine.InStep.applyClosure (hen : en.InStep O en') {c c' : Closure}
    (hc : K.Closures c c') {args args' : List Value} (h : K.Lists args args') :
    K.Sim Values (en.applyClosure c args) (en'.applyClosure c' args') := by
  obtain ⟨V, e, hkept, hcode, hcov⟩ := hc.scope
  unfold Engine.applyClosure
  refine (callScope_sim hkept.left_ne hkept.right_ne hkept.scopes.along hc.left hc.right).bind
    fun K₁ hK₁ S S' hcall => ?_
  obtain ⟨T, T', hopen, halong, hsuffix⟩ := hcall
  have hs := hopen.active ((hkept.mono hK₁).scopes.of_suffix hsuffix halong)
  rw [← hc.params, ← K.faithful.label c c' hc]
  exact hen.runBody (hK₁.body _ _ hc.id) (hK₁.code _ _ hcode) hcov (Lists.mono hK₁ h) hs c.label

/-! ## §3. Expansion -/

theorem unquoted_like {v v' : Value} (h : K.Values v v') : K.Values v.unquoted v'.unquoted := by
  have hself := h
  cases h with
  | quote hv => exact hv
  | _ => exact hself

/-- Calls of expanders that belong together. -/
def Correspondence.ExpanderCalls (K : Correspondence O)
    (x x' : String × Expander × List Value) : Prop :=
  x.1 = x'.1 ∧ K.Expanders x.2.1 x'.2.1 ∧ K.Lists x.2.2 x'.2.2

theorem expanderCall?_like {w w' : World} (hw : K.Worlds w w') (hV : V.Whole)
    (hs : K.Scopes p V scope scope') {form form' : Value} (h : K.Values form form') :
    Option.Rel K.ExpanderCalls (w.store.expanderCall? scope form)
      (w'.store.expanderCall? scope' form') := by
  have hitems := h.elements?
  unfold Store.expanderCall?
  generalize form.elements? = items, form'.elements? = items' at hitems
  cases hitems with
  | none => exact .none
  | some hvs =>
    cases hvs with
    | nil => exact .none
    | cons hv hvs =>
      cases hv with
      | symbol name =>
        have hm := hw.store.expander? hs (hV.reads name)
        simp only
        generalize w.store.expander? scope name = m, w'.store.expander? scope' name = m' at hm
        cases hm with
        | none => exact .none
        | some hm => exact .some ⟨rfl, hm, hvs⟩
      | _ => exact .none

theorem Engine.InStep.runExpander (hen : en.InStep O en') (name : String) {m m' : Expander}
    (hm : K.Expanders m m') {args args' : List Value} (h : K.Lists args args') :
    K.Sim Values (en.runExpander name m args) (en'.runExpander name m' args') := by
  obtain ⟨V, e, hkept, hcode, hcov⟩ := hm.scope
  unfold Engine.runExpander
  refine (Sim.extend m.scope m'.scope).bind fun K₁ hK₁ S S' hopen => ?_
  have hs := hopen.active (hkept.mono hK₁).scopes
  rw [← hm.params]
  have hbody := hen.runBody (hK₁.body _ _ hm.id) (hK₁.code _ _ hcode) hcov (Lists.mono hK₁ h) hs name
  have hrun := hbody.bind fun K₂ hK₂ v v' hv => Sim.pure (R := Values) (unquoted_like hv)
  simpa only [bind_assoc] using hrun

theorem Engine.InStep.settle (hen : en.InStep O en') (limit : Nat) (first : String)
    (hV : V.Whole) (hs : K.Scopes p V scope scope') (n : Nat) {form form' : Value}
    (h : K.Values form form') :
    K.Sim Values (en.settle limit first scope n form) (en'.settle limit first scope' n form') := by
  induction n generalizing K form form' with
  | zero =>
    unfold Engine.settle
    refine Sim.get fun w w' hw => ?_
    have hcall := expanderCall?_like hw hV hs h
    generalize w.store.expanderCall? scope form = x, w'.store.expanderCall? scope' form' = x'
      at hcall
    cases hcall with
    | none => exact .pure h
    | some _ => exact .fail (.refl _)
  | succ n ih =>
    unfold Engine.settle
    refine Sim.get fun w w' hw => ?_
    have hcall := expanderCall?_like hw hV hs h
    generalize w.store.expanderCall? scope form = x, w'.store.expanderCall? scope' form' = x'
      at hcall
    cases hcall with
    | none => exact .pure h
    | @some c c' hc =>
      obtain ⟨name, m, args⟩ := c
      obtain ⟨name', m', args'⟩ := c'
      obtain ⟨rfl, hm, hargs⟩ := hc
      refine (hen.runExpander name hm hargs).bind fun K₁ hK₁ v v' hv => ?_
      exact ih (hs.mono hK₁) hv

theorem Engine.InStep.expand (hen : en.InStep O en') (limit : Nat) (name : String)
    {m m' : Expander} (hm : K.Expanders m m') {args args' : List Value}
    (h : K.Lists args args') (hV : V.Whole) (hs : K.Scopes p V scope scope') :
    K.Sim Values (en.expand limit name m args scope) (en'.expand limit name m' args' scope') := by
  unfold Engine.expand
  refine (hen.runExpander name hm h).bind fun K₁ hK₁ v v' hv => ?_
  exact hen.settle limit name hV (hs.mono hK₁) (limit - 1) hv

theorem Engine.InStep.macroexpand (hen : en.InStep O en') (limit : Nat) {form form' : Value}
    (h : K.Values form form') (hV : V.Whole) (hs : K.Scopes p V scope scope') :
    K.Sim Values (en.macroexpand limit form scope) (en'.macroexpand limit form' scope') := by
  unfold Engine.macroexpand
  refine Sim.get fun w w' hw => ?_
  have hcall := expanderCall?_like hw hV hs h
  generalize w.store.expanderCall? scope form = x, w'.store.expanderCall? scope' form' = x'
    at hcall
  cases hcall with
  | none =>
    -- the message shows the head of the form, or the form if it has no head
    have hhead : K.Values (form.elements?.bind List.head? |>.getD form)
        (form'.elements?.bind List.head? |>.getD form') := by
      have hitems := h.elements?
      generalize form.elements? = items, form'.elements? = items' at hitems
      cases hitems with
      | none => exact h
      | some hvs =>
        cases hvs with
        | nil => exact h
        | cons hv _ => exact hv
    simp only
    rw [hhead.text_eq K.faithful]
    exact .fail (.refl _)
  | @some c c' hc =>
    obtain ⟨name, m, args⟩ := c
    obtain ⟨name', m', args'⟩ := c'
    obtain ⟨rfl, hm, hargs⟩ := hc
    exact hen.expand limit name hm hargs hV hs

end TinyLisp
