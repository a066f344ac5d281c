import TinyLisp.Proofs.Invariant.Rule

/-!
# Effects keep invariants

What a computation does to the world besides evaluating: frames and bindings, tags, bodies, text
and fresh names. One rule for each, from the facts in `Invariant.KeptOutside` and `Invariant.Kept`.
-/

namespace TinyLisp

open Invariant

variable {I : Invariant} {K : I.Stage} {scope : Scope}

namespace Invariant.KeptOutside

/-! ## §1. Pairs, records and forms -/

theorem newPair (hI : I.KeptOutside) {a d : Value} (ha : I.Good K a) (hd : I.Good K d) :
    I.Runs K (fun K' v => I.Good K' v) (Eval.newPair a d) (Eval.newPair a d) := by
  refine .change fun w hw => ⟨_, _, rfl, ?_⟩
  refine (hI.pair hw ha hd).mono fun K' hK hnode => ?_
  exact Value.every_pair.2 ⟨hnode, hI.good_mono hK ha, hI.good_mono hK hd⟩

theorem newChain (hI : I.KeptOutside) {tail : Value} {vs : List Value} (ht : I.Good K tail)
    (h : I.Lists K vs) :
    I.Runs K (fun K' v => I.Good K' v) (Eval.newChain tail vs) (Eval.newChain tail vs) := by
  induction vs with
  | nil => exact .pure ht
  | cons v vs ih =>
    have hv : I.Good K v := h v (by simp)
    have hvs : I.Lists K vs := fun u hu => h u (by simp [hu])
    unfold Eval.newChain
    exact (ih hvs).bind hI fun K' u hK hu => hI.newPair (hI.good_mono hK hv) hu

theorem newList (hI : I.KeptOutside) {vs : List Value} (h : I.Lists K vs) :
    I.Runs K (fun K' v => I.Good K' v) (Eval.newList vs) (Eval.newList vs) :=
  hI.newChain (hI.atom rfl trivial) h

theorem newRecord (hI : I.KeptOutside) {name : String} {fields : Fields}
    (h : ∀ field ∈ fields, I.Good K field.2) (hn : fields.keys.Nodup) :
    I.Runs K (fun K' v => I.Good K' v) (Eval.newRecord name fields)
      (Eval.newRecord name fields) := by
  refine .change fun w hw => ⟨_, _, rfl, ?_⟩
  refine (hI.record name hw h hn).mono fun K' hK hnode => ?_
  exact Value.every_record.2 ⟨hnode, fun field hf => hI.good_mono hK (h field hf)⟩

/-- A record with a field set is as good as the record was. -/
theorem setRecord (hI : I.KeptOutside) {cell : Nat} {name : String} {fields : Fields}
    (h : I.Good K (.record cell name fields)) {v : Value} (hv : I.Good K v) (f : String) :
    I.Runs K (fun K' v => I.Good K' v) (Eval.newRecord name (fields.set f v))
      (Eval.newRecord name (fields.set f v)) := by
  refine .change fun w hw => ⟨_, _, rfl, ?_⟩
  refine (hI.updated f hw h hv).mono fun K' hK hnode => ?_
  have hfields := Value.every_set (Value.every_record.1 h).2 hv f
  exact Value.every_record.2 ⟨hnode, fun field hf => hI.good_mono hK (hfields field hf)⟩

/-- A form just read is good once it has its tags. -/
theorem tagForm (hI : I.KeptOutside) {form : Value} (h : Datum form) :
    I.Runs K (fun K' v => I.Good K' v) (Eval.tagForm form) (Eval.tagForm form) :=
  .change fun _ hw => ⟨_, _, rfl, hI.form hw h⟩

/-! ## §2. Text and fresh names -/

theorem write (hI : I.KeptOutside) (s : String) :
    I.Runs K (fun _ _ => True) (Eval.write s) (Eval.write s) :=
  .change fun _ hw => ⟨_, _, rfl, hI.output _ hw⟩

theorem freshName (hI : I.KeptOutside) (stem : String) :
    I.Runs K (fun K' v => I.Good K' v) (Eval.gensym stem) (Eval.gensym stem) :=
  .change fun _ hw => ⟨_, _, rfl, (hI.gensym stem hw).mono fun _ _ _ => hI.atom rfl trivial⟩

/-! ## §3. Frames and names -/

/-- A new frame inside a known scope may be worked in, and may become the frame of a module. -/
theorem openFrame (hI : I.KeptOutside) (h : I.Knows K scope) :
    I.Runs K (fun K' inner => I.Active K' inner ∧
        ∃ f, inner = f :: scope ∧ I.Complete K' f)
      (Eval.extend scope) (Eval.extend scope) := by
  refine .change fun w hw => ⟨_, _, rfl, ?_⟩
  refine (hI.extend hw).mono fun K' hK hf => ?_
  exact ⟨hI.active_cons hf.1 (hI.knows_mono hK h), w.store.frames.size, rfl, hf.2⟩

theorem bindName (hI : I.KeptOutside) (hs : I.Active K scope) {v : Value} (hv : I.Good K v)
    (name : String) :
    I.Runs K (fun _ _ => True) (Eval.bindName scope name v) (Eval.bindName scope name v) := by
  cases scope with
  | nil => exact .pure trivial
  | cons f rest => exact .change fun _ hw => ⟨_, _, rfl, hI.bind name hw (hs.works f rfl) hv⟩

/-- Several bindings are bindings one after another. -/
theorem bindAll (hI : I.KeptOutside) (hs : I.Active K scope) {bs : List (String × Value)}
    (h : ∀ b ∈ bs, I.Good K b.2) :
    I.Runs K (fun _ _ => True) (Eval.bindAll scope bs) (Eval.bindAll scope bs) := by
  cases scope with
  | nil => exact .pure trivial
  | cons f rest =>
    refine .change fun w hw => ⟨_, _, rfl, ?_⟩
    induction bs generalizing K w with
    | nil => exact later_now hw trivial
    | cons b bs ih =>
      obtain ⟨name, v⟩ := b
      have hv : I.Good K v := h (name, v) (by simp)
      obtain ⟨K₁, hK₁, hw₁, -⟩ := hI.bind name hw (hs.works f rfl) hv
      have hrest : ∀ b ∈ bs, I.Good K₁ b.2 :=
        fun b hb => hI.good_mono hK₁ (h b (by simp [hb]))
      exact Later.since hK₁ (ih hrest (hI.active_mono hK₁ hs) _ hw₁)

/-- A session can begin once the primitive operations are bound to their names. -/
theorem start (hI : I.KeptOutside) (hw : I.Holds K World.initial) (hroot : I.Works K rootFrame) :
    ∃ K', I.Holds K' Session.primitiveWorld ∧ I.Works K' rootFrame := by
  have hbs : ∀ b ∈ Primitive.all.map (fun p => (p.name, Value.primitive p)), I.Good K b.2 := by
    intro b hb
    obtain ⟨p, -, rfl⟩ := List.mem_map.1 hb
    exact hI.atom rfl trivial
  obtain ⟨K', hK, hw', -⟩ := (hI.bindAll (hI.active_root hroot) hbs _ hw).ends
  exact ⟨K', hw', hI.works_mono hK hroot⟩

/-- A name stands for nothing, for no value yet, or for a good value. -/
theorem lookupName (hI : I.KeptOutside) (hs : I.Knows K scope) (name : String) :
    I.Runs K (fun K' v => v ≠ .unspecified → I.Good K' v) (Eval.lookup scope name)
      (Eval.lookup scope name) := by
  refine .get fun w hw => ?_
  have hgood : Yields (fun v => v ≠ .unspecified → I.Good K v) (w.store.lookup scope name) :=
    fun _ hv hne => hI.lookup hw hs hv hne
  exact Runs.ofExcept hI hgood w hw

/-- An expander that a name stands for is good. -/
theorem expander?_node (hI : I.KeptOutside) {w : World} (hw : I.Holds K w) (hs : I.Knows K scope)
    {name : String} {m : Expander} (h : w.store.expander? scope name = some m) :
    I.Node K (.expander m) := by
  unfold Store.expander? at h
  split at h
  · next m' hm =>
    cases h
    exact (hI.lookup hw hs hm (by simp)).self
  · exact absurd h (by simp)

/-! ## §4. Bodies -/

theorem newExpander (hI : I.KeptOutside) (name : String) (params : Params) {body : Expr}
    (hb : I.Fits K body) (hs : I.Active K scope) :
    I.Runs K (fun K' m => I.Good K' (.expander m)) (Eval.newExpander name params body scope)
      (Eval.newExpander name params body scope) := by
  refine .change fun w hw => ⟨_, _, rfl, ?_⟩
  exact (hI.expander name params hw hs hb).mono fun K' _ hnode => Value.every_expander.2 hnode

theorem closureBody (hI : I.KeptOutside) {c : Closure} (h : I.Node K (.closure c)) :
    I.Runs K (fun K' e => I.Fits K' e) (Eval.body c.id) (Eval.body c.id) :=
  .change fun _ hw => ⟨_, _, rfl, later_now hw (hI.closure_body hw h)⟩

theorem expanderBody (hI : I.KeptOutside) {m : Expander} (h : I.Node K (.expander m)) :
    I.Runs K (fun K' e => I.Fits K' e) (Eval.body m.id) (Eval.body m.id) :=
  .change fun _ hw => ⟨_, _, rfl, later_now hw (hI.expander_body hw h)⟩

/-- The values that parameters are given are good if the arguments are. -/
theorem bindParams (hI : I.KeptOutside) (params : Params) {args : List Value}
    (hs : I.Active K scope) (h : I.Lists K args) (name : String) :
    I.Runs K (fun _ _ => True) (Eval.bindParams params args scope name)
      (Eval.bindParams params args scope name) := by
  unfold Eval.bindParams
  refine (Runs.checkArity hI _ _ _).bind hI fun K₁ _ hK₁ _ => ?_
  have hfixed : ∀ b ∈ params.fixed.zip args, I.Good K₁ b.2 := by
    intro b hb
    exact hI.good_mono hK₁ (h b.2 (List.of_mem_zip hb).2)
  refine (hI.bindAll (hI.active_mono hK₁ hs) hfixed).bind hI fun K₂ _ hK₂ _ => ?_
  have hK := hK₁.trans hK₂
  cases params.rest with
  | none => exact .pure trivial
  | some rest =>
    have hdrop : I.Lists K₂ (args.drop params.fixed.length) :=
      fun v hv => hI.good_mono hK (h v (List.mem_of_mem_drop hv))
    refine (hI.newList hdrop).bind hI fun K₃ v hK₃ hv => ?_
    exact hI.bindName (hI.active_mono (hK.trans hK₃) hs) hv rest

end Invariant.KeptOutside

theorem Invariant.Kept.newClosure (hI : I.Kept) (strategy : Strategy) (name : Option String)
    (params : Params) {body : Expr} (hb : I.Fits K body) (hs : I.Active K scope) :
    I.Runs K (fun K' c => I.Good K' (.closure c))
      (Eval.newClosure strategy name params body scope)
      (Eval.newClosure strategy name params body scope) := by
  refine .change fun w hw => ⟨_, _, rfl, ?_⟩
  exact (hI.closure strategy name params hw hs hb).mono fun K' _ hnode =>
    Value.every_closure.2 hnode

/-! ## §5. Engines -/

/-- Two engines, of which the first isolates frames, agree and end well: in evaluating an
expression that fits in a scope where work goes on, and in applying good values. -/
structure Invariant.Engines (I : Invariant) (en en' : Engine) : Prop where
  kept : I.KeptOutside
  isolates : en.Isolates
  eval : ∀ {K : I.Stage} {e : Expr} {scope : Scope}, I.Fits K e → I.Active K scope →
    I.Runs K (fun K' v => I.Good K' v) (en.eval e scope) (en'.eval e scope)
  apply : ∀ {K : I.Stage} {f : Value} {vs : List Value}, I.Good K f → I.Lists K vs →
    I.Runs K (fun K' v => I.Good K' v) (en.apply f vs) (en'.apply f vs)

variable {en en' : Engine}

namespace Invariant.Engines

theorem evalEach (hen : I.Engines en en') {es : List Expr} (h : ∀ e ∈ es, I.Fits K e)
    (hs : I.Active K scope) :
    I.Runs K (fun K' vs => I.Lists K' vs) (en.evalEach scope es) (en'.evalEach scope es) := by
  induction es generalizing K with
  | nil => exact .pure fun _ hv => absurd hv (by simp)
  | cons e es ih =>
    have hI := hen.kept
    unfold Engine.evalEach
    refine (hen.eval (h e (by simp)) hs).bind hI fun K₁ v hK₁ hv => ?_
    have hes : ∀ e ∈ es, I.Fits K₁ e := fun e he => hI.fits_mono hK₁ (h e (by simp [he]))
    refine (ih hes (hI.active_mono hK₁ hs)).bind hI fun K₂ vs hK₂ hvs => ?_
    refine .pure ?_
    intro u hu
    rcases List.mem_cons.1 hu with rfl | hu
    · exact hI.good_mono hK₂ hv
    · exact hvs u hu

theorem evalForm (hen : I.Engines en en') {form : Value} (h : I.Good K form)
    (hs : I.Active K scope) :
    I.Runs K (fun K' v => I.Good K' v) (en.evalForm scope form) (en'.evalForm scope form) := by
  unfold Engine.evalForm
  cases he : Expr.build form with
  | ok e => exact hen.eval (hen.kept.built h he) hs
  | error fault => exact .fail hen.kept _

/-! ## §6. Templates -/

theorem spliced (hI : I.KeptOutside) {v : Value} (h : I.Good K v) :
    I.Runs K (fun K' vs => I.Lists K' vs) v.spliced v.spliced := by
  unfold Value.spliced
  cases hvs : v.elements? with
  | some vs => exact .pure (h.elements? hvs)
  | none => exact .typeError hI _

/-- The parts of a filled template are good. -/
def Parts (I : Invariant) (K : I.Stage) (p : List Value × Value) : Prop :=
  I.Lists K p.1 ∧ I.Good K p.2

/-- A filling under a wrapper. -/
theorem wrapped (hI : I.KeptOutside) {x y : Eval (List Value × Value)}
    (h : I.Runs K (fun K' p => Parts I K' p) x y) {wrap : Value → Value}
    (hwrap : ∀ {K : I.Stage} {v : Value}, I.Good K v → I.Good K (wrap v)) :
    I.Runs K (fun K' p => Parts I K' p)
      (x >>= fun p => Eval.newChain p.2 p.1 >>= fun v => pure ([], wrap v))
      (y >>= fun p => Eval.newChain p.2 p.1 >>= fun v => pure ([], wrap v)) := by
  refine h.bind hI fun K₁ p hK₁ hp => ?_
  refine (hI.newChain hp.2 hp.1).bind hI fun K₂ v hK₂ hv => ?_
  exact .pure ⟨fun _ hu => absurd hu (by simp), hwrap hv⟩

/-- A good template is filled with good parts. -/
theorem fillParts (hI : I.KeptOutside) {hole hole' : Value → Eval Value}
    (hh : ∀ K', K ≤ K' → ∀ {p : Value}, I.Good K' p →
      I.Runs K' (fun K' v => I.Good K' v) (hole p) (hole' p))
    (d : Nat) {t : Value} (h : I.Good K t) :
    I.Runs K (fun K' p => Parts I K' p) (t.fillParts hole d) (t.fillParts hole' d) := by
  have hnone : ∀ {K : I.Stage} {v : Value}, I.Good K v → Parts I K ([], v) :=
    fun hv => ⟨fun _ hu => absurd hu (by simp), hv⟩
  -- the cases are those of the definition: a splice in the place of an element, an element, a
  -- hole, a wrapper, and a datum kept as it is
  fun_induction Value.fillParts hole d t generalizing K with
  | case1 cell payload r ihr =>
    obtain ⟨-, hsplice, hr⟩ := Value.every_pair.1 h
    rw [Value.fillParts.eq_1]
    refine (hh K (le_refl K) (Value.every_unquoteSplicing.1 hsplice).2).bind hI
      fun K₁ v hK₁ hv => ?_
    refine (spliced hI hv).bind hI fun K₂ here hK₂ hhere => ?_
    have hK := hK₁.trans hK₂
    refine (ihr (fun K' hK' => hh K' (hK.trans hK')) (hI.good_mono hK hr)).bind hI
      fun K₃ q hK₃ hq => ?_
    refine .pure ⟨?_, hq.2⟩
    intro u hu
    rcases List.mem_append.1 hu with hu | hu
    · exact hI.good_mono hK₃ (hhere u hu)
    · exact hq.1 u hu
  | case2 d cell a r hne iha ihr =>
    obtain ⟨-, ha, hr⟩ := Value.every_pair.1 h
    rw [Value.fillParts.eq_2 hole' d cell a r hne]
    refine (iha hh ha).bind hI fun K₁ p hK₁ hp => ?_
    refine (hI.newChain hp.2 hp.1).bind hI fun K₂ v hK₂ hv => ?_
    have hK := hK₁.trans hK₂
    refine (ihr (fun K' hK' => hh K' (hK.trans hK')) (hI.good_mono hK hr)).bind hI
      fun K₃ q hK₃ hq => ?_
    refine .pure ⟨?_, hq.2⟩
    intro u hu
    rcases List.mem_cons.1 hu with rfl | hu
    · exact hI.good_mono hK₃ hv
    · exact hq.1 u hu
  | case3 payload =>
    refine (hh K (le_refl K) (Value.every_unquote.1 h).2).bind hI fun K₁ v hK₁ hv => ?_
    exact .pure (hnone hv)
  | case4 d v ih =>
    exact wrapped hI (ih hh (Value.every_unquote.1 h).2)
      fun hv => Value.every_unquote.2 ⟨hI.plain trivial, hv⟩
  | case5 v => exact .typeError hI _
  | case6 d v ih =>
    exact wrapped hI (ih hh (Value.every_unquoteSplicing.1 h).2)
      fun hv => Value.every_unquoteSplicing.2 ⟨hI.plain trivial, hv⟩
  | case7 d v ih =>
    simp only [Value.fillParts]
    exact wrapped hI (ih hh (Value.every_quasiquote.1 h).2)
      fun hv => Value.every_quasiquote.2 ⟨hI.plain trivial, hv⟩
  | case8 d v ih =>
    simp only [Value.fillParts]
    exact wrapped hI (ih hh (Value.every_quote.1 h).2)
      fun hv => Value.every_quote.2 ⟨hI.plain trivial, hv⟩
  | case9 d v h1 h2 h3 h4 h5 h6 h7 h8 =>
    rw [Value.fillParts.eq_9 hole' d v (by assumption) (by assumption) (by assumption)
      (by assumption) (by assumption) (by assumption) (by assumption) (by assumption)]
    exact .pure (hnone h)

theorem fillTemplate (hen : I.Engines en en') {t : Value} (h : I.Good K t)
    (hs : I.Active K scope) :
    I.Runs K (fun K' v => I.Good K' v) (en.fillTemplate scope t)
      (en'.fillTemplate scope t) := by
  have hI := hen.kept
  unfold Engine.fillTemplate
  have hh : ∀ K', K ≤ K' → ∀ {p : Value}, I.Good K' p →
      I.Runs K' (fun K' v => I.Good K' v) (en.evalForm scope p) (en'.evalForm scope p) :=
    fun K' hK' _ hp => hen.evalForm hp (hI.active_mono hK' hs)
  exact (fillParts hI hh 0 h).bind hI fun K₁ p _ hp => hI.newChain hp.2 hp.1

end Invariant.Engines

end TinyLisp
