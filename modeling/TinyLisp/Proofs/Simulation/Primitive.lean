import TinyLisp.Proofs.Simulation.Run

/-!
# Primitive operations in step

An operation applied to arguments that belong together gives results that belong together. Only
`apply` and `map` ask the engines, and these are taken to be in step already.
-/

namespace TinyLisp

open Correspondence

variable {O : Backdrop} {K : Correspondence O} {en en' : Engine}

/-- Engines in step before a backdrop: they evaluate expressions that belong together in scopes that
are alike as far as these refer to them, and apply values that belong together, to ends that belong
together. -/
structure Engine.InStep (O : Backdrop) (en en' : Engine) : Prop where
  eval : ∀ (K : Correspondence O) {V : View} {e e' : Expr} {scope scope' : Scope}, K.Exprs e e' →
    e.Covered V → K.Stands V scope scope' → K.Sim Values (en.eval e scope) (en'.eval e' scope')
  apply : ∀ (K : Correspondence O) {f f' : Value} {vs vs' : List Value}, K.Values f f' →
    K.Lists vs vs' → K.Sim Values (en.apply f vs) (en'.apply f' vs')

/-! ## §1. Shapes of argument lists -/

section

variable {α β : Type} {R : α → β → Prop} {xs : List α} {ys : List β}

theorem forall₂_of_length_one (h : List.Forall₂ R xs ys) (hl : xs.length = 1) :
    ∃ a b, xs = [a] ∧ ys = [b] ∧ R a b := by
  obtain ⟨a, rfl⟩ := List.length_eq_one_iff.1 hl
  cases h with
  | cons ha h =>
    cases h
    exact ⟨a, _, rfl, rfl, ha⟩

theorem forall₂_of_length_two (h : List.Forall₂ R xs ys) (hl : xs.length = 2) :
    ∃ a₁ a₂ b₁ b₂, xs = [a₁, a₂] ∧ ys = [b₁, b₂] ∧ R a₁ b₁ ∧ R a₂ b₂ := by
  obtain ⟨a₁, a₂, rfl⟩ := List.length_eq_two.1 hl
  cases h with
  | cons h₁ h =>
    obtain ⟨_, _, heq, rfl, h₂⟩ := forall₂_of_length_one h rfl
    cases heq
    exact ⟨a₁, a₂, _, _, rfl, rfl, h₁, h₂⟩

theorem forall₂_of_length_three (h : List.Forall₂ R xs ys) (hl : xs.length = 3) :
    ∃ a₁ a₂ a₃ b₁ b₂ b₃, xs = [a₁, a₂, a₃] ∧ ys = [b₁, b₂, b₃] ∧ R a₁ b₁ ∧ R a₂ b₂ ∧
      R a₃ b₃ := by
  obtain ⟨a₁, a₂, a₃, rfl⟩ := List.length_eq_three.1 hl
  cases h with
  | cons h₁ h =>
    obtain ⟨_, _, _, _, heq, rfl, h₂, h₃⟩ := forall₂_of_length_two h rfl
    cases heq
    exact ⟨a₁, a₂, a₃, _, _, _, rfl, rfl, h₁, h₂, h₃⟩

theorem forall₂_of_length_pos (h : List.Forall₂ R xs ys) (hl : 1 ≤ xs.length) :
    ∃ a b as bs, xs = a :: as ∧ ys = b :: bs ∧ R a b ∧ List.Forall₂ R as bs := by
  cases h with
  | nil => exact absurd hl (by simp)
  | cons ha h => exact ⟨_, _, _, _, rfl, rfl, ha, h⟩

theorem forall₂_dropLast (h : List.Forall₂ R xs ys) :
    List.Forall₂ R xs.dropLast ys.dropLast := by
  rw [List.dropLast_eq_take, List.dropLast_eq_take, h.length_eq]
  exact List.forall₂_take _ h

theorem forall₂_getLast? (h : List.Forall₂ R xs ys) :
    Option.Rel R xs.getLast? ys.getLast? := by
  induction h with
  | nil => exact .none
  | cons ha h ih =>
    cases h with
    | nil => exact .some ha
    | cons hb h =>
      rw [List.getLast?_cons_cons, List.getLast?_cons_cons]
      exact ih

theorem forall₂_getElem? (h : List.Forall₂ R xs ys) (i : Nat) :
    Option.Rel R xs[i]? ys[i]? := by
  induction h generalizing i with
  | nil =>
    rw [List.getElem?_nil, List.getElem?_nil]
    exact .none
  | cons ha h ih =>
    cases i with
    | zero => exact .some ha
    | succ i =>
      rw [List.getElem?_cons_succ, List.getElem?_cons_succ]
      exact ih i

end

/-! ## §2. Parts of operations -/

theorem Correspondence.Lists.prints_eq {style : Style} {vs vs' : List Value}
    (h : K.Lists vs vs') : vs.map (Value.print style) = vs'.map (Value.print style) := by
  induction h with
  | nil => rfl
  | cons hv _ ih =>
    rw [List.map_cons, List.map_cons, ih, Value.Like.print_eq K.faithful style hv]

namespace Correspondence.Sim

variable {α β : Type}

theorem expect {R : Correspondence O → α → β → Prop} {x : Except TypeFault α}
    {y : Except TypeFault β} (h : ArgumentLike (R K) x y) :
    K.Sim R (Eval.expect x) (Eval.expect y) := by
  cases h with
  | ok hab => exact pure hab
  | error he => exact typeError he

theorem boolean {b b' : Bool} (h : b = b') :
    K.Sim Values (Pure.pure (Value.bool b)) (Pure.pure (Value.bool b')) := by
  subst h
  exact pure (.bool b)

theorem integer {n n' : Int64} (h : n = n') :
    K.Sim Values (Pure.pure (Value.int n)) (Pure.pure (Value.int n')) := by
  subst h
  exact pure (.int n)

theorem number (x : Number) :
    K.Sim Values (Pure.pure x.toValue) (Pure.pure x.toValue) := by
  cases x with
  | int n => exact pure (.int n)
  | float x => exact pure (.float x)

theorem print (style : Style) {vs vs' : List Value} (h : K.Lists vs vs') (end_ : String) :
    K.Sim Values (Eval.print style vs end_) (Eval.print style vs' end_) := by
  unfold Eval.print
  rw [h.prints_eq]
  exact (write _).bind fun K' _ _ _ _ => pure .nil

theorem newRecord (name : String) {fs fs' : Fields} (h : FieldsLike K.leaves fs fs') :
    K.Sim Values (Eval.newRecord name fs) (Eval.newRecord name fs') := by
  refine newTag.bind fun K' hK n n' hn => ?_
  subst hn
  exact pure (Values.mono hK (.record_of_fields n name h))

end Correspondence.Sim

theorem Engine.InStep.applyEach (hen : en.InStep O en') {f f' : Value} (hf : K.Values f f')
    {vs vs' : List Value} (h : K.Lists vs vs') :
    K.Sim Lists (en.applyEach f vs) (en'.applyEach f' vs') := by
  induction vs generalizing K vs' with
  | nil =>
    cases h
    exact .pure .nil
  | cons v vs ih =>
    cases h with
    | cons hv h =>
      unfold Engine.applyEach
      refine (hen.apply K hf (.cons hv .nil)).bind fun K₁ hK₁ w w' hw => ?_
      refine (ih (Values.mono hK₁ hf) (Lists.mono hK₁ h)).bind fun K₂ hK₂ ws ws' hws => ?_
      exact .pure (.cons (Values.mono hK₂ hw) hws)

namespace Primitive

variable {a a' b b' c c' : Value} {args args' : List Value}

/-! ## §3. Operations -/

theorem fault_sim {α β : Type} {R : Correspondence O → α → β → Prop} (p : Primitive)
    (f : PrimitiveFault) : K.Sim R (p.fault f : Eval α) (p.fault f : Eval β) :=
  Sim.fail (.refl _)

theorem compare_sim (onInts : Int64 → Int64 → Bool) (onFloats : Float → Float → Bool)
    (ha : K.Values a a') (hb : K.Values b b') :
    K.Sim Values (compare onInts onFloats a b) (compare onInts onFloats a' b') := by
  unfold compare
  have hargs := Number.ofValues_like K.faithful (.cons ha (.cons hb .nil))
  refine (Sim.expect (R := same) hargs).bind fun K' hK ns ns' hns => ?_
  subst hns
  split
  · exact Sim.boolean rfl
  · exact Sim.boolean rfl

theorem divide_sim (ha : K.Values a a') (hb : K.Values b b') :
    K.Sim Values (divide a b) (divide a' b') := by
  unfold divide
  have hargs := Number.ofValues_like K.faithful (.cons ha (.cons hb .nil))
  refine (Sim.expect (R := same) hargs).bind fun K' hK ns ns' hns => ?_
  subst hns
  split
  · split
    · exact Sim.number _
    · exact fault_sim _ _
  · exact fault_sim _ _

theorem modulo_sim (ha : K.Values a a') (hb : K.Values b b') :
    K.Sim Values (modulo a b) (modulo a' b') := by
  unfold modulo
  refine (Sim.expect (R := same) (Value.expectInt_like ha)).bind fun K₁ hK₁ m m' hm => ?_
  subst hm
  have hb₁ := Value.expectInt_like (Values.mono hK₁ hb)
  refine (Sim.expect (R := same) hb₁).bind fun K₂ hK₂ n n' hn => ?_
  subst hn
  cases remainder? m n with
  | some r => exact Sim.integer rfl
  | none => exact fault_sim _ _

theorem lengthOf_sim (ha : K.Values a a') : K.Sim Values (lengthOf a) (lengthOf a') := by
  have hlist : K.Sim Values
      (Eval.expect a.expectList >>= fun vs => Pure.pure (.int (Int64.ofNat vs.length)))
      (Eval.expect a'.expectList >>= fun vs => Pure.pure (.int (Int64.ofNat vs.length))) := by
    refine (Sim.expect (R := Lists) (Value.expectList_like ha)).bind fun K' hK vs vs' hvs => ?_
    exact Sim.integer (by rw [hvs.length_eq])
  cases ha with
  | string s => exact Sim.integer rfl
  | _ => exact hlist

theorem appendAll_sim (h : K.Lists args args') :
    K.Sim Values (appendAll args) (appendAll args') := by
  have hlast := forall₂_getLast? h
  have hinit := Value.expectLists_like (forall₂_dropLast h)
  unfold appendAll
  generalize args.getLast? = x, args'.getLast? = x' at hlast
  cases hlast with
  | none => exact Sim.pure .nil
  | some hv =>
    refine (Sim.expect (R := Lists) hinit).bind fun K' hK vs vs' hvs => ?_
    exact Sim.newChain (Values.mono hK hv) hvs

theorem elementAt_sim (ha : K.Values a a') (hb : K.Values b b') :
    K.Sim Values (elementAt a b) (elementAt a' b') := by
  unfold elementAt
  refine (Sim.expect (R := Lists) (Value.expectList_like ha)).bind fun K₁ hK₁ vs vs' hvs => ?_
  have hb₁ := Value.expectInt_like (Values.mono hK₁ hb)
  refine (Sim.expect (R := same) hb₁).bind fun K₂ hK₂ i i' hi => ?_
  subst hi
  have hget : Option.Rel K₂.Values (if i < 0 then none else vs[i.toInt.toNat]?)
      (if i < 0 then none else vs'[i.toInt.toNat]?) := by
    split
    · exact .none
    · exact forall₂_getElem? (Lists.mono hK₂ hvs) _
  generalize (if i < 0 then none else vs[i.toInt.toNat]?) = x,
    (if i < 0 then none else vs'[i.toInt.toNat]?) = x' at hget
  cases hget with
  | some hv => exact Sim.pure hv
  | none =>
    simp only
    rw [hvs.length_eq]
    exact fault_sim _ _

theorem spread_sim (hen : en.InStep O en') (ha : K.Values a a') (h : K.Lists args args') :
    K.Sim Values (spread en a args) (spread en' a' args') := by
  have hlast := forall₂_getLast? h
  unfold spread
  generalize args.getLast? = x, args'.getLast? = x' at hlast
  cases hlast with
  | none => exact hen.apply K ha .nil
  | some hv =>
    refine (Sim.expect (R := Lists) (Value.expectList_like hv)).bind fun K' hK vs vs' hvs => ?_
    have hinit := forall₂_dropLast (Lists.mono hK h)
    exact hen.apply K' (Values.mono hK ha) (List.rel_append hinit hvs)

theorem makeRecord_sim (ha : K.Values a a') (h : K.Lists args args') :
    K.Sim Values (makeRecord a args) (makeRecord a' args') := by
  unfold makeRecord
  refine (Sim.expect (R := same) (Value.expectName_like ha)).bind fun K' hK name name' hn => ?_
  subst hn
  rw [h.length_eq]
  split
  · exact fault_sim _ _
  · have hfs := Fields.ofArguments_like (Lists.mono hK h)
    generalize Fields.ofArguments args = x, Fields.ofArguments args' = x' at hfs
    cases hfs with
    | ok hf => exact Sim.newRecord name hf
    | error he =>
      cases he with
      | type hf => exact Sim.typeError hf
      | twice f => exact fault_sim _ _

theorem getField_sim (ha : K.Values a a') (hb : K.Values b b') :
    K.Sim Values (getField a b) (getField a' b') := by
  unfold getField
  refine (Sim.expect (R := fun K r r' => r.1 = r'.1 ∧ FieldsLike K.leaves r.2 r'.2)
    (Value.expectRecord_like ha)).bind fun K₁ hK₁ r r' hr => ?_
  obtain ⟨name, fs⟩ := r
  obtain ⟨name', fs'⟩ := r'
  obtain ⟨rfl, hfs⟩ := hr
  have hb₁ := Value.expectName_like (Values.mono hK₁ hb)
  refine (Sim.expect (R := same) hb₁).bind fun K₂ hK₂ f f' hf => ?_
  subst hf
  have hget := optionRel_mono (fun _ _ hv => Values.mono hK₂ hv) (hfs.get? f)
  simp only
  generalize Table.get? f fs = x, Table.get? f fs' = x' at hget
  cases hget with
  | some hv => exact Sim.pure hv
  | none => exact fault_sim _ _

theorem setField_sim (ha : K.Values a a') (hb : K.Values b b') (hc : K.Values c c') :
    K.Sim Values (setField a b c) (setField a' b' c') := by
  unfold setField
  refine (Sim.expect (R := fun K r r' => r.1 = r'.1 ∧ FieldsLike K.leaves r.2 r'.2)
    (Value.expectRecord_like ha)).bind fun K₁ hK₁ r r' hr => ?_
  obtain ⟨name, fs⟩ := r
  obtain ⟨name', fs'⟩ := r'
  obtain ⟨rfl, hfs⟩ := hr
  have hb₁ := Value.expectName_like (Values.mono hK₁ hb)
  refine (Sim.expect (R := same) hb₁).bind fun K₂ hK₂ f f' hf => ?_
  subst hf
  have hfs₂ := hfs.mono fun _ _ hv => Values.mono hK₂ hv
  exact Sim.newRecord name (hfs₂.set f (Values.mono (hK₁.trans hK₂) hc))

/-- An arithmetic operation on any number of arguments. -/
theorem fold_sim (op : List Number → Number) (h : K.Lists args args') :
    K.Sim Values (Eval.expect (Number.ofValues args) >>= fun xs => Pure.pure (op xs).toValue)
      (Eval.expect (Number.ofValues args') >>= fun xs => Pure.pure (op xs).toValue) := by
  have hargs := Number.ofValues_like K.faithful h
  refine (Sim.expect (R := same) hargs).bind fun K' hK xs xs' hxs => ?_
  subst hxs
  exact Sim.number _

/-! ## §4. Every operation -/

/-- Operations of one argument. -/
theorem run_unary (en en' : Engine) (p : Primitive) (ha : K.Values a a')
    (hp : p.arity = .exactly 1) : K.Sim Values (p.run en [a]) (p.run en' [a']) := by
  cases p with
  | not => exact Sim.boolean (by rw [ha.isTrue_eq])
  | car =>
    refine (Sim.expect (R := fun K p p' => K.Values p.1 p'.1 ∧ K.Values p.2 p'.2)
      (Value.expectPair_like ha)).bind fun K' hK p p' hp => ?_
    exact Sim.pure hp.1
  | cdr =>
    refine (Sim.expect (R := fun K p p' => K.Values p.1 p'.1 ∧ K.Values p.2 p'.2)
      (Value.expectPair_like ha)).bind fun K' hK p p' hp => ?_
    exact Sim.pure hp.2
  | isList => exact Sim.boolean (isSome_eq_of_optionRel ha.elements?)
  | isPair => exact Sim.boolean (by cases ha <;> rfl)
  | isNull => exact Sim.boolean (by cases ha <;> rfl)
  | length => exact lengthOf_sim ha
  | reverse =>
    refine (Sim.expect (R := Lists) (Value.expectList_like ha)).bind fun K' hK vs vs' hvs => ?_
    exact Sim.newList (List.rel_reverse hvs)
  | isSymbol => exact Sim.boolean (by cases ha <;> rfl)
  | isNumber => exact Sim.boolean (by cases ha <;> rfl)
  | isString => exact Sim.boolean (by cases ha <;> rfl)
  | isBool => exact Sim.boolean (by cases ha <;> rfl)
  | isProcedure => exact Sim.boolean ha.isProcedure_eq
  | isRecord => exact Sim.boolean (by cases ha <;> rfl)
  | typeOf =>
    show K.Sim Values (Pure.pure (.symbol a.typeName)) (Pure.pure (.symbol a'.typeName))
    rw [ha.typeName_eq]
    exact Sim.pure (.symbol _)
  | symbolToString =>
    refine (Sim.expect (R := same) (Value.expectSymbol_like ha)).bind fun K' hK s s' hs => ?_
    subst hs
    exact Sim.pure (.string s)
  | stringToSymbol =>
    refine (Sim.expect (R := same) (Value.expectString_like ha)).bind fun K' hK s s' hs => ?_
    subst hs
    exact Sim.pure (.symbol s)
  | stringLength =>
    refine (Sim.expect (R := same) (Value.expectString_like ha)).bind fun K' hK s s' hs => ?_
    exact Sim.integer (by rw [hs])
  | numberToString =>
    refine (Sim.expect (R := same) (Number.ofValue_like K.faithful ha)).bind fun K' _ _ _ _ => ?_
    rw [ha.text_eq K.faithful]
    exact Sim.pure (.string _)
  | recordFields =>
    refine (Sim.expect (R := fun K r r' => r.1 = r'.1 ∧ FieldsLike K.leaves r.2 r'.2)
      (Value.expectRecord_like ha)).bind fun K' hK r r' hr => ?_
    refine Sim.newList ?_
    show List.Forall₂ K'.Values _ _
    rw [List.forall₂_map_left_iff, List.forall₂_map_right_iff]
    refine hr.2.imp fun f f' hf => ?_
    rw [hf.1]
    exact .symbol _
  | _ => exact absurd hp (by decide)

/-- Operations of two arguments. -/
theorem run_binary (hen : en.InStep O en') (p : Primitive) (ha : K.Values a a')
    (hb : K.Values b b') (hp : p.arity = .exactly 2) :
    K.Sim Values (p.run en [a, b]) (p.run en' [a', b']) := by
  cases p with
  | div => exact divide_sim ha hb
  | mod => exact modulo_sim ha hb
  | equal => exact Sim.boolean (ha.equal_eq K.faithful hb)
  | less => exact compare_sim _ _ ha hb
  | lessEq => exact compare_sim _ _ ha hb
  | greater => exact compare_sim _ _ ha hb
  | greaterEq => exact compare_sim _ _ ha hb
  | identical => exact Sim.boolean (ha.identical_eq K.faithful hb)
  | cons => exact Sim.newPair ha hb
  | nth => exact elementAt_sim ha hb
  | map =>
    refine (Sim.expect (R := Lists) (Value.expectList_like hb)).bind fun K₁ hK₁ vs vs' hvs => ?_
    refine (hen.applyEach (Values.mono hK₁ ha) hvs).bind fun K₂ hK₂ ws ws' hws => ?_
    exact Sim.newList hws
  | recordGet => exact getField_sim ha hb
  | _ => exact absurd hp (by decide)

/-- Operations of any number of arguments, or of at least some. -/
theorem run_variadic (hen : en.InStep O en') (p : Primitive) {n : Nat} (hp : p.arity = .atLeast n)
    (h : K.Lists args args') (hn : n ≤ args.length) :
    K.Sim Values (p.run en args) (p.run en' args') := by
  cases p with
  | add => exact fold_sim Number.sum h
  | sub => exact fold_sim Number.difference h
  | mul => exact fold_sim Number.product h
  | list => exact Sim.newList h
  | append => exact appendAll_sim h
  | apply =>
    obtain rfl : 2 = n := Arity.atLeast.inj hp
    obtain ⟨f, f', vs, vs', rfl, rfl, hf, hvs⟩ := forall₂_of_length_pos h (by omega)
    exact spread_sim hen hf hvs
  | stringAppend =>
    refine (Sim.expect (R := same) (Value.expectStrings_like h)).bind fun K' hK s s' hs => ?_
    subst hs
    exact Sim.pure (.string _)
  | record =>
    obtain rfl : 1 = n := Arity.atLeast.inj hp
    obtain ⟨name, name', vs, vs', rfl, rfl, hname, hvs⟩ := forall₂_of_length_pos h hn
    exact makeRecord_sim hname hvs
  | print => exact Sim.print .readable h "\n"
  | println => exact Sim.print .plain h "\n"
  | display => exact Sim.print .plain h ""
  | error =>
    show K.Sim Values
      (fault .error (.raised (" ".intercalate (args.map (Value.print .plain)))))
      (fault .error (.raised (" ".intercalate (args'.map (Value.print .plain)))))
    rw [h.prints_eq]
    exact fault_sim _ _
  | _ => exact absurd hp (by simp [arity, Arity.exactly])

/-- Every operation, applied to a right number of arguments. -/
theorem run_sim (hen : en.InStep O en') (p : Primitive) (h : K.Lists args args')
    (hp : p.arity.contains args.length = true) :
    K.Sim Values (p.run en args) (p.run en' args') := by
  rcases p.arity_cases with h1 | h2 | ⟨n, hn⟩ | rfl | rfl | rfl
  · rw [h1, Arity.contains_exactly] at hp
    obtain ⟨a, a', rfl, rfl, ha⟩ := forall₂_of_length_one h hp
    exact run_unary en en' p ha h1
  · rw [h2, Arity.contains_exactly] at hp
    obtain ⟨a, b, a', b', rfl, rfl, ha, hb⟩ := forall₂_of_length_two h hp
    exact run_binary hen p ha hb h2
  · rw [hn, Arity.contains_atLeast] at hp
    exact run_variadic hen p hn h hp
  · obtain rfl := List.length_eq_zero_iff.1 (Arity.contains_exactly.1 hp)
    cases h
    exact Sim.print .plain .nil "\n"
  · obtain ⟨r, f, v, r', f', v', rfl, rfl, hr, hf, hv⟩ :=
      forall₂_of_length_three h (Arity.contains_exactly.1 hp)
    exact setField_sim hr hf hv
  · -- one argument, or none
    cases h with
    | nil => exact Sim.gensym Gensym.defaultStem
    | cons ha h =>
      cases h with
      | nil =>
        refine (Sim.expect (R := same) (Value.expectName_like ha)).bind fun K' hK s s' hs => ?_
        subst hs
        exact Sim.gensym s
      | cons _ _ => exact absurd hp (by simp [arity, Arity.contains])

/-- Every operation, applied to any arguments. -/
theorem call_sim (hen : en.InStep O en') (p : Primitive) (h : K.Lists args args') :
    K.Sim Values (p.call en args) (p.call en' args') := by
  unfold call
  by_cases hp : p.arity.contains args.length = true
  · refine (Sim.checkArity p.arity h.length_eq p.name).bind fun K' hK _ _ _ => ?_
    exact run_sim hen p (Lists.mono hK h) hp
  · have hp' : p.arity.contains args'.length ≠ true := by
      rw [← h.length_eq]
      exact hp
    have hfail : ∀ (x : Engine) (vs : List Value), p.arity.contains vs.length ≠ true →
        (Eval.checkArity p.arity vs.length p.name >>= fun _ => p.run x vs) =
          Eval.fail (.arity ⟨p.name, p.arity, vs.length⟩) := by
      intro x vs hvs
      unfold Eval.checkArity Arity.check
      rw [if_neg hvs]
      rfl
    rw [hfail en args hp, hfail en' args' hp', h.length_eq]
    exact Sim.fail (.refl _)

end Primitive

end TinyLisp
