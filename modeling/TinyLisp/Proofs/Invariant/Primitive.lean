import TinyLisp.Proofs.Invariant.Effect
import TinyLisp.Primitive.Run
import Mathlib.Data.List.Basic

/-!
# Primitive operations keep invariants

An operation applied to good values gives a good value. Only `apply` and `map` ask the engines.
-/

namespace TinyLisp

open Invariant

variable {I : Invariant} {K : I.Stage} {en en' : Engine}

/-! ## §1. Arguments -/

namespace Value

variable {N : Value → Prop} {v : Value} {vs : List Value}

theorem expectPair_every (h : v.Every N) :
    Yields (fun p => p.1.Every N ∧ p.2.Every N) v.expectPair := by
  cases v with
  | pair cell a d => exact yields_ok (every_pair.1 h).2
  | _ => exact yields_error _

theorem expectList_every (h : v.Every N) :
    Yields (fun vs => ∀ u ∈ vs, u.Every N) v.expectList := by
  unfold expectList
  cases hvs : v.elements? with
  | none => exact yields_error _
  | some vs => exact yields_ok (h.elements? hvs)

theorem expectLists_every (h : ∀ v ∈ vs, v.Every N) :
    Yields (fun us => ∀ u ∈ us, u.Every N) (expectLists vs) := by
  induction vs with
  | nil => exact yields_ok (by simp)
  | cons v vs ih =>
    refine (expectList_every (h v (by simp))).bind fun here hhere => ?_
    refine (ih fun u hu => h u (by simp [hu])).bind fun others hothers => ?_
    refine yields_ok ?_
    intro u hu
    rcases List.mem_append.1 hu with hu | hu
    · exact hhere u hu
    · exact hothers u hu

/-- A good record is good under the name and with the fields that it is taken apart into. -/
theorem expectRecord_every (h : v.Every N) :
    Yields (fun r => ∃ cell, (record cell r.1 r.2).Every N) v.expectRecord := by
  cases v with
  | record cell name fields => exact yields_ok ⟨cell, h⟩
  | _ => exact yields_error _

end Value

namespace Invariant

theorem Runs.expect (hI : I.KeptOutside) {α : Type} {P : I.Stage → α → Prop} {r : Except TypeFault α}
    (h : Yields (P K) r) : I.Runs K P (Eval.expect r) (Eval.expect r) := by
  cases r with
  | ok a => exact .pure (h a rfl)
  | error fault => exact .typeError hI fault

/-- What nothing need be known of. -/
theorem Runs.expectAny (hI : I.KeptOutside) {α : Type} (r : Except TypeFault α) :
    I.Runs K (fun _ _ => True) (Eval.expect r) (Eval.expect r) :=
  .expect hI (yields_true r)

namespace KeptOutside

variable (hI : I.KeptOutside)

include hI

theorem pureAtom {v : Value} (hv : v.nodes = [v]) (hp : v.Plain) :
    I.Runs K (fun K' v => I.Good K' v) (pure v) (pure v) :=
  .pure (hI.atom hv hp)

theorem pureNumber (x : Number) :
    I.Runs K (fun K' v => I.Good K' v) (pure x.toValue) (pure x.toValue) := by
  cases x with
  | int n => exact hI.pureAtom rfl trivial
  | float x => exact hI.pureAtom rfl trivial

theorem print (style : Style) (vs : List Value) (end_ : String) :
    I.Runs K (fun K' v => I.Good K' v) (Eval.print style vs end_)
      (Eval.print style vs end_) := by
  unfold Eval.print
  exact (hI.write _).bind hI fun _ _ _ _ => hI.pureAtom rfl trivial

theorem fault (p : Primitive) (f : PrimitiveFault) {α : Type} {P : I.Stage → α → Prop} :
    I.Runs K P (p.fault f) (p.fault f) :=
  .fail hI _

end KeptOutside

theorem Engines.applyEach (hen : I.Engines en en') {f : Value} (hf : I.Good K f)
    {vs : List Value} (h : I.Lists K vs) :
    I.Runs K (fun K' ws => I.Lists K' ws) (en.applyEach f vs) (en'.applyEach f vs) := by
  have hI := hen.kept
  induction vs generalizing K with
  | nil => exact .pure fun _ hv => absurd hv (by simp)
  | cons v vs ih =>
    have harg : I.Lists K [v] := by
      intro u hu
      rw [List.mem_singleton.1 hu]
      exact h v (by simp)
    have hvs : I.Lists K vs := fun u hu => h u (by simp [hu])
    unfold Engine.applyEach
    refine (hen.apply hf harg).bind hI fun K₁ w hK₁ hw => ?_
    refine (ih (hI.good_mono hK₁ hf) (hI.lists_mono hK₁ hvs)).bind hI fun K₂ ws hK₂ hws => ?_
    refine .pure ?_
    intro u hu
    rcases List.mem_cons.1 hu with rfl | hu
    · exact hI.good_mono hK₂ hw
    · exact hws u hu

end Invariant

namespace Primitive

variable {a b c : Value} {args : List Value}

/-! ## §2. Operations -/

/-- A name and fields that are those of a good record. -/
def Recorded (K : I.Stage) (r : String × List (String × Value)) : Prop :=
  ∃ cell, I.Good K (.record cell r.1 r.2)

section

variable (hI : I.KeptOutside)

include hI

theorem compare_runs (onInts : Int64 → Int64 → Bool) (onFloats : Float → Float → Bool)
    (a b : Value) : I.Runs K (fun K' v => I.Good K' v) (compare onInts onFloats a b)
      (compare onInts onFloats a b) := by
  unfold compare
  refine (Runs.expectAny hI _).bind hI fun K' ns _ _ => ?_
  split
  · exact hI.pureAtom rfl trivial
  · exact hI.pureAtom rfl trivial

theorem divide_runs (a b : Value) :
    I.Runs K (fun K' v => I.Good K' v) (divide a b) (divide a b) := by
  unfold divide
  refine (Runs.expectAny hI _).bind hI fun K' ns _ _ => ?_
  split
  · split
    · exact hI.pureNumber _
    · exact hI.fault _ _
  · exact hI.fault _ _

theorem modulo_runs (a b : Value) :
    I.Runs K (fun K' v => I.Good K' v) (modulo a b) (modulo a b) := by
  unfold modulo
  refine (Runs.expectAny hI _).bind hI fun K₁ m _ _ => ?_
  refine (Runs.expectAny hI _).bind hI fun K₂ n _ _ => ?_
  cases remainder? m n with
  | some r => exact hI.pureAtom rfl trivial
  | none => exact hI.fault _ _

theorem lengthOf_runs (a : Value) :
    I.Runs K (fun K' v => I.Good K' v) (lengthOf a) (lengthOf a) := by
  unfold lengthOf
  split
  · exact hI.pureAtom rfl trivial
  · exact (Runs.expectAny hI _).bind hI fun K' vs _ _ => hI.pureAtom rfl trivial

theorem appendAll_runs (h : I.Lists K args) :
    I.Runs K (fun K' v => I.Good K' v) (appendAll args) (appendAll args) := by
  unfold appendAll
  cases hlast : args.getLast? with
  | none => exact hI.pureAtom rfl trivial
  | some last =>
    have hinit : I.Lists K args.dropLast := fun v hv => h v (List.dropLast_subset _ hv)
    have hl : I.Good K last := h last (List.mem_of_getLast? hlast)
    refine (Runs.expect (P := I.Lists) hI (Value.expectLists_every hinit)).bind hI
      fun K' vs hK hvs => ?_
    exact hI.newChain (hI.good_mono hK hl) hvs

theorem elementAt_runs (ha : I.Good K a) (b : Value) :
    I.Runs K (fun K' v => I.Good K' v) (elementAt a b) (elementAt a b) := by
  unfold elementAt
  refine (Runs.expect (P := I.Lists) hI (Value.expectList_every ha)).bind hI
    fun K₁ vs hK₁ hvs => ?_
  refine (Runs.expectAny hI _).bind hI fun K₂ i hK₂ _ => ?_
  split
  · next v hv =>
    have hmem : v ∈ vs := by
      split at hv
      · exact absurd hv (by simp)
      · exact List.mem_of_getElem? hv
    exact .pure (hI.good_mono hK₂ (hvs v hmem))
  · exact hI.fault _ _

theorem makeRecord_runs (a : Value) (h : I.Lists K args) :
    I.Runs K (fun K' v => I.Good K' v) (makeRecord a args) (makeRecord a args) := by
  unfold makeRecord
  refine (Runs.expectAny hI _).bind hI fun K' name hK _ => ?_
  split
  · exact hI.fault _ _
  · split
    · next fields hfields =>
      have hempty : (Table.keys ([] : Fields)).Nodup := List.nodup_nil
      obtain ⟨hgood, hnodup⟩ := Fields.addAll_good (by simp) hempty (hI.lists_mono hK h) hfields
      exact hI.newRecord hgood hnodup
    · exact .typeError hI _
    · exact hI.fault _ _

theorem getField_runs (ha : I.Good K a) (b : Value) :
    I.Runs K (fun K' v => I.Good K' v) (getField a b) (getField a b) := by
  unfold getField
  refine (Runs.expect (P := Recorded) hI (Value.expectRecord_every ha)).bind hI
    fun K₁ r hK₁ hr => ?_
  obtain ⟨cell, hrecord⟩ := hr
  refine (Runs.expectAny hI _).bind hI fun K₂ f hK₂ _ => ?_
  split
  · next v hv =>
    have hmem := Table.mem_of_get? hv
    exact .pure (hI.good_mono hK₂ ((Value.every_record.1 hrecord).2 (_, v) hmem))
  · exact hI.fault _ _

theorem setField_runs (ha : I.Good K a) (b : Value) (hc : I.Good K c) :
    I.Runs K (fun K' v => I.Good K' v) (setField a b c) (setField a b c) := by
  unfold setField
  refine (Runs.expect (P := Recorded) hI (Value.expectRecord_every ha)).bind hI
    fun K₁ r hK₁ hr => ?_
  obtain ⟨cell, hrecord⟩ := hr
  refine (Runs.expectAny hI _).bind hI fun K₂ f hK₂ _ => ?_
  exact hI.setRecord (hI.good_mono hK₂ hrecord) (hI.good_mono (hK₁.trans hK₂) hc) f

/-- An arithmetic operation on any number of arguments. -/
theorem fold_runs (op : List Number → Number) (args : List Value) :
    I.Runs K (fun K' v => I.Good K' v)
      (Eval.expect (Number.ofValues args) >>= fun xs => pure (op xs).toValue)
      (Eval.expect (Number.ofValues args) >>= fun xs => pure (op xs).toValue) :=
  (Runs.expectAny hI _).bind hI fun _ _ _ _ => hI.pureNumber _

end

theorem spread_runs (hen : I.Engines en en') (ha : I.Good K a) (h : I.Lists K args) :
    I.Runs K (fun K' v => I.Good K' v) (spread en a args) (spread en' a args) := by
  have hI := hen.kept
  unfold spread
  cases hlast : args.getLast? with
  | none => exact hen.apply ha fun _ hv => absurd hv (by simp)
  | some last =>
    have hl : I.Good K last := h last (List.mem_of_getLast? hlast)
    refine (Runs.expect (P := I.Lists) hI (Value.expectList_every hl)).bind hI
      fun K' vs hK hvs => ?_
    refine hen.apply (hI.good_mono hK ha) ?_
    intro v hv
    rcases List.mem_append.1 hv with hv | hv
    · exact hI.good_mono hK (h v (List.dropLast_subset _ hv))
    · exact hvs v hv

/-! ## §3. Every operation -/

/-- Operations of one argument. -/
theorem run_unary_runs (hI : I.KeptOutside) (p : Primitive) (ha : I.Good K a)
    (hp : p.arity = .exactly 1) :
    I.Runs K (fun K' v => I.Good K' v) (p.run en [a]) (p.run en' [a]) := by
  cases p with
  | not | isList | isPair | isNull | isSymbol | isNumber | isString | isBool | isProcedure
  | isRecord | typeOf => exact hI.pureAtom rfl trivial
  | car =>
    refine (Runs.expect (P := fun K p => I.Good K p.1 ∧ I.Good K p.2) hI
      (Value.expectPair_every ha)).bind hI fun K' p _ hp => ?_
    exact .pure hp.1
  | cdr =>
    refine (Runs.expect (P := fun K p => I.Good K p.1 ∧ I.Good K p.2) hI
      (Value.expectPair_every ha)).bind hI fun K' p _ hp => ?_
    exact .pure hp.2
  | length => exact lengthOf_runs hI a
  | reverse =>
    refine (Runs.expect (P := I.Lists) hI (Value.expectList_every ha)).bind hI
      fun K' vs _ hvs => ?_
    exact hI.newList fun v hv => hvs v (List.mem_reverse.1 hv)
  | symbolToString | stringToSymbol | stringLength | numberToString =>
    exact (Runs.expectAny hI _).bind hI fun _ _ _ _ => hI.pureAtom rfl trivial
  | recordFields =>
    refine (Runs.expectAny hI _).bind hI fun K' r _ _ => hI.newList ?_
    intro v hv
    obtain ⟨field, -, rfl⟩ := List.mem_map.1 hv
    exact hI.atom rfl trivial
  | _ => exact absurd hp (by decide)

/-- Operations of two arguments. -/
theorem run_binary_runs (hen : I.Engines en en') (p : Primitive) (ha : I.Good K a)
    (hb : I.Good K b) (hp : p.arity = .exactly 2) :
    I.Runs K (fun K' v => I.Good K' v) (p.run en [a, b]) (p.run en' [a, b]) := by
  have hI := hen.kept
  cases p with
  | div => exact divide_runs hI a b
  | mod => exact modulo_runs hI a b
  | equal | identical => exact hI.pureAtom rfl trivial
  | less | lessEq | greater | greaterEq => exact compare_runs hI _ _ a b
  | cons => exact hI.newPair ha hb
  | nth => exact elementAt_runs hI ha b
  | map =>
    refine (Runs.expect (P := I.Lists) hI (Value.expectList_every hb)).bind hI
      fun K₁ vs hK₁ hvs => ?_
    refine (hen.applyEach (hI.good_mono hK₁ ha) hvs).bind hI fun K₂ ws hK₂ hws => ?_
    exact hI.newList hws
  | recordGet => exact getField_runs hI ha b
  | _ => exact absurd hp (by decide)

/-- Operations of any number of arguments, or of at least some. -/
theorem run_variadic_runs (hen : I.Engines en en') (p : Primitive) {n : Nat}
    (hp : p.arity = .atLeast n) (h : I.Lists K args) (hn : n ≤ args.length) :
    I.Runs K (fun K' v => I.Good K' v) (p.run en args) (p.run en' args) := by
  have hI := hen.kept
  cases p with
  | add => exact fold_runs hI Number.sum args
  | sub => exact fold_runs hI Number.difference args
  | mul => exact fold_runs hI Number.product args
  | list => exact hI.newList h
  | append => exact appendAll_runs hI h
  | apply =>
    obtain rfl : 2 = n := Arity.atLeast.inj hp
    cases args with
    | nil => exact absurd hn (by simp)
    | cons f vs => exact spread_runs hen (h f (by simp)) fun v hv => h v (by simp [hv])
  | stringAppend => exact (Runs.expectAny hI _).bind hI fun _ _ _ _ => hI.pureAtom rfl trivial
  | record =>
    obtain rfl : 1 = n := Arity.atLeast.inj hp
    cases args with
    | nil => exact absurd hn (by simp)
    | cons name vs => exact makeRecord_runs hI name fun v hv => h v (by simp [hv])
  | print => exact hI.print .readable args "\n"
  | println => exact hI.print .plain args "\n"
  | display => exact hI.print .plain args ""
  | error => exact hI.fault _ _
  | _ => exact absurd hp (by simp [arity, Arity.exactly])

/-- Every operation, applied to a right number of arguments. -/
theorem run_runs (hen : I.Engines en en') (p : Primitive) (h : I.Lists K args)
    (hp : p.arity.contains args.length = true) :
    I.Runs K (fun K' v => I.Good K' v) (p.run en args) (p.run en' args) := by
  have hI := hen.kept
  -- by arity, since an operation is only run on as many arguments as it takes
  rcases p.arity_cases with h1 | h2 | ⟨n, hn⟩ | rfl | rfl | rfl
  · rw [h1, Arity.contains_exactly] at hp
    obtain ⟨a, rfl⟩ := List.length_eq_one_iff.1 hp
    exact run_unary_runs hI p (h a (by simp)) h1
  · rw [h2, Arity.contains_exactly] at hp
    obtain ⟨a, b, rfl⟩ := List.length_eq_two.1 hp
    exact run_binary_runs hen p (h a (by simp)) (h b (by simp)) h2
  · rw [hn, Arity.contains_atLeast] at hp
    exact run_variadic_runs hen p hn h hp
  · obtain rfl := List.length_eq_zero_iff.1 (Arity.contains_exactly.1 hp)
    exact hI.print .plain [] "\n"
  · obtain ⟨r, f, v, rfl⟩ := List.length_eq_three.1 (Arity.contains_exactly.1 hp)
    exact setField_runs hI (h r (by simp)) f (h v (by simp))
  · -- one argument, or none
    match args with
    | [] => exact hI.freshName _
    | [a] => exact (Runs.expectAny hI _).bind hI fun _ s _ _ => hI.freshName s
    | _ :: _ :: _ => exact absurd hp (by simp [arity, Arity.contains])

/-- Every operation, applied to any arguments. -/
theorem call_runs (hen : I.Engines en en') (p : Primitive) (h : I.Lists K args) :
    I.Runs K (fun K' v => I.Good K' v) (p.call en args) (p.call en' args) := by
  have hI := hen.kept
  unfold call
  by_cases hp : p.arity.contains args.length = true
  · exact (Runs.checkArity hI _ _ _).bind hI fun K' _ hK _ =>
      run_runs hen p (hI.lists_mono hK h) hp
  · -- a wrong number of arguments is refused before the operation is run
    have hrefused : Eval.checkArity p.arity args.length p.name =
        (Eval.fail (.arity ⟨p.name, p.arity, args.length⟩) : Eval Unit) := by
      unfold Eval.checkArity Arity.check
      rw [if_neg hp]
      rfl
    rw [hrefused]
    exact Runs.fail hI _

end Primitive

end TinyLisp
