import TinyLisp.Proofs.Prelude.Conditional
import TinyLisp.Proofs.Placeholder

/-!
# `filter` and `foldl` as passes over a list

`filter` and `foldl` are functions of the prelude, written in the language. What each of them does
with a list is a `Sweep`: a value is applied once for each element, from left to right, until the list
is at its end or an application fails; in between there is silent work only. The two differ in the
arguments of the applications, in what is remembered from one to the next, and in what is given in the
end (`Sweeper.filtering`, `Sweeper.folding`).

Between two applications the functions look up names: their own, those of operations, and `filter`
also `cond`. An application can do what it likes and yet leaves these names their meaning, because it
changes nothing that was there before (`Engine.untouched_of_apply`). What it gives is never the
placeholder of a name without a value, so that it can be bound to a parameter and read again.
-/

namespace TinyLisp

open Prelude (op)

/-! ## §1. Sweeps -/

/-- What is done with the elements of a list: the arguments of the application for an element, what is
remembered of it, and which value is given in the end. -/
structure Sweeper (σ : Type) where
  args : σ → Value → List Value
  next : σ → Value → Value → σ
  gives : σ → Value → Prop

namespace Sweeper

/-- The elements for which true values are given are kept, in order. -/
def filtering : Sweeper (List Value) where
  args _ x := [x]
  next kept x v := if v.isTrue then kept ++ [x] else kept
  gives kept v := v.elements? = some kept

/-- What is given for an element is the first argument for the next one. -/
def folding : Sweeper Value where
  args acc x := [acc, x]
  next _ _ v := v
  gives acc v := v = acc

end Sweeper

open Engine (End applyEnd)

/-- A value is applied once for each of some elements, from left to right. An application that fails is
the last one, and its failure is the end. Between the applications, and before and after them, there
is silent work only. -/
inductive Sweep (ctx : Context) (f : Value) {σ : Type} (S : Sweeper σ) :
    σ → List Value → World → End Value → Prop
  | done {s : σ} {w w' : World} {v : Value} (silent : w.Silent w') (gives : S.gives s v) :
      Sweep ctx f S s [] w (some (.ok v w'))
  | next {s : σ} {x v : Value} {xs : List Value} {w w' w₁ : World} {o : End Value}
      (silent : w.Silent w') (applied : applyEnd ctx f (S.args s x) w' = some (.ok v w₁))
      (rest : Sweep ctx f S (S.next s x v) xs w₁ o) : Sweep ctx f S s (x :: xs) w o
  | failed {s : σ} {x : Value} {xs : List Value} {w w' w₁ : World} {fault : Halt}
      (silent : w.Silent w')
      (applied : applyEnd ctx f (S.args s x) w' = some (.error fault w₁)) :
      Sweep ctx f S s (x :: xs) w (some (.error fault w₁))
  | endless {s : σ} {x : Value} {xs : List Value} {w w' : World} (silent : w.Silent w')
      (applied : applyEnd ctx f (S.args s x) w' = none) : Sweep ctx f S s (x :: xs) w none

namespace Sweep

variable {ctx : Context} {f : Value} {σ : Type} {S : Sweeper σ} {s : σ} {xs : List Value}
variable {w w' : World} {o : End Value}

/-- Silent work may be done beforehand. -/
theorem since (h : Sweep ctx f S s xs w' o) (hw : w.Silent w') : Sweep ctx f S s xs w o := by
  cases h with
  | done silent gives => exact .done (hw.trans silent) gives
  | next silent applied rest => exact .next (hw.trans silent) applied rest
  | failed silent applied => exact .failed (hw.trans silent) applied
  | endless silent applied => exact .endless (hw.trans silent) applied

/-- An element more in front of those kept. -/
theorem filtering_cons {kept : List Value} (h : Sweep ctx f .filtering kept xs w o) (x : Value) :
    Sweep ctx f .filtering (x :: kept) xs w
      (o.andThen fun v w' => some (.ok (.pair (some w'.nextTag) x v)
        { w' with nextTag := w'.nextTag + 1 })) := by
  generalize hS : Sweeper.filtering = S at h
  induction h with
  | @done kept w w' v silent gives =>
    subst hS
    have helements : v.elements? = some kept := gives
    refine .done (silent.trans (w'.silent_tags _)) ?_
    show v.elements?.map (x :: ·) = _
    rw [helements]
    rfl
  | @next kept y v xs w w' w₁ o silent applied rest ih =>
    subst hS
    refine .next silent applied ?_
    have hnext : Sweeper.filtering.next (x :: kept) y v = x :: Sweeper.filtering.next kept y v := by
      show (if v.isTrue then (x :: kept) ++ [y] else x :: kept) =
        x :: if v.isTrue then kept ++ [y] else kept
      split
      · rfl
      · rfl
    rw [hnext]
    exact ih
  | failed silent applied =>
    subst hS
    exact .failed silent applied
  | endless silent applied =>
    subst hS
    exact .endless silent applied

end Sweep

/-! ## §2. Functions of the prelude -/

/-- A function of the prelude is bound to its name. -/
structure World.Provides (w : World) (name : String) (c : Closure) : Prop where
  installed : w.Installed
  has : w.Has rootScope name (.closure c)
  supports : w.Supports (.closure c)

namespace World.Provides

variable {w w' : World} {name : String} {c : Closure}

theorem later (h : w.Provides name c) (hw : w.Untouched w') : w'.Provides name c :=
  ⟨h.installed.later hw, h.has.later h.has.inside hw.store, h.supports.later hw.grows⟩

/-- It is the function that the prelude defines. -/
theorem made (h : w.Provides name c) (form : Value)
    (hform : (form, .function, name) ∈ Prelude.contents) :
    ∃ params body, Prelude.Defines .function name params body ∧ c.Made w name params body := by
  obtain ⟨params, body, hdefines, hbinds⟩ := h.installed.definitions _ hform
  cases hbinds with
  | function c' has made =>
    obtain rfl := Value.closure.inj (has.unique h.has)
    exact ⟨params, body, hdefines, made⟩

end World.Provides

namespace Engine

variable {ctx : Context} {w w' : World} {c : Closure} {args : List Value}

/-- A function of the outermost scope that is called comes to its body, in a scope with its parameters
and its own name. Whatever invariant has held goes on to hold there. -/
theorem applyEnd_of_made (ctx : Context) (args : List Value) {name : String} {params : Params} {body : Expr}
    (h : w.Provides name c) (hmade : c.Made w name params body)
    (harity : params.arity.contains args.length = true) (hnodup : (name :: params.names).Nodup) :
    ∃ rest inner w', rest.elements? = some (args.drop params.fixed.length) ∧
      w.Entered rootScope (params.bindings args rest ++ [(name, .closure c)]) w' inner ∧
      applyEnd ctx (.closure c) args w = evalEnd ctx body inner w' ∧
      ∀ {I : Invariant} {K : I.Stage}, I.Kept → I.Holds K w → I.Node K (.closure c) →
        I.Lists K args → I.Later K w' fun _ => True := by
  have hparams := hmade.params
  subst hparams
  obtain ⟨hname, hnodup⟩ := List.nodup_cons.1 hnodup
  obtain ⟨rest, inner, w', hrest, hrun, hinner⟩ := Eval.entered_call h.supports harity hnodup
  have hgetD := (hmade.later hinner.silent.untouched).getD_bodies (.literal .nil)
  refine ⟨rest, inner, w', hrest, ?_, ?_, fun {I K} hI hw hc hargs => ?_⟩
  · refine (hmade.entered h.installed.inside).trans hinner fun other hother => ?_
    rw [Params.bindings_fst harity]
    simpa [List.mem_singleton.1 hother] using hname
  · rw [applyEnd_closure hrun, hgetD]
  · have hout := hI.toKeptOutside
    have hruns := (hI.call hc).bind hout fun K₁ inner hK₁ hactive =>
      (hI.bindParams c.params hactive (hI.lists_mono hK₁ hargs) c.label).bind hout
        fun K₂ _ _ _ => (.pure trivial : I.Runs K₂ (fun _ _ => True) (pure inner) (pure inner))
    have hends := (hruns w hw).ends
    rw [hrun] at hends
    exact hends

/-! ## §3. `foldl` -/

variable {f acc xs : Value} {vs : List Value} {K : Invariant.region.Stage}

/-- What an application gives at a stage of the region is good at a later one. -/
theorem later_of_apply {v : Value} {I : Invariant} {K : I.Stage} (hI : I.Kept) (hw : I.Holds K w)
    (hf : I.Good K f) (hargs : I.Lists K args)
    (h : applyEnd ctx f args w = some (.ok v w')) : I.Later K w' fun K' => I.Good K' v := by
  obtain ⟨⟨n, hrun⟩, -⟩ := (atLast_eq_some (deepens_apply f args)).1 h
  have hends := hI.ends hw (t := .apply f args) ⟨hf, hargs⟩ ctx n
  have hperform : (ofDepth ctx n).perform (.apply f args) w = .ok v w' := hrun
  rw [hperform] at hends
  exact hends

/-- What an application does not change goes on to be read. -/
theorem reads_op_later {p : Primitive} {name arg : String} {scope : Scope} {u v : Value}
    (hs : w.Inside scope) (h : w.Has scope name (.primitive p)) (harg : w.Has scope arg u)
    (hu : u ≠ .unspecified) (hcall : ∀ en w, p.call en [u] w = .ok v w) (hw : w.Untouched w') :
    evalEnd ctx (op name arg) scope w' = some (.ok v w') :=
  (reads_op (hs.later hw.grows) (h.later hs hw.store) (harg.later hs hw.store) hu hcall).now

/-- One step of `foldl`: without an element it gives what it has; otherwise the value is applied to
that and to the first element, and `foldl` goes on with what it gives and with the other elements. -/
theorem foldl_step (ctx : Context) (h : w.Provides "foldl" c) (hf : f.isProcedure = true) (hacc : acc ≠ .unspecified)
    (xs : Value) :
    ∃ w₁, w.Silent w₁ ∧
      (xs = .nil → applyEnd ctx (.closure c) [f, acc, xs] w = some (.ok acc w₁)) ∧
      (∀ cell x d, xs = .pair cell x d → applyEnd ctx (.closure c) [f, acc, xs] w =
        (applyEnd ctx f [acc, x] w₁).andThen fun v w₂ => applyEnd ctx (.closure c) [f, v, d] w₂) ∧
      ∀ {I : Invariant} {K : I.Stage}, I.Kept → I.Holds K w → I.Node K (.closure c) →
        I.Lists K [f, acc, xs] → I.Later K w₁ fun _ => True := by
  obtain ⟨params, body, hdefines, hmade⟩ :=
    h.made Prelude.foldlForm (by simp [Prelude.contents])
  obtain ⟨rfl, us, us', rfl⟩ := Prelude.defines_foldl hdefines
  obtain ⟨rest, inner, w₁, -, hinner, happly, hlater⟩ :=
    applyEnd_of_made ctx [f, acc, xs] h hmade (by rfl) (by decide)
  have hinner : w.Entered rootScope
    [("f", f), ("acc", acc), ("xs", xs), ("foldl", .closure c)] w₁ inner := hinner
  have hs := hinner.inside
  have hprimitives := h.installed.primitives
  have hisNull : w₁.Has inner "null?" (.primitive .isNull) := hinner.has (hprimitives .isNull) (by simp)
  have hcar : w₁.Has inner "car" (.primitive .car) := hinner.has (hprimitives .car) (by simp)
  have hcdr : w₁.Has inner "cdr" (.primitive .cdr) := hinner.has (hprimitives .cdr) (by simp)
  have hself : w₁.Has inner "foldl" (.closure c) := hinner.bound ("foldl", .closure c) (by simp)
  have hvf : w₁.Has inner "f" f := hinner.bound ("f", f) (by simp)
  have hvacc : w₁.Has inner "acc" acc := hinner.bound ("acc", acc) (by simp)
  have hvxs : w₁.Has inner "xs" xs := hinner.bound ("xs", xs) (by simp)
  refine ⟨w₁, hinner.silent, ?_, ?_, hlater⟩
  · rintro rfl
    have hnull : Reads ctx w₁ inner (op "null?" "xs") (.bool true) :=
      reads_op hs hisNull hvxs (by simp) fun _ _ => rfl
    rw [happly, evalEnd_ite_of_reads hnull, if_pos (by rfl), evalEnd_var hvacc.lookup hacc]
  · rintro cell x d rfl
    have hnull : Reads ctx w₁ inner (op "null?" "xs") (.bool false) :=
      reads_op hs hisNull hvxs (by simp) fun _ _ => rfl
    have hfirst : Reads ctx w₁ inner (op "car" "xs") x :=
      reads_op hs hcar hvxs (by simp) fun _ _ => rfl
    have hargs := eachEnd_of_reads (.cons (reads_var hs hvacc hacc) (.cons hfirst .nil))
    rw [happly, evalEnd_ite_of_reads hnull, if_neg (by simp [Value.isTrue]),
      evalEnd_call_of_has hself rfl, eachEnd_cons,
      evalEnd_var hvf.lookup (ne_of_isProcedure hf).2, End.ok_andThen, eachEnd_cons,
      evalEnd_call_of_has hvf hf, hargs, End.ok_andThen]
    cases hend : applyEnd ctx f [acc, x] w₁ with
    | none => rfl
    | some r =>
      cases r with
      | error fault w₂ => rfl
      | ok v w₂ =>
        -- the call of `f` may have changed the world, but not what the names here stand for
        have hrest : evalEnd ctx (op "cdr" "xs") inner w₂ = some (.ok d w₂) :=
          reads_op_later hs hcdr hvxs (by simp) (fun _ _ => rfl) (untouched_of_apply hend)
        simp only [End.ok_andThen, eachEnd_cons, hrest, eachEnd_nil]

/-- `foldl` folds. -/
theorem foldl_sweep (h : w.Provides "foldl" c) (hf : f.isProcedure = true)
    (hxs : xs.elements? = some vs) (hw : Invariant.region.Holds K w)
    (hc : Invariant.region.Node K (.closure c)) (hargs : Invariant.region.Lists K [f, acc, xs]) :
    Sweep ctx f .folding acc vs w (applyEnd ctx (.closure c) [f, acc, xs] w) := by
  have hI := Invariant.kept_region
  -- on the elements; what has been given for one of them is met again in another world
  induction vs generalizing xs acc w K with
  | nil =>
    have hacc : acc ≠ .unspecified := (ne_unspecified_of_good (hargs acc (by simp))).self
    obtain ⟨w₁, hw₁, hnil, -, -⟩ := foldl_step ctx h hf hacc xs
    rw [hnil (Value.nil_of_elements? hxs)]
    exact .done hw₁ rfl
  | cons x vs ih =>
    have hacc : acc ≠ .unspecified := (ne_unspecified_of_good (hargs acc (by simp))).self
    obtain ⟨w₁, hw₁, -, hcons, hlater⟩ := foldl_step ctx h hf hacc xs
    obtain ⟨cell, d, rfl, hd⟩ := Value.pair_of_elements? hxs
    obtain ⟨K₁, hK₁, hheld, -⟩ := hlater hI hw hc hargs
    have hgood : ∀ v ∈ [f, acc, .pair cell x d], Invariant.region.Good K₁ v :=
      hI.lists_mono hK₁ hargs
    have hpair := Value.every_pair.1 (hgood (.pair cell x d) (by simp))
    have happlied : Invariant.region.Lists K₁ [acc, x] :=
      List.forall_mem_cons.2 ⟨hgood acc (by simp), List.forall_mem_singleton.2 hpair.2.1⟩
    rw [hcons cell x d rfl]
    cases hend : applyEnd ctx f [acc, x] w₁ with
    | none => exact .endless hw₁ hend
    | some r =>
      cases r with
      | error fault w₂ => exact .failed hw₁ hend
      | ok v w₂ =>
        obtain ⟨K₂, hK₂, hheld₂, hv⟩ :=
          later_of_apply hI hheld (hgood f (by simp)) happlied hend
        have hargs₂ : Invariant.region.Lists K₂ [f, v, d] :=
          List.forall_mem_cons.2 ⟨hI.good_mono hK₂ (hgood f (by simp)),
            List.forall_mem_cons.2 ⟨hv, List.forall_mem_singleton.2 (hI.good_mono hK₂ hpair.2.2)⟩⟩
        have h₂ : w₂.Provides "foldl" c :=
          h.later (hw₁.untouched.trans (untouched_of_apply hend))
        exact .next hw₁ hend (ih h₂ hd hheld₂ (hI.node_mono (hK₁.trans hK₂) hc) hargs₂)

/-! ## §4. `filter` -/

/-- What builds to something else than a variable is not `else`. -/
theorem ne_else_of_build {t : Value} {e : Expr} {es : List Expr} {forms : List Value}
    (h : Expr.build t = .ok (.call e es forms)) : t ≠ .symbol "else" := by
  rintro rfl
  rw [Expr.build_eq] at h
  cases h

theorem buildAll_single {v : Value} {e : Expr} (h : Expr.build v = .ok e) :
    Expr.buildAll [v] = .ok [e] := by
  unfold Expr.buildAll Expr.buildEach
  rw [h]
  rfl

/-- In a scope the variables of `filter` have their values, the operations and `cond` that it uses
stand for what they are, and its name stands for itself. -/
structure InFilter (w : World) (inner : Scope) (c : Closure) (f xs : Value) : Prop where
  inside : w.Inside inner
  stands : w.CondStands inner
  isNull : w.Has inner "null?" (.primitive .isNull)
  car : w.Has inner "car" (.primitive .car)
  cdr : w.Has inner "cdr" (.primitive .cdr)
  cons : w.Has inner "cons" (.primitive .cons)
  self : w.Has inner "filter" (.closure c)
  keep : w.Has inner "keep?" f
  list : w.Has inner "xs" xs

theorem InFilter.later {inner : Scope} (h : InFilter w inner c f xs) (hw : w.Untouched w') :
    InFilter w' inner c f xs :=
  have hs := h.inside
  ⟨hs.later hw.grows, h.stands.later hs hw, h.isNull.later hs hw.store, h.car.later hs hw.store,
    h.cdr.later hs hw.store, h.cons.later hs hw.store, h.self.later hs hw.store,
    h.keep.later hs hw.store, h.list.later hs hw.store⟩

namespace InFilter

variable {inner : Scope} {cell : Option Nat} {x d : Value}

/-- The call of `filter` on the other elements. -/
theorem rest (h : InFilter w inner c f (.pair cell x d)) (hf : f.isProcedure = true)
    (forms : List Value) :
    evalEnd ctx (.call (.var "filter") [.var "keep?", op "cdr" "xs"] forms) inner w =
      applyEnd ctx (.closure c) [f, d] w := by
  have hcdr : Reads ctx w inner (op "cdr" "xs") d :=
    reads_op h.inside h.cdr h.list (by simp) fun _ _ => rfl
  have hkeep : Reads ctx w inner (.var "keep?") f :=
    reads_var h.inside h.keep (ne_of_isProcedure hf).2
  rw [evalEnd_call_of_has h.self rfl, eachEnd_of_reads (.cons hkeep (.cons hcdr .nil)),
    End.ok_andThen]

/-- The element in front of what `filter` gives for the other ones. -/
theorem kept (h : InFilter w inner c f (.pair cell x d)) (hf : f.isProcedure = true)
    (forms forms' : List Value) :
    sequenceEnd ctx .nil [.call (.var "cons") [op "car" "xs",
      .call (.var "filter") [.var "keep?", op "cdr" "xs"] forms] forms'] inner w =
      (applyEnd ctx (.closure c) [f, d] w).andThen fun u w' =>
        some (.ok (.pair (some w'.nextTag) x u) { w' with nextTag := w'.nextTag + 1 }) := by
  have hcar : Reads ctx w inner (op "car" "xs") x :=
    reads_op h.inside h.car h.list (by simp) fun _ _ => rfl
  rw [sequenceEnd_cons, evalEnd_call_of_has h.cons rfl, eachEnd_cons, hcar.now, End.ok_andThen,
    eachEnd_cons, h.rest hf]
  cases applyEnd ctx (.closure c) [f, d] w with
  | none => rfl
  | some r =>
    cases r with
    | error fault w' => rfl
    | ok u w' =>
      have hcons : applyEnd ctx (.primitive .cons) [x, u] w' =
          some (.ok (.pair (some w'.nextTag) x u) { w' with nextTag := w'.nextTag + 1 }) :=
        applyEnd_primitive fun _ => rfl
      simp only [End.ok_andThen, eachEnd_nil, hcons, sequenceEnd_nil]

variable {form c₁ c₂ c₃ : Value}

/-- The first clause decides if there is no element. -/
theorem first_nil (h : InFilter w inner c f .nil) (ctx : Context)
    (hclauses : Prelude.FilterClauses c₁ c₂ c₃)
    (hform : form.elements? = some [.symbol "cond", c₁, c₂, c₃]) :
    ∃ w', w.Silent w' ∧ formEnd ctx form inner w = some (.ok .nil w') := by
  obtain ⟨t, hc₁, ht⟩ := hclauses.ends
  obtain ⟨next, w', -, hw, hend⟩ :=
    cond_test ctx h.stands h.inside hform hc₁ (ne_else_of_build ht) ht (by rfl)
  have h' := h.later hw.untouched
  have hnull : Reads ctx w' inner (op "null?" "xs") (.bool true) :=
    reads_op h'.inside h'.isNull h'.list (by simp) fun _ _ => rfl
  refine ⟨w', hw, ?_⟩
  rw [hend, hnull.now, End.ok_andThen, if_pos (by rfl), sequenceEnd_cons, evalEnd_nil,
    End.ok_andThen, sequenceEnd_nil]

/-- If there is one, the second clause decides if the value gives something true for it. -/
theorem first_cons (h : InFilter w inner c f (.pair cell x d)) (ctx : Context) (hf : f.isProcedure = true)
    (hclauses : Prelude.FilterClauses c₁ c₂ c₃)
    (hform : form.elements? = some [.symbol "cond", c₁, c₂, c₃]) :
    ∃ last w', last.elements? = some [.symbol "cond", c₃] ∧ w.Silent w' ∧
      formEnd ctx form inner w = (applyEnd ctx f [x] w').andThen fun v w₁ =>
        if v.isTrue then (applyEnd ctx (.closure c) [f, d] w₁).andThen fun u w' =>
          some (.ok (.pair (some w'.nextTag) x u) { w' with nextTag := w'.nextTag + 1 })
        else formEnd ctx last inner w₁ := by
  obtain ⟨t, hc₁, ht⟩ := hclauses.ends
  obtain ⟨next, w₁, hnext, hw₁, hend⟩ :=
    cond_test ctx h.stands h.inside hform hc₁ (ne_else_of_build ht) ht (by rfl)
  have h₁ := h.later hw₁.untouched
  have hnull : Reads ctx w₁ inner (op "null?" "xs") (.bool false) :=
    reads_op h₁.inside h₁.isNull h₁.list (by simp) fun _ _ => rfl
  obtain ⟨t', b, us, us', us'', hc₂, ht', hb⟩ := hclauses.keeps
  obtain ⟨last, w₂, hlast, hw₂, hend'⟩ :=
    cond_test ctx h₁.stands h₁.inside hnext hc₂ (ne_else_of_build ht') ht' (buildAll_single hb)
  have h₂ := h₁.later hw₂.untouched
  have hcar : Reads ctx w₂ inner (op "car" "xs") x :=
    reads_op h₂.inside h₂.car h₂.list (by simp) fun _ _ => rfl
  refine ⟨last, w₂, hlast, hw₁.trans hw₂, ?_⟩
  rw [hend, hnull.now, End.ok_andThen, if_neg (by simp [Value.isTrue]), hend',
    evalEnd_call_of_has h₂.keep hf, eachEnd_of_reads (.cons hcar .nil), End.ok_andThen]
  refine End.andThen_congr fun v w₃ happly => ?_
  rw [(h₂.later (untouched_of_apply happly)).kept hf]

/-- The last clause decides otherwise. -/
theorem last (h : InFilter w inner c f (.pair cell x d)) (ctx : Context) (hf : f.isProcedure = true)
    (hclauses : Prelude.FilterClauses c₁ c₂ c₃)
    (hform : form.elements? = some [.symbol "cond", c₃]) :
    ∃ w', w.Silent w' ∧ formEnd ctx form inner w = applyEnd ctx (.closure c) [f, d] w' := by
  obtain ⟨b, us, hc₃, hb⟩ := hclauses.drops
  obtain ⟨w', hw, hend⟩ := cond_else ctx h.stands h.inside hform hc₃ (buildAll_single hb)
  refine ⟨w', hw, ?_⟩
  rw [hend, sequenceEnd_cons, (h.later hw.untouched).rest hf]
  cases applyEnd ctx (.closure c) [f, d] w' with
  | none => rfl
  | some r =>
    cases r with
    | error fault w₁ => rfl
    | ok u w₁ => rw [End.ok_andThen, sequenceEnd_nil]

end InFilter

/-- A call of `cond` by its name is the form of the call. -/
theorem evalEnd_cond {scope : Scope} (h : w.CondStands scope) (es : List Expr) (forms : List Value) :
    evalEnd ctx (.call (.var "cond") es forms) scope w =
      formEnd ctx (.ofList (.symbol "cond" :: forms)) scope w := by
  obtain ⟨m, hm, -⟩ := h.names
  exact (evalEnd_of_expander hm es).trans
    (formEnd_of_expander (Value.elements?_ofList _) (by rfl) hm).symm

/-- The names of its variables are no keywords. -/
theorem keyword_not_mem_filter (k : Keyword) : k.name ∉ ["keep?", "xs", "filter"] := by
  have hall : ∀ k ∈ Keyword.all, k.name ∉ ["keep?", "xs", "filter"] := by decide
  exact hall k (Keyword.mem_all k)

/-- `filter` comes to `cond` with its three clauses, in a scope with its variables. -/
theorem filter_body (ctx : Context) (h : w.Provides "filter" c)
    (hkeywords : ∀ k : Keyword, w.Unmasked rootScope k.name) (f xs : Value) :
    ∃ inner w₁ c₁ c₂ c₃, w.Silent w₁ ∧ InFilter w₁ inner c f xs ∧
      Prelude.FilterClauses c₁ c₂ c₃ ∧ applyEnd ctx (.closure c) [f, xs] w =
        formEnd ctx (.ofList [.symbol "cond", c₁, c₂, c₃]) inner w₁ := by
  obtain ⟨params, body, hdefines, hmade⟩ :=
    h.made Prelude.filterForm (by simp [Prelude.contents])
  obtain ⟨rfl, es, c₁, c₂, c₃, rfl, hclauses⟩ := Prelude.defines_filter hdefines
  obtain ⟨rest, inner, w₁, -, hinner, happly, -⟩ :=
    applyEnd_of_made ctx [f, xs] h hmade (by rfl) (by decide)
  have hinner : w.Entered rootScope [("keep?", f), ("xs", xs), ("filter", .closure c)] w₁ inner :=
    hinner
  have hprimitives := h.installed.primitives
  have hstands : w₁.CondStands inner := h.installed.condStands hinner (by simp) fun k =>
    hinner.unmasked (hkeywords k) (keyword_not_mem_filter k)
  refine ⟨inner, w₁, c₁, c₂, c₃, hinner.silent, ?_, hclauses,
    happly.trans (evalEnd_cond hstands es _)⟩
  exact ⟨hinner.inside, hstands,
    hinner.has (hprimitives .isNull) (by simp), hinner.has (hprimitives .car) (by simp),
    hinner.has (hprimitives .cdr) (by simp), hinner.has (hprimitives .cons) (by simp),
    hinner.bound ("filter", .closure c) (by simp), hinner.bound ("keep?", f) (by simp),
    hinner.bound ("xs", xs) (by simp)⟩

/-- `filter` filters. -/
theorem filter_sweep (h : w.Provides "filter" c)
    (hkeywords : ∀ k : Keyword, w.Unmasked rootScope k.name) (hf : f.isProcedure = true)
    (hxs : xs.elements? = some vs) :
    Sweep ctx f .filtering [] vs w (applyEnd ctx (.closure c) [f, xs] w) := by
  -- on the elements; an element that is kept goes in front when the others are done
  induction vs generalizing xs w with
  | nil =>
    obtain rfl := Value.nil_of_elements? hxs
    obtain ⟨inner, w₁, c₁, c₂, c₃, hw₁, hin, hclauses, happly⟩ :=
      filter_body ctx h hkeywords f .nil
    obtain ⟨w₂, hw₂, hend⟩ := hin.first_nil ctx hclauses (Value.elements?_ofList _)
    rw [happly, hend]
    exact .done (hw₁.trans hw₂) rfl
  | cons x vs ih =>
    obtain ⟨cell, d, rfl, hd⟩ := Value.pair_of_elements? hxs
    obtain ⟨inner, w₁, c₁, c₂, c₃, hw₁, hin, hclauses, happly⟩ :=
      filter_body ctx h hkeywords f (.pair cell x d)
    obtain ⟨last, w₂, hlast, hw₂, hend⟩ :=
      hin.first_cons ctx hf hclauses (Value.elements?_ofList _)
    have hw := hw₁.trans hw₂
    rw [happly, hend]
    cases happlied : applyEnd ctx f [x] w₂ with
    | none => exact .endless hw happlied
    | some r =>
      cases r with
      | error fault w₃ => exact .failed hw happlied
      | ok v w₃ =>
        have huntouched := untouched_of_apply happlied
        have hpast := hw.untouched.trans huntouched
        refine .next hw happlied ?_
        rw [End.ok_andThen]
        cases hv : v.isTrue with
        | true =>
          have hkeywords₃ (k : Keyword) : w₃.Unmasked rootScope k.name :=
            (hkeywords k).later h.installed.inside hpast.store
          have hrest := (ih (h.later hpast) hkeywords₃ hd).filtering_cons x
          rw [if_pos rfl]
          show Sweep ctx f .filtering (if v.isTrue then [] ++ [x] else []) vs w₃ _
          rw [if_pos hv]
          exact hrest
        | false =>
          have hin₃ := (hin.later hw₂.untouched).later huntouched
          obtain ⟨w₄, hw₄, hend₄⟩ := hin₃.last ctx hf hclauses hlast
          have hpast₄ := hpast.trans hw₄.untouched
          have hkeywords₄ (k : Keyword) : w₄.Unmasked rootScope k.name :=
            (hkeywords k).later h.installed.inside hpast₄.store
          have hrest := (ih (h.later hpast₄) hkeywords₄ hd).since hw₄
          rw [if_neg (by simp), hend₄]
          show Sweep ctx f .filtering (if v.isTrue then [] ++ [x] else []) vs w₃ _
          rw [if_neg (by simp [hv])]
          exact hrest

/-! ## §5. In every session -/

theorem evalEach_congr {en en' : Engine} {scope : Scope} (es : List Expr)
    (h : ∀ e w, en'.eval e scope w = en.eval e scope w) (w : World) :
    en'.evalEach scope es w = en.evalEach scope es w := by
  have hsame : (fun e => en'.eval e scope) = fun e => en.eval e scope :=
    funext fun e => funext fun w => h e w
  induction es generalizing w with
  | nil => rfl
  | cons e es ih =>
    unfold evalEach
    rw [congrFun hsame e, funext ih]

theorem evalEach_ok {en : Engine} {scope : Scope} {es : List Expr} {vs : List Value}
    (h : List.Forall₂ (fun e v => en.eval e scope w = .ok v w) es vs) :
    en.evalEach scope es w = .ok vs w := by
  induction h with
  | nil => rfl
  | cons he _ ih =>
    unfold evalEach
    rw [Eval.bind_of_ok he, Eval.bind_of_ok ih]
    rfl

/-- Where a call is evaluated, what its callee evaluates to is applied to what its arguments evaluate
to. -/
theorem occurs_applied {n : Nat} {scope : Scope} {callee : Expr} {es : List Expr}
    {forms vs : List Value} {f : Value} {w₁ w₂ : World}
    (h : Occurs ctx (n + 1) (.eval (.call callee es forms) scope) w)
    (hcallee : w.store.expanderAt? scope callee = none)
    (hf : (ofDepth ctx n).eval callee scope w = .ok f w₁)
    (hvs : (ofDepth ctx n).evalEach scope es w₁ = .ok vs w₂) : Occurs ctx n (.apply f vs) w₂ := by
  refine .inner h (consults_of_reaches (k := fun _ v => pure v) fun en' hsame => ?_)
  -- engines that differ in an application only evaluate alike
  have heval (e : Expr) (v : World) : en'.eval e scope v = (ofDepth ctx n).eval e scope v :=
    hsame (.eval e scope) v (by simp)
  show en'.evalCall ctx scope callee (.ok es) forms w = _
  unfold evalCall
  rw [Eval.bind_of_ok (expanderAt_eq w scope callee), hcallee]
  have hargs : en'.evalEach scope es w₁ = .ok vs w₂ := (evalEach_congr es heval w₁).trans hvs
  simp only [Eval.bind_of_ok ((heval callee w).trans hf), Eval.bind_of_ok hargs, bind_pure]
  rfl

/-- Where a name is called with arguments that evaluate silently, what it has as its value is applied
to them. -/
theorem occurs_called {n : Nat} {scope : Scope} {name : String} {es : List Expr}
    {forms vs : List Value} {f : Value}
    (h : Occurs ctx (n + 2) (.eval (.call (.var name) es forms) scope) w)
    (hhas : w.Has scope name f) (hf : f.isProcedure = true)
    (hes : List.Forall₂ (fun e v => (ofDepth ctx (n + 1)).eval e scope w = .ok v w) es vs) :
    Occurs ctx (n + 1) (.apply f vs) w := by
  have hcallee : (ofDepth ctx (n + 1)).eval (.var name) scope w = .ok f w :=
    evalVar_of_lookup hhas.lookup (ne_of_isProcedure hf).2
  exact occurs_applied h (expanderAt?_of_has hhas hf) hcallee (evalEach_ok hes)

/-- At every moment of every session at which a function or an operation and a list are given to the
`filter` of the prelude, and also when they are given to its `foldl` with a value to begin with: if the
prelude is installed and no keyword names an expander, then what is done is the sweep over the elements
of the list. So the value is applied once for each element, from left to right, and a failure is the
end of it; `filter` gives the elements for which it gave something else than `#f`, in order, and
`foldl` gives what it gave last. -/
theorem prelude_sweeps (ctx : Context) :
    (∀ {n : Nat} {w : World} {c : Closure} {f xs : Value} {vs : List Value}, w.Installed →
      (∀ k : Keyword, w.store.expander? rootScope k.name = none) →
      w.Has rootScope "filter" (.closure c) → f.isProcedure = true → xs.elements? = some vs →
      Occurs ctx n (.apply (.closure c) [f, xs]) w →
      Sweep ctx f .filtering [] vs w (applyEnd ctx (.closure c) [f, xs] w)) ∧
    ∀ {n : Nat} {w : World} {c : Closure} {f acc xs : Value} {vs : List Value}, w.Installed →
      w.Has rootScope "foldl" (.closure c) → f.isProcedure = true → xs.elements? = some vs →
      Occurs ctx n (.apply (.closure c) [f, acc, xs]) w →
      Sweep ctx f .folding acc vs w (applyEnd ctx (.closure c) [f, acc, xs] w) := by
  have hsupports {w : World} {name : String} {c : Closure} (hw : w.Grounded)
      (hhas : w.Has rootScope name (.closure c)) : w.Supports (.closure c) := by
    obtain ⟨slot, -, hcontent⟩ := hhas
    exact (hw.content hcontent).self
  constructor
  · intro n w c f xs vs hinstalled hkeywords hhas hf hxs hoccurs
    have harises : w.Arises ctx := .moment hoccurs
    have hprovides : w.Provides "filter" c :=
      ⟨hinstalled, hhas, hsupports harises.grounded hhas⟩
    exact filter_sweep hprovides
      (fun k => World.unmasked_of_expander? harises.tight (hkeywords k)) hf hxs
  · intro n w c f acc xs vs hinstalled hhas hf hxs hoccurs
    have harises : w.Arises ctx := .moment hoccurs
    have hprovides : w.Provides "foldl" c := ⟨hinstalled, hhas, hsupports harises.grounded hhas⟩
    obtain ⟨K, hw, hc, hargs⟩ :=
      Invariant.kept_region.occurs Invariant.starts_region (fun hlax => hlax) hoccurs
    exact foldl_sweep hprovides hf hxs hw hc.self hargs

/-- A function of the prelude that is called by a text, in a new session. -/
theorem occurs_typed (form' : Value) (vs : List Value) {s : Session} {name source : String}
    {form : Value} {es : List Expr} {forms : List Value} (hs : Session.start ctx = .ok s)
    (hform : (form', .function, name) ∈ Prelude.contents) (hread : readData source = .ok [form])
    (hbuild : Expr.build (form.tag s.world.nextTag).1 = .ok (.call (.var name) es forms))
    (hes : ∀ n (w : World), w.Installed → List.Forall₂ (fun e v =>
      (ofDepth ctx (n + 1)).eval e rootScope w = .ok v w) es vs) :
    ∃ n w c, w.Installed ∧ (∀ k : Keyword, w.store.expander? rootScope k.name = none) ∧
      w.Has rootScope name (.closure c) ∧ Occurs ctx n (.apply (.closure c) vs) w := by
  let w : World := { s.world with nextTag := (form.tag s.world.nextTag).2 }
  have huntouched : s.world.Untouched w := (s.world.silent_tags _).untouched
  have hinstalled := (Session.installed_of_startWithin hs).later huntouched
  obtain ⟨params, body, -, hbinds⟩ := hinstalled.definitions _ hform
  cases hbinds with
  | function c hhas hmade =>
    refine ⟨999999, w, c, hinstalled, fun k => ?_, hhas, ?_⟩
    · exact ((Session.unmasked_of_startWithin hs k).later
        (Session.installed_of_startWithin hs).inside huntouched.store).expander?
          (splitMember?_keyword k)
    · have hfirst := Occurs.first (Session.arises_of_startWithin hs) hread hbuild
      rw [(Session.start_settings hs).2] at hfirst
      exact occurs_called hfirst hhas rfl (hes 999998 w hinstalled)

/-- `(filter null? '(nil a))` and `(foldl cons nil '(a b))` in a new session. -/
theorem prelude_sweeps_started :
    let ctx : Context := ⟨.default, ⟨[], []⟩⟩
    let vs := [.nil, .symbol "a"]
    let us := [.symbol "a", .symbol "b"]
    (∃ n w c xs, w.Installed ∧ (∀ k : Keyword, w.store.expander? rootScope k.name = none) ∧
      w.Has rootScope "filter" (.closure c) ∧ (Value.primitive .isNull).isProcedure = true ∧
      xs.elements? = some vs ∧ Occurs ctx n (.apply (.closure c) [.primitive .isNull, xs]) w ∧
      Sweep ctx (.primitive .isNull) .filtering [] vs w
        (applyEnd ctx (.closure c) [.primitive .isNull, xs] w)) ∧
    ∃ n w c xs, w.Installed ∧ w.Has rootScope "foldl" (.closure c) ∧
      (Value.primitive .cons).isProcedure = true ∧ xs.elements? = some us ∧
      Occurs ctx n (.apply (.closure c) [.primitive .cons, .nil, xs]) w ∧
      Sweep ctx (.primitive .cons) .folding .nil us w
        (applyEnd ctx (.closure c) [.primitive .cons, .nil, xs] w) := by
  intro ctx vs us
  obtain ⟨s, hs⟩ := Session.exists_start_default
  constructor
  · let form := Value.ofList [.symbol "filter", .symbol "null?", .quote (.ofList vs)]
    have hread : readData "(filter null? '(nil a))" = .ok [form] :=
      Prelude.readData_of_readsAs rfl (by decide +kernel)
    obtain ⟨xs, forms, hbuild, hxs⟩ : ∃ xs forms,
        Expr.build (form.tag s.world.nextTag).1 = .ok (.call (.var "filter")
          [.var "null?", .literal (.quote xs)] forms) ∧ xs.elements? = some vs := by
      generalize s.world.nextTag = n
      exact ⟨_, _, by rfl, rfl⟩
    obtain ⟨n, w, c, hinstalled, hkeywords, hhas, hoccurs⟩ := occurs_typed Prelude.filterForm
      [.primitive .isNull, xs] hs (by simp [Prelude.contents]) hread hbuild fun n w hw =>
        .cons (evalVar_of_lookup (hw.primitives .isNull).lookup (by simp)) (.cons rfl .nil)
    exact ⟨n, w, c, xs, hinstalled, hkeywords, hhas, rfl, hxs, hoccurs,
      (prelude_sweeps ctx).1 hinstalled hkeywords hhas rfl hxs hoccurs⟩
  · let form := Value.ofList [.symbol "foldl", .symbol "cons", .nil, .quote (.ofList us)]
    have hread : readData "(foldl cons nil '(a b))" = .ok [form] :=
      Prelude.readData_of_readsAs rfl (by decide +kernel)
    obtain ⟨xs, forms, hbuild, hxs⟩ : ∃ xs forms,
        Expr.build (form.tag s.world.nextTag).1 = .ok (.call (.var "foldl")
          [.var "cons", .literal .nil, .literal (.quote xs)] forms) ∧ xs.elements? = some us := by
      generalize s.world.nextTag = n
      exact ⟨_, _, by rfl, rfl⟩
    obtain ⟨n, w, c, hinstalled, -, hhas, hoccurs⟩ := occurs_typed Prelude.foldlForm
      [.primitive .cons, .nil, xs] hs (by simp [Prelude.contents]) hread hbuild fun n w hw =>
        .cons (evalVar_of_lookup (hw.primitives .cons).lookup (by simp)) (.cons rfl (.cons rfl .nil))
    exact ⟨n, w, c, xs, hinstalled, hhas, rfl, hxs, hoccurs,
      (prelude_sweeps ctx).2 hinstalled hhas rfl hxs hoccurs⟩

end Engine

end TinyLisp
