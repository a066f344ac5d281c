import TinyLisp.Proofs.Unfolding
import TinyLisp.Proofs.Prelude.Installed

/-!
# `cond` as nested conditionals

`cond` is an expander of the prelude, written in the language. Where it stands as the prelude defines
it (`World.CondStands`), a call with clauses means one conditional and a call with one clause less:
the first clause decides, and the others are data until its test has given `#f` (`Engine.cond_none`,
`Engine.cond_else`, `Engine.cond_test`). By induction on the clauses a call does what its clauses say
in order (`Conditional.Course`), however many they are.

The tests are code, and code can bind `cond` anew. So what is needed is asked for again each time that
a test has given `#f` (`Conditional.Ready`), and it has to be: `Engine.cond_rebound`.
-/

namespace TinyLisp

open Prelude (op)

/-! ## §1. What is needed -/

/-- An expander is the `cond` of the prelude, and the operations that it uses are bound to their
names. -/
structure Expander.IsCond (m : Expander) (w : World) : Prop where
  made : ∃ params body, Prelude.Defines .expander "cond" params body ∧ m.Made w params body
  car : w.Has rootScope "car" (.primitive .car)
  cdr : w.Has rootScope "cdr" (.primitive .cdr)
  isNull : w.Has rootScope "null?" (.primitive .isNull)
  identical : w.Has rootScope "eq?" (.primitive .identical)

/-- In a scope `cond` names the expander of the prelude, and no keyword names an expander. -/
structure World.CondStands (w : World) (scope : Scope) : Prop where
  names : ∃ m, w.store.expander? scope "cond" = some m ∧ m.IsCond w
  keywords : ∀ k : Keyword, w.Unmasked scope k.name

theorem Expander.IsCond.later {m : Expander} {w w' : World} (h : m.IsCond w)
    (hw : w.Untouched w') : m.IsCond w' := by
  obtain ⟨params, body, hdefines, hmade⟩ := h.made
  exact ⟨⟨params, body, hdefines, hmade.later hw⟩, h.car.later h.car.inside hw.store,
    h.cdr.later h.cdr.inside hw.store, h.isNull.later h.isNull.inside hw.store,
    h.identical.later h.identical.inside hw.store⟩

theorem World.CondStands.later {w w' : World} {scope : Scope} (h : w.CondStands scope)
    (hs : w.Inside scope) (hw : w.Untouched w') : w'.CondStands scope := by
  obtain ⟨⟨m, hm, hcond⟩, hkeywords⟩ := h
  have hname : splitMember? "cond" = none := by decide
  have hhas := (World.has_of_expander? hname hm).later hs hw.store
  exact ⟨⟨m, hhas.expander?_eq_some, hcond.later hw⟩, fun k => (hkeywords k).later hs hw.store⟩

/-- It is so in every scope in which `cond` means what it means outermost, if the prelude is
installed. -/
theorem World.Installed.isCond {w : World} (h : w.Installed) :
    ∃ m, w.Has rootScope "cond" (.expander m) ∧ m.IsCond w := by
  obtain ⟨params, body, hdefines, hbinds⟩ :=
    h.definitions (Prelude.condForm, .expander, "cond") (by simp [Prelude.contents])
  cases hbinds with
  | expander m has made =>
    exact ⟨m, has, ⟨params, body, hdefines, made⟩, h.primitives .car, h.primitives .cdr,
      h.primitives .isNull, h.primitives .identical⟩

theorem World.Installed.condStands {w w' : World} {scope : Scope} {bs : List (String × Value)}
    (h : w.Installed) (hs : w.Entered rootScope bs w' scope) (hn : "cond" ∉ bs.map Prod.fst)
    (hkeywords : ∀ k : Keyword, w'.Unmasked scope k.name) : w'.CondStands scope := by
  obtain ⟨m, hhas, hcond⟩ := h.isCond
  exact ⟨⟨m, (hs.has hhas hn).expander?_eq_some, hcond.later hs.silent.untouched⟩, hkeywords⟩

namespace Engine

variable {ctx : Context} {w w' : World} {scope : Scope} {m : Expander}
variable {clause t v : Value} {rest body : List Value}

/-! ## §2. The body of the expander -/

/-- An expander of the outermost scope that is called comes to its body in a scope with its
parameters. -/
theorem runEnd_of_made (ctx : Context) (name : String) (args : List Value) {params : Params}
    {body : Expr} (h : m.Made w params body) (hroot : w.Inside rootScope)
    (harity : params.arity.contains args.length = true) (hnodup : params.names.Nodup) :
    ∃ rest inner w', rest.elements? = some (args.drop params.fixed.length) ∧
      w.Entered rootScope (params.bindings args rest) w' inner ∧
      atLast ctx (fun en => en.runExpander name m args) w =
        (evalEnd ctx body inner w').andThen fun v w₂ => some (.ok v.unquoted w₂) := by
  have hparams := h.params
  subst hparams
  obtain ⟨rest, inner, w', hrest, hrun, hinner⟩ :=
    Eval.entered_params (h.scope.symm ▸ hroot) harity hnodup name
  rw [h.scope] at hinner
  refine ⟨rest, inner, w', hrest, hinner, ?_⟩
  rw [runEnd_of_entered hrun, (h.later hinner.silent.untouched).getD_bodies]

/-- An operation on a variable that can be read. -/
theorem reads_op {p : Primitive} {name arg : String} {u : Value} (hs : w.Inside scope)
    (h : w.Has scope name (.primitive p)) (harg : w.Has scope arg u) (hu : u ≠ .unspecified)
    (hcall : ∀ en w, p.call en [u] w = .ok v w) : Reads ctx w scope (op name arg) v :=
  reads_operation hs h (.cons (reads_var hs harg hu) .nil) hcall _

/-- Identical to a symbol is the symbol only. -/
theorem identical_symbol {name : String} : v.identical (.symbol name) = true ↔ v = .symbol name := by
  cases v <;> simp [Value.identical, Value.equal]

theorem unquoted_of_elements? {vs : List Value} (h : v.elements? = some vs) : v.unquoted = v := by
  unfold Value.unquoted
  split
  · exact absurd h (by simp [Value.elements?])
  · rfl

/-- Without clauses the body gives `()`. -/
theorem run_none (ctx : Context) (h : m.IsCond w) :
    ∃ w', atLast ctx (fun en => en.runExpander "cond" m []) w = some (.ok .nil w') ∧ w.Silent w' := by
  obtain ⟨params, body, hdefines, hmade⟩ := h.made
  obtain ⟨rfl, t₁, t₂, vs, rfl, -, -⟩ := Prelude.defines_cond hdefines
  obtain ⟨clauses, inner, w₁, hclauses, hinner, hrun⟩ :=
    runEnd_of_made ctx "cond" [] hmade h.car.inside rfl (by decide)
  obtain rfl := Value.nil_of_elements? hclauses
  have hhas : w₁.Has inner "clauses" .nil := hinner.bound ("clauses", .nil) (by simp [Params.bindings])
  have hnull : Reads ctx w₁ inner (op "null?" "clauses") (.bool true) :=
    reads_op hinner.inside (hinner.has h.isNull (by decide)) hhas (by simp) fun _ _ => rfl
  refine ⟨w₁, ?_, hinner.silent⟩
  rw [hrun, evalEnd_ite_of_reads hnull, if_pos (by rfl), evalEnd_nil, End.ok_andThen]
  rfl

/-- In a scope the operations of `cond` and its variables have their values. -/
structure AtClause (w : World) (inner : Scope) (clauses clause : Value) : Prop where
  inside : w.Inside inner
  car : w.Has inner "car" (.primitive .car)
  cdr : w.Has inner "cdr" (.primitive .cdr)
  identical : w.Has inner "eq?" (.primitive .identical)
  clauses : w.Has inner "clauses" clauses
  clause : w.Has inner "clause" clause

/-- With a clause the body comes to the choice between its two templates. -/
theorem run_choice (ctx : Context) (h : m.IsCond w) (clause : Value) (rest : List Value) :
    ∃ clauses inner w₁ t₁ t₂ vs, clauses.elements? = some (clause :: rest) ∧
      AtClause w₁ inner clauses clause ∧ w.Silent w₁ ∧
      Prelude.Splices t₁ "begin" "cdr" "clause" ∧
      (∃ p x y, t₂.elements? = some [.symbol "if", .unquote p, x, y] ∧
        Expr.build p = .ok (op "car" "clause") ∧ Prelude.Splices x "begin" "cdr" "clause" ∧
        Prelude.Splices y "cond" "cdr" "clauses") ∧
      atLast ctx (fun en => en.runExpander "cond" m (clause :: rest)) w =
        (evalEnd ctx
          (.ite (.call (.var "eq?") [op "car" "clause", .literal (.quote (.symbol "else"))] vs)
            (.literal (.quasiquote t₁)) (.literal (.quasiquote t₂))) inner w₁).andThen
          fun v w₂ => some (.ok v.unquoted w₂) := by
  obtain ⟨params, body, hdefines, hmade⟩ := h.made
  obtain ⟨rfl, t₁, t₂, vs, rfl, ht₁, ht₂⟩ := Prelude.defines_cond hdefines
  obtain ⟨clauses, inner, w₁, hclauses, hinner, hrun⟩ :=
    runEnd_of_made ctx "cond" (clause :: rest) hmade h.car.inside
      (by simp [Params.arity, Arity.contains]) (by decide)
  have hinner : w.Entered rootScope [("clauses", clauses)] w₁ inner := hinner
  obtain ⟨cell, d, rfl, -⟩ := Value.pair_of_elements? hclauses
  have hhas : w₁.Has inner "clauses" (.pair cell clause d) := hinner.bound ("clauses", _) (by simp)
  have hcar₁ : w₁.Has inner "car" (.primitive .car) := hinner.has h.car (by simp)
  have hnull : Reads ctx w₁ inner (op "null?" "clauses") (.bool false) :=
    reads_op hinner.inside (hinner.has h.isNull (by simp)) hhas (by simp) fun _ _ => rfl
  have hcar : Reads ctx w₁ inner (op "car" "clauses") clause :=
    reads_op hinner.inside hcar₁ hhas (by simp) fun _ _ => rfl
  obtain ⟨scope, w₂, hscope, hlet⟩ := evalEnd_let_of_reads [("clause", op "car" "clauses")]
    hinner.inside (by simp) (.cons hcar .nil)
    (.ite (.call (.var "eq?") [op "car" "clause", .literal (.quote (.symbol "else"))] vs)
      (.literal (.quasiquote t₁)) (.literal (.quasiquote t₂)))
  have hscope : w₁.Entered inner [("clause", clause)] w₂ scope := hscope
  refine ⟨_, scope, w₂, t₁, t₂, vs, hclauses, ?_, hinner.silent.trans hscope.silent, ht₁, ht₂, ?_⟩
  · exact ⟨hscope.inside, hscope.has hcar₁ (by simp),
      hscope.has (hinner.has h.cdr (by simp)) (by simp),
      hscope.has (hinner.has h.identical (by simp)) (by simp), hscope.has hhas (by simp),
      hscope.bound ("clause", clause) (by simp)⟩
  · rw [hrun, evalEnd_ite_of_reads hnull, if_neg (by simp [Value.isTrue]), hlet]

/-- The choice: whether the test of the clause is `else`. -/
theorem AtClause.reads_choice {inner : Scope} {clauses : Value} {cell : Option Nat} {d : Value}
    (h : AtClause w inner clauses (.pair cell t d)) (ctx : Context) (vs : List Value) :
    Reads ctx w inner (op "car" "clause") t ∧
    Reads ctx w inner
      (.call (.var "eq?") [op "car" "clause", .literal (.quote (.symbol "else"))] vs)
      (.bool (t.identical (.symbol "else"))) := by
  have hcar : Reads ctx w inner (op "car" "clause") t :=
    reads_op h.inside h.car h.clause (by simp) fun _ _ => rfl
  exact ⟨hcar, reads_operation h.inside h.identical (.cons hcar (.cons (reads_quote _) .nil))
    (fun _ _ => rfl) vs⟩

/-- A template that splices the rest of a list in after a name. -/
theorem spells_splices (ctx : Context) {name arg : String} {cell : Option Nat} {a d : Value}
    (hs : w.Inside scope) (h : w.Has scope "cdr" (.primitive .cdr))
    (harg : w.Has scope arg (.pair cell a d)) (hd : d.elements? = some rest)
    (ht : Prelude.Splices t name "cdr" arg) :
    ∃ items, t.elements? = some items ∧ Spells ctx w scope items (· = .symbol name :: rest) := by
  obtain ⟨p, helements, hbuild⟩ := ht
  have hcdr : Reads ctx w scope (op "cdr" arg) d := reads_op hs h harg (by simp) fun _ _ => rfl
  exact ⟨_, helements, .symbol (.splice hbuild hcdr hd (.nil (by simp)))⟩

/-- With a clause whose test is `else` the body gives the clause in sequence. -/
theorem run_else (ctx : Context) (h : m.IsCond w) (hclause : clause.elements? = some (.symbol "else" :: body))
    (rest : List Value) :
    ∃ x w', atLast ctx (fun en => en.runExpander "cond" m (clause :: rest)) w = some (.ok x w') ∧
      w.Silent w' ∧ x.elements? = some (.symbol "begin" :: body) := by
  obtain ⟨clauses, inner, w₁, t₁, t₂, vs, -, hat, hw₁, ht₁, -, hrun⟩ :=
    run_choice ctx h clause rest
  obtain ⟨cell, d, rfl, hd⟩ := Value.pair_of_elements? hclause
  obtain ⟨-, hchoice⟩ := hat.reads_choice ctx vs
  obtain ⟨items, hitems, hspells⟩ := spells_splices ctx hat.inside hat.cdr hat.clause hd ht₁
  obtain ⟨x, us, w₂, hx, hw₂, helements, rfl⟩ := hspells.quasiquote hitems
  refine ⟨x, w₂, ?_, hw₁.trans hw₂, helements⟩
  rw [hrun, evalEnd_ite_of_reads hchoice, if_pos (by decide), hx, End.ok_andThen,
    unquoted_of_elements? helements]

/-- With any other clause the body gives a conditional, with the other clauses for its last part. -/
theorem run_test (ctx : Context) (h : m.IsCond w) (hclause : clause.elements? = some (t :: body))
    (ht : t ≠ .symbol "else") (rest : List Value) :
    ∃ x y z w', atLast ctx (fun en => en.runExpander "cond" m (clause :: rest)) w =
        some (.ok x w') ∧ w.Silent w' ∧ x.elements? = some [.symbol "if", t, y, z] ∧
      y.elements? = some (.symbol "begin" :: body) ∧ z.elements? = some (.symbol "cond" :: rest) := by
  obtain ⟨clauses, inner, w₁, t₁, t₂, vs, hclauses, hat, hw₁, -, ht₂, hrun⟩ :=
    run_choice ctx h clause rest
  obtain ⟨cell, d, rfl, hd⟩ := Value.pair_of_elements? hclause
  obtain ⟨_, ds, rfl, hds⟩ := Value.pair_of_elements? hclauses
  obtain ⟨hcar, hchoice⟩ := hat.reads_choice ctx vs
  obtain ⟨p, y, z, helements, hp, hy, hz⟩ := ht₂
  obtain ⟨ys, hys, hspellsY⟩ := spells_splices ctx hat.inside hat.cdr hat.clause hd hy
  obtain ⟨zs, hzs, hspellsZ⟩ := spells_splices ctx hat.inside hat.cdr hat.clauses hds hz
  have hspells : Spells ctx w₁ inner [.symbol "if", .unquote p, y, z] fun us =>
      ∃ y z, us = [.symbol "if", t, y, z] ∧ y.elements? = some (.symbol "begin" :: body) ∧
        z.elements? = some (.symbol "cond" :: rest) := by
    refine .symbol (.hole hp hcar (.list hys hspellsY fun y us hy hus => ?_))
    refine .list hzs hspellsZ fun z us' hz hus' => .nil ⟨y, z, rfl, ?_, ?_⟩
    · rw [hy, hus]
    · rw [hz, hus']
  obtain ⟨x, us, w₂, hx, hw₂, hus, y, z, rfl, hy, hz⟩ := hspells.quasiquote helements
  refine ⟨x, y, z, w₂, ?_, hw₁.trans hw₂, hus, hy, hz⟩
  have hne : ¬ (Value.bool (t.identical (.symbol "else"))).isTrue = true := by
    cases hidentical : t.identical (.symbol "else") with
    | true => exact absurd (identical_symbol.1 hidentical) ht
    | false => simp [Value.isTrue]
  rw [hrun, evalEnd_ite_of_reads hchoice, if_neg hne, hx, End.ok_andThen, unquoted_of_elements? hus]

/-! ## §3. One clause -/

theorem splitMember?_keyword (k : Keyword) : splitMember? k.name = none := by
  have hall : ∀ k ∈ Keyword.all, splitMember? k.name = none := by decide +kernel
  exact hall k (Keyword.mem_all k)

/-- An expansion that is a special form is evaluated in place of the call. -/
theorem expansionEnd_of_keyword {x : Value} {vs : List Value} {name : String} (k : Keyword)
    (h : w.CondStands scope) (hs : w.Inside scope)
    (hrun : atLast ctx (fun en => en.runExpander name m rest) w = some (.ok x w'))
    (hw : w.Silent w') (hx : x.elements? = some (.symbol k.name :: vs)) :
    expansionEnd ctx name m rest scope w = formEnd ctx x scope w' := by
  have hkeyword := ((h.keywords k).later hs hw.store).expander? (splitMember?_keyword k)
  refine expansionEnd_of_run hrun ?_
  unfold Store.expanderCall?
  simp only [hx, hkeyword, Option.map_none]

variable {form : Value} {es : List Expr} {e : Expr}

theorem build_sequence (h : form.elements? = some (.symbol "begin" :: body))
    (hbody : Expr.buildAll body = .ok es) : Expr.build form = .ok (.sequence es) := by
  rw [Expr.build_of_keyword .sequence h]
  show (Expr.buildAll body).map Expr.sequence = _
  rw [hbody]
  rfl

/-- Without clauses `cond` gives `()`. -/
theorem cond_none (ctx : Context) (h : w.CondStands scope) (hform : form.elements? = some [.symbol "cond"]) :
    ∃ w', w.Silent w' ∧ formEnd ctx form scope w = some (.ok .nil w') := by
  obtain ⟨⟨m, hm, hcond⟩, -⟩ := h
  obtain ⟨w', hrun, hw⟩ := run_none ctx hcond
  refine ⟨w', hw, ?_⟩
  rw [formEnd_of_expander hform (by rfl) hm, expansionEnd_of_run hrun rfl]
  exact (formEnd_of_build (Expr.build_eq .nil) scope w').trans evalEnd_nil

/-- A clause whose test is `else` is chosen, and nothing is evaluated before its body. -/
theorem cond_else (ctx : Context) (h : w.CondStands scope) (hs : w.Inside scope)
    (hform : form.elements? = some (.symbol "cond" :: clause :: rest))
    (hclause : clause.elements? = some (.symbol "else" :: body))
    (hbody : Expr.buildAll body = .ok es) :
    ∃ w', w.Silent w' ∧ formEnd ctx form scope w = sequenceEnd ctx .nil es scope w' := by
  obtain ⟨m, hm, hcond⟩ := h.names
  obtain ⟨x, w', hrun, hw, hx⟩ := run_else ctx hcond hclause rest
  refine ⟨w', hw, ?_⟩
  calc
    _ = expansionEnd ctx "cond" m (clause :: rest) scope w := formEnd_of_expander hform (by rfl) hm
    _ = formEnd ctx x scope w' := expansionEnd_of_keyword .sequence h hs hrun hw hx
    _ = evalEnd ctx (.sequence es) scope w' := formEnd_of_build (build_sequence hx hbody) scope w'
    _ = _ := evalEnd_sequence es

/-- Any other clause: its test is evaluated, and then its body, or `cond` with the other clauses. -/
theorem cond_test (ctx : Context) (h : w.CondStands scope) (hs : w.Inside scope)
    (hform : form.elements? = some (.symbol "cond" :: clause :: rest))
    (hclause : clause.elements? = some (t :: body)) (hne : t ≠ .symbol "else")
    (ht : Expr.build t = .ok e) (hbody : Expr.buildAll body = .ok es) :
    ∃ next w', next.elements? = some (.symbol "cond" :: rest) ∧ w.Silent w' ∧
      formEnd ctx form scope w = (evalEnd ctx e scope w').andThen fun v w₁ =>
        if v.isTrue then sequenceEnd ctx .nil es scope w₁ else formEnd ctx next scope w₁ := by
  obtain ⟨m, hm, hcond⟩ := h.names
  obtain ⟨x, y, z, w', hrun, hw, hx, hy, hz⟩ := run_test ctx hcond hclause hne rest
  refine ⟨z, w', hz, hw, ?_⟩
  obtain ⟨f, hbuildZ⟩ : ∃ f, Expr.build z = .ok f := by
    rcases build_call hz (by rfl) with ⟨es, he⟩ | ⟨fault, he⟩
    · exact ⟨_, he⟩
    · exact ⟨_, he⟩
  have hbuild : Expr.build x = .ok (.ite e (.sequence es) f) := by
    rw [Expr.build_of_keyword .ite hx]
    simp only [Expr.buildSpecial, Expr.buildIte, ht, build_sequence hy hbody, hbuildZ]
    rfl
  calc
    _ = expansionEnd ctx "cond" m (clause :: rest) scope w := formEnd_of_expander hform (by rfl) hm
    _ = formEnd ctx x scope w' := expansionEnd_of_keyword .ite h hs hrun hw hx
    _ = evalEnd ctx (.ite e (.sequence es) f) scope w' := formEnd_of_build hbuild scope w'
    _ = _ := by
      rw [evalEnd_ite]
      refine End.andThen_congr fun v w₁ _ => ?_
      split
      · exact evalEnd_sequence es
      · exact (formEnd_of_build hbuildZ scope w₁).symm

end Engine

/-! ## §4. All clauses -/

namespace Conditional

open Engine (End evalEnd sequenceEnd)

/-- A clause builds: its test, unless this is the symbol `else`, and its body. -/
inductive Clause (clause : Value) : Option Expr → List Expr → Prop
  | otherwise {body : List Value} {es : List Expr}
      (shape : clause.elements? = some (.symbol "else" :: body))
      (body_eq : Expr.buildAll body = .ok es) : Clause clause none es
  | test {t : Value} {body : List Value} {e : Expr} {es : List Expr}
      (shape : clause.elements? = some (t :: body)) (ne_else : t ≠ .symbol "else")
      (test_eq : Expr.build t = .ok e) (body_eq : Expr.buildAll body = .ok es) :
      Clause clause (some e) es

/-- `cond` can go on to some clauses: it stands as the prelude defines it, and the first of them, if
there is one, builds. -/
structure Ready (w : World) (scope : Scope) (clauses : List Value) : Prop where
  stands : w.CondStands scope
  builds : ∀ clause ∈ clauses.head?, ∃ test es, Clause clause test es

/-- What a list of clauses does in a scope, and how that ends. The tests are evaluated in order, each
of them once; the first that is true decides, and the body of its clause is evaluated in sequence.
`else` decides without a test, and if no clause decides the value is `()`. Between these evaluations
there is silent work only. Each time that a test has given `#f` it is asked whether `cond` can go on;
nothing is said of what happens where it cannot. -/
inductive Course (ctx : Context) (scope : Scope) : List Value → World → End Value → Prop
  | none {w w' : World} (silent : w.Silent w') : Course ctx scope [] w (some (.ok .nil w'))
  | otherwise {clause : Value} {rest : List Value} {es : List Expr} {w w' : World}
      (clause_eq : Clause clause none es) (silent : w.Silent w') :
      Course ctx scope (clause :: rest) w (sequenceEnd ctx .nil es scope w')
  | chosen {clause : Value} {rest : List Value} {e : Expr} {es : List Expr} {w w' w₁ : World}
      {v : Value} (clause_eq : Clause clause (some e) es) (silent : w.Silent w')
      (test : evalEnd ctx e scope w' = some (.ok v w₁)) (holds : v.isTrue = true) :
      Course ctx scope (clause :: rest) w (sequenceEnd ctx .nil es scope w₁)
  | next {clause : Value} {rest : List Value} {e : Expr} {es : List Expr} {w w' w₁ : World}
      {v : Value} {o : End Value} (clause_eq : Clause clause (some e) es) (silent : w.Silent w')
      (test : evalEnd ctx e scope w' = some (.ok v w₁)) (fails : v.isTrue = false)
      (others : Ready w₁ scope rest → Course ctx scope rest w₁ o) :
      Course ctx scope (clause :: rest) w o
  | failed {clause : Value} {rest : List Value} {e : Expr} {es : List Expr} {w w' w₁ : World}
      {fault : Halt} (clause_eq : Clause clause (some e) es) (silent : w.Silent w')
      (test : evalEnd ctx e scope w' = some (.error fault w₁)) :
      Course ctx scope (clause :: rest) w (some (.error fault w₁))
  | endless {clause : Value} {rest : List Value} {e : Expr} {es : List Expr} {w w' : World}
      (clause_eq : Clause clause (some e) es) (silent : w.Silent w')
      (test : evalEnd ctx e scope w' = Option.none) :
      Course ctx scope (clause :: rest) w Option.none

end Conditional

namespace Engine

variable {ctx : Context} {w w' : World} {scope : Scope} {form v : Value} {clauses : List Value}

theorem grows_of_eval {e : Expr} (h : evalEnd ctx e scope w = some (.ok v w')) : w.Grows w' := by
  obtain ⟨⟨n, hrun⟩, -⟩ := (atLast_eq_some (deepens_eval e scope)).1 h
  have hgrows := perform_grows ctx n (.eval e scope) w
  rwa [show (ofDepth ctx n).perform (.eval e scope) = (ofDepth ctx n).eval e scope from rfl,
    Eval.after_of_ok hrun] at hgrows

/-- A call of `cond` does what its clauses say. -/
theorem cond_course (hs : w.Inside scope)
    (hform : form.elements? = some (.symbol "cond" :: clauses))
    (h : Conditional.Ready w scope clauses) :
    Conditional.Course ctx scope clauses w (formEnd ctx form scope w) := by
  -- on the clauses; the call with one clause less is another form in another world
  induction clauses generalizing form w with
  | nil =>
    obtain ⟨w', hw, hend⟩ := cond_none ctx h.stands hform
    rw [hend]
    exact .none hw
  | cons clause rest ih =>
    obtain ⟨test, es, hclause⟩ := h.builds clause rfl
    have hclause' := hclause
    cases hclause with
    | otherwise shape body_eq =>
      obtain ⟨w', hw, hend⟩ := cond_else ctx h.stands hs hform shape body_eq
      rw [hend]
      exact .otherwise hclause' hw
    | @test t body e _ shape ne_else test_eq body_eq =>
      obtain ⟨next, w', hnext, hw, hend⟩ :=
        cond_test ctx h.stands hs hform shape ne_else test_eq body_eq
      have hs' : w'.Inside scope := hs.later hw.untouched.grows
      rw [hend]
      cases htest : evalEnd ctx e scope w' with
      | none => exact .endless hclause' hw htest
      | some r =>
        cases r with
        | error fault w₁ => exact .failed hclause' hw htest
        | ok v w₁ =>
          rw [End.ok_andThen]
          cases hv : v.isTrue with
          | true =>
            rw [if_pos rfl]
            exact .chosen hclause' hw htest hv
          | false =>
            rw [if_neg (by simp)]
            exact .next hclause' hw htest hv fun hready =>
              ih (hs'.later (grows_of_eval htest)) hnext hready

/-- In a new session `cond` stands as the prelude defines it. -/
theorem condStands_of_startWithin {depth : Nat} {s : Session}
    (h : Session.startWithin depth ctx = .ok s) : s.world.CondStands rootScope := by
  obtain ⟨m, hhas, hcond⟩ := (Session.installed_of_startWithin h).isCond
  exact ⟨⟨m, hhas.expander?_eq_some, hcond⟩, Session.unmasked_of_startWithin h⟩

/-- Two clauses in a new session: `(cond ((eq? 'a 'b) 'a) (else 'b))`. -/
theorem cond_course_started :
    let ctx : Context := ⟨.default, ⟨[], []⟩⟩
    let test := Value.ofList [.symbol "eq?", .quote (.symbol "a"), .quote (.symbol "b")]
    let clauses := [Value.ofList [test, .quote (.symbol "a")],
      Value.ofList [.symbol "else", .quote (.symbol "b")]]
    let form := Value.ofList (.symbol "cond" :: clauses)
    ∃ s, Session.start ctx = .ok s ∧ s.world.Inside rootScope ∧
      form.elements? = some (.symbol "cond" :: clauses) ∧
      Conditional.Ready s.world rootScope clauses ∧
      Conditional.Course ctx rootScope clauses s.world (formEnd ctx form rootScope s.world) := by
  intro ctx test clauses form
  obtain ⟨s, hs⟩ := Session.exists_start_default
  have hroot := (Session.installed_of_startWithin hs).inside
  have hform : form.elements? = some (.symbol "cond" :: clauses) := Value.elements?_ofList _
  have hready : Conditional.Ready s.world rootScope clauses := by
    refine ⟨condStands_of_startWithin hs, fun clause hclause => ?_⟩
    obtain rfl := Option.mem_some_iff.1 hclause
    exact ⟨_, _, .test (Value.elements?_ofList _) (by simp [test, Value.ofList, Value.chain])
      (by rfl) (by rfl)⟩
  exact ⟨s, hs, hroot, hform, hready, cond_course hroot hform hready⟩

/-- The name that an outcome reports as not bound. -/
def unboundName? : Outcome → Option String
  | .error (.eval (.unbound name)) => some name
  | _ => none

theorem eq_of_unboundName? {o : Outcome} {name : String} (h : unboundName? o = some name) :
    o = .error (.eval (.unbound name)) := by
  unfold unboundName? at h
  split at h
  · cases h
    rfl
  · cases h

set_option maxRecDepth 100000 in
/-- A test that binds `cond` anew and gives `#f`. In a new session `cond` stands as the prelude
defines it, and both clauses build; still the clause after it is not chosen, for it is the argument of
an application by then. -/
theorem cond_rebound :
    let ctx : Context := ⟨.default, ⟨[], []⟩⟩
    let test := Value.ofList [.symbol "begin", Value.ofList [.symbol "define", .symbol "cond", .nil],
      Value.ofList [.symbol "eq?", .quote (.symbol "a"), .quote (.symbol "b")]]
    let first := Value.ofList [test, .quote (.symbol "a")]
    let second := Value.ofList [.symbol "else", .quote (.symbol "b")]
    let form := Value.ofList [.symbol "cond", first, second]
    readData "(cond ((begin (define cond nil) (eq? 'a 'b)) 'a) (else 'b))" = .ok [form] ∧
      (∃ e es, Conditional.Clause first (some e) es ∧ Expr.build test = .ok e) ∧
      Conditional.Clause second none [.literal (.quote (.symbol "b"))] ∧
      ∃ s, Session.start ctx = .ok s ∧ s.world.Inside rootScope ∧ s.world.CondStands rootScope ∧
        (s.evalData [test]).1 = .ok (.bool false) ∧
        (s.evalData [form]).1 = .error (.eval (.unbound "else")) := by
  intro ctx test first second form
  let ends (s : Session) : Bool :=
    (s.evalData [test]).1.toOption.map Value.isTrue == some false &&
      unboundName? (s.evalData [form]).1 == some "else"
  obtain ⟨s, hs, hends⟩ := Session.exists_start_at ctx (p := ends) (by decide +kernel)
  obtain ⟨hfalse, hunbound⟩ := Bool.and_eq_true_iff.1 hends
  have htest : (s.evalData [test]).1 = .ok (.bool false) := eq_false_of_outcome (beq_iff_eq.1 hfalse)
  have hform : (s.evalData [form]).1 = .error (.eval (.unbound "else")) :=
    eq_of_unboundName? (beq_iff_eq.1 hunbound)
  refine ⟨Prelude.readData_of_readsAs rfl (by decide +kernel), ?_, ?_, s, hs,
    (Session.installed_of_startWithin hs).inside, condStands_of_startWithin hs, htest, hform⟩
  · exact ⟨_, _, .test (Value.elements?_ofList _) (by simp [test, Value.ofList, Value.chain])
      (by rfl) (by rfl), by rfl⟩
  · exact .otherwise (Value.elements?_ofList _) (by rfl)

end Engine

end TinyLisp
