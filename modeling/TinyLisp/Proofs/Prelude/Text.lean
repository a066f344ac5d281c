import TinyLisp.Proofs.Conversation
import Mathlib.Data.List.Basic

/-!
# What the prelude says

The prelude as data: its forms, in order, each with what it defines (`Prelude.contents`). Reading the
text gives these forms (`Prelude.readData_prelude`), and each of them builds to a definition, whatever
the tags of its pairs. `Prelude.Defines` says so of a name without the forms; of the definitions that
theorems are about, the parts are given here.
-/

namespace TinyLisp

/-! ## §1. Data of symbols -/

/-- Whether two untagged data made of symbols are the same. -/
def Value.same : Value → Value → Bool
  | .nil, .nil => true
  | .symbol a, .symbol b => a = b
  | .pair none a d, .pair none a' d' => a.same a' && d.same d'
  | .quote u, .quote v => u.same v
  | .quasiquote u, .quasiquote v => u.same v
  | .unquote u, .unquote v => u.same v
  | .unquoteSplicing u, .unquoteSplicing v => u.same v
  | _, _ => false

theorem Value.eq_of_same {u v : Value} (h : u.same v = true) : u = v := by
  fun_induction Value.same u v with
  | case1 => rfl
  | case2 a b => exact congrArg symbol (of_decide_eq_true h)
  | case3 a d a' d' iha ihd =>
    rw [Bool.and_eq_true] at h
    rw [iha h.1, ihd h.2]
  | case4 u v ih => rw [ih h]
  | case5 u v ih => rw [ih h]
  | case6 u v ih => rw [ih h]
  | case7 u v ih => rw [ih h]
  | case8 => cases h

/-- Whether two lists of such data are the same. -/
def Value.sameAll : List Value → List Value → Bool
  | [], [] => true
  | u :: us, v :: vs => u.same v && sameAll us vs
  | _, _ => false

theorem Value.eq_of_sameAll {us vs : List Value} (h : sameAll us vs = true) : us = vs := by
  fun_induction Value.sameAll us vs with
  | case1 => rfl
  | case2 u us v vs ih =>
    rw [Bool.and_eq_true] at h
    rw [Value.eq_of_same h.1, ih h.2]
  | case3 => cases h

namespace Prelude

open Value

/-! ## §2. The forms -/

/-- A list that begins with a name. -/
def form (name : String) (vs : List Value) : Value :=
  ofList (symbol name :: vs)

/-- A list of names. -/
def names (ns : List String) : Value :=
  ofList (ns.map symbol)

def whenForm : Value :=
  form "defmacro" [symbol "when", names ["test", "&rest", "body"],
    quasiquote (form "if" [unquote (symbol "test"),
      form "begin" [unquoteSplicing (symbol "body")], nil])]

def unlessForm : Value :=
  form "defmacro" [symbol "unless", names ["test", "&rest", "body"],
    quasiquote (form "if" [unquote (symbol "test"), nil,
      form "begin" [unquoteSplicing (symbol "body")]])]

def condForm : Value :=
  form "defmacro" [symbol "cond", names ["&rest", "clauses"],
    form "if" [form "null?" [symbol "clauses"],
      nil,
      form "let" [ofList [form "clause" [form "car" [symbol "clauses"]]],
        form "if" [form "eq?" [form "car" [symbol "clause"], quote (symbol "else")],
          quasiquote (form "begin" [unquoteSplicing (form "cdr" [symbol "clause"])]),
          quasiquote (form "if" [unquote (form "car" [symbol "clause"]),
            form "begin" [unquoteSplicing (form "cdr" [symbol "clause"])],
            form "cond" [unquoteSplicing (form "cdr" [symbol "clauses"])]])]]]]

def cadrForm : Value :=
  form "defun" [symbol "cadr", names ["x"], form "car" [form "cdr" [symbol "x"]]]

def cddrForm : Value :=
  form "defun" [symbol "cddr", names ["x"], form "cdr" [form "cdr" [symbol "x"]]]

def caddrForm : Value :=
  form "defun" [symbol "caddr", names ["x"], form "car" [form "cddr" [symbol "x"]]]

def filterForm : Value :=
  form "defun" [symbol "filter", names ["keep?", "xs"],
    form "cond" [ofList [form "null?" [symbol "xs"], nil],
      ofList [form "keep?" [form "car" [symbol "xs"]],
        form "cons" [form "car" [symbol "xs"],
          form "filter" [symbol "keep?", form "cdr" [symbol "xs"]]]],
      ofList [symbol "else", form "filter" [symbol "keep?", form "cdr" [symbol "xs"]]]]]

def foldlForm : Value :=
  form "defun" [symbol "foldl", names ["f", "acc", "xs"],
    form "if" [form "null?" [symbol "xs"], symbol "acc",
      form "foldl" [symbol "f", form "f" [symbol "acc", form "car" [symbol "xs"]],
        form "cdr" [symbol "xs"]]]]

/-- The forms of the prelude, each with the kind and the name of what it defines. -/
def contents : List (Value × DefinitionKind × String) :=
  [(whenForm, .expander, "when"), (unlessForm, .expander, "unless"), (condForm, .expander, "cond"),
   (cadrForm, .function, "cadr"), (cddrForm, .function, "cddr"), (caddrForm, .function, "caddr"),
   (filterForm, .function, "filter"), (foldlForm, .function, "foldl")]

/-- The forms of the prelude. -/
def forms : List Value := contents.map Prod.fst

/-- Whether a text, given by its characters, reads as some data of symbols. -/
def readsAs (cs : List Char) (vs : List Value) : Bool :=
  match Token.Mode.ground.tokens cs with
  | .error _ => false
  | .ok ts =>
    match readTokens (seenTokens ts) with
    | .error _ => false
    | .ok us => sameAll us vs

theorem readData_of_readsAs {s : String} {cs : List Char} {vs : List Value}
    (hs : s = String.ofList cs) (h : readsAs cs vs = true) : readData s = .ok vs := by
  unfold readsAs at h
  rw [readData_eq, significantTokens_eq, hs, String.toList_ofList]
  cases hts : Token.Mode.ground.tokens cs with
  | error e =>
    rw [hts] at h
    cases h
  | ok ts =>
    rw [hts] at h
    cases hus : readTokens (seenTokens ts) with
    | error e =>
      simp only [hus] at h
      cases h
    | ok us =>
      simp only [hus] at h
      rw [← eq_of_sameAll h]
      exact hus

set_option maxRecDepth 100000 in
/-- The prelude reads as these forms. -/
theorem readData_prelude : readData prelude = .ok forms :=
  readData_of_readsAs rfl (by decide +kernel)

/-! ## §3. The definitions -/

/-- The prelude defines something: one of its forms, when its pairs have got their tags, builds to
the definition. -/
def Defines (kind : DefinitionKind) (name : String) (params : Params) (body : Expr) : Prop :=
  ∃ forms form n, readData prelude = .ok forms ∧ form ∈ forms ∧
    Expr.build (form.tag n).1 = .ok (.definition kind name params body)

/-- All its forms are definitions. -/
theorem build_contents : ∀ d ∈ contents, ∀ n, ∃ params body,
    Expr.build (d.1.tag n).1 = .ok (.definition d.2.1 d.2.2 params body) := by
  simp only [contents, List.forall_mem_cons]
  -- each of the eight forms is built, with a number for the first tag that is not known
  refine ⟨?_, ?_, ?_, ?_, ?_, ?_, ?_, ?_, by simp⟩
  all_goals
    intro n
    generalize hbuild : Expr.build (Value.tag _ n).1 = x
    cbv at hbuild
    subst hbuild
    exact ⟨_, _, rfl⟩

theorem mem_contents_of_defines {kind : DefinitionKind} {name : String} {params : Params}
    {body : Expr} (h : Defines kind name params body) :
    ∃ form n, (form, kind, name) ∈ contents ∧
      Expr.build (form.tag n).1 = .ok (.definition kind name params body) := by
  obtain ⟨fs, form, n, hread, hform, hbuild⟩ := h
  rw [readData_prelude] at hread
  cases hread
  obtain ⟨d, hd, rfl⟩ := List.mem_map.1 hform
  obtain ⟨params', body', hbuild'⟩ := build_contents d hd n
  rw [hbuild'] at hbuild
  cases hbuild
  exact ⟨d.1, n, hd, hbuild'⟩

/-- An operation applied to a variable. -/
def op (name arg : String) : Expr :=
  .call (.var name) [.var arg] [symbol arg]

/-- A template of a list that begins with a name and goes on with the elements that an operation
gives for a variable. -/
def Splices (t : Value) (name operation arg : String) : Prop :=
  ∃ p, t.elements? = some [symbol name, unquoteSplicing p] ∧ Expr.build p = .ok (op operation arg)

/-- The body of `cond`: nothing for no clause; otherwise one template for a clause that begins with
`else`, and another one for all others. -/
theorem defines_cond {params : Params} {body : Expr} (h : Defines .expander "cond" params body) :
    params = ⟨[], some "clauses"⟩ ∧ ∃ t₁ t₂ vs, body =
        .ite (op "null?" "clauses") (.literal .nil)
          (.letIn .parallel [("clause", op "car" "clauses")]
            (.ite (.call (.var "eq?") [op "car" "clause", .literal (.quote (symbol "else"))] vs)
              (.literal (.quasiquote t₁)) (.literal (.quasiquote t₂)))) ∧
      Splices t₁ "begin" "cdr" "clause" ∧
      ∃ p x y, t₂.elements? = some [symbol "if", unquote p, x, y] ∧
        Expr.build p = .ok (op "car" "clause") ∧ Splices x "begin" "cdr" "clause" ∧
        Splices y "cond" "cdr" "clauses" := by
  obtain ⟨form, n, hform, hbuild⟩ := mem_contents_of_defines h
  obtain rfl : form = condForm := by simpa [contents] using hform
  cbv at hbuild
  cases hbuild
  exact ⟨rfl, _, _, _, rfl, ⟨_, rfl, by rfl⟩, _, _, _, rfl, by rfl, ⟨_, rfl, by rfl⟩,
    _, rfl, by rfl⟩

/-- The three clauses of `filter`: one for no element, one for an element that is kept, and one for all
others. -/
structure FilterClauses (c₁ c₂ c₃ : Value) : Prop where
  ends : ∃ t, c₁.elements? = some [t, nil] ∧ Expr.build t = .ok (op "null?" "xs")
  keeps : ∃ t b vs us ts, c₂.elements? = some [t, b] ∧
    Expr.build t = .ok (.call (.var "keep?") [op "car" "xs"] vs) ∧
    Expr.build b = .ok (.call (.var "cons")
      [op "car" "xs", .call (.var "filter") [.var "keep?", op "cdr" "xs"] us] ts)
  drops : ∃ b vs, c₃.elements? = some [symbol "else", b] ∧
    Expr.build b = .ok (.call (.var "filter") [.var "keep?", op "cdr" "xs"] vs)

/-- The body of `filter`: three clauses of `cond`. -/
theorem defines_filter {params : Params} {body : Expr}
    (h : Defines .function "filter" params body) :
    params = ⟨["keep?", "xs"], none⟩ ∧ ∃ es c₁ c₂ c₃,
      body = .call (.var "cond") es [c₁, c₂, c₃] ∧ FilterClauses c₁ c₂ c₃ := by
  obtain ⟨form, n, hform, hbuild⟩ := mem_contents_of_defines h
  obtain rfl : form = filterForm := by simpa [contents] using hform
  cbv at hbuild
  cases hbuild
  exact ⟨rfl, _, _, _, _, rfl, ⟨_, rfl, by rfl⟩, ⟨_, _, _, _, _, rfl, by rfl, by rfl⟩,
    _, _, rfl, by rfl⟩

/-- The body of `foldl`. -/
theorem defines_foldl {params : Params} {body : Expr} (h : Defines .function "foldl" params body) :
    params = ⟨["f", "acc", "xs"], none⟩ ∧ ∃ vs us, body =
      .ite (op "null?" "xs") (.var "acc")
        (.call (.var "foldl")
          [.var "f", .call (.var "f") [.var "acc", op "car" "xs"] vs, op "cdr" "xs"] us) := by
  obtain ⟨form, n, hform, hbuild⟩ := mem_contents_of_defines h
  obtain rfl : form = foldlForm := by simpa [contents] using hform
  cbv at hbuild
  cases hbuild
  exact ⟨rfl, _, _, rfl⟩

end Prelude

end TinyLisp
