import TinyLisp.Proofs.Building
import TinyLisp.Proofs.Simulation.Coverage
import TinyLisp.Proofs.Members
import TinyLisp.Expr.Free

/-!
# What an expression refers to covers it

The free variables of a function are found by a walk over the text of its body that has rules of
its own for what is bound where. These rules are those of coverage: a view in which the names found
are seen covers the body, with its functions, `let` forms, definitions, modules and the holes of its
templates (`Expr.covered_of_references`). Imports and expansions are left out, since the walk finds
nothing, or only the head of the form, where all names may be asked for.

The walk counts the name of a function as bound in its body. A function expression has no name when
it is built, so that nothing is lost by that (`Expr.build_unnamed`); a definition does bind the name.
-/

namespace TinyLisp.Expr

variable {P Q : Expr → Prop} {e e' : Expr}

/-! ## §1. Parts -/

/-- An expression is evaluated as a part of another, the holes of templates among the parts. -/
inductive PartOf : Expr → Expr → Prop
  | condition {c t e : Expr} : PartOf c (.ite c t e)
  | consequence {c t e : Expr} : PartOf t (.ite c t e)
  | alternative {c t e : Expr} : PartOf e (.ite c t e)
  | and {e : Expr} {es : List Expr} (he : e ∈ es) : PartOf e (.and es)
  | or {e : Expr} {es : List Expr} (he : e ∈ es) : PartOf e (.or es)
  | sequence {e : Expr} {es : List Expr} (he : e ∈ es) : PartOf e (.sequence es)
  | callee {f : Expr} {args : List Expr} {forms : List Value} : PartOf f (.call f args forms)
  | argument {f e : Expr} {args : List Expr} {forms : List Value} (he : e ∈ args) :
    PartOf e (.call f args forms)
  | deferred {f : Expr} {fault : FormError} {forms : List Value} :
    PartOf f (.deferred f fault forms)
  | initial {kind : LetKind} {b : String × Expr} {bs : List (String × Expr)} {body : Expr}
    (hb : b ∈ bs) : PartOf b.2 (.letIn kind bs body)
  | inside {kind : LetKind} {bs : List (String × Expr)} {body : Expr} :
    PartOf body (.letIn kind bs body)
  | lambda {name : Option String} {params : Params} {body : Expr} :
    PartOf body (.lambda name params body)
  | define {name : String} {e : Expr} : PartOf e (.define name e)
  | definition {kind : DefinitionKind} {name : String} {params : Params} {body : Expr} :
    PartOf body (.definition kind name params body)
  | module {name : String} {exports : List String} {e : Expr} {body : List Expr} (he : e ∈ body) :
    PartOf e (.module name exports body)
  | hole {t p : Value} {e : Expr} (hp : p ∈ t.holes 0) (he : build p = .ok e) :
    PartOf e (.literal (.quasiquote t))

/-- An expression has a property, and so have its parts, throughout. -/
inductive Throughout (P : Expr → Prop) : Expr → Prop
  | intro {e : Expr} (self : P e) (parts : ∀ e', PartOf e' e → Throughout P e') : Throughout P e

theorem Throughout.self (h : e.Throughout P) : P e := by
  cases h with
  | intro self _ => exact self

theorem Throughout.part (h : e.Throughout P) (he : PartOf e' e) : e'.Throughout P := by
  cases h with
  | intro _ parts => exact parts e' he

theorem Throughout.and (hP : e.Throughout P) (hQ : e.Throughout Q) :
    e.Throughout fun e => P e ∧ Q e := by
  induction hP with
  | intro self _ ih => exact .intro ⟨self, hQ.self⟩ fun e' he => ih e' he (hQ.part he)

namespace Throughout

variable {c t f : Expr} {es : List Expr} {body : Expr} {params : Params} {name : String}
variable {forms : List Value}

theorem var (h : P (.var name)) : (Expr.var name).Throughout P :=
  .intro h fun _ he => by cases he

theorem literal {v : Value} (h : P (.literal v)) (hv : ∀ t, v ≠ .quasiquote t) :
    (Expr.literal v).Throughout P := by
  refine .intro h fun e' he => ?_
  cases he with
  | hole => exact absurd rfl (hv _)

theorem ite (h : P (.ite c t e)) (hc : c.Throughout P) (ht : t.Throughout P)
    (he : e.Throughout P) : (Expr.ite c t e).Throughout P := by
  refine .intro h fun _ hpart => ?_
  cases hpart with
  | condition => exact hc
  | consequence => exact ht
  | alternative => exact he

theorem sequence (h : P (.sequence es)) (hes : ∀ e ∈ es, e.Throughout P) :
    (Expr.sequence es).Throughout P :=
  .intro h fun e' hpart => by cases hpart with | sequence he => exact hes e' he

theorem call (h : P (.call f es forms)) (hf : f.Throughout P) (hes : ∀ e ∈ es, e.Throughout P) :
    (Expr.call f es forms).Throughout P := by
  refine .intro h fun e' hpart => ?_
  cases hpart with
  | callee => exact hf
  | argument he => exact hes e' he

theorem letIn {kind : LetKind} {bs : List (String × Expr)} (h : P (.letIn kind bs body))
    (hbs : ∀ b ∈ bs, b.2.Throughout P) (hb : body.Throughout P) :
    (Expr.letIn kind bs body).Throughout P := by
  refine .intro h fun _ hpart => ?_
  cases hpart with
  | initial hmem => exact hbs _ hmem
  | inside => exact hb

theorem lambda {own : Option String} (h : P (.lambda own params body)) (hb : body.Throughout P) :
    (Expr.lambda own params body).Throughout P :=
  .intro h fun _ hpart => by cases hpart with | lambda => exact hb

theorem define (h : P (.define name e)) (he : e.Throughout P) :
    (Expr.define name e).Throughout P :=
  .intro h fun _ hpart => by cases hpart with | define => exact he

theorem module {exports : List String} (h : P (.module name exports es))
    (hes : ∀ e ∈ es, e.Throughout P) : (Expr.module name exports es).Throughout P :=
  .intro h fun e' hpart => by cases hpart with | module he => exact hes e' he

end Throughout

/-! ## §2. What is built -/

/-- An expression is not a function with a name. -/
def Unnamed : Expr → Prop
  | .lambda name _ _ => name = none
  | _ => True

/-- An import, or the expansion of a form: what it refers to, the text does not show. -/
def Covert : Expr → Prop
  | .importFrom .. | .macroexpand .. => True
  | _ => False

theorem composes_unnamed : Composes (Throughout Unnamed) (Throughout Unnamed) where
  missing := .literal trivial (by simp)
  body := .sequence trivial
  ite := .ite trivial
  and hes := .intro trivial fun _ hpart => by cases hpart with | and he => exact hes _ he
  or hes := .intro trivial fun _ hpart => by cases hpart with | or he => exact hes _ he
  sequence := .sequence trivial
  letIn := .letIn trivial
  lambda _ := .lambda rfl
  define := .define trivial
  definition _ hb := .intro trivial fun _ hpart => by cases hpart with | definition => exact hb
  module := .module trivial
  importFrom _ _ := .intro trivial fun _ he => by cases he

theorem descends_height (n : Nat) : Descends fun v => v.height < n := by
  intro v items hv hitems w hw
  have hle := height_le_of_elements? hitems hw
  omega

theorem height_lt_of_pair {n : Nat} {cell : Option Nat} {a d : Value}
    (h : (Value.pair cell a d).height < n) : a.height < n ∧ d.height < n := by
  simp only [Value.height] at h
  omega

/-- A function expression that is built has no name, also one in a hole of a template. -/
theorem build_unnamed {v : Value} (he : build v = .ok e) : e.Throughout Unnamed := by
  -- on the nesting of the forms, since what a hole builds to is not built with the template
  suffices h : ∀ n (v : Value), v.height < n → Yields (Throughout Unnamed) (build v) from
    h _ v (Nat.lt_succ_self _) e he
  intro n
  induction n with
  | zero => exact fun _ hv => absurd hv (Nat.not_lt_zero _)
  | succ n ih =>
    have hliteral : ∀ v : Value, v.height ≤ n + 1 → (literal v).Throughout Unnamed := by
      intro v hv
      refine .intro trivial fun e' hpart => ?_
      cases hpart with
      | hole hp he =>
        refine ih _ ?_ e' he
        have hlt := Value.height_lt_of_mem_holes hp
        simp only [Value.height] at hv
        omega
    have hrule : BuildRule (fun v => v.height < n + 1) (Throughout Unnamed) := by
      refine ⟨descends_height _, height_lt_of_pair, composes_unnamed, ?_, ?_, ?_, ?_, ?_⟩
      · exact ⟨fun hv => hliteral _ hv, fun hv => hliteral _ hv, fun hv => hliteral _ hv,
          fun hv => hliteral _ hv, fun _ => .intro trivial fun _ he => by cases he⟩
      · exact fun s => .var trivial
      · exact fun hv _ _ => hliteral _ (Nat.le_of_lt hv)
      · exact fun _ _ hf _ _ hargs => .call trivial hf hargs
      · intro head forms f fault _ _ hf _ _
        exact .intro trivial fun _ hpart => by cases hpart with | deferred => exact hf
    exact fun v hv => build_yields hrule hv

theorem templateHeightEach_le_iff {n : Nat} {es : List Expr} :
    templateHeightEach es ≤ n ↔ ∀ e ∈ es, e.templateHeight ≤ n := by
  induction es with
  | nil => simp [templateHeightEach]
  | cons e es ih => rw [templateHeightEach, Nat.max_le, ih, List.forall_mem_cons]

theorem templateHeightInits_le_iff {n : Nat} {bs : List (String × Expr)} :
    templateHeightInits bs ≤ n ↔ ∀ b ∈ bs, b.2.templateHeight ≤ n := by
  induction bs with
  | nil => simp [templateHeightInits]
  | cons b bs ih => rw [templateHeightInits, Nat.max_le, ih, List.forall_mem_cons]

theorem composes_templateHeight (n : Nat) :
    Composes (fun e => e.templateHeight ≤ n) (fun e => e.templateHeight ≤ n) where
  missing := Nat.zero_le n
  body hes := templateHeightEach_le_iff.2 hes
  ite hc ht he := Nat.max_le.2 ⟨hc, Nat.max_le.2 ⟨ht, he⟩⟩
  and hes := templateHeightEach_le_iff.2 hes
  or hes := templateHeightEach_le_iff.2 hes
  sequence hes := templateHeightEach_le_iff.2 hes
  letIn hbs hb := Nat.max_le.2 ⟨templateHeightInits_le_iff.2 hbs, hb⟩
  lambda _ hb := hb
  define he := he
  definition _ hb := hb
  module hes := templateHeightEach_le_iff.2 hes
  importFrom _ _ := Nat.zero_le n

/-- The forms in an expression nest hardly more deeply than the form that it is built from. -/
theorem templateHeight_le_of_build {v : Value} (he : build v = .ok e) :
    e.templateHeight ≤ v.height + 1 := by
  have hrule : BuildRule (fun w => w.height < v.height + 1)
      (fun e => e.templateHeight ≤ v.height + 1) := by
    refine ⟨descends_height _, height_lt_of_pair, composes_templateHeight _, ?_,
      fun _ => Nat.zero_le _, fun hw _ _ => Nat.le_of_lt hw, ?_, fun _ _ hf _ _ => hf⟩
    · exact ⟨fun hw => hw, fun hw => hw, fun hw => hw, fun hw => hw, fun _ => Nat.zero_le _⟩
    · intro head forms f args _ _ hf _ _ hargs
      exact Nat.max_le.2 ⟨hf, templateHeightEach_le_iff.2 hargs⟩
  exact build_yields hrule (Nat.lt_succ_self _) e he

/-! ## §3. References -/

variable {search : HoleSearch} {bound names : List String} {V : View}

theorem referencesEach_eq (es : List Expr) :
    referencesEach search bound es = es.flatMap (references search bound) := by
  induction es with
  | nil => rfl
  | cons e es ih => rw [referencesEach, ih, List.flatMap_cons]

theorem referencesInits_eq (bs : List (String × Expr)) :
    referencesInits search bound bs = bs.flatMap fun b => references search bound b.2 := by
  induction bs with
  | nil => rfl
  | cons b bs ih => rw [referencesInits, ih, List.flatMap_cons]

/-- The names that count as bound have slots, for good, and all names with a dot are seen. -/
structure Knows (V : View) (bound : List String) : Prop where
  seen : ∀ n ∈ bound, V.seen n
  bound : ∀ n ∈ bound, V.bound n
  dots : ∀ n, firstSegment n ≠ n → V.seen n

theorem Knows.adding (h : Knows V bound) (names : List String) :
    Knows (V.adding names) (names ++ bound) where
  seen n hn := (List.mem_append.1 hn).elim .inr fun hn => .inl (h.seen n hn)
  bound n hn := (List.mem_append.1 hn).elim .inr fun hn => .inl (h.bound n hn)
  dots n hn := .inl (h.dots n hn)

/-- A name whose reference is seen can be read. -/
theorem Knows.reads (h : Knows V bound) {name : String}
    (hseen : ∀ n ∈ reference bound name, V.seen n) : V.Reads name := by
  unfold reference at hseen
  by_cases hname : name ∈ bound
  · exact ⟨h.seen name hname, .inl (h.bound name hname)⟩
  · have hbase : V.seen (((splitMember? name).map Prod.fst).getD name) := by
      by_cases hb : ((splitMember? name).map Prod.fst).getD name ∈ bound
      · exact h.seen _ hb
      · exact hseen _ (by simp [hname, hb])
    cases hsplit : splitMember? name with
    | none =>
      rw [hsplit] at hbase
      exact ⟨hbase, .inr fun first rest hfirst => absurd (hsplit.symm.trans hfirst) (by simp)⟩
    | some p =>
      rw [hsplit] at hbase
      refine ⟨h.dots name fun hplain => ?_, .inr fun first rest hfirst => ?_⟩
      · rw [splitMember?_of_plain hplain] at hsplit
        cases hsplit
      · obtain rfl := Option.some.inj (hsplit.symm.trans hfirst)
        exact hbase

/-- Sequential bindings are covered if each initial value is, with the names before it, and the body,
with all of them. -/
theorem covered_sequential {bs : List (String × Expr)} {body : Expr} {all : List String}
    (hinit : ∀ b ∈ bs, ∀ {V bound}, Knows V bound →
      (∀ n ∈ references search bound b.2, V.seen n) → b.2.Covered V)
    (hbody : ∀ {V}, Knows V all → (∀ n ∈ references search all body, V.seen n) → body.Covered V)
    (h : Knows V bound) (hinits : ∀ n ∈ referencesNested search bound bs, V.seen n)
    (hall : ∀ n ∈ all, n ∈ bs.map Prod.fst ∨ n ∈ bound)
    (hrest : ∀ n ∈ references search all body, V.seen n) :
    (letIn .sequential bs body).Covered V := by
  induction bs generalizing V bound with
  | nil =>
    have hold : ∀ n ∈ all, n ∈ bound := fun n hn => (hall n hn).resolve_left (by simp)
    exact .sequentialNil (hbody ⟨fun n hn => h.seen n (hold n hn),
      fun n hn => h.bound n (hold n hn), h.dots⟩ hrest)
  | cons b bs ih =>
    obtain ⟨name, init⟩ := b
    unfold referencesNested at hinits
    rw [List.forall_mem_append] at hinits
    refine .sequentialCons (hinit (name, init) (by simp) h hinits.1) ?_
    refine ih (fun b hb => hinit b (List.mem_cons_of_mem _ hb)) (h.adding [name])
      (fun n hn => .inl (hinits.2 n hn)) (fun n hn => ?_) fun n hn => .inl (hrest n hn)
    have hcases := hall n hn
    simp only [List.map_cons, List.mem_cons] at hcases
    simp only [List.singleton_append, List.mem_cons]
    tauto

/-- A view in which the names that an expression refers to are seen covers the expression. -/
theorem covered_of_references {n : Nat} (he : e.Throughout fun e => e.Unnamed ∧ ¬ e.Covert)
    (hn : e.templateHeight ≤ n) (h : Knows V bound)
    (hseen : ∀ name ∈ references (formReferences n) bound e, V.seen name) : e.Covered V := by
  induction he generalizing n V bound with
  | @intro e self parts ih =>
    obtain ⟨hunnamed, hcovert⟩ := self
    -- parts in the same scope refer to some of the names that the whole refers to
    have heach : ∀ {es : List Expr}, (∀ x ∈ es, PartOf x e) → templateHeightEach es ≤ n →
        (∀ name ∈ referencesEach (formReferences n) bound es, V.seen name) →
        ∀ x ∈ es, x.Covered V := by
      intro es hes hn hseen x hx
      rw [referencesEach_eq, List.forall_mem_flatMap] at hseen
      exact ih x (hes x hx) (templateHeightEach_le_iff.1 hn x hx) h (hseen x hx)
    cases e with
    | literal v =>
      refine .literal fun t ht p hp x hx => ?_
      subst ht
      -- the hole nests less deeply, and is searched with what depth is left
      have hlow := Value.height_lt_of_mem_holes hp
      have hhigh := templateHeight_le_of_build hx
      simp only [templateHeight, Value.height] at hn
      obtain ⟨m, rfl⟩ : ∃ m, n = m + 1 := ⟨n - 1, by omega⟩
      refine ih x (.hole hp hx) (n := m) (by omega) h fun name hname => hseen name ?_
      rw [references]
      refine List.mem_flatMap.2 ⟨p, hp, ?_⟩
      unfold formReferences
      rw [hx]
      exact hname
    | var name => exact .var (h.reads hseen)
    | ite c t e =>
      obtain ⟨hc, hte⟩ := Nat.max_le.1 hn
      obtain ⟨ht, he⟩ := Nat.max_le.1 hte
      rw [references, List.forall_mem_append, List.forall_mem_append] at hseen
      exact .ite (ih c .condition hc h hseen.1.1) (ih t .consequence ht h hseen.1.2)
        (ih e .alternative he h hseen.2)
    | and es => exact .and (heach (fun _ he => .and he) hn hseen)
    | or es => exact .or (heach (fun _ he => .or he) hn hseen)
    | sequence es => exact .sequence (heach (fun _ he => .sequence he) hn hseen)
    | call f args forms =>
      obtain ⟨hf, hargs⟩ := Nat.max_le.1 hn
      rw [references, List.forall_mem_append] at hseen
      exact .call (ih f .callee hf h hseen.1) (heach (fun _ he => .argument he) hargs hseen.2)
    | deferred f fault forms =>
      rw [references, List.forall_mem_append] at hseen
      exact .deferred (ih f .deferred hn h hseen.1)
    | letIn kind bs body =>
      obtain ⟨hinits, hbody⟩ := Nat.max_le.1 hn
      rw [templateHeightInits_le_iff] at hinits
      have hinit : ∀ b ∈ bs, ∀ {V bound}, Knows V bound →
          (∀ name ∈ references (formReferences n) bound b.2, V.seen name) → b.2.Covered V :=
        fun b hb _ _ h hs => ih b.2 (.initial hb) (hinits b hb) h hs
      cases kind with
      | parallel =>
        rw [references, referencesInits_eq, List.forall_mem_append, List.forall_mem_flatMap] at hseen
        exact .parallel (fun b hb => hinit b hb h (hseen.1 b hb))
          (ih body .inside hbody (h.adding _) fun name hname => .inl (hseen.2 name hname))
      | sequential =>
        rw [references, List.forall_mem_append] at hseen
        exact covered_sequential hinit (fun h hs => ih body .inside hbody h hs) h hseen.1
          (fun _ hname => List.mem_append.1 hname) hseen.2
      | recursive =>
        rw [references, referencesInits_eq, List.forall_mem_append, List.forall_mem_flatMap] at hseen
        exact .recursive
          (fun b hb => hinit b hb (h.adding _) fun name hname => .inl (hseen.1 b hb name hname))
          (ih body .inside hbody (h.adding _) fun name hname => .inl (hseen.2 name hname))
    | lambda name params body =>
      obtain rfl : name = none := hunnamed
      rw [references, Option.toList_none, List.append_nil] at hseen
      exact .lambda (ih body .lambda hn (h.adding _) fun name hname => .inl (hseen name hname))
    | define name e => exact .define (ih e .define hn h hseen)
    | definition kind name params body =>
      rw [references, List.append_assoc] at hseen
      refine .definition (ih body .definition hn ((h.adding [name]).adding params.names) ?_)
      exact fun x hx => .inl (.inl (hseen x hx))
    | module name exports body => exact .module (heach (fun _ he => .module he) hn hseen)
    | importFrom target spec => exact absurd trivial hcovert
    | macroexpand form => exact absurd trivial hcovert

/-- The body of a function is covered by every view in which its free variables are seen, and all
names with a dot, once the parameters are bound. -/
theorem covered_of_freeVariables {form : Value} {body : Expr} (hbuilt : build form = .ok body)
    (hovert : body.Throughout fun e => ¬ e.Covert) (params : Params)
    (hfree : ∀ n ∈ freeVariables params none body, V.seen n)
    (hdots : ∀ n, firstSegment n ≠ n → V.seen n) : body.Covered (V.adding params.names) := by
  have hknows : Knows (V.adding params.names) params.names :=
    ⟨fun _ hn => .inr hn, fun _ hn => .inr hn, fun n hn => .inl (hdots n hn)⟩
  refine covered_of_references ((build_unnamed hbuilt).and hovert) (Nat.le_refl _) hknows ?_
  intro n hn
  refine .inl (hfree n (Names.mem_ofList.2 ?_))
  rwa [Option.toList_none, List.append_nil]

end TinyLisp.Expr
