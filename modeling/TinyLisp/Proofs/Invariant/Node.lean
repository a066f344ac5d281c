import TinyLisp.Proofs.Reading.Datum
import TinyLisp.Expr.Build
import TinyLisp.Primitive.Record
import Mathlib.Data.List.Induction

/-!
# The nodes of a value

A value is a tree: a pair, a record and a wrapper have values inside them, all others have none.
`Value.nodes` lists all values in a value, itself included, so that "nowhere in this value" is
said by a property of single nodes (`Value.Every`). An expression contains values too: literals,
and the forms that a call or an expansion keeps as they were read.
-/

namespace TinyLisp

/-! ## §1. Nodes -/

namespace Value

mutual

/-- All values in a value, itself first. -/
def nodes : Value → List Value
  | pair cell a d => pair cell a d :: (a.nodes ++ d.nodes)
  | record cell name fields => record cell name fields :: fieldNodes fields
  | quote v => quote v :: v.nodes
  | quasiquote v => quasiquote v :: v.nodes
  | unquote v => unquote v :: v.nodes
  | unquoteSplicing v => unquoteSplicing v :: v.nodes
  | v => [v]
termination_by structural v => v

/-- All values in some fields. -/
def fieldNodes : List (String × Value) → List Value
  | [] => []
  | (_, v) :: fields => v.nodes ++ fieldNodes fields
termination_by structural fields => fields

end

theorem self_mem_nodes (v : Value) : v ∈ v.nodes := by
  cases v <;> simp [nodes]

/-- Every node of a value has a property. -/
def Every (N : Value → Prop) (v : Value) : Prop :=
  ∀ u ∈ v.nodes, N u

variable {N M : Value → Prop} {v a d : Value}

theorem Every.self (h : v.Every N) : N v :=
  h v v.self_mem_nodes

theorem Every.mono (h : v.Every N) (hNM : ∀ u, N u → M u) : v.Every M :=
  fun u hu => hNM u (h u hu)

/-- A value with nothing inside it has one node. -/
theorem every_single (hv : v.nodes = [v]) : v.Every N ↔ N v := by
  simp only [Every, hv, List.mem_singleton, forall_eq]

/-- A wrapper has one node more than what it wraps. -/
theorem every_wrapper (hv : v.nodes = v :: a.nodes) : v.Every N ↔ N v ∧ a.Every N := by
  simp only [Every, hv, List.mem_cons, forall_eq_or_imp]

/-- The nodes that every computation may use freely: atoms and primitive operations, and the
wrappers, of which nothing is asked but that what they wrap is good. -/
def Plain : Value → Prop
  | nil | int _ | float _ | bool _ | symbol _ | string _ | primitive _ => True
  | quote _ | quasiquote _ | unquote _ | unquoteSplicing _ => True
  | _ => False

@[simp] theorem every_pair {cell : Option Nat} :
    (pair cell a d).Every N ↔ N (pair cell a d) ∧ a.Every N ∧ d.Every N :=
  List.forall_mem_cons.trans (and_congr_right' List.forall_mem_append)

theorem mem_fieldNodes {fields : List (String × Value)} {u : Value} :
    u ∈ fieldNodes fields ↔ ∃ field ∈ fields, u ∈ field.2.nodes := by
  induction fields with
  | nil => simp [fieldNodes]
  | cons field fields ih =>
    obtain ⟨name, v⟩ := field
    simp [fieldNodes, ih]

@[simp] theorem every_record {cell : Nat} {name : String} {fields : List (String × Value)} :
    (record cell name fields).Every N ↔
      N (record cell name fields) ∧ ∀ field ∈ fields, field.2.Every N := by
  refine List.forall_mem_cons.trans (and_congr_right' ?_)
  constructor
  · intro h field hf u hu
    exact h u (mem_fieldNodes.2 ⟨field, hf, hu⟩)
  · intro h u hu
    obtain ⟨field, hf, hu⟩ := mem_fieldNodes.1 hu
    exact h field hf u hu

@[simp] theorem every_quote : (quote v).Every N ↔ N (quote v) ∧ v.Every N :=
  every_wrapper rfl

@[simp] theorem every_quasiquote : (quasiquote v).Every N ↔ N (quasiquote v) ∧ v.Every N :=
  every_wrapper rfl

@[simp] theorem every_unquote : (unquote v).Every N ↔ N (unquote v) ∧ v.Every N :=
  every_wrapper rfl

@[simp] theorem every_unquoteSplicing :
    (unquoteSplicing v).Every N ↔ N (unquoteSplicing v) ∧ v.Every N :=
  every_wrapper rfl

@[simp] theorem every_nil : nil.Every N ↔ N nil :=
  every_single rfl

@[simp] theorem every_int {n : Int64} : (int n).Every N ↔ N (int n) :=
  every_single rfl

@[simp] theorem every_symbol {name : String} : (symbol name).Every N ↔ N (symbol name) :=
  every_single rfl

@[simp] theorem every_closure {c : Closure} : (closure c).Every N ↔ N (closure c) :=
  every_single rfl

@[simp] theorem every_expander {m : Expander} : (expander m).Every N ↔ N (expander m) :=
  every_single rfl

@[simp] theorem every_module {m : Module} : (module m).Every N ↔ N (module m) :=
  every_single rfl

/-! ## §2. Parts of good values -/

/-- A plain value with nothing inside it is good wherever plain nodes are. -/
theorem every_atom (hN : ∀ u, Plain u → N u) (hv : v.nodes = [v]) (hp : v.Plain) :
    v.Every N :=
  (every_single hv).2 (hN v hp)

/-- The elements of a good list are good. -/
theorem Every.elements? (h : v.Every N) {vs : List Value} (hvs : v.elements? = some vs) :
    ∀ u ∈ vs, u.Every N := by
  induction v generalizing vs with
  | nil =>
    obtain rfl : [] = vs := by simpa [Value.elements?] using hvs
    simp
  | pair cell a d _ ihd =>
    simp only [Value.elements?, Option.map_eq_some_iff] at hvs
    obtain ⟨rest, hrest, rfl⟩ := hvs
    rw [every_pair] at h
    intro u hu
    rcases List.mem_cons.1 hu with rfl | hu
    · exact h.2.1
    · exact ihd h.2.2 hrest u hu
  | _ => exact absurd hvs (by simp [Value.elements?])

/-! ## §3. Good fields -/

theorem every_set {fields : Fields} (h : ∀ field ∈ fields, field.2.Every N) (hv : v.Every N)
    (f : String) : ∀ field ∈ fields.set f v, field.2.Every N := by
  intro field hmem
  rcases Table.mem_set hmem with hold | rfl
  · exact h field hold
  · exact hv

end Value

/-- Fields made of good values are good, and no name occurs twice among them. -/
theorem Fields.addAll_good {N : Value → Prop} {fields fields' : Fields} {args : List Value}
    (hf : ∀ field ∈ fields, field.2.Every N) (hk : fields.keys.Nodup)
    (hargs : ∀ v ∈ args, v.Every N) (h : Fields.addAll fields args = .ok fields') :
    (∀ field ∈ fields', field.2.Every N) ∧ fields'.keys.Nodup := by
  -- names and values come in turn, so the induction takes two arguments at a time
  induction args using List.twoStepInduction generalizing fields with
  | nil =>
    cases h
    exact ⟨hf, hk⟩
  | singleton v =>
    cases h
    exact ⟨hf, hk⟩
  | cons_cons name v rest ih _ =>
    have hv : v.Every N := hargs v (by simp)
    have hrest : ∀ u ∈ rest, u.Every N := fun u hu => hargs u (by simp [hu])
    rw [Fields.addAll] at h
    split at h
    · exact absurd h (by simp)
    · next f _ =>
      split at h
      · exact absurd h (by simp)
      · exact ih (Value.every_set hf hv f) (Table.nodup_keys_set hk) hrest h

/-! ## §4. Values in expressions -/

namespace Expr

mutual

/-- All values that an expression contains. -/
def values : Expr → List Value
  | literal v => [v]
  | var _ => []
  | ite c t e => c.values ++ t.values ++ e.values
  | and parts => valuesOfEach parts
  | or parts => valuesOfEach parts
  | sequence parts => valuesOfEach parts
  | call callee args forms => callee.values ++ valuesOfEach args ++ forms
  | deferred callee _ forms => callee.values ++ forms
  | letIn _ bindings body => valuesOfBindings bindings ++ body.values
  | lambda _ _ body => body.values
  | define _ value => value.values
  | definition _ _ _ body => body.values
  | module _ _ body => valuesOfEach body
  | importFrom _ _ => []
  | macroexpand form => [form]
termination_by structural e => e

/-- All values that some expressions contain. -/
def valuesOfEach : List Expr → List Value
  | [] => []
  | e :: es => e.values ++ valuesOfEach es
termination_by structural es => es

/-- All values that the initial values of some bindings contain. -/
def valuesOfBindings : List (String × Expr) → List Value
  | [] => []
  | (_, e) :: bs => e.values ++ valuesOfBindings bs
termination_by structural bs => bs

end

/-- Every node of every value in an expression has a property. -/
def Every (N : Value → Prop) (e : Expr) : Prop :=
  ∀ v ∈ e.values, v.Every N

variable {N M : Value → Prop}

theorem Every.mono {e : Expr} (h : e.Every N) (hNM : ∀ u, N u → M u) : e.Every M :=
  fun v hv => (h v hv).mono hNM

theorem mem_valuesOfEach {es : List Expr} {v : Value} :
    v ∈ valuesOfEach es ↔ ∃ e ∈ es, v ∈ e.values := by
  induction es with
  | nil => simp [valuesOfEach]
  | cons e es ih => simp [valuesOfEach, ih]

theorem mem_valuesOfBindings {bs : List (String × Expr)} {v : Value} :
    v ∈ valuesOfBindings bs ↔ ∃ b ∈ bs, v ∈ b.2.values := by
  induction bs with
  | nil => simp [valuesOfBindings]
  | cons b bs ih =>
    obtain ⟨name, e⟩ := b
    simp [valuesOfBindings, ih]

theorem forall_valuesOfEach {es : List Expr} :
    (∀ v ∈ valuesOfEach es, v.Every N) ↔ ∀ e ∈ es, e.Every N := by
  simp only [mem_valuesOfEach, Every]
  constructor
  · intro h e he v hv
    exact h v ⟨e, he, hv⟩
  · rintro h v ⟨e, he, hv⟩
    exact h e he v hv

theorem forall_valuesOfBindings {bs : List (String × Expr)} :
    (∀ v ∈ valuesOfBindings bs, v.Every N) ↔ ∀ b ∈ bs, b.2.Every N := by
  simp only [mem_valuesOfBindings, Every]
  constructor
  · intro h b hb v hv
    exact h v ⟨b, hb, hv⟩
  · rintro h v ⟨b, hb, hv⟩
    exact h b hb v hv

variable {v : Value} {c t e : Expr} {es : List Expr} {forms : List Value}

@[simp] theorem every_literal : (literal v).Every N ↔ v.Every N :=
  List.forall_mem_singleton

@[simp] theorem every_var (name : String) : (var name).Every N :=
  List.forall_mem_nil _

@[simp] theorem every_ite : (ite c t e).Every N ↔ c.Every N ∧ t.Every N ∧ e.Every N :=
  List.forall_mem_append.trans ((and_congr_left' List.forall_mem_append).trans and_assoc)

@[simp] theorem every_and : (and es).Every N ↔ ∀ e ∈ es, e.Every N :=
  forall_valuesOfEach

@[simp] theorem every_or : (or es).Every N ↔ ∀ e ∈ es, e.Every N :=
  forall_valuesOfEach

@[simp] theorem every_sequence : (sequence es).Every N ↔ ∀ e ∈ es, e.Every N :=
  forall_valuesOfEach

@[simp] theorem every_call : (call c es forms).Every N ↔
    c.Every N ∧ (∀ e ∈ es, e.Every N) ∧ ∀ v ∈ forms, v.Every N := by
  rw [← forall_valuesOfEach]
  exact List.forall_mem_append.trans ((and_congr_left' List.forall_mem_append).trans and_assoc)

@[simp] theorem every_deferred {fault : FormError} :
    (deferred c fault forms).Every N ↔ c.Every N ∧ ∀ v ∈ forms, v.Every N :=
  List.forall_mem_append

@[simp] theorem every_letIn {kind : LetKind} {bs : List (String × Expr)} :
    (letIn kind bs e).Every N ↔ (∀ b ∈ bs, b.2.Every N) ∧ e.Every N := by
  rw [← forall_valuesOfBindings]
  exact List.forall_mem_append

@[simp] theorem every_lambda {name : Option String} {params : Params} :
    (lambda name params e).Every N ↔ e.Every N :=
  Iff.rfl

@[simp] theorem every_define {name : String} : (define name e).Every N ↔ e.Every N :=
  Iff.rfl

@[simp] theorem every_definition {kind : DefinitionKind} {name : String} {params : Params} :
    (definition kind name params e).Every N ↔ e.Every N :=
  Iff.rfl

@[simp] theorem every_module {name : String} {exports : List String} :
    (module name exports es).Every N ↔ ∀ e ∈ es, e.Every N :=
  forall_valuesOfEach

@[simp] theorem every_importFrom (target : ImportTarget) (spec : ImportSpec) :
    (importFrom target spec).Every N :=
  List.forall_mem_nil _

@[simp] theorem every_macroexpand : (macroexpand v).Every N ↔ v.Every N :=
  List.forall_mem_singleton

end Expr

end TinyLisp
