import TinyLisp.Expr.Build
import TinyLisp.Dotted
import TinyLisp.Value.Template

/-!
# Views and what they cover

Two scopes need not be alike throughout for an expression to mean the same in both. A `View` says
for which names they are alike, and which of these are bound for good. It covers an expression
(`Expr.Covered`) if the expression refers to no other names: each of its variables can be read in
the view, and each of its parts is covered by the view with the names added that are bound around
that part. The holes of a template are parts, as the expressions that they build to.

A form whose meaning its text does not show, such as an import, is covered only where the scopes are
alike for all names; there everything is covered.
-/

namespace TinyLisp

/-! ## §1. Views -/

/-- For which names scopes are alike. -/
structure View where
  /-- The name has the same slot in either scope, or none in both. -/
  seen : String → Prop
  /-- The name has a slot, for good. -/
  bound : String → Prop

namespace View

variable {V : View} {names : List String} {name : String}

/-- The view of scopes that are alike for all names. -/
def whole : View := ⟨fun _ => True, fun _ => False⟩

/-- Scopes are alike for all names. -/
def Whole (V : View) : Prop := ∀ name, V.seen name

/-- The view in which some more names are bound. -/
def adding (V : View) (names : List String) : View :=
  ⟨fun n => V.seen n ∨ n ∈ names, fun n => V.bound n ∨ n ∈ names⟩

/-- The view in which some more names are seen. -/
def sharing (V : View) (N : String → Prop) : View :=
  ⟨fun n => V.seen n ∨ N n, V.bound⟩

/-- Looking a name up needs no more than what is seen: the name itself and, unless it is bound as it
stands, its first segment. -/
def Reads (V : View) (name : String) : Prop :=
  V.seen name ∧
    (V.bound name ∨ ∀ first rest, splitMember? name = some (first, rest) → V.seen first)

theorem whole_whole : whole.Whole :=
  fun _ => trivial

theorem adding_adding (V : View) (names names' : List String) :
    (V.adding names).adding names' = V.adding (names ++ names') := by
  simp only [adding, List.mem_append, or_assoc]

theorem Whole.adding (h : V.Whole) (names : List String) : (V.adding names).Whole :=
  fun n => .inl (h n)

theorem Whole.sharing (h : V.Whole) (N : String → Prop) : (V.sharing N).Whole :=
  fun n => .inl (h n)

theorem Whole.reads (h : V.Whole) (name : String) : V.Reads name :=
  ⟨h name, .inr fun first _ _ => h first⟩

/-- A name that has been added can be read. -/
theorem reads_adding (V : View) (h : name ∈ names) : (V.adding names).Reads name :=
  ⟨.inr h, .inl (.inr h)⟩

/-- Where the first segment of a name is seen, and every name with a dot, the name can be read. -/
theorem reads_of_firstSegment (hdots : ∀ n, firstSegment n ≠ n → V.seen n)
    (h : V.seen (firstSegment name)) : V.Reads name := by
  refine ⟨?_, .inr fun first rest hsplit => ?_⟩
  · by_cases hplain : firstSegment name = name
    · rwa [hplain] at h
    · exact hdots name hplain
  · rwa [firstSegment_of_some hsplit] at h

end View

/-! ## §2. Coverage -/

namespace Expr

/-- A view covers an expression: the expression refers to names that can be read, and to nothing
else. -/
inductive Covered : View → Expr → Prop
  | whole {V : View} {e : Expr} (h : V.Whole) : Covered V e
  | literal {V : View} {v : Value}
    (h : ∀ t, v = .quasiquote t → ∀ p ∈ t.holes 0, ∀ e, build p = .ok e → Covered V e) :
    Covered V (.literal v)
  | var {V : View} {name : String} (h : V.Reads name) : Covered V (.var name)
  | ite {V : View} {c t e : Expr} (hc : Covered V c) (ht : Covered V t) (he : Covered V e) :
    Covered V (.ite c t e)
  | and {V : View} {es : List Expr} (h : ∀ e ∈ es, Covered V e) : Covered V (.and es)
  | or {V : View} {es : List Expr} (h : ∀ e ∈ es, Covered V e) : Covered V (.or es)
  | sequence {V : View} {es : List Expr} (h : ∀ e ∈ es, Covered V e) : Covered V (.sequence es)
  | call {V : View} {callee : Expr} {args : List Expr} {forms : List Value}
    (hc : Covered V callee) (ha : ∀ e ∈ args, Covered V e) : Covered V (.call callee args forms)
  | deferred {V : View} {callee : Expr} {fault : FormError} {forms : List Value}
    (hc : Covered V callee) : Covered V (.deferred callee fault forms)
  | parallel {V : View} {bs : List (String × Expr)} {body : Expr} (hi : ∀ b ∈ bs, Covered V b.2)
    (hb : Covered (V.adding (bs.map Prod.fst)) body) : Covered V (.letIn .parallel bs body)
  | sequentialNil {V : View} {body : Expr} (hb : Covered V body) :
    Covered V (.letIn .sequential [] body)
  | sequentialCons {V : View} {name : String} {init : Expr} {bs : List (String × Expr)}
    {body : Expr} (hi : Covered V init)
    (hb : Covered (V.adding [name]) (.letIn .sequential bs body)) :
    Covered V (.letIn .sequential ((name, init) :: bs) body)
  | recursive {V : View} {bs : List (String × Expr)} {body : Expr}
    (hi : ∀ b ∈ bs, Covered (V.adding (bs.map Prod.fst)) b.2)
    (hb : Covered (V.adding (bs.map Prod.fst)) body) : Covered V (.letIn .recursive bs body)
  | lambda {V : View} {name : Option String} {params : Params} {body : Expr}
    (hb : Covered (V.adding params.names) body) : Covered V (.lambda name params body)
  | define {V : View} {name : String} {e : Expr} (he : Covered V e) : Covered V (.define name e)
  | definition {V : View} {kind : DefinitionKind} {name : String} {params : Params} {body : Expr}
    (hb : Covered ((V.adding [name]).adding params.names) body) :
    Covered V (.definition kind name params body)
  | module {V : View} {name : String} {exports : List String} {body : List Expr}
    (hb : ∀ e ∈ body, Covered V e) : Covered V (.module name exports body)

/-! ## §3. Parts of what is covered -/

namespace Covered

variable {V : View}

theorem of_hole {t p : Value} {e : Expr} (h : Covered V (.literal (.quasiquote t)))
    (hp : p ∈ t.holes 0) (he : build p = .ok e) : e.Covered V := by
  cases h with
  | whole h => exact .whole h
  | literal h => exact h t rfl p hp e he

theorem reads {name : String} (h : Covered V (.var name)) : V.Reads name := by
  cases h with
  | whole h => exact h.reads name
  | var h => exact h

theorem of_ite {c t e : Expr} (h : Covered V (.ite c t e)) :
    c.Covered V ∧ t.Covered V ∧ e.Covered V := by
  cases h with
  | whole h => exact ⟨.whole h, .whole h, .whole h⟩
  | ite hc ht he => exact ⟨hc, ht, he⟩

theorem of_and {es : List Expr} (h : Covered V (.and es)) : ∀ e ∈ es, e.Covered V := by
  cases h with
  | whole h => exact fun _ _ => .whole h
  | and h => exact h

theorem of_or {es : List Expr} (h : Covered V (.or es)) : ∀ e ∈ es, e.Covered V := by
  cases h with
  | whole h => exact fun _ _ => .whole h
  | or h => exact h

theorem of_sequence {es : List Expr} (h : Covered V (.sequence es)) :
    ∀ e ∈ es, e.Covered V := by
  cases h with
  | whole h => exact fun _ _ => .whole h
  | sequence h => exact h

theorem of_call {callee : Expr} {args : List Expr} {forms : List Value}
    (h : Covered V (.call callee args forms)) : callee.Covered V ∧ ∀ e ∈ args, e.Covered V := by
  cases h with
  | whole h => exact ⟨.whole h, fun _ _ => .whole h⟩
  | call hc ha => exact ⟨hc, ha⟩

theorem of_deferred {callee : Expr} {fault : FormError} {forms : List Value}
    (h : Covered V (.deferred callee fault forms)) : callee.Covered V := by
  cases h with
  | whole h => exact .whole h
  | deferred hc => exact hc

theorem of_parallel {bs : List (String × Expr)} {body : Expr}
    (h : Covered V (.letIn .parallel bs body)) :
    (∀ b ∈ bs, b.2.Covered V) ∧ body.Covered (V.adding (bs.map Prod.fst)) := by
  cases h with
  | whole h => exact ⟨fun _ _ => .whole h, .whole (h.adding _)⟩
  | parallel hi hb => exact ⟨hi, hb⟩

theorem of_sequentialNil {body : Expr} (h : Covered V (.letIn .sequential [] body)) :
    body.Covered V := by
  cases h with
  | whole h => exact .whole h
  | sequentialNil hb => exact hb

theorem of_sequentialCons {name : String} {init : Expr} {bs : List (String × Expr)} {body : Expr}
    (h : Covered V (.letIn .sequential ((name, init) :: bs) body)) :
    init.Covered V ∧ Covered (V.adding [name]) (.letIn .sequential bs body) := by
  cases h with
  | whole h => exact ⟨.whole h, .whole (h.adding _)⟩
  | sequentialCons hi hb => exact ⟨hi, hb⟩

theorem of_recursive {bs : List (String × Expr)} {body : Expr}
    (h : Covered V (.letIn .recursive bs body)) :
    (∀ b ∈ bs, b.2.Covered (V.adding (bs.map Prod.fst))) ∧
      body.Covered (V.adding (bs.map Prod.fst)) := by
  cases h with
  | whole h => exact ⟨fun _ _ => .whole (h.adding _), .whole (h.adding _)⟩
  | recursive hi hb => exact ⟨hi, hb⟩

theorem of_lambda {name : Option String} {params : Params} {body : Expr}
    (h : Covered V (.lambda name params body)) : body.Covered (V.adding params.names) := by
  cases h with
  | whole h => exact .whole (h.adding _)
  | lambda hb => exact hb

theorem of_define {name : String} {e : Expr} (h : Covered V (.define name e)) : e.Covered V := by
  cases h with
  | whole h => exact .whole h
  | define he => exact he

theorem of_definition {kind : DefinitionKind} {name : String} {params : Params} {body : Expr}
    (h : Covered V (.definition kind name params body)) :
    body.Covered ((V.adding [name]).adding params.names) := by
  cases h with
  | whole h => exact .whole ((h.adding _).adding _)
  | definition hb => exact hb

theorem of_module {name : String} {exports : List String} {body : List Expr}
    (h : Covered V (.module name exports body)) : ∀ e ∈ body, e.Covered V := by
  cases h with
  | whole h => exact fun _ _ => .whole h
  | module hb => exact hb

/-- What an import does, its text does not show. -/
theorem of_importFrom {target : ImportTarget} {spec : ImportSpec}
    (h : Covered V (.importFrom target spec)) : V.Whole := by
  cases h with
  | whole h => exact h

/-- Nor what a form expands to. -/
theorem of_macroexpand {form : Value} (h : Covered V (.macroexpand form)) : V.Whole := by
  cases h with
  | whole h => exact h

end Covered

end Expr

end TinyLisp
