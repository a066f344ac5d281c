import TinyLisp.Proofs.Like.Value
import TinyLisp.Expr.Build

/-!
# Expressions alike

Expressions hold data: literals, and the forms that an expander may get. Two expressions are
alike if they differ in such data only, and there only in data alike. Building keeps likeness:
from data alike come expressions alike, or faults of one kind and wording.
-/

namespace TinyLisp

variable {L M : Leaves}

/-! ## §1. Results and faults -/

/-- Results alike: both good, or both failures, and related as such. -/
inductive ResultLike {ε α β : Type} (E : ε → ε → Prop) (R : α → β → Prop) :
    Except ε α → Except ε β → Prop
  | ok {a : α} {b : β} : R a b → ResultLike E R (.ok a) (.ok b)
  | error {e e' : ε} : E e e' → ResultLike E R (.error e) (.error e')

namespace ResultLike

variable {ε α β γ δ : Type} {E : ε → ε → Prop} {R : α → β → Prop} {S : γ → δ → Prop}

theorem bind {x : Except ε α} {y : Except ε β} {f : α → Except ε γ} {g : β → Except ε δ}
    (h : ResultLike E R x y) (hfg : ∀ a b, R a b → ResultLike E S (f a) (g b)) :
    ResultLike E S (x >>= f) (y >>= g) := by
  cases h with
  | ok hab => exact hfg _ _ hab
  | error he => exact .error he

theorem map {x : Except ε α} {y : Except ε β} {f : α → γ} {g : β → δ}
    (h : ResultLike E R x y) (hfg : ∀ a b, R a b → S (f a) (g b)) :
    ResultLike E S (x.map f) (y.map g) := by
  cases h with
  | ok hab => exact .ok (hfg _ _ hab)
  | error he => exact .error he

/-- A result is like itself, if its failures are. -/
theorem refl (hE : ∀ e, E e e) (x : Except ε α) : ResultLike E Eq x x := by
  cases x with
  | ok a => exact .ok rfl
  | error e => exact .error (hE e)

end ResultLike

/-- The kinds of faults in forms. -/
inductive FormError.Kind
  | improperList | wrongCount | notASymbol | malformedBinding | badParams | malformedExports
  | malformedImport
  deriving Repr, DecidableEq

/-- The kind of a fault. -/
def FormError.kind : FormError → FormError.Kind
  | improperList _ => .improperList
  | wrongCount .. => .wrongCount
  | notASymbol .. => .notASymbol
  | malformedBinding .. => .malformedBinding
  | badParams .. => .badParams
  | malformedExports _ => .malformedExports
  | malformedImport _ => .malformedImport

/-- Faults alike: of one kind, in the same words. -/
structure FormError.Alike (e e' : FormError) : Prop where
  kind : e.kind = e'.kind
  message : e.message = e'.message

theorem FormError.Alike.refl (e : FormError) : FormError.Alike e e := ⟨rfl, rfl⟩

/-! ## §2. Expressions -/

/-- Expressions alike: the same, up to data alike. -/
inductive Expr.Like (L : Leaves) : Expr → Expr → Prop
  | literal {v v' : Value} : Value.Like L v v' → Like L (literal v) (literal v')
  | var (name : String) : Like L (var name) (var name)
  | ite {c c' t t' e e' : Expr} :
      Like L c c' → Like L t t' → Like L e e' → Like L (ite c t e) (ite c' t' e')
  | and {es es' : List Expr} : List.Forall₂ (Like L) es es' → Like L (and es) (and es')
  | or {es es' : List Expr} : List.Forall₂ (Like L) es es' → Like L (or es) (or es')
  | sequence {es es' : List Expr} :
      List.Forall₂ (Like L) es es' → Like L (sequence es) (sequence es')
  | call {callee callee' : Expr} {args args' : List Expr} {forms forms' : List Value} :
      Like L callee callee' → List.Forall₂ (Like L) args args' →
      List.Forall₂ (Value.Like L) forms forms' →
      Like L (call callee args forms) (call callee' args' forms')
  | deferred {callee callee' : Expr} {fault fault' : FormError} {forms forms' : List Value} :
      Like L callee callee' → FormError.Alike fault fault' →
      List.Forall₂ (Value.Like L) forms forms' →
      Like L (deferred callee fault forms) (deferred callee' fault' forms')
  | letIn (kind : LetKind) {bs bs' : List (String × Expr)} {body body' : Expr} :
      bs.map Prod.fst = bs'.map Prod.fst →
      List.Forall₂ (Like L) (bs.map Prod.snd) (bs'.map Prod.snd) → Like L body body' →
      Like L (letIn kind bs body) (letIn kind bs' body')
  | lambda (name : Option String) (params : Params) {body body' : Expr} :
      Like L body body' → Like L (lambda name params body) (lambda name params body')
  | define (name : String) {e e' : Expr} : Like L e e' → Like L (define name e) (define name e')
  | definition (kind : DefinitionKind) (name : String) (params : Params) {body body' : Expr} :
      Like L body body' →
      Like L (definition kind name params body) (definition kind name params body')
  | module (name : String) (exports : List String) {es es' : List Expr} :
      List.Forall₂ (Like L) es es' → Like L (module name exports es) (module name exports es')
  | importFrom (target : ImportTarget) (spec : ImportSpec) :
      Like L (importFrom target spec) (importFrom target spec)
  | macroexpand {form form' : Value} :
      Value.Like L form form' → Like L (macroexpand form) (macroexpand form')

/-- Bindings alike: of the same name, with initial values alike. -/
abbrev BindingLike (L : Leaves) : String × Expr → String × Expr → Prop :=
  EntryLike (Expr.Like L)

/-- Lists of bindings alike, one by one. -/
abbrev BindingsLike (L : Leaves) : List (String × Expr) → List (String × Expr) → Prop :=
  TableLike (Expr.Like L)

theorem forall₂_mono (hLM : L.Le M) {vs vs' : List Value}
    (h : List.Forall₂ (Value.Like L) vs vs') : List.Forall₂ (Value.Like M) vs vs' :=
  h.imp fun _ _ hv => hv.mono hLM

/-- Parts that are alike one by one under a weaker relation are so under a stronger one, if each
of them is. -/
private theorem parts_mono {es es' : List Expr}
    (ih : ∀ e ∈ es, ∀ e', Expr.Like L e e' → Expr.Like M e e')
    (h : List.Forall₂ (Expr.Like L) es es') : List.Forall₂ (Expr.Like M) es es' := by
  induction h with
  | nil => exact .nil
  | @cons e e' es es' he _ ihs =>
    exact .cons (ih e (by simp) e' he) (ihs fun d hd => ih d (by simp [hd]))

theorem Expr.Like.mono (hLM : L.Le M) {e e' : Expr} (h : Like L e e') : Like M e e' := by
  -- on the first expression, whose form settles that of the second
  induction e generalizing e' with
  | literal v =>
    cases h with
    | literal hv => exact .literal (hv.mono hLM)
  | var name =>
    cases h
    exact .var name
  | ite c t e ihc iht ihe =>
    cases h with
    | ite hc ht he => exact .ite (ihc hc) (iht ht) (ihe he)
  | and es ih =>
    cases h with
    | and hs => exact .and (parts_mono (fun e he _ h => ih e he h) hs)
  | or es ih =>
    cases h with
    | or hs => exact .or (parts_mono (fun e he _ h => ih e he h) hs)
  | sequence es ih =>
    cases h with
    | sequence hs => exact .sequence (parts_mono (fun e he _ h => ih e he h) hs)
  | call callee args forms ihc iha =>
    cases h with
    | call hc ha hf =>
      exact .call (ihc hc) (parts_mono (fun e he _ h => iha e he h) ha) (forall₂_mono hLM hf)
  | deferred callee fault forms ihc =>
    cases h with
    | deferred hc he hf => exact .deferred (ihc hc) he (forall₂_mono hLM hf)
  | letIn kind bs body ihb ihbody =>
    cases h with
    | letIn _ hn he hbody =>
      refine .letIn kind hn (parts_mono ?_ he) (ihbody hbody)
      intro e hmem e' he
      obtain ⟨b, hb, rfl⟩ := List.mem_map.1 hmem
      exact ihb b hb he
  | lambda name params body ih =>
    cases h with
    | lambda _ _ hb => exact .lambda name params (ih hb)
  | define name e ih =>
    cases h with
    | define _ he => exact .define name (ih he)
  | definition kind name params body ih =>
    cases h with
    | definition _ _ _ hb => exact .definition kind name params (ih hb)
  | module name exports es ih =>
    cases h with
    | module _ _ hs => exact .module name exports (parts_mono (fun e he _ h => ih e he h) hs)
  | importFrom target spec =>
    cases h
    exact .importFrom target spec
  | macroexpand form =>
    cases h with
    | macroexpand hv => exact .macroexpand (hv.mono hLM)

end TinyLisp
