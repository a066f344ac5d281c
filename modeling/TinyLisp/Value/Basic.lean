import TinyLisp.Primitive.Basic

/-!
# Values

The values of the language. Data are atoms, pairs, and the four wrappers that the reader
writes for a quote, a template and its holes; the others arise from evaluation only.

Values are plain data. A function, an expander and a module refer to scopes by the numbers of
their frames, and to their body by a number (see `TinyLisp.Store`), so that a value holds no
store. A pair and a record carry a tag that tells them apart from equal ones: a pair just read
has none yet and gets one when its text is evaluated (`TinyLisp.Value.Tag`).
-/

namespace TinyLisp

/-- The number of a frame. -/
abbrev FrameId := Nat

/-- The number of a slot. -/
abbrev SlotId := Nat

/-- Frames from the innermost outwards, as a name is looked up in them. -/
abbrev Scope := List FrameId

/-- How a function reaches the bindings that it was made under. -/
inductive Captures
  /-- Through its defining scope only. -/
  | scope
  /-- Through a table of slots first, then through its defining scope. -/
  | table (slots : List (String × SlotId))
  deriving Repr, DecidableEq

/-- The names in a table of captured slots. -/
def Captures.names : Captures → List String
  | scope => []
  | table slots => slots.map Prod.fst

/-- A function value. Its body is found in the store under its number. -/
structure Closure where
  id : Nat
  name : Option String
  params : Params
  captures : Captures
  /-- The scope in which the function was made. -/
  scope : Scope
  deriving Repr, DecidableEq

/-- The name that a function goes by in messages. -/
def Closure.label (c : Closure) : String :=
  c.name.getD "lambda"

/-- An expander: it takes the forms of a call and gives the form to evaluate instead. Its body
is found in the store under its number. -/
structure Expander where
  id : Nat
  name : String
  params : Params
  scope : Scope
  deriving Repr, DecidableEq

/-- A module: a scope and the names that it shows to others. -/
structure Module where
  id : Nat
  name : String
  scope : Scope
  exports : List String
  deriving Repr, DecidableEq

/-- A value of the language. -/
inductive Value
  | nil
  /-- What a name stands for before its value is assigned. -/
  | unspecified
  | int (n : Int64)
  | float (x : Float)
  | bool (b : Bool)
  | symbol (name : String)
  | string (text : String)
  | pair (cell : Option Nat) (car cdr : Value)
  | record (cell : Nat) (name : String) (fields : List (String × Value))
  | primitive (op : Primitive)
  | quote (v : Value)
  | quasiquote (v : Value)
  | unquote (v : Value)
  | unquoteSplicing (v : Value)
  | closure (c : Closure)
  | expander (m : Expander)
  | module (m : Module)
  deriving Inhabited

namespace Value

/-- Induction over values; for a record, over the values of its fields. -/
@[induction_eliminator]
theorem induct {motive : Value → Prop} (nil : motive nil) (unspecified : motive unspecified)
    (int : ∀ n, motive (int n)) (float : ∀ x, motive (float x)) (bool : ∀ b, motive (bool b))
    (symbol : ∀ name, motive (symbol name)) (string : ∀ text, motive (string text))
    (pair : ∀ cell car cdr, motive car → motive cdr → motive (pair cell car cdr))
    (record : ∀ cell name fields, (∀ field ∈ fields, motive field.2) →
      motive (record cell name fields))
    (primitive : ∀ op, motive (primitive op))
    (quote : ∀ v, motive v → motive (quote v))
    (quasiquote : ∀ v, motive v → motive (quasiquote v))
    (unquote : ∀ v, motive v → motive (unquote v))
    (unquoteSplicing : ∀ v, motive v → motive (unquoteSplicing v))
    (closure : ∀ c, motive (closure c)) (expander : ∀ m, motive (expander m))
    (module : ∀ m, motive (module m)) : ∀ v, motive v := by
  intro v
  exact @Value.rec motive (fun fields => ∀ field ∈ fields, motive field.2)
    (fun field => motive field.2) nil unspecified int float bool symbol string pair record
    primitive quote quasiquote unquote unquoteSplicing closure expander module
    (by simp) (fun _ _ h hs => by simpa using ⟨h, fun a b hb => hs (a, b) hb⟩) (fun _ _ h => h) v

/-- The name of a value's type. -/
def typeName : Value → String
  | nil => "nil"
  | unspecified => "unspecified"
  | int _ => "int"
  | float _ => "float"
  | bool _ => "bool"
  | symbol _ => "symbol"
  | string _ => "string"
  | pair .. => "pair"
  | record .. => "record"
  | primitive _ => "primitive"
  | quote _ => "quote"
  | quasiquote _ => "quasiquote"
  | unquote _ => "unquote"
  | unquoteSplicing _ => "unquote-splicing"
  | closure _ => "closure"
  | expander _ => "macro"
  | module _ => "module"

/-- Only `#f` counts as false. -/
def isTrue : Value → Bool
  | bool false => false
  | _ => true

/-- Whether a value can be applied to arguments. -/
def isProcedure : Value → Bool
  | primitive _ => true
  | closure _ => true
  | _ => false

/-! ## §1. Lists -/

/-- The elements of a chain of pairs and what the chain ends in. -/
def spine : Value → List Value × Value
  | pair _ a d => (a :: d.spine.1, d.spine.2)
  | v => ([], v)

/-- The elements of a proper list; `none` for anything else. -/
def elements? : Value → Option (List Value)
  | nil => some []
  | pair _ a d => d.elements?.map (a :: ·)
  | _ => none

/-- A chain of untagged pairs that ends in `tail`. -/
def chain (tail : Value) : List Value → Value
  | [] => tail
  | v :: vs => pair none v (chain tail vs)

/-- A proper list of untagged pairs. -/
def ofList (vs : List Value) : Value := chain nil vs

@[simp] theorem elements?_ofList (vs : List Value) : (ofList vs).elements? = some vs := by
  induction vs with
  | nil => rfl
  | cons v vs ih =>
    change ((ofList vs).elements?).map (v :: ·) = _
    rw [ih]; rfl

theorem chain_append (tail : Value) (us vs : List Value) :
    chain tail (us ++ vs) = chain (chain tail vs) us := by
  induction us with
  | nil => rfl
  | cons u us ih => exact congrArg (pair none u) ih

/-- A proper list is a chain that ends in `nil`. -/
theorem elements?_eq_some_iff {v : Value} {vs : List Value} :
    v.elements? = some vs ↔ v.spine = (vs, nil) := by
  induction v generalizing vs with
  | pair cell a d _ ihd =>
    simp only [elements?, spine, Option.map_eq_some_iff]
    constructor
    · rintro ⟨ws, h, rfl⟩
      simp [ihd.1 h]
    · intro h
      simp only [Prod.mk.injEq] at h
      refine ⟨d.spine.1, ihd.2 ?_, h.1⟩
      rw [← h.2]
  | nil => simp [elements?, spine, eq_comm]
  | _ => simp [elements?, spine]

/-! ## §2. Nesting -/

/-- A bound on how deeply forms nest in a value: every element of a chain, and what a wrapper
wraps, nests less deeply than the whole. -/
def height : Value → Nat
  | pair _ a d => max (a.height + 1) d.height
  | quote v => v.height + 1
  | quasiquote v => v.height + 1
  | unquote v => v.height + 1
  | unquoteSplicing v => v.height + 1
  | _ => 0

theorem height_lt_of_mem_spine {v a : Value} (h : a ∈ v.spine.1) : a.height < v.height := by
  induction v with
  | pair cell b d _ ihd =>
    simp only [spine, List.mem_cons] at h
    simp only [height]
    rcases h with rfl | h
    · omega
    · have := ihd h; omega
  | _ => simp [spine] at h

end Value

end TinyLisp
