import TinyLisp.Proofs.Sharing
import TinyLisp.Proofs.Unfolding

/-!
# Identity and equality

The operation `=` compares contents, and `eq?` asks of pairs and records for the very same one. As
long as there are no floats, two values are equal when they have the same `Value.essence`, in which
tags are forgotten and functions, expanders and modules keep nothing but their number
(`Value.equal_iff`). They are identical when they have the same `Value.handle`, in which of a pair
or a record nothing but the tag is kept, and are not strings (`Value.identical_iff`). So equality is
an equivalence, and identity one as far as there are no strings: a string is not identical to
itself.

That identical values are equal is not so of any two values. It takes a heap, in which a tag says
all of a pair or a record.
-/

namespace TinyLisp

namespace Value

/-! ## §1. What equality looks at -/

/-- A value with no float anywhere in it. -/
def FloatFree (v : Value) : Prop :=
  v.Every fun u => ∀ x, u ≠ .float x

mutual

/-- A value without its tags, and without all of its functions, expanders and modules but their
numbers. -/
def essence : Value → Value
  | pair _ a d => pair none a.essence d.essence
  | record _ name fields => record 0 name (essences fields)
  | quote v => quote v.essence
  | quasiquote v => quasiquote v.essence
  | unquote v => unquote v.essence
  | unquoteSplicing v => unquoteSplicing v.essence
  | closure c => closure ⟨c.id, none, default, .scope, []⟩
  | expander m => expander ⟨m.id, "", default, []⟩
  | module m => module ⟨m.id, "", [], []⟩
  | v => v
termination_by structural v => v

/-- The essences of some fields. -/
def essences : List (String × Value) → List (String × Value)
  | [] => []
  | (f, v) :: fields => (f, v.essence) :: essences fields
termination_by structural fields => fields

end

variable {v w : Value}

/-- Fields whose values are equal when their essences are. -/
theorem equalFields_iff {fields fields' : List (String × Value)}
    (h : ∀ field ∈ fields, ∀ {w : Value}, field.2.FloatFree → w.FloatFree →
      (field.2.equal w = true ↔ field.2.essence = w.essence))
    (hv : ∀ field ∈ fields, field.2.FloatFree) (hw : ∀ field ∈ fields', field.2.FloatFree) :
    equalFields fields fields' = true ↔ essences fields = essences fields' := by
  induction fields generalizing fields' with
  | nil => cases fields' <;> simp [equalFields, essences]
  | cons field fields ih =>
    obtain ⟨f, u⟩ := field
    cases fields' with
    | nil => simp [equalFields, essences]
    | cons field' fields' =>
      obtain ⟨f', u'⟩ := field'
      have hu : u.equal u' = true ↔ u.essence = u'.essence :=
        h (f, u) (by simp) (hv (f, u) (by simp)) (hw (f', u') (by simp))
      have hrest := ih (fun e he => h e (by simp [he])) (fun e he => hv e (by simp [he]))
        (fun e he => hw e (List.mem_cons_of_mem _ he))
      simp only [equalFields, essences, Bool.and_eq_true, beq_iff_eq, hu, hrest, List.cons.injEq,
        Prod.mk.injEq]

/-- Values without floats are equal when they have the same essence. -/
theorem equal_iff (hv : v.FloatFree) (hw : w.FloatFree) :
    v.equal w = true ↔ v.essence = w.essence := by
  induction v generalizing w with
  | pair cell a d iha ihd =>
    cases w with
    | pair cell' a' d' =>
      have ha := iha (every_pair.1 hv).2.1 (every_pair.1 hw).2.1
      have hd := ihd (every_pair.1 hv).2.2 (every_pair.1 hw).2.2
      simp [equal, essence, ha, hd]
    | _ => simp [equal, essence]
  | record cell name fields ih =>
    cases w with
    | record cell' name' fields' =>
      have hfields := equalFields_iff ih (every_record.1 hv).2 (every_record.1 hw).2
      simp [equal, essence, hfields]
    | _ => simp [equal, essence]
  | float x => exact absurd rfl (hv.self x)
  | quote v ih =>
    cases w with
    | quote w => simp [equal, essence, ih (every_quote.1 hv).2 (every_quote.1 hw).2]
    | _ => simp [equal, essence]
  | quasiquote v ih =>
    cases w with
    | quasiquote w => simp [equal, essence, ih (every_quasiquote.1 hv).2 (every_quasiquote.1 hw).2]
    | _ => simp [equal, essence]
  | unquote v ih =>
    cases w with
    | unquote w => simp [equal, essence, ih (every_unquote.1 hv).2 (every_unquote.1 hw).2]
    | _ => simp [equal, essence]
  | unquoteSplicing v ih =>
    cases w with
    | unquoteSplicing w =>
      simp [equal, essence, ih (every_unquoteSplicing.1 hv).2 (every_unquoteSplicing.1 hw).2]
    | _ => simp [equal, essence]
  | int n =>
    cases w with
    | float x => exact absurd rfl (hw.self x)
    | _ => simp [equal, essence]
  | _ => cases w <;> simp [equal, essence]

/-! ## §2. What identity looks at -/

/-- The tag of a pair or a record, and the essence of any other value. -/
def handle : Value → Value
  | pair cell _ _ => pair cell nil nil
  | record cell _ _ => record cell "" []
  | v => v.essence

/-- Only a string has the handle of one. -/
theorem handle_eq_string {text : String} : v.handle = .string text ↔ v = .string text := by
  cases v <;> simp [handle, essence]

/-- Values without floats are identical when they have the same handle and are not strings. -/
theorem identical_iff (hv : v.FloatFree) (hw : w.FloatFree) :
    v.identical w = true ↔ v.handle = w.handle ∧ ∀ text, v.handle ≠ .string text := by
  cases v with
  | pair cell a d => cases w <;> simp [identical, equal, handle, essence]
  | record cell name fields => cases w <;> simp [identical, equal, handle, essence]
  | string text => cases w <;> simp [identical, equal, handle, essence]
  | _ =>
    -- nothing else is told apart from what is equal to it
    refine (equal_iff hv hw).trans ?_
    cases w <;> simp [handle, essence]

theorem eq_nil_of_typeName (h : v.typeName = "nil") : v = .nil := by
  cases v with
  | nil => rfl
  | _ => exact absurd h (by simp [typeName])

theorem eq_string_of_typeName (h : v.typeName = "string") : ∃ text, v = .string text := by
  cases v with
  | string text => exact ⟨text, rfl⟩
  | _ => exact absurd h (by simp [typeName])

end Value

/-! ## §3. Identity in a heap -/

/-- Identical values are equal, for in a heap a tag says all of a pair or a record. -/
theorem Heap.equal_of_identical {ctx : Context} {H : Set Value} (h : Heap ctx H) {v w : Value}
    (hv : v ∈ H) (hw : w ∈ H) (hv' : v.FloatFree) (hw' : w.FloatFree)
    (hvw : v.identical w = true) : v.equal w = true := by
  have hhandle := ((Value.identical_iff hv' hw').1 hvw).1
  rw [Value.equal_iff hv' hw']
  cases v with
  | pair cell a d =>
    cases w with
    | pair cell' a' d' =>
      obtain rfl : cell = cell' := by simpa [Value.handle] using hhandle
      obtain ⟨rfl, rfl⟩ := h.pair_eq hv hw
      rfl
    | _ => cases hhandle
  | record cell name fields =>
    cases w with
    | record cell' name' fields' =>
      obtain rfl : cell = cell' := by simpa [Value.handle] using hhandle
      obtain ⟨rfl, rfl⟩ := h.record_eq hv hw
      rfl
    | _ => cases hhandle
  | _ =>
    cases w with
    | pair => cases hhandle
    | record => cases hhandle
    | _ => exact hhandle

open Engine

/-- What a variable holds, compared with itself. -/
theorem Engine.evalEnd_identical_self {ctx : Context} {w : World} {scope : Scope}
    {name : String} {v : Value} (hs : w.Inside scope)
    (hop : w.Has scope "eq?" (.primitive .identical)) (h : w.Has scope name v)
    (hv : v ≠ .unspecified) (forms : List Value) :
    evalEnd ctx (.call (.var "eq?") [.var name, .var name] forms) scope w =
      some (.ok (.bool (v.identical v)) w) := by
  have hread : Reads ctx w scope (.var name) v := reads_var hs h hv
  exact (reads_operation hs hop (.cons hread (.cons hread .nil)) (fun _ _ => rfl) forms).now

/-- Among the values of a heap that contain no floats `=` is an equivalence. `eq?` is symmetric and
transitive, and reflexive but for strings, and what is `eq?` is also `=`. -/
theorem Primitive.identity_refines_equality {ctx : Context} {H : Set Value} (h : Heap ctx H)
    {x y z : Value} (hx : x ∈ H) (hy : y ∈ H) (hx' : x.FloatFree) (hy' : y.FloatFree)
    (hz' : z.FloatFree) :
    (equal.Gives [x, y] (.bool (x.equal y)) ∧ identical.Gives [x, y] (.bool (x.identical y))) ∧
    (x.equal x = true ∧ (x.equal y = true → y.equal x = true) ∧
      (x.equal y = true → y.equal z = true → x.equal z = true)) ∧
    ((x.identical x = true ↔ ∀ text, x ≠ .string text) ∧
      (x.identical y = true → y.identical x = true) ∧
      (x.identical y = true → y.identical z = true → x.identical z = true)) ∧
    (x.identical y = true → x.equal y = true) ∧
    ∀ {w : World} {scope : Scope} {name : String}, w.Inside scope →
      w.Has scope "eq?" (.primitive .identical) → w.Has scope name x → x ≠ .unspecified →
      ∀ forms, evalEnd ctx (.call (.var "eq?") [.var name, .var name] forms) scope w =
        some (.ok (.bool (x.identical x)) w) := by
  refine ⟨⟨fun _ _ => rfl, fun _ _ => rfl⟩, ?_, ?_, h.equal_of_identical hx hy hx' hy',
    fun hs hop hname hne forms => evalEnd_identical_self hs hop hname hne forms⟩
  · -- equality is that of essences
    rw [Value.equal_iff hx' hx', Value.equal_iff hx' hy', Value.equal_iff hy' hx',
      Value.equal_iff hy' hz', Value.equal_iff hx' hz']
    exact ⟨rfl, Eq.symm, Eq.trans⟩
  · rw [Value.identical_iff hx' hx', Value.identical_iff hx' hy', Value.identical_iff hy' hx',
      Value.identical_iff hy' hz', Value.identical_iff hx' hz']
    refine ⟨?_, ?_, ?_⟩
    · simp only [ne_eq, Value.handle_eq_string, true_and]
    · rintro ⟨heq, hstring⟩
      exact ⟨heq.symm, heq ▸ hstring⟩
    · rintro ⟨hxy, hstring⟩ ⟨hyz, -⟩
      exact ⟨hxy.trans hyz, hstring⟩

/-- A list with the empty list in it, bound in a session, in the place of all three values. -/
theorem Primitive.identity_refines_equality_pair :
    let ctx : Context := ⟨.default, ⟨[], []⟩⟩
    let s : Session := (Session.evalText ⟨ctx, 4, Session.primitiveWorld⟩ "(define p '(()))").2
    ∃ cell, let v : Value := .pair cell .nil .nil
      Heap ctx {u | s.world.Keeps u} ∧ s.world.Keeps v ∧ v.FloatFree ∧ v.identical v = true ∧
        v.equal v = true := by
  intro ctx s
  have hheap : Heap ctx {u | s.world.Keeps u} := .rest ((Session.Arises.bare 4).evalText _)
  have hbound : s.world.finds "p"
      (fun u => u.elements?.map (List.map Value.typeName) == some ["nil"]) = true := by
    decide +kernel
  obtain ⟨v, hv, htest⟩ := World.has_of_finds hbound
  obtain ⟨vs, hvs, hnames⟩ := Option.map_eq_some_iff.1 (beq_iff_eq.1 htest)
  obtain ⟨u, rfl, hu⟩ := List.map_eq_singleton_iff.1 hnames
  obtain ⟨cell, d, rfl, hd⟩ := Value.pair_of_elements? hvs
  obtain rfl : u = .nil := Value.eq_nil_of_typeName hu
  obtain rfl : d = .nil := Value.nil_of_elements? hd
  have hfree : (Value.pair cell .nil .nil).FloatFree := by simp [Value.FloatFree]
  obtain ⟨-, ⟨hequal, -⟩, ⟨hself, -⟩, -⟩ :=
    identity_refines_equality hheap hv.keeps hv.keeps hfree hfree hfree
  exact ⟨cell, hheap, hv.keeps, hfree, hself.2 (by simp), hequal⟩

/-- A variable that holds a string is not identical to itself. -/
theorem Primitive.identical_self_string :
    let ctx : Context := ⟨.default, ⟨[], []⟩⟩
    let s : Session :=
      (Session.evalText ⟨ctx, 4, Session.primitiveWorld⟩ "(define s \"a\")").2
    ∃ v, Heap ctx {u | s.world.Keeps u} ∧ s.world.Keeps v ∧ v.FloatFree ∧
      s.world.Has rootScope "s" v ∧ identical.Gives [v, v] (.bool false) ∧
      (s.evalText "(eq? s s)").1 = .ok (.bool false) := by
  intro ctx s
  have hheap : Heap ctx {u | s.world.Keeps u} := .rest ((Session.Arises.bare 4).evalText _)
  have hbound : s.world.finds "s" (fun u => u.typeName == "string") = true := by decide +kernel
  have hrun : (s.evalText "(eq? s s)").1.toOption.map Value.isTrue = some false := by
    decide +kernel
  obtain ⟨v, hv, htest⟩ := World.has_of_finds hbound
  obtain ⟨text, rfl⟩ := Value.eq_string_of_typeName (beq_iff_eq.1 htest)
  have hfree : (Value.string text).FloatFree := (Value.every_single rfl).2 (by simp)
  exact ⟨_, hheap, hv.keeps, hfree, hv, fun _ _ => rfl, eq_false_of_outcome hrun⟩

end TinyLisp
