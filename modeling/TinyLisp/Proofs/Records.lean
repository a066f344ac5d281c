import TinyLisp.Proofs.Sharing
import TinyLisp.Proofs.Bindings

/-!
# Records as ordered maps

A record has its fields in the order in which they were first given, and no field twice: in a heap
this is so of all records (`Heap.nodup_keys`). Setting a field makes a new record and leaves the old
one as it is. The laws of the operations are those of tables, whatever record they are applied to:
the field that was set has the new value and every other field what it had, the last of two values
counts, and fields that are there can be set in either order.
-/

namespace TinyLisp

/-- A value gives a name, as a string or as a symbol. -/
def Value.Names (v : Value) (a : String) : Prop :=
  v = .string a ∨ v = .symbol a

theorem Value.Names.expectName {v : Value} {a : String} (h : v.Names a) :
    v.expectName = .ok a := by
  rcases h with rfl | rfl
  · rfl
  · rfl

theorem Value.eq_record_of_expectRecord {v : Value} {name : String} {fields : Fields}
    (h : v.expectRecord.toOption = some (name, fields)) : ∃ cell, v = .record cell name fields := by
  cases v with
  | record cell name' fields' =>
    cases h
    exact ⟨cell, rfl⟩
  | _ => cases h

namespace Primitive

variable {cell : Nat} {name : String} {fields : Fields} {f g v : Value} {a b : String}

/-! ## §1. The operations -/

theorem recordGet_call (hf : f.Names a) (en : Engine) :
    recordGet.call en [.record cell name fields, f] =
      match fields.get? a with
      | some v => pure v
      | none => fault .recordGet (.noSuchField name a) := by
  rw [call_eq rfl]
  show getField _ f = _
  unfold getField
  rw [hf.expectName]
  rfl

theorem recordGet_gives (hf : f.Names a) (h : fields.get? a = some v) :
    recordGet.Gives [.record cell name fields, f] v := by
  intro en w
  rw [recordGet_call hf, h]
  rfl

theorem recordGet_refuses (hf : f.Names a) (h : a ∉ fields.keys) :
    recordGet.Refuses [.record cell name fields, f] (.noSuchField name a) := by
  intro en w
  rw [recordGet_call hf, Table.get?_eq_none_iff.2 h]
  rfl

theorem recordSet_call (hf : f.Names a) (v : Value) (en : Engine) (w : World) :
    recordSet.call en [.record cell name fields, f, v] w =
      .ok (.record w.nextTag name (fields.set a v)) { w with nextTag := w.nextTag + 1 } := by
  rw [call_eq rfl]
  show setField _ f v w = _
  unfold setField
  rw [hf.expectName]
  rfl

/-- `record-fields` lists some names of a record, as symbols. -/
def Lists (r : Value) (names : List String) : Prop :=
  ∀ en w, ∃ v n, recordFields.call en [r] w = .ok v { w with nextTag := n } ∧
    v.elements? = some (names.map .symbol)

theorem lists_keys (cell : Nat) (name : String) (fields : Fields) :
    Lists (.record cell name fields) fields.keys := by
  intro en w
  obtain ⟨v, n, hv, helements⟩ := Eval.newChain_ok .nil (fields.map fun field => .symbol field.1) w
  refine ⟨v, n, ?_, ?_⟩
  · rw [call_eq rfl]
    exact hv
  · rw [helements]
    simp [Value.elements?, Table.keys]

/-! ## §2. The laws -/

/-- In a heap records are ordered maps. No record has a field twice, `record-fields` lists the
fields, and `record-get` gives the value of each and refuses all other names. `record-set` leaves
the store and with it the record as they are; in the record that it makes the field has the value,
every other name stands for what it stood for, and only a new field comes last. Setting a field a
second time is like setting it in the first place, and different fields that are there can be set in
either order. -/
theorem records_are_ordered_maps {ctx : Context} {H : Set Value} (h : Heap ctx H)
    (hr : .record cell name fields ∈ H) :
    let r : Value := .record cell name fields
    (fields.keys.Nodup ∧ Lists r fields.keys ∧
      (∀ {f a u}, f.Names a → (a, u) ∈ fields → recordGet.Gives [r, f] u) ∧
      (∀ {f a}, f.Names a → a ∉ fields.keys →
        recordGet.Refuses [r, f] (.noSuchField name a))) ∧
    ∀ {f a}, f.Names a → ∀ v,
      (∀ en w, ∃ r', recordSet.call en [r, f, v] w = .ok r' { w with nextTag := w.nextTag + 1 } ∧
        (∀ {f'}, f'.Names a → recordGet.Gives [r', f'] v) ∧
        (∀ {g b}, g.Names b → b ≠ a → ∀ en w,
          recordGet.call en [r', g] w = recordGet.call en [r, g] w) ∧
        Lists r' (if a ∈ fields.keys then fields.keys else fields.keys ++ [a]) ∧
        (∀ {f'}, f'.Names a → ∀ u en w,
          recordSet.call en [r', f', u] w = recordSet.call en [r, f', u] w)) ∧
      (∀ {g b}, g.Names b → b ≠ a → a ∈ fields.keys → b ∈ fields.keys → ∀ u en w,
        (recordSet.call en [r, f, v] >>= fun r' => recordSet.call en [r', g, u]) w =
          (recordSet.call en [r, g, u] >>= fun r' => recordSet.call en [r', f, v]) w) := by
  intro r
  have hnodup : fields.keys.Nodup := h.nodup_keys hr
  refine ⟨⟨hnodup, lists_keys cell name fields, fun hf hmem => ?_, recordGet_refuses⟩, ?_⟩
  · exact recordGet_gives hf (Table.get?_of_mem hnodup hmem)
  intro f a hf v
  refine ⟨fun en w => ⟨_, recordSet_call hf v en w, ?_, ?_, ?_, ?_⟩, ?_⟩
  · exact fun hf' => recordGet_gives hf' (Table.get?_set_self a v fields)
  · intro g b hg hne en w
    rw [recordGet_call hg, recordGet_call hg, Table.get?_set_of_ne hne]
  · rw [← Table.keys_set a v]
    exact lists_keys w.nextTag name (fields.set a v)
  · intro f' hf' u en w
    rw [recordSet_call hf', recordSet_call hf', Table.set_set]
  · intro g b hg hne ha hb u en w
    rw [Eval.bind_of_ok (recordSet_call hf v en w), Eval.bind_of_ok (recordSet_call hg u en w),
      recordSet_call hg, recordSet_call hf, Table.set_comm hne hb ha]

/-- A record that a session has made and bound. -/
theorem records_are_ordered_maps_bound :
    let ctx : Context := ⟨.default, ⟨[], []⟩⟩
    let s : Session :=
      (Session.evalText ⟨ctx, 4, Session.primitiveWorld⟩ "(define r (record 'p 'x 1))").2
    ∃ cell name u, let r : Value := .record cell name [("x", u)]
      Heap ctx {u | s.world.Keeps u} ∧ s.world.Keeps r ∧ recordGet.Gives [r, .string "x"] u ∧
        recordGet.Refuses [r, .symbol "y"] (.noSuchField name "y") := by
  intro ctx s
  have hheap : Heap ctx {u | s.world.Keeps u} := .rest ((Session.Arises.bare 4).evalText _)
  have hbound : s.world.finds "r"
      (fun u => u.expectRecord.toOption.map (fun r => r.2.map Prod.fst) == some ["x"]) = true := by
    decide +kernel
  obtain ⟨v, hv, htest⟩ := World.has_of_finds hbound
  obtain ⟨⟨name, fields⟩, hrecord, hkeys⟩ := Option.map_eq_some_iff.1 (beq_iff_eq.1 htest)
  obtain ⟨cell, rfl⟩ := Value.eq_record_of_expectRecord hrecord
  obtain ⟨⟨f, u⟩, rfl, hf⟩ := List.map_eq_singleton_iff.1 hkeys
  obtain rfl : f = "x" := hf
  obtain ⟨⟨-, -, hgives, hrefuses⟩, -⟩ := records_are_ordered_maps hheap hv.keeps
  exact ⟨cell, name, u, hheap, hv.keeps, hgives (.inl rfl) (by simp),
    hrefuses (.inr rfl) (by simp [Table.keys])⟩

end Primitive

end TinyLisp
