import TinyLisp.Proofs.Stable
import TinyLisp.Proofs.Ending

/-!
# Bindings that last

A piece of code relies on what some names stand for where it runs. `World.Has` says that a name has
a value in a scope, and `World.Unmasked` that it stands for no expander there. Both last as long as
old frames and old slots are left alone (`World.Untouched`), and so through all that happens on the
way: silent work, which only makes frames, slots and pairs (`World.Silent`), and applications of any
values at all (`Engine.untouched_of_apply`).

A function, an expander and a `let` form open a scope for their bodies. `World.Entered` says what the
names mean there: those bound have the values given, and all others what they meant outside.
-/

namespace TinyLisp

open Store (Confined Fresh)

/-! ## §1. Stores -/

namespace Store

variable {s t : Store} {f : FrameId} {bs : List (String × Value)}

/-- What changes nothing that is there lets a store grow. -/
theorem Confined.grows (h : Confined none s t) : s.Grows t where
  frames_le := h.frames_le
  slots_le := h.slots_le
  kept hs := by
    unfold slotIn?
    rw [h.frame_eq _ (lt_size_of_slotIn? hs) (by simp)]
    exact hs
  filled hs := by
    obtain ⟨v, hv⟩ := Option.isSome_iff_exists.1 hs
    rw [h.content_eq _ (lt_size_of_content hv) (by simp), hv]
    rfl
  fresh hg hs := by
    unfold slotIn? at hs
    rw [h.frame_eq _ hg (by simp)] at hs
    exact .inl hs

theorem frames_size_bindAll (s : Store) (f : FrameId) (bs : List (String × Value)) :
    (s.bindAll f bs).frames.size = s.frames.size := by
  induction bs generalizing s with
  | nil => rfl
  | cons b bs ih =>
    unfold bindAll
    rw [ih, frames_size_bind]

theorem bindAll_append (s : Store) (f : FrameId) (bs cs : List (String × Value)) :
    s.bindAll f (bs ++ cs) = (s.bindAll f bs).bindAll f cs := by
  induction bs generalizing s with
  | nil => rfl
  | cons b bs ih => exact ih _

/-- Names that a frame does not bind yet get slots of their own. -/
theorem bindAll_new (s : Store) (bs : List (String × Value)) (hf : f < s.frames.size) (hnodup : (bs.map Prod.fst).Nodup)
    (hnew : ∀ name ∈ bs.map Prod.fst, s.slotIn? f name = none) :
    (∀ slot, slot < s.slots.size → (s.bindAll f bs).content slot = s.content slot) ∧
    (∀ b ∈ bs, ∃ slot, (s.bindAll f bs).slotIn? f b.1 = some slot ∧
      (s.bindAll f bs).content slot = some b.2) ∧
    ∀ name, name ∉ bs.map Prod.fst → (s.bindAll f bs).slotIn? f name = s.slotIn? f name := by
  induction bs generalizing s with
  | nil => exact ⟨fun _ _ => rfl, fun _ hb => absurd hb (by simp), fun _ _ => rfl⟩
  | cons b bs ih =>
    obtain ⟨n, v⟩ := b
    obtain ⟨hn, hnodup⟩ := List.nodup_cons.1 hnodup
    have hfirst : s.slotIn? f n = none := hnew n (by simp)
    have hslotIn (name : String) : (s.bind f n v).slotIn? f name =
        if name = n then some s.slots.size else s.slotIn? f name := by
      rw [slotIn?_bind_of_none hfirst hf]
      simp only [true_and]
    have hsize : (s.bind f n v).slots.size = s.slots.size + 1 := slots_size_bind_of_none hfirst
    have hnew' : ∀ name ∈ bs.map Prod.fst, (s.bind f n v).slotIn? f name = none := by
      intro name hname
      have hne : name ≠ n := fun heq => hn (heq ▸ hname)
      rw [hslotIn, if_neg hne]
      exact hnew name (List.mem_cons_of_mem _ hname)
    obtain ⟨hkept, hbound, hothers⟩ := ih (s := s.bind f n v) (by simpa using hf) hnodup hnew'
    refine ⟨fun slot hslot => ?_, fun b hb => ?_, fun name hname => ?_⟩
    · show ((s.bind f n v).bindAll f bs).content slot = _
      rw [hkept slot (by omega), content_bind_of_none hfirst, if_neg (Nat.ne_of_lt hslot)]
    · rcases List.mem_cons.1 hb with rfl | hb
      · refine ⟨s.slots.size, slotIn?_bindAll_of_some ?_ bs, ?_⟩
        · rw [hslotIn, if_pos rfl]
        · show ((s.bind f n v).bindAll f bs).content _ = _
          rw [hkept _ (by omega), content_bind_of_none hfirst, if_pos rfl]
      · exact hbound b hb
    · simp only [List.map_cons, List.mem_cons, not_or] at hname
      show ((s.bind f n v).bindAll f bs).slotIn? f name = _
      rw [hothers name hname.2, hslotIn, if_neg hname.1]

end Store

/-! ## §2. Worlds in which all is as it was -/

/-- From `w` to `w'` nothing that was there has changed. -/
structure World.Untouched (w w' : World) : Prop where
  store : Confined none w.store w'.store
  bodies_le : w.bodies.size ≤ w'.bodies.size
  bodies_eq : ∀ {id}, id < w.bodies.size → w'.bodies[id]? = w.bodies[id]?

/-- From `w` to `w'` frames, slots and pairs have been made, and that is all. -/
structure World.Silent (w w' : World) : Prop where
  store : Confined none w.store w'.store
  bodies : w'.bodies = w.bodies
  gensym : w'.gensym = w.gensym
  library : w'.library = w.library
  output : w'.output = w.output

namespace World

variable {w w' w'' : World} {scope inner : Scope} {name : String} {v : Value}

theorem Untouched.refl (w : World) : w.Untouched w :=
  ⟨.refl none w.store, Nat.le_refl _, fun _ => rfl⟩

theorem Untouched.trans (h : w.Untouched w') (h' : w'.Untouched w'') : w.Untouched w'' where
  store := h.store.trans h'.store
  bodies_le := Nat.le_trans h.bodies_le h'.bodies_le
  bodies_eq hid := (h'.bodies_eq (Nat.lt_of_lt_of_le hid h.bodies_le)).trans (h.bodies_eq hid)

theorem Untouched.grows (h : w.Untouched w') : w.Grows w' :=
  ⟨h.store.grows, h.bodies_le, h.bodies_eq⟩

theorem Silent.refl (w : World) : w.Silent w :=
  ⟨.refl none w.store, rfl, rfl, rfl, rfl⟩

theorem Silent.trans (h : w.Silent w') (h' : w'.Silent w'') : w.Silent w'' :=
  ⟨h.store.trans h'.store, h'.bodies.trans h.bodies, h'.gensym.trans h.gensym,
    h'.library.trans h.library, h'.output.trans h.output⟩

theorem Silent.untouched (h : w.Silent w') : w.Untouched w' :=
  ⟨h.store, Nat.le_of_eq (congrArg _ h.bodies.symm), fun _ => by rw [h.bodies]⟩

/-- Pairs are made silently. -/
theorem silent_tags (w : World) (n : Nat) : w.Silent { w with nextTag := n } :=
  ⟨.refl none w.store, rfl, rfl, rfl, rfl⟩

/-! ## §3. What names stand for -/

/-- A name has a value in a scope. -/
def Has (w : World) (scope : Scope) (name : String) (v : Value) : Prop :=
  ∃ slot, w.store.slot? scope name = some slot ∧ w.store.content slot = some v

/-- No expander goes by a name in a scope: the name is not bound there, or its slot is there and does
not hold one. -/
def Unmasked (w : World) (scope : Scope) (name : String) : Prop :=
  ∀ slot, w.store.slot? scope name = some slot →
    slot < w.store.slots.size ∧ ∀ m, w.store.content slot ≠ some (.expander m)

/-- What a name has as its value at top level passes a test. -/
def finds (w : World) (name : String) (test : Value → Bool) : Bool :=
  ((w.store.slot? rootScope name).bind w.store.content).any test

theorem has_of_finds {test : Value → Bool} (h : w.finds name test = true) :
    ∃ v, w.Has rootScope name v ∧ test v = true := by
  obtain ⟨v, hv, htest⟩ := (Option.any_eq_true _ _).1 h
  exact ⟨v, Option.bind_eq_some_iff.1 hv, htest⟩

/-- A value that a name has is kept. -/
theorem Has.keeps (h : w.Has scope name v) : w.Keeps v := by
  obtain ⟨slot, -, hv⟩ := h
  exact .content hv v.self_mem_nodes

/-- A name that has a value stands for it. -/
theorem Has.lookup (h : w.Has scope name v) : w.store.lookup scope name = .ok v := by
  obtain ⟨slot, hslot, hv⟩ := h
  exact Store.lookup_of_content hslot hv

theorem Has.expander? (h : w.Has scope name v) (hv : ∀ m, v ≠ .expander m) :
    w.store.expander? scope name = none := by
  unfold Store.expander?
  rw [h.lookup]
  split
  · next m heq => exact absurd (Except.ok.inj heq) (hv m)
  · rfl

theorem Has.expander?_eq_some {m : Expander} (h : w.Has scope name (.expander m)) :
    w.store.expander? scope name = some m := by
  unfold Store.expander?
  rw [h.lookup]

/-- A name without a dot that stands for an expander has it as its value. -/
theorem has_of_expander? {m : Expander} (hname : splitMember? name = none)
    (h : w.store.expander? scope name = some m) : w.Has scope name (.expander m) := by
  unfold Store.expander? at h
  split at h
  · next m' hlookup =>
    cases h
    cases hslot : w.store.slot? scope name with
    | none =>
      rw [Store.lookup_of_unsplit hslot hname] at hlookup
      cases hlookup
    | some slot =>
      rw [Store.lookup_of_slot? hslot] at hlookup
      exact ⟨slot, hslot, Store.content_of_read (Except.ok.inj hlookup) (by simp)⟩
  · exact absurd h (by simp)

/-- A name without a dot by which no expander goes stands for none. -/
theorem Unmasked.expander? (h : w.Unmasked scope name) (hname : splitMember? name = none) :
    w.store.expander? scope name = none := by
  cases hm : w.store.expander? scope name with
  | none => rfl
  | some m =>
    obtain ⟨slot, hslot, hcontent⟩ := has_of_expander? hname hm
    exact absurd hcontent ((h slot hslot).2 m)

/-- And the other way round, where the slots that frames bind are there. -/
theorem unmasked_of_expander? (ht : w.store.Tight)
    (h : w.store.expander? scope name = none) : w.Unmasked scope name := by
  intro slot hslot
  obtain ⟨f, -, hf⟩ := List.exists_of_findSome?_eq_some hslot
  refine ⟨ht f name slot hf, fun m hm => ?_⟩
  have hhas : w.Has scope name (.expander m) := ⟨slot, hslot, hm⟩
  rw [hhas.expander?_eq_some] at h
  exact absurd h (by simp)

theorem Has.later (h : w.Has scope name v) (hs : w.Inside scope)
    (hc : Confined none w.store w'.store) : w'.Has scope name v := by
  obtain ⟨slot, hslot, hv⟩ := h
  refine ⟨slot, (slot?_stable hs hc name).trans hslot, ?_⟩
  rw [hc.content_eq slot (Store.lt_size_of_content hv) (by simp), hv]

theorem Unmasked.later (h : w.Unmasked scope name) (hs : w.Inside scope)
    (hc : Confined none w.store w'.store) : w'.Unmasked scope name := by
  intro slot hslot
  rw [slot?_stable hs hc] at hslot
  obtain ⟨hlt, hnone⟩ := h slot hslot
  refine ⟨Nat.lt_of_lt_of_le hlt hc.slots_le, fun m => ?_⟩
  rw [hc.content_eq slot hlt (by simp)]
  exact hnone m

/-! ## §4. Scopes for bodies -/

/-- From `w`, a scope for a body has been opened in another one. The names bound there have their
values, and every other name has the slot that it had outside. -/
structure Entered (w : World) (scope : Scope) (bs : List (String × Value)) (w' : World)
    (inner : Scope) : Prop where
  silent : w.Silent w'
  inside : w'.Inside inner
  bound : ∀ b ∈ bs, w'.Has inner b.1 b.2
  others : ∀ name, name ∉ bs.map Prod.fst →
    w'.store.slot? inner name = w.store.slot? scope name

namespace Entered

variable {bs : List (String × Value)}

/-- A name that is not bound there means what it meant outside. -/
theorem has (h : w.Entered scope bs w' inner) (hv : w.Has scope name v)
    (hn : name ∉ bs.map Prod.fst) : w'.Has inner name v := by
  obtain ⟨slot, hslot, hcontent⟩ := hv
  refine ⟨slot, (h.others name hn).trans hslot, ?_⟩
  rw [h.silent.store.content_eq slot (Store.lt_size_of_content hcontent) (by simp), hcontent]

theorem unmasked (h : w.Entered scope bs w' inner) (hv : w.Unmasked scope name)
    (hn : name ∉ bs.map Prod.fst) : w'.Unmasked inner name := by
  intro slot hslot
  rw [h.others name hn] at hslot
  obtain ⟨hlt, hnone⟩ := hv slot hslot
  refine ⟨Nat.lt_of_lt_of_le hlt h.silent.store.slots_le, fun m => ?_⟩
  rw [h.silent.store.content_eq slot hlt (by simp)]
  exact hnone m

/-- Silent work may be done beforehand. -/
theorem since (h : w'.Entered scope bs w'' inner) (hw : w.Silent w') (hs : w.Inside scope) :
    w.Entered scope bs w'' inner :=
  ⟨hw.trans h.silent, h.inside, h.bound, fun name hn =>
    (h.others name hn).trans (slot?_stable hs hw.store name)⟩

/-- A scope inside a scope binds the names of both. -/
theorem trans {middle : Scope} {cs : List (String × Value)} (h : w.Entered scope bs w' middle)
    (h' : w'.Entered middle cs w'' inner)
    (hdisjoint : ∀ name ∈ bs.map Prod.fst, name ∉ cs.map Prod.fst) :
    w.Entered scope (cs ++ bs) w'' inner where
  silent := h.silent.trans h'.silent
  inside := h'.inside
  bound b hb := by
    rcases List.mem_append.1 hb with hb | hb
    · exact h'.bound b hb
    · exact h'.has (h.bound b hb) (hdisjoint b.1 (List.mem_map_of_mem hb))
  others name hn := by
    rw [List.map_append, List.mem_append, not_or] at hn
    exact (h'.others name hn.1).trans (h.others name hn.2)

end Entered

/-- The world after a new frame has been made and some names bound in it. -/
def opened (w : World) (bs : List (String × Value)) : World :=
  { w with store := w.store.newFrame.2.bindAll w.store.frames.size bs }

theorem Inside.opened (hs : w.Inside scope) (bs : List (String × Value)) :
    (w.opened bs).Inside (w.store.frames.size :: scope) := by
  have hsize : (w.opened bs).store.frames.size = w.store.frames.size + 1 := by
    show (w.store.newFrame.2.bindAll w.store.frames.size bs).frames.size = _
    rw [Store.frames_size_bindAll, Store.frames_size_newFrame]
  refine ⟨by simp, fun f hf => ?_⟩
  rw [hsize]
  rcases List.mem_cons.1 hf with rfl | hf
  · exact Nat.lt_succ_self _
  · exact Nat.lt_succ_of_lt (hs.lt f hf)

theorem silent_opened (w : World) (bs : List (String × Value)) : w.Silent (w.opened bs) := by
  refine ⟨?_, rfl, rfl, rfl, rfl⟩
  have hnone : ∀ f, (none : Option FrameId) = some f → f < w.store.frames.size :=
    fun f hf => absurd hf (by simp)
  -- the new frame is fresh, so that what is bound in it touches nothing
  have hbind := Store.confined_bindAll w.store.newFrame.2 w.store.frames.size bs
  exact (Store.confined_newFrame none w.store).inside hnone
    (Store.fresh_newFrame w.store []) hbind

/-- A new frame with distinct names. -/
theorem entered_opened (hs : w.Inside scope) {bs : List (String × Value)}
    (hnodup : (bs.map Prod.fst).Nodup) :
    w.Entered scope bs (w.opened bs) (w.store.frames.size :: scope) := by
  have hsilent := silent_opened w bs
  obtain ⟨-, hbound, hothers⟩ := Store.bindAll_new w.store.newFrame.2 bs
    (f := w.store.frames.size) (by simp) hnodup fun name _ =>
      Store.slotIn?_newFrame_size w.store name
  refine ⟨hsilent, hs.opened bs, fun b hb => ?_, fun name hn => ?_⟩
  · obtain ⟨slot, hslot, hv⟩ := hbound b hb
    exact ⟨slot, Store.slot?_of_slotIn? rfl hslot, hv⟩
  · have hnone : (w.opened bs).store.slotIn? w.store.frames.size name = none :=
      (hothers name hn).trans (Store.slotIn?_newFrame_size w.store name)
    exact (Store.slot?_cons_of_none hnone).trans (slot?_stable hs hsilent.store name)

end World

/-! ## §5. Parameters and captured slots -/

namespace Eval

variable {w : World}

/-- A chain of new pairs has the elements given. -/
theorem newChain_ok (tail : Value) (vs : List Value) (w : World) :
    ∃ v n, newChain tail vs w = .ok v { w with nextTag := n } ∧
      v.elements? = tail.elements?.map (vs ++ ·) := by
  induction vs with
  | nil => exact ⟨tail, w.nextTag, rfl, by cases tail.elements? <;> rfl⟩
  | cons u vs ih =>
    obtain ⟨rest, n, hrest, helements⟩ := ih
    refine ⟨.pair (some n) u rest, n + 1, ?_, ?_⟩
    · show (newChain tail vs >>= fun rest => newPair u rest) w = _
      rw [bind_of_ok hrest]
      rfl
    · show rest.elements?.map (u :: ·) = _
      rw [helements, Option.map_map]
      rfl

end Eval

/-- What parameters are bound to, where the rest parameter gets a list. -/
def Params.bindings (params : Params) (args : List Value) (rest : Value) : List (String × Value) :=
  params.fixed.zip args ++ params.rest.toList.map fun name => (name, rest)

theorem Params.bindings_fst {params : Params} {args : List Value}
    (h : params.arity.contains args.length = true) (rest : Value) :
    (params.bindings args rest).map Prod.fst = params.names := by
  have hkeys := List.map_fst_zip (Params.length_fixed_le h)
  unfold Params.bindings Params.names
  rw [List.map_append, hkeys, List.map_map]
  exact congrArg (params.fixed ++ ·) (List.map_id _)

namespace Eval

variable {w : World} {scope : Scope} {params : Params} {args : List Value}

/-- Parameters that fit their arguments are bound in the innermost frame. -/
theorem bindParams_ok (h : params.arity.contains args.length = true) (f : FrameId) (scope : Scope)
    (name : String) (w : World) :
    ∃ rest n, rest.elements? = some (args.drop params.fixed.length) ∧
      bindParams params args (f :: scope) name w =
        .ok () { w with
          nextTag := n
          store := w.store.bindAll f (params.bindings args rest) } := by
  unfold bindParams Params.bindings
  rw [checkArity_of_contains h]
  cases params.rest with
  | none =>
    refine ⟨.ofList (args.drop params.fixed.length), w.nextTag, Value.elements?_ofList _, ?_⟩
    simp only [Option.toList_none, List.map_nil, List.append_nil]
    rfl
  | some r =>
    let bound : World := { w with store := w.store.bindAll f (params.fixed.zip args) }
    obtain ⟨rest, n, hrest, helements⟩ := newChain_ok .nil (args.drop params.fixed.length) bound
    refine ⟨rest, n, helements.trans (by simp [Value.elements?]), ?_⟩
    rw [Store.bindAll_append]
    show (newList (args.drop params.fixed.length) >>= fun v => bindName (f :: scope) r v) bound = _
    unfold newList
    rw [bind_of_ok hrest]
    rfl

/-- A scope for a body: a new frame with the parameters. -/
theorem entered_params (hs : w.Inside scope) (h : params.arity.contains args.length = true)
    (hnodup : params.names.Nodup) (name : String) :
    ∃ rest inner w', rest.elements? = some (args.drop params.fixed.length) ∧
      (extend scope >>= fun inner => bindParams params args inner name >>= fun _ => pure inner) w =
        .ok inner w' ∧ w.Entered scope (params.bindings args rest) w' inner := by
  obtain ⟨rest, n, helements, hbind⟩ := bindParams_ok h w.store.frames.size scope name
    { w with store := w.store.newFrame.2 }
  let w₁ : World := { w with nextTag := n }
  refine ⟨rest, w.store.frames.size :: scope, w₁.opened (params.bindings args rest), helements, ?_,
    ?_⟩
  · have hextend : extend scope w =
        .ok (w.store.frames.size :: scope) { w with store := w.store.newFrame.2 } := rfl
    rw [bind_of_ok hextend, bind_of_ok hbind]
    rfl
  · have hs₁ : w₁.Inside scope := ⟨hs.ne, hs.lt⟩
    rw [← Params.bindings_fst h rest] at hnodup
    exact (World.entered_opened hs₁ hnodup).since (w.silent_tags n) hs

/-- The frame of a table binds names to the slots that they have in the scope anyway. -/
theorem entered_captured {c : Closure} (h : w.Supports (.closure c)) :
    ∃ inner w', capturedScope c w = .ok inner w' ∧ w.Entered c.scope [] w' inner := by
  obtain ⟨hs, -, hcovers⟩ := h
  unfold capturedScope
  cases hcaptures : c.captures with
  | scope =>
    exact ⟨c.scope, w, rfl, .refl w, hs, fun _ hb => absurd hb (by simp), fun _ _ => rfl⟩
  | table slots =>
    rw [hcaptures] at hcovers
    let s := w.store.newFrame.2.bindSlots w.store.frames.size slots
    have hnone : ∀ f, (none : Option FrameId) = some f → f < w.store.frames.size :=
      fun f hf => absurd hf (by simp)
    have hsilent : w.Silent { w with store := s } :=
      ⟨(Store.confined_newFrame none w.store).bindSlots hnone
        (Store.fresh_newFrame w.store c.scope) slots, rfl, rfl, rfl, rfl⟩
    refine ⟨w.store.frames.size :: c.scope, { w with store := s }, rfl, hsilent, ?_,
      fun _ hb => absurd hb (by simp), fun name _ => ?_⟩
    · exact (hs.later hsilent.untouched.grows).cons (by simp [s])
    · have hrest : s.slot? c.scope name = w.store.slot? c.scope name :=
        World.slot?_stable hs hsilent.store name
      refine (Store.slot?_cons_of_shared fun {slot} hslot => ?_).trans hrest
      -- bound by the table, and so by the innermost frame of the scope
      obtain ⟨f, hf, hpinned⟩ := hcovers (name, slot) (Store.mem_of_slotIn?_newFrame hslot)
      rw [hrest]
      exact Store.slot?_of_slotIn? hf hpinned

/-- A function that is called comes to its body in a scope with its parameters. -/
theorem entered_call {c : Closure} (h : w.Supports (.closure c))
    (harity : c.params.arity.contains args.length = true) (hnodup : c.params.names.Nodup) :
    ∃ rest inner w', rest.elements? = some (args.drop c.params.fixed.length) ∧
      (callScope c >>= fun inner => bindParams c.params args inner c.label >>= fun _ =>
        pure inner) w = .ok inner w' ∧
      w.Entered c.scope (c.params.bindings args rest) w' inner := by
  obtain ⟨middle, w₁, hcaptured, hmiddle⟩ := entered_captured h
  obtain ⟨rest, inner, w', helements, hrun, hinner⟩ :=
    entered_params hmiddle.inside harity hnodup c.label
  refine ⟨rest, inner, w', helements, ?_, by simpa using hmiddle.trans hinner (by simp)⟩
  rw [callScope_eq, bind_assoc, bind_of_ok hcaptured]
  exact hrun

end Eval

/-! ## §6. Applications -/

namespace Engine

variable {ctx : Context} {w w' : World} {f v : Value} {args : List Value}

/-- An application leaves all that was there as it was. -/
theorem untouched_of_apply (h : applyEnd ctx f args w = some (.ok v w')) : w.Untouched w' := by
  obtain ⟨⟨n, hrun⟩, -⟩ := (atLast_eq_some (deepens_apply f args)).1 h
  have hwithin : Eval.Within [] ((ofDepth ctx n).apply f args) := (isolates_ofDepth ctx n).apply f args
  have hstore := hwithin w fun f hf => absurd hf (by simp)
  have hgrows := perform_grows ctx n (.apply f args) w
  have hafter : ((ofDepth ctx n).apply f args).after w = w' := Eval.after_of_ok hrun
  show w.Untouched w'
  rw [← hafter]
  exact ⟨hstore, hgrows.bodies_le, hgrows.bodies_eq⟩

end Engine

end TinyLisp
