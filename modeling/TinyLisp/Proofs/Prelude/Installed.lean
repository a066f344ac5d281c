import TinyLisp.Proofs.Bindings
import TinyLisp.Proofs.Prelude.Text

/-!
# The prelude installed

A session starts with the primitive operations and what the prelude defines bound to their names in
the outermost frame. `World.Installed` says that this is so in a world: the names have values, and the
values are what the definitions of the prelude make (`World.Binds`). It lasts as long as old frames
and slots are left alone (`World.Installed.later`).

It is so in a new session, because the definitions have names of their own: each of them adds one
binding to the outermost frame (`World.Adds`) and leaves those before it as they were.
-/

namespace TinyLisp

open Store (Confined)

/-! ## §1. Definitions in force -/

/-- An expander is made in the outermost scope, with some parameters and a body. -/
structure Expander.Made (m : Expander) (w : World) (params : Params) (body : Expr) : Prop where
  params : m.params = params
  scope : m.scope = rootScope
  body : w.bodies[m.id]? = some body

/-- A function is made in the outermost scope, with some parameters and a body, under a name. It is
bound to the name in a frame of its own. -/
structure Closure.Made (c : Closure) (w : World) (name : String) (params : Params) (body : Expr) :
    Prop where
  params : c.params = params
  body : w.bodies[c.id]? = some body
  own : ∃ g slot, c.scope = [g, rootFrame] ∧ g ≠ rootFrame ∧ w.store.frame g = [(name, slot)] ∧
    w.store.content slot = some (.closure c)

namespace World

variable {w w' w₁ : World} {name other : String} {u v : Value} {params : Params} {body : Expr}

/-- In the outermost scope a name has the value that a definition makes. -/
inductive Binds (w : World) (name : String) (params : Params) (body : Expr) : DefinitionKind → Prop
  | expander (m : Expander) (has : w.Has rootScope name (.expander m)) (made : m.Made w params body) :
      Binds w name params body .expander
  | function (c : Closure) (has : w.Has rootScope name (.closure c))
      (made : c.Made w name params body) : Binds w name params body .function

/-- The definition of something in the prelude is in force. -/
def HasDefined (w : World) (d : DefinitionKind × String) : Prop :=
  ∃ params body, Prelude.Defines d.1 d.2 params body ∧ w.Binds d.2 params body d.1

/-- The primitive operations and the prelude are bound to their names. -/
structure Installed (w : World) : Prop where
  primitives : ∀ p : Primitive, w.Has rootScope p.name (.primitive p)
  definitions : ∀ d ∈ Prelude.contents, w.HasDefined d.2

/-- A name has one value. -/
theorem Has.unique {scope : Scope} (h : w.Has scope name u) (h' : w.Has scope name v) : u = v := by
  obtain ⟨slot, hslot, hu⟩ := h
  obtain ⟨slot', hslot', hv⟩ := h'
  rw [hslot] at hslot'
  cases hslot'
  rw [hu] at hv
  exact Option.some.inj hv

/-- A scope of one frame that binds something is there. -/
theorem Has.inside {f : FrameId} (h : w.Has [f] name v) : w.Inside [f] := by
  obtain ⟨slot, hslot, -⟩ := h
  obtain ⟨g, hg, hin⟩ := List.exists_of_findSome?_eq_some hslot
  refine ⟨by simp, fun g' hg' => ?_⟩
  rw [List.mem_singleton] at hg hg'
  rw [hg', ← hg]
  exact Store.lt_size_of_slotIn? hin

theorem Installed.inside (h : w.Installed) : w.Inside rootScope :=
  (h.primitives .car).inside

end World

/-- An expander stays what it is. -/
theorem Expander.Made.later {m : Expander} {w w' : World} {params : Params} {body : Expr}
    (h : m.Made w params body) (hw : w.Untouched w') : m.Made w' params body := by
  obtain ⟨hlt, -⟩ := Array.getElem?_eq_some_iff.1 h.body
  exact ⟨h.params, h.scope, (hw.bodies_eq hlt).trans h.body⟩

theorem Expander.Made.getD_bodies {m : Expander} {w : World} {params : Params} {body : Expr}
    (h : m.Made w params body) (e : Expr) : w.bodies.getD m.id e = body := by
  rw [Array.getD_eq_getD_getElem?, h.body, Option.getD_some]

namespace Closure.Made

variable {c : Closure} {w w' : World} {name : String} {params : Params} {body : Expr}

/-- A frame that binds something is there. -/
theorem lt_size_of_frame {s : Store} {g : FrameId} {b : String × SlotId} (h : s.frame g = [b]) :
    g < s.frames.size := by
  by_contra hlt
  rw [Store.frame_of_size_le (Nat.le_of_not_lt hlt)] at h
  exact absurd h (by simp)

/-- A function stays what it is. -/
theorem later (h : c.Made w name params body) (hw : w.Untouched w') :
    c.Made w' name params body := by
  obtain ⟨hlt, -⟩ := Array.getElem?_eq_some_iff.1 h.body
  obtain ⟨g, slot, hscope, hg, hframe, hcontent⟩ := h.own
  refine ⟨h.params, (hw.bodies_eq hlt).trans h.body, g, slot, hscope, hg, ?_, ?_⟩
  · rw [hw.store.frame_eq g (lt_size_of_frame hframe) (by simp), hframe]
  · rw [hw.store.content_eq slot (Store.lt_size_of_content hcontent) (by simp), hcontent]

theorem getD_bodies (h : c.Made w name params body) (e : Expr) : w.bodies.getD c.id e = body := by
  rw [Array.getD_eq_getD_getElem?, h.body, Option.getD_some]

/-- In the scope of a function its own name means the function, and every other name what it means
outermost. -/
theorem entered (h : c.Made w name params body) (hroot : w.Inside rootScope) :
    w.Entered rootScope [(name, .closure c)] w c.scope := by
  obtain ⟨g, slot, hscope, -, hframe, hcontent⟩ := h.own
  rw [hscope]
  refine ⟨.refl w, hroot.cons (lt_size_of_frame hframe), fun b hb => ?_, fun other hother => ?_⟩
  · rw [List.mem_singleton] at hb
    subst hb
    have hslot : w.store.slotIn? g name = some slot := by
      unfold Store.slotIn?
      rw [hframe]
      simp [Table.get?]
    exact ⟨slot, Store.slot?_of_slotIn? rfl hslot, hcontent⟩
  · exact Store.slot?_cons_of_not_mem (by simpa [hframe, Table.keys] using hother)

end Closure.Made

namespace World

variable {w w' w₁ : World} {name other : String} {u v : Value} {params : Params} {body : Expr}
variable {kind : DefinitionKind}

theorem Binds.later (h : w.Binds name params body kind) (hw : w.Untouched w') :
    w'.Binds name params body kind := by
  cases h with
  | expander m has made => exact .expander m (has.later has.inside hw.store) (made.later hw)
  | function c has made => exact .function c (has.later has.inside hw.store) (made.later hw)

/-- What is installed stays so. -/
theorem Installed.later (h : w.Installed) (hw : w.Untouched w') : w'.Installed where
  primitives p := (h.primitives p).later h.inside hw.store
  definitions d hd := by
    obtain ⟨params, body, hdefines, hbinds⟩ := h.definitions d hd
    exact ⟨params, body, hdefines, hbinds.later hw⟩

/-! ## §2. One definition more -/

/-- From `w` to `w'` a name has got a value in the outermost frame; besides, things have been made, and
nothing that was there has changed. -/
structure Adds (w : World) (name : String) (v : Value) (w' : World) : Prop where
  has : w'.Has rootScope name v
  others : ∀ other, other ≠ name →
    w'.store.slotIn? rootFrame other = w.store.slotIn? rootFrame other
  frame_eq : ∀ g, g < w.store.frames.size → g ≠ rootFrame → w'.store.frame g = w.store.frame g
  content_eq : ∀ slot, slot < w.store.slots.size → w'.store.content slot = w.store.content slot
  bodies_eq : ∀ id, id < w.bodies.size → w'.bodies[id]? = w.bodies[id]?

theorem slot?_rootScope (s : Store) (name : String) :
    s.slot? rootScope name = s.slotIn? rootFrame name := by
  show [rootFrame].findSome? _ = _
  rw [List.findSome?_cons]
  cases s.slotIn? rootFrame name <;> rfl

/-- To bind a name that is not bound is to add it. -/
theorem adds_bind (hroot : w.Inside rootScope) (hnew : w.store.slotIn? rootFrame name = none)
    (v : Value) : w.Adds name v { w with store := w.store.bind rootFrame name v } := by
  obtain ⟨hcontent, hbound, hothers⟩ := Store.bindAll_new w.store [(name, v)]
    (hroot.lt rootFrame (by simp [rootScope])) (by simp) (by simpa using hnew)
  refine ⟨?_, fun other hother => ?_, fun g _ hne => ?_, hcontent, fun _ _ => rfl⟩
  · obtain ⟨slot, hslot, hv⟩ := hbound (name, v) (by simp)
    exact ⟨slot, (slot?_rootScope _ name).trans hslot, hv⟩
  · exact hothers other (by simpa using hother)
  · exact Store.frame_bind_of_ne hne

/-- Things may be made beforehand. -/
theorem Adds.since (h : w₁.Adds name v w') (hw : w.Untouched w₁) (hroot : w.Inside rootScope) :
    w.Adds name v w' where
  has := h.has
  others other hother := by
    have hold : w₁.store.slotIn? rootFrame other = w.store.slotIn? rootFrame other := by
      unfold Store.slotIn?
      rw [hw.store.frame_eq rootFrame (hroot.lt rootFrame (by simp [rootScope])) (by simp)]
    exact (h.others other hother).trans hold
  frame_eq g hg hne := (h.frame_eq g (Nat.lt_of_lt_of_le hg hw.store.frames_le) hne).trans
    (hw.store.frame_eq g hg (by simp))
  content_eq slot hslot := (h.content_eq slot (Nat.lt_of_lt_of_le hslot hw.store.slots_le)).trans
    (hw.store.content_eq slot hslot (by simp))
  bodies_eq id hid := (h.bodies_eq id (Nat.lt_of_lt_of_le hid hw.bodies_le)).trans (hw.bodies_eq hid)

/-- The other names keep their values. -/
theorem Has.adds (h : w.Has rootScope other u) (hw : w.Adds name v w') (hne : other ≠ name) :
    w'.Has rootScope other u := by
  obtain ⟨slot, hslot, hu⟩ := h
  refine ⟨slot, ?_, (hw.content_eq slot (Store.lt_size_of_content hu)).trans hu⟩
  rw [slot?_rootScope] at hslot ⊢
  exact (hw.others other hne).trans hslot

end World

theorem Expander.Made.adds {m : Expander} {w w' : World} {name : String} {v : Value}
    {params : Params} {body : Expr} (h : m.Made w params body) (hw : w.Adds name v w') :
    m.Made w' params body := by
  obtain ⟨hlt, -⟩ := Array.getElem?_eq_some_iff.1 h.body
  exact ⟨h.params, h.scope, (hw.bodies_eq m.id hlt).trans h.body⟩

theorem Closure.Made.adds {c : Closure} {w w' : World} {name other : String} {v : Value}
    {params : Params} {body : Expr} (h : c.Made w other params body) (hw : w.Adds name v w') :
    c.Made w' other params body := by
  obtain ⟨hlt, -⟩ := Array.getElem?_eq_some_iff.1 h.body
  obtain ⟨g, slot, hscope, hg, hframe, hcontent⟩ := h.own
  refine ⟨h.params, (hw.bodies_eq c.id hlt).trans h.body, g, slot, hscope, hg, ?_, ?_⟩
  · exact (hw.frame_eq g (lt_size_of_frame hframe) hg).trans hframe
  · exact (hw.content_eq slot (Store.lt_size_of_content hcontent)).trans hcontent

/-- The other definitions stay in force. -/
theorem World.Binds.adds {w w' : World} {name other : String} {v : Value} {params : Params}
    {body : Expr} {kind : DefinitionKind} (h : w.Binds other params body kind)
    (hw : w.Adds name v w') (hne : other ≠ name) : w'.Binds other params body kind := by
  cases h with
  | expander m has made => exact .expander m (has.adds hw hne) (made.adds hw)
  | function c has made => exact .function c (has.adds hw hne) (made.adds hw)

namespace Engine

variable {ctx : Context} {w w' : World} {name : String} {v : Value} {params : Params} {body : Expr}

/-- The definition of a function makes it, in a frame of its own, and then binds the name. -/
theorem made_of_function {n : Nat} (hroot : w.Inside rootScope)
    (h : (ofDepth ctx n).evalDefinition rootScope .function name params body w = .ok v w') :
    ∃ c w₁, w.Untouched w₁ ∧ c.Made w₁ name params body ∧
      w' = { w₁ with store := w₁.store.bind rootFrame name (.closure c) } := by
  cases n with
  | zero => cases h
  | succ n =>
    let g := w.store.frames.size
    let slot := w.store.slots.size
    let scope : Scope := [g, rootFrame]
    -- the frame with an empty slot, in which the function is made
    let s₁ := (w.store.newFrame.2.newSlots [name]).2
    let s₂ := s₁.bindSlots g [(name, slot)]
    let c : Closure := ⟨w.bodies.size, some name, params, s₂.captures ctx.settings.strategy scope
      (Expr.freeVariables params (some name) body), scope⟩
    let w₁ : World :=
      { w with store := s₂.fill slot (.closure c), bodies := w.bodies.push body }
    have hnone : ∀ f, (none : Option FrameId) = some f → f < w.store.frames.size :=
      fun f hf => absurd hf (by simp)
    have hg : g ≠ rootFrame := Nat.ne_of_gt (hroot.lt rootFrame (by simp [rootScope]))
    have hframe : w₁.store.frame g = [(name, slot)] := by
      show (s₁.bindSlot g name slot).frame g = _
      have hlt : g < s₁.frames.size := by
        show g < (w.store.newFrame.2.newSlots [name]).2.frames.size
        rw [Store.frames_newSlots, Store.frames_size_newFrame]
        exact Nat.lt_succ_self _
      rw [Store.frame_bindSlot_self hlt]
      have hempty : s₁.frame g = [] := by
        show (w.store.newFrame.2.newSlots [name]).2.frame g = []
        unfold Store.frame
        rw [Store.frames_newSlots]
        exact Store.frame_newFrame_size w.store
      rw [hempty]
      rfl
    have hcontent : w₁.store.content slot = some (.closure c) := by
      have hlt : slot < s₂.slots.size := by
        show slot < (s₁.bindSlots g [(name, slot)]).slots.size
        rw [Store.slots_bindSlots, Store.slots_size_newSlots]
        exact Nat.lt_succ_self _
      show (s₂.fill slot (.closure c)).content slot = _
      rw [Store.content_fill hlt, if_pos rfl]
    have hmade : c.Made w₁ name params body :=
      ⟨rfl, by simp [w₁, c], g, slot, rfl, hg, hframe, hcontent⟩
    have huntouched : w.Untouched w₁ := by
      refine ⟨?_, by simp [w₁], fun hid => by simp [w₁, Array.getElem?_push_lt hid, hid]⟩
      have hslots : Confined none w.store s₁ := (Store.confined_newFrame none w.store).newSlots [name]
      have hfresh : Store.Fresh w.store s₁ scope :=
        (Store.fresh_newFrame w.store [rootFrame]).newSlots [name]
      exact (hslots.bindSlots hnone hfresh [(name, slot)]).fill (Nat.le_refl slot) (.closure c)
    have hlookup : w₁.store.lookup scope name = .ok (.closure c) := by
      have hentered := hmade.entered (hroot.later huntouched.grows)
      exact (hentered.bound (name, .closure c) (by simp)).lookup
    refine ⟨c, w₁, huntouched, hmade, ?_⟩
    have hlet : (ofDepth ctx (n + 1)).evalLet rootScope .recursive
        [(name, .lambda (some name) params body)] (.var name) w = .ok (.closure c) w₁ :=
      (evalVar_of_lookup hlookup (by simp) : evalVar scope name w₁ = _)
    unfold evalDefinition at h
    simp only [Eval.bind_of_ok hlet] at h
    cases h
    rfl

/-- A definition of a name that the outermost frame does not bind yet adds a binding and is in force
afterwards. -/
theorem binds_of_definition {n : Nat} {kind : DefinitionKind} (hroot : w.Inside rootScope)
    (hnew : w.store.slotIn? rootFrame name = none)
    (h : (ofDepth ctx n).evalDefinition rootScope kind name params body w = .ok v w') :
    ∃ u, w.Adds name u w' ∧ w'.Binds name params body kind := by
  cases kind with
  | expander =>
    let m : Expander := ⟨w.bodies.size, name, params, rootScope⟩
    let w₁ : World := { w with bodies := w.bodies.push body }
    have huntouched : w.Untouched w₁ :=
      ⟨.refl none w.store, by simp [w₁], fun hid => by simp [w₁, Array.getElem?_push_lt hid, hid]⟩
    have hmade : m.Made w₁ params body := ⟨rfl, rfl, by simp [w₁, m]⟩
    have hadds := World.adds_bind (hroot.later huntouched.grows) (w := w₁) hnew (.expander m)
    cases h
    exact ⟨.expander m, hadds.since huntouched hroot, .expander m hadds.has (hmade.adds hadds)⟩
  | function =>
    obtain ⟨c, w₁, huntouched, hmade, rfl⟩ := made_of_function hroot h
    have hnew₁ : w₁.store.slotIn? rootFrame name = none := by
      unfold Store.slotIn? at hnew ⊢
      rw [huntouched.store.frame_eq rootFrame (hroot.lt rootFrame (by simp [rootScope])) (by simp)]
      exact hnew
    have hadds := World.adds_bind (hroot.later huntouched.grows) hnew₁ (.closure c)
    exact ⟨.closure c, hadds.since huntouched hroot, .function c hadds.has (hmade.adds hadds)⟩

end Engine

/-! ## §3. New sessions -/

/-- The outermost frame binds the primitive operations and the first definitions of the prelude to
their names, and nothing else. -/
structure World.Building (w : World) (ds : List (Value × DefinitionKind × String)) : Prop where
  primitives : ∀ p : Primitive, w.Has rootScope p.name (.primitive p)
  definitions : ∀ d ∈ ds, w.HasDefined d.2
  names : ∀ name, w.store.slotIn? rootFrame name ≠ none →
    name ∈ Primitive.all.map Primitive.name ++ ds.map fun d => d.2.2

/-- No two of these names are the same. -/
theorem Prelude.names_nodup :
    (Primitive.all.map Primitive.name ++ contents.map fun d => d.2.2).Nodup := by
  decide +kernel

namespace World.Building

variable {ctx : Context} {w w' : World} {v : Value}
variable {d : Value × DefinitionKind × String} {done ds : List (Value × DefinitionKind × String)}

/-- It begins with the primitive operations. -/
theorem start : Session.primitiveWorld.Building [] := by
  let bs : List (String × Value) := Primitive.all.map fun p => (p.name, .primitive p)
  have hkeys : bs.map Prod.fst = Primitive.all.map Primitive.name := by
    simp only [bs, List.map_map]
    rfl
  obtain ⟨-, hbound, hothers⟩ := Store.bindAll_new World.initial.store bs (f := rootFrame)
    (Nat.lt_succ_self _) (hkeys ▸ Primitive.name_nodup) fun name _ =>
      World.slotIn?_initial rootFrame name
  have hstore : Session.primitiveWorld.store = World.initial.store.bindAll rootFrame bs := by
    unfold Session.primitiveWorld
    with_reducible rfl
  refine ⟨fun p => ?_, fun d hd => absurd hd (by simp), fun name hname => ?_⟩
  · obtain ⟨slot, hslot, hv⟩ := hbound (p.name, .primitive p)
      (List.mem_map.2 ⟨p, Primitive.mem_all p, rfl⟩)
    unfold World.Has
    rw [hstore, slot?_rootScope]
    exact ⟨slot, hslot, hv⟩
  · rw [hstore] at hname
    by_contra hmem
    rw [List.map_nil, List.append_nil, ← hkeys] at hmem
    exact hname ((hothers name hmem).trans (World.slotIn?_initial rootFrame name))

theorem inside (h : w.Building done) : w.Inside rootScope :=
  (h.primitives .car).inside

/-- A name that is still to be defined is not bound, and is no other one's. -/
theorem fresh (hcontents : Prelude.contents = done ++ d :: ds) (h : w.Building done) :
    w.store.slotIn? rootFrame d.2.2 = none ∧ (∀ p : Primitive, p.name ≠ d.2.2) ∧
      ∀ d' ∈ done, d'.2.2 ≠ d.2.2 := by
  have hnodup := Prelude.names_nodup
  rw [hcontents, List.map_append, ← List.append_assoc] at hnodup
  have hnot : d.2.2 ∉ Primitive.all.map Primitive.name ++ done.map fun d => d.2.2 := by
    intro hmem
    exact (List.nodup_append.1 hnodup).2.2 _ hmem _ (by simp) rfl
  refine ⟨?_, fun p hp => hnot ?_, fun d' hd' heq => hnot ?_⟩
  · by_contra hslot
    exact hnot (h.names d.2.2 hslot)
  · exact List.mem_append_left _ (List.mem_map.2 ⟨p, Primitive.mem_all p, hp⟩)
  · exact List.mem_append_right _ (List.mem_map.2 ⟨d', hd', heq⟩)

/-- Tags may be handed out. -/
theorem tags (h : w.Building done) (n : Nat) : { w with nextTag := n }.Building done := by
  have huntouched := (w.silent_tags n).untouched
  refine ⟨fun p => (h.primitives p).later h.inside huntouched.store, fun d hd => ?_, h.names⟩
  obtain ⟨params, body, hdefines, hbinds⟩ := h.definitions d hd
  exact ⟨params, body, hdefines, hbinds.later huntouched⟩

/-- One definition more. -/
theorem next {n : Nat} (hcontents : Prelude.contents = done ++ d :: ds) (h : w.Building done)
    {tag : Nat} (heval : (Engine.ofDepth ctx n).evalForm rootScope (d.1.tag tag).1 w = .ok v w') :
    w'.Building (done ++ [d]) := by
  have hd : d ∈ Prelude.contents := hcontents ▸ List.mem_append_right done List.mem_cons_self
  obtain ⟨params, body, hbuild⟩ := Prelude.build_contents d hd tag
  obtain ⟨hnew, hprimitive, hdone⟩ := h.fresh hcontents
  unfold Engine.evalForm at heval
  rw [hbuild] at heval
  cases n with
  | zero => cases heval
  | succ n =>
    obtain ⟨u, hadds, hbinds⟩ := Engine.binds_of_definition h.inside hnew heval
    refine ⟨fun p => (h.primitives p).adds hadds (hprimitive p), fun d' hd' => ?_,
      fun name hname => ?_⟩
    · rcases List.mem_append.1 hd' with hd' | hd'
      · obtain ⟨params', body', hdefines', hbinds'⟩ := h.definitions d' hd'
        exact ⟨params', body', hdefines', hbinds'.adds hadds (hdone d' hd')⟩
      · rw [List.mem_singleton.1 hd']
        exact ⟨params, body, ⟨Prelude.forms, d.1, tag, Prelude.readData_prelude,
          List.mem_map.2 ⟨d, hd, rfl⟩, hbuild⟩, hbinds⟩
    · rw [List.map_append, ← List.append_assoc]
      by_cases heq : name = d.2.2
      · exact List.mem_append_right _ (by simp [heq])
      · rw [hadds.others name heq] at hname
        exact List.mem_append_left _ (h.names name hname)

/-- All the definitions. -/
theorem run {n : Nat} {last : Value} (hcontents : Prelude.contents = done ++ ds)
    (h : w.Building done)
    (heval : (Engine.ofDepth ctx n).evalForms rootScope last (ds.map Prod.fst) w = .ok v w') :
    w'.Building Prelude.contents := by
  induction ds generalizing done last w with
  | nil =>
    cases heval
    rwa [hcontents, List.append_nil]
  | cons d ds ih =>
    obtain ⟨form, w₁, htag, heval⟩ := Eval.ok_of_bind heval
    cases htag
    obtain ⟨u, w₂, hfirst, hrest⟩ := Eval.ok_of_bind heval
    have hnext := (h.tags (d.1.tag w.nextTag).2).next hcontents hfirst
    exact ih (by rw [hcontents, List.append_assoc]; rfl) hnext hrest

end World.Building

/-- Keywords are not among the names. -/
theorem Prelude.keyword_not_mem (k : Keyword) :
    k.name ∉ Primitive.all.map Primitive.name ++ contents.map fun d => d.2.2 := by
  have hall : ∀ k ∈ Keyword.all, k.name ∉ Primitive.all.map Primitive.name ++
      contents.map fun d => d.2.2 := by decide +kernel
  exact hall k (Keyword.mem_all k)

namespace Session

variable {depth : Nat} {ctx : Context} {s : Session}

theorem building_of_startWithin (h : startWithin depth ctx = .ok s) :
    s.world.Building Prelude.contents := by
  unfold startWithin at h
  rw [evalText_of_read Prelude.readData_prelude] at h
  obtain ⟨v, hv⟩ := begun_value h
  obtain ⟨w, heval, rfl⟩ := run_eq_ok_iff.1 hv
  have hcontents : Prelude.contents = [] ++ Prelude.contents := rfl
  exact World.Building.start.run hcontents heval

/-- In a new session the prelude is installed. -/
theorem installed_of_startWithin (h : startWithin depth ctx = .ok s) : s.world.Installed :=
  ⟨(building_of_startWithin h).primitives, (building_of_startWithin h).definitions⟩

/-- And no keyword names an expander. -/
theorem unmasked_of_startWithin (h : startWithin depth ctx = .ok s) (k : Keyword) :
    s.world.Unmasked rootScope k.name := by
  intro slot hslot
  rw [World.slot?_rootScope] at hslot
  exact absurd ((building_of_startWithin h).names k.name (by simp [hslot]))
    (Prelude.keyword_not_mem k)

/-- Whether the prelude evaluates and leads to a session with some property. -/
def beginsAt (ctx : Context) (p : Session → Bool) : Bool :=
  match evalData ⟨ctx, standardDepth, primitiveWorld⟩ Prelude.forms with
  | (.ok _, s) => p s
  | (.error _, _) => false

theorem exists_start_at (ctx : Context) {p : Session → Bool} (h : beginsAt ctx p = true) :
    ∃ s, start ctx = .ok s ∧ p s = true := by
  unfold beginsAt at h
  unfold start startWithin
  rw [evalText_of_read Prelude.readData_prelude]
  split at h
  · next heval => exact ⟨_, by rw [heval]; rfl, h⟩
  · cases h

end Session

end TinyLisp
