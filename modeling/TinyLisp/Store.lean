import TinyLisp.Error
import TinyLisp.Table
import TinyLisp.Names
import TinyLisp.Dotted

/-!
# Frames and slots

A frame binds names to slots, and a slot holds at most one value: an empty slot belongs to a
name whose value is still to come. Two frames may share a slot, so that a value assigned
through one is seen through the other. A scope is a list of frames, the innermost first; names
are looked up from the inside out.

Frames and slots are numbered in the order in which they are made and are never given up.
-/

namespace TinyLisp

/-- The bindings of one frame. -/
abbrev Frame := Table String SlotId

/-- All frames and all slots. -/
structure Store where
  frames : Array Frame
  slots : Array (Option Value)

namespace Store

/-- A store without frames and slots. -/
def empty : Store := ⟨#[], #[]⟩

/-! ## §1. Frames -/

/-- The bindings of a frame. -/
def frame (s : Store) (f : FrameId) : Frame :=
  s.frames.getD f []

/-- A new frame without bindings. -/
def newFrame (s : Store) : FrameId × Store :=
  (s.frames.size, { s with frames := s.frames.push [] })

/-- The slot that a frame itself binds a name to. -/
def slotIn? (s : Store) (f : FrameId) (name : String) : Option SlotId :=
  (s.frame f).get? name

/-- Whether a frame itself binds a name. -/
def binds (s : Store) (f : FrameId) (name : String) : Bool :=
  (s.slotIn? f name).isSome

/-- Makes a frame bind a name to a slot, in place of any slot it had. -/
def bindSlot (s : Store) (f : FrameId) (name : String) (slot : SlotId) : Store :=
  { s with frames := s.frames.modify f (Table.set name slot) }

/-- The names that a frame itself binds, ascending. -/
def names (s : Store) (f : FrameId) : List String :=
  Names.ofList (s.frame f).keys

/-! ## §2. Slots -/

/-- The value in a slot. -/
def content (s : Store) (slot : SlotId) : Option Value :=
  (s.slots[slot]?).getD none

/-- A new slot. -/
def newSlot (s : Store) (content : Option Value) : SlotId × Store :=
  (s.slots.size, { s with slots := s.slots.push content })

/-- Puts a value into a slot. -/
def fill (s : Store) (slot : SlotId) (v : Value) : Store :=
  { s with slots := s.slots.setIfInBounds slot (some v) }

/-- Gives a name a value in a frame: in the slot it has there, or else in a new one. -/
def bind (s : Store) (f : FrameId) (name : String) (v : Value) : Store :=
  match s.slotIn? f name with
  | some slot => s.fill slot v
  | none =>
    let (slot, s) := s.newSlot (some v)
    s.bindSlot f name slot

/-- Gives names their values, from left to right. -/
def bindAll (s : Store) (f : FrameId) : List (String × Value) → Store
  | [] => s
  | (name, v) :: bs => (s.bind f name v).bindAll f bs

/-- Gives names their slots, from left to right. -/
def bindSlots (s : Store) (f : FrameId) : List (String × SlotId) → Store
  | [] => s
  | (name, slot) :: bs => (s.bindSlot f name slot).bindSlots f bs

/-- As many new empty slots as there are names. -/
def newSlots (s : Store) : List String → List SlotId × Store
  | [] => ([], s)
  | _ :: names =>
    let (slot, s) := s.newSlot none
    let (slots, s) := s.newSlots names
    (slot :: slots, s)

/-- Gives names their values, if there are as many of one as of the other. -/
def bindExactly (s : Store) (f : FrameId) (names : List String) (vs : List Value) :
    Except ArityError Store :=
  ((Arity.exactly names.length).check vs.length "bind-list").map fun _ =>
    s.bindAll f (names.zip vs)

/-- Gives names their slots, if there are as many of one as of the other. -/
def bindSlotsExactly (s : Store) (f : FrameId) (names : List String) (slots : List SlotId) :
    Except ArityError Store :=
  ((Arity.exactly names.length).check slots.length "bind-local-list").map fun _ =>
    s.bindSlots f (names.zip slots)

/-! ## §3. Scopes -/

/-- The slot that a name has in the innermost frame that binds it. -/
def slot? (s : Store) (scope : Scope) (name : String) : Option SlotId :=
  scope.findSome? fun f => s.slotIn? f name

/-- The value of a slot, as it is read. -/
def read (s : Store) (slot : SlotId) : Value :=
  (s.content slot).getD .unspecified

/-- The names that some frame of a scope binds, ascending. -/
def namesInScope (s : Store) (scope : Scope) : List String :=
  Names.ofList (scope.flatMap fun f => (s.frame f).keys)

/-- Looks a name up, through at most `n` modules. A name that some frame binds as it stands
means that binding. Otherwise a dotted name means what its module, found the same way, shows
under the rest of the name: the first segment of the rest must be exported, and the rest is
looked up in the module's own scope. -/
def lookupUpTo (s : Store) : Nat → Scope → String → Except EvalError Value
  | 0, scope, name =>
    match s.slot? scope name with
    | some slot => .ok (s.read slot)
    | none => .error (.unbound name)
  | n + 1, scope, name =>
    match s.slot? scope name with
    | some slot => .ok (s.read slot)
    | none =>
      match splitMember? name with
      | none => .error (.unbound name)
      | some (first, rest) =>
        match s.slot? scope first with
        | none => .error (.unbound name)
        | some slot =>
          match s.read slot with
          | .module m =>
            if m.exports.contains (firstSegment rest) then s.lookupUpTo n m.scope rest
            else .error (.unbound name)
          | _ => .error (.notAModule first)

/-- Looks a name up. Each module on the way takes at least two characters off the name. -/
def lookup (s : Store) (scope : Scope) (name : String) : Except EvalError Value :=
  s.lookupUpTo name.length scope name

/-- The expander that a name stands for in a scope, if it stands for one. -/
def expander? (s : Store) (scope : Scope) (name : String) : Option Expander :=
  match s.lookup scope name with
  | .ok (.expander m) => some m
  | _ => none

/-- How many frames enclose the innermost frame of a scope. -/
def level (scope : Scope) : Nat := scope.length - 1

/-- A scope in short: its level and the names of its innermost frame. -/
def showScope (s : Store) (scope : Scope) : String :=
  "#<env level " ++ Nat.repr (level scope) ++ ": " ++
    " ".intercalate ((scope.head?.map s.names).getD []) ++ ">"

/-- A scope in full: its level and the quoted names of its innermost frame. -/
def describeScope (s : Store) (scope : Scope) : String :=
  "Environment\x7blevel: " ++ Nat.repr (level scope) ++ ", names: " ++
    Text.quotedList ((scope.head?.map s.names).getD []) ++ "\x7d"

/-! ## §4. Laws -/

@[simp] theorem frame_newFrame (s : Store) (f : FrameId) : s.newFrame.2.frame f = s.frame f := by
  simp only [newFrame, frame, Array.getD_eq_getD_getElem?, Array.getElem?_push]
  split
  · next h => subst h; simp
  · rfl

@[simp] theorem content_newFrame (s : Store) (slot : SlotId) :
    s.newFrame.2.content slot = s.content slot := rfl

theorem slotIn?_bindSlot {s : Store} {f g : FrameId} {name other : String} {slot : SlotId}
    (hf : f < s.frames.size) :
    (s.bindSlot f name slot).slotIn? g other =
      if g = f ∧ other = name then some slot else s.slotIn? g other := by
  simp only [slotIn?, frame, bindSlot, Array.getD_eq_getD_getElem?, Array.getElem?_modify]
  by_cases hg : f = g
  · subst hg
    by_cases ho : other = name
    · subst ho; simp [hf]
    · simp [hf, ho]
  · have hg' : ¬ g = f := fun h => hg h.symm
    simp [hg, hg']

@[simp] theorem content_bindSlot (s : Store) (f : FrameId) (name : String) (slot t : SlotId) :
    (s.bindSlot f name slot).content t = s.content t := rfl

@[simp] theorem slotIn?_fill (s : Store) (slot : SlotId) (v : Value) (f : FrameId)
    (name : String) : (s.fill slot v).slotIn? f name = s.slotIn? f name := rfl

theorem content_fill {s : Store} {slot t : SlotId} {v : Value} (h : slot < s.slots.size) :
    (s.fill slot v).content t = if t = slot then some v else s.content t := by
  simp only [content, fill, Array.getElem?_setIfInBounds]
  by_cases ht : slot = t
  · subst ht; simp [h]
  · have ht' : ¬ t = slot := fun e => ht e.symm
    simp [ht, ht']

end Store

end TinyLisp
