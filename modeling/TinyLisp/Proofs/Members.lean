import TinyLisp.Proofs.Ownership.Kept

/-!
# Members of modules

A dotted name that no frame of a scope binds as it stands reaches into a module. Segment by segment
it should lead from the module that its first segment names through what each module shows:
`Store.Shows` says so, with the slots that the modules' own frames bind.

Looking such a name up goes on in the module's scope with the rest of the name, and there a frame
may again bind a rest with a dot as it stands. Where none does (`Store.Unshadowed`), the name means
what the modules show (`World.lookup_member`). Where one does, that binding is found, be it of a
name that the module does not show or of a scope around it (`World.lookup_past_exports`).
-/

namespace TinyLisp

/-! ## §1. Segments -/

/-- The segments of a dotted name. What cannot be split has one. -/
def segments (name : String) : List String :=
  match _h : splitMember? name with
  | none => [name]
  | some (first, rest) => first :: segments rest
termination_by name.length
decreasing_by exact length_lt_of_splitMember? _h

theorem segments_of_none {name : String} (h : splitMember? name = none) :
    segments name = [name] := by
  unfold segments
  split
  · rfl
  · next heq => exact absurd (h.symm.trans heq) (by simp)

theorem segments_of_some {name first rest : String} (h : splitMember? name = some (first, rest)) :
    segments name = first :: segments rest := by
  rw [segments]
  split
  · next heq => exact absurd (h.symm.trans heq) (by simp)
  · next heq =>
    rw [h] at heq
    cases heq
    rfl

theorem segments_ne_nil (name : String) : segments name ≠ [] := by
  cases h : splitMember? name with
  | none => simp [segments_of_none h]
  | some p => simp [segments_of_some h]

/-- A name without a dot is its own first segment and cannot be split. -/
theorem splitMember?_of_plain {name : String} (h : firstSegment name = name) :
    splitMember? name = none := by
  cases hsplit : splitMember? name with
  | none => rfl
  | some p =>
    obtain ⟨first, rest⟩ := p
    have hchars : headChars name = name.toList := by
      rw [← String.toList_ofList (l := headChars name)]
      exact congrArg String.toList h
    have hall := List.takeWhile_append_dropWhile (p := (· ≠ '.')) (l := name.toList)
    -- nothing stands after the part before the first dot
    have htail : tailChars name = [] := by
      unfold headChars at hchars
      unfold tailChars
      rw [hchars] at hall
      simpa using hall
    unfold splitMember? at hsplit
    rw [htail] at hsplit
    exact absurd hsplit (by simp)

namespace Store

variable {s : Store} {scope : Scope} {name first rest : String} {m : Module} {v : Value}

/-! ## §2. Looking up -/

/-- As many steps as a name has characters are enough. -/
theorem lookupUpTo_eq {n k : Nat} (hn : name.length ≤ n) (hk : name.length ≤ k) :
    s.lookupUpTo n scope name = s.lookupUpTo k scope name := by
  -- on the steps; with none left the name is empty and has no dot to go on from
  have hempty : ∀ {name : String}, name.length ≤ 0 → splitMember? name = none := by
    intro name hname
    cases hsplit : splitMember? name with
    | none => rfl
    | some p => exact absurd (length_lt_of_splitMember? hsplit) (by omega)
  induction n generalizing k scope name with
  | zero =>
    cases k with
    | zero => rfl
    | succ k =>
      simp only [lookupUpTo, hempty hn]
  | succ n ih =>
    cases k with
    | zero => simp only [lookupUpTo, hempty hk]
    | succ k =>
      have hrest : ∀ {m : Module} {first rest : String},
          splitMember? name = some (first, rest) →
            s.lookupUpTo n m.scope rest = s.lookupUpTo k m.scope rest := by
        intro m first rest hsplit
        have hlt := length_lt_of_splitMember? hsplit
        exact ih (by omega) (by omega)
      unfold lookupUpTo
      split
      · rfl
      · split
        · rfl
        · next hsplit =>
          split
          · rfl
          · split
            · rw [hrest hsplit]
            · rfl

/-- A name that is not bound as it stands goes on in the module that its first segment names. -/
theorem lookup_of_split (h : s.slot? scope name = none)
    (hsplit : splitMember? name = some (first, rest)) :
    s.lookup scope name =
      match s.slot? scope first with
      | none => .error (.unbound name)
      | some slot =>
        match s.read slot with
        | .module m =>
          if m.exports.contains (firstSegment rest) then s.lookup m.scope rest
          else .error (.unbound name)
        | _ => .error (.notAModule first) := by
  have hlt := length_lt_of_splitMember? hsplit
  have hrest : ∀ {m : Module}, s.lookupUpTo (name.length - 1) m.scope rest =
      s.lookup m.scope rest := lookupUpTo_eq (by omega) (Nat.le_refl _)
  obtain ⟨n, hn⟩ : ∃ n, name.length = n + 1 := ⟨name.length - 1, by omega⟩
  rw [hn, Nat.add_sub_cancel] at hrest
  unfold lookup at hrest ⊢
  rw [hn, lookupUpTo, h, hsplit]
  dsimp only
  cases s.slot? scope first with
  | none => rfl
  | some slot =>
    dsimp only
    cases s.read slot with
    | module m =>
      dsimp only
      rw [hrest]
    | _ => rfl

/-! ## §3. What modules show -/

/-- From a module some names lead to a slot. Each module on the way shows the next name and binds it
in its own frame; the slot holds the next module, and the last slot is what the names lead to. -/
inductive Shows (s : Store) : Module → List String → SlotId → Prop
  | last {m : Module} {name : String} {f : FrameId} {slot : SlotId}
    (hplain : firstSegment name = name) (hexport : name ∈ m.exports)
    (hframe : m.scope.head? = some f) (hslot : s.slotIn? f name = some slot) :
    Shows s m [name] slot
  | step {m m' : Module} {name : String} {names : List String} {f : FrameId} {slot last : SlotId}
    (hexport : name ∈ m.exports) (hframe : m.scope.head? = some f)
    (hslot : s.slotIn? f name = some slot) (hmodule : s.content slot = some (.module m'))
    (h : Shows s m' names last) : Shows s m (name :: names) last

/-- Looking a name up in a scope, where no frame binds it as it stands, goes on in the module that
the first segment names, if that exports the next one. -/
structure Enters (s : Store) (scope : Scope) (name : String) (m : Module) (rest : String) :
    Prop where
  literal : s.slot? scope name = none
  split : ∃ first slot, splitMember? name = some (first, rest) ∧ s.slot? scope first = some slot ∧
    s.content slot = some (.module m)
  exported : firstSegment rest ∈ m.exports

/-- Looking a name up goes on in a module with the rest of the name, at once or after other
modules. -/
inductive Continues (s : Store) : Scope → String → Module → String → Prop
  | here {scope : Scope} {name rest : String} {m : Module} (h : s.Enters scope name m rest) :
    Continues s scope name m rest
  | onward {scope : Scope} {name rest rest' : String} {m m' : Module}
    (h : s.Enters scope name m rest) (h' : Continues s m.scope rest m' rest') :
    Continues s scope name m' rest'

/-- Wherever looking a name up goes on with a rest that has a dot, no frame binds that rest as it
stands. -/
def Unshadowed (s : Store) (scope : Scope) (name : String) : Prop :=
  ∀ m rest, s.Continues scope name m rest → firstSegment rest ≠ rest →
    s.slot? m.scope rest = none

/-- Of every module in a slot, the frame gives a value to each name that it shows. -/
def Provides (s : Store) : Prop :=
  ∀ slot m, s.content slot = some (.module m) →
    ∀ name ∈ m.exports, ∃ f, m.scope.head? = some f ∧ s.Assigns f name

/-- How a walk begins: the first name is exported and bound in the module's own frame, and either it
is the last name, or its slot holds the module from which the walk goes on. -/
theorem shows_cons_iff {names : List String} {last : SlotId} :
    s.Shows m (name :: names) last ↔ name ∈ m.exports ∧ ∃ f slot, m.scope.head? = some f ∧
      s.slotIn? f name = some slot ∧ (names = [] ∧ firstSegment name = name ∧ slot = last ∨
        ∃ m', s.content slot = some (.module m') ∧ s.Shows m' names last) := by
  constructor
  · intro h
    -- the walk is told apart by its constructor, the names by their equation
    generalize hall : name :: names = all at h
    cases h with
    | last hplain hexport hframe hslot =>
      cases hall
      exact ⟨hexport, _, _, hframe, hslot, .inl ⟨rfl, hplain, rfl⟩⟩
    | step hexport hframe hslot hmodule h =>
      cases hall
      exact ⟨hexport, _, _, hframe, hslot, .inr ⟨_, hmodule, h⟩⟩
  · rintro ⟨hexport, f, slot, hframe, hslot, ⟨rfl, hplain, rfl⟩ | ⟨m', hmodule, h⟩⟩
    · exact .last hplain hexport hframe hslot
    · exact .step hexport hframe hslot hmodule h

/-- Where a walk leads, computed. -/
def shown? (s : Store) : Module → List String → Option SlotId
  | _, [] => none
  | m, name :: names =>
    if name ∈ m.exports then
      match m.scope.head?.bind fun f => s.slotIn? f name with
      | none => none
      | some slot =>
        if names = [] then if firstSegment name = name then some slot else none
        else
          match s.content slot with
          | some (.module m') => s.shown? m' names
          | _ => none
    else none

theorem not_shows_nil {last : SlotId} : ¬ s.Shows m [] last := by
  intro h
  cases h

theorem shows_iff_shown? {names : List String} {last : SlotId} :
    s.Shows m names last ↔ s.shown? m names = some last := by
  induction names generalizing m with
  | nil => simp [not_shows_nil, shown?]
  | cons name names ih =>
    rw [shows_cons_iff]
    simp only [shown?, ih]
    by_cases hexport : name ∈ m.exports
    · cases hf : m.scope.head? with
      | none => simp [hexport]
      | some f =>
        cases hslot : s.slotIn? f name with
        | none => simp [hexport, hslot]
        | some slot =>
          by_cases hnil : names = []
          · subst hnil
            by_cases hplain : firstSegment name = name <;> simp [hexport, hslot, hplain, shown?]
          · cases hv : s.content slot with
            | none => simp [hexport, hslot, hnil, hv]
            | some u => cases u <;> simp [hexport, hslot, hnil, hv]
    · simp [hexport]

/-- A module that shows a rest of a name exports the first segment of it. -/
theorem Shows.firstSegment_mem {last : SlotId} (h : s.Shows m (segments rest) last) :
    firstSegment rest ∈ m.exports := by
  cases hsplit : splitMember? rest with
  | none =>
    rw [segments_of_none hsplit, shows_cons_iff] at h
    obtain ⟨hexport, f, slot, -, -, ⟨-, hplain, -⟩ | ⟨m', -, h⟩⟩ := h
    · rw [hplain]
      exact hexport
    · exact absurd h not_shows_nil
  | some p =>
    obtain ⟨a, b⟩ := p
    rw [segments_of_some hsplit, shows_cons_iff] at h
    rw [firstSegment_of_some hsplit]
    exact h.1

/-- Where looking a name up goes on from a scope, it does so from where it came. -/
theorem Unshadowed.onward (h : s.Unshadowed scope name)
    (hc : s.Enters scope name m rest) : s.Unshadowed m.scope rest :=
  fun m' rest' h' => h m' rest' (.onward hc h')

/-- The module that looking a name up goes on in, with the rest of the name, computed. -/
def entered? (s : Store) (scope : Scope) (name : String) : Option (Module × String) :=
  match s.slot? scope name, splitMember? name with
  | none, some (first, rest) =>
    match (s.slot? scope first).bind s.content with
    | some (.module m) => if firstSegment rest ∈ m.exports then some (m, rest) else none
    | _ => none
  | _, _ => none

theorem entered?_of_enters (h : s.Enters scope name m rest) :
    s.entered? scope name = some (m, rest) := by
  obtain ⟨hliteral, ⟨first, slot, hsplit, hslot, hm⟩, hexport⟩ := h
  simp [entered?, hliteral, hsplit, hslot, hm, hexport]

/-- Whether a name is unshadowed, as far as `n` modules tell. -/
def unshadowed? (s : Store) : Nat → Scope → String → Bool
  | 0, scope, name => (s.entered? scope name).isNone
  | n + 1, scope, name =>
    match s.entered? scope name with
    | none => true
    | some (m, rest) =>
      (firstSegment rest = rest || (s.slot? m.scope rest).isNone) && s.unshadowed? n m.scope rest

theorem unshadowed_of_check {n : Nat} (h : s.unshadowed? n scope name = true) :
    s.Unshadowed scope name := by
  intro m rest hc hdot
  -- along the modules that the lookup goes on in, with one check for each
  induction hc generalizing n with
  | here henters =>
    have hnext := entered?_of_enters henters
    -- the check ran out, and yet there is a module to go on in
    cases n with
    | zero => simp [unshadowed?, hnext] at h
    | succ n =>
      simp only [unshadowed?, hnext, Bool.and_eq_true, Bool.or_eq_true, decide_eq_true_eq] at h
      exact Option.isNone_iff_eq_none.1 (h.1.resolve_left hdot)
  | onward henters _ ih =>
    have hnext := entered?_of_enters henters
    cases n with
    | zero => simp [unshadowed?, hnext] at h
    | succ n =>
      simp only [unshadowed?, hnext, Bool.and_eq_true] at h
      exact ih h.2 hdot

/-- What a module shows under a name that it exports, and what looking the name up in its scope
gives, are the same. The induction is on the length of the name: one that has a dot goes on in the
next module. -/
theorem lookup_exported (hs : s.Provides) {slot : SlotId} (hm : s.content slot = some (.module m))
    (hexport : firstSegment rest ∈ m.exports)
    (hplain : firstSegment rest ≠ rest → s.slot? m.scope rest = none)
    (hfree : s.Unshadowed m.scope rest) :
    s.lookup m.scope rest = .ok v ↔
      ∃ last, s.Shows m (segments rest) last ∧ s.content last = some v := by
  induction hlen : rest.length using Nat.strongRecOn generalizing m rest slot with
  | ind len ih =>
    subst hlen
    obtain ⟨f, hf, member, hmember, hfilled⟩ := hs slot m hm _ hexport
    obtain ⟨u, hu⟩ := Option.isSome_iff_exists.1 hfilled
    have hslot := slot?_of_slotIn? hf hmember
    -- the module has one frame, and that binds the exported name to one slot
    have hwalk : ∀ {names last}, s.Shows m (firstSegment rest :: names) last ↔
        names = [] ∧ firstSegment (firstSegment rest) = firstSegment rest ∧ member = last ∨
          ∃ m', u = .module m' ∧ s.Shows m' names last := by
      intro names last
      simp only [shows_cons_iff, hexport, hf, Option.some.injEq, true_and]
      constructor
      · rintro ⟨_, slot', rfl, hslot', h⟩
        obtain rfl := Option.some.inj (hmember.symm.trans hslot')
        simpa [hu] using h
      · intro h
        exact ⟨f, member, rfl, hmember, by simpa [hu] using h⟩
    by_cases hdot : firstSegment rest = rest
    · -- a name without a dot is bound in the module's own frame
      have hsplit := splitMember?_of_plain hdot
      rw [hdot] at hslot hwalk
      rw [lookup_of_slot? hslot, segments_of_none hsplit, read_eq_of_content hu]
      simp only [hwalk, not_shows_nil, and_false, exists_false, or_false, true_and, hdot]
      constructor
      · intro h
        cases h
        exact ⟨member, rfl, hu⟩
      · rintro ⟨_, rfl, hv⟩
        rw [Option.some.inj (hu.symm.trans hv)]
    · have hliteral := hplain hdot
      cases hsplit : splitMember? rest with
      | none =>
        rw [lookup_of_unsplit hliteral hsplit, segments_of_none hsplit]
        constructor
        · intro h
          exact absurd h (by simp)
        · rintro ⟨last, hlast, -⟩
          rw [shows_cons_iff] at hlast
          obtain ⟨-, -, -, -, -, ⟨-, hplain', -⟩ | ⟨m', -, h⟩⟩ := hlast
          · exact absurd hplain' hdot
          · exact absurd h not_shows_nil
      | some p =>
        obtain ⟨a, b⟩ := p
        have ha : firstSegment rest = a := firstSegment_of_some hsplit
        rw [ha] at hslot hwalk
        rw [lookup_of_split hliteral hsplit, hslot, segments_of_some hsplit]
        dsimp only
        rw [read_eq_of_content hu]
        simp only [hwalk, segments_ne_nil, false_and, false_or]
        cases u with
        | module m' =>
          simp only [Value.module.injEq, exists_eq_left']
          -- the rest of the name goes on in the next module, if that shows its first segment
          by_cases hb : firstSegment b ∈ m'.exports
          · have henters : s.Enters m.scope rest m' b :=
              ⟨hliteral, ⟨a, member, hsplit, hslot, hu⟩, hb⟩
            rw [if_pos (by simpa using hb)]
            exact ih b.length (length_lt_of_splitMember? hsplit) hu hb
              (hfree m' b (.here henters)) (hfree.onward henters) rfl
          · rw [if_neg (by simpa using hb)]
            constructor
            · intro h
              exact absurd h (by simp)
            · rintro ⟨last, h, -⟩
              exact absurd h.firstSegment_mem hb
        | _ => simp

end Store

/-! ## §4. Worlds of sessions -/

namespace World

variable {ctx : Context} {w : World} {scope : Scope} {name : String} {v : Value}

/-- In the worlds of sessions the frame of a module gives a value to each name that it shows. -/
theorem Arises.provides (h : w.Arises ctx) : w.store.Provides := by
  obtain ⟨K, rfl, hsound⟩ := h.sound
  intro slot m hm name hname
  obtain ⟨f, hf, -, hassigns⟩ := (hsound.content hm).self
  exact ⟨f, hf, hassigns name hname⟩

/-- Modules are encapsulated. In every world of a session and in every scope, a dotted name that no
frame of the scope binds as it stands means what is reached segment by segment: the first segment
is bound to a module; each further one is exported by the module reached so far and bound in that
module's own frame, to a slot that holds the next module; and the name means what the last slot
holds. This is so where no module on the way has, in its scope, the rest of the name as a name with
a dot. -/
theorem lookup_member (h : w.Arises ctx) (hliteral : w.store.slot? scope name = none)
    (hfree : w.store.Unshadowed scope name) :
    w.store.lookup scope name = .ok v ↔
      ∃ first rest slot m last, splitMember? name = some (first, rest) ∧
        w.store.slot? scope first = some slot ∧ w.store.content slot = some (.module m) ∧
        w.store.Shows m (segments rest) last ∧ w.store.content last = some v := by
  cases hsplit : splitMember? name with
  | none => simp [Store.lookup_of_unsplit hliteral hsplit]
  | some p =>
    obtain ⟨first, rest⟩ := p
    rw [Store.lookup_of_split hliteral hsplit]
    -- the module of the first segment, with what it takes for the lookup to go on in it
    have hinto : ∀ {slot m}, w.store.slot? scope first = some slot →
        w.store.content slot = some (.module m) → firstSegment rest ∈ m.exports →
        (w.store.lookup m.scope rest = .ok v ↔
          ∃ last, w.store.Shows m (segments rest) last ∧ w.store.content last = some v) := by
      intro slot m hslot hm hexport
      have henters : w.store.Enters scope name m rest :=
        ⟨hliteral, ⟨first, slot, hsplit, hslot, hm⟩, hexport⟩
      exact Store.lookup_exported h.provides hm hexport (hfree m rest (.here henters))
        (hfree.onward henters)
    constructor
    · intro hv
      split at hv
      · exact absurd hv (by simp)
      · next slot hslot =>
        split at hv
        · next m hread =>
          have hm := Store.content_of_read hread (by simp)
          split at hv
          · next hexport =>
            obtain ⟨last, hshows, hlast⟩ := (hinto hslot hm (by simpa using hexport)).1 hv
            exact ⟨first, rest, slot, m, last, rfl, hslot, hm, hshows, hlast⟩
          · exact absurd hv (by simp)
        · exact absurd hv (by simp)
    · rintro ⟨_, _, slot, m, last, ⟨rfl, rfl⟩, hslot, hm, hshows, hlast⟩
      have hexport := hshows.firstSegment_mem
      rw [hslot]
      dsimp only
      rw [Store.read_eq_of_content hm]
      dsimp only
      rw [if_pos (by simpa using hexport)]
      exact (hinto hslot hm hexport).2 ⟨last, hshows, hlast⟩

/-- The integer that a result is, if it is one. -/
def integer? : Except EvalError Value → Option Int64
  | .ok (.int i) => some i
  | _ => none

theorem eq_of_integer? {r : Except EvalError Value} {i : Int64} (h : integer? r = some i) :
    r = .ok (.int i) := by
  unfold integer? at h
  split at h
  · rw [Option.some.inj h]
  · exact absurd h (by simp)

theorem segments_pair : segments "b.c" = ["b", "c"] := by
  have hsplit : splitMember? "b.c" = some ("b", "c") := by rfl
  have hrest : splitMember? "c" = none := by rfl
  rw [segments_of_some hsplit, segments_of_none hrest]

set_option maxRecDepth 100000 in
/-- A module inside a module, and a name of three segments. -/
theorem lookup_member_nested :
    let ctx : Context := ⟨.default, ⟨[], []⟩⟩
    let s : Session := (Session.evalText ⟨ctx, 4, Session.primitiveWorld⟩
      "(module a (export b) (module b (export c) (define c 1)))").2
    let w := s.world
    w.Arises ctx ∧ w.store.slot? rootScope "a.b.c" = none ∧
      w.store.Unshadowed rootScope "a.b.c" ∧ w.store.lookup rootScope "a.b.c" = .ok (.int 1) ∧
      ∃ first rest slot m last, splitMember? "a.b.c" = some (first, rest) ∧
        w.store.slot? rootScope first = some slot ∧ w.store.content slot = some (.module m) ∧
        w.store.Shows m (segments rest) last ∧ w.store.content last = some (.int 1) := by
  intro ctx s w
  have harises : w.Arises ctx := .top ((Session.Arises.bare 4).evalText _)
  have hliteral : w.store.slot? rootScope "a.b.c" = none := by decide +kernel
  have hfree : w.store.Unshadowed rootScope "a.b.c" :=
    Store.unshadowed_of_check (n := 2) (by decide +kernel)
  have hlookup : w.store.lookup rootScope "a.b.c" = .ok (.int 1) :=
    eq_of_integer? (by decide +kernel)
  exact ⟨harises, hliteral, hfree, hlookup, (lookup_member harises hliteral hfree).1 hlookup⟩

/-- What a name of three segments leads to through what modules show, if that is an integer. -/
def shownInteger? (w : World) (scope : Scope) (first : String) (names : List String) :
    Option Int64 :=
  match (w.store.slot? scope first).bind w.store.content with
  | some (.module m) =>
    ((w.store.shown? m names).bind w.store.content).bind fun v => integer? (.ok v)
  | _ => none

set_option maxRecDepth 100000 in
/-- A name with a dot, bound around a module, is found through that module: the member `c` of the
member `b` of `a` is 1, and `a.b.c` is 5. -/
theorem lookup_past_exports :
    let ctx : Context := ⟨.default, ⟨[], []⟩⟩
    let s : Session := ((Session.evalText ⟨ctx, 4, Session.primitiveWorld⟩
      "(module a (export b) (module b (export c) (define c 1)))").2.evalText "(define b.c 5)").2
    let w := s.world
    w.Arises ctx ∧ w.store.slot? rootScope "a.b.c" = none ∧
      w.store.lookup rootScope "a.b.c" = .ok (.int 5) ∧
      ¬ ∃ first rest slot m last, splitMember? "a.b.c" = some (first, rest) ∧
        w.store.slot? rootScope first = some slot ∧ w.store.content slot = some (.module m) ∧
        w.store.Shows m (segments rest) last ∧ w.store.content last = some (.int 5) := by
  intro ctx s w
  have harises : w.Arises ctx := .top (((Session.Arises.bare 4).evalText _).evalText _)
  have hliteral : w.store.slot? rootScope "a.b.c" = none := by decide +kernel
  have hlookup : w.store.lookup rootScope "a.b.c" = .ok (.int 5) :=
    eq_of_integer? (by decide +kernel)
  have hshown : shownInteger? w rootScope "a" ["b", "c"] = some 1 := by decide +kernel
  refine ⟨harises, hliteral, hlookup, ?_⟩
  rintro ⟨first, rest, slot, m, last, hsplit, hslot, hm, hshows, hlast⟩
  have hsplit' : splitMember? "a.b.c" = some ("a", "b.c") := by rfl
  obtain ⟨rfl, rfl⟩ : first = "a" ∧ rest = "b.c" := by
    rw [hsplit'] at hsplit
    cases hsplit
    exact ⟨rfl, rfl⟩
  rw [segments_pair, Store.shows_iff_shown?] at hshows
  unfold shownInteger? at hshown
  rw [hslot, Option.bind_some, hm] at hshown
  dsimp only at hshown
  rw [hshows, Option.bind_some, hlast] at hshown
  exact absurd hshown (by decide)

end World

end TinyLisp
