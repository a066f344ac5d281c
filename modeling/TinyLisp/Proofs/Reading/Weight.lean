import TinyLisp.Proofs.Reading.Datum
import Mathlib.Algebra.GroupWithZero.Nat

/-!
# What reading preserves

A reader neither drops nor invents anything: whatever one counts in data, node by node, so that
lists and strings count for nothing, the data read count for as much as the tokens they were read
from (`Weighing.readFrom_eq`). The one entry of the stack that could drop a datum, a list that
has its tail, only ever stands at the top.
-/

namespace TinyLisp

/-! ## §1. The parts of a datum -/

namespace Value

/-- A datum and all data inside it. -/
def parts : Value → List Value
  | pair t a d => pair t a d :: (parts a ++ parts d)
  | quote v => quote v :: parts v
  | quasiquote v => quasiquote v :: parts v
  | unquote v => unquote v :: parts v
  | unquoteSplicing v => unquoteSplicing v :: parts v
  | v => [v]
termination_by structural v => v

theorem mem_parts_fst (t : Option Nat) (a d : Value) : ∀ u ∈ a.parts, u ∈ (pair t a d).parts := by
  intro u hu
  simp [parts, hu]

theorem mem_parts_snd (t : Option Nat) (a d : Value) : ∀ u ∈ d.parts, u ∈ (pair t a d).parts := by
  intro u hu
  simp [parts, hu]

/-- What the parts of a datum count for. -/
def total (f : Value → Nat) (v : Value) : Nat :=
  (v.parts.map f).sum

variable (f : Value → Nat)

theorem total_pair (t : Option Nat) (a d : Value) :
    total f (pair t a d) = f (pair t a d) + (total f a + total f d) := by
  simp [total, parts]

theorem total_eq_zero_iff (v : Value) : v.total f = 0 ↔ ∀ u ∈ v.parts, f u = 0 := by
  unfold total
  rw [List.sum_eq_zero_iff_forall_eq_nat, List.forall_mem_map]

end Value

theorem Wrapper.mem_parts_wrap (w : Wrapper) (v : Value) : ∀ u ∈ v.parts, u ∈ (w.wrap v).parts := by
  intro u hu
  cases w <;> simp [wrap, Value.parts, hu]

theorem Wrapper.total_wrap (f : Value → Nat) (w : Wrapper) (v : Value) :
    (w.wrap v).total f = f (w.wrap v) + v.total f := by
  cases w <;> simp [Value.total, Value.parts, Wrapper.wrap]

/-! ## §2. Weighing -/

/-- A count of the nodes of data in which pairs, the empty list and strings do not count, and a
wrapper counts whatever it wraps. -/
structure Weighing where
  node : Value → Nat
  wrapper : Wrapper → Nat
  node_nil : node .nil = 0
  node_string : ∀ s, node (.string s) = 0
  node_pair : ∀ t a d, node (.pair t a d) = 0
  node_wrap : ∀ w v, node (w.wrap v) = wrapper w

namespace Weighing

variable (m : Weighing)

def value (v : Value) : Nat :=
  v.total m.node

def values (vs : List Value) : Nat :=
  (vs.map m.value).sum

def pending : Pending → Nat
  | .list seen => m.values seen
  | .tail seen => m.values seen
  | .close seen last => m.values seen + m.value last
  | .wrapper w => m.wrapper w

def stack (ps : List Pending) : Nat :=
  (ps.map m.pending).sum

/-- The weight of all that a reader holds. -/
def reader (r : Reader) : Nat :=
  m.values r.done + m.stack r.stack

/-- The weight of a token: that of the atom it spells or of the wrapper it stands for. -/
def token : Token → Nat
  | .plain cs =>
    match atomValue cs with
    | .ok v => m.value v
    | .error _ => 0
  | .quote => m.wrapper .quote
  | .quasiquote => m.wrapper .quasiquote
  | .unquote => m.wrapper .unquote
  | .unquoteSplicing => m.wrapper .unquoteSplicing
  | _ => 0

def tokens (ts : List Token) : Nat :=
  (ts.map m.token).sum

theorem token_wrapper (w : Wrapper) : m.token w.token = m.wrapper w := by
  cases w <;> rfl

@[simp] theorem values_nil : m.values [] = 0 := rfl

@[simp] theorem values_cons (v : Value) (vs : List Value) :
    m.values (v :: vs) = m.value v + m.values vs :=
  List.sum_cons

@[simp] theorem stack_nil : m.stack [] = 0 := rfl

@[simp] theorem stack_cons (p : Pending) (ps : List Pending) :
    m.stack (p :: ps) = m.pending p + m.stack ps :=
  List.sum_cons

@[simp] theorem tokens_nil : m.tokens [] = 0 := rfl

@[simp] theorem tokens_cons (t : Token) (ts : List Token) :
    m.tokens (t :: ts) = m.token t + m.tokens ts :=
  List.sum_cons

@[simp] theorem tokens_append (ts us : List Token) :
    m.tokens (ts ++ us) = m.tokens ts + m.tokens us := by
  unfold tokens
  rw [List.map_append, List.sum_append_nat]

theorem value_nil : m.value .nil = 0 :=
  m.node_nil

theorem value_string (s : String) : m.value (.string s) = 0 :=
  m.node_string s

theorem value_pair (t : Option Nat) (a d : Value) :
    m.value (.pair t a d) = m.value a + m.value d := by
  unfold value
  rw [Value.total_pair, m.node_pair, Nat.zero_add]

theorem value_wrap (w : Wrapper) (v : Value) :
    m.value (w.wrap v) = m.wrapper w + m.value v := by
  unfold value
  rw [Wrapper.total_wrap, m.node_wrap]

theorem value_chain (tail : Value) (vs : List Value) :
    m.value (Value.chain tail vs) = m.values vs + m.value tail := by
  induction vs with
  | nil => exact (Nat.zero_add _).symm
  | cons v vs ih =>
    show m.value (.pair none v (Value.chain tail vs)) = _
    rw [value_pair, ih, values_cons, Nat.add_assoc]

theorem values_reverse (vs : List Value) : m.values vs.reverse = m.values vs := by
  unfold values
  rw [List.map_reverse, List.sum_reverse_nat]

end Weighing

/-! ## §3. Readers -/

/-- Whether a construct is a list that has its tail. -/
def Pending.isClosing : Pending → Bool
  | close _ _ => true
  | _ => false

/-- Only the innermost construct may be a list that has its tail. -/
def Reader.Ordered (r : Reader) : Prop :=
  ∀ p ∈ r.stack.tail, p.isClosing = false

theorem Reader.initial_ordered : initial.Ordered := by
  intro p hp
  exact absurd hp (by simp [initial])

namespace Weighing

variable (m : Weighing) {r s : Reader}

/-- A datum given to constructs that await one. -/
theorem supply_eq (done : List Value) (v : Value) {ps : List Pending}
    (h : ∀ p ∈ ps, p.isClosing = false) :
    m.reader (Reader.supply done v ps) = m.values done + m.value v + m.stack ps ∧
      (Reader.supply done v ps).Ordered := by
  induction ps generalizing v with
  | nil =>
    refine ⟨?_, fun p hp => absurd hp (by simp [Reader.supply])⟩
    simp only [Reader.supply, reader, values_cons, stack_nil]
    omega
  | cons p ps ih =>
    have hps : ∀ q ∈ ps, q.isClosing = false := fun q hq => h q (by simp [hq])
    cases p with
    | wrapper w =>
      obtain ⟨hweight, hordered⟩ := ih (w.wrap v) hps
      refine ⟨?_, hordered⟩
      show m.reader (Reader.supply done (w.wrap v) ps) = _
      rw [hweight, value_wrap, stack_cons]
      show _ = m.values done + m.value v + (m.wrapper w + m.stack ps)
      omega
    | list seen =>
      refine ⟨?_, hps⟩
      simp only [Reader.supply, reader, stack_cons, pending, values_cons]
      omega
    | tail seen =>
      refine ⟨?_, hps⟩
      simp only [Reader.supply, reader, stack_cons, pending]
      omega
    | close seen last => exact absurd (h _ List.mem_cons_self) (by simp [Pending.isClosing])

/-- A list that closes, with its tail, is given as a datum. -/
theorem supply_chain (done seen : List Value) (last : Value) {ps : List Pending}
    (h : ∀ p ∈ ps, p.isClosing = false) :
    m.reader (Reader.supply done (Value.chain last seen.reverse) ps) =
        m.values done + (m.values seen + m.value last) + m.stack ps ∧
      (Reader.supply done (Value.chain last seen.reverse) ps).Ordered := by
  have hsupply := m.supply_eq done (Value.chain last seen.reverse) h
  rw [value_chain, values_reverse] at hsupply
  exact hsupply

theorem push_eq (hr : ∀ p ∈ r.stack, p.isClosing = false) (p : Pending) :
    m.reader (r.push p) = m.reader r + m.pending p ∧ (r.push p).Ordered := by
  refine ⟨?_, hr⟩
  simp only [Reader.push, reader, stack_cons]
  omega

theorem token_of_spells {t : Token} {v : Value} (h : t.Spells v) : m.token t = m.value v := by
  cases h with
  | atom hv => simp only [token, hv]
  | string hcs => exact (m.value_string _).symm

/-- In an ordered reader that awaits something, nothing is a list that has its tail. -/
theorem isClosing_of_awaiting (hr : r.Ordered) (hawait : r.Awaiting) :
    ∀ p ∈ r.stack, p.isClosing = false := by
  intro p hp
  cases hstack : r.stack with
  | nil =>
    rw [hstack] at hp
    exact absurd hp (by simp)
  | cons q ps =>
    rw [hstack] at hp
    rcases List.mem_cons.1 hp with rfl | hp
    · cases p with
      | close seen last => exact absurd hstack (hawait seen last ps)
      | _ => rfl
    · exact hr p (by rw [hstack]; exact hp)

/-- A token adds its weight to what a reader holds. -/
theorem step_eq (hr : r.Ordered) {t : Token} (h : Reader.Step r t s) :
    m.reader s = m.reader r + m.token t ∧ s.Ordered := by
  cases h with
  | comment body => exact ⟨rfl, hr⟩
  | openList hawait => exact m.push_eq (isClosing_of_awaiting hr hawait) (.list [])
  | wrapper w hawait hw =>
    rw [hw, token_wrapper]
    exact m.push_eq (isClosing_of_awaiting hr hawait) (.wrapper w)
  | @datum _ v hawait hv =>
    obtain ⟨hweight, hordered⟩ := m.supply_eq r.done v (isClosing_of_awaiting hr hawait)
    refine ⟨?_, hordered⟩
    show m.reader (Reader.supply r.done v r.stack) = _
    rw [hweight, m.token_of_spells hv]
    unfold reader
    omega
  | dot hst hne =>
    -- the dot counts for nothing and only marks the list
    unfold Reader.Ordered reader at *
    rw [hst] at hr ⊢
    exact ⟨rfl, hr⟩
  | @closeList seen ps hst =>
    have hps : ∀ p ∈ ps, p.isClosing = false := fun p hp => hr p (by rw [hst]; exact hp)
    obtain ⟨hweight, hordered⟩ := m.supply_chain r.done seen .nil hps
    refine ⟨?_, hordered⟩
    rw [hweight, value_nil]
    unfold reader
    rw [hst, stack_cons]
    show _ = m.values r.done + (m.values seen + m.stack ps) + 0
    omega
  | @closeTail seen last ps hst =>
    have hps : ∀ p ∈ ps, p.isClosing = false := fun p hp => hr p (by rw [hst]; exact hp)
    obtain ⟨hweight, hordered⟩ := m.supply_chain r.done seen last hps
    refine ⟨?_, hordered⟩
    rw [hweight]
    unfold reader
    rw [hst, stack_cons]
    show _ = m.values r.done + (m.values seen + m.value last + m.stack ps) + 0
    omega

/-- Reading loses nothing and adds nothing. -/
theorem readFrom_eq (hr : r.Ordered) {ts : List Token} (h : r.readFrom ts = .ok s) :
    m.reader s = m.reader r + m.tokens ts := by
  induction ts generalizing r with
  | nil =>
    cases h
    rfl
  | cons t ts ih =>
    obtain ⟨u, hstep, hu⟩ := Reader.readFrom_cons_eq_ok_iff.1 h
    obtain ⟨hweight, hordered⟩ := m.step_eq hr hstep
    rw [ih hordered hu, hweight, tokens_cons, Nat.add_assoc]

end Weighing

end TinyLisp
