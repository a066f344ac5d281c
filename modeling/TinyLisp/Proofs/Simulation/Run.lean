import TinyLisp.Proofs.Simulation.Change
import TinyLisp.Proofs.EvalLaws
import TinyLisp.Primitive.Run

/-!
# Computations that belong together

`K.Sim R x y` says that the computations `x` and `y`, run in worlds that belong together under
`K`, end together: both with values that are related by `R`, or both with failures alike, or both
for want of depth; and the worlds they leave belong together under a later correspondence. Only a
failure that the backdrop excuses needs no counterpart. The rules of this module reduce that to the
parts of a computation.
-/

namespace TinyLisp

namespace Correspondence

variable {O : Backdrop} {K K' : Correspondence O} {w w' : World} {scope scope' : Scope}

/-! ## §1. Worlds -/

/-- Libraries that belong together. -/
structure Libraries (K : Correspondence O) (l l' : Library) : Prop where
  registry : TableLike K.Modules l.registry l'.registry
  files : TableLike K.Modules l.files l'.files
  loading : l.loading = l'.loading

theorem Libraries.mono (hK : K.Le K') {l l' : Library} (h : K.Libraries l l') :
    K'.Libraries l l' :=
  ⟨h.registry.mono fun _ _ hm => hm.mono hK, h.files.mono fun _ _ hm => hm.mono hK, h.loading⟩

/-- Worlds that belong together. -/
structure Worlds (K : Correspondence O) (w w' : World) : Prop where
  store : K.Stores w.store w'.store
  body_lt : ∀ b b', K.body b b' → b < w.bodies.size ∧ b' < w'.bodies.size
  body : ∀ b b', K.body b b' →
    K.Exprs (w.bodies.getD b (.literal .nil)) (w'.bodies.getD b' (.literal .nil))
  code : ∀ b e, K.code b e → b < w.bodies.size ∧ w.bodies.getD b (.literal .nil) = e
  nextTag : w.nextTag = w'.nextTag
  gensym : w.gensym = w'.gensym
  library : K.Libraries w.library w'.library
  output : w.output = w'.output

/-- A change of the stores alone, under a correspondence that pairs the same bodies. -/
theorem Worlds.withStores (h : K.Worlds w w') (hK : K.Le K')
    (hbody : ∀ b b', K'.body b b' → K.body b b') (hcode : ∀ b e, K'.code b e → K.code b e)
    {s s' : Store} (hs : K'.Stores s s') :
    K'.Worlds { w with store := s } { w' with store := s' } :=
  ⟨hs, fun b b' hb => h.body_lt b b' (hbody b b' hb),
    fun b b' hb => (h.body b b' (hbody b b' hb)).mono (leaves_le hK),
    fun b e he => h.code b e (hcode b e he), h.nextTag, h.gensym, h.library.mono hK, h.output⟩

/-! ## §2. Ends -/

/-- Halts alike: failures alike, or want of depth both. -/
inductive HaltsAlike : Halt → Halt → Prop
  | failed {e e' : EvalError} : EvalError.Alike e e' → HaltsAlike (.failed e) (.failed e')
  | exhausted : HaltsAlike .exhausted .exhausted

/-- Ends that belong together under a correspondence later than `K`. -/
inductive Ends {α β : Type} (K : Correspondence O) (R : Correspondence O → α → β → Prop) :
    EStateM.Result Halt World α → EStateM.Result Halt World β → Prop
  | ok {K' : Correspondence O} {a : α} {b : β} {w w' : World} :
      K.Le K' → K'.Worlds w w' → R K' a b → Ends K R (.ok a w) (.ok b w')
  | error {K' : Correspondence O} {h h' : Halt} {w w' : World} :
      K.Le K' → K'.Worlds w w' → HaltsAlike h h' → Ends K R (.error h w) (.error h' w')
  | excused {h : Halt} {w : World} {r : EStateM.Result Halt World β} :
      O.excused h → Ends K R (.error h w) r

/-- Ends that belong together from a later correspondence on. -/
theorem Ends.since {α β : Type} {R : Correspondence O → α → β → Prop} (hK : K.Le K')
    {r : EStateM.Result Halt World α} {r' : EStateM.Result Halt World β} (h : K'.Ends R r r') :
    K.Ends R r r' := by
  cases h with
  | ok hK' hw hab => exact .ok (hK.trans hK') hw hab
  | error hK' hw hh => exact .error (hK.trans hK') hw hh
  | excused he => exact .excused he

/-- Computations that belong together. -/
def Sim {α β : Type} (K : Correspondence O) (R : Correspondence O → α → β → Prop) (x : Eval α)
    (y : Eval β) : Prop :=
  ∀ w w', K.Worlds w w' → K.Ends R (x w) (y w')

/-- What follows ends that belong together. -/
theorem Ends.bind {α β γ δ : Type} {R : Correspondence O → α → β → Prop}
    {S : Correspondence O → γ → δ → Prop} {x : Eval α} {y : Eval β} {f : α → Eval γ}
    {g : β → Eval δ} (h : K.Ends R (x w) (y w'))
    (hfg : ∀ K', K.Le K' → ∀ a b, R K' a b → K'.Sim S (f a) (g b)) :
    K.Ends S ((x >>= f) w) ((y >>= g) w') := by
  rw [Eval.bind_eq, Eval.bind_eq]
  generalize x w = r, y w' = r' at h
  cases h with
  | ok hK hw hab => exact (hfg _ hK _ _ hab _ _ hw).since hK
  | error hK hw hh => exact .error hK hw hh
  | excused he => exact .excused he

/-- The same result in both runs. -/
abbrev same {α : Type} : Correspondence O → α → α → Prop := fun _ => Eq

/-- Lists of values that belong together. -/
abbrev Lists (K : Correspondence O) : List Value → List Value → Prop :=
  List.Forall₂ K.Values

theorem Lists.mono (hK : K.Le K') {vs vs' : List Value} (h : K.Lists vs vs') : K'.Lists vs vs' :=
  forall₂_mono (leaves_le hK) h

theorem Values.mono (hK : K.Le K') {v v' : Value} (h : K.Values v v') : K'.Values v v' :=
  Value.Like.mono (leaves_le hK) h

theorem Exprs.mono (hK : K.Le K') {e e' : Expr} (h : K.Exprs e e') : K'.Exprs e e' :=
  Expr.Like.mono (leaves_le hK) h

namespace Sim

variable {α β γ δ : Type} {R : Correspondence O → α → β → Prop} {S : Correspondence O → γ → δ → Prop}

/-! ## §3. Rules -/

theorem pure {a : α} {b : β} (h : R K a b) : K.Sim R (pure a) (pure b) :=
  fun _ _ hw => .ok (.refl K) hw h

theorem throw {h h' : Halt} (hh : HaltsAlike h h') :
    K.Sim R (throw h : Eval α) (throw h' : Eval β) :=
  fun _ _ hw => .error (.refl K) hw hh

theorem fail {e e' : EvalError} (he : EvalError.Alike e e') :
    K.Sim R (Eval.fail e : Eval α) (Eval.fail e' : Eval β) :=
  throw (.failed he)

theorem bind {x : Eval α} {y : Eval β} {f : α → Eval γ} {g : β → Eval δ} (hxy : K.Sim R x y)
    (hfg : ∀ K', K.Le K' → ∀ a b, R K' a b → K'.Sim S (f a) (g b)) :
    K.Sim S (x >>= f) (y >>= g) :=
  fun w w' hw => (hxy w w' hw).bind hfg

/-- Looking at the world and going on. -/
theorem get {f : World → Eval α} {g : World → Eval β}
    (h : ∀ w w', K.Worlds w w' → K.Sim R (f w) (g w')) :
    K.Sim R (get >>= f) (get >>= g) :=
  fun w w' hw => h w w' hw w w' hw

/-- What holds of the results follows from what holds of the results. -/
theorem weaken {R' : Correspondence O → α → β → Prop} {x : Eval α} {y : Eval β}
    (hxy : K.Sim R x y) (h : ∀ K', K.Le K' → ∀ a b, R K' a b → R' K' a b) : K.Sim R' x y := by
  intro w w' hw
  have he := hxy w w' hw
  generalize x w = r, y w' = r' at he
  cases he with
  | ok hK hw1 hab => exact .ok hK hw1 (h _ hK _ _ hab)
  | error hK hw1 hh => exact .error hK hw1 hh
  | excused he => exact .excused he

theorem typeError {fault fault' : TypeFault} (h : TypeFault.Alike fault fault') :
    K.Sim R (Eval.typeError fault : Eval α) (Eval.typeError fault' : Eval β) :=
  fail (.type h)

theorem ofExcept {x : Except EvalError α} {y : Except EvalError β}
    (h : ResultLike EvalError.Alike (R K) x y) : K.Sim R (Eval.ofExcept x) (Eval.ofExcept y) := by
  cases h with
  | ok hab => exact pure hab
  | error he => exact fail he

theorem checkArity (a : Arity) {n n' : Nat} (hn : n = n') (name : String) :
    K.Sim same (Eval.checkArity a n name) (Eval.checkArity a n' name) := by
  subst hn
  exact ofExcept (.refl EvalError.Alike.refl _)

/-- What follows the end of a computation, looked at from outside, if it hands a failure that is
excused on. -/
theorem observe {x : Eval α} {y : Eval β} (hxy : K.Sim R x y) {k : Except Halt α → Eval γ}
    {k' : Except Halt β → Eval δ}
    (hk : ∀ K', K.Le K' → ∀ r r', ResultLike HaltsAlike (R K') r r' → K'.Sim S (k r) (k' r'))
    (hthrow : ∀ h w, ∃ w', k (.error h) w = .error h w') :
    K.Sim S (Eval.observe x >>= k) (Eval.observe y >>= k') := by
  intro w w' hw
  have h := hxy w w' hw
  generalize hx : x w = r, hy : y w' = r' at h
  cases h with
  | ok hK hw1 hab =>
    rw [Eval.bind_of_ok (Eval.observe_of_ok hx), Eval.bind_of_ok (Eval.observe_of_ok hy)]
    exact (hk _ hK _ _ (.ok hab) _ _ hw1).since hK
  | error hK hw1 hh =>
    rw [Eval.bind_of_ok (Eval.observe_of_error hx), Eval.bind_of_ok (Eval.observe_of_error hy)]
    exact (hk _ hK _ _ (.error hh) _ _ hw1).since hK
  | @excused e w₁ _ he =>
    obtain ⟨w₂, hw₂⟩ := hthrow e w₁
    rw [Eval.bind_of_ok (Eval.observe_of_error hx), hw₂]
    exact .excused he

/-! ## §4. Tags, output, library -/

theorem newTag : K.Sim same Eval.newTag Eval.newTag := by
  intro w w' hw
  refine .ok (.refl K) ?_ hw.nextTag
  exact ⟨hw.store, hw.body_lt, hw.body, hw.code, congrArg (· + 1) hw.nextTag, hw.gensym, hw.library,
    hw.output⟩

theorem newPair {a a' d d' : Value} (ha : K.Values a a') (hd : K.Values d d') :
    K.Sim Values (Eval.newPair a d) (Eval.newPair a' d') := by
  refine newTag.bind fun K' hK n n' hn => ?_
  subst hn
  exact pure (.pair _ (Values.mono hK ha) (Values.mono hK hd))

theorem newChain {tail tail' : Value} (ht : K.Values tail tail') {vs vs' : List Value}
    (h : K.Lists vs vs') : K.Sim Values (Eval.newChain tail vs) (Eval.newChain tail' vs') := by
  induction h with
  | nil => exact pure ht
  | cons hv _ ih =>
    unfold Eval.newChain
    exact ih.bind fun K' hK r r' hr => newPair (Values.mono hK hv) hr

theorem newList {vs vs' : List Value} (h : K.Lists vs vs') :
    K.Sim Values (Eval.newList vs) (Eval.newList vs') :=
  newChain .nil h

theorem tagForm {v v' : Value} (h : K.Values v v') :
    K.Sim Values (Eval.tagForm v) (Eval.tagForm v') := by
  intro w w' hw
  obtain ⟨hv, hn⟩ := Value.Like.tag (n := w.nextTag) h
  unfold Eval.tagForm
  show K.Ends Values (.ok (v.tag w.nextTag).1 { w with nextTag := (v.tag w.nextTag).2 })
    (.ok (v'.tag w'.nextTag).1 { w' with nextTag := (v'.tag w'.nextTag).2 })
  rw [← hw.nextTag]
  exact .ok (.refl K)
    ⟨hw.store, hw.body_lt, hw.body, hw.code, hn, hw.gensym, hw.library, hw.output⟩ hv

theorem write (s : String) : K.Sim same (Eval.write s) (Eval.write s) := by
  intro w w' hw
  refine .ok (.refl K) ?_ rfl
  exact ⟨hw.store, hw.body_lt, hw.body, hw.code, hw.nextTag, hw.gensym, hw.library,
    congrArg (· ++ s) hw.output⟩

theorem gensym (stem : String) : K.Sim Values (Eval.gensym stem) (Eval.gensym stem) := by
  intro w w' hw
  unfold Eval.gensym
  show K.Ends Values
    (.ok (.symbol (w.gensym.fresh stem).1) { w with gensym := (w.gensym.fresh stem).2 })
    (.ok (.symbol (w'.gensym.fresh stem).1) { w' with gensym := (w'.gensym.fresh stem).2 })
  rw [← hw.gensym]
  exact .ok (.refl K)
    ⟨hw.store, hw.body_lt, hw.body, hw.code, hw.nextTag, rfl, hw.library, hw.output⟩ (.symbol _)

theorem library : K.Sim Libraries Eval.library Eval.library := by
  unfold Eval.library
  exact get fun w w' hw => pure hw.library

theorem modifyLibrary {f g : Library → Library}
    (h : ∀ l l', K.Libraries l l' → K.Libraries (f l) (g l')) :
    K.Sim same (Eval.modifyLibrary f) (Eval.modifyLibrary g) := by
  intro w w' hw
  refine .ok (.refl K) ?_ rfl
  exact ⟨hw.store, hw.body_lt, hw.body, hw.code, hw.nextTag, hw.gensym, h _ _ hw.library, hw.output⟩

/-! ## §5. Bodies -/

theorem body {b b' : Nat} {e : Expr} (hb : K.body b b') (he : K.code b e) :
    K.Sim (fun K' x x' => K'.Exprs x x' ∧ x = e) (Eval.body b) (Eval.body b') := by
  unfold Eval.body
  exact get fun w w' hw => pure ⟨hw.body b b' hb, (hw.code b e he).2⟩

/-- Both runs keep a body; the bodies are then paired. -/
theorem newBody {e e' : Expr} (he : K.Exprs e e') :
    K.Sim (fun K' b b' => K'.body b b' ∧ K'.code b e) (Eval.newBody e) (Eval.newBody e') := by
  intro w w' hw
  have hnew : ∀ c c', K.body c c' → c ≠ w.bodies.size ∧ c' ≠ w'.bodies.size := by
    intro c c' hc
    exact ⟨Nat.ne_of_lt (hw.body_lt c c' hc).1, Nat.ne_of_lt (hw.body_lt c c' hc).2⟩
  have hK := le_pairBodies K w.bodies.size w'.bodies.size e hnew
  refine .ok hK ?_ ⟨.inr ⟨rfl, rfl⟩, .inr ⟨rfl, rfl⟩⟩
  refine ⟨hw.store.pairBodies hnew, ?_, ?_, ?_, hw.nextTag, hw.gensym, hw.library.mono hK,
    hw.output⟩
  · rintro c c' (hc | ⟨rfl, rfl⟩)
    · have hlt := hw.body_lt c c' hc
      simp only [Array.size_push]
      exact ⟨Nat.lt_succ_of_lt hlt.1, Nat.lt_succ_of_lt hlt.2⟩
    · simp
  · rintro c c' (hc | ⟨rfl, rfl⟩)
    · have hlt := hw.body_lt c c' hc
      have hold := Exprs.mono hK (hw.body c c' hc)
      simp only [Array.getD_eq_getD_getElem?] at hold ⊢
      rw [Array.getElem?_push_lt hlt.1, Array.getElem?_push_lt hlt.2]
      rw [Array.getElem?_eq_getElem hlt.1, Array.getElem?_eq_getElem hlt.2] at hold
      exact hold
    · simp only [Array.getD_eq_getD_getElem?, Array.getElem?_push_size, Option.getD_some]
      exact Exprs.mono hK he
  · rintro c x (hc | ⟨rfl, rfl⟩)
    · obtain ⟨hlt, hx⟩ := hw.code c x hc
      simp only [Array.getD_eq_getD_getElem?, Array.size_push] at hx ⊢
      rw [Array.getElem?_push_lt hlt]
      rw [Array.getElem?_eq_getElem hlt] at hx
      exact ⟨Nat.lt_succ_of_lt hlt, hx⟩
    · simp only [Array.getD_eq_getD_getElem?, Array.getElem?_push_size, Option.getD_some,
        Array.size_push]
      exact ⟨Nat.lt_succ_self _, trivial⟩

/-- Looking at the world and going on, with every binding of the moment relied on from then. -/
theorem getPinned {f : World → Eval α} {g : World → Eval β}
    (h : ∀ w w', K.Worlds w w' → (K.pin w.store w'.store).Sim R (f w) (g w')) :
    K.Sim R (MonadState.get >>= f) (MonadState.get >>= g) := by
  intro w w' hw
  have hK := hw.store.le_pin
  have he := h w w' hw w w' (hw.withStores hK (fun _ _ hb => hb) (fun _ _ he => he) hw.store.pin)
  exact he.since hK

/-! ## §6. Scopes -/

end Sim

/-- Scopes made by putting new frames before others. -/
def Opened (K : Correspondence O) (scope scope' inner inner' : Scope) : Prop :=
  ∃ f f', K.Works f f' ∧ inner = f :: scope ∧ inner' = f' :: scope'

variable {α β : Type} {R : Correspondence O → α → β → Prop} {V : View} {p : Prop}

/-- Inside scopes that are alike, new frames may be written to. -/
theorem Opened.active {inner inner' : Scope} (h : K.Opened scope scope' inner inner')
    (hs : K.Scopes p V scope scope') : K.Active p V inner inner' := by
  obtain ⟨f, f', hf, rfl, rfl⟩ := h
  exact hs.inside hf

namespace Sim

/-- Both runs open a frame. -/
theorem extend (scope scope' : Scope) :
    K.Sim (fun K' => K'.Opened scope scope') (Eval.extend scope) (Eval.extend scope') := by
  intro w w' hw
  have hst := hw.store
  exact .ok hst.le_opened
    (hw.withStores hst.le_opened (fun _ _ hb => hb) (fun _ _ he => he) hst.newFrame)
    ⟨_, _, hst.works_opened, rfl, rfl⟩

theorem lookup (hs : K.Scopes p V scope scope') {name : String} (hr : V.Reads name) :
    K.Sim Values (Eval.lookup scope name) (Eval.lookup scope' name) := by
  unfold Eval.lookup
  refine get fun w w' hw => ofExcept ?_
  have h := hw.store.lookup hs hr
  generalize w.store.lookup scope name = x, w'.store.lookup scope' name = y at h
  cases h with
  | ok hv => exact .ok hv
  | error he =>
    subst he
    exact .error (.refl _)

/-- Paired frames are given values for names; from then on the names are bound. -/
theorem bindAll (hs : K.Active p V scope scope') {bs bs' : List (String × Value)}
    (h : TableLike K.Values bs bs') :
    K.Sim (fun K' _ _ => K'.Active p (V.adding (bs.map Prod.fst)) scope scope')
      (Eval.bindAll scope bs) (Eval.bindAll scope' bs') := by
  intro w w' hw
  have hself := hs
  cases hs with
  | @cons M f f' scope scope' hf _ _ _ _ =>
    have hst := hw.store.bindAll hf h
    have hK := hst.le_pin
    refine .ok hK (hw.withStores hK (fun _ _ hb => hb) (fun _ _ he => he) hst.pin) ?_
    refine (hself.mono hK).adding fun n hn => ?_
    exact Store.exists_slotIn?_bindAll (hw.store.frame_lt f f' hf.frame).1 hn

theorem bindName (hs : K.Active p V scope scope') (name : String) {v v' : Value}
    (h : K.Values v v') :
    K.Sim (fun K' _ _ => K'.Active p (V.adding [name]) scope scope')
      (Eval.bindName scope name v) (Eval.bindName scope' name v') := by
  intro w w' hw
  have hentry : TableLike K.Values [(name, v)] [(name, v')] := .cons ⟨rfl, h⟩ .nil
  have he := bindAll hs hentry w w' hw
  cases hs with
  | cons => exact he

theorem fill (slot : SlotId) {v v' : Value} (h : K.Values v v') :
    K.Sim same (Eval.fill slot v) (Eval.fill slot v') := by
  intro w w' hw
  exact .ok (.refl K)
    (hw.withStores (.refl K) (fun _ _ hb => hb) (fun _ _ he => he) (hw.store.fill slot h)) rfl

end Sim

end Correspondence

end TinyLisp
