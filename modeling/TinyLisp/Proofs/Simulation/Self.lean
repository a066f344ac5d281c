import TinyLisp.Proofs.Simulation.Guarded
import TinyLisp.Proofs.Grounded

/-!
# A world belongs to itself

In a grounded world every frame and every body belongs to itself, with all that the world binds
relied on (`Correspondence.self`). Then every value in the world is alike to itself, and so is every
expression that refers only to what is there. The run on the left may have opened frames besides, as
long as they are left alone. This is where comparisons of two runs begin.
-/

namespace TinyLisp

/-! ## §1. What is alike to itself -/

/-- Functions, expanders and modules of some kind are alike to themselves. -/
structure Leaves.Own (L : Leaves) (N : Value → Prop) : Prop where
  closure : ∀ c, N (.closure c) → L.closure c c
  expander : ∀ m, N (.expander m) → L.expander m m
  module : ∀ m, N (.module m) → L.module m m

variable {L : Leaves} {N : Value → Prop}

/-- A value with only such nodes is alike to itself. -/
theorem Value.Like.self (hL : L.Own N) {v : Value} (h : v.Every N) : Value.Like L v v := by
  induction v with
  | nil => exact .nil
  | unspecified => exact .unspecified
  | int n => exact .int n
  | float x => exact .float x
  | bool b => exact .bool b
  | symbol name => exact .symbol name
  | string text => exact .string text
  | pair cell a d iha ihd =>
    obtain ⟨-, ha, hd⟩ := Value.every_pair.1 h
    exact .pair cell (iha ha) (ihd hd)
  | record cell name fields ih =>
    obtain ⟨-, hfields⟩ := Value.every_record.1 h
    refine Value.Like.record_of_fields cell name ?_
    exact List.forall₂_same.2 fun field hf => ⟨rfl, ih field hf (hfields field hf)⟩
  | primitive op => exact .primitive op
  | quote v ih => exact .quote (ih (Value.every_quote.1 h).2)
  | quasiquote v ih => exact .quasiquote (ih (Value.every_quasiquote.1 h).2)
  | unquote v ih => exact .unquote (ih (Value.every_unquote.1 h).2)
  | unquoteSplicing v ih => exact .unquoteSplicing (ih (Value.every_unquoteSplicing.1 h).2)
  | closure c => exact .closure (hL.closure c h.self)
  | expander m => exact .expander (hL.expander m h.self)
  | module m => exact .module (hL.module m h.self)

theorem Value.Like.self_of_each (hL : L.Own N) {vs : List Value} (h : ∀ v ∈ vs, v.Every N) :
    List.Forall₂ (Value.Like L) vs vs :=
  List.forall₂_same.2 fun v hv => .self hL (h v hv)

/-- So is an expression with only such values in it. -/
theorem Expr.Like.self (hL : L.Own N) {e : Expr} (h : e.Every N) : Expr.Like L e e := by
  induction e with
  | literal v => exact .literal (.self hL (Expr.every_literal.1 h))
  | var name => exact .var name
  | ite c t e ihc iht ihe =>
    obtain ⟨hc, ht, he⟩ := Expr.every_ite.1 h
    exact .ite (ihc hc) (iht ht) (ihe he)
  | and es ih => exact .and (List.forall₂_same.2 fun e he => ih e he (Expr.every_and.1 h e he))
  | or es ih => exact .or (List.forall₂_same.2 fun e he => ih e he (Expr.every_or.1 h e he))
  | sequence es ih =>
    exact .sequence (List.forall₂_same.2 fun e he => ih e he (Expr.every_sequence.1 h e he))
  | call callee args forms ihc iha =>
    obtain ⟨hc, ha, hf⟩ := Expr.every_call.1 h
    exact .call (ihc hc) (List.forall₂_same.2 fun e he => iha e he (ha e he))
      (Value.Like.self_of_each hL hf)
  | deferred callee fault forms ihc =>
    obtain ⟨hc, hf⟩ := Expr.every_deferred.1 h
    exact .deferred (ihc hc) (.refl fault) (Value.Like.self_of_each hL hf)
  | letIn kind bs body ihb ihbody =>
    obtain ⟨hbs, hbody⟩ := Expr.every_letIn.1 h
    refine .letIn kind rfl (List.forall₂_same.2 fun e he => ?_) (ihbody hbody)
    obtain ⟨b, hb, rfl⟩ := List.mem_map.1 he
    exact ihb b hb (hbs b hb)
  | lambda name params body ih => exact .lambda name params (ih (Expr.every_lambda.1 h))
  | define name e ih => exact .define name (ih (Expr.every_define.1 h))
  | definition kind name params body ih =>
    exact .definition kind name params (ih (Expr.every_definition.1 h))
  | module name exports es ih =>
    exact .module name exports
      (List.forall₂_same.2 fun e he => ih e he (Expr.every_module.1 h e he))
  | importFrom target spec => exact .importFrom target spec
  | macroexpand form => exact .macroexpand (.self hL (Expr.every_macroexpand.1 h))

/-! ## §2. The world itself -/

namespace Correspondence

variable {O : Backdrop} {w : World} {scope : Scope}

/-- Every frame and every body of a grounded world belongs to itself. -/
def self (O : Backdrop) (w : World) (h : w.Grounded)
    (hO : ∀ f, O.apart f → w.store.frames.size ≤ f) : Correspondence O where
  frame f f' := f = f' ∧ f < w.store.frames.size
  body b b' := b = b' ∧ b < w.bodies.size
  code b e := b < w.bodies.size ∧ w.bodies.getD b (.literal .nil) = e
  left := .of w.store
  right := .of w.store
  frame_inj := by
    rintro f f' g g' ⟨rfl, -⟩ ⟨rfl, -⟩
    exact Iff.rfl
  body_inj := by
    rintro b b' c c' ⟨rfl, -⟩ ⟨rfl, -⟩
    exact Iff.rfl
  root := ⟨rfl, h.root⟩
  apart f hf := ⟨fun _ hff' => absurd hff'.2 (Nat.not_lt.2 (hO f hf)), fun _ hv => hv⟩

variable {h : w.Grounded} {hO : ∀ f, O.apart f → w.store.frames.size ≤ f}

theorem along_self {p : Prop} {N : String → Prop} (hs : ∀ f ∈ scope, f < w.store.frames.size) :
    (self O w h hO).Along p N scope scope := by
  induction scope with
  | nil => exact .nil
  | cons f scope ih =>
    exact .cons ⟨rfl, hs f (by simp)⟩ (fun _ hn => .inl hn)
      (ih fun g hg => hs g (List.mem_cons_of_mem f hg))

/-- Scopes that are there belong to themselves. -/
theorem scopes_self {p : Prop} (hs : ∀ f ∈ scope, f < w.store.frames.size) :
    (self O w h hO).Scopes p View.whole scope scope :=
  ⟨along_self hs, fun _ hb => hb.elim, .inl View.whole_whole⟩

theorem kept_self (hs : w.Inside scope) : (self O w h hO).Kept View.whole scope scope :=
  ⟨scopes_self hs.lt, hs.ne, hs.ne⟩

/-- What refers to nothing that is not there is alike to itself. -/
theorem own_self : (self O w h hO).leaves.Own w.Supports where
  closure c hc := by
    obtain ⟨hscope, hid, hcovers⟩ := hc
    exact ⟨⟨rfl, hid⟩, rfl, rfl,
      ⟨View.whole, _, kept_self hscope, ⟨hid, rfl⟩, .whole (View.whole_whole.adding _)⟩, hcovers,
      hcovers⟩
  expander m hm :=
    ⟨⟨rfl, hm.2⟩, rfl, rfl, View.whole, _, kept_self hm.1, ⟨hm.2, rfl⟩,
      .whole (View.whole_whole.adding _)⟩
  module m hm := ⟨rfl, rfl, rfl, View.whole, kept_self hm, fun n _ => View.whole_whole.reads n,
    fun n _ => View.whole_whole.reads n⟩

/-- The run on the left may have opened frames that nothing belongs to. -/
theorem stores_self {s : Store} (hslots : s.slots = w.store.slots)
    (hsize : w.store.frames.size ≤ s.frames.size)
    (hframes : ∀ f, f < w.store.frames.size → s.frame f = w.store.frame f)
    (hback : O.Holds s w.store) : (self O w h hO).Stores s w.store := by
  have hvalid : ∀ (paired : FrameId → Prop), (Side.of w.store).Valid paired w.store :=
    fun _ => ⟨fun _ _ _ hp => hp, fun _ _ hv => hv.elim, fun _ _ hv => hv.elim,
      fun _ _ _ _ hv => hv.elim⟩
  refine ⟨?_, ?_, congrArg Array.size hslots, ?_, ?_, hvalid _, hback⟩
  · rintro f f' ⟨rfl, hf⟩
    exact ⟨Nat.lt_of_lt_of_le hf hsize, hf⟩
  · rintro f f' ⟨rfl, hf⟩
    exact hframes f hf
  · intro slot
    have hcontent : s.content slot = w.store.content slot := by
      unfold Store.content
      rw [hslots]
    rw [hcontent]
    cases hv : w.store.content slot with
    | none => exact .none
    | some v => exact .some (.self own_self (h.content hv))
  · refine (hvalid _).later hsize (fun f name slot hs => ?_) fun g hg _ => hframes g hg
    unfold Store.slotIn?
    rw [hframes f (Store.lt_size_of_slotIn? hs)]
    exact hs

theorem libraries_self : (self O w h hO).Libraries w.library w.library := by
  have hmodule : ∀ {m}, m ∈ w.library.modules → (self O w h hO).Modules m m :=
    fun hm => own_self.module _ (h.library hm)
  refine ⟨List.forall₂_same.2 fun e he => ⟨rfl, hmodule ?_⟩,
    List.forall₂_same.2 fun e he => ⟨rfl, hmodule ?_⟩, rfl⟩
  · exact List.mem_append_left _ (List.mem_map_of_mem he)
  · exact List.mem_append_right _ (List.mem_map_of_mem he)

theorem worlds_self {s : Store} (hs : (self O w h hO).Stores s w.store) :
    (self O w h hO).Worlds { w with store := s } w := by
  refine ⟨hs, ?_, ?_, fun b e he => he, rfl, rfl, libraries_self, rfl⟩
  · rintro b b' ⟨rfl, hb⟩
    exact ⟨hb, hb⟩
  · rintro b b' ⟨rfl, hb⟩
    exact .self own_self (h.getD b)

end Correspondence

end TinyLisp
