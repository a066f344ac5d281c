import TinyLisp.Proofs.Captures.Kept
import TinyLisp.Proofs.Invariant.Since

/-!
# Calls stay noted

A call that opens a frame for captured slots is an entry of some ledger once the frame is there. That
all later states of the run have a ledger with this entry is shown by comparing runs that stop at the
call with others that go on (`Invariant.awaiting`): in every state of a session a call of its past is
still to come, or it is noted in a ledger (`Session.Arose.noted`).
-/

namespace TinyLisp

open Invariant (ledger)

/-! ## §1. Ledgers in which a moment is awaited -/

/-- A slot holds a function that cannot have been made: its scope has no frames. -/
def Store.Spoiled (s : Store) : Prop :=
  ∃ slot c, s.content slot = some (.closure c) ∧ c.scope = []

/-- Every store grows into a spoiled one by a new slot. -/
theorem Store.exists_spoiled (s : Store) : ∃ s', (∀ o, Store.Confined o s s') ∧ s'.Spoiled := by
  let c : Closure := ⟨0, none, ⟨[], none⟩, .scope, []⟩
  let t := (s.newSlots [""]).2
  refine ⟨t.fill s.slots.size (.closure c), ?_, s.slots.size, c, ?_, rfl⟩
  · exact fun o => ((Store.Confined.refl o s).newSlots [""]).fill (Nat.le_refl _) _
  · have hlt : s.slots.size < t.slots.size := by
      rw [Store.slots_size_newSlots]
      exact Nat.lt_succ_self _
    rw [Store.content_fill hlt, if_pos rfl]

theorem Ledger.Sound.not_spoiled {ctx : Context} {K : Ledger} (h : K.Sound ctx) :
    ¬ K.world.store.Spoiled := by
  rintro ⟨slot, c, hcontent, hscope⟩
  have hnode : K.Node ctx (.closure c) := Value.every_closure.1 (h.toEvery.content hcontent)
  exact hnode.1.ne hscope

/-- The invariant of ledgers in a run in which a moment is awaited. Where the moment is among the
entries the ledgers are apart; up to there a failure may leave a spoiled store. -/
def Invariant.awaiting (ctx : Context) (a : Moment) (B : Set Moment) : Invariant :=
  { ledger ctx ∅ B with
    Left := fun K w => (ledger ctx ∅ B).Left K w ∨ a ∉ Ledger.begun K ∧ w.store.Spoiled
    Apart := fun K => a ∈ Ledger.begun K }

namespace Invariant

variable {ctx : Context} {a : Moment} {B : Set Moment} {K K' : Ledger} {w : World}

theorem ends_awaiting {α : Type} {P : Ledger → α → Prop} {r : EStateM.Result Halt World α}
    (h : (ledger ctx ∅ B).Ends K P r) : (awaiting ctx a B).Ends K P r := by
  cases r with
  | ok v w => exact h
  | error e w => exact .inl h

theorem active_awaiting {scope : Scope} :
    (awaiting ctx a B).Active K scope ↔ (ledger ctx ∅ B).Active K scope :=
  ⟨fun h => ⟨h.knows, h.works, h.inside⟩, fun h => ⟨h.knows, h.works, h.inside⟩⟩

theorem ready_awaiting {t : Task} :
    (awaiting ctx a B).Ready K t ↔ (ledger ctx ∅ B).Ready K t := by
  cases t with
  | eval e scope => exact and_congr .rfl active_awaiting
  | apply f args => exact .rfl

theorem kept_awaiting (hclosed : Moment.Closed ctx B) : (awaiting ctx a B).KeptIn ctx B :=
  let hI := kept_ledger (A := ∅) hclosed
  { hI with
    lambda := by
      intro K n name params body scope w hmem hw hs hb
      exact ends_awaiting (lambda_ledger hmem hw (active_awaiting.1 hs) hb)
    call := by
      intro K n c args w hmem hw hc
      exact ends_awaiting ((call_ledger hmem hw hc).mono fun _ _ _ h => active_awaiting.2 h)
    expander := by
      intro K w name params body scope hw hs hb
      exact hI.expander name params hw (active_awaiting.1 hs) hb
    left_of_later := by
      -- entries are never taken back, so what had not begun later had not begun before
      rintro K K' w hK (hleft | ⟨hnot, hspoiled⟩)
      · exact .inl (hI.left_of_later hK hleft)
      · exact .inr ⟨fun ha => hnot (hK.begun ha), hspoiled⟩
    left_of_holds := fun hw => .inl (hI.left_of_holds hw)
    left_apart := by
      rintro K w p ha (hleft | ⟨hnot, -⟩)
      · exact ⟨K, ha, .inl (left_aside hleft _)⟩
      · exact absurd ha hnot
    apart_mono := fun hK ha => hK.begun ha
    filling := by
      intro K w scope names hw hs
      exact hI.filling names hw (active_awaiting.1 hs)
    fill := by
      intro K K' w f slot slots v h hw hv
      obtain ⟨K'', hK, hw', -⟩ := later_filled hw slot hv
      exact ⟨K'', ⟨h.1.trans hK, Ledger.Le.owns hK h.2⟩, hw', fun ha => hK.begun ha⟩
    filled := fun h hw => ⟨_, h.1, hw, h.2, id⟩
    unfilled := by
      rintro K K' w f slots h (hleft | ⟨hnot, hspoiled⟩)
      · exact .inl (hI.toKeptOutside.unfilled (show (ledger ctx ∅ B).Filling K K' f slots from h) hleft)
      · exact .inr ⟨fun ha => hnot (h.1.begun ha), hspoiled⟩
    module := by
      intro K w f rest name exports hw hs hc hb
      exact hI.module name hw (active_awaiting.1 hs) hc hb
    file := by
      intro K w p hw _ _
      obtain ⟨K₁, hK₁, hw₁, -⟩ := later_same (P := fun _ => True) hw w.nextTag w.gensym
        (w.library.enter p) w.output fun _ => trivial
      refine ⟨K₁, hw₁, hw₁.2.2.root, ?_, ?_⟩
      · intro K₂ w₂ m hK₂ hw₂ _ _
        exact Later.since (hK₁.trans hK₂) (later_same hw₂ w₂.nextTag w₂.gensym
          ((w₂.library.leave p).keep p m) w₂.output fun _ => ⟨trivial, id⟩)
      · rintro w₂ (⟨K₂, hK₂, hw₂⟩ | ⟨hnot, hspoiled⟩)
        · exact .inl (left_aside ⟨K₂, hK₁.trans hK₂, hw₂⟩ _)
        · exact .inr ⟨fun ha => hnot (hK₁.begun ha), hspoiled⟩ }

end Invariant

/-! ## §2. A call, and what is left of it when its scope is open -/

theorem Moment.Part.eq_or_inside {ctx : Context} {n : Nat} {t : Task} {w : World} {b : Moment}
    (h : Part ctx b ⟨n + 1, t, w⟩) : b = ⟨n + 1, t, w⟩ ∨
      ∃ t' w', (Engine.ofDepth ctx n).Consults (fun en => en.step ctx t) w t' w' ∧
        Part ctx b ⟨n, t', w'⟩ := by
  cases h with
  | self => exact .inl rfl
  | task ht hpart => exact .inr ⟨_, _, ht, hpart⟩

namespace Engine

variable {ctx : Context} {c : Closure} {args : List Value} {inner : Scope} {w w₁ : World}

/-- What is left of a call when its scope is open. -/
def callRest (c : Closure) (args : List Value) (inner : Scope) (en : Engine) : Eval Value :=
  Eval.bindParams c.params args inner c.label >>= fun _ =>
    Eval.body c.id >>= fun e => en.eval e inner

theorem step_closure (hcall : Eval.callScope c w = .ok inner w₁) (en : Engine) :
    en.step ctx (.apply (.closure c) args) w = callRest c args inner en w₁ :=
  Eval.bind_of_ok hcall

theorem follows_callRest (c : Closure) (args : List Value) (inner : Scope) :
    Eval.Follows World.Still World.Grows (callRest c args inner) := by
  have hcalm : Eval.Calmly (callRest c args inner) :=
    (Eval.quiet_bindParams c.params args inner c.label).before World.allows_calm fun _ =>
      (Eval.quiet_body c.id).before World.allows_calm fun e => Eval.follows_eval e inner
  exact hcalm.grows

/-- A call consults about what the rest of it does once its scope is open. -/
theorem consults_callRest (hcall : Eval.callScope c w = .ok inner w₁) {en : Engine} {t : Task}
    {v : World} : en.Consults (callRest c args inner) w₁ t v ↔
      en.Consults (fun en => en.step ctx (.apply (.closure c) args)) w t v := by
  refine exists_congr fun en' => and_congr_right fun _ => not_congr ?_
  show _ ↔ en'.step ctx _ w = en.step ctx _ w
  rw [step_closure hcall, step_closure hcall]

end Engine

namespace Invariant

variable {ctx : Context} {B : Set Moment} {K : Ledger} {n : Nat} {c : Closure} {args : List Value}
  {w : World}

/-- Once the frames are open the call is among the entries, and what is left of it keeps the ledger. -/
theorem keeps_callRest (hclosed : Moment.Closed ctx B) {table : List (String × SlotId)}
    (hmem : ⟨n + 1, .apply (.closure c) args, w⟩ ∈ B) (htable : c.captures = .table table)
    (hw : (ledger ctx ∅ B).Holds K w) (ht : (ledger ctx ∅ B).Ready K (.apply (.closure c) args)) :
    ∃ K' inner, K.Le K' ∧ Eval.callScope c w = .ok inner K'.world ∧
      (ledger ctx {⟨n + 1, .apply (.closure c) args, w⟩} B).Keeps ctx B n K'
        (fun K' v => (ledger ctx ∅ B).Good K' v) (Engine.callRest c args inner) K'.world := by
  have hnode : Ledger.Node ctx K (.closure c) := Value.every_closure.1 ht.1
  obtain ⟨K₁, inner, hcall, hle, hentry, ⟨-, hB, hsound⟩, hactive⟩ :=
    opened_ledger hmem hw hnode htable
  refine ⟨K₁, inner, hle, hcall, Engine.follows_callRest c args inner, ?_, ?_⟩
  · intro t v hconsults
    rw [Engine.consults_callRest hcall] at hconsults
    exact hclosed hmem hconsults
  · intro en en' hen
    have hargs : ∀ v ∈ args, v.Every (K₁.Node ctx) :=
      fun v hv => (ht.2 v hv).mono fun _ hu => Ledger.Node.later (K := K) hu hle
    exact hen.callBody (hnode.later hle) hargs ⟨hactive.knows, hactive.works, hactive.inside⟩ _
      ⟨rfl, ⟨Set.singleton_subset_iff.2 hentry, hB.2⟩, hsound⟩

/-- A task that ends well with certain entries ends with a ledger that has them. -/
theorem ledger_after (hclosed : Moment.Closed ctx B) {A : Set Moment}
    {P : Ledger → Value → Prop} {x : Eval Value} (h : (ledger ctx A B).Ends K P (x w)) :
    ∃ K', (ledger ctx A B).Holds K' (x.after w) := by
  obtain ⟨K', -, hw'⟩ := h.left (kept_ledger hclosed).toKeptOutside
  exact ⟨K', hw'⟩

/-- At every moment of a run that begins with certain entries, all parts begin and end with them. -/
theorem ledger_part {A : Set Moment} (hclosed : Moment.Closed ctx B) {a b : Moment}
    (hab : Moment.Part ctx a b) (hb : b ∈ B) (hw : (ledger ctx A B).Holds K b.world)
    (ht : (ledger ctx A B).Ready K b.task) :
    (∃ K', (ledger ctx A B).Holds K' a.world) ∧ ∃ K', (ledger ctx A B).Holds K' (a.after ctx) := by
  have hI := kept_ledger (A := A) hclosed
  obtain ⟨K', hw', ht'⟩ := hI.part (fun hlax => hlax) hab hb hw ht
  exact ⟨⟨K', hw'⟩, ledger_after hclosed (hI.ends (hclosed.part hab hb) hw' ht')⟩

end Invariant

/-! ## §3. Ends at which a call is noted -/

namespace Invariant

variable {ctx : Context} {a b d : Moment} {B : Set Moment} {K K' : Ledger} {w : World}

theorem holds_entry (hw : (ledger ctx ∅ B).Holds K w) (ha : a ∈ K.begun) :
    (ledger ctx {a} B).Holds K w :=
  ⟨hw.1, ⟨Set.singleton_subset_iff.2 ha, hw.2.1.2⟩, hw.2.2⟩

theorem entry_of_holds (hw : (ledger ctx {a} B).Holds K w) :
    (ledger ctx ∅ B).Holds K w ∧ a ∈ K.begun :=
  ⟨⟨hw.1, ⟨Set.empty_subset _, hw.2.1.2⟩, hw.2.2⟩, Set.singleton_subset_iff.1 hw.2.1.1⟩

theorem ready_entry {t : Task} (h : (ledger ctx ∅ B).Ready K t) :
    (ledger ctx {a} B).Ready K t := by
  cases t with
  | eval e scope => exact ⟨h.1, h.2.knows, h.2.works, h.2.inside⟩
  | apply f args => exact h

/-- What ends well with the awaited moment among the entries ends apart. -/
theorem endsApart_of_entry {P : Ledger → Value → Prop} {r : EStateM.Result Halt World Value}
    (hle : K.Le K') (h : (ledger ctx {a} B).Ends K' P r) : (awaiting ctx a B).EndsApart K P r := by
  cases r with
  | ok v w =>
    obtain ⟨K'', hK, hw, hP⟩ := h
    exact ⟨K'', hle.trans hK, (entry_of_holds hw).1, (entry_of_holds hw).2, hP⟩
  | error e w =>
    obtain ⟨K'', -, hw⟩ := h
    exact ⟨K'', (entry_of_holds hw).2, .inl ⟨K'', .refl _, (entry_of_holds hw).1⟩⟩

/-- And what ends apart ends with a ledger that has the moment among its entries. -/
theorem entry_of_endsApart {P : Ledger → Value → Prop} {x : Eval Value}
    (h : (awaiting ctx a B).EndsApart K P (x w)) :
    ∃ K', (ledger ctx {a} B).Holds K' (x.after w) := by
  unfold Eval.after
  cases hx : x w with
  | ok v w' =>
    rw [hx] at h
    obtain ⟨K', -, hw, ha, -⟩ := h
    exact ⟨K', holds_entry hw ha⟩
  | error e w' =>
    rw [hx] at h
    obtain ⟨K', ha, ⟨K'', hK, hw⟩ | ⟨hnot, -⟩⟩ := h
    · exact ⟨K'', holds_entry hw (hK.begun ha)⟩
    · exact absurd ha hnot

theorem spoils_awaiting (ctx : Context) (a : Moment) (B : Set Moment) :
    (awaiting ctx a B).Spoils Store.Spoiled where
  exists_spoiled := Store.exists_spoiled
  left hnot hspoiled := .inr ⟨hnot, hspoiled⟩
  not_left := by
    rintro K w ha hspoiled (⟨K', -, rfl, -, hsound⟩ | ⟨hnot, -⟩)
    · exact hsound.not_spoiled hspoiled
    · exact hnot ha

/-- A moment that has a call with captured slots among its parts ends with the call noted. -/
theorem endsApart_of_part (hclosed : Moment.Closed ctx B) {c : Closure}
    {table : List (String × SlotId)} {f : FrameId} (hopens : a.OpensTable c table f)
    (hab : Moment.Part ctx a b) (hb : b ∈ B) (hw : (ledger ctx ∅ B).Holds K b.world)
    (ht : (ledger ctx ∅ B).Ready K b.task) :
    (awaiting ctx a B).EndsApart K (fun K' v => (ledger ctx ∅ B).Good K' v) (b.result ctx) := by
  induction hab generalizing K with
  | self =>
    cases hopens with
    | @call n c args w table htable =>
      obtain ⟨K', inner, hle, hcall, hx⟩ := keeps_callRest hclosed hb htable hw ht
      refine endsApart_of_entry hle ?_
      show (ledger ctx _ B).Ends K' _ ((Engine.ofDepth ctx (n + 1)).perform _ w)
      rw [Engine.perform_ofDepth_succ, Engine.step_closure hcall]
      exact hx.ends ((kept_ledger hclosed).engines n)
  | @task n t t' w w' a hconsults hpart ih =>
    have hI := kept_awaiting (a := a) hclosed
    obtain ⟨l, hl⟩ := Engine.exists_trail (Engine.follows_step ctx t) (Engine.ofDepth ctx n) w
    show (awaiting ctx a B).EndsApart K _ ((Engine.ofDepth ctx (n + 1)).perform t w)
    rw [Engine.perform_ofDepth_succ]
    refine hI.ends_apart id (hI.keeps_step hb hw (ready_awaiting.2 ht)) hl (hl.mem_iff.2 hconsults) ?_
    intro K' hw' ht'
    exact ih hopens (hclosed hb hconsults) hw' (ready_awaiting.1 ht')

end Invariant

/-! ## §4. States in which a call is noted -/

/-- In a state of a run a call is still to come, or it is noted in a ledger. -/
def Moment.Noted (ctx : Context) (B : Set Moment) (a : Moment) (w : World) : Prop :=
  w.Grows a.world ∨ ∃ K, (ledger ctx {a} B).Holds K w

namespace Invariant

variable {ctx : Context} {a b d : Moment} {B : Set Moment} {K : Ledger} {w : World} {n : Nat}
  {c : Closure} {table : List (String × SlotId)} {f : FrameId}

/-- A computation of the run asks for a task with the call among its parts. If the call is noted, as it
should be, throughout this task, it is so throughout all others. -/
theorem noted_among (hclosed : Moment.Closed ctx B) (hopens : a.OpensTable c table f)
    {P : Ledger → Value → Prop} {x : Engine → Eval Value}
    (hx : (ledger ctx ∅ B).Keeps ctx B n K P x w) (hx' : (awaiting ctx a B).Keeps ctx B n K P x w)
    {l : List (Task × World)} (hl : (Engine.ofDepth ctx n).Trail x w l) {p : Task × World}
    (hp : p ∈ l) (hap : Moment.Part ctx a ⟨n, p.1, p.2⟩)
    (hinside : ∀ {K : Ledger} {d : Moment}, (ledger ctx ∅ B).Holds K p.2 →
      (ledger ctx ∅ B).Ready K p.1 → Moment.Part ctx d ⟨n, p.1, p.2⟩ →
        a.Noted ctx B d.world ∧ a.Noted ctx B (d.after ctx))
    (hd : d ∈ Moment.among ctx n l) : a.Noted ctx B d.world ∧ a.Noted ctx B (d.after ctx) := by
  obtain ⟨q, hq, hdq⟩ := hd
  have hask : ∀ q ∈ l, (Engine.ofDepth ctx n).Consults x w q.1 q.2 := fun q hq => hl.mem_iff.1 hq
  obtain ⟨l₁, l₂, rfl, hfirst⟩ := List.eq_append_cons_of_mem hp
  by_cases hbefore : q ∈ p :: l₁
  · rcases List.mem_cons.1 hbefore with rfl | hq₁
    · obtain ⟨K', hw', ht'⟩ := (kept_ledger hclosed).consulted (fun hlax => hlax) hx (hask q hq)
      exact hinside hw' ht' hdq
    · -- the task has ended before the call begins
      have hend : (d.after ctx).Grows a.world :=
        hdq.after_grows.trans ((hl.grows_to (Engine.perform_grows ctx n) hq₁).trans hap.grows)
      exact ⟨.inl (d.grows_after.trans hend), .inl hend⟩
  · have hlater : q ∈ l₂ := by
      rcases List.mem_append.1 hq with hq | hq
      · exact absurd (List.mem_cons_of_mem p hq) hbefore
      · rcases List.mem_cons.1 hq with rfl | hq
        · exact absurd List.mem_cons_self hbefore
        · exact hq
    obtain ⟨K', hw', ht', ha'⟩ := (kept_awaiting hclosed).begins_apart id
      (spoils_awaiting ctx a B) hx' hl hlater hbefore fun hw ht =>
        endsApart_of_part hclosed hopens hap (hx.answers (hask p hp)) hw (ready_awaiting.1 ht)
    obtain ⟨hbegin, hend⟩ := ledger_part hclosed hdq (hx.answers (hask q hq))
      (holds_entry hw' ha') (ready_entry (ready_awaiting.1 ht'))
    exact ⟨.inr hbegin, .inr hend⟩

/-- At a moment that has a call with captured slots among its parts, all parts begin and end with the
call noted or still to come. -/
theorem noted_part (hclosed : Moment.Closed ctx B) (hopens : a.OpensTable c table f)
    (hab : Moment.Part ctx a b) (hb : b ∈ B) (hw : (ledger ctx ∅ B).Holds K b.world)
    (ht : (ledger ctx ∅ B).Ready K b.task) (hdb : Moment.Part ctx d b) :
    a.Noted ctx B d.world ∧ a.Noted ctx B (d.after ctx) := by
  -- the moment itself begins before the call, and ends with it noted
  have hself : a.Noted ctx B b.world ∧ a.Noted ctx B (b.after ctx) :=
    ⟨.inl hab.grows, .inr (entry_of_endsApart (endsApart_of_part hclosed hopens hab hb hw ht))⟩
  induction hab generalizing K d with
  | self =>
    cases hopens with
    | @call n c args w table htable =>
      rcases hdb.eq_or_inside with rfl | ⟨t, v, hconsults, hpart⟩
      · exact hself
      · obtain ⟨K', inner, -, hcall, hx⟩ := keeps_callRest hclosed hb htable hw ht
        obtain ⟨K₂, hw₂, ht₂⟩ := (kept_ledger hclosed).consulted (fun hlax => hlax) hx
          ((Engine.consults_callRest hcall).2 hconsults)
        obtain ⟨hbegin, hend⟩ := ledger_part hclosed hpart (hclosed hb hconsults) hw₂ ht₂
        exact ⟨.inr hbegin, .inr hend⟩
  | @task n t t' w w' a hconsults hpart ih =>
    rcases hdb.eq_or_inside with rfl | ⟨t₂, w₂, hconsults₂, hd⟩
    · exact hself
    · obtain ⟨l, hl⟩ := Engine.exists_trail (Engine.follows_step ctx t) (Engine.ofDepth ctx n) w
      refine noted_among hclosed hopens ((kept_ledger hclosed).keeps_step hb hw ht)
        ((kept_awaiting hclosed).keeps_step hb hw (ready_awaiting.2 ht)) hl
        (hl.mem_iff.2 hconsults) hpart ?_ ⟨_, hl.mem_iff.2 hconsults₂, hd⟩
      intro K' d' hw' ht' hd'
      have hmem := hclosed hb hconsults
      exact ih hopens hmem hw' ht' hd' ⟨.inl hpart.grows,
        .inr (entry_of_endsApart (endsApart_of_part hclosed hopens hpart hmem hw' ht'))⟩

end Invariant

/-! ## §5. Sessions -/

namespace Session

variable {ctx : Context} {s : Session} {past B : Set Moment} {a d : Moment}

/-- From the end of every moment in its past the world of a session has grown. -/
theorem Arose.grows_past (h : s.Arose ctx past) (hd : d ∈ past) :
    (d.after ctx).Grows s.world := by
  induction h with
  | bare depth => exact absurd hd (by simp)
  | @forms s past source forms k l h hread hl ih =>
    rw [h.evalData_world]
    rcases hd with hd | ⟨p, hp, hdp⟩
    · exact (ih hd).trans (hl.grows (Engine.perform_grows ctx s.depth))
    · exact hdp.after_grows.trans (hl.grows_end (Engine.perform_grows ctx s.depth) hp)
  | output _ ih => exact (ih hd).trans (World.grows_of_store (.refl _) rfl)

/-- A call in the past of a session that has opened a frame for captured slots is noted in the state
of the session, and it was noted or still to come whenever a moment in the past began or ended. -/
theorem Arose.noted (h : s.Arose ctx past) (hclosed : Moment.Closed ctx B) (hpast : past ⊆ B)
    {c : Closure} {table : List (String × SlotId)} {f : FrameId} (hopens : a.OpensTable c table f)
    (ha : a ∈ past) : (∃ K, (ledger ctx {a} B).Holds K s.world) ∧
      ∀ d ∈ past, a.Noted ctx B d.world ∧ a.Noted ctx B (d.after ctx) := by
  have hI := fun A => Invariant.kept_ledger (A := A) hclosed
  have hI' := Invariant.kept_awaiting (a := a) hclosed
  induction h with
  | bare depth => exact absurd ha (by simp)
  | @forms s past source forms k l h hread hl ih =>
    obtain ⟨hold, hnew⟩ := Set.union_subset_iff.1 hpast
    have hdata : ∀ form ∈ forms.take k, Datum form :=
      fun form hform => readData_datum hread form (List.mem_of_mem_take hform)
    rw [h.evalData_world]
    rcases ha with ha | ⟨p, hp, hap⟩
    · -- the call is noted before the forms, and the ledger is kept
      obtain ⟨⟨K, hw⟩, hnoted⟩ := ih hold ha
      have hx := (hI {a}).keeps_forms hw hw.2.2.root hdata hl hnew
      refine ⟨Invariant.ledger_after hclosed (hx.ends ((hI {a}).engines s.depth)), ?_⟩
      rintro d (hd | ⟨q, hq, hdq⟩)
      · exact hnoted d hd
      · obtain ⟨K', hw', ht'⟩ := (hI {a}).consulted (fun hlax => hlax) hx (hl.mem_iff.1 hq)
        obtain ⟨hbegin, hend⟩ :=
          Invariant.ledger_part hclosed hdq (hnew ⟨q, hq, .self _⟩) hw' ht'
        exact ⟨.inr hbegin, .inr hend⟩
    · -- it comes in one of the tasks that the forms ask for
      obtain ⟨⟨K, hw, hroot⟩, -⟩ :=
        (hI ∅).arose (Invariant.starts_ledger hclosed) (fun hlax => hlax) h hold
      have hx := (hI ∅).keeps_forms hw hroot hdata hl hnew
      have hx' := hI'.keeps_forms hw hroot hdata hl hnew
      have hmem := hnew ⟨p, hp, .self _⟩
      refine ⟨Invariant.entry_of_endsApart (hI'.ends_apart id hx' hl hp fun hw ht =>
        Invariant.endsApart_of_part hclosed hopens hap hmem hw (Invariant.ready_awaiting.1 ht)), ?_⟩
      rintro d (hd | hd)
      · have hend : (d.after ctx).Grows a.world := (h.grows_past hd).trans
          ((hl.grows_from (Engine.perform_grows ctx s.depth) hp).trans hap.grows)
        exact ⟨.inl (d.grows_after.trans hend), .inl hend⟩
      · exact Invariant.noted_among hclosed hopens hx hx' hl hp hap
          (fun hw ht => Invariant.noted_part hclosed hopens hap hmem hw ht) hd
  | output h ih =>
    obtain ⟨⟨K, hw⟩, hnoted⟩ := ih hpast ha
    obtain ⟨K', -, hw', -⟩ := (hI {a}).output "" hw
    exact ⟨⟨K', hw'⟩, hnoted⟩

end Session

end TinyLisp
