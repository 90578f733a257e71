import Ats.Core.Discards
import Ats.Core.Exchange
import Ats.Core.View

/-!
# ViewDequeue: `bus_dequeue` on the abstract bus

A call on a bus is one step of its abstract bus, and shows on another bus
only as events that arrive there; as long as the market block does not write
the timestamp of an event that still waits somewhere.
-/

namespace Ats

open World

variable {w w' w1 w2 v : World} {c d : CtxId} {k : QueueCategory} {j : ClockType}
  {q p : QueueId} {t : EventId} {e : EventId} {s : StepKind} {now : Nat} {o : Option EventId}

/-! ## What no step but saving changes -/

theorem seen_eventRef (w : World) (e : EventId) : (eventRef w e).seen = w.seen := by
  funext a
  have htype : ((eventRef w e).events a).eventType = (w.events a).eventType :=
    w.updEvent_proj e a Event.eventType (fun _ => rfl)
  have hflag : ((eventRef w e).events a).eventFlag = (w.events a).eventFlag :=
    w.updEvent_proj e a Event.eventFlag (fun _ => rfl)
  rw [seen, seen, htype, hflag, eventRef_timestamp]

/-- **Only saving writes an event** that a bus can see. -/
theorem BusStep.seen (hs : BusStep s w w') (hk : ∀ d, s ≠ .save d) : w'.seen = w.seen := by
  have same : ∀ {u u' : World}, u'.events = u.events → u'.seen = u.seen :=
    fun he => funext fun a => seen_congr (by rw [he])
  cases hs with
  | add _ _ hadd => exact same hadd.frame.events
  | reenter _ hadd => exact same hadd.frame.events
  | push hpush => exact same hpush.events
  | drop hpop _ _ _ => exact same hpop.frame.events
  | save _ _ _ => exact absurd rfl (hk _)
  | give hpop _ => exact same hpop.frame.events
  | fire hpop => exact same hpop.frame.events
  | release hun =>
      obtain ⟨_, _, _, rfl⟩ := busUnsave_eq hun
      rfl
  | forward _ _ hpush => exact (same hpush.events).trans (seen_eventRef w _)
  | overrun _ _ _ => exact seen_eventRef w _

theorem SameStamps.of_seen (h : w'.seen = w.seen) : SameStamps w w' :=
  fun e => congrArg Seen.timestamp (congrFun h e)

/-- A run that saves nothing leaves events and owners alone, and the heaps in
order. -/
theorem BusRun.ranked {S : Set StepKind} (hr : BusRun S w w') (hS : ∀ d, .save d ∉ S)
    (hadd : ∀ d, .add d ∉ S) (h : Ranked w) :
    Ranked w' ∧ w'.seen = w.seen ∧ ∀ d q, w'.Owns d q ↔ w.Owns d q := by
  refine hr.keeps (P := fun v => Ranked v ∧ v.seen = w.seen ∧ ∀ d q, v.Owns d q ↔ w.Owns d q)
    (fun s hm u u' hu _ hs hp => ?_) ⟨h, rfl, fun _ _ => Iff.rfl⟩
  have hseen := hs.seen fun d hc => hS d (hc ▸ hm)
  have hqueues := hs.queues hu
  refine ⟨hs.ranked hu (SameStamps.of_seen hseen) hp.1, hseen.trans hp.2.1, fun d q => ?_⟩
  rw [← hp.2.2, Owns, Owns, hqueues.1, hqueues.2 (fun d hc => hadd d (hc ▸ hm))]

/-! ## What shows on another bus -/

theorem World.view_note (w : World) (a : Act) (d : CtxId) : (w.note a).view d = w.view d := rfl

/-- A change of context `c` is not seen on bus `d`, nor one of a field that no
bus reads. -/
theorem World.view_updCtx (w : World) (c d : CtxId) {f : Ctx → Ctx}
    (hf : d = c → SameCtx (w.ctxs c) (f (w.ctxs c))
      ∧ (f (w.ctxs c)).queueHeap = (w.ctxs c).queueHeap
      ∧ (f (w.ctxs c)).timerHeap = (w.ctxs c).timerHeap) :
    (w.updCtx c f).view d = w.view d := by
  by_cases hd : d = c
  · subst hd
    obtain ⟨hsame, hqueue, htimer⟩ := hf rfl
    have hx : (w.updCtx d f).ctxs d = f (w.ctxs d) := by simp [World.updCtx]
    refine view_congr (by rw [hx]; exact hsame) (fun _ => Iff.rfl) (fun _ _ => rfl)
      (fun _ _ => rfl) (fun k q => ?_) (fun j t => ?_) (fun _ _ _ => rfl)
    · rw [World.queueNodes, World.queueMem, hx, hqueue]
      exact Iff.rfl
    · rw [World.timerNodes, World.timerMem, hx, htimer]
      exact Iff.rfl
  · have hx : (w.updCtx c f).ctxs d = w.ctxs d := w.updCtx_ctxs_ne hd f
    refine view_congr (by rw [hx]; exact ⟨rfl, rfl, rfl, rfl, rfl, rfl, rfl⟩) (fun _ => Iff.rfl)
      (fun _ _ => rfl) (fun _ _ => rfl) (fun k q => ?_) (fun j t => ?_) (fun _ _ _ => rfl)
    · rw [World.queueNodes, World.queueMem, hx]
      exact Iff.rfl
    · rw [World.timerNodes, World.timerMem, hx]
      exact Iff.rfl

/-- Events that look the same are not seen to change. -/
theorem World.view_events (he : w' = { w with events := w'.events })
    (hqueued : ∀ q, w.Owns d q → ∀ a ∈ w.contents q, w'.seen a = w.seen a)
    (hsaved : ∀ a, (w.ctxs d).savedEvent = some a → w'.seen a = w.seen a) :
    w'.view d = w.view d := by
  refine view_congr (by rw [he]; exact ⟨rfl, rfl, rfl, rfl, rfl, rfl, rfl⟩) (fun q => ?_)
    (fun q hq => queueView_congr (by rw [he]) (hqueued q hq)) hsaved (fun k q => ?_)
    (fun j t => ?_) (fun j t _ => by rw [he])
  · rw [he]
    exact Iff.rfl
  · rw [he]
    exact Iff.rfl
  · rw [he]
    exact Iff.rfl

theorem World.view_eventRef (w : World) (e : EventId) (d : CtxId) :
    (eventRef w e).view d = w.view d :=
  World.view_events rfl (fun _ _ a _ => congrFun (seen_eventRef w e) a)
    (fun a _ => congrFun (seen_eventRef w e) a)

/-- A pipe of another bus is served. -/
theorem PipePop.view_ne (h : PipePop w w' c k q e) (hd : d ≠ c) : w'.view d = w.view d := by
  have hf := h.frame
  refine view_congr (by rw [h.ctxs_ne d hd]; exact ⟨rfl, rfl, rfl, rfl, rfl, rfl, rfl⟩)
    (fun p => h.owns p) (fun p hp => queueView_congr (h.others p ?_) fun a _ =>
      seen_congr (by rw [hf.events])) (fun a _ => seen_congr (by rw [hf.events]))
    (fun i p => by rw [h.nodes_ne d i (Or.inl hd)])
    (fun i u => by rw [hf.timersStand.timerNodes]) (fun _ _ _ => by rw [hf.reminders])
  rintro rfl
  exact hd (Option.some.inj (hp.2.symm.trans h.linkable.ctx))

/-- A timer of another bus fires. -/
theorem TimerPop.view_ne (h : TimerPop w w' c j t) (hi : TimerInv w) (hd : d ≠ c) :
    w'.view d = w.view d := by
  have hf := h.frame
  refine view_congr (by rw [h.ctxs_ne d hd]; exact ⟨rfl, rfl, rfl, rfl, rfl, rfl, rfl⟩)
    (fun p => by rw [Owns, Owns, hf.nextQueue, hf.queues])
    (fun p _ => queueView_congr (by rw [hf.queues]) fun a _ => seen_congr (by rw [hf.events]))
    (fun a _ => seen_congr (by rw [hf.events]))
    (fun i p => by rw [hf.sameQueues.queueNodes])
    (fun i u => by rw [h.nodes_ne d i (Or.inl hd)]) (fun i u hu => h.others u ?_)
  rintro rfl
  exact hi.notMem_other h.armed.1 h.armed.2 (Or.inl hd) hu

/-- A pending queue of another bus goes into its heap. -/
theorem BusStep.view_reenter_ne (hs : BusStep (.reenter c) w w') (hi : BusInv w) (hd : d ≠ c) :
    w'.view d = w.view d := by
  cases hs with
  | reenter hpend hadd =>
      rename_i q rest
      obtain ⟨hl, _⟩ := hi.queue.pending c q (by rw [hpend]; exact List.mem_cons_self)
      obtain ⟨_, hnodes, _⟩ := hi.queue.unpend hpend
      have hf := hadd.frame
      have hx : w'.ctxs d = w.ctxs d := by
        rw [hadd.ctxs_ne d hd]
        simp [World.updCtx, hd]
      have hunpend : TimersStand w (w.updCtx c fun x => { x with pendingQueue := rest }) :=
        TimersStand.updCtx w c fun _ => rfl
      have hst := hunpend.trans
        ⟨hf.timersStand.reminders, hf.timersStand.node, hf.timersStand.heap⟩
      have hne : ∀ p, w.Owns d p → p ≠ q := by
        rintro p hp rfl
        exact hd (Option.some.inj (hp.2.symm.trans hl.ctx))
      refine view_congr (by rw [hx]; exact ⟨rfl, rfl, rfl, rfl, rfl, rfl, rfl⟩) (fun p => ?_)
        (fun p hp => queueView_congr (hadd.others p (hne p hp)) fun a _ =>
          seen_congr (by rw [hf.events]; rfl))
        (fun a _ => seen_congr (by rw [hf.events]; rfl))
        (fun i p => by rw [hadd.nodes_ne d i (Or.inl hd), hnodes])
        (fun i u => by rw [hst.timerNodes]) (fun _ _ _ => by rw [hst.reminders])
      rw [Owns, Owns, show w'.nextQueue = w.nextQueue from hf.nextQueue]
      by_cases hp : p = q
      · rw [hp, hadd.ctx, hl.ctx]
      · rw [hadd.others p hp]
        exact Iff.rfl

/-- **An event is appended**: it arrives on the bus that owns the queue. -/
theorem QueuePushed.view (h : QueuePushed w w' q e) (d : CtxId) :
    w'.view d = (w.view d).push q (w.seen e) ∧ w'.seen = w.seen
      ∧ ∀ d p, w'.Owns d p ↔ w.Owns d p := by
  have hseen : w'.seen = w.seen := funext fun a => seen_congr (by rw [h.events])
  have howns : ∀ d p, w'.Owns d p ↔ w.Owns d p := fun d p => by
    rw [Owns, Owns, h.nextQueue, h.queue_ctx]
  refine ⟨?_, hseen, howns⟩
  obtain ⟨u, ha, hu⟩ := h.append
  have hqs : w'.queues = u.queues := by rw [hu]
  have hother : ∀ p, p ≠ q → w'.queueView p = w.queueView p := fun p hp =>
    queueView_congr (by rw [hqs, ha.others p hp]) fun a _ => congrFun hseen a
  rw [BusView.push]
  by_cases hown : w.Owns d q
  · simp only [view_queue hown]
    have hself : w'.queueView q = { w.queueView q with
        contents := (w.queueView q).contents ++ [w.seen e] } := by
      have hcat : (w'.queues q).category = (w.queues q).category := by rw [hqs, ha.category]
      have hcap : (w'.queues q).spsc.capacity = (w.queues q).spsc.capacity := by
        rw [hqs, ha.capacity]
      simp only [queueView, hseen, hcat, hcap, h.startId, h.contents, List.map_append,
        List.map_cons, List.map_nil]
    apply BusView.ext
    case mode => exact (congrArg Ctx.mode (h.ctxs d)).trans rfl
    case time => exact (congrArg Ctx.time (h.ctxs d)).trans rfl
    case counter => exact (congrArg Ctx.counter (h.ctxs d)).trans rfl
    case pendingQueue =>
      show (w'.ctxs d).pendingQueue = if (w.contents q).map w.seen = [] then _ else _
      rw [h.ctxs d]
      simp only [hown.2, and_true, List.map_eq_nil_iff]
      rfl
    case saved =>
      show (w'.ctxs d).savedEvent.map w'.seen = _
      rw [h.ctxs d, hseen]
      rfl
    case attached =>
      show attachedQueues w' d = attachedQueues w d
      rw [attachedQueues, h.ctxs d, attachedQueues]
    case queue =>
      funext p
      dsimp only
      by_cases hp : p = q
      · subst hp
        rw [Function.update_self, view_queue ((howns d p).mpr hown), hself]
      · rw [Function.update_of_ne hp]
        by_cases ho : w.Owns d p
        · rw [view_queue ho, view_queue ((howns d p).mpr ho), hother p hp]
        · rw [view_queue_none ho, view_queue_none fun hc => ho ((howns d p).mp hc)]
    case linked =>
      ext i p
      show p ∈ w'.queueNodes d i ↔ p ∈ w.queueNodes d i
      rw [h.queueNodes]
    case timer =>
      funext i u
      show (if u ∈ w'.timerNodes d i then _ else _) = _
      rw [h.timersStand.timerNodes, h.timersStand.reminders]
      rfl
  · simp only [view_queue_none hown]
    -- the queue is another bus's: this one sees nothing
    have hctx : ¬ (w.queues q).ctx = some d := fun hc => hown ⟨ha.lt, hc⟩
    have hx : w'.ctxs d = w.ctxs d := by
      rw [h.ctxs d]
      simp [hctx]
    refine view_congr (by rw [hx]; exact ⟨rfl, rfl, rfl, rfl, rfl, rfl, rfl⟩) (howns d)
      (fun p hp => hother p ?_) (fun a _ => congrFun hseen a)
      (fun i p => by rw [h.queueNodes]) (fun i u => by rw [h.timersStand.timerNodes])
      (fun _ _ _ => by rw [h.timersStand.reminders])
    rintro rfl
    exact hown hp

/-! ## The saved event -/

/-- The look-ahead of the bus itself is written. -/
theorem World.view_saved (w : World) (c : CtxId) (x : Option EventId) (y : Option QueueId) :
    (w.updCtx c fun z => { z with savedEvent := x, savedFrom := y }).view c
      = { w.view c with saved := x.map w.seen } := by
  have hx : (w.updCtx c fun z => { z with savedEvent := x, savedFrom := y }).ctxs c
      = { w.ctxs c with savedEvent := x, savedFrom := y } := by simp [World.updCtx]
  simp only [World.view, attachedQueues, World.queueNodes, World.queueMem, World.timerNodes,
    World.timerMem, hx]
  rfl

/-- **The saved event is taken out.** -/
theorem busUnsave_view (h : busUnsave w c = some (w', e)) :
    w'.view c = { w.view c with saved := none } ∧ (w.view c).saved = some (w.seen e)
      ∧ ∀ d, d ≠ c → w'.view d = w.view d := by
  have hs := busUnsave_savedEvent h
  obtain ⟨q, _, _, rfl⟩ := busUnsave_eq h
  refine ⟨World.view_saved w c none none, ?_, fun d hd => ?_⟩
  · show (w.ctxs c).savedEvent.map w.seen = _
    rw [hs]
    rfl
  · rw [World.view_note]
    exact w.view_updCtx c d fun hc => absurd hc hd

/-- **Nothing that still waits was written**: neither an event in a queue, nor
one that another bus has saved. -/
structure Unwritten (w w' : World) (c : CtxId) : Prop where
  queued : ∀ d q, w.Owns d q → ∀ a ∈ w'.contents q, w'.seen a = w.seen a
  saved : ∀ d, d ≠ c → ∀ a, (w.ctxs d).savedEvent = some a → w'.seen a = w.seen a

/-- **What the market block leaves** on the bus and on the others. -/
structure Looked (w w' : World) (c : CtxId) : Prop where
  looks : BusView.Looks (w.view c) (w'.view c)
  ranked : Ranked w'
  others : ∀ d, d ≠ c → w'.view d = w.view d

/-- An event is saved as the abstract bus saves it. -/
theorem PipePop.looked (hpop : PipePop w w1 c .market q e) (hi : QueueInv w) (hi1 : QueueInv w1)
    (hr : Ranked w) (hsaved : (w.ctxs c).savedEvent = none)
    (hkeep : ¬ (w.view c).Skips (w.seen e))
    (hw' : w' = busSave (w1.updEvent e fun x =>
      { x with timestamp := ((w.view c).restamp (w.seen e)).timestamp }) c q e)
    (hleft : Unwritten w w' c) : Looked w w' c := by
  obtain ⟨hview, hhead⟩ := hpop.view hi
  have hseen1 : w1.seen = w.seen := funext fun a => seen_congr (by rw [hpop.frame.events])
  generalize hu : (w1.updEvent e fun x =>
      { x with timestamp := ((w.view c).restamp (w.seen e)).timestamp }) = u at hw'
  have hrest : u = { w1 with events := u.events } := by rw [← hu]; rfl
  have hcont : ∀ p, w'.contents p = w1.contents p := fun p => by rw [hw', ← hu]; rfl
  have hseen' : w'.seen = u.seen := by rw [hw']; rfl
  have hqueued : ∀ d p, w1.Owns d p → ∀ a ∈ w1.contents p, u.seen a = w1.seen a := by
    intro d p hp a ha
    rw [← hseen', hseen1]
    exact hleft.queued d p ((hpop.owns p).mp hp) a (by rw [hcont]; exact ha)
  have hsaved1 : ∀ d, (w1.ctxs d).savedEvent = (w.ctxs d).savedEvent := hpop.frame.savedEvent
  refine ⟨?_, ?_, fun d hd => ?_⟩
  · have hown : u.view c = w1.view c := World.view_events hrest (hqueued c)
      (fun a ha => by rw [hsaved1, hsaved] at ha; cases ha)
    have hself : u.seen e = (w.view c).restamp (w.seen e) := by
      have hev : u.events e = { w.events e with
          timestamp := ((w.view c).restamp (w.seen e)).timestamp } := by
        rw [← hu, ← hpop.frame.events]
        simp [World.updEvent]
      rw [seen, hev, BusView.restamp]
      split <;> rfl
    have hw : w'.view c = { (w.view c).pop .market q with
        saved := some ((w.view c).restamp (w.seen e)) } := by
      rw [hw', busSave, World.view_saved, hown, hview, Option.map_some, hself]
    rw [hw]
    exact BusView.Looks.save (view_saved_none.mpr hsaved) (hr.first hi hpop.first) hhead hkeep
  · have hr1 : Ranked w1 :=
      ⟨hr.pipes.pop hpop hi, hr.timers.stand hpop.frame.timersStand, hr.ids.pop hpop hi⟩
    have hq : SameQueues w1 w' := by
      rw [hw', ← hu]
      exact busSave_sameQueues _ _ _ _ _
    have hst : TimersStand w1 w' := by
      rw [hw', ← hu]
      exact ⟨rfl, rfl, fun d => busSave_proj _ c d q e Ctx.timerHeap fun _ _ _ => rfl⟩
    have hid : ∀ p, (w'.queues p).startId = (w1.queues p).startId := fun p => by
      rw [hw', ← hu]
      rfl
    refine ⟨fun d i => ?_, hr1.timers.stand hst, hr1.ids.same hq hid hst fun d => ?_⟩
    · rw [hq.queueNodes]
      refine (hr1.pipes d i).congr fun a ha => ?_
      -- the head of a queue in a heap still waits, so its key is what it was
      have hl := hi1.linked d i a ha
      rw [queueKey, hcont, hid, queueKey]
      cases hc : w1.contents a with
      | nil => exact absurd hc hl.nonempty
      | cons y ys =>
          have hy := hqueued d a ⟨hl.lt, hl.ctx⟩ y (by rw [hc]; exact List.mem_cons_self)
          rw [← hseen'] at hy
          have hstamp : (w'.events y).timestamp = (w1.events y).timestamp :=
            congrArg Seen.timestamp hy
          rw [List.headD_cons, hstamp]
    · rw [hw', ← hu]
      exact busSave_proj _ c d q e Ctx.counter fun _ _ _ => rfl
  · have hone : u.view d = w1.view d := World.view_events hrest (hqueued d) fun a ha => by
      rw [← hseen', hseen1]
      exact hleft.saved d hd a (by rw [← hsaved1]; exact ha)
    rw [hw', busSave, World.view_updCtx _ c d fun hc => absurd hc hd, hone, hpop.view_ne hd]

/-! ## The market block -/

/-- An event that is kept is saved with the timestamp of the abstract bus. -/
theorem restamp_timestamp (hmode : (w.ctxs c).mode = .simulation) (hkeep : ¬ Skipped w c e) :
    ((w.view c).restamp (w.seen e)).timestamp
      = max (w.events e).timestamp ((w.ctxs c).time .clockLocal) := by
  have hsim : (w.view c).mode = .simulation := hmode
  rw [BusView.restamp]
  split_ifs with hlate
  · exact (Nat.max_eq_right (Nat.le_of_lt hlate.2.2)).symm
  · refine (Nat.max_eq_left (Nat.le_of_not_lt fun hold => ?_)).symm
    exact hlate ⟨hsim, by_contra fun hk => hkeep (Or.inr ⟨hk, hold⟩), hold⟩

/-- A skipped event shows on no other bus. -/
theorem PipePop.skipped_view {b : Bool} (hpop : PipePop w w1 c .market q e)
    (hv : v = (w1.updCtx c fun x => { x with isSimulatorStop := b }).note (.drop q e))
    (d : CtxId) : v.view d = w1.view d ∧ (∀ d p, v.Owns d p ↔ w.Owns d p) := by
  subst hv
  refine ⟨?_, fun d p => ?_⟩
  · rw [World.view_note]
    exact w1.view_updCtx c d fun _ => ⟨⟨rfl, rfl, rfl, rfl, rfl, rfl, rfl⟩, rfl, rfl⟩
  · exact hpop.owns p

/-- **The block at `again:`** is the market block of the abstract bus. -/
theorem BusInv.looked : ∀ (fuel : Nat) {w w' : World}, BusInv w → Ranked w →
    (w.ctxs c).mode = .simulation → Ats.busSimulationMarket fuel w c now = some w' →
    Unwritten w w' c → Looked w w' c := by
  intro fuel
  induction fuel with
  | zero => intro w w' _ _ _ h; cases h
  | succ fuel ih =>
      intro w w' hi hr hmode h hleft
      cases hi.marketRound hmode h with
      | done hgo heq =>
          subst heq
          refine ⟨BusView.Looks.done ?_, hr, fun _ _ => rfl⟩
          rw [hi.queue.linked_empty_iff, hi.queue.pipeIsEmpty_iff]
          exact hgo.imp id fun hs hc => hs (view_saved_none.mp hc)
      | kept hsaved hpop hq1 hno hw' =>
          rename_i w1 p x
          refine hpop.looked hi.queue hq1 hr hsaved (fun hs => hno hs.2) ?_ hleft
          rw [hw', restamp_timestamp hmode hno]
      | skipped hsaved hpop hs hv hstep hiv hb h =>
          -- the event is discarded, and the block is run again
          rename_i w1 v p x b
          obtain ⟨hevents, _, hmodev, hslot, _⟩ := hpop.skipped hv
          have hseenv : v.seen = w.seen := funext fun a => seen_congr (by rw [hevents])
          have hrv : Ranked v := hstep.ranked hi (SameStamps.of_seen hseenv) hr
          have hout := hpop.skipped_view hv
          obtain ⟨hview, hhead⟩ := hpop.view hi.queue
          have hleftv : Unwritten v w' c := by
            refine ⟨fun d q hq a ha => ?_, fun d hd a ha => ?_⟩
            · rw [hseenv]
              exact hleft.queued d q (((hout c).2 d q).mp hq) a ha
            · rw [hseenv]
              exact hleft.saved d hd a (by rw [← hslot]; exact ha)
          have hlook := ih hiv hrv (hmodev.trans hmode) h hleftv
          refine ⟨?_, hlook.ranked, fun d hd => ?_⟩
          · have hrest := hlook.looks
            rw [(hout c).1, hview] at hrest
            exact BusView.Looks.skip (view_saved_none.mpr hsaved) (hr.first hi.queue hpop.first)
              hhead ⟨hmode, hs⟩ hrest
          · rw [hlook.others d hd, (hout d).1, hpop.view_ne hd]

/-- The market block in real time. -/
theorem BusInv.lookedRealtime (hi : BusInv w) (hr : Ranked w)
    (hmode : (w.ctxs c).mode = .realtime) (h : Ats.busRealtimeMarket w c = some w') :
    Looked w w' c := by
  rw [Ats.busRealtimeMarket] at h
  by_cases hgo : ¬ pipeIsEmpty w c .market = true ∧ (w.ctxs c).savedEvent = none
  · obtain ⟨hpipe, hsaved⟩ := hgo
    have hn : w.queueNodes c .market ≠ [] := fun hc =>
      hpipe ((hi.queue.pipeIsEmpty_iff c .market).mpr hc)
    obtain ⟨w1, p, x, hcall, hpop, hq1⟩ := hi.queue.eventPopFormPipe hn
    have hmin : heapMin ((w.ctxs c).queueHeap .market) = some p :=
      (hi.queue.heapMin_eq c .market).trans hpop.first
    rw [if_pos ⟨hpipe, hsaved⟩, hmin] at h
    simp only [hcall, Option.bind_eq_bind, Option.bind_some, Option.some.injEq] at h
    have hreal : ¬ (w.view c).mode = .simulation := fun hc => by
      rw [show (w.view c).mode = .realtime from hmode] at hc
      cases hc
    have hstamp : ((w.view c).restamp (w.seen x)).timestamp = (w1.events x).timestamp := by
      rw [BusView.restamp, if_neg fun hc => hreal hc.1, hpop.frame.events]
      rfl
    have hsame : (w1.updEvent x fun y =>
        { y with timestamp := ((w.view c).restamp (w.seen x)).timestamp }) = w1 := by
      rw [hstamp]
      simp [World.updEvent]
    have hseen : w'.seen = w.seen := by
      rw [← h]
      exact funext fun a => seen_congr (by rw [← hpop.frame.events]; rfl)
    refine hpop.looked hi.queue hq1 hr hsaved (fun hs => hreal hs.1) (by rw [hsame, h]) ?_
    exact ⟨fun _ _ _ a _ => congrFun hseen a, fun _ _ a _ => congrFun hseen a⟩
  · rw [if_neg hgo] at h
    cases h
    refine ⟨BusView.Looks.done ?_, hr, fun _ _ => rfl⟩
    rw [not_and_or, not_not, ← hi.queue.linked_empty_iff] at hgo
    exact hgo.imp id fun hs hc => hs (view_saved_none.mp hc)

/-! ## Forwarding -/

/-- The events that a stretch of the history appended to queues of `d`. -/
def World.arrivals (w : World) (d : CtxId) (acts : List Act) : List BusInput :=
  acts.filterMap fun
    | .push q e => if w.Owns d q then some (.arrive q (w.seen e)) else none
    | _ => none

theorem World.arrivals_append (w : World) (d : CtxId) (as bs : List Act) :
    w.arrivals d (as ++ bs) = w.arrivals d as ++ w.arrivals d bs :=
  List.filterMap_append

theorem World.arrivals_congr (hseen : w'.seen = w.seen)
    (howns : ∀ d q, w'.Owns d q ↔ w.Owns d q) (acts : List Act) :
    w'.arrivals d acts = w.arrivals d acts := by
  refine List.filterMap_congr fun a _ => ?_
  cases a with
  | push q e => simp only [hseen, howns]
  | _ => rfl

theorem World.arrivals_quiet {acts : List Act} (h : ∀ a ∈ acts, ∀ q e, a ≠ .push q e) :
    w.arrivals d acts = [] := by
  refine List.filterMap_eq_nil_iff.mpr fun a ha => ?_
  cases a with
  | push q e => exact absurd rfl (h _ ha q e)
  | _ => rfl

/-- An append is an arrival, if anything. -/
theorem QueuePushed.runs (h : QueuePushed w w' q e) (d : CtxId) :
    BusView.Runs (w.view d) (w.arrivals d [.push q e]) [] (w'.view d) := by
  rw [(h.view d).1]
  by_cases hown : w.Owns d q
  · have harr : w.arrivals d [.push q e] = [.arrive q (w.seen e)] := by
      simp [World.arrivals, hown]
    rw [harr]
    exact BusView.Takes.arrive.runs
  · have harr : w.arrivals d [.push q e] = [] := by simp [World.arrivals, hown]
    rw [harr, BusView.push, view_queue_none hown]
    exact BusView.Runs.nil

/-- What a step adds to the history, and what of it arrives on another bus. -/
theorem BusStep.arrives (hs : BusStep s w w') (hi : BusInv w) (hm : s ∈ serveKinds c)
    (hd : d ≠ c) :
    ∃ acts, w'.log = w.log ++ acts
      ∧ BusView.Runs (w.view d) (w.arrivals d acts) [] (w'.view d) := by
  have quiet : ∀ acts : List Act, w'.log = w.log ++ acts →
      (∀ a ∈ acts, ∀ q e, a ≠ .push q e) → w'.view d = w.view d →
      ∃ acts, w'.log = w.log ++ acts
        ∧ BusView.Runs (w.view d) (w.arrivals d acts) [] (w'.view d) := by
    intro acts hacts hno hview
    refine ⟨acts, hacts, ?_⟩
    rw [World.arrivals_quiet hno, hview]
    exact BusView.Runs.nil
  cases hs with
  | give hpop hk =>
      rename_i w1 x k q e
      have hx : d ≠ x := by
        rcases hm with hm | hm | hm | hm | hm <;> cases hm
        exact hd
      refine quiet [.take q e, .give x k q e] ?_ (by simp) ?_
      · show w1.log ++ [.give x k q e] = _
        rw [hpop.log, List.append_assoc]
        rfl
      · rw [World.view_note, hpop.view_ne hx]
  | fire hpop =>
      rename_i w1 x k t
      have hx : d ≠ x := by
        rcases hm with hm | hm | hm | hm | hm <;> cases hm
        exact hd
      refine quiet [.fire x k t (w.reminders t).timeout] ?_ (by simp) ?_
      · show w1.log ++ _ = _
        rw [hpop.frame.log]
      · rw [World.view_note, hpop.view_ne hi.timer hx]
  | release hun =>
      rename_i x e
      have hx : d ≠ x := by
        rcases hm with hm | hm | hm | hm | hm <;> cases hm
        exact hd
      have hview := (busUnsave_view hun).2.2 d hx
      obtain ⟨q, _, _, rfl⟩ := busUnsave_eq hun
      exact quiet _ rfl (by simp) hview
  | forward hlt hatt hpush =>
      rename_i x i q e
      refine ⟨[.push q e], by rw [hpush.log]; rfl, ?_⟩
      have hruns := hpush.runs d
      rwa [World.view_eventRef, World.arrivals_congr (seen_eventRef w e)
        fun _ _ => Iff.rfl] at hruns
  | overrun hlt hatt hfull =>
      rename_i x i q e
      exact quiet [] (List.append_nil _).symm (by simp) (World.view_eventRef w e d)
  | _ => rcases hm with hm | hm | hm | hm | hm <;> cases hm

/-- **Serving shows on another bus** as the events that arrive there. -/
theorem BusRun.arrives (hr : BusRun (serveKinds c) w w') (hd : d ≠ c) :
    ∃ acts, w'.log = w.log ++ acts
      ∧ BusView.Runs (w.view d) (w'.arrivals d acts) [] (w'.view d) := by
  have hall : ∃ acts, w'.log = w.log ++ acts
      ∧ BusView.Runs (w.view d) (w.arrivals d acts) [] (w'.view d)
      ∧ w'.seen = w.seen ∧ ∀ d q, w'.Owns d q ↔ w.Owns d q := by
    refine hr.keeps
      (P := fun v => ∃ acts, v.log = w.log ++ acts
        ∧ BusView.Runs (w.view d) (w.arrivals d acts) [] (v.view d)
        ∧ v.seen = w.seen ∧ ∀ d q, v.Owns d q ↔ w.Owns d q)
      (fun s hm u u' hu _ hs hp => ?_)
      ⟨[], (List.append_nil _).symm, BusView.Runs.nil, rfl, fun _ _ => Iff.rfl⟩
    obtain ⟨as, hl, hruns, hseen, howns⟩ := hp
    obtain ⟨bs, hbs, hmore⟩ := hs.arrives hu hm hd
    have hqueues := hs.queues hu
    refine ⟨as ++ bs, by rw [hbs, hl, List.append_assoc], ?_, ?_, fun d q => ?_⟩
    · rw [World.arrivals_append]
      rw [World.arrivals_congr hseen howns] at hmore
      exact hruns.append hmore
    · refine (hs.seen ?_).trans hseen
      rintro x rfl
      simp [serveKinds] at hm
    · have hctx := hqueues.2 (by rintro x rfl; simp [serveKinds] at hm) q
      rw [← howns, Owns, Owns, hqueues.1, hctx]
  obtain ⟨acts, hlog, hruns, hseen, howns⟩ := hall
  exact ⟨acts, hlog, by rw [World.arrivals_congr hseen howns]; exact hruns⟩

/-- An event is offered to a queue. -/
theorem QueueInv.eventQueuePush_view (h : QueueInv w) (hq : q < w.nextQueue) {ret : Int}
    (hcall : Ats.eventQueuePush w q e = some (w', ret)) (d : CtxId) :
    w'.view d = BusView.offer (w.seen e) (w.view d) q ∧ w'.seen = w.seen := by
  obtain ⟨u, r, hcall', _, hres⟩ := h.eventQueuePush hq e
  cases hcall'.symm.trans hcall
  rw [BusView.offer]
  rcases hres with ⟨_, hpush⟩ | ⟨_, hsame, hfull⟩
  · obtain ⟨hview, hseen, _⟩ := hpush.view d
    refine ⟨?_, hseen⟩
    obtain ⟨_, ha, _⟩ := hpush.append
    rw [hview]
    by_cases hown : w.Owns d q
    · have hroom : ¬ (w.queueView q).contents.length + 1 = (w.queueView q).capacity := by
        show ¬ ((w.contents q).map w.seen).length + 1 = (w.queues q).spsc.capacity
        rw [List.length_map]
        have := ha.room
        omega
      simp only [view_queue hown, if_neg hroom]
    · rw [BusView.push, view_queue_none hown]
  · rw [hsame]
    refine ⟨?_, rfl⟩
    by_cases hown : w.Owns d q
    · have hfull' : (w.queueView q).contents.length + 1 = (w.queueView q).capacity := by
        show ((w.contents q).map w.seen).length + 1 = (w.queues q).spsc.capacity
        rw [List.length_map]
        exact hfull
      simp only [view_queue hown, if_pos hfull']
    · rw [view_queue_none hown]

/-- The forwarding loop on the bus itself. -/
theorem BusInv.busForwardLoop_view (e : EventId) : ∀ (is : List Nat) {w w' : World}, BusInv w →
    (∀ i ∈ is, i < (w.ctxs c).attachedCount) →
    is.foldlM (fun w i => Ats.busForwardOne w c e i) w = some w' →
    w'.view c = if (w.seen e).eventType ≠ queueCloseEvent ∧ (w.seen e).eventType ≠ queueOpenEvent
      then (is.filterMap (w.ctxs c).attached).foldl (BusView.offer (w.seen e)) (w.view c)
      else w.view c := by
  intro is
  induction is with
  | nil =>
      intro w w' _ _ hcall
      cases hcall
      simp
  | cons i is ih =>
      intro w w' h hi hcall
      have hlt := hi i List.mem_cons_self
      obtain ⟨w1, hone, hrun, _⟩ := h.busForwardOne e hlt
      rw [List.foldlM_cons, hone] at hcall
      have hslots := fun x => (hrun.keeps (P := fun v => ∀ x,
        (v.ctxs x).attached = (w.ctxs x).attached
          ∧ (v.ctxs x).attachedCount = (w.ctxs x).attachedCount)
        (fun s hm u u' _ _ hs hp x => by
          cases hs with
          | forward _ _ hpush =>
              rw [hpush.ctxs]
              exact hp x
          | overrun _ _ _ => exact hp x
          | _ => rcases hm with hm | hm <;> cases hm)
        (fun _ => ⟨rfl, rfl⟩)) x
      have hrest := ih hrun.inv (fun j hj => by
        rw [(hslots c).2]
        exact hi j (List.mem_cons_of_mem i hj)) hcall
      obtain ⟨q, hq, hqlt, _⟩ := h.attached c i hlt
      rw [(hslots c).1] at hrest
      rw [Ats.busForwardOne] at hone
      have htype : (w.seen e).eventType = (w.events e).eventType := rfl
      rw [htype]
      by_cases hgo : (w.events e).eventType ≠ queueCloseEvent
          ∧ (w.events e).eventType ≠ queueOpenEvent
      · rw [if_pos hgo, hq] at hone
        simp only [Option.bind_eq_bind, Option.bind_some, Option.bind_eq_some_iff] at hone
        obtain ⟨⟨u, ret⟩, hpush, hu⟩ := hone
        cases hu
        have hi1 : BusInv (eventRef w e) := h.updEvent e _
        obtain ⟨hview, hseen⟩ := hi1.queue.eventQueuePush_view hqlt hpush c
        rw [World.view_eventRef, seen_eventRef] at hview
        rw [seen_eventRef] at hseen
        rw [hseen, hview, htype, if_pos hgo] at hrest
        rw [if_pos hgo, List.filterMap_cons, hq]
        exact hrest
      · rw [if_neg hgo] at hone
        cases hone
        rw [htype, if_neg hgo] at hrest
        rw [if_neg hgo]
        exact hrest

/-- **Forwarding on the bus itself.** -/
theorem BusInv.busForward_view (h : BusInv w) (hcall : Ats.busForward w c e = some w') :
    w'.view c = (w.view c).forward (w.seen e) :=
  BusInv.busForwardLoop_view e _ h (fun _ hi => List.mem_range.mp hi) hcall

/-! ## `bus_dequeue` -/

/-- `check_pending_queue` on the bus and on the others. -/
theorem BusRun.view_reenter (hr : BusRun {.reenter c} w w') :
    (∃ n, w'.view c = BusView.reenter^[n] (w.view c)
      ∧ (w.ctxs c).pendingQueue.length = n + (w'.ctxs c).pendingQueue.length)
    ∧ ∀ d, d ≠ c → w'.view d = w.view d := by
  refine hr.keeps (P := fun v => (∃ n, v.view c = BusView.reenter^[n] (w.view c)
      ∧ (w.ctxs c).pendingQueue.length = n + (v.ctxs c).pendingQueue.length)
    ∧ ∀ d, d ≠ c → v.view d = w.view d) (fun s hm u u' hu _ hs hp => ?_)
    ⟨⟨0, rfl, (Nat.zero_add _).symm⟩, fun _ _ => rfl⟩
  obtain rfl : s = .reenter c := hm
  obtain ⟨⟨n, hview, hlen⟩, hothers⟩ := hp
  obtain ⟨hview', hlen'⟩ := hs.view_reenter hu
  refine ⟨⟨n + 1, ?_, by omega⟩, fun d hd => ?_⟩
  · rw [hview', hview, Function.iterate_succ_apply']
  · rw [hs.view_reenter_ne hu hd, hothers d hd]

/-- **Serving a source** is what the abstract bus does. -/
theorem Served.serves {src : BusSource} (h : Served w c src w' o) (hi : BusInv w)
    (hr : Ranked w) : (w.view c).Serves src o (w'.view c) := by
  cases h with
  | timer hpop =>
      rw [World.view_note, hpop.view hi.timer]
      exact BusView.Serves.timer (hr.firstTimer hpop.first)
  | pipe hpop _ =>
      obtain ⟨hview, hhead⟩ := hpop.view hi.queue
      rw [World.view_note, hview]
      exact BusView.Serves.pipe (hr.first hi.queue hpop.first) hhead
  | @saved e v w' hun hgo =>
      obtain ⟨hview, hsaved, _⟩ := busUnsave_view hun
      have hiv := hi.of_busUnsave hun
      obtain ⟨_, _, _, rfl⟩ := busUnsave_eq hun
      have hrelease : w'.view c = (w.view c).release (w.seen e) := by
        have hmode : (w.view c).mode = (w.ctxs c).mode := rfl
        rw [BusView.release, hmode]
        split at hgo
        case isTrue hsim => rw [if_pos hsim, hiv.busForward_view hgo, hview]; rfl
        case isFalse hreal => rw [if_neg hreal, hgo, hview]; rfl
      rw [hrelease]
      exact BusView.Serves.saved hsaved
  | nothing => exact BusView.Serves.nothing

/-- **What a call of `bus_dequeue` on `c` is to each bus.** -/
structure Shown (w w' : World) (c : CtxId) (now : Nat) (o : Option EventId) : Prop where
  own : (w.view c).Dequeues now o (w'.view c)
  others : ∀ d, d ≠ c → ∃ acts, w'.log = w.log ++ acts
    ∧ BusView.Runs (w.view d) (w'.arrivals d acts) [] (w'.view d)
  queued : ∀ d, d ≠ c → ∀ q, w.Owns d q → ∀ e ∈ w.contents q, w'.seen e = w.seen e
  ranked : Ranked w'

/-- **`bus_dequeue` is a step of the abstract bus**, if its market block
writes nothing that still waits. -/
theorem BusInv.busDequeue_shown (h : BusInv w) (hr : Ranked w) (c : CtxId) (now : Nat) :
    ∃ w1 w2 w' o, Ats.busDequeue w c now = some (w', o) ∧ Dequeued w c now w1 w2 w' o
      ∧ (((w.ctxs c).mode = .simulation → Unwritten w1 w2 c) → Shown w w' c now o) := by
  obtain ⟨w1, w2, w', o, hcall, hlook, hd⟩ := h.busDequeue_look c now
  refine ⟨w1, w2, w', o, hcall, hd, fun hleft => ?_⟩
  have hi1 := hd.enter.inv
  have hi2 := hd.look.run.inv
  obtain ⟨hr1, hseen1, howns1⟩ := hd.enter.ranked (by simp) (by simp) hr
  obtain ⟨⟨n, hview1, hlen⟩, hothers1⟩ := hd.enter.view_reenter
  have hmode1 : (w1.ctxs c).mode = (w.ctxs c).mode := hd.look.mode.symm.trans hd.mode
  -- nothing is pending any more
  have hcheck : w1.view c = (w.view c).check := by
    have hnil : (w1.ctxs c).pendingQueue = [] := hd.look.pending.symm.trans hd.pending
    rw [hnil, List.length_nil, Nat.add_zero] at hlen
    rw [hview1, BusView.check, ← hlen]
    rfl
  have hlooked : Looked w1 w2 c := by
    cases hm : (w.ctxs c).mode with
    | simulation => exact hi1.looked _ hr1 (hmode1.trans hm) (hd.market hm) (hleft hm)
    | realtime =>
        refine hi1.lookedRealtime hr1 (hmode1.trans hm) ?_
        rw [busLook, hd.check] at hlook
        simp only [Option.bind_eq_bind, Option.bind_some, hmode1.trans hm] at hlook
        exact hlook
  obtain ⟨hr2, hseen2, _⟩ := hd.finish.ranked (by simp [serveKinds]) (by simp [serveKinds])
    hlooked.ranked
  refine ⟨⟨w2.view c, by rw [← hcheck]; exact hlooked.looks, ?_⟩, fun d hne => ?_,
    fun d hne q hq e he => ?_, hr2⟩
  · rw [← hlooked.ranked.source hi2]
    exact hd.served.serves hi2 hlooked.ranked
  · obtain ⟨as, hlog1, has⟩ := hd.early
    obtain ⟨bs, hlog2, hruns⟩ := hd.finish.arrives hne
    refine ⟨as ++ bs, by rw [hlog2, hlog1, List.append_assoc], ?_⟩
    have hquiet : w'.arrivals d as = [] := by
      refine World.arrivals_quiet fun a ha q e hc => ?_
      have := has a ha
      rw [hc] at this
      exact this
    rw [World.arrivals_append, hquiet, List.nil_append, ← hothers1 d hne, ← hlooked.others d hne]
    exact hruns
  · rw [hseen2]
    exact view_seen ((hlooked.others d hne).trans (hothers1 d hne)) hq he

end Ats
