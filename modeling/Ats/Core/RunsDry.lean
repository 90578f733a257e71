import Mathlib.Algebra.BigOperators.Group.Finset.Basic
import Ats.Core.Drain
import Ats.Core.Modes
import Ats.Core.QueueRefs
import Ats.Core.Simulation

/-!
# RunsDry: a simulation comes to its end

In simulation mode a timer fires only by the time of a held market event, so
the timers cannot keep a bus going for ever: when nothing more comes in, each
`bus_dequeue` uses up a part of what is there, until one returns `NULL`.
-/

namespace Ats

variable {w w' v w1 w2 : World} {c d : CtxId} {k : QueueCategory} {j : ClockType} {q : QueueId}
  {e t : EventId} {kind : StepKind} {M now : Nat} {o : Option EventId}

/-! ## What is left on a bus -/

/-- The number of events in the queues of bus `c`. -/
def waiting (w : World) (c : CtxId) : Nat :=
  ∑ q ∈ Finset.range w.nextQueue,
    if (w.queues q).ctx = some c then (w.contents q).length else 0

/-- The number of instants up to `M` of an armed timer. -/
def Reminder.firingsLeft (r : Reminder) (M : Nat) : Nat :=
  (firingsUpTo r.timeout r.repeat (some M)).length

/-- The number of instants up to `M` of the timers of a clock. -/
def timersAhead (w : World) (c : CtxId) (j : ClockType) (M : Nat) : Nat :=
  ((w.timerNodes c j).map fun t => (w.reminders t).firingsLeft M).sum

/-- **What is left on bus `c`**: the events in its queues, its look-ahead, and
the instants up to `M` at which its timers fire. -/
def fuelLeft (w : World) (c : CtxId) (M : Nat) : Nat :=
  waiting w c + (if (w.ctxs c).savedEvent = none then 0 else 1)
    + timersAhead w c .clockLocal M + timersAhead w c .clockExchange M

/-- **No event of the bus is later than `M`**, no timer that fires by `M`
passes the end of time, and no event comes back over the attachments. -/
structure Bounded (w : World) (c : CtxId) (M : Nat) : Prop where
  time : (w.ctxs c).time .clockLocal ≤ M
  stamp : ∀ q < w.nextQueue, (w.queues q).ctx = some c →
    ∀ e ∈ w.contents q, (w.events e).timestamp ≤ M
  saved : ∀ e, (w.ctxs c).savedEvent = some e → (w.events e).timestamp ≤ M
  rearm : ∀ j, ∀ t ∈ w.timerNodes c j, M + (w.reminders t).repeat < 2 ^ 64
  apart : ∀ i < (w.ctxs c).attachedCount, ∀ q, (w.ctxs c).attached i = some q →
    (w.queues q).ctx ≠ some c

/-! ## What the steps use up -/

theorem waiting_congr (hnext : w'.nextQueue = w.nextQueue)
    (hctx : ∀ q, (w'.queues q).ctx = (w.queues q).ctx)
    (hcont : ∀ q, (w.queues q).ctx = some c → w'.contents q = w.contents q) :
    waiting w' c = waiting w c := by
  rw [waiting, waiting, hnext]
  refine Finset.sum_congr rfl fun q _ => ?_
  rw [hctx]
  split
  case isTrue hq => rw [hcont q hq]
  case isFalse => rfl

/-- An event that is popped waits no longer. -/
theorem PipePop.waiting (h : PipePop w v c k q e) : waiting v c + 1 = waiting w c := by
  have hq : q ∈ Finset.range w.nextQueue := Finset.mem_range.mpr h.linkable.lt
  rw [Ats.waiting, Ats.waiting, h.frame.nextQueue, ← Finset.add_sum_erase _ _ hq,
    ← Finset.add_sum_erase _ _ hq]
  have hrest : ∀ p ∈ (Finset.range w.nextQueue).erase q,
      (if (v.queues p).ctx = some c then (v.contents p).length else 0)
        = if (w.queues p).ctx = some c then (w.contents p).length else 0 := by
    intro p hp
    rw [h.frame.queue_ctx, h.contents_ne (Finset.ne_of_mem_erase hp)]
  rw [Finset.sum_congr rfl hrest, h.frame.queue_ctx, if_pos h.linkable.ctx,
    if_pos h.linkable.ctx, h.contents, List.length_cons]
  exact Nat.add_right_comm _ _ _

/-- Steps that fire no timer leave the timers. -/
theorem BusStep.timersAhead (hs : BusStep kind w w') (hk : ∀ d, kind ≠ .fire d) (c : CtxId)
    (j : ClockType) (M : Nat) : timersAhead w' c j M = timersAhead w c j M := by
  have hstand := hs.timersStand hk
  rw [Ats.timersAhead, Ats.timersAhead, hstand.timerNodes, hstand.reminders]

/-- What a step takes off. -/
def StepKind.cost : StepKind → Nat
  | .drop _ => 1
  | .give _ => 1
  | .release _ => 1
  | _ => 0

/-- **Each step that fires no timer takes its cost off.** -/
theorem BusStep.fuelLeft (hs : BusStep kind w w') (hi : BusInv w) (hk : kind ∈ dequeueKinds c)
    (hfire : kind ≠ .fire c) (hb : Bounded w c M) :
    fuelLeft w' c M + kind.cost = fuelLeft w c M := by
  have hne : ∀ d, kind ≠ .fire d := by
    rintro d rfl
    exact hfire (by simpa [dequeueKinds] using hk)
  have hreg : ∀ d, kind ≠ .add d := by
    rintro d rfl
    simp [dequeueKinds] at hk
  obtain ⟨hnext, hctx⟩ := hs.queues hi
  rw [Ats.fuelLeft, Ats.fuelLeft, hs.timersAhead hne, hs.timersAhead hne]
  have same : (∀ q, (w.queues q).ctx = some c → w'.contents q = w.contents q) →
      waiting w' c = waiting w c := waiting_congr hnext (hctx hreg)
  cases hs with
  | reenter hpend hadd =>
      rename_i x q rest
      obtain rfl : x = c := by simpa [dequeueKinds] using hk
      have hsaved : (w'.ctxs x).savedEvent = (w.ctxs x).savedEvent :=
        (hadd.sameSlots.saved x).trans (w.updCtx_proj x x Ctx.savedEvent
          (f := fun y => { y with pendingQueue := rest }) (fun _ => rfl))
      rw [same fun q _ => hadd.contents q, hsaved]
      rfl
  | drop hpop hmode hskip hsaved =>
      rename_i v x q e b
      obtain rfl : x = c := by simpa [dequeueKinds] using hk
      have hpopped := hpop.waiting
      have hnone : ((v.updCtx x fun y => { y with isSimulatorStop := b }).ctxs x).savedEvent
          = none := by
        rw [v.updCtx_proj x x Ctx.savedEvent (f := fun y => { y with isSimulatorStop := b })
          (fun _ => rfl), hpop.frame.savedEvent, hsaved]
      show waiting v x + (if ((v.updCtx x fun y =>
        { y with isSimulatorStop := b }).ctxs x).savedEvent = none then 0 else 1) + _ + _ + 1 = _
      rw [if_pos hnone, if_pos hsaved]
      omega
  | save hpop hsaved hts =>
      rename_i v x q e ts
      obtain rfl : x = c := by simpa [dequeueKinds] using hk
      have hpopped := hpop.waiting
      show waiting v x + _ + _ + _ = _
      rw [busSave_savedEvent, if_neg (Option.some_ne_none e), if_pos hsaved]
      omega
  | give hpop hmarket =>
      rename_i v x k q e
      obtain rfl : x = c := by simpa [dequeueKinds] using hk
      have hpopped := hpop.waiting
      show waiting v x + (if (v.ctxs x).savedEvent = none then 0 else 1) + _ + _ + 1 = _
      rw [hpop.frame.savedEvent]
      omega
  | fire hpop => exact absurd rfl (hne _)
  | release hun =>
      rename_i x e
      obtain rfl : x = c := by simpa [dequeueKinds] using hk
      obtain ⟨q, hsaved, -, rfl⟩ := busUnsave_eq hun
      have hnone : ((w.updCtx x fun y =>
          { y with savedEvent := none, savedFrom := none }).ctxs x).savedEvent = none := by
        simp [World.updCtx]
      show waiting w x + (if ((w.updCtx x fun y =>
        { y with savedEvent := none, savedFrom := none }).ctxs x).savedEvent = none
          then 0 else 1) + _ + _ + 1 = _
      rw [if_pos hnone, hsaved, if_neg (Option.some_ne_none e)]
      omega
  | forward hlt hatt hpush =>
      rename_i x i q e
      obtain rfl : x = c := by simpa [dequeueKinds] using hk
      have hother : ∀ p, (w.queues p).ctx = some x → w'.contents p = w.contents p := by
        intro p hp
        refine hpush.contents_ne ?_
        rintro rfl
        exact hb.apart i hlt p hatt hp
      rw [same hother, hpush.sameSlots.saved]
      rfl
  | overrun hlt hatt hfull => rfl
  | _ => simp [dequeueKinds] at hk

/-- No step sets a timestamp past `M`. -/
theorem BusStep.stamp_le (hs : BusStep kind w w') (hk : kind ∈ dequeueKinds c)
    (htime : (w.ctxs c).time .clockLocal ≤ M) {x : EventId} (hx : (w.events x).timestamp ≤ M) :
    (w'.events x).timestamp ≤ M := by
  cases hs with
  | reenter hpend hadd =>
      rw [hadd.frame.events]
      exact hx
  | drop hpop hmode hskip hsaved =>
      rename_i v d q e b
      show (v.events x).timestamp ≤ M
      rw [hpop.frame.events]
      exact hx
  | save hpop hsaved hts =>
      rename_i v d q e ts
      obtain rfl : d = c := by simpa [dequeueKinds] using hk
      show ((v.updEvent e fun y => { y with timestamp := ts }).events x).timestamp ≤ M
      by_cases hxe : x = e
      · subst hxe
        have hts : ts ≤ M := by
          rcases hts with rfl | ⟨-, -, -, rfl⟩
          · exact hx
          · exact htime
        simpa [World.updEvent] using hts
      · rw [← hpop.frame.events] at hx
        simpa [World.updEvent, hxe] using hx
  | give hpop hmarket =>
      rename_i v d k q e
      show (v.events x).timestamp ≤ M
      rw [hpop.frame.events]
      exact hx
  | fire hpop =>
      rename_i v d k t
      show (v.events x).timestamp ≤ M
      rw [hpop.frame.events]
      exact hx
  | release hun =>
      obtain ⟨q, -, -, rfl⟩ := busUnsave_eq hun
      exact hx
  | forward hlt hatt hpush =>
      rw [hpush.events, eventRef_timestamp]
      exact hx
  | overrun hlt hatt hfull =>
      rw [eventRef_timestamp]
      exact hx
  | _ => simp [dequeueKinds] at hk

/-- **What is on the bus after a step was there before**: in its queues, and
in the look-ahead. -/
theorem BusStep.held_before (hs : BusStep kind w w') (hk : kind ∈ dequeueKinds c)
    (hb : Bounded w c M) :
    (∀ q, (w.queues q).ctx = some c → (w'.contents q).Sublist (w.contents q))
      ∧ ∀ e, (w'.ctxs c).savedEvent = some e → (w.ctxs c).savedEvent = some e
        ∨ ∃ q < w.nextQueue, (w.queues q).ctx = some c ∧ e ∈ w.contents q := by
  cases hs with
  | reenter hpend hadd =>
      rename_i x q rest
      obtain rfl : x = c := by simpa [dequeueKinds] using hk
      refine ⟨fun p _ => (hadd.contents p).symm ▸ List.Sublist.refl _, fun e he => .inl ?_⟩
      rw [hadd.sameSlots.saved, w.updCtx_proj x x Ctx.savedEvent
        (f := fun y => { y with pendingQueue := rest }) (fun _ => rfl)] at he
      exact he
  | drop hpop hmode hskip hsaved =>
      rename_i v x q e b
      obtain rfl : x = c := by simpa [dequeueKinds] using hk
      refine ⟨fun p _ => hpop.contents_sublist p, fun y hy => .inl ?_⟩
      have hy : ((v.updCtx x fun y => { y with isSimulatorStop := b }).ctxs x).savedEvent
          = some y := hy
      rw [v.updCtx_proj x x Ctx.savedEvent (f := fun y => { y with isSimulatorStop := b })
        (fun _ => rfl), hpop.frame.savedEvent] at hy
      exact hy
  | save hpop hsaved hts =>
      rename_i v x q e ts
      obtain rfl : x = c := by simpa [dequeueKinds] using hk
      refine ⟨fun p _ => hpop.contents_sublist p, fun y hy =>
        .inr ⟨q, hpop.linkable.lt, hpop.linkable.ctx, ?_⟩⟩
      rw [busSave_savedEvent] at hy
      cases hy
      rw [hpop.contents]
      exact List.mem_cons_self
  | give hpop hmarket =>
      rename_i v x k q e
      refine ⟨fun p _ => hpop.contents_sublist p, fun y hy => .inl ?_⟩
      rw [← hpop.frame.savedEvent]
      exact hy
  | fire hpop =>
      refine ⟨fun p _ => (hpop.frame.sameQueues.contents p).symm ▸ List.Sublist.refl _,
        fun y hy => .inl ?_⟩
      rw [← hpop.frame.sameSlots.saved]
      exact hy
  | release hun =>
      rename_i x e
      obtain rfl : x = c := by simpa [dequeueKinds] using hk
      obtain ⟨q, hsaved, -, rfl⟩ := busUnsave_eq hun
      refine ⟨fun p _ => List.Sublist.refl _, fun y hy => absurd hy ?_⟩
      simp [World.note, World.updCtx]
  | forward hlt hatt hpush =>
      rename_i x i q e
      obtain rfl : x = c := by simpa [dequeueKinds] using hk
      refine ⟨fun p hp => ?_, fun y hy => .inl ?_⟩
      · have hpq : p ≠ q := by
          rintro rfl
          exact hb.apart i hlt p hatt hp
        rw [hpush.contents_ne hpq]
        exact List.Sublist.refl _
      · rw [hpush.sameSlots.saved] at hy
        exact hy
  | overrun hlt hatt hfull => exact ⟨fun p _ => List.Sublist.refl _, fun y hy => .inl hy⟩
  | _ => simp [dequeueKinds] at hk

/-- **A step keeps the bound**, if it keeps the timers. -/
theorem BusStep.bounded (hs : BusStep kind w w') (hi : BusInv w) (hk : kind ∈ dequeueKinds c)
    (hb : Bounded w c M)
    (hrearm : ∀ j, ∀ t ∈ w'.timerNodes c j, M + (w'.reminders t).repeat < 2 ^ 64) :
    Bounded w' c M := by
  obtain ⟨hnext, hctx⟩ := hs.queues hi
  have hctx : ∀ q, (w'.queues q).ctx = (w.queues q).ctx := hctx fun d hd => by
    subst hd
    simp [dequeueKinds] at hk
  obtain ⟨hqueues, hsaved⟩ := hs.held_before hk hb
  refine ⟨?_, fun q hlt hq e he => ?_, fun e he => ?_, hrearm, fun i hi q hq => ?_⟩
  · rw [(hs.sameClock hi).time]
    exact hb.time
  · rw [hctx] at hq
    rw [hnext] at hlt
    exact hs.stamp_le hk hb.time (hb.stamp q hlt hq e ((hqueues q hq).subset he))
  · rcases hsaved e he with hsv | ⟨q, hlt, hq, hmem⟩
    · exact hs.stamp_le hk hb.time (hb.saved e hsv)
    · exact hs.stamp_le hk hb.time (hb.stamp q hlt hq e hmem)
  · rw [hctx]
    rw [hs.ctx_proj c Ctx.attachedCount (fun _ _ _ _ _ _ _ _ => rfl)] at hi
    rw [hs.ctx_proj c Ctx.attached (fun _ _ _ _ _ _ _ _ => rfl)] at hq
    exact hb.apart i hi q hq

/-- **A run of steps that fire no timer** keeps the bound and puts nothing
on. -/
theorem BusRun.fuelLeft_le {S : Set StepKind} (hr : BusRun S w w') (hS : S ⊆ dequeueKinds c)
    (hfire : .fire c ∉ S) (hb : Bounded w c M) :
    Bounded w' c M ∧ fuelLeft w' c M ≤ fuelLeft w c M := by
  refine hr.keeps (P := fun v => Bounded v c M ∧ fuelLeft v c M ≤ fuelLeft w c M)
    (fun kind hm v v' hv _ hs hp => ?_) ⟨hb, Nat.le_refl _⟩
  have hne : kind ≠ .fire c := fun heq => hfire (heq ▸ hm)
  have hcost := hs.fuelLeft hv (hS hm) hne hp.1
  refine ⟨hs.bounded hv (hS hm) hp.1 fun j t ht => ?_, by omega⟩
  have hstand := hs.timersStand fun d hd => by
    subst hd
    have hdc : d = c := by simpa [dequeueKinds] using hS hm
    exact hne (by rw [hdc])
  rw [hstand.timerNodes] at ht
  rw [hstand.reminders]
  exact hp.1.rearm j t ht

/-! ## What a timer uses up -/

theorem timersAhead_congr (hnodes : w'.timerNodes c j = w.timerNodes c j)
    (hrem : ∀ t ∈ w.timerNodes c j, w'.reminders t = w.reminders t) :
    timersAhead w' c j M = timersAhead w c j M := by
  rw [timersAhead, timersAhead, hnodes]
  exact congrArg List.sum (List.map_congr_left fun t ht => by rw [hrem t ht])

/-- A timer that is due by `M` has an instant left. -/
theorem Reminder.firingsLeft_pos {r : Reminder} (h : r.timeout ≤ M) : 0 < r.firingsLeft M := by
  rw [firingsLeft, firingsUpTo, if_neg (Nat.not_lt.mpr h), firingTimes, List.length_map,
    List.length_range]
  split
  · exact Nat.one_pos
  · exact Nat.succ_pos _

/-- A timer that is armed again has an instant less. -/
theorem Reminder.firingsLeft_rearm {r r' : Reminder} (hrep : r'.repeat = r.repeat)
    (htime : r'.timeout = r.timeout + r.repeat) (h : r.timeout ≤ M) (hne : r.repeat ≠ 0) :
    r'.firingsLeft M + 1 = r.firingsLeft M := by
  have hpos : 0 < r.repeat := Nat.pos_of_ne_zero hne
  rw [firingsLeft, firingsLeft, hrep, htime, firingsUpTo, firingsUpTo, if_neg (Nat.not_lt.mpr h),
    if_neg hne, firingTimes, firingTimes, List.length_map, List.length_range]
  split
  case isTrue hlt =>
    rw [Nat.div_eq_of_lt (by omega : M - r.timeout < r.repeat)]
    rfl
  case isFalse hge =>
    have hdiv : (M - r.timeout) / r.repeat
        = (M - (r.timeout + r.repeat)) / r.repeat + 1 := by
      rw [← Nat.add_div_right _ hpos]
      exact congrArg (· / r.repeat) (by omega)
    rw [List.length_map, List.length_range, hdiv]

/-- **A timer that fires by `M`** has an instant less left then, or is gone. -/
theorem TimerPop.timersAhead (h : TimerPop w v c j t) (hi : TimerInv w)
    (hle : (w.reminders t).timeout ≤ M) (hrearm : M + (w.reminders t).repeat < 2 ^ 64) :
    timersAhead v c j M < timersAhead w c j M := by
  have hmem := h.mem
  have hnodup : (w.timerNodes c j).Nodup := (hi.heap c j).nodup
  have hrest : ∀ s ∈ (w.timerNodes c j).erase t, v.reminders s = w.reminders s := by
    intro s hs
    refine h.others s ?_
    rintro rfl
    exact hnodup.not_mem_erase hs
  have hsplit := List.sum_map_erase (fun s => (w.reminders s).firingsLeft M) hmem
  rw [Ats.timersAhead, Ats.timersAhead, (h.nodes.map _).sum_eq, ← hsplit]
  have hsame : ((w.timerNodes c j).erase t).map (fun s => (v.reminders s).firingsLeft M)
      = ((w.timerNodes c j).erase t).map (fun s => (w.reminders s).firingsLeft M) :=
    List.map_congr_left fun s hs => by rw [hrest s hs]
  by_cases hrep : (w.reminders t).repeat = 0
  · have hpos := Reminder.firingsLeft_pos hle
    rw [if_pos hrep, hsame]
    omega
  · have hsplit' := List.sum_map_erase (fun s => (v.reminders s).firingsLeft M) hmem
    have hless : (v.reminders t).firingsLeft M + 1 = (w.reminders t).firingsLeft M := by
      rw [h.reminder, if_neg hrep]
      exact Reminder.firingsLeft_rearm rfl (Nat.mod_eq_of_lt (by omega)) hle hrep
    rw [if_neg hrep, ← hsplit', hsame]
    omega

/-- **A timer that is served** keeps the bound and has an instant less left. -/
theorem TimerPop.served (h : TimerPop w v c j t) (hi : BusInv w) (hb : Bounded w c M)
    (hle : (w.reminders t).timeout ≤ M) :
    Bounded (v.note (.fire c j t (w.reminders t).timeout)) c M
      ∧ fuelLeft (v.note (.fire c j t (w.reminders t).timeout)) c M < fuelLeft w c M := by
  have hrearm : ∀ i, ∀ s ∈ v.timerNodes c i, M + (v.reminders s).repeat < 2 ^ 64 := by
    intro i s hs
    rw [h.frame.reminders]
    exact hb.rearm i s (h.timerNodes_subset c i hs)
  refine ⟨(BusStep.fire h).bounded hi (by simp [dequeueKinds]) hb hrearm, ?_⟩
  have hfire := h.timersAhead hi.timer hle (hb.rearm j t h.mem)
  have hwait : waiting v c = waiting w c :=
    waiting_congr h.frame.nextQueue (fun q => by rw [h.frame.queues])
      (fun q _ => h.frame.sameQueues.contents q)
  have hother : ∀ i, i ≠ j → Ats.timersAhead v c i M = Ats.timersAhead w c i M := by
    intro i hij
    refine timersAhead_congr (h.nodes_ne c i (.inr hij)) fun s hs => h.others s ?_
    rintro rfl
    exact hi.timer.notMem_other h.armed.1 h.armed.2 (.inr hij) hs
  show waiting v c + (if (v.ctxs c).savedEvent = none then 0 else 1)
    + Ats.timersAhead v c .clockLocal M + Ats.timersAhead v c .clockExchange M < _
  rw [fuelLeft, hwait, h.frame.sameSlots.saved]
  cases j with
  | clockLocal =>
      rw [hother .clockExchange (by decide)]
      omega
  | clockExchange =>
      rw [hother .clockLocal (by decide)]
      omega

/-! ## A call of `bus_dequeue` -/

/-- Nothing that `bus_dequeue` could return is on the bus. -/
structure Dry (w : World) (c : CtxId) : Prop where
  pending : (w.ctxs c).pendingQueue = []
  saved : (w.ctxs c).savedEvent = none
  pipes : ∀ k, w.queueNodes c k = []

/-- The local timers of a bus in real time fire by the clock. -/
theorem busRealtimeSource_local (h : busRealtimeSource w c now = .timer .clockLocal) :
    timerDue w c .clockLocal (busGetTime w c now) = true := by
  unfold busRealtimeSource at h
  split at h
  case isTrue hdue => exact hdue
  case isFalse => repeat' split at h <;> try cases h

/-- Its exchange timers fire by the held event. -/
theorem busRealtimeSource_exchange (h : busRealtimeSource w c now = .timer .clockExchange) :
    timerDueAtSaved w c .clockExchange = true := by
  unfold busRealtimeSource at h
  split at h
  case isTrue => cases h
  case isFalse =>
    split at h
    case isTrue hdue => exact hdue.2
    case isFalse => repeat' split at h <;> try cases h

/-- **A timer that is served is due by `M`**: by an event of the bus, or by the
clock. -/
theorem Bounded.timer_le (hb : Bounded w c M) (hclock : (w.ctxs c).mode = .realtime → now ≤ M)
    (h : busSource w c now = .timer j) :
    ∃ t, timerHeapPeek w c j = some t ∧ (w.reminders t).timeout ≤ M := by
  have bySaved : timerDueAtSaved w c j = true →
      ∃ t, timerHeapPeek w c j = some t ∧ (w.reminders t).timeout ≤ M := by
    intro hdue
    obtain ⟨e, t, hsaved, hpeek, hle⟩ := timerDueAtSaved_peek hdue
    exact ⟨t, hpeek, Nat.le_trans hle (hb.saved e hsaved)⟩
  cases hmode : (w.ctxs c).mode with
  | simulation =>
      rw [busSource_simulation hmode] at h
      exact bySaved (busSimulationSource_timer h)
  | realtime =>
      rw [busSource_realtime hmode] at h
      cases j with
      | clockLocal =>
          obtain ⟨t, hpeek, hle⟩ := timerDue_peek (busRealtimeSource_local h)
          rw [busGetTime, hmode] at hle
          exact ⟨t, hpeek, Nat.le_trans hle (hclock hmode)⟩
      | clockExchange => exact bySaved (busRealtimeSource_exchange h)

/-- **What is served uses something up**, and nothing is served by a bus that
is dry. -/
theorem Served.fuelLeft (h : Served w c (busSource w c now) w' o) (hi : BusInv w)
    (hclock : (w.ctxs c).mode = .realtime → now ≤ M)
    (hb : Bounded w c M) (hpend : (w.ctxs c).pendingQueue = [])
    (hfilled : w.queueNodes c .market = [] ∨ (w.ctxs c).savedEvent ≠ none) :
    Bounded w' c M ∧ (∀ e, o = some e → fuelLeft w' c M < fuelLeft w c M)
      ∧ (o = none → Dry w' c) := by
  have hspec := busSource_spec w c now
  generalize hsrc : busSource w c now = src at h hspec
  cases h with
  | timer hpop =>
      rename_i j t v
      obtain ⟨s, hpeek, hle⟩ := hb.timer_le hclock hsrc
      rw [hi.timer.timerHeapPeek_eq, hpop.first] at hpeek
      cases hpeek
      obtain ⟨hb', hlt⟩ := hpop.served hi hb hle
      exact ⟨hb', fun _ _ => hlt, nofun⟩
  | pipe hpop hk =>
      rename_i k q e v
      have hstep := BusStep.give hpop hk
      have hcost := hstep.fuelLeft hi (by simp [dequeueKinds]) (by simp) hb
      refine ⟨hstep.bounded hi (by simp [dequeueKinds]) hb fun j t ht => ?_, fun _ _ => ?_, nofun⟩
      · have hstand := hstep.timersStand (fun d => by simp)
        rw [hstand.timerNodes] at ht
        rw [hstand.reminders]
        exact hb.rearm j t ht
      · rw [StepKind.cost] at hcost
        omega
  | saved hun hforward =>
      rename_i e v
      have hstep := BusStep.release hun
      have hi1 : BusInv v := by
        obtain ⟨q, hsaved, -, -⟩ := busUnsave_eq hun
        obtain ⟨_, -, hun', hi1⟩ := hi.busUnsave hsaved
        cases hun.symm.trans hun'
        exact hi1
      have hcost := hstep.fuelLeft hi (by simp [dequeueKinds]) (by simp) hb
      rw [StepKind.cost] at hcost
      have hb1 : Bounded v c M := hstep.bounded hi (by simp [dequeueKinds]) hb fun j t ht => by
        have hstand := hstep.timersStand (fun d => by simp)
        rw [hstand.timerNodes] at ht
        rw [hstand.reminders]
        exact hb.rearm j t ht
      split at hforward
      case isTrue =>
        -- the copies go to other buses
        obtain ⟨u, hforward', hrun'⟩ := hi1.busForward c e
        cases hforward.symm.trans hforward'
        obtain ⟨hb', hle⟩ := hrun'.fuelLeft_le (by
          rintro s (rfl | rfl) <;> simp [dequeueKinds]) (by simp) hb1
        exact ⟨hb', fun _ _ => by omega, nofun⟩
      case isFalse =>
        cases hforward
        exact ⟨hb1, fun _ _ => by omega, nofun⟩
  | nothing =>
      refine ⟨hb, by simp, fun _ => ⟨hpend, hspec.nothing rfl, fun k => ?_⟩⟩
      by_cases hk : k = .market
      · subst hk
        exact hfilled.resolve_right fun hne => hne (hspec.nothing rfl)
      · exact (hi.queue.pipeIsEmpty_iff c k).mp (hspec.late (.inr rfl) k hk)

/-- **A call of `bus_dequeue`** uses up a part of what is left, or finds the bus
dry. -/
theorem Dequeued.fuelLeft (hd : Dequeued w c now w1 w2 w' o)
    (hclock : (w.ctxs c).mode = .realtime → now ≤ M) (hb : Bounded w c M) :
    Bounded w' c M ∧ (∀ e, o = some e → Ats.fuelLeft w' c M < Ats.fuelLeft w c M)
      ∧ (o = none → Dry w' c) := by
  obtain ⟨hb1, hle1⟩ := hd.enter.fuelLeft_le (by rintro s rfl; simp [dequeueKinds]) (by simp) hb
  obtain ⟨hb2, hle2⟩ := hd.look.run.fuelLeft_le
    (by rintro s (rfl | rfl) <;> simp [dequeueKinds]) (by simp) hb1
  obtain ⟨hbv, hlt, hdry⟩ := hd.served.fuelLeft hd.look.run.inv
    (fun hmode => hclock (hd.mode.symm.trans hmode)) hb2 hd.pending hd.look.filled
  refine ⟨hbv, fun e he => ?_, hdry⟩
  have := hlt e he
  omega

/-- A call leaves the bus in its mode. -/
theorem Dequeued.sameMode (hd : Dequeued w c now w1 w2 w' o) :
    (w'.ctxs c).mode = (w.ctxs c).mode := by
  rw [hd.finish.sameClock.mode]
  exact hd.mode

/-- **A dry bus stays as it is**, until a local timer is due in real time. -/
theorem Dry.dequeue (h : Dry w c) (hi : BusInv w)
    (hdue : (w.ctxs c).mode = .realtime → timerDue w c .clockLocal now = false) :
    busDequeue w c now = some (w, none) := by
  have hempty : ∀ k, pipeIsEmpty w c k = true := fun k =>
    (hi.queue.pipeIsEmpty_iff c k).mpr (h.pipes k)
  rw [busDequeue, checkPendingQueue_nil h.pending]
  cases hmode : (w.ctxs c).mode with
  | simulation =>
      have hsource : busSimulationSource w c = .nothing := by
        simp [busSimulationSource, timerDueAtSaved, savedIsTick, h.saved, hempty]
      simp only [Option.bind_eq_bind, Option.bind_some, hmode, busSimulationDequeue,
        busSimulationMarket, hempty, not_true, false_and, if_false, busSimulationServe, hsource]
  | realtime =>
      have hsource : busRealtimeSource w c now = .nothing := by
        simp [busRealtimeSource, busGetTime, hmode, hdue hmode, timerDueAtSaved, savedIsTick,
          h.saved, hempty]
      simp only [Option.bind_eq_bind, Option.bind_some, hmode, busRealtimeDequeue,
        busRealtimeMarket, hempty, not_true, false_and, if_false, busRealtimeServe, hsource]

/-! ## Draining -/

/-- **The rule of a drain**: it comes to a call that returns `NULL`, and what
each call keeps holds before that one. -/
theorem Bounded.drain (n : Nat) : ∀ {w : World} (clock : Nat → Nat) {I : Nat → World → Prop},
    Bounded w c M → BusInv w → ((w.ctxs c).mode = .realtime → ∀ i < n, clock i ≤ M) →
    Ats.fuelLeft w c M < n → I 0 w →
    (∀ i v w1 w2 v' o, I i v → Bounded v c M → ((w.ctxs c).mode = .realtime → clock i ≤ M) →
      BusInv v → (v.ctxs c).mode = (w.ctxs c).mode →
      Dequeued v c (clock i) w1 w2 v' o → I (i + 1) v') →
    ∃ v w1 w2 u es, drainBus n w c clock = some (u, es) ∧ es.length ≤ Ats.fuelLeft w c M
      ∧ I es.length v ∧ Bounded v c M ∧ (v.ctxs c).mode = (w.ctxs c).mode
      ∧ Dequeued v c (clock es.length) w1 w2 u none ∧ Dry u c := by
  induction n with
  | zero =>
      intro w _ _ _ _ _ hn
      exact absurd hn (Nat.not_lt_zero _)
  | succ n ih =>
      intro w clock I hb hi hclock hn h0 hstep
      obtain ⟨w1, w2, v, o, hcall, hd⟩ := hi.busDequeue c (clock 0)
      obtain ⟨hbv, hlt, hdry⟩ := hd.fuelLeft (fun hmode => hclock hmode 0 (Nat.succ_pos n)) hb
      have hmode := hd.sameMode
      rw [drainBus, hcall]
      cases o with
      | none => exact ⟨w, w1, w2, v, [], rfl, Nat.zero_le _, h0, hb, rfl, hd, hdry rfl⟩
      | some e =>
          have hless := hlt e rfl
          obtain ⟨x, x1, x2, u, es, hrest, hlen, hI, hbx, hmodex, hdx, hdryu⟩ :=
            ih (fun i => clock (i + 1)) (I := fun i => I (i + 1)) hbv hd.finish.inv
              (fun hreal i hin => hclock (hmode.symm.trans hreal) _ (Nat.succ_lt_succ hin))
              (by omega)
              (hstep 0 _ _ _ _ _ h0 hb (fun hreal => hclock hreal 0 (Nat.succ_pos n)) hi rfl hd)
              (fun i x _ _ _ _ hIx hbx hx hix hmodex => hstep (i + 1) x _ _ _ _ hIx hbx
                (fun hreal => hx (hmode.trans hreal)) hix (hmodex.trans hmode))
          refine ⟨x, x1, x2, u, e :: es, ?_, ?_, hI, hbx, hmodex.trans hmode, hdx, hdryu⟩
          · show Option.bind (drainBus n v c _) _ = _
            rw [hrest]
            rfl
          · rw [List.length_cons]
            omega

/-- **A simulation runs dry.** From every memory that clean calls lead to, a
bus in simulation mode whose events and timers are bounded returns `NULL` after
so many events at the latest as are left on it, and for ever after. -/
theorem simulation_runsDry (hw : Booted w) (ops : List BusOp) (hrun : CleanRun w ops) :
    ∃ v rs, runOps w ops = some (v, rs) ∧ ∀ c M, (v.ctxs c).mode = .simulation →
      Bounded v c M → ∀ clock, ∃ u es,
        drainBus (fuelLeft v c M + 1) v c clock = some (u, es) ∧ es.length ≤ fuelLeft v c M
          ∧ ∀ now, busDequeue u c now = some (u, none) := by
  obtain ⟨v, rs, hcall, hi⟩ := hw.inv.cleanRun hrun
  refine ⟨v, rs, hcall, fun c M hsim hb clock => ?_⟩
  obtain ⟨x, w1, w2, u, es, hdrain, hlen, -, -, hmode, hd, hdry⟩ :=
    hb.drain (fuelLeft v c M + 1) clock (I := fun _ _ => True) hi (by simp [hsim])
      (Nat.lt_succ_self _) trivial (fun _ _ _ _ _ _ _ _ _ _ _ _ => trivial)
  have hsimu : (u.ctxs c).mode = .simulation := (hd.sameMode.trans hmode).trans hsim
  exact ⟨u, es, hdrain, hlen, fun now => hdry.dequeue hd.finish.inv (by simp [hsimu])⟩

/-- Two events and a timer that may fire at 4, 7 and 10: five calls. -/
theorem simulation_runsDry_repeating :
    ∃ v rs, runOps repeatingWorld repeatingSetup = some (v, rs) ∧ Bounded v 0 10
      ∧ fuelLeft v 0 10 = 5 ∧ ∀ clock, ∃ u es, drainBus (fuelLeft v 0 10 + 1) v 0 clock = some (u, es)
        ∧ es.length ≤ fuelLeft v 0 10 ∧ ∀ now, busDequeue u 0 now = some (u, none) := by
  obtain ⟨v, rs, hcall, hdry⟩ :=
    simulation_runsDry repeatingWorld_booted repeatingSetup (by decide +kernel)
  have hstate : (runOps repeatingWorld repeatingSetup).any (fun r =>
      decide ((r.1.ctxs 0).mode = .simulation ∧ (r.1.ctxs 0).time .clockLocal ≤ 10
        ∧ (∀ q < r.1.nextQueue, ∀ e ∈ r.1.contents q, (r.1.events e).timestamp ≤ 10)
        ∧ (r.1.ctxs 0).savedEvent = none ∧ (r.1.ctxs 0).attachedCount = 0
        ∧ (∀ t ∈ r.1.timerNodes 0 .clockLocal, 10 + (r.1.reminders t).repeat < 2 ^ 64)
        ∧ (∀ t ∈ r.1.timerNodes 0 .clockExchange, 10 + (r.1.reminders t).repeat < 2 ^ 64)
        ∧ fuelLeft r.1 0 10 = 5))
      = true := by
    decide +kernel
  rw [hcall, Option.any_some, decide_eq_true_iff] at hstate
  obtain ⟨hsim, htime, hstamp, hsaved, hatt, hlocal, hexchange, hfuel⟩ := hstate
  have hb : Bounded v 0 10 :=
    { time := htime
      stamp := fun q hlt _ => hstamp q hlt
      saved := fun e he => by rw [hsaved] at he; cases he
      rearm := fun j => by cases j <;> assumption
      apart := fun i hi => absurd (Nat.lt_of_lt_of_eq hi hatt) (Nat.not_lt_zero i) }
  exact ⟨v, rs, hcall, hb, hfuel, hdry 0 10 hsim hb⟩

end Ats
