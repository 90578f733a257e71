import Ats.Core.Dequeue

/-!
# Serve: what `bus_dequeue` returns

After the market block the cascade picks one source. `Served` says what
each source returns and leaves behind; `BusInv.busDequeue` puts the three
stages of a call together.
-/

namespace Ats

variable {w w' : World} {c : CtxId} {k : QueueCategory} {q : QueueId} {e : EventId}

/-- The cascade of the mode the bus is in. -/
def busSource (w : World) (c : CtxId) (now : Nat) : BusSource :=
  match (w.ctxs c).mode with
  | .simulation => busSimulationSource w c
  | .realtime => busRealtimeSource w c now

theorem busSource_simulation {now : Nat} (hmode : (w.ctxs c).mode = .simulation) :
    busSource w c now = busSimulationSource w c := by
  rw [busSource, hmode]

theorem busSource_realtime {now : Nat} (hmode : (w.ctxs c).mode = .realtime) :
    busSource w c now = busRealtimeSource w c now := by
  rw [busSource, hmode]

/-! ## The cascade -/

theorem timerDue_peek {k : ClockType} {limit : Nat} (h : timerDue w c k limit = true) :
    ∃ t, timerHeapPeek w c k = some t ∧ (w.reminders t).timeout ≤ limit := by
  rw [timerDue] at h
  split at h
  case h_1 => cases h
  case h_2 r hr => exact ⟨r, hr, by simpa using h⟩

theorem timerDueAtSaved_peek {k : ClockType} (h : timerDueAtSaved w c k = true) :
    ∃ e t, (w.ctxs c).savedEvent = some e ∧ timerHeapPeek w c k = some t
      ∧ (w.reminders t).timeout ≤ (w.events e).timestamp := by
  rw [timerDueAtSaved] at h
  split at h
  case h_1 => cases h
  case h_2 e he =>
    obtain ⟨t, ht, hle⟩ := timerDue_peek h
    exact ⟨e, t, he, ht, hle⟩

/-- **What the choice of a source tells.** -/
structure SourceSpec (w : World) (c : CtxId) (src : BusSource) : Prop where
  timer : ∀ k, src = .timer k → ∃ t, timerHeapPeek w c k = some t
  pipe : ∀ k, src = .pipe k → k ≠ .market ∧ pipeIsEmpty w c k = false
  late : src = .saved ∨ src = .nothing →
    ∀ k, k ≠ .market → pipeIsEmpty w c k = true
  saved : src = .saved → (w.ctxs c).savedEvent.isSome
  nothing : src = .nothing → (w.ctxs c).savedEvent = none

theorem busSimulationSource_spec (w : World) (c : CtxId) :
    SourceSpec w c (busSimulationSource w c) := by
  unfold busSimulationSource
  split
  case isTrue hd =>
    obtain ⟨e, t, he, ht, _⟩ := timerDueAtSaved_peek hd
    constructor <;> simp_all
  case isFalse =>
    split
    case isTrue hd =>
      obtain ⟨e, t, he, ht, _⟩ := timerDueAtSaved_peek hd.2
      constructor <;> simp_all
    case isFalse =>
      repeat' split
      all_goals constructor <;> simp_all
      all_goals intro k hk; cases k <;> simp_all

theorem busRealtimeSource_spec (w : World) (c : CtxId) (now : Nat) :
    SourceSpec w c (busRealtimeSource w c now) := by
  unfold busRealtimeSource
  split
  case isTrue hd =>
    obtain ⟨t, ht, _⟩ := timerDue_peek hd
    constructor <;> simp_all
  case isFalse =>
    split
    case isTrue hd =>
      obtain ⟨e, t, he, ht, _⟩ := timerDueAtSaved_peek hd.2
      constructor <;> simp_all
    case isFalse =>
      repeat' split
      all_goals constructor <;> simp_all
      all_goals intro k hk; cases k <;> simp_all

theorem busSource_spec (w : World) (c : CtxId) (now : Nat) :
    SourceSpec w c (busSource w c now) := by
  unfold busSource
  split
  · exact busSimulationSource_spec w c
  · exact busRealtimeSource_spec w c now

/-! ## Serving one source -/

/-- **What a source returns**, and the memory it leaves. -/
inductive Served (w : World) (c : CtxId) : BusSource → World → Option EventId → Prop
  | timer {k : ClockType} {t : EventId} {w' : World} :
      TimerPop w w' c k t →
      Served w c (.timer k) (w'.note (.fire c k t (w.reminders t).timeout)) (some t)
  | pipe {k : QueueCategory} {q : QueueId} {e : EventId} {w' : World} :
      PipePop w w' c k q e → k ≠ .market →
      Served w c (.pipe k) (w'.note (.give c k q e)) (some e)
  | saved {e : EventId} {w1 w' : World} :
      busUnsave w c = some (w1, e) →
      (if (w.ctxs c).mode = .simulation then busForward w1 c e = some w' else w' = w1) →
      Served w c .saved w' (some e)
  | nothing : Served w c .nothing w none

theorem BusInv.busReturnTimer {k : ClockType} (h : BusInv w) {t : EventId}
    (ht : timerHeapPeek w c k = some t) :
    ∃ w', busReturnTimer w c k = some (w', some t) ∧ Served w c (.timer k) w' (some t)
      ∧ BusRun {.fire c} w w' := by
  have hhead : (w.timerNodes c k).head? = some t := by
    rw [← h.timer.timerHeapPeek_eq]
    exact ht
  obtain ⟨w1, hcall, hpop, ht1⟩ := h.timer.timerHeapPop hhead
  have h1 : BusInv (w1.note (.fire c k t (w.reminders t).timeout)) :=
    (h.of_timerFrame hpop.frame ht1).note _
  refine ⟨_, ?_, Served.timer hpop, BusRun.single h (Set.mem_singleton _) (BusStep.fire hpop) h1⟩
  rw [Ats.busReturnTimer, ht]
  simp only [hcall, Option.bind_eq_bind, Option.bind_some]

theorem BusInv.busReturnPipe (h : BusInv w) (hk : k ≠ .market)
    (hp : pipeIsEmpty w c k = false) :
    ∃ w' e, busReturnPipe w c k = some (w', some e) ∧ Served w c (.pipe k) w' (some e)
      ∧ BusRun {.give c} w w' := by
  have hn : w.queueNodes c k ≠ [] := by
    intro hc
    rw [(h.queue.pipeIsEmpty_iff c k).mpr hc] at hp
    cases hp
  obtain ⟨w1, q, e, hcall, hpop, hq1⟩ := h.queue.eventPopFormPipe hn
  have h1 : BusInv (w1.note (.give c k q e)) := (h.of_pipePop hpop hq1).note _
  refine ⟨_, e, ?_, Served.pipe hpop hk,
    BusRun.single h (Set.mem_singleton _) (BusStep.give hpop hk) h1⟩
  rw [Ats.busReturnPipe, h.queue.heapMin_eq, hpop.first]
  simp only [hcall, Option.bind_eq_bind, Option.bind_some]

theorem BusInv.busUnsave (h : BusInv w) (hs : (w.ctxs c).savedEvent = some e) :
    ∃ q, (w.ctxs c).savedFrom = some q
      ∧ busUnsave w c = some ((w.updCtx c fun x =>
          { x with savedEvent := none, savedFrom := none }).note (.give c .market q e), e)
      ∧ BusInv ((w.updCtx c fun x =>
          { x with savedEvent := none, savedFrom := none }).note (.give c .market q e)) := by
  have hsome := h.saved c
  rw [hs] at hsome
  obtain ⟨q, hq⟩ := Option.isSome_iff_exists.mp hsome.symm
  refine ⟨q, hq, ?_, ?_⟩
  · rw [Ats.busUnsave, hs, hq]
    rfl
  · refine BusInv.note ?_ _
    refine h.setSaved rfl (fun p hp => ?_)
    cases hp

/-- **A round of the forwarding loop.** -/
theorem BusInv.busForwardOne (h : BusInv w) (e : EventId) {i : Nat}
    (hi : i < (w.ctxs c).attachedCount) :
    ∃ w', busForwardOne w c e i = some w' ∧ BusRun {.forward c, .overrun c} w w'
      ∧ (w'.ctxs c).attachedCount = (w.ctxs c).attachedCount := by
  rw [Ats.busForwardOne]
  split
  case isFalse => exact ⟨w, rfl, BusRun.refl h, rfl⟩
  case isTrue =>
    obtain ⟨q, hq, hlt, _⟩ := h.attached c i hi
    have h1 : BusInv (eventRef w e) := h.updEvent e _
    obtain ⟨w', ret, hcall, hq', hres⟩ := h1.queue.eventQueuePush (q := q) hlt e
    rw [hq]
    simp only [hcall, Option.bind_eq_bind, Option.bind_some]
    rcases hres with ⟨_, hpush⟩ | ⟨_, rfl, hfull⟩
    · have h' := h1.of_queuePushed hpush hq'
      refine ⟨w', rfl, BusRun.single h (Or.inl rfl) (BusStep.forward hi hq hpush) h', ?_⟩
      rw [hpush.ctxs]
      rfl
    · exact ⟨_, rfl, BusRun.single h (Or.inr rfl) (BusStep.overrun hi hq hfull) h1, rfl⟩

theorem BusInv.busForwardLoop (e : EventId) : ∀ (is : List Nat) {w : World}, BusInv w →
    (∀ i ∈ is, i < (w.ctxs c).attachedCount) →
    ∃ w', is.foldlM (fun w i => Ats.busForwardOne w c e i) w = some w'
      ∧ BusRun {.forward c, .overrun c} w w' := by
  intro is
  induction is with
  | nil => exact fun h _ => ⟨_, rfl, BusRun.refl h⟩
  | cons i is ih =>
      intro w h hi
      obtain ⟨w1, hcall, hrun, hcount⟩ := h.busForwardOne e (hi i List.mem_cons_self)
      obtain ⟨w2, hloop, hrun2⟩ := ih hrun.inv
        (fun j hj => by rw [hcount]; exact hi j (List.mem_cons_of_mem i hj))
      refine ⟨w2, ?_, hrun.trans hrun2⟩
      rw [List.foldlM_cons, hcall]
      exact hloop

/-- **The forwarding loop.** -/
theorem BusInv.busForward (h : BusInv w) (c : CtxId) (e : EventId) :
    ∃ w', busForward w c e = some w' ∧ BusRun {.forward c, .overrun c} w w' :=
  BusInv.busForwardLoop e _ h (fun _ hi => List.mem_range.mp hi)

/-- The kinds of steps after the market block. -/
def serveKinds (c : CtxId) : Set StepKind :=
  {.give c, .fire c, .release c, .forward c, .overrun c}

theorem forwardKinds_sub (c : CtxId) :
    ({.forward c, .overrun c} : Set StepKind) ⊆ serveKinds c := by
  intro s hs
  rcases hs with rfl | rfl <;> simp [serveKinds]

theorem BusInv.busSimulationServe (h : BusInv w) (hmode : (w.ctxs c).mode = .simulation) :
    ∃ w' r, busSimulationServe w c = some (w', r)
      ∧ Served w c (busSimulationSource w c) w' r ∧ BusRun (serveKinds c) w w' := by
  have hspec := busSimulationSource_spec w c
  rw [Ats.busSimulationServe]
  cases hs : busSimulationSource w c with
  | timer k =>
      obtain ⟨t, ht⟩ := hspec.timer k hs
      obtain ⟨w', hcall, hserved, hrun⟩ := h.busReturnTimer ht
      exact ⟨w', some t, hcall, hserved, hrun.mono (by simp [serveKinds])⟩
  | pipe k =>
      obtain ⟨hk, hp⟩ := hspec.pipe k hs
      obtain ⟨w', e, hcall, hserved, hrun⟩ := h.busReturnPipe hk hp
      exact ⟨w', some e, hcall, hserved, hrun.mono (by simp [serveKinds])⟩
  | saved =>
      obtain ⟨e, he⟩ := Option.isSome_iff_exists.mp (hspec.saved hs)
      obtain ⟨q, hq, hun, h1⟩ := h.busUnsave he
      obtain ⟨w', hfw, hrun⟩ := h1.busForward c e
      refine ⟨w', some e, ?_, Served.saved hun ?_,
        (BusRun.single h (by simp [serveKinds]) (BusStep.release hun) h1).trans
          (hrun.mono (forwardKinds_sub c))⟩
      · simp only [hun, hfw, Option.bind_eq_bind, Option.bind_some]
      · rw [if_pos hmode]
        exact hfw
  | nothing => exact ⟨w, none, rfl, Served.nothing, BusRun.refl h⟩

theorem BusInv.busRealtimeServe (h : BusInv w) (hmode : (w.ctxs c).mode = .realtime)
    (now : Nat) :
    ∃ w' r, busRealtimeServe w c now = some (w', r)
      ∧ Served w c (busRealtimeSource w c now) w' r ∧ BusRun (serveKinds c) w w' := by
  have hspec := busRealtimeSource_spec w c now
  rw [Ats.busRealtimeServe]
  cases hs : busRealtimeSource w c now with
  | timer k =>
      obtain ⟨t, ht⟩ := hspec.timer k hs
      obtain ⟨w', hcall, hserved, hrun⟩ := h.busReturnTimer ht
      exact ⟨w', some t, hcall, hserved, hrun.mono (by simp [serveKinds])⟩
  | pipe k =>
      obtain ⟨hk, hp⟩ := hspec.pipe k hs
      obtain ⟨w', e, hcall, hserved, hrun⟩ := h.busReturnPipe hk hp
      exact ⟨w', some e, hcall, hserved, hrun.mono (by simp [serveKinds])⟩
  | saved =>
      obtain ⟨e, he⟩ := Option.isSome_iff_exists.mp (hspec.saved hs)
      obtain ⟨q, hq, hun, h1⟩ := h.busUnsave he
      refine ⟨_, some e, ?_, Served.saved hun ?_,
        BusRun.single h (by simp [serveKinds]) (BusStep.release hun) h1⟩
      · simp only [hun, Option.bind_eq_bind, Option.bind_some]
      · rw [if_neg (by rw [hmode]; decide)]
  | nothing => exact ⟨w, none, rfl, Served.nothing, BusRun.refl h⟩

/-! ## `bus_dequeue` -/

/-- **The three stages of `bus_dequeue`**: from `w` the pending list is
emptied (`w1`), the look-ahead filled (`w2`), and one source served. -/
structure Dequeued (w : World) (c : CtxId) (now : Nat) (w1 w2 w' : World)
    (r : Option EventId) : Prop where
  check : checkPendingQueue w c = some w1
  enter : BusRun {.reenter c} w w1
  look : LookAhead w1 w2 c
  market : (w.ctxs c).mode = .simulation →
    busSimulationMarket (busBacklog w1 c .market + 1) w1 c now = some w2
  pending : (w2.ctxs c).pendingQueue = []
  mode : (w2.ctxs c).mode = (w.ctxs c).mode
  served : Served w2 c (busSource w2 c now) w' r
  finish : BusRun (serveKinds c) w2 w'

theorem Dequeued.run {w1 w2 : World} {now : Nat} {r : Option EventId}
    (h : Dequeued w c now w1 w2 w' r) : BusRun (dequeueKinds c) w w' := by
  refine ((h.enter.mono ?_).trans (h.look.run.mono ?_)).trans (h.finish.mono ?_)
  · rintro s rfl
    simp [dequeueKinds]
  · rintro s (rfl | rfl) <;> simp [dequeueKinds]
  · rintro s (rfl | rfl | rfl | rfl | rfl) <;> simp [dequeueKinds]

/-- **`bus_dequeue` returns**, and is a chain of steps. -/
theorem BusInv.busDequeue (h : BusInv w) (c : CtxId) (now : Nat) :
    ∃ w1 w2 w' r, busDequeue w c now = some (w', r) ∧ Dequeued w c now w1 w2 w' r := by
  obtain ⟨w1, hcheck, hrun1, hpend1, hmode1⟩ := h.checkPendingQueue c
  have h1 := hrun1.inv
  cases hmode : (w1.ctxs c).mode with
  | simulation =>
      obtain ⟨w2, hmarket, hlook⟩ := h1.busSimulationMarket now _ hmode (Nat.lt_succ_self _)
      have hmode2 := hlook.mode.trans hmode
      obtain ⟨w', r, hserve, hserved, hfinish⟩ :=
        hlook.run.inv.busSimulationServe hmode2
      refine ⟨w1, w2, w', r, ?_, hcheck, hrun1, hlook, fun _ => hmarket,
        hlook.pending.trans hpend1, hlook.mode.trans hmode1, ?_, hfinish⟩
      · rw [Ats.busDequeue, hcheck]
        simp only [Option.bind_eq_bind, Option.bind_some, hmode]
        rw [Ats.busSimulationDequeue, hmarket]
        exact hserve
      · rw [busSource_simulation hmode2]
        exact hserved
  | realtime =>
      obtain ⟨w2, hmarket, hlook⟩ := h1.busRealtimeMarket c
      have hmode2 := hlook.mode.trans hmode
      obtain ⟨w', r, hserve, hserved, hfinish⟩ :=
        hlook.run.inv.busRealtimeServe hmode2 now
      refine ⟨w1, w2, w', r, ?_, hcheck, hrun1, hlook, fun hsim => ?_,
        hlook.pending.trans hpend1, hlook.mode.trans hmode1, ?_, hfinish⟩
      · rw [Ats.busDequeue, hcheck]
        simp only [Option.bind_eq_bind, Option.bind_some, hmode]
        rw [Ats.busRealtimeDequeue, hmarket]
        exact hserve
      · rw [← hmode1, hmode] at hsim
        cases hsim
      · rw [busSource_realtime hmode2]
        exact hserved

/-- **A `NULL` from `bus_dequeue`** means that the bus holds no event. -/
theorem Dequeued.empty {w1 w2 : World} {now : Nat} (h : Dequeued w c now w1 w2 w' none) :
    (w'.ctxs c).savedEvent = none ∧ (w'.ctxs c).pendingQueue = []
      ∧ ∀ k, w'.queueNodes c k = [] := by
  have hspec := busSource_spec w2 c now
  have hserved := h.served
  generalize hsrc : busSource w2 c now = src at hserved hspec
  cases hserved with
  | nothing =>
      have hsaved := hspec.nothing rfl
      have hlate := hspec.late (Or.inr rfl)
      refine ⟨hsaved, h.pending, fun k => ?_⟩
      by_cases hk : k = .market
      · subst hk
        exact h.look.filled.resolve_right (fun hc => hc hsaved)
      · exact (h.run.inv.queue.pipeIsEmpty_iff c k).mp (hlate k hk)

end Ats
