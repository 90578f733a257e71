import Ats.Core.Client
import Ats.Lib.GuardedRun

/-!
# Threads: a producer and the consumer of a bus, call by call

One thread runs `event_queue_push`, the other `bus_dequeue` and
`bus_add_queue` on bus `c`. A turn is one call on what they share: the
producer's `spscq_is_empty`, `spscq_push` and `mpscq_push`, the consumer's
`mpscq_pop`, `heap_remove`, `event_queue_pop`, `event_queue_is_empty` and
`heap_insert`, with the thread's own work up to the next such call.
-/

namespace Ats

open GuardedRun

variable {w w' : World} {c d : CtxId} {k : QueueCategory} {q p : QueueId} {e : EventId}

/-! ## Where the threads stand -/

/-- Where the producer stands in `event_queue_push(q, e)`. -/
inductive PushPoint where
  | idle
  /-- before `spscq_push`; `isEmpty` is what `spscq_is_empty` answered -/
  | append (q : QueueId) (e : EventId) (isEmpty : Bool)
  /-- before `if (q->ctx)`, with `is_empty` set -/
  | notify (q : QueueId) (ret : Int)
deriving DecidableEq, Repr

/-- Where the consumer stands in `bus_dequeue`, at wall clock `now`, or in
`bus_add_queue`. -/
inductive BusPoint where
  | idle
  /-- before `mpscq_pop` of `check_pending_queue` -/
  | check (now : Nat)
  /-- in `bus_add_queue`, before `event_queue_is_empty`; `back` is the
  `bus_dequeue` to go back to -/
  | test (back : Option Nat) (q : QueueId)
  /-- in `bus_add_queue`, before `heap_insert` -/
  | link (back : Option Nat) (q : QueueId)
  /-- before the market block -/
  | market (now : Nat)
  /-- before the cascade -/
  | serve (now : Nat)
  /-- in `event_pop_form_pipe`, before `event_queue_pop` -/
  | pop (now : Nat) (k : QueueCategory) (q : QueueId)
  /-- in `event_pop_form_pipe`, before `event_queue_is_empty` -/
  | retest (now : Nat) (k : QueueCategory) (q : QueueId) (e : Option EventId)
  /-- in `event_pop_form_pipe`, before `heap_insert` -/
  | relink (now : Nat) (k : QueueCategory) (q : QueueId) (e : Option EventId)
deriving DecidableEq, Repr

/-- A call the consumer may make. -/
inductive ConsumerCall where
  | dequeue (now : Nat)
  | addQueue (q : QueueId)
deriving DecidableEq, Repr

structure Threads where
  world : World
  producer : PushPoint
  consumer : BusPoint

/-- Whose turn it is. A thread between two calls enters the one that is
named. -/
inductive Turn where
  | producer (q : QueueId) (e : EventId)
  | consumer (call : ConsumerCall)
deriving DecidableEq, Repr

/-! ## The turns -/

/-- The producer's turn. Where the queue was not empty `event_queue_push`
is over with the append. -/
def producerStep (w : World) (q : QueueId) (e : EventId) :
    PushPoint → Option (World × PushPoint)
  | .idle => some (w, .append q e (eventQueueIsEmpty w q))
  | .append q e isEmpty =>
      let (w, ret) := eventQueueAppend w q e
      some (w, if isEmpty then .notify q ret else .idle)
  | .notify q ret => (eventQueueNotify w q true ret).map (·, .idle)

/-- Where `bus_add_queue` returns to. -/
def BusPoint.back : Option Nat → BusPoint
  | some now => .check now
  | none => .idle

/-- `heap_min` and `heap_remove` of `event_pop_form_pipe`. -/
def pipeUnlink (w : World) (c : CtxId) (now : Nat) (k : QueueCategory) :
    Option (World × BusPoint) := do
  let q ← heapMin ((w.ctxs c).queueHeap k)
  let w ← queueHeapRemove w c k q
  some (w, .pop now k q)

/-- What `bus_dequeue` does with the event `event_pop_form_pipe` returned. -/
def pipeReturn (w : World) (c : CtxId) (now : Nat) (k : QueueCategory) (q : QueueId)
    (e : Option EventId) : Option (World × BusPoint) :=
  if k = .market then
    match (w.ctxs c).mode with
    | .simulation => do
        let e ← e
        match busSimulationAccept w c now q e with
        | (w, true) => some (w, .market now)
        | (w, false) => some (w, .serve now)
    | .realtime =>
        match e with
        | none => some (w, .serve now)
        | some e => some (busSave w c q e, .serve now)
  else
    match e with
    | none => some (w, .idle)
    | some e => some (w.note (.give c k q e), .idle)

/-- The cascade, up to the `heap_remove` of `event_pop_form_pipe` where it
comes to that. -/
def busServe (w : World) (c : CtxId) (now : Nat) : Option (World × BusPoint) :=
  match busSource w c now with
  | .timer k => (busReturnTimer w c k).map fun r => (r.1, .idle)
  | .pipe k => pipeUnlink w c now k
  | .saved =>
      match (w.ctxs c).mode with
      | .simulation => do
          let (w, e) ← busUnsave w c
          let w ← busForward w c e
          some (w, .idle)
      | .realtime => (busUnsave w c).map fun r => (r.1, .idle)
  | .nothing => some (w, .idle)

/-- The consumer's turn. -/
def consumerStep (w : World) (c : CtxId) (call : ConsumerCall) :
    BusPoint → Option (World × BusPoint)
  | .idle =>
      match call with
      | .dequeue now => some (w, .check now)
      | .addQueue q => (busRegister w c q).map (·, .test none q)
  | .check now =>
      match (w.ctxs c).pendingQueue with
      | [] => some (w, .market now)
      | q :: rest =>
          (busRegister (w.updCtx c fun x => { x with pendingQueue := rest }) c q).map
            (·, .test (some now) q)
  | .test back q =>
      some (w, if eventQueueIsEmpty w q then .back back else .link back q)
  | .link back q => (queueHeapInsert w c (w.queues q).category q).map (·, .back back)
  | .market now =>
      if ¬ pipeIsEmpty w c .market ∧ (w.ctxs c).savedEvent = none then
        pipeUnlink w c now .market
      else some (w, .serve now)
  | .serve now => busServe w c now
  | .pop now k q =>
      let (w, e) := pipePop w q
      some (w, .retest now k q e)
  | .retest now k q e =>
      if eventQueueIsEmpty w q then pipeReturn w c now k q e
      else some (w, .relink now k q e)
  | .relink now k q e => do
      let w ← pipeRequeue w k q
      pipeReturn w c now k q e

/-- One turn. -/
def threadStep (c : CtxId) (s : Threads) : Turn → Option Threads
  | .producer q e =>
      (producerStep s.world q e s.producer).map fun r => ⟨r.1, r.2, s.consumer⟩
  | .consumer call =>
      (consumerStep s.world c call s.consumer).map fun r => ⟨r.1, s.producer, r.2⟩

/-! ## Turns without interruption are the calls -/

/-- Some number of turns `t` lead from `s` to `s'`. -/
def Alone (c : CtxId) (t : Turn) (s s' : Threads) : Prop :=
  ∃ n, run (threadStep c) s (List.replicate n t) = some s'

namespace Alone

variable {t : Turn} {s s' s'' : Threads}

theorem refl (s : Threads) : Alone c t s s := ⟨0, rfl⟩

theorem step (hs : threadStep c s t = some s') (h : Alone c t s' s'') : Alone c t s s'' := by
  obtain ⟨n, hn⟩ := h
  refine ⟨n + 1, ?_⟩
  rw [List.replicate_succ, run, hs]
  exact hn

theorem one (hs : threadStep c s t = some s') : Alone c t s s' := step hs (refl s')

theorem trans (h : Alone c t s s') (h' : Alone c t s' s'') : Alone c t s s'' := by
  obtain ⟨n, hn⟩ := h
  obtain ⟨m, hm⟩ := h'
  refine ⟨n + m, ?_⟩
  rw [List.replicate_add]
  exact run_append _ hn hm

/-- A turn of the consumer. -/
theorem consumer {call : ConsumerCall} {P : PushPoint} {a b : BusPoint}
    (hs : consumerStep w c call a = some (w', b)) :
    Alone c (.consumer call) ⟨w, P, a⟩ ⟨w', P, b⟩ := by
  apply one
  rw [threadStep, hs]
  rfl

end Alone

/-- **An undisturbed producer executes `event_queue_push`.** -/
theorem eventQueuePush_alone {ret : Int} (a : BusPoint)
    (h : eventQueuePush w q e = some (w', ret)) :
    Alone c (.producer q e) ⟨w, .idle, a⟩ ⟨w', .idle, a⟩ := by
  rw [eventQueuePush, Option.bind_eq_bind, Option.bind_eq_some_iff] at h
  obtain ⟨w2, hnot, h⟩ := h
  cases h
  refine @Alone.step c (.producer q e) _ ⟨w, .append q e (eventQueueIsEmpty w q), a⟩ _ rfl ?_
  cases hempty : eventQueueIsEmpty w q with
  | false =>
      rw [hempty] at hnot
      cases hnot
      exact Alone.one rfl
  | true =>
      rw [hempty] at hnot
      refine @Alone.step c (.producer q e) _
        ⟨(eventQueueAppend w q e).1, .notify q (eventQueueAppend w q e).2, a⟩ _ rfl ?_
      apply Alone.one
      rw [threadStep, producerStep, hnot]
      rfl

section Consumer

variable {call : ConsumerCall} {P : PushPoint} {now : Nat} {r : Option EventId}

/-- `bus_add_queue`, from its `q->ctx = ctx` on. -/
theorem busAddQueue_turns (back : Option Nat) (h : busAddQueue w c q = some w') :
    ∃ w1, busRegister w c q = some w1
      ∧ Alone c (.consumer call) ⟨w1, P, .test back q⟩ ⟨w', P, .back back⟩ := by
  rw [busAddQueue, Option.bind_eq_bind, Option.bind_eq_some_iff] at h
  obtain ⟨w1, hreg, h⟩ := h
  refine ⟨w1, hreg, ?_⟩
  split at h
  case isTrue hempty =>
    cases h
    apply Alone.consumer
    rw [consumerStep, if_pos hempty]
  case isFalse hempty =>
    have htest : Alone c (.consumer call) ⟨w1, P, .test back q⟩ ⟨w1, P, .link back q⟩ :=
      Alone.consumer (by rw [consumerStep, if_neg hempty])
    apply htest.trans
    apply Alone.consumer
    rw [consumerStep, h]
    rfl

/-- **An undisturbed consumer executes `bus_add_queue`.** -/
theorem busAddQueue_alone (h : busAddQueue w c q = some w') :
    Alone c (.consumer (.addQueue q)) ⟨w, P, .idle⟩ ⟨w', P, .idle⟩ := by
  obtain ⟨w1, hreg, hrest⟩ := busAddQueue_turns none h
  refine (Alone.consumer ?_).trans hrest
  rw [consumerStep, hreg]
  rfl

theorem busAddQueue_pendingQueue (h : busAddQueue w c q = some w') :
    (w'.ctxs c).pendingQueue = (w.ctxs c).pendingQueue := by
  rw [busAddQueue, Option.bind_eq_bind, Option.bind_eq_some_iff] at h
  obtain ⟨w1, hreg, h⟩ := h
  have hreg1 : (w1.ctxs c).pendingQueue = (w.ctxs c).pendingQueue := by
    rw [busRegister] at hreg
    split at hreg
    · cases hreg
      rw [queueStart_ctxs, if_pos rfl]
      rfl
    · cases hreg
  split at h
  · cases h
    exact hreg1
  · rw [queueHeapInsert, Option.bind_eq_bind, Option.bind_eq_some_iff] at h
    obtain ⟨m, _, h⟩ := h
    cases h
    rw [w1.setQueueMem_proj c c _ m Ctx.pendingQueue (fun _ _ => rfl)]
    exact hreg1

theorem checkPendingLoop_turns : ∀ (n : Nat) {w : World},
    (w.ctxs c).pendingQueue.length = n → checkPendingLoop n w c = some w' →
    Alone c (.consumer call) ⟨w, P, .check now⟩ ⟨w', P, .market now⟩ := by
  intro n
  induction n with
  | zero =>
      intro w hlen h
      cases h
      apply Alone.consumer
      rw [consumerStep, List.length_eq_zero_iff.mp hlen]
  | succ n ih =>
      intro w hlen h
      cases hp : (w.ctxs c).pendingQueue with
      | nil =>
          rw [hp] at hlen
          cases hlen
      | cons q rest =>
          rw [checkPendingLoop, hp] at h
          simp only [Option.bind_eq_bind, Option.bind_eq_some_iff] at h
          obtain ⟨w2, hadd, hloop⟩ := h
          obtain ⟨w1, hreg, hrest⟩ := busAddQueue_turns (some now) hadd
          refine ((Alone.consumer ?_).trans hrest).trans (ih ?_ hloop)
          · rw [consumerStep, hp]
            simp only [hreg, Option.map_some]
          · rw [busAddQueue_pendingQueue hadd]
            rw [hp, List.length_cons] at hlen
            simpa [World.updCtx] using hlen

/-- `event_pop_form_pipe` on a heap that holds a queue, and what follows. -/
theorem eventPopFormPipe_turns {r : Option EventId} {b : BusPoint}
    (hq : heapMin ((w.ctxs c).queueHeap k) = some q)
    (h : eventPopFormPipe w c k = some (w', r))
    {v : World} (hret : pipeReturn w' c now k q r = some (v, b)) :
    ∃ w1, pipeUnlink w c now k = some (w1, .pop now k q)
      ∧ Alone c (.consumer call) ⟨w1, P, .pop now k q⟩ ⟨v, P, b⟩ := by
  rw [eventPopFormPipe, hq] at h
  simp only [Option.bind_eq_bind, Option.bind_eq_some_iff] at h
  obtain ⟨w1, hrem, h⟩ := h
  refine ⟨w1, ?_, ?_⟩
  · rw [pipeUnlink, hq]
    simp only [Option.bind_eq_bind, Option.bind_some, hrem]
  have hpop : Alone c (.consumer call) ⟨w1, P, .pop now k q⟩
      ⟨(pipePop w1 q).1, P, .retest now k q (pipePop w1 q).2⟩ := Alone.consumer rfl
  apply hpop.trans
  split at h
  case isTrue hempty =>
    cases h
    apply Alone.consumer
    rw [consumerStep, if_pos hempty]
    exact hret
  case isFalse hempty =>
    obtain ⟨w2, hre, h⟩ := Option.bind_eq_some_iff.mp h
    cases h
    have htest : Alone c (.consumer call) ⟨(pipePop w1 q).1, P, .retest now k q (pipePop w1 q).2⟩
        ⟨(pipePop w1 q).1, P, .relink now k q (pipePop w1 q).2⟩ :=
      Alone.consumer (by rw [consumerStep, if_neg hempty])
    apply htest.trans
    apply Alone.consumer
    rw [consumerStep, hre]
    exact hret

/-- The market block pops an event, in either mode. -/
theorem marketPop_turns {b : BusPoint} {v : World}
    (hgo : ¬ pipeIsEmpty w c .market = true ∧ (w.ctxs c).savedEvent = none)
    (hq : heapMin ((w.ctxs c).queueHeap .market) = some q)
    (h : eventPopFormPipe w c .market = some (w', r))
    (hret : pipeReturn w' c now .market q r = some (v, b)) :
    Alone c (.consumer call) ⟨w, P, .market now⟩ ⟨v, P, b⟩ := by
  obtain ⟨w0, hun, hrest⟩ := eventPopFormPipe_turns hq h hret
  refine (Alone.consumer ?_).trans hrest
  rw [consumerStep, if_pos hgo]
  exact hun

/-- It has nothing to pop. -/
theorem marketPass_turns
    (hgo : ¬ (¬ pipeIsEmpty w c .market = true ∧ (w.ctxs c).savedEvent = none)) :
    Alone c (.consumer call) ⟨w, P, .market now⟩ ⟨w, P, .serve now⟩ := by
  apply Alone.consumer
  rw [consumerStep, if_neg hgo]

/-- The block at `again:`. -/
theorem BusInv.busSimulationMarket_turns : ∀ (fuel : Nat) {w : World}, BusInv w →
    (w.ctxs c).mode = .simulation → Ats.busSimulationMarket fuel w c now = some w' →
    Alone c (.consumer call) ⟨w, P, .market now⟩ ⟨w', P, .serve now⟩ := by
  intro fuel
  induction fuel with
  | zero =>
      intro w _ _ h
      cases h
  | succ fuel ih =>
      intro w hb hmode h
      rw [Ats.busSimulationMarket] at h
      split at h
      case isFalse hgo =>
        cases h
        exact marketPass_turns hgo
      case isTrue hgo =>
        have hn : w.queueNodes c .market ≠ [] := fun hc =>
          hgo.1 ((hb.queue.pipeIsEmpty_iff c .market).mpr hc)
        obtain ⟨w1, q, e, hcall, hpop, hq1⟩ := hb.queue.eventPopFormPipe hn
        obtain ⟨w2, _, _, _, hb2, hmode2, _, hacc⟩ := hb.accept hmode hgo.2 hpop hq1 now
        have hmin : heapMin ((w.ctxs c).queueHeap .market) = some q := by
          rw [hb.queue.heapMin_eq, hpop.first]
        have hmode1 : (w1.ctxs c).mode = .simulation :=
          (hpop.frame.ctx_proj c Ctx.mode (fun _ _ _ => rfl)).trans hmode
        rw [hmin] at h
        simp only [hcall, Option.bind_eq_bind, Option.bind_some] at h
        rcases hacc with ⟨hacc, _, _⟩ | ⟨hacc, _⟩
        · rw [hacc] at h
          have hskip : Alone c (.consumer call) ⟨w, P, .market now⟩ ⟨w2, P, .market now⟩ :=
            marketPop_turns hgo hmin hcall (by simp [pipeReturn, hmode1, hacc])
          exact hskip.trans (ih hb2 hmode2 h)
        · rw [hacc] at h
          cases h
          exact marketPop_turns hgo hmin hcall (by simp [pipeReturn, hmode1, hacc])

/-- The market block in real time. -/
theorem BusInv.busRealtimeMarket_turns (hb : BusInv w)
    (hmode : (w.ctxs c).mode = .realtime) (h : Ats.busRealtimeMarket w c = some w') :
    Alone c (.consumer call) ⟨w, P, .market now⟩ ⟨w', P, .serve now⟩ := by
  rw [Ats.busRealtimeMarket] at h
  split at h
  case isFalse hgo =>
    cases h
    exact marketPass_turns hgo
  case isTrue hgo =>
    have hn : w.queueNodes c .market ≠ [] := fun hc =>
      hgo.1 ((hb.queue.pipeIsEmpty_iff c .market).mpr hc)
    obtain ⟨w1, q, e, hcall, hpop, _⟩ := hb.queue.eventPopFormPipe hn
    have hmin : heapMin ((w.ctxs c).queueHeap .market) = some q := by
      rw [hb.queue.heapMin_eq, hpop.first]
    have hmode1 : (w1.ctxs c).mode = .realtime :=
      (hpop.frame.ctx_proj c Ctx.mode (fun _ _ _ => rfl)).trans hmode
    rw [hmin] at h
    simp only [hcall, Option.bind_eq_bind, Option.bind_some] at h
    cases h
    exact marketPop_turns hgo hmin hcall (by simp [pipeReturn, hmode1])

/-- `return event_pop_form_pipe(ctx, k)` -/
theorem busReturnPipe_turns (hk : k ≠ .market) (hs : busSource w c now = .pipe k)
    (h : busReturnPipe w c k = some (w', r)) :
    Alone c (.consumer call) ⟨w, P, .serve now⟩ ⟨w', P, .idle⟩ := by
  rw [busReturnPipe, Option.bind_eq_bind, Option.bind_eq_some_iff] at h
  obtain ⟨q, hmin, h⟩ := h
  simp only [Option.bind_eq_bind, Option.bind_eq_some_iff] at h
  obtain ⟨⟨w1, o⟩, hcall, h⟩ := h
  have hret : pipeReturn w1 c now k q o = some (w', .idle) := by
    rw [pipeReturn.eq_def, if_neg hk]
    cases o with
    | none =>
        cases h
        rfl
    | some e =>
        cases h
        rfl
  obtain ⟨w0, hun, hrest⟩ := eventPopFormPipe_turns hmin hcall hret
  refine (Alone.consumer ?_).trans hrest
  rw [consumerStep, busServe, hs]
  exact hun

/-- `return bus_timer_dequeue(ctx, k)` -/
theorem busReturnTimer_turns {k : ClockType} (hs : busSource w c now = .timer k)
    (h : busReturnTimer w c k = some (w', r)) :
    Alone c (.consumer call) ⟨w, P, .serve now⟩ ⟨w', P, .idle⟩ := by
  apply Alone.consumer
  rw [consumerStep, busServe, hs]
  simp only [h, Option.map_some]

/-- `return NULL` -/
theorem busReturnNull_turns (hs : busSource w c now = .nothing) :
    Alone c (.consumer call) ⟨w, P, .serve now⟩ ⟨w, P, .idle⟩ := by
  apply Alone.consumer
  rw [consumerStep, busServe, hs]

/-- The cascade in simulation. -/
theorem busSimulationServe_turns (hmode : (w.ctxs c).mode = .simulation)
    (h : busSimulationServe w c = some (w', r)) :
    Alone c (.consumer call) ⟨w, P, .serve now⟩ ⟨w', P, .idle⟩ := by
  have hsrc : busSource w c now = busSimulationSource w c := busSource_simulation hmode
  rw [busSimulationServe] at h
  cases hs : busSimulationSource w c with
  | timer k =>
      rw [hs] at h
      exact busReturnTimer_turns (hsrc.trans hs) h
  | pipe k =>
      rw [hs] at h
      exact busReturnPipe_turns ((busSimulationSource_spec w c).pipe k hs).1 (hsrc.trans hs) h
  | saved =>
      rw [hs] at h
      simp only [Option.bind_eq_bind, Option.bind_eq_some_iff] at h
      obtain ⟨⟨w1, e⟩, hun, w2, hfw, h⟩ := h
      cases h
      apply Alone.consumer
      rw [consumerStep, busServe, hsrc, hs]
      simp only [hmode, hun, hfw, Option.bind_eq_bind, Option.bind_some]
  | nothing =>
      rw [hs] at h
      cases h
      exact busReturnNull_turns (hsrc.trans hs)

/-- The cascade in real time. -/
theorem busRealtimeServe_turns (hmode : (w.ctxs c).mode = .realtime)
    (h : busRealtimeServe w c now = some (w', r)) :
    Alone c (.consumer call) ⟨w, P, .serve now⟩ ⟨w', P, .idle⟩ := by
  have hsrc : busSource w c now = busRealtimeSource w c now := busSource_realtime hmode
  rw [busRealtimeServe] at h
  cases hs : busRealtimeSource w c now with
  | timer k =>
      rw [hs] at h
      exact busReturnTimer_turns (hsrc.trans hs) h
  | pipe k =>
      rw [hs] at h
      exact busReturnPipe_turns ((busRealtimeSource_spec w c now).pipe k hs).1
        (hsrc.trans hs) h
  | saved =>
      rw [hs] at h
      simp only [Option.bind_eq_bind, Option.bind_eq_some_iff] at h
      obtain ⟨⟨w1, e⟩, hun, h⟩ := h
      cases h
      apply Alone.consumer
      rw [consumerStep, busServe, hsrc, hs]
      simp only [hmode, hun, Option.map_some]
  | nothing =>
      rw [hs] at h
      cases h
      exact busReturnNull_turns (hsrc.trans hs)

/-- **An undisturbed consumer executes `bus_dequeue`.** -/
theorem BusInv.busDequeue_alone (hb : BusInv w) (h : Ats.busDequeue w c now = some (w', r)) :
    Alone c (.consumer (.dequeue now)) ⟨w, P, .idle⟩ ⟨w', P, .idle⟩ := by
  obtain ⟨w1, hcheck, hrun, _, hmode⟩ := hb.checkPendingQueue c
  have hb1 := hrun.inv
  rw [Ats.busDequeue, hcheck] at h
  simp only [Option.bind_eq_bind, Option.bind_some] at h
  have hpend : Alone c (.consumer (.dequeue now)) ⟨w, P, .idle⟩ ⟨w1, P, .market now⟩ :=
    (Alone.consumer rfl).trans (checkPendingLoop_turns _ rfl hcheck)
  apply hpend.trans
  cases hm : (w1.ctxs c).mode with
  | simulation =>
      simp only [hm] at h
      rw [busSimulationDequeue, Option.bind_eq_bind, Option.bind_eq_some_iff] at h
      obtain ⟨w2, hmarket, hserve⟩ := h
      obtain ⟨v, hmarket', hlook⟩ := hb1.busSimulationMarket now _ hm (Nat.lt_succ_self _)
      cases hmarket'.symm.trans hmarket
      exact (hb1.busSimulationMarket_turns _ hm hmarket).trans
        (busSimulationServe_turns (hlook.mode.trans hm) hserve)
  | realtime =>
      simp only [hm] at h
      rw [busRealtimeDequeue, Option.bind_eq_bind, Option.bind_eq_some_iff] at h
      obtain ⟨w2, hmarket, hserve⟩ := h
      obtain ⟨v, hmarket', hlook⟩ := hb1.busRealtimeMarket c
      cases hmarket'.symm.trans hmarket
      exact (hb1.busRealtimeMarket_turns hm hmarket).trans
        (busRealtimeServe_turns (hlook.mode.trans hm) hserve)

end Consumer

end Ats
