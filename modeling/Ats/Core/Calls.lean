import Ats.Core.Serve

/-!
# Calls: runs of non-overlapping calls on busses

A client program, as far as the busses see it: a list of calls, each
executed to completion before the next one starts.
-/

namespace Ats

variable {w w' : World} {c : CtxId} {q : QueueId} {e : EventId}

/-- A call on a bus or a queue. -/
inductive BusOp where
  | addQueue (c : CtxId) (q : QueueId)
  | removeQueue (c : CtxId) (q : QueueId)
  | push (q : QueueId) (e : EventId)
  | addTimer (c : CtxId) (t : EventId)
  | removeTimer (c : CtxId) (t : EventId)
  | attach (src dst : CtxId)
  | detach (src dst : CtxId)
  | setTime (c : CtxId) (time : Nat)
  | setExchangeTime (c : CtxId) (time : Nat)
  | dequeue (c : CtxId) (now : Nat)
deriving DecidableEq, Repr

/-- The call, with what a `bus_dequeue` on bus `c` returned. -/
def BusOp.exec (w : World) : BusOp → Option (World × List (CtxId × EventId))
  | .addQueue c q => (busAddQueue w c q).map (·, [])
  | .removeQueue c q => (busRemoveQueue w c q).map (·, [])
  | .push q e => (eventQueuePush w q e).map fun r => (r.1, [])
  | .addTimer c t => (busAddTimer w c t).map (·, [])
  | .removeTimer c t => (busRemoveTimer w c t).map (·, [])
  | .attach src dst => (busAttach w src dst).map (·, [])
  | .detach src dst => (busDetach w src dst).map (·, [])
  | .setTime c time => some ((busSetTime w c time).1, [])
  | .setExchangeTime c time => some ((busSetExchangeTime w c time).1, [])
  | .dequeue c now =>
      (busDequeue w c now).map fun r => (r.1, (r.2.map fun e => (c, e)).toList)

/-- A run, with all the events that were returned, in order. -/
def runOps : World → List BusOp → Option (World × List (CtxId × EventId))
  | w, [] => some (w, [])
  | w, op :: ops => do
      let (w, r) ← op.exec w
      let (w, rs) ← runOps w ops
      some (w, r ++ rs)

theorem runOps_append : ∀ (ops : List BusOp) {w w1 w2 : World} {later : List BusOp}
    {rs rs' : List (CtxId × EventId)}, runOps w ops = some (w1, rs) →
    runOps w1 later = some (w2, rs') → runOps w (ops ++ later) = some (w2, rs ++ rs') := by
  intro ops
  induction ops with
  | nil =>
      intro w w1 w2 later rs rs' h h'
      cases h
      exact h'
  | cons op ops ih =>
      intro w w1 w2 later rs rs' h h'
      rw [runOps, Option.bind_eq_bind, Option.bind_eq_some_iff] at h
      obtain ⟨⟨v, r⟩, hexec, h⟩ := h
      simp only [Option.bind_eq_some_iff] at h
      obtain ⟨⟨v', r'⟩, hrest, he⟩ := h
      cases he
      rw [List.cons_append, runOps, hexec]
      simp only [Option.bind_eq_bind, Option.bind_some, ih hrest h', List.append_assoc]

/-! ## Busses that have just been set up -/

/-- The bus fields as `bus_init` leaves them, in either mode and at any
time. -/
structure CtxIdle (x : Ctx) : Prop where
  pendingQueue : x.pendingQueue = []
  queueHeap : x.queueHeap = fun _ => heapInit
  timerHeap : x.timerHeap = fun _ => heapInit
  savedEvent : x.savedEvent = none
  savedFrom : x.savedFrom = none
  attachedCount : x.attachedCount = 0

/-- Every bus is as `bus_init` left it and every queue as
`event_queue_init` did; nothing has happened yet. -/
structure Booted (w : World) : Prop where
  ctxs : ∀ c, CtxIdle (w.ctxs c)
  ring : ∀ q, q < w.nextQueue → SpscqRep (w.queues q).spsc []
  queueCtx : ∀ q, q < w.nextQueue → (w.queues q).ctx = none
  log : w.log = []

/-- `bus_init` leaves an idle bus in simulation mode at time zero. -/
theorem busInit_idle (h : busInit w c = some w') :
    CtxIdle (w'.ctxs c) ∧ (w'.ctxs c).mode = .simulation
      ∧ (w'.ctxs c).time = (fun _ => 0) ∧ (w'.ctxs c).counter = 1 := by
  have hreg : ∀ (l : List (Nat × Nat × Nat)) (v v' : World),
      l.foldlM (fun w x => (registerEvent w x.1 x.2.1 x.2.2).map Prod.fst) v = some v' →
      v'.ctxs = v.ctxs := by
    intro l
    induction l with
    | nil =>
        intro v v' hv
        cases hv
        rfl
    | cons x l ih =>
        intro v v' hv
        rw [List.foldlM_cons, Option.bind_eq_bind, Option.bind_eq_some_iff] at hv
        obtain ⟨v1, h1, h2⟩ := hv
        rw [ih v1 v' h2]
        obtain ⟨r, hr, rfl⟩ := Option.map_eq_some_iff.mp h1
        rw [registerEvent] at hr
        split at hr
        · cases hr
        · split at hr <;> cases hr <;> rfl
  rw [busInit, eventsRegister] at h
  rw [hreg _ _ _ h]
  refine ⟨⟨?_, ?_, ?_, ?_, ?_, ?_⟩, ?_, ?_, ?_⟩ <;> simp [World.updCtx, minDateTime]

/-- `event_queue_init` leaves an empty ring on no bus. -/
theorem eventQueueInit_ring {size : Nat} {k : QueueCategory}
    (h : eventQueueInit w q size k = some w') (hw : size < 2 ^ 32) :
    SpscqRep (w'.queues q).spsc [] ∧ (w'.queues q).ctx = none
      ∧ (w'.queues q).category = k ∧ (w'.queues q).spsc.capacity = size := by
  rw [eventQueueInit, Option.bind_eq_bind, Option.bind_eq_some_iff] at h
  obtain ⟨spsc, hs, h⟩ := h
  cases h
  have h2 : 2 ≤ size := by
    by_contra hc
    rw [spscqInit, if_neg hc] at hs
    cases hs
  obtain ⟨q', hq', hrep, hcap⟩ := SpscqRep.init (α := EventId) h2 hw
  rw [hs] at hq'
  cases hq'
  simpa [World.updQueue] using ⟨hrep, hcap⟩

theorem Booted.queueNodes (h : Booted w) (c : CtxId) (k : QueueCategory) :
    w.queueNodes c k = [] := by
  rw [World.queueNodes, World.queueMem, (h.ctxs c).queueHeap]
  exact (HeapRep.nil w.queueNode).heapNodes_eq

theorem Booted.timerNodes (h : Booted w) (c : CtxId) (k : ClockType) :
    w.timerNodes c k = [] := by
  rw [World.timerNodes, World.timerMem, (h.ctxs c).timerHeap]
  exact (HeapRep.nil w.timerNode).heapNodes_eq

theorem Booted.contents (h : Booted w) (hq : q < w.nextQueue) : w.contents q = [] :=
  (h.ring q hq).toList_eq

theorem Booted.inv (h : Booted w) : BusInv w where
  queue := by
    constructor
    case ring =>
      intro q hq
      rw [h.contents hq]
      exact h.ring q hq
    case heap =>
      intro c k
      rw [h.queueNodes, World.queueMem, (h.ctxs c).queueHeap]
      exact HeapRep.nil w.queueNode
    case linked =>
      intro c k q hq
      rw [h.queueNodes] at hq
      cases hq
    case pendingNodup =>
      intro c
      rw [(h.ctxs c).pendingQueue]
      exact List.nodup_nil
    case pending =>
      intro c q hq
      rw [(h.ctxs c).pendingQueue] at hq
      cases hq
  timer := by
    constructor
    case heap =>
      intro c k
      rw [h.timerNodes, World.timerMem, (h.ctxs c).timerHeap]
      exact HeapRep.nil w.timerNode
    case armed =>
      intro c k t ht
      rw [h.timerNodes] at ht
      cases ht
  saved := fun c => by rw [(h.ctxs c).savedEvent, (h.ctxs c).savedFrom]
  savedFrom := fun c q hq => by
    rw [(h.ctxs c).savedFrom] at hq
    cases hq
  attached := fun c i hi => by
    rw [(h.ctxs c).attachedCount] at hi
    omega

/-- A memory in which all busses, in the given mode and at the given time,
and the listed queues, each with its size and category, have just been set
up. -/
def World.fresh (mode : BusMode) (time : Nat) (qs : List (Nat × QueueCategory))
    (events : EventId → Event) : World where
  ctxs := fun _ =>
    { mode := mode, pendingQueue := [], queueHeap := fun _ => heapInit,
      timerHeap := fun _ => heapInit, counter := 1, time := fun _ => time,
      savedEvent := none, savedFrom := none, attached := fun _ => none,
      attachedCount := 0, isSimulatorStop := false, stopFlag := 0, asyncQueue := [] }
  queues := fun q =>
    let x := qs.getD q (0, .market)
    ⟨0, ⟨x.1, fun _ => none, 0, 0⟩, none, x.2, 0⟩
  queueNode := fun _ => ⟨none, none, none⟩
  events := events
  reminders := fun _ => ⟨.clockLocal, 0, 0, none, 0⟩
  timerNode := fun _ => ⟨none, none, none⟩
  eventVtable := fun _ => ⟨0, 0⟩
  nextQueue := qs.length
  nextEvent := 0
  log := []

theorem World.fresh_booted {mode : BusMode} {time : Nat}
    {qs : List (Nat × QueueCategory)} {events : EventId → Event}
    (hs : ∀ x ∈ qs, 2 ≤ x.1 ∧ x.1 < 2 ^ 32) : Booted (World.fresh mode time qs events) where
  ctxs := fun _ => ⟨rfl, rfl, rfl, rfl, rfl, rfl⟩
  ring := fun q hq => by
    have hq' : q < qs.length := hq
    have hget : qs.getD q (0, .market) = qs[q] := by
      rw [List.getD_eq_getElem?_getD, List.getElem?_eq_getElem hq']
      rfl
    obtain ⟨h2, hw⟩ := hs _ (List.getElem_mem hq')
    obtain ⟨r, hr, hrep, _⟩ := SpscqRep.init (α := EventId) h2 hw
    rw [spscqInit, if_pos h2] at hr
    cases hr
    simpa only [World.fresh, hget] using hrep
  queueCtx := fun _ _ => rfl
  log := rfl

/-! ## The calls that move events -/

/-- **`bus_add_queue` of a new queue** is one step. -/
theorem BusInv.addQueue (h : BusInv w) (hq : q < w.nextQueue)
    (hc : (w.queues q).ctx = none) (c : CtxId) :
    ∃ w', busAddQueue w c q = some w' ∧ BusStep (.add c) w w' ∧ QueueAdded w w' c q
      ∧ BusInv w' := by
  obtain ⟨hn, hp⟩ := h.queue.nowhere_of_ctx hc
  obtain ⟨w', hcall, hadd, hq'⟩ := h.queue.busAddQueue hq (Or.inr hc) hn hp
  exact ⟨w', hcall, BusStep.add hq hc hadd, hadd, h.of_queueAdded hadd (Or.inr hc) hq'⟩

/-- **`event_queue_push`** is one step, or finds no room. -/
theorem BusInv.push (h : BusInv w) (hq : q < w.nextQueue) (e : EventId) :
    ∃ w' ret, eventQueuePush w q e = some (w', ret) ∧ BusInv w'
      ∧ (ret = 0 ∧ QueuePushed w w' q e
        ∨ ret = -1 ∧ w' = w
          ∧ (w.contents q).length + 1 = (w.queues q).spsc.capacity) := by
  obtain ⟨w', ret, hcall, hq', hres⟩ := h.queue.eventQueuePush hq e
  refine ⟨w', ret, hcall, ?_, hres⟩
  rcases hres with ⟨_, hpush⟩ | ⟨_, rfl, _⟩
  · exact h.of_queuePushed hpush hq'
  · exact h

end Ats
