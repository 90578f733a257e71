import Mathlib.Algebra.GroupWithZero.Nat
import Ats.Core.EventQueue

/-!
# EventBus: `event_bus.c`

Queues and reminders wait in intrusive heaps, one for each category and
one for each clock; `bus_dequeue` serves them in a fixed cascade. A
function answers `none` where the code would abort on a failed `ASSERT`,
follow a null pointer or leave the bounds of `attached`.

`datetime_now()` is the argument `now`: what the wall clock shows during
the call.
-/

namespace Ats

/-! ## Comparison functions -/

/-- `queue_less_than`: by the timestamp of the head event, then by
`start_id`. -/
def queueLessThan (w : World) (qa qb : QueueId) : Option Bool := do
  let a ← eventQueuePeek w qa
  let b ← eventQueuePeek w qb
  some (
    if (w.events a).timestamp < (w.events b).timestamp then true
    else if (w.events b).timestamp < (w.events a).timestamp then false
    else if (w.queues qa).startId < (w.queues qb).startId then true
    else false)

/-- `timer_less_than`: by `timeout`, then by `start_id`. -/
def timerLessThan (w : World) (a b : EventId) : Option Bool :=
  some (
    if (w.reminders a).timeout < (w.reminders b).timeout then true
    else if (w.reminders b).timeout < (w.reminders a).timeout then false
    else if (w.reminders a).startId < (w.reminders b).startId then true
    else false)

/-- `event_is_tick` -/
def eventIsTick (w : World) (e : EventId) : Bool :=
  (w.events e).eventFlag &&& eventFlagTickMask ≠ 0

/-- `heap_is_empty` -/
def heapIsEmpty {α : Type} (heap : Heap α) : Bool := (heapMin heap).isNone

/-- `pipe_is_empty` -/
def pipeIsEmpty (w : World) (c : CtxId) (category : QueueCategory) : Bool :=
  heapIsEmpty ((w.ctxs c).queueHeap category)

/-! ## The queue heaps -/

/-- `heap_insert(&ctx->queue_heap[category], q->heap_node, queue_less_than)` -/
def queueHeapInsert (w : World) (c : CtxId) (category : QueueCategory)
    (q : QueueId) : Option World := do
  let m ← heapInsert (queueLessThan w) (w.queueMem c category) q
  some (w.setQueueMem c category m)

/-- `heap_remove(&ctx->queue_heap[category], q->heap_node, queue_less_than)` -/
def queueHeapRemove (w : World) (c : CtxId) (category : QueueCategory)
    (q : QueueId) : Option World := do
  let m ← heapRemove (queueLessThan w) (w.queueMem c category) q
  some (w.setQueueMem c category m)

/-- `q->start_id = ctx->counter++` -/
def queueStart (w : World) (c : CtxId) (q : QueueId) : World :=
  let n := (w.ctxs c).counter
  (w.updQueue q fun x => { x with startId := n }).updCtx c
    fun x => { x with counter := n + 1 }

/-- The call `event_queue_pop(q)` of `event_pop_form_pipe`. -/
def pipePop (w : World) (q : QueueId) : World × Option EventId :=
  match eventQueuePop w q with
  | (w, some e) => (w.note (.take q e), some e)
  | (w, none) => (w, none)

/-- The block of `event_pop_form_pipe` that puts a queue back. Its local
`ctx` is `q->ctx`. -/
def pipeRequeue (w : World) (category : QueueCategory) (q : QueueId) :
    Option World := do
  let c ← (w.queues q).ctx
  queueHeapInsert (queueStart w c q) c category q

/-- `event_pop_form_pipe` -/
def eventPopFormPipe (w : World) (c : CtxId) (category : QueueCategory) :
    Option (World × Option EventId) :=
  match heapMin ((w.ctxs c).queueHeap category) with
  | none => some (w, none)
  | some q => do
      let w ← queueHeapRemove w c category q
      let (w, e) := pipePop w q
      let w ← if eventQueueIsEmpty w q then some w else pipeRequeue w category q
      some (w, e)

/-! ## The timer heaps -/

/-- `heap_insert(&ctx->timer_heap[k], timer->heap_node, timer_less_than)` -/
def timerHeapInsert (w : World) (c : CtxId) (k : ClockType) (timer : EventId) :
    Option World := do
  let m ← heapInsert (timerLessThan w) (w.timerMem c k) timer
  some (w.setTimerMem c k m)

/-- `heap_remove(&ctx->timer_heap[k], timer->heap_node, timer_less_than)` -/
def timerHeapRemove (w : World) (c : CtxId) (k : ClockType) (timer : EventId) :
    Option World := do
  let m ← heapRemove (timerLessThan w) (w.timerMem c k) timer
  some (w.setTimerMem c k m)

/-- `timer_heap_peek(&ctx->timer_heap[k])` -/
def timerHeapPeek (w : World) (c : CtxId) (k : ClockType) : Option EventId :=
  heapMin ((w.ctxs c).timerHeap k)

/-- The block of `timer_heap_pop` for `timer->repeat != 0`: a new start id
from `timer->ctx`, the next `timeout` in 64 bits, and back into the heap. -/
def timerRearm (w : World) (c : CtxId) (k : ClockType) (timer : EventId) :
    Option World := do
  let d ← (w.reminders timer).ctx
  let n := (w.ctxs d).counter
  let w := w.updCtx d fun x => { x with counter := n + 1 }
  let w := w.updReminder timer fun x =>
    { x with startId := n, timeout := (x.timeout + x.repeat) % 2 ^ 64 }
  timerHeapInsert w c k timer

/-- `timer_heap_pop(&ctx->timer_heap[k])` -/
def timerHeapPop (w : World) (c : CtxId) (k : ClockType) :
    Option (World × Option EventId) :=
  match heapMin ((w.ctxs c).timerHeap k) with
  | none => some (w, none)
  | some timer => do
      let w ← timerHeapRemove w c k timer
      let w ← if (w.reminders timer).repeat ≠ 0 then timerRearm w c k timer
        else some w
      some (w, some timer)

/-- `bus_timer_peek` -/
def busTimerPeek (w : World) (c : CtxId) (type : ClockType) : Option EventId :=
  timerHeapPeek w c type

/-- `bus_timer_dequeue` -/
def busTimerDequeue (w : World) (c : CtxId) (type : ClockType) :
    Option (World × Option EventId) :=
  timerHeapPop w c type

/-! ## The clock of a bus -/

/-- `bus_get_time` -/
def busGetTime (w : World) (c : CtxId) (now : Nat) : Nat :=
  match (w.ctxs c).mode with
  | .simulation => (w.ctxs c).time .clockLocal
  | .realtime => now

/-- `bus_set_time` -/
def busSetTime (w : World) (c : CtxId) (time : Nat) : World × Int :=
  if (w.ctxs c).mode = .realtime then (w, -1)
  else if time < (w.ctxs c).time .clockLocal then (w, -1)
  else
    (w.updCtx c fun x =>
      { x with time := Function.update x.time .clockLocal time }, 0)

/-- `bus_get_exchange_time` -/
def busGetExchangeTime (w : World) (c : CtxId) : Nat :=
  (w.ctxs c).time .clockExchange

/-- `bus_set_exchange_time` -/
def busSetExchangeTime (w : World) (c : CtxId) (time : Nat) : World × Int :=
  if time < (w.ctxs c).time .clockExchange then (w, -1)
  else
    (w.updCtx c fun x =>
      { x with time := Function.update x.time .clockExchange time }, 0)

/-! ## Registering and removing -/

/-- The first half of `bus_add_queue`: its assertions, `q->ctx = ctx` and
the new start id. -/
def busRegister (w : World) (c : CtxId) (q : QueueId) : Option World :=
  if (w.queues q).ctx = some c ∨ (w.queues q).ctx = none then
    some (queueStart ((w.updQueue q fun x => { x with ctx := some c }).note
      (.register c q)) c q)
  else none

/-- `bus_add_queue` -/
def busAddQueue (w : World) (c : CtxId) (q : QueueId) : Option World := do
  let w ← busRegister w c q
  if eventQueueIsEmpty w q then some w
  else queueHeapInsert w c (w.queues q).category q

/-- `bus_remove_queue` -/
def busRemoveQueue (w : World) (c : CtxId) (q : QueueId) : Option World :=
  queueHeapRemove w c (w.queues q).category q

/-- `bus_add_timer` -/
def busAddTimer (w : World) (c : CtxId) (timer : EventId) : Option World :=
  let n := (w.ctxs c).counter
  let w := w.updReminder timer fun x => { x with ctx := some c, startId := n }
  let w := w.updCtx c fun x => { x with counter := n + 1 }
  timerHeapInsert w c (w.reminders timer).clockType timer

/-- `bus_remove_timer` -/
def busRemoveTimer (w : World) (c : CtxId) (timer : EventId) : Option World :=
  timerHeapRemove w c (w.reminders timer).clockType timer

/-- The loop of `check_pending_queue`; a FIFO of `n` queues takes `n`
rounds. -/
def checkPendingLoop : Nat → World → CtxId → Option World
  | 0, w, _ => some w
  | n + 1, w, c =>
      match (w.ctxs c).pendingQueue with
      | [] => some w
      | q :: rest => do
          let w := w.updCtx c fun x => { x with pendingQueue := rest }
          let w ← busAddQueue w c q
          checkPendingLoop n w c

/-- `check_pending_queue` -/
def checkPendingQueue (w : World) (c : CtxId) : Option World :=
  checkPendingLoop (w.ctxs c).pendingQueue.length w c

/-! ## Simulation mode -/

/-- `ctx->saved_event = e`, for an `e` popped from `q`. -/
def busSave (w : World) (c : CtxId) (q : QueueId) (e : EventId) : World :=
  w.updCtx c fun x => { x with savedEvent := some e, savedFrom := some q }

/-- What `bus_simualtion_dequeue` does with `e`, popped from the market
queue `q`; `true` stands for `goto again`. -/
def busSimulationAccept (w : World) (c : CtxId) (now : Nat) (q : QueueId)
    (e : EventId) : World × Bool :=
  let type := (w.events e).eventType
  if type = simulatorStopEvent then
    ((w.updCtx c fun x => { x with isSimulatorStop := true }).note (.drop q e), true)
  else
    let busTime := busGetTime w c now
    if (w.events e).timestamp < busTime then
      if type ≠ queueCloseEvent ∧ type ≠ queueOpenEvent
          ∧ type ≠ simulatorProgressEvent then
        (w.note (.drop q e), true)
      else
        (busSave (w.updEvent e fun x => { x with timestamp := busTime }) c q e, false)
    else (busSave w c q e, false)

/-- The block at `again:`. Each round that jumps back has popped one
event, so the fuel is what the market queues hold, and one more. -/
def busSimulationMarket : Nat → World → CtxId → Nat → Option World
  | 0, _, _, _ => none
  | fuel + 1, w, c, now =>
      if ¬ pipeIsEmpty w c .market ∧ (w.ctxs c).savedEvent = none then do
        let q ← heapMin ((w.ctxs c).queueHeap .market)
        let (w, e) ← eventPopFormPipe w c .market
        let e ← e
        match busSimulationAccept w c now q e with
        | (w, true) => busSimulationMarket fuel w c now
        | (w, false) => some w
      else some w

/-- The number of events in the queues of a heap. -/
def busBacklog (w : World) (c : CtxId) (category : QueueCategory) : Nat :=
  ((w.queueNodes c category).map fun q => (w.contents q).length).sum

/-- Where `bus_dequeue` takes its event from. -/
inductive BusSource where
  | timer (k : ClockType)
  | pipe (k : QueueCategory)
  | saved
  | nothing
deriving DecidableEq, Repr

/-- `!heap_is_empty(heap)` and `timer_heap_peek(heap)->timeout <= limit`,
for `ctx->timer_heap[k]`. -/
def timerDue (w : World) (c : CtxId) (k : ClockType) (limit : Nat) : Bool :=
  match timerHeapPeek w c k with
  | none => false
  | some r => (w.reminders r).timeout ≤ limit

/-- A timer that is due at the saved event. -/
def timerDueAtSaved (w : World) (c : CtxId) (k : ClockType) : Bool :=
  match (w.ctxs c).savedEvent with
  | none => false
  | some e => timerDue w c k (w.events e).timestamp

/-- `ctx->saved_event != NULL && event_is_tick(ctx->saved_event)` -/
def savedIsTick (w : World) (c : CtxId) : Bool :=
  match (w.ctxs c).savedEvent with
  | none => false
  | some e => eventIsTick w e

/-- The cascade from `next:` on. -/
def busSimulationSource (w : World) (c : CtxId) : BusSource :=
  if timerDueAtSaved w c .clockLocal then .timer .clockLocal
  else if savedIsTick w c ∧ timerDueAtSaved w c .clockExchange then
    .timer .clockExchange
  else if ¬ pipeIsEmpty w c .execution then .pipe .execution
  else if ¬ pipeIsEmpty w c .service then .pipe .service
  else if ¬ pipeIsEmpty w c .command then .pipe .command
  else if (w.ctxs c).savedEvent.isSome then .saved
  else .nothing

/-- `return (event_t*)timer_heap_pop(&ctx->timer_heap[k])` -/
def busReturnTimer (w : World) (c : CtxId) (k : ClockType) :
    Option (World × Option EventId) := do
  let t ← timerHeapPeek w c k
  let timeout := (w.reminders t).timeout
  let (w, e) ← timerHeapPop w c k
  some (w.note (.fire c k t timeout), e)

/-- `return event_pop_form_pipe(ctx, k)` -/
def busReturnPipe (w : World) (c : CtxId) (k : QueueCategory) :
    Option (World × Option EventId) := do
  let q ← heapMin ((w.ctxs c).queueHeap k)
  let (w, e) ← eventPopFormPipe w c k
  match e with
  | none => some (w, none)
  | some e => some (w.note (.give c k q e), some e)

/-- `e = ctx->saved_event; ctx->saved_event = NULL` -/
def busUnsave (w : World) (c : CtxId) : Option (World × EventId) := do
  let e ← (w.ctxs c).savedEvent
  let q ← (w.ctxs c).savedFrom
  let w := w.updCtx c fun x => { x with savedEvent := none, savedFrom := none }
  some (w.note (.give c .market q e), e)

/-- One round of the forwarding loop. -/
def busForwardOne (w : World) (c : CtxId) (e : EventId) (i : Nat) : Option World :=
  let type := (w.events e).eventType
  if type ≠ queueCloseEvent ∧ type ≠ queueOpenEvent then do
    let q ← (w.ctxs c).attached i
    let w := eventRef w e
    let (w, _) ← eventQueuePush w q e
    some w
  else some w

/-- `for (int i = 0; i < ctx->attached_count; i++)` over the attached
queues. -/
def busForward (w : World) (c : CtxId) (e : EventId) : Option World :=
  (List.range (w.ctxs c).attachedCount).foldlM (fun w i => busForwardOne w c e i) w

/-- The part of `bus_simualtion_dequeue` from `next:` on. -/
def busSimulationServe (w : World) (c : CtxId) : Option (World × Option EventId) :=
  match busSimulationSource w c with
  | .timer k => busReturnTimer w c k
  | .pipe k => busReturnPipe w c k
  | .saved => do
      let (w, e) ← busUnsave w c
      let w ← busForward w c e
      some (w, some e)
  | .nothing => some (w, none)

/-- `bus_simualtion_dequeue` -/
def busSimulationDequeue (w : World) (c : CtxId) (now : Nat) :
    Option (World × Option EventId) := do
  let w ← busSimulationMarket (busBacklog w c .market + 1) w c now
  busSimulationServe w c

/-! ## Real-time mode -/

/-- The market block of `bus_realtime_dequeue`. -/
def busRealtimeMarket (w : World) (c : CtxId) : Option World :=
  if ¬ pipeIsEmpty w c .market ∧ (w.ctxs c).savedEvent = none then do
    let q ← heapMin ((w.ctxs c).queueHeap .market)
    let (w, e) ← eventPopFormPipe w c .market
    match e with
    | none => some w
    | some e => some (busSave w c q e)
  else some w

/-- The cascade of `bus_realtime_dequeue` after the market block. -/
def busRealtimeSource (w : World) (c : CtxId) (now : Nat) : BusSource :=
  if timerDue w c .clockLocal (busGetTime w c now) then .timer .clockLocal
  else if savedIsTick w c ∧ timerDueAtSaved w c .clockExchange then
    .timer .clockExchange
  else if ¬ pipeIsEmpty w c .execution then .pipe .execution
  else if ¬ pipeIsEmpty w c .command then .pipe .command
  else if ¬ pipeIsEmpty w c .service then .pipe .service
  else if (w.ctxs c).savedEvent.isSome then .saved
  else .nothing

/-- The part of `bus_realtime_dequeue` after the market block. -/
def busRealtimeServe (w : World) (c : CtxId) (now : Nat) :
    Option (World × Option EventId) :=
  match busRealtimeSource w c now with
  | .timer k => busReturnTimer w c k
  | .pipe k => busReturnPipe w c k
  | .saved => do
      let (w, e) ← busUnsave w c
      some (w, some e)
  | .nothing => some (w, none)

/-- `bus_realtime_dequeue` -/
def busRealtimeDequeue (w : World) (c : CtxId) (now : Nat) :
    Option (World × Option EventId) := do
  let w ← busRealtimeMarket w c
  busRealtimeServe w c now

/-- `bus_dequeue` -/
def busDequeue (w : World) (c : CtxId) (now : Nat) :
    Option (World × Option EventId) := do
  let w ← checkPendingQueue w c
  match (w.ctxs c).mode with
  | .simulation => busSimulationDequeue w c now
  | .realtime => busRealtimeDequeue w c now

/-! ## Attaching a bus to another -/

/-- The length of `attached`. -/
def attachedSize : Nat := 128

/-- `ats_zalloc(sizeof(event_queue_t))`, with memory to give. -/
def queueZalloc (w : World) : World × QueueId :=
  let q := w.nextQueue
  ({ w with
    queues := Function.update w.queues q
      ⟨0, ⟨0, fun _ => none, 0, 0⟩, none, .market, 0⟩
    queueNode := Function.update w.queueNode q ⟨none, none, none⟩
    nextQueue := q + 1 }, q)

/-- `bus_attach`; `none` where the table is full and the code writes past
its end. -/
def busAttach (w : World) (src dst : CtxId) : Option World :=
  let num := (w.ctxs src).attachedCount
  if attachedSize ≤ num then none
  else do
    let (w, q) := queueZalloc w
    let w := w.updCtx src fun x =>
      { x with
        attachedCount := num + 1
        attached := Function.update x.attached num (some q) }
    let w ← eventQueueInit w q 10000 .market
    busAddQueue (w.note (.attach src q)) dst q

/-- `for (int j = i; j < src->attached_count - 1; j++)
src->attached[j] = src->attached[j + 1]; src->attached_count--;` -/
def attachedShift (x : Ctx) (i : Nat) : Ctx :=
  { x with
    attached := fun j =>
      if i ≤ j ∧ j + 1 < x.attachedCount then x.attached (j + 1) else x.attached j
    attachedCount := x.attachedCount - 1 }

/-- The loop of `bus_detach`, at index `i`. The index moves on after a
removal too, past the entry that has moved to its place. -/
def busDetachLoop : Nat → World → CtxId → CtxId → Nat → Option World
  | 0, _, _, _, _ => none
  | fuel + 1, w, src, dst, i =>
      if i < (w.ctxs src).attachedCount then do
        let q ← (w.ctxs src).attached i
        let w ←
          if (w.queues q).ctx = some dst then do
            let w ← busRemoveQueue w dst q
            some (w.updCtx src fun x => attachedShift x i)
          else some w
        busDetachLoop fuel w src dst (i + 1)
      else some w

/-- `bus_detach` -/
def busDetach (w : World) (src dst : CtxId) : Option World :=
  busDetachLoop ((w.ctxs src).attachedCount + 1) w src dst 0

/-! ## Starting and clearing a bus -/

/-- `events_register`, with the sizes of a 64-bit build. -/
def eventsRegister (w : World) : Option World :=
  [(reminderEvent, 0, 104), (askEvent, eventFlagTickMask, 56),
    (bidEvent, eventFlagTickMask, 56), (tradeEvent, eventFlagTickMask, 64),
    (queueOpenEvent, 0, 32), (queueCloseEvent, 0, 32),
    (simulatorStartEvent, 0, 24), (simulatorStopEvent, 0, 24),
    (simulatorProgressEvent, 0, 24)].foldlM
    (fun w x => (registerEvent w x.1 x.2.1 x.2.2).map Prod.fst) w

/-- `bus_init` -/
def busInit (w : World) (c : CtxId) : Option World :=
  eventsRegister <| w.updCtx c fun x =>
    { x with
      mode := .simulation
      pendingQueue := []
      queueHeap := fun _ => heapInit
      timerHeap := fun _ => heapInit
      time := fun _ => minDateTime
      counter := 1
      savedEvent := none
      savedFrom := none
      isSimulatorStop := false
      attached := fun _ => none
      attachedCount := 0 }

/-- `queue_heap_clear(&ctx->queue_heap[k])`: a heap of `nelts` nodes is
empty after that many rounds. -/
def queueHeapClear : Nat → World → CtxId → QueueCategory → Option World
  | 0, _, _, _ => none
  | fuel + 1, w, c, k =>
      match heapMin ((w.ctxs c).queueHeap k) with
      | none => some w
      | some q => do
          let w ← queueHeapRemove w c k q
          let w ← eventQueueUnref w q
          queueHeapClear fuel w c k

/-- `timer_heap_clear(&ctx->timer_heap[k])` -/
def timerHeapClear : Nat → World → CtxId → ClockType → Option World
  | 0, _, _, _ => none
  | fuel + 1, w, c, k =>
      match heapMin ((w.ctxs c).timerHeap k) with
      | none => some w
      | some t => do
          let w ← timerHeapRemove w c k t
          timerHeapClear fuel (eventUnref w t) c k

/-- The loop over `attached` of `bus_clear`, at index `i`. -/
def busClearAttached : Nat → World → CtxId → Nat → Option World
  | 0, _, _, _ => none
  | fuel + 1, w, c, i =>
      if i < (w.ctxs c).attachedCount then do
        let q ← (w.ctxs c).attached i
        let d ← (w.queues q).ctx
        let w ← busDetach w c d
        let w ← eventQueueDestroy w q
        busClearAttached fuel w c (i + 1)
      else some w

/-- `bus_clear` -/
def busClear (w : World) (c : CtxId) : Option World := do
  let w :=
    match (w.ctxs c).savedEvent with
    | none => w
    | some e =>
        (eventUnref w e).updCtx c fun x => { x with savedEvent := none, savedFrom := none }
  let w ← [QueueCategory.market, .execution, .service, .command].foldlM
    (fun w k => queueHeapClear (((w.ctxs c).queueHeap k).nelts + 1) w c k) w
  let w ← [ClockType.clockLocal, .clockExchange].foldlM
    (fun w k => timerHeapClear (((w.ctxs c).timerHeap k).nelts + 1) w c k) w
  let w ← busClearAttached ((w.ctxs c).attachedCount + 1) w c 0
  some (w.updCtx c fun x => { x with attachedCount := 0 })

end Ats
