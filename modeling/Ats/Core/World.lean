import Ats.Base.Datetime
import Ats.Base.HeapInl
import Ats.Base.Spscq

/-!
# World: the memory the engine core works on

A pointer is a number, a null pointer `none`, and the memory one map for
each kind of object: contexts, event queues, events, and the part of a
`reminder_event_t` that follows the common event fields. The `heap_node`
fields of queues and reminders are maps of their own (`queueNode`,
`timerNode`), since only the heap functions touch them.

`log` and `savedFrom` are history variables: they record what the code did
and no function reads them.
-/

namespace Ats

abbrev CtxId := Nat
abbrev QueueId := Nat
abbrev EventId := Nat
abbrev AsyncId := Nat

/-! ## Constants of `event_def.h` and `event.h` -/

def reminderEvent : Nat := 0
def askEvent : Nat := 1
def bidEvent : Nat := 2
def tradeEvent : Nat := 3
def queueOpenEvent : Nat := 40
def queueCloseEvent : Nat := 41
def simulatorStartEvent : Nat := 42
def simulatorStopEvent : Nat := 43
def simulatorProgressEvent : Nat := 44

/-- `EVENT_LAST` -/
def eventLast : Nat := 1024

/-- `EVENT_FLAG_TICK_MASK` -/
def eventFlagTickMask : Nat := 1 <<< 1

/-! ## Objects -/

/-- `queue_category` -/
inductive QueueCategory where
  | market
  | execution
  | service
  | command
deriving DecidableEq, Repr

/-- `clock_type` -/
inductive ClockType where
  | clockLocal
  | clockExchange
deriving DecidableEq, Repr

/-- `bus_mode` -/
inductive BusMode where
  | simulation
  | realtime
deriving DecidableEq, Repr

/-- `EVENT_COMMON_FIELDS` -/
structure Event where
  refcount : Int
  eventType : Nat
  eventFlag : Nat
  timestamp : Nat
deriving DecidableEq, Repr

/-- The fields of `reminder_event_t` after the common ones, less
`heap_node`, `callback` and `user_data` (the core reads neither). Times are
64-bit unsigned. -/
structure Reminder where
  clockType : ClockType
  timeout : Nat
  «repeat» : Nat
  ctx : Option CtxId
  startId : Nat
deriving DecidableEq, Repr

/-- `event_queue_t`, less `data`, `mpsc_node` and `heap_node`. -/
structure EventQueue where
  refcount : Int
  spsc : Spscq EventId
  ctx : Option CtxId
  category : QueueCategory
  startId : Nat

/-- `event_info_t`, less its name and function pointers. -/
structure EventInfo where
  eventSize : Nat
  defaultFlag : Nat
deriving DecidableEq, Repr

/-- The bus fields of `ctx_t` (`EVENT_BUS_FIELDS`), and the `stop_flag` and
`async_queue` of the run loop. `pending_queue` and `async_queue` are the FIFOs
of what was pushed onto them. -/
structure Ctx where
  mode : BusMode
  pendingQueue : List QueueId
  queueHeap : QueueCategory → Heap QueueId
  timerHeap : ClockType → Heap EventId
  counter : Nat
  time : ClockType → Nat
  savedEvent : Option EventId
  /-- history: the queue `savedEvent` was popped from -/
  savedFrom : Option QueueId
  attached : Nat → Option QueueId
  attachedCount : Nat
  isSimulatorStop : Bool
  stopFlag : Int
  asyncQueue : List AsyncId

/-- What the code did, in order. -/
inductive Act where
  /-- `event_queue_push` appended `e` to `q` -/
  | push (q : QueueId) (e : EventId)
  /-- `bus_add_queue` registered `q` on `c` -/
  | register (c : CtxId) (q : QueueId)
  /-- `event_pop_form_pipe` took `e` from `q` -/
  | take (q : QueueId) (e : EventId)
  /-- `bus_simualtion_dequeue` skipped `e`, taken from `q` -/
  | drop (q : QueueId) (e : EventId)
  /-- `bus_dequeue` on `c` returned `e`, taken from `q` of category `k` -/
  | give (c : CtxId) (k : QueueCategory) (q : QueueId) (e : EventId)
  /-- `bus_dequeue` on `c` returned reminder `t`, due at `timeout` -/
  | fire (c : CtxId) (k : ClockType) (t : EventId) (timeout : Nat)
  /-- `bus_attach` put the new queue `q` into `src`'s table -/
  | attach (src : CtxId) (q : QueueId)
  /-- `event_unref` was called on `e` -/
  | unref (e : EventId)
  /-- `event_free` was called on `e` -/
  | free (e : EventId)
  /-- `queue_free` was called on `q` -/
  | freeQueue (q : QueueId)
deriving DecidableEq, Repr

/-- The whole memory. `nextQueue` and `nextEvent` bound the objects that
have been allocated. -/
structure World where
  ctxs : CtxId → Ctx
  queues : QueueId → EventQueue
  queueNode : QueueId → HeapNode QueueId
  events : EventId → Event
  reminders : EventId → Reminder
  timerNode : EventId → HeapNode EventId
  eventVtable : Nat → EventInfo
  nextQueue : Nat
  nextEvent : Nat
  log : List Act

namespace World

/-! ## Updates of one object -/

def updCtx (w : World) (c : CtxId) (f : Ctx → Ctx) : World :=
  { w with ctxs := Function.update w.ctxs c (f (w.ctxs c)) }

theorem updCtx_ctxs (w : World) (c d : CtxId) (f : Ctx → Ctx) :
    (w.updCtx c f).ctxs d = if d = c then f (w.ctxs d) else w.ctxs d := by
  by_cases hd : d = c
  · subst hd
    simp [updCtx]
  · simp [updCtx, hd]

theorem updCtx_ctxs_ne (w : World) {c d : CtxId} (hd : d ≠ c) (f : Ctx → Ctx) :
    (w.updCtx c f).ctxs d = w.ctxs d := by
  rw [updCtx_ctxs, if_neg hd]

def updQueue (w : World) (q : QueueId) (f : EventQueue → EventQueue) : World :=
  { w with queues := Function.update w.queues q (f (w.queues q)) }

def updEvent (w : World) (e : EventId) (f : Event → Event) : World :=
  { w with events := Function.update w.events e (f (w.events e)) }

def updReminder (w : World) (t : EventId) (f : Reminder → Reminder) : World :=
  { w with reminders := Function.update w.reminders t (f (w.reminders t)) }

def note (w : World) (a : Act) : World := { w with log := w.log ++ [a] }

/-- The heap `ctx->queue_heap[k]`, with the links of all queues. -/
def queueMem (w : World) (c : CtxId) (k : QueueCategory) : HeapMem QueueId :=
  ⟨(w.ctxs c).queueHeap k, w.queueNode⟩

/-- The heap `ctx->timer_heap[k]`, with the links of all reminders. -/
def timerMem (w : World) (c : CtxId) (k : ClockType) : HeapMem EventId :=
  ⟨(w.ctxs c).timerHeap k, w.timerNode⟩

def setQueueMem (w : World) (c : CtxId) (k : QueueCategory)
    (m : HeapMem QueueId) : World :=
  { w.updCtx c (fun x => { x with queueHeap := Function.update x.queueHeap k m.heap })
    with queueNode := m.node }

def setTimerMem (w : World) (c : CtxId) (k : ClockType)
    (m : HeapMem EventId) : World :=
  { w.updCtx c (fun x => { x with timerHeap := Function.update x.timerHeap k m.heap })
    with timerNode := m.node }

/-- The queues in `ctx->queue_heap[k]`. -/
def queueNodes (w : World) (c : CtxId) (k : QueueCategory) : List QueueId :=
  heapNodes (w.queueMem c k)

/-- The reminders in `ctx->timer_heap[k]`. -/
def timerNodes (w : World) (c : CtxId) (k : ClockType) : List EventId :=
  heapNodes (w.timerMem c k)

/-- The events in queue `q`, oldest first. -/
def contents (w : World) (q : QueueId) : List EventId :=
  spscqToList (w.queues q).spsc

end World

end Ats
