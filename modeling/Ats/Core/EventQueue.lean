import Ats.Core.Event

/-!
# EventQueue: the bounded queues of `event_queue.c`

A push onto an empty queue that is registered on a bus also notifies the
bus: the queue goes onto the bus's `pending_queue`.
-/

namespace Ats

/-- `event_queue_init` on the object `q`: only the ring, `ctx` and
`category` are written. `none` where the size is below two. -/
def eventQueueInit (w : World) (q : QueueId) (size : Nat)
    (category : QueueCategory) : Option World := do
  let spsc ← spscqInit size
  some (w.updQueue q fun x => { x with spsc, ctx := none, category })

/-- `event_queue_is_empty` -/
def eventQueueIsEmpty (w : World) (q : QueueId) : Bool :=
  spscqIsEmpty (w.queues q).spsc

/-- `event_queue_is_full` -/
def eventQueueIsFull (w : World) (q : QueueId) : Bool :=
  spscqIsFull (w.queues q).spsc

/-- `event_queue_peek` -/
def eventQueuePeek (w : World) (q : QueueId) : Option EventId :=
  spscqPeek (w.queues q).spsc

/-- `event_queue_pop` -/
def eventQueuePop (w : World) (q : QueueId) : World × Option EventId :=
  let (spsc, e) := spscqPop (w.queues q).spsc
  (w.updQueue q fun x => { x with spsc }, e)

/-- The call `spscq_push(&q->spsc, e)` of `event_queue_push`. -/
def eventQueueAppend (w : World) (q : QueueId) (e : EventId) : World × Int :=
  let (spsc, ret) := spscqPush (w.queues q).spsc e
  let w := w.updQueue q fun x => { x with spsc }
  (if ret = 0 then w.note (.push q e) else w, ret)

/-- `bus_async_add_queue`. The wakeup it ends with touches no memory that
is modelled here. -/
def busAsyncAddQueue (w : World) (c : CtxId) (q : QueueId) : World :=
  w.updCtx c fun x => { x with pendingQueue := x.pendingQueue ++ [q] }

/-- What `event_queue_push` does after the append:
`if (is_empty && q->ctx) { ASSERT(ret == 0); bus_async_add_queue(q->ctx, q); }` -/
def eventQueueNotify (w : World) (q : QueueId) (isEmpty : Bool) (ret : Int) :
    Option World :=
  match isEmpty, (w.queues q).ctx with
  | true, some c => if ret = 0 then some (busAsyncAddQueue w c q) else none
  | _, _ => some w

/-- `event_queue_push`: the emptiness test, the append, the notification. -/
def eventQueuePush (w : World) (q : QueueId) (e : EventId) :
    Option (World × Int) := do
  let isEmpty := eventQueueIsEmpty w q
  let (w, ret) := eventQueueAppend w q e
  let w ← eventQueueNotify w q isEmpty ret
  some (w, ret)

/-- The loop `while ((e = event_queue_pop(q))) event_unref(e)`. -/
def eventQueueDrain : Nat → World → QueueId → Option World
  | 0, _, _ => none
  | fuel + 1, w, q =>
      match eventQueuePop w q with
      | (w, none) => some w
      | (w, some e) => eventQueueDrain fuel (eventUnref w e) q

/-- `event_queue_destroy` -/
def eventQueueDestroy (w : World) (q : QueueId) : Option World := do
  let w ← eventQueueDrain (spscqLength (w.queues q).spsc + 1) w q
  spscqDestroy (w.queues q).spsc
  some w

/-- `queue_free` -/
def queueFree (w : World) (q : QueueId) : Option World := do
  let w ← eventQueueDestroy w q
  some (w.note (.freeQueue q))

/-- `event_queue_ref` -/
def eventQueueRef (w : World) (q : QueueId) : World :=
  w.updQueue q fun x => { x with refcount := x.refcount + 1 }

/-- `event_queue_unref` -/
def eventQueueUnref (w : World) (q : QueueId) : Option World :=
  let old := (w.queues q).refcount
  let w := w.updQueue q fun x => { x with refcount := x.refcount - 1 }
  if old = 1 then queueFree w q else some w

end Ats
