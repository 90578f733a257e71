import Ats.Core.EventBus

/-!
# EventDispatch: `event_dispatch.c`

A dispatched event passes the filter, goes to the handler of its type, and
is unreferenced.
-/

namespace Ats

/-- The dispatcher fields that `dispatch_event` reads. The filter and the
handlers are client code: functions of the memory, `none` where they
abort. -/
structure Dispatcher where
  eventFilter : Option (World → EventId → Option (World × Option EventId))
  eventHandleTable : Nat → Option (World → EventId → Option World)

/-- `dispatcher_set_event_dispatch`, less the handler it returns. -/
def dispatcherSetEventDispatch (d : Dispatcher) (type : Nat)
    (dispatch : Option (World → EventId → Option World)) : Option Dispatcher :=
  if type < eventLast then
    some { d with eventHandleTable := Function.update d.eventHandleTable type dispatch }
  else none

/-- `dispatcher_set_event_filter`, less the filter it returns. -/
def dispatcherSetEventFilter (d : Dispatcher)
    (filter : Option (World → EventId → Option (World × Option EventId))) : Dispatcher :=
  { d with eventFilter := filter }

/-- Step 1 of `dispatch_event`. -/
def dispatchFilter (d : Dispatcher) (w : World) (e : EventId) :
    Option (World × Option EventId) :=
  match d.eventFilter with
  | none => some (w, some e)
  | some filter => filter w e

/-- Step 3 of `dispatch_event`. -/
def dispatchHandle (d : Dispatcher) (w : World) (e : EventId) : Option World :=
  match d.eventHandleTable (w.events e).eventType with
  | none => some w
  | some dispatcher => dispatcher w e

/-- `dispatch_event`: an event that the filter swallows is not
unreferenced. -/
def dispatchEvent (d : Dispatcher) (w : World) (e : EventId) : Option World := do
  let (w, e) ← dispatchFilter d w e
  match e with
  | none => some w
  | some e => do
      let w ← dispatchHandle d w e
      some (eventUnref w e)

end Ats
