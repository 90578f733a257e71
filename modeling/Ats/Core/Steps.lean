import Ats.Core.Pipes
import Ats.Core.Timers
import Mathlib.Data.Set.Insert

/-!
# Steps: the bus as a transition system

`BusStep` lists once what a call on a bus can do to the memory, in terms of
the lists it spells; `BusRun` is a finite chain of such steps through
well-formed memories. The calls of `event_bus.c` and `event_queue.c` are
chains (`Dequeue`, `Calls`), so an invariant that every step keeps holds
after every call.
-/

namespace Ats

variable {w w' w'' : World} {c : CtxId} {q : QueueId} {e : EventId}

/-- **A well-formed memory.** -/
structure BusInv (w : World) : Prop where
  queue : QueueInv w
  timer : TimerInv w
  saved : ∀ c, (w.ctxs c).savedEvent.isSome = (w.ctxs c).savedFrom.isSome
  savedFrom : ∀ c q, (w.ctxs c).savedFrom = some q →
    q < w.nextQueue ∧ (w.queues q).ctx = some c ∧ (w.queues q).category = .market
  attached : ∀ c i, i < (w.ctxs c).attachedCount →
    ∃ q, (w.ctxs c).attached i = some q ∧ q < w.nextQueue
      ∧ ∃ d, (w.queues q).ctx = some d

/-- The event types that `bus_simualtion_dequeue` keeps even when they are
late. -/
def keptWhenLate (type : Nat) : Prop :=
  type = queueCloseEvent ∨ type = queueOpenEvent ∨ type = simulatorProgressEvent

/-- Why `bus_simualtion_dequeue` skips an event of bus `c`: the end of the
simulation, or late. -/
def Skipped (w : World) (c : CtxId) (e : EventId) : Prop :=
  (w.events e).eventType = simulatorStopEvent
    ∨ ¬ keptWhenLate (w.events e).eventType
      ∧ (w.events e).timestamp < (w.ctxs c).time .clockLocal

/-- The timestamp `e` has after it was saved by `bus_simualtion_dequeue`:
its own, or the time of the bus where that has passed it. -/
def savedTime (w : World) (c : CtxId) (e : EventId) (ts : Nat) : Prop :=
  ts = (w.events e).timestamp
    ∨ (w.ctxs c).mode = .simulation ∧ keptWhenLate (w.events e).eventType
      ∧ (w.events e).timestamp < (w.ctxs c).time .clockLocal
      ∧ ts = (w.ctxs c).time .clockLocal

/-- The kinds of steps, with the bus that makes them. -/
inductive StepKind where
  | add (c : CtxId)
  | reenter (c : CtxId)
  | push
  | drop (c : CtxId)
  | save (c : CtxId)
  | give (c : CtxId)
  | fire (c : CtxId)
  | release (c : CtxId)
  | forward (c : CtxId)
  | overrun (c : CtxId)
deriving DecidableEq, Repr

/-- **What one step of a bus does.** -/
inductive BusStep : StepKind → World → World → Prop
  /-- the client registers a new queue -/
  | add {w w' : World} {c : CtxId} {q : QueueId} :
      q < w.nextQueue → (w.queues q).ctx = none → QueueAdded w w' c q →
      BusStep (.add c) w w'
  /-- `check_pending_queue` takes the first pending queue -/
  | reenter {w w' : World} {c : CtxId} {q : QueueId} {rest : List QueueId} :
      (w.ctxs c).pendingQueue = q :: rest →
      QueueAdded (w.updCtx c fun x => { x with pendingQueue := rest }) w' c q →
      BusStep (.reenter c) w w'
  /-- a producer's push that found room -/
  | push {w w' : World} {q : QueueId} {e : EventId} :
      QueuePushed w w' q e → BusStep .push w w'
  /-- the market block skips an event -/
  | drop {w w' : World} {c : CtxId} {q : QueueId} {e : EventId} {b : Bool} :
      PipePop w w' c .market q e → (w.ctxs c).mode = .simulation → Skipped w c e →
      (w.ctxs c).savedEvent = none →
      BusStep (.drop c) w ((w'.updCtx c fun x => { x with isSimulatorStop := b }).note
        (.drop q e))
  /-- the market block saves an event -/
  | save {w w' : World} {c : CtxId} {q : QueueId} {e : EventId} {ts : Nat} :
      PipePop w w' c .market q e → (w.ctxs c).savedEvent = none → savedTime w c e ts →
      BusStep (.save c) w (busSave (w'.updEvent e fun x => { x with timestamp := ts }) c q e)
  /-- an event of another category is returned -/
  | give {w w' : World} {c : CtxId} {k : QueueCategory} {q : QueueId} {e : EventId} :
      PipePop w w' c k q e → k ≠ .market → BusStep (.give c) w (w'.note (.give c k q e))
  /-- a reminder is returned -/
  | fire {w w' : World} {c : CtxId} {k : ClockType} {t : EventId} :
      TimerPop w w' c k t →
      BusStep (.fire c) w (w'.note (.fire c k t (w.reminders t).timeout))
  /-- the saved event is returned -/
  | release {w w' : World} {c : CtxId} {e : EventId} :
      busUnsave w c = some (w', e) → BusStep (.release c) w w'
  /-- a returned event is forwarded to an attached queue with room -/
  | forward {w w' : World} {c : CtxId} {i : Nat} {q : QueueId} {e : EventId} :
      i < (w.ctxs c).attachedCount → (w.ctxs c).attached i = some q →
      QueuePushed (eventRef w e) w' q e → BusStep (.forward c) w w'
  /-- a returned event meets an attached queue that is full -/
  | overrun {w : World} {c : CtxId} {i : Nat} {q : QueueId} {e : EventId} :
      i < (w.ctxs c).attachedCount → (w.ctxs c).attached i = some q →
      (w.contents q).length + 1 = (w.queues q).spsc.capacity →
      BusStep (.overrun c) w (eventRef w e)

/-- **A chain of steps** of the kinds `S` through well-formed memories. -/
inductive BusRun (S : Set StepKind) : World → World → Prop
  | refl {w : World} : BusInv w → BusRun S w w
  | tail {w w' w'' : World} {s : StepKind} :
      BusRun S w w' → s ∈ S → BusStep s w' w'' → BusInv w'' → BusRun S w w''

namespace BusRun

variable {S T : Set StepKind} {s : StepKind}

theorem inv (h : BusRun S w w') : BusInv w' := by
  cases h with
  | refl hi => exact hi
  | tail _ _ _ hi => exact hi

theorem trans (h : BusRun S w w') (h' : BusRun S w' w'') : BusRun S w w'' := by
  induction h' with
  | refl _ => exact h
  | tail _ hm hs hi ih => exact BusRun.tail ih hm hs hi

theorem mono (h : BusRun S w w') (hST : S ⊆ T) : BusRun T w w' := by
  induction h with
  | refl hi => exact BusRun.refl hi
  | tail _ hm hs hi ih => exact BusRun.tail ih (hST hm) hs hi

theorem single (hi : BusInv w) (hm : s ∈ S) (hs : BusStep s w w') (hi' : BusInv w') :
    BusRun S w w' :=
  BusRun.tail (BusRun.refl hi) hm hs hi'

/-- **The run rule**: what every step keeps, every run keeps. -/
theorem keeps {P : World → Prop} (h : BusRun S w w')
    (step : ∀ s ∈ S, ∀ v v', BusInv v → BusInv v' → BusStep s v v' → P v → P v')
    (hp : P w) : P w' := by
  induction h with
  | refl _ => exact hp
  | tail hr hm hs hi ih => exact step _ hm _ _ hr.inv hi hs ih

end BusRun

/-- The kinds of steps a `bus_dequeue` on `c` makes. -/
def dequeueKinds (c : CtxId) : Set StepKind :=
  {.reenter c, .drop c, .save c, .give c, .fire c, .release c, .forward c, .overrun c}

end Ats
