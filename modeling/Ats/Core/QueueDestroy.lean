import Ats.Base.SpscqFifo
import Ats.Core.Calls
import Ats.Core.Clear
import Ats.Core.EventClone

/-!
# QueueDestroy: what a queue owes the events it holds

A queue owns one reference for each place an event takes in its ring.
`event_queue_push`, `event_queue_pop` and `event_queue_peek` leave the counts
alone, and `event_queue_destroy` gives back what is left.
-/

namespace Ats

variable {w w' : World} {q : QueueId} {xs : List EventId}

/-- A call on an event queue. -/
inductive QueueOp where
  | push (e : EventId)
  | pop
  | peek
deriving DecidableEq, Repr

/-- The same call on the ring of the queue. -/
def QueueOp.ring : QueueOp → SpscqOp EventId
  | .push e => .push e
  | .pop => .pop
  | .peek => .peek

def QueueOp.exec (w : World) (q : QueueId) : QueueOp → Option (World × SpscqResult EventId)
  | .push e => do
      let (w, ret) ← eventQueuePush w q e
      some (w, .code ret)
  | .pop =>
      let (w, e) := eventQueuePop w q
      some (w, .pointer e)
  | .peek => some (w, .pointer (eventQueuePeek w q))

/-- A sequence of calls on `q`, and what they returned. -/
def queueOps (w : World) (q : QueueId) : List QueueOp → Option (World × List (SpscqResult EventId))
  | [] => some (w, [])
  | op :: ops => do
      let (w, r) ← op.exec w q
      let (w, rs) ← queueOps w q ops
      some (w, r :: rs)

/-! ## The calls -/

/-- What a call on `q` leaves alone: every event, and the record of what has
been freed. -/
structure CountsKept (w w' : World) : Prop where
  events : w'.events = w.events
  frees : ∀ e, w'.log.count (.free e) = w.log.count (.free e)

theorem CountsKept.refl (w : World) : CountsKept w w := ⟨rfl, fun _ => rfl⟩

theorem CountsKept.trans {w'' : World} (h : CountsKept w w') (h' : CountsKept w' w'') :
    CountsKept w w'' :=
  ⟨h'.events.trans h.events, fun e => (h'.frees e).trans (h.frees e)⟩

/-- `event_queue_push` appends, notifies, and counts nothing: its assertion
holds, since an empty ring has room. -/
theorem eventQueuePush_kept (hr : SpscqRep (w.queues q).spsc xs) (e : EventId) :
    ∃ w', eventQueuePush w q e = some (w', (spscqPush (w.queues q).spsc e).2)
      ∧ (w'.queues q).spsc = (spscqPush (w.queues q).spsc e).1 ∧ CountsKept w w' := by
  obtain ⟨v, hv⟩ : ∃ v, v = (eventQueueAppend w q e).1 := ⟨_, rfl⟩
  have happ : eventQueueAppend w q e = (v, (spscqPush (w.queues q).spsc e).2) := by
    rw [hv]
    rfl
  have hring : (v.queues q).spsc = (spscqPush (w.queues q).spsc e).1 := by
    rw [hv]
    simp only [eventQueueAppend]
    split <;> simp [World.note, World.updQueue]
  have hkept : CountsKept w v := by
    rw [hv]
    simp only [eventQueueAppend]
    split
    · exact ⟨rfl, fun x => by simp [World.note, World.updQueue]⟩
    · exact ⟨rfl, fun _ => rfl⟩
  have hroom : eventQueueIsEmpty w q = true → (spscqPush (w.queues q).spsc e).2 = 0 := by
    intro hempty
    have htwo := hr.two_le
    obtain rfl := hr.isEmpty_iff.mp hempty
    exact (hr.push e (by simp; omega)).1
  cases hempty : eventQueueIsEmpty w q with
  | false =>
      refine ⟨v, ?_, hring, hkept⟩
      simp [eventQueuePush, eventQueueNotify, happ, hempty]
  | true =>
      cases hctx : (v.queues q).ctx with
      | none =>
          refine ⟨v, ?_, hring, hkept⟩
          simp [eventQueuePush, eventQueueNotify, happ, hempty, hctx]
      | some c =>
          refine ⟨busAsyncAddQueue v c q, ?_, hring, hkept.events, hkept.frees⟩
          simp [eventQueuePush, eventQueueNotify, happ, hempty, hctx, hroom hempty]

/-- **One call** answers as the ring does and counts nothing. -/
theorem QueueOp.exec_kept (hr : SpscqRep (w.queues q).spsc xs) (op : QueueOp) :
    ∃ w', op.exec w q = some (w', (op.ring.exec (w.queues q).spsc).2)
      ∧ (w'.queues q).spsc = (op.ring.exec (w.queues q).spsc).1 ∧ CountsKept w w' := by
  cases op with
  | push e =>
      obtain ⟨w', hpush, hring, hkept⟩ := eventQueuePush_kept hr e
      refine ⟨w', ?_, hring, hkept⟩
      simp [QueueOp.exec, QueueOp.ring, SpscqOp.exec, hpush]
  | pop =>
      refine ⟨(eventQueuePop w q).1, rfl, ?_, rfl, fun _ => rfl⟩
      simp [eventQueuePop, World.updQueue, QueueOp.ring, SpscqOp.exec]
  | peek => exact ⟨w, rfl, rfl, .refl w⟩

/-- **Any sequence of calls.** -/
theorem queueOps_kept (ops : List QueueOp) : ∀ {w : World} {xs : List EventId},
    SpscqRep (w.queues q).spsc xs →
    ∃ w', queueOps w q ops
        = some (w', (fifoCalls ((w.queues q).spsc.capacity - 1) xs (ops.map QueueOp.ring)).2)
      ∧ SpscqRep (w'.queues q).spsc
          (fifoCalls ((w.queues q).spsc.capacity - 1) xs (ops.map QueueOp.ring)).1
      ∧ CountsKept w w' := by
  induction ops with
  | nil => exact fun {w} _ hr => ⟨w, rfl, hr, .refl w⟩
  | cons op ops ih =>
      intro w xs hr
      obtain ⟨hret, hrep, hcap⟩ := hr.exec op.ring
      obtain ⟨v, hexec, hring, hkept⟩ := op.exec_kept hr
      rw [← hring] at hrep hcap
      obtain ⟨w', hops, hreps, hkepts⟩ := ih hrep
      rw [hcap] at hops hreps
      refine ⟨w', ?_, hreps, hkept.trans hkepts⟩
      simp only [queueOps, hexec, hops, hret, List.map_cons, fifoCalls, Option.bind_eq_bind,
        Option.bind_some]

/-! ## `event_queue_destroy` -/

/-- **The references in `xs` have been given back**: each event has lost one
for each place it takes in `xs`, and has been freed where its last went. -/
structure Released (w w' : World) (xs : List EventId) : Prop where
  event : ∀ e, w'.events e
    = { w.events e with refcount := (w.events e).refcount - xs.count e }
  frees : ∀ e, w'.log.count (.free e) = w.log.count (.free e)
    + if 0 < (w.events e).refcount ∧ (w.events e).refcount ≤ xs.count e then 1 else 0

theorem Released.nil (h : CountsKept w w') : Released w w' [] := by
  refine ⟨fun e => by simp [h.events], fun e => ?_⟩
  have hpos : ¬ (0 < (w.events e).refcount ∧ (w.events e).refcount ≤ ([].count e : Nat)) := by
    simp
  simp only [h.frees, if_neg hpos, Nat.add_zero]

/-- One more reference first. An event whose last that was is not freed
again: its count is no longer positive. -/
theorem Released.cons {x : EventId} (h : Released (eventUnref w x) w' xs) :
    Released w w' (x :: xs) := by
  refine ⟨fun e => ?_, fun e => ?_⟩
  · rw [h.event, eventUnref_events]
    by_cases hx : e = x
    · subst hx
      simp
      omega
    · have hne : ¬ x = e := fun hc => hx hc.symm
      simp [hx, hne]
  · rw [h.frees, eventUnref_count, eventUnref_refcount]
    by_cases hx : e = x
    · subst hx
      simp only [true_and, if_true, List.count_cons_self]
      split <;> split <;> split <;> omega
    · have hne : ¬ x = e := fun hc => hx hc.symm
      simp [hx, hne]

/-- **The drain loop** gives back what the ring holds, in whatever order and
however often an event occurs. -/
theorem eventQueueDrain_released : ∀ (xs : List EventId) (fuel : Nat) {w w' : World},
    SpscqRep (w.queues q).spsc xs → eventQueueDrain fuel w q = some w' → Released w w' xs := by
  apply eventQueueDrain_rule
  · intro w
    exact .nil (.refl w)
  · intro x xs w v w' hv hrest
    have hall : Released v w' (x :: xs) := hrest.cons
    have hevents : v.events = w.events := by rw [hv]; rfl
    have hlog : v.log = w.log := by rw [hv]; rfl
    refine ⟨fun e => ?_, fun e => ?_⟩
    · rw [hall.event, hevents]
    · rw [hall.frees, hevents, hlog]

/-- **`event_queue_destroy`** comes to its end, past the assertion of
`spscq_destroy`, and has given back what the queue held. -/
theorem eventQueueDestroy_released (hr : SpscqRep (w.queues q).spsc xs) :
    ∃ w', eventQueueDestroy w q = some w' ∧ Released w w' xs := by
  obtain ⟨w', hdrain, hempty⟩ := eventQueueDrain_emptied xs (spscqLength (w.queues q).spsc + 1) hr
    (by simp [hr.length_eq])
  refine ⟨w', ?_, eventQueueDrain_released xs _ hr hdrain⟩
  simp [eventQueueDestroy, hdrain, hempty.ring.destroy_iff.mpr rfl]

/-- **A queue releases exactly its contents.** From a ring as `spscq_init`
leaves it, any sequence of pushes, pops and peeks changes no event and frees
none, and `event_queue_destroy` then takes one reference for each place an
event has in the queue. -/
theorem queueOps_destroyed {size : Nat} (hw : size < 2 ^ 32)
    (hinit : spscqInit size = some (w.queues q).spsc) (ops : List QueueOp) :
    ∃ w₁ w₂ rs, queueOps w q ops = some (w₁, rs)
      ∧ w₁.events = w.events ∧ (∀ e, w₁.log.count (.free e) = w.log.count (.free e))
      ∧ eventQueueDestroy w₁ q = some w₂
      ∧ Released w₁ w₂ (fifoCalls (size - 1) [] (ops.map QueueOp.ring)).1 := by
  have htwo : 2 ≤ size := by
    by_contra hlt
    simp [spscqInit, hlt] at hinit
  obtain ⟨r, hr, hrep, hcap⟩ := SpscqRep.init (α := EventId) htwo hw
  obtain rfl : r = (w.queues q).spsc := Option.some.inj (hr.symm.trans hinit)
  obtain ⟨w₁, hops, hreps, hkept⟩ := queueOps_kept ops hrep
  rw [hcap] at hops hreps
  obtain ⟨w₂, hdestroy, hreleased⟩ := eventQueueDestroy_released hreps
  exact ⟨w₁, w₂, _, hops, hkept.events, hkept.frees, hdestroy, hreleased⟩

/-- A queue of three slots that keeps one event twice: both references go. -/
theorem queueOps_destroyed_twice :
    ∃ w₁ w₂ rs,
      queueOps (.fresh .simulation 0 [(3, .market)] fun _ => ⟨2, 1, 2, 0⟩) 0
          [.push 4, .pop, .push 5, .push 5, .push 6, .peek] = some (w₁, rs)
        ∧ w₁.events = (fun _ => ⟨2, 1, 2, 0⟩) ∧ (∀ e, w₁.log.count (.free e) = 0)
        ∧ eventQueueDestroy w₁ 0 = some w₂ ∧ Released w₁ w₂ [5, 5] :=
  @queueOps_destroyed (.fresh .simulation 0 [(3, .market)] fun _ => ⟨2, 1, 2, 0⟩) 0 3
    (by decide) rfl _

end Ats
