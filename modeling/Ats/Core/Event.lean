import Ats.Core.World

/-!
# Event: allocation and reference counts of `event.c`

Freed memory stays in the model: `eventFree` records that the event was
freed, which is what the later modules argue about.
-/

namespace Ats

/-- `check_event_type`: `1` for a type that is out of range. -/
def checkEventType (type : Nat) : Int := if eventLast ≤ type then 1 else 0

/-- `register_event`: the code it returns. A type that is already
registered keeps its entry; `none` where `type_id` is past the table. -/
def registerEvent (w : World) (typeId defaultFlag eventSize : Nat) :
    Option (World × Int) :=
  if eventLast ≤ typeId then none
  else if (w.eventVtable typeId).eventSize ≠ 0 then some (w, -1)
  else
    some ({ w with
      eventVtable :=
        Function.update w.eventVtable typeId ⟨eventSize, defaultFlag⟩ }, 0)

/-- `event_free`. -/
def eventFree (w : World) (e : EventId) : World := w.note (.free e)

/-- `event_ref` -/
def eventRef (w : World) (e : EventId) : World :=
  w.updEvent e fun x => { x with refcount := x.refcount + 1 }

/-- `event_unref`: the count that was read before the decrement decides. -/
def eventUnref (w : World) (e : EventId) : World :=
  let old := (w.events e).refcount
  let w := (w.updEvent e fun x => { x with refcount := x.refcount - 1 }).note (.unref e)
  if old = 1 then eventFree w e else w

/-- `event_zalloc` with memory to give: a new event, all zero but for its
type, its default flag and its one reference. `none` where
`ASSERT(check_event_type(type) == 0)` fails. Sizes are not modelled: `ats_zalloc`
asserts that the size is positive, which holds of a type that is registered. -/
def eventZalloc (w : World) (type : Nat) : Option (World × EventId) :=
  if checkEventType type = 0 then
    let e := w.nextEvent
    some ({ w with
      events := Function.update w.events e
        ⟨1, type, (w.eventVtable type).defaultFlag, 0⟩
      reminders := Function.update w.reminders e ⟨.clockLocal, 0, 0, none, 0⟩
      timerNode := Function.update w.timerNode e ⟨none, none, none⟩
      nextEvent := e + 1 }, e)
  else none

/-! ## Counts -/

theorem eventRef_refcount (w : World) (e x : EventId) :
    ((eventRef w e).events x).refcount
      = (w.events x).refcount + if x = e then 1 else 0 := by
  by_cases hx : x = e
  · subst hx
    simp [eventRef, World.updEvent]
  · simp [eventRef, World.updEvent, hx]

/-- `event_unref` changes one count and the history. -/
theorem eventUnref_events (w : World) (e x : EventId) :
    (eventUnref w e).events x
      = if x = e then { w.events x with refcount := (w.events x).refcount - 1 }
        else w.events x := by
  have hupd : ∀ v : World, v.events = (w.updEvent e fun y =>
      { y with refcount := y.refcount - 1 }).events →
      v.events x = if x = e then { w.events x with refcount := (w.events x).refcount - 1 }
        else w.events x := by
    intro v hv
    rw [hv]
    by_cases hx : x = e
    · subst hx
      simp [World.updEvent]
    · simp [World.updEvent, hx]
  refine hupd _ ?_
  unfold eventUnref
  dsimp only
  split <;> rfl

theorem eventUnref_refcount (w : World) (e x : EventId) :
    ((eventUnref w e).events x).refcount
      = (w.events x).refcount - if x = e then 1 else 0 := by
  rw [eventUnref_events]
  split
  · rfl
  · exact (Int.sub_zero _).symm

theorem eventUnref_free {w : World} {e x : EventId} :
    .free x ∈ (eventUnref w e).log
      ↔ .free x ∈ w.log ∨ x = e ∧ (w.events e).refcount = 1 := by
  unfold eventUnref
  dsimp only
  split
  case isTrue h =>
    simp [World.note, World.updEvent, eventFree, h]
  case isFalse h =>
    simp [World.note, World.updEvent, h]

end Ats
