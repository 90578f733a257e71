import Ats.Core.TimerBus
import Ats.Core.EventDispatch
import Ats.Lib.GuardedRun

/-!
# Reminders: who holds a reference to a timer

A client of busses without queues makes reminders, arms them, and lets
`ctx_run` dispatch what fires. Its references are counted next to the
memory: `bus_add_timer` takes one over, `timer_heap_pop` hands it out with
the reminder, unless the timer repeats; `dispatch_event` drops one in either
case.
-/

namespace Ats

variable {w w' : World} {c d : CtxId} {k : ClockType} {t s e : EventId}

/-! ## The machine -/

/-- A call of `dispatch_event` that has not returned. -/
structure DispatchCall where
  event : EventId
  /-- history: a reference came with the event -/
  owned : Bool
deriving DecidableEq, Repr

/-- The memory, with what the client holds and is in. -/
structure ReminderClient where
  world : World
  /-- history: the references the client has to each event -/
  held : EventId → Nat
  calls : List DispatchCall

/-- What the client does. Filter and handler of a dispatched event are
client code: what they do comes between `dequeue`, `filtered` and
`handled`. -/
inductive ReminderOp where
  /-- `event_zalloc(REMINDER_EVENT)` -/
  | zalloc
  /-- the client sets the fields of a reminder -/
  | setup (t : EventId) (clockType : ClockType) (timeout «repeat» : Nat)
  /-- the client sets `repeat` alone -/
  | setRepeat (t : EventId) («repeat» : Nat)
  | ref (t : EventId)
  | unref (t : EventId)
  | addTimer (c : CtxId) (t : EventId)
  | clear (c : CtxId)
  /-- `e = bus_dequeue(ctx)`, and `dispatch_event(ctx, e)` is entered -/
  | dequeue (c : CtxId) (now : Nat)
  /-- `e = ctx->event_filter(e)` returns -/
  | filtered (r : Option EventId)
  /-- the handler returns, and `dispatch_event` with it -/
  | handled
deriving DecidableEq, Repr

namespace ReminderClient

/-- One more, or one less, reference of the client. -/
def take (p : ReminderClient) (t : EventId) (n : Nat) : ReminderClient :=
  { p with held := Function.update p.held t (p.held t + n) }

def give (p : ReminderClient) (t : EventId) (n : Nat) : ReminderClient :=
  { p with held := Function.update p.held t (p.held t - n) }

end ReminderClient

/-- The references a dispatched event came with. -/
def DispatchCall.count (x : DispatchCall) : Nat := if x.owned then 1 else 0

def ReminderOp.exec (p : ReminderClient) : ReminderOp → Option ReminderClient
  | .zalloc => do
      let (w, e) ← eventZalloc p.world reminderEvent
      some ({ p with world := w }.take e 1)
  | .setup t clockType timeout rep =>
      some { p with world := p.world.updReminder t fun x =>
        { x with clockType := clockType, timeout := timeout, «repeat» := rep } }
  | .setRepeat t rep =>
      some { p with world := p.world.updReminder t fun x => { x with «repeat» := rep } }
  | .ref t => some ({ p with world := eventRef p.world t }.take t 1)
  | .unref t => some ({ p with world := eventUnref p.world t }.give t 1)
  | .addTimer c t => do
      let w ← busAddTimer p.world c t
      some ({ p with world := w }.give t 1)
  | .clear c => do
      let w ← busClear p.world c
      some { p with world := w }
  | .dequeue c now => do
      let (w, e) ← busDequeue p.world c now
      match e with
      | none => some { p with world := w }
      | some e =>
          some { p with
            world := w
            calls := ⟨e, decide ((w.reminders e).repeat = 0)⟩ :: p.calls }
  | .filtered r =>
      match p.calls with
      | [] => none
      | x :: rest =>
          match r with
          | none => some ({ p with calls := rest }.take x.event x.count)
          | some e =>
              if e = x.event then some p
              else some (({ p with calls := ⟨e, true⟩ :: rest }.take x.event x.count).give e 1)
  | .handled =>
      match p.calls with
      | [] => none
      | x :: rest =>
          some ({ p with world := eventUnref p.world x.event, calls := rest }.give x.event
            (1 - x.count))

/-- **The client keeps to its references**: it drops and hands on only what
it holds, takes one only to an event that has not been freed, and leaves
the fields of an armed timer and an armed timer itself alone. -/
def ReminderOp.Fair (p : ReminderClient) : ReminderOp → Prop
  | .setup t _ _ _ => Unarmed p.world t
  | .ref t => t < p.world.nextEvent ∧ .free t ∉ p.world.log
  | .unref t => 0 < p.held t
  | .addTimer _ t => 0 < p.held t ∧ Unarmed p.world t
  | .filtered r => p.calls ≠ []
      ∧ ∀ e ∈ r, ∀ x ∈ p.calls.head?, e = x.event ∨ 0 < p.held e
  | .handled => p.calls ≠ []
  | _ => True

/-- A reminder that came without a reference, since its timer repeats, is
dropped against one that the client holds. -/
def ReminderOp.Backed (p : ReminderClient) : ReminderOp → Prop
  | .handled => ∀ x ∈ p.calls.head?, x.owned = true ∨ 0 < p.held x.event
  | _ => True

instance ReminderOp.Fair.decide (p : ReminderClient) : (op : ReminderOp) → Decidable (op.Fair p)
  | .setup t _ _ _ => inferInstanceAs (Decidable (Unarmed p.world t))
  | .ref t => inferInstanceAs (Decidable (t < p.world.nextEvent ∧ .free t ∉ p.world.log))
  | .unref t => inferInstanceAs (Decidable (0 < p.held t))
  | .addTimer _ t => inferInstanceAs (Decidable (0 < p.held t ∧ Unarmed p.world t))
  | .filtered r => inferInstanceAs (Decidable (p.calls ≠ []
      ∧ ∀ e ∈ r, ∀ x ∈ p.calls.head?, e = x.event ∨ 0 < p.held e))
  | .handled => inferInstanceAs (Decidable (p.calls ≠ []))
  | .zalloc | .setRepeat _ _ | .clear _ | .dequeue _ _ => inferInstanceAs (Decidable True)

instance ReminderOp.Backed.decide (p : ReminderClient) :
    (op : ReminderOp) → Decidable (op.Backed p)
  | .handled => inferInstanceAs (Decidable
      (∀ x ∈ p.calls.head?, x.owned = true ∨ 0 < p.held x.event))
  | .zalloc | .setup _ _ _ _ | .setRepeat _ _ | .ref _ | .unref _ | .addTimer _ _ | .clear _
  | .dequeue _ _ | .filtered _ => inferInstanceAs (Decidable True)

/-- A run of the client. -/
def runReminders (p : ReminderClient) (ops : List ReminderOp) : Option ReminderClient :=
  GuardedRun.run ReminderOp.exec p ops

/-! ## One call of `dispatch_event` -/

theorem ReminderOp.exec_filtered {p p' : ReminderClient} {r : Option EventId}
    (h : (ReminderOp.filtered r).exec p = some p') :
    p'.world = p.world
      ∧ ∀ e ∈ r, ∃ x rest, p'.calls = x :: rest ∧ x.event = e := by
  rw [ReminderOp.exec] at h
  split at h
  case h_1 => cases h
  case h_2 x rest hcalls =>
    split at h
    case h_1 =>
      cases h
      exact ⟨rfl, fun e he => by cases he⟩
    case h_2 e =>
      split at h
      case isTrue hx =>
        cases h
        refine ⟨rfl, fun y hy => ⟨x, rest, hcalls, ?_⟩⟩
        cases hy
        exact hx.symm
      case isFalse =>
        cases h
        refine ⟨rfl, fun y hy => ⟨⟨e, true⟩, rest, rfl, ?_⟩⟩
        cases hy
        rfl

/-- **A filter that swallows the event** ends `dispatch_event`. -/
theorem dispatchEvent_swallowed {d : Dispatcher} {p p1 p2 : ReminderClient}
    (hfilter : dispatchFilter d p.world e = some (p1.world, none))
    (hr : (ReminderOp.filtered none).exec p1 = some p2) :
    dispatchEvent d p.world e = some p2.world := by
  rw [dispatchEvent, hfilter, (ReminderOp.exec_filtered hr).1]
  rfl

/-- **Otherwise** what the filter did from `p` to `p1`, its return, what the
handler did from `p2` to `p3`, and its return are one call of
`dispatch_event`. -/
theorem dispatchEvent_handled {d : Dispatcher} {p p1 p2 p3 p4 : ReminderClient}
    (hfilter : dispatchFilter d p.world e = some (p1.world, some s))
    (hr : (ReminderOp.filtered (some s)).exec p1 = some p2)
    (hhandle : dispatchHandle d p2.world s = some p3.world) (hcalls : p3.calls = p2.calls)
    (hdone : ReminderOp.handled.exec p3 = some p4) :
    dispatchEvent d p.world e = some p4.world := by
  obtain ⟨hw, hhead⟩ := ReminderOp.exec_filtered hr
  obtain ⟨x, rest, hx, hs⟩ := hhead s rfl
  rw [ReminderOp.exec, hcalls, hx] at hdone
  cases hdone
  rw [dispatchEvent, hfilter]
  simp only [Option.bind_eq_bind, Option.bind_some, ← hw, hhandle]
  rw [← hs]
  rfl

/-! ## The account -/

/-- One for the heap that `t` is in. -/
def armedCount (w : World) (t : EventId) : Nat := if Unarmed w t then 0 else 1

/-- The references to `t` that calls in progress came with. -/
def ownedCalls (calls : List DispatchCall) (t : EventId) : Nat :=
  (calls.map fun x => if x.event = t then x.count else 0).sum

/-- **Every reference has a holder**: the client, a timer heap, or a call of
`dispatch_event`; and what was freed has none. -/
structure Accounted (p : ReminderClient) : Prop where
  inv : BusInv p.world
  idle : QueuesIdle p.world
  count : ∀ t, t < p.world.nextEvent → (p.world.events t).refcount
    = p.held t + armedCount p.world t + ownedCalls p.calls t
  fresh : ∀ t, p.world.nextEvent ≤ t → p.held t = 0 ∧ Unarmed p.world t
  calls : ∀ x ∈ p.calls, x.event < p.world.nextEvent
  freed : ∀ t, .free t ∈ p.world.log →
    t < p.world.nextEvent ∧ (p.world.events t).refcount = 0

theorem TimerInv.unarmed_iff (h : TimerInv w) : Unarmed w t ↔ ∀ d j, t ∉ w.timerNodes d j :=
  ⟨h.nowhere_of_unarmed, fun hn d _ => hn d _⟩

theorem TimerInv.armedCount_eq (h : TimerInv w) (h' : TimerInv w')
    (hm : ∀ d j, t ∈ w'.timerNodes d j ↔ t ∈ w.timerNodes d j) :
    armedCount w' t = armedCount w t := by
  have hiff : Unarmed w' t ↔ Unarmed w t := by
    rw [h.unarmed_iff, h'.unarmed_iff]
    exact forall_congr' fun d => forall_congr' fun j => not_congr (hm d j)
  rw [armedCount, armedCount]
  simp only [hiff]

theorem TimerInv.armedCount_mem (h : TimerInv w) (ht : t ∈ w.timerNodes d k) :
    armedCount w t = 1 :=
  if_neg (fun hu => h.nowhere_of_unarmed hu d k ht)

theorem armedCount_unarmed (h : Unarmed w t) : armedCount w t = 0 := if_pos h

@[simp] theorem ReminderClient.take_self (p : ReminderClient) (t : EventId) (n : Nat) :
    (p.take t n).held t = p.held t + n := Function.update_self ..

theorem ReminderClient.take_ne (p : ReminderClient) {t s : EventId} (n : Nat) (h : s ≠ t) :
    (p.take t n).held s = p.held s := Function.update_of_ne h ..

@[simp] theorem ReminderClient.give_self (p : ReminderClient) (t : EventId) (n : Nat) :
    (p.give t n).held t = p.held t - n := Function.update_self ..

theorem ReminderClient.give_ne (p : ReminderClient) {t s : EventId} (n : Nat) (h : s ≠ t) :
    (p.give t n).held s = p.held s := Function.update_of_ne h ..

variable {p p' : ReminderClient}

/-- Whoever holds a reference holds it to an event that exists. -/
theorem Accounted.lt_of_held (h : Accounted p) (ht : 0 < p.held t) :
    t < p.world.nextEvent := by
  rcases Nat.lt_or_ge t p.world.nextEvent with hlt | hge
  · exact hlt
  · rw [(h.fresh t hge).1] at ht
    exact absurd ht (Nat.lt_irrefl 0)

/-- What was freed has no holder. -/
theorem Accounted.nobody (h : Accounted p) (ht : .free t ∈ p.world.log) :
    p.held t = 0 ∧ Unarmed p.world t ∧ ownedCalls p.calls t = 0 := by
  obtain ⟨hlt, hzero⟩ := h.freed t ht
  have hc := h.count t hlt
  refine ⟨by omega, ?_, by omega⟩
  by_contra hu
  rw [armedCount, if_neg hu] at hc
  omega

@[simp] theorem ownedCalls_cons (x : DispatchCall) (calls : List DispatchCall) (t : EventId) :
    ownedCalls (x :: calls) t = (if x.event = t then x.count else 0) + ownedCalls calls t := by
  simp [ownedCalls]

theorem ownedCalls_eq_zero {calls : List DispatchCall} (h : ∀ x ∈ calls, x.event ≠ t) :
    ownedCalls calls t = 0 := by
  induction calls with
  | nil => rfl
  | cons x calls ih =>
      rw [ownedCalls_cons, if_neg (h x List.mem_cons_self), Nat.zero_add]
      exact ih (fun y hy => h y (List.mem_cons_of_mem x hy))

/-- **The rule for one call**: what it adds to a count it adds to a
holder. -/
theorem Accounted.next (h : Accounted p) (hi : BusInv p'.world) (hidle : QueuesIdle p'.world)
    (hnext : p'.world.nextEvent = p.world.nextEvent)
    (hcount : ∀ t, t < p.world.nextEvent →
      (p'.world.events t).refcount + p.held t + armedCount p.world t + ownedCalls p.calls t
        = (p.world.events t).refcount + p'.held t + armedCount p'.world t
          + ownedCalls p'.calls t)
    (hfresh : ∀ t, p.world.nextEvent ≤ t → p'.held t = 0 ∧ Unarmed p'.world t)
    (hcalls : ∀ x ∈ p'.calls, x.event < p.world.nextEvent)
    (hfreed : ∀ t, .free t ∈ p'.world.log →
      t < p.world.nextEvent ∧ (p'.world.events t).refcount = 0) : Accounted p' where
  inv := hi
  idle := hidle
  count := fun t ht => by
    rw [hnext] at ht
    have := h.count t ht
    have := hcount t ht
    omega
  fresh := fun t ht => hfresh t (hnext ▸ ht)
  calls := fun x hx => hnext ▸ hcalls x hx
  freed := fun t ht => hnext ▸ hfreed t ht

/-- `event_unref` of an event that somebody holds frees it or not. -/
theorem Accounted.freed_unref (h : Accounted p) (ht : t < p.world.nextEvent)
    (hpos : 1 ≤ (p.world.events t).refcount) :
    ∀ s, .free s ∈ (eventUnref p.world t).log →
      s < p.world.nextEvent ∧ ((eventUnref p.world t).events s).refcount = 0 := by
  intro s hs
  rw [eventUnref_refcount]
  rcases eventUnref_free.mp hs with hs | ⟨rfl, hone⟩
  · obtain ⟨hlt, hzero⟩ := h.freed s hs
    have hst : s ≠ t := by
      rintro rfl
      omega
    rw [if_neg hst]
    exact ⟨hlt, by omega⟩
  · rw [if_pos rfl]
    exact ⟨ht, by omega⟩

theorem Accounted.zalloc (h : Accounted p) :
    ∃ p', ReminderOp.zalloc.exec p = some p' ∧ Accounted p' := by
  obtain ⟨hheld, hun⟩ := h.fresh p.world.nextEvent (Nat.le_refl _)
  have hz : eventZalloc p.world reminderEvent = some ({ p.world with
      events := Function.update p.world.events p.world.nextEvent
        ⟨1, reminderEvent, (p.world.eventVtable reminderEvent).defaultFlag, 0⟩
      reminders := Function.update p.world.reminders p.world.nextEvent
        ⟨.clockLocal, 0, 0, none, 0⟩
      timerNode := Function.update p.world.timerNode p.world.nextEvent ⟨none, none, none⟩
      nextEvent := p.world.nextEvent + 1 }, p.world.nextEvent) := rfl
  refine ⟨_, by rw [ReminderOp.exec, hz]; rfl, ?_⟩
  -- from here on the new memory is a variable
  generalize hw : ({ p.world with
      events := Function.update p.world.events p.world.nextEvent
        ⟨1, reminderEvent, (p.world.eventVtable reminderEvent).defaultFlag, 0⟩
      reminders := Function.update p.world.reminders p.world.nextEvent
        ⟨.clockLocal, 0, 0, none, 0⟩
      timerNode := Function.update p.world.timerNode p.world.nextEvent ⟨none, none, none⟩
      nextEvent := p.world.nextEvent + 1 } : World) = w
  have hnext : w.nextEvent = p.world.nextEvent + 1 := by rw [← hw]
  have hself : w.events p.world.nextEvent
      = ⟨1, reminderEvent, (p.world.eventVtable reminderEvent).defaultFlag, 0⟩ := by
    rw [← hw]
    exact Function.update_self ..
  have hne : ∀ s, s ≠ p.world.nextEvent → w.events s = p.world.events s := by
    intro s hs
    rw [← hw]
    exact Function.update_of_ne hs ..
  obtain ⟨ht, hnodes⟩ : TimerInv w ∧ ∀ d j, w.timerNodes d j = p.world.timerNodes d j :=
    h.inv.timer.touch (h.inv.timer.nowhere_of_unarmed hun)
    (fun d => by rw [← hw]) (fun s hs => by rw [← hw]; exact Function.update_of_ne hs ..)
    (fun s hs => by rw [← hw]; exact Function.update_of_ne hs ..)
  have hq : SameQueues p.world w := by
    rw [← hw]
    exact ⟨fun _ => rfl, fun _ => rfl, fun _ => rfl, rfl, rfl, fun _ => rfl, fun _ => rfl⟩
  have hs : SameSlots p.world w := by
    rw [← hw]
    exact ⟨fun _ => rfl, fun _ => rfl, fun _ => rfl, fun _ => rfl⟩
  have harmed : ∀ s, armedCount w s = armedCount p.world s := fun s =>
    h.inv.timer.armedCount_eq ht (fun d j => by rw [hnodes])
  refine ⟨?_, h.idle.of_same hq hs, fun s hs' => ?_, fun s hs' => ?_, fun x hx => ?_,
    fun s hs' => ?_⟩
  · exact h.inv.of_same (hq.queueInv h.inv.queue) ht hs (Nat.le_of_eq hq.next.symm)
      (fun _ _ hp => (hq.ctx _).trans hp) (fun _ _ => hq.category _)
  · show (w.events s).refcount = _
    by_cases hsn : s = p.world.nextEvent
    · subst hsn
      have hnone : ownedCalls p.calls p.world.nextEvent = 0 :=
        ownedCalls_eq_zero (fun x hx => Nat.ne_of_lt (h.calls x hx))
      have hzero : armedCount w p.world.nextEvent = 0 := by
        rw [harmed]
        exact armedCount_unarmed hun
      rw [hself, ReminderClient.take_self, hheld]
      show (1 : Int) = _ + (armedCount w p.world.nextEvent : Int)
        + (ownedCalls p.calls p.world.nextEvent : Int)
      rw [hzero, hnone]
      rfl
    · have hle : s < w.nextEvent := hs'
      rw [hnext] at hle
      have hlt : s < p.world.nextEvent := Nat.lt_of_le_of_ne (Nat.le_of_lt_succ hle) hsn
      rw [hne s hsn, ReminderClient.take_ne _ _ hsn, h.count s hlt]
      show _ = _ + (armedCount w s : Int) + (ownedCalls p.calls s : Int)
      rw [harmed]
  · have hs'' : p.world.nextEvent + 1 ≤ s := hnext ▸ hs'
    have hsn : s ≠ p.world.nextEvent := Nat.ne_of_gt hs''
    obtain ⟨h1, h2⟩ := h.fresh s (Nat.le_of_succ_le hs'')
    refine ⟨(ReminderClient.take_ne _ _ hsn).trans h1, ?_⟩
    show Unarmed w s
    rw [ht.unarmed_iff]
    intro d j
    rw [hnodes]
    exact h.inv.timer.nowhere_of_unarmed h2 d j
  · show x.event < w.nextEvent
    rw [hnext]
    exact Nat.lt_succ_of_lt (h.calls x hx)
  · have hs'' : .free s ∈ p.world.log := by
      rw [← hw] at hs'
      exact hs'
    obtain ⟨hlt, hzero⟩ := h.freed s hs''
    show s < w.nextEvent ∧ (w.events s).refcount = 0
    rw [hnext, hne s (Nat.ne_of_lt hlt)]
    exact ⟨Nat.lt_succ_of_lt hlt, hzero⟩

/-- Writing a reminder, where its place in the heaps stays. -/
theorem Accounted.written (h : Accounted p) {f : Reminder → Reminder}
    (ht : TimerInv (p.world.updReminder t f))
    (hnodes : ∀ d j, (p.world.updReminder t f).timerNodes d j = p.world.timerNodes d j) :
    Accounted { p with world := p.world.updReminder t f } := by
  have hq : SameQueues p.world (p.world.updReminder t f) :=
    ⟨fun _ => rfl, fun _ => rfl, fun _ => rfl, rfl, rfl, fun _ => rfl, fun _ => rfl⟩
  have hs : SameSlots p.world (p.world.updReminder t f) :=
    ⟨fun _ => rfl, fun _ => rfl, fun _ => rfl, fun _ => rfl⟩
  have hi : BusInv (p.world.updReminder t f) :=
    h.inv.of_same (hq.queueInv h.inv.queue) ht hs (Nat.le_refl _) (fun _ _ hp => hp)
      (fun _ _ => rfl)
  refine h.next hi (h.idle.of_same hq hs) rfl (fun s _ => ?_) (fun s hs' => ?_) h.calls h.freed
  · have harmed : armedCount (p.world.updReminder t f) s = armedCount p.world s :=
      h.inv.timer.armedCount_eq ht (fun d j => by rw [hnodes])
    show (p.world.events s).refcount + _ + _ + _
      = _ + _ + ((armedCount (p.world.updReminder t f) s : Nat) : Int) + _
    rw [harmed]
  · refine ⟨(h.fresh s hs').1, ht.unarmed_iff.mpr fun d j => ?_⟩
    rw [hnodes]
    exact h.inv.timer.nowhere_of_unarmed (h.fresh s hs').2 d j

theorem Accounted.setup (h : Accounted p) (hun : Unarmed p.world t) (clockType : ClockType)
    (timeout rep : Nat) :
    Accounted { p with world := p.world.updReminder t fun x =>
      { x with clockType := clockType, timeout := timeout, «repeat» := rep } } := by
  have htouch : ∀ f : Reminder → Reminder, TimerInv (p.world.updReminder t f)
      ∧ ∀ d j, (p.world.updReminder t f).timerNodes d j = p.world.timerNodes d j :=
    fun _ => h.inv.timer.touch (h.inv.timer.nowhere_of_unarmed hun) (fun _ => rfl)
      (fun _ _ => rfl) (fun s hs => Function.update_of_ne hs ..)
  exact h.written (htouch _).1 (htouch _).2

theorem Accounted.setRepeat (h : Accounted p) (t : EventId) (rep : Nat) :
    Accounted { p with world := p.world.updReminder t fun x =>
      { x with «repeat» := rep } } := by
  have hsame : SameTimers p.world (p.world.updReminder t fun x =>
      { x with «repeat» := rep }) := by
    refine ⟨fun s => ?_, fun s => ?_, rfl, fun _ => rfl⟩
    all_goals
      by_cases hs : s = t
      · subst hs
        simp [World.updReminder]
      · simp [World.updReminder, hs]
  exact h.written (hsame.timerInv h.inv.timer) (fun d j => rfl)

theorem Accounted.ref (h : Accounted p) (ht : t < p.world.nextEvent)
    (hf : .free t ∉ p.world.log) :
    Accounted (({ p with world := eventRef p.world t } : ReminderClient).take t 1) := by
  have hi : BusInv (eventRef p.world t) := h.inv.updEvent t _
  refine h.next hi (h.idle.of_same ⟨fun _ => rfl, fun _ => rfl, fun _ => rfl, rfl, rfl,
    fun _ => rfl, fun _ => rfl⟩ ⟨fun _ => rfl, fun _ => rfl, fun _ => rfl, fun _ => rfl⟩) rfl
    (fun s _ => ?_) (fun s hs => ?_) h.calls (fun s hs => ?_)
  · show ((eventRef p.world t).events s).refcount + _ + _ + _
      = _ + _ + (armedCount p.world s : Int) + (ownedCalls p.calls s : Int)
    rw [eventRef_refcount]
    by_cases hst : s = t
    · subst hst
      rw [if_pos rfl, ReminderClient.take_self]
      show _ = _ + ((p.held s + 1 : Nat) : Int) + _ + _
      omega
    · rw [if_neg hst, ReminderClient.take_ne _ _ hst, Int.add_zero]
  · have hst : s ≠ t := fun hc => absurd ht (Nat.not_lt_of_le (hc ▸ hs))
    exact ⟨(ReminderClient.take_ne _ _ hst).trans (h.fresh s hs).1, (h.fresh s hs).2⟩
  · have hs' : .free s ∈ p.world.log := hs
    have hst : s ≠ t := fun hc => hf (hc ▸ hs')
    obtain ⟨hlt, hzero⟩ := h.freed s hs'
    refine ⟨hlt, ?_⟩
    show ((eventRef p.world t).events s).refcount = 0
    rw [eventRef_refcount, if_neg hst, hzero]
    rfl

/-- One reference is dropped: the client's, or the one that the last call of
`dispatch_event` came with. -/
theorem Accounted.drop (h : Accounted p) (calls : List DispatchCall) {n : Nat}
    (ht : t < p.world.nextEvent) (hn : n ≤ 1) (hheld : n ≤ p.held t)
    (hself : ownedCalls calls t + (1 - n) = ownedCalls p.calls t)
    (hothers : ∀ s, s ≠ t → ownedCalls calls s = ownedCalls p.calls s)
    (hcalls : ∀ x ∈ calls, x ∈ p.calls) :
    Accounted (({ p with world := eventUnref p.world t, calls := calls } :
      ReminderClient).give t n) := by
  have hu := eventUnref_frame p.world t
  have hpos : 1 ≤ (p.world.events t).refcount := by
    have := h.count t ht
    omega
  have harmed : ∀ s, armedCount (eventUnref p.world t) s = armedCount p.world s :=
    fun s => h.inv.timer.armedCount_eq (hu.inv h.inv).timer (fun d j => by rw [hu.timerNodes])
  refine h.next (hu.inv h.inv) (h.idle.of_same hu.sameQueues hu.sameSlots) hu.nextEvent
    (fun s _ => ?_) (fun s hs => ?_) (fun x hx => h.calls x (hcalls x hx))
    (h.freed_unref ht hpos)
  · show ((eventUnref p.world t).events s).refcount + _ + _ + _
      = _ + _ + (armedCount (eventUnref p.world t) s : Int) + (ownedCalls calls s : Int)
    rw [eventUnref_refcount, harmed]
    by_cases hst : s = t
    · subst hst
      rw [if_pos rfl, ReminderClient.give_self]
      show _ = _ + ((p.held s - n : Nat) : Int) + _ + _
      omega
    · rw [if_neg hst, ReminderClient.give_ne _ _ hst, hothers s hst, Int.sub_zero]
  · have hst : s ≠ t := fun hc => absurd ht (Nat.not_lt_of_le (hc ▸ hs))
    refine ⟨(ReminderClient.give_ne _ _ hst).trans (h.fresh s hs).1, ?_⟩
    show Unarmed (eventUnref p.world t) s
    rw [(hu.inv h.inv).timer.unarmed_iff]
    intro d j
    rw [hu.timerNodes]
    exact h.inv.timer.nowhere_of_unarmed (h.fresh s hs).2 d j

/-- **`bus_add_timer`** takes a reference over. -/
theorem Accounted.addTimer (h : Accounted p) (hheld : 0 < p.held t)
    (hun : Unarmed p.world t) (c : CtxId) :
    ∃ p', (ReminderOp.addTimer c t).exec p = some p' ∧ Accounted p' := by
  obtain ⟨w', hcall, harm, ht'⟩ := h.inv.timer.busAddTimer
    (h.inv.timer.nowhere_of_unarmed hun) c
  refine ⟨({ p with world := w' } : ReminderClient).give t 1,
        by rw [ReminderOp.exec, hcall]; rfl, ?_⟩
  have hf := harm.frame
  have hlt := h.lt_of_held hheld
  have hmem : ∀ s, s ≠ t → ∀ d j, s ∈ w'.timerNodes d j ↔ s ∈ p.world.timerNodes d j := by
    intro s hs d j
    by_cases hd : d = c ∧ j = (p.world.reminders t).clockType
    · obtain ⟨rfl, rfl⟩ := hd
      rw [harm.nodes.mem_iff, List.mem_cons]
      simp [hs]
    · rw [harm.nodes_ne d j (by tauto)]
  have hself : armedCount w' t = 1 := ht'.armedCount_mem (harm.nodes.mem_iff.mpr
    List.mem_cons_self)
  refine h.next (h.inv.of_timerFrame hf ht') (h.idle.of_same hf.sameQueues hf.sameSlots)
    hf.nextEvent (fun s _ => ?_) (fun s hs => ?_) h.calls (fun s hs => ?_)
  · show (w'.events s).refcount + _ + _ + _
      = _ + _ + (armedCount w' s : Int) + (ownedCalls p.calls s : Int)
    rw [hf.events]
    by_cases hst : s = t
    · subst hst
      rw [hself, armedCount_unarmed hun, ReminderClient.give_self]
      show _ = _ + ((p.held s - 1 : Nat) : Int) + _ + _
      omega
    · rw [h.inv.timer.armedCount_eq ht' (hmem s hst), ReminderClient.give_ne _ _ hst]
  · have hst : s ≠ t := fun hc => absurd hlt (Nat.not_lt_of_le (hc ▸ hs))
    refine ⟨(ReminderClient.give_ne _ _ hst).trans (h.fresh s hs).1, ?_⟩
    show Unarmed w' s
    rw [ht'.unarmed_iff]
    intro d j
    rw [hmem s hst]
    exact h.inv.timer.nowhere_of_unarmed (h.fresh s hs).2 d j
  · have hs' : .free s ∈ w'.log := hs
    rw [hf.log] at hs'
    show s < _ ∧ (w'.events s).refcount = 0
    rw [hf.events]
    exact h.freed s hs'

/-- **`bus_clear`** gives the references of its timers up. -/
theorem Accounted.clear (h : Accounted p) (c : CtxId) :
    ∃ p', (ReminderOp.clear c).exec p = some p' ∧ Accounted p' := by
  obtain ⟨w', hcall, hclear⟩ := h.idle.busClear h.inv c
  refine ⟨{ p with world := w' }, by rw [ReminderOp.exec, hcall]; rfl, ?_⟩
  have hout : ∀ s, (∀ j, s ∉ p.world.timerNodes c j) → ∀ d j,
      s ∈ w'.timerNodes d j ↔ s ∈ p.world.timerNodes d j := by
    intro s hs d j
    by_cases hd : d = c
    · subst hd
      rw [hclear.nodes]
      exact ⟨fun hm => absurd hm List.not_mem_nil, fun hm => absurd hm (hs j)⟩
    · rw [hclear.nodes_ne d j hd]
  have hgone : ∀ s j, s ∈ p.world.timerNodes c j → Unarmed w' s := by
    intro s j hm
    rw [hclear.inv.timer.unarmed_iff]
    intro d i
    by_cases hd : d = c
    · subst hd
      rw [hclear.nodes]
      exact List.not_mem_nil
    · rw [hclear.nodes_ne d i hd]
      exact fun hm' => hd (h.inv.timer.mem_unique hm hm').1.symm
  refine h.next hclear.inv hclear.idle hclear.nextEvent (fun s _ => ?_) (fun s hs => ?_) h.calls
    (fun s hs => ?_)
  · show (w'.events s).refcount + _ + _ + _ = _ + _ + (armedCount w' s : Int) + _
    by_cases hm : ∃ j, s ∈ p.world.timerNodes c j
    · obtain ⟨j, hm⟩ := hm
      rw [hclear.linked s j hm, h.inv.timer.armedCount_mem hm,
        armedCount_unarmed (hgone s j hm)]
      show _ = _ + (p.held s : Int) + _ + (ownedCalls p.calls s : Int)
      omega
    · have hm' : ∀ j, s ∉ p.world.timerNodes c j := fun j hj => hm ⟨j, hj⟩
      rw [hclear.others s hm', h.inv.timer.armedCount_eq hclear.inv.timer (hout s hm')]
  · refine ⟨(h.fresh s hs).1, ?_⟩
    show Unarmed w' s
    rw [hclear.inv.timer.unarmed_iff]
    have hno := h.inv.timer.nowhere_of_unarmed (h.fresh s hs).2
    exact fun d j hm => hno d j ((hout s (hno c) d j).mp hm)
  · have hs' : .free s ∈ w'.log := hs
    show s < _ ∧ (w'.events s).refcount = 0
    rcases hclear.free s hs' with hs' | ⟨⟨j, hm⟩, hone⟩
    · have hno := h.inv.timer.nowhere_of_unarmed (h.nobody hs').2.1
      rw [hclear.others s (hno c)]
      exact h.freed s hs'
    · refine ⟨?_, by rw [hclear.linked s j hm, hone]; rfl⟩
      rcases Nat.lt_or_ge s p.world.nextEvent with hlt | hge
      · exact hlt
      · exact absurd hm (h.inv.timer.nowhere_of_unarmed (h.fresh s hge).2 c j)

/-- **A timer that fires** leaves its heap with its reference, or stays in it
and keeps it. -/
theorem Accounted.dequeue (h : Accounted p) (c : CtxId) (now : Nat) :
    ∃ p', (ReminderOp.dequeue c now).exec p = some p' ∧ Accounted p' := by
  obtain ⟨w', r, hcall, hi', hcase⟩ := h.idle.busDequeue h.inv c now
  rcases hcase with ⟨rfl, rfl⟩ | ⟨k, t, w1, rfl, hpop, hw'⟩
  · exact ⟨p, by rw [ReminderOp.exec, hcall]; rfl, h⟩
  refine ⟨{ p with world := w', calls := ⟨t, decide ((w'.reminders t).repeat = 0)⟩ :: p.calls },
    by rw [ReminderOp.exec, hcall]; rfl, ?_⟩
  have hf := hpop.frame
  have hrep : (w'.reminders t).repeat = (p.world.reminders t).repeat := by
    rw [hw']
    show (w1.reminders t).repeat = _
    rw [hf.reminders]
  have hnodes : ∀ d j, w'.timerNodes d j = w1.timerNodes d j := fun d j => by rw [hw']; rfl
  have hev : w'.events = p.world.events := by rw [hw']; exact hf.events
  have hnd := (h.inv.timer.heap c k).nodup
  have hmem : ∀ s, s ≠ t → ∀ d j, s ∈ w'.timerNodes d j ↔ s ∈ p.world.timerNodes d j := by
    intro s hs d j
    rw [hnodes]
    by_cases hd : d = c ∧ j = k
    · obtain ⟨rfl, rfl⟩ := hd
      rw [hpop.nodes.mem_iff]
      split
      · exact List.mem_erase_of_ne hs
      · exact Iff.rfl
    · rw [hpop.nodes_ne d j (by tauto)]
  have hlt : t < p.world.nextEvent := by
    rcases Nat.lt_or_ge t p.world.nextEvent with hlt | hge
    · exact hlt
    · exact absurd hpop.mem (h.inv.timer.nowhere_of_unarmed (h.fresh t hge).2 c k)
  -- the reference of the heap goes over to the call where the timer does not repeat
  have hsum : armedCount w' t + (if (p.world.reminders t).repeat = 0 then 1 else 0) = 1 := by
    split
    case isTrue hz =>
      have hun : Unarmed w' t := by
        rw [hi'.timer.unarmed_iff]
        intro d j
        rw [hnodes]
        by_cases hd : d = c ∧ j = k
        · obtain ⟨rfl, rfl⟩ := hd
          rw [hpop.nodes.mem_iff, if_pos hz]
          exact hnd.not_mem_erase
        · rw [hpop.nodes_ne d j (by tauto)]
          exact h.inv.timer.notMem_other hpop.armed.1 hpop.armed.2 (by tauto)
      rw [armedCount_unarmed hun]
    case isFalse hz =>
      refine hi'.timer.armedCount_mem (d := c) (k := k) ?_
      rw [hnodes, hpop.nodes.mem_iff, if_neg hz]
      exact hpop.mem
  have hother : QueuesIdle w' := by
    have := h.idle.of_same hf.sameQueues hf.sameSlots
    rw [hw']
    exact ⟨this.nodes, this.pending, this.saved, this.attached⟩
  refine h.next hi' hother (by rw [hw']; exact hf.nextEvent) (fun s _ => ?_) (fun s hs => ?_)
    (fun x hx => ?_) (fun s hs => ?_)
  · show (w'.events s).refcount + (p.held s : Int) + _ + _
      = _ + (p.held s : Int) + (armedCount w' s : Int) + _
    rw [hev, ownedCalls_cons]
    by_cases hst : s = t
    · subst hst
      have hold := h.inv.timer.armedCount_mem hpop.mem
      have hcount : DispatchCall.count ⟨s, decide ((w'.reminders s).repeat = 0)⟩
          = if (p.world.reminders s).repeat = 0 then 1 else 0 := by
        simp [DispatchCall.count, hrep]
      rw [if_pos rfl, hcount, hold]
      omega
    · have hts : ¬ t = s := fun hc => hst hc.symm
      rw [if_neg hts, h.inv.timer.armedCount_eq hi'.timer (hmem s hst), Nat.zero_add]
  · have hst : s ≠ t := fun hc => absurd hlt (Nat.not_lt_of_le (hc ▸ hs))
    refine ⟨(h.fresh s hs).1, ?_⟩
    show Unarmed w' s
    rw [hi'.timer.unarmed_iff]
    intro d j
    rw [hmem s hst]
    exact h.inv.timer.nowhere_of_unarmed (h.fresh s hs).2 d j
  · rcases List.mem_cons.mp hx with rfl | hx
    · exact hlt
    · exact h.calls x hx
  · have hs' : .free s ∈ p.world.log := by
      have hlog : w'.log = p.world.log ++ [.fire c k t (p.world.reminders t).timeout] := by
        rw [hw', ← hf.log]
        rfl
      have hs2 : .free s ∈ w'.log := hs
      rw [hlog] at hs2
      simpa using hs2
    show s < _ ∧ (w'.events s).refcount = 0
    rw [hev]
    exact h.freed s hs'

theorem DispatchCall.count_le (x : DispatchCall) : x.count ≤ 1 := by
  rw [DispatchCall.count]
  split <;> omega

/-- **The filter returns** the event, another one of the client's, or
nothing: what it keeps is the client's. -/
theorem Accounted.filtered (h : Accounted p) {r : Option EventId}
    (hfair : (ReminderOp.filtered r).Fair p) :
    ∃ p', (ReminderOp.filtered r).exec p = some p' ∧ Accounted p' := by
  obtain ⟨hne, hr⟩ := hfair
  obtain ⟨x, rest, hx⟩ := List.exists_cons_of_ne_nil hne
  have hlt := h.calls x (by rw [hx]; exact List.mem_cons_self)
  have hrest : ∀ y ∈ rest, y.event < p.world.nextEvent :=
    fun y hy => h.calls y (by rw [hx]; exact List.mem_cons_of_mem x hy)
  have hsum : ∀ s, ownedCalls p.calls s
      = (if x.event = s then x.count else 0) + ownedCalls rest s := fun s => by
    rw [hx, ownedCalls_cons]
  have hnot : ∀ s, p.world.nextEvent ≤ s → s ≠ x.event :=
    fun s hs hc => absurd hlt (Nat.not_lt_of_le (hc ▸ hs))
  cases r with
  | none =>
      refine ⟨({ p with calls := rest } : ReminderClient).take x.event x.count,
        by rw [ReminderOp.exec, hx], h.next h.inv h.idle rfl (fun s _ => ?_) (fun s hs => ?_)
          hrest h.freed⟩
      · show (p.world.events s).refcount + _ + _ + _
          = _ + _ + (armedCount p.world s : Int) + (ownedCalls rest s : Int)
        rw [hsum]
        by_cases hs : s = x.event
        · subst hs
          rw [if_pos rfl, ReminderClient.take_self]
          push_cast
          show _ = _ + ((p.held x.event : Int) + _) + _ + _
          omega
        · have hs' : ¬ x.event = s := fun hc => hs hc.symm
          rw [if_neg hs', ReminderClient.take_ne _ _ hs, Nat.zero_add]
      · exact ⟨(ReminderClient.take_ne _ _ (hnot s hs)).trans (h.fresh s hs).1,
          (h.fresh s hs).2⟩
  | some e =>
      -- the same event goes on with the reference it came with
      by_cases he : e = x.event
      · exact ⟨p, by rw [ReminderOp.exec, hx]; exact if_pos he, h⟩
      have hheld : 0 < p.held e := (hr e rfl x (by rw [hx]; rfl)).resolve_left he
      have hlte := h.lt_of_held hheld
      refine ⟨(({ p with calls := ⟨e, true⟩ :: rest } : ReminderClient).take x.event
        x.count).give e 1, by rw [ReminderOp.exec, hx]; exact if_neg he,
        h.next h.inv h.idle rfl (fun s _ => ?_) (fun s hs => ?_) (fun y hy => ?_) h.freed⟩
      · show (p.world.events s).refcount + _ + _ + _
          = _ + _ + (armedCount p.world s : Int) + (ownedCalls (⟨e, true⟩ :: rest) s : Int)
        rw [hsum, ownedCalls_cons]
        have hone : DispatchCall.count ⟨e, true⟩ = 1 := rfl
        by_cases hse : s = e
        · subst hse
          have hxs : ¬ x.event = s := fun hc => he hc.symm
          rw [if_neg hxs, if_pos rfl, hone, ReminderClient.give_self,
            ReminderClient.take_ne _ _ he]
          show _ = _ + ((p.held s - 1 : Nat) : Int) + _ + _
          omega
        · have hes : ¬ e = s := fun hc => hse hc.symm
          rw [if_neg hes, ReminderClient.give_ne _ _ hse]
          by_cases hs : s = x.event
          · subst hs
            rw [if_pos rfl, ReminderClient.take_self]
            push_cast
            show _ = _ + ((p.held x.event : Int) + _) + _ + _
            omega
          · have hs' : ¬ x.event = s := fun hc => hs hc.symm
            rw [if_neg hs', ReminderClient.take_ne _ _ hs]
      · have hse : s ≠ e := fun hc => absurd hlte (Nat.not_lt_of_le (hc ▸ hs))
        exact ⟨(ReminderClient.give_ne _ _ hse).trans
          ((ReminderClient.take_ne _ _ (hnot s hs)).trans (h.fresh s hs).1), (h.fresh s hs).2⟩
      · rcases List.mem_cons.mp hy with rfl | hy
        · exact hlte
        · exact hrest y hy

/-- **`dispatch_event` drops the reference** it was given, or one of the
client's. -/
theorem Accounted.handled (h : Accounted p) (hfair : ReminderOp.handled.Fair p)
    (hback : ReminderOp.handled.Backed p) :
    ∃ p', ReminderOp.handled.exec p = some p' ∧ Accounted p' := by
  obtain ⟨x, rest, hx⟩ := List.exists_cons_of_ne_nil (show p.calls ≠ [] from hfair)
  have hle := x.count_le
  refine ⟨_, by rw [ReminderOp.exec, hx], h.drop rest (n := 1 - x.count)
    (h.calls x (by rw [hx]; exact List.mem_cons_self)) (Nat.sub_le 1 _) ?_ ?_ (fun s hs => ?_)
    (fun y hy => ?_)⟩
  · rcases hback x (by rw [hx]; rfl) with ho | hpos
    · rw [DispatchCall.count, if_pos ho]
      exact Nat.zero_le _
    · omega
  · rw [hx, ownedCalls_cons, if_pos rfl]
    omega
  · have hs' : ¬ x.event = s := fun hc => hs hc.symm
    rw [hx, ownedCalls_cons, if_neg hs', Nat.zero_add]
  · rw [hx]
    exact List.mem_cons_of_mem x hy

/-- **Each call** of a fair client, with its repeating timers backed. -/
theorem Accounted.exec (h : Accounted p) {op : ReminderOp} (hfair : op.Fair p)
    (hback : op.Backed p) : ∃ p', op.exec p = some p' ∧ Accounted p' := by
  cases op with
  | zalloc => exact h.zalloc
  | setup t k timeout rep => exact ⟨_, rfl, h.setup hfair k timeout rep⟩
  | setRepeat t rep => exact ⟨_, rfl, h.setRepeat t rep⟩
  | ref t => exact ⟨_, rfl, h.ref hfair.1 hfair.2⟩
  | unref t =>
      exact ⟨_, rfl, h.drop p.calls (h.lt_of_held hfair) (Nat.le_refl 1) hfair
        (Nat.add_zero _) (fun _ _ => rfl) (fun _ hx => hx)⟩
  | addTimer c t => exact h.addTimer hfair.1 hfair.2 c
  | clear c => exact h.clear c
  | dequeue c now => exact h.dequeue c now
  | filtered r => exact h.filtered hfair
  | handled => exact h.handled hfair hback

/-! ## Runs -/

theorem Booted.accounted (hw : Booted w) {held : EventId → Nat}
    (hheld : ∀ t, t < w.nextEvent → (w.events t).refcount = held t)
    (hnone : ∀ t, w.nextEvent ≤ t → held t = 0) : Accounted ⟨w, held, []⟩ := by
  have hun : ∀ t, Unarmed w t := fun t d _ => by
    rw [hw.timerNodes]
    exact List.not_mem_nil
  refine ⟨hw.inv, hw.queuesIdle, fun t ht => ?_, fun t ht => ⟨hnone t ht, hun t⟩,
    (fun x hx => by cases hx), fun t ht => ?_⟩
  · show (w.events t).refcount = held t + (armedCount w t : Int) + 0
    rw [armedCount_unarmed (hun t), hheld t ht]
    omega
  · have ht' : .free t ∈ w.log := ht
    rw [hw.log] at ht'
    cases ht'

/-- **No timer that is linked is dead**: in every run of a fair client that
backs the repeating timers it lets `dispatch_event` drop, a reminder in a
timer heap has a reference and has not been freed. -/
theorem runReminders_alive (hw : Booted w) (held : EventId → Nat)
    (hheld : ∀ t, t < w.nextEvent → (w.events t).refcount = held t)
    (hnone : ∀ t, w.nextEvent ≤ t → held t = 0) (ops : List ReminderOp)
    (hrun : GuardedRun.Guarded ReminderOp.exec (fun p op => op.Fair p ∧ op.Backed p)
      ⟨w, held, []⟩ ops) :
    ∃ p, runReminders ⟨w, held, []⟩ ops = some p ∧ ∀ c k t, t ∈ p.world.timerNodes c k →
      1 ≤ (p.world.events t).refcount ∧ .free t ∉ p.world.log := by
  obtain ⟨p, hcall, h⟩ := GuardedRun.Guarded.total
    (fun p op h hop => h.exec (show op.Fair p from hop.1) hop.2) ops hrun (hw.accounted hheld hnone)
  refine ⟨p, hcall, fun c k t ht => ?_⟩
  have harmed := h.inv.timer.armedCount_mem ht
  have hlt : t < p.world.nextEvent := by
    rcases Nat.lt_or_ge t p.world.nextEvent with hlt | hge
    · exact hlt
    · exact absurd ht (h.inv.timer.nowhere_of_unarmed (h.fresh t hge).2 c k)
  have hcount := h.count t hlt
  refine ⟨by omega, fun hf => ?_⟩
  have := (h.freed t hf).2
  omega

/-- A repeating timer to which the client keeps a reference, and one that
fires once. -/
theorem runReminders_alive_two :
    ∃ p, runReminders ⟨World.fresh .realtime 0 [] (fun _ => ⟨0, 0, 0, 0⟩), fun _ => 0, []⟩
        [.zalloc, .setup 0 .clockLocal 3 5, .ref 0, .addTimer 0 0, .zalloc,
          .setup 1 .clockLocal 4 0, .addTimer 0 1, .dequeue 0 10, .filtered (some 0), .handled,
          .dequeue 0 10, .handled, .setRepeat 0 0, .clear 0] = some p
      ∧ ∀ c k t, t ∈ p.world.timerNodes c k →
        1 ≤ (p.world.events t).refcount ∧ .free t ∉ p.world.log :=
  runReminders_alive (World.fresh_booted (by simp)) _ (fun t ht => absurd ht (Nat.not_lt_zero t))
    (fun _ _ => rfl) _ (by decide +kernel)

/-- A repeating timer is freed when it has fired once, and stays in its
heap. -/
theorem repeating_freed :
    ∃ p, runReminders ⟨World.fresh .realtime 0 [] (fun _ => ⟨0, 0, 0, 0⟩), fun _ => 0, []⟩
        [.zalloc, .setup 0 .clockLocal 3 5, .addTimer 0 0, .dequeue 0 10, .handled] = some p
      ∧ GuardedRun.Guarded ReminderOp.exec (fun p op => op.Fair p)
        ⟨World.fresh .realtime 0 [] (fun _ => ⟨0, 0, 0, 0⟩), fun _ => 0, []⟩
        [.zalloc, .setup 0 .clockLocal 3 5, .addTimer 0 0, .dequeue 0 10, .handled]
      ∧ 0 ∈ p.world.timerNodes 0 .clockLocal ∧ (p.world.events 0).refcount = 0
      ∧ .free 0 ∈ p.world.log := by
  have hrun : (runReminders ⟨World.fresh .realtime 0 [] (fun _ => ⟨0, 0, 0, 0⟩),
      fun _ => 0, []⟩ [.zalloc, .setup 0 .clockLocal 3 5, .addTimer 0 0, .dequeue 0 10,
        .handled]).any (fun p => decide (0 ∈ p.world.timerNodes 0 .clockLocal
          ∧ (p.world.events 0).refcount = 0 ∧ .free 0 ∈ p.world.log)) = true := by
    decide +kernel
  rw [Option.any_eq_true] at hrun
  obtain ⟨p, hcall, hp⟩ := hrun
  rw [decide_eq_true_iff] at hp
  exact ⟨p, hcall, by decide +kernel, hp⟩

end Ats
