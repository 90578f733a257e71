import Ats.Core.Attach
import Ats.Core.TimerOrder
import Ats.Core.PipeOrder

/-!
# BusView: one bus by itself

A bus as an abstract machine that knows nothing of the other buses: what it
holds of queues, events and timers, and what it does when an event comes in,
when its clock is set and when it is asked for an event. Heaps are sets here;
who is first in one is told by the keys alone, so the machine has no choice.
-/

namespace Ats

/-- An event as the one who holds it sees it. -/
structure Seen where
  id : EventId
  eventType : Nat
  eventFlag : Nat
  timestamp : Nat
deriving DecidableEq, Repr

/-- A queue that is registered on the bus. -/
structure QueueView where
  capacity : Nat
  category : QueueCategory
  startId : Nat
  contents : List Seen

/-- **What a bus holds.** -/
@[ext] structure BusView where
  mode : BusMode
  time : ClockType → Nat
  counter : Nat
  pendingQueue : List QueueId
  saved : Option Seen
  attached : List QueueId
  queue : QueueId → Option QueueView
  linked : QueueCategory → Set QueueId
  timer : ClockType → EventId → Option Reminder

namespace BusView

variable {V V' V1 V2 : BusView} {k : QueueCategory} {j : ClockType} {q p : QueueId}
  {s : Seen} {t : EventId} {r : Reminder} {x : QueueView} {now : Nat} {o o' : Option EventId}

/-! ## What comes in -/

/-- An event is appended to `q`. -/
def push (V : BusView) (q : QueueId) (s : Seen) : BusView :=
  match V.queue q with
  | none => V
  | some x =>
      { V with
        queue := Function.update V.queue q (some { x with contents := x.contents ++ [s] })
        pendingQueue := if x.contents = [] then V.pendingQueue ++ [q] else V.pendingQueue }

/-- The clock is set, unless that would set it back. -/
def setTime (V : BusView) (time : Nat) : BusView :=
  if V.mode = .realtime ∨ time < V.time .clockLocal then V
  else { V with time := Function.update V.time .clockLocal time }

/-! ## Pending queues -/

/-- The first pending queue goes into its heap. -/
def reenter (V : BusView) : BusView :=
  match V.pendingQueue with
  | [] => V
  | q :: rest =>
      match V.queue q with
      | none => V
      | some x =>
          { V with
            pendingQueue := rest
            counter := V.counter + 1
            queue := Function.update V.queue q (some { x with startId := V.counter })
            linked := Function.update V.linked x.category (insert q (V.linked x.category)) }

/-- All of them do. -/
def check (V : BusView) : BusView := reenter^[V.pendingQueue.length] V

/-! ## Serving -/

/-- The event at the head of `q`. -/
def head (V : BusView) (q : QueueId) : Option Seen :=
  (V.queue q).bind fun x => x.contents.head?

/-- What `queue_less_than` compares. -/
def key (V : BusView) (q : QueueId) : Nat ×ₗ Nat :=
  match V.queue q with
  | none => toLex (0, 0)
  | some x => toLex (x.contents.head?.elim 0 Seen.timestamp, x.startId)

/-- `q` is before all others in its heap. -/
def First (V : BusView) (k : QueueCategory) (q : QueueId) : Prop :=
  q ∈ V.linked k ∧ ∀ p ∈ V.linked k, p ≠ q → V.key q < V.key p

/-- `q` gives up its oldest event, and leaves the heap or gets a new start
id. -/
def pop (V : BusView) (k : QueueCategory) (q : QueueId) : BusView :=
  match V.queue q with
  | none => V
  | some x =>
      { V with
        counter := if x.contents.tail = [] then V.counter else V.counter + 1
        queue := Function.update V.queue q (some { x with
          contents := x.contents.tail
          startId := if x.contents.tail = [] then x.startId else V.counter })
        linked := if x.contents.tail = [] then Function.update V.linked k (V.linked k \ {q})
          else V.linked }

/-- `t` is before all others on its clock. -/
def FirstTimer (V : BusView) (j : ClockType) (t : EventId) (r : Reminder) : Prop :=
  V.timer j t = some r ∧ ∀ u x, V.timer j u = some x → u ≠ t →
    toLex (r.timeout, r.startId) < toLex (x.timeout, x.startId)

/-- `t` fires, and leaves the heap or is armed for its next time. -/
def fire (V : BusView) (j : ClockType) (t : EventId) (r : Reminder) : BusView :=
  { V with
    counter := if r.repeat = 0 then V.counter else V.counter + 1
    timer := Function.update V.timer j (Function.update (V.timer j) t
      (if r.repeat = 0 then none
        else some { r with
          timeout := (r.timeout + r.repeat) % 2 ^ 64, startId := V.counter })) }

/-- An event is offered to an attached queue; that of another bus is none of
this one's. -/
def offer (s : Seen) (V : BusView) (q : QueueId) : BusView :=
  match V.queue q with
  | none => V
  | some x => if x.contents.length + 1 = x.capacity then V else V.push q s

/-- The returned event is forwarded. -/
def forward (V : BusView) (s : Seen) : BusView :=
  if s.eventType ≠ queueCloseEvent ∧ s.eventType ≠ queueOpenEvent then
    V.attached.foldl (offer s) V
  else V

/-! ## `bus_dequeue` -/

/-- The market block skips `s`. -/
def Skips (V : BusView) (s : Seen) : Prop :=
  V.mode = .simulation ∧ (s.eventType = simulatorStopEvent
    ∨ ¬ keptWhenLate s.eventType ∧ s.timestamp < V.time .clockLocal)

open Classical in
/-- `s` as it is saved: a late event gets the time of the bus. -/
noncomputable def restamp (V : BusView) (s : Seen) : Seen :=
  if V.mode = .simulation ∧ keptWhenLate s.eventType ∧ s.timestamp < V.time .clockLocal then
    { s with timestamp := V.time .clockLocal }
  else s

/-- **The market block.** -/
inductive Looks : BusView → BusView → Prop
  | done {V : BusView} : V.linked .market = ∅ ∨ V.saved ≠ none → Looks V V
  | skip {V V' : BusView} {q : QueueId} {s : Seen} :
      V.saved = none → V.First .market q → V.head q = some s → V.Skips s →
      Looks (V.pop .market q) V' → Looks V V'
  | save {V : BusView} {q : QueueId} {s : Seen} :
      V.saved = none → V.First .market q → V.head q = some s → ¬ V.Skips s →
      Looks V { V.pop .market q with saved := some (V.restamp s) }

/-- A timer is due by `limit`. -/
def Due (V : BusView) (j : ClockType) (limit : Nat) : Prop :=
  ∃ t r, V.timer j t = some r ∧ r.timeout ≤ limit

/-- A timer is due by the time of the saved event. -/
def DueAtSaved (V : BusView) (j : ClockType) : Prop :=
  ∃ s, V.saved = some s ∧ V.Due j s.timestamp

/-- The saved event is a tick. -/
def SavedIsTick (V : BusView) : Prop :=
  ∃ s, V.saved = some s ∧ s.eventFlag &&& eventFlagTickMask ≠ 0

open Classical in
/-- The cascade, in either mode. -/
noncomputable def source (V : BusView) (now : Nat) : BusSource :=
  if (if V.mode = .simulation then V.DueAtSaved .clockLocal else V.Due .clockLocal now) then
    .timer .clockLocal
  else if V.SavedIsTick ∧ V.DueAtSaved .clockExchange then .timer .clockExchange
  else if V.linked .execution ≠ ∅ then .pipe .execution
  else if V.mode = .simulation ∧ V.linked .service ≠ ∅ then .pipe .service
  else if V.linked .command ≠ ∅ then .pipe .command
  else if V.linked .service ≠ ∅ then .pipe .service
  else if V.saved ≠ none then .saved
  else .nothing

/-- The saved event leaves the bus, and is forwarded in simulation mode. -/
def release (V : BusView) (s : Seen) : BusView :=
  if V.mode = .simulation then { V with saved := none }.forward s
  else { V with saved := none }

/-- **Serving one source.** -/
inductive Serves (V : BusView) : BusSource → Option EventId → BusView → Prop
  | timer {j : ClockType} {t : EventId} {r : Reminder} :
      V.FirstTimer j t r → Serves V (.timer j) (some t) (V.fire j t r)
  | pipe {k : QueueCategory} {q : QueueId} {s : Seen} :
      V.First k q → V.head q = some s → Serves V (.pipe k) (some s.id) (V.pop k q)
  | saved {s : Seen} :
      V.saved = some s → Serves V .saved (some s.id) (V.release s)
  | nothing : Serves V .nothing none V

/-- **`bus_dequeue` on the bus.** -/
def Dequeues (V : BusView) (now : Nat) (o : Option EventId) (V' : BusView) : Prop :=
  ∃ V1, Looks V.check V1 ∧ V1.Serves (V1.source now) o V'

/-! ## The machine has no choice -/

theorem First.unique (h : V.First k q) (h' : V.First k p) : p = q := by
  by_contra hne
  exact lt_asymm (h.2 p h'.1 hne) (h'.2 q h.1 (Ne.symm hne))

theorem FirstTimer.unique {u : EventId} {x : Reminder} (h : V.FirstTimer j t r)
    (h' : V.FirstTimer j u x) : u = t ∧ x = r := by
  have hut : u = t := by
    by_contra hne
    exact lt_asymm (h.2 u x h'.1 hne) (h'.2 t r h.1 (Ne.symm hne))
  subst hut
  exact ⟨rfl, Option.some.inj (h'.1.symm.trans h.1)⟩

theorem Looks.unique (h : Looks V V1) (h' : Looks V V2) : V1 = V2 := by
  -- a block that goes on cannot be done
  have go : ∀ {W : BusView} {p : QueueId}, W.saved = none → W.First .market p →
      ¬ (W.linked .market = ∅ ∨ W.saved ≠ none) := by
    rintro W p hsaved hfirst (hnil | hne)
    · exact Set.notMem_empty p (hnil ▸ hfirst.1)
    · exact hne hsaved
  induction h with
  | done hdone =>
      cases h' with
      | done _ => rfl
      | skip hsaved hfirst _ _ _ => exact absurd hdone (go hsaved hfirst)
      | save hsaved hfirst _ _ => exact absurd hdone (go hsaved hfirst)
  | skip hsaved hfirst hhead hskip _ ih =>
      cases h' with
      | done hdone => exact absurd hdone (go hsaved hfirst)
      | skip _ hfirst' _ _ hrest =>
          rw [hfirst.unique hfirst'] at hrest
          exact ih hrest
      | save _ hfirst' hhead' hkeep =>
          rw [hfirst.unique hfirst', hhead] at hhead'
          cases hhead'
          exact absurd hskip hkeep
  | save hsaved hfirst hhead hkeep =>
      cases h' with
      | done hdone => exact absurd hdone (go hsaved hfirst)
      | skip _ hfirst' hhead' hskip _ =>
          rw [hfirst.unique hfirst', hhead] at hhead'
          cases hhead'
          exact absurd hskip hkeep
      | save _ hfirst' hhead' _ =>
          rw [hfirst.unique hfirst', hhead] at hhead'
          cases hhead'
          rw [hfirst.unique hfirst']

theorem Serves.unique {src : BusSource} (h : V.Serves src o V1) (h' : V.Serves src o' V2) :
    o = o' ∧ V1 = V2 := by
  cases h with
  | timer hfirst =>
      cases h' with
      | timer hfirst' =>
          obtain ⟨rfl, rfl⟩ := hfirst.unique hfirst'
          exact ⟨rfl, rfl⟩
  | pipe hfirst hhead =>
      cases h' with
      | pipe hfirst' hhead' =>
          obtain rfl := hfirst.unique hfirst'
          obtain rfl := Option.some.inj (hhead.symm.trans hhead')
          exact ⟨rfl, rfl⟩
  | saved hs =>
      cases h' with
      | saved hs' =>
          obtain rfl := Option.some.inj (hs.symm.trans hs')
          exact ⟨rfl, rfl⟩
  | nothing =>
      cases h'
      exact ⟨rfl, rfl⟩

/-- **`bus_dequeue` is determined by what the bus holds.** -/
theorem Dequeues.unique (h : V.Dequeues now o V1) (h' : V.Dequeues now o' V2) :
    o = o' ∧ V1 = V2 := by
  obtain ⟨W, hlook, hserve⟩ := h
  obtain ⟨W', hlook', hserve'⟩ := h'
  obtain rfl := hlook.unique hlook'
  exact hserve.unique hserve'

/-! ## Runs -/

end BusView

/-- What can happen to a bus. -/
inductive BusInput where
  /-- `s` was appended to its queue `q` -/
  | arrive (q : QueueId) (s : Seen)
  /-- `bus_set_time` was called on it -/
  | setTime (time : Nat)
  /-- `bus_dequeue` was called on it -/
  | dequeue (now : Nat)
deriving DecidableEq, Repr

namespace BusView

variable {V V' V1 V2 : BusView} {i : BusInput} {is is' : List BusInput}
  {os os' : List (Option EventId)}

/-- What one input makes of the bus, and what it returns. -/
inductive Takes (V : BusView) : BusInput → List (Option EventId) → BusView → Prop
  | arrive {q : QueueId} {s : Seen} : Takes V (.arrive q s) [] (V.push q s)
  | setTime {time : Nat} : Takes V (.setTime time) [] (V.setTime time)
  | dequeue {now : Nat} {o : Option EventId} {V' : BusView} :
      V.Dequeues now o V' → Takes V (.dequeue now) [o] V'

/-- **A run of the bus by itself**: from `V` the inputs are taken, the events
returned, and `V'` is left. -/
inductive Runs : BusView → List BusInput → List (Option EventId) → BusView → Prop
  | nil {V : BusView} : Runs V [] [] V
  | cons {V V1 V' : BusView} {i : BusInput} {is : List BusInput}
      {os os' : List (Option EventId)} :
      V.Takes i os V1 → Runs V1 is os' V' → Runs V (i :: is) (os ++ os') V'

theorem Takes.unique (h : V.Takes i os V1) (h' : V.Takes i os' V2) : os = os' ∧ V1 = V2 := by
  cases h with
  | arrive =>
      cases h'
      exact ⟨rfl, rfl⟩
  | setTime =>
      cases h'
      exact ⟨rfl, rfl⟩
  | dequeue hd =>
      cases h' with
      | dequeue hd' =>
          obtain ⟨rfl, rfl⟩ := hd.unique hd'
          exact ⟨rfl, rfl⟩

/-- **A bus by itself is determined by its inputs.** -/
theorem Runs.unique (h : Runs V is os V1) (h' : Runs V is os' V2) : os = os' ∧ V1 = V2 := by
  induction h generalizing os' V2 with
  | nil =>
      cases h'
      exact ⟨rfl, rfl⟩
  | cons ht _ ih =>
      cases h' with
      | cons ht' hr' =>
          obtain ⟨rfl, rfl⟩ := ht.unique ht'
          obtain ⟨rfl, rfl⟩ := ih hr'
          exact ⟨rfl, rfl⟩

theorem Runs.append (h : Runs V is os V1) (h' : Runs V1 is' os' V') :
    Runs V (is ++ is') (os ++ os') V' := by
  induction h with
  | nil => exact h'
  | cons ht _ ih =>
      rw [List.cons_append, List.append_assoc]
      exact Runs.cons ht (ih h')

theorem Takes.runs (h : V.Takes i os V') : Runs V [i] os V' := by
  have := Runs.cons h Runs.nil
  rwa [List.append_nil] at this

end BusView

end Ats
