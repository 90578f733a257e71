import Ats.Core.Event
import Ats.Core.Calls
import Ats.Lib.GuardedRun

/-!
# EventClone: the references of a client to its events

A client makes, references, drops and clones events of registered types. Its
references are counted next to the memory. `event_clone` copies the bytes of
the event, so the memory is taken here with the bytes that the core reads
nowhere else.
-/

namespace Ats

/-! ## `event_clone` -/

/-- The memory with the data of each event: `body e i` is byte `i` of `e`,
apart from the fields that `World` has. -/
structure EventMem where
  world : World
  body : EventId → Nat → UInt8

/-- The `clone_func` entries of `event_vtable`, which are client code. -/
abbrev CloneFuncs := Nat → Option (EventMem → EventId → EventMem × EventId)

/-- `default_clone`: the one reference is stored into `e`. -/
def defaultClone (m : EventMem) (e : EventId) : EventMem × EventId :=
  let w := m.world
  let size := (w.eventVtable (w.events e).eventType).eventSize
  let result := w.nextEvent
  let copied := { w with
    events := Function.update w.events result (w.events e)
    reminders := Function.update w.reminders result (w.reminders e)
    timerNode := Function.update w.timerNode result (w.timerNode e)
    nextEvent := result + 1 }
  ({ world := copied.updEvent e fun x => { x with refcount := 1 }
     body := Function.update m.body result fun i => if i < size then m.body e i else 0 }, result)

/-- `event_clone`; `none` where its `ASSERT` fails, which a build with
`NDEBUG` leaves out. -/
def eventClone (ndebug : Bool) (cloneFunc : CloneFuncs) (m : EventMem) (e : EventId) :
    Option (EventMem × EventId) :=
  let type := (m.world.events e).eventType
  if ndebug ∨ checkEventType type ≠ 0 then
    match cloneFunc type with
    | some clone => some (clone m e)
    | none => some (defaultClone m e)
  else none

/-- `r` is an exact clone of `e`: a new event with one reference and the rest
of `e`'s contents, and nothing else has changed. -/
structure ExactClone (m : EventMem) (e : EventId) (m' : EventMem) (r : EventId) : Prop where
  distinct : r = m.world.nextEvent
  next : m'.world.nextEvent = m.world.nextEvent + 1
  copy : m'.world.events r = { m.world.events e with refcount := 1 }
  reminder : m'.world.reminders r = m.world.reminders e
  timerNode : m'.world.timerNode r = m.world.timerNode e
  body : ∀ i, i < (m.world.eventVtable (m.world.events e).eventType).eventSize →
    m'.body r i = m.body e i
  others : ∀ x, x ≠ r → m'.world.events x = m.world.events x
    ∧ m'.world.reminders x = m.world.reminders x ∧ m'.world.timerNode x = m.world.timerNode x
    ∧ m'.body x = m.body x
  vtable : m'.world.eventVtable = m.world.eventVtable
  log : m'.world.log = m.world.log

/-! ## The machine -/

/-- The memory, and the references that are outstanding. -/
structure EventClient where
  mem : EventMem
  /-- history: the references that the holders have to each event -/
  held : EventId → Nat

/-- The calls on events. -/
inductive EventOp where
  | zalloc (type : Nat)
  | ref (e : EventId)
  | unref (e : EventId)
  | clone (e : EventId)
deriving DecidableEq, Repr

namespace EventClient

/-- Nothing has been allocated; the types of `vtable` are registered. -/
def start (vtable : Nat → EventInfo) : EventClient where
  mem := ⟨{ World.fresh .simulation 0 [] (fun _ => ⟨0, 0, 0, 0⟩) with eventVtable := vtable },
    fun _ _ => 0⟩
  held := fun _ => 0

def setHeld (p : EventClient) (e : EventId) (n : Nat) : EventClient :=
  { p with held := Function.update p.held e n }

def withWorld (p : EventClient) (w : World) : EventClient := { p with mem.world := w }

/-- How often `e` has been freed. -/
def frees (p : EventClient) (e : EventId) : Nat := p.mem.world.log.count (.free e)

end EventClient

def EventOp.exec (ndebug : Bool) (cloneFunc : CloneFuncs) (p : EventClient) :
    EventOp → Option EventClient
  | .zalloc type => do
      let (w, e) ← eventZalloc p.mem.world type
      some (({ p with mem := ⟨w, Function.update p.mem.body e fun _ => 0⟩ } :
        EventClient).setHeld e 1)
  | .ref e => some ((p.withWorld (eventRef p.mem.world e)).setHeld e (p.held e + 1))
  | .unref e => some ((p.withWorld (eventUnref p.mem.world e)).setHeld e (p.held e - 1))
  | .clone e => do
      let (m, result) ← eventClone ndebug cloneFunc p.mem e
      some (({ p with mem := m } : EventClient).setHeld result 1)

/-- **The holders keep to the rules**: types are registered, and only events
that someone has a reference to are used. -/
def EventOp.Fair (p : EventClient) : EventOp → Prop
  | .zalloc type => type < eventLast ∧ 0 < (p.mem.world.eventVtable type).eventSize
  | .ref e | .unref e | .clone e => 0 < p.held e

/-- `event_clone` is exact where the `ASSERT` is left out and the clone is the
client's own, or the event has one reference. -/
def CloneSound (ndebug : Bool) (cloneFunc : CloneFuncs) (m : EventMem) (e : EventId) : Prop :=
  ndebug = true
    ∧ ((cloneFunc (m.world.events e).eventType).isSome ∨ (m.world.events e).refcount = 1)

def EventOp.Sound (ndebug : Bool) (cloneFunc : CloneFuncs) (p : EventClient) : EventOp → Prop
  | .clone e => CloneSound ndebug cloneFunc p.mem e
  | _ => True

instance EventOp.Fair.decide (p : EventClient) : (op : EventOp) → Decidable (op.Fair p)
  | .zalloc type => inferInstanceAs
      (Decidable (type < eventLast ∧ 0 < (p.mem.world.eventVtable type).eventSize))
  | .ref e | .unref e | .clone e => inferInstanceAs (Decidable (0 < p.held e))

instance EventOp.Sound.decide (ndebug : Bool) (cloneFunc : CloneFuncs) (p : EventClient) :
    (op : EventOp) → Decidable (op.Sound ndebug cloneFunc p)
  | .clone e => inferInstanceAs (Decidable (ndebug = true
      ∧ ((cloneFunc (p.mem.world.events e).eventType).isSome
        ∨ (p.mem.world.events e).refcount = 1)))
  | .zalloc _ | .ref _ | .unref _ => inferInstanceAs (Decidable True)

/-- The state after the calls `ops`. -/
def runEvents (ndebug : Bool) (cloneFunc : CloneFuncs) :
    EventClient → List EventOp → Option EventClient :=
  GuardedRun.run (EventOp.exec ndebug cloneFunc)

/-! ## The counts -/

/-- **The counts are exact**: every event that has been allocated has as many
references as are outstanding, and has been freed once if there is none. -/
structure Exact (p : EventClient) : Prop where
  count : ∀ e, e < p.mem.world.nextEvent → (p.mem.world.events e).refcount = p.held e
  frees : ∀ e, e < p.mem.world.nextEvent → p.frees e = if p.held e = 0 then 1 else 0
  type : ∀ e, e < p.mem.world.nextEvent → (p.mem.world.events e).eventType < eventLast
  /-- nothing is known of what has not been allocated -/
  unborn : ∀ e, p.mem.world.nextEvent ≤ e → p.held e = 0 ∧ p.frees e = 0

section Steps

variable {ndebug : Bool} {cloneFunc : CloneFuncs} {p p' : EventClient} {e : EventId}

theorem Exact.start (vtable : Nat → EventInfo) : Exact (EventClient.start vtable) where
  count := fun e he => absurd he (Nat.not_lt_zero e)
  frees := fun e he => absurd he (Nat.not_lt_zero e)
  type := fun e he => absurd he (Nat.not_lt_zero e)
  unborn := fun _ _ => ⟨rfl, rfl⟩

theorem Exact.lt (h : Exact p) (he : 0 < p.held e) : e < p.mem.world.nextEvent := by
  by_contra hge
  have := (h.unborn e (Nat.le_of_not_lt hge)).1
  omega

/-- A new event comes with one reference. -/
theorem Exact.alloc (h : Exact p) {m : EventMem} {type : Nat} (htype : type < eventLast)
    (hnext : m.world.nextEvent = p.mem.world.nextEvent + 1)
    (hnew : (m.world.events p.mem.world.nextEvent).refcount = 1
      ∧ (m.world.events p.mem.world.nextEvent).eventType = type)
    (hothers : ∀ x, x ≠ p.mem.world.nextEvent → m.world.events x = p.mem.world.events x)
    (hlog : m.world.log = p.mem.world.log) :
    Exact (({ p with mem := m } : EventClient).setHeld p.mem.world.nextEvent 1) := by
  have hfrees : ∀ x, (({ p with mem := m } : EventClient).setHeld p.mem.world.nextEvent 1).frees x
      = p.frees x := fun x => by
    show m.world.log.count _ = p.mem.world.log.count _
    rw [hlog]
  have hcases : ∀ x, x < m.world.nextEvent →
      x = p.mem.world.nextEvent ∨ x ≠ p.mem.world.nextEvent ∧ x < p.mem.world.nextEvent := by
    intro x hx
    omega
  refine ⟨fun x hx => ?_, fun x hx => ?_, fun x hx => ?_, fun x hx => ?_⟩
  · rcases hcases x hx with rfl | ⟨hne, hlt⟩
    · simp [EventClient.setHeld, hnew.1]
    · simpa [EventClient.setHeld, hne, hothers x hne] using h.count x hlt
  · rw [hfrees]
    rcases hcases x hx with rfl | ⟨hne, hlt⟩
    · simpa [EventClient.setHeld] using (h.unborn _ (Nat.le_refl _)).2
    · simpa [EventClient.setHeld, hne] using h.frees x hlt
  · rcases hcases x hx with rfl | ⟨hne, hlt⟩
    · exact hnew.2 ▸ htype
    · have := h.type x hlt
      rwa [← hothers x hne] at this
  · have hx' : p.mem.world.nextEvent + 1 ≤ x := hnext ▸ hx
    have hne : x ≠ p.mem.world.nextEvent := by omega
    rw [hfrees]
    simpa [EventClient.setHeld, hne] using h.unborn x (by omega)

/-- A count that moves with the references. -/
theorem Exact.move (h : Exact p) (he : 0 < p.held e) {w : World} {n : Nat}
    (hnext : w.nextEvent = p.mem.world.nextEvent)
    (hcount : (w.events e).refcount = n)
    (htype : ∀ x, (w.events x).eventType = (p.mem.world.events x).eventType)
    (hothers : ∀ x, x ≠ e → (w.events x).refcount = (p.mem.world.events x).refcount)
    (hself : w.log.count (.free e) = if n = 0 then 1 else 0)
    (hfrees : ∀ x, x ≠ e → w.log.count (.free x) = p.frees x) :
    Exact ((p.withWorld w).setHeld e n) := by
  have hlt := h.lt he
  refine ⟨fun x hx => ?_, fun x hx => ?_, fun x hx => ?_, fun x hx => ?_⟩
  · by_cases hx' : x = e
    · subst hx'
      simpa [EventClient.setHeld, EventClient.withWorld] using hcount
    · simpa [EventClient.setHeld, EventClient.withWorld, hx', hothers x hx']
        using h.count x (hnext ▸ hx)
  · by_cases hx' : x = e
    · subst hx'
      simpa [EventClient.setHeld, EventClient.withWorld, EventClient.frees] using hself
    · have := h.frees x (hnext ▸ hx)
      rw [← hfrees x hx'] at this
      simpa [EventClient.setHeld, EventClient.withWorld, EventClient.frees, hx'] using this
  · have := h.type x (hnext ▸ hx)
    rwa [← htype x] at this
  · have hx' : x ≠ e := by
      rintro rfl
      exact absurd (hnext ▸ hx) (Nat.not_le.mpr hlt)
    have := h.unborn x (hnext ▸ hx)
    rw [← hfrees x hx'] at this
    simpa [EventClient.setHeld, EventClient.withWorld, EventClient.frees, hx'] using this

theorem Exact.zalloc (h : Exact p) {type : Nat}
    (hfair : (EventOp.zalloc type).Fair p)
    (hexec : (EventOp.zalloc type).exec ndebug cloneFunc p = some p') : Exact p' := by
  have hcheck : checkEventType type = 0 := if_neg (Nat.not_le.mpr hfair.1)
  simp only [EventOp.exec, eventZalloc, if_pos hcheck, Option.bind_eq_bind, Option.bind_some,
    Option.some.injEq] at hexec
  subst hexec
  exact h.alloc hfair.1 rfl ⟨by simp, by simp⟩ (fun x hx => by simp [hx]) rfl

theorem Exact.ref (h : Exact p) (he : 0 < p.held e) :
    Exact ((p.withWorld (eventRef p.mem.world e)).setHeld e (p.held e + 1)) := by
  have hcount := h.count e (h.lt he)
  have hfrees := h.frees e (h.lt he)
  refine h.move he rfl ?_ (fun x => ?_) (fun x hx => ?_) ?_ (fun x _ => rfl)
  · rw [eventRef_refcount, if_pos rfl, hcount]
    rfl
  · by_cases hx : x = e
    · subst hx
      simp [eventRef, World.updEvent]
    · simp [eventRef, World.updEvent, hx]
  · rw [eventRef_refcount, if_neg hx, Int.add_zero]
  · rw [if_neg (Nat.ne_of_gt he)] at hfrees
    rw [if_neg (Nat.succ_ne_zero _)]
    exact hfrees

/-- `event_unref` frees at the last reference. -/
theorem eventUnref_count (w : World) (e x : EventId) :
    (eventUnref w e).log.count (.free x) = w.log.count (.free x)
      + if x = e ∧ (w.events e).refcount = 1 then 1 else 0 := by
  unfold eventUnref
  by_cases hone : (w.events e).refcount = 1
  · by_cases hx : x = e
    · subst hx
      simp [hone, eventFree, World.note, World.updEvent]
    · have hne : (Act.free e == Act.free x) = false := by
        simpa using fun hc : e = x => hx hc.symm
      simp [hone, eventFree, World.note, World.updEvent, hx, List.count_singleton, hne]
  · simp [hone, World.note, World.updEvent]

theorem Exact.unref (h : Exact p) (he : 0 < p.held e) :
    Exact ((p.withWorld (eventUnref p.mem.world e)).setHeld e (p.held e - 1)) := by
  have hcount := h.count e (h.lt he)
  have hfrees := h.frees e (h.lt he)
  have hnext : (eventUnref p.mem.world e).nextEvent = p.mem.world.nextEvent := by
    unfold eventUnref
    dsimp only
    split <;> rfl
  refine h.move he hnext ?_ (fun x => ?_) (fun x hx => ?_) ?_ (fun x hx => ?_)
  · rw [eventUnref_refcount, if_pos rfl, hcount]
    omega
  · rw [eventUnref_events]
    split <;> rfl
  · rw [eventUnref_refcount, if_neg hx, Int.sub_zero]
  · rw [if_neg (Nat.ne_of_gt he)] at hfrees
    have hzero : p.mem.world.log.count (.free e) = 0 := hfrees
    rw [eventUnref_count, hzero, hcount]
    simp only [true_and]
    split <;> split <;> omega
  · rw [eventUnref_count, if_neg (fun hc => hx hc.1)]
    rfl

theorem Exact.clone (h : Exact p) {m : EventMem} {r : EventId} (he : e < p.mem.world.nextEvent)
    (hc : ExactClone p.mem e m r) : Exact (({ p with mem := m } : EventClient).setHeld r 1) := by
  obtain rfl := hc.distinct
  refine h.alloc (h.type e he) hc.next ?_ (fun x hx => (hc.others x hx).1) hc.log
  rw [hc.copy]
  exact ⟨rfl, rfl⟩

/-- **`default_clone` is exact for an event with one reference.** -/
theorem defaultClone_exact (m : EventMem) (he : e < m.world.nextEvent) :
    ExactClone m e (defaultClone m e).1 (defaultClone m e).2 ↔ (m.world.events e).refcount = 1 := by
  have hne : m.world.nextEvent ≠ e := Nat.ne_of_gt he
  constructor
  · intro h
    have hcopy := h.copy
    simp only [defaultClone, World.updEvent, Function.update_of_ne hne,
    Function.update_self] at hcopy
    rw [hcopy]
  · intro hone
    have hsame : { m.world.events e with refcount := 1 } = m.world.events e := by
      rw [← hone]
    refine ⟨rfl, rfl, ?_, ?_, ?_, fun i hi => ?_, fun x hx => ⟨?_, ?_, ?_, ?_⟩, rfl, rfl⟩
    · simp [defaultClone, World.updEvent, Function.update_of_ne hne, hsame]
    · simp [defaultClone, World.updEvent]
    · simp [defaultClone, World.updEvent]
    · simp [defaultClone, hi]
    · by_cases hxe : x = e
      · subst hxe
        simp [defaultClone, World.updEvent, Function.update_of_ne hne.symm, hsame]
      · simp only [defaultClone] at hx
        simp [defaultClone, World.updEvent, hxe, hx]
    · exact Function.update_of_ne hx _ _
    · exact Function.update_of_ne hx _ _
    · exact Function.update_of_ne hx _ _

/-- **When `event_clone` does what it is for.** -/
theorem eventClone_exact (h : Exact p) (he : e < p.mem.world.nextEvent)
    (hclient : ∀ type f, cloneFunc type = some f → ∀ m e, ExactClone m e (f m e).1 (f m e).2) :
    (∃ m r, eventClone ndebug cloneFunc p.mem e = some (m, r) ∧ ExactClone p.mem e m r)
      ↔ CloneSound ndebug cloneFunc p.mem e := by
  have hassert : checkEventType (p.mem.world.events e).eventType = 0 :=
    if_neg (Nat.not_le.mpr (h.type e he))
  have hpair : ∀ x : EventMem × EventId,
      (∃ m r, x = (m, r) ∧ ExactClone p.mem e m r) ↔ ExactClone p.mem e x.1 x.2 := by
    intro x
    exact ⟨fun ⟨_, _, hx, hc⟩ => hx ▸ hc, fun hc => ⟨x.1, x.2, rfl, hc⟩⟩
  cases ndebug with
  | false => simp [eventClone, CloneSound, hassert]
  | true =>
    cases hf : cloneFunc (p.mem.world.events e).eventType with
    | none => simpa [eventClone, CloneSound, hf, hpair] using defaultClone_exact p.mem he
    | some f => simpa [eventClone, CloneSound, hf, hpair] using hclient _ f hf p.mem e

/-- One call that meets the condition keeps the counts exact. -/
theorem Exact.step (hclient : ∀ type f, cloneFunc type = some f →
      ∀ m e, ExactClone m e (f m e).1 (f m e).2) (op : EventOp)
    (h : Exact p) (hop : op.Fair p ∧ op.Sound ndebug cloneFunc p)
    (hexec : op.exec ndebug cloneFunc p = some p') : Exact p' := by
  cases op with
  | zalloc type => exact h.zalloc hop.1 hexec
  | ref e =>
    cases hexec
    exact h.ref hop.1
  | unref e =>
    cases hexec
    exact h.unref hop.1
  | clone e =>
    have he := h.lt hop.1
    obtain ⟨m, r, hcall, hexact⟩ := (eventClone_exact h he hclient).mpr hop.2
    simp only [EventOp.exec, hcall, Option.bind_eq_bind, Option.bind_some, Option.some.injEq]
      at hexec
    subst hexec
    exact h.clone he hexact

end Steps

/-- **Event reference counts are exact** where each `event_clone` meets the
condition: every event has as many references as are outstanding, and has been
freed once if there is none. After such calls the condition is also what
`event_clone` needs to return an exact clone. -/
theorem runEvents_exact (ndebug : Bool) (cloneFunc : CloneFuncs) (vtable : Nat → EventInfo)
    (ops : List EventOp) (p : EventClient)
    (hclient : ∀ type f, cloneFunc type = some f → ∀ m e, ExactClone m e (f m e).1 (f m e).2)
    (hrun : runEvents ndebug cloneFunc (.start vtable) ops = some p)
    (hops : GuardedRun.Guarded (EventOp.exec ndebug cloneFunc)
      (fun p op => op.Fair p ∧ op.Sound ndebug cloneFunc p) (.start vtable) ops) :
    (∀ e, e < p.mem.world.nextEvent → (p.mem.world.events e).refcount = p.held e
        ∧ p.frees e = if p.held e = 0 then 1 else 0)
      ∧ ∀ e, 0 < p.held e →
        ((∃ m r, eventClone ndebug cloneFunc p.mem e = some (m, r) ∧ ExactClone p.mem e m r)
          ↔ CloneSound ndebug cloneFunc p.mem e) := by
  -- the invariant is `Exact`
  have hexact : Exact p := GuardedRun.Guarded.keeps
    (fun s op s' hs hop hstep => hs.step hclient op hop hstep) ops hops hrun (Exact.start vtable)
  exact ⟨fun e he => ⟨hexact.count e he, hexact.frees e he⟩,
    fun e he => eventClone_exact hexact (hexact.lt he) hclient⟩

/-- A `clone_func` that does what `event_clone` is for. -/
def copyingClone (m : EventMem) (e : EventId) : EventMem × EventId :=
  let w := m.world
  let result := w.nextEvent
  ({ world := { w with
      events := Function.update w.events result { w.events e with refcount := 1 }
      reminders := Function.update w.reminders result (w.reminders e)
      timerNode := Function.update w.timerNode result (w.timerNode e)
      nextEvent := result + 1 }
     body := Function.update m.body result (m.body e) }, result)

theorem copyingClone_exact (m : EventMem) (e : EventId) :
    ExactClone m e (copyingClone m e).1 (copyingClone m e).2 where
  distinct := rfl
  next := rfl
  copy := Function.update_self _ _ _
  reminder := Function.update_self _ _ _
  timerNode := Function.update_self _ _ _
  body := fun i _ => congrFun (Function.update_self _ _ _) i
  others := fun _ hx => ⟨Function.update_of_ne hx _ _, Function.update_of_ne hx _ _,
    Function.update_of_ne hx _ _, Function.update_of_ne hx _ _⟩
  vtable := rfl
  log := rfl

/-- A registered ask event and a type 600 with a `clone_func` of its own. -/
def askAndCustom (type : Nat) : EventInfo :=
  if type = askEvent ∨ type = 600 then ⟨48, 0⟩ else ⟨0, 0⟩

def customCloneFunc (type : Nat) : Option (EventMem → EventId → EventMem × EventId) :=
  if type = 600 then some copyingClone else none

/-- An ask event with one reference is cloned, and so is an event of type 600
with two. -/
def cloneOps : List EventOp :=
  [.zalloc askEvent, .clone 0, .zalloc 600, .ref 2, .clone 2, .unref 0, .unref 2]

theorem runEvents_exact_two : ∃ p,
    runEvents true customCloneFunc (.start askAndCustom) cloneOps = some p ∧
    ((∀ e, e < p.mem.world.nextEvent → (p.mem.world.events e).refcount = p.held e
        ∧ p.frees e = if p.held e = 0 then 1 else 0)
      ∧ ∀ e, 0 < p.held e →
        ((∃ m r, eventClone true customCloneFunc p.mem e = some (m, r) ∧ ExactClone p.mem e m r)
          ↔ CloneSound true customCloneFunc p.mem e)) := by
  have hsome : (runEvents true customCloneFunc (.start askAndCustom) cloneOps).isSome = true := by
    decide +kernel
  obtain ⟨p, hp⟩ := Option.isSome_iff_exists.mp hsome
  refine ⟨p, hp, runEvents_exact true customCloneFunc askAndCustom cloneOps p ?_ hp
    (by decide +kernel)⟩
  intro type f hf m e
  unfold customCloneFunc at hf
  split at hf
  · cases hf
    exact copyingClone_exact m e
  · cases hf

/-- An event with two references is cloned: the clone has two, and the event
is freed while one is outstanding. With the `ASSERT` no event is cloned. -/
theorem defaultClone_steals :
    (∃ p, runEvents true (fun _ => none) (.start askAndCustom)
        [.zalloc askEvent, .ref 0, .clone 0, .unref 0] = some p
      ∧ GuardedRun.Guarded (EventOp.exec true fun _ => none) (fun p op => op.Fair p)
        (.start askAndCustom) [.zalloc askEvent, .ref 0, .clone 0, .unref 0]
      ∧ (p.mem.world.events 1).refcount = 2 ∧ p.held 1 = 1 ∧ p.frees 0 = 1 ∧ p.held 0 = 1)
    ∧ runEvents false (fun _ => none) (.start askAndCustom) [.zalloc askEvent, .clone 0] = none := by
  have hrun : ((runEvents true (fun _ => none) (.start askAndCustom)
      [.zalloc askEvent, .ref 0, .clone 0, .unref 0]).any fun p =>
      decide ((p.mem.world.events 1).refcount = 2 ∧ p.held 1 = 1
        ∧ p.frees 0 = 1 ∧ p.held 0 = 1)) = true := by
    decide +kernel
  rw [Option.any_eq_true] at hrun
  obtain ⟨p, hp, hcount⟩ := hrun
  exact ⟨⟨p, hp, by decide +kernel, of_decide_eq_true hcount⟩, rfl⟩

end Ats
