import Ats.Core.EventClone

/-!
# EventThreads: reference counts shared by threads

Any number of threads make, reference, use, hand over and drop events, in any
order of their atomic steps. `event_unref` is one atomic addition, and
`event_free` only after it, in a thread that saw the last reference go. An
access to a freed event is a run that gets stuck.
-/

namespace Ats

open GuardedRun

variable {T : Type}

/-! ## The machine -/

/-- Where a thread is in `event_unref`: elsewhere, or in `event_free`, at its
`destroy_func` or at `ats_free`. -/
inductive FreePhase where
  | idle
  | destroy (e : EventId)
  | release (e : EventId)
deriving DecidableEq, Repr

/-- The memory, and the threads. -/
structure EventThreads (T : Type) where
  world : World
  phase : T → FreePhase
  /-- history: who has the references to each event -/
  held : EventId → List T

/-- What a thread does next. -/
inductive EventAction (T : Type) where
  | zalloc (type : Nat)
  | ref (e : EventId)
  | unref (e : EventId)
  /-- the rest of `event_unref`, step by step -/
  | resume
  /-- a load or a store -/
  | access (e : EventId)
  /-- a reference goes to another thread, as in a queue -/
  | give (e : EventId) (t : T)
deriving DecidableEq, Repr

/-- An access to an event; `none` for freed memory. -/
def touch (w : World) (e : EventId) : Option World := if .free e ∈ w.log then none else some w

namespace EventThreads

/-- Nothing has been allocated; the types of `vtable` are registered. -/
def start (T : Type) (vtable : Nat → EventInfo) : EventThreads T :=
  ⟨(EventClient.start vtable).mem.world, fun _ => .idle, fun _ => []⟩

def setHeld (s : EventThreads T) (e : EventId) (ts : List T) : EventThreads T :=
  { s with held := Function.update s.held e ts }

def setPhase [DecidableEq T] (s : EventThreads T) (t : T) (ph : FreePhase) : EventThreads T :=
  { s with phase := Function.update s.phase t ph }

/-- The thread is in `event_free(e)`. -/
def Freeing (s : EventThreads T) (t : T) (e : EventId) : Prop :=
  s.phase t = .destroy e ∨ s.phase t = .release e

/-- How often `e` has been freed. -/
def frees (s : EventThreads T) (e : EventId) : Nat := s.world.log.count (.free e)

end EventThreads

section Actions

variable [DecidableEq T]

namespace EventThreads

variable (s : EventThreads T) (t : T)

/-- `event_zalloc`, by thread `t` -/
def zalloc (type : Nat) : Option (EventThreads T) := do
  let (w, e) ← eventZalloc s.world type
  some ({ s with world := w }.setHeld e [t])

/-- `event_ref` -/
def ref (e : EventId) : Option (EventThreads T) := do
  let w ← touch s.world e
  some ({ s with world := eventRef w e }.setHeld e (t :: s.held e))

/-- The count goes down by one, and with it the reference of `t`. -/
def drop (e : EventId) : EventThreads T :=
  let w := (s.world.updEvent e fun x => { x with refcount := x.refcount - 1 }).note (.unref e)
  { s with world := w }.setHeld e ((s.held e).erase t)

/-- The addition of `event_unref`; who reads 1 goes on to `event_free`. -/
def unref (e : EventId) : Option (EventThreads T) := do
  let w ← touch s.world e
  let old := (w.events e).refcount
  some (if old = 1 then (s.drop t e).setPhase t (.destroy e) else s.drop t e)

/-- The next step of `event_free`. -/
def resume : Option (EventThreads T) :=
  match s.phase t with
  | .idle => none
  | .destroy e => do
      let w ← touch s.world e
      some ({ s with world := w }.setPhase t (.release e))
  | .release e => do
      let w ← touch s.world e
      some ({ s with world := eventFree w e }.setPhase t .idle)

/-- A load or a store. -/
def access (e : EventId) : Option (EventThreads T) := do
  let w ← touch s.world e
  some { s with world := w }

end EventThreads

/-- One atomic step of a thread. -/
def EventAction.step (s : EventThreads T) : T × EventAction T → Option (EventThreads T)
  | (t, .zalloc type) => s.zalloc t type
  | (t, .ref e) => s.ref t e
  | (t, .unref e) => s.unref t e
  | (t, .resume) => s.resume t
  | (_, .access e) => s.access e
  | (t, .give e u) => some (s.setHeld e (u :: (s.held e).erase t))

/-- **The threads keep to the rules**: one that is in no call may make events
of registered types, and use those it has a reference to. -/
def EventAction.Fair (s : EventThreads T) : T × EventAction T → Prop
  | (t, .zalloc type) => s.phase t = .idle
      ∧ type < eventLast ∧ 0 < (s.world.eventVtable type).eventSize
  | (t, .ref e) | (t, .unref e) | (t, .access e) | (t, .give e _) =>
      s.phase t = .idle ∧ t ∈ s.held e
  | (t, .resume) => s.phase t ≠ .idle

instance EventAction.Fair.decide (s : EventThreads T) :
    (a : T × EventAction T) → Decidable (EventAction.Fair s a)
  | (t, .zalloc type) => inferInstanceAs (Decidable (s.phase t = .idle
      ∧ type < eventLast ∧ 0 < (s.world.eventVtable type).eventSize))
  | (t, .ref e) | (t, .unref e) | (t, .access e) | (t, .give e _) =>
      inferInstanceAs (Decidable (s.phase t = .idle ∧ t ∈ s.held e))
  | (t, .resume) => inferInstanceAs (Decidable (s.phase t ≠ .idle))

end Actions

/-! ## The life of an event -/

/-- **Referenced, or being freed by one thread, or freed once.** -/
inductive Life (s : EventThreads T) (e : EventId) : Prop
  | alive (held : s.held e ≠ []) (frees : s.frees e = 0) (freeing : ∀ t, ¬ s.Freeing t e)
  | dying (held : s.held e = []) (frees : s.frees e = 0) (freeing : ∃ t, ∀ u, s.Freeing u e ↔ u = t)
  | dead (held : s.held e = []) (frees : s.frees e = 1) (freeing : ∀ t, ¬ s.Freeing t e)

/-- **The count is the number of references**, and no event is in a state
between the three. -/
structure EventsCounted (s : EventThreads T) : Prop where
  count : ∀ e, e < s.world.nextEvent → (s.world.events e).refcount = (s.held e).length
  life : ∀ e, e < s.world.nextEvent → Life s e
  /-- nothing is known of what has not been allocated -/
  unborn : ∀ e, s.world.nextEvent ≤ e → s.held e = [] ∧ s.frees e = 0 ∧ ∀ t, ¬ s.Freeing t e

variable {s s' : EventThreads T} {t u : T} {e x : EventId}

theorem Life.congr (h : Life s x) (hheld : s'.held x = s.held x) (hfrees : s'.frees x = s.frees x)
    (hfreeing : ∀ u, s'.Freeing u x ↔ s.Freeing u x) : Life s' x := by
  cases h with
  | alive hh hf hn => exact .alive (hheld ▸ hh) (hfrees ▸ hf) fun u hu => hn u ((hfreeing u).mp hu)
  | dying hh hf hn =>
      obtain ⟨t, ht⟩ := hn
      exact .dying (hheld ▸ hh) (hfrees ▸ hf) ⟨t, fun u => (hfreeing u).trans (ht u)⟩
  | dead hh hf hn => exact .dead (hheld ▸ hh) (hfrees ▸ hf) fun u hu => hn u ((hfreeing u).mp hu)

namespace EventsCounted

theorem start (vtable : Nat → EventInfo) : EventsCounted (EventThreads.start T vtable) where
  count := fun e he => absurd he (Nat.not_lt_zero e)
  life := fun e he => absurd he (Nat.not_lt_zero e)
  unborn := fun _ _ => ⟨rfl, rfl, fun _ h => by rcases h with h | h <;> cases h⟩

theorem lt_of_held (h : EventsCounted s) (ht : t ∈ s.held e) : e < s.world.nextEvent := by
  by_contra hge
  rw [(h.unborn e (Nat.le_of_not_lt hge)).1] at ht
  exact absurd ht List.not_mem_nil

/-- A referenced event is alive. -/
theorem alive (h : EventsCounted s) (ht : t ∈ s.held e) :
    s.frees e = 0 ∧ ∀ u, ¬ s.Freeing u e := by
  have hne : s.held e ≠ [] := List.ne_nil_of_mem ht
  cases h.life e (h.lt_of_held ht) with
  | alive _ hf hn => exact ⟨hf, hn⟩
  | dying hh _ _ => exact absurd hh hne
  | dead hh _ _ => exact absurd hh hne

theorem freeing (h : EventsCounted s) (ht : s.Freeing t e) :
    e < s.world.nextEvent ∧ s.held e = [] ∧ s.frees e = 0 ∧ ∀ u, s.Freeing u e ↔ u = t := by
  have hlt : e < s.world.nextEvent := by
    by_contra hge
    exact (h.unborn e (Nat.le_of_not_lt hge)).2.2 t ht
  cases h.life e hlt with
  | alive _ _ hn => exact absurd ht (hn t)
  | dying hh hf hn =>
      obtain ⟨t', ht'⟩ := hn
      obtain rfl := (ht' t).mp ht
      exact ⟨hlt, hh, hf, ht'⟩
  | dead _ _ hn => exact absurd ht (hn t)

end EventsCounted

theorem touch_of_frees (h : s.frees e = 0) : touch s.world e = some s.world :=
  if_neg (List.count_eq_zero.mp h)

/-! ## One step -/

/-- Only `e` has changed. -/
theorem EventsCounted.move (h : EventsCounted s) (he : e < s.world.nextEvent)
    (hnext : s'.world.nextEvent = s.world.nextEvent)
    (hcount : ∀ x, x ≠ e → (s'.world.events x).refcount = (s.world.events x).refcount)
    (hheld : ∀ x, x ≠ e → s'.held x = s.held x)
    (hfrees : ∀ x, x ≠ e → s'.frees x = s.frees x)
    (hfreeing : ∀ x, x ≠ e → ∀ u, s'.Freeing u x ↔ s.Freeing u x)
    (hself : (s'.world.events e).refcount = (s'.held e).length) (hlife : Life s' e) :
    EventsCounted s' := by
  refine ⟨fun x hx => ?_, fun x hx => ?_, fun x hx => ?_⟩
  · by_cases hxe : x = e
    · rw [hxe, hself]
    · rw [hcount x hxe, hheld x hxe]
      exact h.count x (hnext ▸ hx)
  · by_cases hxe : x = e
    · rw [hxe]
      exact hlife
    · exact (h.life x (hnext ▸ hx)).congr (hheld x hxe) (hfrees x hxe) (hfreeing x hxe)
  · have hxe : x ≠ e := by
      rintro rfl
      exact Nat.not_lt.mpr hx (hnext.symm ▸ he)
    rw [hheld x hxe, hfrees x hxe]
    obtain ⟨hh, hf, hn⟩ := h.unborn x (hnext ▸ hx)
    exact ⟨hh, hf, fun u hu => hn u ((hfreeing x hxe u).mp hu)⟩

theorem EventsCounted.zalloc (h : EventsCounted s) {type : Nat} (htype : type < eventLast) (t : T) :
    ∃ s', s.zalloc t type = some s' ∧ EventsCounted s' := by
  have hcheck : checkEventType type = 0 := if_neg (Nat.not_le.mpr htype)
  obtain ⟨hheld, hfrees, hnone⟩ := h.unborn _ (Nat.le_refl _)
  refine ⟨_, by rw [EventThreads.zalloc, eventZalloc, if_pos hcheck]; rfl, fun x hx => ?_,
    fun x hx => ?_, fun x hx => ?_⟩
  · rcases Nat.lt_succ_iff_lt_or_eq.mp hx with hlt | rfl
    · simpa [EventThreads.setHeld, Nat.ne_of_lt hlt] using h.count x hlt
    · simp [EventThreads.setHeld]
  · rcases Nat.lt_succ_iff_lt_or_eq.mp hx with hlt | rfl
    · exact (h.life x hlt).congr (Function.update_of_ne (Nat.ne_of_lt hlt) _ _) rfl fun _ => Iff.rfl
    · exact .alive (by simp [EventThreads.setHeld]) hfrees hnone
  · have hne : x ≠ s.world.nextEvent := Nat.ne_of_gt hx
    obtain ⟨hh, hf, hn⟩ := h.unborn x (Nat.le_of_succ_le hx)
    exact ⟨(Function.update_of_ne hne _ _).trans hh, hf, hn⟩

theorem EventsCounted.ref (h : EventsCounted s) (ht : t ∈ s.held e) :
    ∃ s', s.ref t e = some s' ∧ EventsCounted s' := by
  obtain ⟨hfrees, hnone⟩ := h.alive ht
  have hlt := h.lt_of_held ht
  refine ⟨_, by rw [EventThreads.ref, touch_of_frees hfrees]; rfl, ?_⟩
  refine h.move hlt rfl (fun x hx => ?_) (fun x hx => Function.update_of_ne hx _ _)
    (fun _ _ => rfl) (fun _ _ _ => Iff.rfl) ?_ (.alive ?_ hfrees hnone)
  · show ((eventRef s.world e).events x).refcount = _
    rw [eventRef_refcount, if_neg hx, Int.add_zero]
  · show ((eventRef s.world e).events e).refcount = _
    rw [eventRef_refcount, if_pos rfl, h.count e hlt]
    simp [EventThreads.setHeld]
  · simp [EventThreads.setHeld]

section Steps

variable [DecidableEq T]

theorem freeing_setPhase_self {ph : FreePhase} :
    (s.setPhase t ph).Freeing t x ↔ ph = .destroy x ∨ ph = .release x := by
  rw [EventThreads.Freeing, EventThreads.setPhase]
  simp only [Function.update_self]

theorem freeing_setPhase_ne {ph : FreePhase} (hu : u ≠ t) :
    (s.setPhase t ph).Freeing u x ↔ s.Freeing u x := by
  rw [EventThreads.Freeing, EventThreads.setPhase]
  simp only [Function.update_of_ne hu]
  rfl

/-- **The addition of `event_unref`** takes a reference off, and who takes the
last one is in `event_free` then. -/
theorem EventsCounted.unref (h : EventsCounted s) (hidle : s.phase t = .idle)
    (ht : t ∈ s.held e) : ∃ s', s.unref t e = some s' ∧ EventsCounted s' := by
  obtain ⟨hfrees, hnone⟩ := h.alive ht
  have hlt := h.lt_of_held ht
  have hcount := h.count e hlt
  have hpos : 0 < (s.held e).length := List.length_pos_of_mem ht
  have herase := List.length_erase_of_mem ht
  have hother : ∀ x, x ≠ e →
      ((s.drop t e).world.events x).refcount = (s.world.events x).refcount := by
    intro x hx
    simp [EventThreads.drop, EventThreads.setHeld, World.note, World.updEvent, hx]
  have hself : ((s.drop t e).world.events e).refcount = ((s.held e).erase t).length := by
    have hval : ((s.drop t e).world.events e).refcount = (s.world.events e).refcount - 1 := by
      simp [EventThreads.drop, EventThreads.setHeld, World.note, World.updEvent]
    rw [hval, hcount, herase]
    omega
  have hlog : ∀ x, (s.drop t e).frees x = s.frees x := by
    intro x
    simp [EventThreads.drop, EventThreads.setHeld, World.note, World.updEvent, EventThreads.frees]
  have hheld : (s.drop t e).held e = (s.held e).erase t := Function.update_self _ _ _
  have hrest : ∀ x, x ≠ e → (s.drop t e).held x = s.held x :=
    fun x hx => Function.update_of_ne hx _ _
  refine ⟨_, by rw [EventThreads.unref, touch_of_frees hfrees]; rfl, ?_⟩
  by_cases hlast : (s.world.events e).refcount = 1
  · rw [if_pos hlast]
    have hnil : (s.held e).erase t = [] := List.length_eq_zero_iff.mp (by omega)
    refine h.move hlt rfl hother hrest (fun x _ => hlog x) (fun x hx u => ?_)
      (hself.trans (congrArg _ (congrArg _ hheld.symm)))
      (.dying (hheld.trans hnil) ((hlog e).trans hfrees) ⟨t, fun u => ?_⟩)
    · by_cases hu : u = t
      · subst hu
        rw [freeing_setPhase_self]
        simp [EventThreads.Freeing, hidle, hx.symm]
      · exact freeing_setPhase_ne hu
    · by_cases hu : u = t
      · subst hu
        rw [freeing_setPhase_self]
        simp
      · exact (freeing_setPhase_ne hu).trans (iff_of_false (hnone u) hu)
  · rw [if_neg hlast]
    have hne : (s.held e).erase t ≠ [] := List.ne_nil_of_length_pos (by omega)
    exact h.move hlt rfl hother hrest (fun x _ => hlog x) (fun _ _ _ => Iff.rfl)
      (hself.trans (congrArg _ (congrArg _ hheld.symm)))
      (.alive (hheld.symm ▸ hne) ((hlog e).trans hfrees) hnone)

theorem resume_destroy (hph : s.phase t = .destroy e) (hfrees : s.frees e = 0) :
    s.resume t = some (s.setPhase t (.release e)) := by
  rw [EventThreads.resume, hph]
  show (touch s.world e).bind _ = _
  rw [touch_of_frees hfrees]
  rfl

theorem resume_release (hph : s.phase t = .release e) (hfrees : s.frees e = 0) :
    s.resume t = some ({ s with world := eventFree s.world e }.setPhase t .idle) := by
  rw [EventThreads.resume, hph]
  show (touch s.world e).bind _ = _
  rw [touch_of_frees hfrees]
  rfl

/-- **`event_free`** is done by one thread. -/
theorem EventsCounted.resume (h : EventsCounted s) (hbusy : s.phase t ≠ .idle) :
    ∃ s', s.resume t = some s' ∧ EventsCounted s' := by
  cases hph : s.phase t with
  | idle => exact absurd hph hbusy
  | destroy e =>
      obtain ⟨hlt, hheld, hfrees, hone⟩ := h.freeing (.inl hph)
      refine ⟨_, resume_destroy hph hfrees, ?_⟩
      have hsame : ∀ x u, (s.setPhase t (.release e)).Freeing u x ↔ s.Freeing u x := by
        intro x u
        by_cases hu : u = t
        · subst hu
          rw [freeing_setPhase_self]
          simp [EventThreads.Freeing, hph]
        · exact freeing_setPhase_ne hu
      exact h.move hlt rfl (fun _ _ => rfl) (fun _ _ => rfl) (fun _ _ => rfl)
        (fun x _ => hsame x) (h.count e hlt) ((h.life e hlt).congr rfl rfl (hsame e))
  | release e =>
      obtain ⟨hlt, hheld, hfrees, hone⟩ := h.freeing (.inr hph)
      refine ⟨_, resume_release hph hfrees, ?_⟩
      have hlog : ∀ x, (eventFree s.world e).log.count (.free x)
          = s.frees x + if x = e then 1 else 0 := by
        intro x
        by_cases hx : x = e
        · subst hx
          simp [eventFree, World.note, EventThreads.frees]
        · have hne : (Act.free e == Act.free x) = false := by
            simpa using fun hc : e = x => hx hc.symm
          simp [eventFree, World.note, EventThreads.frees, hx, List.count_singleton, hne]
      refine h.move hlt rfl (fun _ _ => rfl) (fun _ _ => rfl) (fun x hx => ?_) (fun x hx u => ?_)
        (h.count e hlt) (.dead hheld ?_ fun u => ?_)
      · exact (hlog x).trans (by rw [if_neg hx, Nat.add_zero])
      · by_cases hu : u = t
        · subst hu
          rw [freeing_setPhase_self]
          simp [EventThreads.Freeing, hph, hx.symm]
        · exact freeing_setPhase_ne hu
      · exact (hlog e).trans (by rw [if_pos rfl, hfrees])
      · by_cases hu : u = t
        · subst hu
          rw [freeing_setPhase_self]
          simp
        · exact fun hc => hu ((hone u).mp ((freeing_setPhase_ne hu).mp hc))

theorem EventsCounted.give (h : EventsCounted s) (ht : t ∈ s.held e) (u : T) :
    EventsCounted (s.setHeld e (u :: (s.held e).erase t)) := by
  obtain ⟨hfrees, hnone⟩ := h.alive ht
  have hlt := h.lt_of_held ht
  refine h.move hlt rfl (fun _ _ => rfl) (fun x hx => Function.update_of_ne hx _ _)
    (fun _ _ => rfl) (fun _ _ _ => Iff.rfl) ?_ (.alive ?_ hfrees hnone)
  · show (s.world.events e).refcount = ((Function.update s.held e _) e).length
    rw [Function.update_self, h.count e hlt, List.length_cons, List.length_erase_of_mem ht,
      Nat.sub_add_cancel (List.length_pos_of_mem ht)]
  · simp [EventThreads.setHeld]

/-- **Each step of a thread that keeps to the rules** goes through. -/
theorem EventsCounted.step (h : EventsCounted s) (a : T × EventAction T)
    (hfair : EventAction.Fair s a) : ∃ s', EventAction.step s a = some s' ∧ EventsCounted s' := by
  obtain ⟨t, a⟩ := a
  cases a with
  | zalloc type => exact h.zalloc hfair.2.1 t
  | ref e => exact h.ref hfair.2
  | unref e => exact h.unref hfair.1 hfair.2
  | resume => exact h.resume hfair
  | access e =>
      refine ⟨s, ?_, h⟩
      rw [EventAction.step, EventThreads.access, touch_of_frees (h.alive hfair.2).1]
      rfl
  | give e u => exact ⟨_, rfl, h.give hfair.2 u⟩

/-- **No event is used after it was freed, and none is lost**: in every run of
any number of threads that drop and use only references they have, in any order
of their steps, no step touches a freed event; the count of every event is the
number of references; while there are any it has not been freed, and once there
are none one thread is freeing it, or it was freed exactly once. -/
theorem eventThreads_counted (vtable : Nat → EventInfo) (as : List (T × EventAction T))
    (hfair : Guarded EventAction.step EventAction.Fair (EventThreads.start T vtable) as) :
    ∃ s, run EventAction.step (EventThreads.start T vtable) as = some s
      ∧ ∀ e, e < s.world.nextEvent →
        (s.world.events e).refcount = (s.held e).length ∧ Life s e := by
  obtain ⟨s, hrun, hs⟩ := Guarded.total (I := EventsCounted) (fun _ a h hf => h.step a hf) as hfair
    (.start vtable)
  exact ⟨s, hrun, fun e he => ⟨hs.count e he, hs.life e he⟩⟩

/-- Two threads: one makes an event and hands a second reference over; both
drop theirs, and the second one frees. -/
def twoOwners : List (Bool × EventAction Bool) :=
  [(true, .zalloc 1), (true, .ref 0), (true, .give 0 false), (true, .unref 0), (false, .access 0),
    (false, .unref 0), (false, .resume), (true, .zalloc 1), (false, .resume)]

theorem eventThreads_counted_two :
    ∃ s, run EventAction.step (EventThreads.start Bool fun _ => ⟨64, 0⟩) twoOwners = some s
      ∧ ∀ e, e < s.world.nextEvent →
        (s.world.events e).refcount = (s.held e).length ∧ Life s e :=
  eventThreads_counted (fun _ => ⟨64, 0⟩) twoOwners (by decide +kernel)

/-! ## A call that is not interrupted -/

/-- `event_unref` in one go is the function on the memory. -/
theorem unref_alone (hfrees : s.frees e = 0) (hidle : s.phase t = .idle) :
    ∃ n s', run EventAction.step s ((t, .unref e) :: List.replicate n (t, .resume)) = some s'
      ∧ s'.world = eventUnref s.world e ∧ s'.phase = s.phase := by
  have hunref : s.unref t e = some (if (s.world.events e).refcount = 1
      then (s.drop t e).setPhase t (.destroy e) else s.drop t e) := by
    rw [EventThreads.unref, touch_of_frees hfrees]
    rfl
  have hdrop : (s.drop t e).frees e = 0 := by
    simpa [EventThreads.drop, EventThreads.setHeld, World.note, World.updEvent,
      EventThreads.frees] using hfrees
  by_cases hlast : (s.world.events e).refcount = 1
  · rw [if_pos hlast] at hunref
    have hdestroy := resume_destroy (s := (s.drop t e).setPhase t (.destroy e)) (t := t)
      (Function.update_self _ _ _) hdrop
    have hrelease := resume_release
      (s := ((s.drop t e).setPhase t (.destroy e)).setPhase t (.release e)) (t := t)
      (Function.update_self _ _ _) hdrop
    refine ⟨2, _, (?_ : _ = some (EventThreads.setPhase { ((s.drop t e).setPhase t
      (.destroy e)).setPhase t (.release e) with world := eventFree (s.drop t e).world e } t
        .idle)), ?_, ?_⟩
    · show (s.unref t e).bind (fun s => (s.resume t).bind fun s => (s.resume t).bind some) = _
      rw [hunref, Option.bind_some, hdestroy, Option.bind_some, hrelease]
      rfl
    · rw [eventUnref, if_pos hlast]
      rfl
    · show Function.update (Function.update (Function.update s.phase t _) t _) t .idle = s.phase
      rw [Function.update_idem, Function.update_idem, ← hidle, Function.update_eq_self]
  · rw [if_neg hlast] at hunref
    refine ⟨0, s.drop t e, ?_, ?_, rfl⟩
    · show (s.unref t e).bind some = _
      rw [hunref]
      rfl
    · rw [eventUnref, if_neg hlast]
      rfl

end Steps

end Ats
