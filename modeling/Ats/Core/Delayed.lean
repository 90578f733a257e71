import Ats.Core.Nesting

/-!
# Delayed: the events that wait in `buffed_event_queue`

`delay_dispatch_event` puts an event into a ring of 102400 slots, and
`emit_delayed_events` dispatches what is there, along with what the handlers
add while it does. Nobody looks at the code of `spscq_push`, so what the ring
has no room for is lost.
-/

namespace Ats

open GuardedRun

namespace Dispatching

variable {s s₀ s' u : Dispatching} {op : DispatchOp} {ops : List DispatchOp} {e : EventId}

/-- The events that wait, oldest first. -/
def waiting (s : Dispatching) : List EventId := spscqToList s.buffedEventQueue

/-- A `delay_dispatch_event` finds room in the ring. -/
def FindsRoom (s : Dispatching) : DispatchOp → Prop
  | .client (.delay _) => spscqIsFull s.buffedEventQueue = false
  | _ => True

/-- **Each delayed event is dispatched once and in order**: at any point of
the run the delayed events are those that were emitted and then those that
wait, and none waits where a call of `emit_delayed_events` returns. -/
structure EmitsInOrder (s₀ : Dispatching) (ops : List DispatchOp) : Prop where
  order : ∀ p u, p <+: ops → run step s₀ p = some u → u.delayed = u.emitted ++ u.waiting
  drained : ∀ p u u', p ++ [.pop] <+: ops → run step s₀ p = some u → u.step .pop = some u' →
    u'.stack.length < u.stack.length → u'.emitted = u'.delayed

/-! ## Steps -/

/-- `dispatch_event` touches neither the ring nor the history of it. -/
theorem enter_ring (h : s.enter e = some s') :
    s'.buffedEventQueue = s.buffedEventQueue ∧ s'.delayed = s.delayed
      ∧ s'.emitted = s.emitted := by
  rcases enter_cases h with ⟨_, _, w, rfl⟩ | ⟨_, _, w, rfl⟩ | ⟨_, _, w, x, rfl⟩ <;> simp

/-- **What a step does to the ring.** -/
inductive RingStep (s : Dispatching) (xs : List EventId) (s' : Dispatching) :
    DispatchOp → List EventId → Prop where
  | delayed (e : EventId) (hroom : spscqIsFull s.buffedEventQueue = false)
      (hd : s'.delayed = s.delayed ++ [e]) (he : s'.emitted = s.emitted) :
      RingStep s xs s' (.client (.delay e)) (xs ++ [e])
  | lost (e : EventId) (hfull : spscqIsFull s.buffedEventQueue = true)
      (hd : s'.delayed = s.delayed ++ [e]) (he : s'.emitted = s.emitted) :
      RingStep s xs s' (.client (.delay e)) xs
  | emitted (e : EventId) (rest : List EventId) (hxs : xs = e :: rest)
      (hd : s'.delayed = s.delayed) (he : s'.emitted = s.emitted ++ [e]) :
      RingStep s xs s' .pop rest
  | other (op : DispatchOp) (hroom : s.FindsRoom op) (hd : s'.delayed = s.delayed)
      (he : s'.emitted = s.emitted) : RingStep s xs s' op xs

theorem step_ring {xs : List EventId} (hr : SpscqRep s.buffedEventQueue xs)
    (h : s.step op = some s') :
    ∃ ys, SpscqRep s'.buffedEventQueue ys ∧ RingStep s xs s' op ys
      ∧ s'.buffedEventQueue.capacity = s.buffedEventQueue.capacity := by
  have hidle : s.FindsRoom op → s'.buffedEventQueue = s.buffedEventQueue →
      s'.delayed = s.delayed → s'.emitted = s.emitted →
      ∃ ys, SpscqRep s'.buffedEventQueue ys ∧ RingStep s xs s' op ys
        ∧ s'.buffedEventQueue.capacity = s.buffedEventQueue.capacity := by
    intro hroom hq hd he
    exact ⟨xs, hq ▸ hr, .other op hroom hd he, by rw [hq]⟩
  cases op with
  | client op =>
      simp only [step] at h
      split at h
      case isFalse => cases h
      cases op with
      | dispatch e =>
          obtain ⟨hq, hd, he⟩ := enter_ring h
          exact hidle trivial hq hd he
      | delay e =>
          cases h
          cases hfull : spscqIsFull s.buffedEventQueue with
          -- full: spscq_push returns -1, and nobody looks
          | true =>
              have hpush := hr.push_full e (hr.isFull_iff.mp hfull)
              refine ⟨xs, ?_, .lost e hfull rfl rfl, ?_⟩ <;>
                simp [delayDispatchEvent, hpush, hr]
          | false =>
              have hne : xs.length + 1 ≠ s.buffedEventQueue.capacity := by
                intro hc
                simp [hr.isFull_iff.mpr hc] at hfull
              have hfits := hr.fits
              obtain ⟨_, hrep, hcap⟩ := hr.push e (by omega)
              exact ⟨xs ++ [e], hrep, .delayed e hfull rfl rfl, hcap⟩
      | emit => cases h; exact hidle trivial rfl rfl rfl
      | setFilter filter => cases h; exact hidle trivial rfl rfl rfl
      | write w => cases h; exact hidle trivial rfl rfl rfl
      | setDispatch type dispatch =>
          obtain ⟨d, _, rfl⟩ := Option.map_eq_some_iff.mp h
          exact hidle trivial rfl rfl rfl
  | ret =>
      simp only [step] at h
      split at h
      case h_2 => cases h
      cases h
      exact hidle trivial rfl rfl rfl
  | pop =>
      simp only [step] at h
      split at h
      case h_2 => cases h
      rcases emitTurn_cases h with ⟨_, rfl⟩ | ⟨e, hpop, henter⟩
      · exact hidle trivial rfl rfl rfl
      · obtain ⟨hq, hd, he⟩ := enter_ring henter
        -- the loop takes the oldest
        cases xs with
        | nil => simp [hr.pop_nil] at hpop
        | cons x xs =>
            obtain ⟨hx, hrep, hcap⟩ := hr.pop_cons
            obtain rfl : x = e := Option.some.inj (hx.symm.trans hpop)
            exact ⟨xs, hq ▸ hrep, .emitted x xs rfl hd he, by rw [hq]; exact hcap⟩

/-- The ring is well formed. -/
def Ringed (s : Dispatching) : Prop := SpscqRep s.buffedEventQueue s.waiting

theorem ringed_of {xs : List EventId} (hr : SpscqRep s.buffedEventQueue xs) :
    s.waiting = xs ∧ s.Ringed := by
  have heq : s.waiting = xs := hr.toList_eq
  exact ⟨heq, by rw [Ringed, heq]; exact hr⟩

/-- The number of events that were delayed and neither emitted nor wait. -/
def missing (s : Dispatching) : Int :=
  s.delayed.length - s.emitted.length - s.waiting.length

/-- **A step loses an event** just where it delays one and finds no room. -/
theorem step_missing (hr : s.Ringed) (h : s.step op = some s') :
    s'.Ringed ∧ s.missing ≤ s'.missing ∧ (s'.missing = s.missing ↔ s.FindsRoom op) := by
  obtain ⟨ys, hrep, hstep, _⟩ := step_ring hr h
  obtain ⟨hwaiting, hr'⟩ := ringed_of hrep
  refine ⟨hr', ?_⟩
  simp only [missing, hwaiting]
  cases hstep with
  | delayed e hroom hd he =>
      simp only [FindsRoom, hroom, hd, he, List.length_append, List.length_singleton, iff_true]
      omega
  | lost e hfull hd he =>
      simp only [FindsRoom, hfull, hd, he, List.length_append, List.length_singleton,
        reduceCtorEq, iff_false]
      omega
  | emitted e rest hxs hd he =>
      simp only [FindsRoom, hxs, hd, he, List.length_append, List.length_cons, List.length_nil,
        iff_true]
      omega
  | other op hroom hd he => simp [hroom, hd, he]

/-- **A step keeps the order** where it finds room. -/
theorem step_order (hr : s.Ringed) (hroom : s.FindsRoom op) (h : s.step op = some s')
    (horder : s.delayed = s.emitted ++ s.waiting) : s'.delayed = s'.emitted ++ s'.waiting := by
  obtain ⟨ys, hrep, hstep, _⟩ := step_ring hr h
  obtain ⟨hwaiting, _⟩ := ringed_of hrep
  rw [hwaiting]
  cases hstep with
  | delayed e _ hd he => simp [hd, he, horder]
  | lost e hfull _ _ => simp [FindsRoom, hfull] at hroom
  | emitted e rest hxs hd he => simp [hd, he, horder, hxs]
  | other op _ hd he => simp [hd, he, horder]

/-- A call of `emit_delayed_events` returns from an empty ring. -/
theorem pop_returns (hr : s.Ringed) (h : s.step .pop = some s')
    (hlt : s'.stack.length < s.stack.length) : s'.waiting = [] := by
  simp only [step] at h
  split at h
  case h_2 => cases h
  case h_1 rest hstack =>
    rcases emitTurn_cases h with ⟨hpop, rfl⟩ | ⟨e, _, henter⟩
    · show s.waiting = []
      cases hw : s.waiting with
      | nil => rfl
      | cons x xs =>
          have hrep : SpscqRep s.buffedEventQueue (x :: xs) := hw ▸ hr
          simp [hrep.pop_cons.1] at hpop
    · rcases enter_cases henter with ⟨_, _, w, rfl⟩ | ⟨_, _, w, rfl⟩ | ⟨_, _, w, x, rfl⟩
      · simp at hlt
      · simp at hlt
      · exact absurd hlt (by simp)

/-! ## Runs -/

/-- **How many events a run has lost.** -/
theorem run_missing (hr : s.Ringed) (hrun : run step s ops = some s') :
    s'.Ringed ∧ (s'.missing = s.missing ↔ Guarded step FindsRoom s ops) := by
  obtain ⟨hr', _, hiff⟩ := run_measure (I := Ringed) (P := FindsRoom)
    (fun _ _ _ hr h => step_missing hr h) ops hrun hr
  exact ⟨hr', hiff⟩

theorem run_order (hr : s.Ringed) (hg : Guarded step FindsRoom s ops)
    (hrun : run step s ops = some s') (horder : s.delayed = s.emitted ++ s.waiting) :
    s'.delayed = s'.emitted ++ s'.waiting :=
  (hg.keeps (I := fun u => u.Ringed ∧ u.delayed = u.emitted ++ u.waiting)
    (fun _ _ _ hi hroom h => ⟨(step_missing hi.1 h).1, step_order hi.1 hroom h hi.2⟩)
    ops hrun ⟨hr, horder⟩).2

/-- `dispatcher_init` gives a ring with nothing in it. -/
theorem dispatcherInit_ring (h : dispatcherInit s = some s₀) :
    SpscqRep s₀.buffedEventQueue [] ∧ s₀.buffedEventQueue.capacity = 102400
      ∧ s₀.delayed = s.delayed ∧ s₀.emitted = s.emitted ∧ s₀.stack = s.stack := by
  obtain ⟨q, hinit, hrep, hcap⟩ := @SpscqRep.init EventId 102400
    (by decide) (by decide)
  simp only [dispatcherInit, hinit, Option.bind_eq_bind, Option.bind_some,
    Option.some.injEq] at h
  subst h
  exact ⟨hrep, hcap, rfl, rfl, rfl⟩

/-- A run that emits in order has found room for every event. -/
theorem EmitsInOrder.findsRoom (he : EmitsInOrder s₀ ops) (hr : s₀.Ringed)
    (hrun : run step s₀ ops = some s') : Guarded step FindsRoom s₀ ops := by
  have hfirst := he.order [] s₀ (List.nil_prefix) rfl
  have hlast := he.order ops s' (List.prefix_refl _) hrun
  rw [← (run_missing hr hrun).2]
  simp only [missing, hfirst, hlast, List.length_append]
  omega

/-- **Delayed events are dispatched exactly once and in order**, whatever the
handlers do, if and only if no `delay_dispatch_event` finds the ring full. -/
theorem emitDelayedEvents_inOrder_iff (hinit : dispatcherInit s = some s₀) (hd : s.delayed = [])
    (he : s.emitted = []) (hrun : run step s₀ ops = some s') :
    EmitsInOrder s₀ ops ↔ Guarded step FindsRoom s₀ ops := by
  obtain ⟨hrep, _, hd₀, he₀, _⟩ := dispatcherInit_ring hinit
  obtain ⟨hwaiting, hr⟩ := ringed_of hrep
  have horder : s₀.delayed = s₀.emitted ++ s₀.waiting := by simp [hd₀, he₀, hd, he, hwaiting]
  constructor
  · exact fun hemits => hemits.findsRoom hr hrun
  · intro hg
    have hat : ∀ p u, p <+: ops → run step s₀ p = some u → u.Ringed
        ∧ u.delayed = u.emitted ++ u.waiting := by
      rintro p u ⟨r, rfl⟩ hu
      exact ⟨(run_missing hr hu).1, run_order hr (Guarded.left p hg) hu horder⟩
    refine ⟨fun p u hp hu => (hat p u hp hu).2, fun p u u' hp hu hpop hlt => ?_⟩
    have hru := (hat p u ((List.prefix_append p [.pop]).trans hp) hu).1
    have hu' : run step s₀ (p ++ [.pop]) = some u' :=
      run_append p hu (by simp [run, hpop])
    have := (hat _ u' hp hu').2
    simp [this, pop_returns hru hpop hlt]

/-- A handler that delays another event while the first is emitted, which is
emitted in its turn. -/
theorem emitDelayedEvents_inOrder_iff_nested :
    let s : Dispatching :=
      { world := .fresh .simulation 0 [] fun e => ⟨1, e, 0, 0⟩
        fields := ⟨none, fun _ => some fun w _ => some w⟩
        dispatchReentrantCount := 0
        buffedEventQueue := ⟨0, fun _ => none, 0, 0⟩
        stack := [], delayed := [], emitted := [] }
    let ops : List DispatchOp := [.client (.delay 4), .client .emit, .pop, .client (.delay 5),
      .ret, .pop, .ret, .pop]
    ∃ s₀, dispatcherInit s = some s₀ ∧
      (EmitsInOrder s₀ ops ↔ Guarded step FindsRoom s₀ ops) :=
  ⟨_, rfl, emitDelayedEvents_inOrder_iff rfl rfl rfl rfl⟩

/-! ## The ring runs full -/

/-- As many events as there is room for. -/
theorem run_delays (e : EventId) : ∀ (n : Nat) {s : Dispatching} {xs : List EventId},
    s.inClient = true → SpscqRep s.buffedEventQueue xs →
    xs.length + n < s.buffedEventQueue.capacity →
    ∃ s', run step s (List.replicate n (.client (.delay e))) = some s' ∧ s'.inClient = true
      ∧ SpscqRep s'.buffedEventQueue (xs ++ List.replicate n e)
      ∧ s'.buffedEventQueue.capacity = s.buffedEventQueue.capacity := by
  intro n
  induction n with
  | zero => exact fun {s xs} hin hr _ => ⟨s, rfl, hin, by simpa using hr, rfl⟩
  | succ n ih =>
      intro s xs hin hr hroom
      obtain ⟨_, hrep, hcap⟩ := hr.push e (by omega)
      have hstep : s.step (.client (.delay e)) = some (s.delayDispatchEvent e) := by
        simp [step, hin, clientStep]
      obtain ⟨s', hrun, hin', hrep', hcap'⟩ := ih (s := s.delayDispatchEvent e) hin hrep
        (by simp only [delayDispatchEvent, hcap, List.length_append, List.length_singleton]; omega)
      refine ⟨s', ?_, hin', ?_, hcap'.trans hcap⟩
      · simp [List.replicate_succ, run, hstep, hrun]
      · simpa [List.replicate_succ, List.append_assoc] using hrep'

/-- A burst of 102400 events: the last one is lost. -/
theorem delayDispatchEvent_loses : ¬ ∀ s s₀ ops s', dispatcherInit s = some s₀ →
    s.delayed = [] → s.emitted = [] → s.stack = [] → run step s₀ ops = some s' →
    EmitsInOrder s₀ ops := by
  intro hall
  obtain ⟨s, hs⟩ : ∃ s : Dispatching, s =
    { world := .fresh .simulation 0 [] fun _ => ⟨1, askEvent, 2, 0⟩
      fields := ⟨none, fun _ => none⟩
      dispatchReentrantCount := 0
      buffedEventQueue := ⟨0, fun _ => none, 0, 0⟩
      stack := [], delayed := [], emitted := [] } := ⟨_, rfl⟩
  obtain ⟨s₀, hinit⟩ : ∃ s₀, dispatcherInit s = some s₀ := ⟨_, rfl⟩
  obtain ⟨hrep, hcap, _, _, hstack⟩ := dispatcherInit_ring hinit
  have hin : s₀.inClient = true := by simp [inClient, hstack, hs]
  obtain ⟨u, hrun, hinu, hrepu, hcapu⟩ := run_delays 4 102399 hin hrep (by simp [hcap])
  have hfull : spscqIsFull u.buffedEventQueue = true := by
    rw [hrepu.isFull_iff, hcapu, hcap, List.nil_append, List.length_replicate]
  have hstep : u.step (.client (.delay 4)) = some (u.delayDispatchEvent 4) := by
    simp [step, hinu, clientStep]
  have hlong : run step s₀ (List.replicate 102399 (.client (.delay 4)) ++ [.client (.delay 4)])
      = some (u.delayDispatchEvent 4) := run_append _ hrun (by simp [run, hstep])
  have hemits := hall s s₀ _ _ hinit (by rw [hs]) (by rw [hs]) (by rw [hs]) hlong
  have hroom := (hemits.findsRoom (ringed_of hrep).2 hlong).split.2 u hrun
  simp [FindsRoom, hfull] at hroom

end Dispatching

end Ats
