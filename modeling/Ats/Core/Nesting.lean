import Ats.Core.Calls
import Ats.Core.EventDispatch
import Ats.Lib.GuardedRun

/-!
# Nesting: dispatchers whose handlers dispatch

A handler has the context, and may dispatch, delay and emit while
`dispatch_event` waits for it, to any depth. Here the calls that have not
returned are a stack, and a run is what client code does wherever it has
control, with the returns of its handlers and the turns of the emit loops.
So a run stands for a tree of handlers, also one that is not finished.
-/

namespace Ats

open GuardedRun

/-- A call of the dispatcher that has not returned. -/
inductive DispatchFrame where
  /-- `dispatch_event`, in the handler of `e` -/
  | handler (e : EventId)
  /-- `emit_delayed_events`, before its next `spscq_pop` -/
  | emit
deriving DecidableEq, Repr

/-- `DISPATCHER_FIELDS` and the memory, with the calls that are under way.
What a handler does is up to the run, so of an entry of the table only its
presence is read. `delayed` and `emitted` are history variables: the events
that were given to `delay_dispatch_event`, and those that
`emit_delayed_events` gave to `dispatch_event`. -/
structure Dispatching where
  world : World
  fields : Dispatcher
  dispatchReentrantCount : Int
  buffedEventQueue : Spscq EventId
  stack : List DispatchFrame
  delayed : List EventId
  emitted : List EventId

/-- What client code does where it has control. -/
inductive ClientOp where
  | dispatch (e : EventId)
  | delay (e : EventId)
  | emit
  | setFilter (filter : Option (World → EventId → Option (World × Option EventId)))
  | setDispatch (type : Nat) (dispatch : Option (World → EventId → Option World))
  /-- anything it does to the rest of the memory -/
  | write (w : World)

/-- A step of a run. -/
inductive DispatchOp where
  | client (op : ClientOp)
  /-- the handler returns to `dispatch_event` -/
  | ret
  /-- a turn of the loop in `emit_delayed_events` -/
  | pop

namespace Dispatching

variable {s s' u : Dispatching} {op : DispatchOp} {ops : List DispatchOp} {e : EventId}

/-! ## `event_dispatch.c`, up to where client code has control -/

/-- `dispatcher_init` leaves every other field as it finds it. -/
def dispatcherInit (s : Dispatching) : Option Dispatching := do
  let spsc ← spscqInit 102400
  some { s with buffedEventQueue := spsc }

/-- `dispatcher_destroy` -/
def dispatcherDestroy (s : Dispatching) : Option Dispatching := do
  spscqDestroy s.buffedEventQueue
  some s

/-- `dispatch_event` after the handler: step 5 and the count. -/
def leave (s : Dispatching) (e : EventId) : Dispatching :=
  { s with
    world := eventUnref s.world e
    dispatchReentrantCount := s.dispatchReentrantCount - 1 }

/-- Step 3 of `dispatch_event`. -/
def handle (s : Dispatching) (e : EventId) : Dispatching :=
  match s.fields.eventHandleTable (s.world.events e).eventType with
  | none => s.leave e
  | some _ => { s with stack := .handler e :: s.stack }

/-- `dispatch_event` up to the handler: the count goes up before the filter
is asked, and an event that it swallows ends the call there. -/
def enter (s : Dispatching) (e : EventId) : Option Dispatching := do
  let s := { s with dispatchReentrantCount := s.dispatchReentrantCount + 1 }
  let (w, e) ← dispatchFilter s.fields s.world e
  let s := { s with world := w }
  match e with
  | none => some s
  | some e => some (s.handle e)

/-- `delay_dispatch_event`: the code of `spscq_push` is not looked at. -/
def delayDispatchEvent (s : Dispatching) (e : EventId) : Dispatching :=
  { s with
    buffedEventQueue := (spscqPush s.buffedEventQueue e).1
    delayed := s.delayed ++ [e] }

/-- A turn of the loop `while ((e = spscq_pop(q))) dispatch_event(ctx, e)`;
`rest` are the calls around it. -/
def emitTurn (s : Dispatching) (rest : List DispatchFrame) : Option Dispatching :=
  match spscqPop s.buffedEventQueue with
  | (_, none) => some { s with stack := rest }
  | (spsc, some e) =>
      { s with buffedEventQueue := spsc, emitted := s.emitted ++ [e] }.enter e

/-! ## Steps -/

/-- Client code has control outside of every call, and in a handler. -/
def inClient (s : Dispatching) : Bool :=
  match s.stack with
  | .emit :: _ => false
  | _ => true

def clientStep (s : Dispatching) : ClientOp → Option Dispatching
  | .dispatch e => s.enter e
  | .delay e => some (s.delayDispatchEvent e)
  | .emit => some { s with stack := .emit :: s.stack }
  | .setFilter filter => some { s with fields := dispatcherSetEventFilter s.fields filter }
  | .setDispatch type dispatch =>
      (dispatcherSetEventDispatch s.fields type dispatch).map fun d => { s with fields := d }
  | .write w => some { s with world := w }

/-- A step; `none` where it is not its turn, or an assertion fails. -/
def step (s : Dispatching) : DispatchOp → Option Dispatching
  | .client op => if s.inClient then s.clientStep op else none
  | .ret =>
      match s.stack with
      | .handler e :: rest => some ({ s with stack := rest }.leave e)
      | _ => none
  | .pop =>
      match s.stack with
      | .emit :: rest => s.emitTurn rest
      | _ => none

/-- The handlers that have not returned: the nesting depth. -/
def depth (s : Dispatching) : Nat := s.stack.countP fun f => f matches .handler _

def inHandler (s : Dispatching) : Bool :=
  match s.stack with
  | .handler _ :: _ => true
  | _ => false

/-! ## What `dispatch_event` meets -/

/-- The filter answers `NULL`. -/
def filtersOut (s : Dispatching) (e : EventId) : Bool :=
  match dispatchFilter s.fields s.world e with
  | some (_, none) => true
  | _ => false

/-- The filter lets an event through whose type has a handler. -/
def handles (s : Dispatching) (e : EventId) : Bool :=
  match dispatchFilter s.fields s.world e with
  | some (w, some e) => (s.fields.eventHandleTable (w.events e).eventType).isSome
  | _ => false

/-- The event that the step gives to `dispatch_event`. -/
def dispatches (s : Dispatching) : DispatchOp → Option EventId
  | .client (.dispatch e) => some e
  | .pop => (spscqPop s.buffedEventQueue).2
  | _ => none

/-- No filter answers `NULL` in the step. -/
def LetsThrough (s : Dispatching) (op : DispatchOp) : Prop :=
  ∀ e, s.dispatches op = some e → s.filtersOut e = false

/-! ## What a step does to the count -/

/-- **What `dispatch_event` does** before client code has control again: the
filter ends the call, or no handler is there and the call is over, or a
handler is entered. -/
theorem enter_cases (h : s.enter e = some s') :
    (s.filtersOut e = true ∧ s.handles e = false ∧ ∃ w, s' = { s with
        world := w, dispatchReentrantCount := s.dispatchReentrantCount + 1 })
      ∨ (s.filtersOut e = false ∧ s.handles e = false ∧ ∃ w, s' = { s with world := w })
      ∨ (s.filtersOut e = false ∧ s.handles e = true ∧ ∃ w x, s' = { s with
          world := w, dispatchReentrantCount := s.dispatchReentrantCount + 1
          stack := .handler x :: s.stack }) := by
  simp only [enter, Option.bind_eq_bind, Option.bind_eq_some_iff] at h
  obtain ⟨⟨w, r⟩, hfilter, h⟩ := h
  cases r with
  | none =>
      left
      simp only [Option.some.injEq] at h
      exact ⟨by simp [filtersOut, hfilter], by simp [handles, hfilter], w, h.symm⟩
  | some x =>
      right
      have hfalse : s.filtersOut e = false := by simp [filtersOut, hfilter]
      simp only [handle, Option.some.injEq] at h
      cases htable : s.fields.eventHandleTable (w.events x).eventType with
      | none =>
          left
          refine ⟨hfalse, by simp [handles, hfilter, htable], eventUnref w x, ?_⟩
          simp [← h, htable, leave]
      | some d =>
          right
          refine ⟨hfalse, by simp [handles, hfilter, htable], w, x, ?_⟩
          simp [← h, htable]

/-- How far the count is above the nesting depth. -/
def excess (s : Dispatching) : Int := s.dispatchReentrantCount - s.depth

/-- `dispatch_event` moves the count with the depth, save where the filter
answers `NULL`. -/
theorem enter_excess (h : s.enter e = some s') :
    s'.excess = s.excess + if s.filtersOut e then 1 else 0 := by
  rcases enter_cases h with ⟨hf, _, w, rfl⟩ | ⟨hf, _, w, rfl⟩ | ⟨hf, _, w, x, rfl⟩
  · simp only [excess, depth, hf, if_true]
    omega
  · simp [excess, depth, hf]
  · simp only [excess, depth, hf, List.countP_cons, if_true, Bool.false_eq_true, if_false]
    omega

/-- The emit loop pops, and is over where nothing is left. -/
theorem emitTurn_cases {rest : List DispatchFrame} (h : s.emitTurn rest = some s') :
    ((spscqPop s.buffedEventQueue).2 = none ∧ s' = { s with stack := rest })
      ∨ ∃ e, (spscqPop s.buffedEventQueue).2 = some e
        ∧ { s with
            buffedEventQueue := (spscqPop s.buffedEventQueue).1
            emitted := s.emitted ++ [e] }.enter e = some s' := by
  rcases hpop : spscqPop s.buffedEventQueue with ⟨spsc, r⟩
  simp only [emitTurn, hpop] at h
  cases r with
  | none => exact .inl ⟨rfl, (Option.some.inj h).symm⟩
  | some e => exact .inr ⟨e, rfl, h⟩

/-- **What a step does to the count**: it moves with the depth, save where a
filter answers `NULL`. -/
theorem step_excess (h : s.step op = some s') :
    s.excess ≤ s'.excess ∧ (s'.excess = s.excess ↔ s.LetsThrough op) := by
  have hthrough : ∀ {e}, s.dispatches op = some e →
      s'.excess = s.excess + (if s.filtersOut e then 1 else 0) →
      s.excess ≤ s'.excess ∧ (s'.excess = s.excess ↔ s.LetsThrough op) := by
    intro e hd hx
    simp only [LetsThrough, hd, Option.some.injEq, forall_eq']
    cases hf : s.filtersOut e <;> simp [hf] at hx ⊢ <;> omega
  have hidle : s.dispatches op = none → s'.excess = s.excess →
      s.excess ≤ s'.excess ∧ (s'.excess = s.excess ↔ s.LetsThrough op) := by
    intro hd hx
    exact ⟨Int.le_of_eq hx.symm, iff_of_true hx (by simp [LetsThrough, hd])⟩
  cases op with
  | client op =>
      simp only [step] at h
      split at h
      case isFalse => cases h
      cases op with
      | dispatch e => exact hthrough rfl (enter_excess h)
      | delay e => cases h; exact hidle rfl rfl
      | emit => cases h; exact hidle rfl (by simp [excess, depth])
      | setFilter filter => cases h; exact hidle rfl rfl
      | write w => cases h; exact hidle rfl rfl
      | setDispatch type dispatch =>
          obtain ⟨d, _, rfl⟩ := Option.map_eq_some_iff.mp h
          exact hidle rfl rfl
  | ret =>
      simp only [step] at h
      split at h
      case h_2 => cases h
      case h_1 x rest hstack =>
        cases h
        refine hidle rfl ?_
        simp [excess, depth, leave, hstack]
        omega
  | pop =>
      simp only [step] at h
      split at h
      case h_2 => cases h
      case h_1 rest hstack =>
        rcases emitTurn_cases h with ⟨hpop, rfl⟩ | ⟨e, hpop, henter⟩
        · exact hidle hpop (by simp [excess, depth, hstack])
        · have hx := enter_excess henter
          exact hthrough hpop hx

/-- **The count over a run.** -/
theorem run_excess (hrun : run step s ops = some s') :
    s.excess ≤ s'.excess ∧ (s'.excess = s.excess ↔ Guarded step LetsThrough s ops) :=
  (run_measure (I := fun _ => True) (fun _ _ _ _ h => ⟨trivial, step_excess h⟩) ops hrun
    trivial).2

/-- **The count stays at or above the nesting depth** wherever it starts so. -/
theorem run_deep (hrun : run step s ops = some s')
    (hs : (s.depth : Int) ≤ s.dispatchReentrantCount) :
    (s'.depth : Int) ≤ s'.dispatchReentrantCount := by
  have := (run_excess hrun).1
  simp only [excess] at this
  omega

/-! ## One call of `dispatch_event` -/

/-- **The run is one call** `dispatch_event(ctx, e)`, with all that happens
in its handlers, up to its return. -/
structure OneCall (s : Dispatching) (e : EventId) (ops : List DispatchOp) (s' : Dispatching) :
    Prop where
  runs : run step s (.client (.dispatch e) :: ops) = some s'
  back : s'.stack = s.stack
  inside : ∀ p r u, ops = p ++ r → r ≠ [] →
    GuardedRun.run step s (.client (.dispatch e) :: p) = some u → s.stack.length < u.stack.length

/-- A run is one call where none of its states short of the last has the
stack of the first. -/
theorem OneCall.of_take (hrun : run step s (.client (.dispatch e) :: ops) = some s')
    (hback : s'.stack = s.stack)
    (h : ∀ n < ops.length, (run step s (.client (.dispatch e) :: ops.take n)).all
      fun u => decide (s.stack.length < u.stack.length)) : OneCall s e ops s' := by
  refine ⟨hrun, hback, fun p r u hops hr hu => ?_⟩
  have hlt : p.length < ops.length := by
    have := List.length_pos_of_ne_nil hr
    simp [hops]
    omega
  have htake : ops.take p.length = p := by simp [hops]
  simpa [htake, hu] using h p.length hlt

/-- **A handler that does not come back to the dispatcher**: the call
`dispatchEvent` is one of the calls here. -/
theorem dispatchEvent_oneCall {w : World} (hin : s.inClient = true)
    (h : dispatchEvent s.fields s.world e = some w) :
    ∃ ops s', OneCall s e ops s' ∧ s'.world = w := by
  simp only [dispatchEvent, Option.bind_eq_bind, Option.bind_eq_some_iff] at h
  obtain ⟨⟨v, r⟩, hfilter, h⟩ := h
  have hstep : step s (.client (.dispatch e)) = s.enter e := by simp [step, hin, clientStep]
  cases r with
  | none =>
      obtain rfl := Option.some.inj h
      refine ⟨[], { s with
        world := v, dispatchReentrantCount := s.dispatchReentrantCount + 1 },
        .of_take ?_ rfl (by simp), rfl⟩
      simp [run, hstep, enter, hfilter]
  | some x =>
      simp only [dispatchHandle, Option.bind_eq_some_iff] at h
      obtain ⟨v', hhandle, h⟩ := h
      obtain rfl := Option.some.inj h
      cases htable : s.fields.eventHandleTable (v.events x).eventType with
      | none =>
          simp only [htable, Option.some.injEq] at hhandle
          subst hhandle
          refine ⟨[], { s with world := eventUnref v x }, .of_take ?_ rfl (by simp), rfl⟩
          simp [run, hstep, enter, hfilter, handle, htable, leave]
      | some d =>
          -- the handler is one write to the memory and its return
          obtain ⟨u, hu⟩ : ∃ u, u = { s with
              world := v, dispatchReentrantCount := s.dispatchReentrantCount + 1
              stack := .handler x :: s.stack } := ⟨_, rfl⟩
          have henter : step s (.client (.dispatch e)) = some u := by
            simp [hstep, hu, enter, hfilter, handle, htable]
          have hdeeper : s.stack.length < u.stack.length := by simp [hu]
          have hwrite : step u (.client (.write v')) = some { u with world := v' } := by
            rw [hu]
            rfl
          have hret : step { u with world := v' } .ret
              = some { s with world := eventUnref v' x } := by
            simp [hu, step, leave]
          refine ⟨[.client (.write v'), .ret], { s with world := eventUnref v' x },
            .of_take ?_ rfl fun n hn => ?_, rfl⟩
          · simp [run, henter, hwrite, hret]
          · obtain rfl | rfl : n = 0 ∨ n = 1 := by
              simp only [List.length_cons, List.length_nil] at hn
              omega
            · simp [run, henter, hdeeper]
            · simp [run, henter, hwrite, hdeeper]

/-- **The call is balanced**: the count is back where it was, and in a handler
it has never been below the nesting depth. -/
structure Balanced (s : Dispatching) (e : EventId) (ops : List DispatchOp) (s' : Dispatching) :
    Prop where
  settled : s'.dispatchReentrantCount = s.dispatchReentrantCount
  deep : ∀ p u, p <+: .client (.dispatch e) :: ops → GuardedRun.run step s p = some u →
    u.inHandler → (u.depth : Int) ≤ u.dispatchReentrantCount

/-- The first step of the call. -/
theorem OneCall.enters (hc : OneCall s e ops s') :
    ∃ u, s.enter e = some u ∧ step s (.client (.dispatch e)) = some u := by
  obtain ⟨u, hstep, _⟩ := run_cons_some hc.runs
  refine ⟨u, ?_, hstep⟩
  simp only [step] at hstep
  split at hstep
  · exact hstep
  · cases hstep

/-- A call that enters no handler is over at once. -/
theorem OneCall.atOnce (hc : OneCall s e ops s') (hh : s.handles e = false) : ops = [] := by
  obtain ⟨u, henter, hstep⟩ := hc.enters
  by_contra hne
  have hlt := hc.inside [] ops u rfl hne (by simp [GuardedRun.run, hstep])
  rcases enter_cases henter with ⟨_, _, w, rfl⟩ | ⟨_, _, w, rfl⟩ | ⟨_, ht, _⟩
  · exact absurd hlt (Nat.lt_irrefl _)
  · exact absurd hlt (Nat.lt_irrefl _)
  · simp [hh] at ht

/-- The count is back just where no filter has answered `NULL`. -/
theorem OneCall.settled_iff (hc : OneCall s e ops s') :
    s'.dispatchReentrantCount = s.dispatchReentrantCount
      ↔ Guarded step LetsThrough s (.client (.dispatch e) :: ops) := by
  rw [← (run_excess hc.runs).2]
  simp only [excess, depth, hc.back]
  omega

/-- Some state of the call is in a handler just where the call is made from
a handler or enters one. -/
theorem OneCall.inHandler_cases (hc : OneCall s e ops s') {p : List DispatchOp}
    (hp : p <+: .client (.dispatch e) :: ops) (hu : GuardedRun.run step s p = some u)
    (hin : u.inHandler) :
    s.inHandler ∨ s.handles e := by
  by_contra hno
  obtain ⟨hs, hh⟩ : s.inHandler = false ∧ s.handles e = false := by simpa using hno
  obtain rfl := hc.atOnce hh
  obtain ⟨v, henter, hstep⟩ := hc.enters
  rcases List.prefix_cons_iff.mp hp with rfl | ⟨q, rfl, hq⟩
  · cases hu
    simp [hs] at hin
  · obtain rfl := List.prefix_nil.mp hq
    obtain rfl : v = u := by simpa [GuardedRun.run, hstep] using hu
    rcases enter_cases henter with ⟨_, _, w, rfl⟩ | ⟨_, _, w, rfl⟩ | ⟨_, ht, _⟩
    · exact absurd hin (by simpa [inHandler] using hs)
    · exact absurd hin (by simpa [inHandler] using hs)
    · simp [hh] at ht

/-- **A call of `dispatch_event` is balanced** if and only if no filter
answers `NULL` in it, and the count was not already below the depth where a
handler can see it: `dispatcher_init` does not set the count. -/
theorem dispatchEvent_balanced_iff (hc : OneCall s e ops s') :
    Balanced s e ops s' ↔
      Guarded step LetsThrough s (.client (.dispatch e) :: ops)
        ∧ (s.inHandler ∨ s.handles e → (s.depth : Int) ≤ s.dispatchReentrantCount) := by
  constructor
  · intro hb
    refine ⟨hc.settled_iff.mp hb.settled, fun hin => ?_⟩
    rcases hin with hin | hin
    · exact hb.deep [] s (List.nil_prefix) rfl hin
    · obtain ⟨u, henter, hstep⟩ := hc.enters
      have hu := hb.deep [.client (.dispatch e)] u (by simp) (by simp [GuardedRun.run, hstep])
      rcases enter_cases henter with ⟨_, hf, _⟩ | ⟨_, hf, _⟩ | ⟨_, _, w, x, rfl⟩
      · simp [hin] at hf
      · simp [hin] at hf
      · have hdeep := hu rfl
        simp [depth] at hdeep ⊢
        omega
  · rintro ⟨hg, hlow⟩
    refine ⟨hc.settled_iff.mpr hg, fun p u hp hu hin => ?_⟩
    obtain ⟨r, hr⟩ := hp
    have hexcess := (run_excess hu).2.mpr (Guarded.left p (hr ▸ hg))
    have hle := hlow (hc.inHandler_cases ⟨r, hr⟩ hu hin)
    simp only [excess] at hexcess
    omega

/-- Two handlers, the inner one reached through a delayed event, and an
event that nobody handles: the count goes up to two and is back at zero. -/
theorem dispatchEvent_balanced_iff_nested :
    let s : Dispatching :=
      { world := .fresh .simulation 0 [] fun e => ⟨1, e, 0, 0⟩
        fields := ⟨none, fun type => if type = 3 then none else some fun w _ => some w⟩
        dispatchReentrantCount := 0
        buffedEventQueue := ⟨4, fun _ => none, 0, 0⟩
        stack := [], delayed := [], emitted := [] }
    let ops : List DispatchOp := [.client (.delay 5), .client (.dispatch 3), .client .emit,
      .pop, .ret, .pop, .ret]
    ∃ s', Balanced s 4 ops s' ↔
      Guarded step LetsThrough s (.client (.dispatch 4) :: ops)
        ∧ (s.inHandler ∨ s.handles 4 → (s.depth : Int) ≤ s.dispatchReentrantCount) := by
  refine ⟨_, dispatchEvent_balanced_iff (.of_take rfl rfl ?_)⟩
  decide +kernel

/-- A filter that swallows one event: the count stays one too high. -/
theorem dispatchEvent_unbalanced : ¬ ∀ s e ops s', OneCall s e ops s' → Balanced s e ops s' := by
  intro hall
  have hb := hall
    { world := .fresh .simulation 0 [] fun _ => ⟨1, askEvent, 2, 0⟩
      fields := ⟨some fun w _ => some (w, none), fun _ => none⟩
      dispatchReentrantCount := 0
      buffedEventQueue := ⟨102400, fun _ => none, 0, 0⟩
      stack := [], delayed := [], emitted := [] } 4 [] _ (.of_take rfl rfl (by simp))
  exact absurd hb.settled (by decide)

end Dispatching

end Ats
