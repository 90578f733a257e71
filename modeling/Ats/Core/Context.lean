import Ats.Core.Readiness
import Ats.Core.TimerOrder
import Ats.Core.EventDispatch

/-!
# Context: the run loop of `context.c`

`ctx_run` runs the posted callbacks, dequeues and dispatches one event, and
then decides by the first local timer alone whether to wait. What its
callbacks, its filter and its handlers do, and what other threads do, are
calls that come between its steps.
-/

namespace Ats

variable {w w' v : World} {c d : CtxId} {q : QueueId} {t s e : EventId} {k : ClockType}
  {now : Nat}

/-! ## The functions of `context.c` -/

/-- `ctx_stop` -/
def ctxStop (w : World) (c : CtxId) : World := w.updCtx c fun x => { x with stopFlag := 1 }

/-- `ctx_async_post`, with memory to give. The wakeup it ends with touches
no memory that is modelled here. -/
def ctxAsyncPost (w : World) (c : CtxId) (async : AsyncId) : World :=
  w.updCtx c fun x => { x with asyncQueue := x.asyncQueue ++ [async] }

/-- `bus_next_timeout`, in 64-bit arithmetic; `now` is `datetime_now()`. -/
def busNextTimeout (w : World) (c : CtxId) (now : Nat) : Int :=
  match timerHeapPeek w c .clockLocal with
  | some r => (BitVec.ofNat 64 (w.reminders r).timeout - BitVec.ofNat 64 now).toInt
  | none => 0

/-- `ctx_run_mode` -/
inductive CtxRunMode
  | default
  | once
  | nowait
deriving DecidableEq, Repr

/-- Where `ctx_run` stands. -/
inductive RunPoint
  /-- before `while (ctx->stop_flag == 0)` -/
  | test
  /-- before `mpscq_pop(&ctx->async_queue)` -/
  | pop
  /-- in `async_cb` -/
  | callback (async : AsyncId)
  /-- before `bus_dequeue` -/
  | poll
  /-- in `dispatch_event` -/
  | dispatch (e : EventId)
  /-- before the test of `mode` and `bus_next_timeout`, with what
  `bus_dequeue` returned -/
  | timeout (e : Option EventId)
  /-- before `timewait`, with the time at which `bus_next_timeout` was
  positive -/
  | timewait (now : Nat)
  /-- in `timewait` -/
  | wait
  | done
deriving DecidableEq, Repr

namespace RunPoint

def isCallback : RunPoint → Bool
  | callback _ => true
  | _ => false

def isDispatch : RunPoint → Bool
  | dispatch _ => true
  | _ => false

def isTimeout : RunPoint → Bool
  | timeout _ => true
  | _ => false

def isTimewait : RunPoint → Bool
  | timewait _ => true
  | _ => false

/-- The time that `bus_next_timeout` has seen before `timewait`. -/
def waitsFrom : RunPoint → Option Nat
  | timewait now => some now
  | _ => none

/-- `bus_dequeue` has been called in this round. -/
def polled : RunPoint → Bool
  | dispatch _ | timeout _ | timewait _ => true
  | _ => false

/-- The async queue has been found empty in this round. -/
def popped (x : RunPoint) : Bool := x = poll || x.polled

/-- The stop flag has been found clear in this round. -/
def going (x : RunPoint) : Bool := x = pop || x.isCallback || x.popped

end RunPoint

/-- A call by a callback, a filter, a handler or another thread. -/
inductive ClientCall
  | bus (op : BusOp)
  /-- the client sets the fields of a reminder -/
  | setup (t : EventId) (clockType : ClockType) (timeout «repeat» : Nat)
  | ref (e : EventId)
  | unref (e : EventId)
  | stop (d : CtxId)
  | post (d : CtxId) (async : AsyncId)

def ClientCall.exec (w : World) : ClientCall → Option World
  | .bus op => (op.exec w).map Prod.fst
  | .setup t clockType timeout rep =>
      some (w.updReminder t fun x =>
        { x with clockType := clockType, timeout := timeout, «repeat» := rep })
  | .ref e => some (eventRef w e)
  | .unref e => some (eventUnref w e)
  | .stop d => some (ctxStop w d)
  | .post d async => some (ctxAsyncPost w d async)

/-- What a call asks of the memory it finds. -/
def ClientCall.Clean (w : World) : ClientCall → Prop
  | .bus op => op.Clean w
  | .setup t _ timeout _ => Unarmed w t ∧ timeout < 2 ^ 64
  | .ref _ | .unref _ | .stop _ | .post _ _ => True

/-- `ctx_run(ctx, mode)` on its way. -/
structure CtxRun where
  world : World
  ctx : CtxId
  mode : CtxRunMode
  point : RunPoint
  /-- history: something in this round has not been, or will not be, looked
  at again before `timewait` -/
  disturbed : Bool

/-- `bus_dequeue(c)` at `time` fires a local timer that is armed again for a
time by `now`, past `2 ^ 64`. -/
def rearmsDue (w : World) (c : CtxId) (now time : Nat) : Bool :=
  (busLook w c time).any fun w =>
    busSource w c time = .timer .clockLocal && (timerHeapPeek w c .clockLocal).any fun t =>
      (w.reminders t).repeat ≠ 0
        && ((w.reminders t).timeout + (w.reminders t).repeat) % 2 ^ 64 ≤ now

/-- The call arms a local timer of bus `c` that is due by `now`. -/
def BusOp.armsDue (c : CtxId) (w : World) (now : Nat) : BusOp → Bool
  | .addTimer d t => d = c && (w.reminders t).clockType = .clockLocal
      && (w.reminders t).timeout ≤ now
  | .dequeue d time => d = c && rearmsDue w c now time
  | _ => false

/-- **What comes too late for this round**: a stop, since the flag has been
tested; a post, once the async queue has been found empty; an event, once
`bus_dequeue` has been called; a timer that is due, once the loop means to
wait. -/
def ClientCall.Late (p : CtxRun) : ClientCall → Prop
  | .stop d => d = p.ctx
  | .post d _ => d = p.ctx ∧ p.point.popped = true
  | .bus op => p.point.polled = true ∧ op.bringsEvent p.ctx p.world = true
      ∨ p.point.waitsFrom.any (op.armsDue p.ctx p.world) = true
  | .setup _ _ _ _ | .ref _ | .unref _ => False

instance ClientCall.Late.decide (p : CtxRun) : (x : ClientCall) → Decidable (x.Late p)
  | .stop d => inferInstanceAs (Decidable (d = p.ctx))
  | .post d _ => inferInstanceAs (Decidable (d = p.ctx ∧ p.point.popped = true))
  | .bus op => inferInstanceAs (Decidable (p.point.polled = true
      ∧ op.bringsEvent p.ctx p.world = true
        ∨ p.point.waitsFrom.any (op.armsDue p.ctx p.world) = true))
  | .setup _ _ _ _ | .ref _ | .unref _ => inferInstanceAs (Decidable False)

/-- A step of the loop, or a call that comes between. -/
inductive RunStep
  /-- `while (ctx->stop_flag == 0)` -/
  | test
  /-- `node = mpscq_pop(&ctx->async_queue)` -/
  | pop
  /-- the callback returns -/
  | returned
  /-- `e = bus_dequeue(ctx)` -/
  | dequeue (now : Nat)
  /-- `dispatch_event` returns; the filter has returned `r` -/
  | dispatched (r : Option EventId)
  /-- the test of `mode`, and `timeout = bus_next_timeout(ctx)` -/
  | timeout (now : Nat)
  /-- `timewait` is entered -/
  | enter
  /-- `timewait` returns -/
  | wake
  | client (x : ClientCall)

def RunStep.exec (p : CtxRun) : RunStep → Option CtxRun
  | .test =>
      match p.point with
      | .test => some { p with
          point := if (p.world.ctxs p.ctx).stopFlag = 0 then .pop else .done
          disturbed := false }
      | _ => none
  | .pop =>
      match p.point with
      | .pop =>
          match (p.world.ctxs p.ctx).asyncQueue with
          | [] => some { p with point := .poll }
          | async :: rest => some { p with
              world := p.world.updCtx p.ctx fun x => { x with asyncQueue := rest }
              point := .callback async }
      | _ => none
  | .returned =>
      match p.point with
      | .callback _ => some { p with point := .pop }
      | _ => none
  | .dequeue now =>
      match p.point with
      | .poll => do
          let (w, e) ← busDequeue p.world p.ctx now
          some { p with
            world := w
            point :=
              match e with
              | none => .timeout none
              | some e => .dispatch e
            -- what is left behind is not looked at in this round
            disturbed := p.disturbed || !lastOnBus p.world p.ctx now }
      | _ => none
  | .dispatched r =>
      match p.point with
      | .dispatch e => some { p with
          world :=
            match r with
            | none => p.world
            | some s => eventUnref p.world s
          point := .timeout (some e) }
      | _ => none
  | .timeout now =>
      match p.point with
      | .timeout e => some { p with
          point :=
            if p.mode = .nowait ∨ p.mode = .once ∧ e.isSome then .done
            else if 0 < busNextTimeout p.world p.ctx now then .timewait now
            else .test }
      | _ => none
  | .enter =>
      match p.point with
      | .timewait _ => some { p with point := .wait }
      | _ => none
  | .wake =>
      match p.point with
      | .wait => some { p with point := .test }
      | _ => none
  | .client x => do
      let w ← x.exec p.world
      some { p with world := w, disturbed := p.disturbed || decide (x.Late p) }

/-- The step is the next one of the loop, or a clean call. The clock stands
below `2 ^ 63` microseconds. -/
def RunStep.Fits (p : CtxRun) : RunStep → Prop
  | .test => p.point = .test
  | .pop => p.point = .pop
  | .returned => p.point.isCallback = true
  | .dequeue _ => p.point = .poll
  | .dispatched _ => p.point.isDispatch = true
  | .timeout now => p.point.isTimeout = true ∧ now < 2 ^ 63
  | .enter => p.point.isTimewait = true
  | .wake => p.point = .wait
  | .client x => x.Clean p.world

/-- `timewait` is entered only in a round in which nothing has come too
late. -/
def RunStep.Heeded (p : CtxRun) : RunStep → Prop
  | .enter => p.disturbed = false
  | _ => True

instance ClientCall.Clean.decide (w : World) : (x : ClientCall) → Decidable (x.Clean w)
  | .bus op => inferInstanceAs (Decidable (op.Clean w))
  | .setup t _ timeout _ => inferInstanceAs (Decidable (Unarmed w t ∧ timeout < 2 ^ 64))
  | .ref _ | .unref _ | .stop _ | .post _ _ => inferInstanceAs (Decidable True)

instance RunStep.Fits.decide (p : CtxRun) : (x : RunStep) → Decidable (x.Fits p)
  | .test => inferInstanceAs (Decidable (p.point = .test))
  | .pop => inferInstanceAs (Decidable (p.point = .pop))
  | .returned => inferInstanceAs (Decidable (p.point.isCallback = true))
  | .dequeue _ => inferInstanceAs (Decidable (p.point = .poll))
  | .dispatched _ => inferInstanceAs (Decidable (p.point.isDispatch = true))
  | .timeout now => inferInstanceAs (Decidable (p.point.isTimeout = true ∧ now < 2 ^ 63))
  | .enter => inferInstanceAs (Decidable (p.point.isTimewait = true))
  | .wake => inferInstanceAs (Decidable (p.point = .wait))
  | .client x => inferInstanceAs (Decidable (x.Clean p.world))

instance RunStep.Heeded.decide (p : CtxRun) : (x : RunStep) → Decidable (x.Heeded p)
  | .enter => inferInstanceAs (Decidable (p.disturbed = false))
  | .test | .pop | .returned | .dequeue _ | .dispatched _ | .timeout _ | .wake | .client _ =>
      inferInstanceAs (Decidable True)

/-- `ctx_run(ctx, mode)` is called. -/
def CtxRun.start (w : World) (c : CtxId) (mode : CtxRunMode) : CtxRun :=
  ⟨w, c, mode, .test, false⟩

/-- **Nothing is ready** as `timewait` is entered. -/
structure Rested (p : CtxRun) : Prop where
  stopFlag : (p.world.ctxs p.ctx).stopFlag = 0
  asyncQueue : (p.world.ctxs p.ctx).asyncQueue = []
  drained : Drained p.world p.ctx
  timers : ∃ now, p.point = .timewait now ∧
    ∀ t ∈ p.world.timerNodes p.ctx .clockLocal, now < (p.world.reminders t).timeout

/-- **What the filter did, what the handler did, and `dispatched`** are one
call of `dispatch_event`. -/
theorem dispatchEvent_dispatched {dispatcher : Dispatcher} {p p' : CtxRun} {r : Option EventId}
    (hfilter : dispatchFilter dispatcher w e = some (v, r))
    (hhandle : ∀ s ∈ r, dispatchHandle dispatcher v s = some p.world)
    (hnone : r = none → p.world = v) (hdone : (RunStep.dispatched r).exec p = some p') :
    dispatchEvent dispatcher w e = some p'.world := by
  rw [dispatchEvent, hfilter]
  cases hpt : p.point with
  | dispatch x =>
      cases r with
      | none =>
          rw [RunStep.exec, hpt] at hdone
          cases hdone
          rw [← hnone rfl]
          rfl
      | some s =>
          rw [RunStep.exec, hpt] at hdone
          cases hdone
          simp only [Option.bind_eq_bind, Option.bind_some, hhandle s rfl]
  | _ =>
      cases r with
      | none =>
          rw [RunStep.exec, hpt] at hdone
          cases hdone
      | some s =>
          rw [RunStep.exec, hpt] at hdone
          cases hdone

/-! ## `bus_next_timeout` -/

/-- The difference of a timeout and a sane clock is positive only where the
timeout is to come. -/
theorem timeout_toInt_pos {a b : Nat} (ha : a < 2 ^ 64) (hb : b < 2 ^ 63)
    (h : 0 < (BitVec.ofNat 64 a - BitVec.ofNat 64 b).toInt) : b < a := by
  rw [BitVec.toInt_eq_toNat_cond, BitVec.toNat_sub, BitVec.toNat_ofNat, BitVec.toNat_ofNat]
    at h
  omega

/-- **Where `bus_next_timeout` is positive, no local timer is due.** -/
theorem TimersOrdered.busNextTimeout_pos (h : TimersOrdered w) (hi : TimerInv w)
    (hclocks : ∀ t, (w.reminders t).timeout < 2 ^ 64) (hnow : now < 2 ^ 63)
    (hpos : 0 < busNextTimeout w c now) :
    ∀ t ∈ w.timerNodes c .clockLocal, now < (w.reminders t).timeout := by
  intro t ht
  rw [busNextTimeout] at hpos
  split at hpos
  case h_1 r hr =>
    have hlt := timeout_toInt_pos (hclocks r) hnow hpos
    have hle := timerKey_timeout (h.first hi hr ht)
    omega
  case h_2 => exact absurd hpos (by decide)

/-! ## What calls leave alone -/

/-- What no call of the bus writes: the fields of the run loop. -/
theorem BusOp.Did.loopFields {op : BusOp} {r : List (CtxId × EventId)} (hd : op.Did w w' r)
    (d : CtxId) : (w'.ctxs d).stopFlag = (w.ctxs d).stopFlag
      ∧ (w'.ctxs d).asyncQueue = (w.ctxs d).asyncQueue := by
  cases op with
  | addQueue c q =>
      have hf := hd.1.frame
      exact ⟨hf.ctx_proj d Ctx.stopFlag (fun _ _ _ => rfl),
        hf.ctx_proj d Ctx.asyncQueue (fun _ _ _ => rfl)⟩
  | removeQueue c q =>
      obtain ⟨_, _, rfl | ⟨ys, hset⟩⟩ := hd
      · exact ⟨rfl, rfl⟩
      · exact ⟨hset.frame.ctx_proj d Ctx.stopFlag (fun _ _ _ => rfl),
          hset.frame.ctx_proj d Ctx.asyncQueue (fun _ _ _ => rfl)⟩
  | push q e =>
      obtain ⟨hpush | ⟨rfl, _⟩, _⟩ := hd
      · rw [hpush.ctxs]
        exact ⟨rfl, rfl⟩
      · exact ⟨rfl, rfl⟩
  | addTimer c t =>
      have hf := hd.1.frame
      exact ⟨hf.ctx_proj d Ctx.stopFlag (fun _ _ _ => rfl),
        hf.ctx_proj d Ctx.asyncQueue (fun _ _ _ => rfl)⟩
  | removeTimer c t =>
      obtain ⟨_, _, rfl | ⟨ys, hset⟩⟩ := hd
      · exact ⟨rfl, rfl⟩
      · exact ⟨hset.frame.ctx_proj d Ctx.stopFlag (fun _ _ _ => rfl),
          hset.frame.ctx_proj d Ctx.asyncQueue (fun _ _ _ => rfl)⟩
  | attach src dst =>
      rw [hd.1.ctxs d]
      exact ⟨rfl, rfl⟩
  | detach src dst =>
      rw [hd.1.ctxs d]
      exact ⟨rfl, rfl⟩
  | setTime c time =>
      rw [hd.1.ctxs d]
      exact ⟨rfl, rfl⟩
  | setExchangeTime c time =>
      rw [hd.1.ctxs d]
      exact ⟨rfl, rfl⟩
  | dequeue c now =>
      obtain ⟨w1, w2, o, hdeq, _⟩ := hd
      exact hdeq.run.keeps (P := fun v => (v.ctxs d).stopFlag = (w.ctxs d).stopFlag
          ∧ (v.ctxs d).asyncQueue = (w.ctxs d).asyncQueue)
        (fun _ _ u u' _ _ hs hu =>
          ⟨(hs.ctx_proj d Ctx.stopFlag (fun _ _ _ _ _ _ _ _ => rfl)).trans hu.1,
            (hs.ctx_proj d Ctx.asyncQueue (fun _ _ _ _ _ _ _ _ => rfl)).trans hu.2⟩)
        ⟨rfl, rfl⟩

/-- The timeouts fit into 64 bits. -/
def Clocked (w : World) : Prop := ∀ t, (w.reminders t).timeout < 2 ^ 64

theorem TimerPop.clocked (hp : TimerPop w w' c k t) (h : Clocked w) : Clocked w' := by
  intro s
  by_cases hs : s = t
  · rw [hs, hp.reminder]
    split
    · exact h t
    · exact Nat.mod_lt _ (by decide)
  · rw [hp.others s hs]
    exact h s

theorem BusOp.Did.clocked {op : BusOp} {r : List (CtxId × EventId)} (hd : op.Did w w' r)
    (h : Clocked w) : Clocked w' := by
  cases hop : op.ofTimers with
  | false => exact fun t => by rw [(hd.timersStand hop).reminders]; exact h t
  | true =>
      cases op with
      | addTimer c t =>
          intro s
          by_cases hs : s = t
          · rw [hs, hd.1.reminder]
            exact h t
          · rw [hd.1.others s hs]
            exact h s
      | removeTimer c t =>
          obtain ⟨_, _, rfl | ⟨ys, hset⟩⟩ := hd
          · exact h
          · intro s
            obtain ⟨m, rfl⟩ := hset.eq
            exact h s
      | dequeue c now =>
          obtain ⟨w1, w2, o, hdeq, _⟩ := hd
          refine hdeq.run.keeps (P := Clocked) (fun s _ u u' _ _ hs hu => ?_) h
          by_cases hk : ∀ d, s ≠ .fire d
          · exact fun t => by rw [(hs.timersStand hk).reminders]; exact hu t
          · cases hs with
            | fire hpop => exact fun t => hpop.clocked hu t
            | _ => exact absurd (fun _ hc => by cases hc) hk
      | _ => cases hop

/-- **No local timer of `c` is due** by `now`. -/
def NoneDue (w : World) (c : CtxId) (now : Nat) : Prop :=
  ∀ t ∈ w.timerNodes c .clockLocal, now < (w.reminders t).timeout

/-- The timers are those from before, or fewer, and untouched. -/
theorem NoneDue.of_sub (h : NoneDue w c now)
    (hn : ∀ t, t ∈ w'.timerNodes c .clockLocal → t ∈ w.timerNodes c .clockLocal)
    (hr : ∀ t, t ∈ w'.timerNodes c .clockLocal → w'.reminders t = w.reminders t) :
    NoneDue w' c now := fun t ht => by
  rw [hr t ht]
  exact h t (hn t ht)

theorem NoneDue.stand (h : NoneDue w c now) (hs : TimersStand w w') : NoneDue w' c now :=
  h.of_sub (fun t ht => by rwa [hs.timerNodes] at ht) fun t _ => by rw [hs.reminders]

/-- **A timer that is armed** is not due, unless it is one of `c` with a past
timeout. -/
theorem TimerArmed.noneDue (h : TimerArmed w w' d (w.reminders t).clockType t
      (w.reminders t).timeout) (hi' : TimerInv w')
    (hop : d = c → (w.reminders t).clockType = .clockLocal → now < (w.reminders t).timeout)
    (hw : NoneDue w c now) : NoneDue w' c now := by
  intro s hs
  by_cases hst : s = t
  · subst hst
    obtain ⟨hctx, hclock⟩ := hi'.armed c .clockLocal s hs
    rw [h.reminder] at hctx hclock ⊢
    exact hop (Option.some.inj hctx) hclock
  · rw [h.others s hst]
    refine hw s ?_
    by_cases hheap : c ≠ d ∨ ClockType.clockLocal ≠ (w.reminders t).clockType
    · rwa [h.nodes_ne c .clockLocal hheap] at hs
    · obtain ⟨hcd, hclock⟩ := not_or.mp hheap
      rw [not_not.mp hcd, not_not.mp hclock] at hs ⊢
      exact (List.mem_cons.mp (h.nodes.mem_iff.mp hs)).resolve_left hst

/-- **A timer that fires** is not due again, unless its timeout passes
`2 ^ 64`. -/
theorem TimerPop.noneDue (h : TimerPop w v d k t) (hi : TimerInv w)
    (hop : d = c → k = .clockLocal → (w.reminders t).repeat ≠ 0 →
      now < ((w.reminders t).timeout + (w.reminders t).repeat) % 2 ^ 64)
    (hw : NoneDue w c now) : NoneDue v c now := by
  intro s hs
  by_cases hst : s = t
  · subst hst
    have hmem := h.timerNodes_subset c .clockLocal hs
    obtain ⟨hctx, hk⟩ := hi.armed c .clockLocal s hmem
    obtain rfl : d = c := Option.some.inj (h.armed.1.symm.trans hctx)
    obtain rfl : k = .clockLocal := h.armed.2.symm.trans hk
    rw [h.nodes.mem_iff] at hs
    split at hs
    case isTrue => exact absurd hs (hi.heap d .clockLocal).nodup.not_mem_erase
    case isFalse hrep =>
      rw [h.reminder, if_neg hrep]
      exact hop rfl rfl hrep
  · rw [h.others s hst]
    exact hw s (h.timerNodes_subset c .clockLocal hs)

/-- What is served arms no timer but the one that fires. -/
theorem Served.noneDue {src : BusSource} {o : Option EventId} (h : Served w d src w' o)
    (hi : BusInv w)
    (hop : d = c → src = .timer .clockLocal → ∀ t ∈ timerHeapPeek w c .clockLocal,
      (w.reminders t).repeat ≠ 0 →
      now < ((w.reminders t).timeout + (w.reminders t).repeat) % 2 ^ 64)
    (hw : NoneDue w c now) : NoneDue w' c now := by
  cases h with
  | timer hpop =>
      refine hpop.noneDue hi.timer (fun hdc hk => hop hdc (by rw [hk]) _ ?_) hw
      rw [← hdc, ← hk, hi.timer.timerHeapPeek_eq]
      exact hpop.first
  | pipe hpop hk => exact hw.stand ((BusStep.give hpop hk).timersStand (by simp))
  | saved hun hforward =>
      have hv := hw.stand ((BusStep.release hun).timersStand (by simp))
      split at hforward
      case isTrue =>
        obtain ⟨u, hforward', hrun⟩ := (hi.of_busUnsave hun).busForward d _
        cases hforward.symm.trans hforward'
        exact hv.stand (hrun.timersStand (by simp))
      case isFalse =>
        subst hforward
        exact hv
  | nothing => exact hw

theorem BusOp.Did.noneDue {op : BusOp} {r : List (CtxId × EventId)} (hd : op.Did w w' r)
    (hexec : op.exec w = some (w', r)) (hi : BusInv w) (hi' : BusInv w')
    (hop : op.armsDue c w now = false) (hw : NoneDue w c now) : NoneDue w' c now := by
  cases hof : op.ofTimers with
  | false => exact hw.stand (hd.timersStand hof)
  | true =>
      cases op with
      | addTimer d t =>
          refine hd.1.noneDue hi'.timer (fun hdc hclock => ?_) hw
          simpa [BusOp.armsDue, hdc, hclock] using hop
      | removeTimer d t =>
          obtain ⟨hrem, _, rfl | ⟨ys, hset⟩⟩ := hd
          · exact hw
          · obtain ⟨m, hm⟩ := hset.eq
            exact hw.of_sub (fun s hs => ((hrem.others c .clockLocal s).mp hs).1)
              fun s _ => by rw [hm]; rfl
      | dequeue d time =>
          obtain ⟨w1, w2, v, o, hcall, hlook, hdeq⟩ := hi.busDequeue_look d time
          rw [BusOp.exec, hcall] at hexec
          cases hexec
          refine hdeq.served.noneDue hdeq.look.run.inv (fun hdc hsrc t ht hrep => ?_)
            (hw.stand hdeq.timersStand)
          subst hdc
          by_contra hdue
          have harms : rearmsDue w d now time = true := by
            rw [rearmsDue, hlook, Option.any_some, hsrc, ht, Option.any_some]
            simpa [hrep] using hdue
          simp [BusOp.armsDue, harms] at hop
      | _ => cases hof

/-! ## The calls that come between -/

/-- What the loop counts on, beyond `BusInv`. -/
structure Sane (w : World) : Prop where
  inv : BusInv w
  ordered : TimersOrdered w
  clocked : Clocked w

/-- **What a call has done**, as far as the loop of `c` looks. -/
structure CallDone (x : ClientCall) (w w' : World) (c : CtxId) : Prop where
  sane : Sane w'
  stopFlag : x ≠ .stop c → (w'.ctxs c).stopFlag = (w.ctxs c).stopFlag
  asyncQueue : (∀ async, x ≠ .post c async) → (w'.ctxs c).asyncQueue = (w.ctxs c).asyncQueue
  drained : (∀ op, x = .bus op → op.bringsEvent c w = false) → Drained w c → Drained w' c
  timers : ∀ now, (∀ op, x = .bus op → op.armsDue c w now = false) →
    NoneDue w c now → NoneDue w' c now

/-- A call that touches no queue, no timer and no table. -/
theorem CallDone.of_same {x : ClientCall} (h : Sane w) (hq : SameQueues w w')
    (hs : SameSlots w w') (ht : TimersStand w w')
    (hstop : x ≠ .stop c → (w'.ctxs c).stopFlag = (w.ctxs c).stopFlag)
    (hpost : (∀ async, x ≠ .post c async) →
      (w'.ctxs c).asyncQueue = (w.ctxs c).asyncQueue) : CallDone x w w' c where
  sane := ⟨h.inv.of_sameQueues hq ⟨fun _ => by rw [ht.reminders],
      fun _ => by rw [ht.reminders], ht.node, ht.heap⟩ hs, h.ordered.stand ht,
    fun t => by rw [ht.reminders]; exact h.clocked t⟩
  stopFlag := hstop
  asyncQueue := hpost
  drained := fun _ hd => hd.congr hq hs
  timers := fun _ _ hn => hn.stand ht

/-- A change of the loop's own fields. -/
theorem CallDone.updCtx {x : ClientCall} (h : Sane w) {f : Ctx → Ctx}
    (hf : ∀ y, f y = { y with stopFlag := (f y).stopFlag, asyncQueue := (f y).asyncQueue })
    (hstop : x ≠ .stop c → ((w.updCtx d f).ctxs c).stopFlag = (w.ctxs c).stopFlag)
    (hpost : (∀ async, x ≠ .post c async) →
      ((w.updCtx d f).ctxs c).asyncQueue = (w.ctxs c).asyncQueue) :
    CallDone x w (w.updCtx d f) c := by
  refine CallDone.of_same h (updCtx_sameQueues w d (fun y => ?_)) ⟨fun z => ?_, fun z => ?_,
    fun z => ?_, fun z => ?_⟩ (TimersStand.updCtx w d (fun y => by rw [hf y])) hstop hpost
  · rw [hf y]
    exact ⟨rfl, rfl⟩
  · exact w.updCtx_proj d z Ctx.savedEvent (fun y => by rw [hf y])
  · exact w.updCtx_proj d z Ctx.savedFrom (fun y => by rw [hf y])
  · exact w.updCtx_proj d z Ctx.attached (fun y => by rw [hf y])
  · exact w.updCtx_proj d z Ctx.attachedCount (fun y => by rw [hf y])

/-- **Each clean call goes through.** -/
theorem Sane.call (h : Sane w) {x : ClientCall} (hx : x.Clean w) (c : CtxId) :
    ∃ w', x.exec w = some w' ∧ CallDone x w w' c := by
  cases x with
  | bus op =>
      obtain ⟨w', r, hexec, hi', hd⟩ := h.inv.call hx
      have hloop := hd.loopFields c
      refine ⟨w', by rw [ClientCall.exec, hexec]; rfl, ⟨
        ⟨hi', hd.timersOrdered h.ordered, hd.clocked h.clocked⟩, fun _ => hloop.1,
        fun _ => hloop.2, fun hbrings => hd.drained h.inv hx fun hb => ?_,
        fun now harms => hd.noneDue hexec h.inv hi' (harms op rfl)⟩⟩
      have hbrings := hbrings op rfl
      rw [hb.bringsEvent hexec] at hbrings
      cases hbrings
  | setup t clockType timeout rep =>
      obtain ⟨hun, hlt⟩ := hx
      -- only a reminder that stands in no heap is written
      have hn := h.inv.timer.nowhere_of_unarmed hun
      have hne : ∀ s, s ≠ t → (w.updReminder t fun x => { x with
          clockType := clockType, timeout := timeout, «repeat» := rep }).reminders s
            = w.reminders s := fun s hs => Function.update_of_ne hs ..
      obtain ⟨ht', hnodes⟩ := @TimerInv.touch w (w.updReminder t fun x => { x with
        clockType := clockType, timeout := timeout, «repeat» := rep }) t h.inv.timer hn
        (fun _ => rfl) (fun _ _ => rfl) hne
      have hmem : ∀ {a j s}, s ∈ w.timerNodes a j → s ≠ t := by
        rintro a j s hs rfl
        exact hn a j hs
      have hq : SameQueues w (w.updReminder t fun x => { x with
          clockType := clockType, timeout := timeout, «repeat» := rep }) :=
        ⟨fun _ => rfl, fun _ => rfl, fun _ => rfl, rfl, rfl, fun _ => rfl, fun _ => rfl⟩
      have hs : SameSlots w (w.updReminder t fun x => { x with
          clockType := clockType, timeout := timeout, «repeat» := rep }) :=
        ⟨fun _ => rfl, fun _ => rfl, fun _ => rfl, fun _ => rfl⟩
      refine ⟨_, rfl, ⟨h.inv.of_same (hq.queueInv h.inv.queue) ht' hs (Nat.le_refl _)
        (fun _ _ hp => hp) (fun _ _ => rfl), fun a j => ?_, fun s => ?_⟩, fun _ => rfl,
        fun _ => rfl, fun _ hd => hd.congr hq hs, fun _ _ hn => hn.of_sub (fun s hs => ?_)
          fun s hs => ?_⟩
      · rw [hnodes]
        exact (h.ordered a j).congr (fun s hs => timerKey_congr (hne s (hmem hs)))
      · by_cases hst : s = t
        · subst hst
          simpa [World.updReminder] using hlt
        · rw [hne s hst]
          exact h.clocked s
      · rwa [hnodes] at hs
      · rw [hnodes] at hs
        exact hne s (hmem hs)
  | ref e =>
      exact ⟨_, rfl, CallDone.of_same h
        ⟨fun _ => rfl, fun _ => rfl, fun _ => rfl, rfl, rfl, fun _ => rfl, fun _ => rfl⟩
        ⟨fun _ => rfl, fun _ => rfl, fun _ => rfl, fun _ => rfl⟩ ⟨rfl, rfl, fun _ => rfl⟩
        (fun _ => rfl) (fun _ => rfl)⟩
  | unref e =>
      have hu := eventUnref_frame w e
      exact ⟨_, rfl, CallDone.of_same h hu.sameQueues hu.sameSlots
        ⟨hu.reminders, hu.timerNode, fun d => by rw [hu.ctxs]⟩ (fun _ => by rw [hu.ctxs])
        (fun _ => by rw [hu.ctxs])⟩
  | stop d =>
      refine ⟨_, rfl, CallDone.updCtx h (fun _ => rfl) (fun hne => ?_) (fun _ => ?_)⟩
      · have hcd : c ≠ d := fun hc => hne (hc ▸ rfl)
        simp [World.updCtx, hcd]
      · exact w.updCtx_proj d c Ctx.asyncQueue (f := fun y => { y with stopFlag := 1 })
          (fun _ => rfl)
  | post d async =>
      refine ⟨_, rfl, CallDone.updCtx h (fun _ => rfl) (fun _ => ?_) (fun hne => ?_)⟩
      · exact w.updCtx_proj d c Ctx.stopFlag
          (f := fun y => { y with asyncQueue := y.asyncQueue ++ [async] }) (fun _ => rfl)
      · have hcd : c ≠ d := fun hc => hne async (hc ▸ rfl)
        simp [World.updCtx, hcd]

/-! ## The invariant of the loop -/

/-- **What each point of a round knows**, as long as nothing has come too
late. -/
structure Running (p : CtxRun) : Prop where
  sane : Sane p.world
  going : p.point.going = true → p.disturbed = false →
    (p.world.ctxs p.ctx).stopFlag = 0
  popped : p.point.popped = true → p.disturbed = false →
    (p.world.ctxs p.ctx).asyncQueue = []
  polled : p.point.polled = true → p.disturbed = false → Drained p.world p.ctx
  timers : ∀ now, p.point = .timewait now → p.disturbed = false → NoneDue p.world p.ctx now

namespace Running

variable {p p' : CtxRun}

/-- Only the point has changed, to one that knows no more. -/
theorem move (h : Running p) {x : RunPoint}
    (hgoing : x.going = true → p.point.going = true)
    (hpopped : x.popped = true → p.point.popped = true)
    (hpolled : x.polled = true → p.point.polled = true)
    (hwait : x.isTimewait = false) : Running { p with point := x } where
  sane := h.sane
  going := fun hx => h.going (hgoing hx)
  popped := fun hx => h.popped (hpopped hx)
  polled := fun hx => h.polled (hpolled hx)
  timers := fun now hx => by
    dsimp only at hx
    rw [hx] at hwait
    cases hwait

theorem test (h : Running p) (hp : p.point = .test) :
    ∃ p', RunStep.test.exec p = some p' ∧ Running p' := by
  rw [RunStep.exec, hp]
  refine ⟨_, rfl, ⟨h.sane, fun hg _ => ?_, fun hg => ?_, fun hg => ?_, fun now hx => ?_⟩⟩
  all_goals
    dsimp only at *
    split at *
  · assumption
  all_goals simp_all [RunPoint.going, RunPoint.popped, RunPoint.polled, RunPoint.isCallback]

theorem pop (h : Running p) (hp : p.point = .pop) :
    ∃ p', RunStep.pop.exec p = some p' ∧ Running p' := by
  have hgo := h.going (by rw [hp]; rfl)
  rw [RunStep.exec, hp]
  dsimp only
  cases ha : (p.world.ctxs p.ctx).asyncQueue with
  | nil =>
      refine ⟨_, rfl, ⟨h.sane, fun _ => hgo, fun _ _ => ha, fun hx => ?_, fun now hx => ?_⟩⟩
      · cases hx
      · cases hx
  | cons async rest =>
      have hcall : CallDone (.post p.ctx async) p.world
          (p.world.updCtx p.ctx fun x => { x with asyncQueue := rest }) p.ctx := by
        refine CallDone.updCtx h.sane (fun _ => rfl) (fun _ => ?_) (fun hne => ?_)
        · exact p.world.updCtx_proj p.ctx p.ctx Ctx.stopFlag
            (f := fun y => { y with asyncQueue := rest }) (fun _ => rfl)
        · exact absurd rfl (hne async)
      refine ⟨_, rfl, ⟨hcall.sane, fun _ hdis => ?_, fun hx => ?_, fun hx => ?_,
        fun now hx => ?_⟩⟩
      · exact (hcall.stopFlag (by simp)).trans (hgo hdis)
      · cases hx
      · cases hx
      · cases hx

theorem returned (h : Running p) (hp : p.point.isCallback = true) :
    ∃ p', RunStep.returned.exec p = some p' ∧ Running p' := by
  cases hpt : p.point with
  | callback async =>
      refine ⟨{ p with point := .pop }, by rw [RunStep.exec, hpt], h.move (fun _ => ?_)
        (fun hx => ?_) (fun hx => ?_) rfl⟩
      · rw [hpt]
        rfl
      · cases hx
      · cases hx
  | _ =>
      rw [hpt] at hp
      cases hp

/-- **`bus_dequeue`** leaves no event behind, unless that is noted. -/
theorem dequeue (h : Running p) (hp : p.point = .poll) (now : Nat) :
    ∃ p', (RunStep.dequeue now).exec p = some p' ∧ Running p' := by
  have hgo := h.going (by rw [hp]; rfl)
  have hpop := h.popped (by rw [hp]; rfl)
  obtain ⟨w', r, hexec, hi', hd⟩ := @BusInv.call p.world (.dequeue p.ctx now) h.sane.inv trivial
  have hloop := hd.loopFields p.ctx
  have hsane : Sane w' := ⟨hi', hd.timersOrdered h.sane.ordered, hd.clocked h.sane.clocked⟩
  obtain ⟨w1, w2, v, o, hcall, hlook, hdeq⟩ := h.sane.inv.busDequeue_look p.ctx now
  have hv : v = w' := by
    rw [BusOp.exec, hcall] at hexec
    cases hexec
    rfl
  subst hv
  rw [RunStep.exec, hp]
  dsimp only
  rw [hcall]
  refine ⟨_, rfl, ⟨hsane, fun _ hdis => ?_, fun _ hdis => ?_, fun _ hdis => ?_,
    fun now hx => ?_⟩⟩
  · exact hloop.1.trans (hgo (Bool.or_eq_false_iff.mp hdis).1)
  · exact hloop.2.trans (hpop (Bool.or_eq_false_iff.mp hdis).1)
  · have hlast := (Bool.or_eq_false_iff.mp hdis).2
    rw [Bool.not_eq_false'] at hlast
    exact hdeq.drained_of_last hlook hlast
  · cases o <;> cases hx

theorem dispatched (h : Running p) (hp : p.point.isDispatch = true) (r : Option EventId) :
    ∃ p', (RunStep.dispatched r).exec p = some p' ∧ Running p' := by
  cases hpt : p.point with
  | dispatch e =>
      have hgo := h.going (by rw [hpt]; rfl)
      have hpop := h.popped (by rw [hpt]; rfl)
      have hpoll := h.polled (by rw [hpt]; rfl)
      cases r with
      | none =>
          rw [RunStep.exec, hpt]
          refine ⟨_, rfl, ⟨h.sane, fun _ => hgo, fun _ => hpop, fun _ => hpoll,
            fun now hx => by cases hx⟩⟩
      | some s =>
          have hu := eventUnref_frame p.world s
          have hcall : CallDone (.unref s) p.world (eventUnref p.world s) p.ctx := by
            obtain ⟨w', hw, hdone⟩ := h.sane.call (x := .unref s) trivial p.ctx
            cases hw
            exact hdone
          rw [RunStep.exec, hpt]
          refine ⟨_, rfl, ⟨hcall.sane, fun _ hdis => ?_, fun _ hdis => ?_, fun _ hdis => ?_,
            fun now hx => by cases hx⟩⟩
          · exact (hcall.stopFlag (by simp)).trans (hgo hdis)
          · exact (hcall.asyncQueue (by simp)).trans (hpop hdis)
          · exact hcall.drained (by simp) (hpoll hdis)
  | _ =>
      rw [hpt] at hp
      cases hp

/-- **The loop means to wait** only where no local timer is due. -/
theorem timeout (h : Running p) (hp : p.point.isTimeout = true) (hnow : now < 2 ^ 63) :
    ∃ p', (RunStep.timeout now).exec p = some p' ∧ Running p' := by
  cases hpt : p.point with
  | timeout e =>
      have hgo := h.going (by rw [hpt]; rfl)
      have hpop := h.popped (by rw [hpt]; rfl)
      have hpoll := h.polled (by rw [hpt]; rfl)
      rw [RunStep.exec, hpt]
      refine ⟨_, rfl, ?_⟩
      split
      · exact h.move (by simp [RunPoint.going, RunPoint.popped, RunPoint.polled,
          RunPoint.isCallback]) (by simp [RunPoint.popped, RunPoint.polled])
          (by simp [RunPoint.polled]) rfl
      · split
        case isTrue hpos =>
          refine ⟨h.sane, fun _ => hgo, fun _ => hpop, fun _ => hpoll, fun n hx _ => ?_⟩
          cases hx
          exact h.sane.ordered.busNextTimeout_pos h.sane.inv.timer h.sane.clocked hnow hpos
        case isFalse =>
          exact h.move (by simp [RunPoint.going, RunPoint.popped, RunPoint.polled,
            RunPoint.isCallback]) (by simp [RunPoint.popped, RunPoint.polled])
            (by simp [RunPoint.polled]) rfl
  | _ =>
      rw [hpt] at hp
      cases hp

theorem enter (h : Running p) (hp : p.point.isTimewait = true) :
    ∃ p', RunStep.enter.exec p = some p' ∧ Running p' := by
  cases hpt : p.point with
  | timewait now =>
      exact ⟨{ p with point := .wait }, by rw [RunStep.exec, hpt],
        h.move (by simp [RunPoint.going, RunPoint.popped, RunPoint.polled,
          RunPoint.isCallback]) (by simp [RunPoint.popped, RunPoint.polled])
          (by simp [RunPoint.polled]) rfl⟩
  | _ =>
      rw [hpt] at hp
      cases hp

theorem wake (h : Running p) (hp : p.point = .wait) :
    ∃ p', RunStep.wake.exec p = some p' ∧ Running p' :=
  ⟨{ p with point := .test }, by rw [RunStep.exec, hp],
    h.move (by simp [RunPoint.going, RunPoint.popped, RunPoint.polled,
      RunPoint.isCallback]) (by simp [RunPoint.popped, RunPoint.polled])
      (by simp [RunPoint.polled]) rfl⟩

/-- **A call that comes between** spoils what is known only if it is late. -/
theorem client (h : Running p) {x : ClientCall} (hx : x.Clean p.world) :
    ∃ p', (RunStep.client x).exec p = some p' ∧ Running p' := by
  obtain ⟨w', hexec, hdone⟩ := h.sane.call hx p.ctx
  refine ⟨_, by rw [RunStep.exec, hexec]; rfl, ⟨hdone.sane, fun hg hdis => ?_,
    fun hg hdis => ?_, fun hg hdis => ?_, fun now hpt hdis => ?_⟩⟩
  all_goals
    have hold := (Bool.or_eq_false_iff.mp hdis).1
    have hlate := of_decide_eq_false (Bool.or_eq_false_iff.mp hdis).2
  · refine (hdone.stopFlag ?_).trans (h.going hg hold)
    rintro rfl
    exact hlate rfl
  · refine (hdone.asyncQueue ?_).trans (h.popped hg hold)
    rintro async rfl
    exact hlate ⟨rfl, hg⟩
  · refine hdone.drained ?_ (h.polled hg hold)
    rintro op rfl
    by_contra hbrings
    exact hlate (Or.inl ⟨hg, Bool.not_eq_false _ ▸ hbrings⟩)
  · refine hdone.timers now ?_ (h.timers now hpt hold)
    rintro op rfl
    by_contra harms
    refine hlate (Or.inr ?_)
    rw [show p.point = .timewait now from hpt]
    exact Bool.not_eq_false _ ▸ harms

/-- **Every step of the loop, and every call between, keeps the
invariant.** -/
theorem exec (h : Running p) {x : RunStep} (hx : x.Fits p) :
    ∃ p', x.exec p = some p' ∧ Running p' := by
  cases x with
  | test => exact h.test hx
  | pop => exact h.pop hx
  | returned => exact h.returned hx
  | dequeue now => exact h.dequeue hx now
  | dispatched r => exact h.dispatched hx r
  | timeout now => exact h.timeout hx.1 hx.2
  | enter => exact h.enter hx
  | wake => exact h.wake hx
  | client x => exact h.client hx

/-- **Where nothing came too late, nothing is ready.** -/
theorem rested (h : Running p) (hp : p.point.isTimewait = true) (hdis : p.disturbed = false) :
    Rested p := by
  cases hpt : p.point with
  | timewait now =>
      exact ⟨h.going (by rw [hpt]; rfl) hdis, h.popped (by rw [hpt]; rfl) hdis,
        h.polled (by rw [hpt]; rfl) hdis, now, hpt, h.timers now hpt hdis⟩
  | _ =>
      rw [hpt] at hp
      cases hp

end Running

/-! ## Runs -/

/-- A run of `ctx_run`. -/
def runCtx (p : CtxRun) (ops : List RunStep) : Option CtxRun := GuardedRun.run RunStep.exec p ops

theorem Booted.running (hw : Booted w) (hclocked : Clocked w) (c : CtxId) (mode : CtxRunMode) :
    Running (CtxRun.start w c mode) where
  sane := ⟨hw.inv, hw.timersOrdered, hclocked⟩
  going := fun h => by cases h
  popped := fun h => by cases h
  polled := fun h => by cases h
  timers := fun _ h => by cases h

/-- **The run loop never sleeps on ready work**, as long as each round that
waits is one in which nothing came too late. -/
theorem runCtx_rested (hw : Booted w) (hclocked : Clocked w) (c : CtxId) (mode : CtxRunMode)
    (ops : List RunStep)
    (hrun : GuardedRun.Guarded RunStep.exec (fun p x => x.Fits p ∧ x.Heeded p)
      (CtxRun.start w c mode) ops) :
    (∃ p, runCtx (CtxRun.start w c mode) ops = some p)
      ∧ ∀ pre post, ops = pre ++ .enter :: post →
        ∃ p, runCtx (CtxRun.start w c mode) pre = some p ∧ Rested p := by
  have total : ∀ {xs : List RunStep}, GuardedRun.Guarded RunStep.exec
      (fun p x => x.Fits p ∧ x.Heeded p) (CtxRun.start w c mode) xs →
      ∃ p, runCtx (CtxRun.start w c mode) xs = some p ∧ Running p := fun hxs =>
    GuardedRun.Guarded.total (fun p x h hx => h.exec (show x.Fits p from hx.1)) _ hxs
      (hw.running hclocked c mode)
  obtain ⟨p, hcall, _⟩ := total hrun
  refine ⟨⟨p, hcall⟩, fun pre post hops => ?_⟩
  rw [hops] at hrun
  obtain ⟨hpre, henter⟩ := GuardedRun.Guarded.split pre hrun
  obtain ⟨p', hcall', h'⟩ := total hpre
  obtain ⟨hfits, hheeded⟩ := henter p' hcall'
  exact ⟨p', hcall', h'.rested hfits hheeded⟩

/-- A callback arms a timer, the only event of the bus is dispatched, and the
loop waits for the timer. Meanwhile `bus_dequeue` of both buses is called, and
returns nothing. -/
theorem runCtx_rested_one :
    (∃ p, runCtx (CtxRun.start (World.fresh .realtime 0 [(4, .service)]
          (fun _ => ⟨1, askEvent, 0, 0⟩)) 0 .default)
        [.client (.post 0 3), .client (.setup 5 .clockLocal 1000 0),
          .client (.bus (.attach 1 0)), .test, .pop, .client (.bus (.addTimer 0 5)), .returned,
          .client (.bus (.push 0 7)), .client (.bus (.addQueue 0 0)), .pop, .dequeue 10,
          .client (.bus (.dequeue 1 5)), .dispatched (some 7), .timeout 10,
          .client (.bus (.dequeue 0 10)), .enter, .wake] = some p)
      ∧ ∀ pre post, [.client (.post 0 3), .client (.setup 5 .clockLocal 1000 0),
          .client (.bus (.attach 1 0)), .test, .pop, .client (.bus (.addTimer 0 5)), .returned,
          .client (.bus (.push 0 7)), .client (.bus (.addQueue 0 0)), .pop, .dequeue 10,
          .client (.bus (.dequeue 1 5)), .dispatched (some 7), .timeout 10,
          .client (.bus (.dequeue 0 10)), .enter, .wake] = pre ++ .enter :: post →
        ∃ p, runCtx (CtxRun.start (World.fresh .realtime 0 [(4, .service)]
          (fun _ => ⟨1, askEvent, 0, 0⟩)) 0 .default) pre = some p ∧ Rested p :=
  runCtx_rested (World.fresh_booted (by simp)) (fun _ => by simp [World.fresh]) 0 .default _
    (by decide +kernel)

/-- A handler calls `ctx_stop`, a second event is in its queue, and the loop
waits for a timer. -/
theorem runCtx_asleep :
    ∃ p, runCtx (CtxRun.start (World.fresh .realtime 0 [(4, .service)]
          (fun _ => ⟨1, askEvent, 0, 0⟩)) 0 .default)
        [.client (.setup 5 .clockLocal 1000 0), .client (.bus (.addTimer 0 5)),
          .client (.bus (.push 0 7)), .client (.bus (.push 0 8)), .client (.bus (.addQueue 0 0)),
          .test, .pop, .dequeue 10, .client (.stop 0), .dispatched (some 7), .timeout 10] = some p
      ∧ GuardedRun.Guarded RunStep.exec (fun p x => x.Fits p)
        (CtxRun.start (World.fresh .realtime 0 [(4, .service)]
          (fun _ => ⟨1, askEvent, 0, 0⟩)) 0 .default)
        [.client (.setup 5 .clockLocal 1000 0), .client (.bus (.addTimer 0 5)),
          .client (.bus (.push 0 7)), .client (.bus (.push 0 8)), .client (.bus (.addQueue 0 0)),
          .test, .pop, .dequeue 10, .client (.stop 0), .dispatched (some 7), .timeout 10, .enter]
      ∧ p.point = .timewait 10 ∧ (p.world.ctxs 0).stopFlag = 1
      ∧ p.world.queueNodes 0 .service = [0] := by
  have hrun : (runCtx (CtxRun.start (World.fresh .realtime 0 [(4, .service)]
      (fun _ => ⟨1, askEvent, 0, 0⟩)) 0 .default)
      [.client (.setup 5 .clockLocal 1000 0), .client (.bus (.addTimer 0 5)),
        .client (.bus (.push 0 7)), .client (.bus (.push 0 8)), .client (.bus (.addQueue 0 0)),
        .test, .pop, .dequeue 10, .client (.stop 0), .dispatched (some 7), .timeout 10]).any
      (fun p => decide (p.point = .timewait 10 ∧ (p.world.ctxs 0).stopFlag = 1
        ∧ p.world.queueNodes 0 .service = [0])) = true := by
    decide +kernel
  rw [Option.any_eq_true] at hrun
  obtain ⟨p, hcall, hp⟩ := hrun
  rw [decide_eq_true_iff] at hp
  exact ⟨p, hcall, by decide +kernel, hp⟩

end Ats
