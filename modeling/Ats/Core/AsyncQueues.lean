import Ats.Core.CtxDestroy
import Ats.Core.Context
import Ats.Lib.Keeps

/-!
# AsyncQueues: what touches an async queue

`ctx_async_post` puts a node into the async queue of its context, `ctx_run`
and `destroy_async_queue` take nodes out, and nothing else in the code writes
one, in whatever state it finds the memory.
-/

namespace Ats

variable {w w' : World} {c d src dst : CtxId} {k : QueueCategory} {j : ClockType} {q : QueueId}
  {t e : EventId} {now : Nat} {x : CtxId → List AsyncId}

/-- The async queues of all contexts. -/
def asyncQueues (w : World) : CtxId → List AsyncId := fun c => (w.ctxs c).asyncQueue

/-- What a call returns beside the memory is no matter here. -/
def asyncQueuesFst {α : Type} (r : World × α) : CtxId → List AsyncId := asyncQueues r.1

@[simp] theorem asyncQueues_updQueue (w : World) (q : QueueId) (f : EventQueue → EventQueue) :
    asyncQueues (w.updQueue q f) = asyncQueues w := rfl

@[simp] theorem asyncQueues_updReminder (w : World) (t : EventId) (f : Reminder → Reminder) :
    asyncQueues (w.updReminder t f) = asyncQueues w := rfl

@[simp] theorem asyncQueues_note (w : World) (a : Act) :
    asyncQueues (w.note a) = asyncQueues w := rfl

/-- A change of another field of a context. -/
@[simp] theorem asyncQueues_updCtx (w : World) (c : CtxId) {f : Ctx → Ctx}
    (hf : ∀ y, (f y).asyncQueue = y.asyncQueue) : asyncQueues (w.updCtx c f) = asyncQueues w :=
  funext fun d => w.updCtx_proj c d Ctx.asyncQueue hf

@[simp] theorem asyncQueues_setQueueMem (w : World) (c : CtxId) (k : QueueCategory)
    (m : HeapMem QueueId) : asyncQueues (w.setQueueMem c k m) = asyncQueues w :=
  asyncQueues_updCtx w c (f := fun y =>
    { y with queueHeap := Function.update y.queueHeap k m.heap }) fun _ => rfl

@[simp] theorem asyncQueues_setTimerMem (w : World) (c : CtxId) (k : ClockType)
    (m : HeapMem EventId) : asyncQueues (w.setTimerMem c k m) = asyncQueues w :=
  asyncQueues_updCtx w c (f := fun y =>
    { y with timerHeap := Function.update y.timerHeap k m.heap }) fun _ => rfl

@[simp] theorem asyncQueues_eventUnref (w : World) (e : EventId) :
    asyncQueues (eventUnref w e) = asyncQueues w := by
  rw [eventUnref_rest]
  rfl

@[simp] theorem asyncQueues_queueStart (w : World) (c : CtxId) (q : QueueId) :
    asyncQueues (queueStart w c q) = asyncQueues w := by
  simp [queueStart]

@[simp] theorem asyncQueues_eventQueuePop (w : World) (q : QueueId) :
    asyncQueues (eventQueuePop w q).1 = asyncQueues w := rfl

/-! ## Queues -/

theorem eventQueueDrain_asyncs : ∀ (fuel : Nat) {w : World}, asyncQueues w = x →
    Keeps x asyncQueues (eventQueueDrain fuel w q) := by
  intro fuel
  induction fuel with
  | zero => exact fun _ => Keeps.none
  | succ fuel ih =>
      intro w hw
      have hpop := (asyncQueues_eventQueuePop w q).trans hw
      rw [eventQueueDrain]
      split
      case h_1 v hv =>
        rw [hv] at hpop
        exact Keeps.some hpop
      case h_2 v e hv =>
        rw [hv] at hpop
        exact ih ((asyncQueues_eventUnref v e).trans hpop)

theorem eventQueueDestroy_asyncs (hw : asyncQueues w = x) :
    Keeps x asyncQueues (eventQueueDestroy w q) :=
  (eventQueueDrain_asyncs _ hw).bind fun _ hv => Keeps.read fun _ => Keeps.some hv

theorem eventQueueUnref_asyncs (hw : asyncQueues w = x) :
    Keeps x asyncQueues (eventQueueUnref w q) :=
  Keeps.ite
    (fun _ => (eventQueueDestroy_asyncs (by simpa using hw)).bind fun _ hv => Keeps.some hv)
    (fun _ => Keeps.some hw)

theorem eventQueuePush_asyncs (hw : asyncQueues w = x) :
    Keeps x asyncQueuesFst (eventQueuePush w q e) := by
  have happend : asyncQueues (eventQueueAppend w q e).1 = x := by
    rw [eventQueueAppend]
    dsimp only
    split
    · exact hw
    · exact hw
  have hnotify : ∀ isEmpty ret, Keeps x asyncQueues
      (eventQueueNotify (eventQueueAppend w q e).1 q isEmpty ret) := by
    intro isEmpty ret
    unfold eventQueueNotify
    split
    · exact Keeps.ite (fun _ => Keeps.some (by simpa [busAsyncAddQueue] using happend))
        fun _ => Keeps.none
    · exact Keeps.some happend
  exact (hnotify _ _).bind fun v hv => Keeps.some hv

/-! ## Heaps -/

theorem queueHeapInsert_asyncs (hw : asyncQueues w = x) :
    Keeps x asyncQueues (queueHeapInsert w c k q) :=
  Keeps.read fun _ => Keeps.some (by simpa using hw)

theorem queueHeapRemove_asyncs (hw : asyncQueues w = x) :
    Keeps x asyncQueues (queueHeapRemove w c k q) :=
  Keeps.read fun _ => Keeps.some (by simpa using hw)

theorem timerHeapInsert_asyncs (hw : asyncQueues w = x) :
    Keeps x asyncQueues (timerHeapInsert w c j t) :=
  Keeps.read fun _ => Keeps.some (by simpa using hw)

theorem timerHeapRemove_asyncs (hw : asyncQueues w = x) :
    Keeps x asyncQueues (timerHeapRemove w c j t) :=
  Keeps.read fun _ => Keeps.some (by simpa using hw)

theorem pipePop_asyncs (w : World) (q : QueueId) :
    asyncQueues (pipePop w q).1 = asyncQueues w := by
  have hpop := asyncQueues_eventQueuePop w q
  rw [pipePop]
  split
  case h_1 v e hv =>
    rw [hv] at hpop
    exact hpop
  case h_2 v hv =>
    rw [hv] at hpop
    exact hpop

theorem eventPopFormPipe_asyncs (hw : asyncQueues w = x) :
    Keeps x asyncQueuesFst (eventPopFormPipe w c k) := by
  rw [eventPopFormPipe]
  split
  case h_1 => exact Keeps.some hw
  case h_2 p hp =>
    refine (queueHeapRemove_asyncs hw).bind fun v hv => ?_
    have hpop := (pipePop_asyncs v p).trans hv
    dsimp only
    refine Keeps.ite (fun _ => Keeps.some hpop) fun _ => ?_
    refine Keeps.bind (f := asyncQueues) (Keeps.read fun d => ?_) fun u hu => Keeps.some hu
    exact queueHeapInsert_asyncs (by simpa using hpop)

theorem timerHeapPop_asyncs (hw : asyncQueues w = x) :
    Keeps x asyncQueuesFst (timerHeapPop w c j) := by
  rw [timerHeapPop]
  split
  · exact Keeps.some hw
  · refine (timerHeapRemove_asyncs hw).bind fun v hv => ?_
    refine Keeps.ite (fun _ => ?_) fun _ => Keeps.some hv
    refine Keeps.bind (f := asyncQueues) (Keeps.read fun d => ?_) fun u hu => Keeps.some hu
    exact timerHeapInsert_asyncs (by simpa using hv)

/-! ## `event_bus.c` -/

theorem busAddQueue_asyncs (hw : asyncQueues w = x) :
    Keeps x asyncQueues (busAddQueue w c q) := by
  rw [busAddQueue]
  refine Keeps.bind (f := asyncQueues) ?_ fun v hv =>
    Keeps.ite (fun _ => Keeps.some hv) fun _ => queueHeapInsert_asyncs hv
  exact Keeps.ite (fun _ => Keeps.some (by simpa using hw)) fun _ => Keeps.none

theorem busAddTimer_asyncs (hw : asyncQueues w = x) :
    Keeps x asyncQueues (busAddTimer w c t) := timerHeapInsert_asyncs (by simpa using hw)

theorem busSetTime_asyncs (w : World) (c : CtxId) (time : Nat) :
    asyncQueues (busSetTime w c time).1 = asyncQueues w := by
  rw [busSetTime]
  split
  · rfl
  · split
    · rfl
    · simp

theorem busSetExchangeTime_asyncs (w : World) (c : CtxId) (time : Nat) :
    asyncQueues (busSetExchangeTime w c time).1 = asyncQueues w := by
  rw [busSetExchangeTime]
  split
  · rfl
  · simp

theorem checkPendingLoop_asyncs : ∀ (n : Nat) {w : World}, asyncQueues w = x →
    Keeps x asyncQueues (checkPendingLoop n w c) := by
  intro n
  induction n with
  | zero => exact fun hw => Keeps.some hw
  | succ n ih =>
      intro w hw
      rw [checkPendingLoop]
      split
      · exact Keeps.some hw
      · exact (busAddQueue_asyncs (by simpa using hw)).bind fun v hv => ih hv

theorem busSave_asyncs (w : World) (c : CtxId) (q : QueueId) (e : EventId) :
    asyncQueues (busSave w c q e) = asyncQueues w := by simp [busSave]

theorem busSimulationAccept_asyncs (w : World) (c : CtxId) (now : Nat) (q : QueueId)
    (e : EventId) : asyncQueues (busSimulationAccept w c now q e).1 = asyncQueues w := by
  rw [busSimulationAccept]
  dsimp only
  split
  · simp
  · split
    · split
      · rfl
      · exact busSave_asyncs _ c q e
    · exact busSave_asyncs w c q e

theorem busSimulationMarket_asyncs : ∀ (fuel : Nat) {w : World}, asyncQueues w = x →
    Keeps x asyncQueues (busSimulationMarket fuel w c now) := by
  intro fuel
  induction fuel with
  | zero => exact fun _ => Keeps.none
  | succ fuel ih =>
      intro w hw
      rw [busSimulationMarket]
      refine Keeps.ite (fun _ => Keeps.read fun q => ?_) fun _ => Keeps.some hw
      refine (eventPopFormPipe_asyncs hw).bind fun r hr => Keeps.read fun e => ?_
      have haccept := (busSimulationAccept_asyncs r.1 c now q e).trans hr
      split
      case h_1 v hv =>
        rw [hv] at haccept
        exact ih haccept
      case h_2 v hv =>
        rw [hv] at haccept
        exact Keeps.some haccept

theorem busReturnTimer_asyncs (hw : asyncQueues w = x) :
    Keeps x asyncQueuesFst (busReturnTimer w c j) :=
  Keeps.read fun _ => (timerHeapPop_asyncs hw).bind fun _ hr => Keeps.some hr

theorem busReturnPipe_asyncs (hw : asyncQueues w = x) :
    Keeps x asyncQueuesFst (busReturnPipe w c k) := by
  refine Keeps.read fun q => (eventPopFormPipe_asyncs hw).bind fun r hr => ?_
  dsimp only
  split
  · exact Keeps.some hr
  · exact Keeps.some hr

theorem busUnsave_asyncs (hw : asyncQueues w = x) :
    Keeps x asyncQueuesFst (busUnsave w c) :=
  Keeps.read fun _ => Keeps.read fun _ => Keeps.some (by simpa [asyncQueuesFst] using hw)

theorem busForward_asyncs (hw : asyncQueues w = x) :
    Keeps x asyncQueues (busForward w c e) := by
  refine Keeps.foldlM (fun v i hv => ?_) _ hw
  rw [busForwardOne]
  dsimp only
  refine Keeps.ite (fun _ => Keeps.read fun q => ?_) fun _ => Keeps.some hv
  exact Keeps.bind (f := asyncQueuesFst) (eventQueuePush_asyncs hv) fun r hr => Keeps.some hr

theorem busRealtimeMarket_asyncs (hw : asyncQueues w = x) :
    Keeps x asyncQueues (busRealtimeMarket w c) := by
  refine Keeps.ite (fun _ => Keeps.read fun q => ?_) fun _ => Keeps.some hw
  refine (eventPopFormPipe_asyncs hw).bind fun r hr => ?_
  dsimp only
  split
  · exact Keeps.some hr
  · exact Keeps.some ((busSave_asyncs _ c q _).trans hr)

theorem busDequeue_asyncs (hw : asyncQueues w = x) :
    Keeps x asyncQueuesFst (busDequeue w c now) := by
  refine (checkPendingLoop_asyncs _ hw).bind fun v hv => ?_
  split
  · refine (busSimulationMarket_asyncs _ hv).bind fun u hu => ?_
    rw [busSimulationServe]
    split
    · exact busReturnTimer_asyncs hu
    · exact busReturnPipe_asyncs hu
    · exact (busUnsave_asyncs hu).bind fun r hr =>
        (busForward_asyncs hr).bind fun _ hz => Keeps.some hz
    · exact Keeps.some hu
  · refine (busRealtimeMarket_asyncs hv).bind fun u hu => ?_
    rw [busRealtimeServe]
    split
    · exact busReturnTimer_asyncs hu
    · exact busReturnPipe_asyncs hu
    · exact (busUnsave_asyncs hu).bind fun r hr => Keeps.some hr
    · exact Keeps.some hu

theorem busAttach_asyncs (hw : asyncQueues w = x) :
    Keeps x asyncQueues (busAttach w src dst) := by
  refine Keeps.ite (fun _ => Keeps.none) fun _ => ?_
  refine Keeps.bind (f := asyncQueues) ?_ fun v hv => busAddQueue_asyncs hv
  refine Keeps.read fun _ => Keeps.some ?_
  rw [asyncQueues_updQueue, asyncQueues_updCtx]
  · exact hw
  · exact fun _ => rfl

theorem busDetachLoop_asyncs : ∀ (fuel : Nat) {w : World} (i : Nat), asyncQueues w = x →
    Keeps x asyncQueues (busDetachLoop fuel w src dst i) := by
  intro fuel
  induction fuel with
  | zero => exact fun _ _ => Keeps.none
  | succ fuel ih =>
      intro w i hw
      rw [busDetachLoop]
      refine Keeps.ite (fun _ => Keeps.read fun q => ?_) fun _ => Keeps.some hw
      refine Keeps.ite (fun _ => ?_) fun _ => ih (i + 1) hw
      exact (queueHeapRemove_asyncs hw).bind fun v hv =>
        ih (i + 1) (by simpa [attachedShift] using hv)

theorem queueHeapClear_asyncs : ∀ (fuel : Nat) {w : World}, asyncQueues w = x →
    Keeps x asyncQueues (queueHeapClear fuel w c k) := by
  intro fuel
  induction fuel with
  | zero => exact fun _ => Keeps.none
  | succ fuel ih =>
      intro w hw
      rw [queueHeapClear]
      split
      · exact Keeps.some hw
      · exact (queueHeapRemove_asyncs hw).bind fun v hv =>
          (eventQueueUnref_asyncs hv).bind fun u hu => ih hu

theorem timerHeapClear_asyncs : ∀ (fuel : Nat) {w : World}, asyncQueues w = x →
    Keeps x asyncQueues (timerHeapClear fuel w c j) := by
  intro fuel
  induction fuel with
  | zero => exact fun _ => Keeps.none
  | succ fuel ih =>
      intro w hw
      rw [timerHeapClear]
      split
      · exact Keeps.some hw
      · exact (timerHeapRemove_asyncs hw).bind fun v hv => ih (by simpa using hv)

theorem busClearAttached_asyncs : ∀ (fuel : Nat) {w : World} (i : Nat), asyncQueues w = x →
    Keeps x asyncQueues (busClearAttached fuel w c i) := by
  intro fuel
  induction fuel with
  | zero => exact fun _ _ => Keeps.none
  | succ fuel ih =>
      intro w i hw
      rw [busClearAttached]
      refine Keeps.ite (fun _ => Keeps.read fun q => Keeps.read fun d => ?_)
        fun _ => Keeps.some hw
      exact (busDetachLoop_asyncs _ 0 hw).bind fun v hv =>
        (eventQueueDestroy_asyncs hv).bind fun u hu => ih (i + 1) hu

/-- **`bus_clear` takes no callback with it.** -/
theorem busClear_asyncs (hw : asyncQueues w = x) : Keeps x asyncQueues (busClear w c) := by
  have hsaved : asyncQueues (busClearSaved w c) = x := by
    rw [busClearSaved]
    split
    · exact hw
    · simpa using hw
  refine (Keeps.foldlM (fun v k hv => queueHeapClear_asyncs _ hv) _ hsaved).bind fun v hv => ?_
  refine (Keeps.foldlM (fun u j hu => timerHeapClear_asyncs _ hu) _ hv).bind fun u hu => ?_
  exact (busClearAttached_asyncs _ 0 hu).bind fun z hz => Keeps.some (by simpa using hz)

/-! ## Calls -/

/-- **No call of the bus touches an async queue.** -/
theorem BusOp.exec_asyncs (hw : asyncQueues w = x) (op : BusOp) :
    Keeps x asyncQueuesFst (op.exec w) := by
  cases op with
  | addQueue c q => exact (busAddQueue_asyncs hw).map fun _ hv => hv
  | removeQueue c q => exact (queueHeapRemove_asyncs hw).map fun _ hv => hv
  | push q e => exact (eventQueuePush_asyncs hw).map fun _ hv => hv
  | addTimer c t => exact (busAddTimer_asyncs hw).map fun _ hv => hv
  | removeTimer c t => exact (timerHeapRemove_asyncs hw).map fun _ hv => hv
  | attach src dst => exact (busAttach_asyncs hw).map fun _ hv => hv
  | detach src dst => exact (busDetachLoop_asyncs _ 0 hw).map fun _ hv => hv
  | setTime c time => exact Keeps.some ((busSetTime_asyncs w c time).trans hw)
  | setExchangeTime c time => exact Keeps.some ((busSetExchangeTime_asyncs w c time).trans hw)
  | dequeue c now => exact (busDequeue_asyncs hw).map fun _ hv => hv

/-- **A post is the only call that does.** -/
theorem ClientCall.exec_asyncs (x : ClientCall) :
    Keeps (match x with
        | .post d async => Function.update (asyncQueues w) d (asyncQueues w d ++ [async])
        | _ => asyncQueues w) asyncQueues (x.exec w) := by
  cases x with
  | bus op => exact (BusOp.exec_asyncs rfl op).map fun _ hv => hv
  | setup t clockType timeout rep => exact Keeps.some rfl
  | ref e => exact Keeps.some rfl
  | unref e => exact Keeps.some (asyncQueues_eventUnref w e)
  | stop d => exact Keeps.some (by simp [ctxStop])
  | post d async =>
      refine Keeps.some (funext fun c => ?_)
      by_cases hc : c = d
      · subst hc
        simp [asyncQueues, ctxAsyncPost, World.updCtx]
      · simp [asyncQueues, ctxAsyncPost, World.updCtx, hc]

end Ats
