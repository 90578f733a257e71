import Ats.Core.AsyncQueues
import Ats.Lib.GuardedRun

/-!
# Async: the nodes of `ctx_async_post`

A node is allocated by the post, handed to its callback by `ctx_run`, or
found in the queue by `ctx_destroy`. Only `destroy_async_queue` frees one.
-/

namespace Ats

open GuardedRun

variable {w w' : World} {c d : CtxId} {a : AsyncId}

/-! ## `destroy_async_queue` -/

/-- `loop_init`, less the mutex and the condition. -/
def loopInit (w : World) (c : CtxId) : World :=
  w.updCtx c fun x => { x with stopFlag := 0, asyncQueue := [] }

/-- `destroy_async_queue`, with the nodes that it frees; a FIFO of `n` nodes
takes `n` rounds. -/
def destroyAsyncQueue : Nat → World → CtxId → World × List AsyncId
  | 0, w, _ => (w, [])
  | n + 1, w, c =>
      match (w.ctxs c).asyncQueue with
      | [] => (w, [])
      | async :: rest =>
          let (w, freed) := destroyAsyncQueue n
            (w.updCtx c fun x => { x with asyncQueue := rest }) c
          (w, async :: freed)

/-- **`destroy_async_queue` frees what is in the queue**, and leaves it
empty. -/
theorem destroyAsyncQueue_eq : ∀ (n : Nat) {w : World}, (w.ctxs c).asyncQueue.length ≤ n →
    destroyAsyncQueue n w c = (loopDestroy w c, (w.ctxs c).asyncQueue) := by
  have hnil : ∀ {w : World}, (w.ctxs c).asyncQueue = [] → loopDestroy w c = w := by
    intro w hw
    rw [loopDestroy, World.updCtx, ← hw]
    simp
  intro n
  induction n with
  | zero =>
      intro w hlen
      have hw := List.eq_nil_of_length_eq_zero (Nat.le_zero.mp hlen)
      rw [destroyAsyncQueue, hw, hnil hw]
  | succ n ih =>
      intro w hlen
      rw [destroyAsyncQueue]
      split
      case h_1 hw => rw [hw, hnil hw]
      case h_2 async rest hw =>
        rw [hw] at hlen
        rw [ih (by simpa [World.updCtx] using hlen), hw]
        simp [loopDestroy, World.updCtx]

/-! ## The life of a loop -/

/-- **The run loop of a context, and its nodes**: those that were posted,
those whose callback has been called, and those that were freed, in order. -/
structure AsyncLife where
  loop : CtxRun
  posted : List AsyncId
  ran : List AsyncId
  freed : List AsyncId

/-- The nodes in the queue. -/
def AsyncLife.waiting (p : AsyncLife) : List AsyncId := asyncQueues p.loop.world p.loop.ctx

/-- `ctx_init` has been called, and `ctx_run` has not. -/
def AsyncLife.start (w : World) (c : CtxId) : AsyncLife :=
  ⟨⟨loopInit w c, c, .default, .done, false⟩, [], [], []⟩

/-- What happens to a loop. -/
inductive AsyncOp
  /-- `ctx_run(ctx, mode)` is called -/
  | run (mode : CtxRunMode)
  /-- the loop takes a step, or a client calls -/
  | step (x : RunStep)

/-- The node that `ctx_async_post` puts into the queue of `c`. -/
def RunStep.posts (c : CtxId) : RunStep → List AsyncId
  | .client (.post d async) => if d = c then [async] else []
  | _ => []

/-- The node whose callback a pop that leads to `point` calls. -/
def RunStep.calls (point : RunPoint) : RunStep → List AsyncId
  | .pop =>
      match point with
      | .callback async => [async]
      | _ => []
  | _ => []

/-- `ctx_run` frees nothing: the node that it has popped goes out of reach. -/
def AsyncOp.exec (p : AsyncLife) : AsyncOp → Option AsyncLife
  | .run mode =>
      match p.loop.point with
      | .done => some { p with loop := CtxRun.start p.loop.world p.loop.ctx mode }
      | _ => none
  | .step x => do
      let loop ← x.exec p.loop
      some { p with
        loop
        posted := p.posted ++ x.posts p.loop.ctx
        ran := p.ran ++ x.calls loop.point }

/-- `ctx_destroy` once no `ctx_run` is on its way, where the dispatcher of the
context is `s`. -/
def AsyncLife.destroy (p : AsyncLife) (s : Dispatching) : Option AsyncLife :=
  match p.loop.point with
  | .done => do
      let s ← { s with world := p.loop.world }.dispatcherDestroy
      let w ← busClear s.world p.loop.ctx
      let (w, freed) := destroyAsyncQueue (w.ctxs p.loop.ctx).asyncQueue.length w p.loop.ctx
      some { p with loop := { p.loop with world := w }, freed := p.freed ++ freed }
  | _ => none

/-- A post brings a new node: `ats_malloc` returns none that is in use, and
none has been freed. -/
def AsyncOp.Fresh (p : AsyncLife) : AsyncOp → Prop
  | .step x => ∀ async ∈ x.posts p.loop.ctx, async ∉ p.posted
  | .run _ => True

/-- The loop looks into the async queue only where nothing is in it. -/
def AsyncOp.FindsNone (p : AsyncLife) : AsyncOp → Prop
  | .step .pop => p.waiting = []
  | _ => True

instance AsyncOp.Fresh.decide (p : AsyncLife) : (op : AsyncOp) → Decidable (op.Fresh p)
  | .step x => inferInstanceAs (Decidable (∀ async ∈ x.posts p.loop.ctx, async ∉ p.posted))
  | .run _ => inferInstanceAs (Decidable True)

instance AsyncOp.FindsNone.decide (p : AsyncLife) : (op : AsyncOp) → Decidable (op.FindsNone p)
  | .step .pop => inferInstanceAs (Decidable (p.waiting = []))
  | .step .test | .step .returned | .step (.dequeue _) | .step (.dispatched _)
  | .step (.timeout _) | .step .enter | .step .wake | .step (.client _) | .run _ =>
      inferInstanceAs (Decidable True)

/-- **Callbacks are called in the order of their posts, each at most once**,
and where the loop finds its queue empty every post has been served. -/
structure RunInOrder (p : AsyncLife) : Prop where
  order : p.ran <+: p.posted
  once : p.ran.Nodup
  drained : ∀ p', (AsyncOp.step .pop).exec p = some p' → p'.loop.point = .poll →
    p'.ran = p'.posted

/-- **Each node is freed exactly once.** -/
def ReleasedOnce (p : AsyncLife) : Prop := ∀ async ∈ p.posted, p.freed.count async = 1

/-! ## What a step does to the nodes -/

theorem asyncQueues_updCtx_self (w : World) (c : CtxId) (xs : List AsyncId) :
    asyncQueues (w.updCtx c fun x => { x with asyncQueue := xs }) c = xs := by
  simp [asyncQueues, World.updCtx]

/-- **A pop** finds nothing, or calls the callback of the oldest node. -/
theorem RunStep.exec_pop {p p' : CtxRun} (h : RunStep.pop.exec p = some p') :
    p'.ctx = p.ctx
      ∧ (asyncQueues p.world p.ctx = [] ∧ p' = { p with point := .poll }
        ∨ ∃ async rest, asyncQueues p.world p.ctx = async :: rest
          ∧ p'.point = .callback async ∧ asyncQueues p'.world p.ctx = rest) := by
  rw [RunStep.exec] at h
  split at h
  · split at h
    case h_1 hq =>
      cases h
      exact ⟨rfl, .inl ⟨hq, rfl⟩⟩
    case h_2 async rest hq =>
      cases h
      exact ⟨rfl, .inr ⟨async, rest, hq, rfl, asyncQueues_updCtx_self p.world p.ctx rest⟩⟩
  · cases h

/-- **Any other step** adds what it posts. -/
theorem RunStep.exec_other {p p' : CtxRun} {x : RunStep} (hx : x ≠ .pop)
    (h : x.exec p = some p') : p'.ctx = p.ctx
      ∧ asyncQueues p'.world p.ctx = asyncQueues p.world p.ctx ++ x.posts p.ctx := by
  cases x with
  | pop => exact absurd rfl hx
  | test | returned | timeout now | enter | wake =>
      rw [RunStep.exec] at h
      split at h <;> cases h
      exact ⟨rfl, (List.append_nil _).symm⟩
  | dequeue now =>
      rw [RunStep.exec] at h
      split at h
      · obtain ⟨⟨v, e⟩, hcall, hrest⟩ := Option.bind_eq_some_iff.mp h
        have hv : asyncQueues v = asyncQueues p.world := busDequeue_asyncs rfl _ hcall
        dsimp only at hrest
        split at hrest <;> cases hrest
        · exact ⟨rfl, by rw [hv]; exact (List.append_nil _).symm⟩
        · exact ⟨rfl, by rw [hv]; exact (List.append_nil _).symm⟩
      · cases h
  | dispatched r =>
      simp only [RunStep.exec] at h
      split at h <;> cases h
      refine ⟨rfl, ?_⟩
      cases r with
      | none => exact (List.append_nil _).symm
      | some s => simp [RunStep.posts]
  | client x =>
      obtain ⟨v, hcall, hrest⟩ := Option.bind_eq_some_iff.mp h
      cases hrest
      refine ⟨rfl, ?_⟩
      have hv := congrFun (ClientCall.exec_asyncs x v hcall) p.ctx
      cases x with
      | post d async =>
          rw [hv]
          by_cases hd : d = p.ctx
          · subst hd
            simp [RunStep.posts]
          · simp [RunStep.posts, hd, Ne.symm hd]
      | _ => simpa [RunStep.posts] using hv

/-- What holds of the nodes as long as the context lives. -/
structure AsyncInv (p : AsyncLife) : Prop where
  line : p.posted = p.ran ++ p.waiting
  nodup : p.posted.Nodup
  freed : p.freed = []

/-- **Every step keeps the nodes in line**, and lets a callback run only where
it finds a node. -/
theorem AsyncInv.exec {p p' : AsyncLife} {op : AsyncOp} (hi : AsyncInv p) (hop : op.Fresh p)
    (h : op.exec p = some p') :
    AsyncInv p' ∧ p.ran.length ≤ p'.ran.length
      ∧ (p'.ran.length = p.ran.length ↔ op.FindsNone p) := by
  cases op with
  | run mode =>
      rw [AsyncOp.exec] at h
      split at h <;> cases h
      exact ⟨⟨hi.line, hi.nodup, hi.freed⟩, Nat.le_refl _, iff_of_true rfl trivial⟩
  | step x =>
      obtain ⟨loop, hcall, hrest⟩ := Option.bind_eq_some_iff.mp h
      cases hrest
      by_cases hx : x = .pop
      · subst hx
        obtain ⟨hctx, ⟨hq, rfl⟩ | ⟨async, rest, hq, hpoint, hrest⟩⟩ := RunStep.exec_pop hcall
        · have hnone : AsyncOp.FindsNone p (.step .pop) := hq
          refine ⟨⟨?_, ?_, hi.freed⟩, ?_, iff_of_true ?_ hnone⟩
          · simpa [RunStep.posts, RunStep.calls, AsyncLife.waiting] using hi.line
          · simpa [RunStep.posts] using hi.nodup
          · simp [RunStep.calls]
          · simp [RunStep.calls]
        · have hsome : ¬ AsyncOp.FindsNone p (.step .pop) := by
            intro hnone
            rw [show asyncQueues p.loop.world p.loop.ctx = [] from hnone] at hq
            cases hq
          refine ⟨⟨?_, ?_, hi.freed⟩, ?_, iff_of_false ?_ hsome⟩
          · have hline := hi.line
            rw [show p.waiting = async :: rest from hq] at hline
            have hleft : asyncQueues loop.world loop.ctx = rest := by rw [hctx, hrest]
            simp [RunStep.posts, RunStep.calls, hpoint, hline, AsyncLife.waiting, hleft]
          · simpa [RunStep.posts] using hi.nodup
          · simp
          · simp [RunStep.calls, hpoint]
      · obtain ⟨hctx, hq⟩ := RunStep.exec_other hx hcall
        have hcalls : x.calls loop.point = [] := by
          cases x with
          | pop => exact absurd rfl hx
          | _ => rfl
        have hnone : AsyncOp.FindsNone p (.step x) := by
          cases x with
          | pop => exact absurd rfl hx
          | _ => trivial
        refine ⟨⟨?_, ?_, hi.freed⟩, ?_, iff_of_true ?_ hnone⟩
        · have hleft : asyncQueues loop.world loop.ctx = p.waiting ++ x.posts p.loop.ctx := by
            rw [hctx, hq]
            rfl
          simp [AsyncLife.waiting, hcalls, hleft, hi.line]
        · refine List.nodup_append.mpr ⟨hi.nodup, ?_, fun b hb async ha hab => ?_⟩
          · unfold RunStep.posts
            split
            · split <;> simp
            · simp
          · exact hop async ha (hab ▸ hb)
        · simp [hcalls]
        · simp [hcalls]

theorem AsyncInv.start (w : World) (c : CtxId) : AsyncInv (AsyncLife.start w c) where
  line := by simp [AsyncLife.start, AsyncLife.waiting, asyncQueues, loopInit, World.updCtx]
  nodup := List.nodup_nil
  freed := rfl

/-- **The callbacks of a loop are in order.** -/
theorem AsyncInv.inOrder {p : AsyncLife} (hi : AsyncInv p) : RunInOrder p where
  order := ⟨p.waiting, hi.line.symm⟩
  once := (List.nodup_append.mp (hi.line ▸ hi.nodup)).1
  drained := fun p' h hpoint => by
    obtain ⟨loop, hcall, hrest⟩ := Option.bind_eq_some_iff.mp h
    cases hrest
    obtain ⟨_, ⟨hq, rfl⟩ | ⟨async, rest, _, hcallback, _⟩⟩ := RunStep.exec_pop hcall
    · have hline := hi.line
      rw [show p.waiting = [] from hq, List.append_nil] at hline
      simp [RunStep.posts, RunStep.calls, hline]
    · rw [hcallback] at hpoint
      cases hpoint

/-! ## `ctx_destroy` -/

/-- What `ctx_destroy` comes to: it clears the bus, and frees what is in the
queue. -/
theorem AsyncLife.destroy_eq {p p' : AsyncLife} {s : Dispatching} (h : p.destroy s = some p') :
    { s with world := p.loop.world }.dispatcherDestroy = some { s with world := p.loop.world }
      ∧ ∃ v, busClear p.loop.world p.loop.ctx = some v
        ∧ p' = { p with
            loop := { p.loop with world := loopDestroy v p.loop.ctx }
            freed := p.freed ++ asyncQueues v p.loop.ctx } := by
  rw [AsyncLife.destroy] at h
  split at h
  · obtain ⟨u, hdisp, h⟩ := Option.bind_eq_some_iff.mp h
    obtain ⟨v, hclear, h⟩ := Option.bind_eq_some_iff.mp h
    rw [destroyAsyncQueue_eq _ (Nat.le_refl _)] at h
    cases h
    have hu : u = { s with world := p.loop.world } := by
      obtain ⟨_, _, hu⟩ := Option.bind_eq_some_iff.mp hdisp
      exact (Option.some.inj hu).symm
    subst hu
    exact ⟨hdisp, v, hclear, rfl⟩
  · cases h

/-- `AsyncLife.destroy` is `ctx_destroy`. -/
theorem AsyncLife.ctxDestroy_of_destroy {p p' : AsyncLife} {s : Dispatching}
    (h : p.destroy s = some p') : ctxDestroy { s with world := p.loop.world } p.loop.ctx
      = some { s with world := p'.loop.world } := by
  obtain ⟨hdisp, v, hclear, rfl⟩ := AsyncLife.destroy_eq h
  rw [ctxDestroy, hdisp, Option.bind_eq_bind, Option.bind_some, hclear]
  rfl

/-- **`ctx_destroy` frees what never ran.** -/
theorem AsyncInv.destroy {p p' : AsyncLife} {s : Dispatching} (hi : AsyncInv p)
    (h : p.destroy s = some p') :
    p'.posted = p.posted ∧ p'.ran = p.ran ∧ p'.posted = p'.ran ++ p'.freed := by
  obtain ⟨-, v, hclear, rfl⟩ := AsyncLife.destroy_eq h
  have hwait : asyncQueues v p.loop.ctx = p.waiting :=
    congrFun (busClear_asyncs rfl v hclear) p.loop.ctx
  refine ⟨rfl, rfl, ?_⟩
  rw [hi.freed, List.nil_append, hwait]
  exact hi.line

/-- The nodes that were freed are those that were posted, just where no
callback has run. -/
theorem releasedOnce_iff_ran {p : AsyncLife} (hnodup : p.posted.Nodup)
    (hline : p.posted = p.ran ++ p.freed) : ReleasedOnce p ↔ p.ran = [] := by
  constructor
  · intro h
    by_contra hran
    obtain ⟨async, hmem⟩ := List.exists_mem_of_ne_nil _ hran
    rw [hline] at hnodup
    have hnot : async ∉ p.freed := fun hf =>
      (List.nodup_append.mp hnodup).2.2 async hmem async hf rfl
    have hone := h async (by rw [hline]; exact List.mem_append_left _ hmem)
    rw [List.count_eq_zero_of_not_mem hnot] at hone
    cases hone
  · intro hran async hmem
    rw [hran, List.nil_append] at hline
    rw [← hline]
    exact List.count_eq_one_of_mem hnodup hmem

/-- **Callbacks run in order and at most once, and `ctx_destroy` frees each
node that is left; but the nodes whose callbacks ran are never freed**, so
each node is freed once just where no loop ever found one. -/
theorem asyncRun_releasedOnce_iff {w : World} {c : CtxId} {ops : List AsyncOp} {p : AsyncLife}
    (hfresh : Guarded AsyncOp.exec AsyncOp.Fresh (AsyncLife.start w c) ops)
    (hrun : run AsyncOp.exec (AsyncLife.start w c) ops = some p) :
    RunInOrder p ∧ ∀ s p', p.destroy s = some p' →
      p'.posted = p.posted ∧ p'.posted = p'.ran ++ p'.freed
      ∧ (ReleasedOnce p' ↔
        Guarded AsyncOp.exec AsyncOp.FindsNone (AsyncLife.start w c) ops) := by
  have hstep : ∀ (q : AsyncLife) op q', AsyncInv q → op.Fresh q → AsyncOp.exec q op = some q' →
      AsyncInv q' ∧ (q.ran.length : Int) ≤ q'.ran.length
        ∧ ((q'.ran.length : Int) = q.ran.length ↔ op.FindsNone q) := by
    intro q op q' hq hop h
    obtain ⟨hq', hle, hiff⟩ := hq.exec hop h
    exact ⟨hq', Int.ofNat_le.mpr hle, Int.ofNat_inj.trans hiff⟩
  obtain ⟨hi, _, hiff⟩ := Guarded.measure hstep ops hfresh hrun (AsyncInv.start w c)
  refine ⟨hi.inOrder, fun s p' hdestroy => ?_⟩
  obtain ⟨hposted, hran, hline⟩ := hi.destroy hdestroy
  refine ⟨hposted, hline, ?_⟩
  rw [releasedOnce_iff_ran (hposted ▸ hi.nodup) hline, hran, ← hiff]
  simp [AsyncLife.start]

/-- A callback posts while the loop drains the queue, and a post comes after
the loop has ended. -/
theorem asyncRun_releasedOnce_iff_posts :
    ∃ p, run AsyncOp.exec (AsyncLife.start restingCtx.world 0)
        [.step (.client (.post 0 7)), .run .nowait, .step .test, .step .pop,
          .step (.client (.post 0 8)), .step .returned, .step .pop, .step .returned, .step .pop,
          .step (.dequeue 0), .step (.timeout 0), .step (.client (.post 0 9))] = some p
      ∧ RunInOrder p ∧ ∀ s p', p.destroy s = some p' →
        p'.posted = p.posted ∧ p'.posted = p'.ran ++ p'.freed
        ∧ (ReleasedOnce p' ↔ Guarded AsyncOp.exec AsyncOp.FindsNone
          (AsyncLife.start restingCtx.world 0)
          [.step (.client (.post 0 7)), .run .nowait, .step .test, .step .pop,
            .step (.client (.post 0 8)), .step .returned, .step .pop, .step .returned, .step .pop,
            .step (.dequeue 0), .step (.timeout 0), .step (.client (.post 0 9))]) :=
  ⟨_, rfl, asyncRun_releasedOnce_iff (by decide +kernel) rfl⟩

/-- One post, one round of the loop, and `ctx_destroy`: the node is never
freed. -/
theorem asyncRun_leaks :
    ¬ ∀ (w : World) (c : CtxId) (ops : List AsyncOp) (s : Dispatching) (p p' : AsyncLife),
      Guarded AsyncOp.exec AsyncOp.Fresh (AsyncLife.start w c) ops →
      run AsyncOp.exec (AsyncLife.start w c) ops = some p → p.destroy s = some p' →
      RunInOrder p ∧ ReleasedOnce p' := by
  intro hall
  obtain ⟨_, hreleased⟩ := hall restingCtx.world 0
    [.step (.client (.post 0 7)), .run .nowait, .step .test, .step .pop, .step .returned,
      .step .pop, .step (.dequeue 0), .step (.timeout 0)]
    { restingCtx with buffedEventQueue := ⟨102400, fun _ => none, 0, 0⟩ } _ _
    (by decide +kernel) rfl rfl
  exact absurd (hreleased 7 (by decide +kernel)) (by decide +kernel)

end Ats
