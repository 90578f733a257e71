import Ats.Core.PipeOrder
import Ats.Core.TimerOrder

/-!
# StartIds: the keys of a heap differ

`counter` hands out each start id once, so two queues of one heap never have
the same, nor two timers. With the heap order this tells who is first in a
heap from the keys alone.
-/

namespace Ats

variable {w w' v : World} {c d src dst : CtxId} {k : QueueCategory} {j : ClockType}
  {q p : QueueId} {t : EventId} {e : EventId} {s : StepKind}

/-! ## Numbered lists -/

section Numbered

variable {α : Type} {xs ys : List α} {id id' : α → Nat} {n m : Nat} {x : α}

/-- The members have different numbers, all below `n`. -/
structure Numbered (xs : List α) (id : α → Nat) (n : Nat) : Prop where
  inj : ∀ a ∈ xs, ∀ b ∈ xs, id a = id b → a = b
  lt : ∀ a ∈ xs, id a < n

theorem Numbered.sub (h : Numbered xs id n) (hold : ∀ a ∈ ys, a ∈ xs ∧ id' a = id a)
    (hn : n ≤ m) : Numbered ys id' m where
  inj := fun a ha b hb hab => by
    obtain ⟨hax, hai⟩ := hold a ha
    obtain ⟨hbx, hbi⟩ := hold b hb
    rw [hai, hbi] at hab
    exact h.inj a hax b hbx hab
  lt := fun a ha => by
    obtain ⟨hax, hai⟩ := hold a ha
    rw [hai]
    exact Nat.lt_of_lt_of_le (h.lt a hax) hn

/-- One member may get the next number. -/
theorem Numbered.renew (h : Numbered xs id n)
    (hold : ∀ a ∈ ys, a ≠ x → a ∈ xs ∧ id' a = id a)
    (hnew : x ∈ ys → id' x = n ∧ n < m) (hn : n ≤ m) : Numbered ys id' m where
  inj := fun a ha b hb hab => by
    -- the others are numbered below `n`
    have hlow : ∀ z ∈ ys, z ≠ x → id' z < n := fun z hz hzx => by
      obtain ⟨hm, hi⟩ := hold z hz hzx
      rw [hi]
      exact h.lt z hm
    by_cases hax : a = x
    · by_cases hbx : b = x
      · rw [hax, hbx]
      · have hb' := hlow b hb hbx
        have := (hnew (hax ▸ ha)).1
        rw [hax] at hab
        omega
    · have ha' := hlow a ha hax
      by_cases hbx : b = x
      · have := (hnew (hbx ▸ hb)).1
        rw [hbx] at hab
        omega
      · obtain ⟨hma, hia⟩ := hold a ha hax
        obtain ⟨hmb, hib⟩ := hold b hb hbx
        exact h.inj a hma b hmb (by rw [← hia, ← hib, hab])
  lt := fun a ha => by
    by_cases hax : a = x
    · obtain ⟨hi, hlt⟩ := hnew (hax ▸ ha)
      rw [hax, hi]
      exact hlt
    · obtain ⟨hm, hi⟩ := hold a ha hax
      rw [hi]
      exact Nat.lt_of_lt_of_le (h.lt a hm) hn

end Numbered

/-! ## The start ids of a memory -/

/-- **Start ids differ** within each heap, and are used up. -/
structure StartIds (w : World) : Prop where
  queues : ∀ c k, Numbered (w.queueNodes c k) (fun q => (w.queues q).startId) (w.ctxs c).counter
  timers : ∀ c k, Numbered (w.timerNodes c k) (fun t => (w.reminders t).startId)
    (w.ctxs c).counter

/-- **Each heap is in order**, by keys that differ. -/
structure Ranked (w : World) : Prop where
  pipes : PipesOrdered w
  timers : TimersOrdered w
  ids : StartIds w

theorem Booted.startIds (h : Booted w) : StartIds w where
  queues := fun c k => by
    rw [h.queueNodes]
    exact ⟨fun a ha => (List.not_mem_nil ha).elim, fun a ha => (List.not_mem_nil ha).elim⟩
  timers := fun c k => by
    rw [h.timerNodes]
    exact ⟨fun a ha => (List.not_mem_nil ha).elim, fun a ha => (List.not_mem_nil ha).elim⟩

theorem Booted.ranked (h : Booted w) : Ranked w := ⟨h.pipesOrdered, h.timersOrdered, h.startIds⟩

/-- No counter has gone back. -/
def CountersGrow (w w' : World) : Prop := ∀ d, (w.ctxs d).counter ≤ (w'.ctxs d).counter

theorem StartIds.queues_same (h : StartIds w) (hq : SameQueues w w')
    (hid : ∀ p, (w'.queues p).startId = (w.queues p).startId) (hn : CountersGrow w w') :
    ∀ c k, Numbered (w'.queueNodes c k) (fun q => (w'.queues q).startId) (w'.ctxs c).counter :=
  fun c k => (h.queues c k).sub (fun a ha => ⟨hq.queueNodes c k ▸ ha, hid a⟩) (hn c)

theorem StartIds.timers_stand (h : StartIds w) (ht : TimersStand w w') (hn : CountersGrow w w') :
    ∀ c k, Numbered (w'.timerNodes c k) (fun t => (w'.reminders t).startId)
      (w'.ctxs c).counter :=
  fun c k => (h.timers c k).sub
    (fun a ha => ⟨ht.timerNodes c k ▸ ha, by rw [ht.reminders]⟩) (hn c)

theorem StartIds.same (h : StartIds w) (hq : SameQueues w w')
    (hid : ∀ p, (w'.queues p).startId = (w.queues p).startId) (ht : TimersStand w w')
    (hn : ∀ d, (w'.ctxs d).counter = (w.ctxs d).counter) : StartIds w' where
  queues := h.queues_same hq hid (fun d => Nat.le_of_eq (hn d).symm)
  timers := h.timers_stand ht (fun d => Nat.le_of_eq (hn d).symm)

/-! ## What a step does to them -/

theorem QueueAdded.countersGrow (h : QueueAdded w w' c q) : CountersGrow w w' := by
  intro d
  by_cases hd : d = c
  · rw [hd, h.counter]
    exact Nat.le_succ _
  · rw [h.ctxs_ne d hd]

theorem PipePop.countersGrow (h : PipePop w w' c k q e) : CountersGrow w w' := by
  intro d
  by_cases hd : d = c
  · rw [hd, h.counter]
    split <;> omega
  · rw [h.ctxs_ne d hd]

theorem TimerPop.countersGrow (h : TimerPop w w' c j t) : CountersGrow w w' := by
  intro d
  by_cases hd : d = c
  · rw [hd, h.counter]
    split <;> omega
  · rw [h.ctxs_ne d hd]

theorem TimerArmed.countersGrow {n : Nat} (h : TimerArmed w w' c j t n) : CountersGrow w w' := by
  intro d
  by_cases hd : d = c
  · rw [hd, h.counter]
    exact Nat.le_succ _
  · rw [h.ctxs_ne d hd]

/-- Registering a queue that stands in no heap. -/
theorem StartIds.added (h : StartIds w) (hadd : QueueAdded w w' c q)
    (hn : ∀ d i, q ∉ w.queueNodes d i) : StartIds w' where
  queues := fun d i => by
    refine (h.queues d i).renew (x := q) (fun a ha hne => ?_) (fun hq => ?_)
      (hadd.countersGrow d)
    · rw [hadd.others a hne]
      refine ⟨?_, rfl⟩
      by_cases hd : d = c ∧ i = (w.queues q).category
      · obtain ⟨rfl, rfl⟩ := hd
        rw [hadd.nodes.mem_iff] at ha
        split at ha
        · exact ha
        · exact (List.mem_cons.mp ha).resolve_left hne
      · rwa [hadd.nodes_ne d i (by tauto)] at ha
    · have hd : d = c := by
        by_contra hd
        rw [hadd.nodes_ne d i (Or.inl hd)] at hq
        exact hn d i hq
      subst hd
      exact ⟨hadd.startId, by rw [hadd.counter]; exact Nat.lt_succ_self _⟩
  timers := h.timers_stand ⟨hadd.frame.timersStand.reminders, hadd.frame.timersStand.node,
    hadd.frame.timersStand.heap⟩ hadd.countersGrow

/-- Serving a pipe. -/
theorem StartIds.pop (h : StartIds w) (hp : PipePop w w' c k q e) (hi : QueueInv w) :
    StartIds w' where
  queues := fun d i => by
    refine (h.queues d i).renew (x := q) (fun a ha hne => ?_) (fun hq => ?_)
      (hp.countersGrow d)
    · rw [hp.others a hne]
      exact ⟨hp.queueNodes_subset d i ha, rfl⟩
    · -- `q` stays in its own heap only, and only while it holds something
      have hd : d = c ∧ i = k := by
        by_contra hd
        have hd' : d ≠ c ∨ i ≠ k := by tauto
        rw [hp.nodes_ne d i hd'] at hq
        exact hi.notMem_other hp.linkable.ctx hp.linkable.category hd' hq
      obtain ⟨rfl, rfl⟩ := hd
      have hne : w'.contents q ≠ [] := by
        intro hc
        rw [hp.nodes.mem_iff, if_pos hc] at hq
        exact (hi.heap d i).nodup.not_mem_erase hq
      rw [hp.startId, hp.counter, if_neg hne, if_neg hne]
      exact ⟨rfl, Nat.lt_succ_self _⟩
  timers := h.timers_stand hp.frame.timersStand hp.countersGrow

/-- Arming a timer that stands in no heap. -/
theorem StartIds.armed {n : Nat} (h : StartIds w) (ha : TimerArmed w w' c j t n)
    (hn : ∀ d i, t ∉ w.timerNodes d i) : StartIds w' where
  queues := h.queues_same ha.frame.sameQueues (fun p => by rw [ha.frame.queues]) ha.countersGrow
  timers := fun d i => by
    refine (h.timers d i).renew (x := t) (fun a hm hne => ?_) (fun ht => ?_)
      (ha.countersGrow d)
    · rw [ha.others a hne]
      refine ⟨?_, rfl⟩
      by_cases hd : d = c ∧ i = j
      · obtain ⟨rfl, rfl⟩ := hd
        rw [ha.nodes.mem_iff] at hm
        exact (List.mem_cons.mp hm).resolve_left hne
      · rwa [ha.nodes_ne d i (by tauto)] at hm
    · have hd : d = c := by
        by_contra hd
        rw [ha.nodes_ne d i (Or.inl hd)] at ht
        exact hn d i ht
      subst hd
      exact ⟨by rw [ha.reminder], by rw [ha.counter]; exact Nat.lt_succ_self _⟩

/-- Firing a timer. -/
theorem StartIds.fired (h : StartIds w) (hp : TimerPop w w' c j t) (hi : TimerInv w) :
    StartIds w' where
  queues := h.queues_same hp.frame.sameQueues (fun p => by rw [hp.frame.queues]) hp.countersGrow
  timers := fun d i => by
    refine (h.timers d i).renew (x := t) (fun a hm hne => ?_) (fun ht => ?_)
      (hp.countersGrow d)
    · rw [hp.others a hne]
      exact ⟨hp.timerNodes_subset d i hm, rfl⟩
    · -- a timer that stays is one that repeats
      have hd : d = c ∧ i = j := by
        by_contra hd
        have hd' : d ≠ c ∨ i ≠ j := by tauto
        rw [hp.nodes_ne d i hd'] at ht
        exact hi.notMem_other hp.armed.1 hp.armed.2 hd' ht
      obtain ⟨rfl, rfl⟩ := hd
      have hrep : (w.reminders t).repeat ≠ 0 := by
        intro hz
        rw [hp.nodes.mem_iff, if_pos hz] at ht
        exact (hi.heap d i).nodup.not_mem_erase ht
      rw [hp.reminder, hp.counter, if_neg hrep, if_neg hrep]
      exact ⟨rfl, Nat.lt_succ_self _⟩

/-- A queue on the pending list stands in no heap. -/
theorem QueueInv.pending_nowhere (h : QueueInv w) (hq : q ∈ (w.ctxs c).pendingQueue)
    (d : CtxId) (i : QueueCategory) : q ∉ w.queueNodes d i := by
  obtain ⟨hl, hn⟩ := h.pending c q hq
  exact h.notMem_nodes hl.ctx hn d i

/-- **Each step** keeps start ids apart. -/
theorem BusStep.startIds (hs : BusStep s w w') (hi : BusInv w) (h : StartIds w) :
    StartIds w' := by
  cases hs with
  | add _ hctx hadd => exact h.added hadd (hi.queue.nowhere_of_ctx hctx).1
  | reenter hpend hadd =>
      rename_i x q rest
      obtain ⟨_, hnodes, _⟩ := hi.queue.unpend hpend
      -- taking the queue off the list changes no id; registering gives it the next
      have hgrow : CountersGrow w (w.updCtx x fun y => { y with pendingQueue := rest }) :=
        fun d => Nat.le_of_eq (Eq.symm (w.updCtx_proj x d Ctx.counter (fun _ => rfl)))
      have hsame : StartIds (w.updCtx x fun y => { y with pendingQueue := rest }) := by
        refine ⟨fun d i => ?_, h.timers_stand (TimersStand.updCtx w x fun _ => rfl) ?_⟩
        · exact (h.queues d i).sub (fun a ha => ⟨hnodes d i ▸ ha, rfl⟩) (hgrow d)
        · exact hgrow
      refine hsame.added hadd (fun d i => ?_)
      rw [hnodes]
      exact hi.queue.pending_nowhere (by rw [hpend]; exact List.mem_cons_self) d i
  | push hpush =>
      refine ⟨fun d i => ?_, h.timers_stand hpush.timersStand fun d => by rw [hpush.ctxs]⟩
      refine (h.queues d i).sub (fun a ha => ⟨hpush.queueNodes d i ▸ ha, hpush.startId a⟩) ?_
      rw [hpush.ctxs]
  | drop hpop hmode hskip hsaved =>
      rename_i w1 x q e b
      have hflag : TimersStand w1 (w1.updCtx x fun y => { y with isSimulatorStop := b }) :=
        TimersStand.updCtx w1 x fun _ => rfl
      have hcnt : ∀ d, ((w1.updCtx x fun y => { y with isSimulatorStop := b }).ctxs d).counter
          = (w1.ctxs d).counter := fun d => w1.updCtx_proj x d Ctx.counter fun _ => rfl
      refine (h.pop hpop hi.queue).same ?_ (fun _ => rfl)
        ⟨hflag.reminders, hflag.node, hflag.heap⟩ hcnt
      refine SameQueues.note ?_ _
      exact updCtx_sameQueues _ _ (fun _ => ⟨rfl, rfl⟩)
  | save hpop _ _ =>
      refine (h.pop hpop hi.queue).same (busSave_sameQueues _ _ _ _ _) (fun _ => rfl) ?_
        (fun d => ?_)
      · refine ⟨rfl, rfl, fun d => ?_⟩
        exact busSave_proj _ _ d _ _ Ctx.timerHeap fun _ _ _ => rfl
      · exact busSave_proj _ _ d _ _ Ctx.counter fun _ _ _ => rfl
  | give hpop _ =>
      have h' := h.pop hpop hi.queue
      exact ⟨h'.queues, h'.timers⟩
  | fire hpop =>
      have h' := h.fired hpop hi.timer
      exact ⟨h'.queues, h'.timers⟩
  | release hun =>
      rename_i x e
      have hcnt : ∀ d, ((w.updCtx x fun y =>
          { y with savedEvent := none, savedFrom := none }).ctxs d).counter
          = (w.ctxs d).counter := fun d => w.updCtx_proj x d Ctx.counter fun _ => rfl
      have hsame := busUnsave_sameQueues hun
      have hstand := busUnsave_timersStand hun
      obtain ⟨_, _, _, rfl⟩ := busUnsave_eq hun
      exact h.same hsame (fun _ => rfl) hstand hcnt
  | forward _ _ hpush =>
      rename_i x i q e
      have hst := hpush.timersStand
      refine ⟨fun d i => ?_, h.timers_stand ⟨hst.reminders, hst.node, hst.heap⟩ fun d => ?_⟩
      · refine (h.queues d i).sub (fun a ha => ⟨hpush.queueNodes d i ▸ ha, hpush.startId a⟩) ?_
        rw [hpush.ctxs]
        exact Nat.le_refl _
      · rw [hpush.ctxs]
        exact Nat.le_refl _
  | overrun _ _ _ => exact ⟨h.queues, h.timers⟩

/-- A step that leaves timestamps alone keeps the heaps in order. -/
theorem BusStep.ranked (hs : BusStep s w w') (hi : BusInv w) (hst : SameStamps w w')
    (h : Ranked w) : Ranked w' :=
  ⟨hs.pipesOrdered hi hst h.pipes, hs.timersOrdered hi h.timers, hs.startIds hi h.ids⟩

/-! ## What the calls do -/

/-- **Each call** but `bus_dequeue` keeps the heaps in order, by keys that
differ. -/
theorem BusOp.Did.ranked {op : BusOp} {r : List (CtxId × EventId)} (hd : op.Did w w' r)
    (hi : BusInv w) (hclean : op.Clean w) (hexec : op.exec w = some (w', r))
    (hop : ∀ c now, op ≠ .dequeue c now) (h : Ranked w) : Ranked w' := by
  have htimers := hd.timersOrdered h.timers
  cases op with
  | addQueue c q =>
      obtain ⟨hadd, _⟩ := hd
      exact ⟨fun d j => hadd.order d j (h.pipes d j), htimers,
        h.ids.added hadd (hi.queue.nowhere_of_registrable hclean).1⟩
  | removeQueue c q =>
      obtain ⟨hrem, _, rfl | ⟨ys, hset⟩⟩ := hd
      · exact h
      · have hn : ∀ d, (w.ctxs d).counter ≤ (w'.ctxs d).counter :=
          fun d => Nat.le_of_eq (hset.counter d).symm
        refine ⟨fun d j => hrem.order d j (h.pipes d j), htimers, fun d i => ?_,
          h.ids.timers_stand hset.frame.timersStand hn⟩
        refine (h.ids.queues d i).sub (fun a ha => ?_) (hn d)
        exact ⟨((hrem.others d i a).mp ha).1, by rw [hset.queues]⟩
  | push q e =>
      obtain ⟨hpush | ⟨rfl, _⟩, _⟩ := hd
      · exact ⟨fun d j => hpush.order hi.queue (h.pipes d j), htimers,
          (BusStep.push hpush).startIds hi h.ids⟩
      · exact h
  | addTimer c t =>
      obtain ⟨harm, _⟩ := hd
      have hf := harm.frame
      refine ⟨h.pipes.of_same hf.sameQueues (fun p => by rw [hf.queues]) (fun e => ?_), htimers,
        h.ids.armed harm (hi.timer.nowhere_of_unarmed hclean)⟩
      rw [stamp, stamp, hf.events]
  | removeTimer c t =>
      obtain ⟨hrem, _, rfl | ⟨ys, hset⟩⟩ := hd
      · exact h
      · have hf := hset.frame
        have hn : ∀ d, (w.ctxs d).counter ≤ (w'.ctxs d).counter :=
          fun d => Nat.le_of_eq (hset.counter d).symm
        refine ⟨h.pipes.of_same hf.sameQueues (fun p => by rw [hf.queues]) (fun e => ?_), htimers,
          h.ids.queues_same hf.sameQueues (fun p => by rw [hf.queues]) hn, fun d i => ?_⟩
        · rw [stamp, stamp, hf.events]
        · refine (h.ids.timers d i).sub (fun a ha => ?_) (hn d)
          exact ⟨((hrem.others d i a).mp ha).1, by rw [hset.reminders]⟩
  | attach src dst =>
      obtain ⟨w1, v, hslot, _, hcall, hadd, _⟩ := hi.attachSlot dst hclean
      obtain rfl : w' = v := by
        rw [BusOp.exec, hcall] at hexec
        cases hexec
        rfl
      -- the slot of the new queue was in no heap
      have hnext := (hi.queue.nowhere_of_le (Nat.le_refl w.nextQueue)).1
      have hne : ∀ d i, ∀ a ∈ w.queueNodes d i, a ≠ w.nextQueue :=
        fun d i a ha hc => hnext d i (hc ▸ ha)
      have hcnt : ∀ d, (w1.ctxs d).counter = (w.ctxs d).counter := by
        intro d
        rw [hslot.ctxs]
        split <;> rfl
      have h1 : StartIds w1 := by
        refine ⟨fun d i => ?_, fun d i => ?_⟩
        · refine (h.ids.queues d i).sub (fun a ha => ?_) (Nat.le_of_eq (hcnt d).symm)
          rw [hslot.nodes] at ha
          exact ⟨ha, by rw [hslot.others a (hne d i a ha)]⟩
        · refine (h.ids.timers_stand ⟨hslot.reminders, hslot.timerNode, fun d => ?_⟩
            fun d => Nat.le_of_eq (hcnt d).symm) d i
          rw [hslot.ctxs]
          split <;> rfl
      refine ⟨fun d j => hadd.order d j ?_, htimers, h1.added hadd fun d i => ?_⟩
      · rw [hslot.nodes]
        exact (h.pipes d j).congr fun a ha =>
          queueKey_congr hslot.events (hslot.others a (hne d j a ha))
      · rw [hslot.nodes]
        exact hnext d i
  | detach src dst =>
      obtain ⟨v, hcall, _, hdet, hkept⟩ := hi.busDetach hclean
      obtain rfl : w' = v := by
        rw [BusOp.exec, hcall] at hexec
        cases hexec
        rfl
      have hn : ∀ d, (w.ctxs d).counter ≤ (w'.ctxs d).counter := by
        intro d
        rw [hdet.ctxs]
      refine ⟨fun d j => hkept d j (h.pipes d j), htimers, fun d i => ?_,
        h.ids.timers_stand ⟨hdet.reminders, hdet.timerNode, fun d => by rw [hdet.ctxs]⟩ hn⟩
      refine (h.ids.queues d i).sub (fun a ha => ?_) (hn d)
      exact ⟨((hdet.nodes d i a).mp ha).1, by rw [hdet.queues]⟩
  | setTime c time | setExchangeTime c time =>
      obtain ⟨hf, _⟩ := hd
      have hid : ∀ p, (w'.queues p).startId = (w.queues p).startId := fun p => by rw [hf.rest]
      refine ⟨h.pipes.of_same hf.sameQueues hid (fun e => ?_), htimers,
        h.ids.same hf.sameQueues hid ⟨by rw [hf.rest], by rw [hf.rest], hf.sameTimers.heap⟩
          fun d => by rw [hf.ctxs]⟩
      rw [stamp, stamp, hf.rest]
  | dequeue c now => exact absurd rfl (hop c now)

end Ats
