import Ats.Core.Races

/-!
# Stranded: a producer and a consumer that agree on what is empty

Runs of the two threads, from any memory a client can set up. As long as no
emptiness test of the consumer contradicts the one of a push under way, the
heaps stay heaps and every queue that holds something is found. Without it
one interleaving puts a queue into its heap twice, and another loses it.
-/

namespace Ats

open GuardedRun

variable {w w0 : World} {c : CtxId} {s s' : Threads} {t : Turn}

section Decide

instance (c : CtxId) (s : Threads) : (t : Turn) → Decidable (t.Proper c s)
  | .producer _ _ => inferInstanceAs (Decidable (_ → _ ∧ _))
  | .consumer (.dequeue _) => inferInstanceAs (Decidable True)
  | .consumer (.addQueue _) => inferInstanceAs (Decidable (_ → _ ∧ _))

instance (c : CtxId) (s : Threads) : (t : Turn) → Decidable (t.Undoubled c s)
  | .producer _ _ => inferInstanceAs (Decidable True)
  | .consumer _ => inferInstanceAs (Decidable (∀ q ∈ s.consumer.tests, _))

instance (s : Threads) : (t : Turn) → Decidable (t.Heard s)
  | .producer _ _ => inferInstanceAs (Decidable True)
  | .consumer _ => inferInstanceAs (Decidable (∀ q ∈ s.consumer.tests, _))

end Decide

/-! ## From turn to run -/

theorem BusInv.threadsInv (h : BusInv w) (c : CtxId) : ThreadsInv c ⟨w, .idle, .idle⟩ where
  bus := h
  producer := trivial
  held := fun q hq => by cases hq
  due := fun q hq => by cases hq
  fits := trivial

theorem Covered.known (h : Covered w) : Known ⟨w, .idle, .idle⟩ := by
  intro q d hlt hctx hq
  rcases hq with hne | hfound
  · exact (h q d hlt hctx hne).imp_right Or.inl
  · cases hfound

theorem Known.covered (h : Known s) (hp : s.producer = .idle) (hc : s.consumer = .idle) :
    Covered s.world := by
  intro q d hlt hctx hne
  rcases h q d hlt hctx (Or.inl hne) with hn | hm | ⟨ret, hr⟩ | hh
  · exact Or.inl hn
  · exact Or.inr hm
  · rw [hp] at hr
    cases hr
  · rw [hc] at hh
    cases hh

/-- **A turn** goes through, and keeps both invariants. -/
theorem ThreadsInv.step (h : ThreadsInv c s) (hop : t.Proper c s) (hno : t.Undoubled c s) :
    ∃ s', threadStep c s t = some s' ∧ ThreadsInv c s'
      ∧ (t.Heard s → Known s → Known s') := by
  obtain ⟨w, P, a⟩ := s
  cases t with
  | producer q e =>
      obtain ⟨w', P', hcall, hmove, hframe, h'⟩ := h.producerTurn hop
      refine ⟨⟨w', P', a⟩, ?_, h', fun _ hk => hk.producerTurn hframe hmove⟩
      rw [threadStep, hcall]
      rfl
  | consumer call =>
      obtain ⟨w', b, hcall, hmove, hframe, h'⟩ := h.consumerTurn hop hno
      refine ⟨⟨w', P, b⟩, ?_, h', fun hheard hk => hk.consumerTurn hframe hmove ?_⟩
      · rw [threadStep, hcall]
        rfl
      · intro q hq he
        apply hheard q hq
        exact (h.bus.queue.isEmpty_iff (h.held q (BusPoint.holds_of_tests hq)).1).mpr he

/-! ## No queue is inserted twice -/

/-- Every heap is a tree of different queues; the queue about to be inserted
is not among them, nor is one that is pending. -/
structure LinkedOnce (c : CtxId) (s : Threads) : Prop where
  tree : ∀ d k, HeapRep (s.world.queueMem d k) (s.world.queueNodes d k)
  nodup : ∀ d k, (s.world.queueNodes d k).Nodup
  inserts : ∀ q, s.consumer.inserts = some q →
    q ∉ s.world.queueNodes c (s.world.queues q).category
  pending : ∀ q ∈ (s.world.ctxs c).pendingQueue,
    q ∉ s.world.queueNodes c (s.world.queues q).category

theorem ThreadsInv.linkedOnce (h : ThreadsInv c s) : LinkedOnce c s where
  tree := h.bus.queue.heap
  nodup := fun d k => (h.bus.queue.heap d k).nodup
  inserts := fun q hq => (h.held q (BusPoint.holds_of_inserts hq)).2.2 c _
  pending := fun q hq => (h.bus.queue.pending c q hq).2

/-- **No double insertion.** In every run in which no queue is found filled
while a push that found it empty is under way, or while it is pending, every
turn goes through and no linked queue is handed to `heap_insert`. -/
theorem runThreads_linkedOnce (hw : Booted w0) (setup : List BusOp)
    {rs : List (CtxId × EventId)} (hsetup : CleanRun w0 setup)
    (hrun : runOps w0 setup = some (w, rs)) (c : CtxId) (ts : List Turn)
    (hts : Guarded (threadStep c) (fun s t => t.Proper c s ∧ t.Undoubled c s)
      ⟨w, .idle, .idle⟩ ts) :
    ∃ s, run (threadStep c) ⟨w, .idle, .idle⟩ ts = some s ∧ LinkedOnce c s := by
  have hstart := (hw.inv.cleanRun_inv hsetup hrun).threadsInv c
  obtain ⟨s, hs, hinv⟩ := Guarded.total (I := ThreadsInv c)
    (fun s t h ht => by
      obtain ⟨s', hs', h', _⟩ := h.step ht.1 ht.2
      exact ⟨s', hs', h'⟩) ts hts hstart
  exact ⟨s, hs, hinv.linkedOnce⟩

/-- One queue, as `event_queue_init` left it. -/
def oneQueue : Threads :=
  ⟨World.fresh .simulation 0 [(4, .command)] (fun e => ⟨1, askEvent, 0, e⟩), .idle, .idle⟩

/-- Queue 0 is registered and event 5 pushed, one call after the other. -/
def fillTurns : List Turn :=
  [.consumer (.addQueue 0), .consumer (.addQueue 0), .producer 0 5, .producer 0 5,
    .producer 0 5]

/-- A queue is pushed to while the consumer serves it, and goes back into its
heap. -/
theorem runThreads_linkedOnce_one :
    ∃ s, run (threadStep 0) oneQueue
      (fillTurns ++ [.producer 0 6, .producer 0 6]
        ++ List.replicate 10 (.consumer (.dequeue 0))) = some s ∧ LinkedOnce 0 s :=
  runThreads_linkedOnce (World.fresh_booted (by simp)) [] trivial rfl 0 _
    (by decide +kernel)

/-- The consumer takes the only event of queue 0; the producer finds the
queue empty and pushes; the consumer finds it filled and puts it back; now
the producer notifies the bus, and the consumer dequeues again. -/
def doubleTurns : List Turn :=
  fillTurns ++ List.replicate 8 (.consumer (.dequeue 0))
    ++ [.producer 0 6, .producer 0 6, .consumer (.dequeue 0), .consumer (.dequeue 0),
      .producer 0 6] ++ List.replicate 3 (.consumer (.dequeue 0))

/-- **A queue in its heap twice**: `check_pending_queue` is about to insert a
queue that is linked. -/
theorem pending_queue_linked :
    Guarded (threadStep 0) (fun s t => t.Proper 0 s) oneQueue doubleTurns
      ∧ ∃ s, run (threadStep 0) oneQueue doubleTurns = some s
        ∧ s.consumer.inserts = some 0
        ∧ 0 ∈ s.world.queueNodes 0 (s.world.queues 0).category := by
  have h : ((run (threadStep 0) oneQueue doubleTurns).any fun s =>
      decide (s.consumer.inserts = some 0
        ∧ 0 ∈ s.world.queueNodes 0 (s.world.queues 0).category)) = true := by
    decide +kernel
  rw [Option.any_eq_true] at h
  obtain ⟨s, hs, hp⟩ := h
  exact ⟨by decide +kernel, s, hs, of_decide_eq_true hp⟩

/-! ## No queue is stranded -/

/-- **No stranded queue.** In every run in which, besides, no queue is found
empty while a push that found it filled is under way, a registered queue that
holds something is in its heap or pending whenever both threads are between
two calls; and `bus_dequeue` then returns `NULL` only where the bus holds
nothing. -/
theorem runThreads_covered (hw : Booted w0) (setup : List BusOp)
    {rs : List (CtxId × EventId)} (hsetup : CleanRun w0 setup)
    (hrun : runOps w0 setup = some (w, rs)) (hcov : Covered w) (c : CtxId) (ts : List Turn)
    (hts : Guarded (threadStep c)
      (fun s t => t.Proper c s ∧ t.Undoubled c s ∧ t.Heard s) ⟨w, .idle, .idle⟩ ts) :
    ∃ s, run (threadStep c) ⟨w, .idle, .idle⟩ ts = some s
      ∧ (s.producer = .idle → s.consumer = .idle → Covered s.world
        ∧ ∀ now, ∃ w' r, busDequeue s.world c now = some (w', r) ∧ (r = none →
          ∀ q, q < w'.nextQueue → (w'.queues q).ctx = some c → w'.contents q = [])) := by
  have hstart := (hw.inv.cleanRun_inv hsetup hrun).threadsInv c
  obtain ⟨s, hs, hinv, hknown⟩ := Guarded.total (I := fun s => ThreadsInv c s ∧ Known s)
    (fun s t h ht => by
      obtain ⟨s', hs', h', hk⟩ := h.1.step ht.1 ht.2.1
      exact ⟨s', hs', h', hk ht.2.2 h.2⟩) ts hts ⟨hstart, hcov.known⟩
  refine ⟨s, hs, fun hp hc => ?_⟩
  have hcov' := hknown.covered hp hc
  refine ⟨hcov', fun now => ?_⟩
  obtain ⟨_, _, w', r, hcall, _⟩ := hinv.bus.busDequeue c now
  refine ⟨w', r, hcall, fun hr => ?_⟩
  subst hr
  exact (hinv.bus.drained hcov' hcall).1

/-- The producer pushes again after the consumer has taken the last event
and found the queue empty. -/
theorem runThreads_covered_one :
    ∃ s, run (threadStep 0) oneQueue
      (fillTurns ++ List.replicate 9 (.consumer (.dequeue 0))
        ++ [.producer 0 6, .producer 0 6, .producer 0 6]) = some s
      ∧ (s.producer = .idle → s.consumer = .idle → Covered s.world
        ∧ ∀ now, ∃ w' r, busDequeue s.world 0 now = some (w', r) ∧ (r = none →
          ∀ q, q < w'.nextQueue → (w'.queues q).ctx = some 0 → w'.contents q = [])) := by
  have hb : Booted oneQueue.world := World.fresh_booted (by simp)
  exact runThreads_covered hb [] trivial rfl hb.delivering.covered 0 _ (by decide +kernel)

/-- The producer finds queue 0 filled; the consumer takes its only event and
finds it empty; now the producer pushes, without a notification. -/
def strandTurns : List Turn :=
  fillTurns ++ List.replicate 7 (.consumer (.dequeue 0))
    ++ [.producer 0 6, .consumer (.dequeue 0), .consumer (.dequeue 0), .producer 0 6]

/-- **A stranded queue**: both threads are between two calls, the queue holds
an event, and it is neither in its heap nor pending. `bus_dequeue` returns
`NULL`. -/
theorem filled_queue_stranded :
    Guarded (threadStep 0) (fun s t => t.Proper 0 s) oneQueue strandTurns
      ∧ ∃ s, run (threadStep 0) oneQueue strandTurns = some s
        ∧ s.producer = .idle ∧ s.consumer = .idle ∧ (s.world.queues 0).ctx = some 0
        ∧ s.world.contents 0 = [6]
        ∧ 0 ∉ s.world.queueNodes 0 (s.world.queues 0).category
        ∧ 0 ∉ (s.world.ctxs 0).pendingQueue
        ∧ (busDequeue s.world 0 0).map Prod.snd = some none := by
  have h : ((run (threadStep 0) oneQueue strandTurns).any fun s =>
      decide (s.producer = .idle ∧ s.consumer = .idle ∧ (s.world.queues 0).ctx = some 0
        ∧ s.world.contents 0 = [6]
        ∧ 0 ∉ s.world.queueNodes 0 (s.world.queues 0).category
        ∧ 0 ∉ (s.world.ctxs 0).pendingQueue
        ∧ (busDequeue s.world 0 0).map Prod.snd = some none)) = true := by
    decide +kernel
  rw [Option.any_eq_true] at h
  obtain ⟨s, hs, hp⟩ := h
  exact ⟨by decide +kernel, s, hs, of_decide_eq_true hp⟩

end Ats
