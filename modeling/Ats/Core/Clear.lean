import Ats.Core.TimerBus
import Ats.Core.Mirror

/-!
# Clear: what `bus_clear` does to the heaps of its bus

Each queue in a heap is unlinked and unreferenced, each timer too, and the
saved event is dropped. A queue whose count was one is freed with what it
holds. The table of attached queues comes last (`Teardown`).
-/

namespace Ats

variable {w w' w'' : World} {c d : CtxId} {k : QueueCategory} {j : ClockType}
  {q p : QueueId} {t e : EventId}

/-! ## `event_queue_destroy` and `event_queue_unref` -/

theorem eventUnref_rest (w : World) (e : EventId) :
    eventUnref w e = { w with events := (eventUnref w e).events, log := (eventUnref w e).log } := by
  unfold eventUnref
  dsimp only
  split <;> rfl

/-- **`event_queue_destroy` has emptied `q`** and unreferenced what it held. -/
structure Emptied (w w' : World) (q : QueueId) : Prop where
  rest : w' = { w with queues := w'.queues, events := w'.events, log := w'.log }
  queue : w'.queues q = { w.queues q with spsc := (w'.queues q).spsc }
  others : ∀ p, p ≠ q → w'.queues p = w.queues p
  ring : SpscqRep (w'.queues q).spsc []
  log : ∃ acts, w'.log = w.log ++ acts ∧ ∀ a ∈ acts, a.OfEvent

/-- The drain loop ends at an empty ring. -/
theorem eventQueueDrain_nil (hr : SpscqRep (w.queues q).spsc []) (fuel : Nat) :
    eventQueueDrain (fuel + 1) w q = some w := by
  have hpop : eventQueuePop w q = (w, none) := by
    rw [eventQueuePop, hr.pop_nil]
    simp [World.updQueue]
  rw [eventQueueDrain, hpop]

/-- **A round of the drain loop** pops the oldest event and unreferences it. -/
theorem eventQueueDrain_cons {x : EventId} {xs : List EventId}
    (hr : SpscqRep (w.queues q).spsc (x :: xs)) (fuel : Nat) :
    ∃ v, v = w.updQueue q (fun y => { y with spsc := (spscqPop (w.queues q).spsc).1 })
      ∧ eventQueueDrain (fuel + 1) w q = eventQueueDrain fuel (eventUnref v x) q
      ∧ SpscqRep ((eventUnref v x).queues q).spsc xs := by
  obtain ⟨hpop, hrep, _⟩ := hr.pop_cons
  obtain ⟨v, hv⟩ : ∃ v, v = w.updQueue q fun y =>
    { y with spsc := (spscqPop (w.queues q).spsc).1 } := ⟨_, rfl⟩
  have hcall : eventQueuePop w q = (v, some x) := by
    rw [hv]
    exact Prod.ext rfl hpop
  refine ⟨v, hv, by rw [eventQueueDrain, hcall], ?_⟩
  rw [eventUnref_rest, hv]
  simpa [World.updQueue] using hrep

/-- The rule of the drain loop: what holds of an empty ring, and of a round
with what comes after it, holds of the whole loop. -/
theorem eventQueueDrain_rule {P : List EventId → World → World → Prop} (hnil : ∀ w, P [] w w)
    (hcons : ∀ x xs w v w', v = w.updQueue q (fun y =>
        { y with spsc := (spscqPop (w.queues q).spsc).1 }) →
      P xs (eventUnref v x) w' → P (x :: xs) w w') :
    ∀ (xs : List EventId) (fuel : Nat) {w w' : World},
      SpscqRep (w.queues q).spsc xs → eventQueueDrain fuel w q = some w' → P xs w w' := by
  intro xs
  induction xs with
  | nil =>
      intro fuel w w' hr hloop
      cases fuel with
      | zero => simp [eventQueueDrain] at hloop
      | succ fuel =>
          rw [eventQueueDrain_nil hr] at hloop
          cases hloop
          exact hnil w
  | cons x xs ih =>
      intro fuel w w' hr hloop
      cases fuel with
      | zero => simp [eventQueueDrain] at hloop
      | succ fuel =>
          obtain ⟨v, hv, hround, hrep⟩ := eventQueueDrain_cons hr fuel
          rw [hround] at hloop
          exact hcons x xs w v w' hv (ih fuel hrep hloop)

theorem eventQueueDrain_emptied : ∀ (xs : List EventId) (fuel : Nat) {w : World},
    SpscqRep (w.queues q).spsc xs → xs.length < fuel →
    ∃ w', eventQueueDrain fuel w q = some w' ∧ Emptied w w' q := by
  intro xs
  induction xs with
  | nil =>
      intro fuel w hr hf
      obtain ⟨n, rfl⟩ := Nat.exists_eq_succ_of_ne_zero (Nat.ne_of_gt hf)
      exact ⟨w, eventQueueDrain_nil hr n, rfl, rfl, fun _ _ => rfl, hr, [],
        (List.append_nil _).symm, by simp⟩
  | cons x xs ih =>
      intro fuel w hr hf
      obtain ⟨n, rfl⟩ := Nat.exists_eq_succ_of_ne_zero
        (Nat.ne_of_gt (Nat.lt_of_le_of_lt (Nat.zero_le _) hf))
      obtain ⟨v, hv, hround, hrep⟩ := eventQueueDrain_cons hr n
      have hq : v.queues q = { w.queues q with spsc := (spscqPop (w.queues q).spsc).1 } := by
        rw [hv]
        simp [World.updQueue]
      have hu := eventUnref_rest v x
      have huq : (eventUnref v x).queues = v.queues := by rw [hu]
      obtain ⟨w', hloop, h'⟩ := ih n hrep (by simpa using hf)
      obtain ⟨as, hlog, has⟩ := eventUnref_log v x
      obtain ⟨bs, hlog', hbs⟩ := h'.log
      have hvlog : v.log = w.log := by rw [hv]; rfl
      refine ⟨w', hround.trans hloop, ?_, ?_, fun p hp => ?_, h'.ring, as ++ bs, ?_,
        fun a ha => ?_⟩
      · rw [h'.rest, hu, hv]
        rfl
      · rw [h'.queue, huq, hq]
      · rw [h'.others p hp, huq, hv]
        simp [World.updQueue, hp]
      · rw [hlog', hlog, hvlog, List.append_assoc]
      · rcases List.mem_append.mp ha with ha | ha
        · exact has a ha
        · exact hbs a ha

theorem QueueInv.eventQueueDestroy (h : QueueInv w) (hq : q < w.nextQueue) :
    ∃ w', eventQueueDestroy w q = some w' ∧ Emptied w w' q := by
  have hr := h.ring q hq
  obtain ⟨w', hdrain, h'⟩ := eventQueueDrain_emptied _ (spscqLength (w.queues q).spsc + 1) hr
    (by rw [hr.length_eq]; exact Nat.lt_succ_self _)
  refine ⟨w', ?_, h'⟩
  rw [Ats.eventQueueDestroy, hdrain]
  simp [h'.ring.destroy_iff.mpr rfl]

/-- **`event_queue_unref` has dropped one reference to `q`**, and freed it
where that was the last. -/
structure Unreffed (w w' : World) (q : QueueId) : Prop where
  rest : w' = { w with queues := w'.queues, events := w'.events, log := w'.log }
  queue : w'.queues q = { w.queues q with
    refcount := (w.queues q).refcount - 1, spsc := (w'.queues q).spsc }
  others : ∀ p, p ≠ q → w'.queues p = w.queues p
  kept : (w.queues q).refcount ≠ 1 → (w'.queues q).spsc = (w.queues q).spsc
  emptied : (w.queues q).refcount = 1 → SpscqRep (w'.queues q).spsc []
  freed : ∀ p, w'.log.count (.freeQueue p) = w.log.count (.freeQueue p)
    + if p = q ∧ (w.queues q).refcount = 1 then 1 else 0

theorem QueueInv.eventQueueUnref (h : QueueInv w) (hq : q < w.nextQueue) :
    ∃ w', eventQueueUnref w q = some w' ∧ Unreffed w w' q := by
  obtain ⟨v, hv⟩ : ∃ v, v = w.updQueue q fun x => { x with refcount := x.refcount - 1 } :=
    ⟨_, rfl⟩
  have hvq : v.queues q = { w.queues q with refcount := (w.queues q).refcount - 1 } := by
    rw [hv]
    simp [World.updQueue]
  have hne : ∀ p, p ≠ q → v.queues p = w.queues p := by
    intro p hp
    rw [hv]
    simp [World.updQueue, hp]
  have hcall : Ats.eventQueueUnref w q
      = if (w.queues q).refcount = 1 then queueFree v q else some v := by
    rw [hv]
    rfl
  by_cases hone : (w.queues q).refcount = 1
  · have hr : SpscqRep (v.queues q).spsc (w.contents q) := by
      rw [hvq]
      exact h.ring q hq
    obtain ⟨u, hdrain, hu⟩ := eventQueueDrain_emptied _ (spscqLength (v.queues q).spsc + 1) hr
      (by rw [hr.length_eq]; exact Nat.lt_succ_self _)
    obtain ⟨acts, hlog, hacts⟩ := hu.log
    refine ⟨u.note (.freeQueue q), ?_, ?_, ?_, fun p hp => ?_, fun hn => absurd hone hn,
      fun _ => hu.ring, fun p => ?_⟩
    · rw [hcall, if_pos hone, queueFree, Ats.eventQueueDestroy, hdrain]
      simp [hu.ring.destroy_iff.mpr rfl]
    · show u.note (.freeQueue q) = _
      rw [World.note, hu.rest, hv]
      rfl
    · show u.queues q = _
      rw [hu.queue, hvq]
      rfl
    · show u.queues p = _
      rw [hu.others p hp, hne p hp]
    · have hvlog : v.log = w.log := by rw [hv]; rfl
      show (u.log ++ [Act.freeQueue q]).count (Act.freeQueue p) = _
      rw [hlog, hvlog, List.count_append, List.count_append, count_ofEvent hacts, Nat.add_zero]
      by_cases hp : p = q
      · subst hp
        simp [hone]
      · have hqp : ¬ q = p := fun hc => hp hc.symm
        simp [hp, hqp]
  · refine ⟨v, by rw [hcall, if_neg hone], ?_, ?_, hne, fun _ => ?_,
      fun hn => absurd hn hone, fun p => ?_⟩
    · rw [hv]
      rfl
    · rw [hvq]
    · rw [hvq]
    · rw [if_neg (fun hc => hone hc.2), hv]
      rfl

/-- A queue that stands nowhere has been emptied. -/
theorem BusInv.emptyQueue (hi : BusInv w)
    (hrest : w' = { w with queues := w'.queues, events := w'.events, log := w'.log })
    (hself : ∀ p, (w'.queues p).ctx = (w.queues p).ctx
      ∧ (w'.queues p).category = (w.queues p).category)
    (hothers : ∀ p, p ≠ q → w'.queues p = w.queues p) (hring : SpscqRep (w'.queues q).spsc [])
    (hn : ∀ d j, q ∉ w.queueNodes d j) (hp : ∀ d, q ∉ (w.ctxs d).pendingQueue) :
    BusInv w' ∧ ∀ d j, w'.queueNodes d j = w.queueNodes d j := by
  have hctx : w'.ctxs = w.ctxs := by rw [hrest]
  have hnode : w'.queueNode = w.queueNode := by rw [hrest]
  have hnext : w'.nextQueue = w.nextQueue := by rw [hrest]
  have hst : SameTimers w w' :=
    ⟨fun _ => by rw [hrest], fun _ => by rw [hrest], by rw [hrest], fun _ => by rw [hctx]⟩
  have hslots : SameSlots w w' := ⟨fun _ => by rw [hctx], fun _ => by rw [hctx],
    fun _ => by rw [hctx], fun _ => by rw [hctx]⟩
  have hnil : w'.contents q = [] := hring.toList_eq
  obtain ⟨hq', hnodes⟩ := hi.queue.touch hn hp (fun _ => by rw [hctx]) (fun _ => by rw [hctx])
    (fun _ _ => by rw [hnode]) hothers (Nat.le_of_eq hnext.symm) (fun p _ hlt => hnext ▸ hlt)
    (by rw [hnil]; exact hring)
  exact ⟨hi.of_same hq' (hst.timerInv hi.timer) hslots (Nat.le_of_eq hnext.symm)
    (fun p _ hx => (hself p).1.trans hx) (fun p _ => (hself p).2), hnodes⟩

theorem Emptied.self (h : Emptied w w' q) (p : QueueId) :
    (w'.queues p).ctx = (w.queues p).ctx ∧ (w'.queues p).category = (w.queues p).category
      ∧ (w'.queues p).refcount = (w.queues p).refcount := by
  by_cases hp : p = q
  · rw [hp, h.queue]
    exact ⟨rfl, rfl, rfl⟩
  · rw [h.others p hp]
    exact ⟨rfl, rfl, rfl⟩

/-- What `QueueInv` allows: a queue that is freed must stand nowhere. -/
theorem Unreffed.inv (h : Unreffed w w' q) (hi : BusInv w)
    (hq : (∀ d j, q ∉ w.queueNodes d j) ∧ (∀ d, q ∉ (w.ctxs d).pendingQueue)
      ∨ (w.queues q).refcount ≠ 1) :
    BusInv w' ∧ ∀ d j, w'.queueNodes d j = w.queueNodes d j := by
  have hself : ∀ p, (w'.queues p).ctx = (w.queues p).ctx
      ∧ (w'.queues p).category = (w.queues p).category := by
    intro p
    by_cases hp : p = q
    · subst hp
      rw [h.queue]
      exact ⟨rfl, rfl⟩
    · rw [h.others p hp]
      exact ⟨rfl, rfl⟩
  by_cases hone : (w.queues q).refcount = 1
  · obtain ⟨hn, hp⟩ := hq.resolve_right (fun hc => hc hone)
    exact hi.emptyQueue h.rest hself h.others (h.emptied hone) hn hp
  · have hctx : w'.ctxs = w.ctxs := by rw [h.rest]
    have hst : SameTimers w w' :=
      ⟨fun _ => by rw [h.rest], fun _ => by rw [h.rest], by rw [h.rest], fun _ => by rw [hctx]⟩
    have hslots : SameSlots w w' := ⟨fun _ => by rw [hctx], fun _ => by rw [hctx],
      fun _ => by rw [hctx], fun _ => by rw [hctx]⟩
    have hsame : SameQueues w w' := by
      refine ⟨fun p => ?_, fun p => (hself p).1, fun p => (hself p).2, by rw [h.rest],
        by rw [h.rest], fun _ => by rw [hctx], fun _ => by rw [hctx]⟩
      by_cases hp : p = q
      · rw [hp, h.kept hone]
      · rw [h.others p hp]
    exact ⟨hi.of_sameQueues hsame hst hslots, hsame.queueNodes⟩

/-! ## What clearing leaves alone -/

/-- **A bus has let go** of some of its queues and timers, and all else is as
it was. -/
structure Loosened (w w' : World) (c : CtxId) : Prop where
  ctx : ∀ p, (w'.queues p).ctx = (w.queues p).ctx
  category : ∀ p, (w'.queues p).category = (w.queues p).category
  refcount : ∀ p, (w'.queues p).refcount ≤ (w.queues p).refcount
  kept : ∀ p, (∀ k, p ∉ w.queueNodes c k) → w'.queues p = w.queues p
    ∧ w'.log.count (.freeQueue p) = w.log.count (.freeQueue p)
  nextQueue : w'.nextQueue = w.nextQueue
  ctxs_ne : ∀ d, d ≠ c → w'.ctxs d = w.ctxs d
  self : ∀ d, w'.ctxs d = { w.ctxs d with
    queueHeap := (w'.ctxs d).queueHeap
    timerHeap := (w'.ctxs d).timerHeap
    savedEvent := (w'.ctxs d).savedEvent
    savedFrom := (w'.ctxs d).savedFrom }
  nodes_ne : ∀ d, d ≠ c → ∀ k, w'.queueNodes d k = w.queueNodes d k
  nodes : ∀ k p, p ∈ w'.queueNodes c k → p ∈ w.queueNodes c k
  timers : ∀ j t, t ∈ w'.timerNodes c j → t ∈ w.timerNodes c j
  saved : (w.ctxs c).savedEvent = none → (w'.ctxs c).savedEvent = none
  freed : ∀ p, (w.queues p).refcount ≤ 0 →
    w'.log.count (.freeQueue p) = w.log.count (.freeQueue p)

namespace Loosened

theorem refl (w : World) (c : CtxId) : Loosened w w c where
  ctx := fun _ => rfl
  category := fun _ => rfl
  refcount := fun _ => Int.le_refl _
  kept := fun _ _ => ⟨rfl, rfl⟩
  nextQueue := rfl
  ctxs_ne := fun _ _ => rfl
  self := fun _ => rfl
  nodes_ne := fun _ _ _ => rfl
  nodes := fun _ _ h => h
  timers := fun _ _ h => h
  saved := fun h => h
  freed := fun _ _ => rfl

theorem trans (h : Loosened w w' c) (h' : Loosened w' w'' c) : Loosened w w'' c where
  ctx := fun p => (h'.ctx p).trans (h.ctx p)
  category := fun p => (h'.category p).trans (h.category p)
  refcount := fun p => Int.le_trans (h'.refcount p) (h.refcount p)
  kept := fun p hp =>
    have h1 := h.kept p hp
    have h2 := h'.kept p (fun k hm => hp k (h.nodes k p hm))
    ⟨h2.1.trans h1.1, h2.2.trans h1.2⟩
  nextQueue := h'.nextQueue.trans h.nextQueue
  ctxs_ne := fun d hd => (h'.ctxs_ne d hd).trans (h.ctxs_ne d hd)
  self := fun d => (h'.self d).trans (by rw [h.self d])
  nodes_ne := fun d hd k => (h'.nodes_ne d hd k).trans (h.nodes_ne d hd k)
  nodes := fun k p hp => h.nodes k p (h'.nodes k p hp)
  timers := fun j t ht => h.timers j t (h'.timers j t ht)
  saved := fun hs => h'.saved (h.saved hs)
  freed := fun p hp => (h'.freed p (Int.le_trans (h.refcount p) hp)).trans (h.freed p hp)

theorem proj {β : Type} (h : Loosened w w' c) (d : CtxId) (g : Ctx → β)
    (hg : ∀ x a b m n, g { x with
      queueHeap := a, timerHeap := b, savedEvent := m, savedFrom := n } = g x) :
    g (w'.ctxs d) = g (w.ctxs d) := by
  rw [h.self d, hg]

end Loosened

/-! ## The queue heaps -/

/-- **One round of `queue_heap_clear`.** -/
theorem BusInv.clearOne (hi : BusInv w) (hq : (w.queueNodes c k).head? = some q) :
    ∃ w1 w2, queueHeapRemove w c k q = some w1 ∧ eventQueueUnref w1 q = some w2
      ∧ BusInv w2 ∧ Loosened w w2 c ∧ (w2.queueNodes c k).Perm ((w.queueNodes c k).erase q)
      ∧ (∀ i, i ≠ k → w2.queueNodes c i = w.queueNodes c i)
      ∧ (w2.queues q).refcount = (w.queues q).refcount - 1 := by
  have hmem : q ∈ w.queueNodes c k := List.mem_of_mem_head? hq
  have hl := hi.queue.linked c k q hmem
  obtain ⟨w1, ys, hrem, hset, hperm, hq1, _⟩ := hi.queue.remove hmem
  have hi1 : BusInv w1 := hi.of_queueFrame hset.frame hq1
  -- once out of the heap the queue is nowhere, so it may be freed
  have hout := hi.queue.nowhere_of_removed hmem hset hperm hq1
  obtain ⟨w2, hunref, hu⟩ := hq1.eventQueueUnref (q := q) (hset.nextQueue ▸ hl.lt)
  obtain ⟨hi2, hnodes⟩ := hu.inv hi1 (Or.inl hout)
  have hctx : w2.ctxs = w1.ctxs := by rw [hu.rest]
  have hf := hset.frame
  have hq2 : ∀ p, p ≠ q → w2.queues p = w.queues p := fun p hp => by
    rw [hu.others p hp, hset.queues]
  have hself : w2.queues q = { w.queues q with
      refcount := (w.queues q).refcount - 1, spsc := (w2.queues q).spsc } := by
    rw [← hset.queues]
    exact hu.queue
  have hcnt : ∀ d, (w1.ctxs d).counter = (w.ctxs d).counter := hset.counter
  refine ⟨w1, w2, hrem, hunref, hi2, ?_, ?_, fun i hne => ?_, ?_⟩
  · constructor
    case ctx =>
      intro p
      by_cases hp : p = q
      · rw [hp, hself]
      · rw [hq2 p hp]
    case category =>
      intro p
      by_cases hp : p = q
      · rw [hp, hself]
      · rw [hq2 p hp]
    case refcount =>
      intro p
      by_cases hp : p = q
      · rw [hp, hself]
        show (w.queues q).refcount - 1 ≤ _
        omega
      · rw [hq2 p hp]
    case kept =>
      intro p hp
      have hpq : p ≠ q := fun hc => hp k (hc ▸ hmem)
      have hlog : w1.log = w.log := hset.log
      refine ⟨hq2 p hpq, ?_⟩
      rw [hu.freed, hlog, if_neg (fun hc => hpq hc.1), Nat.add_zero]
    case nextQueue => rw [hu.rest]; exact hset.nextQueue
    case ctxs_ne =>
      intro d hd
      rw [hctx]
      obtain ⟨m, rfl⟩ := hset.eq
      simp [World.setQueueMem, World.updCtx, hd]
    case self =>
      intro d
      rw [hctx, hf.ctxs d, hcnt]
    case nodes_ne =>
      intro d hd j
      rw [hnodes, hset.nodes_ne (Or.inl hd)]
    case nodes =>
      intro j p hp
      rw [hnodes] at hp
      by_cases hj : j = k
      · subst hj
        rw [hset.nodes, hperm.mem_iff] at hp
        exact List.mem_of_mem_erase hp
      · rwa [hset.nodes_ne (Or.inr hj)] at hp
    case timers =>
      intro i t ht
      have hst : w2.timerNodes c i = w1.timerNodes c i := by
        rw [World.timerNodes, World.timerMem, hctx, hu.rest]
        rfl
      rwa [hst, hf.sameTimers.timerNodes] at ht
    case saved =>
      intro hs
      rw [hctx, hf.savedEvent]
      exact hs
    case freed =>
      intro p hp
      have hlog : w1.log = w.log := hset.log
      rw [hu.freed, hlog, if_neg, Nat.add_zero]
      rintro ⟨rfl, hone⟩
      rw [hset.queues] at hone
      omega
  · rw [hnodes, hset.nodes]
    exact hperm
  · rw [hnodes, hset.nodes_ne (Or.inr hne)]
  · rw [hself]

/-- **`queue_heap_clear`** empties the heap, and drops a reference to each
queue that was in it. -/
theorem BusInv.queueHeapClear : ∀ (fuel : Nat) {w : World}, BusInv w →
    (w.queueNodes c k).length < fuel →
    ∃ w', queueHeapClear fuel w c k = some w' ∧ BusInv w' ∧ Loosened w w' c
      ∧ w'.queueNodes c k = [] ∧ (∀ i, i ≠ k → w'.queueNodes c i = w.queueNodes c i)
      ∧ ∀ p ∈ w.queueNodes c k, (w'.queues p).refcount < (w.queues p).refcount := by
  intro fuel
  induction fuel with
  | zero => intro w _ hf; omega
  | succ fuel ih =>
      intro w hi hf
      have hmin := hi.queue.heapMin_eq c k
      cases hn : w.queueNodes c k with
      | nil =>
          refine ⟨w, ?_, hi, Loosened.refl w c, hn, fun _ _ => rfl, by simp⟩
          rw [Ats.queueHeapClear, hmin, hn]
          rfl
      | cons q rest =>
          obtain ⟨w1, w2, hrem, hunref, hi2, hl, hperm, hkeep, hcount⟩ :=
            hi.clearOne (c := c) (k := k) (q := q) (by rw [hn]; rfl)
          rw [hn, List.erase_cons_head] at hperm
          obtain ⟨w', hloop, hi', hl', hnil, hkeep', hless⟩ := ih hi2 (by
            rw [hperm.length_eq]
            rw [hn, List.length_cons] at hf
            omega)
          refine ⟨w', ?_, hi', hl.trans hl', hnil,
            fun i hne => (hkeep' i hne).trans (hkeep i hne), fun p hp => ?_⟩
          · rw [Ats.queueHeapClear, hmin, hn]
            simp only [List.head?_cons, hrem, hunref, Option.bind_eq_bind, Option.bind_some]
            exact hloop
          · rcases List.mem_cons.mp hp with rfl | hp
            · have := hl'.refcount p
              omega
            · have hlt := hless p (hperm.mem_iff.mpr hp)
              have := hl.refcount p
              omega

/-! ## All heaps -/

theorem TimersCleared.loosened (h : TimersCleared w w' c j) : Loosened w w' c where
  ctx := fun p => by rw [h.queues]
  category := fun p => by rw [h.queues]
  refcount := fun p => by rw [h.queues]
  kept := fun p _ => by
    obtain ⟨acts, hlog, hacts⟩ := h.log
    refine ⟨by rw [h.queues], ?_⟩
    rw [hlog, List.count_append, count_ofEvent hacts, Nat.add_zero]
  nextQueue := h.nextQueue
  ctxs_ne := h.ctxs_ne
  self := fun d => by rw [h.ctxs d]
  nodes_ne := fun d _ k => h.sameQueues.queueNodes d k
  nodes := fun k p hp => by rwa [h.sameQueues.queueNodes] at hp
  timers := fun i t ht => by
    by_cases hi : i = j
    · rw [hi, h.nodes] at ht
      cases ht
    · rwa [h.nodes_ne c i (Or.inr hi)] at ht
  saved := fun hs => by
    rw [h.ctxs]
    exact hs
  freed := fun p _ => by
    obtain ⟨acts, hlog, hacts⟩ := h.log
    rw [hlog, List.count_append, count_ofEvent hacts, Nat.add_zero]

/-- The start of `bus_clear`: the saved event goes. -/
def busClearSaved (w : World) (c : CtxId) : World :=
  match (w.ctxs c).savedEvent with
  | none => w
  | some e =>
      (eventUnref w e).updCtx c fun x => { x with savedEvent := none, savedFrom := none }

/-- `bus_clear` up to the loop over `attached`. -/
def busClearHeaps (w : World) (c : CtxId) : Option World := do
  let w ← [QueueCategory.market, .execution, .service, .command].foldlM
    (fun w k => queueHeapClear (((w.ctxs c).queueHeap k).nelts + 1) w c k) (busClearSaved w c)
  [ClockType.clockLocal, .clockExchange].foldlM
    (fun w k => timerHeapClear (((w.ctxs c).timerHeap k).nelts + 1) w c k) w

/-- The rest of `bus_clear`. -/
def busClearTable (w : World) (c : CtxId) : Option World := do
  let w ← busClearAttached ((w.ctxs c).attachedCount + 1) w c 0
  some (w.updCtx c fun x => { x with attachedCount := 0 })

/-- The last write of `bus_clear` changes nothing where the table is empty. -/
theorem busClearTable_of (hloop : busClearAttached ((w.ctxs c).attachedCount + 1) w c 0 = some w')
    (hzero : (w'.ctxs c).attachedCount = 0) : busClearTable w c = some w' := by
  have hctxs : (w'.updCtx c fun x => { x with attachedCount := 0 }).ctxs = w'.ctxs := by
    funext d
    by_cases hd : d = c
    · subst hd
      simp only [World.updCtx, Function.update_self]
      rw [← hzero]
    · simp [World.updCtx, hd]
  rw [busClearTable, hloop]
  exact congrArg (fun m => some { w' with ctxs := m }) hctxs

theorem busClear_eq (w : World) (c : CtxId) :
    busClear w c = (busClearHeaps w c).bind fun w => busClearTable w c := by
  rw [busClear, busClearHeaps, busClearSaved]
  simp only [Option.bind_eq_bind, Option.bind_assoc]
  rfl

theorem BusInv.busClearSaved (hi : BusInv w) (c : CtxId) :
    BusInv (busClearSaved w c) ∧ Loosened w (busClearSaved w c) c
      ∧ ((busClearSaved w c).ctxs c).savedEvent = none
      ∧ ∀ k, (Ats.busClearSaved w c).queueNodes c k = w.queueNodes c k := by
  rw [Ats.busClearSaved]
  cases hs : (w.ctxs c).savedEvent with
  | none => exact ⟨hi, Loosened.refl w c, hs, fun _ => rfl⟩
  | some e =>
      have hu := eventUnref_frame w e
      have hi1 := hu.inv hi
      obtain ⟨acts, hlog, hacts⟩ := eventUnref_log w e
      have hnodes : ∀ d k, ((eventUnref w e).updCtx c fun x =>
          { x with savedEvent := none, savedFrom := none }).queueNodes d k
          = w.queueNodes d k := by
        intro d k
        rw [← hu.sameQueues.queueNodes]
        refine SameQueues.queueNodes ?_ d k
        exact updCtx_sameQueues _ c (fun _ => ⟨rfl, rfl⟩)
      have hx : ∀ d, ((eventUnref w e).updCtx c fun x =>
          { x with savedEvent := none, savedFrom := none }).ctxs d
          = if d = c then { w.ctxs d with savedEvent := none, savedFrom := none }
            else w.ctxs d := by
        intro d
        rw [World.updCtx_ctxs, hu.ctxs]
      refine ⟨hi1.setSaved rfl (fun p hp => by cases hp), ?_, ?_, hnodes c⟩
      · constructor
        case ctx => exact fun p => by rw [← hu.queues]; rfl
        case category => exact fun p => by rw [← hu.queues]; rfl
        case refcount => exact fun p => by rw [← hu.queues]; exact Int.le_refl _
        case kept =>
          intro p _
          refine ⟨by rw [← hu.queues]; rfl, ?_⟩
          show (eventUnref w e).log.count _ = _
          rw [hlog, List.count_append, count_ofEvent hacts, Nat.add_zero]
        case nextQueue => exact hu.nextQueue
        case ctxs_ne => exact fun d hd => by rw [hx, if_neg hd]
        case self =>
          intro d
          rw [hx]
          split <;> rfl
        case nodes_ne => exact fun d _ k => hnodes d k
        case nodes => exact fun k p hp => by rwa [hnodes] at hp
        case timers =>
          intro i t ht
          have hsame : ((eventUnref w e).updCtx c fun x =>
              { x with savedEvent := none, savedFrom := none }).timerNodes c i
              = (eventUnref w e).timerNodes c i := by
            simp [World.timerNodes, World.timerMem, World.updCtx]
          rwa [hsame, hu.timerNodes] at ht
        case saved => exact fun _ => by rw [hx, if_pos rfl]
        case freed =>
          intro p _
          show (eventUnref w e).log.count _ = _
          rw [hlog, List.count_append, count_ofEvent hacts, Nat.add_zero]
      · rw [hx, if_pos rfl]

/-- **`bus_clear` before its table**: no heap of `c` holds anything, and each
queue that was in one has lost a reference. -/
structure HeapsCleared (w w' : World) (c : CtxId) : Prop where
  inv : BusInv w'
  loosened : Loosened w w' c
  saved : (w'.ctxs c).savedEvent = none
  nodes : ∀ k, w'.queueNodes c k = []
  timers : ∀ j, w'.timerNodes c j = []
  dropped : ∀ k, ∀ p ∈ w.queueNodes c k, (w'.queues p).refcount < (w.queues p).refcount

theorem BusInv.clearQueueHeap (hi : BusInv w) (c : CtxId) (k : QueueCategory) :
    ∃ w', Ats.queueHeapClear (((w.ctxs c).queueHeap k).nelts + 1) w c k = some w' ∧ BusInv w'
      ∧ Loosened w w' c ∧ w'.queueNodes c k = []
      ∧ (∀ i, i ≠ k → w'.queueNodes c i = w.queueNodes c i)
      ∧ ∀ p ∈ w.queueNodes c k, (w'.queues p).refcount < (w.queues p).refcount :=
  hi.queueHeapClear _ (by rw [hi.queue.nelts]; exact Nat.lt_succ_self _)

/-- The queue heaps, one category after the other. -/
theorem BusInv.clearQueueHeaps (c : CtxId) : ∀ (ks : List QueueCategory) {w : World}, BusInv w →
    ∃ w', ks.foldlM
        (fun w k => Ats.queueHeapClear (((w.ctxs c).queueHeap k).nelts + 1) w c k) w = some w'
      ∧ BusInv w' ∧ Loosened w w' c ∧ (∀ k ∈ ks, w'.queueNodes c k = [])
      ∧ ∀ k ∈ ks, ∀ p ∈ w.queueNodes c k, (w'.queues p).refcount < (w.queues p).refcount := by
  intro ks
  induction ks with
  | nil =>
      intro w hi
      exact ⟨w, rfl, hi, Loosened.refl w c, by simp, by simp⟩
  | cons k ks ih =>
      intro w hi
      obtain ⟨w1, hcall, hi1, hl1, hnil1, hkeep1, hless1⟩ := hi.clearQueueHeap c k
      obtain ⟨w', hrest, hi', hl', hnil', hless'⟩ := ih hi1
      refine ⟨w', ?_, hi', hl1.trans hl', fun i hm => ?_, fun i hm p hp => ?_⟩
      · rw [List.foldlM_cons, hcall]
        exact hrest
      · rcases List.mem_cons.mp hm with rfl | hm
        · refine List.eq_nil_iff_forall_not_mem.mpr (fun p hp => ?_)
          have := hl'.nodes i p hp
          rw [hnil1] at this
          cases this
        · exact hnil' i hm
      · have hle1 := hl1.refcount p
        have hle' := hl'.refcount p
        by_cases hik : i = k
        · subst hik
          have := hless1 p hp
          omega
        · have hi' := (List.mem_cons.mp hm).resolve_left hik
          have := hless' i hi' p (by rw [hkeep1 i hik]; exact hp)
          omega

theorem BusInv.busClearHeaps (hi : BusInv w) (c : CtxId) :
    ∃ w', busClearHeaps w c = some w' ∧ HeapsCleared w w' c := by
  obtain ⟨hi0, hl0, hs0, hn0⟩ := hi.busClearSaved c
  obtain ⟨w1, hcall1, hi1, hl1, hnil1, hless1⟩ :=
    hi0.clearQueueHeaps c [.market, .execution, .service, .command]
  have hall : ∀ k : QueueCategory, k ∈ [QueueCategory.market, .execution, .service, .command] :=
    fun k => by cases k <;> simp
  obtain ⟨w2, hcall2, hc2⟩ := hi1.timerHeapClear (c := c) (k := .clockLocal)
    (((w1.ctxs c).timerHeap .clockLocal).nelts + 1)
    (by rw [hi1.timer.nelts]; exact Nat.lt_succ_self _)
  obtain ⟨w3, hcall3, hc3⟩ := hc2.inv.timerHeapClear (c := c) (k := .clockExchange)
    (((w2.ctxs c).timerHeap .clockExchange).nelts + 1)
    (by rw [hc2.inv.timer.nelts]; exact Nat.lt_succ_self _)
  have hl2 := hc2.loosened
  have hl3 := hc3.loosened
  have hl := (hl1.trans hl2).trans hl3
  refine ⟨w3, ?_, hc3.inv, hl0.trans hl, hl.saved hs0, fun k => ?_, fun j => ?_,
    fun k p hp => ?_⟩
  · rw [Ats.busClearHeaps, hcall1]
    simp only [List.foldlM_cons, List.foldlM_nil, hcall2, hcall3, Option.bind_eq_bind,
      Option.bind_some]
    rfl
  · refine List.eq_nil_iff_forall_not_mem.mpr (fun p hp => ?_)
    have := (hl2.trans hl3).nodes k p hp
    rw [hnil1 k (hall k)] at this
    cases this
  · cases j with
    | clockLocal => rw [hc3.nodes_ne c .clockLocal (Or.inr (by decide)), hc2.nodes]
    | clockExchange => exact hc3.nodes
  · have h1 := hless1 k (hall k) p (by rw [hn0]; exact hp)
    have h0 := hl0.refcount p
    have h3 := (hl2.trans hl3).refcount p
    omega

end Ats
