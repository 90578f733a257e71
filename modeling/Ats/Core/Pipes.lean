import Ats.Core.BusInv

/-!
# Pipes: what the queue calls of the bus do

One lemma for each call: `event_queue_push`, `bus_add_queue` and
`event_pop_form_pipe` on a well-formed memory, in terms of the lists the
memory spells. `QueueFrame` names what all three leave alone.
-/

namespace Ats

variable {w w' w'' : World} {c : CtxId} {k : QueueCategory} {q : QueueId}
  {e : EventId}

/-! ## What a change of the queue side leaves alone -/

/-- Nothing has changed but pipe heaps, counters, rings, start ids and the
history. -/
structure QueueFrame (w w' : World) : Prop where
  events : w'.events = w.events
  reminders : w'.reminders = w.reminders
  timerNode : w'.timerNode = w.timerNode
  eventVtable : w'.eventVtable = w.eventVtable
  nextQueue : w'.nextQueue = w.nextQueue
  nextEvent : w'.nextEvent = w.nextEvent
  ctxs : ∀ d, w'.ctxs d
    = { w.ctxs d with
        queueHeap := (w'.ctxs d).queueHeap
        counter := (w'.ctxs d).counter }
  queues : ∀ p, w'.queues p
    = { w.queues p with
        spsc := (w'.queues p).spsc
        startId := (w'.queues p).startId }
  capacity : ∀ p, (w'.queues p).spsc.capacity = (w.queues p).spsc.capacity

namespace QueueFrame

theorem refl (w : World) : QueueFrame w w :=
  ⟨rfl, rfl, rfl, rfl, rfl, rfl, fun _ => rfl, fun _ => rfl, fun _ => rfl⟩

theorem trans (h : QueueFrame w w') (h' : QueueFrame w' w'') : QueueFrame w w'' where
  events := h'.events.trans h.events
  reminders := h'.reminders.trans h.reminders
  timerNode := h'.timerNode.trans h.timerNode
  eventVtable := h'.eventVtable.trans h.eventVtable
  nextQueue := h'.nextQueue.trans h.nextQueue
  nextEvent := h'.nextEvent.trans h.nextEvent
  ctxs := fun d => (h'.ctxs d).trans (by rw [h.ctxs d])
  queues := fun p => (h'.queues p).trans (by rw [h.queues p])
  capacity := fun p => (h'.capacity p).trans (h.capacity p)

/-- Read a field of a context that is not a pipe heap or the counter. -/
theorem ctx_proj {β : Type} (h : QueueFrame w w') (d : CtxId) (g : Ctx → β)
    (hg : ∀ x v n, g { x with queueHeap := v, counter := n } = g x) :
    g (w'.ctxs d) = g (w.ctxs d) := by
  rw [h.ctxs d, hg]

theorem queue_ctx (h : QueueFrame w w') (p : QueueId) :
    (w'.queues p).ctx = (w.queues p).ctx := by
  rw [h.queues p]

theorem queue_category (h : QueueFrame w w') (p : QueueId) :
    (w'.queues p).category = (w.queues p).category := by
  rw [h.queues p]

theorem pendingQueue (h : QueueFrame w w') (d : CtxId) :
    (w'.ctxs d).pendingQueue = (w.ctxs d).pendingQueue :=
  h.ctx_proj d Ctx.pendingQueue (fun _ _ _ => rfl)

theorem savedEvent (h : QueueFrame w w') (d : CtxId) :
    (w'.ctxs d).savedEvent = (w.ctxs d).savedEvent :=
  h.ctx_proj d Ctx.savedEvent (fun _ _ _ => rfl)

theorem savedFrom (h : QueueFrame w w') (d : CtxId) :
    (w'.ctxs d).savedFrom = (w.ctxs d).savedFrom :=
  h.ctx_proj d Ctx.savedFrom (fun _ _ _ => rfl)

theorem sameTimers (h : QueueFrame w w') : SameTimers w w' where
  ctx := fun t => by rw [h.reminders]
  clockType := fun t => by rw [h.reminders]
  node := h.timerNode
  heap := fun d => h.ctx_proj d Ctx.timerHeap (fun _ _ _ => rfl)

theorem note (w : World) (a : Act) : QueueFrame w (w.note a) :=
  ⟨rfl, rfl, rfl, rfl, rfl, rfl, fun _ => rfl, fun _ => rfl, fun _ => rfl⟩

/-- Rings and start ids may change. -/
theorem updQueue (w : World) (q : QueueId) {f : EventQueue → EventQueue}
    (hf : ∀ x, f x = { x with spsc := (f x).spsc, startId := (f x).startId })
    (hc : (f (w.queues q)).spsc.capacity = (w.queues q).spsc.capacity) :
    QueueFrame w (w.updQueue q f) where
  events := rfl
  reminders := rfl
  timerNode := rfl
  eventVtable := rfl
  nextQueue := rfl
  nextEvent := rfl
  ctxs := fun _ => rfl
  queues := fun p => by
    by_cases hp : p = q
    · subst hp
      simp only [World.updQueue, Function.update_self]
      exact hf _
    · simp only [World.updQueue, Function.update_of_ne hp]
  capacity := fun p => by
    by_cases hp : p = q
    · subst hp
      simpa only [World.updQueue, Function.update_self] using hc
    · simp only [World.updQueue, Function.update_of_ne hp]

end QueueFrame

theorem QueueHeapSet.frame {ys : List QueueId} (h : QueueHeapSet w w' c k ys) :
    QueueFrame w w' := by
  obtain ⟨m, rfl⟩ := h.eq
  refine ⟨rfl, rfl, rfl, rfl, rfl, rfl, fun d => ?_, fun _ => rfl, fun _ => rfl⟩
  by_cases hd : d = c
  · subst hd
    simp [World.setQueueMem, World.updCtx]
  · simp [World.setQueueMem, World.updCtx, Function.update_of_ne hd]

theorem QueueHeapSet.counter {ys : List QueueId} (h : QueueHeapSet w w' c k ys)
    (d : CtxId) : (w'.ctxs d).counter = (w.ctxs d).counter := by
  obtain ⟨m, rfl⟩ := h.eq
  exact w.setQueueMem_proj c d k m Ctx.counter (fun _ _ => rfl)

theorem QueueHeapSet.log {ys : List QueueId} (h : QueueHeapSet w w' c k ys) :
    w'.log = w.log := by
  obtain ⟨m, rfl⟩ := h.eq
  rfl

/-! ## Start ids -/

theorem queueStart_queues (w : World) (c : CtxId) (q p : QueueId) :
    (queueStart w c q).queues p
      = if p = q then { w.queues p with startId := (w.ctxs c).counter }
        else w.queues p := by
  by_cases hp : p = q
  · subst hp
    simp [queueStart, World.updCtx, World.updQueue]
  · simp [queueStart, World.updCtx, World.updQueue, hp]

theorem queueStart_ctxs (w : World) (c : CtxId) (q : QueueId) (d : CtxId) :
    (queueStart w c q).ctxs d
      = if d = c then { w.ctxs d with counter := (w.ctxs c).counter + 1 }
        else w.ctxs d := by
  by_cases hd : d = c
  · subst hd
    simp [queueStart, World.updCtx, World.updQueue]
  · simp [queueStart, World.updCtx, World.updQueue, hd]

theorem queueStart_sameQueues (w : World) (c : CtxId) (q : QueueId) :
    SameQueues w (queueStart w c q) where
  spsc := fun p => by rw [queueStart_queues]; split <;> rfl
  ctx := fun p => by rw [queueStart_queues]; split <;> rfl
  category := fun p => by rw [queueStart_queues]; split <;> rfl
  node := rfl
  next := rfl
  heap := fun d => by rw [queueStart_ctxs]; split <;> rfl
  pending := fun d => by rw [queueStart_ctxs]; split <;> rfl

theorem queueStart_frame (w : World) (c : CtxId) (q : QueueId) :
    QueueFrame w (queueStart w c q) where
  events := rfl
  reminders := rfl
  timerNode := rfl
  eventVtable := rfl
  nextQueue := rfl
  nextEvent := rfl
  ctxs := fun d => by rw [queueStart_ctxs]; split <;> rfl
  queues := fun p => by rw [queueStart_queues]; split <;> rfl
  capacity := fun p => by rw [queueStart_queues]; split <;> rfl

/-! ## Popping a ring -/

/-- Anything may happen to a queue that stands in no heap and on no list,
even its allocation. -/
theorem QueueInv.touch (h : QueueInv w) (hn : ∀ d j, q ∉ w.queueNodes d j)
    (hp : ∀ d, q ∉ (w.ctxs d).pendingQueue)
    (hheap : ∀ d, (w'.ctxs d).queueHeap = (w.ctxs d).queueHeap)
    (hpend : ∀ d, (w'.ctxs d).pendingQueue = (w.ctxs d).pendingQueue)
    (hnode : ∀ p, p ≠ q → w'.queueNode p = w.queueNode p)
    (hne : ∀ p, p ≠ q → w'.queues p = w.queues p)
    (hle : w.nextQueue ≤ w'.nextQueue)
    (hnew : ∀ p, p ≠ q → p < w'.nextQueue → p < w.nextQueue)
    (hring : SpscqRep (w'.queues q).spsc (w'.contents q)) :
    QueueInv w' ∧ ∀ d j, w'.queueNodes d j = w.queueNodes d j := by
  have hcont : ∀ p, p ≠ q → w'.contents p = w.contents p := by
    intro p hpq
    rw [World.contents, hne p hpq, World.contents]
  have hrep : ∀ d j, HeapRep (w'.queueMem d j) (w.queueNodes d j) := by
    intro d j
    refine (h.heap d j).congr ?_ (fun a ha => ?_)
    · show (w'.ctxs d).queueHeap j = (w.ctxs d).queueHeap j
      rw [hheap]
    · have haq : a ≠ q := fun hc => hn d j (hc ▸ ha)
      exact hnode a haq
  have hnodes : ∀ d j, w'.queueNodes d j = w.queueNodes d j :=
    fun d j => (hrep d j).heapNodes_eq
  have hlink : ∀ d j p, p ≠ q → Linkable w d j p → Linkable w' d j p := by
    intro d j p hpq hl
    refine ⟨Nat.lt_of_lt_of_le hl.lt hle, ?_, ?_, ?_⟩
    · rw [hne p hpq]
      exact hl.ctx
    · rw [hne p hpq]
      exact hl.category
    · rw [hcont p hpq]
      exact hl.nonempty
  refine ⟨?_, hnodes⟩
  constructor
  case ring =>
    intro p hpn
    by_cases hpq : p = q
    · subst hpq
      exact hring
    · rw [hne p hpq, hcont p hpq]
      exact h.ring p (hnew p hpq hpn)
  case heap =>
    intro d j
    rw [hnodes]
    exact hrep d j
  case linked =>
    intro d j p hpm
    rw [hnodes] at hpm
    have hpq : p ≠ q := fun hc => hn d j (hc ▸ hpm)
    exact hlink d j p hpq (h.linked d j p hpm)
  case pendingNodup =>
    intro d
    rw [hpend]
    exact h.pendingNodup d
  case pending =>
    intro d p hpm
    rw [hpend] at hpm
    have hpq : p ≠ q := fun hc => hp d (hc ▸ hpm)
    obtain ⟨hl, hnn⟩ := h.pending d p hpm
    rw [hne p hpq, hnodes]
    exact ⟨hlink d _ p hpq hl, hnn⟩

/-- Taking the head of a queue that stands in no heap and on no list. -/
theorem QueueInv.pop (h : QueueInv w) (hq : q < w.nextQueue)
    (hn : ∀ d j, q ∉ w.queueNodes d j)
    (hp : ∀ d, q ∉ (w.ctxs d).pendingQueue) {xs : List EventId}
    (hc : w.contents q = e :: xs) :
    ∃ w', pipePop w q = (w', some e) ∧ QueueInv w' ∧ QueueFrame w w'
      ∧ w'.contents q = xs ∧ (∀ p, p ≠ q → w'.queues p = w.queues p)
      ∧ (w'.queues q).startId = (w.queues q).startId
      ∧ w'.ctxs = w.ctxs ∧ w'.queueNode = w.queueNode
      ∧ w'.log = w.log ++ [.take q e] := by
  have hr := h.ring q hq
  rw [hc] at hr
  obtain ⟨hpop, hrep, hcap⟩ := hr.pop_cons
  have hpair : spscqPop (w.queues q).spsc = ((spscqPop (w.queues q).spsc).1, some e) :=
    Prod.ext rfl hpop
  have hpop' : pipePop w q = ((w.updQueue q fun x =>
      { x with spsc := (spscqPop (w.queues q).spsc).1 }).note (.take q e), some e) := by
    rw [pipePop, eventQueuePop, hpair]
  refine ⟨_, hpop', ?_⟩
  generalize hw' : (w.updQueue q fun x =>
      { x with spsc := (spscqPop (w.queues q).spsc).1 }).note (.take q e) = w'
  have hqs : w'.queues q = { w.queues q with spsc := (spscqPop (w.queues q).spsc).1 } := by
    rw [← hw']
    simp [World.note, World.updQueue]
  have hne : ∀ p, p ≠ q → w'.queues p = w.queues p := by
    intro p hpq
    rw [← hw']
    simp [World.note, World.updQueue, Function.update_of_ne hpq]
  have hcont : w'.contents q = xs := by
    rw [World.contents, hqs]
    exact hrep.toList_eq
  have hframe : QueueFrame w w' := by
    rw [← hw']
    exact (QueueFrame.updQueue w q (fun _ => rfl) hcap).trans (QueueFrame.note _ _)
  refine ⟨?_, hframe, hcont, hne, by rw [hqs], ?_, ?_, ?_⟩
  · refine (h.touch hn hp (fun _ => by rw [← hw']; rfl) (fun _ => by rw [← hw']; rfl)
      (fun _ _ => by rw [← hw']; rfl) hne (Nat.le_of_eq hframe.nextQueue.symm)
      (fun p _ hpn => hframe.nextQueue ▸ hpn) ?_).1
    rw [hcont, hqs]
    exact hrep
  · rw [← hw']
    rfl
  · rw [← hw']
    rfl
  · rw [← hw']
    rfl

/-! ## Keys -/

theorem queueKey_congr {p : QueueId} (he : w'.events = w.events)
    (hq : w'.queues p = w.queues p) : queueKey w' p = queueKey w p := by
  rw [queueKey, World.contents, he, hq, queueKey, World.contents]

/-! ## Putting a queue into its heap -/

/-- `q->start_id = ctx->counter++` and `heap_insert`, for a queue that
stands nowhere yet: the end of `event_pop_form_pipe` and of
`bus_add_queue`. -/
theorem QueueInv.start_insert (h : QueueInv w) (hl : Linkable w c k q)
    (hn : q ∉ w.queueNodes c k) (hp : q ∉ (w.ctxs c).pendingQueue) :
    ∃ w', queueHeapInsert (queueStart w c q) c k q = some w' ∧ QueueInv w'
      ∧ QueueFrame w w' ∧ (∀ p, w'.contents p = w.contents p)
      ∧ (∀ p, p ≠ q → w'.queues p = w.queues p)
      ∧ (w'.queueNodes c k).Perm (q :: w.queueNodes c k)
      ∧ (∀ d j, d ≠ c ∨ j ≠ k → w'.queueNodes d j = w.queueNodes d j)
      ∧ (w'.queues q).startId = (w.ctxs c).counter
      ∧ (w'.ctxs c).counter = (w.ctxs c).counter + 1
      ∧ (∀ d, d ≠ c → w'.ctxs d = w.ctxs d)
      ∧ w'.log = w.log
      ∧ (LevelHeap.Ordered (queueKey w) (w.queueNodes c k) →
          LevelHeap.Ordered (queueKey w') (w'.queueNodes c k)) := by
  have hs := queueStart_sameQueues w c q
  have h1 := hs.queueInv h
  obtain ⟨w', ys, hins, hset, hperm, hinv, hord⟩ := h1.insert (hs.linkable hl)
    (by rw [hs.queueNodes]; exact hn) (by rw [hs.pending]; exact hp)
  rw [hs.queueNodes] at hperm hord
  refine ⟨w', hins, hinv, (queueStart_frame w c q).trans hset.frame, fun p => ?_,
    fun p hpq => ?_, ?_, fun d j hd => ?_, ?_, ?_, fun d hd => ?_, hset.log, fun ho => ?_⟩
  · rw [hset.contents, hs.contents]
  · rw [hset.queues, queueStart_queues, if_neg hpq]
  · rw [hset.nodes]
    exact hperm
  · rw [hset.nodes_ne hd, hs.queueNodes]
  · rw [hset.queues, queueStart_queues, if_pos rfl]
  · rw [hset.counter, queueStart_ctxs, if_pos rfl]
  · obtain ⟨m, rfl⟩ := hset.eq
    simp [World.setQueueMem, World.updCtx, queueStart_ctxs, hd]
  · rw [hset.nodes]
    have hkeep : LevelHeap.Ordered (queueKey (queueStart w c q)) (w.queueNodes c k) := by
      refine ho.congr (fun a ha => queueKey_congr rfl ?_)
      have haq : a ≠ q := fun hc => hn (hc ▸ ha)
      rw [queueStart_queues, if_neg haq]
    refine (hord hkeep).congr (fun a _ => queueKey_congr hset.frame.events ?_)
    rw [hset.queues]

/-! ## `event_pop_form_pipe` -/

/-- **One service of a pipe**: the first queue `q` of the heap gives up its
oldest event `e`, and stays in the heap, with a new start id, unless that
was its last. -/
structure PipePop (w w' : World) (c : CtxId) (k : QueueCategory) (q : QueueId)
    (e : EventId) : Prop where
  frame : QueueFrame w w'
  first : (w.queueNodes c k).head? = some q
  linkable : Linkable w c k q
  contents : w.contents q = e :: w'.contents q
  others : ∀ p, p ≠ q → w'.queues p = w.queues p
  nodes : (w'.queueNodes c k).Perm
    (if w'.contents q = [] then (w.queueNodes c k).erase q else w.queueNodes c k)
  nodes_ne : ∀ d j, d ≠ c ∨ j ≠ k → w'.queueNodes d j = w.queueNodes d j
  startId : (w'.queues q).startId
    = if w'.contents q = [] then (w.queues q).startId else (w.ctxs c).counter
  counter : (w'.ctxs c).counter
    = if w'.contents q = [] then (w.ctxs c).counter else (w.ctxs c).counter + 1
  ctxs_ne : ∀ d, d ≠ c → w'.ctxs d = w.ctxs d
  log : w'.log = w.log ++ [.take q e]
  order : LevelHeap.Ordered (queueKey w) (w.queueNodes c k) →
    LevelHeap.Ordered (queueKey w') (w'.queueNodes c k)

theorem PipePop.contents_ne {p : QueueId} (h : PipePop w w' c k q e) (hp : p ≠ q) :
    w'.contents p = w.contents p := by
  rw [World.contents, h.others p hp, World.contents]

theorem PipePop.mem (h : PipePop w w' c k q e) : q ∈ w.queueNodes c k :=
  List.mem_of_mem_head? h.first

/-- Serving a pipe links no queue. -/
theorem PipePop.queueNodes_subset (h : PipePop w w' c k q e) (d : CtxId) (j : QueueCategory) :
    w'.queueNodes d j ⊆ w.queueNodes d j := by
  intro p hp
  by_cases hd : d = c ∧ j = k
  · obtain ⟨rfl, rfl⟩ := hd
    rw [h.nodes.mem_iff] at hp
    split at hp
    · exact List.mem_of_mem_erase hp
    · exact hp
  · rwa [h.nodes_ne d j (by tauto)] at hp

theorem QueueInv.eventPopFormPipe_nil (h : QueueInv w) (hn : w.queueNodes c k = []) :
    eventPopFormPipe w c k = some (w, none) := by
  rw [eventPopFormPipe, h.heapMin_eq, hn]
  rfl

/-- **The first half of a service**: `q` has left its heap and given up its
oldest event. -/
structure QueueTaken (w w' : World) (c : CtxId) (k : QueueCategory) (q : QueueId)
    (e : EventId) : Prop where
  frame : QueueFrame w w'
  contents : w.contents q = e :: w'.contents q
  others : ∀ p, p ≠ q → w'.queues p = w.queues p
  out : q ∉ w'.queueNodes c k
  nodes : (w'.queueNodes c k).Perm ((w.queueNodes c k).erase q)
  nodes_ne : ∀ d j, d ≠ c ∨ j ≠ k → w'.queueNodes d j = w.queueNodes d j
  startId : (w'.queues q).startId = (w.queues q).startId
  counter : (w'.ctxs c).counter = (w.ctxs c).counter
  ctxs_ne : ∀ d, d ≠ c → w'.ctxs d = w.ctxs d
  pending : ∀ d, q ∉ (w'.ctxs d).pendingQueue
  log : w'.log = w.log ++ [.take q e]
  order : LevelHeap.Ordered (queueKey w) (w.queueNodes c k) →
    LevelHeap.Ordered (queueKey w') (w'.queueNodes c k)

/-- `heap_remove`, then `event_queue_pop`. -/
theorem QueueInv.take (h : QueueInv w) (hmem : q ∈ w.queueNodes c k) :
    ∃ w1 w' e, queueHeapRemove w c k q = some w1 ∧ pipePop w1 q = (w', some e)
      ∧ QueueTaken w w' c k q e ∧ QueueInv w' := by
  have hl := h.linked c k q hmem
  obtain ⟨e, xs, hc⟩ := List.exists_cons_of_ne_nil hl.nonempty
  -- `heap_remove`: now `q` stands nowhere
  obtain ⟨w1, ys, hrem, hset, hperm, h1, hord1⟩ := h.remove hmem
  obtain ⟨hnowhere, hnopend⟩ := h.nowhere_of_removed hmem hset hperm h1
  have hl1 : Linkable w1 c k q := hset.linkable hl
  -- `event_queue_pop`
  obtain ⟨w2, hpop, h2, hf2, hc2, hne2, hs2, hx2, hnode2, hlog2⟩ :=
    h1.pop hl1.lt hnowhere hnopend ((hset.contents q).trans hc)
  have hnodes2 : ∀ d j, w2.queueNodes d j = w1.queueNodes d j := by
    intro d j
    rw [World.queueNodes, World.queueMem, hx2, hnode2]
    rfl
  refine ⟨w1, w2, e, hrem, hpop, ?_, h2⟩
  constructor
  case frame => exact hset.frame.trans hf2
  case contents => rw [hc, hc2]
  case others => intro p hp; rw [hne2 p hp, hset.queues]
  case out => rw [hnodes2]; exact hnowhere c k
  case nodes => rw [hnodes2, hset.nodes]; exact hperm
  case nodes_ne => intro d j hd; rw [hnodes2, hset.nodes_ne hd]
  case startId => rw [hs2, hset.queues]
  case counter => rw [hx2, hset.counter]
  case ctxs_ne =>
    intro d hd
    obtain ⟨m, rfl⟩ := hset.eq
    rw [hx2]
    simp [World.setQueueMem, World.updCtx, Function.update_of_ne hd]
  case pending => intro d; rw [hx2]; exact hnopend d
  case log => rw [hlog2, hset.log]
  case order =>
    intro ho
    rw [hnodes2, hset.nodes]
    refine (hord1 ho).congr (fun a ha => ?_)
    have haq : a ≠ q := by
      rintro rfl
      exact hnowhere c k (hset.nodes.symm ▸ ha)
    have hqa : w2.queues a = w.queues a := by rw [hne2 a haq, hset.queues]
    exact queueKey_congr (hf2.events.trans hset.frame.events) hqa

/-- **`event_pop_form_pipe` on a heap that holds a queue.** -/
theorem QueueInv.eventPopFormPipe (h : QueueInv w) (hn : w.queueNodes c k ≠ []) :
    ∃ w' q e, eventPopFormPipe w c k = some (w', some e) ∧ PipePop w w' c k q e
      ∧ QueueInv w' := by
  obtain ⟨q, rest, hqr⟩ := List.exists_cons_of_ne_nil hn
  have hmem : q ∈ w.queueNodes c k := by
    rw [hqr]
    exact List.mem_cons_self
  have hfirst : (w.queueNodes c k).head? = some q := by
    rw [hqr]
    rfl
  have hl := h.linked c k q hmem
  obtain ⟨w1, w2, e, hrem, hpop, ht, h2⟩ := h.take hmem
  have hlt2 : q < w2.nextQueue := ht.frame.nextQueue ▸ hl.lt
  have hcall : Ats.eventPopFormPipe w c k
      = (if eventQueueIsEmpty w2 q then some w2 else pipeRequeue w2 k q).bind
          (fun w => some (w, some e)) := by
    rw [Ats.eventPopFormPipe, h.heapMin_eq, hfirst]
    simp only [hrem, Option.bind_eq_bind, Option.bind_some, hpop]
    split <;> rfl
  by_cases hc2 : w2.contents q = []
  · -- the last event: the queue stays out
    have hempty : eventQueueIsEmpty w2 q = true := (h2.isEmpty_iff hlt2).mpr hc2
    refine ⟨w2, q, e, by rw [hcall, if_pos hempty]; rfl, ?_, h2⟩
    exact ⟨ht.frame, hfirst, hl, ht.contents, ht.others, by rw [if_pos hc2]; exact ht.nodes,
      ht.nodes_ne, by rw [if_pos hc2]; exact ht.startId, by rw [if_pos hc2]; exact ht.counter,
      ht.ctxs_ne, ht.log, ht.order⟩
  · have hempty : ¬ eventQueueIsEmpty w2 q = true := fun hc => hc2 ((h2.isEmpty_iff hlt2).mp hc)
    have hctx2 : (w2.queues q).ctx = some c := (ht.frame.queue_ctx q).trans hl.ctx
    have hl2 : Linkable w2 c k q :=
      ⟨hlt2, hctx2, (ht.frame.queue_category q).trans hl.category, hc2⟩
    -- back into the heap
    obtain ⟨w3, hins, h3, hf3, hc3, hne3, hperm3, hnn3, hs3, hcnt3, hx3, hlog3, hord3⟩ :=
      h2.start_insert hl2 ht.out (ht.pending c)
    have hre : pipeRequeue w2 k q = some w3 := by
      rw [pipeRequeue, hctx2]
      exact hins
    have hc3' : w3.contents q ≠ [] := by
      rw [hc3]
      exact hc2
    refine ⟨w3, q, e, by rw [hcall, if_neg hempty, hre]; rfl, ?_, h3⟩
    constructor
    case frame => exact ht.frame.trans hf3
    case first => exact hfirst
    case linkable => exact hl
    case contents => rw [hc3]; exact ht.contents
    case others => intro p hp; rw [hne3 p hp, ht.others p hp]
    case nodes =>
      rw [if_neg hc3']
      exact hperm3.trans ((ht.nodes.cons q).trans (List.perm_cons_erase hmem).symm)
    case nodes_ne => intro d j hd; rw [hnn3 d j hd, ht.nodes_ne d j hd]
    case startId => rw [if_neg hc3', hs3, ht.counter]
    case counter => rw [if_neg hc3', hcnt3, ht.counter]
    case ctxs_ne => intro d hd; rw [hx3 d hd, ht.ctxs_ne d hd]
    case log => rw [hlog3, ht.log]
    case order => exact fun ho => hord3 (ht.order ho)

/-! ## `bus_add_queue` -/

/-- **Registering**: `q` gets its bus and a new start id, and goes into its
heap unless it is empty. -/
structure QueueAdded (w w' : World) (c : CtxId) (q : QueueId) : Prop where
  frame : QueueFrame (w.updQueue q fun x => { x with ctx := some c }) w'
  contents : ∀ p, w'.contents p = w.contents p
  others : ∀ p, p ≠ q → w'.queues p = w.queues p
  ctx : (w'.queues q).ctx = some c
  category : (w'.queues q).category = (w.queues q).category
  nodes : (w'.queueNodes c (w.queues q).category).Perm
    (if w.contents q = [] then w.queueNodes c (w.queues q).category
      else q :: w.queueNodes c (w.queues q).category)
  nodes_ne : ∀ d j, d ≠ c ∨ j ≠ (w.queues q).category →
    w'.queueNodes d j = w.queueNodes d j
  startId : (w'.queues q).startId = (w.ctxs c).counter
  counter : (w'.ctxs c).counter = (w.ctxs c).counter + 1
  ctxs_ne : ∀ d, d ≠ c → w'.ctxs d = w.ctxs d
  log : w'.log = w.log ++ [.register c q]
  order : ∀ d j, LevelHeap.Ordered (queueKey w) (w.queueNodes d j) →
    LevelHeap.Ordered (queueKey w') (w'.queueNodes d j)

/-- A queue that is registered nowhere stands in no heap and on no list. -/
theorem QueueInv.nowhere_of_ctx (h : QueueInv w) (hc : (w.queues q).ctx = none) :
    (∀ d j, q ∉ w.queueNodes d j) ∧ ∀ d, q ∉ (w.ctxs d).pendingQueue := by
  constructor
  · intro d j hm
    have := (h.linked d j q hm).ctx
    rw [hc] at this
    cases this
  · intro d hm
    have := (h.pending d q hm).1.ctx
    rw [hc] at this
    cases this

/-- **The first half of `bus_add_queue`**: `q` gets its bus and a new start
id. -/
structure QueueRegistered (w w' : World) (c : CtxId) (q : QueueId) : Prop where
  frame : QueueFrame (w.updQueue q fun x => { x with ctx := some c }) w'
  contents : ∀ p, w'.contents p = w.contents p
  others : ∀ p, p ≠ q → w'.queues p = w.queues p
  ctx : (w'.queues q).ctx = some c
  category : (w'.queues q).category = (w.queues q).category
  nodes : ∀ d j, w'.queueNodes d j = w.queueNodes d j
  startId : (w'.queues q).startId = (w.ctxs c).counter
  counter : (w'.ctxs c).counter = (w.ctxs c).counter + 1
  ctxs_ne : ∀ d, d ≠ c → w'.ctxs d = w.ctxs d
  log : w'.log = w.log ++ [.register c q]
  order : ∀ d j, LevelHeap.Ordered (queueKey w) (w.queueNodes d j) →
    LevelHeap.Ordered (queueKey w') (w'.queueNodes d j)

/-- Registering a queue that stands nowhere: one that was never registered,
or one just taken off the pending list. -/
theorem QueueInv.busRegister (h : QueueInv w) (hq : q < w.nextQueue)
    (hc : (w.queues q).ctx = some c ∨ (w.queues q).ctx = none)
    (hn : ∀ d j, q ∉ w.queueNodes d j) (hp : ∀ d, q ∉ (w.ctxs d).pendingQueue) :
    ∃ w', busRegister w c q = some w' ∧ QueueRegistered w w' c q ∧ QueueInv w' := by
  generalize hw0 : (w.updQueue q fun x => { x with ctx := some c }).note (.register c q) = w0
  have hf0 : QueueFrame (w.updQueue q fun x => { x with ctx := some c }) w0 := by
    rw [← hw0]
    exact QueueFrame.note _ _
  have hq0 : w0.queues q = { w.queues q with ctx := some c } := by
    rw [← hw0]
    simp [World.note, World.updQueue]
  have hne0 : ∀ p, p ≠ q → w0.queues p = w.queues p := by
    intro p hpq
    rw [← hw0]
    simp [World.note, World.updQueue, Function.update_of_ne hpq]
  have hctx0 : w0.ctxs = w.ctxs := by
    rw [← hw0]
    rfl
  have hev0 : w0.events = w.events := by
    rw [← hw0]
    rfl
  have hcont0 : ∀ p, w0.contents p = w.contents p := by
    intro p
    by_cases hpq : p = q
    · rw [hpq, World.contents, hq0, World.contents]
    · rw [World.contents, hne0 p hpq, World.contents]
  have hnext0 : w0.nextQueue = w.nextQueue := by
    rw [← hw0]
    rfl
  obtain ⟨h0, hnodes0⟩ := h.touch hn hp (fun _ => by rw [hctx0]) (fun _ => by rw [hctx0])
    (fun _ _ => by rw [← hw0]; rfl) hne0 (Nat.le_of_eq hnext0.symm)
    (fun p _ hpn => hnext0 ▸ hpn)
    (by rw [hcont0, hq0]; exact h.ring q hq)
  have hs := queueStart_sameQueues w0 c q
  refine ⟨queueStart w0 c q, by rw [Ats.busRegister, if_pos hc, hw0], ?_, hs.queueInv h0⟩
  constructor
  case frame => exact hf0.trans (queueStart_frame w0 c q)
  case contents => intro p; rw [hs.contents, hcont0]
  case others => intro p hpq; rw [queueStart_queues, if_neg hpq, hne0 p hpq]
  case ctx => rw [hs.ctx, hq0]
  case category => rw [hs.category, hq0]
  case nodes => intro d j; rw [hs.queueNodes, hnodes0]
  case startId => rw [queueStart_queues, if_pos rfl, hctx0]
  case counter => rw [queueStart_ctxs, if_pos rfl, hctx0]
  case ctxs_ne => intro d hd; rw [queueStart_ctxs, if_neg hd, hctx0]
  case log => rw [← hw0]; rfl
  case order =>
    intro d j ho
    rw [hs.queueNodes, hnodes0]
    refine ho.congr (fun a ha => queueKey_congr hev0 ?_)
    have haq : a ≠ q := fun hc => hn d j (hc ▸ ha)
    rw [queueStart_queues, if_neg haq, hne0 a haq]

/-- **`bus_add_queue`** on a queue that stands nowhere. -/
theorem QueueInv.busAddQueue (h : QueueInv w) (hq : q < w.nextQueue)
    (hc : (w.queues q).ctx = some c ∨ (w.queues q).ctx = none)
    (hn : ∀ d j, q ∉ w.queueNodes d j) (hp : ∀ d, q ∉ (w.ctxs d).pendingQueue) :
    ∃ w', busAddQueue w c q = some w' ∧ QueueAdded w w' c q ∧ QueueInv w' := by
  obtain ⟨w1, hcall1, hreg, h1⟩ := h.busRegister hq hc hn hp
  have hlt1 : q < w1.nextQueue := hreg.frame.nextQueue.symm ▸ hq
  have hcall : Ats.busAddQueue w c q
      = if eventQueueIsEmpty w1 q then some w1
        else queueHeapInsert w1 c (w1.queues q).category q := by
    rw [Ats.busAddQueue, hcall1]
    rfl
  have hempty : eventQueueIsEmpty w1 q = true ↔ w.contents q = [] := by
    rw [h1.isEmpty_iff hlt1, hreg.contents]
  by_cases he : w.contents q = []
  · refine ⟨w1, by rw [hcall, if_pos (hempty.mpr he)], ?_, h1⟩
    exact ⟨hreg.frame, hreg.contents, hreg.others, hreg.ctx, hreg.category,
      by rw [if_pos he, hreg.nodes], fun d j _ => hreg.nodes d j, hreg.startId,
      hreg.counter, hreg.ctxs_ne, hreg.log, hreg.order⟩
  · have hl1 : Linkable w1 c (w.queues q).category q :=
      ⟨hlt1, hreg.ctx, hreg.category, by rw [hreg.contents]; exact he⟩
    obtain ⟨w', ys, hins, hset, hperm, h', hord⟩ := h1.insert hl1
      (by rw [hreg.nodes]; exact hn _ _)
      (by rw [hreg.frame.pendingQueue]; exact hp c)
    refine ⟨w', ?_, ?_, h'⟩
    · rw [hcall, if_neg (fun hc => he (hempty.mp hc)), hreg.category]
      exact hins
    constructor
    case frame => exact hreg.frame.trans hset.frame
    case contents => intro p; rw [hset.contents, hreg.contents]
    case others => intro p hpq; rw [hset.queues, hreg.others p hpq]
    case ctx => rw [hset.queues, hreg.ctx]
    case category => rw [hset.queues, hreg.category]
    case nodes =>
      rw [if_neg he, hset.nodes, ← hreg.nodes]
      exact hperm
    case nodes_ne => intro d j hd; rw [hset.nodes_ne hd, hreg.nodes]
    case startId => rw [hset.queues, hreg.startId]
    case counter => rw [hset.counter, hreg.counter]
    case ctxs_ne =>
      intro d hd
      obtain ⟨m, rfl⟩ := hset.eq
      rw [← hreg.ctxs_ne d hd]
      simp [World.setQueueMem, World.updCtx, Function.update_of_ne hd]
    case log => rw [hset.log, hreg.log]
    case order =>
      intro d j ho
      have hkey : ∀ a, queueKey w' a = queueKey w1 a :=
        fun a => queueKey_congr hset.frame.events (by rw [hset.queues])
      by_cases hd : d = c ∧ j = (w.queues q).category
      · obtain ⟨rfl, rfl⟩ := hd
        rw [hset.nodes]
        exact (hord (hreg.order _ _ ho)).congr (fun a _ => hkey a)
      · rw [hset.nodes_ne (by tauto)]
        exact (hreg.order d j ho).congr (fun a _ => hkey a)

/-! ## `event_queue_push` -/

/-- **An append that found room.** -/
structure QueueAppended (w w' : World) (q : QueueId) (e : EventId) : Prop where
  lt : q < w.nextQueue
  room : (w.contents q).length + 1 < (w.queues q).spsc.capacity
  ring : SpscqRep (w'.queues q).spsc (w.contents q ++ [e])
  queue : w'.queues q = { w.queues q with spsc := (w'.queues q).spsc }
  capacity : (w'.queues q).spsc.capacity = (w.queues q).spsc.capacity
  others : ∀ p, p ≠ q → w'.queues p = w.queues p
  rest : w' = { w with queues := w'.queues, log := w.log ++ [.push q e] }

namespace QueueAppended

theorem contents (h : QueueAppended w w' q e) : w'.contents q = w.contents q ++ [e] :=
  h.ring.toList_eq

theorem contents_ne (h : QueueAppended w w' q e) {p : QueueId} (hp : p ≠ q) :
    w'.contents p = w.contents p := by
  rw [World.contents, h.others p hp, World.contents]

theorem ctx (h : QueueAppended w w' q e) (p : QueueId) :
    (w'.queues p).ctx = (w.queues p).ctx := by
  by_cases hp : p = q
  · rw [hp, h.queue]
  · rw [h.others p hp]

theorem category (h : QueueAppended w w' q e) (p : QueueId) :
    (w'.queues p).category = (w.queues p).category := by
  by_cases hp : p = q
  · rw [hp, h.queue]
  · rw [h.others p hp]

theorem startId (h : QueueAppended w w' q e) (p : QueueId) :
    (w'.queues p).startId = (w.queues p).startId := by
  by_cases hp : p = q
  · rw [hp, h.queue]
  · rw [h.others p hp]

theorem ctxs (h : QueueAppended w w' q e) : w'.ctxs = w.ctxs := by rw [h.rest]

theorem nextQueue (h : QueueAppended w w' q e) : w'.nextQueue = w.nextQueue := by
  rw [h.rest]

theorem queueNodes (h : QueueAppended w w' q e) (d : CtxId) (j : QueueCategory) :
    w'.queueNodes d j = w.queueNodes d j := by
  rw [World.queueNodes, h.rest]
  rfl

theorem linkable (h : QueueAppended w w' q e) {d : CtxId} {j : QueueCategory}
    {p : QueueId} (hl : Linkable w d j p) : Linkable w' d j p := by
  refine ⟨h.nextQueue ▸ hl.lt, (h.ctx p).trans hl.ctx, (h.category p).trans hl.category, ?_⟩
  by_cases hpq : p = q
  · rw [hpq, h.contents]
    simp
  · rw [h.contents_ne hpq]
    exact hl.nonempty

theorem queueInv (h : QueueAppended w w' q e) (hi : QueueInv w) : QueueInv w' where
  ring := by
    intro p hp
    by_cases hpq : p = q
    · rw [hpq, h.contents]
      exact h.ring
    · rw [h.others p hpq, h.contents_ne hpq]
      exact hi.ring p (h.nextQueue ▸ hp)
  heap := by
    intro d j
    rw [h.queueNodes, h.rest]
    exact hi.heap d j
  linked := by
    intro d j p hp
    rw [h.queueNodes] at hp
    exact h.linkable (hi.linked d j p hp)
  pendingNodup := by
    rw [h.ctxs]
    exact hi.pendingNodup
  pending := by
    intro d p hp
    rw [h.ctxs] at hp
    obtain ⟨hl, hn⟩ := hi.pending d p hp
    rw [h.category, h.queueNodes]
    exact ⟨h.linkable hl, hn⟩

/-- A linked queue keeps its head, so no heap changes its order. -/
theorem order (h : QueueAppended w w' q e) (hi : QueueInv w) {d : CtxId}
    {j : QueueCategory} (ho : LevelHeap.Ordered (queueKey w) (w.queueNodes d j)) :
    LevelHeap.Ordered (queueKey w') (w'.queueNodes d j) := by
  rw [h.queueNodes]
  refine ho.congr (fun a ha => ?_)
  have hev : w'.events = w.events := by rw [h.rest]
  by_cases haq : a = q
  · subst haq
    obtain ⟨x, xs, hx⟩ := List.exists_cons_of_ne_nil (hi.linked d j a ha).nonempty
    rw [queueKey, queueKey, hev, h.contents, h.startId, hx]
    rfl
  · exact queueKey_congr hev (h.others a haq)

end QueueAppended

/-- **`spscq_push` of `event_queue_push`.** -/
theorem QueueInv.append (h : QueueInv w) (hq : q < w.nextQueue) (e : EventId) :
    (∃ w', eventQueueAppend w q e = (w', 0) ∧ QueueAppended w w' q e)
      ∨ eventQueueAppend w q e = (w, -1)
        ∧ (w.contents q).length + 1 = (w.queues q).spsc.capacity := by
  have hr := h.ring q hq
  rcases Nat.lt_or_ge ((w.contents q).length + 1) (w.queues q).spsc.capacity with hlt | hge
  · left
    obtain ⟨hret, hrep, hcap⟩ := hr.push e hlt
    have hpair : spscqPush (w.queues q).spsc e = ((spscqPush (w.queues q).spsc e).1, 0) :=
      Prod.ext rfl hret
    have hcall : eventQueueAppend w q e = ((w.updQueue q fun x =>
        { x with spsc := (spscqPush (w.queues q).spsc e).1 }).note (.push q e), 0) := by
      rw [eventQueueAppend, hpair]
      rfl
    refine ⟨_, hcall, hq, hlt, ?_, ?_, ?_, fun p hp => ?_, rfl⟩
    · simpa [World.note, World.updQueue] using hrep
    · simp [World.note, World.updQueue]
    · simpa [World.note, World.updQueue] using hcap
    · simp [World.note, World.updQueue, Function.update_of_ne hp]
  · right
    have hfits := hr.fits
    have hfull : (w.contents q).length + 1 = (w.queues q).spsc.capacity := by omega
    refine ⟨?_, hfull⟩
    rw [eventQueueAppend, hr.push_full e hfull]
    simp [World.updQueue]

/-- **The notification**: a queue that stands nowhere goes onto the pending
list of its bus. -/
theorem QueueInv.notify (h : QueueInv w) (hl : Linkable w c (w.queues q).category q)
    (hn : q ∉ w.queueNodes c (w.queues q).category) (hp : q ∉ (w.ctxs c).pendingQueue) :
    QueueInv (busAsyncAddQueue w c q) := by
  have hpend : ∀ d, ((busAsyncAddQueue w c q).ctxs d).pendingQueue
      = if d = c then (w.ctxs d).pendingQueue ++ [q] else (w.ctxs d).pendingQueue := by
    intro d
    by_cases hd : d = c
    · subst hd
      simp [busAsyncAddQueue, World.updCtx]
    · simp [busAsyncAddQueue, World.updCtx, hd]
  have hnodes : ∀ d j, (busAsyncAddQueue w c q).queueMem d j = w.queueMem d j := by
    intro d j
    have := w.updCtx_proj c d (f := fun x => { x with pendingQueue := x.pendingQueue ++ [q] })
      Ctx.queueHeap (fun _ => rfl)
    rw [World.queueMem, busAsyncAddQueue, this]
    rfl
  have hlink : ∀ d j p, Linkable w d j p → Linkable (busAsyncAddQueue w c q) d j p :=
    fun d j p hl => ⟨hl.lt, hl.ctx, hl.category, hl.nonempty⟩
  constructor
  case ring => exact h.ring
  case heap =>
    intro d j
    rw [World.queueNodes, hnodes]
    exact h.heap d j
  case linked =>
    intro d j p hm
    rw [World.queueNodes, hnodes] at hm
    exact hlink d j p (h.linked d j p hm)
  case pendingNodup =>
    intro d
    rw [hpend]
    split
    case isTrue hd =>
      rw [List.nodup_append]
      refine ⟨h.pendingNodup d, List.nodup_singleton q, ?_⟩
      intro a ha b hb hab
      rw [List.mem_singleton] at hb
      rw [hab, hb, hd] at ha
      exact hp ha
    case isFalse => exact h.pendingNodup d
  case pending =>
    intro d p hm
    rw [hpend] at hm
    have hold : p ∈ (w.ctxs d).pendingQueue →
        Linkable (busAsyncAddQueue w c q) d (w.queues p).category p
          ∧ p ∉ (busAsyncAddQueue w c q).queueNodes d (w.queues p).category := by
      intro hm
      obtain ⟨hlp, hnp⟩ := h.pending d p hm
      rw [World.queueNodes, hnodes]
      exact ⟨hlink d _ p hlp, hnp⟩
    split at hm
    case isFalse => exact hold hm
    case isTrue hd =>
      rcases List.mem_append.mp hm with hm | hm
      · exact hold hm
      · rw [List.mem_singleton] at hm
        subst hm hd
        refine ⟨hlink d _ p hl, ?_⟩
        rw [World.queueNodes, hnodes]
        exact hn

/-- **A push that found room**: the event is the last of `q`, and a queue
that was empty and is registered goes onto the pending list of its bus. -/
structure QueuePushed (w w' : World) (q : QueueId) (e : EventId) : Prop where
  append : ∃ w1, QueueAppended w w1 q e ∧ w' = { w1 with ctxs := w'.ctxs }
  ctxs : ∀ d, w'.ctxs d
    = { w.ctxs d with
        pendingQueue :=
          if w.contents q = [] ∧ (w.queues q).ctx = some d then
            (w.ctxs d).pendingQueue ++ [q]
          else (w.ctxs d).pendingQueue }

theorem eventQueueNotify_ctx (hc : (w.queues q).ctx = some c) :
    eventQueueNotify w q true 0 = some (busAsyncAddQueue w c q) := by
  simp [eventQueueNotify, hc]

theorem eventQueueNotify_skip {isEmpty : Bool} {ret : Int}
    (h : ¬ (isEmpty = true ∧ ∃ c, (w.queues q).ctx = some c)) :
    eventQueueNotify w q isEmpty ret = some w := by
  cases isEmpty with
  | false => rfl
  | true =>
      cases hc : (w.queues q).ctx with
      | none => simp [eventQueueNotify, hc]
      | some c => exact absurd ⟨rfl, c, hc⟩ h

/-- **`event_queue_push`** appends and notifies, or finds the ring full and
changes nothing. -/
theorem QueueInv.eventQueuePush (h : QueueInv w) (hq : q < w.nextQueue) (e : EventId) :
    ∃ w' ret, eventQueuePush w q e = some (w', ret) ∧ QueueInv w'
      ∧ (ret = 0 ∧ QueuePushed w w' q e
        ∨ ret = -1 ∧ w' = w
          ∧ (w.contents q).length + 1 = (w.queues q).spsc.capacity) := by
  have hempty := h.isEmpty_iff hq
  rcases h.append hq e with ⟨w1, hcall, happ⟩ | ⟨hcall, hfull⟩
  · have h1 := happ.queueInv h
    by_cases hn : w.contents q = [] ∧ ∃ c, (w.queues q).ctx = some c
    · -- empty and registered: notify
      obtain ⟨hc, c, hctx⟩ := hn
      have hctx1 : (w1.queues q).ctx = some c := (happ.ctx q).trans hctx
      have hne1 : w1.contents q ≠ [] := by
        rw [happ.contents]
        simp
      have h2 : QueueInv (busAsyncAddQueue w1 c q) := by
        refine h1.notify ⟨happ.nextQueue ▸ hq, hctx1, rfl, hne1⟩ ?_ ?_
        · rw [happ.queueNodes]
          exact fun hm => (h.linked c _ q hm).nonempty hc
        · rw [happ.ctxs]
          exact fun hm => (h.pending c q hm).1.nonempty hc
      refine ⟨busAsyncAddQueue w1 c q, 0, ?_, h2, Or.inl ⟨rfl, ⟨w1, happ, rfl⟩, fun d => ?_⟩⟩
      · rw [Ats.eventQueuePush, hcall]
        show Option.bind (eventQueueNotify w1 q (eventQueueIsEmpty w q) 0) _ = _
        rw [hempty.mpr hc, eventQueueNotify_ctx hctx1]
        rfl
      · by_cases hd : d = c
        · subst hd
          simp [busAsyncAddQueue, World.updCtx, happ.ctxs, hc, hctx]
        · have hd' : ¬ c = d := fun hcd => hd hcd.symm
          simp [busAsyncAddQueue, World.updCtx, happ.ctxs, hctx, hd, hd']
    · refine ⟨w1, 0, ?_, h1, Or.inl ⟨rfl, ⟨w1, happ, rfl⟩, fun d => ?_⟩⟩
      · rw [Ats.eventQueuePush, hcall]
        show Option.bind (eventQueueNotify w1 q (eventQueueIsEmpty w q) 0) _ = _
        rw [eventQueueNotify_skip]
        · rfl
        · rw [happ.ctx, hempty]
          exact hn
      · have hd : ¬ (w.contents q = [] ∧ (w.queues q).ctx = some d) :=
          fun hc => hn ⟨hc.1, d, hc.2⟩
        rw [if_neg hd, happ.ctxs]
  · -- a full ring is not empty, so nobody is notified
    have hne : w.contents q ≠ [] := by
      intro hc
      have := (h.ring q hq).two_le
      rw [hc] at hfull
      simp at hfull
      omega
    refine ⟨w, -1, ?_, h, Or.inr ⟨rfl, rfl, hfull⟩⟩
    rw [Ats.eventQueuePush, hcall]
    show Option.bind (eventQueueNotify w q (eventQueueIsEmpty w q) (-1)) _ = _
    rw [eventQueueNotify_skip (fun hc => hne (hempty.mp hc.1))]
    rfl

end Ats
