import Ats.Base.HeapOps
import Ats.Core.EventBus
import Mathlib.Data.Prod.Lex

/-!
# BusInv: what the pointers of a bus spell

`QueueInv` and `TimerInv` say that every heap header, with the links in the
objects, spells a list of distinct objects that belong there, and that every
ring and every pending list is well formed. They carry the specifications of
the heap calls in `event_bus.c`: each call is the list operation it stands
for, and leaves the other heaps alone.
-/

namespace Ats

/-- A queue the code may hold in `queue_heap[k]` of `c`: allocated,
registered there, and not empty. -/
structure Linkable (w : World) (c : CtxId) (k : QueueCategory) (q : QueueId) :
    Prop where
  lt : q < w.nextQueue
  ctx : (w.queues q).ctx = some c
  category : (w.queues q).category = k
  nonempty : w.contents q ≠ []

/-- **The queue side of the memory.** -/
structure QueueInv (w : World) : Prop where
  ring : ∀ q, q < w.nextQueue → SpscqRep (w.queues q).spsc (w.contents q)
  heap : ∀ c k, HeapRep (w.queueMem c k) (w.queueNodes c k)
  linked : ∀ c k, ∀ q ∈ w.queueNodes c k, Linkable w c k q
  pendingNodup : ∀ c, (w.ctxs c).pendingQueue.Nodup
  pending : ∀ c, ∀ q ∈ (w.ctxs c).pendingQueue,
    Linkable w c (w.queues q).category q
      ∧ q ∉ w.queueNodes c (w.queues q).category

/-- **The timer side of the memory.** -/
structure TimerInv (w : World) : Prop where
  heap : ∀ c k, HeapRep (w.timerMem c k) (w.timerNodes c k)
  armed : ∀ c k, ∀ t ∈ w.timerNodes c k,
    (w.reminders t).ctx = some c ∧ (w.reminders t).clockType = k

/-! ## Fields that a change of something else leaves alone -/

theorem World.updCtx_proj {β : Type} (w : World) (c d : CtxId) {f : Ctx → Ctx}
    (g : Ctx → β) (h : ∀ x, g (f x) = g x) :
    g ((w.updCtx c f).ctxs d) = g (w.ctxs d) := by
  by_cases hd : d = c
  · subst hd
    simp [World.updCtx, h]
  · simp [World.updCtx, Function.update_of_ne hd]

theorem World.updQueue_proj {β : Type} (w : World) (q p : QueueId)
    {f : EventQueue → EventQueue} (g : EventQueue → β) (h : ∀ x, g (f x) = g x) :
    g ((w.updQueue q f).queues p) = g (w.queues p) := by
  by_cases hp : p = q
  · subst hp
    simp [World.updQueue, h]
  · simp [World.updQueue, Function.update_of_ne hp]

theorem World.updEvent_proj {β : Type} (w : World) (e a : EventId)
    {f : Event → Event} (g : Event → β) (h : ∀ x, g (f x) = g x) :
    g ((w.updEvent e f).events a) = g (w.events a) := by
  by_cases ha : a = e
  · subst ha
    simp [World.updEvent, h]
  · simp [World.updEvent, Function.update_of_ne ha]

theorem World.setQueueMem_proj {β : Type} (w : World) (c d : CtxId)
    (k : QueueCategory) (m : HeapMem QueueId) (g : Ctx → β)
    (h : ∀ x v, g { x with queueHeap := v } = g x) :
    g ((w.setQueueMem c k m).ctxs d) = g (w.ctxs d) := by
  by_cases hd : d = c
  · subst hd
    simp [World.setQueueMem, World.updCtx, h]
  · simp [World.setQueueMem, World.updCtx, Function.update_of_ne hd]

theorem World.setTimerMem_proj {β : Type} (w : World) (c d : CtxId)
    (k : ClockType) (m : HeapMem EventId) (g : Ctx → β)
    (h : ∀ x v, g { x with timerHeap := v } = g x) :
    g ((w.setTimerMem c k m).ctxs d) = g (w.ctxs d) := by
  by_cases hd : d = c
  · subst hd
    simp [World.setTimerMem, World.updCtx, h]
  · simp [World.setTimerMem, World.updCtx, Function.update_of_ne hd]

variable {w w' : World} {c : CtxId} {k : QueueCategory} {q : QueueId}

/-- `QueueInv` reads no more than this of the memory. -/
structure SameQueues (w w' : World) : Prop where
  spsc : ∀ p, (w'.queues p).spsc = (w.queues p).spsc
  ctx : ∀ p, (w'.queues p).ctx = (w.queues p).ctx
  category : ∀ p, (w'.queues p).category = (w.queues p).category
  node : w'.queueNode = w.queueNode
  next : w'.nextQueue = w.nextQueue
  heap : ∀ d, (w'.ctxs d).queueHeap = (w.ctxs d).queueHeap
  pending : ∀ d, (w'.ctxs d).pendingQueue = (w.ctxs d).pendingQueue

namespace SameQueues

theorem symm (h : SameQueues w w') : SameQueues w' w where
  spsc := fun p => (h.spsc p).symm
  ctx := fun p => (h.ctx p).symm
  category := fun p => (h.category p).symm
  node := h.node.symm
  next := h.next.symm
  heap := fun d => (h.heap d).symm
  pending := fun d => (h.pending d).symm

theorem contents (h : SameQueues w w') (p : QueueId) :
    w'.contents p = w.contents p := by
  rw [World.contents, h.spsc, World.contents]

theorem queueMem (h : SameQueues w w') (d : CtxId) (j : QueueCategory) :
    w'.queueMem d j = w.queueMem d j := by
  rw [World.queueMem, h.heap, h.node, World.queueMem]

theorem queueNodes (h : SameQueues w w') (d : CtxId) (j : QueueCategory) :
    w'.queueNodes d j = w.queueNodes d j := by
  rw [World.queueNodes, h.queueMem, World.queueNodes]

theorem linkable (h : SameQueues w w') {d : CtxId} {j : QueueCategory}
    {p : QueueId} (hp : Linkable w d j p) : Linkable w' d j p where
  lt := by rw [h.next]; exact hp.lt
  ctx := by rw [h.ctx]; exact hp.ctx
  category := by rw [h.category]; exact hp.category
  nonempty := by rw [h.contents]; exact hp.nonempty

theorem queueInv (h : SameQueues w w') (hi : QueueInv w) : QueueInv w' where
  ring := fun p hp => by
    rw [h.spsc, h.contents]
    exact hi.ring p (h.next ▸ hp)
  heap := fun d j => by
    rw [h.queueMem, h.queueNodes]
    exact hi.heap d j
  linked := fun d j p hp => by
    rw [h.queueNodes] at hp
    exact h.linkable (hi.linked d j p hp)
  pendingNodup := fun d => by
    rw [h.pending]
    exact hi.pendingNodup d
  pending := fun d p hp => by
    rw [h.pending] at hp
    obtain ⟨hl, hn⟩ := hi.pending d p hp
    rw [h.category, h.queueNodes]
    exact ⟨h.linkable hl, hn⟩

end SameQueues

/-- `TimerInv` reads no more than this of the memory. -/
structure SameTimers (w w' : World) : Prop where
  ctx : ∀ t, (w'.reminders t).ctx = (w.reminders t).ctx
  clockType : ∀ t, (w'.reminders t).clockType = (w.reminders t).clockType
  node : w'.timerNode = w.timerNode
  heap : ∀ d, (w'.ctxs d).timerHeap = (w.ctxs d).timerHeap

namespace SameTimers

theorem timerMem (h : SameTimers w w') (d : CtxId) (j : ClockType) :
    w'.timerMem d j = w.timerMem d j := by
  rw [World.timerMem, h.heap, h.node, World.timerMem]

theorem timerNodes (h : SameTimers w w') (d : CtxId) (j : ClockType) :
    w'.timerNodes d j = w.timerNodes d j := by
  rw [World.timerNodes, h.timerMem, World.timerNodes]

theorem timerInv (h : SameTimers w w') (hi : TimerInv w) : TimerInv w' where
  heap := fun d j => by
    rw [h.timerMem, h.timerNodes]
    exact hi.heap d j
  armed := fun d j t ht => by
    rw [h.timerNodes] at ht
    rw [h.ctx, h.clockType]
    exact hi.armed d j t ht

end SameTimers

/-! ## Keys -/

/-- What `queue_less_than` compares. -/
def queueKey (w : World) (q : QueueId) : Nat ×ₗ Nat :=
  toLex ((w.events ((w.contents q).headD 0)).timestamp, (w.queues q).startId)

/-- What `timer_less_than` compares. -/
def timerKey (w : World) (t : EventId) : Nat ×ₗ Nat :=
  toLex ((w.reminders t).timeout, (w.reminders t).startId)

/-- Two comparisons by timestamp and one by start id are the lexicographic
order. -/
theorem decide_toLex_lt (a b m n : Nat) :
    (if a < b then true else if b < a then false else if m < n then true else false)
      = decide (toLex (a, m) < toLex (b, n)) := by
  rw [Bool.eq_iff_iff, decide_eq_true_iff, Prod.Lex.toLex_lt_toLex]
  rcases Nat.lt_trichotomy a b with h | h | h
  · simp [h]
  · subst h
    simp
  · simp [Nat.not_lt_of_gt h, Nat.ne_of_gt h, h]

theorem timerLessThan_keyed (w : World) (xs : List EventId) :
    Keyed (timerLessThan w) (timerKey w) xs := by
  intro a _ b _
  rw [timerLessThan, decide_toLex_lt]
  rfl

theorem QueueInv.peek (h : QueueInv w) {q : QueueId} (hq : q < w.nextQueue) :
    eventQueuePeek w q = (w.contents q).head? := by
  rw [eventQueuePeek, (h.ring q hq).peek]

theorem QueueInv.isEmpty_iff (h : QueueInv w) {q : QueueId} (hq : q < w.nextQueue) :
    eventQueueIsEmpty w q = true ↔ w.contents q = [] := by
  rw [eventQueueIsEmpty, (h.ring q hq).isEmpty_iff]

/-- On queues that hold something `queue_less_than` is a strict order. -/
theorem QueueInv.queueLessThan_keyed (h : QueueInv w) {xs : List QueueId}
    (hx : ∀ q ∈ xs, q < w.nextQueue ∧ w.contents q ≠ []) :
    Keyed (queueLessThan w) (queueKey w) xs := by
  intro a ha b hb
  have head : ∀ q ∈ xs, eventQueuePeek w q = some ((w.contents q).headD 0) := by
    intro q hq
    obtain ⟨hlt, hne⟩ := hx q hq
    rw [h.peek hlt]
    cases hc : w.contents q with
    | nil => exact absurd hc hne
    | cons e es => rfl
  rw [queueLessThan, head a ha, head b hb]
  show some _ = some _
  rw [decide_toLex_lt]
  rfl

/-! ## Writing one queue heap -/

theorem World.setQueueMem_queueMem (w : World) (c : CtxId) (k : QueueCategory)
    (m : HeapMem QueueId) : (w.setQueueMem c k m).queueMem c k = m := by
  simp [World.queueMem, World.setQueueMem, World.updCtx]

theorem World.setQueueMem_queueMem_ne (w : World) {c d : CtxId}
    {k j : QueueCategory} (m : HeapMem QueueId) (h : d ≠ c ∨ j ≠ k) :
    (w.setQueueMem c k m).queueMem d j = ⟨(w.ctxs d).queueHeap j, m.node⟩ := by
  by_cases hd : d = c
  · subst hd
    have hj : j ≠ k := h.resolve_left (fun hn => hn rfl)
    simp [World.queueMem, World.setQueueMem, World.updCtx, Function.update_of_ne hj]
  · simp [World.queueMem, World.setQueueMem, World.updCtx, Function.update_of_ne hd]

/-- What a heap call on `queue_heap[k]` of `c` did that left `ys` there. -/
structure QueueHeapSet (w w' : World) (c : CtxId) (k : QueueCategory)
    (ys : List QueueId) : Prop where
  eq : ∃ m, w' = w.setQueueMem c k m
  rep : HeapRep (w'.queueMem c k) ys
  rep_ne : ∀ d j, d ≠ c ∨ j ≠ k → HeapRep (w'.queueMem d j) (w.queueNodes d j)

namespace QueueHeapSet

variable {ys : List QueueId}

theorem nodes (h : QueueHeapSet w w' c k ys) : w'.queueNodes c k = ys :=
  h.rep.heapNodes_eq

theorem nodes_ne (h : QueueHeapSet w w' c k ys) {d : CtxId} {j : QueueCategory}
    (hd : d ≠ c ∨ j ≠ k) : w'.queueNodes d j = w.queueNodes d j :=
  (h.rep_ne d j hd).heapNodes_eq

theorem queues (h : QueueHeapSet w w' c k ys) : w'.queues = w.queues := by
  obtain ⟨m, rfl⟩ := h.eq
  rfl

theorem contents (h : QueueHeapSet w w' c k ys) (p : QueueId) :
    w'.contents p = w.contents p := by
  rw [World.contents, h.queues, World.contents]

theorem pendingQueue (h : QueueHeapSet w w' c k ys) (d : CtxId) :
    (w'.ctxs d).pendingQueue = (w.ctxs d).pendingQueue := by
  obtain ⟨m, rfl⟩ := h.eq
  exact w.setQueueMem_proj c d k m Ctx.pendingQueue (fun _ _ => rfl)

theorem nextQueue (h : QueueHeapSet w w' c k ys) : w'.nextQueue = w.nextQueue := by
  obtain ⟨m, rfl⟩ := h.eq
  rfl

theorem linkable (h : QueueHeapSet w w' c k ys) {d : CtxId} {j : QueueCategory}
    {p : QueueId} (hp : Linkable w d j p) : Linkable w' d j p where
  lt := h.nextQueue ▸ hp.lt
  ctx := h.queues ▸ hp.ctx
  category := h.queues ▸ hp.category
  nonempty := h.contents p ▸ hp.nonempty

theorem queueInv (h : QueueHeapSet w w' c k ys) (hi : QueueInv w)
    (hy : ∀ p ∈ ys, Linkable w c k p ∧ p ∉ (w.ctxs c).pendingQueue) :
    QueueInv w' where
  ring := fun p hp => by
    rw [h.queues, h.contents]
    exact hi.ring p (h.nextQueue ▸ hp)
  heap := fun d j => by
    by_cases hd : d = c ∧ j = k
    · obtain ⟨rfl, rfl⟩ := hd
      rw [h.nodes]
      exact h.rep
    · have hd' : d ≠ c ∨ j ≠ k := by tauto
      rw [h.nodes_ne hd']
      exact h.rep_ne d j hd'
  linked := fun d j p hp => by
    by_cases hd : d = c ∧ j = k
    · obtain ⟨rfl, rfl⟩ := hd
      rw [h.nodes] at hp
      exact h.linkable (hy p hp).1
    · rw [h.nodes_ne (by tauto)] at hp
      exact h.linkable (hi.linked d j p hp)
  pendingNodup := fun d => by
    rw [h.pendingQueue]
    exact hi.pendingNodup d
  pending := fun d p hp => by
    rw [h.pendingQueue] at hp
    obtain ⟨hl, hn⟩ := hi.pending d p hp
    rw [h.queues]
    refine ⟨h.linkable hl, fun hc => ?_⟩
    by_cases hd : d = c ∧ (w.queues p).category = k
    · obtain ⟨rfl, hk⟩ := hd
      rw [hk, h.nodes] at hc
      exact (hy p hc).2 hp
    · rw [h.nodes_ne (by tauto)] at hc
      exact hn hc

end QueueHeapSet

/-- A queue stands in no heap but the one of its bus and category. -/
theorem QueueInv.notMem_other (h : QueueInv w) {d : CtxId} {j : QueueCategory}
    (hc : (w.queues q).ctx = some c) (hk : (w.queues q).category = k)
    (hd : d ≠ c ∨ j ≠ k) : q ∉ w.queueNodes d j := by
  intro hq
  have hl := h.linked d j q hq
  rcases hd with hd | hd
  · rw [hl.ctx] at hc
    exact hd (Option.some.inj hc)
  · exact hd (hl.category.symm.trans hk)

theorem QueueInv.notMem_pending (h : QueueInv w) (hq : q ∈ w.queueNodes c k)
    (d : CtxId) : q ∉ (w.ctxs d).pendingQueue := by
  intro hp
  obtain ⟨hl, hn⟩ := h.pending d q hp
  have hq' := h.linked c k q hq
  have hcd : c = d := Option.some.inj (hq'.ctx.symm.trans hl.ctx)
  rw [hq'.category, ← hcd] at hn
  exact hn hq

/-- **`heap_insert` of a queue** that is in no heap and may be in this one:
the heap gains it, every other heap stays as it is. -/
theorem QueueInv.insert (h : QueueInv w) (hl : Linkable w c k q)
    (hn : q ∉ w.queueNodes c k) (hp : q ∉ (w.ctxs c).pendingQueue) :
    ∃ w' ys, queueHeapInsert w c k q = some w' ∧ QueueHeapSet w w' c k ys
      ∧ ys.Perm (q :: w.queueNodes c k) ∧ QueueInv w'
      ∧ (LevelHeap.Ordered (queueKey w) (w.queueNodes c k) →
          LevelHeap.Ordered (queueKey w) ys) := by
  have hk : Keyed (queueLessThan w) (queueKey w) (q :: w.queueNodes c k) := by
    refine h.queueLessThan_keyed (fun p hp => ?_)
    rcases List.mem_cons.mp hp with rfl | hp
    · exact ⟨hl.lt, hl.nonempty⟩
    · exact ⟨(h.linked c k p hp).lt, (h.linked c k p hp).nonempty⟩
  obtain ⟨m, ys, hm, hr, hperm, hframe, hord⟩ := (h.heap c k).insert hn hk
  have hset : QueueHeapSet w (w.setQueueMem c k m) c k ys := by
    refine ⟨⟨m, rfl⟩, ?_, fun d j hd => ?_⟩
    · rw [World.setQueueMem_queueMem]
      exact hr
    · rw [World.setQueueMem_queueMem_ne w m hd]
      refine (h.heap d j).congr rfl (fun a ha => hframe a ?_ ?_)
      · intro haq
        exact h.notMem_other hl.ctx hl.category hd (haq ▸ ha)
      · have hla := h.linked d j a ha
        intro hac
        have hlc := h.linked c k a hac
        rcases hd with hd | hd
        · exact hd (Option.some.inj (hla.ctx.symm.trans hlc.ctx))
        · exact hd (hla.category.symm.trans hlc.category)
  refine ⟨_, ys, ?_, hset, hperm, hset.queueInv h (fun p hpy => ?_), hord⟩
  · rw [queueHeapInsert, hm]
    rfl
  · rcases List.mem_cons.mp (hperm.mem_iff.mp hpy) with rfl | hpm
    · exact ⟨hl, hp⟩
    · exact ⟨h.linked c k p hpm, h.notMem_pending hpm c⟩

/-- **`heap_remove` of a queue that is in the heap**: the heap loses it,
every other heap stays as it is. -/
theorem QueueInv.remove (h : QueueInv w) (hq : q ∈ w.queueNodes c k) :
    ∃ w' ys, queueHeapRemove w c k q = some w' ∧ QueueHeapSet w w' c k ys
      ∧ ys.Perm ((w.queueNodes c k).erase q) ∧ QueueInv w'
      ∧ (LevelHeap.Ordered (queueKey w) (w.queueNodes c k) →
          LevelHeap.Ordered (queueKey w) ys) := by
  have hk : Keyed (queueLessThan w) (queueKey w) (w.queueNodes c k) :=
    h.queueLessThan_keyed
      (fun p hp => ⟨(h.linked c k p hp).lt, (h.linked c k p hp).nonempty⟩)
  obtain ⟨m, ys, hm, hr, hperm, hframe, hord⟩ := (h.heap c k).remove hq hk
  have hset : QueueHeapSet w (w.setQueueMem c k m) c k ys := by
    refine ⟨⟨m, rfl⟩, ?_, fun d j hd => ?_⟩
    · rw [World.setQueueMem_queueMem]
      exact hr
    · rw [World.setQueueMem_queueMem_ne w m hd]
      refine (h.heap d j).congr rfl (fun a ha => hframe a ?_)
      have hla := h.linked d j a ha
      exact h.notMem_other hla.ctx hla.category (by tauto)
  refine ⟨_, ys, ?_, hset, hperm, hset.queueInv h (fun p hpy => ?_), hord⟩
  · rw [queueHeapRemove, hm]
    rfl
  · have hpm : p ∈ w.queueNodes c k := List.mem_of_mem_erase (hperm.mem_iff.mp hpy)
    exact ⟨h.linked c k p hpm, h.notMem_pending hpm c⟩

/-- A queue that stands in no heap of its bus stands in none at all. -/
theorem QueueInv.nowhere_of_notMem (h : QueueInv w) (hc : (w.queues q).ctx = some c)
    (hn : q ∉ w.queueNodes c (w.queues q).category) : ∀ d k, q ∉ w.queueNodes d k := by
  intro d k hm
  by_cases hd : d = c ∧ k = (w.queues q).category
  · obtain ⟨rfl, rfl⟩ := hd
    exact hn hm
  · exact h.notMem_other hc rfl (by tauto) hm

/-- A queue that was removed from its heap stands nowhere. -/
theorem QueueInv.nowhere_of_removed (h : QueueInv w) (hq : q ∈ w.queueNodes c k)
    {ys : List QueueId} (hset : QueueHeapSet w w' c k ys)
    (hperm : ys.Perm ((w.queueNodes c k).erase q)) (h' : QueueInv w') :
    (∀ d j, q ∉ w'.queueNodes d j) ∧ ∀ d, q ∉ (w'.ctxs d).pendingQueue := by
  have hl := h.linked c k q hq
  constructor
  · apply h'.nowhere_of_notMem (c := c)
    · rw [hset.queues]
      exact hl.ctx
    · rw [hset.queues, hl.category, hset.nodes, hperm.mem_iff]
      exact (h.heap c k).nodup.not_mem_erase
  · intro d
    rw [hset.pendingQueue]
    exact h.notMem_pending hq d

/-- The least node of a heap is the first of its list. -/
theorem QueueInv.heapMin_eq (h : QueueInv w) (c : CtxId) (k : QueueCategory) :
    heapMin ((w.ctxs c).queueHeap k) = (w.queueNodes c k).head? := by
  have := (h.heap c k).min
  rw [← List.head?_eq_getElem?] at this
  exact this

theorem QueueInv.pipeIsEmpty_iff (h : QueueInv w) (c : CtxId) (k : QueueCategory) :
    pipeIsEmpty w c k = true ↔ w.queueNodes c k = [] := by
  rw [pipeIsEmpty, heapIsEmpty, h.heapMin_eq]
  cases w.queueNodes c k <;> simp

end Ats
