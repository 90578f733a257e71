import Ats.Core.Calls

/-!
# Removal: `bus_remove_queue`, `bus_remove_timer` and `bus_detach`

`heap_remove` trusts that its node stands in the heap. These calls do no
more than they should exactly where it does, or where the heap is empty and
`heap_remove` returns at once.
-/

namespace Ats

variable {w w' : World} {c d : CtxId} {k : QueueCategory} {q : QueueId} {t : EventId}

/-! ## Erasing from one of many heaps -/

section Erased

variable {κ : Type} {nodes nodes' : CtxId → κ → List Nat} {j : κ} {ys : List Nat} {x : Nat}
  {key key' : Nat → Nat ×ₗ Nat}

/-- Only `x` is missing. -/
theorem mem_erased (hself : nodes' c j = ys)
    (hne : ∀ d i, d ≠ c ∨ i ≠ j → nodes' d i = nodes d i) (hperm : ys.Perm ((nodes c j).erase x))
    (hnd : (nodes c j).Nodup) (hnot : ∀ d i, d ≠ c ∨ i ≠ j → x ∉ nodes d i) (d : CtxId) (i : κ)
    (p : Nat) : p ∈ nodes' d i ↔ p ∈ nodes d i ∧ p ≠ x := by
  by_cases hd : d = c ∧ i = j
  · obtain ⟨rfl, rfl⟩ := hd
    rw [hself, hperm.mem_iff, hnd.mem_erase_iff, and_comm]
  · have hd' : d ≠ c ∨ i ≠ j := by tauto
    rw [hne d i hd']
    constructor
    · intro hp
      refine ⟨hp, ?_⟩
      rintro rfl
      exact hnot d i hd' hp
    · exact And.left

/-- No heap loses its order. -/
theorem ordered_erased (hself : nodes' c j = ys)
    (hne : ∀ d i, d ≠ c ∨ i ≠ j → nodes' d i = nodes d i) (hkey : ∀ a, key' a = key a)
    (hord : LevelHeap.Ordered key (nodes c j) → LevelHeap.Ordered key ys) (d : CtxId) (i : κ)
    (ho : LevelHeap.Ordered key (nodes d i)) : LevelHeap.Ordered key' (nodes' d i) := by
  by_cases hd : d = c ∧ i = j
  · obtain ⟨rfl, rfl⟩ := hd
    rw [hself]
    exact (hord ho).congr (fun a _ => hkey a)
  · rw [hne d i (by tauto)]
    exact ho.congr (fun a _ => hkey a)

end Erased

/-! ## One queue -/

/-- **Only `q` leaves the pipes of `c`**: the heaps spell the same queues
but for `q`, in an order as good as before, and `nelts` counts them. -/
structure QueueRemoval (w w' : World) (c : CtxId) (q : QueueId) : Prop where
  rep : ∀ d j, HeapRep (w'.queueMem d j) (w'.queueNodes d j)
  others : ∀ d j p, p ∈ w'.queueNodes d j ↔ p ∈ w.queueNodes d j ∧ p ≠ q
  nelts : ((w'.ctxs c).queueHeap (w.queues q).category).nelts
    = if q ∈ w.queueNodes c (w.queues q).category then
        ((w.ctxs c).queueHeap (w.queues q).category).nelts - 1
      else ((w.ctxs c).queueHeap (w.queues q).category).nelts
  order : ∀ d j, LevelHeap.Ordered (queueKey w) (w.queueNodes d j) →
    LevelHeap.Ordered (queueKey w') (w'.queueNodes d j)

/-- `bus_remove_queue(c, q)` returns and removes only `q`. -/
def RemovesOnlyQueue (w : World) (c : CtxId) (q : QueueId) : Prop :=
  ∃ w', busRemoveQueue w c q = some w' ∧ QueueRemoval w w' c q

/-- Writing back what was there changes nothing. -/
theorem World.setQueueMem_self (w : World) (c : CtxId) (k : QueueCategory) :
    w.setQueueMem c k (w.queueMem c k) = w := by
  simp [World.setQueueMem, World.updCtx, World.queueMem]

theorem World.setTimerMem_self (w : World) (c : CtxId) (k : ClockType) :
    w.setTimerMem c k (w.timerMem c k) = w := by
  simp [World.setTimerMem, World.updCtx, World.timerMem]

theorem QueueInv.nelts (h : QueueInv w) (c : CtxId) (k : QueueCategory) :
    ((w.ctxs c).queueHeap k).nelts = (w.queueNodes c k).length :=
  (h.heap c k).nelts

/-- On an empty heap the call does nothing. -/
theorem QueueInv.removeQueue_empty (h : QueueInv w)
    (hn : w.queueNodes c (w.queues q).category = []) : busRemoveQueue w c q = some w := by
  have h0 : (w.queueMem c (w.queues q).category).heap.nelts = 0 := by
    rw [(h.heap c _).nelts, hn]
    rfl
  rw [busRemoveQueue, queueHeapRemove, heapRemove_empty q h0]
  show some _ = _
  rw [World.setQueueMem_self]

/-- A queue stands in one heap at most. -/
theorem QueueInv.notMem_nodes (h : QueueInv w) (hc : (w.queues q).ctx = some c)
    (hn : q ∉ w.queueNodes c (w.queues q).category) (d : CtxId) (j : QueueCategory) :
    q ∉ w.queueNodes d j := by
  by_cases hd : d = c ∧ j = (w.queues q).category
  · obtain ⟨rfl, rfl⟩ := hd
    exact hn
  · exact h.notMem_other hc rfl (by tauto)

/-- **`bus_remove_queue` where `heap_remove` can be trusted.** -/
theorem QueueInv.removeQueue (h : QueueInv w) (hc : (w.queues q).ctx = some c)
    (hq : q ∈ w.queueNodes c (w.queues q).category
      ∨ w.queueNodes c (w.queues q).category = []) :
    ∃ w', busRemoveQueue w c q = some w' ∧ QueueRemoval w w' c q ∧ QueueInv w'
      ∧ (w' = w ∨ ∃ ys, QueueHeapSet w w' c (w.queues q).category ys) := by
  rcases hq with hq | hn
  · obtain ⟨w', ys, hcall, hset, hperm, h', hord⟩ := h.remove hq
    have hnd : (w.queueNodes c (w.queues q).category).Nodup := (h.heap c _).nodup
    have hkey : ∀ a, queueKey w' a = queueKey w a :=
      fun a => queueKey_congr hset.frame.events (by rw [hset.queues])
    refine ⟨w', hcall, ⟨h'.heap, ?_, ?_, ?_⟩, h', Or.inr ⟨ys, hset⟩⟩
    · exact mem_erased hset.nodes (fun _ _ hd => hset.nodes_ne hd) hperm hnd
        fun _ _ hd => h.notMem_other hc rfl hd
    · rw [if_pos hq, h'.nelts, h.nelts, hset.nodes, hperm.length_eq,
        List.length_erase_of_mem hq]
    · exact ordered_erased hset.nodes (fun _ _ hd => hset.nodes_ne hd) hkey hord
  · have hout : q ∉ w.queueNodes c (w.queues q).category := by
      rw [hn]
      exact List.not_mem_nil
    refine ⟨w, h.removeQueue_empty hn, ⟨h.heap, fun d j p => ?_, ?_, fun _ _ ho => ho⟩, h,
      Or.inl rfl⟩
    · constructor
      · intro hp
        refine ⟨hp, ?_⟩
        rintro rfl
        exact h.notMem_nodes hc hout d j hp
      · exact And.left
    · rw [if_neg hout]

/-- **Exactly then**: on a heap with other queues in it, `nelts` is one
too low after the call. -/
theorem QueueInv.removesOnlyQueue_iff (h : QueueInv w) (hc : (w.queues q).ctx = some c) :
    RemovesOnlyQueue w c q ↔ q ∈ w.queueNodes c (w.queues q).category
      ∨ w.queueNodes c (w.queues q).category = [] := by
  constructor
  · rintro ⟨w', hcall, hrem⟩
    by_contra hne
    rw [not_or] at hne
    have hcount := hrem.nelts
    rw [if_neg hne.1] at hcount
    rw [busRemoveQueue, queueHeapRemove, Option.bind_eq_bind,
      Option.bind_eq_some_iff] at hcall
    obtain ⟨m, hm, he⟩ := hcall
    cases he
    have hless : m.heap.nelts = ((w.ctxs c).queueHeap (w.queues q).category).nelts - 1 :=
      heapRemove_nelts hm
    have hset : (((w.setQueueMem c (w.queues q).category m).ctxs c).queueHeap
        (w.queues q).category).nelts = m.heap.nelts := by
      simp [World.setQueueMem, World.updCtx]
    have hpos := List.length_pos_iff.mpr hne.2
    rw [← h.nelts] at hpos
    omega
  · intro hq
    obtain ⟨w', hcall, hrem, _⟩ := h.removeQueue hc hq
    exact ⟨w', hcall, hrem⟩

/-! ## One timer -/

/-- **Only `t` leaves the timer heaps of `c`.** -/
structure TimerRemoval (w w' : World) (c : CtxId) (t : EventId) : Prop where
  rep : ∀ d j, HeapRep (w'.timerMem d j) (w'.timerNodes d j)
  others : ∀ d j s, s ∈ w'.timerNodes d j ↔ s ∈ w.timerNodes d j ∧ s ≠ t
  nelts : ((w'.ctxs c).timerHeap (w.reminders t).clockType).nelts
    = if t ∈ w.timerNodes c (w.reminders t).clockType then
        ((w.ctxs c).timerHeap (w.reminders t).clockType).nelts - 1
      else ((w.ctxs c).timerHeap (w.reminders t).clockType).nelts
  order : ∀ d j, LevelHeap.Ordered (timerKey w) (w.timerNodes d j) →
    LevelHeap.Ordered (timerKey w') (w'.timerNodes d j)

/-- `bus_remove_timer(c, t)` returns and removes only `t`. -/
def RemovesOnlyTimer (w : World) (c : CtxId) (t : EventId) : Prop :=
  ∃ w', busRemoveTimer w c t = some w' ∧ TimerRemoval w w' c t

theorem TimerInv.nelts (h : TimerInv w) (c : CtxId) (k : ClockType) :
    ((w.ctxs c).timerHeap k).nelts = (w.timerNodes c k).length :=
  (h.heap c k).nelts

theorem TimerInv.removeTimer_empty (h : TimerInv w)
    (hn : w.timerNodes c (w.reminders t).clockType = []) :
    busRemoveTimer w c t = some w := by
  have h0 : (w.timerMem c (w.reminders t).clockType).heap.nelts = 0 := by
    rw [(h.heap c _).nelts, hn]
    rfl
  rw [busRemoveTimer, timerHeapRemove, heapRemove_empty t h0]
  show some _ = _
  rw [World.setTimerMem_self]

/-- **`bus_remove_timer` where `heap_remove` can be trusted.** -/
theorem TimerInv.removeTimer (h : TimerInv w) (hc : (w.reminders t).ctx = some c)
    (ht : t ∈ w.timerNodes c (w.reminders t).clockType
      ∨ w.timerNodes c (w.reminders t).clockType = []) :
    ∃ w', busRemoveTimer w c t = some w' ∧ TimerRemoval w w' c t ∧ TimerInv w'
      ∧ (w' = w ∨ ∃ ys, TimerHeapSet w w' c (w.reminders t).clockType ys) := by
  rcases ht with ht | hn
  · obtain ⟨w', ys, hcall, hset, hperm, h', hord⟩ := h.remove ht
    have hnd : (w.timerNodes c (w.reminders t).clockType).Nodup := (h.heap c _).nodup
    have hkey : ∀ a, timerKey w' a = timerKey w a :=
      fun a => timerKey_congr (by rw [hset.reminders])
    refine ⟨w', hcall, ⟨h'.heap, ?_, ?_, ?_⟩, h', Or.inr ⟨ys, hset⟩⟩
    · exact mem_erased hset.nodes (fun _ _ hd => hset.nodes_ne hd) hperm hnd
        fun _ _ hd => h.notMem_other hc rfl hd
    · rw [if_pos ht, h'.nelts, h.nelts, hset.nodes, hperm.length_eq,
        List.length_erase_of_mem ht]
    · exact ordered_erased hset.nodes (fun _ _ hd => hset.nodes_ne hd) hkey hord
  · have hout : t ∉ w.timerNodes c (w.reminders t).clockType := by
      rw [hn]
      exact List.not_mem_nil
    refine ⟨w, h.removeTimer_empty hn, ⟨h.heap, fun d j s => ?_, ?_, fun _ _ ho => ho⟩, h,
      Or.inl rfl⟩
    · constructor
      · intro hs
        refine ⟨hs, ?_⟩
        rintro rfl
        by_cases hd : d = c ∧ j = (w.reminders s).clockType
        · obtain ⟨rfl, rfl⟩ := hd
          exact hout hs
        · exact h.notMem_other hc rfl (by tauto) hs
      · exact And.left
    · rw [if_neg hout]

/-- **Exactly then.** -/
theorem TimerInv.removesOnlyTimer_iff (h : TimerInv w)
    (hc : (w.reminders t).ctx = some c) :
    RemovesOnlyTimer w c t ↔ t ∈ w.timerNodes c (w.reminders t).clockType
      ∨ w.timerNodes c (w.reminders t).clockType = [] := by
  constructor
  · rintro ⟨w', hcall, hrem⟩
    by_contra hne
    rw [not_or] at hne
    have hcount := hrem.nelts
    rw [if_neg hne.1] at hcount
    rw [busRemoveTimer, timerHeapRemove, Option.bind_eq_bind,
      Option.bind_eq_some_iff] at hcall
    obtain ⟨m, hm, he⟩ := hcall
    cases he
    have hless : m.heap.nelts
        = ((w.ctxs c).timerHeap (w.reminders t).clockType).nelts - 1 := heapRemove_nelts hm
    have hset : (((w.setTimerMem c (w.reminders t).clockType m).ctxs c).timerHeap
        (w.reminders t).clockType).nelts = m.heap.nelts := by
      simp [World.setTimerMem, World.updCtx]
    have hpos := List.length_pos_iff.mpr hne.2
    rw [← h.nelts] at hpos
    omega
  · intro ht
    obtain ⟨w', hcall, hrem, _⟩ := h.removeTimer hc ht
    exact ⟨w', hcall, hrem⟩

end Ats
