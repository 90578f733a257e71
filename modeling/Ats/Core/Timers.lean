import Ats.Core.BusInv

/-!
# Timers: what the timer calls of the bus do

The counterpart of `Pipes` for `bus_add_timer`, `bus_remove_timer` and
`timer_heap_pop`.
-/

namespace Ats

variable {w w' w'' : World} {c : CtxId} {k : ClockType} {t : EventId}

/-- Nothing has changed but timer heaps, counters, and the private fields
and timeouts of reminders. -/
structure TimerFrame (w w' : World) : Prop where
  events : w'.events = w.events
  queues : w'.queues = w.queues
  queueNode : w'.queueNode = w.queueNode
  eventVtable : w'.eventVtable = w.eventVtable
  nextQueue : w'.nextQueue = w.nextQueue
  nextEvent : w'.nextEvent = w.nextEvent
  log : w'.log = w.log
  ctxs : ∀ d, w'.ctxs d
    = { w.ctxs d with
        timerHeap := (w'.ctxs d).timerHeap
        counter := (w'.ctxs d).counter }
  reminders : ∀ s, w'.reminders s
    = { w.reminders s with
        timeout := (w'.reminders s).timeout
        ctx := (w'.reminders s).ctx
        startId := (w'.reminders s).startId }

namespace TimerFrame

theorem trans (h : TimerFrame w w') (h' : TimerFrame w' w'') : TimerFrame w w'' where
  events := h'.events.trans h.events
  queues := h'.queues.trans h.queues
  queueNode := h'.queueNode.trans h.queueNode
  eventVtable := h'.eventVtable.trans h.eventVtable
  nextQueue := h'.nextQueue.trans h.nextQueue
  nextEvent := h'.nextEvent.trans h.nextEvent
  log := h'.log.trans h.log
  ctxs := fun d => (h'.ctxs d).trans (by rw [h.ctxs d])
  reminders := fun s => (h'.reminders s).trans (by rw [h.reminders s])

/-- Read a field of a context that is not a timer heap or the counter. -/
theorem ctx_proj {β : Type} (h : TimerFrame w w') (d : CtxId) (g : Ctx → β)
    (hg : ∀ x v n, g { x with timerHeap := v, counter := n } = g x) :
    g (w'.ctxs d) = g (w.ctxs d) := by
  rw [h.ctxs d, hg]

theorem sameQueues (h : TimerFrame w w') : SameQueues w w' where
  spsc := fun p => by rw [h.queues]
  ctx := fun p => by rw [h.queues]
  category := fun p => by rw [h.queues]
  node := h.queueNode
  next := h.nextQueue
  heap := fun d => h.ctx_proj d Ctx.queueHeap (fun _ _ _ => rfl)
  pending := fun d => h.ctx_proj d Ctx.pendingQueue (fun _ _ _ => rfl)

end TimerFrame

/-! ## Writing one timer heap -/

theorem World.setTimerMem_timerMem (w : World) (c : CtxId) (k : ClockType)
    (m : HeapMem EventId) : (w.setTimerMem c k m).timerMem c k = m := by
  simp [World.timerMem, World.setTimerMem, World.updCtx]

theorem World.setTimerMem_timerMem_ne (w : World) {c d : CtxId} {k j : ClockType}
    (m : HeapMem EventId) (h : d ≠ c ∨ j ≠ k) :
    (w.setTimerMem c k m).timerMem d j = ⟨(w.ctxs d).timerHeap j, m.node⟩ := by
  by_cases hd : d = c
  · subst hd
    have hj : j ≠ k := h.resolve_left (fun hn => hn rfl)
    simp [World.timerMem, World.setTimerMem, World.updCtx, Function.update_of_ne hj]
  · simp [World.timerMem, World.setTimerMem, World.updCtx, Function.update_of_ne hd]

/-- What a heap call on `timer_heap[k]` of `c` did that left `ys` there. -/
structure TimerHeapSet (w w' : World) (c : CtxId) (k : ClockType)
    (ys : List EventId) : Prop where
  eq : ∃ m, w' = w.setTimerMem c k m
  rep : HeapRep (w'.timerMem c k) ys
  rep_ne : ∀ d j, d ≠ c ∨ j ≠ k → HeapRep (w'.timerMem d j) (w.timerNodes d j)

namespace TimerHeapSet

variable {ys : List EventId}

theorem nodes (h : TimerHeapSet w w' c k ys) : w'.timerNodes c k = ys :=
  h.rep.heapNodes_eq

theorem nodes_ne (h : TimerHeapSet w w' c k ys) {d : CtxId} {j : ClockType}
    (hd : d ≠ c ∨ j ≠ k) : w'.timerNodes d j = w.timerNodes d j :=
  (h.rep_ne d j hd).heapNodes_eq

theorem reminders (h : TimerHeapSet w w' c k ys) : w'.reminders = w.reminders := by
  obtain ⟨m, rfl⟩ := h.eq
  rfl

theorem counter (h : TimerHeapSet w w' c k ys) (d : CtxId) :
    (w'.ctxs d).counter = (w.ctxs d).counter := by
  obtain ⟨m, rfl⟩ := h.eq
  exact w.setTimerMem_proj c d k m Ctx.counter (fun _ _ => rfl)

theorem ctxs_ne (h : TimerHeapSet w w' c k ys) {d : CtxId} (hd : d ≠ c) :
    w'.ctxs d = w.ctxs d := by
  obtain ⟨m, rfl⟩ := h.eq
  simp [World.setTimerMem, World.updCtx, Function.update_of_ne hd]

theorem frame (h : TimerHeapSet w w' c k ys) : TimerFrame w w' := by
  obtain ⟨m, rfl⟩ := h.eq
  refine ⟨rfl, rfl, rfl, rfl, rfl, rfl, rfl, fun d => ?_, fun _ => rfl⟩
  by_cases hd : d = c
  · subst hd
    simp [World.setTimerMem, World.updCtx]
  · simp [World.setTimerMem, World.updCtx, Function.update_of_ne hd]

theorem timerInv (h : TimerHeapSet w w' c k ys) (hi : TimerInv w)
    (hy : ∀ s ∈ ys, (w.reminders s).ctx = some c ∧ (w.reminders s).clockType = k) :
    TimerInv w' where
  heap := by
    intro d j
    by_cases hd : d = c ∧ j = k
    · obtain ⟨rfl, rfl⟩ := hd
      rw [h.nodes]
      exact h.rep
    · have hd' : d ≠ c ∨ j ≠ k := by tauto
      rw [h.nodes_ne hd']
      exact h.rep_ne d j hd'
  armed := by
    intro d j s hs
    rw [h.reminders]
    by_cases hd : d = c ∧ j = k
    · obtain ⟨rfl, rfl⟩ := hd
      rw [h.nodes] at hs
      exact hy s hs
    · rw [h.nodes_ne (by tauto)] at hs
      exact hi.armed d j s hs

end TimerHeapSet

/-- A reminder stands in no heap but the one of its bus and clock. -/
theorem TimerInv.notMem_other (h : TimerInv w) {d : CtxId} {j : ClockType}
    (hc : (w.reminders t).ctx = some c) (hk : (w.reminders t).clockType = k)
    (hd : d ≠ c ∨ j ≠ k) : t ∉ w.timerNodes d j := by
  intro ht
  have ha := h.armed d j t ht
  rcases hd with hd | hd
  · rw [ha.1] at hc
    exact hd (Option.some.inj hc)
  · exact hd (ha.2.symm.trans hk)

/-- **`heap_insert` of a reminder** that stands in no heap. -/
theorem TimerInv.insert (h : TimerInv w) (hc : (w.reminders t).ctx = some c)
    (hk : (w.reminders t).clockType = k) (hn : t ∉ w.timerNodes c k) :
    ∃ w' ys, timerHeapInsert w c k t = some w' ∧ TimerHeapSet w w' c k ys
      ∧ ys.Perm (t :: w.timerNodes c k) ∧ TimerInv w'
      ∧ (LevelHeap.Ordered (timerKey w) (w.timerNodes c k) →
          LevelHeap.Ordered (timerKey w) ys) := by
  obtain ⟨m, ys, hm, hr, hperm, hframe, hord⟩ :=
    (h.heap c k).insert hn (timerLessThan_keyed w _)
  have hset : TimerHeapSet w (w.setTimerMem c k m) c k ys := by
    refine ⟨⟨m, rfl⟩, ?_, fun d j hd => ?_⟩
    · rw [World.setTimerMem_timerMem]
      exact hr
    · rw [World.setTimerMem_timerMem_ne w m hd]
      refine (h.heap d j).congr rfl (fun a ha => hframe a ?_ ?_)
      · intro hat
        exact h.notMem_other hc hk hd (hat ▸ ha)
      · have haa := h.armed d j a ha
        exact h.notMem_other haa.1 haa.2 (by tauto)
  refine ⟨_, ys, ?_, hset, hperm, hset.timerInv h (fun s hs => ?_), hord⟩
  · rw [timerHeapInsert, hm]
    rfl
  · rcases List.mem_cons.mp (hperm.mem_iff.mp hs) with rfl | hs
    · exact ⟨hc, hk⟩
    · exact h.armed c k s hs

/-- **`heap_remove` of a reminder that is in the heap.** -/
theorem TimerInv.remove (h : TimerInv w) (ht : t ∈ w.timerNodes c k) :
    ∃ w' ys, timerHeapRemove w c k t = some w' ∧ TimerHeapSet w w' c k ys
      ∧ ys.Perm ((w.timerNodes c k).erase t) ∧ TimerInv w'
      ∧ (LevelHeap.Ordered (timerKey w) (w.timerNodes c k) →
          LevelHeap.Ordered (timerKey w) ys) := by
  obtain ⟨m, ys, hm, hr, hperm, hframe, hord⟩ :=
    (h.heap c k).remove ht (timerLessThan_keyed w _)
  have hset : TimerHeapSet w (w.setTimerMem c k m) c k ys := by
    refine ⟨⟨m, rfl⟩, ?_, fun d j hd => ?_⟩
    · rw [World.setTimerMem_timerMem]
      exact hr
    · rw [World.setTimerMem_timerMem_ne w m hd]
      refine (h.heap d j).congr rfl (fun a ha => hframe a ?_)
      have haa := h.armed d j a ha
      exact h.notMem_other haa.1 haa.2 (by tauto)
  refine ⟨_, ys, ?_, hset, hperm, hset.timerInv h (fun s hs => ?_), hord⟩
  · rw [timerHeapRemove, hm]
    rfl
  · exact h.armed c k s (List.mem_of_mem_erase (hperm.mem_iff.mp hs))

theorem TimerInv.timerHeapPeek_eq (h : TimerInv w) (c : CtxId) (k : ClockType) :
    timerHeapPeek w c k = (w.timerNodes c k).head? := by
  have := (h.heap c k).min
  rw [← List.head?_eq_getElem?] at this
  exact this

/-- Only a reminder that stands in no heap has changed, and counters. -/
theorem TimerInv.touch (h : TimerInv w) (hn : ∀ d j, t ∉ w.timerNodes d j)
    (hheap : ∀ d, (w'.ctxs d).timerHeap = (w.ctxs d).timerHeap)
    (hnode : ∀ s, s ≠ t → w'.timerNode s = w.timerNode s)
    (hne : ∀ s, s ≠ t → w'.reminders s = w.reminders s) :
    TimerInv w' ∧ ∀ d j, w'.timerNodes d j = w.timerNodes d j := by
  have hrep : ∀ d j, HeapRep (w'.timerMem d j) (w.timerNodes d j) := by
    intro d j
    refine (h.heap d j).congr ?_ (fun a ha => ?_)
    · show (w'.ctxs d).timerHeap j = (w.ctxs d).timerHeap j
      rw [hheap]
    · exact hnode a (fun hc => hn d j (hc ▸ ha))
  have hnodes : ∀ d j, w'.timerNodes d j = w.timerNodes d j :=
    fun d j => (hrep d j).heapNodes_eq
  refine ⟨⟨fun d j => ?_, fun d j s hs => ?_⟩, hnodes⟩
  · rw [hnodes]
    exact hrep d j
  · rw [hnodes] at hs
    rw [hne s (fun hc => hn d j (hc ▸ hs))]
    exact h.armed d j s hs

theorem timerKey_congr {s : EventId} (h : w'.reminders s = w.reminders s) :
    timerKey w' s = timerKey w s := by
  rw [timerKey, h, timerKey]

/-! ## Arming a reminder -/

/-- **A reminder goes into the heap of its clock** with a new start id:
what `bus_add_timer` does, and `timer_heap_pop` for a repeating timer. -/
structure TimerArmed (w w' : World) (c : CtxId) (k : ClockType) (t : EventId)
    (timeout : Nat) : Prop where
  frame : TimerFrame w w'
  reminder : w'.reminders t
    = { w.reminders t with
        timeout := timeout, ctx := some c, startId := (w.ctxs c).counter }
  others : ∀ s, s ≠ t → w'.reminders s = w.reminders s
  nodes : (w'.timerNodes c k).Perm (t :: w.timerNodes c k)
  nodes_ne : ∀ d j, d ≠ c ∨ j ≠ k → w'.timerNodes d j = w.timerNodes d j
  counter : (w'.ctxs c).counter = (w.ctxs c).counter + 1
  ctxs_ne : ∀ d, d ≠ c → w'.ctxs d = w.ctxs d
  order : ∀ d j, LevelHeap.Ordered (timerKey w) (w.timerNodes d j) →
    LevelHeap.Ordered (timerKey w') (w'.timerNodes d j)

/-- A reminder that stands nowhere, set up and inserted. -/
theorem TimerInv.arm (h : TimerInv w) (hn : ∀ d j, t ∉ w.timerNodes d j)
    (hk : (w.reminders t).clockType = k) (timeout : Nat) {v : World}
    (hv : v = (w.updReminder t fun x => { x with
      timeout := timeout, ctx := some c, startId := (w.ctxs c).counter }).updCtx c
        fun x => { x with counter := (w.ctxs c).counter + 1 }) :
    ∃ w', timerHeapInsert v c k t = some w' ∧ TimerArmed w w' c k t timeout
      ∧ TimerInv w' := by
  have hvt : v.reminders t = { w.reminders t with
      timeout := timeout, ctx := some c, startId := (w.ctxs c).counter } := by
    rw [hv]
    simp [World.updCtx, World.updReminder]
  have hvne : ∀ s, s ≠ t → v.reminders s = w.reminders s := by
    intro s hs
    rw [hv]
    simp [World.updCtx, World.updReminder, Function.update_of_ne hs]
  have hvx : ∀ d, v.ctxs d
      = if d = c then { w.ctxs d with counter := (w.ctxs c).counter + 1 }
        else w.ctxs d := by
    intro d
    rw [hv]
    by_cases hd : d = c
    · subst hd
      simp [World.updCtx, World.updReminder]
    · simp [World.updCtx, World.updReminder, hd]
  have hvf : TimerFrame w v := by
    refine ⟨by rw [hv]; rfl, by rw [hv]; rfl, by rw [hv]; rfl, by rw [hv]; rfl,
      by rw [hv]; rfl, by rw [hv]; rfl, by rw [hv]; rfl, fun d => ?_, fun s => ?_⟩
    · rw [hvx]
      split <;> rfl
    · by_cases hs : s = t
      · rw [hs, hvt]
      · rw [hvne s hs]
  obtain ⟨h1, hnodes1⟩ := h.touch hn (fun d => by rw [hvx]; split <;> rfl)
    (fun _ _ => by rw [hv]; rfl) hvne
  have hc1 : (v.reminders t).ctx = some c := by rw [hvt]
  have hk1 : (v.reminders t).clockType = k := by rw [hvt]; exact hk
  obtain ⟨w', ys, hins, hset, hperm, h', hord⟩ :=
    h1.insert hc1 hk1 (by rw [hnodes1]; exact hn c k)
  refine ⟨w', hins, ?_, h'⟩
  -- writing the reminder disorders no heap, since it is in none
  have hkeep : ∀ d j, LevelHeap.Ordered (timerKey w) (w.timerNodes d j) →
      LevelHeap.Ordered (timerKey v) (w.timerNodes d j) := by
    intro d j ho
    refine ho.congr (fun a ha => timerKey_congr (hvne a ?_))
    exact fun hc => hn d j (hc ▸ ha)
  constructor
  case frame => exact hvf.trans hset.frame
  case reminder => rw [hset.reminders, hvt]
  case others => intro s hs; rw [hset.reminders, hvne s hs]
  case nodes => rw [hset.nodes, ← hnodes1]; exact hperm
  case nodes_ne => intro d j hd; rw [hset.nodes_ne hd, hnodes1]
  case counter => rw [hset.counter, hvx, if_pos rfl]
  case ctxs_ne => intro d hd; rw [hset.ctxs_ne hd, hvx, if_neg hd]
  case order =>
    intro d j ho
    have hrem : ∀ a, timerKey w' a = timerKey v a :=
      fun a => timerKey_congr (by rw [hset.reminders])
    by_cases hd : d = c ∧ j = k
    · obtain ⟨rfl, rfl⟩ := hd
      rw [hset.nodes]
      refine (hord ?_).congr (fun a _ => hrem a)
      rw [hnodes1]
      exact hkeep d j ho
    · rw [hset.nodes_ne (by tauto), hnodes1]
      exact (hkeep d j ho).congr (fun a _ => hrem a)

/-- **`bus_add_timer`** on a reminder that stands in no heap. -/
theorem TimerInv.busAddTimer (h : TimerInv w) (hn : ∀ d j, t ∉ w.timerNodes d j)
    (c : CtxId) :
    ∃ w', busAddTimer w c t = some w'
      ∧ TimerArmed w w' c (w.reminders t).clockType t (w.reminders t).timeout
      ∧ TimerInv w' := by
  obtain ⟨w', hins, harm, h'⟩ := h.arm (c := c) hn rfl (w.reminders t).timeout rfl
  refine ⟨w', ?_, harm, h'⟩
  rw [← hins, Ats.busAddTimer]
  congr 1
  simp [World.updCtx, World.updReminder]

/-! ## `timer_heap_pop` -/

/-- **One firing**: the first reminder of the heap leaves it, or, where it
repeats, stays with its next timeout and a new start id. -/
structure TimerPop (w w' : World) (c : CtxId) (k : ClockType) (t : EventId) :
    Prop where
  frame : TimerFrame w w'
  first : (w.timerNodes c k).head? = some t
  armed : (w.reminders t).ctx = some c ∧ (w.reminders t).clockType = k
  reminder : w'.reminders t
    = if (w.reminders t).repeat = 0 then w.reminders t
      else { w.reminders t with
        timeout := ((w.reminders t).timeout + (w.reminders t).repeat) % 2 ^ 64
        startId := (w.ctxs c).counter }
  others : ∀ s, s ≠ t → w'.reminders s = w.reminders s
  nodes : (w'.timerNodes c k).Perm
    (if (w.reminders t).repeat = 0 then (w.timerNodes c k).erase t
      else w.timerNodes c k)
  nodes_ne : ∀ d j, d ≠ c ∨ j ≠ k → w'.timerNodes d j = w.timerNodes d j
  counter : (w'.ctxs c).counter
    = if (w.reminders t).repeat = 0 then (w.ctxs c).counter
      else (w.ctxs c).counter + 1
  ctxs_ne : ∀ d, d ≠ c → w'.ctxs d = w.ctxs d
  order : LevelHeap.Ordered (timerKey w) (w.timerNodes c k) →
    LevelHeap.Ordered (timerKey w') (w'.timerNodes c k)

theorem TimerPop.mem (h : TimerPop w w' c k t) : t ∈ w.timerNodes c k :=
  List.mem_of_mem_head? h.first

/-- The timers that do not fire stay where they are. -/
theorem TimerPop.mem_ne {s : EventId} (h : TimerPop w w' c k t) (hs : s ≠ t) :
    s ∈ w'.timerNodes c k ↔ s ∈ w.timerNodes c k := by
  rw [h.nodes.mem_iff]
  split
  · exact List.mem_erase_of_ne hs
  · exact Iff.rfl

/-- A firing links no timer. -/
theorem TimerPop.timerNodes_subset (h : TimerPop w w' c k t) (d : CtxId) (j : ClockType) :
    w'.timerNodes d j ⊆ w.timerNodes d j := by
  intro s hs
  by_cases hd : d = c ∧ j = k
  · obtain ⟨rfl, rfl⟩ := hd
    rw [h.nodes.mem_iff] at hs
    split at hs
    · exact List.mem_of_mem_erase hs
    · exact hs
  · rwa [h.nodes_ne d j (by tauto)] at hs

/-- **`timer_heap_pop` on a heap that holds a reminder.** -/
theorem TimerInv.timerHeapPop (h : TimerInv w) (ht : (w.timerNodes c k).head? = some t) :
    ∃ w', timerHeapPop w c k = some (w', some t) ∧ TimerPop w w' c k t ∧ TimerInv w' := by
  have hmem : t ∈ w.timerNodes c k := List.mem_of_mem_head? ht
  have harmed := h.armed c k t hmem
  obtain ⟨w1, ys, hrem, hset, hperm, h1, hord1⟩ := h.remove hmem
  have hnd : (w.timerNodes c k).Nodup := (h.heap c k).nodup
  have hout : t ∉ w1.timerNodes c k := by
    rw [hset.nodes, hperm.mem_iff]
    exact hnd.not_mem_erase
  have harmed1 : (w1.reminders t).ctx = some c ∧ (w1.reminders t).clockType = k := by
    rw [hset.reminders]
    exact harmed
  -- after the removal the timer is in no heap, so it may be inserted again
  have hnowhere : ∀ d j, t ∉ w1.timerNodes d j := by
    intro d j
    by_cases hd : d = c ∧ j = k
    · obtain ⟨rfl, rfl⟩ := hd
      exact hout
    · exact h1.notMem_other harmed1.1 harmed1.2 (by tauto)
  have hord1' : LevelHeap.Ordered (timerKey w) (w.timerNodes c k) →
      LevelHeap.Ordered (timerKey w1) (w1.timerNodes c k) := by
    intro ho
    rw [hset.nodes]
    exact (hord1 ho).congr (fun a _ => timerKey_congr (by rw [hset.reminders]))
  have hcall : Ats.timerHeapPop w c k
      = (if (w1.reminders t).repeat ≠ 0 then timerRearm w1 c k t else some w1).bind
          (fun w => some (w, some t)) := by
    have hmin := h.timerHeapPeek_eq c k
    rw [timerHeapPeek] at hmin
    rw [Ats.timerHeapPop, hmin, ht]
    simp only [hrem, Option.bind_eq_bind, Option.bind_some]
    split <;> rfl
  by_cases hz : (w.reminders t).repeat = 0
  · refine ⟨w1, ?_, ?_, h1⟩
    · rw [hcall, hset.reminders, if_neg (fun hc => hc hz)]
      rfl
    constructor
    case frame => exact hset.frame
    case first => exact ht
    case armed => exact harmed
    case reminder => rw [if_pos hz, hset.reminders]
    case others => intro s _; rw [hset.reminders]
    case nodes => rw [if_pos hz, hset.nodes]; exact hperm
    case nodes_ne => exact fun d j hd => hset.nodes_ne hd
    case counter => rw [if_pos hz, hset.counter]
    case ctxs_ne => exact fun d hd => hset.ctxs_ne hd
    case order => exact hord1'
  · -- a repeating timer goes back
    obtain ⟨w2, hins, harm, h2⟩ := h1.arm (c := c) hnowhere harmed1.2
      (((w.reminders t).timeout + (w.reminders t).repeat) % 2 ^ 64) rfl
    have hre : timerRearm w1 c k t = some w2 := by
      rw [← hins, timerRearm, harmed1.1]
      show timerHeapInsert _ c k t = _
      congr 1
      have hself : (w1.reminders t).ctx = some c := harmed1.1
      simp only [World.updCtx, World.updReminder, hset.reminders] at hself ⊢
      rw [← hself]
    have hcnt : (w1.ctxs c).counter = (w.ctxs c).counter := hset.counter c
    refine ⟨w2, ?_, ?_, h2⟩
    · rw [hcall, hset.reminders, if_pos hz, hre]
      rfl
    constructor
    case frame => exact hset.frame.trans harm.frame
    case first => exact ht
    case armed => exact harmed
    case reminder =>
      rw [if_neg hz, harm.reminder, hset.reminders, hcnt, ← harmed.1]
    case others => intro s hs; rw [harm.others s hs, hset.reminders]
    case nodes =>
      rw [if_neg hz]
      refine harm.nodes.trans ?_
      rw [hset.nodes]
      exact (hperm.cons t).trans (List.perm_cons_erase hmem).symm
    case nodes_ne => intro d j hd; rw [harm.nodes_ne d j hd, hset.nodes_ne hd]
    case counter => rw [if_neg hz, harm.counter, hcnt]
    case ctxs_ne => intro d hd; rw [harm.ctxs_ne d hd, hset.ctxs_ne hd]
    case order => exact fun ho => harm.order c k (hord1' ho)

end Ats
