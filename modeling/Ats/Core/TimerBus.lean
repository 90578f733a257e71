import Ats.Core.Client
import Ats.Core.Elsewhere

/-!
# TimerBus: busses that carry timers only

Without queues the market block has nothing to do, `bus_dequeue` returns
timers or nothing, and `bus_clear` empties the timer heaps.
-/

namespace Ats

variable {w w' w'' : World} {c d : CtxId} {k j : ClockType} {t s : EventId} {now : Nat}

/-- No bus knows a queue. -/
structure QueuesIdle (w : World) : Prop where
  nodes : ∀ c k, w.queueNodes c k = []
  pending : ∀ c, (w.ctxs c).pendingQueue = []
  saved : ∀ c, (w.ctxs c).savedEvent = none
  attached : ∀ c, (w.ctxs c).attachedCount = 0

theorem Booted.queuesIdle (h : Booted w) : QueuesIdle w where
  nodes := h.queueNodes
  pending := fun c => (h.ctxs c).pendingQueue
  saved := fun c => (h.ctxs c).savedEvent
  attached := fun c => (h.ctxs c).attachedCount

theorem QueuesIdle.of_same (h : QueuesIdle w) (hq : SameQueues w w') (hs : SameSlots w w') :
    QueuesIdle w' where
  nodes := fun c k => by rw [hq.queueNodes, h.nodes]
  pending := fun c => by rw [hq.pending, h.pending]
  saved := fun c => by rw [hs.saved, h.saved]
  attached := fun c => by rw [hs.count, h.attached]

/-! ## `bus_dequeue` -/

/-- The market block has nothing to look at. -/
theorem QueuesIdle.look (h : QueuesIdle w) (hl : LookAhead w w' c) : w' = w :=
  hl.run.keeps (P := fun v => v = w)
    (fun _ hm v v' _ _ hs hv => by
      have hnil : ∀ {u : World} {q : QueueId} {e : EventId}, PipePop v u c .market q e →
          False := by
        intro u q e hpop
        have := hpop.mem
        rw [hv, h.nodes] at this
        cases this
      cases hs with
      | drop hpop _ _ _ =>
          rcases hm with hm | hm <;> cases hm
          exact absurd hpop (fun hp => hnil hp)
      | save hpop _ _ =>
          rcases hm with hm | hm <;> cases hm
          exact absurd hpop (fun hp => hnil hp)
      | _ => rcases hm with hm | hm <;> cases hm) rfl

/-- **`bus_dequeue` returns a timer, or nothing.** -/
theorem QueuesIdle.busDequeue (h : QueuesIdle w) (hi : BusInv w) (c : CtxId) (now : Nat) :
    ∃ w' r, busDequeue w c now = some (w', r) ∧ BusInv w'
      ∧ (r = none ∧ w' = w
        ∨ ∃ k t w1, r = some t ∧ TimerPop w w1 c k t
          ∧ w' = w1.note (.fire c k t (w.reminders t).timeout)) := by
  obtain ⟨w1, w2, w', r, hcall, hd⟩ := hi.busDequeue c now
  have hw1 : w1 = w := by
    have hcheck := hd.check
    rw [checkPendingQueue, h.pending] at hcheck
    exact (Option.some.inj hcheck).symm
  subst hw1
  have hw2 := h.look hd.look
  subst hw2
  refine ⟨w', r, hcall, hd.run.inv, ?_⟩
  have hserved := hd.served
  generalize busSource w2 c now = source at hserved
  cases hserved with
  | timer hpop => exact Or.inr ⟨_, _, _, rfl, hpop, rfl⟩
  | pipe hpop _ =>
      have := hpop.mem
      rw [h.nodes] at this
      cases this
  | saved hun _ =>
      obtain ⟨_, he, _, _⟩ := busUnsave_eq hun
      rw [h.saved] at he
      cases he
  | nothing => exact Or.inl ⟨rfl, rfl⟩

/-! ## `bus_clear` -/

theorem QueuesIdle.queueHeapClear (h : QueuesIdle w) (hi : QueueInv w) (c : CtxId)
    (k : QueueCategory) (fuel : Nat) : queueHeapClear (fuel + 1) w c k = some w := by
  rw [Ats.queueHeapClear, hi.heapMin_eq, h.nodes]
  rfl

/-- What `event_unref` leaves alone. -/
structure UnrefFrame (w w' : World) : Prop where
  ctxs : w'.ctxs = w.ctxs
  queues : w'.queues = w.queues
  queueNode : w'.queueNode = w.queueNode
  reminders : w'.reminders = w.reminders
  timerNode : w'.timerNode = w.timerNode
  nextQueue : w'.nextQueue = w.nextQueue
  nextEvent : w'.nextEvent = w.nextEvent

theorem eventUnref_frame (w : World) (e : EventId) : UnrefFrame w (eventUnref w e) := by
  unfold eventUnref
  dsimp only
  split <;> exact ⟨rfl, rfl, rfl, rfl, rfl, rfl, rfl⟩

/-- An entry that only an event's count leaves. -/
def Act.OfEvent : Act → Prop
  | .unref _ => True
  | .free _ => True
  | _ => False

theorem count_ofEvent {acts : List Act} (h : ∀ a ∈ acts, a.OfEvent) (p : QueueId) :
    acts.count (.freeQueue p) = 0 :=
  List.count_eq_zero.mpr (fun hm => h _ hm)

theorem eventUnref_log (w : World) (e : EventId) :
    ∃ acts, (eventUnref w e).log = w.log ++ acts ∧ ∀ a ∈ acts, a.OfEvent := by
  unfold eventUnref
  dsimp only
  split
  · refine ⟨[.unref e, .free e], by simp [eventFree, World.note, World.updEvent], ?_⟩
    simp [Act.OfEvent]
  · refine ⟨[.unref e], by simp [World.note, World.updEvent], ?_⟩
    simp [Act.OfEvent]

namespace UnrefFrame

theorem sameQueues (h : UnrefFrame w w') : SameQueues w w' where
  spsc := fun p => by rw [h.queues]
  ctx := fun p => by rw [h.queues]
  category := fun p => by rw [h.queues]
  node := h.queueNode
  next := h.nextQueue
  heap := fun d => by rw [h.ctxs]
  pending := fun d => by rw [h.ctxs]

theorem sameTimers (h : UnrefFrame w w') : SameTimers w w' where
  ctx := fun t => by rw [h.reminders]
  clockType := fun t => by rw [h.reminders]
  node := h.timerNode
  heap := fun d => by rw [h.ctxs]

theorem sameSlots (h : UnrefFrame w w') : SameSlots w w' where
  saved := fun d => by rw [h.ctxs]
  savedFrom := fun d => by rw [h.ctxs]
  attached := fun d => by rw [h.ctxs]
  count := fun d => by rw [h.ctxs]

theorem inv (h : UnrefFrame w w') (hi : BusInv w) : BusInv w' :=
  hi.of_sameQueues h.sameQueues h.sameTimers h.sameSlots

theorem timerNodes (h : UnrefFrame w w') (d : CtxId) (j : ClockType) :
    w'.timerNodes d j = w.timerNodes d j := by
  rw [World.timerNodes, World.timerMem, h.ctxs, h.timerNode]
  rfl

end UnrefFrame

/-- **A timer heap has been emptied**, and each of its timers unreferenced. -/
structure HeapCleared (w w' : World) (c : CtxId) (k : ClockType) : Prop where
  inv : BusInv w'
  idle : QueuesIdle w'
  reminders : w'.reminders = w.reminders
  nextEvent : w'.nextEvent = w.nextEvent
  nodes : w'.timerNodes c k = []
  nodes_ne : ∀ d j, d ≠ c ∨ j ≠ k → w'.timerNodes d j = w.timerNodes d j
  refcount : ∀ t, (w'.events t).refcount
    = (w.events t).refcount - if t ∈ w.timerNodes c k then 1 else 0
  free : ∀ t, .free t ∈ w'.log →
    .free t ∈ w.log ∨ t ∈ w.timerNodes c k ∧ (w.events t).refcount = 1

/-- The same on any bus: queues and all other heaps are as they were. -/
structure TimersCleared (w w' : World) (c : CtxId) (k : ClockType) : Prop where
  inv : BusInv w'
  queues : w'.queues = w.queues
  queueNode : w'.queueNode = w.queueNode
  reminders : w'.reminders = w.reminders
  nextQueue : w'.nextQueue = w.nextQueue
  nextEvent : w'.nextEvent = w.nextEvent
  ctxs : ∀ d, w'.ctxs d = { w.ctxs d with timerHeap := (w'.ctxs d).timerHeap }
  ctxs_ne : ∀ d, d ≠ c → w'.ctxs d = w.ctxs d
  nodes : w'.timerNodes c k = []
  nodes_ne : ∀ d j, d ≠ c ∨ j ≠ k → w'.timerNodes d j = w.timerNodes d j
  refcount : ∀ t, (w'.events t).refcount
    = (w.events t).refcount - if t ∈ w.timerNodes c k then 1 else 0
  free : ∀ t, .free t ∈ w'.log →
    .free t ∈ w.log ∨ t ∈ w.timerNodes c k ∧ (w.events t).refcount = 1
  log : ∃ acts, w'.log = w.log ++ acts ∧ ∀ a ∈ acts, a.OfEvent

/-- **`timer_heap_clear`** ends. -/
theorem BusInv.timerHeapClear : ∀ (fuel : Nat) {w : World}, BusInv w →
    (w.timerNodes c k).length < fuel →
    ∃ w', timerHeapClear fuel w c k = some w' ∧ TimersCleared w w' c k := by
  intro fuel
  induction fuel with
  | zero => intro w _ hlt; omega
  | succ fuel ih =>
      intro w hi hlt
      have hmin := hi.timer.timerHeapPeek_eq c k
      rw [timerHeapPeek] at hmin
      cases hn : w.timerNodes c k with
      | nil =>
          refine ⟨w, ?_, hi, rfl, rfl, rfl, rfl, rfl, fun _ => rfl, fun _ _ => rfl, hn,
            fun _ _ _ => rfl, fun t => ?_, fun t hf => Or.inl hf, [],
            (List.append_nil _).symm, by simp⟩
          · rw [Ats.timerHeapClear, hmin, hn]
            rfl
          · rw [hn, if_neg List.not_mem_nil, Int.sub_zero]
      -- the root is removed and released, and the rest is cleared by the hypothesis
      | cons t rest =>
          have ht : t ∈ w.timerNodes c k := by
            rw [hn]
            exact List.mem_cons_self
          obtain ⟨w1, ys, hrem, hset, hperm, ht1, _⟩ := hi.timer.remove ht
          have hf1 := hset.frame
          have hi1 : BusInv w1 := hi.of_timerFrame hf1 ht1
          have hu := eventUnref_frame w1 t
          have hys : ys.Perm rest := by
            have := hperm
            rwa [hn, List.erase_cons_head] at this
          have hnodes : (eventUnref w1 t).timerNodes c k = ys := by
            rw [hu.timerNodes, hset.nodes]
          have hnd : (t :: rest).Nodup := hn ▸ (hi.timer.heap c k).nodup
          obtain ⟨w', hloop, hclear⟩ := ih (hu.inv hi1) (by
            rw [hnodes, hys.length_eq]
            rw [hn, List.length_cons] at hlt
            omega)
          have hcount1 : ∀ s, (w1.events s).refcount = (w.events s).refcount :=
            fun s => by rw [hf1.events]
          obtain ⟨as, hlog, has⟩ := eventUnref_log w1 t
          obtain ⟨bs, hlog', hbs⟩ := hclear.log
          refine ⟨w', ?_, hclear.inv, ?_, ?_, ?_, ?_, ?_, fun d => ?_, fun d hd => ?_,
            hclear.nodes, fun d j hd => ?_, fun s => ?_, fun s hf => ?_, as ++ bs, ?_,
            fun a ha => ?_⟩
          · rw [Ats.timerHeapClear, hmin, hn]
            simp only [List.head?_cons, hrem, Option.bind_eq_bind, Option.bind_some]
            exact hloop
          · rw [hclear.queues, hu.queues, hf1.queues]
          · rw [hclear.queueNode, hu.queueNode, hf1.queueNode]
          · rw [hclear.reminders, hu.reminders, hset.reminders]
          · rw [hclear.nextQueue, hu.nextQueue, hf1.nextQueue]
          · rw [hclear.nextEvent, hu.nextEvent, hf1.nextEvent]
          · refine (hclear.ctxs d).trans ?_
            rw [hu.ctxs, hf1.ctxs d, hset.counter]
          · rw [hclear.ctxs_ne d hd, hu.ctxs, hset.ctxs_ne hd]
          · rw [hclear.nodes_ne d j hd, hu.timerNodes, hset.nodes_ne hd]
          · rw [hclear.refcount, eventUnref_refcount, hcount1, hnodes, hn]
            by_cases hs : s = t
            · subst hs
              simp [hys.mem_iff, (List.nodup_cons.mp hnd).1]
            · simp [hys.mem_iff, hs]
          · rw [hn, List.mem_cons]
            rcases hclear.free s hf with hf | ⟨hm, hone⟩
            · rw [eventUnref_free, hf1.log, hcount1] at hf
              rcases hf with hf | ⟨rfl, hone⟩
              · exact Or.inl hf
              · exact Or.inr ⟨Or.inl rfl, hone⟩
            · rw [hnodes, hys.mem_iff] at hm
              rw [eventUnref_refcount, hcount1] at hone
              have hs : s ≠ t := fun hc => (List.nodup_cons.mp hnd).1 (hc ▸ hm)
              rw [if_neg hs, Int.sub_zero] at hone
              exact Or.inr ⟨Or.inr hm, hone⟩
          · rw [hlog', hlog, hf1.log, List.append_assoc]
          · rcases List.mem_append.mp ha with ha | ha
            · exact has a ha
            · exact hbs a ha

theorem TimersCleared.sameQueues (h : TimersCleared w w' c k) : SameQueues w w' where
  spsc := fun p => by rw [h.queues]
  ctx := fun p => by rw [h.queues]
  category := fun p => by rw [h.queues]
  node := h.queueNode
  next := h.nextQueue
  heap := fun d => by rw [h.ctxs]
  pending := fun d => by rw [h.ctxs]

theorem TimersCleared.sameSlots (h : TimersCleared w w' c k) : SameSlots w w' where
  saved := fun d => by rw [h.ctxs]
  savedFrom := fun d => by rw [h.ctxs]
  attached := fun d => by rw [h.ctxs]
  count := fun d => by rw [h.ctxs]

theorem QueuesIdle.timerHeapClear (fuel : Nat) (h : QueuesIdle w) (hi : BusInv w)
    (hf : (w.timerNodes c k).length < fuel) :
    ∃ w', timerHeapClear fuel w c k = some w' ∧ HeapCleared w w' c k := by
  obtain ⟨w', hcall, hc⟩ := hi.timerHeapClear fuel hf
  exact ⟨w', hcall, hc.inv, h.of_same hc.sameQueues hc.sameSlots, hc.reminders, hc.nextEvent,
    hc.nodes, hc.nodes_ne, hc.refcount, hc.free⟩

/-- **`bus_clear` has unlinked every timer of `c`**, and unreferenced it. -/
structure BusCleared (w w' : World) (c : CtxId) : Prop where
  inv : BusInv w'
  idle : QueuesIdle w'
  reminders : w'.reminders = w.reminders
  nextEvent : w'.nextEvent = w.nextEvent
  nodes : ∀ j, w'.timerNodes c j = []
  nodes_ne : ∀ d j, d ≠ c → w'.timerNodes d j = w.timerNodes d j
  linked : ∀ t j, t ∈ w.timerNodes c j →
    (w'.events t).refcount = (w.events t).refcount - 1
  others : ∀ t, (∀ j, t ∉ w.timerNodes c j) →
    (w'.events t).refcount = (w.events t).refcount
  free : ∀ t, .free t ∈ w'.log →
    .free t ∈ w.log ∨ (∃ j, t ∈ w.timerNodes c j) ∧ (w.events t).refcount = 1

/-- A timer stands in one heap at most. -/
theorem TimerInv.mem_unique (h : TimerInv w) {i j : ClockType} (hd : t ∈ w.timerNodes c i)
    (hc : t ∈ w.timerNodes d j) : c = d ∧ i = j := by
  obtain ⟨h1, h2⟩ := h.armed c i t hd
  obtain ⟨h3, h4⟩ := h.armed d j t hc
  exact ⟨Option.some.inj (h1.symm.trans h3), h2.symm.trans h4⟩

/-- **`bus_clear` of a bus without queues.** -/
theorem QueuesIdle.busClear (h : QueuesIdle w) (hi : BusInv w) (c : CtxId) :
    ∃ w', busClear w c = some w' ∧ BusCleared w w' c := by
  have hlen : ∀ {v : World}, BusInv v → ∀ j,
      (v.timerNodes c j).length < ((v.ctxs c).timerHeap j).nelts + 1 := by
    intro v hv j
    rw [hv.timer.nelts c j]
    exact Nat.lt_succ_self _
  obtain ⟨w1, hcall1, h1⟩ := QueuesIdle.timerHeapClear (c := c) (k := .clockLocal) _ h hi
    (hlen hi _)
  obtain ⟨w2, hcall2, h2⟩ := QueuesIdle.timerHeapClear (c := c) (k := .clockExchange) _
    h1.idle h1.inv (hlen h1.inv _)
  have hqueues : [QueueCategory.market, .execution, .service, .command].foldlM
      (fun w k => Ats.queueHeapClear (((w.ctxs c).queueHeap k).nelts + 1) w c k) w = some w := by
    simp only [List.foldlM_cons, List.foldlM_nil, h.queueHeapClear hi.queue, Option.bind_eq_bind,
      Option.bind_some]
    rfl
  have htimers : [ClockType.clockLocal, .clockExchange].foldlM
      (fun w k => Ats.timerHeapClear (((w.ctxs c).timerHeap k).nelts + 1) w c k) w = some w2 := by
    simp only [List.foldlM_cons, List.foldlM_nil, hcall1, hcall2, Option.bind_eq_bind,
      Option.bind_some]
    rfl
  have hlast : w2.updCtx c (fun x => { x with attachedCount := 0 }) = w2 := by
    have hx : ({ w2.ctxs c with attachedCount := 0 } : Ctx) = w2.ctxs c := by
      rw [← h2.idle.attached c]
    rw [World.updCtx, hx, Function.update_eq_self]
  have hother : w1.timerNodes c .clockExchange = w.timerNodes c .clockExchange :=
    h1.nodes_ne c .clockExchange (Or.inr (by decide))
  refine ⟨w2, ?_, h2.inv, h2.idle, h2.reminders.trans h1.reminders,
    h2.nextEvent.trans h1.nextEvent, fun j => ?_, fun d j hd => ?_, fun t j ht => ?_,
    fun t ht => ?_, fun t hf => ?_⟩
  · rw [Ats.busClear, h.saved]
    simp only [hqueues, htimers, Option.bind_eq_bind, Option.bind_some, busClearAttached,
      h2.idle.attached, Nat.lt_irrefl, if_false, hlast]
  · cases j with
    | clockLocal => rw [h2.nodes_ne c .clockLocal (Or.inr (by decide)), h1.nodes]
    | clockExchange => exact h2.nodes
  · rw [h2.nodes_ne d j (Or.inl hd), h1.nodes_ne d j (Or.inl hd)]
  · rw [h2.refcount, h1.refcount]
    cases j with
    | clockLocal =>
        have he : t ∉ w1.timerNodes c .clockExchange := fun he => by
          rw [hother] at he
          have := (hi.timer.mem_unique ht he).2
          cases this
        rw [if_pos ht, if_neg he, Int.sub_zero]
    | clockExchange =>
        have hl : t ∉ w.timerNodes c .clockLocal := fun hl => by
          have := (hi.timer.mem_unique hl ht).2
          cases this
        have he : t ∈ w1.timerNodes c .clockExchange := by rwa [hother]
        rw [if_neg hl, if_pos he, Int.sub_zero]
  · have he : t ∉ w1.timerNodes c .clockExchange := by
      rw [hother]
      exact ht _
    rw [h2.refcount, h1.refcount, if_neg (ht _), if_neg he, Int.sub_zero, Int.sub_zero]
  · rcases h2.free t hf with hf | ⟨hm, hone⟩
    · rcases h1.free t hf with hf | ⟨hm, hone⟩
      · exact Or.inl hf
      · exact Or.inr ⟨⟨_, hm⟩, hone⟩
    · rw [hother] at hm
      have hl : t ∉ w.timerNodes c .clockLocal := fun hl => by
        have := (hi.timer.mem_unique hl hm).2
        cases this
      rw [h1.refcount, if_neg hl, Int.sub_zero] at hone
      exact Or.inr ⟨⟨_, hm⟩, hone⟩

end Ats
