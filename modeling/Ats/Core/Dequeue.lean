import Ats.Core.Steps

/-!
# Dequeue: `bus_dequeue` as a chain of steps

On a well-formed memory `bus_dequeue` neither aborts nor loops: it empties
the pending list, fills the market look-ahead, and serves one source. Every
loop is proved a `BusRun` by induction on its fuel.
-/

namespace Ats

variable {w w' : World} {c : CtxId} {k : QueueCategory} {q : QueueId} {e : EventId}

/-! ## The invariant after each kind of change -/

/-- What `BusInv` asks beyond queues and timers. -/
structure SameSlots (w w' : World) : Prop where
  saved : ∀ d, (w'.ctxs d).savedEvent = (w.ctxs d).savedEvent
  savedFrom : ∀ d, (w'.ctxs d).savedFrom = (w.ctxs d).savedFrom
  attached : ∀ d, (w'.ctxs d).attached = (w.ctxs d).attached
  count : ∀ d, (w'.ctxs d).attachedCount = (w.ctxs d).attachedCount

theorem BusInv.of_same (h : BusInv w) (hq : QueueInv w') (ht : TimerInv w')
    (hs : SameSlots w w') (hle : w.nextQueue ≤ w'.nextQueue)
    (hctx : ∀ p d, (w.queues p).ctx = some d → (w'.queues p).ctx = some d)
    (hcat : ∀ p, p < w.nextQueue → (w'.queues p).category = (w.queues p).category) :
    BusInv w' where
  queue := hq
  timer := ht
  saved := fun d => by
    rw [hs.saved, hs.savedFrom]
    exact h.saved d
  savedFrom := fun d p hp => by
    rw [hs.savedFrom] at hp
    obtain ⟨hlt, hx, hk⟩ := h.savedFrom d p hp
    exact ⟨Nat.lt_of_lt_of_le hlt hle, hctx p d hx, (hcat p hlt).trans hk⟩
  attached := fun d i hi => by
    rw [hs.count] at hi
    obtain ⟨p, hp, hlt, x, hx⟩ := h.attached d i hi
    exact ⟨p, by rw [hs.attached]; exact hp, Nat.lt_of_lt_of_le hlt hle, x, hctx p x hx⟩

theorem QueueFrame.sameSlots (h : QueueFrame w w') : SameSlots w w' where
  saved := h.savedEvent
  savedFrom := h.savedFrom
  attached := fun d => h.ctx_proj d Ctx.attached (fun _ _ _ => rfl)
  count := fun d => h.ctx_proj d Ctx.attachedCount (fun _ _ _ => rfl)

theorem TimerFrame.sameSlots (h : TimerFrame w w') : SameSlots w w' where
  saved := fun d => h.ctx_proj d Ctx.savedEvent (fun _ _ _ => rfl)
  savedFrom := fun d => h.ctx_proj d Ctx.savedFrom (fun _ _ _ => rfl)
  attached := fun d => h.ctx_proj d Ctx.attached (fun _ _ _ => rfl)
  count := fun d => h.ctx_proj d Ctx.attachedCount (fun _ _ _ => rfl)

theorem BusInv.of_queueFrame (h : BusInv w) (hf : QueueFrame w w') (hq : QueueInv w') :
    BusInv w' :=
  h.of_same hq (hf.sameTimers.timerInv h.timer) hf.sameSlots
    (Nat.le_of_eq hf.nextQueue.symm)
    (fun p _ hp => (hf.queue_ctx p).trans hp) (fun p _ => hf.queue_category p)

theorem BusInv.of_timerFrame (h : BusInv w) (hf : TimerFrame w w') (ht : TimerInv w') :
    BusInv w' :=
  h.of_same (hf.sameQueues.queueInv h.queue) ht hf.sameSlots
    (Nat.le_of_eq hf.nextQueue.symm)
    (fun _ _ hp => by rw [hf.queues]; exact hp) (fun p _ => by rw [hf.queues])

theorem BusInv.of_sameQueues (h : BusInv w) (hq : SameQueues w w') (ht : SameTimers w w')
    (hs : SameSlots w w') : BusInv w' :=
  h.of_same (hq.queueInv h.queue) (ht.timerInv h.timer) hs
    (Nat.le_of_eq hq.next.symm)
    (fun p _ hp => (hq.ctx p).trans hp) (fun p _ => hq.category p)

theorem BusInv.note (h : BusInv w) (a : Act) : BusInv (w.note a) :=
  h.of_sameQueues ⟨fun _ => rfl, fun _ => rfl, fun _ => rfl, rfl, rfl, fun _ => rfl,
    fun _ => rfl⟩ ⟨fun _ => rfl, fun _ => rfl, rfl, fun _ => rfl⟩
    ⟨fun _ => rfl, fun _ => rfl, fun _ => rfl, fun _ => rfl⟩

/-- A change of contexts that touches no heap and no pending list. -/
theorem updCtx_sameQueues (w : World) (c : CtxId) {f : Ctx → Ctx}
    (hf : ∀ x, (f x).queueHeap = x.queueHeap ∧ (f x).pendingQueue = x.pendingQueue) :
    SameQueues w (w.updCtx c f) :=
  ⟨fun _ => rfl, fun _ => rfl, fun _ => rfl, rfl, rfl,
    fun d => w.updCtx_proj c d Ctx.queueHeap (fun x => (hf x).1),
    fun d => w.updCtx_proj c d Ctx.pendingQueue (fun x => (hf x).2)⟩

theorem SameQueues.note (h : SameQueues w w') (a : Act) : SameQueues w (w'.note a) :=
  ⟨h.spsc, h.ctx, h.category, h.node, h.next, h.heap, h.pending⟩

theorem busSave_sameQueues (w : World) (c : CtxId) (q : QueueId) (e : EventId)
    (f : Event → Event) : SameQueues w (busSave (w.updEvent e f) c q e) := by
  have h := updCtx_sameQueues (w.updEvent e f) c
    (f := fun x => { x with savedEvent := some e, savedFrom := some q })
    (fun _ => ⟨rfl, rfl⟩)
  exact ⟨h.spsc, h.ctx, h.category, h.node, h.next, h.heap, h.pending⟩

/-- A change of contexts that touches none of the fields `BusInv` reads. -/
theorem BusInv.updCtx (h : BusInv w) (c : CtxId) {f : Ctx → Ctx}
    (hf : ∀ x, (f x).queueHeap = x.queueHeap ∧ (f x).pendingQueue = x.pendingQueue
      ∧ (f x).timerHeap = x.timerHeap ∧ (f x).savedEvent = x.savedEvent
      ∧ (f x).savedFrom = x.savedFrom ∧ (f x).attached = x.attached
      ∧ (f x).attachedCount = x.attachedCount) : BusInv (w.updCtx c f) := by
  refine h.of_sameQueues ⟨fun _ => rfl, fun _ => rfl, fun _ => rfl, rfl, rfl, ?_, ?_⟩
    ⟨fun _ => rfl, fun _ => rfl, rfl, ?_⟩ ⟨?_, ?_, ?_, ?_⟩
  · exact fun d => w.updCtx_proj c d Ctx.queueHeap (fun x => (hf x).1)
  · exact fun d => w.updCtx_proj c d Ctx.pendingQueue (fun x => (hf x).2.1)
  · exact fun d => w.updCtx_proj c d Ctx.timerHeap (fun x => (hf x).2.2.1)
  · exact fun d => w.updCtx_proj c d Ctx.savedEvent (fun x => (hf x).2.2.2.1)
  · exact fun d => w.updCtx_proj c d Ctx.savedFrom (fun x => (hf x).2.2.2.2.1)
  · exact fun d => w.updCtx_proj c d Ctx.attached (fun x => (hf x).2.2.2.2.2.1)
  · exact fun d => w.updCtx_proj c d Ctx.attachedCount (fun x => (hf x).2.2.2.2.2.2)

/-- Events are read by nothing in `BusInv`. -/
theorem BusInv.updEvent (h : BusInv w) (e : EventId) (f : Event → Event) :
    BusInv (w.updEvent e f) :=
  h.of_sameQueues ⟨fun _ => rfl, fun _ => rfl, fun _ => rfl, rfl, rfl, fun _ => rfl,
    fun _ => rfl⟩ ⟨fun _ => rfl, fun _ => rfl, rfl, fun _ => rfl⟩
    ⟨fun _ => rfl, fun _ => rfl, fun _ => rfl, fun _ => rfl⟩

theorem QueueAdded.queue_ctx (h : QueueAdded w w' c q)
    (hc : (w.queues q).ctx = some c ∨ (w.queues q).ctx = none) {p : QueueId} {d : CtxId}
    (hp : (w.queues p).ctx = some d) : (w'.queues p).ctx = some d := by
  by_cases hpq : p = q
  · subst hpq
    rcases hc with hc | hc
    · rw [h.ctx, ← hc, hp]
    · rw [hc] at hp
      cases hp
  · rw [h.others p hpq]
    exact hp

theorem QueueAdded.queue_category (h : QueueAdded w w' c q) (p : QueueId) :
    (w'.queues p).category = (w.queues p).category := by
  by_cases hpq : p = q
  · rw [hpq, h.category]
  · rw [h.others p hpq]

theorem QueueAdded.sameSlots (h : QueueAdded w w' c q) : SameSlots w w' :=
  ⟨h.frame.savedEvent, h.frame.savedFrom, h.frame.sameSlots.attached,
    h.frame.sameSlots.count⟩

theorem BusInv.of_queueAdded (h : BusInv w) (ha : QueueAdded w w' c q)
    (hc : (w.queues q).ctx = some c ∨ (w.queues q).ctx = none) (hq : QueueInv w') :
    BusInv w' := by
  refine h.of_same hq ?_ ha.sameSlots (Nat.le_of_eq ha.frame.nextQueue.symm)
    (fun _ _ hp => ha.queue_ctx hc hp) (fun p _ => ha.queue_category p)
  have ht := ha.frame.sameTimers
  have hs : SameTimers w w' := ⟨ht.ctx, ht.clockType, ht.node, ht.heap⟩
  exact hs.timerInv h.timer

theorem QueuePushed.queue_ctx (h : QueuePushed w w' q e) (p : QueueId) :
    (w'.queues p).ctx = (w.queues p).ctx := by
  obtain ⟨w1, ha, hw⟩ := h.append
  rw [hw]
  exact ha.ctx p

theorem QueuePushed.queue_category (h : QueuePushed w w' q e) (p : QueueId) :
    (w'.queues p).category = (w.queues p).category := by
  obtain ⟨w1, ha, hw⟩ := h.append
  rw [hw]
  exact ha.category p

theorem QueuePushed.sameSlots (h : QueuePushed w w' q e) : SameSlots w w' :=
  ⟨fun d => by rw [h.ctxs], fun d => by rw [h.ctxs], fun d => by rw [h.ctxs],
    fun d => by rw [h.ctxs]⟩

theorem QueuePushed.sameTimers (h : QueuePushed w w' q e) : SameTimers w w' := by
  obtain ⟨w1, ha, hw⟩ := h.append
  have hrest := ha.rest
  refine ⟨fun t => ?_, fun t => ?_, ?_, fun d => by rw [h.ctxs]⟩
  · rw [hw, hrest]
  · rw [hw, hrest]
  · rw [hw, hrest]

theorem QueuePushed.nextQueue (h : QueuePushed w w' q e) : w'.nextQueue = w.nextQueue := by
  obtain ⟨w1, ha, hw⟩ := h.append
  rw [hw]
  exact ha.nextQueue

theorem BusInv.of_queuePushed (h : BusInv w) (hp : QueuePushed w w' q e)
    (hq : QueueInv w') : BusInv w' :=
  h.of_same hq (hp.sameTimers.timerInv h.timer) hp.sameSlots
    (Nat.le_of_eq hp.nextQueue.symm)
    (fun p _ hx => (hp.queue_ctx p).trans hx) (fun p _ => hp.queue_category p)

/-- The look-ahead slot of one bus is written. -/
theorem BusInv.setSaved (h : BusInv w) {o : Option EventId} {p : Option QueueId}
    (hop : o.isSome = p.isSome)
    (hp : ∀ q, p = some q →
      q < w.nextQueue ∧ (w.queues q).ctx = some c ∧ (w.queues q).category = .market) :
    BusInv (w.updCtx c fun x => { x with savedEvent := o, savedFrom := p }) := by
  have hsave : ∀ d, ((w.updCtx c fun x =>
      { x with savedEvent := o, savedFrom := p }).ctxs d)
      = if d = c then { w.ctxs d with savedEvent := o, savedFrom := p } else w.ctxs d :=
    fun d => w.updCtx_ctxs c d _
  have hq : SameQueues w (w.updCtx c fun x => { x with savedEvent := o, savedFrom := p }) :=
    ⟨fun _ => rfl, fun _ => rfl, fun _ => rfl, rfl, rfl,
      fun d => by rw [hsave]; split <;> rfl, fun d => by rw [hsave]; split <;> rfl⟩
  have ht : SameTimers w (w.updCtx c fun x => { x with savedEvent := o, savedFrom := p }) :=
    ⟨fun _ => rfl, fun _ => rfl, rfl, fun d => by rw [hsave]; split <;> rfl⟩
  refine ⟨hq.queueInv h.queue, ht.timerInv h.timer, fun d => ?_, fun d q hq' => ?_,
    fun d i hi => ?_⟩
  · rw [hsave]
    split
    · exact hop
    · exact h.saved d
  · rw [hsave] at hq'
    split at hq'
    case isTrue hd =>
      subst hd
      exact hp q hq'
    case isFalse => exact h.savedFrom d q hq'
  · rw [hsave] at hi ⊢
    split at hi
    · rw [if_pos (by assumption)]
      exact h.attached d i hi
    · rw [if_neg (by assumption)]
      exact h.attached d i hi

/-! ## `check_pending_queue` -/

/-- A pending list without its first queue. -/
theorem QueueInv.unpend (h : QueueInv w) {rest : List QueueId}
    (hp : (w.ctxs c).pendingQueue = q :: rest) :
    QueueInv (w.updCtx c fun x => { x with pendingQueue := rest })
      ∧ (∀ d j, (w.updCtx c fun x => { x with pendingQueue := rest }).queueNodes d j
          = w.queueNodes d j)
      ∧ ∀ d, q ∉ ((w.updCtx c fun x => { x with pendingQueue := rest }).ctxs d).pendingQueue := by
  have hctx : ∀ d, (w.updCtx c fun x => { x with pendingQueue := rest }).ctxs d
      = if d = c then { w.ctxs d with pendingQueue := rest } else w.ctxs d :=
    fun d => w.updCtx_ctxs c d _
  generalize hv : (w.updCtx c fun x => { x with pendingQueue := rest }) = v at hctx ⊢
  have hqs : v.queues = w.queues := by rw [← hv]; rfl
  have hnext : v.nextQueue = w.nextQueue := by rw [← hv]; rfl
  have hcont : ∀ p, v.contents p = w.contents p := by
    intro p
    rw [World.contents, hqs, World.contents]
  have hmem : ∀ d j, v.queueMem d j = w.queueMem d j := by
    intro d j
    have hheap : (v.ctxs d).queueHeap = (w.ctxs d).queueHeap := by
      rw [hctx]
      split <;> rfl
    have hnode : v.queueNode = w.queueNode := by rw [← hv]; rfl
    rw [World.queueMem, hheap, hnode, World.queueMem]
  have hnodes : ∀ d j, v.queueNodes d j = w.queueNodes d j := by
    intro d j
    rw [World.queueNodes, hmem, World.queueNodes]
  -- what is left of the list was on it before
  have hnd := h.pendingNodup c
  rw [hp, List.nodup_cons] at hnd
  have hsub : ∀ d p, p ∈ (v.ctxs d).pendingQueue → p ∈ (w.ctxs d).pendingQueue := by
    intro d p hm
    rw [hctx] at hm
    split at hm
    case isTrue hd =>
      rw [hd, hp]
      exact List.mem_cons_of_mem q hm
    case isFalse => exact hm
  have hlink : ∀ d j p, Linkable w d j p → Linkable v d j p :=
    fun d j p hl => ⟨hnext ▸ hl.lt, hqs ▸ hl.ctx, hqs ▸ hl.category, hcont p ▸ hl.nonempty⟩
  refine ⟨?_, hnodes, fun d hm => ?_⟩
  · constructor
    case ring =>
      intro p hlt
      rw [hqs, hcont]
      exact h.ring p (hnext ▸ hlt)
    case heap =>
      intro d j
      rw [hmem, hnodes]
      exact h.heap d j
    case linked =>
      intro d j p hm
      rw [hnodes] at hm
      exact hlink d j p (h.linked d j p hm)
    case pendingNodup =>
      intro d
      rw [hctx]
      split
      · exact hnd.2
      · exact h.pendingNodup d
    case pending =>
      intro d p hm
      obtain ⟨hl, hn⟩ := h.pending d p (hsub d p hm)
      rw [hqs, hnodes]
      exact ⟨hlink d _ p hl, hn⟩
  · -- `q` was pending on `c` only, and there once
    have hqc : (w.queues q).ctx = some c :=
      (h.pending c q (by rw [hp]; exact List.mem_cons_self)).1.ctx
    have hqd : (w.queues q).ctx = some d := (h.pending d q (hsub d q hm)).1.ctx
    have hcd : d = c := Option.some.inj (hqd.symm.trans hqc)
    rw [hctx, if_pos hcd] at hm
    exact hnd.1 hm

theorem BusInv.unpend (h : BusInv w) {rest : List QueueId}
    (hp : (w.ctxs c).pendingQueue = q :: rest) :
    BusInv (w.updCtx c fun x => { x with pendingQueue := rest })
      ∧ SameSlots w (w.updCtx c fun x => { x with pendingQueue := rest }) := by
  have hslots : SameSlots w (w.updCtx c fun x => { x with pendingQueue := rest }) :=
    ⟨fun d => w.updCtx_proj c d Ctx.savedEvent (fun _ => rfl),
      fun d => w.updCtx_proj c d Ctx.savedFrom (fun _ => rfl),
      fun d => w.updCtx_proj c d Ctx.attached (fun _ => rfl),
      fun d => w.updCtx_proj c d Ctx.attachedCount (fun _ => rfl)⟩
  have htimers : SameTimers w (w.updCtx c fun x => { x with pendingQueue := rest }) :=
    ⟨fun _ => rfl, fun _ => rfl, rfl, fun d => w.updCtx_proj c d Ctx.timerHeap (fun _ => rfl)⟩
  exact ⟨h.of_same (h.queue.unpend hp).1 (htimers.timerInv h.timer) hslots (Nat.le_refl _)
    (fun _ _ hx => hx) (fun _ _ => rfl), hslots⟩

/-- A round of `check_pending_queue`. -/
theorem BusInv.reenter (h : BusInv w) {rest : List QueueId}
    (hp : (w.ctxs c).pendingQueue = q :: rest) :
    ∃ w', busAddQueue (w.updCtx c fun x => { x with pendingQueue := rest }) c q = some w'
      ∧ BusStep (.reenter c) w w' ∧ BusInv w' ∧ (w'.ctxs c).pendingQueue = rest
      ∧ (w'.ctxs c).mode = (w.ctxs c).mode := by
  have hmem : q ∈ (w.ctxs c).pendingQueue := by
    rw [hp]
    exact List.mem_cons_self
  obtain ⟨hl, hnot⟩ := h.queue.pending c q hmem
  obtain ⟨h1, hnodes1, hp1⟩ := h.queue.unpend hp
  have hb1 := (h.unpend hp).1
  have hnowhere : ∀ d j, q ∉ w.queueNodes d j := by
    intro d j
    by_cases hd : d = c ∧ j = (w.queues q).category
    · obtain ⟨rfl, rfl⟩ := hd
      exact hnot
    · exact h.queue.notMem_other hl.ctx rfl (by tauto)
  obtain ⟨w', hcall, hadd, hq'⟩ := h1.busAddQueue hl.lt (Or.inl hl.ctx)
    (fun d j => by rw [hnodes1]; exact hnowhere d j) hp1
  refine ⟨w', hcall, BusStep.reenter hp hadd, hb1.of_queueAdded hadd (Or.inl hl.ctx) hq',
    ?_, ?_⟩
  · rw [hadd.frame.pendingQueue]
    simp [World.updQueue, World.updCtx]
  · rw [hadd.frame.ctx_proj c Ctx.mode (fun _ _ _ => rfl)]
    simp [World.updQueue, World.updCtx]

theorem BusInv.checkPendingLoop : ∀ (n : Nat) {w : World}, BusInv w →
    (w.ctxs c).pendingQueue.length ≤ n →
    ∃ w', checkPendingLoop n w c = some w' ∧ BusRun {.reenter c} w w'
      ∧ (w'.ctxs c).pendingQueue = [] ∧ (w'.ctxs c).mode = (w.ctxs c).mode := by
  intro n
  induction n with
  | zero =>
      intro w h hlen
      have hnil : (w.ctxs c).pendingQueue = [] := List.length_eq_zero_iff.mp (by omega)
      exact ⟨w, rfl, BusRun.refl h, hnil, rfl⟩
  | succ n ih =>
      intro w h hlen
      cases hp : (w.ctxs c).pendingQueue with
      | nil =>
          refine ⟨w, ?_, BusRun.refl h, hp, rfl⟩
          rw [Ats.checkPendingLoop, hp]
      | cons q rest =>
          obtain ⟨w1, hcall, hstep, h1, hrest, hmode⟩ := h.reenter hp
          rw [hp, List.length_cons] at hlen
          obtain ⟨w2, hloop, hrun, hnil, hmode2⟩ := ih h1 (by rw [hrest]; omega)
          refine ⟨w2, ?_, (BusRun.single h (Set.mem_singleton _) hstep h1).trans hrun, hnil,
            hmode2.trans hmode⟩
          rw [Ats.checkPendingLoop, hp]
          simp only [hcall, Option.bind_eq_bind, Option.bind_some]
          exact hloop

/-- **`check_pending_queue`** empties the pending list. -/
theorem BusInv.checkPendingQueue (h : BusInv w) (c : CtxId) :
    ∃ w', checkPendingQueue w c = some w' ∧ BusRun {.reenter c} w w'
      ∧ (w'.ctxs c).pendingQueue = [] ∧ (w'.ctxs c).mode = (w.ctxs c).mode :=
  BusInv.checkPendingLoop _ h (Nat.le_refl _)

/-! ## The market look-ahead -/

/-- A service of a pipe takes one event out of its backlog. -/
theorem PipePop.backlog (h : PipePop w w' c k q e) (hi : QueueInv w) :
    busBacklog w' c k + 1 = busBacklog w c k := by
  have hnd : (w.queueNodes c k).Nodup := (hi.heap c k).nodup
  have hlen : (w.contents q).length = (w'.contents q).length + 1 := by
    rw [h.contents]
    rfl
  have hcons := List.perm_cons_erase h.mem
  have hrest : ((w.queueNodes c k).erase q).map (fun p => (w'.contents p).length)
      = ((w.queueNodes c k).erase q).map (fun p => (w.contents p).length) := by
    refine List.map_congr_left (fun p hp => ?_)
    have hpq : p ≠ q := fun hc => hnd.not_mem_erase (hc ▸ hp)
    rw [h.contents_ne hpq]
  have hold := (hcons.map (fun p => (w.contents p).length)).sum_nat
  rw [List.map_cons, List.sum_cons] at hold
  have hnew := (h.nodes.map (fun p => (w'.contents p).length)).sum_nat
  rw [busBacklog, busBacklog, hold, hlen, ← hrest, hnew]
  split
  case isTrue he =>
    rw [he, List.length_nil]
    omega
  case isFalse =>
    rw [(hcons.map (fun p => (w'.contents p).length)).sum_nat, List.map_cons, List.sum_cons]
    omega

theorem BusInv.of_pipePop (h : BusInv w) (hp : PipePop w w' c k q e) (hq : QueueInv w') :
    BusInv w' :=
  h.of_queueFrame hp.frame hq

theorem PipePop.linkable' (h : PipePop w w' c k q e) :
    q < w'.nextQueue ∧ (w'.queues q).ctx = some c ∧ (w'.queues q).category = k :=
  ⟨h.frame.nextQueue ▸ h.linkable.lt, (h.frame.queue_ctx q).trans h.linkable.ctx,
    (h.frame.queue_category q).trans h.linkable.category⟩

/-- What the market block hands on: nothing pending, and the look-ahead
filled as far as the market pipe allows. -/
structure LookAhead (w w' : World) (c : CtxId) : Prop where
  run : BusRun {.drop c, .save c} w w'
  filled : w'.queueNodes c .market = [] ∨ (w'.ctxs c).savedEvent ≠ none
  pending : (w'.ctxs c).pendingQueue = (w.ctxs c).pendingQueue
  mode : (w'.ctxs c).mode = (w.ctxs c).mode

/-- The saved event after a step that saves `e`. -/
theorem busSave_savedEvent (w : World) (c : CtxId) (q : QueueId) (e : EventId) :
    ((busSave w c q e).ctxs c).savedEvent = some e := by
  simp [busSave, World.updCtx]

theorem busSave_proj {β : Type} (w : World) (c d : CtxId) (q : QueueId) (e : EventId)
    (g : Ctx → β) (h : ∀ x o p, g { x with savedEvent := o, savedFrom := p } = g x) :
    g ((busSave w c q e).ctxs d) = g (w.ctxs d) := by
  by_cases hd : d = c
  · subst hd
    simp [busSave, World.updCtx, h]
  · simp [busSave, World.updCtx, Function.update_of_ne hd]

/-- **One round at `again:`**: the popped event is skipped, or saved. -/
theorem BusInv.accept (h : BusInv w) (hmode : (w.ctxs c).mode = .simulation)
    (hsaved : (w.ctxs c).savedEvent = none) {w1 : World}
    (hpop : PipePop w w1 c .market q e) (hq : QueueInv w1) (now : Nat) :
    ∃ w' s, s ∈ ({.drop c, .save c} : Set StepKind) ∧ BusStep s w w' ∧ BusInv w'
      ∧ (w'.ctxs c).mode = .simulation
      ∧ (w'.ctxs c).pendingQueue = (w.ctxs c).pendingQueue
      ∧ (busSimulationAccept w1 c now q e = (w', true)
            ∧ (w'.ctxs c).savedEvent = none
            ∧ busBacklog w' c .market = busBacklog w1 c .market
          ∨ busSimulationAccept w1 c now q e = (w', false)
            ∧ (w'.ctxs c).savedEvent = some e) := by
  have h1 := h.of_pipePop hpop hq
  have hf := hpop.frame
  have hmode1 : (w1.ctxs c).mode = .simulation := by
    rw [hf.ctx_proj c Ctx.mode (fun _ _ _ => rfl)]
    exact hmode
  have htime1 : (w1.ctxs c).time = (w.ctxs c).time :=
    hf.ctx_proj c Ctx.time (fun _ _ _ => rfl)
  have hget : busGetTime w1 c now = (w.ctxs c).time .clockLocal := by
    rw [busGetTime, hmode1, htime1]
  have hsaved1 : (w1.ctxs c).savedEvent = none := (hf.savedEvent c).trans hsaved
  have hpend1 := hf.pendingQueue c
  have hlink := hpop.linkable'
  -- saving and skipping keep the invariant, whatever the timestamp and the flag
  have hsave : ∀ ts, BusInv (busSave (w1.updEvent e fun x => { x with timestamp := ts }) c q
      e) := by
    intro ts
    refine (h1.updEvent e _).setSaved rfl (fun p hp => ?_)
    cases hp
    exact hlink
  have hdrop : ∀ stop, BusInv ((w1.updCtx c fun x =>
      { x with isSimulatorStop := stop }).note (.drop q e)) := by
    intro stop
    refine BusInv.note ?_ _
    exact h1.updCtx c (fun _ => ⟨rfl, rfl, rfl, rfl, rfl, rfl, rfl⟩)
  by_cases hstop : (w1.events e).eventType = simulatorStopEvent
  · -- the end of the simulation
    refine ⟨_, .drop c, Or.inl rfl, BusStep.drop (b := true) hpop hmode
      (Or.inl (by rw [← hf.events]; exact hstop)) hsaved,
      hdrop true, ?_, ?_,
      Or.inl ⟨?_, ?_, ?_⟩⟩
    · simpa [World.note, World.updCtx] using hmode1
    · simpa [World.note, World.updCtx] using hpend1
    · rw [busSimulationAccept, if_pos hstop]
    · simpa [World.note, World.updCtx] using hsaved1
    · simp [busBacklog, World.note, World.updCtx, World.queueNodes, World.queueMem,
        World.contents]
  · by_cases hlate : (w1.events e).timestamp < busGetTime w1 c now
    · have hlate' : (w.events e).timestamp < (w.ctxs c).time .clockLocal := by
        rw [← hf.events, ← hget]
        exact hlate
      by_cases hkeep : (w1.events e).eventType ≠ queueCloseEvent
          ∧ (w1.events e).eventType ≠ queueOpenEvent
          ∧ (w1.events e).eventType ≠ simulatorProgressEvent
      · -- out of order
        have hskip : Skipped w c e := by
          refine Or.inr ⟨?_, hlate'⟩
          rw [← hf.events, keptWhenLate]
          tauto
        refine ⟨_, .drop c, Or.inl rfl,
          BusStep.drop (b := (w1.ctxs c).isSimulatorStop) hpop hmode hskip hsaved, hdrop _, ?_, ?_,
          Or.inl ⟨?_, ?_, ?_⟩⟩
        · simpa [World.note, World.updCtx] using hmode1
        · simpa [World.note, World.updCtx] using hpend1
        · rw [busSimulationAccept, if_neg hstop, if_pos hlate, if_pos hkeep]
          simp [World.updCtx]
        · simpa [World.note, World.updCtx] using hsaved1
        · simp [busBacklog, World.note, World.updCtx, World.queueNodes, World.queueMem,
            World.contents]
      · -- late, but kept at the time of the bus
        have hts : savedTime w c e ((w.ctxs c).time .clockLocal) := by
          refine Or.inr ⟨hmode, ?_, hlate', rfl⟩
          rw [← hf.events, keptWhenLate]
          tauto
        refine ⟨_, .save c, Or.inr rfl, BusStep.save hpop hsaved hts, hsave _, ?_, ?_,
          Or.inr ⟨?_, ?_⟩⟩
        · rw [busSave_proj _ c c q e Ctx.mode (fun _ _ _ => rfl)]
          exact hmode1
        · rw [busSave_proj _ c c q e Ctx.pendingQueue (fun _ _ _ => rfl)]
          exact hpend1
        · rw [busSimulationAccept, if_neg hstop, if_pos hlate, if_neg hkeep, hget]
        · exact busSave_savedEvent _ c q e
    · -- in order
      refine ⟨_, .save c, Or.inr rfl, BusStep.save hpop hsaved (Or.inl rfl), hsave _, ?_, ?_,
        Or.inr ⟨?_, ?_⟩⟩
      · rw [busSave_proj _ c c q e Ctx.mode (fun _ _ _ => rfl)]
        exact hmode1
      · rw [busSave_proj _ c c q e Ctx.pendingQueue (fun _ _ _ => rfl)]
        exact hpend1
      · rw [busSimulationAccept, if_neg hstop, if_neg hlate]
        simp [World.updEvent, ← hf.events]
      · exact busSave_savedEvent _ c q e

/-- **The block at `again:`** ends, with one event of backlog less for each
round that jumps back. -/
theorem BusInv.busSimulationMarket (now : Nat) : ∀ (fuel : Nat) {w : World}, BusInv w →
    (w.ctxs c).mode = .simulation → busBacklog w c .market < fuel →
    ∃ w', busSimulationMarket fuel w c now = some w' ∧ LookAhead w w' c := by
  intro fuel
  induction fuel with
  | zero => intro w _ _ hb; omega
  | succ fuel ih =>
      intro w h hmode hb
      rw [Ats.busSimulationMarket]
      by_cases hgo : ¬ pipeIsEmpty w c .market = true ∧ (w.ctxs c).savedEvent = none
      · obtain ⟨hpipe, hsaved⟩ := hgo
        have hn : w.queueNodes c .market ≠ [] := fun hc =>
          hpipe ((h.queue.pipeIsEmpty_iff c .market).mpr hc)
        obtain ⟨w1, q, e, hcall, hpop, hq1⟩ := h.queue.eventPopFormPipe hn
        have hb1 := hpop.backlog h.queue
        obtain ⟨w', s, hs, hstep, h', hmode', hpend', hacc⟩ :=
          h.accept hmode hsaved hpop hq1 now
        rw [if_pos ⟨hpipe, hsaved⟩, h.queue.heapMin_eq, hpop.first]
        simp only [hcall, Option.bind_eq_bind, Option.bind_some]
        rcases hacc with ⟨hacc, _, hb'⟩ | ⟨hacc, hs'⟩
        · obtain ⟨w2, hloop, hlook⟩ := ih h' hmode' (by omega)
          refine ⟨w2, by rw [hacc]; exact hloop, ?_⟩
          exact ⟨(BusRun.single h hs hstep h').trans hlook.run, hlook.filled,
            hlook.pending.trans hpend', hlook.mode.trans (hmode'.trans hmode.symm)⟩
        · refine ⟨w', by rw [hacc], BusRun.single h hs hstep h', Or.inr ?_, hpend',
            hmode'.trans hmode.symm⟩
          rw [hs']
          exact Option.some_ne_none e
      · refine ⟨w, if_neg hgo, BusRun.refl h, ?_, rfl, rfl⟩
        rw [not_and_or, not_not, h.queue.pipeIsEmpty_iff] at hgo
        exact hgo

/-- **The market block in real time.** -/
theorem BusInv.busRealtimeMarket (h : BusInv w) (c : CtxId) :
    ∃ w', busRealtimeMarket w c = some w' ∧ LookAhead w w' c := by
  rw [Ats.busRealtimeMarket]
  by_cases hgo : ¬ pipeIsEmpty w c .market = true ∧ (w.ctxs c).savedEvent = none
  · obtain ⟨hpipe, hsaved⟩ := hgo
    have hn : w.queueNodes c .market ≠ [] := fun hc =>
      hpipe ((h.queue.pipeIsEmpty_iff c .market).mpr hc)
    obtain ⟨w1, q, e, hcall, hpop, hq1⟩ := h.queue.eventPopFormPipe hn
    have h1 := h.of_pipePop hpop hq1
    have h' : BusInv (busSave w1 c q e) := by
      refine h1.setSaved rfl (fun p hp => ?_)
      cases hp
      exact hpop.linkable'
    have hstep : BusStep (.save c) w (busSave w1 c q e) := by
      have := BusStep.save hpop hsaved (Or.inl rfl)
      simpa [World.updEvent, ← hpop.frame.events] using this
    refine ⟨busSave w1 c q e, ?_, BusRun.single h (Or.inr rfl) hstep h', Or.inr ?_, ?_, ?_⟩
    · rw [if_pos ⟨hpipe, hsaved⟩, h.queue.heapMin_eq, hpop.first]
      simp only [hcall, Option.bind_eq_bind, Option.bind_some]
    · rw [busSave_savedEvent]
      exact Option.some_ne_none e
    · rw [busSave_proj _ c c q e Ctx.pendingQueue (fun _ _ _ => rfl)]
      exact hpop.frame.pendingQueue c
    · rw [busSave_proj _ c c q e Ctx.mode (fun _ _ _ => rfl)]
      exact hpop.frame.ctx_proj c Ctx.mode (fun _ _ _ => rfl)
  · refine ⟨w, if_neg hgo, BusRun.refl h, ?_, rfl, rfl⟩
    rw [not_and_or, not_not, h.queue.pipeIsEmpty_iff] at hgo
    exact hgo

end Ats
