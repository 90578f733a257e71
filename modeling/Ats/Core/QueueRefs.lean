import Ats.Core.Clear
import Ats.Lib.GuardedRun

/-!
# QueueRefs: reference counts of queues

`event_queue_ref` and `event_queue_unref` belong to the clients. A bus takes
no reference when it links a queue, yet `queue_heap_clear` drops one for each
queue in the heaps of its bus. So counts stay exact only where those heaps
are empty when the bus is cleared, and a linked queue stays alive only where
its clients do not drop their last reference to it.
-/

namespace Ats

variable {w w' v : World} {c d : CtxId} {k j : QueueCategory} {q p : QueueId} {e : EventId}
  {kind : StepKind} {now : Nat} {o : Option EventId}

/-! ## What leaves counts alone -/

theorem QueueFrame.refcount (h : QueueFrame w w') (p : QueueId) :
    (w'.queues p).refcount = (w.queues p).refcount := by rw [h.queues p]

theorem QueueAdded.refcount (h : QueueAdded w w' c q) (p : QueueId) :
    (w'.queues p).refcount = (w.queues p).refcount :=
  (h.frame.refcount p).trans (w.updQueue_proj q p EventQueue.refcount (fun _ => rfl))

theorem QueuePushed.refcount (h : QueuePushed w w' q e) (p : QueueId) :
    (w'.queues p).refcount = (w.queues p).refcount := by
  obtain ⟨w1, ha, hw⟩ := h.append
  rw [hw]
  show (w1.queues p).refcount = _
  by_cases hp : p = q
  · rw [hp, ha.queue]
  · rw [ha.others p hp]

/-- **No step of a bus counts a queue's references.** -/
theorem BusStep.refcount (hs : BusStep kind w w') (p : QueueId) :
    (w'.queues p).refcount = (w.queues p).refcount := by
  cases hs with
  | add hlt hctx hadd => exact hadd.refcount p
  | reenter hpend hadd => exact hadd.refcount p
  | push hpush => exact hpush.refcount p
  | drop hpop hmode hskip hsaved => exact hpop.frame.refcount p
  | save hpop hsaved hts => exact hpop.frame.refcount p
  | give hpop hk => exact hpop.frame.refcount p
  | fire hpop => exact congrArg EventQueue.refcount (congrFun hpop.frame.queues p)
  | release hun =>
      obtain ⟨q, _, _, rfl⟩ := busUnsave_eq hun
      rfl
  | forward hlt hatt hpush => exact hpush.refcount p
  | overrun hlt hatt hfull => rfl

/-! ## Links -/

/-- `q` is in a queue heap, on a pending list or in a table of attached
queues. -/
inductive Linked (w : World) (q : QueueId) : Prop
  | heap {c : CtxId} {k : QueueCategory} : q ∈ w.queueNodes c k → Linked w q
  | pending {c : CtxId} : q ∈ (w.ctxs c).pendingQueue → Linked w q
  | attached {c : CtxId} : q ∈ attachedQueues w c → Linked w q

/-- Nothing has been linked. -/
structure NoNewLinks (w w' : World) : Prop where
  nodes : ∀ d j, ∀ p ∈ w'.queueNodes d j, p ∈ w.queueNodes d j
  pending : ∀ d, ∀ p ∈ (w'.ctxs d).pendingQueue, p ∈ (w.ctxs d).pendingQueue
  attached : ∀ d, attachedQueues w' d = attachedQueues w d

theorem NoNewLinks.linked (h : NoNewLinks w w') (hp : Linked w' p) : Linked w p := by
  cases hp with
  | heap hm => exact Linked.heap (h.nodes _ _ _ hm)
  | pending hm => exact Linked.pending (h.pending _ _ hm)
  | attached hm => exact Linked.attached (by rwa [h.attached] at hm)

theorem NoNewLinks.trans (h : NoNewLinks w v) (h' : NoNewLinks v w') : NoNewLinks w w' :=
  ⟨fun d j p hp => h.nodes d j p (h'.nodes d j p hp),
    fun d p hp => h.pending d p (h'.pending d p hp),
    fun d => (h'.attached d).trans (h.attached d)⟩

/-- A change of contexts that only shortens pending lists. -/
theorem NoNewLinks.updCtx (w : World) (c : CtxId) {f : Ctx → Ctx}
    (hf : ∀ x, (f x).queueHeap = x.queueHeap ∧ (f x).attached = x.attached
      ∧ (f x).attachedCount = x.attachedCount)
    (hp : ∀ p ∈ (f (w.ctxs c)).pendingQueue, p ∈ (w.ctxs c).pendingQueue) :
    NoNewLinks w (w.updCtx c f) where
  nodes := fun d j p hm => by
    rw [World.queueNodes, World.queueMem, w.updCtx_proj c d Ctx.queueHeap (fun x => (hf x).1)]
      at hm
    exact hm
  pending := fun d p hm => by
    by_cases hd : d = c
    · subst hd
      simp only [World.updCtx, Function.update_self] at hm
      exact hp p hm
    · simpa [World.updCtx, hd] using hm
  attached := fun d => by
    rw [attachedQueues, w.updCtx_proj c d Ctx.attached (fun x => (hf x).2.1),
      w.updCtx_proj c d Ctx.attachedCount (fun x => (hf x).2.2), attachedQueues]

/-- A change that reads the same in every map the links are made of. -/
theorem NoNewLinks.of_eq (w w' : World) (hctx : w'.ctxs = w.ctxs)
    (hnode : w'.queueNode = w.queueNode) : NoNewLinks w w' where
  nodes := fun d j p hm => by
    rwa [World.queueNodes, World.queueMem, hctx, hnode] at hm
  pending := fun d p hm => by rwa [hctx] at hm
  attached := fun d => by rw [attachedQueues, hctx, attachedQueues]

theorem NoNewLinks.note (w : World) (a : Act) : NoNewLinks w (w.note a) :=
  NoNewLinks.of_eq w (w.note a) rfl rfl

theorem QueueAdded.linked (h : QueueAdded w w' c q) (hp : Linked w' p) : Linked w p ∨ p = q := by
  cases hp with
  | heap hm =>
      rename_i d j
      by_cases hd : d = c ∧ j = (w.queues q).category
      · obtain ⟨rfl, rfl⟩ := hd
        rw [h.nodes.mem_iff] at hm
        split at hm
        · exact Or.inl (Linked.heap hm)
        · rcases List.mem_cons.mp hm with rfl | hm
          · exact Or.inr rfl
          · exact Or.inl (Linked.heap hm)
      · rw [h.nodes_ne d j (by tauto)] at hm
        exact Or.inl (Linked.heap hm)
  | pending hm =>
      rw [h.frame.pendingQueue] at hm
      exact Or.inl (Linked.pending hm)
  | attached hm =>
      rw [h.sameSlots.attachedQueues] at hm
      exact Or.inl (Linked.attached hm)

theorem QueuePushed.linked (h : QueuePushed w w' q e) (hp : Linked w' p) : Linked w p ∨ p = q := by
  cases hp with
  | heap hm => exact Or.inl (Linked.heap (by rwa [h.queueNodes] at hm))
  | pending hm =>
      rw [h.ctxs] at hm
      dsimp only at hm
      split at hm
      · rcases List.mem_append.mp hm with hm | hm
        · exact Or.inl (Linked.pending hm)
        · exact Or.inr (List.mem_singleton.mp hm)
      · exact Or.inl (Linked.pending hm)
  | attached hm => exact Or.inl (Linked.attached (by rwa [h.sameSlots.attachedQueues] at hm))

theorem PipePop.noNewLinks (h : PipePop w w' c k q e) : NoNewLinks w w' where
  nodes := fun d j _ hm => h.queueNodes_subset d j hm
  pending := fun d p hm => by rwa [h.frame.pendingQueue] at hm
  attached := fun d => h.frame.sameSlots.attachedQueues d

/-- **`bus_dequeue` links no queue anew.** -/
theorem BusStep.linked (hs : BusStep kind w w') (hk : kind ∈ dequeueKinds c)
    (hp : Linked w' p) : Linked w p := by
  cases hs with
  | reenter hpend hadd =>
      rename_i d q rest
      have hrest : NoNewLinks w (w.updCtx d fun x => { x with pendingQueue := rest }) := by
        refine NoNewLinks.updCtx w d (fun _ => ⟨rfl, rfl, rfl⟩) (fun p hm => ?_)
        rw [hpend]
        exact List.mem_cons_of_mem q hm
      rcases hadd.linked hp with hl | rfl
      · exact hrest.linked hl
      · exact Linked.pending (by rw [hpend]; exact List.mem_cons_self)
  | drop hpop hmode hskip hsaved =>
      rename_i w1 d q e b
      have hflag : NoNewLinks w1 (w1.updCtx d fun x => { x with isSimulatorStop := b }) :=
        NoNewLinks.updCtx w1 d (fun _ => ⟨rfl, rfl, rfl⟩) (fun _ hm => hm)
      exact ((hpop.noNewLinks.trans hflag).trans (NoNewLinks.note _ _)).linked hp
  | save hpop hsaved hts =>
      rename_i w1 d q e ts
      have hstamp : NoNewLinks w1 (w1.updEvent e fun x => { x with timestamp := ts }) :=
        NoNewLinks.of_eq _ _ rfl rfl
      refine ((hpop.noNewLinks.trans hstamp).trans ?_).linked hp
      exact NoNewLinks.updCtx _ d (fun _ => ⟨rfl, rfl, rfl⟩) (fun _ hm => hm)
  | give hpop hmarket => exact (hpop.noNewLinks.trans (NoNewLinks.note _ _)).linked hp
  | fire hpop =>
      have hf := hpop.frame
      refine NoNewLinks.linked ⟨fun d j p hm => ?_, fun d p hm => ?_, fun d => ?_⟩ hp
      · exact hf.sameQueues.queueNodes d j ▸ hm
      · exact hf.sameQueues.pending d ▸ hm
      · exact hf.sameSlots.attachedQueues d
  | release hun =>
      rename_i d e
      obtain ⟨q, _, _, rfl⟩ := busUnsave_eq hun
      have hslot : NoNewLinks w (w.updCtx d fun x =>
          { x with savedEvent := none, savedFrom := none }) :=
        NoNewLinks.updCtx w d (fun _ => ⟨rfl, rfl, rfl⟩) (fun _ hm => hm)
      exact (hslot.trans (NoNewLinks.note _ _)).linked hp
  | forward hlt hatt hpush =>
      rename_i d i q e
      have href : NoNewLinks w (eventRef w e) := NoNewLinks.of_eq _ _ rfl rfl
      rcases hpush.linked hp with hl | rfl
      · exact href.linked hl
      · exact Linked.attached (c := d)
          (List.mem_filterMap.mpr ⟨i, List.mem_range.mpr hlt, hatt⟩)
  | overrun hlt hatt hfull =>
      rename_i d i q e
      exact (NoNewLinks.of_eq w (eventRef w e) rfl rfl).linked hp
  | _ => simp [dequeueKinds] at hk

/-- **What no step of a bus writes**: any field of a context but those of its
queues, timers and look-ahead. -/
theorem BusStep.ctx_proj {β : Type} (hs : BusStep kind w w') (d : CtxId) (g : Ctx → β)
    (hg : ∀ (x : Ctx) pend qh th n se sf stop, g { x with
      pendingQueue := pend, queueHeap := qh, timerHeap := th, counter := n, savedEvent := se,
      savedFrom := sf, isSimulatorStop := stop } = g x) :
    g (w'.ctxs d) = g (w.ctxs d) := by
  have pipes : ∀ {u u' : World}, QueueFrame u u' → g (u'.ctxs d) = g (u.ctxs d) :=
    fun hf => hf.ctx_proj d g (fun x v n =>
      hg x x.pendingQueue v x.timerHeap n x.savedEvent x.savedFrom x.isSimulatorStop)
  have added : ∀ {u u' : World} {x : CtxId} {q : QueueId}, QueueAdded u u' x q →
      g (u'.ctxs d) = g (u.ctxs d) := fun hadd => Eq.trans (pipes hadd.frame) rfl
  have pushed : ∀ {u u' : World} {q : QueueId} {e : EventId}, QueuePushed u u' q e →
      g (u'.ctxs d) = g (u.ctxs d) := by
    intro u u' q e hpush
    rw [hpush.ctxs]
    exact hg (u.ctxs d) _ (u.ctxs d).queueHeap (u.ctxs d).timerHeap (u.ctxs d).counter
      (u.ctxs d).savedEvent (u.ctxs d).savedFrom (u.ctxs d).isSimulatorStop
  cases hs with
  | add hlt hctx hadd => exact added hadd
  | reenter hpend hadd =>
      rename_i x q rest
      refine (added hadd).trans ?_
      exact w.updCtx_proj x d g (f := fun y => { y with pendingQueue := rest }) (fun y =>
        hg y rest y.queueHeap y.timerHeap y.counter y.savedEvent y.savedFrom y.isSimulatorStop)
  | push hpush => exact pushed hpush
  | drop hpop hmode hskip hsaved =>
      rename_i w1 x q e b
      refine Eq.trans ?_ (pipes hpop.frame)
      exact w1.updCtx_proj x d g (f := fun y => { y with isSimulatorStop := b }) (fun y =>
        hg y y.pendingQueue y.queueHeap y.timerHeap y.counter y.savedEvent y.savedFrom b)
  | save hpop hsaved hts =>
      rename_i w1 x q e ts
      refine Eq.trans ?_ (pipes hpop.frame)
      exact (w1.updEvent e fun y => { y with timestamp := ts }).updCtx_proj x d g
        (f := fun y => { y with savedEvent := some e, savedFrom := some q }) (fun y =>
          hg y y.pendingQueue y.queueHeap y.timerHeap y.counter (some e) (some q)
            y.isSimulatorStop)
  | give hpop hk =>
      have hp := pipes hpop.frame
      exact hp
  | fire hpop =>
      exact hpop.frame.ctx_proj d g (fun x v n =>
        hg x x.pendingQueue x.queueHeap v n x.savedEvent x.savedFrom x.isSimulatorStop)
  | release hun =>
      rename_i x e
      obtain ⟨q, _, _, rfl⟩ := busUnsave_eq hun
      exact w.updCtx_proj x d g (f := fun y => { y with savedEvent := none, savedFrom := none })
        (fun y => hg y y.pendingQueue y.queueHeap y.timerHeap y.counter none none
          y.isSimulatorStop)
  | forward hlt hatt hpush => exact Eq.trans (pushed hpush) rfl
  | overrun hlt hatt hfull => rfl

/-- No step of a bus makes a queue. -/
theorem BusStep.nextQueue (hs : BusStep kind w w') : w'.nextQueue = w.nextQueue := by
  cases hs with
  | add hlt hctx hadd => exact hadd.frame.nextQueue
  | reenter hpend hadd => exact hadd.frame.nextQueue
  | push hpush => exact hpush.nextQueue
  | drop hpop hmode hskip hsaved => exact hpop.frame.nextQueue
  | save hpop hsaved hts => exact hpop.frame.nextQueue
  | give hpop hk => exact hpop.frame.nextQueue
  | fire hpop => exact hpop.frame.nextQueue
  | release hun =>
      obtain ⟨q, _, _, rfl⟩ := busUnsave_eq hun
      rfl
  | forward hlt hatt hpush => exact hpush.nextQueue
  | overrun hlt hatt hfull => rfl

/-- No step of a bus frees a queue. -/
theorem BusStep.freeQueue (hs : BusStep kind w w') (hf : .freeQueue p ∈ w'.log) :
    .freeQueue p ∈ w.log := by
  cases hs with
  | add hlt hctx hadd => simpa [hadd.log] using hf
  | reenter hpend hadd => simpa [hadd.log, World.updCtx] using hf
  | push hpush => simpa [hpush.log] using hf
  | drop hpop hmode hskip hsaved => simpa [World.note, World.updCtx, hpop.log] using hf
  | save hpop hsaved hts => simpa [busSave, World.updEvent, World.updCtx, hpop.log] using hf
  | give hpop hk => simpa [World.note, hpop.log] using hf
  | fire hpop => simpa [World.note, hpop.frame.log] using hf
  | release hun =>
      obtain ⟨q, _, _, rfl⟩ := busUnsave_eq hun
      simpa [World.note, World.updCtx] using hf
  | forward hlt hatt hpush => simpa [hpush.log, eventRef, World.updEvent] using hf
  | overrun hlt hatt hfull => exact hf

/-- **Nothing that a queue's references are about** has changed, but for
links that have gone. -/
structure RefsStand (w w' : World) : Prop where
  refcount : ∀ p, (w'.queues p).refcount = (w.queues p).refcount
  linked : ∀ p, Linked w' p → Linked w p
  freed : ∀ p, .freeQueue p ∈ w'.log → .freeQueue p ∈ w.log
  slots : ∀ d, (w'.ctxs d).attached = (w.ctxs d).attached
    ∧ (w'.ctxs d).attachedCount = (w.ctxs d).attachedCount
  nextQueue : w'.nextQueue = w.nextQueue

theorem RefsStand.tables (h : RefsStand w w') (d : CtxId) :
    attachedQueues w' d = attachedQueues w d := by
  rw [attachedQueues, (h.slots d).1, (h.slots d).2, attachedQueues]

/-- **`bus_dequeue`, as far as references go.** -/
theorem BusRun.refsStand (hr : BusRun (dequeueKinds c) w w') : RefsStand w w' :=
  hr.keeps (P := RefsStand w)
    (fun _ hm _ _ _ _ hs h =>
      ⟨fun p => (hs.refcount p).trans (h.refcount p), fun p hp => h.linked p (hs.linked hm hp),
        fun p hf => h.freed p (hs.freeQueue hf),
        fun d => ⟨(hs.ctx_proj d Ctx.attached (fun _ _ _ _ _ _ _ _ => rfl)).trans (h.slots d).1,
          (hs.ctx_proj d Ctx.attachedCount (fun _ _ _ _ _ _ _ _ => rfl)).trans (h.slots d).2⟩,
        hs.nextQueue.trans h.nextQueue⟩)
    ⟨fun _ => rfl, fun _ h => h, fun _ h => h, fun _ => ⟨rfl, rfl⟩, rfl⟩

/-- **`bus_clear` with nothing in its heaps and its table** frees no queue
and drops no reference. -/
theorem BusInv.clear_refsStand (hi : BusInv w) (hempty : ∀ k, w.queueNodes c k = [])
    (hbare : (w.ctxs c).attachedCount = 0) :
    ∃ w', busClear w c = some w' ∧ BusInv w' ∧ RefsStand w w' := by
  obtain ⟨v, hheaps, hv⟩ := hi.busClearHeaps c
  have hl := hv.loosened
  have hcount : (v.ctxs c).attachedCount = 0 :=
    (hl.proj c Ctx.attachedCount (fun _ _ _ _ _ => rfl)).trans hbare
  have hloop : busClearAttached ((v.ctxs c).attachedCount + 1) v c 0 = some v := by
    rw [busClearAttached, if_neg (by rw [hcount]; exact Nat.lt_irrefl 0)]
  have hkept : ∀ p, w.queues p = v.queues p
      ∧ v.log.count (.freeQueue p) = w.log.count (.freeQueue p) := by
    intro p
    obtain ⟨hq, hf⟩ := hl.kept p (fun k hm => by rw [hempty] at hm; cases hm)
    exact ⟨hq.symm, hf⟩
  have hlinks : NoNewLinks w v := by
    refine ⟨fun d j p hm => ?_, fun d p hm => ?_, fun d => ?_⟩
    · by_cases hd : d = c
      · exact hd ▸ hl.nodes j p (hd ▸ hm)
      · rwa [hl.nodes_ne d hd] at hm
    · rwa [hl.proj d Ctx.pendingQueue (fun _ _ _ _ _ => rfl)] at hm
    · rw [attachedQueues, hl.proj d Ctx.attached (fun _ _ _ _ _ => rfl),
        hl.proj d Ctx.attachedCount (fun _ _ _ _ _ => rfl), attachedQueues]
  refine ⟨v, ?_, hv.inv, fun p => by rw [(hkept p).1], fun p => hlinks.linked,
    fun p hf => ?_, fun d => ⟨hl.proj d Ctx.attached (fun _ _ _ _ _ => rfl),
      hl.proj d Ctx.attachedCount (fun _ _ _ _ _ => rfl)⟩, hl.nextQueue⟩
  · rw [busClear_eq, hheaps, Option.bind_some]
    exact busClearTable_of hloop hcount
  · rw [← List.count_pos_iff, (hkept p).2] at hf
    exact List.count_pos_iff.mp hf

/-! ## The clients -/

/-- The memory, and how many references to each queue the clients have. -/
structure QueueClients where
  world : World
  refs : QueueId → Nat

/-- What clients do with queues. -/
inductive RefOp
  | init (size : Nat) (category : QueueCategory)
  | ref (q : QueueId)
  | unref (q : QueueId)
  | addQueue (c : CtxId) (q : QueueId)
  | push (q : QueueId) (e : EventId)
  | dequeue (c : CtxId) (now : Nat)
  | clear (c : CtxId)

/-- One call. A queue is made in zeroed memory. -/
def RefOp.exec (p : QueueClients) : RefOp → Option QueueClients
  | .init size category => do
      let (w, q) := queueZalloc p.world
      let w ← eventQueueInit w q size category
      some ⟨w, Function.update p.refs q 0⟩
  | .ref q => some ⟨eventQueueRef p.world q, Function.update p.refs q (p.refs q + 1)⟩
  | .unref q => do
      let w ← eventQueueUnref p.world q
      some ⟨w, Function.update p.refs q (p.refs q - 1)⟩
  | .addQueue c q => do
      let w ← busAddQueue p.world c q
      some { p with world := w }
  | .push q e => do
      let (w, _) ← eventQueuePush p.world q e
      some { p with world := w }
  | .dequeue c now => do
      let (w, _) ← busDequeue p.world c now
      some { p with world := w }
  | .clear c => do
      let w ← busClear p.world c
      some { p with world := w }

/-- `q` has been made and not been freed. -/
def QueueAlive (w : World) (q : QueueId) : Prop :=
  q < w.nextQueue ∧ .freeQueue q ∉ w.log

/-- **The clients keep the rules**: they use no queue that has been freed,
register one only while it stands nowhere, and drop only references they
took. -/
def RefOp.Proper (p : QueueClients) : RefOp → Prop
  | .init size _ => 2 ≤ size ∧ size < 2 ^ 32
  | .ref q => QueueAlive p.world q
  | .unref q => QueueAlive p.world q ∧ 0 < p.refs q
  | .addQueue c q => QueueAlive p.world q ∧ Registrable p.world c q
  | .push q _ => QueueAlive p.world q
  | .dequeue _ _ => True
  | .clear _ => True

/-- `q` is in no heap and on no pending list. -/
def Unlinked (w : World) (q : QueueId) : Prop :=
  ∀ c ∈ (w.queues q).ctx, q ∉ w.queueNodes c (w.queues q).category
    ∧ q ∉ (w.ctxs c).pendingQueue

/-- The last reference to a queue is dropped only while no bus has it, and a
bus is cleared only while its heaps are empty. -/
def RefOp.Sound (p : QueueClients) : RefOp → Prop
  | .unref q => p.refs q = 1 → Unlinked p.world q
  | .clear c => ∀ k ∈ [QueueCategory.market, .execution, .service, .command],
      p.world.queueNodes c k = []
  | _ => True

instance (w : World) (q : QueueId) : Decidable (QueueAlive w q) :=
  inferInstanceAs (Decidable (_ ∧ _))

instance (w : World) (q : QueueId) : Decidable (Unlinked w q) :=
  inferInstanceAs (Decidable (∀ c ∈ (w.queues q).ctx, _))

instance RefOp.Proper.decide (p : QueueClients) : (op : RefOp) → Decidable (op.Proper p)
  | .init size _ => inferInstanceAs (Decidable (2 ≤ size ∧ size < 2 ^ 32))
  | .ref q => inferInstanceAs (Decidable (QueueAlive p.world q))
  | .unref q => inferInstanceAs (Decidable (QueueAlive p.world q ∧ 0 < p.refs q))
  | .addQueue c q => inferInstanceAs (Decidable (QueueAlive p.world q ∧ Registrable p.world c q))
  | .push q _ => inferInstanceAs (Decidable (QueueAlive p.world q))
  | .dequeue _ _ | .clear _ => inferInstanceAs (Decidable True)

instance RefOp.Sound.decide (p : QueueClients) : (op : RefOp) → Decidable (op.Sound p)
  | .unref q => inferInstanceAs (Decidable (p.refs q = 1 → Unlinked p.world q))
  | .clear c => inferInstanceAs (Decidable
      (∀ k ∈ [QueueCategory.market, .execution, .service, .command],
        p.world.queueNodes c k = []))
  | .init _ _ | .ref _ | .addQueue _ _ | .push _ _ | .dequeue _ _ =>
      inferInstanceAs (Decidable True)

/-- A run of the clients. -/
def runRefs (p : QueueClients) (ops : List RefOp) : Option QueueClients :=
  GuardedRun.run RefOp.exec p ops

/-! ## The account -/

variable {p p' : QueueClients}

/-- **Each count is the clients' references**, and what is linked has not
been freed. -/
structure QueueAccount (p : QueueClients) : Prop where
  inv : BusInv p.world
  bare : ∀ c, (p.world.ctxs c).attachedCount = 0
  count : ∀ q, q < p.world.nextQueue → (p.world.queues q).refcount = p.refs q
  alive : ∀ q, Linked p.world q → .freeQueue q ∉ p.world.log

/-- What happened from `p` to `p'` freed no queue that was linked. -/
def Spares (p p' : QueueClients) : Prop :=
  ∀ q, Linked p.world q → .freeQueue q ∉ p'.world.log

theorem attachedQueues_bare (h : (w.ctxs c).attachedCount = 0) : attachedQueues w c = [] := by
  rw [attachedQueues, h]
  rfl

theorem BusInv.linked_iff (hi : BusInv w) (hbare : ∀ c, (w.ctxs c).attachedCount = 0) :
    Linked w q ↔ ¬ Unlinked w q := by
  constructor
  · intro hl hu
    cases hl with
    | heap hm =>
        rename_i d k
        have hx := hi.queue.linked d k q hm
        exact (hu d hx.ctx).1 (by rw [hx.category]; exact hm)
    | pending hm =>
        rename_i d
        exact (hu d (hi.queue.pending d q hm).1.ctx).2 hm
    | attached hm =>
        rw [attachedQueues_bare (hbare _)] at hm
        cases hm
  · intro hu
    simp only [Unlinked, not_forall] at hu
    obtain ⟨d, hd, hm⟩ := hu
    rw [not_and_or, not_not, not_not] at hm
    exact hm.elim Linked.heap Linked.pending

namespace QueueAccount

/-- What stands stays accounted for. -/
theorem stand (h : QueueAccount p) (hi : BusInv w) (hs : RefsStand p.world w) :
    QueueAccount ⟨w, p.refs⟩ where
  inv := hi
  bare := fun c => (hs.slots c).2.trans (h.bare c)
  count := fun q hq => (hs.refcount q).trans (h.count q (hs.nextQueue ▸ hq))
  alive := fun q hl hf => h.alive q (hs.linked q hl) (hs.freed q hf)

theorem init (h : QueueAccount p) {size : Nat} (hsize : 2 ≤ size ∧ size < 2 ^ 32)
    (k : QueueCategory) :
    ∃ p', (RefOp.init size k).exec p = some p' ∧ QueueAccount p' ∧ Spares p p' := by
  obtain ⟨ring, hring, hrep, -⟩ := SpscqRep.init (α := EventId) hsize.1 hsize.2
  obtain ⟨w', hw'⟩ : ∃ w', w' = (queueZalloc p.world).1.updQueue p.world.nextQueue
      fun x => { x with spsc := ring, ctx := none, category := k } := ⟨_, rfl⟩
  have hq : w'.queues p.world.nextQueue = ⟨0, ring, none, k, 0⟩ := by
    rw [hw']
    simp [queueZalloc, World.updQueue]
  have hne : ∀ q, q ≠ p.world.nextQueue → w'.queues q = p.world.queues q := by
    intro q hne
    rw [hw']
    simp [queueZalloc, World.updQueue, hne]
  have hctx : w'.ctxs = p.world.ctxs := by rw [hw']; rfl
  have hnext : w'.nextQueue = p.world.nextQueue + 1 := by rw [hw']; rfl
  have hlog : w'.log = p.world.log := by rw [hw']; rfl
  have hnode : ∀ q, q ≠ p.world.nextQueue → w'.queueNode q = p.world.queueNode q := by
    intro q hne
    rw [hw']
    simp [queueZalloc, World.updQueue, hne]
  have hnil : w'.contents p.world.nextQueue = [] := by
    rw [World.contents, hq]
    exact hrep.toList_eq
  -- a queue not allocated yet is linked nowhere, so its fields may be written
  obtain ⟨hn, hp⟩ := h.inv.queue.nowhere_of_le (Nat.le_refl p.world.nextQueue)
  have hlow : ∀ q, q ≠ p.world.nextQueue → q < w'.nextQueue → q < p.world.nextQueue := by
    intro q hq hlt
    rw [hnext] at hlt
    exact Nat.lt_of_le_of_ne (Nat.le_of_lt_succ hlt) hq
  obtain ⟨hi, hnodes⟩ := @QueueInv.touch p.world w' _ h.inv.queue hn hp
    (fun d => by rw [hctx])
    (fun d => by rw [hctx]) hnode hne (by omega) hlow (by rw [hnil, hq]; exact hrep)
  have hst : SameTimers p.world w' := by
    rw [hw']
    exact ⟨fun _ => rfl, fun _ => rfl, rfl, fun _ => rfl⟩
  refine ⟨⟨w', Function.update p.refs p.world.nextQueue 0⟩, ?_, ⟨?_, ?_, fun q hlt => ?_,
    fun q hl => ?_⟩, fun q hl => by rw [hlog]; exact h.alive q hl⟩
  · have hcall : eventQueueInit (queueZalloc p.world).1 p.world.nextQueue size k = some w' := by
      rw [eventQueueInit, hring, hw']
      rfl
    show (eventQueueInit (queueZalloc p.world).1 p.world.nextQueue size k).bind _ = _
    rw [hcall]
    rfl
  · refine ⟨hi, hst.timerInv h.inv.timer, fun d => by rw [hctx]; exact h.inv.saved d,
      fun d q hd => ?_, fun d i hd => ?_⟩
    · rw [hctx] at hd
      obtain ⟨hlt, hx, hk⟩ := h.inv.savedFrom d q hd
      rw [hnext, hne q (Nat.ne_of_lt hlt)]
      exact ⟨Nat.lt_succ_of_lt hlt, hx, hk⟩
    · rw [hctx, h.bare d] at hd
      cases hd
  · exact fun c => by rw [hctx]; exact h.bare c
  · show (w'.queues q).refcount = ((Function.update p.refs p.world.nextQueue 0 q : Nat) : Int)
    by_cases hnew : q = p.world.nextQueue
    · rw [hnew, hq, Function.update_self]
      rfl
    · rw [hne q hnew, Function.update_of_ne hnew]
      exact h.count q (hlow q hnew hlt)
  · rw [hlog]
    refine h.alive q ?_
    cases hl with
    | heap hm => exact Linked.heap (hnodes _ _ ▸ hm)
    | pending hm => exact Linked.pending (hctx ▸ hm)
    | attached hm =>
        rw [attachedQueues_bare (by rw [hctx]; exact h.bare _)] at hm
        cases hm

/-- A count that changes along with the clients' references. -/
theorem recount (h : QueueAccount p) {refs : QueueId → Nat} (hi : BusInv w)
    (hbare : ∀ c, (w.ctxs c).attachedCount = 0) (hnext : w.nextQueue = p.world.nextQueue)
    (hcount : ∀ q, q < p.world.nextQueue →
      (w.queues q).refcount - (p.world.queues q).refcount = refs q - p.refs q)
    (hlive : ∀ q, Linked w q → .freeQueue q ∉ w.log) : QueueAccount ⟨w, refs⟩ where
  inv := hi
  bare := hbare
  count := fun q hq => by
    have h1 := h.count q (hnext ▸ hq)
    have h2 := hcount q (hnext ▸ hq)
    show (w.queues q).refcount = (refs q : Int)
    omega
  alive := hlive

theorem ref (h : QueueAccount p) (hq : QueueAlive p.world q) :
    ∃ p', (RefOp.ref q).exec p = some p' ∧ QueueAccount p' ∧ Spares p p' := by
  have hrc : ∀ x, ((eventQueueRef p.world q).queues x).refcount
      = (p.world.queues x).refcount + if x = q then 1 else 0 := by
    intro x
    by_cases hx : x = q
    · simp [eventQueueRef, World.updQueue, hx]
    · simp [eventQueueRef, World.updQueue, hx]
  have hsame : SameQueues p.world (eventQueueRef p.world q) :=
    ⟨fun x => World.updQueue_proj _ q x EventQueue.spsc (fun _ => rfl),
      fun x => World.updQueue_proj _ q x EventQueue.ctx (fun _ => rfl),
      fun x => World.updQueue_proj _ q x EventQueue.category (fun _ => rfl),
      rfl, rfl, fun _ => rfl, fun _ => rfl⟩
  have hlinks : NoNewLinks p.world (eventQueueRef p.world q) :=
    ⟨fun d j x hm => hsame.queueNodes d j ▸ hm, fun _ _ hm => hm, fun _ => rfl⟩
  refine ⟨_, rfl, h.recount ?_ h.bare rfl (fun x hx => ?_) (fun x hl => ?_), h.alive⟩
  · exact h.inv.of_sameQueues hsame ⟨fun _ => rfl, fun _ => rfl, rfl, fun _ => rfl⟩
      ⟨fun _ => rfl, fun _ => rfl, fun _ => rfl, fun _ => rfl⟩
  · rw [hrc]
    by_cases hxq : x = q
    · subst hxq
      rw [if_pos rfl, Function.update_self]
      push_cast
      omega
    · rw [if_neg hxq, Function.update_of_ne hxq]
      omega
  · exact h.alive x (hlinks.linked hl)

theorem addQueue (h : QueueAccount p) (hq : QueueAlive p.world q)
    (hreg : Registrable p.world c q) :
    ∃ p', (RefOp.addQueue c q).exec p = some p' ∧ QueueAccount p' ∧ Spares p p' := by
  obtain ⟨w', r, hcall, hi, hadd, -⟩ := @BusInv.call p.world (.addQueue c q) h.inv hreg
  have hexec : busAddQueue p.world c q = some w' := by
    rw [BusOp.exec, Option.map_eq_some_iff] at hcall
    obtain ⟨v, hv, he⟩ := hcall
    cases he
    exact hv
  refine ⟨⟨w', p.refs⟩, by rw [RefOp.exec, hexec]; rfl, h.recount hi
    (fun d => (hadd.sameSlots.count d).trans (h.bare d)) hadd.frame.nextQueue
    (fun x _ => by rw [hadd.refcount]; omega) (fun x hl => ?_),
    fun x hl => by simpa [hadd.log] using h.alive x hl⟩
  have hfree : .freeQueue x ∉ p.world.log := by
    rcases hadd.linked hl with hl | rfl
    · exact h.alive x hl
    · exact hq.2
  simpa [hadd.log] using hfree

theorem push (h : QueueAccount p) (hq : QueueAlive p.world q) (e : EventId) :
    ∃ p', (RefOp.push q e).exec p = some p' ∧ QueueAccount p' ∧ Spares p p' := by
  obtain ⟨w', ret, hcall, hi, hres⟩ := h.inv.push hq.1 e
  refine ⟨⟨w', p.refs⟩, by rw [RefOp.exec, hcall]; rfl, ?_⟩
  rcases hres with ⟨_, hpush⟩ | ⟨_, rfl, _⟩
  · refine ⟨h.recount hi (fun d => (hpush.sameSlots.count d).trans (h.bare d)) hpush.nextQueue
      (fun x _ => by rw [hpush.refcount]; omega) (fun x hl => ?_),
      fun x hl => by simpa [hpush.log] using h.alive x hl⟩
    have hfree : .freeQueue x ∉ p.world.log := by
      rcases hpush.linked hl with hl | rfl
      · exact h.alive x hl
      · exact hq.2
    simpa [hpush.log] using hfree
  · exact ⟨h, h.alive⟩

theorem dequeue (h : QueueAccount p) (c : CtxId) (now : Nat) :
    ∃ p', (RefOp.dequeue c now).exec p = some p' ∧ QueueAccount p' ∧ Spares p p' := by
  obtain ⟨w1, w2, w', o, hcall, hdeq⟩ := h.inv.busDequeue c now
  exact ⟨⟨w', p.refs⟩, by rw [RefOp.exec, hcall]; rfl,
    h.stand hdeq.run.inv hdeq.run.refsStand,
    fun x hl hf => h.alive x hl (hdeq.run.refsStand.freed x hf)⟩

/-- A reference that is not the last of a linked queue. -/
theorem unref (h : QueueAccount p) (hq : QueueAlive p.world q) (hpos : 0 < p.refs q)
    (hsound : p.refs q = 1 → Unlinked p.world q) :
    ∃ p', (RefOp.unref q).exec p = some p' ∧ QueueAccount p' ∧ Spares p p' := by
  obtain ⟨w', hcall, hu⟩ := h.inv.queue.eventQueueUnref hq.1
  have hcount := h.count q hq.1
  have hctx : w'.ctxs = p.world.ctxs := by rw [hu.rest]
  -- a queue that is freed stands nowhere
  have hnot : (p.world.queues q).refcount = 1 → ¬ Linked p.world q := by
    intro hone
    rw [h.inv.linked_iff h.bare, not_not]
    exact hsound (by omega)
  obtain ⟨hi, hnodes⟩ := hu.inv h.inv (by
    by_cases hone : (p.world.queues q).refcount = 1
    · exact Or.inl ⟨fun d j hm => hnot hone (Linked.heap hm),
        fun d hm => hnot hone (Linked.pending hm)⟩
    · exact Or.inr hone)
  have hlinks : NoNewLinks p.world w' :=
    ⟨fun d j x hm => hnodes d j ▸ hm, fun d x hm => by rwa [hctx] at hm,
      fun d => by rw [attachedQueues, hctx, attachedQueues]⟩
  have hlive : ∀ x, Linked p.world x → .freeQueue x ∉ w'.log := by
    intro x hl hf
    rw [← List.count_pos_iff, hu.freed] at hf
    have hz := List.count_eq_zero.mpr (h.alive x hl)
    split at hf
    case isTrue hx => exact hnot hx.2 (hx.1 ▸ hl)
    case isFalse => omega
  refine ⟨⟨w', Function.update p.refs q (p.refs q - 1)⟩, by rw [RefOp.exec, hcall]; rfl,
    h.recount hi (fun d => by rw [hctx]; exact h.bare d) (by rw [hu.rest]) (fun x _ => ?_)
      (fun x hl => hlive x (hlinks.linked hl)), hlive⟩
  by_cases hx : x = q
  · rw [hx, hu.queue, Function.update_self]
    show (p.world.queues q).refcount - 1 - _ = _
    omega
  · rw [hu.others x hx, Function.update_of_ne hx]
    omega

theorem clear (h : QueueAccount p) (hempty : ∀ k, p.world.queueNodes c k = []) :
    ∃ p', (RefOp.clear c).exec p = some p' ∧ QueueAccount p' ∧ Spares p p' := by
  obtain ⟨w', hcall, hi, hs⟩ := h.inv.clear_refsStand hempty (h.bare c)
  exact ⟨⟨w', p.refs⟩, by rw [RefOp.exec, hcall]; rfl, h.stand hi hs,
    fun x hl hf => h.alive x hl (hs.freed x hf)⟩

/-- **Every sound call goes through**, keeps the account, and frees nothing
that is linked. -/
theorem exec (h : QueueAccount p) {op : RefOp} (hop : op.Proper p) (hsound : op.Sound p) :
    ∃ p', op.exec p = some p' ∧ QueueAccount p' ∧ Spares p p' := by
  cases op with
  | init size k => exact h.init hop k
  | ref q => exact h.ref hop
  | unref q => exact h.unref hop.1 hop.2 hsound
  | addQueue c q => exact h.addQueue hop.1 hop.2
  | push q e => exact h.push hop e
  | dequeue c now => exact h.dequeue c now
  | clear c =>
      refine h.clear (fun k => hsound k ?_)
      cases k <;> simp

/-- **An unsound call** frees a linked queue, or drops a reference that
nobody had taken. -/
theorem sound_of_exec (h : QueueAccount p) {op : RefOp} (hop : op.Proper p)
    (hexec : op.exec p = some p')
    (hcount : ∀ q, q < p'.world.nextQueue → (p'.world.queues q).refcount = p'.refs q)
    (hspares : Spares p p') : op.Sound p := by
  cases op with
  | unref q =>
      intro hone
      by_contra hu
      have hl := (h.inv.linked_iff h.bare).mpr hu
      obtain ⟨w', hcall, hun⟩ := h.inv.queue.eventQueueUnref hop.1.1
      rw [RefOp.exec, hcall] at hexec
      cases hexec
      have hrc := h.count q hop.1.1
      have hfreed := hun.freed q
      rw [if_pos ⟨rfl, by omega⟩] at hfreed
      refine hspares q hl (List.count_pos_iff.mp ?_)
      show 0 < w'.log.count _
      omega
  | clear c =>
      intro k _
      by_contra hne
      obtain ⟨q, hq⟩ := List.exists_mem_of_ne_nil _ hne
      obtain ⟨v, hheaps, hv⟩ := h.inv.busClearHeaps c
      have hzero : (v.ctxs c).attachedCount = 0 :=
        (hv.loosened.proj c Ctx.attachedCount (fun _ _ _ _ _ => rfl)).trans (h.bare c)
      have hloop : busClearAttached ((v.ctxs c).attachedCount + 1) v c 0 = some v := by
        rw [busClearAttached, if_neg (by rw [hzero]; exact Nat.lt_irrefl 0)]
      rw [RefOp.exec, busClear_eq, hheaps, Option.bind_some,
        busClearTable_of hloop hzero] at hexec
      cases hexec
      have hlt := (h.inv.queue.linked c k q hq).lt
      have hless := hv.dropped k q hq
      have hbefore := h.count q hlt
      have hafter : (v.queues q).refcount = p.refs q :=
        hcount q (hv.loosened.nextQueue.symm ▸ hlt)
      omega
  | _ => trivial

end QueueAccount

theorem Booted.queueAccount (hw : Booted p.world)
    (hrefs : ∀ q, q < p.world.nextQueue → (p.world.queues q).refcount = p.refs q) :
    QueueAccount p where
  inv := hw.inv
  bare := fun c => (hw.ctxs c).attachedCount
  count := hrefs
  alive := fun q _ => by
    rw [hw.log]
    exact List.not_mem_nil

/-- **A run of sound calls** keeps each count equal to the references of the
clients, and every linked queue alive; and the next call does so again where
it is sound, and only there. -/
theorem runRefs_counted (hw : Booted p.world)
    (hrefs : ∀ q, q < p.world.nextQueue → (p.world.queues q).refcount = p.refs q)
    (ops : List RefOp)
    (hrun : GuardedRun.Guarded RefOp.exec (fun p op => op.Proper p ∧ op.Sound p) p ops) :
    ∃ p', runRefs p ops = some p'
      ∧ (∀ q, q < p'.world.nextQueue → (p'.world.queues q).refcount = p'.refs q)
      ∧ (∀ q, Linked p'.world q → .freeQueue q ∉ p'.world.log)
      ∧ ∀ op : RefOp, op.Proper p' →
        ((∃ p'', op.exec p' = some p''
          ∧ (∀ q, q < p''.world.nextQueue → (p''.world.queues q).refcount = p''.refs q)
          ∧ Spares p' p'') ↔ op.Sound p') := by
  obtain ⟨p', hrun', h'⟩ := GuardedRun.Guarded.total (I := QueueAccount)
    (fun p op h hop => by
      obtain ⟨p', hexec, h', _⟩ := h.exec (show op.Proper p from hop.1) hop.2
      exact ⟨p', hexec, h'⟩) ops hrun (hw.queueAccount hrefs)
  refine ⟨p', hrun', h'.count, h'.alive, fun op hop => ⟨?_, fun hsound => ?_⟩⟩
  · rintro ⟨p'', hexec, hcount, hspares⟩
    exact h'.sound_of_exec hop hexec hcount hspares
  · obtain ⟨p'', hexec, h'', hspares⟩ := h'.exec hop hsound
    exact ⟨p'', hexec, h''.count, hspares⟩

/-- A client that keeps its reference until its queue has drained, clears the
bus, and drops it. -/
theorem runRefs_counted_one :
    ∃ p', runRefs ⟨World.fresh .simulation 0 [] (fun _ => ⟨0, 0, 0, 0⟩), fun _ => 0⟩
        [.init 4 .service, .ref 0, .addQueue 0 0, .push 0 7, .ref 0, .unref 0, .dequeue 0 0,
          .dequeue 0 0, .clear 0, .unref 0] = some p'
      ∧ (∀ q, q < p'.world.nextQueue → (p'.world.queues q).refcount = p'.refs q)
      ∧ (∀ q, Linked p'.world q → .freeQueue q ∉ p'.world.log)
      ∧ ∀ op : RefOp, op.Proper p' →
        ((∃ p'', op.exec p' = some p''
          ∧ (∀ q, q < p''.world.nextQueue → (p''.world.queues q).refcount = p''.refs q)
          ∧ Spares p' p'') ↔ op.Sound p') :=
  runRefs_counted (World.fresh_booted (by simp)) (fun q hq => absurd hq (Nat.not_lt_zero q)) _
    (by decide +kernel)

/-- `bus_clear` drops a reference that no bus took: the queue of a client
that still has its reference is freed, and its count is off. -/
theorem cleared_queue_freed :
    ∃ p', runRefs ⟨World.fresh .simulation 0 [] (fun _ => ⟨0, 0, 0, 0⟩), fun _ => 0⟩
        [.init 4 .service, .ref 0, .push 0 7, .addQueue 0 0, .clear 0] = some p'
      ∧ GuardedRun.Guarded RefOp.exec (fun p op => op.Proper p)
        ⟨World.fresh .simulation 0 [] (fun _ => ⟨0, 0, 0, 0⟩), fun _ => 0⟩
        [.init 4 .service, .ref 0, .push 0 7, .addQueue 0 0, .clear 0]
      ∧ p'.refs 0 = 1 ∧ (p'.world.queues 0).refcount = 0 ∧ .freeQueue 0 ∈ p'.world.log := by
  have hrun : (runRefs ⟨World.fresh .simulation 0 [] (fun _ => ⟨0, 0, 0, 0⟩), fun _ => 0⟩
      [.init 4 .service, .ref 0, .push 0 7, .addQueue 0 0, .clear 0]).any (fun p =>
        decide (p.refs 0 = 1 ∧ (p.world.queues 0).refcount = 0
          ∧ .freeQueue 0 ∈ p.world.log)) = true := by
    decide +kernel
  rw [Option.any_eq_true] at hrun
  obtain ⟨p', hcall, hp⟩ := hrun
  rw [decide_eq_true_iff] at hp
  exact ⟨p', hcall, by decide +kernel, hp⟩

end Ats
