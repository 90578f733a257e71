import Ats.Core.Client

/-!
# Retired: queues that have been removed

A queue that was taken out of its heap still holds its events and its
`ctx`, so no later push finds it empty and none notifies the bus. That cuts
both ways into the bus, the heap and the pending list.
-/

namespace Ats

variable {w w' : World} {c d src dst : CtxId} {k : QueueCategory} {q p : QueueId}
  {e : EventId} {s : StepKind}

/-- **A queue the bus cannot reach**: it is in no heap, on no pending list,
not behind any `saved_event`, and too full to notify anybody. -/
structure Retired (w : World) (q : QueueId) : Prop where
  lt : q < w.nextQueue
  heap : ∀ d j, q ∉ w.queueNodes d j
  pending : ∀ d, q ∉ (w.ctxs d).pendingQueue
  saved : ∀ d, (w.ctxs d).savedFrom ≠ some q
  filled : w.contents q ≠ []

theorem Retired.of_same (h : Retired w q) (hq : SameQueues w w')
    (hs : ∀ d, (w'.ctxs d).savedFrom ≠ some q) : Retired w' q where
  lt := hq.next ▸ h.lt
  heap := fun d j => by
    rw [hq.queueNodes]
    exact h.heap d j
  pending := fun d => by
    rw [hq.pending]
    exact h.pending d
  saved := hs
  filled := by
    rw [hq.contents]
    exact h.filled

/-- Registering another queue. -/
theorem Retired.added (h : Retired w q) (ha : QueueAdded w w' c p) (hpq : p ≠ q) :
    Retired w' q where
  lt := Nat.lt_of_lt_of_eq h.lt ha.frame.nextQueue.symm
  heap := fun d j hm => by
    by_cases hd : d = c ∧ j = (w.queues p).category
    · obtain ⟨rfl, rfl⟩ := hd
      rw [ha.nodes.mem_iff] at hm
      split at hm
      · exact h.heap _ _ hm
      · rcases List.mem_cons.mp hm with hm | hm
        · exact hpq hm.symm
        · exact h.heap _ _ hm
    · rw [ha.nodes_ne d j (by tauto)] at hm
      exact h.heap d j hm
  pending := fun d => by
    rw [ha.frame.pendingQueue]
    exact h.pending d
  saved := fun d => by
    rw [ha.frame.savedFrom]
    exact h.saved d
  filled := by
    rw [ha.contents]
    exact h.filled

/-- A push, also onto the queue itself. -/
theorem Retired.pushed (h : Retired w q) (hp : QueuePushed w w' p e) : Retired w' q where
  lt := Nat.lt_of_lt_of_eq h.lt hp.nextQueue.symm
  heap := fun d j => by
    rw [hp.queueNodes]
    exact h.heap d j
  pending := fun d => by
    rw [hp.ctxs]
    dsimp only
    split
    case isTrue hnew =>
      intro hm
      rcases List.mem_append.mp hm with hm | hm
      · exact h.pending d hm
      · -- only an empty queue is notified
        rw [List.mem_singleton] at hm
        exact h.filled (hm ▸ hnew.1)
    case isFalse => exact h.pending d
  saved := fun d => by
    rw [hp.ctxs]
    exact h.saved d
  filled := by
    by_cases hpq : q = p
    · rw [hpq, hp.contents]
      simp
    · rw [hp.contents_ne hpq]
      exact h.filled

/-- A pipe serves another queue. -/
theorem Retired.popped (h : Retired w q) (hp : PipePop w w' c k p e) :
    Retired w' q ∧ p ≠ q := by
  have hpq : p ≠ q := by
    rintro rfl
    exact h.heap c k hp.mem
  refine ⟨⟨Nat.lt_of_lt_of_eq h.lt hp.frame.nextQueue.symm, fun d j hm => ?_, fun d => ?_,
    fun d => ?_, ?_⟩, hpq⟩
  · exact h.heap d j (hp.queueNodes_subset d j hm)
  · rw [hp.frame.pendingQueue]
    exact h.pending d
  · rw [hp.frame.savedFrom]
    exact h.saved d
  · rw [hp.contents_ne hpq.symm]
    exact h.filled

/-- What `log` says of `q` where nothing was given from it. -/
theorem given_eq_of_log {acts : List Act} (h : w'.log = w.log ++ acts)
    (ha : acts.filterMap (Act.givenFrom q) = []) : w'.given q = w.given q := by
  rw [World.given, h, List.filterMap_append, ha, List.append_nil, World.given]

theorem given_note {a : Act} (ha : a.givenFrom q = none) :
    (w.note a).given q = w.given q := by
  refine given_eq_of_log rfl ?_
  rw [List.filterMap_cons_none ha, List.filterMap_nil]

/-- **No step of a bus reaches a retired queue.** -/
theorem BusStep.retired (hs : BusStep s w w') (hk : ∀ d, s ≠ .add d) (h : Retired w q) :
    Retired w' q ∧ w'.given q = w.given q := by
  cases hs with
  | add _ _ _ => exact absurd rfl (hk _)
  | reenter hpend hadd =>
      rename_i c p rest
      -- a pending queue is registered, so it is not the retired one
      have hpq : p ≠ q := by
        rintro rfl
        exact h.pending c (by rw [hpend]; exact List.mem_cons_self)
      have hx : ∀ d, ((w.updCtx c fun x => { x with pendingQueue := rest }).ctxs d)
          = if d = c then { w.ctxs d with pendingQueue := rest } else w.ctxs d :=
        fun d => w.updCtx_ctxs c d _
      have h1 : Retired (w.updCtx c fun x => { x with pendingQueue := rest }) q := by
        refine ⟨h.lt, fun d j => ?_, fun d => ?_, fun d => ?_, h.filled⟩
        · have hmem : (w.updCtx c fun x => { x with pendingQueue := rest }).queueMem d j
              = w.queueMem d j := by
            rw [World.queueMem, World.queueMem, hx]
            split <;> rfl
          rw [World.queueNodes, hmem]
          exact h.heap d j
        · rw [hx]
          split
          case isTrue hd =>
            intro hm
            exact h.pending c (by rw [hpend]; exact List.mem_cons_of_mem p hm)
          case isFalse => exact h.pending d
        · rw [hx]
          split <;> exact h.saved d
      exact ⟨h1.added hadd hpq, given_eq_of_log hadd.log rfl⟩
  | push hpush => exact ⟨h.pushed hpush, given_eq_of_log hpush.log rfl⟩
  | drop hpop hmode hskip hsaved =>
      rename_i w1 c p e stop
      obtain ⟨h1, _⟩ := h.popped hpop
      refine ⟨h1.of_same ?_ (fun d => ?_), ?_⟩
      · refine SameQueues.note ?_ _
        exact updCtx_sameQueues _ _ (fun _ => ⟨rfl, rfl⟩)
      · rw [(stop_sameSlots w1 c stop _).savedFrom]
        exact h1.saved d
      · rw [given_note (w := w1.updCtx c fun x => { x with isSimulatorStop := stop }) rfl]
        exact given_eq_of_log hpop.log rfl
  | save hpop hsaved hts =>
      rename_i w1 c p e ts
      -- the look-ahead now points at the queue that was popped, another one
      obtain ⟨h1, hpq⟩ := h.popped hpop
      refine ⟨h1.of_same (busSave_sameQueues _ _ _ _ _) (fun d => ?_),
        given_eq_of_log hpop.log rfl⟩
      by_cases hd : d = c
      · subst hd
        simpa [busSave, World.updCtx, World.updEvent] using hpq
      · simpa [busSave, World.updCtx, World.updEvent, hd] using h1.saved d
  | give hpop _ =>
      rename_i w1 c k p e _
      obtain ⟨h1, hpq⟩ := h.popped hpop
      refine ⟨h1.of_same ⟨fun _ => rfl, fun _ => rfl, fun _ => rfl, rfl, rfl, fun _ => rfl,
        fun _ => rfl⟩ h1.saved, ?_⟩
      rw [given_note (w := w1) (by simp [Act.givenFrom, hpq])]
      exact given_eq_of_log hpop.log rfl
  | fire hpop =>
      rename_i w1 c k t
      refine ⟨h.of_same (hpop.frame.sameQueues.note _) (fun d => ?_), ?_⟩
      · show (w1.ctxs d).savedFrom ≠ some q
        rw [hpop.frame.sameSlots.savedFrom]
        exact h.saved d
      · rw [given_note (w := w1) rfl, World.given, hpop.frame.log, World.given]
  | release hun =>
      rename_i c e
      refine ⟨h.of_same (busUnsave_sameQueues hun) (fun d => ?_), ?_⟩
      · obtain ⟨p, _, _, rfl⟩ := busUnsave_eq hun
        by_cases hd : d = c
        · subst hd
          simp [World.note, World.updCtx]
        · simpa [World.note, World.updCtx, hd] using h.saved d
      · obtain ⟨p, _, hfrom, rfl⟩ := busUnsave_eq hun
        have hpq : p ≠ q := by
          rintro rfl
          exact h.saved c hfrom
        rw [given_note (w := w.updCtx c fun x =>
          { x with savedEvent := none, savedFrom := none }) (by simp [Act.givenFrom, hpq])]
        rfl
  | forward hlt hatt hpush =>
      rename_i c i p e
      have h1 : Retired (eventRef w e) q :=
        h.of_same ⟨fun _ => rfl, fun _ => rfl, fun _ => rfl, rfl, rfl, fun _ => rfl,
          fun _ => rfl⟩ h.saved
      exact ⟨h1.pushed hpush, given_eq_of_log hpush.log rfl⟩
  | overrun hlt hatt hfull =>
      exact ⟨h.of_same ⟨fun _ => rfl, fun _ => rfl, fun _ => rfl, rfl, rfl, fun _ => rfl,
        fun _ => rfl⟩ h.saved, rfl⟩

/-- Nor does any run of steps. -/
theorem BusRun.retired {S : Set StepKind} (hr : BusRun S w w') (hS : ∀ d, .add d ∉ S)
    (h : Retired w q) : Retired w' q ∧ w'.given q = w.given q := by
  refine hr.keeps (P := fun v => Retired v q ∧ v.given q = w.given q)
    (fun s hm v v' _ _ hs hp => ?_) ⟨h, rfl⟩
  obtain ⟨h', hg⟩ := hs.retired (fun d hc => hS d (hc ▸ hm)) hp.1
  exact ⟨h', hg.trans hp.2⟩

theorem Retired.clock (h : Retired w q) (hf : ClockFrame w w') :
    Retired w' q ∧ w'.given q = w.given q := by
  refine ⟨h.of_same hf.sameQueues (fun d => ?_), ?_⟩
  · rw [hf.sameSlots.savedFrom]
    exact h.saved d
  · rw [World.given, hf.rest, World.given]

/-- **Nor does any call**, but for registering the queue again. -/
theorem BusOp.Did.retired {op : BusOp} {r : List (CtxId × EventId)} (hd : op.Did w w' r)
    (hne : op.registers ≠ some q) (h : Retired w q) :
    Retired w' q ∧ w'.given q = w.given q := by
  cases op with
  | addQueue c p =>
      obtain ⟨hadd, _⟩ := hd
      exact ⟨h.added hadd (fun hc => hne (by rw [hc]; rfl)), given_eq_of_log hadd.log rfl⟩
  | removeQueue c p =>
      obtain ⟨hrem, _, rfl | ⟨ys, hset⟩⟩ := hd
      · exact ⟨h, rfl⟩
      · refine ⟨⟨hset.nextQueue ▸ h.lt, fun d j hm => ?_, fun d => ?_, fun d => ?_, ?_⟩, ?_⟩
        · exact h.heap d j ((hrem.others d j q).mp hm).1
        · rw [hset.pendingQueue]
          exact h.pending d
        · rw [hset.frame.savedFrom]
          exact h.saved d
        · rw [hset.contents]
          exact h.filled
        · rw [World.given, hset.log, World.given]
  | push p e =>
      obtain ⟨hpush | ⟨rfl, _⟩, _⟩ := hd
      · exact ⟨h.pushed hpush, given_eq_of_log hpush.log rfl⟩
      · exact ⟨h, rfl⟩
  | addTimer c t =>
      obtain ⟨harm, _⟩ := hd
      refine ⟨h.of_same harm.frame.sameQueues (fun d => ?_), ?_⟩
      · rw [harm.frame.sameSlots.savedFrom]
        exact h.saved d
      · rw [World.given, harm.frame.log, World.given]
  | removeTimer c t =>
      obtain ⟨_, _, rfl | ⟨ys, hset⟩⟩ := hd
      · exact ⟨h, rfl⟩
      · refine ⟨h.of_same hset.frame.sameQueues (fun d => ?_), ?_⟩
        · rw [hset.frame.sameSlots.savedFrom]
          exact h.saved d
        · rw [World.given, hset.frame.log, World.given]
  | attach src dst =>
      obtain ⟨hatt, _⟩ := hd
      have hnew : q ≠ w.nextQueue := Nat.ne_of_lt h.lt
      refine ⟨⟨?_, fun d j hm => ?_, fun d => ?_, fun d => ?_, ?_⟩, ?_⟩
      · rw [hatt.nextQueue]
        exact Nat.lt_succ_of_lt h.lt
      · exact h.heap d j ((hatt.nodes d j).mem_iff.mp hm)
      · rw [hatt.ctxs]
        exact h.pending d
      · rw [hatt.ctxs]
        exact h.saved d
      · rw [hatt.contents_ne hnew]
        exact h.filled
      · exact given_eq_of_log hatt.log rfl
  | detach src dst =>
      obtain ⟨hdet, _⟩ := hd
      refine ⟨⟨hdet.nextQueue ▸ h.lt, fun d j hm => ?_, fun d => ?_, fun d => ?_, ?_⟩, ?_⟩
      · exact h.heap d j ((hdet.nodes d j q).mp hm).1
      · rw [hdet.ctxs]
        exact h.pending d
      · rw [hdet.ctxs]
        exact h.saved d
      · rw [World.contents, hdet.queues]
        exact h.filled
      · rw [World.given, hdet.log, World.given]
  | setTime c time =>
      obtain ⟨hf, _⟩ := hd
      exact h.clock hf
  | setExchangeTime c time =>
      obtain ⟨hf, _⟩ := hd
      exact h.clock hf
  | dequeue c now =>
      obtain ⟨w1, w2, o, hdeq, _⟩ := hd
      exact hdeq.run.retired (by simp [dequeueKinds]) h

/-! ## The calls that retire a queue -/

/-- The call removes `q` while `q` is in its heap and the bus holds no event
of it in `saved_event`: `bus_remove_queue` of `q`, or a `bus_detach` that
does not step over the entry of `q`. -/
def BusOp.CutsOff (w : World) (q : QueueId) : BusOp → Prop
  | .removeQueue c p => p = q ∧ q ∈ w.queueNodes c (w.queues q).category
      ∧ (w.ctxs c).savedFrom ≠ some q
  | .detach src dst => q ∈ w.detachVisits src dst
      ∧ q ∈ w.queueNodes dst (w.queues q).category ∧ (w.ctxs dst).savedFrom ≠ some q
  | _ => False

/-- A linked queue is on no pending list, and only its own bus can hold an
event of it. -/
theorem BusInv.retired (h : BusInv w) (hq : q ∈ w.queueNodes c (w.queues q).category)
    (hs : (w.ctxs c).savedFrom ≠ some q) (hlt : w'.nextQueue = w.nextQueue)
    (hn : ∀ d j, q ∉ w'.queueNodes d j)
    (hp : ∀ d, (w'.ctxs d).pendingQueue = (w.ctxs d).pendingQueue)
    (hf : ∀ d, (w'.ctxs d).savedFrom = (w.ctxs d).savedFrom)
    (hc : w'.contents q = w.contents q) : Retired w' q where
  lt := Nat.lt_of_lt_of_eq (h.queue.linked c _ q hq).lt hlt.symm
  heap := hn
  pending := fun d => by
    rw [hp]
    exact h.queue.notMem_pending hq d
  saved := fun d => by
    rw [hf]
    intro hd
    have hctx := (h.savedFrom d q hd).2.1
    rw [(h.queue.linked c _ q hq).ctx] at hctx
    cases hctx
    exact hs hd
  filled := by
    rw [hc]
    exact (h.queue.linked c _ q hq).nonempty

theorem BusOp.Did.cutsOff {op : BusOp} {r : List (CtxId × EventId)} (hd : op.Did w w' r)
    (h : BusInv w) (hcut : op.CutsOff w q) : Retired w' q := by
  cases op with
  | removeQueue c p =>
      obtain ⟨rfl, hq, hs⟩ := hcut
      obtain ⟨hrem, _, hset⟩ := hd
      rcases hset with rfl | ⟨ys, hset⟩
      · exact absurd rfl ((hrem.others c _ p).mp hq).2
      · refine h.retired hq hs hset.nextQueue (fun d j hm => ?_) hset.pendingQueue
          hset.frame.savedFrom (hset.contents p)
        exact ((hrem.others d j p).mp hm).2 rfl
  | detach src dst =>
      obtain ⟨hvis, hq, hs⟩ := hcut
      obtain ⟨hdet, _⟩ := hd
      refine h.retired hq hs hdet.nextQueue (fun d j hm => ?_) (fun d => by rw [hdet.ctxs])
        (fun d => by rw [hdet.ctxs]) (by rw [World.contents, hdet.queues, World.contents])
      exact ((hdet.nodes d j q).mp hm).2 hvis
  | _ => exact absurd hcut id

theorem CleanRun.append : ∀ (ops : List BusOp) {w w' : World}
    {rs : List (CtxId × EventId)} {later : List BusOp}, CleanRun w (ops ++ later) →
    runOps w ops = some (w', rs) → CleanRun w ops ∧ CleanRun w' later := by
  intro ops
  induction ops with
  | nil =>
      intro w w' rs later h hcall
      cases hcall
      exact ⟨trivial, h⟩
  | cons op ops ih =>
      intro w w' rs later h hcall
      rw [runOps, Option.bind_eq_bind, Option.bind_eq_some_iff] at hcall
      obtain ⟨⟨w1, r1⟩, hexec, hcall⟩ := hcall
      simp only [Option.bind_eq_some_iff] at hcall
      obtain ⟨⟨w2, r2⟩, hrest, he⟩ := hcall
      cases he
      obtain ⟨hop, h⟩ := h
      rw [hexec] at h
      obtain ⟨h1, h2⟩ := ih h hrest
      refine ⟨⟨hop, ?_⟩, h2⟩
      rw [hexec]
      exact h1

theorem CleanRun.append_left : ∀ (ops : List BusOp) {w : World} {later : List BusOp},
    CleanRun w (ops ++ later) → CleanRun w ops := by
  intro ops
  induction ops with
  | nil =>
      intro w later _
      trivial
  | cons op ops ih =>
      intro w later h
      obtain ⟨hop, h⟩ := h
      refine ⟨hop, ?_⟩
      cases hexec : op.exec w with
      | none => trivial
      | some x =>
          rw [hexec] at h
          exact ih h

/-- What every call after `cut` keeps. -/
structure Kept (w1 w2 : World) (cut : BusOp) (later : List BusOp) (v : World)
    (rs : List (CtxId × EventId)) : Prop where
  returned : v.log.filterMap Act.returned = w2.log.filterMap Act.returned ++ rs
  retired : ∀ q, cut.CutsOff w1 q → (∀ op ∈ later, op.registers ≠ some q) →
    Retired v q ∧ v.given q = w2.given q

/-- **A removed queue stays removed**, in every clean run, if it was in its
heap when it was removed and the bus held no event of it: whatever is
called later, short of registering it again, no event of it is returned. -/
theorem cleanRun_retired (hw : Booted w) (ops : List BusOp) (cut : BusOp)
    (later : List BusOp) (hrun : CleanRun w (ops ++ cut :: later)) :
    ∃ w1 rs1 w2 r w3 rs, runOps w ops = some (w1, rs1) ∧ cut.exec w1 = some (w2, r)
      ∧ runOps w2 later = some (w3, rs)
      ∧ w3.log.filterMap Act.returned = w2.log.filterMap Act.returned ++ rs
      ∧ ∀ q, cut.CutsOff w1 q → (∀ op ∈ later, op.registers ≠ some q) →
          w3.given q = w2.given q := by
  obtain ⟨w1, rs1, hcall1, h1⟩ := hw.inv.cleanRun hrun.append_left
  obtain ⟨_, hcut, hlater⟩ := CleanRun.append ops hrun hcall1
  obtain ⟨w2, r, hexec, h2, hdid⟩ := h1.call hcut
  rw [hexec] at hlater
  have hstep : ∀ op ∈ later, ∀ v v' r rs, BusInv v → BusInv v' → op.Clean v →
      op.Did v v' r → Kept w1 w2 cut later v rs → Kept w1 w2 cut later v' (rs ++ r) := by
    intro op hop v v' r rs _ _ _ hd hp
    refine ⟨by rw [hd.returned, hp.returned, List.append_assoc], fun q hq hno => ?_⟩
    obtain ⟨hret, hgiven⟩ := hp.retired q hq hno
    obtain ⟨hret', hgiven'⟩ := hd.retired (hno op hop) hret
    exact ⟨hret', hgiven'.trans hgiven⟩
  obtain ⟨w3, rs, hcall3, _, hkept⟩ := Along.keeps (fun _ _ hc => hc) later []
    h2 hlater hstep
    ⟨(List.append_nil _).symm, fun q hq _ => ⟨hdid.cutsOff h1 hq, rfl⟩⟩
  exact ⟨w1, rs1, w2, r, w3, rs, hcall1, hexec, hcall3, hkept.returned,
    fun q hq hno => (hkept.retired q hq hno).2⟩

/-- Queue 0 is removed with an event in it, then pushed onto. -/
theorem cleanRun_retired_one :
    ∃ w1 rs1 w2 r w3 rs, runOps (World.fresh .simulation 0 [(4, .market), (4, .market)]
          (fun e => ⟨1, askEvent, 0, e⟩))
        [.push 0 3, .addQueue 0 0, .push 1 5, .addQueue 0 1] = some (w1, rs1)
      ∧ (BusOp.removeQueue 0 0).exec w1 = some (w2, r)
      ∧ runOps w2 [.push 0 4, .dequeue 0 0, .dequeue 0 0] = some (w3, rs)
      ∧ w3.log.filterMap Act.returned = w2.log.filterMap Act.returned ++ rs
      ∧ ∀ q, (BusOp.removeQueue 0 0).CutsOff w1 q →
          (∀ op ∈ [BusOp.push 0 4, .dequeue 0 0, .dequeue 0 0], op.registers ≠ some q) →
          w3.given q = w2.given q :=
  cleanRun_retired (World.fresh_booted (by simp)) _ _ _ (by decide +kernel)

/-- A queue that is empty when it is removed comes back with its next
event. -/
theorem removeQueue_empty_returns :
    ∃ w1 w2 rs, runOps (World.fresh .simulation 0 [(4, .market)]
          (fun e => ⟨1, askEvent, 0, e⟩)) [.addQueue 0 0] = some (w1, [])
      ∧ (w1.queues 0).ctx = some 0
      ∧ runOps w1 [.removeQueue 0 0, .push 0 5, .dequeue 0 0] = some (w2, rs)
      ∧ rs = [(0, 5)] ∧ w1.given 0 = [] ∧ w2.given 0 = [5] := by
  have hrun : (runOps (World.fresh .simulation 0 [(4, .market)]
      (fun e => ⟨1, askEvent, 0, e⟩)) [.addQueue 0 0]).any (fun a =>
        decide (a.2 = []) && decide ((a.1.queues 0).ctx = some 0)
        && (runOps a.1 [.removeQueue 0 0, .push 0 5, .dequeue 0 0]).any fun b =>
          decide (b.2 = [(0, 5)] ∧ a.1.given 0 = [] ∧ b.1.given 0 = [5])) = true := by
    decide +kernel
  rw [Option.any_eq_true] at hrun
  obtain ⟨⟨w1, rs1⟩, hcall1, hw1⟩ := hrun
  rw [Bool.and_eq_true, Bool.and_eq_true, decide_eq_true_iff, decide_eq_true_iff,
    Option.any_eq_true] at hw1
  obtain ⟨⟨hrs1, hctx⟩, ⟨w2, rs⟩, hcall2, hw2⟩ := hw1
  rw [decide_eq_true_iff] at hw2
  dsimp only at hrs1 hctx hw2
  subst hrs1
  exact ⟨w1, w2, rs, hcall1, hctx, hcall2, hw2⟩

end Ats
