import Ats.Core.Attach
import Ats.Core.Delivery

/-!
# Client: runs of all the calls

What each call of `BusOp` does, for a client that registers a queue only
while it stands nowhere, arms a timer only while it is not armed, and
removes only what `heap_remove` can be trusted with. Such a run goes
through, and `CleanRun.keeps` is the rule for what it keeps.
-/

namespace Ats

variable {w w' : World} {c d : CtxId} {k : QueueCategory} {q p : QueueId} {t : EventId}

/-! ## Clean calls -/

/-- `q` may be registered on `c`: it is on no other bus, and the bus does not
know it yet. -/
def Registrable (w : World) (c : CtxId) (q : QueueId) : Prop :=
  q < w.nextQueue ∧ ((w.queues q).ctx = none
    ∨ (w.queues q).ctx = some c ∧ q ∉ w.queueNodes c (w.queues q).category
      ∧ q ∉ (w.ctxs c).pendingQueue)

/-- `t` is in no timer heap. -/
def Unarmed (w : World) (t : EventId) : Prop :=
  ∀ d ∈ (w.reminders t).ctx, t ∉ w.timerNodes d (w.reminders t).clockType

/-- `heap_remove` can be trusted with `q`: it is in its heap, or the heap is
empty. -/
def Removable (w : World) (c : CtxId) (q : QueueId) : Prop :=
  q ∈ w.queueNodes c (w.queues q).category ∨ w.queueNodes c (w.queues q).category = []

/-- The same for a timer. -/
def TimerRemovable (w : World) (c : CtxId) (t : EventId) : Prop :=
  t ∈ w.timerNodes c (w.reminders t).clockType
    ∨ w.timerNodes c (w.reminders t).clockType = []

/-- What a call asks of the memory it finds. -/
def BusOp.Clean (w : World) : BusOp → Prop
  | .addQueue c q => Registrable w c q
  | .removeQueue c q => (w.queues q).ctx = some c ∧ Removable w c q
  | .push q _ => q < w.nextQueue
  | .addTimer _ t => Unarmed w t
  | .removeTimer c t => (w.reminders t).ctx = some c ∧ TimerRemovable w c t
  | .attach src _ => (w.ctxs src).attachedCount < attachedSize
  | .detach src dst => DetachClean w dst [] (w.detachVisits src dst)
  | .setTime _ _ => True
  | .setExchangeTime _ _ => True
  | .dequeue _ _ => True

/-- Each call of the run meets `P` in the memory it finds. -/
def Along (P : World → BusOp → Prop) : World → List BusOp → Prop
  | _, [] => True
  | w, op :: ops => P w op ∧
      match op.exec w with
      | none => True
      | some (w', _) => Along P w' ops

/-- A run of calls each of which is clean where it is made. -/
def CleanRun (w : World) (ops : List BusOp) : Prop := Along BusOp.Clean w ops

section Decide

instance (w : World) (c : CtxId) (q : QueueId) : Decidable (Registrable w c q) :=
  inferInstanceAs (Decidable (_ ∧ (_ ∨ _ ∧ _ ∧ _)))

instance (w : World) (t : EventId) : Decidable (Unarmed w t) :=
  inferInstanceAs (Decidable (∀ d ∈ (w.reminders t).ctx, _))

instance (w : World) (c : CtxId) (q : QueueId) : Decidable (Removable w c q) :=
  inferInstanceAs (Decidable (_ ∨ _))

instance (w : World) (c : CtxId) (t : EventId) : Decidable (TimerRemovable w c t) :=
  inferInstanceAs (Decidable (_ ∨ _))

instance DetachClean.decide (w : World) (dst : CtxId) :
    (gone qs : List QueueId) → Decidable (DetachClean w dst gone qs)
  | _, [] => isTrue trivial
  | gone, q :: qs =>
      have := DetachClean.decide w dst (q :: gone) qs
      inferInstanceAs (Decidable (_ ∧ _))

instance BusOp.Clean.decide (w : World) : (op : BusOp) → Decidable (op.Clean w)
  | .addQueue c q => inferInstanceAs (Decidable (Registrable w c q))
  | .removeQueue c q => inferInstanceAs (Decidable (_ = some c ∧ Removable w c q))
  | .push q _ => inferInstanceAs (Decidable (q < w.nextQueue))
  | .addTimer _ t => inferInstanceAs (Decidable (Unarmed w t))
  | .removeTimer c t => inferInstanceAs (Decidable (_ = some c ∧ TimerRemovable w c t))
  | .attach src _ => inferInstanceAs (Decidable ((w.ctxs src).attachedCount < attachedSize))
  | .detach src dst => inferInstanceAs (Decidable (DetachClean w dst [] (w.detachVisits src dst)))
  | .setTime _ _ => inferInstanceAs (Decidable True)
  | .setExchangeTime _ _ => inferInstanceAs (Decidable True)
  | .dequeue _ _ => inferInstanceAs (Decidable True)

instance Along.decide {P : World → BusOp → Prop} [∀ w op, Decidable (P w op)] :
    (w : World) → (ops : List BusOp) → Decidable (Along P w ops)
  | _, [] => isTrue trivial
  | w, op :: ops =>
      match he : op.exec w with
      | none => decidable_of_iff (P w op) (by simp [Along, he])
      | some (w', r) =>
          have := Along.decide (P := P) w' ops
          decidable_of_iff (P w op ∧ Along P w' ops) (by simp [Along, he])

instance (w : World) (ops : List BusOp) : Decidable (CleanRun w ops) :=
  inferInstanceAs (Decidable (Along BusOp.Clean w ops))

end Decide

theorem QueueInv.nowhere_of_registrable (h : QueueInv w) (hq : Registrable w c q) :
    (∀ d j, q ∉ w.queueNodes d j) ∧ ∀ d, q ∉ (w.ctxs d).pendingQueue := by
  obtain ⟨_, hc | ⟨hc, hn, hp⟩⟩ := hq
  · exact h.nowhere_of_ctx hc
  · refine ⟨h.notMem_nodes hc hn, fun d hm => ?_⟩
    have hd : d = c := Option.some.inj ((h.pending d q hm).1.ctx.symm.trans hc)
    exact hp (hd ▸ hm)

theorem TimerInv.nowhere_of_unarmed (h : TimerInv w) (ht : Unarmed w t) :
    ∀ d j, t ∉ w.timerNodes d j := by
  intro d j hm
  obtain ⟨hc, hk⟩ := h.armed d j t hm
  exact ht d hc (hk ▸ hm)

/-! ## What each call does -/

/-- Nothing but a clock has changed. -/
structure ClockFrame (w w' : World) : Prop where
  rest : w' = { w with ctxs := w'.ctxs }
  ctxs : ∀ d, w'.ctxs d = { w.ctxs d with time := (w'.ctxs d).time }

namespace ClockFrame

theorem refl (w : World) : ClockFrame w w := ⟨rfl, fun _ => rfl⟩

theorem updCtx (w : World) (c : CtxId) (v : ClockType → Nat) :
    ClockFrame w (w.updCtx c fun x => { x with time := v }) := by
  refine ⟨rfl, fun d => ?_⟩
  rw [World.updCtx_ctxs]
  split <;> rfl

theorem sameQueues (h : ClockFrame w w') : SameQueues w w' where
  spsc := fun p => by rw [h.rest]
  ctx := fun p => by rw [h.rest]
  category := fun p => by rw [h.rest]
  node := by rw [h.rest]
  next := by rw [h.rest]
  heap := fun d => by rw [h.ctxs]
  pending := fun d => by rw [h.ctxs]

theorem sameTimers (h : ClockFrame w w') : SameTimers w w' where
  ctx := fun t => by rw [h.rest]
  clockType := fun t => by rw [h.rest]
  node := by rw [h.rest]
  heap := fun d => by rw [h.ctxs]

theorem sameSlots (h : ClockFrame w w') : SameSlots w w' where
  saved := fun d => by rw [h.ctxs]
  savedFrom := fun d => by rw [h.ctxs]
  attached := fun d => by rw [h.ctxs]
  count := fun d => by rw [h.ctxs]

end ClockFrame

theorem busSetTime_frame (w : World) (c : CtxId) (time : Nat) :
    ClockFrame w (busSetTime w c time).1 := by
  unfold busSetTime
  split
  · exact ClockFrame.refl w
  · split
    · exact ClockFrame.refl w
    · exact ClockFrame.updCtx w c _

theorem busSetExchangeTime_frame (w : World) (c : CtxId) (time : Nat) :
    ClockFrame w (busSetExchangeTime w c time).1 := by
  unfold busSetExchangeTime
  split
  · exact ClockFrame.refl w
  · exact ClockFrame.updCtx w c _

/-- **What a clean call has done**, with what it returned. -/
def BusOp.Did (w w' : World) (r : List (CtxId × EventId)) : BusOp → Prop
  | .addQueue c q => QueueAdded w w' c q ∧ r = []
  | .removeQueue c q => QueueRemoval w w' c q ∧ r = []
      ∧ (w' = w ∨ ∃ ys, QueueHeapSet w w' c (w.queues q).category ys)
  | .push q e => (QueuePushed w w' q e
      ∨ w' = w ∧ (w.contents q).length + 1 = (w.queues q).spsc.capacity) ∧ r = []
  | .addTimer c t =>
      TimerArmed w w' c (w.reminders t).clockType t (w.reminders t).timeout ∧ r = []
  | .removeTimer c t => TimerRemoval w w' c t ∧ r = []
      ∧ (w' = w ∨ ∃ ys, TimerHeapSet w w' c (w.reminders t).clockType ys)
  | .attach src dst => QueueAttached w w' src dst w.nextQueue ∧ r = []
  | .detach src dst => Detached w w' src (w.detachVisits src dst) ∧ r = []
  | .setTime _ _ => ClockFrame w w' ∧ r = []
  | .setExchangeTime _ _ => ClockFrame w w' ∧ r = []
  | .dequeue c now => ∃ w1 w2 o, Dequeued w c now w1 w2 w' o
      ∧ r = (o.map fun e => (c, e)).toList

theorem BusInv.of_clockFrame (h : BusInv w) (hf : ClockFrame w w') : BusInv w' :=
  h.of_sameQueues hf.sameQueues hf.sameTimers hf.sameSlots

/-- **Each clean call** goes through and leaves a well-formed memory. -/
theorem BusInv.call {op : BusOp} (h : BusInv w) (hop : op.Clean w) :
    ∃ w' r, op.exec w = some (w', r) ∧ BusInv w' ∧ op.Did w w' r := by
  cases op with
  | addQueue c q =>
      obtain ⟨hn, hp⟩ := h.queue.nowhere_of_registrable hop
      have hc : (w.queues q).ctx = some c ∨ (w.queues q).ctx = none :=
        hop.2.elim Or.inr (fun hc => Or.inl hc.1)
      obtain ⟨w', hcall, hadd, hq'⟩ := h.queue.busAddQueue hop.1 hc hn hp
      exact ⟨w', [], by rw [BusOp.exec, hcall]; rfl, h.of_queueAdded hadd hc hq', hadd, rfl⟩
  | removeQueue c q =>
      obtain ⟨w', hcall, hrem, hq', hset⟩ := h.queue.removeQueue hop.1 hop.2
      refine ⟨w', [], by rw [BusOp.exec, hcall]; rfl, ?_, hrem, rfl, hset⟩
      rcases hset with rfl | ⟨ys, hset⟩
      · exact h
      · exact h.of_queueFrame hset.frame hq'
  | push q e =>
      obtain ⟨w', ret, hcall, h', hres⟩ := h.push hop e
      refine ⟨w', [], by rw [BusOp.exec, hcall]; rfl, h', ?_, rfl⟩
      rcases hres with ⟨_, hpush⟩ | ⟨_, hsame, hfull⟩
      · exact Or.inl hpush
      · exact Or.inr ⟨hsame, hfull⟩
  | addTimer c t =>
      obtain ⟨w', hcall, harm, ht'⟩ := h.timer.busAddTimer (h.timer.nowhere_of_unarmed hop) c
      exact ⟨w', [], by rw [BusOp.exec, hcall]; rfl, h.of_timerFrame harm.frame ht', harm, rfl⟩
  | removeTimer c t =>
      obtain ⟨w', hcall, hrem, ht', hset⟩ := h.timer.removeTimer hop.1 hop.2
      refine ⟨w', [], by rw [BusOp.exec, hcall]; rfl, ?_, hrem, rfl, hset⟩
      rcases hset with rfl | ⟨ys, hset⟩
      · exact h
      · exact h.of_timerFrame hset.frame ht'
  | attach src dst =>
      obtain ⟨w', hcall, h', hatt⟩ := h.busAttach dst hop
      exact ⟨w', [], by rw [BusOp.exec, hcall]; rfl, h', hatt, rfl⟩
  | detach src dst =>
      obtain ⟨w', hcall, h', hdet, _⟩ := h.busDetach hop
      exact ⟨w', [], by rw [BusOp.exec, hcall]; rfl, h', hdet, rfl⟩
  | setTime c time =>
      have hf := busSetTime_frame w c time
      exact ⟨_, [], rfl, h.of_clockFrame hf, hf, rfl⟩
  | setExchangeTime c time =>
      have hf := busSetExchangeTime_frame w c time
      exact ⟨_, [], rfl, h.of_clockFrame hf, hf, rfl⟩
  | dequeue c now =>
      obtain ⟨w1, w2, w', o, hcall, hdeq⟩ := h.busDequeue c now
      exact ⟨w', _, by rw [BusOp.exec, hcall]; rfl, hdeq.run.inv, w1, w2, o, hdeq, rfl⟩

/-- **The history records exactly what every call returns.** -/
theorem BusOp.Did.returned {op : BusOp} {r : List (CtxId × EventId)} (h : op.Did w w' r) :
    w'.log.filterMap Act.returned = w.log.filterMap Act.returned ++ r := by
  have keep : ∀ {acts : List Act}, w'.log = w.log ++ acts →
      acts.filterMap Act.returned = [] →
      w'.log.filterMap Act.returned = w.log.filterMap Act.returned ++ [] := by
    intro acts hl ha
    rw [hl, List.filterMap_append, ha]
  have same : w'.log = w.log →
      w'.log.filterMap Act.returned = w.log.filterMap Act.returned ++ [] := by
    intro hl
    rw [hl, List.append_nil]
  cases op with
  | addQueue c q =>
      obtain ⟨hadd, rfl⟩ := h
      exact keep hadd.log rfl
  | removeQueue c q =>
      obtain ⟨_, rfl, rfl | ⟨ys, hset⟩⟩ := h
      · exact same rfl
      · exact same hset.log
  | push q e =>
      obtain ⟨hpush | ⟨rfl, _⟩, rfl⟩ := h
      · exact keep hpush.log rfl
      · exact same rfl
  | addTimer c t =>
      obtain ⟨harm, rfl⟩ := h
      exact same harm.frame.log
  | removeTimer c t =>
      obtain ⟨_, rfl, rfl | ⟨ys, hset⟩⟩ := h
      · exact same rfl
      · exact same hset.frame.log
  | attach src dst =>
      obtain ⟨hatt, rfl⟩ := h
      exact keep hatt.log rfl
  | detach src dst =>
      obtain ⟨hdet, rfl⟩ := h
      exact same hdet.log
  | setTime c time =>
      obtain ⟨hf, rfl⟩ := h
      exact same (by rw [hf.rest])
  | setExchangeTime c time =>
      obtain ⟨hf, rfl⟩ := h
      exact same (by rw [hf.rest])
  | dequeue c now =>
      obtain ⟨w1, w2, o, hdeq, rfl⟩ := h
      exact hdeq.returned

/-! ## Clean runs -/

/-- **The rule for clean runs**: they go through, and keep what each of
their calls keeps. -/
theorem Along.keepsExec {P : World → BusOp → Prop} {I : World → List (CtxId × EventId) → Prop}
    (clean : ∀ v op, P v op → op.Clean v) :
    ∀ (ops : List BusOp) {w : World} (rs : List (CtxId × EventId)), BusInv w →
      Along P w ops →
      (∀ op ∈ ops, ∀ v v' r rs, BusInv v → BusInv v' → P v op → op.exec v = some (v', r) →
        op.Did v v' r → I v rs → I v' (rs ++ r)) →
      I w rs →
      ∃ w' r, runOps w ops = some (w', r) ∧ BusInv w' ∧ I w' (rs ++ r) := by
  intro ops
  induction ops with
  | nil =>
      intro w rs h _ _ hp
      exact ⟨w, [], rfl, h, by rw [List.append_nil]; exact hp⟩
  | cons op ops ih =>
      intro w rs h hrun step hp
      obtain ⟨hop, hrest⟩ := hrun
      obtain ⟨w1, r1, hexec, h1, hdid⟩ := h.call (clean w op hop)
      rw [hexec] at hrest
      have hp1 := step op List.mem_cons_self w w1 r1 rs h h1 hop hexec hdid hp
      obtain ⟨w2, r2, hcall, h2, hp2⟩ :=
        ih (rs ++ r1) h1 hrest (fun o ho => step o (List.mem_cons_of_mem op ho)) hp1
      refine ⟨w2, r1 ++ r2, ?_, h2, ?_⟩
      · rw [runOps, hexec]
        show Option.bind (runOps w1 ops) _ = _
        rw [hcall]
        rfl
      · rw [← List.append_assoc]
        exact hp2

/-- The rule where what a call has done is all that counts. -/
theorem Along.keeps {P : World → BusOp → Prop} {I : World → List (CtxId × EventId) → Prop}
    (clean : ∀ v op, P v op → op.Clean v) (ops : List BusOp) {w : World}
    (rs : List (CtxId × EventId)) (h : BusInv w) (hrun : Along P w ops)
    (step : ∀ op ∈ ops, ∀ v v' r rs, BusInv v → BusInv v' → P v op → op.Did v v' r →
      I v rs → I v' (rs ++ r))
    (hp : I w rs) :
    ∃ w' r, runOps w ops = some (w', r) ∧ BusInv w' ∧ I w' (rs ++ r) :=
  Along.keepsExec clean ops rs h hrun
    (fun op hop v v' r rs hv hv' hpop _ hdid => step op hop v v' r rs hv hv' hpop hdid) hp

theorem BusInv.cleanRun (h : BusInv w) {ops : List BusOp} (hrun : CleanRun w ops) :
    ∃ w' r, Ats.runOps w ops = some (w', r) ∧ BusInv w' := by
  obtain ⟨w', r, hcall, h', _⟩ := Along.keeps (I := fun _ _ => True) (fun _ _ hc => hc) ops
    [] h hrun (fun _ _ _ _ _ _ _ _ _ _ _ => trivial) trivial
  exact ⟨w', r, hcall, h'⟩

theorem BusInv.cleanRun_inv (h : BusInv w) {ops : List BusOp} (hrun : CleanRun w ops)
    {rs : List (CtxId × EventId)} (hcall : Ats.runOps w ops = some (w', rs)) : BusInv w' := by
  obtain ⟨v, r, hcall', hv⟩ := h.cleanRun hrun
  cases hcall'.symm.trans hcall
  exact hv

/-! ## Removal in every reachable memory -/

/-- **Removal touches only its argument exactly where `heap_remove` can be
trusted.** After every clean run: a registered queue is removed alone if and
only if it is in its heap or the heap is empty; `bus_detach` removes the
queues it visits, one by one and alone, if and only if each of them is in
its heap or finds it empty; and the same for timers. -/
theorem cleanRun_removal_iff (hw : Booted w) (ops : List BusOp) (hrun : CleanRun w ops) :
    ∃ w' rs, runOps w ops = some (w', rs)
      ∧ (∀ c q, (w'.queues q).ctx = some c →
          (RemovesOnlyQueue w' c q ↔ Removable w' c q))
      ∧ (∀ src dst, DetachesOnly w' src dst ↔ DetachClean w' dst [] (w'.detachVisits src dst))
      ∧ ∀ c t, (w'.reminders t).ctx = some c →
          (RemovesOnlyTimer w' c t ↔ TimerRemovable w' c t) := by
  obtain ⟨w', rs, hcall, h'⟩ := hw.inv.cleanRun hrun
  exact ⟨w', rs, hcall, fun _ _ hc => h'.queue.removesOnlyQueue_iff hc,
    fun _ _ => h'.detachesOnly_iff, fun _ _ hc => h'.timer.removesOnlyTimer_iff hc⟩

/-- Two market queues and an attached one, registered and filled, one of
them removed. -/
theorem cleanRun_removal_iff_two :
    ∃ w' rs, runOps (World.fresh .simulation 0 [(4, .market), (4, .market)]
        (fun e => ⟨1, askEvent, 0, e⟩))
        [.push 0 3, .push 1 5, .addQueue 0 0, .addQueue 0 1, .attach 0 1, .addTimer 0 9,
          .removeQueue 0 1] = some (w', rs)
      ∧ (∀ c q, (w'.queues q).ctx = some c →
          (RemovesOnlyQueue w' c q ↔ Removable w' c q))
      ∧ (∀ src dst, DetachesOnly w' src dst ↔ DetachClean w' dst [] (w'.detachVisits src dst))
      ∧ ∀ c t, (w'.reminders t).ctx = some c →
          (RemovesOnlyTimer w' c t ↔ TimerRemovable w' c t) :=
  cleanRun_removal_iff (World.fresh_booted (by simp)) _ (by decide +kernel)

/-- The queue of the first event has been drained; removing it takes the
other queue out of the heap. -/
theorem removeQueue_drained :
    ∃ w rs, runOps (World.fresh .simulation 0 [(4, .market), (4, .market)]
        (fun e => ⟨1, askEvent, 0, e⟩))
        [.push 0 3, .push 1 5, .addQueue 0 0, .addQueue 0 1, .dequeue 0 0] = some (w, rs)
      ∧ ((w.queues 0).ctx = some 0 ∧ w.contents 0 = [] ∧ w.contents 1 = [5]
        ∧ 1 ∈ w.queueNodes 0 .market)
      ∧ (∃ w', busRemoveQueue w 0 0 = some w' ∧ 1 ∉ w'.queueNodes 0 .market)
      ∧ ¬ RemovesOnlyQueue w 0 0 := by
  have hrun : (runOps (World.fresh .simulation 0 [(4, .market), (4, .market)]
      (fun e => ⟨1, askEvent, 0, e⟩))
      [.push 0 3, .push 1 5, .addQueue 0 0, .addQueue 0 1, .dequeue 0 0]).any (fun r =>
        decide ((r.1.queues 0).ctx = some 0 ∧ r.1.contents 0 = [] ∧ r.1.contents 1 = [5]
          ∧ 1 ∈ r.1.queueNodes 0 .market)
        && (busRemoveQueue r.1 0 0).any fun w' => decide (1 ∉ w'.queueNodes 0 .market))
      = true := by decide +kernel
  rw [Option.any_eq_true] at hrun
  obtain ⟨⟨w, rs⟩, hcall, hw⟩ := hrun
  rw [Bool.and_eq_true, decide_eq_true_iff, Option.any_eq_true] at hw
  obtain ⟨hbefore, w', hrem, hlost⟩ := hw
  rw [decide_eq_true_iff] at hlost
  refine ⟨w, rs, hcall, hbefore, ⟨w', hrem, hlost⟩, ?_⟩
  rintro ⟨v, hv, honly⟩
  rw [hrem] at hv
  cases hv
  exact hlost ((honly.others 0 .market 1).mpr ⟨hbefore.2.2.2, by decide⟩)

end Ats
