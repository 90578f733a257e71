import Ats.Core.QueueRefs

/-!
# Teardown: `bus_clear` and what it leaves

The last loop of `bus_clear` walks over the table of attached queues while
`bus_detach` deletes from it, as `bus_detach` itself does. With two entries
or more it ends before it has seen them all. The pending list is not looked
at.
-/

namespace Ats

variable {w w' w'' v v' : World} {c d src dst : CtxId} {k : QueueCategory} {q p : QueueId}
  {e : EventId} {kind : StepKind} {now : Nat}

/-! ## What is destroyed -/

/-- The queues that the last loop of `bus_clear` destroys, from index `i`
on. -/
def clearVisits : Nat → World → CtxId → Nat → List QueueId
  | 0, _, _, _ => []
  | fuel + 1, w, c, i =>
      if i < (w.ctxs c).attachedCount then
        match (w.ctxs c).attached i with
        | none => []
        | some q =>
            q :: match (w.queues q).ctx.bind fun d => (busDetach w c d).bind fun w =>
                eventQueueDestroy w q with
              | none => []
              | some w' => clearVisits fuel w' c (i + 1)
      else []

/-- The queues that the last loop of `bus_clear(c)` destroys. -/
def tableVisits (w : World) (c : CtxId) : List QueueId :=
  match busClearHeaps w c with
  | none => []
  | some v => clearVisits ((v.ctxs c).attachedCount + 1) v c 0

/-- How often `q` is destroyed on the way from `w` to `w'`, by the last loop
or by `queue_free`. -/
def timesDestroyed (w w' : World) (c : CtxId) (q : QueueId) : Nat :=
  (tableVisits w c).count q + (w'.log.count (.freeQueue q) - w.log.count (.freeQueue q))

/-! ## Calls that leave a bus alone -/

/-- Nothing new comes to bus `c`: no queue or timer is added, and nothing is
pushed onto a queue of `c`, by a producer or by a bus that forwards. -/
def BusOp.Leaves (c : CtxId) (w : World) : BusOp → Prop
  | .addQueue d _ => d ≠ c
  | .removeQueue _ _ => True
  | .push q _ => (w.queues q).ctx ≠ some c
  | .addTimer d _ => d ≠ c
  | .removeTimer _ _ => True
  | .attach _ dst => dst ≠ c
  | .detach _ _ => True
  | .setTime _ _ => True
  | .setExchangeTime _ _ => True
  | .dequeue d _ => d = c ∨ ∀ q ∈ attachedQueues w d, (w.queues q).ctx ≠ some c

instance BusOp.Leaves.decide (c : CtxId) (w : World) : (op : BusOp) → Decidable (op.Leaves c w)
  | .addQueue d _ | .addTimer d _ | .attach _ d => inferInstanceAs (Decidable (d ≠ c))
  | .push q _ => inferInstanceAs (Decidable ((w.queues q).ctx ≠ some c))
  | .dequeue d _ => inferInstanceAs (Decidable
      (d = c ∨ ∀ q ∈ attachedQueues w d, (w.queues q).ctx ≠ some c))
  | .removeQueue _ _ | .removeTimer _ _ | .detach _ _ | .setTime _ _ | .setExchangeTime _ _ =>
      inferInstanceAs (Decidable True)

/-- **The call brings an event to bus `c`**: it registers a queue with
events, or appends to a queue of `c`, as a producer or for a bus that
forwards. -/
inductive BusOp.Brings (w w' : World) (c : CtxId) : BusOp → Prop
  | register {q : QueueId} : eventQueueIsEmpty w q = false → Brings w w' c (.addQueue c q)
  | push {q : QueueId} {e : EventId} : (w.queues q).ctx = some c →
      .push q e ∈ w'.log.drop w.log.length → Brings w w' c (.push q e)
  | forward {d : CtxId} {now : Nat} {q : QueueId} {e : EventId} : d ≠ c →
      q ∈ attachedQueues w d → (w.queues q).ctx = some c →
      .push q e ∈ w'.log.drop w.log.length → Brings w w' c (.dequeue d now)

theorem BusOp.Leaves.not_brings {op : BusOp} (h : op.Leaves c w) : ¬ op.Brings w w' c := by
  intro hb
  cases hb with
  | register _ => exact h rfl
  | push hctx _ => exact h hctx
  | forward hd hatt hctx _ => exact h.resolve_left hd _ hatt hctx

/-- Bus `c` holds no event. -/
structure Drained (w : World) (c : CtxId) : Prop where
  saved : (w.ctxs c).savedEvent = none
  pending : (w.ctxs c).pendingQueue = []
  nodes : ∀ k, w.queueNodes c k = []

/-- Bus `c` holds no event and no timer. -/
structure Bare (w : World) (c : CtxId) : Prop extends Drained w c where
  timers : ∀ j, w.timerNodes c j = []

/-- Bus `c` holds no more than before. -/
theorem Drained.of_sub (h : Drained w c)
    (hs : (w'.ctxs c).savedEvent = (w.ctxs c).savedEvent)
    (hp : (w'.ctxs c).pendingQueue = (w.ctxs c).pendingQueue)
    (hn : ∀ k p, p ∈ w'.queueNodes c k → p ∈ w.queueNodes c k) : Drained w' c := by
  refine ⟨hs.trans h.saved, hp.trans h.pending, fun k => ?_⟩
  refine List.eq_nil_iff_forall_not_mem.mpr (fun p hm => ?_)
  have hm' := hn k p hm
  rw [h.nodes] at hm'
  cases hm'

/-- Bus `c` reads the same. -/
theorem Drained.congr (h : Drained w c) (hq : SameQueues w w') (hs : SameSlots w w') :
    Drained w' c :=
  h.of_sub (hs.saved c) (hq.pending c) (fun k p hp => by rwa [hq.queueNodes] at hp)

/-- What happened from `w` to `w'` is none of bus `c`'s business. -/
structure Apart (w w' : World) (c : CtxId) : Prop where
  saved : (w'.ctxs c).savedEvent = (w.ctxs c).savedEvent
  pending : (w'.ctxs c).pendingQueue = (w.ctxs c).pendingQueue
  nodes : ∀ k, w'.queueNodes c k = w.queueNodes c k
  timers : ∀ j, w'.timerNodes c j = w.timerNodes c j
  tables : ∀ d, attachedQueues w' d = attachedQueues w d
  ctx : ∀ p, (w'.queues p).ctx = (w.queues p).ctx

namespace Apart

theorem refl (w : World) (c : CtxId) : Apart w w c :=
  ⟨rfl, rfl, fun _ => rfl, fun _ => rfl, fun _ => rfl, fun _ => rfl⟩

theorem trans (h : Apart w w' c) (h' : Apart w' w'' c) : Apart w w'' c :=
  ⟨h'.saved.trans h.saved, h'.pending.trans h.pending,
    fun k => (h'.nodes k).trans (h.nodes k), fun j => (h'.timers j).trans (h.timers j),
    fun d => (h'.tables d).trans (h.tables d), fun p => (h'.ctx p).trans (h.ctx p)⟩

theorem drained (h : Apart w w' c) (hb : Drained w c) : Drained w' c :=
  hb.of_sub h.saved h.pending (fun k p hp => by rwa [h.nodes] at hp)

theorem note (w : World) (a : Act) (c : CtxId) : Apart w (w.note a) c :=
  ⟨rfl, rfl, fun _ => rfl, fun _ => rfl, fun _ => rfl, fun _ => rfl⟩

/-- Another bus changes its own fields. -/
theorem updCtx (w : World) (hd : d ≠ c) {f : Ctx → Ctx}
    (hf : ∀ x, (f x).attached = x.attached ∧ (f x).attachedCount = x.attachedCount) :
    Apart w (w.updCtx d f) c := by
  have hc : (w.updCtx d f).ctxs c = w.ctxs c :=
    w.updCtx_ctxs_ne hd.symm f
  refine ⟨by rw [hc], by rw [hc], fun k => ?_, fun j => ?_, fun x => ?_, fun _ => rfl⟩
  · rw [World.queueNodes, World.queueMem, hc]
    rfl
  · rw [World.timerNodes, World.timerMem, hc]
    rfl
  · rw [attachedQueues, w.updCtx_proj d x Ctx.attached (fun y => (hf y).1),
      w.updCtx_proj d x Ctx.attachedCount (fun y => (hf y).2), attachedQueues]

end Apart

theorem PipePop.apart (h : PipePop w w' d k q e) (hd : d ≠ c) : Apart w w' c where
  saved := by rw [h.ctxs_ne c hd.symm]
  pending := by rw [h.ctxs_ne c hd.symm]
  nodes := fun j => h.nodes_ne c j (Or.inl hd.symm)
  timers := fun j => h.frame.sameTimers.timerNodes c j
  tables := fun x => h.frame.sameSlots.attachedQueues x
  ctx := h.frame.queue_ctx

theorem TimerPop.apart {j : ClockType} {t : EventId} (h : TimerPop w w' d j t) (hd : d ≠ c) :
    Apart w w' c where
  saved := by rw [h.ctxs_ne c hd.symm]
  pending := by rw [h.ctxs_ne c hd.symm]
  nodes := fun k => h.frame.sameQueues.queueNodes c k
  timers := fun i => h.nodes_ne c i (Or.inl hd.symm)
  tables := fun x => h.frame.sameSlots.attachedQueues x
  ctx := fun p => by rw [h.frame.queues]

theorem QueueAdded.apart (h : QueueAdded w w' d q) (hd : d ≠ c)
    (hq : (w.queues q).ctx = some d) : Apart w w' c where
  saved := by rw [h.ctxs_ne c hd.symm]
  pending := by rw [h.ctxs_ne c hd.symm]
  nodes := fun j => h.nodes_ne c j (Or.inl hd.symm)
  timers := fun j => h.frame.sameTimers.timerNodes c j
  tables := fun x => h.sameSlots.attachedQueues x
  ctx := fun p => by
    by_cases hp : p = q
    · rw [hp, h.ctx, hq]
    · rw [h.others p hp]

theorem QueuePushed.apart (h : QueuePushed w w' q e) (hq : (w.queues q).ctx ≠ some c) :
    Apart w w' c where
  saved := h.sameSlots.saved c
  pending := by
    rw [h.ctxs]
    exact if_neg (fun hc => hq hc.2)
  nodes := fun k => h.queueNodes c k
  timers := fun j => h.sameTimers.timerNodes c j
  tables := fun x => h.sameSlots.attachedQueues x
  ctx := h.queue_ctx

/-- **A step of another bus** is none of `c`'s business, or forwards to it. -/
theorem BusStep.apart_or (hs : BusStep kind w w') (hi : BusInv w) (hk : kind ∈ dequeueKinds d)
    (hd : d ≠ c) : Apart w w' c ∨ ∃ q e, q ∈ attachedQueues w d ∧ (w.queues q).ctx = some c
      ∧ w'.log = w.log ++ [.push q e] := by
  cases hs with
  | reenter hpend hadd =>
      rename_i x q rest
      have hx : x = d := by simpa [dequeueKinds] using hk
      subst hx
      have hctx := (hi.queue.pending x q (by rw [hpend]; exact List.mem_cons_self)).1.ctx
      have hrest : Apart w (w.updCtx x fun y => { y with pendingQueue := rest }) c :=
        Apart.updCtx w hd (fun _ => ⟨rfl, rfl⟩)
      exact Or.inl (hrest.trans (hadd.apart hd hctx))
  | drop hpop hmode hskip hsaved =>
      rename_i w1 x q e b
      have hx : x = d := by simpa [dequeueKinds] using hk
      subst hx
      have hflag : Apart w1 (w1.updCtx x fun y => { y with isSimulatorStop := b }) c :=
        Apart.updCtx w1 hd (fun _ => ⟨rfl, rfl⟩)
      exact Or.inl (((hpop.apart hd).trans hflag).trans (Apart.note _ _ _))
  | save hpop hsaved hts =>
      rename_i w1 x q e ts
      have hx : x = d := by simpa [dequeueKinds] using hk
      subst hx
      have hstamp : Apart w1 (w1.updEvent e fun y => { y with timestamp := ts }) c :=
        ⟨rfl, rfl, fun _ => rfl, fun _ => rfl, fun _ => rfl, fun _ => rfl⟩
      exact Or.inl (((hpop.apart hd).trans hstamp).trans (Apart.updCtx _ hd (fun _ => ⟨rfl, rfl⟩)))
  | give hpop hmarket =>
      rename_i w1 x k q e
      have hx : x = d := by simpa [dequeueKinds] using hk
      subst hx
      exact Or.inl ((hpop.apart hd).trans (Apart.note _ _ _))
  | fire hpop =>
      rename_i w1 x k t
      have hx : x = d := by simpa [dequeueKinds] using hk
      subst hx
      exact Or.inl ((hpop.apart hd).trans (Apart.note _ _ _))
  | release hun =>
      rename_i x e
      have hx : x = d := by simpa [dequeueKinds] using hk
      subst hx
      obtain ⟨q, _, _, rfl⟩ := busUnsave_eq hun
      have hslot : Apart w (w.updCtx x fun y =>
          { y with savedEvent := none, savedFrom := none }) c :=
        Apart.updCtx w hd (fun _ => ⟨rfl, rfl⟩)
      exact Or.inl (hslot.trans (Apart.note _ _ _))
  | forward hlt hatt hpush =>
      rename_i x i q e
      have hx : x = d := by simpa [dequeueKinds] using hk
      subst hx
      have href : Apart w (eventRef w e) c :=
        ⟨rfl, rfl, fun _ => rfl, fun _ => rfl, fun _ => rfl, fun _ => rfl⟩
      by_cases hctx : (w.queues q).ctx = some c
      · exact Or.inr ⟨q, e, List.mem_filterMap.mpr ⟨i, List.mem_range.mpr hlt, hatt⟩, hctx,
          hpush.log⟩
      · exact Or.inl (href.trans (hpush.apart hctx))
  | overrun hlt hatt hfull =>
      exact Or.inl ⟨rfl, rfl, fun _ => rfl, fun _ => rfl, fun _ => rfl, fun _ => rfl⟩
  | _ => simp [dequeueKinds] at hk

/-- **A call of another bus** is none of `c`'s business, or has forwarded to
it. -/
theorem BusRun.apart_or (hr : BusRun (dequeueKinds d) w w') (hd : d ≠ c) :
    Apart w w' c ∨ ∃ q e, q ∈ attachedQueues w d ∧ (w.queues q).ctx = some c
      ∧ .push q e ∈ w'.log.drop w.log.length := by
  have hrun := hr.keeps (P := fun v => (∃ acts, v.log = w.log ++ acts) ∧ (Apart w v c
      ∨ ∃ q e, q ∈ attachedQueues w d ∧ (w.queues q).ctx = some c
        ∧ .push q e ∈ v.log.drop w.log.length))
    (fun s hm v v' hv _ hs h => ?_) ⟨⟨[], (List.append_nil _).symm⟩, Or.inl (Apart.refl w c)⟩
  · exact hrun.2
  · obtain ⟨⟨acts, hlog⟩, h⟩ := h
    obtain ⟨more, hmore, _⟩ := hs.log
    have hlog' : v'.log = w.log ++ (acts ++ more) := by
      rw [hmore, hlog, List.append_assoc]
    refine ⟨⟨_, hlog'⟩, ?_⟩
    rcases h with h | ⟨q, e, hatt, hctx, hm⟩
    · rcases hs.apart_or hv hm hd with h' | ⟨q, e, hatt, hctx, hlast⟩
      · exact Or.inl (h.trans h')
      · rw [h.tables] at hatt
        rw [h.ctx] at hctx
        refine Or.inr ⟨q, e, hatt, hctx, ?_⟩
        rw [hlast, hlog, List.append_assoc, List.drop_left]
        exact List.mem_append_right _ (List.mem_singleton_self _)
    · rw [hlog, List.drop_left] at hm
      refine Or.inr ⟨q, e, hatt, hctx, ?_⟩
      rw [hlog', List.drop_left]
      exact List.mem_append_left _ hm

theorem BusRun.apart (hr : BusRun (dequeueKinds d) w w') (hd : d ≠ c)
    (hfar : ∀ q ∈ attachedQueues w d, (w.queues q).ctx ≠ some c) : Apart w w' c :=
  (hr.apart_or hd).resolve_right fun ⟨q, _, hatt, hctx, _⟩ => hfar q hatt hctx

/-! ## A bus that holds nothing -/

/-- **`bus_dequeue` of a bus without events** finds none, and returns a
reminder or nothing. -/
theorem Dequeued.drained {w1 w2 : World} {r : Option EventId}
    (h : Dequeued w c now w1 w2 w' r) (hb : Drained w c) :
    Drained w' c ∧ (r = none ∧ w'.timerNodes c = w.timerNodes c
      ∨ ∃ j t, t ∈ w.timerNodes c j) := by
  have hpop : ∀ {u u' : World} {k : QueueCategory} {q : QueueId} {e : EventId},
      Drained u c → ¬ PipePop u u' c k q e := by
    intro u u' k q e hu hp
    have hfirst := hp.first
    rw [hu.nodes] at hfirst
    cases hfirst
  -- neither the pending list nor the look-ahead has anything to do
  have stays : ∀ {S : Set StepKind} {u u' : World}, S ⊆ {.reenter c, .drop c, .save c} →
      BusRun S u u' → Drained u c → Drained u' c ∧ u'.timerNodes c = u.timerNodes c := by
    intro S u u' hS hr hu
    refine hr.keeps (P := fun v => Drained v c ∧ v.timerNodes c = u.timerNodes c)
      (fun s hs x x' _ _ hstep hx => ?_) ⟨hu, rfl⟩
    rcases hS hs with rfl | rfl | rfl
    · cases hstep with
      | reenter hpend hadd =>
          rw [hx.1.pending] at hpend
          cases hpend
    · cases hstep with
      | drop hp hmode hskip hsaved => exact absurd hp (hpop hx.1)
    · cases hstep with
      | save hp hsaved hts => exact absurd hp (hpop hx.1)
  obtain ⟨h1, ht1⟩ := stays (by simp) h.enter hb
  obtain ⟨h2, ht2⟩ := stays (by
    rintro s (rfl | rfl) <;> simp) h.look.run h1
  have hserved := h.served
  generalize busSource w2 c now = src at hserved
  cases hserved with
  | timer hp =>
      rename_i j t v
      have hm : t ∈ w.timerNodes c j := by
        rw [← congrFun ht1 j, ← congrFun ht2 j]
        exact hp.mem
      exact ⟨(h2.congr hp.frame.sameQueues hp.frame.sameSlots).congr
        ⟨fun _ => rfl, fun _ => rfl, fun _ => rfl, rfl, rfl, fun _ => rfl, fun _ => rfl⟩
        ⟨fun _ => rfl, fun _ => rfl, fun _ => rfl, fun _ => rfl⟩, Or.inr ⟨j, t, hm⟩⟩
  | pipe hp hk => exact absurd hp (hpop h2)
  | saved hun hfw =>
      obtain ⟨q, hs, _⟩ := busUnsave_eq hun
      rw [h2.saved] at hs
      cases hs
  | nothing => exact ⟨h2, Or.inl ⟨rfl, ht2.trans ht1⟩⟩

/-- **A call that brings no event to bus `c`** leaves it without events. -/
theorem BusOp.Did.drained {op : BusOp} {r : List (CtxId × EventId)} (hd : op.Did w w' r)
    (hi : BusInv w) (hclean : op.Clean w) (hbrings : ¬ op.Brings w w' c) (hb : Drained w c) :
    Drained w' c := by
  cases op with
  | addQueue d q =>
      obtain ⟨hadd, _⟩ := hd
      have hpend : (w'.ctxs c).pendingQueue = (w.ctxs c).pendingQueue := by
        rw [hadd.frame.pendingQueue]
        rfl
      refine hb.of_sub (hadd.sameSlots.saved c) hpend (fun k p hp => ?_)
      by_cases hdk : c = d ∧ k = (w.queues q).category
      · obtain ⟨rfl, rfl⟩ := hdk
        have hempty := (hi.queue.isEmpty_iff hclean.1).mp (by
          by_contra hne
          exact hbrings (.register (Bool.not_eq_true _ ▸ hne)))
        rw [hadd.nodes.mem_iff, if_pos hempty] at hp
        exact hp
      · rwa [hadd.nodes_ne c k (by tauto)] at hp
  | removeQueue d q =>
      obtain ⟨hrem, _, rfl | ⟨ys, hset⟩⟩ := hd
      · exact hb
      · exact hb.of_sub (hset.frame.savedEvent c) (hset.frame.pendingQueue c)
          (fun k p hp => ((hrem.others c k p).mp hp).1)
  | push q e =>
      obtain ⟨hpush | ⟨rfl, _⟩, _⟩ := hd
      · refine (hpush.apart fun hctx => hbrings (.push hctx ?_)).drained hb
        rw [hpush.log, List.drop_left]
        exact List.mem_singleton_self _
      · exact hb
  | addTimer d t => exact hb.congr hd.1.frame.sameQueues hd.1.frame.sameSlots
  | removeTimer d t =>
      obtain ⟨_, _, rfl | ⟨ys, hset⟩⟩ := hd
      · exact hb
      · exact hb.congr hset.frame.sameQueues hset.frame.sameSlots
  | attach src dst =>
      obtain ⟨hatt, _⟩ := hd
      have hctx := hatt.ctxs c
      exact hb.of_sub (by rw [hctx]) (by rw [hctx])
        (fun k p hp => (hatt.nodes c k).mem_iff.mp hp)
  | detach src dst =>
      obtain ⟨hdet, _⟩ := hd
      have hctx := hdet.ctxs c
      exact hb.of_sub (by rw [hctx]) (by rw [hctx])
        (fun k p hp => ((hdet.nodes c k p).mp hp).1)
  | setTime d time => exact hb.congr hd.1.sameQueues hd.1.sameSlots
  | setExchangeTime d time => exact hb.congr hd.1.sameQueues hd.1.sameSlots
  | dequeue d now =>
      obtain ⟨w1, w2, o, hdeq, _⟩ := hd
      by_cases hdc : d = c
      · subst hdc
        exact (hdeq.drained hb).1
      · rcases hdeq.run.apart_or hdc with h | ⟨q, e, hatt, hctx, hm⟩
        · exact h.drained hb
        · exact absurd (.forward hdc hatt hctx hm) hbrings

/-- **A call that leaves bus `c` alone** keeps it bare, and returns nothing
from it. -/
theorem BusOp.Did.bare {op : BusOp} {r : List (CtxId × EventId)} (hd : op.Did w w' r)
    (hi : BusInv w) (hclean : op.Clean w) (hleave : op.Leaves c w) (hb : Bare w c) :
    Bare w' c ∧ ∀ e, (c, e) ∉ r := by
  have hdrained := hd.drained hi hclean hleave.not_brings hb.toDrained
  have same : SameTimers w w' → Bare w' c :=
    fun h => ⟨hdrained, fun j => (h.timerNodes c j).trans (hb.timers j)⟩
  cases op with
  | addQueue d q =>
      obtain ⟨hadd, rfl⟩ := hd
      have ht := hadd.frame.sameTimers
      exact ⟨same ⟨ht.ctx, ht.clockType, ht.node, ht.heap⟩, fun e => List.not_mem_nil⟩
  | removeQueue d q =>
      obtain ⟨hrem, rfl, rfl | ⟨ys, hset⟩⟩ := hd
      · exact ⟨hb, fun e => List.not_mem_nil⟩
      · exact ⟨same hset.frame.sameTimers, fun e => List.not_mem_nil⟩
  | push q e =>
      obtain ⟨hpush | ⟨rfl, _⟩, rfl⟩ := hd
      · exact ⟨same hpush.sameTimers, fun e => List.not_mem_nil⟩
      · exact ⟨hb, fun e => List.not_mem_nil⟩
  | addTimer d t =>
      obtain ⟨harm, rfl⟩ := hd
      exact ⟨⟨hdrained, fun j => (harm.nodes_ne c j (Or.inl (Ne.symm hleave))).trans
        (hb.timers j)⟩, fun e => List.not_mem_nil⟩
  | removeTimer d t =>
      obtain ⟨hrem, rfl, _⟩ := hd
      refine ⟨⟨hdrained, fun j => ?_⟩, fun e => List.not_mem_nil⟩
      refine List.eq_nil_iff_forall_not_mem.mpr (fun s hs => ?_)
      have hm := ((hrem.others c j s).mp hs).1
      rw [hb.timers] at hm
      cases hm
  | attach src dst =>
      obtain ⟨hatt, rfl⟩ := hd
      exact ⟨same hatt.sameTimers, fun e => List.not_mem_nil⟩
  | detach src dst =>
      obtain ⟨hdet, rfl⟩ := hd
      exact ⟨same ⟨fun t => by rw [hdet.reminders], fun t => by rw [hdet.reminders],
        hdet.timerNode, fun d => by rw [hdet.ctxs d]⟩, fun e => List.not_mem_nil⟩
  | setTime d time =>
      obtain ⟨hf, rfl⟩ := hd
      exact ⟨same hf.sameTimers, fun e => List.not_mem_nil⟩
  | setExchangeTime d time =>
      obtain ⟨hf, rfl⟩ := hd
      exact ⟨same hf.sameTimers, fun e => List.not_mem_nil⟩
  | dequeue d now =>
      obtain ⟨w1, w2, o, hdeq, rfl⟩ := hd
      by_cases hdc : d = c
      · subst hdc
        obtain ⟨_, ⟨rfl, ht⟩ | ⟨j, t, ht⟩⟩ := hdeq.drained hb.toDrained
        · exact ⟨⟨hdrained, fun j => (congrFun ht j).trans (hb.timers j)⟩,
            fun e => List.not_mem_nil⟩
        · rw [hb.timers] at ht
          cases ht
      · have hap := hdeq.run.apart hdc (hleave.resolve_left hdc)
        refine ⟨⟨hdrained, fun j => (hap.timers j).trans (hb.timers j)⟩, fun e he => ?_⟩
        simp only [Option.mem_toList, Option.map_eq_some_iff, Prod.mk.injEq] at he
        obtain ⟨_, _, rfl, _⟩ := he
        exact hdc rfl

theorem Along.and {P Q : World → BusOp → Prop} : ∀ (ops : List BusOp) {w : World},
    Along P w ops → Along Q w ops → Along (fun w op => P w op ∧ Q w op) w ops := by
  intro ops
  induction ops with
  | nil => exact fun _ _ => trivial
  | cons op ops ih =>
      intro w hp hq
      refine ⟨⟨hp.1, hq.1⟩, ?_⟩
      have hp' := hp.2
      have hq' := hq.2
      cases hexec : op.exec w with
      | none => trivial
      | some x =>
          rw [hexec] at hp' hq'
          exact ih hp' hq'

/-- **As long as nothing new comes to it**, a bare bus returns nothing. -/
theorem BusInv.bareRun (hi : BusInv w) (hb : Bare w c) {ops : List BusOp}
    (hclean : CleanRun w ops) (hleave : Along (BusOp.Leaves c) w ops) :
    ∃ w' r, Ats.runOps w ops = some (w', r) ∧ ∀ e, (c, e) ∉ r := by
  obtain ⟨w', r, hrun, _, _, hnone⟩ := Along.keeps
    (P := fun v op => op.Clean v ∧ op.Leaves c v)
    (I := fun v rs => Bare v c ∧ ∀ e, (c, e) ∉ rs) (fun v op h => h.1) ops [] hi
    (Along.and ops hclean hleave)
    (fun op _ v v' r rs hv _ hop hd hI => by
      obtain ⟨hb', hr⟩ := hd.bare hv hop.1 hop.2 hI.1
      refine ⟨hb', fun e he => ?_⟩
      rcases List.mem_append.mp he with he | he
      · exact hI.2 e he
      · exact hr e he)
    ⟨hb, fun e => List.not_mem_nil⟩
  exact ⟨w', r, hrun, hnone⟩

/-! ## The last loop, wherever it returns -/

/-- What each part of the last loop of `bus_clear` leaves alone. -/
structure TableLoop (w w' : World) (c : CtxId) : Prop where
  ctx : ∀ p, (w'.queues p).ctx = (w.queues p).ctx
  pending : ∀ d, (w'.ctxs d).pendingQueue = (w.ctxs d).pendingQueue
  freed : ∀ p, w'.log.count (.freeQueue p) = w.log.count (.freeQueue p)
  count : (w'.ctxs c).attachedCount ≤ (w.ctxs c).attachedCount

namespace TableLoop

theorem refl (w : World) (c : CtxId) : TableLoop w w c :=
  ⟨fun _ => rfl, fun _ => rfl, fun _ => rfl, Nat.le_refl _⟩

theorem trans (h : TableLoop w w' c) (h' : TableLoop w' w'' c) : TableLoop w w'' c :=
  ⟨fun p => (h'.ctx p).trans (h.ctx p), fun d => (h'.pending d).trans (h.pending d),
    fun p => (h'.freed p).trans (h.freed p), Nat.le_trans h'.count h.count⟩

end TableLoop

theorem eventQueueDrain_of_destroy (h : eventQueueDestroy w q = some w') :
    eventQueueDrain (spscqLength (w.queues q).spsc + 1) w q = some w' := by
  rw [eventQueueDestroy, Option.bind_eq_bind, Option.bind_eq_some_iff] at h
  obtain ⟨v, hdrain, h⟩ := h
  rw [Option.bind_eq_bind, Option.bind_eq_some_iff] at h
  obtain ⟨_, _, h⟩ := h
  cases h
  exact hdrain

/-- `event_queue_destroy` touches a queue, events and the history. -/
theorem eventQueueDrain_rest : ∀ (fuel : Nat) {w : World}, eventQueueDrain fuel w q = some w' →
    w' = { w with queues := w'.queues, events := w'.events, log := w'.log }
      ∧ TableLoop w w' c := by
  intro fuel
  induction fuel with
  | zero => exact fun h => by cases h
  | succ fuel ih =>
      intro w h
      have hpop : ∀ x : World × Option EventId, eventQueuePop w q = x →
          x.1 = { w with queues := x.1.queues } ∧ TableLoop w x.1 c := by
        rintro x rfl
        refine ⟨rfl, fun p => ?_, fun _ => rfl, fun _ => rfl, Nat.le_refl _⟩
        exact w.updQueue_proj q p EventQueue.ctx
          (f := fun x => { x with spsc := (spscqPop (w.queues q).spsc).1 }) (fun _ => rfl)
      rw [eventQueueDrain] at h
      split at h
      case h_1 v hv =>
        cases h
        obtain ⟨hrest, hloop⟩ := hpop _ hv
        have hw : w' = { w with queues := w'.queues } := hrest
        refine ⟨?_, hloop⟩
        rw [hw]
      case h_2 v e hv =>
        obtain ⟨hrest, hloop⟩ := hpop _ hv
        have hu := eventUnref_rest v e
        obtain ⟨acts, hlog, hacts⟩ := eventUnref_log v e
        have hunref : TableLoop v (eventUnref v e) c := by
          refine ⟨fun p => by rw [hu], fun d => by rw [hu], fun p => ?_, by rw [hu]⟩
          rw [hlog, List.count_append, count_ofEvent hacts, Nat.add_zero]
        obtain ⟨hrest', hloop'⟩ := ih h
        refine ⟨?_, (hloop.trans hunref).trans hloop'⟩
        rw [hrest', hu]
        have : v = { w with queues := v.queues } := hrest
        rw [this]

theorem busRemoveQueue_rest (h : busRemoveQueue w d q = some w') :
    TableLoop w w' c ∧ (w'.ctxs c).attachedCount = (w.ctxs c).attachedCount
      ∧ (w'.ctxs c).attached = (w.ctxs c).attached := by
  rw [busRemoveQueue, queueHeapRemove, Option.bind_eq_bind, Option.bind_eq_some_iff] at h
  obtain ⟨m, _, he⟩ := h
  cases he
  have hx : ∀ x, (w.setQueueMem d (w.queues q).category m).ctxs x
      = { w.ctxs x with
          queueHeap := ((w.setQueueMem d (w.queues q).category m).ctxs x).queueHeap } := by
    intro x
    by_cases hx : x = d
    · subst hx
      simp [World.setQueueMem, World.updCtx]
    · simp [World.setQueueMem, World.updCtx, hx]
  exact ⟨⟨fun _ => rfl, fun x => by rw [hx], fun _ => rfl, by rw [hx]⟩, by rw [hx], by rw [hx]⟩

/-- The shift, as the loops see it. -/
theorem attachedShift_loop (w : World) (c : CtxId) (i : Nat) :
    TableLoop w (w.updCtx c fun x => attachedShift x i) c
      ∧ ((w.updCtx c fun x => attachedShift x i).ctxs c).attachedCount
        = (w.ctxs c).attachedCount - 1 := by
  have hcount : ((w.updCtx c fun x => attachedShift x i).ctxs c).attachedCount
      = (w.ctxs c).attachedCount - 1 := by
    simp [World.updCtx, attachedShift]
  refine ⟨⟨fun _ => rfl, fun d => ?_, fun _ => rfl, by omega⟩, hcount⟩
  exact w.updCtx_proj c d Ctx.pendingQueue (f := fun x => attachedShift x i) (fun _ => rfl)

theorem busDetachLoop_rest : ∀ (fuel : Nat) {w : World} (i : Nat),
    busDetachLoop fuel w c d i = some w' → TableLoop w w' c := by
  intro fuel
  induction fuel with
  | zero => exact fun _ h => by cases h
  | succ fuel ih =>
      intro w i h
      rw [busDetachLoop] at h
      split at h
      case isTrue hi =>
        rw [Option.bind_eq_bind, Option.bind_eq_some_iff] at h
        obtain ⟨q, hq, h⟩ := h
        by_cases hdst : (w.queues q).ctx = some d
        · rw [if_pos hdst] at h
          simp only [Option.bind_eq_bind, Option.bind_eq_some_iff] at h
          obtain ⟨u, hu, v, hv, h⟩ := h
          cases hv
          exact ((busRemoveQueue_rest hu).1.trans (attachedShift_loop u c i).1).trans
            (ih (i + 1) h)
        · rw [if_neg hdst] at h
          exact ih (i + 1) h
      case isFalse =>
        cases h
        exact TableLoop.refl _ c

/-- **`bus_detach` to the bus of the first entry** takes that entry out. -/
theorem busDetach_first (hpos : 0 < (w.ctxs c).attachedCount)
    (hq : (w.ctxs c).attached 0 = some q) (hd : (w.queues q).ctx = some d)
    (h : busDetach w c d = some w') :
    TableLoop w w' c ∧ (w'.ctxs c).attachedCount < (w.ctxs c).attachedCount
      ∧ ∃ u, busRemoveQueue w d q = some u
        ∧ busDetachLoop (w.ctxs c).attachedCount (u.updCtx c fun x => attachedShift x 0) c d 1
          = some w' := by
  rw [busDetach, busDetachLoop, if_pos hpos] at h
  simp only [hq, hd, if_pos, Option.bind_eq_bind, Option.bind_some,
    Option.bind_eq_some_iff] at h
  obtain ⟨u, hu, h⟩ := h
  have hrem := busRemoveQueue_rest (c := c) hu
  have hshift := attachedShift_loop u c 0
  have hrest := busDetachLoop_rest _ _ h
  refine ⟨(hrem.1.trans hshift.1).trans hrest, ?_, u, hu, h⟩
  have := hrest.count
  rw [hshift.2, hrem.2.1] at this
  omega

/-- **The last loop** destroys no more queues than there are entries from
its index on. -/
theorem busClearAttached_rest : ∀ (fuel : Nat) {w : World} (i : Nat),
    busClearAttached fuel w c i = some w' →
    TableLoop w w' c
      ∧ (clearVisits fuel w c i).length ≤ (w.ctxs c).attachedCount - i := by
  intro fuel
  induction fuel with
  | zero => exact fun _ h => by cases h
  | succ fuel ih =>
      intro w i h
      rw [busClearAttached] at h
      rw [clearVisits]
      split at h
      case isTrue hi =>
        simp only [Option.bind_eq_bind, Option.bind_eq_some_iff] at h
        obtain ⟨q, hq, d, hd, u, hu, v, hv, h⟩ := h
        obtain ⟨hloop, hlen⟩ := ih (i + 1) h
        have hdet : TableLoop w u c := busDetachLoop_rest _ _ hu
        have hdes : TableLoop u v c := (eventQueueDrain_rest _ (eventQueueDrain_of_destroy hv)).2
        refine ⟨(hdet.trans hdes).trans hloop, ?_⟩
        rw [if_pos hi, hq]
        simp only [hd, hu, hv, Option.bind_some, List.length_cons]
        have := (hdet.trans hdes).count
        omega
      case isFalse hi =>
        cases h
        rw [if_neg hi]
        exact ⟨TableLoop.refl _ c, Nat.zero_le _⟩

/-- **With two entries or more** it leaves one out. -/
theorem clearVisits_short (htwo : 2 ≤ (w.ctxs c).attachedCount) {fuel : Nat}
    (hq : (w.ctxs c).attached 0 = some q) (hd : (w.queues q).ctx = some d)
    (h : busClearAttached (fuel + 1) w c 0 = some w') :
    (clearVisits (fuel + 1) w c 0).length < (w.ctxs c).attachedCount := by
  rw [busClearAttached, if_pos (by omega)] at h
  simp only [hq, hd, Option.bind_eq_bind, Option.bind_some, Option.bind_eq_some_iff] at h
  obtain ⟨u, hu, v, hv, h⟩ := h
  have hless := (busDetach_first (by omega) hq hd hu).2.1
  have hdes : TableLoop u v c := (eventQueueDrain_rest _ (eventQueueDrain_of_destroy hv)).2
  have hlen := (busClearAttached_rest _ _ h).2
  have hle := hdes.count
  rw [clearVisits, if_pos (by omega), hq]
  simp only [hd, hu, hv, Option.bind_some, List.length_cons]
  omega

/-! ## One entry -/

/-- **With one entry**, whose queue `bus_remove_queue` can be trusted with,
the last loop removes the queue, destroys it and empties the table. -/
theorem BusInv.clearEntry (hi : BusInv w) (hone : (w.ctxs c).attachedCount = 1)
    (hq : (w.ctxs c).attached 0 = some q) (hd : (w.queues q).ctx = some d)
    (hrem : Removable w d q) (hp : q ∉ (w.ctxs d).pendingQueue) :
    ∃ w1 w', busClearAttached 2 w c 0 = some w' ∧ BusInv w' ∧ Detached w w1 c [q]
      ∧ Emptied w1 w' q ∧ (w'.ctxs c).attachedCount = 0 ∧ clearVisits 2 w c 0 = [q]
      ∧ ∀ x k, w'.queueNodes x k = w1.queueNodes x k := by
  obtain ⟨u, hcall, _, h1, hdet, hatt, hcount⟩ :=
    @BusInv.detachOne w c d q hi 0 (by omega) hd hrem
  obtain ⟨w1, hw1⟩ : ∃ w1, w1 = u.updCtx c fun x => attachedShift x 0 := ⟨_, rfl⟩
  rw [← hw1] at h1 hdet
  have hzero : (w1.ctxs c).attachedCount = 0 := by
    rw [hw1]
    simp [World.updCtx, attachedShift, hcount, hone]
  have hdetach : Ats.busDetach w c d = some w1 := by
    rw [Ats.busDetach, hone, Ats.busDetachLoop, hone, if_pos Nat.one_pos, hq]
    simp only [Option.bind_eq_bind, Option.bind_some, if_pos hd, hcall]
    rw [← hw1, Ats.busDetachLoop, if_neg (by rw [hzero]; exact Nat.not_lt_zero _)]
  have hlt : q < w1.nextQueue := by
    obtain ⟨p, hp, hlt, _⟩ := hi.attached c 0 (by omega)
    rw [hdet.nextQueue]
    exact (Option.some.inj (hq.symm.trans hp)) ▸ hlt
  obtain ⟨w', hdes, hem⟩ := h1.queue.eventQueueDestroy hlt
  have hn : ∀ x k, q ∉ w1.queueNodes x k :=
    fun x k hm => ((hdet.nodes x k q).mp hm).2 (List.mem_singleton_self q)
  have hpn : ∀ x, q ∉ (w1.ctxs x).pendingQueue := by
    intro x hm
    have hm' : q ∈ (w.ctxs x).pendingQueue := by rwa [hdet.ctxs x] at hm
    have hx : x = d := Option.some.inj ((hi.queue.pending x q hm').1.ctx.symm.trans hd)
    exact hp (hx ▸ hm')
  obtain ⟨h', hnodes⟩ := h1.emptyQueue hem.rest (fun p => ⟨(hem.self p).1, (hem.self p).2.1⟩)
    hem.others hem.ring hn hpn
  have hzero' : (w'.ctxs c).attachedCount = 0 := by
    rw [hem.rest]
    exact hzero
  refine ⟨w1, w', ?_, h', hdet, hem, hzero', ?_, hnodes⟩
  · rw [busClearAttached, hone, if_pos Nat.one_pos, hq]
    simp only [Option.bind_eq_bind, Option.bind_some, hd, hdetach, hdes]
    rw [busClearAttached, if_neg (by rw [hzero']; exact Nat.not_lt_zero _)]
  · rw [clearVisits, hone, if_pos Nat.one_pos, hq]
    simp only [hd, hdetach, hdes, Option.bind_some]
    rw [clearVisits, if_neg (by rw [hzero']; exact Nat.not_lt_zero _)]

/-! ## What `bus_clear` leaves behind -/

/-- **`bus_clear(c)` has left nothing behind**: each attached queue has been
removed from its bus, which keeps all its others, and destroyed once; nothing
is saved; no heap of `c` and not its pending list holds a queue; and as long
as nothing new comes to it, `c` returns nothing. -/
structure Cleared (w w' : World) (c : CtxId) : Prop where
  saved : (w'.ctxs c).savedEvent = none
  nodes : ∀ k, w'.queueNodes c k = []
  pending : (w'.ctxs c).pendingQueue = []
  removed : ∀ q ∈ attachedQueues w c,
    ∀ d, (∀ k, q ∉ w'.queueNodes d k) ∧ q ∉ (w'.ctxs d).pendingQueue
  destroyed : ∀ q ∈ attachedQueues w c, timesDestroyed w w' c q = 1 ∧ w'.contents q = []
  others : ∀ d, d ≠ c → ∀ k, HeapRep (w'.queueMem d k) (w'.queueNodes d k)
    ∧ ∀ p, p ∈ w'.queueNodes d k ↔ p ∈ w.queueNodes d k ∧ p ∉ attachedQueues w c
  quiet : ∀ ops, CleanRun w' ops → Along (BusOp.Leaves c) w' ops →
    ∃ v r, runOps w' ops = some (v, r) ∧ ∀ e, (c, e) ∉ r

/-- `c` has nothing pending and one attached queue at most, which is not
pending, and is in its heap or finds it empty. -/
def Clearable (w : World) (c : CtxId) : Prop :=
  (w.ctxs c).pendingQueue = [] ∧ (w.ctxs c).attachedCount ≤ 1
    ∧ ∀ q ∈ attachedQueues w c, ∀ d ∈ (w.queues q).ctx, d ≠ c →
      q ∉ (w.ctxs d).pendingQueue ∧ Removable w d q

instance (w : World) (c : CtxId) : Decidable (Clearable w c) :=
  inferInstanceAs (Decidable (_ ∧ _ ∧ ∀ q ∈ attachedQueues w c, ∀ d ∈ (w.queues q).ctx, _))

/-- The tables hold no queue twice, and nobody has a reference to a queue in
them. -/
structure Tables (w : World) : Prop where
  nodup : ∀ c, (attachedQueues w c).Nodup
  unreferenced : ∀ c, ∀ q ∈ attachedQueues w c, (w.queues q).refcount ≤ 0

theorem Tables.of_sublist (h : Tables w)
    (hsub : ∀ c, (attachedQueues w' c).Sublist (attachedQueues w c))
    (hr : ∀ p, (w'.queues p).refcount ≤ (w.queues p).refcount) : Tables w' where
  nodup := fun c => (hsub c).nodup (h.nodup c)
  unreferenced := fun c q hq =>
    Int.le_trans (hr q) (h.unreferenced c q ((hsub c).subset hq))

theorem Booted.tables (h : Booted w) : Tables w where
  nodup := fun c => by
    rw [attachedQueues_bare (h.ctxs c).attachedCount]
    exact List.nodup_nil
  unreferenced := fun c q hq => by
    rw [attachedQueues_bare (h.ctxs c).attachedCount] at hq
    cases hq

theorem BusInv.lt_of_attached (hi : BusInv w) (hq : q ∈ attachedQueues w c) :
    q < w.nextQueue := by
  obtain ⟨i, hi', hqi⟩ := List.mem_filterMap.mp hq
  obtain ⟨p, hp, hlt, _⟩ := hi.attached c i (List.mem_range.mp hi')
  exact (Option.some.inj (hqi.symm.trans hp)) ▸ hlt

/-- **Each call keeps the tables.** -/
theorem BusOp.Did.tables {op : BusOp} {r : List (CtxId × EventId)} (hd : op.Did w w' r)
    (hi : BusInv w) (h : Tables w) : Tables w' := by
  have slots : ∀ {u : World}, SameSlots w u → (∀ p, (u.queues p).refcount
      = (w.queues p).refcount) → Tables u := fun hs hr =>
    h.of_sublist (fun c => by rw [hs.attachedQueues c]) (fun p => by rw [hr])
  cases op with
  | addQueue d q => exact slots hd.1.sameSlots hd.1.refcount
  | removeQueue d q =>
      obtain ⟨_, _, rfl | ⟨ys, hset⟩⟩ := hd
      · exact h
      · exact slots hset.frame.sameSlots hset.frame.refcount
  | push q e =>
      obtain ⟨hpush | ⟨rfl, _⟩, _⟩ := hd
      · exact slots hpush.sameSlots hpush.refcount
      · exact h
  | addTimer d t => exact slots hd.1.frame.sameSlots (fun p => by rw [hd.1.frame.queues])
  | removeTimer d t =>
      obtain ⟨_, _, rfl | ⟨ys, hset⟩⟩ := hd
      · exact h
      · exact slots hset.frame.sameSlots (fun p => by rw [hset.frame.queues])
  | attach src dst =>
      obtain ⟨hatt, _⟩ := hd
      have hne : ∀ {c p}, p ∈ attachedQueues w c → p ≠ w.nextQueue :=
        fun hp => Nat.ne_of_lt (hi.lt_of_attached hp)
      refine ⟨fun c => ?_, fun c p hp => ?_⟩
      · rw [hatt.table]
        split
        · refine List.nodup_append.mpr ⟨h.nodup c, List.nodup_singleton _, ?_⟩
          intro x hx y hy
          rw [List.mem_singleton] at hy
          rw [hy]
          exact hne hx
        · exact h.nodup c
      · by_cases hnew : p = w.nextQueue
        · rw [hnew, hatt.refcount]
        · rw [hatt.others p hnew]
          rw [hatt.table] at hp
          split at hp
          · rcases List.mem_append.mp hp with hp | hp
            · exact h.unreferenced c p hp
            · exact absurd (List.mem_singleton.mp hp) hnew
          · exact h.unreferenced c p hp
  | detach src dst =>
      obtain ⟨hdet, _⟩ := hd
      refine h.of_sublist (fun c => ?_) (fun p => by rw [hdet.queues])
      by_cases hc : c = src
      · rw [hc]
        exact hdet.table
      · obtain ⟨ha, hn⟩ := hdet.attached_ne c hc
        rw [attachedQueues, ha, hn, attachedQueues]
  | setTime d time => exact slots hd.1.sameSlots (fun p => by rw [hd.1.rest])
  | setExchangeTime d time => exact slots hd.1.sameSlots (fun p => by rw [hd.1.rest])
  | dequeue d now =>
      obtain ⟨w1, w2, o, hdeq, _⟩ := hd
      have hs := hdeq.run.refsStand
      exact h.of_sublist (fun c => by rw [hs.tables c]) (fun p => by rw [hs.refcount])

/-! ## `bus_clear` -/

/-- The table after the heaps have been cleared. -/
theorem HeapsCleared.tables (h : HeapsCleared w v c) (d : CtxId) :
    attachedQueues v d = attachedQueues w d := by
  rw [attachedQueues, h.loosened.proj d Ctx.attached (fun _ _ _ _ _ => rfl),
    h.loosened.proj d Ctx.attachedCount (fun _ _ _ _ _ => rfl), attachedQueues]

theorem HeapsCleared.count (h : HeapsCleared w v c) (d : CtxId) :
    (v.ctxs d).attachedCount = (w.ctxs d).attachedCount :=
  h.loosened.proj d Ctx.attachedCount (fun _ _ _ _ _ => rfl)

theorem HeapsCleared.pending (h : HeapsCleared w v c) (d : CtxId) :
    (v.ctxs d).pendingQueue = (w.ctxs d).pendingQueue :=
  h.loosened.proj d Ctx.pendingQueue (fun _ _ _ _ _ => rfl)

/-- **A clearable bus without a table.** -/
theorem BusInv.busClear_nil (hi : BusInv w) (ht : Tables w)
    (hp : (w.ctxs c).pendingQueue = []) (hzero : (w.ctxs c).attachedCount = 0) :
    ∃ w', Ats.busClear w c = some w' ∧ BusInv w' ∧ Tables w' ∧ Cleared w w' c := by
  obtain ⟨v, hheaps, hv⟩ := hi.busClearHeaps c
  have hzero' : (v.ctxs c).attachedCount = 0 := (hv.count c).trans hzero
  have hloop : busClearAttached ((v.ctxs c).attachedCount + 1) v c 0 = some v := by
    rw [busClearAttached, if_neg (by rw [hzero']; exact Nat.lt_irrefl 0)]
  have hnil := attachedQueues_bare hzero
  have hbare : Bare v c := ⟨⟨hv.saved, (hv.pending c).trans hp, hv.nodes⟩, hv.timers⟩
  refine ⟨v, ?_, hv.inv, ht.of_sublist (fun d => by rw [hv.tables]) hv.loosened.refcount, ?_⟩
  · rw [busClear_eq, hheaps, Option.bind_some]
    exact busClearTable_of hloop hzero'
  · refine ⟨hv.saved, hv.nodes, hbare.pending, fun q hq => ?_, fun q hq => ?_,
      fun d hd k => ⟨hv.inv.queue.heap d k, fun p => ?_⟩,
      fun ops hops hleave => hv.inv.bareRun hbare hops hleave⟩
    · rw [hnil] at hq
      cases hq
    · rw [hnil] at hq
      cases hq
    · rw [hv.loosened.nodes_ne d hd, hnil]
      simp

/-- **A clearable bus with one attached queue.** -/
theorem BusInv.busClear_one (hi : BusInv w) (ht : Tables w) (hc : Clearable w c)
    (hone : (w.ctxs c).attachedCount = 1) :
    ∃ w', Ats.busClear w c = some w' ∧ BusInv w' ∧ Tables w' ∧ Cleared w w' c := by
  obtain ⟨v, hheaps, hv⟩ := hi.busClearHeaps c
  have hl := hv.loosened
  obtain ⟨q, hq, hlt, d, hd⟩ := hi.attached c 0 (by omega)
  have htable : attachedQueues w c = [q] := by
    rw [attachedQueues, hone]
    simp [hq]
  have hqt : q ∈ attachedQueues w c := by
    rw [htable]
    exact List.mem_singleton_self q
  have hone' : (v.ctxs c).attachedCount = 1 := (hv.count c).trans hone
  have hq' : (v.ctxs c).attached 0 = some q := by
    rw [hl.proj c Ctx.attached (fun _ _ _ _ _ => rfl)]
    exact hq
  have hd' : (v.queues q).ctx = some d := (hl.ctx q).trans hd
  -- the queue stands in no heap of this bus any more, and where the caller said elsewhere
  have hwhere : Removable v d q ∧ q ∉ (v.ctxs d).pendingQueue := by
    by_cases hdc : d = c
    · subst hdc
      refine ⟨Or.inr (hv.nodes _), ?_⟩
      rw [hv.pending, hc.1]
      exact List.not_mem_nil
    · obtain ⟨hpend, hrem⟩ := hc.2.2 q hqt d hd hdc
      rw [Removable, hl.category, hl.nodes_ne d hdc, hv.pending]
      exact ⟨hrem, hpend⟩
  obtain ⟨w1, w', hloop, h', hdet, hem, hzero, hvisits, hnodes⟩ :=
    hv.inv.clearEntry hone' hq' hd' hwhere.1 hwhere.2
  have hctxs : ∀ x, w'.ctxs x = w1.ctxs x := fun x => by rw [hem.rest]
  have hpend : ∀ x, (w'.ctxs x).pendingQueue = (w.ctxs x).pendingQueue := by
    intro x
    rw [hctxs, hdet.ctxs, ← hv.pending]
  have hnode : ∀ x k p, p ∈ w'.queueNodes x k ↔ p ∈ v.queueNodes x k ∧ p ≠ q := by
    intro x k p
    rw [hnodes, hdet.nodes, List.mem_singleton]
  have hbare : Bare w' c := by
    refine ⟨⟨?_, (hpend c).trans hc.1, fun k => ?_⟩, fun j => ?_⟩
    · rw [hctxs, hdet.ctxs]
      exact hv.saved
    · refine List.eq_nil_iff_forall_not_mem.mpr (fun p hp => ?_)
      have := ((hnode c k p).mp hp).1
      rw [hv.nodes] at this
      cases this
    · have hst : SameTimers v w' := by
        refine ⟨fun t => ?_, fun t => ?_, ?_, fun x => ?_⟩
        · rw [hem.rest, hdet.reminders]
        · rw [hem.rest, hdet.reminders]
        · rw [hem.rest, hdet.timerNode]
        · rw [hctxs, hdet.ctxs]
      rw [hst.timerNodes]
      exact hv.timers j
  -- no table gains an entry
  have htab' : ∀ x, (attachedQueues w' x).Sublist (attachedQueues w x) := by
    intro x
    rw [← hv.tables x, attachedQueues, hctxs, ← attachedQueues]
    by_cases hx : x = c
    · rw [hx]
      exact hdet.table
    · obtain ⟨ha, hn⟩ := hdet.attached_ne x hx
      rw [attachedQueues, ha, hn, attachedQueues]
  refine ⟨w', ?_, h', ht.of_sublist htab' (fun p => ?_), ?_⟩
  · rw [busClear_eq, hheaps, Option.bind_some]
    exact busClearTable_of (by rw [hone']; exact hloop) hzero
  · rw [(hem.self p).2.2, hdet.queues]
    exact hl.refcount p
  refine ⟨hbare.saved, hbare.nodes, hbare.pending, fun p hp x => ?_, fun p hp => ?_,
    fun x hx k => ⟨h'.queue.heap x k, fun p => ?_⟩,
    fun ops hops hleave => h'.bareRun hbare hops hleave⟩
  · rw [htable, List.mem_singleton] at hp
    subst hp
    refine ⟨fun k hm => ((hnode x k p).mp hm).2 rfl, fun hm => ?_⟩
    rw [hpend] at hm
    have hxd : x = d := Option.some.inj ((hi.queue.pending x p hm).1.ctx.symm.trans hd)
    rw [hv.pending] at hwhere
    exact hwhere.2 (hxd ▸ hm)
  · rw [htable, List.mem_singleton] at hp
    subst hp
    have hfreed : w'.log.count (.freeQueue p) = w.log.count (.freeQueue p) := by
      obtain ⟨acts, hlog, hacts⟩ := hem.log
      rw [hlog, List.count_append, count_ofEvent hacts, Nat.add_zero, hdet.log]
      exact hl.freed p (ht.unreferenced c p hqt)
    refine ⟨?_, hem.ring.toList_eq⟩
    rw [timesDestroyed, hfreed, tableVisits, hheaps]
    simp only [hone', hvisits, Nat.sub_self, Nat.add_zero]
    simp
  · rw [hnode, hl.nodes_ne x hx, htable, List.mem_singleton]

/-- **`bus_clear` of a clearable bus** leaves nothing behind. -/
theorem BusInv.busClear (hi : BusInv w) (ht : Tables w) (hc : Clearable w c) :
    ∃ w', Ats.busClear w c = some w' ∧ BusInv w' ∧ Tables w' ∧ Cleared w w' c := by
  rcases Nat.eq_zero_or_pos (w.ctxs c).attachedCount with hzero | hpos
  · exact hi.busClear_nil ht hc.1 hzero
  · have hle := hc.2.1
    exact hi.busClear_one ht hc (by omega)

/-! ## Only then -/

theorem BusInv.length_attachedQueues (hi : BusInv w) (c : CtxId) :
    (attachedQueues w c).length = (w.ctxs c).attachedCount := by
  have key : ∀ n, n ≤ (w.ctxs c).attachedCount →
      ((List.range n).filterMap (w.ctxs c).attached).length = n := by
    intro n
    induction n with
    | zero => exact fun _ => rfl
    | succ n ih =>
        intro hn
        obtain ⟨q, hq, _⟩ := hi.attached c n (by omega)
        rw [List.range_succ, List.filterMap_append, List.length_append, ih (by omega)]
        simp [hq]
  exact key _ (Nat.le_refl _)

/-- **Where `bus_clear` leaves nothing behind**, there was one attached
queue at most. -/
theorem BusInv.count_of_cleared (hi : BusInv w) (ht : Tables w)
    (h : Ats.busClear w c = some w') (hcl : Cleared w w' c) :
    (w.ctxs c).attachedCount ≤ 1 := by
  by_contra htwo
  obtain ⟨v, hheaps, hv⟩ := hi.busClearHeaps c
  rw [busClear_eq, hheaps, Option.bind_some, busClearTable, Option.bind_eq_bind,
    Option.bind_eq_some_iff] at h
  obtain ⟨u, hloop, hw⟩ := h
  cases hw
  have hcount := hv.count c
  obtain ⟨q, hq, _, d, hd⟩ := hv.inv.attached c 0 (by omega)
  have hshort := clearVisits_short (by omega) hq hd hloop
  -- yet each attached queue is among those destroyed
  have hsub : attachedQueues w c ⊆ clearVisits ((v.ctxs c).attachedCount + 1) v c 0 := by
    intro p hp
    have hone := (hcl.destroyed p hp).1
    have hfreed : u.log.count (.freeQueue p) = w.log.count (.freeQueue p) :=
      ((busClearAttached_rest _ _ hloop).1.freed p).trans
        (hv.loosened.freed p (ht.unreferenced c p hp))
    have hlog : (u.updCtx c fun x => { x with attachedCount := 0 }).log = u.log := rfl
    rw [timesDestroyed, hlog, hfreed, Nat.sub_self, Nat.add_zero, tableVisits, hheaps] at hone
    exact List.count_pos_iff.mp (by rw [hone]; exact Nat.one_pos)
  have hle := (List.subperm_of_subset (ht.nodup c) hsub).length_le
  rw [hi.length_attachedQueues, ← hcount] at hle
  omega

/-- ... and nothing was pending. -/
theorem BusInv.pending_of_cleared (hi : BusInv w) (h : Ats.busClear w c = some w') (d : CtxId) :
    (w'.ctxs d).pendingQueue = (w.ctxs d).pendingQueue := by
  obtain ⟨v, hheaps, hv⟩ := hi.busClearHeaps c
  rw [busClear_eq, hheaps, Option.bind_some, busClearTable, Option.bind_eq_bind,
    Option.bind_eq_some_iff] at h
  obtain ⟨u, hloop, hw⟩ := h
  cases hw
  have hlast := u.updCtx_proj c d Ctx.pendingQueue
    (f := fun x => { x with attachedCount := 0 }) (fun _ => rfl)
  exact hlast.trans (((busClearAttached_rest _ _ hloop).1.pending d).trans (hv.pending d))

/-- ... and its only attached queue was in its heap, or found it empty. -/
theorem BusInv.removable_of_cleared (hi : BusInv w) (h : Ats.busClear w c = some w')
    (hcl : Cleared w w' c) (hone : (w.ctxs c).attachedCount = 1)
    (hq : (w.ctxs c).attached 0 = some q) (hd : (w.queues q).ctx = some d) (hdc : d ≠ c) :
    Removable w d q := by
  obtain ⟨v, hheaps, hv⟩ := hi.busClearHeaps c
  have hl := hv.loosened
  have hone' : (v.ctxs c).attachedCount = 1 := (hv.count c).trans hone
  have hq' : (v.ctxs c).attached 0 = some q := by
    rw [hl.proj c Ctx.attached (fun _ _ _ _ _ => rfl)]
    exact hq
  have hd' : (v.queues q).ctx = some d := (hl.ctx q).trans hd
  rw [busClear_eq, hheaps, Option.bind_some, busClearTable, Option.bind_eq_bind,
    Option.bind_eq_some_iff, hone', busClearAttached, if_pos (by omega)] at h
  simp only [hq', hd', Option.bind_eq_bind, Option.bind_some, Option.bind_eq_some_iff] at h
  obtain ⟨u, ⟨u1, hdet, u2, hdes, hloop⟩, hw⟩ := h
  cases hw
  obtain ⟨_, hless, u0, hrem, hrest⟩ := busDetach_first (by omega) hq' hd' hdet
  -- the rest of both loops does nothing
  have hshift := (attachedShift_loop u0 c 0).2
  have hcount0 := (busRemoveQueue_rest (c := c) hrem).2.1
  rw [hone', Ats.busDetachLoop, if_neg (by omega)] at hrest
  cases hrest
  have hdrain := (eventQueueDrain_rest (c := c) _ (eventQueueDrain_of_destroy hdes))
  have hzero : (u2.ctxs c).attachedCount = 0 := by
    have := hdrain.2.count
    omega
  rw [busClearAttached, if_neg (by omega)] at hloop
  cases hloop
  -- so the heap is as `heap_remove` has left it
  have hheap : (((u.updCtx c fun x => { x with attachedCount := 0 }).ctxs d).queueHeap)
      = (u0.ctxs d).queueHeap := by
    rw [World.updCtx_proj u c d Ctx.queueHeap (f := fun x => { x with attachedCount := 0 })
      (fun _ => rfl), hdrain.1]
    exact World.updCtx_proj u0 c d Ctx.queueHeap (f := fun x => attachedShift x 0)
      (fun _ => rfl)
  rw [busRemoveQueue, queueHeapRemove, Option.bind_eq_bind, Option.bind_eq_some_iff] at hrem
  obtain ⟨m, hm, he⟩ := hrem
  cases he
  have hless' : m.heap.nelts = ((v.ctxs d).queueHeap (v.queues q).category).nelts - 1 :=
    heapRemove_nelts hm
  obtain ⟨hrep, hmem⟩ := hcl.others d hdc (v.queues q).category
  have hnelts := hrep.nelts
  have hset : ((((v.setQueueMem d (v.queues q).category m).ctxs d).queueHeap
      (v.queues q).category)).nelts = m.heap.nelts := by
    simp [World.setQueueMem, World.updCtx]
  have hafter : ((((u.updCtx c fun x => { x with attachedCount := 0 }).ctxs d).queueHeap
      (v.queues q).category)).nelts = m.heap.nelts := by
    rw [hheap]
    exact hset
  by_contra hout
  rw [Removable, not_or, ← hl.category] at hout
  have htable : attachedQueues w c = [q] := by
    rw [attachedQueues, hone]
    simp [hq]
  have hperm : ((u.updCtx c fun x => { x with attachedCount := 0 }).queueNodes d
      (v.queues q).category).Perm (w.queueNodes d (v.queues q).category) := by
    refine (List.perm_ext_iff_of_nodup hrep.nodup (hi.queue.heap d _).nodup).mpr (fun p => ?_)
    rw [hmem, htable, List.mem_singleton]
    constructor
    · exact And.left
    · intro hp
      refine ⟨hp, ?_⟩
      rintro rfl
      exact hout.1 hp
  have hpos := List.length_pos_iff.mpr hout.2
  have hlen := hperm.length_eq
  rw [hv.inv.queue.nelts, hl.nodes_ne d hdc] at hless'
  have hnelts' : m.heap.nelts = ((u.updCtx c fun x => { x with attachedCount := 0 }).queueNodes d
      (v.queues q).category).length := hafter.symm.trans hnelts
  omega

/-- **`bus_clear` leaves nothing behind exactly where the bus is clearable.** -/
theorem BusInv.cleared_iff (hi : BusInv w) (ht : Tables w) (c : CtxId) :
    (∃ w', Ats.busClear w c = some w' ∧ Cleared w w' c) ↔ Clearable w c := by
  constructor
  · rintro ⟨w', h, hcl⟩
    have hcount := hi.count_of_cleared ht h hcl
    refine ⟨?_, hcount, fun q hq d hd hdc => ⟨fun hm => ?_, ?_⟩⟩
    · rw [← hi.pending_of_cleared h]
      exact hcl.pending
    · rw [← hi.pending_of_cleared h] at hm
      exact (hcl.removed q hq d).2 hm
    · obtain ⟨i, hlt, hqi⟩ := List.mem_filterMap.mp hq
      rw [List.mem_range] at hlt
      have hzero : i = 0 := by omega
      exact hi.removable_of_cleared h hcl (by omega) (hzero ▸ hqi) hd hdc
  · intro hc
    obtain ⟨w', h, _, _, hcl⟩ := hi.busClear ht hc
    exact ⟨w', h, hcl⟩

/-! ## Runs of calls and clears -/

/-- A call, or `bus_clear`. -/
inductive LifeOp
  | call (op : BusOp)
  | clear (c : CtxId)

def LifeOp.exec (w : World) : LifeOp → Option World
  | .call op => (op.exec w).map Prod.fst
  | .clear c => busClear w c

/-- Calls are clean, and clears are of busses that are clearable. -/
def LifeOp.Clean (w : World) : LifeOp → Prop
  | .call op => op.Clean w
  | .clear c => Clearable w c

instance LifeOp.Clean.decide (w : World) : (op : LifeOp) → Decidable (op.Clean w)
  | .call op => inferInstanceAs (Decidable (op.Clean w))
  | .clear c => inferInstanceAs (Decidable (Clearable w c))

/-- **In every state that clean calls and clears lead to**, `bus_clear(c)`
leaves nothing behind if and only if `c` is clearable. -/
theorem lifeRun_cleared_iff (hw : Booted w) (ops : List LifeOp)
    (hrun : GuardedRun.Guarded LifeOp.exec (fun v op => op.Clean v) w ops) :
    ∃ w', GuardedRun.run LifeOp.exec w ops = some w' ∧
      ∀ c, (∃ w'', busClear w' c = some w'' ∧ Cleared w' w'' c) ↔ Clearable w' c := by
  obtain ⟨w', hcall, hi, ht⟩ := GuardedRun.Guarded.total (I := fun v => BusInv v ∧ Tables v)
    (fun v op h hop => by
      cases op with
      | call op =>
          obtain ⟨v', r, hexec, hi', hd⟩ := h.1.call hop
          exact ⟨v', by rw [LifeOp.exec, hexec]; rfl, hi', hd.tables h.1 h.2⟩
      | clear c =>
          obtain ⟨v', hexec, hi', ht', _⟩ := h.1.busClear h.2 hop
          exact ⟨v', hexec, hi', ht'⟩) ops hrun ⟨hw.inv, hw.tables⟩
  exact ⟨w', hcall, hi.cleared_iff ht⟩

/-- A bus that is cleared twice, each time with one attached queue. -/
theorem lifeRun_cleared_iff_seven :
    ∃ w', GuardedRun.run LifeOp.exec
        (World.fresh .simulation 0 [(4, .market)] (fun _ => ⟨1, askEvent, 0, 5⟩))
        [.call (.attach 0 1), .call (.addQueue 0 0), .call (.push 0 7), .call (.dequeue 0 0),
          .call (.dequeue 1 0), .clear 0, .call (.attach 0 1)] = some w' ∧
      ∀ c, (∃ w'', busClear w' c = some w'' ∧ Cleared w' w'' c) ↔ Clearable w' c :=
  lifeRun_cleared_iff (World.fresh_booted (by simp)) _ (by decide +kernel)

/-- Of two attached queues `bus_clear` destroys one: the other is not removed
from its bus. -/
theorem second_attached_kept :
    ∃ w' w'', GuardedRun.run LifeOp.exec (World.fresh .simulation 0 [] (fun _ => ⟨0, 0, 0, 0⟩))
        [.call (.attach 0 1), .call (.attach 0 2)] = some w'
      ∧ GuardedRun.Guarded LifeOp.exec (fun v op => op.Clean v)
        (World.fresh .simulation 0 [] (fun _ => ⟨0, 0, 0, 0⟩))
        [.call (.attach 0 1), .call (.attach 0 2)]
      ∧ busClear w' 0 = some w'' ∧ attachedQueues w' 0 = [0, 1]
      ∧ timesDestroyed w' w'' 0 1 = 0 ∧ ¬ Cleared w' w'' 0 := by
  have hrun : (GuardedRun.run LifeOp.exec
      (World.fresh .simulation 0 [] (fun _ => ⟨0, 0, 0, 0⟩))
      [.call (.attach 0 1), .call (.attach 0 2)]).any (fun w' =>
        (busClear w' 0).any fun w'' => decide (attachedQueues w' 0 = [0, 1]
          ∧ timesDestroyed w' w'' 0 1 = 0)) = true := by
    decide +kernel
  rw [Option.any_eq_true] at hrun
  obtain ⟨w', hcall, hclear⟩ := hrun
  rw [Option.any_eq_true] at hclear
  obtain ⟨w'', hclear, hw⟩ := hclear
  rw [decide_eq_true_iff] at hw
  refine ⟨w', w'', hcall, by decide +kernel, hclear, hw.1, hw.2, fun hcl => ?_⟩
  have hone := (hcl.destroyed 1 (by rw [hw.1]; simp)).1
  rw [hw.2] at hone
  cases hone

end Ats
