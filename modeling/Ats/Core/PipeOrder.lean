import Ats.Core.PipeMerge

/-!
# PipeOrder: the pipes stay in order

The counterpart of `TimerOrder` for the queue heaps. A queue's key is the
timestamp of its head event, so the order rests on timestamps that no step
changes: `bus_simualtion_dequeue` changes that of a late event it keeps.
-/

namespace Ats

variable {w w' : World} {c d : CtxId} {k : QueueCategory} {q p : QueueId} {e : EventId}
  {kind : StepKind}

/-- Each queue heap is in order. -/
def PipesOrdered (w : World) : Prop :=
  ∀ c k, LevelHeap.Ordered (queueKey w) (w.queueNodes c k)

/-- Timestamps have not changed. -/
def SameStamps (w w' : World) : Prop := ∀ e, stamp w' e = stamp w e

theorem Booted.pipesOrdered (h : Booted w) : PipesOrdered w := by
  intro c k
  rw [h.queueNodes]
  intro i _ a b ha _
  cases ha

theorem queueKey_eq (hst : SameStamps w w') (hc : w'.contents q = w.contents q)
    (hid : (w'.queues q).startId = (w.queues q).startId) : queueKey w' q = queueKey w q := by
  have hs : (w'.events ((w.contents q).headD 0)).timestamp
      = (w.events ((w.contents q).headD 0)).timestamp := hst _
  rw [queueKey, hc, hid, hs, queueKey]

theorem PipesOrdered.of_same (h : PipesOrdered w) (hq : SameQueues w w')
    (hid : ∀ p, (w'.queues p).startId = (w.queues p).startId) (hst : SameStamps w w') :
    PipesOrdered w' := by
  intro d j
  rw [hq.queueNodes]
  exact (h d j).congr (fun a _ => queueKey_eq hst (hq.contents a) (hid a))

theorem PipesOrdered.pop (h : PipesOrdered w) (hp : PipePop w w' c k q e) (hi : QueueInv w) :
    PipesOrdered w' := by
  intro d j
  by_cases hd : d = c ∧ j = k
  · obtain ⟨rfl, rfl⟩ := hd
    exact hp.order (h d j)
  · exact hp.order_ne hi (by tauto) (h d j)

/-- **Each step** that leaves timestamps alone keeps the heaps in order. -/
theorem BusStep.pipesOrdered (hs : BusStep kind w w') (hi : BusInv w)
    (hst : SameStamps w w') (h : PipesOrdered w) : PipesOrdered w' := by
  cases hs with
  | add _ _ hadd => exact fun d j => hadd.order d j (h d j)
  | reenter hpend hadd =>
      rename_i x q rest
      intro d j
      refine hadd.order d j ?_
      rw [(hi.queue.unpend hpend).2.1]
      exact h d j
  | push hpush => exact fun d j => hpush.order hi.queue (h d j)
  | drop hpop hmode hskip hsaved =>
      refine (h.pop hpop hi.queue).of_same ?_ (fun _ => rfl) (fun _ => rfl)
      refine SameQueues.note ?_ _
      exact updCtx_sameQueues _ _ (fun _ => ⟨rfl, rfl⟩)
  | save hpop hsaved hts =>
      refine (h.pop hpop hi.queue).of_same (busSave_sameQueues _ _ _ _ _) (fun _ => rfl) ?_
      intro x
      rw [hst x, stamp, stamp, hpop.frame.events]
  | give hpop hk => exact fun d j => h.pop hpop hi.queue d j
  | fire hpop =>
      refine h.of_same (hpop.frame.sameQueues.note _) (fun p => ?_) hst
      exact congrArg EventQueue.startId (congrFun hpop.frame.queues p)
  | release hun =>
      refine h.of_same (busUnsave_sameQueues hun) (fun p => ?_) hst
      obtain ⟨_, _, _, rfl⟩ := busUnsave_eq hun
      rfl
  | forward hlt hatt hpush =>
      rename_i x i q e
      have hev : SameStamps w (eventRef w e) :=
        fun y => w.updEvent_proj e y Event.timestamp (fun _ => rfl)
      have h1 : PipesOrdered (eventRef w e) := h.of_same
        ⟨fun _ => rfl, fun _ => rfl, fun _ => rfl, rfl, rfl, fun _ => rfl, fun _ => rfl⟩
        (fun _ => rfl) hev
      have hi1 : BusInv (eventRef w e) := hi.updEvent e _
      exact fun d j => hpush.order hi1.queue (h1 d j)
  | overrun hlt hatt hfull =>
      exact h.of_same ⟨fun _ => rfl, fun _ => rfl, fun _ => rfl, rfl, rfl, fun _ => rfl,
        fun _ => rfl⟩ (fun _ => rfl) hst

/-- **The queue that is served holds the oldest head** of its pipe. -/
theorem PipesOrdered.first (h : PipesOrdered w) (hq : (w.queueNodes c k).head? = some q)
    (hp : p ∈ w.queueNodes c k) :
    stamp w ((w.contents q).headD 0) ≤ stamp w ((w.contents p).headD 0) := by
  have hle := (h c k).root_le_of_mem (by rw [← List.head?_eq_getElem?]; exact hq) hp
  rw [queueKey, queueKey, Prod.Lex.toLex_le_toLex] at hle
  rcases hle with hle | ⟨hle, _⟩
  · exact Nat.le_of_lt hle
  · exact Nat.le_of_eq hle

end Ats
