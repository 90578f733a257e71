import Ats.Core.Exchange
import Ats.Core.Mirror
import Ats.Core.Teardown

/-!
# Readiness: what is left on a bus, and what comes to it

Whether `bus_dequeue` is going to leave events behind can be told before the
call: a bus holds one event at most once the market block has skipped what it
skips, and no timer goes first. What comes to the bus afterwards is what other
calls append to its queues.
-/

namespace Ats

variable {w w' v w1 w2 : World} {c d : CtxId} {k : QueueCategory} {q : QueueId} {e : EventId}
  {now : Nat} {o : Option EventId}

/-! ## The last event of a bus -/

/-- The number of events in the heaps and the look-ahead of bus `c`. -/
def eventsHeld (w : World) (c : CtxId) : Nat :=
  (w.ctxs c).savedEvent.toList.length + busBacklog w c .market + busBacklog w c .execution
    + busBacklog w c .service + busBacklog w c .command

/-- The saved event is going to be copied to a queue of its own bus. -/
def copiesBack (w : World) (c : CtxId) : Bool :=
  (w.ctxs c).mode = .simulation && (w.ctxs c).savedEvent.any (Forwarded w ·)
    && (attachedQueues w c).any fun q => (w.queues q).ctx = some c

/-- **What `bus_dequeue` is going to return is the last event of the bus**:
nothing, a timer where there is no event, or the only event. -/
def lastOnBus (w : World) (c : CtxId) (now : Nat) : Bool :=
  (busLook w c now).any fun w =>
    match busSource w c now with
    | .nothing => true
    | .timer _ => eventsHeld w c = 0
    | .pipe _ => eventsHeld w c = 1
    | .saved => eventsHeld w c = 1 && !copiesBack w c

theorem QueueInv.busBacklog_eq_zero (h : QueueInv w) (hz : busBacklog w c k = 0) :
    w.queueNodes c k = [] := by
  refine List.eq_nil_iff_forall_not_mem.mpr fun q hq => ?_
  rw [busBacklog, List.sum_eq_zero_iff_forall_eq_nat] at hz
  have hlen := hz _ (List.mem_map_of_mem hq)
  exact (h.linked c k q hq).nonempty (List.length_eq_zero_iff.mp hlen)

/-- A bus that holds no event, its pending queues being in. -/
theorem QueueInv.drained_of_held (h : QueueInv w) (hpend : (w.ctxs c).pendingQueue = [])
    (hz : eventsHeld w c = 0) : Drained w c := by
  rw [eventsHeld] at hz
  refine ⟨?_, hpend, fun k => h.busBacklog_eq_zero ?_⟩
  · rw [← Option.toList_eq_nil_iff]
    exact List.length_eq_zero_iff.mp (by omega)
  · cases k <;> omega

/-- The only event, in a pipe. -/
theorem PipePop.drained (h : PipePop w v c k q e) (hi : QueueInv w) (hi' : QueueInv v)
    (hpend : (w.ctxs c).pendingQueue = []) (hone : eventsHeld w c = 1) : Drained v c := by
  have hless := h.backlog hi
  rw [eventsHeld] at hone
  refine ⟨?_, (h.frame.pendingQueue c).trans hpend, fun j => ?_⟩
  · rw [h.frame.savedEvent, ← Option.toList_eq_nil_iff]
    refine List.length_eq_zero_iff.mp ?_
    cases k <;> omega
  · by_cases hj : j = k
    · subst hj
      refine hi'.busBacklog_eq_zero ?_
      cases j <;> omega
    · rw [h.nodes_ne c j (.inr hj)]
      refine hi.busBacklog_eq_zero ?_
      cases j <;> cases k <;> first | omega | exact absurd rfl hj

/-- The only event, in the look-ahead. -/
theorem QueueInv.drained_of_saved (hi : QueueInv w) (hpend : (w.ctxs c).pendingQueue = [])
    (hsaved : (w.ctxs c).savedEvent = some e) (q : QueueId) (hone : eventsHeld w c = 1) :
    Drained ((w.updCtx c fun x => { x with savedEvent := none, savedFrom := none }).note
      (.give c .market q e)) c := by
  have hsame := updCtx_sameQueues w c
    (f := fun x => { x with savedEvent := none, savedFrom := none }) (fun _ => ⟨rfl, rfl⟩)
  rw [eventsHeld, hsaved, Option.toList_some, List.length_singleton] at hone
  refine ⟨by simp [World.note, World.updCtx], (hsame.pending c).trans hpend, fun k => ?_⟩
  refine (hsame.queueNodes c k).trans (hi.busBacklog_eq_zero ?_)
  cases k <;> omega

/-- Copies to other buses. -/
theorem BusRun.apart_of_forward (hr : BusRun {.forward d, .overrun d} w w')
    (hfar : ∀ q ∈ attachedQueues w d, (w.queues q).ctx ≠ some c) : Apart w w' c := by
  refine hr.keeps (P := fun v => Apart w v c) (fun s hm v v' _ _ hs h => h.trans ?_)
    (Apart.refl w c)
  cases hs with
  | forward hlt hatt hpush =>
      rename_i x i q e
      obtain rfl : x = d := by simpa using hm
      have href : Apart v (eventRef v e) c :=
        ⟨rfl, rfl, fun _ => rfl, fun _ => rfl, fun _ => rfl, fun _ => rfl⟩
      refine href.trans (hpush.apart ?_)
      show (v.queues q).ctx ≠ some c
      rw [h.ctx]
      refine hfar q ?_
      rw [← h.tables]
      exact List.mem_filterMap.mpr ⟨i, List.mem_range.mpr hlt, hatt⟩
  | overrun _ _ _ =>
      exact ⟨rfl, rfl, fun _ => rfl, fun _ => rfl, fun _ => rfl, fun _ => rfl⟩
  | _ => rcases hm with hm | hm <;> cases hm

/-- **`bus_dequeue` leaves nothing behind** where what it returns is the last
event of the bus. -/
theorem Dequeued.drained_of_last (h : Dequeued w c now w1 w2 w' o)
    (hlook : busLook w c now = some w2) (hlast : lastOnBus w c now = true) : Drained w' c := by
  have hi2 := h.look.run.inv
  have hspec := busSource_spec w2 c now
  have hserved := h.served
  rw [lastOnBus, hlook, Option.any_some] at hlast
  generalize hsrc : busSource w2 c now = src at hlast hserved hspec
  cases hserved with
  | timer hpop =>
      have hd := hi2.queue.drained_of_held h.pending (of_decide_eq_true hlast)
      exact (hd.congr hpop.frame.sameQueues hpop.frame.sameSlots).of_sub rfl rfl
        fun _ _ hp => hp
  | pipe hpop hk =>
      rename_i k q e v
      have hsame : SameQueues (v.note (.give c k q e)) v :=
        ⟨fun _ => rfl, fun _ => rfl, fun _ => rfl, rfl, rfl, fun _ => rfl, fun _ => rfl⟩
      have hqv : QueueInv v := hsame.queueInv h.finish.inv.queue
      exact (hpop.drained hi2.queue hqv h.pending (of_decide_eq_true hlast)).of_sub rfl rfl
        fun _ _ hp => hp
  | saved hun hforward =>
      rename_i e _
      obtain ⟨hone, hback⟩ := Bool.and_eq_true_iff.mp hlast
      obtain ⟨q, hsaved, hfrom, rfl⟩ := busUnsave_eq hun
      obtain ⟨p, hp, -, hi⟩ := hi2.busUnsave hsaved
      cases hfrom.symm.trans hp
      have hu := hi2.queue.drained_of_saved h.pending hsaved q (of_decide_eq_true hone)
      split at hforward
      case isFalse =>
        subst hforward
        exact hu
      case isTrue hmode =>
        by_cases hfw : Forwarded w2 e
        · obtain ⟨u, hforward', hrun⟩ := hi.busForward c e
          cases hforward.symm.trans hforward'
          refine (hrun.apart_of_forward fun a ha hctx => ?_).drained hu
          have htable : a ∈ attachedQueues w2 c := by
            simpa [attachedQueues, World.note, World.updCtx] using ha
          rw [Bool.not_eq_true', ← Bool.not_eq_true] at hback
          refine hback ?_
          rw [copiesBack, hmode, hsaved, Option.any_some, List.any_eq_true.mpr
            ⟨a, htable, decide_eq_true hctx⟩]
          simpa using hfw
        · cases hforward.symm.trans (busForward_skip hfw)
          exact hu
  | nothing =>
      obtain ⟨hsaved, hpend, hnodes⟩ := h.empty
      exact ⟨hsaved, hpend, hnodes⟩

/-! ## What comes to a bus -/

/-- The call brings an event to bus `c`: it registers a queue with events, or
appends to a queue of `c`. -/
def BusOp.bringsEvent (c : CtxId) (w : World) : BusOp → Bool
  | .addQueue d q => d = c && !eventQueueIsEmpty w q
  | op => (op.exec w).any fun r => (r.1.log.drop w.log.length).any fun a =>
      match a with
      | .push q _ => (w.queues q).ctx = some c
      | _ => false

theorem BusOp.Brings.bringsEvent {op : BusOp} {r : List (CtxId × EventId)}
    (h : op.Brings w w' c) (hexec : op.exec w = some (w', r)) : op.bringsEvent c w = true := by
  cases h with
  | register hq => simp [BusOp.bringsEvent, hq]
  | push hctx hm =>
      simp only [BusOp.bringsEvent, hexec, Option.any_some, List.any_eq_true]
      exact ⟨_, hm, decide_eq_true hctx⟩
  | forward _ _ hctx hm =>
      simp only [BusOp.bringsEvent, hexec, Option.any_some, List.any_eq_true]
      exact ⟨_, hm, decide_eq_true hctx⟩

end Ats
