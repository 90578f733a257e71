import Ats.Core.Client
import Ats.Core.Elsewhere

/-!
# TimerOrder: the timer heaps stay in order

Every call keeps each timer heap in heap order by `(timeout, start_id)`, so
the timer that `timer_heap_peek` shows is the least.
-/

namespace Ats

variable {w w' w1 w2 : World} {c d : CtxId} {k j : ClockType} {t s : EventId} {now : Nat}
  {o : Option EventId}

/-- Each timer heap is in order. -/
def TimersOrdered (w : World) : Prop :=
  ∀ c k, LevelHeap.Ordered (timerKey w) (w.timerNodes c k)

theorem Booted.timersOrdered (h : Booted w) : TimersOrdered w := by
  intro c k
  rw [h.timerNodes]
  intro i _ a b ha _
  cases ha

theorem TimersOrdered.stand (h : TimersOrdered w) (hs : TimersStand w w') :
    TimersOrdered w' := by
  intro c k
  rw [hs.timerNodes]
  exact (h c k).congr (fun a _ => timerKey_congr (by rw [hs.reminders]))

/-- **The timer that is peeked at is the least.** -/
theorem TimersOrdered.first (h : TimersOrdered w) (hi : TimerInv w)
    (ht : timerHeapPeek w c k = some t) (hs : s ∈ w.timerNodes c k) :
    timerKey w t ≤ timerKey w s := by
  rw [hi.timerHeapPeek_eq, List.head?_eq_getElem?] at ht
  exact (h c k).root_le_of_mem ht hs

theorem timerKey_timeout (h : timerKey w t ≤ timerKey w s) :
    (w.reminders t).timeout ≤ (w.reminders s).timeout := by
  rw [timerKey, timerKey, Prod.Lex.toLex_le_toLex] at h
  rcases h with h | ⟨h, _⟩
  · exact Nat.le_of_lt h
  · exact Nat.le_of_eq h

/-- **Nothing is due in a heap whose first timer is not.** -/
theorem TimersOrdered.not_due (h : TimersOrdered w) (hi : TimerInv w) {limit : Nat}
    (hdue : timerDue w c k limit = false) (hs : s ∈ w.timerNodes c k) :
    limit < (w.reminders s).timeout := by
  rw [timerDue] at hdue
  split at hdue
  case h_1 hnone =>
    rw [hi.timerHeapPeek_eq, List.head?_eq_none_iff] at hnone
    rw [hnone] at hs
    cases hs
  case h_2 r hr =>
    have hle := timerKey_timeout (h.first hi hr hs)
    rw [decide_eq_false_iff_not] at hdue
    omega

/-- A firing changes the key of one timer, in one heap. -/
theorem TimersOrdered.pop (h : TimersOrdered w) (hi : TimerInv w)
    (hp : TimerPop w w' c k t) : TimersOrdered w' := by
  intro d j
  by_cases hd : d = c ∧ j = k
  · obtain ⟨rfl, rfl⟩ := hd
    exact hp.order (h d j)
  · rw [hp.nodes_ne d j (by tauto)]
    refine (h d j).congr (fun a ha => timerKey_congr (hp.others a ?_))
    rintro rfl
    exact hi.notMem_other hp.armed.1 hp.armed.2 (by tauto) ha

theorem BusStep.timersOrdered {kind : StepKind} (hs : BusStep kind w w') (hi : BusInv w)
    (h : TimersOrdered w) : TimersOrdered w' := by
  by_cases hk : ∀ d, kind ≠ .fire d
  · exact h.stand (hs.timersStand hk)
  · cases hs with
    | fire hpop =>
        have := h.pop hi.timer hpop
        exact fun d j => this d j
    | _ => exact absurd (fun _ hc => by cases hc) hk

theorem BusRun.timersOrdered {S : Set StepKind} (hr : BusRun S w w') (h : TimersOrdered w) :
    TimersOrdered w' :=
  hr.keeps (P := TimersOrdered) (fun _ _ _ _ hv _ hs hp => hs.timersOrdered hv hp) h

/-- The calls that may touch a timer. -/
def BusOp.ofTimers : BusOp → Bool
  | .addTimer _ _ | .removeTimer _ _ | .dequeue _ _ => true
  | _ => false

/-- The other calls touch none. -/
theorem BusOp.Did.timersStand {op : BusOp} {r : List (CtxId × EventId)}
    (hd : op.Did w w' r) (hop : op.ofTimers = false) : TimersStand w w' := by
  cases op with
  | addQueue c q =>
      have hf := hd.1.frame.timersStand
      exact ⟨hf.reminders, hf.node, hf.heap⟩
  | removeQueue c q =>
      obtain ⟨_, _, rfl | ⟨ys, hset⟩⟩ := hd
      · exact TimersStand.refl _
      · exact hset.frame.timersStand
  | push q e =>
      obtain ⟨hpush | ⟨rfl, _⟩, _⟩ := hd
      · exact hpush.timersStand
      · exact TimersStand.refl _
  | attach src dst =>
      obtain ⟨hatt, _⟩ := hd
      exact ⟨hatt.reminders, hatt.sameTimers.node, hatt.sameTimers.heap⟩
  | detach src dst =>
      obtain ⟨hdet, _⟩ := hd
      exact ⟨hdet.reminders, hdet.timerNode, fun d => by rw [hdet.ctxs]⟩
  | setTime c time =>
      obtain ⟨hf, _⟩ := hd
      exact ⟨by rw [hf.rest], by rw [hf.rest], hf.sameTimers.heap⟩
  | setExchangeTime c time =>
      obtain ⟨hf, _⟩ := hd
      exact ⟨by rw [hf.rest], by rw [hf.rest], hf.sameTimers.heap⟩
  | addTimer _ _ | removeTimer _ _ | dequeue _ _ => cases hop

/-- **Every call** keeps the heaps in order. -/
theorem BusOp.Did.timersOrdered {op : BusOp} {r : List (CtxId × EventId)}
    (hd : op.Did w w' r) (h : TimersOrdered w) : TimersOrdered w' := by
  cases hop : op.ofTimers with
  | false => exact h.stand (hd.timersStand hop)
  | true =>
      cases op with
      | addTimer c t => exact fun d j => hd.1.order d j (h d j)
      | removeTimer c t => exact fun d j => hd.1.order d j (h d j)
      | dequeue c now =>
          obtain ⟨w1, w2, o, hdeq, _⟩ := hd
          exact hdeq.run.timersOrdered h
      | _ => cases hop

/-- A clean run keeps them so. -/
theorem BusInv.cleanRun_timersOrdered (h : BusInv w) (ht : TimersOrdered w)
    {ops : List BusOp} (hrun : CleanRun w ops) :
    ∃ w' r, Ats.runOps w ops = some (w', r) ∧ BusInv w' ∧ TimersOrdered w' :=
  Along.keeps (I := fun v _ => TimersOrdered v) (fun _ _ hc => hc) ops [] h hrun
    (fun _ _ _ _ _ _ _ _ _ hdid hp => hdid.timersOrdered hp) ht

end Ats
