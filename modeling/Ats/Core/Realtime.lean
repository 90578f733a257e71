import Ats.Core.RunsDry
import Ats.Core.TimerOrder

/-!
# Realtime: a drained bus has caught up with the clock

In real time a local timer fires by the clock. When `bus_dequeue` returns
`NULL`, each timer has fired once for every instant of its schedule that has
passed, and the next event can only be its next instant.
-/

namespace Ats

variable {w w' w0 w1 w2 v : World} {c : CtxId} {j : ClockType} {t s : EventId}
  {kind : StepKind} {limit limit' n now M : Nat} {o : Option EventId}

/-! ## How far a timer has come -/

theorem firingTimes_snoc (timeout rep n : Nat) :
    firingTimes timeout rep (n + 1) = firingTimes timeout rep n ++ [timeout + n * rep] := by
  rw [firingTimes, List.range_succ, List.map_append, List.map_singleton, firingTimes]

/-- **What a timer of `w0` has done by `w`**: it has fired at its next `n`
instants, none later than `limit`, and is armed for the one after them. -/
structure Fired (w0 w : World) (c : CtxId) (t : EventId) (limit n : Nat) : Prop where
  rep : (w.reminders t).repeat = (w0.reminders t).repeat
  fired : w.firings c t = w0.firings c t
    ++ firingTimes (w0.reminders t).timeout (w0.reminders t).repeat n
  due : ∀ m ∈ firingTimes (w0.reminders t).timeout (w0.reminders t).repeat n, m ≤ limit
  armed : t ∈ w.timerNodes c .clockLocal →
    (w.reminders t).timeout = (w0.reminders t).timeout + n * (w0.reminders t).repeat
      ∧ ((w0.reminders t).repeat = 0 → n = 0)
  spent : t ∉ w.timerNodes c .clockLocal → (w0.reminders t).repeat = 0 ∧ n = 1

theorem Fired.start (limit : Nat) (ht : t ∈ w.timerNodes c .clockLocal) :
    Fired w w c t limit 0 where
  rep := rfl
  fired := (List.append_nil _).symm
  due := fun _ hm => absurd hm List.not_mem_nil
  armed := fun _ => ⟨by rw [Nat.zero_mul, Nat.add_zero], fun _ => rfl⟩
  spent := fun hn => absurd ht hn

theorem Fired.mono (h : Fired w0 w c t limit n) (hle : limit ≤ limit') :
    Fired w0 w c t limit' n :=
  { h with due := fun m hm => Nat.le_trans (h.due m hm) hle }

/-- Where the timers stand, they stay as far as they are. -/
theorem Fired.stand (h : Fired w0 w c t limit n) (hs : TimersStand w w')
    (hfirings : w'.firings c t = w.firings c t) : Fired w0 w' c t limit n where
  rep := by
    rw [hs.reminders]
    exact h.rep
  fired := hfirings.trans h.fired
  due := h.due
  armed := fun hm => by
    rw [hs.timerNodes] at hm
    rw [hs.reminders]
    exact h.armed hm
  spent := fun hm => h.spent (by rwa [hs.timerNodes] at hm)

/-- **The timer that fires** comes one instant further. -/
theorem Fired.fire (h : Fired w0 w c t limit n) (hi : TimerInv w)
    (hpop : TimerPop w v c .clockLocal t) (hle : (w.reminders t).timeout ≤ limit)
    (hfit : (w.reminders t).timeout + (w.reminders t).repeat < 2 ^ 64) :
    Fired w0 (v.note (.fire c .clockLocal t (w.reminders t).timeout)) c t limit (n + 1) := by
  obtain ⟨htime, honce⟩ := h.armed hpop.mem
  have hmem := fun x => hpop.nodes.mem_iff (a := x)
  refine ⟨?_, ?_, fun m hm => ?_, fun hm => ?_, fun hm => ?_⟩
  · rw [← h.rep]
    show (v.reminders t).repeat = _
    rw [hpop.reminder]
    split <;> rfl
  · rw [fire_firings hpop, if_pos rfl, h.fired, firingTimes_snoc, List.append_assoc, htime]
  · rw [firingTimes_snoc, List.mem_append, List.mem_singleton] at hm
    rcases hm with hm | rfl
    · exact h.due m hm
    · rwa [← htime]
  · have hm := (hmem t).mp hm
    split at hm
    case isTrue => exact absurd hm (hi.heap c .clockLocal).nodup.not_mem_erase
    case isFalse hrep =>
      refine ⟨?_, fun h0 => absurd (h.rep.trans h0) hrep⟩
      show (v.reminders t).timeout = _
      rw [hpop.reminder, if_neg hrep]
      show ((w.reminders t).timeout + (w.reminders t).repeat) % 2 ^ 64 = _
      rw [Nat.mod_eq_of_lt hfit, htime, h.rep, Nat.succ_mul, Nat.add_assoc]
  · have hm := mt (hmem t).mpr hm
    split at hm
    case isTrue hrep =>
      rw [h.rep] at hrep
      exact ⟨hrep, by rw [honce hrep]⟩
    case isFalse => exact absurd hpop.mem hm

/-- **A firing leaves the other timers** of the clock, and those of the other
clock leave all of them. -/
theorem Fired.fire_ne (h : Fired w0 w c s limit n) (hi : TimerInv w)
    (hpop : TimerPop w v c j t) (hs : s ≠ t ∨ j = .clockExchange) :
    Fired w0 (v.note (.fire c j t (w.reminders t).timeout)) c s limit n := by
  have hfirings : (v.note (.fire c j t (w.reminders t).timeout)).firings c s
      = w.firings c s := by
    cases j with
    | clockLocal =>
        rw [fire_firings hpop, if_neg (hs.resolve_right (by simp)), List.append_nil]
    | clockExchange =>
        have hlog : (v.note (.fire c .clockExchange t (w.reminders t).timeout)).log
            = w.log ++ [.fire c .clockExchange t (w.reminders t).timeout] := by
          rw [← hpop.frame.log]
          rfl
        rw [firings_append hlog]
        exact List.append_nil _
  have hnodes : s ∈ v.timerNodes c .clockLocal ↔ s ∈ w.timerNodes c .clockLocal := by
    cases j with
    | clockLocal => exact hpop.mem_ne (hs.resolve_right (by simp))
    | clockExchange => rw [hpop.nodes_ne c .clockLocal (.inr (by decide))]
  refine ⟨?_, hfirings.trans h.fired, h.due, fun hm => ?_, fun hm => h.spent (mt hnodes.mpr hm)⟩
  · rw [← h.rep]
    show (v.reminders s).repeat = _
    rw [hpop.frame.reminders]
  · replace hm := hnodes.mp hm
    have hst : s ≠ t := by
      rintro rfl
      rcases hs with hne | rfl
      · exact hne rfl
      · have hclock : ClockType.clockLocal ≠ .clockExchange := by decide
        exact hi.notMem_other hpop.armed.1 hpop.armed.2 (.inr hclock) hm
    rw [← (h.armed hm).1]
    refine ⟨?_, (h.armed hm).2⟩
    show (v.reminders s).timeout = _
    rw [hpop.others s hst]

/-! ## A call of `bus_dequeue` -/

/-- Steps that fire no timer are no firings. -/
theorem BusStep.firings (hs : BusStep kind w w') (hk : ∀ d, kind ≠ .fire d) (c : CtxId)
    (t : EventId) : w'.firings c t = w.firings c t := by
  have keep : ∀ acts, w'.log = w.log ++ acts → acts.filterMap (Act.firing c t) = [] →
      w'.firings c t = w.firings c t := by
    intro acts hlog hacts
    rw [firings_append hlog, hacts, List.append_nil]
  cases hs with
  | add hlt hctx hadd => exact keep _ hadd.log rfl
  | reenter hpend hadd => exact keep _ hadd.log rfl
  | push hpush => exact keep _ hpush.log rfl
  | drop hpop hmode hskip hsaved =>
      rename_i v d q e b
      refine keep [.take q e, .drop q e] ?_ rfl
      show v.log ++ [.drop q e] = _
      rw [hpop.log, List.append_assoc]
      rfl
  | save hpop hsaved hts => exact keep _ hpop.log rfl
  | give hpop hmarket =>
      rename_i v d k q e
      refine keep [.take q e, .give d k q e] ?_ rfl
      show v.log ++ [.give d k q e] = _
      rw [hpop.log, List.append_assoc]
      rfl
  | fire hpop => exact absurd rfl (hk _)
  | release hun =>
      obtain ⟨q, -, -, rfl⟩ := busUnsave_eq hun
      exact keep _ rfl rfl
  | forward hlt hatt hpush => exact keep _ hpush.log rfl
  | overrun hlt hatt hfull => exact keep [] (List.append_nil _).symm rfl

theorem BusRun.firings {S : Set StepKind} (hr : BusRun S w w') (hS : ∀ d, .fire d ∉ S)
    (c : CtxId) (t : EventId) : w'.firings c t = w.firings c t :=
  hr.keeps (P := fun v => v.firings c t = w.firings c t)
    (fun _ hm _ _ _ _ hs hp => (hs.firings (fun d hd => hS d (hd ▸ hm)) c t).trans hp) rfl

/-- Up to the point where a source is served, nothing fires. -/
theorem Dequeued.firings (hd : Dequeued w c now w1 w2 w' o) (t : EventId) :
    w2.firings c t = w.firings c t :=
  (hd.look.run.firings (by simp) c t).trans (hd.enter.firings (by simp) c t)

/-- **A call of `bus_dequeue`** fires a timer that is due by the clock, or
none. -/
theorem Fired.dequeue (h : Fired w0 w c t now n) (hd : Dequeued w c now w1 w2 w' o)
    (hreal : (w.ctxs c).mode = .realtime) (hb : Bounded w c M) (hnow : now ≤ M) :
    ∃ m, Fired w0 w' c t now m := by
  have hstand := hd.timersStand
  have h2 := h.stand hstand (hd.firings t)
  have hmode2 : (w2.ctxs c).mode = .realtime := hd.mode.trans hreal
  have hi2 := hd.look.run.inv.timer
  have hserved := hd.served
  rw [busSource_realtime hmode2] at hserved
  generalize hsrc : busRealtimeSource w2 c now = source at hserved
  cases hserved with
  | timer hpop =>
      rename_i j s v
      by_cases hs : t ≠ s ∨ j = .clockExchange
      · exact ⟨n, h2.fire_ne hi2 hpop hs⟩
      · obtain ⟨hts, hj⟩ := not_or.mp hs
        obtain rfl : t = s := not_not.mp hts
        obtain rfl : j = .clockLocal := by
          cases j with
          | clockLocal => rfl
          | clockExchange => exact absurd rfl hj
        obtain ⟨x, hpeek, hle⟩ := timerDue_peek (busRealtimeSource_local hsrc)
        rw [hi2.timerHeapPeek_eq, hpop.first] at hpeek
        cases hpeek
        have hle : (w2.reminders t).timeout ≤ now := by rwa [busGetTime, hmode2] at hle
        have hfit := hb.rearm .clockLocal t (by rw [← hstand.timerNodes]; exact hpop.mem)
        refine ⟨n + 1, h2.fire hi2 hpop hle ?_⟩
        rw [← hstand.reminders] at hfit
        omega
  | pipe hpop hk =>
      have hstep := BusStep.give hpop hk
      exact ⟨n, h2.stand (hstep.timersStand (by simp)) (hstep.firings (by simp) c t)⟩
  | saved hun hforward =>
      rw [if_neg (by simp [hmode2])] at hforward
      subst hforward
      have hstep := BusStep.release hun
      exact ⟨n, h2.stand (hstep.timersStand (by simp)) (hstep.firings (by simp) c t)⟩
  | nothing => exact ⟨n, h2⟩

/-- **A `NULL` in real time** means that no local timer is due. -/
theorem Dequeued.not_due (hd : Dequeued w c now w1 w2 w' none)
    (hreal : (w.ctxs c).mode = .realtime) (hord : TimersOrdered w)
    (ht : t ∈ w'.timerNodes c .clockLocal) : now < (w'.reminders t).timeout := by
  have hord2 := hord.stand hd.timersStand
  have hi2 := hd.look.run.inv.timer
  have hmode2 : (w2.ctxs c).mode = .realtime := hd.mode.trans hreal
  have hserved := hd.served
  rw [busSource_realtime hmode2] at hserved
  generalize hsrc : busRealtimeSource w2 c now = source at hserved
  cases hserved with
  | nothing =>
      refine hord2.not_due hi2 ?_ ht
      rw [busRealtimeSource, busGetTime, hmode2] at hsrc
      by_contra hdue
      rw [Bool.not_eq_false] at hdue
      rw [if_pos hdue] at hsrc
      cases hsrc

/-! ## A drain -/

/-- **The timers of `w0` are on the clock** at reading `limit`. -/
structure OnClock (w0 w : World) (c : CtxId) (limit : Nat) : Prop where
  ordered : TimersOrdered w
  fired : ∀ t ∈ w0.timerNodes c .clockLocal, ∃ n, Fired w0 w c t limit n

theorem OnClock.dequeue (h : OnClock w0 w c now) (hd : Dequeued w c now w1 w2 w' o)
    (hreal : (w.ctxs c).mode = .realtime) (hb : Bounded w c M) (hnow : now ≤ M)
    (hle : now ≤ limit) : OnClock w0 w' c limit := by
  refine ⟨hd.run.timersOrdered h.ordered, fun t ht => ?_⟩
  obtain ⟨n, hfired⟩ := h.fired t ht
  obtain ⟨m, hfired'⟩ := hfired.dequeue hd hreal hb hnow
  exact ⟨m, hfired'.mono hle⟩

/-- **No instant is skipped**: where the timers that are armed are later than
the reading, those of `w0` have fired at all instants up to it. -/
theorem Fired.upTo (h : Fired w0 w c t limit n)
    (hlate : t ∈ w.timerNodes c .clockLocal → limit < (w.reminders t).timeout) :
    w.firings c t = w0.firings c t
      ++ firingsUpTo (w0.reminders t).timeout (w0.reminders t).repeat (some limit) := by
  rw [h.fired, firingTimes_upTo h.due]
  by_cases hm : t ∈ w.timerNodes c .clockLocal
  · obtain ⟨htime, honce⟩ := h.armed hm
    left
    rw [← htime]
    exact ⟨hlate hm, honce⟩
  · exact .inr (h.spent hm)

/-- **A dry bus returns `NULL` until its first local timer is due**, and no
longer. -/
theorem Dry.dequeue_iff (h : Dry w c) (hi : BusInv w) (hord : TimersOrdered w)
    (hreal : (w.ctxs c).mode = .realtime) :
    busDequeue w c now = some (w, none)
      ↔ ∀ t ∈ w.timerNodes c .clockLocal, now < (w.reminders t).timeout := by
  constructor
  · intro hcall
    obtain ⟨w1, w2, w', o, hcall', hd⟩ := hi.busDequeue c now
    rw [hcall] at hcall'
    cases hcall'
    exact fun t ht => hd.not_due hreal hord ht
  · intro hlate
    refine h.dequeue hi fun _ => ?_
    rw [timerDue, hi.timer.timerHeapPeek_eq]
    split
    case h_1 => rfl
    case h_2 t ht =>
      exact decide_eq_false (Nat.not_le.mpr (hlate t (List.mem_of_mem_head? ht)))

/-- **A drain in real time catches up with the clock.** From every memory that
clean calls lead to, the drain of a bus in real time comes to a `NULL`. Until
the clock reading of that call each local timer has fired at all its instants,
once each, and at no other; and the bus stays empty up to the next instant. -/
theorem realtime_catchesUp (hw : Booted w) (ops : List BusOp) (hrun : CleanRun w ops) :
    ∃ v rs, runOps w ops = some (v, rs) ∧ ∀ c M, (v.ctxs c).mode = .realtime →
      Bounded v c M → ∀ clock, Monotone clock → clock (fuelLeft v c M) ≤ M → ∃ u es,
        drainBus (fuelLeft v c M + 1) v c clock = some (u, es) ∧ es.length ≤ fuelLeft v c M
          ∧ (∀ t ∈ v.timerNodes c .clockLocal, u.firings c t = v.firings c t
            ++ firingsUpTo (v.reminders t).timeout (v.reminders t).repeat
              (some (clock es.length)))
          ∧ ∀ now, busDequeue u c now = some (u, none)
            ↔ ∀ t ∈ u.timerNodes c .clockLocal, now < (u.reminders t).timeout := by
  obtain ⟨v, rs, hcall, hi, hord⟩ := hw.inv.cleanRun_timersOrdered hw.timersOrdered hrun
  refine ⟨v, rs, hcall, fun c M hreal hb clock hmono hclock => ?_⟩
  have hreading : ∀ i < fuelLeft v c M + 1, clock i ≤ M := fun i hin =>
    Nat.le_trans (hmono (Nat.le_of_lt_succ hin)) hclock
  obtain ⟨x, w1, w2, u, es, hdrain, hlen, hx, hbx, hmode, hd, hdry⟩ :=
    hb.drain (fuelLeft v c M + 1) clock (I := fun i x => OnClock v x c (clock i)) hi
      (fun _ => hreading) (Nat.lt_succ_self _) ⟨hord, fun t ht => ⟨0, .start _ ht⟩⟩
      (fun i x _ _ _ _ hx hbx hle _ hmode hd =>
        hx.dequeue hd (hmode.trans hreal) hbx (hle hreal) (hmono (Nat.le_succ i)))
  have hrealx := hmode.trans hreal
  have hu := hx.dequeue hd hrealx hbx (hreading _ (Nat.lt_succ_of_le hlen)) (Nat.le_refl _)
  refine ⟨u, es, hdrain, hlen, fun t ht => ?_, fun now =>
    hdry.dequeue_iff hd.finish.inv hu.ordered (hd.sameMode.trans hrealx)⟩
  obtain ⟨n, hfired⟩ := hu.fired t ht
  exact hfired.upTo (hd.not_due hrealx hx.ordered)

/-- A bus in real time, and a timer due at 4, 7, 10, and so on. -/
def realtimeWorld : World :=
  (World.fresh .realtime 0 [(8, .market)] fun e => ⟨1, askEvent, 0, e⟩).updReminder 9
    fun x => { x with timeout := 4, «repeat» := 3 }

theorem realtimeWorld_booted : Booted realtimeWorld :=
  have h : Booted (World.fresh .realtime 0 [(8, .market)] fun e => ⟨1, askEvent, 0, e⟩) :=
    World.fresh_booted (by simp)
  ⟨h.ctxs, h.ring, h.queueCtx, h.log⟩

/-- The clock goes on by one from call to call. The fifth call reads 9 and
returns `NULL`: of the instants 4, 7 and 10, two have passed. -/
theorem realtime_catchesUp_twice :
    ∃ v rs, runOps realtimeWorld repeatingSetup = some (v, rs) ∧ ∃ u es,
      drainBus (fuelLeft v 0 10 + 1) v 0 (fun i => 5 + i) = some (u, es) ∧ es.length = 4
        ∧ u.firings 0 9 = [4, 7] ∧ ∀ now, busDequeue u 0 now = some (u, none)
          ↔ ∀ t ∈ u.timerNodes 0 .clockLocal, now < (u.reminders t).timeout := by
  obtain ⟨v, rs, hcall, hdrain⟩ :=
    realtime_catchesUp realtimeWorld_booted repeatingSetup (by decide +kernel)
  have hstate : (runOps realtimeWorld repeatingSetup).any (fun r =>
      decide ((r.1.ctxs 0).mode = .realtime ∧ (r.1.ctxs 0).time .clockLocal ≤ 10
        ∧ (∀ q < r.1.nextQueue, ∀ e ∈ r.1.contents q, (r.1.events e).timestamp ≤ 10)
        ∧ (r.1.ctxs 0).savedEvent = none ∧ (r.1.ctxs 0).attachedCount = 0
        ∧ r.1.timerNodes 0 .clockLocal = [9] ∧ r.1.timerNodes 0 .clockExchange = []
        ∧ (r.1.reminders 9).timeout = 4 ∧ (r.1.reminders 9).repeat = 3
        ∧ r.1.firings 0 9 = [] ∧ 5 + fuelLeft r.1 0 10 ≤ 10
        ∧ (drainBus (fuelLeft r.1 0 10 + 1) r.1 0 fun i => 5 + i).map (fun x => x.2.length)
          = some 4))
      = true := by
    decide +kernel
  rw [hcall, Option.any_some, decide_eq_true_iff] at hstate
  obtain ⟨hreal, htime, hstamp, hsaved, hatt, hlocal, hexchange, htimeout, hrepeat, hnone, hclock,
    hlength⟩ := hstate
  have hb : Bounded v 0 10 :=
    { time := htime
      stamp := fun q hlt _ => hstamp q hlt
      saved := fun e he => by rw [hsaved] at he; cases he
      rearm := fun j t ht => by
        cases j with
        | clockLocal =>
            rw [hlocal, List.mem_singleton] at ht
            rw [ht, hrepeat]
            decide
        | clockExchange =>
            rw [hexchange] at ht
            cases ht
      apart := fun i hi => absurd (Nat.lt_of_lt_of_eq hi hatt) (Nat.not_lt_zero i) }
  obtain ⟨u, es, hcallu, -, hfired, hquiet⟩ :=
    hdrain 0 10 hreal hb (fun i => 5 + i) (fun _ _ h => Nat.add_le_add_left h 5) hclock
  rw [hcallu] at hlength
  have hlength : es.length = 4 := Option.some.inj hlength
  refine ⟨v, rs, hcall, u, es, hcallu, hlength, ?_, hquiet⟩
  rw [hfired 9 (by rw [hlocal]; exact List.mem_singleton_self 9), hnone, htimeout, hrepeat,
    hlength]
  rfl

end Ats
