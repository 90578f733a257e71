import Ats.Core.Drain

/-!
# Simulation: a closed drain, from `bus_init` to the last event

A bus is set up (queues registered, events pushed, timers armed) and then
drained. `Drain` has the invariant; here it is established by the set-up,
carried over the calls, and read off at the end.
-/

namespace Ats

open SortedOutput

variable {w0 w w' : World} {c : CtxId} {t : EventId} {now n k : Nat}

/-! ## The set-up -/

/-- A call that sets a simulation up. -/
def BusOp.SetsUp : BusOp → Prop
  | .addQueue _ _ => True
  | .push _ _ => True
  | .addTimer _ _ => True
  | _ => False

instance : DecidablePred BusOp.SetsUp
  | .addQueue _ _ | .push _ _ | .addTimer _ _ => inferInstanceAs (Decidable True)
  | .removeQueue _ _ | .removeTimer _ _ | .attach _ _ | .detach _ _ | .setTime _ _
  | .setExchangeTime _ _ | .dequeue _ _ => inferInstanceAs (Decidable False)

/-- What holds while a simulation is being set up. -/
structure SettingUp (w : World) (c : CtxId) : Prop where
  timers : TimersOrdered w
  pipes : PipesOrdered w
  covered : Covered w
  mode : (w.ctxs c).mode = .simulation
  time : (w.ctxs c).time .clockLocal = 0
  alone : (w.ctxs c).attachedCount = 0
  unsaved : (w.ctxs c).savedEvent = none
  silent : ∀ a ∈ w.log, a.Silent c ∧ a.returned = none

theorem Booted.settingUp (h : Booted w) (hsim : (w.ctxs c).mode = .simulation)
    (h0 : (w.ctxs c).time .clockLocal = 0) : SettingUp w c where
  timers := h.timersOrdered
  pipes := h.pipesOrdered
  covered := fun q d hq hd _ => by
    rw [h.queueCtx q hq] at hd
    cases hd
  mode := hsim
  time := h0
  alone := (h.ctxs c).attachedCount
  unsaved := (h.ctxs c).savedEvent
  silent := fun a ha => by
    rw [h.log] at ha
    cases ha

/-- **Each call of the set-up.** -/
theorem BusOp.Did.settingUp {op : BusOp} {r : List (CtxId × EventId)} (hd : op.Did w w' r)
    (hi : BusInv w) (hclean : op.Clean w) (hset : op.SetsUp) (h : SettingUp w c) :
    SettingUp w' c ∧ r = [] := by
  have htimers := hd.timersOrdered h.timers
  have hsilent : ∀ {acts : List Act}, (∀ a ∈ acts, a.Silent c ∧ a.returned = none) →
      ∀ a ∈ w.log ++ acts, a.Silent c ∧ a.returned = none := by
    intro acts hacts a ha
    rcases List.mem_append.mp ha with ha | ha
    · exact h.silent a ha
    · exact hacts a ha
  cases op with
  | addQueue d q =>
      obtain ⟨hadd, rfl⟩ := hd
      have hf := hadd.frame
      refine ⟨⟨htimers, fun e j => hadd.order e j (h.pipes e j),
        hadd.covered (fun p e _ => h.covered p e), ?_, ?_, ?_, ?_, ?_⟩, rfl⟩
      · exact (hf.ctx_proj c Ctx.mode (fun _ _ _ => rfl)).trans h.mode
      · rw [hf.ctx_proj c Ctx.time (fun _ _ _ => rfl)]
        exact h.time
      · exact (hadd.sameSlots.count c).trans h.alone
      · exact (hadd.sameSlots.saved c).trans h.unsaved
      · rw [hadd.log]
        refine hsilent (fun a ha => ?_)
        rw [List.mem_singleton] at ha
        subst ha
        exact ⟨⟨fun _ => rfl, fun _ => rfl⟩, rfl⟩
  | push q e =>
      obtain ⟨hpush | ⟨rfl, _⟩, rfl⟩ := hd
      · refine ⟨⟨htimers, fun d j => hpush.order hi.queue (h.pipes d j), h.covered.push hpush,
          ?_, ?_, ?_, ?_, ?_⟩, rfl⟩
        · rw [hpush.ctxs]
          exact h.mode
        · rw [hpush.ctxs]
          exact h.time
        · rw [hpush.ctxs]
          exact h.alone
        · rw [hpush.ctxs]
          exact h.unsaved
        · rw [hpush.log]
          refine hsilent (fun a ha => ?_)
          rw [List.mem_singleton] at ha
          subst ha
          exact ⟨⟨fun _ => rfl, fun _ => rfl⟩, rfl⟩
      · exact ⟨h, rfl⟩
  | addTimer d t =>
      obtain ⟨harm, rfl⟩ := hd
      have hf := harm.frame
      refine ⟨⟨htimers, ?_, h.covered.of_same hf.sameQueues, ?_, ?_, ?_, ?_, ?_⟩, rfl⟩
      · refine h.pipes.of_same hf.sameQueues (fun p => by rw [hf.queues]) (fun e => ?_)
        rw [stamp, stamp, hf.events]
      · exact (hf.ctx_proj c Ctx.mode (fun _ _ _ => rfl)).trans h.mode
      · rw [hf.ctx_proj c Ctx.time (fun _ _ _ => rfl)]
        exact h.time
      · exact (hf.sameSlots.count c).trans h.alone
      · exact (hf.sameSlots.saved c).trans h.unsaved
      · rw [hf.log]
        exact h.silent
  | _ => exact absurd hset id

/-- A set-up goes through, and returns nothing. -/
theorem BusInv.setUp (hi : BusInv w) (h : SettingUp w c) {setup : List BusOp}
    (hset : ∀ op ∈ setup, op.SetsUp) (hrun : CleanRun w setup) :
    ∃ w0, Ats.runOps w setup = some (w0, []) ∧ BusInv w0 ∧ SettingUp w0 c := by
  obtain ⟨w0, r, hcall, hi0, h0, hr⟩ := Along.keeps
    (I := fun v rs => SettingUp v c ∧ rs = []) (fun _ _ hc => hc) setup [] hi hrun
    (fun op hop v v' r rs hv _ hclean hdid hp => by
      obtain ⟨hs, rfl⟩ := hdid.settingUp hv hclean (hset op hop) hp.1
      exact ⟨hs, by rw [hp.2]; rfl⟩)
    ⟨h, rfl⟩
  rw [List.nil_append] at hr
  subst hr
  exact ⟨w0, hcall, hi0, h0⟩

theorem SettingUp.draining (h : SettingUp w c) (hsorted : MarketSorted w c) :
    Draining w c w := by
  have hinst : w.instants c = [] :=
    List.filterMap_eq_nil_iff.mpr (fun a ha => (h.silent a ha).1.1 _)
  have hfir : ∀ t, w.firings c t = [] := fun t =>
    List.filterMap_eq_nil_iff.mpr (fun a ha => (h.silent a ha).1.2 t)
  refine ⟨h.timers, h.pipes, h.covered, h.mode, h.time, h.alone, hsorted, fun e he => ?_, ?_,
    fun _ m hm => ?_, fun t ht => ⟨rfl, ?_, fun _ => ?_, fun hn => absurd ht hn⟩⟩
  · rw [h.unsaved] at he
    cases he
  · rw [hinst]
    exact InOrder.nil _
  · rw [hinst] at hm
    cases hm
  · rw [hfir]
    rfl
  · rw [hfir]
    simp

/-! ## When a timer fires -/

/-- The first `n` firing instants of a timer. -/
def firingTimes (timeout rep n : Nat) : List Nat :=
  (List.range n).map fun i => timeout + i * rep

/-- The firing instants up to `limit`: of a one-shot timer its timeout, of a
repeating one every `rep` from it. -/
def firingsUpTo (timeout rep : Nat) : Option Nat → List Nat
  | none => []
  | some limit =>
      if limit < timeout then []
      else firingTimes timeout rep (if rep = 0 then 1 else (limit - timeout) / rep + 1)

/-- The timestamp of the last market event that `c` returned. -/
def World.lastMarket (w : World) (c : CtxId) : Option Nat :=
  ((w.instants c).filterMap fun i =>
    if (ofLex i).2 = 1 then some (ofLex i).1 else none).getLast?

/-- **The order of a drain** from `w0`: what was returned is sorted, timers
before market events of the same time, and each timer that was armed has
fired at its first instants, once each. -/
structure InTimeOrder (w0 w : World) (c : CtxId) : Prop where
  sorted : (w.instants c).Pairwise (· ≤ ·)
  fired : ∀ t ∈ w0.timerNodes c .clockLocal,
    ∃ n, w.firings c t = firingTimes (w0.reminders t).timeout (w0.reminders t).repeat n
      ∧ ((w0.reminders t).repeat = 0 → n ≤ 1)

/-- **The end of a drain**: each timer has fired at exactly its instants up
to the last market event. -/
structure Exhausted (w0 w : World) (c : CtxId) : Prop where
  order : InTimeOrder w0 w c
  fired : ∀ t ∈ w0.timerNodes c .clockLocal,
    w.firings c t
      = firingsUpTo (w0.reminders t).timeout (w0.reminders t).repeat (w.lastMarket c)

theorem Draining.inTimeOrder (h : Draining w0 c w) : InTimeOrder w0 w c := by
  refine ⟨h.order.sorted, fun t ht => ?_⟩
  have hs := h.schedule t ht
  refine ⟨_, hs.fired, fun hrep => ?_⟩
  by_cases hm : t ∈ w.timerNodes c .clockLocal
  · rw [(hs.armed hm).2 hrep]
    exact Nat.zero_le _
  · rw [(hs.spent hm).2]

/-- What fired is among what was returned. -/
theorem firings_instants {m : Nat} (hm : m ∈ w.firings c t) :
    toLex (m, 0) ∈ w.instants c := by
  obtain ⟨a, ha, hf⟩ := List.mem_filterMap.mp hm
  refine List.mem_filterMap.mpr ⟨a, ha, ?_⟩
  cases a with
  | fire d j s timeout =>
      cases j with
      | clockLocal =>
          simp only [Act.firing, Option.ite_none_right_eq_some, Option.some.injEq] at hf
          obtain ⟨⟨rfl, rfl⟩, rfl⟩ := hf
          simp [Act.instant]
      | clockExchange => cases hf
  | _ => cases hf

/-- A schedule that stops between two instants around `limit`. -/
theorem firingTimes_upTo {timeout rep limit : Nat}
    (hfired : ∀ m ∈ firingTimes timeout rep n, m ≤ limit)
    (hlate : limit < timeout + n * rep ∧ (rep = 0 → n = 0) ∨ rep = 0 ∧ n = 1) :
    firingTimes timeout rep n = firingsUpTo timeout rep (some limit) := by
  rw [firingsUpTo]
  cases n with
  | zero =>
      have hlt : limit < timeout := by omega
      rw [if_pos hlt]
      rfl
  | succ k =>
      have hk : timeout + k * rep ≤ limit :=
        hfired _ (List.mem_map.mpr ⟨k, List.mem_range.mpr (Nat.lt_succ_self k), rfl⟩)
      rw [if_neg (by omega)]
      congr 1
      rcases hlate with ⟨hlt, hrep⟩ | ⟨hrep, hone⟩
      · have hpos : rep ≠ 0 := fun h0 => by
          have := hrep h0
          omega
        rw [if_neg hpos]
        have hdiv : (limit - timeout) / rep = k := by
          refine Nat.div_eq_of_lt_le ?_ ?_
          · omega
          · omega
        rw [hdiv]
      · rw [if_pos hrep]
        exact hone

/-- **A drain that is over** has fired every timer up to its last market
event, and none beyond. -/
theorem Draining.exhausted (h : Draining w0 c w) (hn : (w.ctxs c).savedEvent = none) :
    Exhausted w0 w c := by
  refine ⟨h.inTimeOrder, fun t ht => ?_⟩
  have hs := h.schedule t ht
  cases hlast : (w.instants c).getLast? with
  | none =>
      have hinst : w.instants c = [] := List.getLast?_eq_none_iff.mp hlast
      have hfir : w.firings c t = [] := by
        refine List.eq_nil_iff_forall_not_mem.mpr (fun m hm => ?_)
        have hmem := firings_instants hm
        rw [hinst] at hmem
        cases hmem
      rw [hfir, World.lastMarket, hinst]
      rfl
  | some z =>
      obtain ⟨limit, rfl⟩ := h.last hn z hlast
      have hmarket : w.lastMarket c = some limit := by
        obtain ⟨pre, hpre⟩ := List.getLast?_eq_some_iff.mp hlast
        rw [World.lastMarket, hpre]
        simp
      have hup : ∀ m ∈ w.firings c t, m ≤ limit := by
        intro m hm
        have hle := h.order.le_last hlast (firings_instants hm)
        rw [Prod.Lex.toLex_le_toLex] at hle
        rcases hle with hlt | ⟨heq, _⟩
        · exact Nat.le_of_lt hlt
        · exact Nat.le_of_eq heq
      have hfired : w.firings c t = firingTimes (w0.reminders t).timeout
        (w0.reminders t).repeat (w.firings c t).length := hs.fired
      rw [hmarket, hfired]
      refine firingTimes_upTo (by rw [← hfired]; exact hup) ?_
      by_cases hm : t ∈ w.timerNodes c .clockLocal
      · obtain ⟨htime, honce⟩ := hs.armed hm
        left
        refine ⟨?_, fun hrep => by rw [honce hrep]; rfl⟩
        have hle := h.order.floor _ (List.mem_of_getLast? hlast) _ (Upcoming.armed hm)
        rw [Prod.Lex.toLex_le_toLex] at hle
        rw [← htime]
        rcases hle with hlt | ⟨_, hc⟩
        · exact hlt
        · exact absurd hc (Nat.not_succ_le_zero 0)
      · exact Or.inr (hs.spent hm)

/-! ## Runs -/

/-- No call changes the mode of a bus. -/
theorem BusOp.Did.mode {op : BusOp} {r : List (CtxId × EventId)} (hd : op.Did w w' r)
    (c : CtxId) : (w'.ctxs c).mode = (w.ctxs c).mode := by
  cases op with
  | addQueue d q => exact hd.1.frame.ctx_proj c Ctx.mode (fun _ _ _ => rfl)
  | removeQueue d q =>
      obtain ⟨_, _, rfl | ⟨ys, hset⟩⟩ := hd
      · rfl
      · exact hset.frame.ctx_proj c Ctx.mode (fun _ _ _ => rfl)
  | push q e =>
      obtain ⟨hpush | ⟨rfl, _⟩, _⟩ := hd
      · rw [hpush.ctxs]
      · rfl
  | addTimer d t => exact hd.1.frame.ctx_proj c Ctx.mode (fun _ _ _ => rfl)
  | removeTimer d t =>
      obtain ⟨_, _, rfl | ⟨ys, hset⟩⟩ := hd
      · rfl
      · exact hset.frame.ctx_proj c Ctx.mode (fun _ _ _ => rfl)
  | attach src dst => rw [hd.1.ctxs]
  | detach src dst => rw [hd.1.ctxs]
  | setTime d time => rw [hd.1.ctxs]
  | setExchangeTime d time => rw [hd.1.ctxs]
  | dequeue d now =>
      obtain ⟨w1, w2, o, hdeq, _⟩ := hd
      exact hdeq.run.sameClock.mode c

/-- The calls of a drain go through, and keep the invariant. -/
theorem Draining.drain : ∀ (nows : List Nat) {w : World}, BusInv w → Draining w0 c w →
    Along BusOp.NoWrap w (nows.map fun now => .dequeue c now) →
    ∃ w' rs, runOps w (nows.map fun now => .dequeue c now) = some (w', rs)
      ∧ BusInv w' ∧ Draining w0 c w'
      ∧ w'.log.filterMap Act.returned = w.log.filterMap Act.returned ++ rs := by
  intro nows
  induction nows with
  | nil => exact fun hi h _ => ⟨_, [], rfl, hi, h, (List.append_nil _).symm⟩
  | cons now nows ih =>
      intro w hi h hrun
      obtain ⟨hfit, hrest⟩ := hrun
      obtain ⟨w1, w2, v, o, hcall, hd⟩ := hi.busDequeue c now
      have hexec : (BusOp.dequeue c now).exec w
          = some (v, (o.map fun e => (c, e)).toList) := by
        rw [BusOp.exec, hcall]
        rfl
      rw [hexec] at hrest
      have hv := (h.dequeue hd (fun _ => hfit (v, o) hcall)).1
      obtain ⟨w', rs, hruns, hi', h', hret⟩ := ih hd.run.inv hv hrest
      refine ⟨w', (o.map fun e => (c, e)).toList ++ rs, ?_, hi', h', ?_⟩
      · rw [List.map_cons, runOps, hexec]
        show Option.bind (runOps v _) _ = _
        rw [hruns]
        rfl
      · rw [hret, hd.returned, List.append_assoc]

/-- **Local timers and market data are served in time order.** On a bus
that `bus_init` left in simulation mode, each `bus_dequeue` after any run of
calls returns in turn; and a set-up with sorted market queues is drained in
time order, every timer firing at each of its instants up to the last market
event. -/
theorem simulation_inTimeOrder (hw : Booted w) (hsim : (w.ctxs c).mode = .simulation)
    (h0 : (w.ctxs c).time .clockLocal = 0) :
    (∀ ops, CleanRun w ops → ∃ w' rs, runOps w ops = some (w', rs)
      ∧ ∀ now, ∃ w'' o acts, busDequeue w' c now = some (w'', o) ∧ InTurn w' w'' c o acts)
    ∧ ∀ setup, (∀ op ∈ setup, op.SetsUp) → CleanRun w setup →
      ∃ w0, runOps w setup = some (w0, []) ∧ ∀ nows : List Nat, MarketSorted w0 c →
        Along BusOp.NoWrap w0 (nows.map fun now => .dequeue c now) →
        ∃ w' rs, runOps w0 (nows.map fun now => .dequeue c now) = some (w', rs)
          ∧ w'.log.filterMap Act.returned = rs ∧ InTimeOrder w0 w' c
          ∧ ∀ now w'', busDequeue w' c now = some (w'', none) → Exhausted w0 w'' c := by
  refine ⟨fun ops hrun => ?_, fun setup hset hrun => ?_⟩
  · obtain ⟨w', rs, hcall, hi', ht, hmode⟩ := Along.keeps
      (I := fun v _ => TimersOrdered v ∧ (v.ctxs c).mode = .simulation) (fun _ _ hc => hc)
      ops [] hw.inv hrun
      (fun _ _ _ _ _ _ _ _ _ hdid hp => ⟨hdid.timersOrdered hp.1, (hdid.mode c).trans hp.2⟩)
      ⟨hw.timersOrdered, hsim⟩
    refine ⟨w', rs, hcall, fun now => ?_⟩
    obtain ⟨w1, w2, w'', o, hdeq, hd⟩ := hi'.busDequeue c now
    obtain ⟨acts, hturn⟩ := hd.inTurn ht hmode
    exact ⟨w'', o, acts, hdeq, hturn⟩
  · obtain ⟨w0, hcall, hi0, h0⟩ := hw.inv.setUp (hw.settingUp hsim h0) hset hrun
    refine ⟨w0, hcall, fun nows hsorted hfit => ?_⟩
    obtain ⟨w', rs, hruns, hi', h', hret⟩ := (h0.draining hsorted).drain nows hi0 hfit
    have hnil : w0.log.filterMap Act.returned = [] :=
      List.filterMap_eq_nil_iff.mpr (fun a ha => (h0.silent a ha).2)
    rw [hnil] at hret
    refine ⟨w', rs, hruns, hret, h'.inTimeOrder, fun now w'' hlast => ?_⟩
    obtain ⟨w1, w2, v, o, hdeq, hd⟩ := hi'.busDequeue c now
    rw [hdeq] at hlast
    cases hlast
    obtain ⟨hv, hnone⟩ := h'.dequeue hd (fun hc => absurd rfl hc)
    exact hv.exhausted (hnone rfl)

/-- A bus with one market queue, and a repeating timer that its client has
filled in. -/
def repeatingWorld : World :=
  (World.fresh .simulation 0 [(8, .market)] fun e => ⟨1, askEvent, 0, e⟩).updReminder 9
    fun x => { x with timeout := 4, «repeat» := 3 }

theorem repeatingWorld_booted : Booted repeatingWorld :=
  have h : Booted (World.fresh .simulation 0 [(8, .market)] fun e => ⟨1, askEvent, 0, e⟩) :=
    World.fresh_booted (by simp)
  ⟨h.ctxs, h.ring, h.queueCtx, h.log⟩

/-- The timer is due at 4, 7 and 10, and the market has events at 5 and 10. -/
def repeatingSetup : List BusOp := [.push 0 5, .addQueue 0 0, .push 0 10, .addTimer 0 9]

/-- Two events and a repeating timer, drained. -/
theorem simulation_inTimeOrder_two :
    (∃ w' rs, runOps repeatingWorld (repeatingSetup ++ [.dequeue 0 0]) = some (w', rs)
      ∧ ∀ now, ∃ w'' o acts, busDequeue w' 0 now = some (w'', o) ∧ InTurn w' w'' 0 o acts)
    ∧ ∃ w0, runOps repeatingWorld repeatingSetup = some (w0, [])
        ∧ ∃ w' rs, runOps w0 ([0, 0, 0, 0, 0].map fun now => .dequeue 0 now) = some (w', rs)
          ∧ w'.log.filterMap Act.returned = rs ∧ InTimeOrder w0 w' 0
          ∧ ∀ now w'', busDequeue w' 0 now = some (w'', none) → Exhausted w0 w'' 0 := by
  have hdrain : (runOps repeatingWorld repeatingSetup).any (fun r =>
      decide (((r.1.contents 0).Pairwise fun x y => stamp r.1 x ≤ stamp r.1 y)
        ∧ r.1.nextQueue = 1
        ∧ Along BusOp.NoWrap r.1 ([0, 0, 0, 0, 0].map fun now => .dequeue 0 now))) = true := by
    decide +kernel
  rw [Option.any_eq_true] at hdrain
  obtain ⟨⟨w1, r1⟩, hcall1, hw1⟩ := hdrain
  rw [decide_eq_true_iff] at hw1
  obtain ⟨hturn, hclosed⟩ := simulation_inTimeOrder (c := 0) repeatingWorld_booted rfl rfl
  refine ⟨hturn _ (by decide +kernel), ?_⟩
  obtain ⟨w0, hcall, hrun⟩ := hclosed repeatingSetup (by decide) (by decide +kernel)
  rw [hcall] at hcall1
  cases hcall1
  refine ⟨_, hcall, hrun _ (fun q hq => ?_) hw1.2.2⟩
  have hq0 : q = 0 := Nat.lt_one_iff.mp (hw1.2.1 ▸ hq.1)
  rw [hq0]
  exact hw1.1

end Ats
