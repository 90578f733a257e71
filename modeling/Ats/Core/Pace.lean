import Ats.Core.Discards
import Ats.Core.Simulation
import Ats.Lib.GuardedRun

/-!
# Pace: the simulated clock and the held event

An event is judged late when it enters the look-ahead, but it is returned
only after the timers that are due before it, and each of them moves the
clock. A client that sets the clock by what `bus_dequeue` returns never
passes the held event.
-/

namespace Ats

open GuardedRun

variable {w w' w'' w1 w2 v : World} {c d : CtxId} {q : QueueId} {e : EventId} {now : Nat}
  {o : Option EventId} {kind : StepKind} {acts : List Act}

/-! ## A client that keeps pace -/

/-- What the client owes the clock after a `bus_dequeue`: the timestamp of
the market event that was returned, or the timeout at which a local timer
fired. -/
inductive ClockDue where
  | market (e : EventId)
  | timer (timeout : Nat)
deriving DecidableEq, Repr

/-- The time that `bus_set_time` is called with. -/
def ClockDue.time (w : World) : ClockDue → Nat
  | .market e => (w.events e).timestamp
  | .timer timeout => timeout

/-- What an entry of the history makes the client of `c` owe. -/
def Act.clockDue (c : CtxId) : Act → Option ClockDue
  | .give d .market _ e => if d = c then some (.market e) else none
  | .fire d .clockLocal _ timeout => if d = c then some (.timer timeout) else none
  | _ => none

/-- The memory, what the client of the bus still owes the clock, and the
timestamps of the market events that were returned, in order. -/
structure Paced where
  world : World
  due : Option ClockDue
  market : List Nat

/-- What the client does, and what happens around it. -/
inductive PaceOp where
  | dequeue (now : Nat)
  | setTime
  | other (op : BusOp)

/-- The timestamp of a market event that was returned. -/
def marketTime (w : World) : Option ClockDue → List Nat
  | some (.market e) => [(w.events e).timestamp]
  | _ => []

/-- A step, seen from bus `c`. -/
def PaceOp.exec (c : CtxId) (s : Paced) : PaceOp → Option Paced
  | .dequeue now => (busDequeue s.world c now).map fun r =>
      let due := (r.1.log.drop s.world.log.length).findSome? (Act.clockDue c)
      ⟨r.1, due, s.market ++ marketTime r.1 due⟩
  | .setTime => s.due.map fun due =>
      { s with world := (busSetTime s.world c (due.time s.world)).1, due := none }
  | .other op => (op.exec s.world).map fun r => { s with world := r.1 }

/-- A `bus_dequeue` on `c`, or a call that moves its local clock. -/
def BusOp.paces (c : CtxId) : BusOp → Bool
  | .dequeue d _ => d = c
  | .setTime d _ => d = c
  | _ => false

/-- **The client keeps pace**: it pays what it owes before the next
`bus_dequeue`, and sets the clock at no other time. -/
def PaceOp.KeepsPace (c : CtxId) (s : Paced) : PaceOp → Prop
  | .dequeue _ => s.due = none
  | .setTime => s.due ≠ none
  | .other op => op.Clean s.world ∧ op.paces c = false

instance (c : CtxId) (s : Paced) : (op : PaceOp) → Decidable (op.KeepsPace c s)
  | .dequeue _ => inferInstanceAs (Decidable (_ = _))
  | .setTime => inferInstanceAs (Decidable (_ ≠ _))
  | .other _ => inferInstanceAs (Decidable (_ ∧ _))

/-! ## What goes on around bus `c` -/

/-- The look-ahead and the clock of `c` stand, and timestamps only grow. -/
structure Abides (w w' : World) (c : CtxId) : Prop where
  saved : (w'.ctxs c).savedEvent = (w.ctxs c).savedEvent
  time : (w'.ctxs c).time .clockLocal = (w.ctxs c).time .clockLocal
  stamp : ∀ e, (w.events e).timestamp ≤ (w'.events e).timestamp

namespace Abides

theorem refl (w : World) (c : CtxId) : Abides w w c := ⟨rfl, rfl, fun _ => Nat.le_refl _⟩

theorem trans (h : Abides w v c) (h' : Abides v w' c) : Abides w w' c :=
  ⟨h'.saved.trans h.saved, h'.time.trans h.time, fun e => Nat.le_trans (h.stamp e) (h'.stamp e)⟩

/-- A change of the contexts that keeps the look-ahead and the clock of `c`. -/
theorem of_ctx (hsaved : (w'.ctxs c).savedEvent = (w.ctxs c).savedEvent)
    (htime : (w'.ctxs c).time = (w.ctxs c).time) (hevents : w'.events = w.events) :
    Abides w w' c :=
  ⟨hsaved, by rw [htime], fun e => by rw [hevents]⟩

theorem queueFrame (h : QueueFrame w w') (c : CtxId) : Abides w w' c :=
  of_ctx (h.savedEvent c) (h.ctx_proj c Ctx.time (fun _ _ _ => rfl)) h.events

theorem added (h : QueueAdded w w' d q) (c : CtxId) : Abides w w' c :=
  have hf := queueFrame h.frame c
  ⟨hf.saved, hf.time, hf.stamp⟩

theorem timerFrame (h : TimerFrame w w') (c : CtxId) : Abides w w' c :=
  of_ctx (h.sameSlots.saved c) (h.ctx_proj c Ctx.time (fun _ _ _ => rfl)) h.events

theorem pushed (h : QueuePushed w w' q e) (c : CtxId) : Abides w w' c :=
  of_ctx (h.sameSlots.saved c) (by rw [h.ctxs]) h.events

/-- Another context is changed. -/
theorem updCtx_ne (w : World) (hd : d ≠ c) (f : Ctx → Ctx) : Abides w (w.updCtx d f) c := by
  have hc : (w.updCtx d f).ctxs c = w.ctxs c := w.updCtx_ctxs_ne hd.symm f
  exact of_ctx (by rw [hc]) (by rw [hc]) rfl

theorem eventRef (w : World) (e : EventId) (c : CtxId) : Abides w (Ats.eventRef w e) c :=
  ⟨rfl, rfl, fun x => by rw [eventRef_timestamp]⟩

end Abides

/-- The timestamp a saved event is given is not below its own. -/
theorem savedTime_le {ts : Nat} (h : savedTime w c e ts) : (w.events e).timestamp ≤ ts := by
  rcases h with rfl | ⟨_, _, hlate, rfl⟩
  · exact Nat.le_refl _
  · omega

/-- **A step of another bus** leaves the look-ahead and the clock of `c`. -/
theorem BusStep.abides (hs : BusStep kind w w') (hk : kind ∈ dequeueKinds d) (hd : d ≠ c) :
    Abides w w' c := by
  cases hs with
  | reenter hpend hadd =>
      rename_i x q rest
      obtain rfl : x = d := by simpa [dequeueKinds] using hk
      have hrest := Abides.updCtx_ne w hd fun y => { y with pendingQueue := rest }
      exact hrest.trans (Abides.added hadd c)
  | drop hpop hmode hskip hsaved =>
      rename_i w1 x q e b
      obtain rfl : x = d := by simpa [dequeueKinds] using hk
      have hstop := Abides.updCtx_ne w1 hd fun y => { y with isSimulatorStop := b }
      have hboth := (Abides.queueFrame hpop.frame c).trans hstop
      exact ⟨hboth.saved, hboth.time, hboth.stamp⟩
  | save hpop hsaved hts =>
      rename_i w1 x q e ts
      obtain rfl : x = d := by simpa [dequeueKinds] using hk
      have hstamp : Abides w1 (w1.updEvent e fun y => { y with timestamp := ts }) c := by
        refine ⟨rfl, rfl, fun y => ?_⟩
        by_cases hy : y = e
        · subst hy
          have hle := savedTime_le hts
          rw [← hpop.frame.events] at hle
          simpa [World.updEvent] using hle
        · simp [World.updEvent, hy]
      exact ((Abides.queueFrame hpop.frame c).trans hstamp).trans (Abides.updCtx_ne _ hd _)
  | give hpop hmarket =>
      have h := Abides.queueFrame hpop.frame c
      exact ⟨h.saved, h.time, h.stamp⟩
  | fire hpop =>
      have h := Abides.timerFrame hpop.frame c
      exact ⟨h.saved, h.time, h.stamp⟩
  | release hun =>
      rename_i x e
      obtain rfl : x = d := by simpa [dequeueKinds] using hk
      obtain ⟨q, _, _, rfl⟩ := busUnsave_eq hun
      have h := Abides.updCtx_ne w hd fun y => { y with savedEvent := none, savedFrom := none }
      exact ⟨h.saved, h.time, h.stamp⟩
  | forward hlt hatt hpush => exact (Abides.eventRef _ _ c).trans (Abides.pushed hpush c)
  | overrun hlt hatt hfull => exact Abides.eventRef _ _ c
  | _ => simp [dequeueKinds] at hk

/-- **Each other call** leaves the look-ahead and the clock of `c`. -/
theorem BusOp.abides {op : BusOp} {r : List (CtxId × EventId)} (hi : BusInv w)
    (hclean : op.Clean w) (hop : op.paces c = false) (h : op.exec w = some (w', r)) :
    Abides w w' c := by
  obtain ⟨v, r', hcall, _, hd⟩ := hi.call hclean
  cases hcall.symm.trans h
  cases op with
  | addQueue d q => exact Abides.added hd.1 c
  | removeQueue d q =>
      obtain ⟨_, _, rfl | ⟨ys, hset⟩⟩ := hd
      · exact Abides.refl _ c
      · exact Abides.queueFrame hset.frame c
  | push q e =>
      obtain ⟨hpush | ⟨rfl, _⟩, _⟩ := hd
      · exact Abides.pushed hpush c
      · exact Abides.refl _ c
  | addTimer d t => exact Abides.timerFrame hd.1.frame c
  | removeTimer d t =>
      obtain ⟨_, _, rfl | ⟨ys, hset⟩⟩ := hd
      · exact Abides.refl _ c
      · exact Abides.timerFrame hset.frame c
  | attach src dst => exact Abides.of_ctx (by rw [hd.1.ctxs]) (by rw [hd.1.ctxs]) hd.1.events
  | detach src dst => exact Abides.of_ctx (by rw [hd.1.ctxs]) (by rw [hd.1.ctxs]) hd.1.events
  | setTime d time =>
      have hne : d ≠ c := by simpa [BusOp.paces] using hop
      cases hcall
      unfold busSetTime
      split_ifs
      · exact Abides.refl _ c
      · exact Abides.refl _ c
      · exact Abides.updCtx_ne w hne fun x =>
          { x with time := Function.update x.time .clockLocal time }
  | setExchangeTime d time =>
      have hset : (BusOp.setExchangeTime d time).exec w
          = some ((busSetExchangeTime w d time).1, []) := rfl
      cases hset.symm.trans hcall
      have hf := busSetExchangeTime_frame w d time
      refine ⟨by rw [hf.ctxs], ?_, fun e => by rw [hf.rest]⟩
      unfold busSetExchangeTime
      split_ifs
      · rfl
      · by_cases hdc : d = c
        · simp [World.updCtx, hdc]
        · simp [World.updCtx, Ne.symm hdc]
  | dequeue d now =>
      have hne : d ≠ c := by simpa [BusOp.paces] using hop
      obtain ⟨w1, w2, o, hdeq, _⟩ := hd
      exact hdeq.run.keeps (P := fun u => Abides w u c)
        (fun s hm _ _ _ _ hs hp => hp.trans (hs.abides hm hne)) (Abides.refl w c)

/-! ## The market block -/

/-- **What the popped market events are judged by**: of the events taken
from a queue, all those to be skipped are discarded, and no others. -/
def Judged (w : World) (c : CtxId) (acts : List Act) (q : QueueId) : Prop :=
  ∀ e, (Skipped w c e → acts.count (.drop q e) = acts.count (.take q e))
    ∧ (¬ Skipped w c e → acts.count (.drop q e) = 0)

/-- An entry is neither a pop from `q` nor a discard. -/
def Act.ElsewhereThan (q : QueueId) : Act → Prop
  | .take p _ => p ≠ q
  | .drop p _ => p ≠ q
  | _ => True

theorem count_elsewhere (h : ∀ a ∈ acts, a.ElsewhereThan q) (e : EventId) :
    acts.count (.drop q e) = 0 ∧ acts.count (.take q e) = 0 :=
  ⟨List.count_eq_zero.mpr fun hm => h _ hm rfl, List.count_eq_zero.mpr fun hm => h _ hm rfl⟩

/-- Judgement is passed on the pops from `q` alone. -/
theorem Judged.of_middle {bs as : List Act} (h : Judged w c acts q)
    (hb : ∀ a ∈ bs, a.ElsewhereThan q) (ha : ∀ a ∈ as, a.ElsewhereThan q) :
    Judged w c (bs ++ acts ++ as) q := by
  intro e
  obtain ⟨hb1, hb2⟩ := count_elsewhere hb e
  obtain ⟨ha1, ha2⟩ := count_elsewhere ha e
  obtain ⟨hskip, hkeep⟩ := h e
  simp only [List.count_append, hb1, hb2, ha1, ha2, Nat.zero_add, Nat.add_zero]
  exact ⟨hskip, hkeep⟩

theorem Judged.congr (h : Judged w c acts q) (he : w'.events = w.events)
    (ht : (w'.ctxs c).time = (w.ctxs c).time) : Judged w' c acts q := by
  intro e
  rw [Skipped.congr he ht]
  exact h e

/-- **The block at `again:`** judges each event that it pops, and leaves no
event in the look-ahead that is before the bus time. -/
theorem BusInv.busSimulationMarket_judged : ∀ (fuel : Nat) {w w' : World}, BusInv w →
    (w.ctxs c).mode = .simulation → Ats.busSimulationMarket fuel w c now = some w' →
    (∃ acts, w'.log = w.log ++ acts ∧ ∀ q, Judged w c acts q)
      ∧ ((∀ e, (w.ctxs c).savedEvent = some e →
          (w.ctxs c).time .clockLocal ≤ (w.events e).timestamp) →
        ∀ e, (w'.ctxs c).savedEvent = some e →
          (w.ctxs c).time .clockLocal ≤ (w'.events e).timestamp) := by
  intro fuel
  induction fuel with
  | zero => intro w w' _ _ h; cases h
  | succ fuel ih =>
      intro w w' hi hmode h
      cases hi.marketRound hmode h with
      | done hgo heq =>
          subst heq
          exact ⟨⟨[], by simp, fun q e => by simp⟩, fun hold => hold⟩
      | kept hsaved hpop hq1 hno hw' =>
          rename_i w1 p x
          have hlog' : w'.log = w.log ++ [.take p x] := by
            rw [hw', ← hpop.log]
            rfl
          refine ⟨⟨[.take p x], hlog', fun q e => ⟨fun hs => ?_, fun _ => by simp⟩⟩,
            fun _ e he => ?_⟩
          · have hne : x ≠ e := by
              rintro rfl
              exact hno hs
            simp [hne]
          · rw [hw', busSave_savedEvent] at he
            obtain rfl : x = e := Option.some.inj he
            rw [hw']
            simp [busSave, World.updCtx, World.updEvent]
      | skipped hsaved hpop hs hv hstep hiv hb h =>
          rename_i w1 v p x b
          obtain ⟨hevents, htime, hmodev, hslot, hlogv⟩ := hpop.skipped hv
          obtain ⟨⟨more, hmore, hjudged⟩, hheld⟩ := ih hiv (hmodev.trans hmode) h
          refine ⟨⟨.take p x :: .drop p x :: more, ?_, fun q e => ?_⟩, fun _ e he => ?_⟩
          · rw [hmore, hlogv, List.append_assoc]
            rfl
          · obtain ⟨hskip, hkeep⟩ := (hjudged q).congr hevents.symm htime.symm e
            refine ⟨fun hse => ?_, fun hse => ?_⟩
            · have := hskip hse
              simp [List.count_cons, this]
            · have hne : x ≠ e := by
                rintro rfl
                exact hse hs
              have := hkeep hse
              simp [this, hne]
          · rw [← htime]
            refine hheld (fun y hy => ?_) e he
            rw [hslot, hsaved] at hy
            cases hy

/-! ## A call -/

/-- `check_pending_queue` registers queues, and does nothing else. -/
theorem Dequeued.entered (h : Dequeued w c now w1 w2 w' o) :
    (∃ acts, w1.log = w.log ++ acts ∧ ∀ q, ∀ a ∈ acts, a.ElsewhereThan q)
      ∧ (w1.ctxs c).savedEvent = (w.ctxs c).savedEvent := by
  refine ⟨?_, h.enter_held.2 c⟩
  refine h.enter.keeps (P := fun u => ∃ acts, u.log = w.log ++ acts
    ∧ ∀ q, ∀ a ∈ acts, a.ElsewhereThan q) ?_ ⟨[], by simp, fun _ _ ha => by cases ha⟩
  rintro s rfl u u' _ _ hs ⟨acts, hlog, hacts⟩
  cases hs with
  | reenter hpend hadd =>
      rename_i p rest
      refine ⟨acts ++ [.register c p], ?_, fun q a ha => ?_⟩
      · rw [hadd.log, ← List.append_assoc, ← hlog]
        rfl
      · rcases List.mem_append.mp ha with ha | ha
        · exact hacts q a ha
        · rw [List.mem_singleton] at ha
          subst ha
          trivial

/-- Nothing is owed before a source is served. -/
theorem Dequeued.early_clockDue (h : Dequeued w c now w1 w2 w' o)
    (hlog : w2.log = w.log ++ acts) : acts.findSome? (Act.clockDue c) = none := by
  obtain ⟨as, hlog', has⟩ := h.early
  obtain rfl : acts = as := List.append_cancel_left (hlog.symm.trans hlog')
  refine List.findSome?_eq_none_iff.mpr fun a ha => ?_
  have := has a ha
  cases a with
  | register _ _ => rfl
  | take _ _ => rfl
  | drop _ _ => rfl
  | _ => cases this

/-- What a call leaves in the look-ahead, and what its client owes then. -/
def OwedAfter (w' : World) (c : CtxId) (time : Nat) : Option ClockDue → Prop
  | none => True
  | some (.market e) => (w'.ctxs c).savedEvent = none ∧ time ≤ (w'.events e).timestamp
  | some (.timer timeout) =>
      ∃ e, (w'.ctxs c).savedEvent = some e ∧ timeout ≤ (w'.events e).timestamp

/-- **A call of `bus_dequeue`** on a bus whose held event is not before its
clock: the pops from market queues are judged, and so it is afterwards. -/
theorem Dequeued.paced (h : Dequeued w c now w1 w2 w' o)
    (hsim : (w.ctxs c).mode = .simulation) :
    ∃ acts, w'.log = w.log ++ acts
      ∧ (∀ q, (w'.queues q).category = .market → Judged w c acts q)
      ∧ ((∀ e, (w.ctxs c).savedEvent = some e →
          (w.ctxs c).time .clockLocal ≤ (w.events e).timestamp) →
        (∀ e, (w'.ctxs c).savedEvent = some e →
          (w.ctxs c).time .clockLocal ≤ (w'.events e).timestamp)
        ∧ OwedAfter w' c ((w.ctxs c).time .clockLocal) (acts.findSome? (Act.clockDue c))) := by
  obtain ⟨⟨acts1, hlog1, hfar1⟩, hsaved1⟩ := h.entered
  have hi1 := h.enter.inv
  have hmode1 : (w1.ctxs c).mode = .simulation := (h.enter.sameClock.mode c).trans hsim
  have htime1 : (w1.ctxs c).time = (w.ctxs c).time := h.enter.sameClock.time c
  obtain ⟨⟨acts2, hlog2, hjudged⟩, hheld⟩ := hi1.busSimulationMarket_judged _ hmode1 (h.market hsim)
  rw [hsaved1, htime1, h.enter_events] at hheld
  have hlog2' : w2.log = w.log ++ (acts1 ++ acts2) := by
    rw [hlog2, hlog1, List.append_assoc]
  have hearly := h.early_clockDue hlog2'
  have hjoin : ∀ {acts3 : List Act} (q : QueueId), (∀ a ∈ acts3, a.ElsewhereThan q) →
      Judged w c (acts1 ++ acts2 ++ acts3) q := fun q hfar3 =>
    ((hjudged q).congr h.enter_events.symm htime1.symm).of_middle (hfar1 q) hfar3
  have hsource : busSource w2 c now = busSimulationSource w2 c :=
    busSource_simulation (h.mode.trans hsim)
  have hserved := h.served
  generalize hsrc : busSource w2 c now = source at hserved
  rw [hsource] at hsrc
  have hi2 := h.look.run.inv
  cases hserved with
  | @timer j t u hpop =>
      refine ⟨acts1 ++ acts2 ++ [.fire c j t (w2.reminders t).timeout], ?_, fun q _ => hjoin q ?_,
        fun hold => ?_⟩
      · show u.log ++ _ = _
        rw [hpop.frame.log, hlog2', List.append_assoc]
      · simp [Act.ElsewhereThan]
      · have hsaved : (u.ctxs c).savedEvent = (w2.ctxs c).savedEvent :=
          hpop.frame.sameSlots.saved c
        refine ⟨fun e he => ?_, ?_⟩
        · have := hheld hold e (hsaved.symm.trans he)
          rwa [← hpop.frame.events] at this
        · rw [List.findSome?_append, hearly]
          cases j with
          | clockExchange => simp [Act.clockDue, OwedAfter]
          | clockLocal =>
              obtain ⟨e, he, _, hle⟩ :=
                hpop.dueAtSaved hi2.timer (busSimulationSource_timer hsrc)
              have hdue : [Act.fire c .clockLocal t (w2.reminders t).timeout].findSome?
                  (Act.clockDue c) = some (.timer (w2.reminders t).timeout) := by
                simp [Act.clockDue]
              rw [hdue]
              refine ⟨e, hsaved.trans he, ?_⟩
              show _ ≤ (u.events e).timestamp
              rw [hpop.frame.events]
              exact hle
  | @pipe k p e u hpop hk =>
      refine ⟨acts1 ++ acts2 ++ [.take p e, .give c k p e], ?_, fun q hq => hjoin q ?_,
        fun hold => ⟨fun x hx => ?_, ?_⟩⟩
      · show u.log ++ _ = _
        rw [hpop.log, hlog2', List.append_assoc, List.append_assoc]
        rfl
      · -- the pop is from a queue of another category
        have hne : p ≠ q := by
          rintro rfl
          exact hk (hpop.linkable'.2.2.symm.trans hq)
        simp [Act.ElsewhereThan, hne]
      · have := hheld hold x ((hpop.frame.savedEvent c).symm.trans hx)
        rwa [← hpop.frame.events] at this
      · rw [List.findSome?_append, hearly]
        cases k with
        | market => exact absurd rfl hk
        | _ => exact trivial
  | @saved e u w' hun hgo =>
      obtain ⟨p, acts3, hout⟩ := hi2.handedOut hun hgo
      refine ⟨acts1 ++ acts2 ++ (.give c .market p e :: acts3), ?_, fun q _ => hjoin q ?_,
        fun hold => ⟨fun x hx => ?_, ?_⟩⟩
      · rw [hout.log, hlog2', List.append_assoc]
      · intro a ha
        rcases List.mem_cons.mp ha with rfl | ha
        · trivial
        · obtain ⟨x, y, rfl⟩ := hout.pushes a ha
          trivial
      · rw [hout.cleared] at hx
        cases hx
      · rw [List.findSome?_append, hearly]
        have hdue : (Act.give c .market p e :: acts3).findSome? (Act.clockDue c)
            = some (.market e) := by
          simp [Act.clockDue]
        rw [hdue]
        refine ⟨hout.cleared, ?_⟩
        rw [hout.timestamp]
        exact hheld hold e hout.saved
  | nothing =>
      refine ⟨acts1 ++ acts2, hlog2', fun q _ => ?_, fun hold => ⟨hheld hold, ?_⟩⟩
      · have := @hjoin [] q (fun a ha => by cases ha)
        rwa [List.append_nil] at this
      · rw [hearly]
        trivial

/-! ## Runs -/

/-- **The pace of a client**: the held event is not before the clock, and no
market event was returned later than what the client has paid or owes. -/
structure InPace (c : CtxId) (s : Paced) : Prop where
  inv : BusInv s.world
  mode : (s.world.ctxs c).mode = .simulation
  held : ∀ e, (s.world.ctxs c).savedEvent = some e →
    (s.world.ctxs c).time .clockLocal ≤ (s.world.events e).timestamp
  sorted : s.market.Pairwise (· ≤ ·)
  paid : ∀ m ∈ s.market, m ≤ (s.world.ctxs c).time .clockLocal
    ∨ ∃ e, s.due = some (.market e) ∧ m ≤ (s.world.events e).timestamp
  owed : OwedAfter s.world c ((s.world.ctxs c).time .clockLocal) s.due

/-- `bus_set_time` with what is owed. -/
theorem InPace.setTime {s : Paced} {due : ClockDue} (h : InPace c s) (hdue : s.due = some due) :
    InPace c { s with world := (busSetTime s.world c (due.time s.world)).1, due := none } := by
  obtain ⟨hinv, hmode, hheld, hsorted, hpaid, howed⟩ := h
  rw [hdue] at howed
  have hf := busSetTime_frame s.world c (due.time s.world)
  obtain ⟨v, hv⟩ : ∃ v, v = (busSetTime s.world c (due.time s.world)).1 := ⟨_, rfl⟩
  rw [← hv] at hf ⊢
  have hsaved : (v.ctxs c).savedEvent = (s.world.ctxs c).savedEvent := by rw [hf.ctxs]
  have hevents : v.events = s.world.events := by rw [hf.rest]
  -- the clock goes to the time that is owed, unless it is there already
  have htime : (v.ctxs c).time .clockLocal
      = max ((s.world.ctxs c).time .clockLocal) (due.time s.world) := by
    rw [hv, busSetTime, if_neg (by rw [hmode]; decide)]
    split
    case isTrue hlt => exact (Nat.max_eq_left (Nat.le_of_lt hlt)).symm
    case isFalse hge =>
      rw [Nat.max_eq_right (Nat.le_of_not_lt hge)]
      simp [World.updCtx]
  refine ⟨hinv.of_clockFrame hf, by rw [hf.ctxs]; exact hmode, fun e he => ?_, hsorted,
    fun m hm => Or.inl ?_, trivial⟩
  · show (v.ctxs c).time .clockLocal ≤ (v.events e).timestamp
    rw [htime, hevents]
    have he' : (s.world.ctxs c).savedEvent = some e := hsaved.symm.trans he
    refine Nat.max_le.mpr ⟨hheld e he', ?_⟩
    cases due with
    | market x =>
        rw [howed.1] at he'
        cases he'
    | timer timeout =>
        obtain ⟨x, hx, hle⟩ := howed
        obtain rfl : x = e := Option.some.inj (hx.symm.trans he')
        exact hle
  · show m ≤ (v.ctxs c).time .clockLocal
    rw [htime]
    rcases hpaid m hm with hle | ⟨x, hx, hle⟩
    · exact Nat.le_trans hle (Nat.le_max_left _ _)
    · obtain rfl : due = .market x := Option.some.inj (hdue.symm.trans hx)
      exact Nat.le_trans hle (Nat.le_max_right _ _)

/-- The client takes the next event, once it has paid for the last. -/
theorem InPace.dequeue {s : Paced} (h : InPace c s) (hdue : s.due = none) (now : Nat) :
    ∃ s', (PaceOp.dequeue now).exec c s = some s' ∧ InPace c s' := by
  obtain ⟨w1, w2, w', o, hcall, hd⟩ := h.inv.busDequeue c now
  obtain ⟨acts, hlog, _, hkeep⟩ := hd.paced h.mode
  obtain ⟨hheld, howed⟩ := hkeep h.held
  have hdrop : w'.log.drop s.world.log.length = acts := by rw [hlog, List.drop_left]
  have htime : (w'.ctxs c).time = (s.world.ctxs c).time := hd.run.sameClock.time c
  -- nothing is owed, so every market time that was seen has passed
  have hpaid : ∀ m ∈ s.market, m ≤ (s.world.ctxs c).time .clockLocal := by
    intro m hm
    rcases h.paid m hm with hle | ⟨e, he, _⟩
    · exact hle
    · rw [hdue] at he
      cases he
  refine ⟨_, by rw [PaceOp.exec, hcall]; rfl, ?_⟩
  dsimp only
  rw [hdrop]
  generalize acts.findSome? (Act.clockDue c) = due at howed
  refine ⟨hd.run.inv, (hd.run.sameClock.mode c).trans h.mode, ?_, ?_, ?_, ?_⟩
  · rw [htime]
    exact hheld
  · show (s.market ++ marketTime w' due).Pairwise (· ≤ ·)
    refine List.pairwise_append.mpr ⟨h.sorted, ?_, fun m hm n hn => ?_⟩
    · cases due with
      | none => exact .nil
      | some due => cases due <;> simp [marketTime]
    · cases due with
      | none => cases hn
      | some due =>
          cases due with
          | timer timeout => cases hn
          | market e =>
              obtain rfl : n = (w'.events e).timestamp := List.mem_singleton.mp hn
              exact Nat.le_trans (hpaid m hm) howed.2
  · intro m hm
    rcases List.mem_append.mp hm with hm | hm
    · left
      rw [htime]
      exact hpaid m hm
    · cases due with
      | none => cases hm
      | some due =>
          cases due with
          | timer timeout => cases hm
          | market e => exact Or.inr ⟨e, rfl, Nat.le_of_eq (List.mem_singleton.mp hm)⟩
  · rw [htime]
    exact howed

/-- The client makes a call that leaves the clock and the held event alone. -/
theorem InPace.other {s : Paced} {op : BusOp} (h : InPace c s) (hclean : op.Clean s.world)
    (hpaces : op.paces c = false) :
    ∃ s', (PaceOp.other op).exec c s = some s' ∧ InPace c s' := by
  obtain ⟨w', r, hcall, hi', hdid⟩ := h.inv.call hclean
  have hab := BusOp.abides h.inv hclean hpaces hcall
  refine ⟨{ s with world := w' }, by rw [PaceOp.exec, hcall]; rfl, hi',
    (hdid.mode c).trans h.mode, fun e he => ?_, h.sorted, fun m hm => ?_, ?_⟩
  · rw [hab.time]
    exact Nat.le_trans (h.held e (hab.saved.symm.trans he)) (hab.stamp e)
  · rw [hab.time]
    rcases h.paid m hm with hle | ⟨e, he, hle⟩
    · exact Or.inl hle
    · exact Or.inr ⟨e, he, Nat.le_trans hle (hab.stamp e)⟩
  · have howed := h.owed
    dsimp only
    generalize s.due = due at howed
    cases due with
    | none => trivial
    | some due =>
        cases due with
        | market e =>
            refine ⟨hab.saved.trans howed.1, ?_⟩
            rw [hab.time]
            exact Nat.le_trans howed.2 (hab.stamp e)
        | timer timeout =>
            obtain ⟨e, he, hle⟩ := howed
            exact ⟨e, hab.saved.trans he, Nat.le_trans hle (hab.stamp e)⟩

/-- **Each step of a client that keeps pace.** -/
theorem InPace.step {s : Paced} {op : PaceOp} (h : InPace c s) (hop : op.KeepsPace c s) :
    ∃ s', op.exec c s = some s' ∧ InPace c s' := by
  cases op with
  | dequeue now => exact h.dequeue hop now
  | setTime =>
      obtain ⟨due, hdue⟩ := Option.ne_none_iff_exists'.mp hop
      exact ⟨_, by rw [PaceOp.exec, hdue]; rfl, h.setTime hdue⟩
  | other op => exact h.other hop.1 hop.2

/-- **The simulated clock never overtakes the held event, and the market
stream never runs backwards.** -/
theorem paceRun_held (hw : Booted w) (hsim : (w.ctxs c).mode = .simulation) (ops : List PaceOp)
    (hg : Guarded (PaceOp.exec c) (PaceOp.KeepsPace c) ⟨w, none, []⟩ ops) :
    ∃ s, run (PaceOp.exec c) ⟨w, none, []⟩ ops = some s
      ∧ (∀ e, (s.world.ctxs c).savedEvent = some e →
          (s.world.ctxs c).time .clockLocal ≤ (s.world.events e).timestamp)
      ∧ s.market.Pairwise (· ≤ ·)
      ∧ ∀ now, ∃ w' o acts, busDequeue s.world c now = some (w', o)
          ∧ w'.log = s.world.log ++ acts
          ∧ ∀ q, (w'.queues q).category = .market → Judged s.world c acts q := by
  have h0 : InPace c ⟨w, none, []⟩ := by
    refine ⟨hw.inv, hsim, fun e he => ?_, .nil, fun m hm => ?_, trivial⟩
    · rw [(hw.ctxs c).savedEvent] at he
      cases he
    · cases hm
  obtain ⟨s, hrun, hs⟩ := hg.total (fun _ _ hi hop => hi.step hop) ops h0
  refine ⟨s, hrun, hs.held, hs.sorted, fun now => ?_⟩
  obtain ⟨w1, w2, w', o, hcall, hd⟩ := hs.inv.busDequeue c now
  obtain ⟨acts, hlog, hjudged, _⟩ := hd.paced hs.mode
  exact ⟨w', o, acts, hcall, hlog, hjudged⟩

/-- A repeating timer fires while an event is held, and the event that comes
late is discarded. -/
theorem paceRun_held_late :
    ∃ s, run (PaceOp.exec 0) ⟨repeatingWorld, none, []⟩
        [.other (.push 0 5), .other (.addQueue 0 0), .other (.push 0 3), .other (.push 0 8),
          .other (.addTimer 0 9), .dequeue 0, .setTime, .dequeue 0, .setTime, .dequeue 0] = some s
      ∧ (∀ e, (s.world.ctxs 0).savedEvent = some e →
          (s.world.ctxs 0).time .clockLocal ≤ (s.world.events e).timestamp)
      ∧ s.market.Pairwise (· ≤ ·)
      ∧ ∀ now, ∃ w' o acts, busDequeue s.world 0 now = some (w', o)
          ∧ w'.log = s.world.log ++ acts
          ∧ ∀ q, (w'.queues q).category = .market → Judged s.world 0 acts q :=
  paceRun_held repeatingWorld_booted rfl _ (by decide +kernel)

end Ats
