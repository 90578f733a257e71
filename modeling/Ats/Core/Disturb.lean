import Ats.Core.MarketLine

/-!
# Disturb: what one bus does to another

A bus that saves a late event writes its timestamp, and the event may wait
on other buses too. Where the event waits nowhere else, every call is a step
of each bus by itself, so what a bus returns depends on its own inputs alone.
-/

namespace Ats

open World

variable {w w' w1 w2 v : World} {c d : CtxId} {q : QueueId} {e : EventId} {now : Nat}
  {o : Option EventId} {op : BusOp} {r : List (CtxId × EventId)}

/-! ## Calls that write nothing that waits -/

/-- `e` waits in `q`, which is registered on a bus. -/
def World.Waits (w : World) (q : QueueId) (e : EventId) : Prop :=
  (w.queues q).ctx.isSome ∧ e ∈ w.contents q

instance (w : World) (q : QueueId) (e : EventId) : Decidable (w.Waits q e) :=
  inferInstanceAs (Decidable (_ ∧ _))

/-- `e` waits in one place only: once in all registered queues, and saved on
no bus. -/
def World.Alone (w : World) (e : EventId) : Prop :=
  (∀ q < w.nextQueue, w.Waits q e →
      (w.contents q).count e = 1 ∧ ∀ p < w.nextQueue, w.Waits p e → p = q)
    ∧ ∀ q < w.nextQueue, ∀ d ∈ (w.queues q).ctx, (w.ctxs d).savedEvent ≠ some e

instance (w : World) (e : EventId) : Decidable (w.Alone e) :=
  inferInstanceAs (Decidable ((∀ q < w.nextQueue, w.Waits q e → _) ∧ ∀ q < w.nextQueue, _))

/-- The next kept event of `c` waits nowhere else, if it is late. -/
def RestampsAlone (w : World) (c : CtxId) : Prop :=
  (w.ctxs c).mode = .simulation → (w.ctxs c).savedEvent = none →
    ∀ e ∈ w.upNext c, keptWhenLate (w.events e).eventType →
      (w.events e).timestamp < (w.ctxs c).time .clockLocal → w.Alone e

instance (w : World) (c : CtxId) : Decidable (RestampsAlone w c) :=
  inferInstanceAs (Decidable (_ = _ → _ = _ → ∀ e ∈ w.upNext c, _ → _ → _))

/-- A clean call, and one that disturbs no bus. -/
def BusOp.Undisturbing (w : World) (op : BusOp) : Prop :=
  op.Clean w ∧ match op with
    | .dequeue c _ => RestampsAlone w c
    | _ => True

instance (w : World) : (op : BusOp) → Decidable (op.Undisturbing w)
  | .dequeue c _ => inferInstanceAs (Decidable (_ ∧ RestampsAlone w c))
  | .addQueue _ _ | .removeQueue _ _ | .push _ _ | .addTimer _ _ | .removeTimer _ _
  | .attach _ _ | .detach _ _ | .setTime _ _ | .setExchangeTime _ _ =>
      inferInstanceAs (Decidable (BusOp.Clean _ _ ∧ True))

/-- **The market block writes nothing that still waits.** -/
theorem Dequeued.unwritten (h : Dequeued w c now w1 w2 w' o) (hi : BusInv w) (hr : Ranked w)
    (hmode : (w.ctxs c).mode = .simulation) (halone : RestampsAlone w c) : Unwritten w1 w2 c := by
  have hi1 := h.enter.inv
  obtain ⟨hr1, hseen1, howns1⟩ := h.enter.ranked (by simp) (by simp) hr
  obtain ⟨hcont1, hsaved1⟩ := h.enter_held
  have hmode1 : (w1.ctxs c).mode = .simulation := by
    rw [h.enter.sameClock.mode c]
    exact hmode
  have hmarket := h.market hmode
  by_cases hsaved : (w1.ctxs c).savedEvent = none
  · have htaken := hi1.marketTaken _ hr1 hmode1 hsaved (h.marketLine hi hr) hmarket
    rw [firstKept_congr h.enter_events (h.enter.sameClock.time c)] at htaken
    change MarketTaken w1 w2 c (w.upNext c) at htaken
    -- what is written was late, so it waited nowhere but in the queue it was popped from
    have hwritten : ∀ x, w2.seen x ≠ w1.seen x → w.upNext c = some x ∧ w.Alone x := by
      intro x hx
      have hnext : w.upNext c = some x := by
        by_contra hno
        exact hx (htaken.others x hno)
      refine ⟨hnext, ?_⟩
      by_contra hno
      refine hx (htaken.inTime x hnext fun hlate => hno ?_)
      rw [h.enter_events, h.enter.sameClock.time c] at hlate
      exact halone hmode (by rw [← hsaved1]; exact hsaved) x hnext hlate.1 hlate.2
    refine ⟨fun d q hq x hx => ?_, fun d _ x hx => ?_⟩
    · -- in a queue: it would be in two, or twice in one
      by_contra hne
      obtain ⟨hnext, hal⟩ := hwritten x hne
      obtain ⟨p, hp, hsuf⟩ := htaken.taken x hnext
      have hpw := (howns1 c p).mp hp
      have hqw := (howns1 d q).mp hq
      have hwaitq : w.Waits q x :=
        ⟨by rw [hqw.2]; rfl, by rw [← hcont1]; exact (htaken.contents q).subset hx⟩
      have hwaitp : w.Waits p x :=
        ⟨by rw [hpw.2]; rfl, by rw [← hcont1]; exact hsuf.subset List.mem_cons_self⟩
      obtain ⟨hcount, hone⟩ := hal.1 p hpw.1 hwaitp
      obtain rfl := hone q hqw.1 hwaitq
      -- popped and still there: it was twice in the queue
      have htwo := hsuf.sublist.count_le x
      rw [List.count_cons_self, hcont1] at htwo
      have := List.count_pos_iff.mpr hx
      omega
    · -- saved: the queue it was saved from is registered on that bus
      by_contra hne
      obtain ⟨_, hal⟩ := hwritten x hne
      have hfrom := hi1.saved d
      rw [hx, Option.isSome_some, eq_comm, Option.isSome_iff_exists] at hfrom
      obtain ⟨p, hp⟩ := hfrom
      obtain ⟨hlt, hctx, _⟩ := hi1.savedFrom d p hp
      have hpw := (howns1 d p).mp ⟨hlt, hctx⟩
      exact hal.2 p hpw.1 d hpw.2 (by rw [← hsaved1]; exact hx)
  · rw [Ats.busSimulationMarket, if_neg fun hc => hsaved hc.2] at hmarket
    cases hmarket
    exact ⟨fun _ _ _ _ _ => rfl, fun _ _ _ _ => rfl⟩

/-- **Such a call of `bus_dequeue`** is a step of each bus by itself. -/
theorem BusInv.busDequeue_restamps (h : BusInv w) (hr : Ranked w) (halone : RestampsAlone w c)
    (now : Nat) : ∃ w' o, Ats.busDequeue w c now = some (w', o) ∧ Shown w w' c now o := by
  obtain ⟨w1, w2, w', o, hcall, hd, hshown⟩ := h.busDequeue_shown hr c now
  exact ⟨w', o, hcall, hshown fun hmode => hd.unwritten h hr hmode halone⟩

/-! ## What a bus is given and what it returns -/

/-- The calls of a bus at work. -/
def BusOp.Traffic : BusOp → Prop
  | .dequeue _ _ | .setTime _ _ | .push _ _ => True
  | _ => False

/-- What call `op`, from `w` to `w'`, is to bus `d`: a call on it, or the
events that it appended to queues of `d`. -/
def BusOp.inputs (d : CtxId) (w w' : World) : BusOp → List BusInput
  | .dequeue c now =>
      if c = d then [.dequeue now] else w'.arrivals d (w'.log.drop w.log.length)
  | .setTime c time => if c = d then [.setTime time] else []
  | _ => w'.arrivals d (w'.log.drop w.log.length)

/-- What a `bus_dequeue` on `d` returned. -/
def BusOp.outputs (d : CtxId) (r : List (CtxId × EventId)) : BusOp → List (Option EventId)
  | .dequeue c _ => if c = d then [r.head?.map Prod.snd] else []
  | _ => []

/-- The inputs of bus `d` along a run. -/
def busInputs (d : CtxId) : World → List BusOp → List BusInput
  | _, [] => []
  | w, op :: ops =>
      match op.exec w with
      | none => []
      | some (w', _) => op.inputs d w w' ++ busInputs d w' ops

/-- What `bus_dequeue` returned on `d`, call by call. -/
def busOutputs (d : CtxId) : World → List BusOp → List (Option EventId)
  | _, [] => []
  | w, op :: ops =>
      match op.exec w with
      | none => []
      | some (w', r) => op.outputs d r ++ busOutputs d w' ops

/-- `bus_set_time` on the bus and on the others. -/
theorem busSetTime_view (w : World) (c d : CtxId) (time : Nat) :
    (busSetTime w c time).1.view d = if c = d then (w.view d).setTime time else w.view d := by
  by_cases hd : c = d
  · subst hd
    have hmode : (w.view c).mode = (w.ctxs c).mode := rfl
    have htime : (w.view c).time = (w.ctxs c).time := rfl
    rw [if_pos rfl, busSetTime, BusView.setTime, hmode, htime]
    by_cases hreal : (w.ctxs c).mode = .realtime
    · rw [if_pos hreal, if_pos (Or.inl hreal)]
    · by_cases hback : time < (w.ctxs c).time .clockLocal
      · rw [if_neg hreal, if_pos hback, if_pos (Or.inr hback)]
      · rw [if_neg hreal, if_neg hback, if_neg fun hc => hc.elim hreal hback]
        have hx : (w.updCtx c fun x =>
            { x with time := Function.update x.time .clockLocal time }).ctxs c
            = { w.ctxs c with time := Function.update (w.ctxs c).time .clockLocal time } := by
          simp [World.updCtx]
        simp only [World.view, attachedQueues, World.queueNodes, World.queueMem,
          World.timerNodes, World.timerMem, hx]
        rfl
  · have hother : (w.updCtx c fun x =>
        { x with time := Function.update x.time .clockLocal time }).view d = w.view d :=
      w.view_updCtx c d fun hc => absurd hc.symm hd
    rw [if_neg hd, busSetTime]
    split
    · rfl
    · split
      · rfl
      · exact hother

/-- **Each call is a step of each bus by itself.** -/
theorem BusOp.Did.runs (hd : op.Did w w' r) (hi : BusInv w) (hr : Ranked w)
    (hop : op.Undisturbing w) (htraffic : op.Traffic) (hexec : op.exec w = some (w', r))
    (d : CtxId) : (w.view d).Runs (op.inputs d w w') (op.outputs d r) (w'.view d) := by
  cases op with
  | dequeue c now =>
      obtain ⟨u, o, hcall, hshown⟩ := hi.busDequeue_restamps hr hop.2 now
      rw [BusOp.exec, hcall] at hexec
      cases hexec
      rw [BusOp.inputs, BusOp.outputs]
      by_cases hc : c = d
      · subst hc
        rw [if_pos rfl, if_pos rfl]
        have hout : ((o.map fun e => (c, e)).toList.head?.map Prod.snd) = o := by
          cases o <;> rfl
        rw [hout]
        exact (BusView.Takes.dequeue hshown.own).runs
      · obtain ⟨acts, hlog, hruns⟩ := hshown.others d fun hc' => hc hc'.symm
        rw [if_neg hc, if_neg hc, hlog, List.drop_left]
        exact hruns
  | setTime c time =>
      cases hexec
      rw [busSetTime_view]
      show (w.view d).Runs (if c = d then [.setTime time] else []) [] _
      split
      · exact BusView.Takes.setTime.runs
      · exact BusView.Runs.nil
  | push q e =>
      obtain ⟨hpush | ⟨rfl, _⟩, _⟩ := hd
      · obtain ⟨_, hseen, howns⟩ := hpush.view d
        show (w.view d).Runs (w'.arrivals d (w'.log.drop w.log.length)) [] _
        rw [hpush.log, List.drop_left, World.arrivals_congr hseen howns]
        exact hpush.runs d
      · show (w'.view d).Runs (w'.arrivals d (w'.log.drop w'.log.length)) [] _
        rw [List.drop_length]
        exact BusView.Runs.nil
  | _ => exact htraffic.elim

theorem BusOp.Did.ranked_undisturbing (hd : op.Did w w' r) (hi : BusInv w) (hr : Ranked w)
    (hop : op.Undisturbing w) (hexec : op.exec w = some (w', r)) : Ranked w' := by
  by_cases hdeq : ∃ c now, op = .dequeue c now
  · obtain ⟨c, now, rfl⟩ := hdeq
    obtain ⟨u, o, hcall, hshown⟩ := hi.busDequeue_restamps hr hop.2 now
    rw [BusOp.exec, hcall] at hexec
    cases hexec
    exact hshown.ranked
  · exact hd.ranked hi hop.1 hexec (fun c now hc => hdeq ⟨c, now, hc⟩) hr

/-- **A run is a run of each bus by itself.** -/
theorem BusInv.runs (d : CtxId) : ∀ (ops : List BusOp) {w : World}, BusInv w → Ranked w →
    Along BusOp.Undisturbing w ops → (∀ op ∈ ops, op.Traffic) →
    ∃ w' rs, Ats.runOps w ops = some (w', rs)
      ∧ (w.view d).Runs (busInputs d w ops) (busOutputs d w ops) (w'.view d) := by
  intro ops
  induction ops with
  | nil =>
      intro w _ _ _ _
      exact ⟨w, [], rfl, BusView.Runs.nil⟩
  | cons op ops ih =>
      intro w hi hr hrun htraffic
      obtain ⟨hop, hrest⟩ := hrun
      obtain ⟨w1, r, hexec, hi1, hdid⟩ := hi.call hop.1
      rw [hexec] at hrest
      have hstep := hdid.runs hi hr hop (htraffic op List.mem_cons_self) hexec d
      obtain ⟨w', rs, hcall, hmore⟩ := ih hi1 (hdid.ranked_undisturbing hi hr hop hexec) hrest
        fun x hx => htraffic x (List.mem_cons_of_mem op hx)
      refine ⟨w', r ++ rs, ?_, ?_⟩
      · rw [Ats.runOps, hexec]
        show Option.bind (Ats.runOps w1 ops) _ = _
        rw [hcall]
        rfl
      · rw [busInputs, busOutputs, hexec]
        exact hstep.append hmore

/-! ## No bus disturbs another -/

/-- **What bus `d` returns depends on its own inputs alone**: from memories
where it holds the same, the same inputs yield the same events. -/
def DeliversAlone (w v : World) (d : CtxId) : Prop :=
  w.view d = v.view d → ∀ ops ops', (∀ op ∈ ops, op.Traffic) → (∀ op ∈ ops', op.Traffic) →
    Along BusOp.Undisturbing w ops → Along BusOp.Undisturbing v ops' →
    busInputs d w ops = busInputs d v ops' → busOutputs d w ops = busOutputs d v ops'

theorem BusInv.deliversAlone (hi : BusInv w) (hr : Ranked w) (hiv : BusInv v) (hrv : Ranked v)
    (d : CtxId) : DeliversAlone w v d := by
  intro hview ops ops' ht ht' hrun hrun' hin
  obtain ⟨_, _, _, h⟩ := hi.runs d ops hr hrun ht
  obtain ⟨_, _, _, h'⟩ := hiv.runs d ops' hrv hrun' ht'
  rw [hview, hin] at h
  exact (h.unique h').1

/-- `bus_dequeue` on `c` leaves the timestamps of the events that are queued
on other buses. -/
def LeavesStamps (w : World) (c : CtxId) (now : Nat) : Prop :=
  ∃ w' o, busDequeue w c now = some (w', o) ∧ ∀ d, d ≠ c → ∀ q, w.Owns d q →
    ∀ e ∈ w.contents q, (w'.events e).timestamp = (w.events e).timestamp

theorem BusInv.undisturbingRun (h : BusInv w) (hr : Ranked w) {ops : List BusOp}
    (hrun : Along BusOp.Undisturbing w ops) :
    ∃ w' rs, Ats.runOps w ops = some (w', rs) ∧ BusInv w' ∧ Ranked w' :=
  Along.keepsExec (I := fun v _ => Ranked v) (fun _ _ hc => hc.1) ops [] h hrun
    (fun _ _ _ _ _ _ hv _ hop hexec hdid hrv => hdid.ranked_undisturbing hv hrv hop hexec) hr

/-- **No bus disturbs another** in a run that restamps only events that wait
nowhere else: in every memory it reaches the heaps are in order, such a
`bus_dequeue` leaves the timestamps of what is queued on other buses, and
what a bus returns from then on depends on its own inputs alone. -/
theorem run_undisturbed (hw : Booted w) (ops : List BusOp)
    (hrun : Along BusOp.Undisturbing w ops) :
    ∃ w' rs, runOps w ops = some (w', rs) ∧ PipesOrdered w'
      ∧ (∀ c now, RestampsAlone w' c → LeavesStamps w' c now)
      ∧ ∀ v ops', Booted v → Along BusOp.Undisturbing v ops' →
          ∃ v' rs', runOps v ops' = some (v', rs') ∧ ∀ d, DeliversAlone w' v' d := by
  obtain ⟨w', rs, hcall, hi, hr⟩ := hw.inv.undisturbingRun hw.ranked hrun
  refine ⟨w', rs, hcall, hr.pipes, fun c now halone => ?_, fun v ops' hv hrun' => ?_⟩
  · obtain ⟨u, o, hdeq, hshown⟩ := hi.busDequeue_restamps hr halone now
    exact ⟨u, o, hdeq, fun d hd q hq e he =>
      congrArg Seen.timestamp (hshown.queued d hd q hq e he)⟩
  · obtain ⟨v', rs', hcall', hiv, hrv⟩ := hv.inv.undisturbingRun hv.ranked hrun'
    exact ⟨v', rs', hcall', fun d => hi.deliversAlone hr hiv hrv d⟩

/-- A late event that two buses were sent, saved by the one after the other
has returned it. -/
theorem run_undisturbed_two :
    ∃ w' rs, runOps (World.fresh .simulation 0 [(4, .market), (4, .market)]
        (fun e => ⟨1, if e = 3 then simulatorProgressEvent else askEvent, 0, e⟩))
        [.push 0 3, .push 1 1, .push 1 5, .addQueue 0 0, .addQueue 2 1, .attach 0 1, .attach 0 2,
          .dequeue 0 0, .dequeue 2 0, .setTime 1 9, .dequeue 2 0, .dequeue 1 0] = some (w', rs)
      ∧ PipesOrdered w'
      ∧ (∀ c now, RestampsAlone w' c → LeavesStamps w' c now)
      ∧ ∀ v ops', Booted v → Along BusOp.Undisturbing v ops' →
          ∃ v' rs', runOps v ops' = some (v', rs') ∧ ∀ d, DeliversAlone w' v' d :=
  run_undisturbed (World.fresh_booted (by simp)) _ (by decide +kernel)

/-- Saved by the one before the other has returned it, the event is written
where it waits: at the root of the heap of bus 2, which is out of order then. -/
theorem dequeue_disturbs :
    ∃ w rs, runOps (World.fresh .simulation 0 [(4, .market), (4, .market)]
        (fun e => ⟨1, if e = 3 then simulatorProgressEvent else askEvent, 0, e⟩))
        [.push 0 3, .push 1 1, .push 1 5, .addQueue 0 0, .addQueue 2 1, .attach 0 1, .attach 0 2,
          .dequeue 0 0, .dequeue 2 0, .setTime 1 9] = some (w, rs)
      ∧ w.Owns 2 3 ∧ w.contents 3 = [3] ∧ (w.events 3).timestamp = 3
      ∧ ∃ w', busDequeue w 1 0 = some (w', some 3)
        ∧ w'.contents 3 = [3] ∧ (w'.events 3).timestamp = 9
        ∧ ¬ LeavesStamps w 1 0 ∧ ¬ PipesOrdered w' := by
  have hrun : (runOps (World.fresh .simulation 0 [(4, .market), (4, .market)]
      (fun e => ⟨1, if e = 3 then simulatorProgressEvent else askEvent, 0, e⟩))
      [.push 0 3, .push 1 1, .push 1 5, .addQueue 0 0, .addQueue 2 1, .attach 0 1, .attach 0 2,
        .dequeue 0 0, .dequeue 2 0, .setTime 1 9]).any (fun x =>
        decide (x.1.Owns 2 3 ∧ x.1.contents 3 = [3] ∧ (x.1.events 3).timestamp = 3)
        && (busDequeue x.1 1 0).any fun y => decide (y.2 = some 3
          ∧ y.1.contents 3 = [3] ∧ (y.1.events 3).timestamp = 9
          ∧ y.1.queueNodes 2 .market = [3, 1] ∧ y.1.contents 1 = [5]
          ∧ (y.1.events 5).timestamp = 5)) = true := by
    decide +kernel
  rw [Option.any_eq_true] at hrun
  obtain ⟨⟨w, rs⟩, hcall, hw⟩ := hrun
  rw [Bool.and_eq_true, decide_eq_true_iff, Option.any_eq_true] at hw
  obtain ⟨⟨hown, hcont, hstamp⟩, ⟨w', r⟩, hdeq, hw'⟩ := hw
  rw [decide_eq_true_iff] at hw'
  obtain ⟨hr, hcont', hstamp', hnodes, hone, hfive⟩ := hw'
  simp only at hr hcont' hstamp' hnodes hone hfive hown hcont hstamp hdeq
  subst hr
  refine ⟨w, rs, hcall, hown, hcont, hstamp, w', hdeq, hcont', hstamp', ?_, fun hordered => ?_⟩
  · rintro ⟨u, o, hu, hleaves⟩
    cases hdeq.symm.trans hu
    have hsame := hleaves 2 (by decide) 3 hown 3 (by rw [hcont]; exact List.mem_cons_self)
    omega
  · -- the root of the heap is after its child
    have hle := (hordered 2 .market).root_le_of_mem (r := 3) (a := 1)
      (by rw [hnodes]; rfl) (by rw [hnodes]; decide)
    rw [queueKey, queueKey, Prod.Lex.toLex_le_toLex, hcont', hone, List.headD_cons,
      List.headD_cons, hstamp', hfive] at hle
    omega

end Ats
