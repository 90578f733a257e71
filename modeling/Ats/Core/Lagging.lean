import Ats.Core.Mirror

/-!
# Lagging: attached queues that are read at any pace

Each call keeps `Mirroring`, as long as `bus_dequeue` finds room in every
queue it copies to. Behind that condition lie 10000 slots: a destination
that lags further loses events, and does not learn of it.
-/

namespace Ats

variable {w w' w1 w2 : World} {c src dst : CtxId} {q a : QueueId} {e t : EventId}
  {n now : Nat} {o : Option EventId} {r : List (CtxId × EventId)}

/-! ## Room in the attached queues -/

/-- The event with which `bus_dequeue` on the simulation-mode bus `c` is
going to enter the forwarding loop. -/
def forwardsAt (w : World) (c : CtxId) (now : Nat) : Option EventId := do
  let w ← checkPendingQueue w c
  let w ← busSimulationMarket (busBacklog w c .market + 1) w c now
  if busSimulationSource w c = .saved then (w.ctxs c).savedEvent else none

/-- No attached queue is full when an event is copied. -/
def BusOp.Roomy (w : World) : BusOp → Prop
  | .dequeue c now => (w.ctxs c).mode = .simulation → ∀ e ∈ forwardsAt w c now,
      Forwarded w e → ∀ a ∈ attachedQueues w c, eventQueueIsFull w a = false
  | _ => True

/-- The client keeps to its own queues, those below `n`, attaches no bus to
itself, and detaches none. -/
def BusOp.Mirrors (n : Nat) : BusOp → Prop
  | .push q _ => q < n
  | .addQueue _ q => q < n
  | .attach src dst => src ≠ dst
  | .detach _ _ => False
  | _ => True

/-- What a run has to keep to. -/
def BusOp.Lossless (n : Nat) (w : World) (op : BusOp) : Prop :=
  op.Clean w ∧ op.Mirrors n ∧ op.Roomy w

instance BusOp.Roomy.decide (w : World) : (op : BusOp) → Decidable (op.Roomy w)
  | .dequeue c now => inferInstanceAs (Decidable ((w.ctxs c).mode = .simulation →
      ∀ e ∈ forwardsAt w c now, Forwarded w e →
        ∀ a ∈ attachedQueues w c, eventQueueIsFull w a = false))
  | .addQueue _ _ | .removeQueue _ _ | .push _ _ | .addTimer _ _ | .removeTimer _ _
  | .attach _ _ | .detach _ _ | .setTime _ _ | .setExchangeTime _ _ =>
      inferInstanceAs (Decidable True)

instance BusOp.Mirrors.decide (n : Nat) : (op : BusOp) → Decidable (op.Mirrors n)
  | .push q _ => inferInstanceAs (Decidable (q < n))
  | .addQueue _ q => inferInstanceAs (Decidable (q < n))
  | .attach src dst => inferInstanceAs (Decidable (src ≠ dst))
  | .detach _ _ => inferInstanceAs (Decidable False)
  | .removeQueue _ _ | .addTimer _ _ | .removeTimer _ _ | .setTime _ _
  | .setExchangeTime _ _ | .dequeue _ _ => inferInstanceAs (Decidable True)

instance (n : Nat) (w : World) (op : BusOp) : Decidable (op.Lossless n w) :=
  inferInstanceAs (Decidable (_ ∧ _ ∧ _))

theorem Dequeued.forwardsAt (h : Dequeued w c now w1 w2 w' o)
    (hsim : (w.ctxs c).mode = .simulation) (hs : busSimulationSource w2 c = .saved) :
    Ats.forwardsAt w c now = (w2.ctxs c).savedEvent := by
  rw [Ats.forwardsAt, h.check]
  simp only [Option.bind_eq_bind, Option.bind_some, h.market hsim, hs, if_true]

theorem Dequeued.sameClock (h : Dequeued w c now w1 w2 w' o) : SameClock w w2 :=
  h.enter.sameClock.trans h.look.run.sameClock

/-- The attached queues are as before the call when the loop reaches them. -/
theorem Dequeued.roomy (h : Dequeued w c now w1 w2 w' o) (hi : BusInv w)
    (hm : Mirroring n w) (hsim : (w.ctxs c).mode = .simulation)
    (hs : busSimulationSource w2 c = .saved) (he : (w2.ctxs c).savedEvent = some e)
    (hfw : Forwarded w2 e) (hroom : (BusOp.dequeue c now).Roomy w) :
    ∀ a ∈ attachedQueues w2 c, Roomy w2 a := by
  intro a ha
  have hq := h.quiet
  have htab : attachedQueues w2 c = attachedQueues w c := by
    rw [attachedQueues, attachedQueues, (hq.attached c).1, (hq.attached c).2]
  rw [htab] at ha
  obtain ⟨_, hlt, d, hd, hctx⟩ := hm.placed c a (hm.mem_attachedQueues.mp ha)
  have hsame : w2.queues a = w.queues a := hq.queues_ne a (by
    rw [hctx]
    exact fun hc => hd (Option.some.inj hc))
  have hnot := hroom hsim e (by rw [h.forwardsAt hsim hs]; exact he)
    ((Forwarded.congr h.sameClock.type e).mp hfw) a ha
  have hring := hi.queue.ring a hlt
  have hcont : w2.contents a = w.contents a := by rw [World.contents, hsame, World.contents]
  have hne : (w.contents a).length + 1 ≠ (w.queues a).spsc.capacity := by
    intro hc
    have hfull : eventQueueIsFull w a = true := hring.isFull_iff.mpr hc
    rw [hfull] at hnot
    cases hnot
  rw [Roomy, hcont, hsame]
  exact Nat.lt_of_le_of_ne hring.fits hne

/-! ## Each call -/

/-- The saved event is handed out and not copied. -/
theorem Mirroring.release_skip (h : Mirroring n w) (hun : busUnsave w c = some (w', e))
    (hskip : (w.ctxs c).mode = .simulation → ¬ Forwarded w e) : Mirroring n w' := by
  obtain ⟨q, _, _, rfl⟩ := busUnsave_eq hun
  have hctx : ∀ {β : Type} (g : Ctx → β), (∀ x, g { x with
      savedEvent := none, savedFrom := none } = g x) → ∀ d,
      g ((w.updCtx c fun x => { x with savedEvent := none, savedFrom := none }).ctxs d)
        = g (w.ctxs d) := fun g hg d => w.updCtx_proj c d g hg
  refine h.aside [.give c .market q e] rfl (fun x hx => ?_)
    (fun d => ⟨hctx Ctx.attached (fun _ => rfl) d, hctx Ctx.attachedCount (fun _ => rfl) d⟩)
    rfl (fun _ _ => rfl) (hctx Ctx.mode (fun _ => rfl)) (fun _ => rfl)
    (fun _ _ _ hx => hx)
  rw [List.mem_singleton] at hx
  rw [hx]
  refine ⟨rfl, fun _ _ => rfl, fun s hs => if_neg ?_⟩
  rintro ⟨rfl, hfw⟩
  exact hskip hs hfw

/-- The number of queues attached to `c` that hold `e`. -/
def attachedCopies (w : World) (c : CtxId) (e : EventId) : Nat :=
  ((attachedQueues w c).filter fun a => decide (e ∈ w.contents a)).length

/-- **Each market event that was returned was returned by this call, and
has gained a reference for each attached queue that holds it.** -/
structure Counted (w w' : World) (c : CtxId) (o : Option EventId) : Prop where
  log : ∃ acts, w'.log = w.log ++ acts ∧ ∀ q e, .give c .market q e ∈ acts →
    o = some e ∧ ∀ x, (w'.events x).refcount
      = (w.events x).refcount + if x = e then (attachedCopies w' c e : Int) else 0

theorem Quiet.counted (h : Quiet w w' c) : Counted w w' c o := by
  obtain ⟨acts, hlog, hacts⟩ := h.log
  exact ⟨acts, hlog, fun q e hm => absurd (hacts _ hm) id⟩

/-- A quiet stretch, then the hand-out of the saved event with its copies. -/
theorem Counted.release (hq : Quiet w w2 c) {v : World}
    (hun : busUnsave w2 c = some (v, e)) (hcopy : Copied v w' (attachedQueues v c) e)
    (hall : ∀ a ∈ attachedQueues v c, e ∈ w'.contents a) : Counted w w' c (some e) := by
  obtain ⟨p, _, _, hv⟩ := busUnsave_eq hun
  obtain ⟨acts, hlog, hacts⟩ := hq.log
  have hlogv : v.log = w2.log ++ [.give c .market p e] := by rw [hv]; rfl
  have hcount : attachedCopies w' c e = (attachedQueues v c).length := by
    have htab : attachedQueues w' c = attachedQueues v c := by
      rw [attachedQueues, attachedQueues, (hcopy.attached c).1, (hcopy.attached c).2]
    rw [attachedCopies, htab, List.filter_eq_self.mpr (fun a ha => by simpa using hall a ha)]
  refine ⟨⟨acts ++ handOutActs c p e (attachedQueues v c), ?_, fun q x hm => ?_⟩⟩
  · rw [hcopy.log, hlogv, hlog]
    simp [handOutActs]
  · have hx : x = e := by
      rcases List.mem_append.mp hm with hm | hm
      · exact absurd (hacts _ hm) id
      · exact give_mem_handOutActs hm
    subst hx
    refine ⟨rfl, fun y => ?_⟩
    have hev : v.events = w2.events := by rw [hv]; rfl
    rw [hcopy.refcount, hcount, hev, hq.refcount]

/-- The same where nothing is copied. -/
theorem Counted.release_skip (hq : Quiet w w2 c)
    (hun : busUnsave w2 c = some (w', e)) (hnone : attachedCopies w' c e = 0) :
    Counted w w' c (some e) := by
  obtain ⟨p, _, _, hv⟩ := busUnsave_eq hun
  obtain ⟨acts, hlog, hacts⟩ := hq.log
  have hlogv : w'.log = w2.log ++ [.give c .market p e] := by rw [hv]; rfl
  refine ⟨⟨acts ++ [.give c .market p e], by rw [hlogv, hlog, List.append_assoc],
    fun q x hm => ?_⟩⟩
  have hx : x = e := by
    rcases List.mem_append.mp hm with hm | hm
    · exact absurd (hacts _ hm) id
    · rw [List.mem_singleton] at hm
      cases hm
      rfl
  subst hx
  refine ⟨rfl, fun y => ?_⟩
  have hev : w'.events = w2.events := by rw [hv]; rfl
  rw [hev, hq.refcount, hnone]
  split <;> exact (Int.add_zero _).symm

/-- **`bus_dequeue` with room** keeps the mirrors, and counts its copies. -/
theorem Mirroring.dequeue (h : Mirroring n w) (hi : BusInv w)
    (hd : Dequeued w c now w1 w2 w' o) (hroom : (BusOp.dequeue c now).Roomy w) :
    Mirroring n w' ∧ ((w.ctxs c).mode = .simulation → Counted w w' c o) := by
  have hq := hd.quiet
  have h2 := h.quiet hq hd.sameClock
  have hi2 := hd.look.run.inv
  have hserved := hd.served
  have hclock := hd.finish.sameClock
  have hsource : (w.ctxs c).mode = .simulation → busSource w2 c now = .saved →
      busSimulationSource w2 c = .saved := by
    intro hsim hs
    rwa [busSource_simulation (hd.mode.trans hsim)] at hs
  generalize hsrc : busSource w2 c now = source at hserved hsource
  cases hserved with
  | timer hpop =>
      have hq' := (BusStep.fire hpop).quiet hi2 (c := c) (by simp [quietKinds])
      exact ⟨h2.quiet hq' hclock, fun _ => (hq.trans hq').counted⟩
  | pipe hpop hk =>
      have hq' := (BusStep.give hpop hk).quiet hi2 (c := c) (by simp [quietKinds])
      exact ⟨h2.quiet hq' hclock, fun _ => (hq.trans hq').counted⟩
  | nothing => exact ⟨h2, fun _ => hq.counted⟩
  | @saved e v w' hun hgo =>
      have he := busUnsave_savedEvent hun
      obtain ⟨p, _, _, hv⟩ := busUnsave_eq hun
      have htabv : attachedQueues v c = attachedQueues w2 c := by
        rw [hv]
        simp [attachedQueues, World.note, World.updCtx]
      have hcontv : ∀ b, v.contents b = w2.contents b := fun b => by rw [hv]; rfl
      by_cases hsim : (w2.ctxs c).mode = .simulation
      · have hsim0 : (w.ctxs c).mode = .simulation := hd.mode ▸ hsim
        rw [if_pos hsim] at hgo
        by_cases hfw : Forwarded w2 e
        · have hroomy := hd.roomy hi h hsim0 (hsource hsim0 rfl) he hfw hroom
          have hiv := hi2.of_busUnsave hun
          have hfwv : Forwarded v e := by
            rw [hv]
            exact hfw
          obtain ⟨w'', hloop, hcopy⟩ := hiv.forwardLoop (c := c) e
            (List.range (v.ctxs c).attachedCount) (fun i hlt => List.mem_range.mp hlt) hfwv
            (by
              show (attachedQueues v c).Nodup
              rw [htabv]
              exact h2.nodup_attachedQueues c)
            (fun b hb => by
              have hb' : b ∈ attachedQueues w2 c := htabv ▸ hb
              have := hroomy b hb'
              rw [Roomy] at this ⊢
              rw [hcontv, hv]
              exact this)
          have hsame : w'' = w' := Option.some.inj (hloop.symm.trans hgo)
          subst hsame
          have hcopy' : Copied v w'' (attachedQueues v c) e := hcopy
          refine ⟨h2.release hsim hun hfw (htabv ▸ hcopy'), fun _ => ?_⟩
          refine Counted.release hq hun hcopy' (fun b hb => ?_)
          rw [hcopy'.contents, if_pos hb]
          exact List.mem_append_right _ List.mem_cons_self
        · have hfwv : ¬ Forwarded v e := by
            rw [hv]
            exact hfw
          rw [busForward_skip hfwv] at hgo
          cases hgo
          refine ⟨h2.release_skip hun (fun _ => hfw), fun _ => ?_⟩
          refine Counted.release_skip hq hun ?_
          rw [attachedCopies, List.length_eq_zero_iff, List.filter_eq_nil_iff, htabv]
          intro b hb hmem
          rw [decide_eq_true_iff, hcontv] at hmem
          exact hfw (h2.forwarded c b (h2.mem_attachedQueues.mp hb) e hmem)
      · rw [if_neg hsim] at hgo
        subst hgo
        exact ⟨h2.release_skip hun (fun hc => absurd hc hsim),
          fun hc => absurd (hd.mode.trans hc) hsim⟩

/-- **`bus_attach`** starts a mirror. -/
theorem Mirroring.attach (h : Mirroring n w)
    (hatt : QueueAttached w w' src dst w.nextQueue) (hne : src ≠ dst) : Mirroring n w' := by
  -- the new queue has never been attached before
  have hold : ∀ {s b}, .attach s b ∈ w.log → b ≠ w.nextQueue :=
    fun hm => Nat.ne_of_lt (h.placed _ _ hm).2.1
  have hmem : ∀ {s b}, .attach s b ∈ w'.log →
      .attach s b ∈ w.log ∨ s = src ∧ b = w.nextQueue := by
    intro s b hm
    rw [hatt.log] at hm
    rcases List.mem_append.mp hm with hm | hm
    · exact Or.inl hm
    · rcases List.mem_cons.mp hm with hm | hm
      · cases hm
        exact Or.inr ⟨rfl, rfl⟩
      · rw [List.mem_singleton] at hm
        cases hm
  have ht : ∀ x, (w'.events x).eventType = (w.events x).eventType :=
    fun x => by rw [hatt.events]
  have hpushed : ∀ b, w'.pushed b = w.pushed b := by
    intro b
    rw [World.pushed, hatt.log, List.filterMap_append]
    exact List.append_nil _
  refine ⟨?_, fun s => ?_, ?_, fun s b hm => ?_, fun p hp => ?_, fun s b hm hs => ?_,
    fun s b hm x hx => ?_⟩
  · rw [hatt.nextQueue]
    exact Nat.le_succ_of_le h.start
  · rw [hatt.table, hatt.log, List.filterMap_append, ← h.tables]
    by_cases hs : s = src
    · subst hs
      have hlast : [Act.attach s w.nextQueue, .register dst w.nextQueue].filterMap
          (Act.attachedTo s) = [w.nextQueue] := by
        simp [Act.attachedTo]
      rw [if_pos rfl, hlast]
    · have hnone : [Act.attach src w.nextQueue, .register dst w.nextQueue].filterMap
          (Act.attachedTo s) = [] := by
        have hs' : ¬ src = s := fun hc => hs hc.symm
        simp [Act.attachedTo, hs']
      rw [if_neg hs, hnone, List.append_nil]
  · rw [hatt.log, List.filterMap_append]
    refine List.nodup_append.mpr ⟨h.nodup, List.nodup_singleton w.nextQueue, ?_⟩
    intro x hx y hy hxy
    obtain ⟨z, hz, hzx⟩ := List.mem_filterMap.mp hx
    have hy' : y = w.nextQueue := List.mem_singleton.mp hy
    cases z with
    | attach s b =>
        cases hzx
        exact hold hz (hxy.trans hy')
    | _ => cases hzx
  · rw [hatt.nextQueue]
    rcases hmem hm with hm | ⟨rfl, rfl⟩
    · obtain ⟨hn, hlt, d, hd, hctx⟩ := h.placed s b hm
      refine ⟨hn, Nat.lt_succ_of_lt hlt, d, hd, ?_⟩
      rw [hatt.others b (hold hm)]
      exact hctx
    · exact ⟨h.start, Nat.lt_succ_self _, dst, hne.symm, hatt.ctx⟩
  · rw [hatt.nextQueue] at hp
    rw [hpushed]
    exact h.unborn p (Nat.le_of_succ_le hp)
  · have hmode : (w.ctxs s).mode = .simulation := by rw [hatt.ctxs] at hs; exact hs
    rcases hmem hm with hm | ⟨rfl, rfl⟩
    · refine (h.mirror s b hm hmode).append hatt.log ht (fun hc => ?_) rfl
      rcases List.mem_cons.mp hc with hc | hc
      · cases hc
        exact hold hm rfl
      · rw [List.mem_singleton] at hc
        cases hc
    · -- nothing has been returned or pushed since the new mirror is there
      intro pre post hl
      -- the split of the history at the attaching is the one that was just made
      have hout : Act.attach s w.nextQueue ∉ w.log := fun hc => hold hc rfl
      have hpost : post = [.register dst w.nextQueue] := by
        rw [hatt.log] at hl
        exact ((List.append_cons_inj_of_notMem hout (by simp)).mp hl).2.2.symm
      rw [hpushed, h.unborn _ (Nat.le_refl _), hpost]
      rfl
  · rw [Forwarded.congr ht]
    rcases hmem hm with hm | ⟨rfl, rfl⟩
    · rw [hatt.contents_ne (hold hm)] at hx
      exact h.forwarded s b hm x hx
    · rw [hatt.contents] at hx
      cases hx

/-- A call on timers. -/
theorem Mirroring.timerFrame (h : Mirroring n w) (hf : TimerFrame w w') :
    Mirroring n w' :=
  h.aside [] (by rw [hf.log, List.append_nil]) (fun x hx => by cases hx)
    (fun d => ⟨hf.sameSlots.attached d, hf.sameSlots.count d⟩) hf.nextQueue
    (fun p _ => by rw [hf.queues]) (fun d => hf.ctx_proj d Ctx.mode (fun _ _ _ => rfl))
    (fun x => by rw [hf.events]) (fun p _ x hx => hf.sameQueues.contents p ▸ hx)

/-- A call on a clock. -/
theorem Mirroring.clock (h : Mirroring n w) (hf : ClockFrame w w') : Mirroring n w' :=
  h.aside [] (by rw [hf.rest, List.append_nil]) (fun x hx => by cases hx)
    (fun d => ⟨hf.sameSlots.attached d, hf.sameSlots.count d⟩) (by rw [hf.rest])
    (fun p _ => by rw [hf.rest]) (fun d => by rw [hf.ctxs]) (fun x => by rw [hf.rest])
    (fun p _ x hx => hf.sameQueues.contents p ▸ hx)

/-- **Each call keeps the mirrors.** -/
theorem BusOp.Did.mirroring {op : BusOp} (hd : op.Did w w' r) (hi : BusInv w)
    (hop : op.Lossless n w) (h : Mirroring n w) : Mirroring n w' := by
  obtain ⟨_, hmir, hroom⟩ := hop
  cases op with
  | addQueue c q =>
      obtain ⟨hadd, _⟩ := hd
      have hne : ∀ p, n ≤ p → p ≠ q := fun p hp =>
        (Nat.ne_of_lt (Nat.lt_of_lt_of_le hmir hp)).symm
      have hslots := hadd.sameSlots
      refine h.aside _ hadd.log (fun x hx => ?_)
        (fun d => ⟨hslots.attached d, hslots.count d⟩) hadd.frame.nextQueue
        (fun p hp => by rw [hadd.others p (hne p hp)])
        (fun d => hadd.frame.ctx_proj d Ctx.mode (fun _ _ _ => rfl))
        (fun x => by rw [hadd.frame.events]; rfl) (fun p _ x hx => hadd.contents p ▸ hx)
      rw [List.mem_singleton] at hx
      rw [hx]
      exact Act.Quiet.aside trivial
  | removeQueue c q =>
      obtain ⟨_, _, rfl | ⟨ys, hset⟩⟩ := hd
      · exact h
      · have hf := hset.frame
        exact h.aside [] (by rw [hset.log, List.append_nil])
          (fun x hx => by cases hx) (fun d => ⟨hf.sameSlots.attached d, hf.sameSlots.count d⟩)
          hf.nextQueue (fun p _ => hf.queue_ctx p) hf.sameClock.mode hf.sameClock.type
          (fun p _ x hx => hset.contents p ▸ hx)
  | push q e =>
      obtain ⟨hpush | ⟨rfl, _⟩, _⟩ := hd
      · have hslots := hpush.sameSlots
        refine h.aside _ hpush.log (fun x hx => ?_)
          (fun d => ⟨hslots.attached d, hslots.count d⟩) hpush.nextQueue
          (fun p _ => hpush.queue_ctx p) hpush.sameClock.mode hpush.sameClock.type
          (fun p hp x hx => ?_)
        · rw [List.mem_singleton] at hx
          rw [hx]
          exact Act.aside_push hmir
        · rwa [hpush.contents_ne (Nat.ne_of_lt (Nat.lt_of_lt_of_le hmir hp)).symm] at hx
      · exact h
  | addTimer c t =>
      obtain ⟨harm, _⟩ := hd
      exact h.timerFrame harm.frame
  | removeTimer c t =>
      obtain ⟨_, _, rfl | ⟨ys, hset⟩⟩ := hd
      · exact h
      · exact h.timerFrame hset.frame
  | attach src dst =>
      obtain ⟨hatt, _⟩ := hd
      exact h.attach hatt hmir
  | detach src dst => exact absurd hmir id
  | setTime c time =>
      obtain ⟨hf, _⟩ := hd
      exact h.clock hf
  | setExchangeTime c time =>
      obtain ⟨hf, _⟩ := hd
      exact h.clock hf
  | dequeue c now =>
      obtain ⟨w1, w2, o, hdeq, _⟩ := hd
      exact (h.dequeue hi hdeq hroom).1

/-! ## Runs -/

/-- **Attached queues receive the market stream** of a simulation-mode bus,
in every run in which no queue is full when an event is copied to it: what
was appended to an attached queue is what the bus has returned since, less
`QUEUE_OPEN` and `QUEUE_CLOSE`; and an event gains a reference for each
queue that holds it, in each further call that finds room. -/
theorem runOps_mirrored (hw : Booted w) (ops : List BusOp)
    (hrun : Along (BusOp.Lossless w.nextQueue) w ops) :
    ∃ w' rs, runOps w ops = some (w', rs) ∧ w'.log.filterMap Act.returned = rs
      ∧ (∀ src a, .attach src a ∈ w'.log → (w'.ctxs src).mode = .simulation →
          Mirrors w' src a)
      ∧ ∀ c now, (w'.ctxs c).mode = .simulation → (BusOp.dequeue c now).Roomy w' →
          ∃ w'' o, busDequeue w' c now = some (w'', o) ∧ Counted w' w'' c o := by
  obtain ⟨w', rs, hcall, hi', hm, hret⟩ := Along.keeps
    (I := fun v rs => Mirroring w.nextQueue v ∧ v.log.filterMap Act.returned = rs)
    (fun _ _ hc => hc.1) ops [] hw.inv hrun
    (fun op _ v v' r rs hv _ hop hdid hp => ⟨hdid.mirroring hv hop hp.1, by
      rw [hdid.returned, hp.2]⟩)
    ⟨hw.mirroring, by rw [hw.log]; rfl⟩
  refine ⟨w', rs, hcall, hret, hm.mirror, fun c now hsim hroom => ?_⟩
  obtain ⟨_, _, w'', o, hdeq, hd⟩ := hi'.busDequeue c now
  exact ⟨w'', o, hdeq, (hm.dequeue hi' hd hroom).2 hsim⟩

/-- Bus 0 is attached to bus 1, which reads at its own pace. -/
theorem runOps_mirrored_two :
    ∃ w' rs, runOps (World.fresh .simulation 0 [(4, .market)]
        (fun e => ⟨1, if e = 3 then queueOpenEvent else askEvent, 0, e⟩))
        [.push 0 3, .push 0 4, .attach 0 1, .addQueue 0 0, .dequeue 0 0, .push 0 5,
          .dequeue 0 0, .dequeue 1 0, .dequeue 0 0] = some (w', rs)
      ∧ w'.log.filterMap Act.returned = rs
      ∧ (∀ src a, .attach src a ∈ w'.log → (w'.ctxs src).mode = .simulation →
          Mirrors w' src a)
      ∧ ∀ c now, (w'.ctxs c).mode = .simulation → (BusOp.dequeue c now).Roomy w' →
          ∃ w'' o, busDequeue w' c now = some (w'', o) ∧ Counted w' w'' c o :=
  runOps_mirrored (World.fresh_booted (by simp)) _ (by decide +kernel)

/-! ## A destination that does not read -/

/-- Queue 1 is attached to bus 0 and nobody reads it, queue 0 of bus 0 has
been read up, the look-ahead holds `x`, and `j` events have been returned. -/
structure Flooded (j : Nat) (x : Option EventId) (w : World) : Prop where
  inv : BusInv w
  mode : (w.ctxs 0).mode = .simulation
  time : (w.ctxs 0).time .clockLocal = 0
  timers : ∀ k, w.timerNodes 0 k = []
  pipes : ∀ k, w.queueNodes 0 k = []
  pending : (w.ctxs 0).pendingQueue = []
  saved : (w.ctxs 0).savedEvent = x
  next : w.nextQueue = 2
  queue : (w.queues 0).ctx = some 0 ∧ (w.queues 0).category = .market
  empty : w.contents 0 = []
  type : (w.events 7).eventType = askEvent
  table : (w.ctxs 0).attachedCount = 1 ∧ (w.ctxs 0).attached 0 = some 1
  copy : (w.queues 1).ctx = some 1 ∧ (w.queues 1).spsc.capacity = attachedCapacity
  copied : w.pushed 1 = w.contents 1
  log : ∃ pre post, w.log = pre ++ .attach 0 1 :: post
    ∧ (post.filterMap (Act.mirrored w 0)).length = j

variable {j : Nat} {x : Option EventId}

/-- A further entry of the history that is on neither side. -/
theorem Flooded.log_aside (h : Flooded j x w) {acts : List Act}
    (hlog : w'.log = w.log ++ acts) (hacts : ∀ y ∈ acts, y.Aside 1 w)
    (ht : ∀ x, (w'.events x).eventType = (w.events x).eventType)
    (hcont : w'.contents 1 = w.contents 1) :
    w'.pushed 1 = w'.contents 1 ∧ ∃ pre post, w'.log = pre ++ .attach 0 1 :: post
      ∧ (post.filterMap (Act.mirrored w' 0)).length = j := by
  obtain ⟨pre, post, hl, hj⟩ := h.log
  have hp : acts.filterMap (Act.pushedOn 1) = [] :=
    List.filterMap_eq_nil_iff.mpr (fun y hy => (hacts y hy).pushedOn 1 (Nat.le_refl 1))
  have hm : acts.filterMap (Act.mirrored w 0) = [] :=
    List.filterMap_eq_nil_iff.mpr (fun y hy => (hacts y hy).mirrored 0 h.mode)
  refine ⟨?_, pre, post ++ acts, ?_, ?_⟩
  · rw [World.pushed, hlog, List.filterMap_append, hp, List.append_nil, hcont, ← h.copied,
      World.pushed]
  · rw [hlog, hl, List.append_assoc]
    rfl
  · rw [mirrored_congr ht, List.filterMap_append, hm, List.append_nil, hj]

/-- `check_pending_queue` puts the queue back into its heap. -/
theorem Flooded.relink (h : Flooded j none w) (hpush : QueuePushed w w1 0 7) (h1 : BusInv w1)
    {v : World} (hcheck : checkPendingQueue w1 0 = some v) :
    BusInv v ∧ v.queueNodes 0 .market = [0] ∧ (∀ k, k ≠ .market → v.queueNodes 0 k = [])
      ∧ v.contents 0 = [7] ∧ (v.ctxs 0).savedEvent = none
      ∧ (v.queues 0).category = .market := by
  have hx1 : (w1.ctxs 0).pendingQueue = [0] := by
    rw [hpush.ctxs, h.pending]
    simp [h.empty, h.queue.1]
  obtain ⟨v', hadd, hstep, hv, _, _⟩ := h1.reenter hx1
  obtain rfl : v' = v := by
    rw [checkPendingQueue, hx1, List.length_singleton, checkPendingLoop, hx1] at hcheck
    simp only [hadd, Option.bind_eq_bind, Option.bind_some] at hcheck
    exact Option.some.inj hcheck
  cases hstep with
  | reenter hp' hqa =>
  rw [hx1] at hp'
  cases hp'
  obtain ⟨_, hnodes0, _⟩ := h1.queue.unpend hx1
  have hcat1 : (w1.queues 0).category = .market := (hpush.queue_category 0).trans h.queue.2
  have hc1 : w1.contents 0 = [7] := by rw [hpush.contents, h.empty]; rfl
  have hnone : ∀ k, w1.queueNodes 0 k = [] := fun k => (hpush.queueNodes 0 k).trans (h.pipes k)
  refine ⟨hv, ?_, fun k hk => ?_, (hqa.contents 0).trans hc1, ?_, hqa.category.trans hcat1⟩
  · have hperm := hqa.nodes
    have hne : w1.contents 0 ≠ [] := by rw [hc1]; exact List.cons_ne_nil _ _
    have hc0 : (w1.updCtx 0 fun y => { y with pendingQueue := [] }).contents 0
      = w1.contents 0 := rfl
    have hq0 : (w1.updCtx 0 fun y => { y with pendingQueue := [] }).queues = w1.queues := rfl
    rw [hc0, if_neg hne, hnodes0, hq0, hcat1, hnone] at hperm
    exact List.perm_singleton.mp hperm
  · rw [hqa.nodes_ne 0 k (Or.inr (fun hc => hk (hc.trans hcat1))), hnodes0, hnone]
  · rw [hqa.frame.savedEvent]
    simpa [World.updCtx, World.updQueue, hpush.ctxs] using h.saved

/-- The loop over the market takes the event, which is not late, and saves it. -/
theorem Flooded.accept (h : Flooded j none w) {v v2 : World} (hv : BusInv v)
    (hclock : SameClock w v) (hmarket : v.queueNodes 0 .market = [0]) (hc : v.contents 0 = [7])
    (hsaved : (v.ctxs 0).savedEvent = none)
    (hmkt : busSimulationMarket (busBacklog v 0 .market + 1) v 0 now = some v2) :
    ∃ u, PipePop v u 0 .market 0 7 ∧ u.contents 0 = [] ∧ v2 = busSave u 0 0 7 := by
  have hn : v.queueNodes 0 .market ≠ [] := by rw [hmarket]; exact List.cons_ne_nil _ _
  have hgo : ¬ pipeIsEmpty v 0 .market = true ∧ (v.ctxs 0).savedEvent = none :=
    ⟨fun hc => hn ((hv.queue.pipeIsEmpty_iff 0 .market).mp hc), hsaved⟩
  obtain ⟨u, q, e, hcall, hpop, _⟩ := hv.queue.eventPopFormPipe hn
  obtain rfl : 0 = q := by
    have hfirst := hpop.first
    rw [hmarket] at hfirst
    exact Option.some.inj hfirst
  have hcu := hpop.contents
  rw [hc, List.cons.injEq] at hcu
  obtain ⟨rfl, hcu⟩ := hcu
  have hclocku : SameClock w u := hclock.trans hpop.frame.sameClock
  have htype : (u.events 7).eventType = askEvent := (hclocku.type 7).trans h.type
  have hmodeu : (u.ctxs 0).mode = .simulation := (hclocku.mode 0).trans h.mode
  have hacc : busSimulationAccept u 0 now 0 7 = (busSave u 0 0 7, false) := by
    have hstop : ¬ (u.events 7).eventType = simulatorStopEvent := by
      rw [htype]
      decide
    have hlate : ¬ (u.events 7).timestamp < busGetTime u 0 now := by
      rw [busGetTime, hmodeu, hclocku.time, h.time]
      exact Nat.not_lt_zero _
    rw [busSimulationAccept, if_neg hstop, if_neg hlate]
  refine ⟨u, hpop, hcu.symm, ?_⟩
  rw [busSimulationMarket, if_pos hgo, hv.queue.heapMin_eq, hpop.first] at hmkt
  simp only [hcall, hacc, Option.bind_eq_bind, Option.bind_some] at hmkt
  exact (Option.some.inj hmkt).symm

/-- The pushed event goes into the look-ahead. -/
theorem Flooded.look (h : Flooded j none w) (hpush : QueuePushed w w1 0 7)
    (h1 : BusInv w1) {v1 v2 : World} (hd : Dequeued w1 0 now v1 v2 w' o) :
    Flooded j (some 7) v2 := by
  have hmode1 : (w1.ctxs 0).mode = .simulation := (hpush.sameClock.mode 0).trans h.mode
  obtain ⟨hv, hmarket, hpipes, hcv, hsavedv, hcatv⟩ := h.relink hpush h1 hd.check
  obtain ⟨u, hpop, hcu, hv2⟩ := h.accept hv (hpush.sameClock.trans hd.enter.sameClock) hmarket
    hcv hsavedv (hd.market hmode1)
  have hquiet := hd.quiet
  have hclock := hpush.sameClock.trans hd.sameClock
  have hother : v2.queues 1 = w1.queues 1 := hquiet.queues_ne 1 (by
    rw [hpush.queue_ctx, h.copy.1]
    decide)
  have hcopy : v2.contents 1 = w.contents 1 := by
    have : w1.contents 1 = w.contents 1 := hpush.contents_ne (by decide)
    rw [World.contents, hother]
    exact this
  obtain ⟨acts, hlog, hacts⟩ := hquiet.log
  have hlog2 : v2.log = w.log ++ (.push 0 7 :: acts) := by
    rw [hlog, hpush.log, List.append_assoc]
    rfl
  obtain ⟨hcop, hmir⟩ := h.log_aside hlog2 (fun y hy => by
    rcases List.mem_cons.mp hy with rfl | hy
    · exact Act.aside_push Nat.zero_lt_one
    · exact (hacts y hy).aside) hclock.type hcopy
  constructor
  case inv => exact hd.look.run.inv
  case mode => exact (hclock.mode 0).trans h.mode
  case time => rw [hclock.time]; exact h.time
  case timers =>
    intro k
    rw [(hpush.timersStand.trans hd.timersStand).timerNodes]
    exact h.timers k
  case pipes =>
    intro k
    have hk : v2.queueNodes 0 k = u.queueNodes 0 k := by
      rw [hv2]
      simp [World.queueNodes, World.queueMem, busSave, World.updCtx]
    rw [hk]
    by_cases hm : k = .market
    · subst hm
      have hperm := hpop.nodes
      rw [if_pos hcu, hmarket] at hperm
      exact List.perm_nil.mp (hperm.trans (by simp))
    · rw [hpop.nodes_ne 0 k (Or.inr hm)]
      exact hpipes k hm
  case pending => exact hd.pending
  case saved => rw [hv2]; exact busSave_savedEvent u 0 0 7
  case next => rw [hquiet.nextQueue, hpush.nextQueue]; exact h.next
  case queue =>
    refine ⟨?_, ?_⟩
    · rw [hquiet.queue_ctx, hpush.queue_ctx]
      exact h.queue.1
    · rw [hv2]
      show (u.queues 0).category = _
      rw [hpop.frame.queue_category]
      exact hcatv
  case empty =>
    rw [hv2]
    exact hcu
  case type => exact (hclock.type 7).trans h.type
  case table =>
    rw [(hquiet.attached 0).1, (hquiet.attached 0).2, hpush.ctxs]
    exact h.table
  case copy =>
    rw [hother, hpush.queue_ctx, hpush.capacity]
    exact h.copy
  case copied => exact hcop
  case log => exact hmir

/-- Nothing but the look-ahead is ready. -/
theorem Flooded.source (h : Flooded j (some 7) w) (now : Nat) :
    busSource w 0 now = .saved := by
  have htimer : ∀ k limit, timerDue w 0 k limit = false := by
    intro k limit
    rw [timerDue, h.inv.timer.timerHeapPeek_eq, h.timers]
    rfl
  have hat : ∀ k, timerDueAtSaved w 0 k = false := by
    intro k
    rw [timerDueAtSaved, h.saved]
    exact htimer k _
  have hpipe : ∀ k, pipeIsEmpty w 0 k = true :=
    fun k => (h.inv.queue.pipeIsEmpty_iff 0 k).mpr (h.pipes k)
  rw [busSource, h.mode]
  simp [busSimulationSource, hat, hpipe, h.saved]

/-- Bus 0 has handed out event 7, and queue 1 has been offered a copy. -/
structure HandedOn (w w' : World) : Prop where
  queue : ∀ q, (w'.queues q).ctx = (w.queues q).ctx
    ∧ (w'.queues q).category = (w.queues q).category
    ∧ (w'.queues q).spsc.capacity = (w.queues q).spsc.capacity
  ctx : w'.ctxs 0 = { w.ctxs 0 with savedEvent := none, savedFrom := none }
  pipes : ∀ k, w'.queueNodes 0 k = w.queueNodes 0 k
  timers : TimersStand w w'
  empty : w'.contents 0 = w.contents 0
  log : ∃ p acts, w'.log = w.log ++ .give 0 .market p 7 :: acts
    ∧ w'.contents 1 = w.contents 1 ++ acts.filterMap (Act.pushedOn 1)
    ∧ acts.filterMap (Act.mirrored w 0) = []

/-- Both outcomes of the push, that of the full queue included. -/
theorem Flooded.handsOn (h : Flooded j (some 7) w2) {v : World}
    (hun : busUnsave w2 0 = some (v, 7)) (hgo : busForward v 0 7 = some w') :
    HandedOn w2 w' := by
  obtain ⟨p, _, hfrom, hv⟩ := busUnsave_eq hun
  have hx0 : v.ctxs 0 = { w2.ctxs 0 with savedEvent := none, savedFrom := none } := by
    rw [hv]
    simp [World.note, World.updCtx]
  have hq0 : v.queues = w2.queues := by rw [hv]; rfl
  have hfw : Forwarded v 7 := by
    rw [hv]
    show Forwarded w2 7
    rw [Forwarded, h.type]
    decide
  have hlt : 1 < (eventRef v 7).nextQueue := by
    rw [hv]
    show 1 < w2.nextQueue
    rw [h.next]
    decide
  have href : BusInv (eventRef v 7) := (h.inv.of_busUnsave hun).updEvent 7 _
  obtain ⟨w3, ret, hcall, _, hres⟩ := href.queue.eventQueuePush hlt 7
  have hw3 : w3 = w' := by
    have hgo7 : (v.events 7).eventType ≠ queueCloseEvent
        ∧ (v.events 7).eventType ≠ queueOpenEvent := hfw
    rw [busForward, hx0, h.table.1] at hgo
    simp only [List.range_succ, List.range_zero, List.nil_append, List.foldlM_cons,
      List.foldlM_nil, busForwardOne, if_pos hgo7, hx0, h.table.2, hcall, Option.bind_eq_bind,
      Option.bind_some] at hgo
    exact Option.some.inj hgo
  subst hw3
  have hsame := busUnsave_sameQueues hun
  have hstand := busUnsave_timersStand hun
  have hlogv : v.log = w2.log ++ [.give 0 .market p 7] := by rw [hv]; rfl
  have hqueue : ∀ q, ((eventRef v 7).queues q).ctx = (w2.queues q).ctx
      ∧ ((eventRef v 7).queues q).category = (w2.queues q).category
      ∧ ((eventRef v 7).queues q).spsc.capacity = (w2.queues q).spsc.capacity := fun q =>
    ⟨congrArg EventQueue.ctx (congrFun hq0 q), congrArg EventQueue.category (congrFun hq0 q),
      congrArg (fun x => x.spsc.capacity) (congrFun hq0 q)⟩
  rcases hres with ⟨_, hpush⟩ | ⟨_, rfl, _⟩
  · have hnot : ¬ (((eventRef v 7).queues 1).ctx = some 0) := by
      rw [(hqueue 1).1, h.copy.1]
      decide
    have hp := hpush.timersStand
    constructor
    case queue =>
      intro q
      rw [hpush.queue_ctx, hpush.queue_category, hpush.capacity]
      exact hqueue q
    case ctx =>
      rw [hpush.ctxs, if_neg (fun hc => hnot hc.2), ← hx0]
      rfl
    case pipes =>
      intro k
      rw [hpush.queueNodes, ← hsame.queueNodes]
      rfl
    case timers => exact hstand.trans ⟨hp.reminders, hp.node, hp.heap⟩
    case empty =>
      rw [hpush.contents_ne (by decide), ← hsame.contents]
      rfl
    case log =>
      refine ⟨p, [.push 1 7], ?_, ?_, rfl⟩
      · rw [hpush.log, show (eventRef v 7).log = v.log from rfl, hlogv, List.append_assoc]
        rfl
      · rw [hpush.contents, ← hsame.contents]
        rfl
  · refine ⟨hqueue, hx0, hsame.queueNodes 0, ⟨hstand.reminders, hstand.node, hstand.heap⟩,
      hsame.contents 0, p, [], hlogv, ?_, rfl⟩
    rw [← hsame.contents]
    exact (List.append_nil _).symm

/-- The look-ahead is returned, and copied if the attached queue has room. -/
theorem Flooded.hand (h : Flooded j (some 7) w2) {v0 v1 : World}
    (hd : Dequeued v0 0 now v1 w2 w' o) : o = some 7 ∧ Flooded (j + 1) none w' := by
  have hserved := hd.served
  rw [h.source] at hserved
  have hrun := hd.finish
  cases hserved with
  | @saved e v w' hun hgo =>
  rw [if_pos h.mode] at hgo
  have he : some 7 = some e := h.saved.symm.trans (busUnsave_savedEvent hun)
  cases he
  have hon := h.handsOn hun hgo
  refine ⟨rfl, ?_⟩
  have ht := hrun.sameClock.type
  obtain ⟨pre, post, hl, hj⟩ := h.log
  obtain ⟨p, acts, hlog, hcopied, hacts⟩ := hon.log
  have hgive : (Act.give 0 .market p 7).mirrored w2 0 = some 7 := if_pos ⟨rfl, by
    rw [Forwarded, h.type]
    decide⟩
  constructor
  case inv => exact hrun.inv
  case mode => rw [hon.ctx]; exact h.mode
  case time => rw [hon.ctx]; exact h.time
  case timers => intro k; rw [hon.timers.timerNodes]; exact h.timers k
  case pipes => intro k; rw [hon.pipes]; exact h.pipes k
  case pending => rw [hon.ctx]; exact h.pending
  case saved => rw [hon.ctx]
  case next => rw [hrun.nextQueue]; exact h.next
  case queue => rw [(hon.queue 0).1, (hon.queue 0).2.1]; exact h.queue
  case empty => rw [hon.empty]; exact h.empty
  case type => rw [ht]; exact h.type
  case table => rw [hon.ctx]; exact h.table
  case copy => rw [(hon.queue 1).1, (hon.queue 1).2.2]; exact h.copy
  case copied =>
    rw [World.pushed, hlog, List.filterMap_append, List.filterMap_cons_none rfl, hcopied,
      ← h.copied, World.pushed]
  case log =>
    refine ⟨pre, post ++ .give 0 .market p 7 :: acts, ?_, ?_⟩
    · rw [hlog, hl, List.append_assoc]
      rfl
    · rw [mirrored_congr ht, List.filterMap_append, List.filterMap_cons_some hgive, hacts,
        List.length_append, hj]
      rfl

/-- **One event more**: pushed, returned, and copied if there is room. -/
theorem Flooded.round (h : Flooded j none w) :
    ∃ w', runOps w [.push 0 7, .dequeue 0 0] = some (w', [(0, 7)])
      ∧ Flooded (j + 1) none w' := by
  have hlt : 0 < w.nextQueue := by
    rw [h.next]
    decide
  obtain ⟨w1, ret, hcall, h1, hres⟩ := h.inv.push hlt 7
  have hpush : QueuePushed w w1 0 7 := by
    rcases hres with ⟨_, hpush⟩ | ⟨_, _, hfull⟩
    · exact hpush
    · have htwo := (h.inv.queue.ring 0 hlt).two_le
      rw [h.empty, List.length_nil] at hfull
      omega
  obtain ⟨v1, v2, w', o, hdeq, hd⟩ := h1.busDequeue 0 0
  obtain ⟨rfl, h'⟩ := (h.look hpush h1 hd).hand hd
  refine ⟨w', ?_, h'⟩
  simp [runOps, BusOp.exec, hcall, hdeq]

/-- The client of a destination that never reads. -/
def flood (m : Nat) : List BusOp :=
  (List.replicate m [BusOp.push 0 7, .dequeue 0 0]).flatten

theorem Flooded.run : ∀ (m : Nat) {j : Nat} {w : World}, Flooded j none w →
    ∃ w' rs, runOps w (flood m) = some (w', rs) ∧ Flooded (j + m) none w' := by
  intro m
  induction m with
  | zero => exact fun h => ⟨_, [], rfl, h⟩
  | succ m ih =>
      intro j w h
      obtain ⟨w1, hcall, h1⟩ := h.round
      obtain ⟨w', rs, hrest, h'⟩ := ih h1
      refine ⟨w', (0, 7) :: rs, ?_, by rw [Nat.add_comm m 1, ← Nat.add_assoc]; exact h'⟩
      have hcons : flood (m + 1) = [.push 0 7, .dequeue 0 0] ++ flood m := rfl
      rw [hcons]
      exact runOps_append _ hcall hrest

/-- **An attached queue that nobody reads loses events**: of 10000 that bus
0 returns, at most 9999 arrive. -/
theorem attached_overflows :
    ∃ w rs pre post, runOps (World.fresh .simulation 0 [(4, .market)]
        (fun e => ⟨1, askEvent, 0, e⟩))
        ([.attach 0 1, .addQueue 0 0] ++ flood 10000) = some (w, rs)
      ∧ (w.ctxs 0).mode = .simulation
      ∧ w.log = pre ++ .attach 0 1 :: post
      ∧ (post.filterMap (Act.mirrored w 0)).length = 10000
      ∧ (w.pushed 1).length ≤ 9999
      ∧ ¬ Mirrors w 0 1 := by
  have hw : Booted (World.fresh .simulation 0 [(4, .market)]
      (fun e => ⟨1, askEvent, 0, e⟩)) := World.fresh_booted (by simp)
  have hclean : CleanRun (World.fresh .simulation 0 [(4, .market)]
      (fun e => ⟨1, askEvent, 0, e⟩)) [.attach 0 1, .addQueue 0 0] := by decide +kernel
  obtain ⟨w1, rs1, hcall1, h1⟩ := hw.inv.cleanRun hclean
  have hrun : (runOps (World.fresh .simulation 0 [(4, .market)]
      (fun e => ⟨1, askEvent, 0, e⟩)) [.attach 0 1, .addQueue 0 0]).any (fun r => decide
        ((r.1.ctxs 0).mode = .simulation ∧ (r.1.ctxs 0).time .clockLocal = 0
        ∧ (∀ k ∈ [ClockType.clockLocal, .clockExchange], r.1.timerNodes 0 k = [])
        ∧ (∀ k ∈ [QueueCategory.market, .execution, .service, .command],
            r.1.queueNodes 0 k = [])
        ∧ (r.1.ctxs 0).pendingQueue = [] ∧ (r.1.ctxs 0).savedEvent = none
        ∧ r.1.nextQueue = 2
        ∧ ((r.1.queues 0).ctx = some 0 ∧ (r.1.queues 0).category = .market)
        ∧ r.1.contents 0 = [] ∧ (r.1.events 7).eventType = askEvent
        ∧ ((r.1.ctxs 0).attachedCount = 1 ∧ (r.1.ctxs 0).attached 0 = some 1)
        ∧ ((r.1.queues 1).ctx = some 1
          ∧ (r.1.queues 1).spsc.capacity = attachedCapacity)
        ∧ r.1.pushed 1 = r.1.contents 1
        ∧ r.1.log = [] ++ .attach 0 1 :: [.register 1 1, .register 0 0])) = true := by
    decide +kernel
  rw [hcall1, Option.any_some, decide_eq_true_iff] at hrun
  obtain ⟨hmode, htime, htimers, hpipes, hpend, hsaved, hnext, hq, hc, ht, htab, hcopy, hpu,
    hlog⟩ := hrun
  have hstart : Flooded 0 none w1 := by
    refine ⟨h1, hmode, htime, fun k => htimers k ?_, fun k => hpipes k ?_, hpend, hsaved,
      hnext, hq, hc, ht, htab, hcopy, hpu, _, _, hlog, rfl⟩
    · cases k <;> simp
    · cases k <;> simp
  obtain ⟨w, rs, hcall, h⟩ := hstart.run 10000
  obtain ⟨pre, post, hl, hj⟩ := h.log
  have hfits : (w.pushed 1).length ≤ 9999 := by
    have := (h.inv.queue.ring 1 (by rw [h.next]; decide)).fits
    rw [h.copy.2, ← h.copied, attachedCapacity] at this
    omega
  rw [Nat.zero_add] at hj
  refine ⟨w, _, pre, post, runOps_append _ hcall1 hcall, h.mode, hl, hj, hfits, fun hm => ?_⟩
  rw [hm pre post hl, hj] at hfits
  omega

end Ats
