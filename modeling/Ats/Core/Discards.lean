import Ats.Core.Client

/-!
# Discards: what becomes of the events a simulation skips

The market block of `bus_simualtion_dequeue` pops events until it keeps one.
For each event the books of one call are drawn up from the history: what came
in from market queues, and what was kept, returned, skipped or released.
-/

namespace Ats

variable {w w' w1 w2 : World} {c : CtxId} {q : QueueId} {e : EventId} {now : Nat}
  {o : Option EventId} {acts : List Act} {kind : StepKind}

/-! ## The books of one call -/

/-- A pop of `e` from a market queue. -/
def Act.takesMarket (w : World) (e : EventId) : Act → Bool
  | .take q x => x = e && (w.queues q).category = .market
  | _ => false

/-- A return of the market event `e` on bus `c`. -/
def Act.givesMarket (c : CtxId) (e : EventId) : Act → Bool
  | .give d k _ x => d = c && k = .market && x = e
  | _ => false

/-- A discarded `e`. -/
def Act.drops (e : EventId) : Act → Bool
  | .drop _ x => x = e
  | _ => false

/-- How often `e` is kept in `ctx->saved_event`. -/
def savedCount (w : World) (c : CtxId) (e : EventId) : Nat :=
  if (w.ctxs c).savedEvent = some e then 1 else 0

/-- **The books are settled**: each time `e` was popped from a market queue it
was kept in `ctx->saved_event`, or returned, or released by one
`event_unref`. -/
def Settled (w w' : World) (c : CtxId) (acts : List Act) (e : EventId) : Prop :=
  savedCount w c e + acts.countP (Act.takesMarket w e)
    = savedCount w' c e + acts.countP (Act.givesMarket c e) + acts.count (.unref e)

/-- The books with what was discarded. -/
structure Booked (w w' : World) (c : CtxId) (acts : List Act) : Prop where
  log : w'.log = w.log ++ acts
  category : ∀ p, (w'.queues p).category = (w.queues p).category
  unref : ∀ e, .unref e ∉ acts
  count : ∀ e, savedCount w c e + acts.countP (Act.takesMarket w e)
    = savedCount w' c e + acts.countP (Act.givesMarket c e) + acts.countP (Act.drops e)

namespace Booked

theorem refl (w : World) (c : CtxId) : Booked w w c [] where
  log := (List.append_nil _).symm
  category := fun _ => rfl
  unref := fun _ h => absurd h List.not_mem_nil
  count := fun _ => rfl

theorem takesMarket_congr (h : ∀ p, (w'.queues p).category = (w.queues p).category) :
    Act.takesMarket w' e = Act.takesMarket w e := by
  funext a
  cases a <;> simp [Act.takesMarket, h]

theorem trans {w'' : World} {acts' : List Act} (h : Booked w w' c acts)
    (h' : Booked w' w'' c acts') : Booked w w'' c (acts ++ acts') where
  log := by rw [h'.log, h.log, List.append_assoc]
  category := fun p => (h'.category p).trans (h.category p)
  unref := fun e he => by
    rcases List.mem_append.mp he with he | he
    · exact h.unref e he
    · exact h'.unref e he
  count := fun e => by
    have h1 := h.count e
    have h2 := h'.count e
    rw [takesMarket_congr h.category] at h2
    simp only [List.countP_append]
    omega

/-- The books are settled where nothing was discarded. -/
theorem settled_iff (h : Booked w w' c acts) :
    (∀ e, Settled w w' c acts e) ↔ ∀ e, acts.countP (Act.drops e) = 0 := by
  apply forall_congr'
  intro e
  have hcount := h.count e
  have hunref : acts.count (.unref e) = 0 := List.count_eq_zero_of_not_mem (h.unref e)
  unfold Settled
  omega

end Booked

/-- A step that neither pops nor keeps, returns nor discards an event. -/
theorem Booked.of_idle (hlog : w'.log = w.log ++ acts)
    (hcat : ∀ p, (w'.queues p).category = (w.queues p).category)
    (hsaved : (w'.ctxs c).savedEvent = (w.ctxs c).savedEvent)
    (hacts : ∀ a ∈ acts, ∀ e, Act.takesMarket w e a = false ∧ Act.givesMarket c e a = false
      ∧ Act.drops e a = false ∧ a ≠ .unref e) : Booked w w' c acts where
  log := hlog
  category := hcat
  unref := fun e he => (hacts _ he e).2.2.2 rfl
  count := fun e => by
    have h1 : acts.countP (Act.takesMarket w e) = 0 :=
      List.countP_eq_zero.mpr fun a ha => by simp [(hacts a ha e).1]
    have h2 : acts.countP (Act.givesMarket c e) = 0 :=
      List.countP_eq_zero.mpr fun a ha => by simp [(hacts a ha e).2.1]
    have h3 : acts.countP (Act.drops e) = 0 :=
      List.countP_eq_zero.mpr fun a ha => by simp [(hacts a ha e).2.2.1]
    rw [h1, h2, h3, savedCount, savedCount, hsaved]

/-- **Each step of a `bus_dequeue` is booked.** -/
theorem BusStep.booked (hs : BusStep kind w w') (hk : kind ∈ dequeueKinds c) :
    ∃ acts, Booked w w' c acts
      ∧ ((∀ d, kind ≠ .drop d) → ∀ e, acts.countP (Act.drops e) = 0) := by
  have hidle : ∀ {acts : List Act}, (∀ a ∈ acts, ∀ e, Act.drops e a = false) →
      ∀ e, acts.countP (Act.drops e) = 0 :=
    fun hacts e => List.countP_eq_zero.mpr fun a ha => by simp [hacts a ha e]
  cases hs with
  | add _ _ _ => simp [dequeueKinds] at hk
  | push _ => simp [dequeueKinds] at hk
  | reenter hpend hadd =>
    rename_i x q rest
    refine ⟨_, Booked.of_idle hadd.log (fun p => hadd.queue_category p) ?_ ?_,
      fun _ => hidle (by simp [Act.drops])⟩
    · exact (hadd.sameSlots.saved c).trans
        (w.updCtx_proj x c Ctx.savedEvent (fun _ => rfl))
    · simp [Act.takesMarket, Act.givesMarket, Act.drops]
  | drop hpop hmode hskip hsaved =>
    rename_i w1 x q e stop
    obtain rfl : x = c := by simpa [dequeueKinds] using hk
    refine ⟨[.take q e, .drop q e], ⟨?_, fun p => hpop.frame.queue_category p, by simp,
      fun y => ?_⟩, fun hne => absurd rfl (hne x)⟩
    · simp [World.note, World.updCtx, hpop.log]
    -- taken from the market and skipped: the books balance without the look-ahead
    · have hsaved1 : (w1.ctxs x).savedEvent = none := (hpop.frame.savedEvent x).trans hsaved
      simp [savedCount, World.note, World.updCtx, hsaved, hsaved1, Act.takesMarket,
        Act.givesMarket, Act.drops, hpop.linkable.category, List.countP_cons]
  | save hpop hsaved hts =>
    rename_i w1 x q e ts
    obtain rfl : x = c := by simpa [dequeueKinds] using hk
    refine ⟨[.take q e], ⟨?_, fun p => hpop.frame.queue_category p, by simp, fun y => ?_⟩,
      fun _ => hidle (by simp [Act.drops])⟩
    · exact hpop.log
    · simp [savedCount, busSave_savedEvent, hsaved, Act.takesMarket, Act.givesMarket, Act.drops,
        hpop.linkable.category, List.countP_cons]
  | give hpop hne =>
    rename_i w1 x k q e
    refine ⟨[.take q e, .give x k q e], ⟨?_, fun p => hpop.frame.queue_category p, by simp,
      fun y => ?_⟩, fun _ => hidle (by simp [Act.drops])⟩
    · simp [World.note, hpop.log]
    · have hsaved1 : (w1.ctxs c).savedEvent = (w.ctxs c).savedEvent := hpop.frame.savedEvent c
      simp [savedCount, World.note, hsaved1, Act.takesMarket, Act.givesMarket, Act.drops,
        hpop.linkable.category, hne]
  | fire hpop =>
    rename_i w1 x k t
    refine ⟨[.fire x k t (w.reminders t).timeout], Booked.of_idle ?_ (fun p => ?_) ?_ ?_,
      fun _ => hidle (by simp [Act.drops])⟩
    · simp [World.note, hpop.frame.log]
    · exact congrArg EventQueue.category (congrFun hpop.frame.queues p)
    · exact hpop.frame.ctx_proj c Ctx.savedEvent (fun _ _ _ => rfl)
    · simp [Act.takesMarket, Act.givesMarket, Act.drops]
  | release hun =>
    rename_i x e
    obtain rfl : x = c := by simpa [dequeueKinds] using hk
    obtain ⟨q, he, _, rfl⟩ := busUnsave_eq hun
    refine ⟨[.give x .market q e], ⟨rfl, fun _ => rfl, by simp, fun y => ?_⟩,
      fun _ => hidle (by simp [Act.drops])⟩
    simp [savedCount, World.note, World.updCtx, he, Act.takesMarket, Act.givesMarket, Act.drops,
      List.countP_cons]
  | forward hlt hatt hpush =>
    refine ⟨_, Booked.of_idle hpush.log (fun p => hpush.queue_category p)
      (hpush.sameSlots.saved c) ?_, fun _ => hidle (by simp [Act.drops])⟩
    simp [Act.takesMarket, Act.givesMarket, Act.drops]
  | overrun hlt hatt hfull =>
    exact ⟨[], Booked.of_idle (List.append_nil _).symm (fun _ => rfl) rfl (by simp),
      fun _ _ => rfl⟩

/-- **Each chain of such steps is booked.** -/
theorem BusRun.booked {S : Set StepKind} (hr : BusRun S w w') (hS : S ⊆ dequeueKinds c) :
    ∃ acts, Booked w w' c acts
      ∧ ((∀ d, .drop d ∉ S) → ∀ e, acts.countP (Act.drops e) = 0) := by
  refine hr.keeps (P := fun v => ∃ acts, Booked w v c acts
    ∧ ((∀ d, .drop d ∉ S) → ∀ e, acts.countP (Act.drops e) = 0)) ?_
    ⟨[], Booked.refl w c, fun _ _ => rfl⟩
  rintro s hm v v' _ _ hs ⟨acts, hb, hzero⟩
  obtain ⟨more, hb', hzero'⟩ := hs.booked (hS hm)
  refine ⟨acts ++ more, hb.trans hb', fun hno e => ?_⟩
  have hs' : ∀ d, s ≠ .drop d := fun d hd => hno d (hd ▸ hm)
  rw [List.countP_append, hzero hno e, hzero' hs' e]

/-! ## The first look -/

/-- The market event that `bus_dequeue` on `c` pops first: the head of the
first market queue, if no event is held. -/
def looksAt (w : World) (c : CtxId) : Option EventId := do
  let w ← checkPendingQueue w c
  if (w.ctxs c).savedEvent = none then
    let q ← heapMin ((w.ctxs c).queueHeap .market)
    eventQueuePeek w q
  else none

theorem Skipped.congr (he : w'.events = w.events) (ht : (w'.ctxs c).time = (w.ctxs c).time) :
    Skipped w' c e ↔ Skipped w c e := by
  rw [Skipped, Skipped, he, ht]

/-- **A popped event** is skipped, or kept with a timestamp that is not before
the bus time. -/
theorem busSimulationAccept_eq (w : World) (c : CtxId) (now : Nat) (q : QueueId) (e : EventId)
    (hmode : (w.ctxs c).mode = .simulation) :
    Skipped w c e ∧ (∃ b, busSimulationAccept w c now q e
        = ((w.updCtx c fun x => { x with isSimulatorStop := b }).note (.drop q e), true))
      ∨ ¬ Skipped w c e ∧ busSimulationAccept w c now q e
        = (busSave (w.updEvent e fun x => { x with
            timestamp := max (w.events e).timestamp ((w.ctxs c).time .clockLocal) }) c q e,
          false) := by
  have hsame : (w.updEvent e fun x => { x with timestamp := (w.events e).timestamp }) = w := by
    simp [World.updEvent]
  unfold busSimulationAccept Skipped keptWhenLate
  simp only [busGetTime, hmode]
  split_ifs with hstop hold hskip
  · exact Or.inl ⟨Or.inl hstop, true, rfl⟩
  · refine Or.inl ⟨Or.inr ⟨by tauto, hold⟩, (w.ctxs c).isSimulatorStop, ?_⟩
    simp [World.updCtx]
  · refine Or.inr ⟨by tauto, ?_⟩
    rw [Nat.max_eq_right (Nat.le_of_lt hold)]
  · refine Or.inr ⟨by tauto, ?_⟩
    rw [Nat.max_eq_left (Nat.le_of_not_lt hold), hsame]

/-- **One round at `again:`**: there is nothing to look for, the popped event
is kept, or it is skipped and the next round ends in `w'`. -/
inductive MarketRound (fuel : Nat) (w : World) (c : CtxId) (now : Nat) (w' : World) : Prop
  | done : w.queueNodes c .market = [] ∨ (w.ctxs c).savedEvent ≠ none → w' = w →
      MarketRound fuel w c now w'
  | kept {w1 : World} {q : QueueId} {e : EventId} :
      (w.ctxs c).savedEvent = none → PipePop w w1 c .market q e → QueueInv w1 →
      ¬ Skipped w c e →
      w' = busSave (w1.updEvent e fun x => { x with
        timestamp := max (w.events e).timestamp ((w.ctxs c).time .clockLocal) }) c q e →
      MarketRound fuel w c now w'
  | skipped {w1 v : World} {q : QueueId} {e : EventId} {b : Bool} :
      (w.ctxs c).savedEvent = none → PipePop w w1 c .market q e → Skipped w c e →
      v = (w1.updCtx c fun x => { x with isSimulatorStop := b }).note (.drop q e) →
      BusStep (.drop c) w v → BusInv v → busBacklog v c .market < busBacklog w c .market →
      busSimulationMarket fuel v c now = some w' →
      MarketRound fuel w c now w'

/-- **The block at `again:`, round by round.** -/
theorem BusInv.marketRound {fuel : Nat} (h : BusInv w) (hmode : (w.ctxs c).mode = .simulation)
    (hcall : Ats.busSimulationMarket (fuel + 1) w c now = some w') :
    MarketRound fuel w c now w' := by
  rw [Ats.busSimulationMarket] at hcall
  by_cases hgo : ¬ pipeIsEmpty w c .market = true ∧ (w.ctxs c).savedEvent = none
  · obtain ⟨hpipe, hsaved⟩ := hgo
    have hn : w.queueNodes c .market ≠ [] := fun hc =>
      hpipe ((h.queue.pipeIsEmpty_iff c .market).mpr hc)
    obtain ⟨w1, q, e, hpopcall, hpop, hq1⟩ := h.queue.eventPopFormPipe hn
    have htime : (w1.ctxs c).time = (w.ctxs c).time :=
      hpop.frame.ctx_proj c Ctx.time (fun _ _ _ => rfl)
    have hskip : Skipped w1 c e ↔ Skipped w c e := Skipped.congr hpop.frame.events htime
    have hmode1 : (w1.ctxs c).mode = .simulation :=
      (hpop.frame.ctx_proj c Ctx.mode (fun _ _ _ => rfl)).trans hmode
    rw [if_pos ⟨hpipe, hsaved⟩, h.queue.heapMin_eq, hpop.first] at hcall
    simp only [hpopcall, Option.bind_eq_bind, Option.bind_some] at hcall
    rcases busSimulationAccept_eq w1 c now q e hmode1 with ⟨hs, b, hacc⟩ | ⟨hno, hacc⟩
    · rw [hacc] at hcall
      obtain ⟨v, _, _, _, hv, _, _, hres⟩ := h.accept hmode hsaved hpop hq1 now
      rw [hacc] at hres
      obtain ⟨heq, _, hb⟩ | ⟨heq, _⟩ := hres
      case inr => cases heq
      cases heq
      have hbacklog := hpop.backlog h.queue
      exact MarketRound.skipped hsaved hpop (hskip.mp hs) rfl
        (BusStep.drop hpop hmode (hskip.mp hs) hsaved) hv (by omega) hcall
    · rw [hacc] at hcall
      cases hcall
      rw [hpop.frame.events, htime]
      exact MarketRound.kept hsaved hpop hq1 (fun hs => hno (hskip.mpr hs)) rfl
  · rw [if_neg hgo] at hcall
    cases hcall
    rw [not_and_or, not_not, h.queue.pipeIsEmpty_iff] at hgo
    exact MarketRound.done hgo rfl

/-- A skipped event leaves the bus with all but its flag as it was. -/
theorem PipePop.skipped {v : World} {b : Bool} (hpop : PipePop w w1 c .market q e)
    (hv : v = (w1.updCtx c fun x => { x with isSimulatorStop := b }).note (.drop q e)) :
    v.events = w.events ∧ (v.ctxs c).time = (w.ctxs c).time
      ∧ (v.ctxs c).mode = (w.ctxs c).mode
      ∧ (∀ d, (v.ctxs d).savedEvent = (w.ctxs d).savedEvent)
      ∧ v.log = w.log ++ [.take q e, .drop q e] := by
  subst hv
  have hproj : ∀ {β : Type} (d : CtxId) (g : Ctx → β),
      (∀ x, g { x with isSimulatorStop := b } = g x) →
      g ((w1.updCtx c fun x => { x with isSimulatorStop := b }).ctxs d) = g (w1.ctxs d) :=
    fun d g hg => w1.updCtx_proj c d g hg
  refine ⟨hpop.frame.events, ?_, ?_, fun d => ?_, ?_⟩
  · exact (hproj c Ctx.time fun _ => rfl).trans
      (hpop.frame.ctx_proj c Ctx.time (fun _ _ _ => rfl))
  · exact (hproj c Ctx.mode fun _ => rfl).trans
      (hpop.frame.ctx_proj c Ctx.mode (fun _ _ _ => rfl))
  · exact (hproj d Ctx.savedEvent fun _ => rfl).trans (hpop.frame.savedEvent d)
  · show w1.log ++ [.drop q e] = _
    rw [hpop.log, List.append_assoc]
    rfl

/-- **The market block discards nothing** exactly if it keeps the first event
it looks at. -/
theorem BusInv.market_drops_iff (h : BusInv w) (hmode : (w.ctxs c).mode = .simulation)
    (hcall : Ats.busSimulationMarket (busBacklog w c .market + 1) w c now = some w')
    (hlog : w'.log = w.log ++ acts) :
    (∀ e, acts.countP (Act.drops e) = 0)
      ↔ ((w.ctxs c).savedEvent = none → ∀ q ∈ heapMin ((w.ctxs c).queueHeap .market),
        ∀ e ∈ eventQueuePeek w q, ¬ Skipped w c e) := by
  -- what is popped is what is looked at
  have hpeek : ∀ {w1 q e}, PipePop w w1 c .market q e →
      heapMin ((w.ctxs c).queueHeap .market) = some q ∧ eventQueuePeek w q = some e := by
    intro w1 q e hpop
    refine ⟨(h.queue.heapMin_eq c .market).trans hpop.first, ?_⟩
    rw [h.queue.peek hpop.linkable.lt, hpop.contents]
    rfl
  cases h.marketRound hmode hcall with
  | done hgo heq =>
    subst heq
    have hacts : acts = [] := List.append_cancel_left (hlog.symm.trans (List.append_nil _).symm)
    refine iff_of_true (fun e => by simp [hacts]) (fun hsaved q hq => ?_)
    rw [h.queue.heapMin_eq, hgo.resolve_right (not_not_intro hsaved)] at hq
    cases hq
  | kept hsaved hpop hq1 hno hw' =>
    rename_i w1 q e
    have hlog' : w'.log = w.log ++ [.take q e] := by
      rw [hw', ← hpop.log]
      rfl
    have hacts : acts = [.take q e] := List.append_cancel_left (hlog.symm.trans hlog')
    obtain ⟨hmin, hhead⟩ := hpeek hpop
    simp [hacts, Act.drops, hno, hsaved, hmin, hhead]
  | skipped hsaved hpop hskip hv hstep hi hbacklog hcall =>
    rename_i w1 v q e b
    obtain ⟨_, _, hmodev, _, hlogv⟩ := hpop.skipped hv
    obtain ⟨v2, hrest, hlook⟩ := BusInv.busSimulationMarket now (busBacklog w c .market) hi
      (hmodev.trans hmode) hbacklog
    obtain rfl : v2 = w' := Option.some.inj (hrest.symm.trans hcall)
    obtain ⟨more, hmore, _⟩ := hlook.run.booked (c := c)
      (by rintro x (rfl | rfl) <;> simp [dequeueKinds])
    have hacts : acts = .take q e :: .drop q e :: more := by
      rw [hmore.log, hlogv, List.append_assoc] at hlog
      exact (List.append_cancel_left hlog).symm
    obtain ⟨hmin, hhead⟩ := hpeek hpop
    refine iff_of_false (fun hzero => ?_) (fun hno => hno hsaved q hmin e hhead hskip)
    have := hzero e
    simp [hacts, Act.drops] at this

/-- Registering pending queues changes no event. -/
theorem Dequeued.enter_events (h : Dequeued w c now w1 w2 w' o) : w1.events = w.events := by
  refine h.enter.keeps (P := fun v => v.events = w.events) ?_ rfl
  rintro s rfl v v' _ _ hs hv
  cases hs with
  | reenter _ hadd => exact hadd.frame.events.trans hv

/-- Nor what the queues hold, nor what is saved. -/
theorem Dequeued.enter_held (h : Dequeued w c now w1 w2 w' o) :
    (∀ q, w1.contents q = w.contents q)
      ∧ ∀ d, (w1.ctxs d).savedEvent = (w.ctxs d).savedEvent := by
  refine h.enter.keeps (P := fun v => (∀ q, v.contents q = w.contents q)
    ∧ ∀ d, (v.ctxs d).savedEvent = (w.ctxs d).savedEvent) ?_ ⟨fun _ => rfl, fun _ => rfl⟩
  rintro s rfl v v' _ _ hs ⟨hcont, hsaved⟩
  cases hs with
  | reenter hpend hadd =>
    rename_i q rest
    have hslot : ∀ d, ((v.updCtx c fun x => { x with pendingQueue := rest }).ctxs d).savedEvent
        = (v.ctxs d).savedEvent := fun d => v.updCtx_proj c d Ctx.savedEvent (fun _ => rfl)
    refine ⟨fun p => (hadd.contents p).trans (hcont p), fun d => ?_⟩
    rw [hadd.sameSlots.saved, hslot, hsaved]

/-- **A call settles its books** exactly if the event it looks at first is
kept. -/
theorem Dequeued.settled_iff (h : Dequeued w c now w1 w2 w' o)
    (hsim : (w.ctxs c).mode = .simulation) (hlog : w'.log = w.log ++ acts) :
    (∀ e, Settled w w' c acts e) ↔ ∀ e ∈ looksAt w c, ¬ Skipped w c e := by
  obtain ⟨acts1, hb1, hzero1⟩ := h.enter.booked (c := c)
    (by rintro x rfl; simp [dequeueKinds])
  obtain ⟨acts2, hb2, _⟩ := h.look.run.booked (c := c)
    (by rintro x (rfl | rfl) <;> simp [dequeueKinds])
  obtain ⟨acts3, hb3, hzero3⟩ := h.finish.booked (c := c)
    (by rintro x (rfl | rfl | rfl | rfl | rfl) <;> simp [dequeueKinds])
  have hb := (hb1.trans hb2).trans hb3
  obtain rfl : acts = acts1 ++ acts2 ++ acts3 := List.append_cancel_left (hlog.symm.trans hb.log)
  -- only the market block discards
  have hdrops : (∀ e, (acts1 ++ acts2 ++ acts3).countP (Act.drops e) = 0)
      ↔ ∀ e, acts2.countP (Act.drops e) = 0 := by
    apply forall_congr'
    intro e
    have h1 := hzero1 (by simp) e
    have h3 := hzero3 (by simp [serveKinds]) e
    rw [List.countP_append, List.countP_append]
    omega
  have hi1 := h.enter.inv
  have hmode1 : (w1.ctxs c).mode = .simulation := by
    rw [h.enter.sameClock.mode c]
    exact hsim
  have hskip : ∀ e, Skipped w1 c e ↔ Skipped w c e := fun e =>
    Skipped.congr h.enter_events (h.enter.sameClock.time c)
  rw [hb.settled_iff, hdrops, hi1.market_drops_iff hmode1 (h.market hsim) hb2.log, looksAt, h.check]
  simp only [Option.bind_eq_bind, Option.bind_some, hskip]
  by_cases hsaved : (w1.ctxs c).savedEvent = none
  · simp only [hsaved, if_true, forall_const, Option.mem_def, Option.bind_eq_some_iff]
    constructor
    · rintro hall e ⟨q, hq, he⟩
      exact hall q hq e he
    · exact fun hall q hq e he => hall e ⟨q, hq, he⟩
  · simp [hsaved]

/-- **What a simulation dequeue does with the events it discards**: after every
clean run each `bus_dequeue` on a simulation-mode bus returns, and leaves no
popped market event unaccounted for exactly if the one it looks at first is
not to be skipped. -/
theorem cleanRun_settled_iff (hw : Booted w) (ops : List BusOp) (hrun : CleanRun w ops) :
    ∃ v rs, runOps w ops = some (v, rs) ∧ ∀ c now, (v.ctxs c).mode = .simulation →
      ∃ v' r acts, busDequeue v c now = some (v', r) ∧ v'.log = v.log ++ acts
        ∧ ((∀ e, Settled v v' c acts e) ↔ ∀ e ∈ looksAt v c, ¬ Skipped v c e) := by
  obtain ⟨v, rs, hcall, hv⟩ := hw.inv.cleanRun hrun
  refine ⟨v, rs, hcall, fun c now hsim => ?_⟩
  obtain ⟨w1, w2, v', r, hdeq, h⟩ := hv.busDequeue c now
  obtain ⟨acts, hb, _⟩ := h.run.booked (c := c) (fun _ hk => hk)
  exact ⟨v', r, acts, hdeq, hb.log, h.settled_iff hsim hb.log⟩

/-- An event in time and one that is late, on a bus whose clock stands at 4. -/
theorem cleanRun_settled_iff_two :
    ∃ v rs, runOps (World.fresh .simulation 0 [(4, .market)] (fun e => ⟨1, askEvent, 0, e⟩))
        [.push 0 5, .push 0 3, .addQueue 0 0, .setTime 0 4, .dequeue 0 0] = some (v, rs)
      ∧ ∀ c now, (v.ctxs c).mode = .simulation →
        ∃ v' r acts, busDequeue v c now = some (v', r) ∧ v'.log = v.log ++ acts
          ∧ ((∀ e, Settled v v' c acts e) ↔ ∀ e ∈ looksAt v c, ¬ Skipped v c e) :=
  cleanRun_settled_iff (World.fresh_booted (by simp)) _ (by decide +kernel)

/-- A late event and the end of the simulation are popped in one call and
released by nobody. -/
theorem dequeue_leaks :
    ∃ v rs, runOps (World.fresh .simulation 0 [(4, .market)]
        (fun e => ⟨1, if e = 7 then simulatorStopEvent else askEvent, 0, e⟩))
        [.push 0 3, .push 0 7, .addQueue 0 0, .setTime 0 4] = some (v, rs)
      ∧ (v.ctxs 0).mode = .simulation
      ∧ ∃ v', busDequeue v 0 0 = some (v', none)
        ∧ v'.log = v.log ++ [.take 0 3, .drop 0 3, .take 0 7, .drop 0 7]
        ∧ (v'.ctxs 0).savedEvent = none ∧ (v'.events 3).refcount = 1 ∧ (v'.events 7).refcount = 1
        ∧ ¬ Settled v v' 0 [.take 0 3, .drop 0 3, .take 0 7, .drop 0 7] 3 := by
  have hrun : (runOps (World.fresh .simulation 0 [(4, .market)]
      (fun e => ⟨1, if e = 7 then simulatorStopEvent else askEvent, 0, e⟩))
      [.push 0 3, .push 0 7, .addQueue 0 0, .setTime 0 4]).any (fun x =>
        decide ((x.1.ctxs 0).mode = .simulation ∧ (x.1.ctxs 0).savedEvent = none
          ∧ (x.1.queues 0).category = .market)
        && (busDequeue x.1 0 0).any fun y => decide (y.2 = none
          ∧ y.1.log = x.1.log ++ [.take 0 3, .drop 0 3, .take 0 7, .drop 0 7]
          ∧ (y.1.ctxs 0).savedEvent = none ∧ (y.1.events 3).refcount = 1
          ∧ (y.1.events 7).refcount = 1)) = true := by
    decide +kernel
  rw [Option.any_eq_true] at hrun
  obtain ⟨⟨v, rs⟩, hcall, hv⟩ := hrun
  rw [Bool.and_eq_true, decide_eq_true_iff, Option.any_eq_true] at hv
  obtain ⟨⟨hmode, hbefore, hcat⟩, ⟨v', r⟩, hdeq, hv'⟩ := hv
  rw [decide_eq_true_iff] at hv'
  obtain ⟨hr, hlog, hsaved, h3, h7⟩ := hv'
  simp only at hr hlog hsaved h3 h7 hmode hbefore hcat hdeq
  subst hr
  refine ⟨v, rs, hcall, hmode, v', hdeq, hlog, hsaved, h3, h7, ?_⟩
  simp [Settled, savedCount, hbefore, hsaved, Act.takesMarket, Act.givesMarket, hcat]

end Ats
