import Ats.Core.Calls

/-!
# Delivery: every pushed event is delivered once, in order

For each queue the history and the memory balance: what `bus_dequeue` has
settled (returned or skipped), what the look-ahead holds, and what still
waits in the ring are, in this order, exactly what was pushed.
-/

namespace Ats

/-! ## Reading the history -/

/-- `e` was pushed onto `q`. -/
def Act.pushedOn (q : QueueId) : Act → Option EventId
  | .push p e => if p = q then some e else none
  | _ => none

/-- `e` was taken from `q` and returned. -/
def Act.givenFrom (q : QueueId) : Act → Option EventId
  | .give _ _ p e => if p = q then some e else none
  | _ => none

/-- `e` was taken from `q` and skipped. -/
def Act.droppedFrom (q : QueueId) : Act → Option EventId
  | .drop p e => if p = q then some e else none
  | _ => none

/-- `e` was taken from `q` and is out of the bus's hands. -/
def Act.settledFrom (q : QueueId) (a : Act) : Option EventId :=
  (a.givenFrom q).or (a.droppedFrom q)

/-- The event a `bus_dequeue` returned, and the bus. -/
def Act.returned : Act → Option (CtxId × EventId)
  | .give c _ _ e => some (c, e)
  | .fire c _ t _ => some (c, t)
  | _ => none

namespace World

/-- The events whose push onto `q` succeeded, in order. -/
def pushed (w : World) (q : QueueId) : List EventId := w.log.filterMap (Act.pushedOn q)

/-- The events taken from `q` and returned, in order. -/
def given (w : World) (q : QueueId) : List EventId := w.log.filterMap (Act.givenFrom q)

/-- The events taken from `q` and skipped, in order. -/
def dropped (w : World) (q : QueueId) : List EventId :=
  w.log.filterMap (Act.droppedFrom q)

def settled (w : World) (q : QueueId) : List EventId :=
  w.log.filterMap (Act.settledFrom q)

/-- What `saved_event` holds of `q`. -/
def held (w : World) (q : QueueId) : List EventId :=
  match (w.queues q).ctx with
  | none => []
  | some c =>
      if (w.ctxs c).savedFrom = some q then (w.ctxs c).savedEvent.toList else []

end World

variable {w w' : World} {c : CtxId} {k : QueueCategory} {q p : QueueId} {e : EventId}
  {s : StepKind}

theorem settled_perm (w : World) (q : QueueId) :
    (w.settled q).Perm (w.given q ++ w.dropped q) := by
  rw [World.settled, World.given, World.dropped]
  induction w.log with
  | nil => exact List.Perm.refl []
  | cons a as ih =>
      cases a with
      | give c k r e =>
          by_cases hr : r = q
          · subst hr
            simpa [List.filterMap_cons, Act.settledFrom, Act.givenFrom, Act.droppedFrom] using ih
          · simpa [List.filterMap_cons, Act.settledFrom, Act.givenFrom, Act.droppedFrom,
              hr] using ih
      | drop r e =>
          by_cases hr : r = q
          · subst hr
            have hperm := (ih.cons e).trans List.perm_middle.symm
            simpa [List.filterMap_cons, Act.settledFrom, Act.givenFrom, Act.droppedFrom] using hperm
          · simpa [List.filterMap_cons, Act.settledFrom, Act.givenFrom, Act.droppedFrom,
              hr] using ih
      | _ => simpa [List.filterMap_cons, Act.settledFrom, Act.givenFrom, Act.droppedFrom] using ih

theorem given_sublist_settled (w : World) (q : QueueId) :
    (w.given q).Sublist (w.settled q) := by
  rw [World.settled, World.given]
  induction w.log with
  | nil => exact List.Sublist.refl []
  | cons a as ih =>
      cases hg : a.givenFrom q with
      | none =>
          rw [List.filterMap_cons_none hg]
          refine ih.trans ?_
          rw [List.filterMap_cons]
          split
          · exact List.Sublist.refl _
          · exact List.sublist_cons_self _ _
      | some e =>
          have hs : a.settledFrom q = some e := by rw [Act.settledFrom, hg]; rfl
          rw [List.filterMap_cons_some hg, List.filterMap_cons_some hs]
          exact ih.cons_cons e

/-! ## What `saved_event` holds -/

theorem held_congr (hctx : (w'.queues q).ctx = (w.queues q).ctx)
    (hs : SameSlots w w') : w'.held q = w.held q := by
  unfold World.held
  rw [hctx]
  cases (w.queues q).ctx with
  | none => rfl
  | some c => simp only [hs.savedFrom, hs.saved]

theorem QueueFrame.held (h : QueueFrame w w') (q : QueueId) : w'.held q = w.held q :=
  held_congr (h.queue_ctx q) h.sameSlots

theorem held_of_savedFrom_ne (h : ∀ c, (w.queues q).ctx = some c →
    (w.ctxs c).savedFrom ≠ some q) : w.held q = [] := by
  unfold World.held
  cases hc : (w.queues q).ctx with
  | none => rfl
  | some c => simp [h c hc]

theorem BusInv.held_nil (h : BusInv w) (hc : (w.queues q).ctx = some c)
    (hs : (w.ctxs c).savedEvent = none) : w.held q = [] := by
  refine held_of_savedFrom_ne (fun d hd hsf => ?_)
  rw [hc] at hd
  cases hd
  have := h.saved c
  rw [hs, hsf] at this
  cases this

theorem held_self (hc : (w.queues q).ctx = some c) (hf : (w.ctxs c).savedFrom = some q)
    (he : (w.ctxs c).savedEvent = some e) : w.held q = [e] := by
  unfold World.held
  rw [hc]
  simp [hf, he]

/-- A change of the slot of `c` shows only on the queues that it names. -/
theorem held_congr_ne (hctx : (w'.queues p).ctx = (w.queues p).ctx)
    (hslots : ∀ d, d ≠ c → (w'.ctxs d).savedEvent = (w.ctxs d).savedEvent
      ∧ (w'.ctxs d).savedFrom = (w.ctxs d).savedFrom)
    (hfrom : (w.ctxs c).savedFrom ≠ some p) (hfrom' : (w'.ctxs c).savedFrom ≠ some p) :
    w'.held p = w.held p := by
  unfold World.held
  rw [hctx]
  cases (w.queues p).ctx with
  | none => rfl
  | some d =>
      by_cases hd : d = c
      · subst hd
        simp [hfrom, hfrom']
      · simp only [(hslots d hd).1, (hslots d hd).2]

theorem held_of_ctx_none (hc : (w.queues q).ctx = none) :
    w.held q = [] :=
  held_of_savedFrom_ne (fun d hd => by rw [hc] at hd; cases hd)

/-- `busUnsave` taken apart. -/
theorem busUnsave_eq (h : busUnsave w c = some (w', e)) :
    ∃ q, (w.ctxs c).savedEvent = some e ∧ (w.ctxs c).savedFrom = some q
      ∧ w' = (w.updCtx c fun x => { x with savedEvent := none, savedFrom := none }).note
          (.give c .market q e) := by
  rw [busUnsave] at h
  cases hsv : (w.ctxs c).savedEvent with
  | none =>
      rw [hsv] at h
      cases h
  | some x =>
      cases hsf : (w.ctxs c).savedFrom with
      | none =>
          rw [hsv, hsf] at h
          cases h
      | some q =>
          rw [hsv, hsf] at h
          cases h
          exact ⟨q, rfl, rfl, rfl⟩

theorem busUnsave_savedEvent (h : busUnsave w c = some (w', e)) :
    (w.ctxs c).savedEvent = some e := by
  obtain ⟨_, he, _, _⟩ := busUnsave_eq h
  exact he

theorem BusInv.of_busUnsave (hi : BusInv w) (h : Ats.busUnsave w c = some (w', e)) :
    BusInv w' := by
  obtain ⟨_, _, hcall, hi'⟩ := hi.busUnsave (busUnsave_savedEvent h)
  rw [h] at hcall
  cases hcall
  exact hi'

theorem busUnsave_sameQueues (h : busUnsave w c = some (w', e)) : SameQueues w w' := by
  obtain ⟨q, _, _, rfl⟩ := busUnsave_eq h
  refine SameQueues.note ?_ _
  exact updCtx_sameQueues w c (fun _ => ⟨rfl, rfl⟩)

/-! ## The balance -/

/-- **The ledger of each queue.** -/
def Balanced (w : World) : Prop :=
  ∀ q, q < w.nextQueue → w.settled q ++ w.held q ++ w.contents q = w.pushed q

theorem Balanced.of_same (h : Balanced w)
    (hlog : ∀ q, w'.settled q = w.settled q ∧ w'.pushed q = w.pushed q)
    (hheld : ∀ q, w'.held q = w.held q) (hcont : ∀ q, w'.contents q = w.contents q)
    (hnext : w'.nextQueue = w.nextQueue) : Balanced w' := by
  intro q hq
  rw [(hlog q).1, (hlog q).2, hheld, hcont]
  exact h q (hnext ▸ hq)

/-- Registering a queue neither pushes nor settles. -/
theorem QueueAdded.settled_pushed (h : QueueAdded w w' c q) (p : QueueId) :
    w'.settled p = w.settled p ∧ w'.pushed p = w.pushed p := by
  rw [World.settled, World.pushed, h.log, List.filterMap_append, List.filterMap_append]
  simp [List.filterMap_cons, Act.settledFrom, Act.givenFrom, Act.droppedFrom, Act.pushedOn,
    World.settled, World.pushed]

theorem QueuePushed.log (h : QueuePushed w w' q e) : w'.log = w.log ++ [.push q e] := by
  obtain ⟨w1, ha, hw⟩ := h.append
  rw [hw, ha.rest]

theorem QueuePushed.contents (h : QueuePushed w w' q e) :
    w'.contents q = w.contents q ++ [e] := by
  obtain ⟨w1, ha, hw⟩ := h.append
  rw [World.contents, hw]
  exact ha.contents

theorem QueuePushed.contents_ne (h : QueuePushed w w' q e) (hp : p ≠ q) :
    w'.contents p = w.contents p := by
  obtain ⟨w1, ha, hw⟩ := h.append
  rw [World.contents, hw]
  exact ha.contents_ne hp

theorem QueuePushed.held (h : QueuePushed w w' q e) (p : QueueId) :
    w'.held p = w.held p :=
  held_congr (h.queue_ctx p) h.sameSlots

/-- A push adds to both sides. -/
theorem Balanced.push (hb : Balanced w) (h : QueuePushed w w' q e) : Balanced w' := by
  intro p hp
  have hold := hb p (h.nextQueue ▸ hp)
  rw [World.settled, World.pushed, h.log, h.held, List.filterMap_append,
    List.filterMap_append]
  by_cases hpq : p = q
  · subst hpq
    rw [h.contents]
    simp only [List.filterMap_cons, List.filterMap_nil, Act.settledFrom, Act.givenFrom,
      Act.droppedFrom, Act.pushedOn, Option.or_none, if_pos, List.append_nil]
    rw [← List.append_assoc]
    exact congrArg (· ++ [e]) hold
  · rw [h.contents_ne hpq]
    have hqp : ¬ q = p := fun hc => hpq hc.symm
    simpa [List.filterMap_cons, World.settled, World.pushed, Act.settledFrom, Act.givenFrom,
      Act.droppedFrom, Act.pushedOn, hqp] using hold

theorem stop_sameSlots (w : World) (c : CtxId) (stop : Bool) (a : Act) :
    SameSlots w ((w.updCtx c fun x => { x with isSimulatorStop := stop }).note a) := by
  have h : SameSlots w (w.updCtx c fun x => { x with isSimulatorStop := stop }) :=
    ⟨fun d => w.updCtx_proj c d Ctx.savedEvent (fun _ => rfl),
      fun d => w.updCtx_proj c d Ctx.savedFrom (fun _ => rfl),
      fun d => w.updCtx_proj c d Ctx.attached (fun _ => rfl),
      fun d => w.updCtx_proj c d Ctx.attachedCount (fun _ => rfl)⟩
  exact ⟨h.saved, h.savedFrom, h.attached, h.count⟩

/-- An event that was taken from `q` and is settled at once. -/
theorem Balanced.settle (hb : Balanced w) (hpop : PipePop w w' c k q e) {a : Act}
    {v : World} (hlog : v.log = w'.log ++ [a]) (hqs : v.queues = w'.queues)
    (hnext : v.nextQueue = w'.nextQueue) (hheld : ∀ p, v.held p = w.held p)
    (hnil : w.held q = []) (hpush : ∀ p, a.pushedOn p = none)
    (hset : ∀ p, a.settledFrom p = if q = p then some e else none) : Balanced v := by
  intro p hp
  have hold := hb p (hpop.frame.nextQueue ▸ hnext ▸ hp)
  have htake : (Act.take q e).settledFrom p = none ∧ (Act.take q e).pushedOn p = none :=
    ⟨rfl, rfl⟩
  rw [World.settled, World.pushed, hlog, hpop.log, World.contents, hqs, hheld]
  by_cases hpq : p = q
  · subst hpq
    rw [hnil, hpop.contents] at hold
    rw [hnil]
    simpa [List.filterMap_cons, World.settled, World.pushed, World.contents, htake, hpush,
      hset] using hold
  · have hqp : ¬ q = p := fun hc => hpq hc.symm
    have hcont : spscqToList (w'.queues p).spsc = w.contents p := hpop.contents_ne hpq
    rw [hcont]
    simpa [List.filterMap_cons, World.settled, World.pushed, htake, hpush, hset, hqp]
      using hold

/-- An event that was taken from `q` and is saved. -/
theorem Balanced.save (hb : Balanced w) (hi : BusInv w) (hpop : PipePop w w' c k q e)
    (hsaved : (w.ctxs c).savedEvent = none) (ts : Nat) :
    Balanced (busSave (w'.updEvent e fun x => { x with timestamp := ts }) c q e) := by
  generalize hv : busSave (w'.updEvent e fun x => { x with timestamp := ts }) c q e = v
  have hqs : v.queues = w'.queues := by rw [← hv]; rfl
  have hlog : v.log = w.log ++ [.take q e] := by rw [← hv, ← hpop.log]; rfl
  have hslot : (v.ctxs c).savedEvent = some e ∧ (v.ctxs c).savedFrom = some q := by
    rw [← hv]
    simp [busSave, World.updCtx]
  have hslots : ∀ d, d ≠ c → (v.ctxs d).savedEvent = (w.ctxs d).savedEvent
      ∧ (v.ctxs d).savedFrom = (w.ctxs d).savedFrom := by
    intro d hd
    have hx : v.ctxs d = w'.ctxs d := by
      rw [← hv]
      simp [busSave, World.updCtx, World.updEvent, hd]
    rw [hx, hpop.ctxs_ne d hd]
    exact ⟨rfl, rfl⟩
  intro p hp
  have hold := hb p (by rw [← hv] at hp; exact hpop.frame.nextQueue ▸ hp)
  rw [World.settled, World.pushed, hlog, World.contents, hqs]
  by_cases hpq : p = q
  · -- what left the queue is what is held now
    subst hpq
    have hheld : v.held p = [e] := held_self (by rw [hqs]; exact hpop.linkable'.2.1) hslot.2 hslot.1
    rw [hi.held_nil hpop.linkable.ctx hsaved, hpop.contents] at hold
    rw [hheld]
    simpa [List.filterMap_cons, World.settled, World.pushed, World.contents, Act.settledFrom,
      Act.givenFrom, Act.droppedFrom, Act.pushedOn] using hold
  · have hfrom : (w.ctxs c).savedFrom ≠ some p := by
      intro hc
      have := hi.saved c
      rw [hsaved, hc] at this
      cases this
    have hheld : v.held p = w.held p :=
      held_congr_ne (by rw [hqs]; exact hpop.frame.queue_ctx p) hslots hfrom
        (by rw [hslot.2]; exact fun hc => hpq (Option.some.inj hc).symm)
    have hcont : spscqToList (w'.queues p).spsc = w.contents p := hpop.contents_ne hpq
    rw [hheld, hcont]
    simpa [List.filterMap_cons, World.settled, World.pushed, Act.settledFrom, Act.givenFrom,
      Act.droppedFrom, Act.pushedOn] using hold

/-- The saved event is returned. -/
theorem Balanced.unsave (hb : Balanced w) (hi : BusInv w) (hun : busUnsave w c = some (w', e)) :
    Balanced w' := by
  obtain ⟨q, hx, hq, hw'⟩ := busUnsave_eq hun
  have hqs : w'.queues = w.queues := by rw [hw']; rfl
  have hlog : w'.log = w.log ++ [.give c .market q e] := by rw [hw']; rfl
  have hctx := (hi.savedFrom c q hq).2.1
  have hslot : (w'.ctxs c).savedFrom = none := by
    rw [hw']
    simp [World.note, World.updCtx]
  have hslots : ∀ d, d ≠ c → (w'.ctxs d).savedEvent = (w.ctxs d).savedEvent
      ∧ (w'.ctxs d).savedFrom = (w.ctxs d).savedFrom := by
    intro d hd
    have hd' : w'.ctxs d = w.ctxs d := by
      rw [hw']
      simp [World.note, World.updCtx, hd]
    rw [hd']
    exact ⟨rfl, rfl⟩
  intro p hp
  have hold := hb p (by rw [hw'] at hp; exact hp)
  rw [World.settled, World.pushed, hlog, World.contents, hqs]
  by_cases hpq : p = q
  · -- what was held is what is settled now
    subst hpq
    have hheld : w'.held p = [] := held_of_savedFrom_ne fun d hd => by
      rw [hqs, hctx] at hd
      cases hd
      rw [hslot]
      exact Option.some_ne_none p ∘ Eq.symm
    rw [held_self hctx hq hx] at hold
    rw [hheld]
    simpa [List.filterMap_cons, World.settled, World.pushed, World.contents, Act.settledFrom,
      Act.givenFrom, Act.droppedFrom, Act.pushedOn] using hold
  · have hqp : ¬ q = p := fun hc => hpq hc.symm
    have hheld : w'.held p = w.held p :=
      held_congr_ne (by rw [hqs]) hslots (by rw [hq]; exact fun hc => hqp (Option.some.inj hc))
        (by rw [hslot]; exact Option.some_ne_none p ∘ Eq.symm)
    rw [hheld]
    simpa [List.filterMap_cons, World.settled, World.pushed, World.contents, Act.settledFrom,
      Act.givenFrom, Act.droppedFrom, Act.pushedOn, hqp] using hold

/-- **Each step keeps the ledgers balanced.** -/
theorem BusStep.balanced (hs : BusStep s w w') (hi : BusInv w) (hb : Balanced w) :
    Balanced w' := by
  cases hs with
  | add hlt hctx hadd =>
      refine hb.of_same hadd.settled_pushed (fun p => ?_) hadd.contents hadd.frame.nextQueue
      rename_i c q
      by_cases hpq : p = q
      · -- a queue on no bus has nothing saved
        subst hpq
        have hne : ∀ d, (w.ctxs d).savedFrom ≠ some p := by
          intro d hd
          rw [(hi.savedFrom d p hd).2.1] at hctx
          cases hctx
        rw [held_of_savedFrom_ne (fun d _ => hne d), held_of_savedFrom_ne]
        intro d _
        rw [hadd.sameSlots.savedFrom]
        exact hne d
      · exact held_congr (by rw [hadd.others p hpq]) hadd.sameSlots
  | reenter hpend hadd =>
      rename_i c q rest
      -- a pending queue keeps its bus
      have hctx : (w.queues q).ctx = some c :=
        (hi.queue.pending c q (by rw [hpend]; exact List.mem_cons_self)).1.ctx
      have hslots : SameSlots w (w.updCtx c fun x => { x with pendingQueue := rest }) :=
        ⟨fun d => w.updCtx_proj c d Ctx.savedEvent (fun _ => rfl),
          fun d => w.updCtx_proj c d Ctx.savedFrom (fun _ => rfl),
          fun d => w.updCtx_proj c d Ctx.attached (fun _ => rfl),
          fun d => w.updCtx_proj c d Ctx.attachedCount (fun _ => rfl)⟩
      refine hb.of_same hadd.settled_pushed (fun p => ?_) hadd.contents hadd.frame.nextQueue
      refine (held_congr ?_ hadd.sameSlots).trans (held_congr rfl hslots)
      by_cases hpq : p = q
      · rw [hpq, hadd.ctx]
        exact hctx.symm
      · rw [hadd.others p hpq]
  | push hpush => exact hb.push hpush
  | drop hpop hmode hskip hsaved =>
      rename_i w1 c q e stop
      refine hb.settle hpop rfl rfl rfl (fun p => ?_) (hi.held_nil hpop.linkable.ctx hsaved)
        (fun _ => rfl) (fun _ => rfl)
      exact Eq.trans (b := w1.held p) (held_congr rfl (stop_sameSlots w1 c stop _))
        (hpop.frame.held p)
  | save hpop hsaved hts => exact hb.save hi hpop hsaved _
  | give hpop hk =>
      refine hb.settle hpop rfl rfl rfl hpop.frame.held ?_ (fun _ => rfl) (fun p => ?_)
      -- only market events are ever saved
      · refine held_of_savedFrom_ne (fun d hd hsf => ?_)
        exact hk (hpop.linkable.category.symm.trans (hi.savedFrom d _ hsf).2.2)
      · exact Option.or_none
  | fire hpop =>
      rename_i w1 c k t
      intro p hp
      have hold := hb p (hpop.frame.nextQueue ▸ hp)
      have hheld : w1.held p = w.held p :=
        held_congr (by rw [hpop.frame.queues]) hpop.frame.sameSlots
      have hcont : w1.contents p = w.contents p := by
        rw [World.contents, hpop.frame.queues, World.contents]
      show (w1.log ++ [_]).filterMap (Act.settledFrom p) ++ w1.held p ++ w1.contents p
        = (w1.log ++ [_]).filterMap (Act.pushedOn p)
      rw [hpop.frame.log, hheld, hcont]
      simpa [List.filterMap_cons, World.settled, World.pushed, Act.settledFrom, Act.givenFrom,
        Act.droppedFrom, Act.pushedOn] using hold
  | release hun => exact hb.unsave hi hun
  | forward hlt hatt hpush =>
      refine Balanced.push (w := eventRef w _) ?_ hpush
      exact hb.of_same (fun _ => ⟨rfl, rfl⟩) (fun _ => rfl) (fun _ => rfl) rfl
  | overrun hlt hatt hfull =>
      exact hb.of_same (fun _ => ⟨rfl, rfl⟩) (fun _ => rfl) (fun _ => rfl) rfl

/-! ## No queue is forgotten -/

/-- **Every registered queue that holds something is known to its bus**: it
stands in its heap or on the pending list. -/
def Covered (w : World) : Prop :=
  ∀ q c, q < w.nextQueue → (w.queues q).ctx = some c → w.contents q ≠ [] →
    q ∈ w.queueNodes c (w.queues q).category ∨ q ∈ (w.ctxs c).pendingQueue

theorem Covered.of_same (h : Covered w) (hq : SameQueues w w') : Covered w' := by
  intro q c hlt hctx hne
  rw [hq.category, hq.queueNodes, hq.pending]
  exact h q c (hq.next ▸ hlt) (hq.ctx q ▸ hctx) (hq.contents q ▸ hne)

theorem Covered.pop (h : Covered w) (hpop : PipePop w w' c k q e) : Covered w' := by
  intro p d hlt hctx hne
  have hf := hpop.frame
  rw [hf.queue_category, hf.pendingQueue]
  rw [hf.queue_ctx] at hctx
  have hkeep : ∀ x j, p ∈ w.queueNodes x j → p ≠ q ∨ w'.contents q ≠ [] →
      p ∈ w'.queueNodes x j := by
    intro x j hm hor
    by_cases hx : x = c ∧ j = k
    · obtain ⟨rfl, rfl⟩ := hx
      rw [hpop.nodes.mem_iff]
      split
      case isTrue he => exact (List.mem_erase_of_ne (hor.resolve_right (fun hn => hn he))).mpr hm
      case isFalse => exact hm
    · rw [hpop.nodes_ne x j (by tauto)]
      exact hm
  by_cases hpq : p = q
  · subst hpq
    have hd : d = c := Option.some.inj (hctx.symm.trans hpop.linkable.ctx)
    left
    refine hkeep _ _ ?_ (Or.inr hne)
    rw [hd, hpop.linkable.category]
    exact hpop.mem
  · rw [hpop.contents_ne hpq] at hne
    rcases h p d (hf.nextQueue ▸ hlt) hctx hne with hm | hm
    · exact Or.inl (hkeep _ _ hm (Or.inl hpq))
    · exact Or.inr hm

theorem QueuePushed.queueNodes (h : QueuePushed w w' q e) (d : CtxId)
    (j : QueueCategory) : w'.queueNodes d j = w.queueNodes d j := by
  obtain ⟨w1, ha, hw⟩ := h.append
  rw [World.queueNodes, World.queueMem, h.ctxs, hw, ha.rest]
  rfl

theorem Covered.push (h : Covered w) (hp : QueuePushed w w' q e) : Covered w' := by
  intro p d hlt hctx hne
  rw [hp.queue_category, hp.queueNodes, hp.ctxs]
  rw [hp.queue_ctx] at hctx
  have hlt' := hp.nextQueue ▸ hlt
  by_cases hnew : w.contents q = [] ∧ (w.queues q).ctx = some d
  · rw [if_pos hnew]
    by_cases hpq : p = q
    · exact Or.inr (List.mem_append_right _ (List.mem_singleton.mpr hpq))
    · rw [hp.contents_ne hpq] at hne
      rcases h p d hlt' hctx hne with hm | hm
      · exact Or.inl hm
      · exact Or.inr (List.mem_append_left _ hm)
  · rw [if_neg hnew]
    refine h p d hlt' hctx ?_
    by_cases hpq : p = q
    · subst hpq
      exact fun hc => hnew ⟨hc, hctx⟩
    · rw [hp.contents_ne hpq] at hne
      exact hne

/-- Registering covers the queue itself. -/
theorem QueueAdded.covered (hadd : QueueAdded w w' c q)
    (h : ∀ p d, p ≠ q → p < w.nextQueue → (w.queues p).ctx = some d → w.contents p ≠ [] →
      p ∈ w.queueNodes d (w.queues p).category ∨ p ∈ (w.ctxs d).pendingQueue) :
    Covered w' := by
  intro p d hlt hctx hne
  have hpend : ∀ d, (w'.ctxs d).pendingQueue = (w.ctxs d).pendingQueue :=
    hadd.frame.pendingQueue
  rw [hadd.queue_category, hpend]
  rw [hadd.contents] at hne
  have hkeep : ∀ x j, p ∈ w.queueNodes x j → p ∈ w'.queueNodes x j := by
    intro x j hm
    by_cases hx : x = c ∧ j = (w.queues q).category
    · obtain ⟨rfl, rfl⟩ := hx
      rw [hadd.nodes.mem_iff]
      split
      · exact hm
      · exact List.mem_cons_of_mem q hm
    · rw [hadd.nodes_ne x j (by tauto)]
      exact hm
  by_cases hpq : p = q
  · subst hpq
    have hd : d = c := Option.some.inj (hctx.symm.trans hadd.ctx)
    left
    rw [hd, hadd.nodes.mem_iff, if_neg hne]
    exact List.mem_cons_self
  · rw [hadd.others p hpq] at hctx
    rcases h p d hpq (hadd.frame.nextQueue ▸ hlt) hctx hne with hm | hm
    · exact Or.inl (hkeep _ _ hm)
    · exact Or.inr hm

/-- **Each step keeps every queue covered.** -/
theorem BusStep.covered (hs : BusStep s w w') (hi : BusInv w) (hcov : Covered w) :
    Covered w' := by
  cases hs with
  | add hlt hctx hadd => exact hadd.covered (fun p d _ => hcov p d)
  | reenter hpend hadd =>
      rename_i c q rest
      refine hadd.covered (fun p d hpq hlt hctx hne => ?_)
      have hnodes := (hi.queue.unpend hpend).2.1
      rcases hcov p d hlt hctx hne with hm | hm
      · left
        rw [hnodes]
        exact hm
      · right
        by_cases hd : d = c
        · subst hd
          rw [hpend] at hm
          rcases List.mem_cons.mp hm with hm | hm
          · exact absurd hm hpq
          · simpa [World.updCtx] using hm
        · simpa [World.updCtx, hd] using hm
  | push hpush => exact hcov.push hpush
  | drop hpop hmode hskip hsaved =>
      refine (hcov.pop hpop).of_same ?_
      refine SameQueues.note ?_ _
      exact updCtx_sameQueues _ _ (fun _ => ⟨rfl, rfl⟩)
  | save hpop hsaved hts => exact (hcov.pop hpop).of_same (busSave_sameQueues _ _ _ _ _)
  | give hpop hk =>
      exact (hcov.pop hpop).of_same ⟨fun _ => rfl, fun _ => rfl, fun _ => rfl, rfl, rfl,
        fun _ => rfl, fun _ => rfl⟩
  | fire hpop =>
      have hq := hpop.frame.sameQueues
      exact hcov.of_same (hq.note _)
  | release hun => exact hcov.of_same (busUnsave_sameQueues hun)
  | forward hlt hatt hpush =>
      refine Covered.push (w := eventRef w _) ?_ hpush
      exact hcov.of_same ⟨fun _ => rfl, fun _ => rfl, fun _ => rfl, rfl, rfl, fun _ => rfl,
        fun _ => rfl⟩
  | overrun hlt hatt hfull =>
      exact hcov.of_same ⟨fun _ => rfl, fun _ => rfl, fun _ => rfl, rfl, rfl, fun _ => rfl,
        fun _ => rfl⟩

/-! ## What is skipped, and what is returned -/

/-- What `bus_dequeue` never changes: modes, clocks, event types, and the
timestamps of events it would not keep when they are late. -/
structure SameClock (w w' : World) : Prop where
  mode : ∀ d, (w'.ctxs d).mode = (w.ctxs d).mode
  time : ∀ d, (w'.ctxs d).time = (w.ctxs d).time
  type : ∀ e, (w'.events e).eventType = (w.events e).eventType
  stamp : ∀ e, (w'.events e).timestamp = (w.events e).timestamp
    ∨ keptWhenLate (w.events e).eventType
  ctx : ∀ p d, (w.queues p).ctx = some d → (w'.queues p).ctx = some d

theorem QueueFrame.sameClock (h : QueueFrame w w') : SameClock w w' where
  mode := fun d => h.ctx_proj d Ctx.mode (fun _ _ _ => rfl)
  time := fun d => h.ctx_proj d Ctx.time (fun _ _ _ => rfl)
  type := fun e => by rw [h.events]
  stamp := fun e => Or.inl (by rw [h.events])
  ctx := fun p _ hp => (h.queue_ctx p).trans hp

theorem QueueAdded.sameClock (h : QueueAdded w w' c q)
    (hc : (w.queues q).ctx = some c ∨ (w.queues q).ctx = none) : SameClock w w' :=
  have hf := h.frame.sameClock
  ⟨hf.mode, hf.time, hf.type, hf.stamp, fun _ _ hp => h.queue_ctx hc hp⟩

theorem QueuePushed.events (h : QueuePushed w w' q e) : w'.events = w.events := by
  obtain ⟨w1, ha, hw⟩ := h.append
  rw [hw, ha.rest]

theorem QueuePushed.sameClock (h : QueuePushed w w' q e) : SameClock w w' where
  mode := fun d => by rw [h.ctxs]
  time := fun d => by rw [h.ctxs]
  type := fun e => by rw [h.events]
  stamp := fun e => Or.inl (by rw [h.events])
  ctx := fun p _ hp => (h.queue_ctx p).trans hp

theorem SameClock.trans {w'' : World} (h : SameClock w w') (h' : SameClock w' w'') :
    SameClock w w'' where
  mode := fun d => (h'.mode d).trans (h.mode d)
  time := fun d => (h'.time d).trans (h.time d)
  type := fun e => (h'.type e).trans (h.type e)
  stamp := fun e => by
    rcases h'.stamp e with h2 | h2
    · rcases h.stamp e with h1 | h1
      · exact Or.inl (h2.trans h1)
      · exact Or.inr h1
    · exact Or.inr (h.type e ▸ h2)
  ctx := fun p d hp => h'.ctx p d (h.ctx p d hp)

theorem eventRef_sameClock (w : World) (e : EventId) : SameClock w (eventRef w e) where
  mode := fun _ => rfl
  time := fun _ => rfl
  type := fun a => w.updEvent_proj e a Event.eventType (fun _ => rfl)
  stamp := fun a => Or.inl (w.updEvent_proj e a Event.timestamp (fun _ => rfl))
  ctx := fun _ _ hp => hp

theorem BusStep.sameClock (hs : BusStep s w w') (hi : BusInv w) : SameClock w w' := by
  cases hs with
  | add hlt hctx hadd => exact hadd.sameClock (Or.inr hctx)
  | reenter hpend hadd =>
      rename_i c q rest
      have hctx := (hi.queue.pending c q (by rw [hpend]; exact List.mem_cons_self)).1.ctx
      have h1 : SameClock w (w.updCtx c fun x => { x with pendingQueue := rest }) :=
        ⟨fun d => w.updCtx_proj c d Ctx.mode (fun _ => rfl),
          fun d => w.updCtx_proj c d Ctx.time (fun _ => rfl), fun _ => rfl,
          fun _ => Or.inl rfl, fun _ _ hp => hp⟩
      exact h1.trans (hadd.sameClock (Or.inl hctx))
  | push hpush => exact hpush.sameClock
  | drop hpop hmode hskip hsaved =>
      rename_i w1 c q e stop
      have h1 : SameClock w1 (w1.updCtx c fun x => { x with isSimulatorStop := stop }) :=
        ⟨fun d => w1.updCtx_proj c d Ctx.mode (fun _ => rfl),
          fun d => w1.updCtx_proj c d Ctx.time (fun _ => rfl), fun _ => rfl,
          fun _ => Or.inl rfl, fun _ _ hp => hp⟩
      have h := hpop.frame.sameClock.trans h1
      exact ⟨h.mode, h.time, h.type, h.stamp, h.ctx⟩
  | save hpop hsaved hts =>
      rename_i w1 c q e ts
      refine hpop.frame.sameClock.trans ⟨?_, ?_, ?_, ?_, fun _ _ hp => hp⟩
      · exact fun d => busSave_proj (w1.updEvent e _) c d q e Ctx.mode (fun _ _ _ => rfl)
      · exact fun d => busSave_proj (w1.updEvent e _) c d q e Ctx.time (fun _ _ _ => rfl)
      · intro a
        show ((w1.updEvent e fun x => { x with timestamp := ts }).events a).eventType = _
        exact w1.updEvent_proj e a Event.eventType (fun _ => rfl)
      · intro a
        by_cases ha : a = e
        · subst ha
          rcases hts with hts | ⟨_, hkeep, _⟩
          · left
            show ((w1.updEvent a fun x => { x with timestamp := ts }).events a).timestamp = _
            rw [hts, ← hpop.frame.events]
            simp [World.updEvent]
          · right
            rw [hpop.frame.events]
            exact hkeep
        · left
          show ((w1.updEvent e fun x => { x with timestamp := ts }).events a).timestamp = _
          simp [World.updEvent, Function.update_of_ne ha]
  | give hpop hk =>
      have h := hpop.frame.sameClock
      exact ⟨h.mode, h.time, h.type, h.stamp, h.ctx⟩
  | fire hpop =>
      have hf := hpop.frame
      exact ⟨fun d => hf.ctx_proj d Ctx.mode (fun _ _ _ => rfl),
        fun d => hf.ctx_proj d Ctx.time (fun _ _ _ => rfl),
        fun e => congrArg Event.eventType (congrFun hf.events e),
        fun e => Or.inl (congrArg Event.timestamp (congrFun hf.events e)),
        fun p d hp => (congrArg EventQueue.ctx (congrFun hf.queues p)).trans hp⟩
  | release hun =>
      rename_i c e
      obtain ⟨q, _, _, rfl⟩ := busUnsave_eq hun
      have h : SameClock w (w.updCtx c fun x =>
          { x with savedEvent := none, savedFrom := none }) :=
        ⟨fun d => w.updCtx_proj c d Ctx.mode (fun _ => rfl),
          fun d => w.updCtx_proj c d Ctx.time (fun _ => rfl), fun _ => rfl,
          fun _ => Or.inl rfl, fun _ _ hp => hp⟩
      exact ⟨h.mode, h.time, h.type, h.stamp, h.ctx⟩
  | forward hlt hatt hpush => exact (eventRef_sameClock w _).trans hpush.sameClock
  | overrun hlt hatt hfull => exact eventRef_sameClock w _

/-- **What no step changes about queues**: how many there are, and, unless
the client registers one, where they are registered. -/
theorem BusStep.queues (hs : BusStep s w w') (hi : BusInv w) :
    w'.nextQueue = w.nextQueue
      ∧ ((∀ d, s ≠ .add d) → ∀ p, (w'.queues p).ctx = (w.queues p).ctx) := by
  cases hs with
  | add hlt hctx hadd => exact ⟨hadd.frame.nextQueue, fun hne => absurd rfl (hne _)⟩
  | reenter hpend hadd =>
      rename_i c q rest
      refine ⟨hadd.frame.nextQueue, fun _ p => ?_⟩
      by_cases hpq : p = q
      · rw [hpq, hadd.ctx]
        exact (hi.queue.pending c q (by rw [hpend]; exact List.mem_cons_self)).1.ctx.symm
      · rw [hadd.others p hpq]
        rfl
  | push hpush => exact ⟨hpush.nextQueue, fun _ p => hpush.queue_ctx p⟩
  | drop hpop _ _ _ => exact ⟨hpop.frame.nextQueue, fun _ p => hpop.frame.queue_ctx p⟩
  | save hpop _ _ => exact ⟨hpop.frame.nextQueue, fun _ p => hpop.frame.queue_ctx p⟩
  | give hpop _ => exact ⟨hpop.frame.nextQueue, fun _ p => hpop.frame.queue_ctx p⟩
  | fire hpop =>
      exact ⟨hpop.frame.nextQueue,
        fun _ p => congrArg EventQueue.ctx (congrFun hpop.frame.queues p)⟩
  | release hun =>
      obtain ⟨q, _, _, rfl⟩ := busUnsave_eq hun
      exact ⟨rfl, fun _ _ => rfl⟩
  | forward _ _ hpush => exact ⟨hpush.nextQueue, fun _ p => hpush.queue_ctx p⟩
  | overrun _ _ _ => exact ⟨rfl, fun _ _ => rfl⟩

theorem BusRun.nextQueue {S : Set StepKind} (h : BusRun S w w') :
    w'.nextQueue = w.nextQueue :=
  h.keeps (P := fun v => v.nextQueue = w.nextQueue)
    (fun _ _ _ _ hv _ hs hp => (hs.queues hv).1.trans hp) rfl

theorem BusRun.queue_ctx {S : Set StepKind} (h : BusRun S w w') (hS : ∀ d, .add d ∉ S)
    (p : QueueId) : (w'.queues p).ctx = (w.queues p).ctx :=
  h.keeps (P := fun v => (v.queues p).ctx = (w.queues p).ctx)
    (fun _ hm _ _ hv _ hs hp => ((hs.queues hv).2 (fun d hc => hS d (hc ▸ hm)) p).trans hp) rfl

theorem BusRun.sameClock {S : Set StepKind} (h : BusRun S w w') : SameClock w w' := by
  refine h.keeps (P := fun v => SameClock w v) (fun s _ v v' hv _ hs hp => ?_)
    ⟨fun _ => rfl, fun _ => rfl, fun _ => rfl, fun _ => Or.inl rfl, fun _ _ hp => hp⟩
  exact hp.trans (hs.sameClock hv)

/-- **Nothing is skipped without a reason**: only in simulation mode, and
only the end of the simulation or a late event. -/
def SkipsJustified (w : World) : Prop :=
  ∀ q e, .drop q e ∈ w.log →
    ∃ c, (w.queues q).ctx = some c ∧ (w.ctxs c).mode = .simulation ∧ Skipped w c e

theorem Skipped.sameClock (h : Skipped w c e) (hc : SameClock w w') : Skipped w' c e := by
  rw [Skipped, hc.type, hc.time]
  rcases h with h | ⟨hk, hlt⟩
  · exact Or.inl h
  · refine Or.inr ⟨hk, ?_⟩
    rw [(hc.stamp e).resolve_right hk]
    exact hlt

/-- What a step adds to the history. -/
theorem BusStep.log (hs : BusStep s w w') :
    ∃ acts, w'.log = w.log ++ acts
      ∧ (∀ q e, .drop q e ∈ acts → ∃ c, (w.queues q).ctx = some c
          ∧ (w.ctxs c).mode = .simulation ∧ Skipped w c e)
      ∧ ((∀ d, s ≠ .give d) → (∀ d, s ≠ .fire d) → (∀ d, s ≠ .release d) →
          acts.filterMap Act.returned = []) := by
  cases hs with
  | add hlt hctx hadd =>
      exact ⟨_, hadd.log, by simp, by simp [List.filterMap_cons, Act.returned]⟩
  | reenter hpend hadd =>
      exact ⟨_, hadd.log, by simp, by simp [List.filterMap_cons, Act.returned]⟩
  | push hpush =>
      exact ⟨_, hpush.log, by simp, by simp [List.filterMap_cons, Act.returned]⟩
  | drop hpop hmode hskip hsaved =>
      rename_i w1 c q e stop
      refine ⟨[.take q e, .drop q e], ?_, ?_, ?_⟩
      · show w1.log ++ [_] = _
        rw [hpop.log]
        simp
      · intro p x hm
        simp at hm
        obtain ⟨rfl, rfl⟩ := hm
        exact ⟨c, hpop.linkable.ctx, hmode, hskip⟩
      · intro _ _ _
        simp [List.filterMap_cons, Act.returned]
  | save hpop hsaved hts =>
      exact ⟨_, hpop.log, by simp, by simp [List.filterMap_cons, Act.returned]⟩
  | give hpop hk =>
      rename_i w1 c k q e
      refine ⟨[.take q e, .give c k q e], ?_, by simp, by simp⟩
      show w1.log ++ [_] = _
      rw [hpop.log]
      simp
  | fire hpop =>
      rename_i w1 c k t
      refine ⟨[.fire c k t (w.reminders t).timeout], ?_, by simp, by simp⟩
      show w1.log ++ [_] = _
      rw [hpop.frame.log]
  | release hun =>
      rename_i c e
      obtain ⟨q, _, _, rfl⟩ := busUnsave_eq hun
      exact ⟨_, rfl, by simp, by simp⟩
  | forward hlt hatt hpush =>
      exact ⟨_, hpush.log, by simp, by simp [List.filterMap_cons, Act.returned]⟩
  | overrun hlt hatt hfull => exact ⟨[], by simp [eventRef, World.updEvent], by simp, by simp⟩

theorem BusStep.skipsJustified (hs : BusStep s w w') (hi : BusInv w)
    (h : SkipsJustified w) : SkipsJustified w' := by
  intro q e hm
  have hclock := hs.sameClock hi
  obtain ⟨acts, hlog, hdrop, _⟩ := hs.log
  rw [hlog, List.mem_append] at hm
  have hold : ∃ c, (w.queues q).ctx = some c ∧ (w.ctxs c).mode = .simulation
      ∧ Skipped w c e := by
    rcases hm with hm | hm
    · exact h q e hm
    · exact hdrop q e hm
  obtain ⟨c, hctx, hmode, hskip⟩ := hold
  exact ⟨c, hclock.ctx q c hctx, (hclock.mode c).trans hmode, hskip.sameClock hclock⟩

/-- A run without returning steps returns nothing. -/
theorem BusRun.returned {S : Set StepKind} (h : BusRun S w w')
    (hS : ∀ d, .give d ∉ S ∧ .fire d ∉ S ∧ .release d ∉ S) :
    w'.log.filterMap Act.returned = w.log.filterMap Act.returned := by
  refine h.keeps
    (P := fun v => v.log.filterMap Act.returned = w.log.filterMap Act.returned)
    (fun s hm v v' _ _ hs hp => ?_) rfl
  obtain ⟨acts, hlog, _, hret⟩ := hs.log
  have hnil := hret (fun d hc => (hS d).1 (hc ▸ hm)) (fun d hc => (hS d).2.1 (hc ▸ hm))
    (fun d hc => (hS d).2.2 (hc ▸ hm))
  rw [hlog, List.filterMap_append, hnil, List.append_nil]
  exact hp

/-- **The history records exactly what `bus_dequeue` returns.** -/
theorem Dequeued.returned {now : Nat} {w1 w2 : World} {r : Option EventId}
    (h : Dequeued w c now w1 w2 w' r) :
    w'.log.filterMap Act.returned
      = w.log.filterMap Act.returned ++ (r.map fun e => (c, e)).toList := by
  have h2 : w2.log.filterMap Act.returned = w.log.filterMap Act.returned := by
    rw [h.look.run.returned (by simp), h.enter.returned (by simp)]
  have hserved := h.served
  generalize busSource w2 c now = src at hserved
  cases hserved with
  | timer hpop =>
      rename_i k t w3
      show (w3.log ++ [_]).filterMap Act.returned = _
      rw [hpop.frame.log, List.filterMap_append, h2]
      rfl
  | pipe hpop hk =>
      rename_i k q e w3
      show (w3.log ++ [_]).filterMap Act.returned = _
      rw [hpop.log, List.filterMap_append, List.filterMap_append, h2]
      simp [List.filterMap_cons, Act.returned]
  | saved hun hfw =>
      rename_i e w3
      obtain ⟨_, hsv, _, _⟩ := busUnsave_eq hun
      obtain ⟨q, _, hcall, h3⟩ := h.look.run.inv.busUnsave hsv
      rw [hcall] at hun
      cases hun
      have hrun : w'.log.filterMap Act.returned
          = (w2.log ++ [Act.give c .market q e]).filterMap Act.returned := by
        split at hfw
        · obtain ⟨w4, hcall4, hrun4⟩ := h3.busForward c e
          rw [hcall4] at hfw
          cases hfw
          exact hrun4.returned (by simp)
        · rw [hfw]
          rfl
      rw [hrun, List.filterMap_append, h2]
      rfl
  | nothing => simpa using h2

/-! ## Runs that deliver -/

/-- The calls that register queues and move events, on queues that exist. -/
def BusOp.Delivers (w : World) : BusOp → Prop
  | .addQueue _ q => q < w.nextQueue
  | .push q _ => q < w.nextQueue
  | .dequeue _ _ => True
  | _ => False

theorem BusOp.Delivers.congr {op : BusOp} (h : op.Delivers w)
    (hn : w'.nextQueue = w.nextQueue) : op.Delivers w' := by
  cases op with
  | addQueue c q => exact Nat.lt_of_lt_of_eq h hn.symm
  | push q e => exact Nat.lt_of_lt_of_eq h hn.symm
  | dequeue c now => trivial
  | _ => exact absurd h id

/-- The queue a call registers. -/
def BusOp.registers : BusOp → Option QueueId
  | .addQueue _ q => some q
  | _ => none

/-- The kinds of steps such a call makes. -/
def BusOp.kinds : BusOp → Set StepKind
  | .addQueue c _ => {.add c}
  | .push _ _ => {.push}
  | .dequeue c _ => dequeueKinds c
  | _ => ∅

/-- **One call** goes through and is a chain of steps of its kinds. A queue
is registered once. -/
theorem BusInv.exec {op : BusOp} (h : BusInv w) (hop : op.Delivers w)
    (hnew : ∀ q, op.registers = some q → (w.queues q).ctx = none) :
    ∃ w' r, op.exec w = some (w', r) ∧ BusRun op.kinds w w'
      ∧ w'.log.filterMap Act.returned = w.log.filterMap Act.returned ++ r
      ∧ ∀ p, op.registers ≠ some p → (w'.queues p).ctx = (w.queues p).ctx := by
  cases op with
  | addQueue c q =>
      obtain ⟨w', hcall, hstep, hadd, hi'⟩ := h.addQueue hop (hnew q rfl) c
      refine ⟨w', [], by rw [BusOp.exec, hcall]; rfl,
        BusRun.single h (Set.mem_singleton _) hstep hi', ?_, fun p hp => ?_⟩
      · rw [hadd.log, List.filterMap_append]
        simp [List.filterMap_cons, Act.returned]
      · have hpq : p ≠ q := fun hc => hp (by rw [hc]; rfl)
        rw [hadd.others p hpq]
  | push q e =>
      obtain ⟨w', ret, hcall, hi', hres⟩ := h.push hop e
      rcases hres with ⟨_, hpush⟩ | ⟨_, rfl, _⟩
      · refine ⟨w', [], by rw [BusOp.exec, hcall]; rfl,
          BusRun.single h (Set.mem_singleton _) (BusStep.push hpush) hi', ?_,
          fun p _ => hpush.queue_ctx p⟩
        rw [hpush.log, List.filterMap_append]
        simp [List.filterMap_cons, Act.returned]
      · exact ⟨w', [], by rw [BusOp.exec, hcall]; rfl, BusRun.refl h,
          (List.append_nil _).symm, fun _ _ => rfl⟩
  | dequeue c now =>
      obtain ⟨w1, w2, w', r, hcall, hdeq⟩ := h.busDequeue c now
      exact ⟨w', _, by rw [BusOp.exec, hcall]; rfl, hdeq.run, hdeq.returned,
        fun p _ => hdeq.run.queue_ctx (by simp [dequeueKinds]) p⟩
  | removeQueue c q => exact absurd hop id
  | addTimer c t => exact absurd hop id
  | removeTimer c t => exact absurd hop id
  | attach src dst => exact absurd hop id
  | detach src dst => exact absurd hop id
  | setTime c time => exact absurd hop id
  | setExchangeTime c time => exact absurd hop id

/-- **Every delivering run** goes through and is a chain of steps. -/
theorem BusInv.runOps {S : Set StepKind} : ∀ (ops : List BusOp) {w : World}, BusInv w →
    (∀ op ∈ ops, op.Delivers w ∧ op.kinds ⊆ S) →
    (ops.filterMap BusOp.registers).Nodup →
    (∀ q ∈ ops.filterMap BusOp.registers, (w.queues q).ctx = none) →
    ∃ w' r, runOps w ops = some (w', r) ∧ BusRun S w w'
      ∧ w'.log.filterMap Act.returned = w.log.filterMap Act.returned ++ r := by
  intro ops
  induction ops with
  | nil =>
      intro w h _ _ _
      exact ⟨w, [], rfl, BusRun.refl h, (List.append_nil _).symm⟩
  | cons op ops ih =>
      intro w h hops hnd hnew
      obtain ⟨hop, hsub⟩ := hops op List.mem_cons_self
      obtain ⟨w1, r1, hexec, hrun1, hret1, hctx1⟩ := h.exec hop (fun q hq => hnew q (by
        rw [List.filterMap_cons_some hq]
        exact List.mem_cons_self))
      have htail : (ops.filterMap BusOp.registers).Nodup
          ∧ ∀ q ∈ ops.filterMap BusOp.registers, (w1.queues q).ctx = none := by
        cases hreg : op.registers with
        | none =>
            rw [List.filterMap_cons_none hreg] at hnd hnew
            refine ⟨hnd, fun q hq => ?_⟩
            rw [hctx1 q (by rw [hreg]; exact Option.some_ne_none q ∘ Eq.symm)]
            exact hnew q hq
        | some x =>
            rw [List.filterMap_cons_some hreg] at hnd hnew
            rw [List.nodup_cons] at hnd
            refine ⟨hnd.2, fun q hq => ?_⟩
            have hqx : x ≠ q := fun hc => hnd.1 (hc ▸ hq)
            rw [hctx1 q (by rw [hreg]; exact fun hc => hqx (Option.some.inj hc))]
            exact hnew q (List.mem_cons_of_mem x hq)
      obtain ⟨w2, r2, hrun, hrun2, hret2⟩ := ih hrun1.inv (fun o ho =>
        ⟨(hops o (List.mem_cons_of_mem op ho)).1.congr hrun1.nextQueue,
          (hops o (List.mem_cons_of_mem op ho)).2⟩) htail.1 htail.2
      refine ⟨w2, r1 ++ r2, ?_, (hrun1.mono hsub).trans hrun2, ?_⟩
      · rw [Ats.runOps, hexec]
        show Option.bind (Ats.runOps w1 ops) _ = _
        rw [hrun]
        rfl
      · rw [hret2, hret1, List.append_assoc]

theorem Booted.unregistered (h : Booted w) {ops : List BusOp}
    (hops : ∀ op ∈ ops, op.Delivers w) :
    ∀ q ∈ ops.filterMap BusOp.registers, (w.queues q).ctx = none := by
  intro q hq
  obtain ⟨op, hop, hreg⟩ := List.mem_filterMap.mp hq
  have hd := hops op hop
  cases op with
  | addQueue c p =>
      cases hreg
      exact h.queueCtx _ hd
  | _ => cases hreg

/-- The invariants of a delivering run. -/
structure Delivering (w : World) : Prop where
  inv : BusInv w
  balanced : Balanced w
  covered : Covered w
  skips : SkipsJustified w

theorem Booted.delivering (h : Booted w) : Delivering w where
  inv := h.inv
  balanced := fun q hq => by
    rw [World.settled, World.pushed, h.log, held_of_ctx_none (h.queueCtx q hq),
      h.contents hq]
    rfl
  covered := fun q c hq hc _ => by
    rw [h.queueCtx q hq] at hc
    cases hc
  skips := fun q e hm => by
    rw [h.log] at hm
    cases hm

/-- A chain of steps keeps them. -/
theorem Delivering.run {S : Set StepKind} (h : Delivering w) (hr : BusRun S w w') :
    Delivering w' where
  inv := hr.inv
  balanced := hr.keeps (fun _ _ _ _ hv _ hs hp => hs.balanced hv hp) h.balanced
  covered := hr.keeps (fun _ _ _ _ hv _ hs hp => hs.covered hv hp) h.covered
  skips := hr.keeps (fun _ _ _ _ hv _ hs hp => hs.skipsJustified hv hp) h.skips

/-- **Where the events of a run are**, once its calls are done. -/
structure Delivered (w : World) (rs : List (CtxId × EventId)) : Prop where
  /-- each pushed event is in one place, once -/
  accounted : ∀ q, q < w.nextQueue →
    (w.pushed q).Perm (w.contents q ++ w.held q ++ w.given q ++ w.dropped q)
  /-- the events recorded as given, with the fired reminders, are what
  `bus_dequeue` returned -/
  returned : w.log.filterMap Act.returned = rs
  /-- only in simulation, only `SIMULATOR_STOP` or out of order -/
  skips : SkipsJustified w
  /-- in the order they were pushed -/
  fifo : ∀ q, q < w.nextQueue → (w.given q).Sublist (w.pushed q)
  /-- a registered queue that holds something stands in one place, once -/
  placed : ∀ q c, q < w.nextQueue → (w.queues q).ctx = some c → w.contents q ≠ [] →
    (w.queueNodes c (w.queues q).category).count q
      + ((w.ctxs c).pendingQueue).count q = 1
  /-- `bus_dequeue` returns `NULL` only when nothing is left -/
  drained : ∀ c now w', busDequeue w c now = some (w', none) →
    (∀ q, q < w'.nextQueue → (w'.queues q).ctx = some c → w'.contents q = [])
      ∧ (w'.ctxs c).pendingQueue = [] ∧ (w'.ctxs c).savedEvent = none

theorem Delivering.placed (h : Delivering w) (hq : q < w.nextQueue)
    (hc : (w.queues q).ctx = some c) (hne : w.contents q ≠ []) :
    (w.queueNodes c (w.queues q).category).count q
      + ((w.ctxs c).pendingQueue).count q = 1 := by
  have hnd : (w.queueNodes c (w.queues q).category).Nodup := (h.inv.queue.heap c _).nodup
  rcases h.covered q c hq hc hne with hm | hm
  · have hp := h.inv.queue.notMem_pending hm c
    rw [List.count_eq_one_of_mem hnd hm, List.count_eq_zero_of_not_mem hp]
  · have hn := (h.inv.queue.pending c q hm).2
    rw [List.count_eq_one_of_mem (h.inv.queue.pendingNodup c) hm,
      List.count_eq_zero_of_not_mem hn]

/-- A `NULL` from `bus_dequeue` means an empty bus. -/
theorem BusInv.drained (h : BusInv w) (hcov : Covered w) {now : Nat}
    (hn : Ats.busDequeue w c now = some (w', none)) :
    (∀ q, q < w'.nextQueue → (w'.queues q).ctx = some c → w'.contents q = [])
      ∧ (w'.ctxs c).pendingQueue = [] ∧ (w'.ctxs c).savedEvent = none := by
  obtain ⟨w1, w2, v, r, hcall, hdeq⟩ := h.busDequeue c now
  rw [hcall] at hn
  cases hn
  obtain ⟨hsaved, hpend, hpipes⟩ := hdeq.empty
  refine ⟨fun q hq hc => ?_, hpend, hsaved⟩
  by_contra hne
  have hcov' : Covered w' :=
    hdeq.run.keeps (fun _ _ _ _ hv _ hs hp => hs.covered hv hp) hcov
  have hplace := hcov' q c hq hc hne
  rw [hpipes, hpend] at hplace
  rcases hplace with hm | hm <;> cases hm

theorem Delivering.delivered (h : Delivering w) :
    Delivered w (w.log.filterMap Act.returned) where
  accounted := fun q hq => by
    rw [← h.balanced q hq]
    have hset := ((settled_perm w q).append_right (w.held q)).append_right (w.contents q)
    refine hset.trans ?_
    rw [List.append_assoc, List.append_assoc (w.contents q ++ w.held q)]
    exact List.perm_append_comm.trans (List.perm_append_comm.append_right _)
  returned := rfl
  skips := h.skips
  fifo := fun q hq => by
    rw [← h.balanced q hq, List.append_assoc]
    exact (given_sublist_settled w q).trans (List.sublist_append_left _ _)
  placed := fun _ _ hq hc hne => h.placed hq hc hne
  drained := fun _ _ _ hn => h.inv.drained h.covered hn

/-- **Exactly-once, first-in-first-out delivery.** From busses that have
just been set up, any sequence of registrations (each queue once), pushes
and dequeues goes through, and leaves every pushed event in one place. -/
theorem runOps_delivered (hw : Booted w) (ops : List BusOp)
    (hops : ∀ op ∈ ops, op.Delivers w) (hnew : (ops.filterMap BusOp.registers).Nodup) :
    ∃ w' rs, runOps w ops = some (w', rs) ∧ Delivered w' rs := by
  obtain ⟨w', r, hcall, hrun, hret⟩ := hw.inv.runOps (S := Set.univ) ops
    (fun op hop => ⟨hops op hop, Set.subset_univ _⟩) hnew (hw.unregistered hops)
  rw [hw.log] at hret
  have hr : w'.log.filterMap Act.returned = r := hret
  refine ⟨w', r, hcall, ?_⟩
  rw [← hr]
  exact (hw.delivering.run hrun).delivered

/-- Two queues, one registered while empty and one after a push. -/
theorem runOps_delivered_two :
    ∃ w' rs, runOps (World.fresh .simulation 0 [(4, .market), (4, .command)]
        (fun e => ⟨1, askEvent, 0, e⟩))
      [.addQueue 0 0, .push 1 7, .addQueue 0 1, .push 0 5, .dequeue 0 0, .dequeue 0 0,
        .dequeue 0 0] = some (w', rs) ∧ Delivered w' rs :=
  runOps_delivered (World.fresh_booted (by simp)) _
    (by simp [BusOp.Delivers, World.fresh]) (by decide)

end Ats
