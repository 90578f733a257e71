import Ats.Core.RunsDry
import Ats.Lib.Cascade

/-!
# Network: buses that feed one another run dry

A bus in simulation mode copies each market event that it returns to the buses
attached to it. Where no chain of attachments comes back to its start, the
copies come to an end: in whatever order the buses are asked, only so many
events are returned in all.
-/

namespace Ats

open Cascade

variable {w w' w1 w2 v : World} {c d : CtxId} {k : QueueCategory} {j : ClockType} {q : QueueId}
  {e t : EventId} {kind : StepKind} {M now width : Nat} {o : Option EventId}
  {S : Finset CtxId} {level : CtxId → Nat}

/-! ## The steps of another bus -/

/-- **Bus `d` stands still**: no step of it, and nothing is handed to it. -/
structure StandsStill (w w' : World) (d : CtxId) : Prop where
  ctx : w'.ctxs d = w.ctxs d
  contents : ∀ q, (w.queues q).ctx = some d → w'.contents q = w.contents q
  queue_ctx : ∀ q, (w'.queues q).ctx = (w.queues q).ctx
  nextQueue : w'.nextQueue = w.nextQueue
  nodes : ∀ j, w'.timerNodes d j = w.timerNodes d j
  reminders : ∀ j, ∀ t ∈ w.timerNodes d j, w'.reminders t = w.reminders t

theorem StandsStill.refl (w : World) (d : CtxId) : StandsStill w w d :=
  ⟨rfl, fun _ _ => rfl, fun _ => rfl, rfl, fun _ => rfl, fun _ _ _ => rfl⟩

theorem StandsStill.trans (h : StandsStill w v d) (h' : StandsStill v w' d) :
    StandsStill w w' d where
  ctx := h'.ctx.trans h.ctx
  contents := fun q hq =>
    (h'.contents q (by rw [h.queue_ctx]; exact hq)).trans (h.contents q hq)
  queue_ctx := fun q => (h'.queue_ctx q).trans (h.queue_ctx q)
  nextQueue := h'.nextQueue.trans h.nextQueue
  nodes := fun j => (h'.nodes j).trans (h.nodes j)
  reminders := fun j t ht =>
    (h'.reminders j t (by rw [h.nodes]; exact ht)).trans (h.reminders j t ht)

/-- **A step of bus `c`** that copies nothing leaves the other buses. -/
theorem BusStep.standsStill (hs : BusStep kind w w') (hi : BusInv w)
    (hk : kind ∈ quietKinds c ∨ kind = .release c) (hd : d ≠ c) : StandsStill w w' d := by
  have stand : TimersStand w w' → (∀ j, w'.timerNodes d j = w.timerNodes d j)
      ∧ ∀ j, ∀ t ∈ w.timerNodes d j, w'.reminders t = w.reminders t := fun hst =>
    ⟨fun j => hst.timerNodes d j, fun _ _ _ => by rw [hst.reminders]⟩
  rcases hk with hk | rfl
  · have hquiet := hs.quiet hi hk
    have htimers : (∀ j, w'.timerNodes d j = w.timerNodes d j)
        ∧ ∀ j, ∀ t ∈ w.timerNodes d j, w'.reminders t = w.reminders t := by
      by_cases hfire : ∀ b, kind ≠ .fire b
      · exact stand (hs.timersStand hfire)
      · cases hs with
        | fire hpop =>
            rename_i v x k t
            obtain rfl : x = c := by simpa [quietKinds] using hk
            refine ⟨fun j => hpop.nodes_ne d j (.inl hd), fun j s hs => hpop.others s ?_⟩
            rintro rfl
            exact hi.timer.notMem_other hpop.armed.1 hpop.armed.2 (.inl hd) hs
        | _ => exact absurd (fun _ hc => by cases hc) hfire
    refine ⟨hquiet.ctxs_ne d hd, fun q hq => ?_, hquiet.queue_ctx, hquiet.nextQueue, htimers.1,
      htimers.2⟩
    rw [World.contents, World.contents, hquiet.queues_ne q]
    rw [hq]
    exact fun heq => hd (Option.some.inj heq)
  · have htimers := stand (hs.timersStand (by simp))
    cases hs with
    | release hun =>
        obtain ⟨q, -, -, rfl⟩ := busUnsave_eq hun
        have hctx : (w.updCtx c fun x => { x with savedEvent := none, savedFrom := none }).ctxs d
            = w.ctxs d := w.updCtx_ctxs_ne hd _
        exact ⟨hctx, fun _ _ => rfl, fun _ => rfl, rfl, htimers.1, htimers.2⟩

theorem BusRun.standsStill {K : Set StepKind} (hr : BusRun K w w') (hK : K ⊆ quietKinds c)
    (hd : d ≠ c) : StandsStill w w' d :=
  hr.keeps (P := fun v => StandsStill w v d)
    (fun _ hm _ _ hv _ hs hp => hp.trans (hs.standsStill hv (.inl (hK hm)) hd)) (.refl w d)

/-- What is left on a bus that stands still. -/
theorem StandsStill.fuelLeft (h : StandsStill w w' d) (M : Nat) :
    fuelLeft w' d M = fuelLeft w d M := by
  have htimers : ∀ j, timersAhead w' d j M = timersAhead w d j M := fun j =>
    timersAhead_congr (h.nodes j) (h.reminders j)
  rw [Ats.fuelLeft, Ats.fuelLeft, waiting_congr h.nextQueue h.queue_ctx h.contents, h.ctx,
    htimers, htimers]

theorem StandsStill.bounded (h : StandsStill w w' d) (hb : Bounded w d M)
    (hstamp : ∀ x, (w.events x).timestamp ≤ M → (w'.events x).timestamp ≤ M) :
    Bounded w' d M where
  time := by
    rw [h.ctx]
    exact hb.time
  stamp := fun q hlt hq e he => by
    rw [h.nextQueue] at hlt
    rw [h.queue_ctx] at hq
    rw [h.contents q hq] at he
    exact hstamp e (hb.stamp q hlt hq e he)
  saved := fun e he => by
    rw [h.ctx] at he
    exact hstamp e (hb.saved e he)
  rearm := fun j t ht => by
    rw [h.nodes] at ht
    rw [h.reminders j t ht]
    exact hb.rearm j t ht
  apart := fun i hi q hq => by
    rw [h.ctx] at hi hq
    rw [h.queue_ctx]
    exact hb.apart i hi q hq

theorem StandsStill.dry (h : StandsStill w w' d) (hi : BusInv w) (hi' : BusInv w')
    (hdry : Dry w d) : Dry w' d where
  pending := by
    rw [h.ctx]
    exact hdry.pending
  saved := by
    rw [h.ctx]
    exact hdry.saved
  pipes := fun k => by
    have hempty := (hi.queue.pipeIsEmpty_iff d k).mpr (hdry.pipes k)
    rw [pipeIsEmpty, ← h.ctx] at hempty
    exact (hi'.queue.pipeIsEmpty_iff d k).mp hempty

/-! ## A copy that is handed on -/

/-- **A queue that is pushed to** has one event more to wait for. -/
theorem QueuePushed.waiting (h : QueuePushed (eventRef w e) w' q e) (hq : q < w.nextQueue)
    (d : CtxId) :
    waiting w' d = waiting w d + if (w.queues q).ctx = some d then 1 else 0 := by
  have hrest : ∀ p, p ≠ q → w'.contents p = w.contents p := fun p hp => h.contents_ne hp
  split
  case isTrue hctx =>
    have hmem : q ∈ Finset.range w.nextQueue := Finset.mem_range.mpr hq
    have hnext : w'.nextQueue = w.nextQueue := h.nextQueue
    have hother : ∀ p ∈ (Finset.range w.nextQueue).erase q,
        (if (w'.queues p).ctx = some d then (w'.contents p).length else 0)
          = if (w.queues p).ctx = some d then (w.contents p).length else 0 := by
      intro p hp
      rw [h.queue_ctx, hrest p (Finset.ne_of_mem_erase hp)]
      rfl
    have hctx' : (w'.queues q).ctx = some d := (h.queue_ctx q).trans hctx
    have hcont : w'.contents q = w.contents q ++ [e] := h.contents
    rw [Ats.waiting, Ats.waiting, hnext, ← Finset.add_sum_erase _ _ hmem,
      ← Finset.add_sum_erase _ _ hmem, Finset.sum_congr rfl hother, if_pos hctx', if_pos hctx,
      hcont, List.length_append, List.length_singleton]
    exact Nat.add_right_comm _ _ _
  case isFalse hctx =>
    refine waiting_congr h.nextQueue h.queue_ctx fun p hp => hrest p ?_
    rintro rfl
    exact hctx hp

theorem QueuePushed.fuelLeft (h : QueuePushed (eventRef w e) w' q e) (hq : q < w.nextQueue)
    (d : CtxId) (M : Nat) :
    fuelLeft w' d M = fuelLeft w d M + if (w.queues q).ctx = some d then 1 else 0 := by
  have hwait := h.waiting hq d
  have htimers : ∀ j, timersAhead w' d j M = timersAhead w d j M := fun j =>
    timersAhead_congr (h.timersStand.timerNodes d j) (fun t _ => congrFun h.timersStand.reminders t)
  have hsaved : (w'.ctxs d).savedEvent = (w.ctxs d).savedEvent := h.sameSlots.saved d
  rw [Ats.fuelLeft, Ats.fuelLeft, hwait, hsaved, htimers, htimers]
  split <;> omega

theorem QueuePushed.bounded (h : QueuePushed (eventRef w e) w' q e) (hb : Bounded w d M)
    (hle : (w.events e).timestamp ≤ M) : Bounded w' d M where
  time := by
    rw [h.sameClock.time]
    exact hb.time
  stamp := fun p hlt hp x hx => by
    rw [h.events, eventRef_timestamp]
    rw [h.queue_ctx] at hp
    by_cases hpq : p = q
    · subst hpq
      rw [h.contents] at hx
      rcases List.mem_append.mp hx with hx | hx
      · exact hb.stamp p (h.nextQueue ▸ hlt) hp x hx
      · rwa [List.mem_singleton.mp hx]
    · rw [h.contents_ne hpq] at hx
      exact hb.stamp p (h.nextQueue ▸ hlt) hp x hx
  saved := fun x hx => by
    rw [h.events, eventRef_timestamp]
    rw [h.sameSlots.saved] at hx
    exact hb.saved x hx
  rearm := fun j t ht => by
    rw [h.timersStand.timerNodes] at ht
    rw [h.timersStand.reminders]
    exact hb.rearm j t ht
  apart := fun i hi p hp => by
    rw [h.sameSlots.count] at hi
    rw [h.sameSlots.attached] at hp
    rw [h.queue_ctx]
    exact hb.apart i hi p hp

/-! ## A network of buses -/

/-- **A network of buses that feed one another downwards.** Each bus of `S` is
bounded by `M`, has at most `width` queues attached, and those of them that
belong to a bus of `S` belong to one on a lower level. -/
structure Network (w : World) (S : Finset CtxId) (level : CtxId → Nat) (width M : Nat) :
    Prop where
  bounded : ∀ c ∈ S, Bounded w c M
  below : ∀ c ∈ S, ∀ i < (w.ctxs c).attachedCount, ∀ q, (w.ctxs c).attached i = some q →
    ∀ d ∈ S, (w.queues q).ctx = some d → level d < level c
  count : ∀ c ∈ S, (w.ctxs c).attachedCount ≤ width

/-- **What is left in the network**: what is left on a bus counts `width + 1`
times as much as on the level below, for an event and its copies. -/
def networkLeft (w : World) (S : Finset CtxId) (level : CtxId → Nat) (width M : Nat) : Nat :=
  worth S level (width + 1) fun c => fuelLeft w c M

/-- The attachments stay as they are. -/
structure SameNet (w w' : World) : Prop where
  attached : ∀ d, (w'.ctxs d).attached = (w.ctxs d).attached
  count : ∀ d, (w'.ctxs d).attachedCount = (w.ctxs d).attachedCount
  queue_ctx : ∀ q, (w'.queues q).ctx = (w.queues q).ctx

theorem BusRun.sameNet {K : Set StepKind} (hr : BusRun K w w') (hK : K ⊆ dequeueKinds c) :
    SameNet w w' := by
  refine hr.keeps (P := fun v => SameNet w v) (fun kind hm v v' hv _ hs hp => ?_)
    ⟨fun _ => rfl, fun _ => rfl, fun _ => rfl⟩
  have hctx := (hs.queues hv).2 fun d hd => by
    have := hK hm
    rw [hd] at this
    simp [dequeueKinds] at this
  exact ⟨fun d => (hs.ctx_proj d Ctx.attached (fun _ _ _ _ _ _ _ _ => rfl)).trans (hp.attached d),
    fun d => (hs.ctx_proj d Ctx.attachedCount (fun _ _ _ _ _ _ _ _ => rfl)).trans (hp.count d),
    fun q => (hctx q).trans (hp.queue_ctx q)⟩

theorem Network.of_sameNet (h : Network w S level width M) (hs : SameNet w w')
    (hb : ∀ c ∈ S, Bounded w' c M) : Network w' S level width M where
  bounded := hb
  below := fun c hc i hi q hq d hd hctx => by
    rw [hs.count] at hi
    rw [hs.attached] at hq
    rw [hs.queue_ctx] at hctx
    exact h.below c hc i hi q hq d hd hctx
  count := fun c hc => by
    rw [hs.count]
    exact h.count c hc

/-- **A round of the forwarding loop** adds to the worth of what is left less
than a share of what the event was worth. -/
theorem Network.busForwardOne (h : Network w S level width M) (hi : BusInv w) (hc : c ∈ S)
    {i : Nat} (hlt : i < (w.ctxs c).attachedCount) (hle : (w.events e).timestamp ≤ M) :
    ∃ w', Ats.busForwardOne w c e i = some w' ∧ BusRun {.forward c, .overrun c} w w'
      ∧ Network w' S level width M
      ∧ (width + 1) * networkLeft w' S level width M
        ≤ (width + 1) * networkLeft w S level width M + (width + 1) ^ level c := by
  obtain ⟨w', hcall, hrun, -⟩ := hi.busForwardOne e hlt
  have hsame := hrun.sameNet (c := c) (by rintro s (rfl | rfl) <;> simp [dequeueKinds])
  have hresult : ((∀ d, StandsStill w w' d)
        ∧ ∀ x, (w'.events x).timestamp = (w.events x).timestamp)
      ∨ ∃ q, (w.ctxs c).attached i = some q ∧ q < w.nextQueue
        ∧ QueuePushed (eventRef w e) w' q e := by
    rw [Ats.busForwardOne] at hcall
    split at hcall
    case isFalse =>
      cases hcall
      exact .inl ⟨fun d => .refl w d, fun _ => rfl⟩
    case isTrue =>
      obtain ⟨q, hq, hql, -⟩ := hi.attached c i hlt
      have h1 : BusInv (eventRef w e) := hi.updEvent e _
      obtain ⟨v, ret, hpush, -, hres⟩ := h1.queue.eventQueuePush (q := q) hql e
      rw [hq] at hcall
      simp only [hpush, Option.bind_eq_bind, Option.bind_some] at hcall
      cases hcall
      rcases hres with ⟨-, hpushed⟩ | ⟨-, rfl, -⟩
      · exact .inr ⟨q, hq, hql, hpushed⟩
      · have hstill : ∀ d, StandsStill w (eventRef w e) d := fun d =>
          ⟨rfl, fun _ _ => rfl, fun _ => rfl, rfl, fun _ => rfl, fun _ _ _ => rfl⟩
        exact .inl ⟨hstill, eventRef_timestamp w e⟩
  refine ⟨w', hcall, hrun, ?_⟩
  rcases hresult with ⟨hstill, hstamp⟩ | ⟨q, hq, hql, hpush⟩
  · have hleft : networkLeft w' S level width M = networkLeft w S level width M :=
      congrArg (worth S level (width + 1)) (funext fun d => (hstill d).fuelLeft M)
    refine ⟨h.of_sameNet hsame fun d hd => (hstill d).bounded (h.bounded d hd) fun x hx => ?_, ?_⟩
    · rwa [hstamp]
    · rw [hleft]
      exact Nat.le_add_right _ _
  · refine ⟨h.of_sameNet hsame fun d hd => hpush.bounded (h.bounded d hd) hle, ?_⟩
    have hleft : ∀ d, fuelLeft w' d M
        = fuelLeft w d M + if (w.queues q).ctx = some d then 1 else 0 := fun d =>
      hpush.fuelLeft hql d M
    cases hctx : (w.queues q).ctx with
    | none =>
        refine Nat.le_trans (Nat.mul_le_mul_left _ (worth_le fun d _ => ?_)) (Nat.le_add_right _ _)
        rw [hleft, hctx, if_neg (by simp)]
        exact Nat.le_refl _
    | some d =>
        rw [← Nat.one_mul ((width + 1) ^ level c)]
        refine worth_raise (Nat.succ_pos _) (d := d) (k := 1)
          (fun hd => h.below c hc i hlt q hq d hd hctx) ?_ fun b _ hbd => ?_
        · rw [hleft, hctx, if_pos rfl]
        · rw [hleft, hctx, if_neg fun heq => hbd (Option.some.inj heq).symm]
          exact Nat.le_refl _

/-- **The forwarding loop** adds less than the event was worth. -/
theorem Network.forwardLoop (hc : c ∈ S) (e : EventId) : ∀ (is : List Nat) {w : World},
    Network w S level width M → BusInv w → (w.events e).timestamp ≤ M →
    (∀ i ∈ is, i < (w.ctxs c).attachedCount) →
    ∃ w', is.foldlM (fun w i => Ats.busForwardOne w c e i) w = some w'
      ∧ Network w' S level width M
      ∧ (width + 1) * networkLeft w' S level width M
        ≤ (width + 1) * networkLeft w S level width M
          + is.length * (width + 1) ^ level c := by
  intro is
  induction is with
  | nil => exact fun h _ _ _ => ⟨_, rfl, h, by simp⟩
  | cons i is ih =>
      intro w h hi hle hlt
      obtain ⟨v, hcall, hrun, hv, hleft⟩ := h.busForwardOne hi hc (hlt i List.mem_cons_self) hle
      have hstamp := busForward_proj hrun e Event.timestamp (fun _ _ => rfl)
      have hsame := hrun.sameNet (c := c) (by rintro s (rfl | rfl) <;> simp [dequeueKinds])
      obtain ⟨w', hloop, hw', hleft'⟩ := ih hv hrun.inv (by rwa [hstamp])
        fun j hj => by rw [hsame.count]; exact hlt j (List.mem_cons_of_mem i hj)
      refine ⟨w', ?_, hw', ?_⟩
      · rw [List.foldlM_cons, hcall]
        exact hloop
      · have hcons : (is.length + 1) * (width + 1) ^ level c
            = is.length * (width + 1) ^ level c + (width + 1) ^ level c :=
          Nat.succ_mul _ _
        rw [List.length_cons, hcons]
        omega

/-! ## A call of `bus_dequeue` -/

/-- **A step of bus `c` that copies nothing** is one of the network, if it keeps
the bound of `c`. -/
theorem BusStep.network (hs : BusStep kind w w') (hi : BusInv w)
    (hk : kind ∈ quietKinds c ∨ kind = .release c) (h : Network w S level width M) (hc : c ∈ S)
    (hb : Bounded w' c M) :
    Network w' S level width M ∧ ∀ d ∈ S, d ≠ c → Ats.fuelLeft w' d M = Ats.fuelLeft w d M := by
  have hkinds : kind ∈ dequeueKinds c := by
    rcases hk with hk | rfl
    · rcases hk with hk | hk | hk | hk | hk <;> cases hk <;> simp [dequeueKinds]
    · simp [dequeueKinds]
  have hstill := fun d (hd : d ≠ c) => hs.standsStill (d := d) hi hk hd
  have hctx := (hs.queues hi).2 fun d hd => by simp [hd, dequeueKinds] at hkinds
  have hsame : SameNet w w' :=
    ⟨fun d => hs.ctx_proj d Ctx.attached (fun _ _ _ _ _ _ _ _ => rfl),
      fun d => hs.ctx_proj d Ctx.attachedCount (fun _ _ _ _ _ _ _ _ => rfl), hctx⟩
  refine ⟨h.of_sameNet hsame fun d hd => ?_, fun d _ hne => (hstill d hne).fuelLeft M⟩
  by_cases hdc : d = c
  · rw [hdc]
    exact hb
  · exact (hstill d hdc).bounded (h.bounded d hd) fun x hx =>
      hs.stamp_le hkinds (h.bounded c hc).time hx

/-- **Up to the point where a source is served**, nothing is added. -/
theorem BusRun.network {K : Set StepKind} (hr : BusRun K w w')
    (hK : K ⊆ {.reenter c, .drop c, .save c}) (h : Network w S level width M) (hc : c ∈ S) :
    Network w' S level width M
      ∧ networkLeft w' S level width M ≤ networkLeft w S level width M := by
  refine hr.keeps (P := fun v => Network v S level width M
    ∧ networkLeft v S level width M ≤ networkLeft w S level width M)
    (fun kind hm v v' hv hv' hs hp => ?_) ⟨h, Nat.le_refl _⟩
  have hkind : kind = .reenter c ∨ kind = .drop c ∨ kind = .save c := hK hm
  have hquiet : kind ∈ quietKinds c := by
    rcases hkind with rfl | rfl | rfl <;> simp [quietKinds]
  obtain ⟨hb, hle⟩ := (BusRun.single hv (Set.mem_singleton kind) hs hv').fuelLeft_le (c := c) (by
    rintro x rfl
    rcases hkind with rfl | rfl | rfl <;> simp [dequeueKinds]) (by
    rcases hkind with rfl | rfl | rfl <;> simp) (hp.1.bounded c hc)
  obtain ⟨hnet, hothers⟩ := hs.network hv (.inl hquiet) hp.1 hc hb
  refine ⟨hnet, Nat.le_trans (worth_le fun d hd => ?_) hp.2⟩
  by_cases hdc : d = c
  · rw [hdc]
    exact hle
  · exact Nat.le_of_eq (hothers d hd hdc)

/-- **What is served is worth more than its copies.** -/
theorem Served.network (hs : Served w c (busSource w c now) w' o) (hi : BusInv w)
    (h : Network w S level width M) (hc : c ∈ S) (hb : Bounded w' c M)
    (hfuel : ∀ e, o = some e → Ats.fuelLeft w' c M < Ats.fuelLeft w c M) :
    Network w' S level width M ∧ networkLeft w' S level width M + o.toList.length
      ≤ networkLeft w S level width M := by
  have hpos : ∀ n, 1 ≤ (width + 1) ^ n := fun n => Nat.one_le_pow _ _ (Nat.succ_pos _)
  have alone : ∀ {kind : StepKind} {v : World}, BusStep kind w v →
      kind ∈ quietKinds c ∨ kind = .release c → Bounded v c M →
      Ats.fuelLeft v c M < Ats.fuelLeft w c M → Network v S level width M
        ∧ networkLeft v S level width M + (width + 1) ^ level c
          ≤ networkLeft w S level width M := by
    intro kind v hstep hk hbv hlt
    obtain ⟨hnet, hothers⟩ := hstep.network hi hk h hc hbv
    exact ⟨hnet, worth_lower hc hlt fun d hd hne => Nat.le_of_eq (hothers d hd hne)⟩
  generalize hsrc : busSource w c now = src at hs
  cases hs with
  | timer hpop =>
      obtain ⟨hnet, hle⟩ := alone (BusStep.fire hpop) (.inl (by simp [quietKinds])) hb (hfuel _ rfl)
      exact ⟨hnet, Nat.le_trans (Nat.add_le_add_left (hpos _) _) hle⟩
  | pipe hpop hk =>
      obtain ⟨hnet, hle⟩ := alone (BusStep.give hpop hk) (.inl (by simp [quietKinds])) hb
        (hfuel _ rfl)
      exact ⟨hnet, Nat.le_trans (Nat.add_le_add_left (hpos _) _) hle⟩
  | saved hun hforward =>
      rename_i e v
      have hstep := BusStep.release hun
      have hiv := hi.of_busUnsave hun
      have hbc := h.bounded c hc
      have hcost := hstep.fuelLeft hi (by simp [dequeueKinds]) (by simp) hbc
      have hbv : Bounded v c M := by
        refine hstep.bounded hi (by simp [dequeueKinds]) hbc fun j t ht => ?_
        have hstand := busUnsave_timersStand hun
        rw [hstand.timerNodes] at ht
        rw [hstand.reminders]
        exact hbc.rearm j t ht
      rw [StepKind.cost] at hcost
      obtain ⟨hnet, hle⟩ := alone hstep (.inr rfl) hbv (by omega)
      split at hforward
      case isTrue =>
        have hstamp : (v.events e).timestamp ≤ M := by
          obtain ⟨q, hsaved, -, rfl⟩ := busUnsave_eq hun
          exact hbc.saved e hsaved
        obtain ⟨u, hloop, hnetu, hleu⟩ := hnet.forwardLoop hc e
          (List.range (v.ctxs c).attachedCount) hiv hstamp fun i hi => List.mem_range.mp hi
        obtain rfl : w' = u := Option.some.inj (hforward.symm.trans hloop)
        refine ⟨hnetu, ?_⟩
        have hcount : (v.ctxs c).attachedCount * (width + 1) ^ level c
            ≤ width * (width + 1) ^ level c := Nat.mul_le_mul_right _ (hnet.count c hc)
        rw [List.length_range] at hleu
        have hwhole : (width + 1) * networkLeft w' S level width M
            < (width + 1) * networkLeft w S level width M := by
          have hbig := Nat.mul_le_mul_left (width + 1) hle
          have hpow := hpos (level c)
          rw [Nat.mul_add] at hbig
          rw [Nat.add_mul width 1 ((width + 1) ^ level c)] at hbig
          omega
        exact Nat.lt_of_mul_lt_mul_left hwhole
      case isFalse =>
        subst hforward
        exact ⟨hnet, Nat.le_trans (Nat.add_le_add_left (hpos _) _) hle⟩
  | nothing => exact ⟨h, Nat.le_refl _⟩

/-- **A call of `bus_dequeue`** takes from what is left in the network what it
returns; one that returns `NULL` leaves the other buses as they are. -/
theorem Dequeued.network (hd : Dequeued w c now w1 w2 w' o) (hi : BusInv w)
    (h : Network w S level width M) (hc : c ∈ S)
    (hclock : (w.ctxs c).mode = .realtime → now ≤ M) :
    Network w' S level width M ∧ networkLeft w' S level width M + o.toList.length
        ≤ networkLeft w S level width M
      ∧ (o = none → ∀ d, d = c ∨ Dry w d → Dry w' d) := by
  obtain ⟨h1, hle1⟩ := hd.enter.network (by rintro s rfl; simp) h hc
  obtain ⟨h2, hle2⟩ := hd.look.run.network (by rintro s (rfl | rfl) <;> simp) h1 hc
  have hi2 := hd.look.run.inv
  obtain ⟨hb, hfuel, hdry⟩ := hd.served.fuelLeft hi2
    (fun hreal => hclock (hd.mode.symm.trans hreal)) (h2.bounded c hc) hd.pending hd.look.filled
  obtain ⟨hnet, hle⟩ := hd.served.network hi2 h2 hc hb hfuel
  refine ⟨hnet, by omega, fun hnone d hcase => ?_⟩
  by_cases hdc : d = c
  · rw [hdc]
    exact hdry hnone
  · have hstill : StandsStill w w2 d :=
      (hd.enter.standsStill (by rintro s rfl; simp [quietKinds]) hdc).trans
        (hd.look.run.standsStill (by rintro s (rfl | rfl) <;> simp [quietKinds]) hdc)
    have hserved := hd.served
    subst hnone
    generalize busSource w2 c now = src at hserved
    cases hserved with
    | nothing => exact hstill.dry hi hi2 (hcase.resolve_left hdc)

/-! ## Runs -/

/-- Each call of a run takes from what is left. -/
theorem Network.runOps (cs : List (CtxId × Nat)) : ∀ {w : World}, Network w S level width M →
    BusInv w → (∀ x ∈ cs, x.1 ∈ S ∧ ((w.ctxs x.1).mode = .realtime → x.2 ≤ M)) →
    ∃ w' out, Ats.runOps w (cs.map fun x => .dequeue x.1 x.2) = some (w', out)
      ∧ Network w' S level width M ∧ BusInv w' ∧ (∀ d, (w'.ctxs d).mode = (w.ctxs d).mode)
      ∧ networkLeft w' S level width M + out.length ≤ networkLeft w S level width M
      ∧ (out = [] → ∀ d, (∃ now, (d, now) ∈ cs) ∨ Dry w d → Dry w' d) := by
  induction cs with
  | nil =>
      intro w h hi _
      exact ⟨w, [], rfl, h, hi, fun _ => rfl, Nat.le_refl _,
        fun _ d hd => hd.resolve_left (by simp)⟩
  | cons x cs ih =>
      intro w h hi hcs
      obtain ⟨c, now⟩ := x
      obtain ⟨hc, hclock⟩ := hcs (c, now) List.mem_cons_self
      obtain ⟨w1, w2, v, o, hcall, hd⟩ := hi.busDequeue c now
      obtain ⟨hv, hle, hdry⟩ := hd.network hi h hc hclock
      have hmode : ∀ d, (v.ctxs d).mode = (w.ctxs d).mode := hd.run.sameClock.mode
      obtain ⟨w', out, hrun, hw', hi', hmode', hle', hdry'⟩ := ih hv hd.finish.inv fun y hy => by
        rw [hmode]
        exact hcs y (List.mem_cons_of_mem _ hy)
      refine ⟨w', (o.map fun e => (c, e)).toList ++ out, ?_, hw', hi',
        fun d => (hmode' d).trans (hmode d), ?_, fun hnone d hcase => ?_⟩
      · rw [List.map_cons, Ats.runOps, BusOp.exec, hcall]
        simp only [Option.map_some, Option.bind_eq_bind, Option.bind_some, hrun]
      · have hlen : ((o.map fun e => (c, e)).toList ++ out).length
            = o.toList.length + out.length := by
          rw [List.length_append]
          cases o <;> rfl
        rw [hlen]
        omega
      · obtain ⟨hfirst, hrest⟩ := List.append_eq_nil_iff.mp hnone
        have ho : o = none := by
          cases o with
          | none => rfl
          | some e => cases hfirst
        refine hdry' hrest d ?_
        rcases hcase with ⟨n, hmem⟩ | hdw
        · rcases List.mem_cons.mp hmem with heq | hmem
          · cases heq
            exact .inr (hdry ho _ (.inl rfl))
          · exact .inl ⟨n, hmem⟩
        · exact .inr (hdry ho d (.inr hdw))

/-- **Buses that are dry stay as they are**, in simulation mode. -/
theorem dry_runOps (hi : BusInv w) (hdry : ∀ c ∈ S, Dry w c)
    (hsim : ∀ c ∈ S, (w.ctxs c).mode = .simulation) :
    ∀ cs : List (CtxId × Nat), (∀ x ∈ cs, x.1 ∈ S) →
      runOps w (cs.map fun x => .dequeue x.1 x.2) = some (w, []) := by
  intro cs
  induction cs with
  | nil => exact fun _ => rfl
  | cons x cs ih =>
      intro hcs
      have hx := hcs x List.mem_cons_self
      have hcall : busDequeue w x.1 x.2 = some (w, none) :=
        (hdry x.1 hx).dequeue hi (by simp [hsim x.1 hx])
      rw [List.map_cons, runOps, BusOp.exec, hcall]
      simp only [Option.map_some, Option.bind_eq_bind, Option.bind_some,
        ih fun y hy => hcs y (List.mem_cons_of_mem x hy)]
      rfl

/-- **After more rounds than there is left, all buses are dry**: each round
before returned something. -/
theorem Network.rounds (rounds : List (List (CtxId × Nat))) : ∀ {w : World},
    Network w S level width M → BusInv w → (∀ c ∈ S, (w.ctxs c).mode = .simulation) →
    (∀ round ∈ rounds, (∀ x ∈ round, x.1 ∈ S) ∧ ∀ c ∈ S, ∃ now, (c, now) ∈ round) →
    networkLeft w S level width M < rounds.length →
    ∃ u out, Ats.runOps w (rounds.flatten.map fun x => .dequeue x.1 x.2) = some (u, out)
      ∧ BusInv u ∧ (∀ c ∈ S, (u.ctxs c).mode = .simulation) ∧ ∀ c ∈ S, Dry u c := by
  induction rounds with
  | nil => exact fun _ _ _ _ hlt => absurd hlt (Nat.not_lt_zero _)
  | cons round rounds ih =>
      intro w h hi hsim hrounds hlt
      obtain ⟨hin, hall⟩ := hrounds round List.mem_cons_self
      have hlater : ∀ r ∈ rounds, (∀ x ∈ r, x.1 ∈ S) ∧ ∀ c ∈ S, ∃ now, (c, now) ∈ r :=
        fun r hr => hrounds r (List.mem_cons_of_mem round hr)
      obtain ⟨v, out, hrun, hv, hiv, hmode, hle, hdry⟩ := h.runOps round hi fun x hx =>
        ⟨hin x hx, by simp [hsim x.1 (hin x hx)]⟩
      have hsimv : ∀ c ∈ S, (v.ctxs c).mode = .simulation := fun c hc =>
        (hmode c).trans (hsim c hc)
      rw [List.flatten_cons, List.map_append]
      cases out with
      | nil =>
          have hdryv : ∀ c ∈ S, Dry v c := fun c hc => hdry rfl c (.inl (hall c hc))
          refine ⟨v, [], runOps_append _ hrun (dry_runOps hiv hdryv hsimv _ fun x hx => ?_), hiv,
            hsimv, hdryv⟩
          obtain ⟨r, hr, hxr⟩ := List.mem_flatten.mp hx
          exact (hlater r hr).1 x hxr
      | cons y out =>
          rw [List.length_cons] at hle hlt
          obtain ⟨u, out', hrest, hiu, hsimu, hdryu⟩ := ih hv hiv hsimv hlater (by omega)
          exact ⟨u, _, runOps_append _ hrun hrest, hiu, hsimu, hdryu⟩

/-- **A network without a cycle runs dry.** From every memory that clean calls
lead to, buses in simulation mode that feed one another downwards return only so
many events as are left in the network, in whatever order they are asked. After
more rounds than that over all of them, each returns `NULL` for ever. -/
theorem network_runsDry (hw : Booted w) (ops : List BusOp) (hrun : CleanRun w ops) :
    ∃ v rs, runOps w ops = some (v, rs) ∧ ∀ S level width M, Network v S level width M →
      (∀ c ∈ S, (v.ctxs c).mode = .simulation) → ∀ rounds : List (List (CtxId × Nat)),
      (∀ round ∈ rounds, ∀ x ∈ round, x.1 ∈ S) →
      ∃ u out, runOps v (rounds.flatten.map fun x => .dequeue x.1 x.2) = some (u, out)
        ∧ out.length ≤ networkLeft v S level width M
        ∧ ((∀ round ∈ rounds, ∀ c ∈ S, ∃ now, (c, now) ∈ round) →
          networkLeft v S level width M < rounds.length →
          ∀ c ∈ S, ∀ now, busDequeue u c now = some (u, none)) := by
  obtain ⟨v, rs, hcall, hi⟩ := hw.inv.cleanRun hrun
  refine ⟨v, rs, hcall, fun S level width M h hsim rounds hin => ?_⟩
  have hflat : ∀ x ∈ rounds.flatten, x.1 ∈ S := fun x hx => by
    obtain ⟨round, hround, hx⟩ := List.mem_flatten.mp hx
    exact hin round hround x hx
  obtain ⟨u, out, hout, -, -, -, hle, -⟩ := h.runOps rounds.flatten hi fun x hx =>
    ⟨hflat x hx, by simp [hsim x.1 (hflat x hx)]⟩
  refine ⟨u, out, hout, by omega, fun hall hlt c hc now => ?_⟩
  obtain ⟨u', out', hout', hiu, hsimu, hdry⟩ := h.rounds rounds hi hsim
    (fun round hround => ⟨hin round hround, hall round hround⟩) hlt
  rw [hout] at hout'
  cases hout'
  exact (hdry c hc).dequeue hiu (by simp [hsimu c hc])

/-- Bus 0 has two events and feeds bus 1: with the copies, four to return. -/
def feedingSetup : List BusOp := [.push 0 5, .addQueue 0 0, .attach 0 1, .push 0 7]

def feedingWorld : World := World.fresh .simulation 0 [(8, .market)] fun e => ⟨1, askEvent, 0, e⟩

theorem feedingWorld_booted : Booted feedingWorld := World.fresh_booted (by simp)

theorem network_runsDry_two :
    ∃ v rs, runOps feedingWorld feedingSetup = some (v, rs)
      ∧ Network v {0, 1} (fun c => 1 - c) 1 10 ∧ ∃ u out,
      runOps v ((List.replicate 5 [(0, 0), (1, 0)]).flatten.map fun x => .dequeue x.1 x.2)
        = some (u, out)
        ∧ networkLeft v {0, 1} (fun c => 1 - c) 1 10 = 4 ∧ out.length ≤ 4
        ∧ ∀ c ∈ ({0, 1} : Finset CtxId), ∀ now, busDequeue u c now = some (u, none) := by
  obtain ⟨v, rs, hcall, hdry⟩ :=
    network_runsDry feedingWorld_booted feedingSetup (by decide +kernel)
  have hbuses : (runOps feedingWorld feedingSetup).any (fun r =>
      decide (∀ c ∈ ({0, 1} : Finset CtxId), (r.1.ctxs c).mode = .simulation
        ∧ (r.1.ctxs c).time .clockLocal ≤ 10 ∧ (r.1.ctxs c).savedEvent = none
        ∧ r.1.timerNodes c .clockLocal = [] ∧ r.1.timerNodes c .clockExchange = [])) = true := by
    decide +kernel
  have hqueues : (runOps feedingWorld feedingSetup).any (fun r =>
      decide ((∀ q < r.1.nextQueue, ∀ e ∈ r.1.contents q, (r.1.events e).timestamp ≤ 10)
        ∧ (r.1.ctxs 0).attachedCount = 1 ∧ (r.1.ctxs 1).attachedCount = 0
        ∧ (r.1.ctxs 0).attached 0 = some 1 ∧ (r.1.queues 1).ctx = some 1
        ∧ networkLeft r.1 {0, 1} (fun c => 1 - c) 1 10 = 4)) = true := by
    decide +kernel
  rw [hcall, Option.any_some, decide_eq_true_iff] at hbuses hqueues
  obtain ⟨hstamp, hone, hnone, hattached, hctx, hleft⟩ := hqueues
  -- only the first entry of bus 0 is taken
  have hentry : ∀ c ∈ ({0, 1} : Finset CtxId), ∀ i < (v.ctxs c).attachedCount, ∀ q,
      (v.ctxs c).attached i = some q → c = 0 ∧ (v.queues q).ctx = some 1 := by
    intro c hc i hi q hq
    rcases Finset.mem_insert.mp hc with rfl | hc
    · obtain rfl : i = 0 := Nat.lt_one_iff.mp (Nat.lt_of_lt_of_eq hi hone)
      have hq : some 1 = some q := hattached.symm.trans hq
      cases hq
      exact ⟨rfl, hctx⟩
    · rw [Finset.mem_singleton.mp hc, hnone] at hi
      exact absurd hi (Nat.not_lt_zero i)
  have hnet : Network v {0, 1} (fun c => 1 - c) 1 10 :=
    { bounded := fun c hc => by
        obtain ⟨-, htime, hsaved, hlocal, hexchange⟩ := hbuses c hc
        exact
          { time := htime
            stamp := fun q hlt _ => hstamp q hlt
            saved := fun e he => by rw [hsaved] at he; cases he
            rearm := fun j t ht => by
              cases j with
              | clockLocal => rw [hlocal] at ht; cases ht
              | clockExchange => rw [hexchange] at ht; cases ht
            apart := fun i hi q hq => by
              obtain ⟨rfl, hfed⟩ := hentry c hc i hi q hq
              rw [hfed]
              decide }
      below := fun c hc i hi q hq d _ hd => by
        obtain ⟨rfl, hfed⟩ := hentry c hc i hi q hq
        rw [hfed] at hd
        cases hd
        decide
      count := fun c hc => by
        rcases Finset.mem_insert.mp hc with rfl | hc
        · exact Nat.le_of_eq hone
        · rw [Finset.mem_singleton.mp hc, hnone]
          exact Nat.zero_le 1 }
  obtain ⟨u, out, hout, hle, hend⟩ := hdry {0, 1} (fun c => 1 - c) 1 10 hnet
    (fun c hc => (hbuses c hc).1) (List.replicate 5 [(0, 0), (1, 0)]) (by decide)
  rw [hleft] at hle
  refine ⟨v, rs, hcall, hnet, u, out, hout, hleft, hle, hend (fun round hround c hc => ⟨0, ?_⟩) ?_⟩
  · rw [List.eq_of_mem_replicate hround]
    rcases Finset.mem_insert.mp hc with rfl | hc
    · exact List.mem_cons_self
    · rw [Finset.mem_singleton.mp hc]
      exact List.mem_cons_of_mem _ List.mem_cons_self
  · rw [hleft, List.length_replicate]
    decide

end Ats
