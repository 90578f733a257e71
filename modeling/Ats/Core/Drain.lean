import Ats.Core.Interleave
import Ats.Core.PipeOrder
import Ats.Lib.SortedOutput

/-!
# Drain: a closed simulation runs in time order

Timers and queues are registered and filled first, then the bus is drained.
With sorted market queues, the market timestamps and local firing times that
come out are sorted, a timer before a market event of the same time, and
each timer has fired at its instants up to the last market event, once each.
-/

namespace Ats

open SortedOutput

variable {w0 w w' w1 w2 : World} {c d : CtxId} {k : QueueCategory} {j : ClockType}
  {q p : QueueId} {e t s : EventId} {now n : Nat} {o : Option EventId} {kind : StepKind}
  {acts : List Act}

/-! ## What comes out, and what is to come -/

/-- The time at which `c` returned something: the timestamp of a market
event, or the timeout of a local timer; timers first. -/
def Act.instant (stamp : EventId → Nat) (c : CtxId) : Act → Option (Nat ×ₗ Nat)
  | .give d .market _ e => if d = c then some (toLex (stamp e, 1)) else none
  | .fire d .clockLocal _ timeout => if d = c then some (toLex (timeout, 0)) else none
  | _ => none

/-- The timeout at which `t` fired on `c`. -/
def Act.firing (c : CtxId) (t : EventId) : Act → Option Nat
  | .fire d .clockLocal s timeout => if d = c ∧ s = t then some timeout else none
  | _ => none

/-- The times of what `c` has returned, in order. -/
def World.instants (w : World) (c : CtxId) : List (Nat ×ₗ Nat) :=
  w.log.filterMap (Act.instant (stamp w) c)

/-- When `t` has fired on `c`. -/
def World.firings (w : World) (c : CtxId) (t : EventId) : List Nat :=
  w.log.filterMap (Act.firing c t)

/-- `q` is a market queue of `c`. -/
def OnMarket (w : World) (c : CtxId) (q : QueueId) : Prop :=
  q < w.nextQueue ∧ (w.queues q).ctx = some c ∧ (w.queues q).category = .market

/-- Each market queue of `c` is non-decreasing. -/
def MarketSorted (w : World) (c : CtxId) : Prop :=
  ∀ q, OnMarket w c q → (w.contents q).Pairwise fun x y => stamp w x ≤ stamp w y

/-- **What may come out of `c` next**. -/
inductive Upcoming (w : World) (c : CtxId) : Nat ×ₗ Nat → Prop
  | saved {e : EventId} : (w.ctxs c).savedEvent = some e → Upcoming w c (toLex (stamp w e, 1))
  | queued {q : QueueId} {e : EventId} : OnMarket w c q → e ∈ w.contents q →
      Upcoming w c (toLex (stamp w e, 1))
  | armed {t : EventId} : t ∈ w.timerNodes c .clockLocal →
      Upcoming w c (toLex ((w.reminders t).timeout, 0))

/-- **Where `t` stands in its schedule**, which `w0` has from the start: it
has fired at its first instants, and is armed for the next. -/
structure Schedule (w0 : World) (c : CtxId) (w : World) (t : EventId) : Prop where
  rep : (w.reminders t).repeat = (w0.reminders t).repeat
  fired : w.firings c t = (List.range (w.firings c t).length).map fun i =>
    (w0.reminders t).timeout + i * (w0.reminders t).repeat
  armed : t ∈ w.timerNodes c .clockLocal →
    (w.reminders t).timeout
        = (w0.reminders t).timeout + (w.firings c t).length * (w0.reminders t).repeat
      ∧ ((w0.reminders t).repeat = 0 → w.firings c t = [])
  spent : t ∉ w.timerNodes c .clockLocal →
    (w0.reminders t).repeat = 0 ∧ (w.firings c t).length = 1

/-- **The invariant of a drain** that started at `w0`. -/
structure Draining (w0 : World) (c : CtxId) (w : World) : Prop where
  timers : TimersOrdered w
  pipes : PipesOrdered w
  covered : Covered w
  mode : (w.ctxs c).mode = .simulation
  time : (w.ctxs c).time .clockLocal = 0
  alone : (w.ctxs c).attachedCount = 0
  sorted : MarketSorted w c
  ahead : ∀ e, (w.ctxs c).savedEvent = some e → ∀ q, OnMarket w c q →
    ∀ x ∈ w.contents q, stamp w e ≤ stamp w x
  order : InOrder (w.instants c) (Upcoming w c)
  last : (w.ctxs c).savedEvent = none →
    ∀ m, (w.instants c).getLast? = some m → ∃ n, m = toLex (n, 1)
  schedule : ∀ t ∈ w0.timerNodes c .clockLocal, Schedule w0 c w t

/-! ## Reading the history -/

theorem instants_append (hst : SameStamps w w') (hlog : w'.log = w.log ++ acts) :
    w'.instants c = w.instants c ++ acts.filterMap (Act.instant (stamp w) c) := by
  have hs : stamp w' = stamp w := funext hst
  rw [World.instants, hlog, List.filterMap_append, hs, World.instants]

theorem firings_append (hlog : w'.log = w.log ++ acts) :
    w'.firings c t = w.firings c t ++ acts.filterMap (Act.firing c t) := by
  rw [World.firings, hlog, List.filterMap_append, World.firings]

/-- An entry that is no instant of `c`. -/
def Act.Silent (c : CtxId) (a : Act) : Prop :=
  (∀ f, a.instant f c = none) ∧ ∀ t, a.firing c t = none

theorem Act.Early.silent {a : Act} (h : a.Early) (c : CtxId) : a.Silent c := by
  cases a with
  | register _ _ => exact ⟨fun _ => rfl, fun _ => rfl⟩
  | take _ _ => exact ⟨fun _ => rfl, fun _ => rfl⟩
  | drop _ _ => exact ⟨fun _ => rfl, fun _ => rfl⟩
  | _ => exact absurd h id

theorem instants_silent (hst : SameStamps w w') (hlog : w'.log = w.log ++ acts)
    (ha : ∀ a ∈ acts, a.Silent c) : w'.instants c = w.instants c := by
  rw [instants_append hst hlog,
    List.filterMap_eq_nil_iff.mpr (fun a hm => (ha a hm).1 _), List.append_nil]

theorem firings_silent (hlog : w'.log = w.log ++ acts) (ha : ∀ a ∈ acts, a.Silent c) :
    w'.firings c t = w.firings c t := by
  rw [firings_append hlog, List.filterMap_eq_nil_iff.mpr (fun a hm => (ha a hm).2 t),
    List.append_nil]

/-! ## Steps that return nothing of either kind -/

/-- **What only moves on**: events may leave the queues, the look-ahead may
be filled with one that is not younger than any that stays. -/
theorem Draining.moved (h : Draining w0 c w) (htimers : TimersOrdered w')
    (hpipes : PipesOrdered w') (hcov : Covered w') (hclock : SameClock w w')
    (halone : (w'.ctxs c).attachedCount = (w.ctxs c).attachedCount)
    (hst : SameStamps w w') (hon : ∀ q, OnMarket w' c q → OnMarket w c q)
    (hsub : ∀ q, (w'.contents q).Sublist (w.contents q))
    (hlog : w'.log = w.log ++ acts) (hacts : ∀ a ∈ acts, a.Silent c)
    (hsaved : ∀ e, (w'.ctxs c).savedEvent = some e → (w.ctxs c).savedEvent = some e
      ∨ (∃ q, OnMarket w c q ∧ e ∈ w.contents q)
        ∧ ∀ q, OnMarket w c q → ∀ x ∈ w'.contents q, stamp w e ≤ stamp w x)
    (hnone : (w'.ctxs c).savedEvent = none → (w.ctxs c).savedEvent = none)
    (hnodes : ∀ t, t ∈ w'.timerNodes c .clockLocal ↔ t ∈ w.timerNodes c .clockLocal)
    (hrep : ∀ t, (w'.reminders t).repeat = (w.reminders t).repeat)
    (htime : ∀ t ∈ w.timerNodes c .clockLocal,
      (w'.reminders t).timeout = (w.reminders t).timeout) : Draining w0 c w' := by
  have hinst := instants_silent (c := c) hst hlog hacts
  have hfir : ∀ t, w'.firings c t = w.firings c t := fun t => firings_silent hlog hacts
  refine ⟨htimers, hpipes, hcov, (hclock.mode c).trans h.mode, ?_, halone.trans h.alone,
    fun q hq => ?_, fun e he q hq x hx => ?_, ?_, fun hn m hm => ?_, fun t ht => ?_⟩
  · rw [hclock.time]
    exact h.time
  · refine ((h.sorted q (hon q hq)).sublist (hsub q)).imp (fun {a b} hab => ?_)
    rw [hst, hst]
    exact hab
  · rw [hst, hst]
    rcases hsaved e he with hs | ⟨_, hle⟩
    · exact h.ahead e hs q (hon q hq) x ((hsub q).subset hx)
    · exact hle q (hon q hq) x hx
  · rw [hinst]
    refine h.order.mono (fun n hn => ?_)
    cases hn with
    | saved he =>
        rw [hst]
        rcases hsaved _ he with hs | ⟨⟨q, hq, hx⟩, _⟩
        · exact Upcoming.saved hs
        · exact Upcoming.queued hq hx
    | queued hq hx =>
        rw [hst]
        exact Upcoming.queued (hon _ hq) ((hsub _).subset hx)
    | armed ht =>
        have ht' := (hnodes _).mp ht
        rw [htime _ ht']
        exact Upcoming.armed ht'
  · rw [hinst] at hm
    exact h.last (hnone hn) m hm
  · have hs := h.schedule t ht
    refine ⟨(hrep t).trans hs.rep, ?_, fun hm => ?_, fun hm => ?_⟩
    · rw [hfir]
      exact hs.fired
    · have hm' := (hnodes t).mp hm
      rw [hfir, htime t hm']
      exact hs.armed hm'
    · rw [hfir]
      exact hs.spent (fun hc => hm ((hnodes t).mpr hc))

/-- Until something is returned, no step of a bus at time zero changes a
timestamp. -/
theorem BusStep.sameStamps (hs : BusStep kind w w') (hk : kind ∈ quietKinds c)
    (h0 : (w.ctxs c).time .clockLocal = 0) : SameStamps w w' := by
  intro x
  cases hs with
  | reenter _ hadd => rw [stamp, stamp, hadd.frame.events]; rfl
  | drop hpop hmode hskip hsaved =>
      rename_i w1 d q e stop
      show (w1.events x).timestamp = _
      rw [hpop.frame.events]
      rfl
  | save hpop hsaved hts =>
      rename_i w1 d q e ts
      have hd : d = c := by
        rcases hk with hk | hk | hk | hk | hk <;> cases hk
        rfl
      subst hd
      have hts' : ts = stamp w e := by
        rcases hts with hts | ⟨_, _, hlt, _⟩
        · exact hts
        · omega
      show ((w1.updEvent e fun y => { y with timestamp := ts }).events x).timestamp = _
      rw [hts', stamp, stamp, ← hpop.frame.events]
      simp [World.updEvent]
  | give hpop _ =>
      show ((World.note _ _).events x).timestamp = _
      exact congrArg Event.timestamp (congrFun hpop.frame.events x)
  | fire hpop =>
      exact congrArg Event.timestamp (congrFun hpop.frame.events x)
  | _ => rcases hk with hk | hk | hk | hk | hk <;> cases hk

theorem PipePop.contents_sublist (h : PipePop w w' c k q e) (p : QueueId) :
    (w'.contents p).Sublist (w.contents p) := by
  by_cases hpq : p = q
  · rw [hpq, h.contents]
    exact List.sublist_cons_self e _
  · rw [h.contents_ne hpq]

/-- Nor does it move a queue to the market pipe, or add to a queue. -/
theorem BusStep.onMarket (hs : BusStep kind w w') (hi : BusInv w) (hk : kind ∈ quietKinds c)
    (d : CtxId) (q : QueueId) :
    (OnMarket w' d q ↔ OnMarket w d q) ∧ (w'.contents q).Sublist (w.contents q) := by
  have hq := hs.queues hi
  have hctx : (w'.queues q).ctx = (w.queues q).ctx :=
    hq.2 (fun x hx => by subst hx; rcases hk with hk | hk | hk | hk | hk <;> cases hk) q
  have hkeep : (w'.queues q).category = (w.queues q).category
      ∧ (w'.contents q).Sublist (w.contents q) := by
    cases hs with
    | reenter _ hadd =>
        exact ⟨hadd.queue_category q, by rw [hadd.contents]; exact List.Sublist.refl _⟩
    | drop hpop _ _ _ => exact ⟨hpop.frame.queue_category q, hpop.contents_sublist q⟩
    | save hpop _ _ => exact ⟨hpop.frame.queue_category q, hpop.contents_sublist q⟩
    | give hpop _ => exact ⟨hpop.frame.queue_category q, hpop.contents_sublist q⟩
    | fire hpop =>
        refine ⟨congrArg EventQueue.category (congrFun hpop.frame.queues q), ?_⟩
        exact (hpop.frame.sameQueues.contents q).symm ▸ List.Sublist.refl _
    | _ => rcases hk with hk | hk | hk | hk | hk <;> cases hk
  refine ⟨?_, hkeep.2⟩
  rw [OnMarket, OnMarket, hq.1, hctx, hkeep.1]

/-- What the steps before a timer is served can return is silent. -/
theorem BusStep.silent (hs : BusStep kind w w')
    (hk : kind ∈ ({.reenter c, .drop c, .save c, .give c} : Set StepKind)) :
    ∃ acts, w'.log = w.log ++ acts ∧ ∀ a ∈ acts, a.Silent c := by
  have hearly : kind ∈ ({.reenter c, .drop c, .save c} : Set StepKind) →
      ∃ acts, w'.log = w.log ++ acts ∧ ∀ a ∈ acts, a.Silent c := by
    intro hm
    obtain ⟨acts, hlog, ha⟩ := hs.early hm
    exact ⟨acts, hlog, fun a hm => (ha a hm).silent c⟩
  rcases hk with rfl | rfl | rfl | rfl
  · exact hearly (by simp)
  · exact hearly (by simp)
  · exact hearly (by simp)
  · cases hs with
    | give hpop hk =>
        rename_i w1 k q e
        refine ⟨[.take q e, .give c k q e], ?_, fun a ha => ?_⟩
        · show w1.log ++ [.give c k q e] = _
          rw [hpop.log, List.append_assoc]
          rfl
        · rcases List.mem_cons.mp ha with rfl | ha
          · exact ⟨fun _ => rfl, fun _ => rfl⟩
          · rw [List.mem_singleton] at ha
            subst ha
            refine ⟨fun f => ?_, fun _ => rfl⟩
            cases k with
            | market => exact absurd rfl hk
            | _ => rfl

/-- **The event that is saved is not younger than any that stays.** -/
theorem Draining.oldest (h : Draining w0 c w) (hpend : (w.ctxs c).pendingQueue = [])
    (hpop : PipePop w w' c .market q e) (hp : OnMarket w c p) {x : EventId}
    (hx : x ∈ w.contents p) : stamp w e ≤ stamp w x := by
  have hcov := h.covered p c hp.1 hp.2.1 (List.ne_nil_of_mem hx)
  rw [hpend, hp.2.2] at hcov
  have hmem : p ∈ w.queueNodes c .market := by simpa using hcov
  have hfirst := h.pipes.first hpop.first hmem
  rw [hpop.contents, List.headD_cons] at hfirst
  refine Nat.le_trans hfirst ?_
  have hsorted := h.sorted p hp
  cases hc : w.contents p with
  | nil =>
      rw [hc] at hx
      cases hx
  | cons y ys =>
      rw [hc] at hx hsorted
      rcases List.mem_cons.mp hx with rfl | hx
      · exact Nat.le_refl _
      · exact (List.pairwise_cons.mp hsorted).1 x hx

/-- **Each step before something of either kind is returned.** -/
theorem Draining.step (h : Draining w0 c w) (hi : BusInv w)
    (hk : kind ∈ ({.reenter c, .drop c, .save c, .give c} : Set StepKind))
    (hpend : kind = .save c → (w.ctxs c).pendingQueue = []) (hs : BusStep kind w w') :
    Draining w0 c w' := by
  have hquiet : kind ∈ quietKinds c := by
    rcases hk with rfl | rfl | rfl | rfl <;> simp [quietKinds]
  obtain ⟨acts, hlog, hsilent⟩ := hs.silent hk
  have hst := hs.sameStamps hquiet h.time
  have hstand := hs.timersStand (fun d hd => by
    subst hd
    rcases hk with hk | hk | hk | hk <;> cases hk)
  have hslot : (w'.ctxs c).savedEvent = (w.ctxs c).savedEvent
      ∨ ∃ e, (w'.ctxs c).savedEvent = some e ∧ (∃ q, OnMarket w c q ∧ e ∈ w.contents q)
          ∧ ∀ q, OnMarket w c q → ∀ x ∈ w'.contents q, stamp w e ≤ stamp w x := by
    cases hs with
    | reenter _ hadd =>
        left
        rw [hadd.sameSlots.saved]
        exact w.updCtx_proj _ c Ctx.savedEvent (fun _ => rfl)
    | drop hpop hmode hskip hsaved =>
        rename_i w1 x q e stop
        left
        rw [← hpop.frame.savedEvent c]
        have hflag : ((w1.updCtx x fun y => { y with isSimulatorStop := stop }).ctxs c).savedEvent
            = (w1.ctxs c).savedEvent := w1.updCtx_proj x c Ctx.savedEvent (fun _ => rfl)
        exact hflag
    | give hpop _ => exact Or.inl (hpop.frame.savedEvent c)
    | save hpop hsaved hts =>
        rename_i w1 x q e ts
        have hx : x = c := by
          rcases hk with hk | hk | hk | hk <;> cases hk
          rfl
        subst hx
        have hq : OnMarket w x q := ⟨hpop.linkable.lt, hpop.linkable.ctx, hpop.linkable.category⟩
        have he : e ∈ w.contents q := by
          rw [hpop.contents]
          exact List.mem_cons_self
        exact Or.inr ⟨e, busSave_savedEvent _ _ _ _, ⟨q, hq, he⟩, fun p hp z hz =>
          h.oldest (hpend rfl) hpop hp ((hpop.contents_sublist p).subset hz)⟩
    | _ => rcases hk with hk | hk | hk | hk <;> cases hk
  have hon := hs.onMarket hi hquiet c
  refine h.moved (hs.timersOrdered hi h.timers) (hs.pipesOrdered hi hst h.pipes)
    (hs.covered hi h.covered) (hs.sameClock hi) ((hs.quiet hi hquiet).attached c).2 hst
    (fun q hq => (hon q).1.mp hq) (fun q => (hon q).2) hlog hsilent (fun e he => ?_)
    (fun hn => ?_) (fun t => by rw [hstand.timerNodes]) (fun t => by rw [hstand.reminders])
    (fun t _ => by rw [hstand.reminders])
  · rcases hslot with hsame | ⟨x, hx, hfrom⟩
    · exact Or.inl (hsame ▸ he)
    · rw [hx] at he
      cases he
      exact Or.inr hfrom
  · rcases hslot with hsame | ⟨x, hx, _⟩
    · exact hsame ▸ hn
    · rw [hx] at hn
      cases hn

/-! ## A timer fires -/

/-- Firing `t` adds one entry, at its timeout. -/
theorem fire_firings {v : World} (hpop : TimerPop w v c .clockLocal t) :
    ((v.note (.fire c .clockLocal t (w.reminders t).timeout)).firings c s
      = w.firings c s ++ if s = t then [(w.reminders t).timeout] else []) := by
  have hlog : (v.note (.fire c .clockLocal t (w.reminders t).timeout)).log
      = w.log ++ [.fire c .clockLocal t (w.reminders t).timeout] := by
    rw [← hpop.frame.log]
    rfl
  rw [firings_append hlog]
  by_cases hst : s = t
  · subst hst
    simp [Act.firing]
  · simp [Act.firing, hst, Ne.symm hst]

/-- **The timer that fires moves on in its schedule.** -/
theorem Schedule.fire {v : World} (h : Schedule w0 c w t) (hi : TimerInv w)
    (hpop : TimerPop w v c .clockLocal t)
    (hfit : (w.reminders t).repeat ≠ 0 →
      (w.reminders t).timeout + (w.reminders t).repeat < 2 ^ 64) :
    Schedule w0 c (v.note (.fire c .clockLocal t (w.reminders t).timeout)) t := by
  have hf := fire_firings (s := t) hpop
  rw [if_pos rfl] at hf
  obtain ⟨harmed, honce⟩ := h.armed hpop.mem
  have hmem : ∀ x, x ∈ v.timerNodes c .clockLocal ↔ _ := fun x => hpop.nodes.mem_iff
  have hlen : (w.firings c t ++ [(w.reminders t).timeout]).length = (w.firings c t).length + 1 :=
    List.length_append
  refine ⟨?_, ?_, fun hm => ?_, fun hm => ?_⟩
  · show (v.reminders t).repeat = _
    rw [hpop.reminder, ← h.rep]
    split <;> rfl
  · rw [hf, hlen, List.range_succ, List.map_append, ← h.fired, List.map_singleton, ← harmed]
  · have hm' : t ∈ v.timerNodes c .clockLocal := hm
    rw [hmem] at hm'
    split at hm'
    case isTrue =>
      exact absurd hm' (hi.heap c .clockLocal).nodup.not_mem_erase
    case isFalse hrep =>
      rw [hf, hlen]
      refine ⟨?_, fun h0 => absurd (h.rep.trans h0) hrep⟩
      show (v.reminders t).timeout = _
      rw [hpop.reminder, if_neg hrep]
      show ((w.reminders t).timeout + (w.reminders t).repeat) % 2 ^ 64 = _
      rw [Nat.mod_eq_of_lt (hfit hrep), harmed, h.rep, Nat.succ_mul, Nat.add_assoc]
  · have hm' : t ∉ v.timerNodes c .clockLocal := hm
    rw [hmem] at hm'
    split at hm'
    case isTrue hrep =>
      rw [h.rep] at hrep
      rw [hf, honce hrep]
      exact ⟨hrep, rfl⟩
    case isFalse => exact absurd hpop.mem hm'

theorem Schedule.fire_ne {v : World} (h : Schedule w0 c w s)
    (hpop : TimerPop w v c .clockLocal t) (hs : s ≠ t) :
    Schedule w0 c (v.note (.fire c .clockLocal t (w.reminders t).timeout)) s := by
  have hf := fire_firings (s := s) hpop
  rw [if_neg hs, List.append_nil] at hf
  have hr : (v.reminders s) = w.reminders s := hpop.others s hs
  refine ⟨?_, by rw [hf]; exact h.fired, fun hm => ?_, fun hm => ?_⟩
  · rw [← h.rep, ← hr]
    rfl
  · rw [hf, ← (h.armed ((hpop.mem_ne hs).mp hm)).1, ← hr]
    exact ⟨rfl, (h.armed ((hpop.mem_ne hs).mp hm)).2⟩
  · rw [hf]
    exact h.spent (fun hc => hm ((hpop.mem_ne hs).mpr hc))

/-- **A local timer that is due at the saved event is the next to come.** -/
theorem Draining.fire {v : World} (h : Draining w0 c w) (hi : BusInv w)
    (hpop : TimerPop w v c .clockLocal t) (hsaved : (w.ctxs c).savedEvent = some e)
    (hdue : (w.reminders t).timeout ≤ stamp w e)
    (hfit : (w.reminders t).repeat ≠ 0 →
      (w.reminders t).timeout + (w.reminders t).repeat < 2 ^ 64) :
    Draining w0 c (v.note (.fire c .clockLocal t (w.reminders t).timeout)) := by
  generalize hw' : v.note (.fire c .clockLocal t (w.reminders t).timeout) = w'
  have hs : BusStep (.fire c) w w' := hw' ▸ BusStep.fire hpop
  have hquiet : StepKind.fire c ∈ quietKinds c := by simp [quietKinds]
  have hst := hs.sameStamps hquiet h.time
  have hon := hs.onMarket hi hquiet c
  have hclock := hs.sameClock hi
  have hsv : (w'.ctxs c).savedEvent = some e := by
    rw [← hw', ← hsaved, ← hpop.frame.sameSlots.saved c]
    rfl
  have hinst : w'.instants c = w.instants c ++ [toLex ((w.reminders t).timeout, 0)] := by
    have hlog : w'.log = w.log ++ [.fire c .clockLocal t (w.reminders t).timeout] := by
      rw [← hw', ← hpop.frame.log]
      rfl
    rw [instants_append hst hlog]
    simp [Act.instant]
  refine ⟨hs.timersOrdered hi h.timers, hs.pipesOrdered hi hst h.pipes, hs.covered hi h.covered,
    (hclock.mode c).trans h.mode, by rw [hclock.time]; exact h.time,
    ((hs.quiet hi hquiet).attached c).2.trans h.alone, fun q hq => ?_, fun x hx q hq y hy => ?_,
    ?_, fun hn => ?_, fun s hm => ?_⟩
  · refine ((h.sorted q ((hon q).1.mp hq)).sublist (hon q).2).imp (fun {a b} hab => ?_)
    rw [hst, hst]
    exact hab
  · rw [hsv] at hx
    cases hx
    rw [hst, hst]
    exact h.ahead e hsaved q ((hon q).1.mp hq) y ((hon q).2.subset hy)
  · rw [hinst]
    refine h.order.serve (Upcoming.armed hpop.mem) (fun m hm => ?_)
    -- whatever is still to come is no earlier than this firing
    cases hm with
    | saved he =>
        rw [hsv] at he
        cases he
        rw [Prod.Lex.toLex_le_toLex, hst]
        exact (Nat.lt_or_eq_of_le hdue).imp_right (fun heq => ⟨heq, Nat.zero_le _⟩)
    | @queued q x hq hx =>
        have hle := h.ahead e hsaved q ((hon q).1.mp hq) x ((hon q).2.subset hx)
        rw [Prod.Lex.toLex_le_toLex, hst]
        exact (Nat.lt_or_eq_of_le (Nat.le_trans hdue hle)).imp_right
          (fun heq => ⟨heq, Nat.zero_le _⟩)
    | @armed s hm =>
        suffices hle : (w.reminders t).timeout ≤ (w'.reminders s).timeout by
          rw [Prod.Lex.toLex_le_toLex]
          exact (Nat.lt_or_eq_of_le hle).imp_right (fun heq => ⟨heq, Nat.le_refl _⟩)
        by_cases hs : s = t
        · rw [← hw', hs]
          show _ ≤ (v.reminders t).timeout
          rw [hpop.reminder]
          -- if it repeats, it comes back later
          split
          case isTrue => exact Nat.le_refl _
          case isFalse hrep =>
            show _ ≤ (_ + _) % 2 ^ 64
            rw [Nat.mod_eq_of_lt (hfit hrep)]
            exact Nat.le_add_right _ _
        · rw [← hw'] at hm ⊢
          show _ ≤ (v.reminders s).timeout
          rw [hpop.others s hs]
          have hpeek : timerHeapPeek w c .clockLocal = some t := by
            rw [hi.timer.timerHeapPeek_eq]
            exact hpop.first
          exact timerKey_timeout (h.timers.first hi.timer hpeek ((hpop.mem_ne hs).mp hm))
  · rw [hsv] at hn
    cases hn
  · have hsch := h.schedule s hm
    rw [← hw']
    by_cases hs : s = t
    · subst hs
      exact hsch.fire hi.timer hpop hfit
    · exact hsch.fire_ne hpop hs

/-- A timer of the other clock is none of those that the drain records. -/
theorem Draining.fireExchange {v : World} (h : Draining w0 c w) (hi : BusInv w)
    (hpop : TimerPop w v c .clockExchange t) :
    Draining w0 c (v.note (.fire c .clockExchange t (w.reminders t).timeout)) := by
  generalize hw' : v.note (.fire c .clockExchange t (w.reminders t).timeout) = w'
  have hs : BusStep (.fire c) w w' := hw' ▸ BusStep.fire hpop
  have hquiet : StepKind.fire c ∈ quietKinds c := by simp [quietKinds]
  have hst := hs.sameStamps hquiet h.time
  have hon := hs.onMarket hi hquiet c
  have hlog : w'.log = w.log ++ [.fire c .clockExchange t (w.reminders t).timeout] := by
    rw [← hw', ← hpop.frame.log]
    rfl
  have hsv : (w'.ctxs c).savedEvent = (w.ctxs c).savedEvent := by
    rw [← hw', ← hpop.frame.sameSlots.saved c]
    rfl
  have hnodes : w'.timerNodes c .clockLocal = w.timerNodes c .clockLocal := by
    rw [← hw']
    exact hpop.nodes_ne c .clockLocal (Or.inr (by decide))
  refine h.moved (hs.timersOrdered hi h.timers) (hs.pipesOrdered hi hst h.pipes)
    (hs.covered hi h.covered) (hs.sameClock hi) ((hs.quiet hi hquiet).attached c).2 hst
    (fun q hq => (hon q).1.mp hq) (fun q => (hon q).2) hlog (fun a ha => ?_)
    (fun e he => Or.inl (hsv ▸ he)) (fun hn => hsv ▸ hn) (fun s => by rw [hnodes])
    (fun s => ?_) (fun s hm => ?_)
  · rw [List.mem_singleton] at ha
    subst ha
    exact ⟨fun _ => rfl, fun _ => rfl⟩
  · rw [← hw']
    show (v.reminders s).repeat = _
    by_cases hs : s = t
    · rw [hs, hpop.reminder]
      split <;> rfl
    · rw [hpop.others s hs]
  · -- an armed timer of the local clock is not the one that fired
    have hst : s ≠ t := by
      rintro rfl
      have hk := (hi.timer.armed c .clockLocal s hm).2
      rw [hpop.armed.2] at hk
      cases hk
    rw [← hw']
    exact congrArg Reminder.timeout (hpop.others s hst)

/-! ## The saved event is returned -/

/-- **The saved event is the next to come** when no local timer is due by
then. -/
theorem Draining.release {v : World} (h : Draining w0 c w) (hi : BusInv w)
    (hun : busUnsave w c = some (v, e))
    (hlate : ∀ t ∈ w.timerNodes c .clockLocal, stamp w e < (w.reminders t).timeout) :
    Draining w0 c v := by
  have hs : BusStep (.release c) w v := BusStep.release hun
  have hstand := busUnsave_timersStand hun
  have hsame := busUnsave_sameQueues hun
  have hclock := hs.sameClock hi
  obtain ⟨p, hsaved, _, hv⟩ := busUnsave_eq hun
  have hst : SameStamps w v := fun x => by
    rw [hv]
    rfl
  have hnone : (v.ctxs c).savedEvent = none := by
    rw [hv]
    simp [World.note, World.updCtx]
  have hon : ∀ q, OnMarket v c q → OnMarket w c q := by
    intro q hq
    rw [OnMarket, hsame.next, hsame.ctx, hsame.category] at hq
    exact hq
  have hlog : v.log = w.log ++ [.give c .market p e] := by
    rw [hv]
    rfl
  have hinst : v.instants c = w.instants c ++ [toLex (stamp w e, 1)] := by
    rw [instants_append hst hlog]
    simp [Act.instant]
  have hfir : ∀ t, v.firings c t = w.firings c t := by
    intro t
    rw [firings_append hlog]
    simp [Act.firing]
  refine ⟨hs.timersOrdered hi h.timers, hs.pipesOrdered hi hst h.pipes, hs.covered hi h.covered,
    (hclock.mode c).trans h.mode, by rw [hclock.time]; exact h.time, ?_, fun q hq => ?_,
    fun x hx => ?_, ?_, fun _ m hm => ?_, fun t ht => ?_⟩
  · rw [← h.alone, hv]
    simp [World.note, World.updCtx]
  · rw [hsame.contents]
    refine (h.sorted q (hon q hq)).imp (fun {a b} hab => ?_)
    rw [hst, hst]
    exact hab
  · rw [hnone] at hx
    cases hx
  · rw [hinst]
    refine h.order.serve (Upcoming.saved hsaved) (fun m hm => ?_)
    cases hm with
    | saved he =>
        rw [hnone] at he
        cases he
    | queued hq hx =>
        rw [hsame.contents] at hx
        rw [Prod.Lex.toLex_le_toLex, hst]
        exact (Nat.lt_or_eq_of_le (h.ahead e hsaved _ (hon _ hq) _ hx)).imp_right
          (fun heq => ⟨heq, Nat.le_refl _⟩)
    | armed ht =>
        rw [hstand.timerNodes] at ht
        rw [Prod.Lex.toLex_le_toLex, hstand.reminders]
        exact Or.inl (hlate _ ht)
  · rw [hinst, List.getLast?_concat] at hm
    cases hm
    exact ⟨stamp w e, rfl⟩
  · have hsch := h.schedule t ht
    refine ⟨by rw [hstand.reminders]; exact hsch.rep, by rw [hfir]; exact hsch.fired,
      fun hm => ?_, fun hm => ?_⟩
    · rw [hstand.timerNodes] at hm
      rw [hfir, hstand.reminders]
      exact hsch.armed hm
    · rw [hstand.timerNodes] at hm
      rw [hfir]
      exact hsch.spent hm

/-- With nothing attached, the loop over the attached queues does nothing. -/
theorem busForward_alone (w : World) (e : EventId) (h : (w.ctxs c).attachedCount = 0) :
    busForward w c e = some w := by
  rw [busForward, h]
  rfl

/-! ## A whole call -/

/-- The market block leaves the pending list alone. -/
theorem BusStep.pendingQueue (hs : BusStep kind w w')
    (hk : kind ∈ ({.drop c, .save c} : Set StepKind)) :
    (w'.ctxs d).pendingQueue = (w.ctxs d).pendingQueue := by
  cases hs with
  | drop hpop hmode hskip hsaved =>
      rename_i w1 x q e stop
      have hflag : ((w1.updCtx x fun y => { y with isSimulatorStop := stop }).ctxs d).pendingQueue
          = (w1.ctxs d).pendingQueue := w1.updCtx_proj x d Ctx.pendingQueue (fun _ => rfl)
      exact hflag.trans (hpop.frame.pendingQueue d)
  | save hpop hsaved hts =>
      rw [← hpop.frame.pendingQueue d]
      exact busSave_proj _ _ d _ _ Ctx.pendingQueue (fun _ _ _ => rfl)
  | _ => rcases hk with hk | hk <;> cases hk

/-- No 64-bit overflow when this timer is armed again. -/
def Act.Fits (w : World) : Act → Prop
  | .fire _ _ t timeout =>
      (w.reminders t).repeat ≠ 0 → timeout + (w.reminders t).repeat < 2 ^ 64
  | _ => True

instance (w : World) : (a : Act) → Decidable (a.Fits w)
  | .fire _ _ t timeout =>
      inferInstanceAs (Decidable ((w.reminders t).repeat ≠ 0 →
        timeout + (w.reminders t).repeat < 2 ^ 64))
  | .push _ _ | .register _ _ | .take _ _ | .drop _ _ | .give _ _ _ _ | .attach _ _
  | .unref _ | .free _ | .freeQueue _ => inferInstanceAs (Decidable True)

/-- The call re-arms no timer past the end of the 64-bit time. -/
def BusOp.NoWrap (w : World) : BusOp → Prop
  | .dequeue c now => ∀ r ∈ busDequeue w c now, ∀ a ∈ r.1.log.drop w.log.length, a.Fits r.1
  | _ => True

instance (w : World) : (op : BusOp) → Decidable (op.NoWrap w)
  | .dequeue c now => inferInstanceAs (Decidable (∀ r ∈ busDequeue w c now,
      ∀ a ∈ r.1.log.drop w.log.length, a.Fits r.1))
  | .addQueue _ _ | .removeQueue _ _ | .push _ _ | .addTimer _ _ | .removeTimer _ _
  | .attach _ _ | .detach _ _ | .setTime _ _ | .setExchangeTime _ _ =>
      inferInstanceAs (Decidable True)

/-- **Each call of `bus_dequeue`** goes on with the drain; one that returns
nothing leaves nothing saved. -/
theorem Draining.dequeue (h : Draining w0 c w)
    (hd : Dequeued w c now w1 w2 w' o)
    (hfit : o ≠ none → ∀ a ∈ w'.log.drop w.log.length, a.Fits w') :
    Draining w0 c w' ∧ (o = none → (w'.ctxs c).savedEvent = none) := by
  have h1 : Draining w0 c w1 := by
    refine hd.enter.keeps (P := Draining w0 c) (fun s hm v v' hv _ hs hp => ?_) h
    rcases hm with rfl
    exact hp.step hv (by simp) (fun hc => by cases hc) hs
  have hpend1 : (w1.ctxs c).pendingQueue = [] := by
    rw [← hd.look.pending]
    exact hd.pending
  have h2 : Draining w0 c w2 ∧ (w2.ctxs c).pendingQueue = [] := by
    refine hd.look.run.keeps
      (P := fun v => Draining w0 c v ∧ (v.ctxs c).pendingQueue = [])
      (fun s hm v v' hv _ hs hp => ⟨?_, ?_⟩) ⟨h1, hpend1⟩
    · exact hp.1.step hv (by rcases hm with rfl | rfl <;> simp) (fun _ => hp.2) hs
    · rw [← hp.2]
      exact hs.pendingQueue hm
  have hi2 := hd.look.run.inv
  have hsource : busSource w2 c now = busSimulationSource w2 c :=
    busSource_simulation h2.1.mode
  have hserved := hd.served
  generalize hsrc : busSource w2 c now = source at hserved
  rw [hsource] at hsrc
  cases hserved with
  | @timer j t v hpop =>
      refine ⟨?_, fun hc => by cases hc⟩
      cases j with
      | clockLocal =>
          obtain ⟨e, he, _, hle⟩ := hpop.dueAtSaved hi2.timer (busSimulationSource_timer hsrc)
          refine h2.1.fire hi2 hpop he hle (fun hrep => ?_)
          obtain ⟨as, hlog2, _⟩ := hd.early
          have hnew : (v.note (.fire c .clockLocal t (w2.reminders t).timeout)).log
              = w.log ++ (as ++ [.fire c .clockLocal t (w2.reminders t).timeout]) := by
            show v.log ++ _ = _
            rw [hpop.frame.log, hlog2, List.append_assoc]
          have hfits := hfit (by simp) (.fire c .clockLocal t (w2.reminders t).timeout)
            (by rw [hnew, List.drop_left]; simp)
          have hsame : (v.reminders t).repeat = (w2.reminders t).repeat := by
            rw [hpop.reminder]
            split <;> rfl
          have hfits' : (v.reminders t).repeat ≠ 0 →
              (w2.reminders t).timeout + (v.reminders t).repeat < 2 ^ 64 := hfits
          rw [hsame] at hfits'
          exact hfits' hrep
      | clockExchange => exact h2.1.fireExchange hi2 hpop
  | @pipe k q e v hpop hk =>
      exact ⟨h2.1.step hi2 (by simp) (fun hc => by cases hc) (BusStep.give hpop hk),
        fun hc => by cases hc⟩
  | @saved e v w' hun hgo =>
      refine ⟨?_, fun hc => by cases hc⟩
      have hv : Draining w0 c v := by
        refine h2.1.release hi2 hun (fun t ht => ?_)
        refine h2.1.timers.not_due hi2.timer ?_ ht
        have hdue := busSimulationSource_saved hsrc
        rw [timerDueAtSaved, (busUnsave_eq hun).choose_spec.1] at hdue
        exact hdue
      rw [if_pos h2.1.mode, busForward_alone v e hv.alone] at hgo
      cases hgo
      exact hv
  | nothing => exact ⟨h2.1, fun _ => (busSimulationSource_spec _ c).nothing hsrc⟩

end Ats
