import Ats.Core.PipeMerge
import Ats.Core.ViewDequeue

/-!
# MarketLine: which event the market block saves

The market block of `bus_simualtion_dequeue` pops its queues as a k-way
merge and saves the first event that it does not skip. That event can be
told before the call, from the queues of the bus and the pending ones; and
its timestamp is all that the block writes.
-/

namespace Ats

open KWayMerge World

variable {w w' w1 w2 v : World} {c d : CtxId} {q p : QueueId} {e : EventId} {now : Nat}
  {s a : List (QueueId × List EventId)} {o : Option EventId}

instance (type : Nat) : Decidable (keptWhenLate type) :=
  inferInstanceAs (Decidable (_ ∨ _ ∨ _))

instance (w : World) (c : CtxId) (e : EventId) : Decidable (Skipped w c e) :=
  inferInstanceAs (Decidable (_ ∨ ¬ _ ∧ _))

/-! ## The next kept event -/

/-- The queues of the market pipe by start id, and those that
`check_pending_queue` will add to it. -/
def World.marketQueues (w : World) (c : CtxId) : List QueueId :=
  (w.queueNodes c .market).insertionSort
      (fun p q => (w.queues p).startId ≤ (w.queues q).startId)
    ++ (w.ctxs c).pendingQueue.filter fun q => (w.queues q).category = .market

/-- A queue with what it holds. -/
def World.source (w : World) (q : QueueId) : QueueId × List EventId := (q, w.contents q)

/-- The first event of the merge that bus `c` does not skip. -/
def firstKept (w : World) (c : CtxId) (s : List (QueueId × List EventId)) : Option EventId :=
  ((merge (stamp w) (size s) s).map Prod.snd).find? fun e => ¬ Skipped w c e

/-- **The next kept event** of the market queues of `c`. -/
def World.upNext (w : World) (c : CtxId) : Option EventId :=
  firstKept w c ((w.marketQueues c).map w.source)

/-! ## The line of the market pipe -/

/-- `s` lines up the queues of the market pipe by start id; drained ones may
still stand in it. -/
structure MarketLine (w : World) (c : CtxId) (s : List (QueueId × List EventId)) : Prop where
  distinct : Distinct s
  live : ∀ q es, es ≠ [] → ((q, es) ∈ s ↔ q ∈ w.queueNodes c .market ∧ es = w.contents q)
  ids : s.Pairwise fun p q => p.2 ≠ [] → q.2 ≠ [] →
    (w.queues p.1).startId < (w.queues q.1).startId

namespace MarketLine

/-- **The heap picks the queue the merge picks.** -/
theorem isFirstLeast (h : MarketLine w c s) (hr : Ranked w)
    (hp : PipePop w w' c .market q e) : IsFirstLeast (stamp w) s q e (w'.contents q) := by
  have hq : (q, e :: w'.contents q) ∈ s :=
    (h.live q _ (List.cons_ne_nil _ _)).mpr ⟨hp.mem, hp.contents.symm⟩
  apply isFirstLeast_of_numbered (n := fun p => (w.queues p).startId) hq h.ids
  intro r hrs y hy
  have hne : r.2 ≠ [] := fun hnil => by rw [hnil] at hy; cases hy
  obtain ⟨hm, hc⟩ := (h.live r.1 r.2 hne).mp hrs
  have hle := (hr.pipes c .market).root_le_of_mem
    (by rw [← List.head?_eq_getElem?]; exact hp.first) hm
  have hhead : (w.contents r.1).headD 0 = y := by
    rw [← hc, List.headD_eq_head?_getD, Option.mem_def.mp hy]
    rfl
  rw [queueKey, queueKey, Prod.Lex.toLex_le_toLex, hp.contents, hhead] at hle
  exact hle

/-- **A pop is one step of the merge.** -/
theorem pop (h : MarketLine w c s) (hr : Ranked w) (hi : QueueInv w)
    (hp : PipePop w w' c .market q e) :
    ∃ s', mergeStep (stamp w) s = some ((q, e), s') ∧ MarketLine w' c s' := by
  have hstep : mergeStep (stamp w) s
      = some ((q, e), s.filter (fun p => p.1 ≠ q) ++ [(q, w'.contents q)]) := by
    rw [mergeStep, (h.isFirstLeast hr hp).firstLeast_eq]
    rfl
  have hnodup := (hi.heap c .market).nodup
  -- `q` stays while it holds something, the others as they were
  have hself : q ∈ w'.queueNodes c .market ↔ w'.contents q ≠ [] := by
    rw [hp.nodes.mem_iff]
    split
    case isTrue hnil => exact iff_of_false hnodup.not_mem_erase (not_not_intro hnil)
    case isFalse hne => exact iff_of_true hp.mem hne
  have hother : ∀ p, p ≠ q → (p ∈ w'.queueNodes c .market ↔ p ∈ w.queueNodes c .market) := by
    intro p hpq
    rw [hp.nodes.mem_iff]
    split
    · exact List.mem_erase_of_ne hpq
    · exact Iff.rfl
  refine ⟨_, hstep, h.distinct.mergeStep hstep, fun p es hes => ?_, ?_⟩
  · rw [List.mem_append, List.mem_singleton, List.mem_filter]
    by_cases hpq : p = q
    · subst hpq
      simp only [ne_eq, decide_not, decide_true, Bool.not_true, Bool.false_eq_true, and_false,
        false_or, Prod.mk.injEq, true_and, hself]
      exact ⟨fun hc => ⟨hc ▸ hes, hc⟩, And.right⟩
    · simp only [hpq, ne_eq, not_false_eq_true, decide_true, and_true, Prod.mk.injEq, false_and,
        or_false, hother p hpq, hp.contents_ne hpq]
      exact h.live p es hes
  · rw [List.pairwise_append]
    refine ⟨?_, List.pairwise_singleton _ _, ?_⟩
    · refine (h.ids.filter _).imp_of_mem fun {x y} hx hy hlt hxn hyn => ?_
      rw [hp.others x.1 (by simpa using (List.mem_filter.mp hx).2),
        hp.others y.1 (by simpa using (List.mem_filter.mp hy).2)]
      exact hlt hxn hyn
    · intro x hx y hy hxn hyn
      obtain ⟨hxs, hxq⟩ := List.mem_filter.mp hx
      obtain rfl := List.mem_singleton.mp hy
      rw [hp.others x.1 (by simpa using hxq), hp.startId, if_neg hyn]
      exact (hr.ids.queues c .market).lt x.1 ((h.live x.1 x.2 hxn).mp hxs).1

/-- Nothing waits in an empty pipe. -/
theorem merge_nil (h : MarketLine w c s) (hn : w.queueNodes c .market = []) :
    merge (stamp w) (size s) s = [] := by
  have hempty : size s = 0 := size_eq_zero.mpr fun p hp => by
    by_contra hne
    have hm := ((h.live p.1 p.2 hne).mp hp).1
    rw [hn] at hm
    cases hm
  rw [hempty]
  rfl

theorem congr (h : MarketLine w c s) (hn : w'.queueNodes c .market = w.queueNodes c .market)
    (hq : ∀ q, w'.queues q = w.queues q) : MarketLine w' c s where
  distinct := h.distinct
  live := fun q es hes => by
    rw [hn, contents, hq]
    exact h.live q es hes
  ids := by
    simp only [hq]
    exact h.ids

end MarketLine

/-! ## `check_pending_queue` -/

/-- The line of the pipe itself. -/
theorem Ranked.marketLine (h : Ranked w) (hi : QueueInv w) (c : CtxId) :
    MarketLine w c (((w.queueNodes c .market).insertionSort
      (fun p q => (w.queues p).startId ≤ (w.queues q).startId)).map w.source) := by
  have hperm := List.perm_insertionSort
    (fun p q => (w.queues p).startId ≤ (w.queues q).startId) (w.queueNodes c .market)
  have hnodup := hperm.nodup_iff.mpr (hi.heap c .market).nodup
  refine ⟨?_, fun q es hes => ?_, ?_⟩
  · rw [Distinct, List.map_map]
    exact hnodup.map fun _ _ heq => heq
  · rw [List.mem_map]
    constructor
    · rintro ⟨p, hp, hpq⟩
      cases hpq
      exact ⟨hperm.mem_iff.mp hp, rfl⟩
    · rintro ⟨hm, rfl⟩
      exact ⟨q, hperm.mem_iff.mpr hm, rfl⟩
  · rw [List.pairwise_map]
    have hle := List.pairwise_insertionSort
      (fun p q => (w.queues p).startId ≤ (w.queues q).startId) (w.queueNodes c .market)
    refine (hle.and hnodup).imp_of_mem fun {p q} hp hq hpq _ _ => ?_
    refine lt_of_le_of_ne hpq.1 fun heq => hpq.2 ?_
    exact (h.ids.queues c .market).inj p (hperm.mem_iff.mp hp) q (hperm.mem_iff.mp hq) heq

/-- A pending queue that goes into its heap goes to the end of the line. -/
theorem BusStep.marketLine (hs : BusStep (.reenter c) w w') (hi : BusInv w) (hr : Ranked w)
    (h : MarketLine w c a) (hne : ∀ p ∈ a, p.2 ≠ []) :
    ∃ a', MarketLine w' c a' ∧ (∀ p ∈ a', p.2 ≠ [])
      ∧ a' ++ ((w'.ctxs c).pendingQueue.filter fun q => (w'.queues q).category = .market).map
          w'.source
        = a ++ ((w.ctxs c).pendingQueue.filter fun q => (w.queues q).category = .market).map
          w.source := by
  cases hs with
  | reenter hpend hadd =>
      rename_i q rest
      obtain ⟨hl, hnot⟩ := hi.queue.pending c q (by rw [hpend]; exact List.mem_cons_self)
      obtain ⟨_, hnodes, _⟩ := hi.queue.unpend hpend
      generalize hv : (w.updCtx c fun x => { x with pendingQueue := rest }) = v at hadd hnodes
      have hvq : v.queues = w.queues := by rw [← hv]; rfl
      have hvx : v.ctxs c = { w.ctxs c with pendingQueue := rest } := by
        rw [← hv]
        simp [World.updCtx]
      have hcont : ∀ p, w'.contents p = w.contents p := fun p => by
        rw [hadd.contents, contents, hvq, contents]
      have hcat : ∀ p, (w'.queues p).category = (w.queues p).category := by
        intro p
        by_cases hp : p = q
        · rw [hp, hadd.category, hvq]
        · rw [hadd.others p hp, hvq]
      have hsource : w'.source = w.source := funext fun p => by
        rw [World.source, hcont, World.source]
      have hpending : (w'.ctxs c).pendingQueue = rest := by
        rw [hadd.frame.pendingQueue]
        show (v.ctxs c).pendingQueue = rest
        rw [hvx]
      have hid : ∀ p, p ∈ w.queueNodes c .market → p ≠ q →
          (w'.queues p).startId = (w.queues p).startId := fun p _ hp => by
        rw [hadd.others p hp, hvq]
      have hlist : (w'.ctxs c).pendingQueue.filter (fun q => (w'.queues q).category = .market)
          = rest.filter fun q => (w.queues q).category = .market := by
        rw [hpending]
        exact List.filter_congr fun p _ => by rw [hcat]
      -- the queues in line are in the pipe, which `q` is not
      have hin : ∀ p ∈ a, p.1 ∈ w.queueNodes c .market ∧ p.1 ≠ q := by
        intro p hp
        have hm := ((h.live p.1 p.2 (hne p hp)).mp hp).1
        refine ⟨hm, fun hc => hnot ?_⟩
        rw [hc] at hm
        rwa [(hi.queue.linked c .market q hm).category]
      rw [hlist, hpend, hsource, List.filter_cons]
      by_cases hk : (w.queues q).category = .market
      · rw [if_pos (by simpa using hk), List.map_cons]
        have hperm := hadd.nodes
        rw [hvq, if_neg (by rw [contents, hvq]; exact hl.nonempty), hnodes, hk] at hperm
        refine ⟨a ++ [w.source q], ⟨?_, fun p es hes => ?_, ?_⟩, fun p hp => ?_, by simp⟩
        · rw [Distinct, List.map_append, List.nodup_append]
          refine ⟨h.distinct, List.nodup_singleton _, ?_⟩
          rintro x hx y hy rfl
          obtain ⟨p, hp, rfl⟩ := List.mem_map.mp hx
          exact (hin p hp).2 (List.mem_singleton.mp hy)
        · rw [List.mem_append, List.mem_singleton, h.live p es hes, hperm.mem_iff, hcont,
            List.mem_cons, World.source, Prod.mk.injEq]
          constructor
          · rintro (⟨hm, he⟩ | ⟨rfl, he⟩)
            · exact ⟨Or.inr hm, he⟩
            · exact ⟨Or.inl rfl, he⟩
          · rintro ⟨rfl | hm, he⟩
            · exact Or.inr ⟨rfl, he⟩
            · exact Or.inl ⟨hm, he⟩
        · rw [List.pairwise_append]
          refine ⟨h.ids.imp_of_mem fun {x y} hx hy hlt hxn hyn => ?_, List.pairwise_singleton _ _,
            fun x hx y hy hxn _ => ?_⟩
          · rw [hid x.1 (hin x hx).1 (hin x hx).2, hid y.1 (hin y hy).1 (hin y hy).2]
            exact hlt hxn hyn
          · obtain rfl := List.mem_singleton.mp hy
            have hlt := (hr.ids.queues c .market).lt x.1 (hin x hx).1
            rw [hid x.1 (hin x hx).1 (hin x hx).2]
            show _ < (w'.queues q).startId
            rw [hadd.startId, hvx]
            exact hlt
        · rcases List.mem_append.mp hp with hp | hp
          · exact hne p hp
          · rw [List.mem_singleton.mp hp]
            exact hl.nonempty
      · rw [if_neg (by simpa using hk)]
        have hsame : w'.queueNodes c .market = w.queueNodes c .market := by
          rw [hadd.nodes_ne c .market (Or.inr (by rw [hvq]; exact Ne.symm hk)), hnodes]
        refine ⟨a, ⟨h.distinct, fun p es hes => ?_, ?_⟩, hne, rfl⟩
        · rw [hsame, hcont]
          exact h.live p es hes
        · refine h.ids.imp_of_mem fun {x y} hx hy hlt hxn hyn => ?_
          rw [hid x.1 (hin x hx).1 (hin x hx).2, hid y.1 (hin y hy).1 (hin y hy).2]
          exact hlt hxn hyn

/-- **After `check_pending_queue`** the market queues are in line. -/
theorem Dequeued.marketLine (h : Dequeued w c now w1 w2 w' o) (hi : BusInv w)
    (hr : Ranked w) : MarketLine w1 c ((w.marketQueues c).map w.source) := by
  have hrun := h.enter.keeps
    (P := fun v => Ranked v ∧ ∃ a, MarketLine v c a ∧ (∀ p ∈ a, p.2 ≠ [])
      ∧ a ++ ((v.ctxs c).pendingQueue.filter fun q => (v.queues q).category = .market).map
          v.source = (w.marketQueues c).map w.source)
    (fun s hm u u' hu _ hs hp => ?_) ?_
  · obtain ⟨_, a, ha, _, heq⟩ := hrun
    rw [show (w1.ctxs c).pendingQueue = [] from h.look.pending.symm.trans h.pending] at heq
    rw [← heq]
    simpa using ha
  · obtain rfl : s = .reenter c := hm
    obtain ⟨hru, a, ha, hne, heq⟩ := hp
    obtain ⟨a', ha', hne', heq'⟩ := hs.marketLine hu hru ha hne
    have hseen := hs.seen fun d hc => by cases hc
    exact ⟨hs.ranked hu (SameStamps.of_seen hseen) hru, a', ha', hne', heq'.trans heq⟩
  · refine ⟨hr, _, hr.marketLine hi.queue c, fun p hp => ?_, ?_⟩
    · obtain ⟨q, hq, rfl⟩ := List.mem_map.mp hp
      exact (hi.queue.linked c .market q (List.mem_insertionSort _ |>.mp hq)).nonempty
    · rw [World.marketQueues, List.map_append]

/-! ## The block at `again:` -/

/-- **What the market block takes and writes**: it pops the events of the
bus up to `o`, which it saves, and writes no other. -/
structure MarketTaken (w w' : World) (c : CtxId) (o : Option EventId) : Prop where
  contents : ∀ q, w'.contents q <:+ w.contents q
  others : ∀ x, o ≠ some x → w'.seen x = w.seen x
  taken : ∀ e, o = some e → ∃ q, w.Owns c q ∧ e :: w'.contents q <:+ w.contents q
  inTime : ∀ e, o = some e → ¬ (keptWhenLate (w.events e).eventType
    ∧ (w.events e).timestamp < (w.ctxs c).time .clockLocal) → w'.seen e = w.seen e

theorem MarketTaken.none (w : World) (c : CtxId) : MarketTaken w w c none where
  contents := fun _ => List.suffix_rfl
  others := fun _ _ => rfl
  taken := fun _ h => by cases h
  inTime := fun _ h => by cases h

theorem firstKept_step (hd : Distinct s) {s' : List (QueueId × List EventId)}
    (hs : mergeStep (stamp w) s = some ((q, e), s')) :
    firstKept w c s = if Skipped w c e then firstKept w c s' else some e := by
  rw [firstKept, hd.size_mergeStep hs, merge, hs, List.map_cons, List.find?_cons]
  by_cases hk : Skipped w c e
  · rw [if_pos hk]
    simp only [hk, not_true_eq_false, decide_false]
    rfl
  · rw [if_neg hk]
    simp only [hk, not_false_eq_true, decide_true]

theorem firstKept_congr (he : w'.events = w.events) (ht : (w'.ctxs c).time = (w.ctxs c).time) :
    firstKept w' c s = firstKept w c s := by
  have hstamp : stamp w' = stamp w := funext fun x => by rw [stamp, he, stamp]
  simp only [firstKept, hstamp, Skipped.congr he ht]

/-- **The block saves the next kept event.** -/
theorem BusInv.marketTaken : ∀ (fuel : Nat) {w w' : World} {s : List (QueueId × List EventId)},
    BusInv w → Ranked w → (w.ctxs c).mode = .simulation → (w.ctxs c).savedEvent = none →
    MarketLine w c s → Ats.busSimulationMarket fuel w c now = some w' →
    MarketTaken w w' c (firstKept w c s) := by
  intro fuel
  induction fuel with
  | zero => intro w w' s _ _ _ _ _ h; cases h
  | succ fuel ih =>
      intro w w' s hi hr hmode hsaved hline h
      have hsuffix : ∀ {w1 q e}, PipePop w w1 c .market q e →
          ∀ p, w1.contents p <:+ w.contents p := by
        intro w1 q e hpop p
        by_cases hp : p = q
        · subst hp
          exact hpop.contents ▸ List.suffix_cons _ _
        · exact hpop.contents_ne hp ▸ List.suffix_rfl
      cases hi.marketRound hmode h with
      | done hgo heq =>
          subst heq
          rw [firstKept, hline.merge_nil (hgo.resolve_right (not_not_intro hsaved))]
          exact MarketTaken.none w' c
      | kept hsaved' hpop hq1 hno hw' =>
          rename_i w1 q e
          obtain ⟨s', hstep, _⟩ := hline.pop hr hi.queue hpop
          rw [firstKept_step hline.distinct hstep, if_neg hno]
          have hcont : ∀ p, w'.contents p = w1.contents p := fun p => by rw [hw']; rfl
          refine ⟨fun p => hcont p ▸ hsuffix hpop p, fun x hx => ?_, fun x hx => ?_,
            fun x hx hlate => ?_⟩
          · have hxe : x ≠ e := fun hc => hx (hc ▸ rfl)
            refine seen_congr ?_
            rw [hw']
            simp [busSave, World.updCtx, World.updEvent, hxe, hpop.frame.events]
          · cases hx
            have heq : e :: w'.contents q = w.contents q := by rw [hcont, hpop.contents]
            exact ⟨q, ⟨hpop.linkable.lt, hpop.linkable.ctx⟩, heq ▸ List.suffix_rfl⟩
          · -- neither skipped nor late: the bus time has not passed it
            cases hx
            have hle : (w.ctxs c).time .clockLocal ≤ (w.events e).timestamp := by
              by_contra hold
              have hold := Nat.lt_of_not_le hold
              exact hlate ⟨by_contra fun hk => hno (Or.inr ⟨hk, hold⟩), hold⟩
            refine seen_congr ?_
            rw [hw', Nat.max_eq_left hle]
            simp [busSave, World.updCtx, World.updEvent, hpop.frame.events]
      | skipped hsaved' hpop hs hv hdrop hiv hb h =>
          -- the block is run again, on the rest of the line
          rename_i w1 v q e b
          obtain ⟨s', hstep, hline'⟩ := hline.pop hr hi.queue hpop
          rw [firstKept_step hline.distinct hstep, if_pos hs]
          obtain ⟨hev, htv, hmodev, hslot, _⟩ := hpop.skipped hv
          have hseenv : v.seen = w.seen := funext fun x => seen_congr (by rw [hev])
          have hqv : ∀ p, v.queues p = w1.queues p := fun p => by rw [hv]; rfl
          have hcont : ∀ p, v.contents p = w1.contents p := fun p => by
            rw [contents, hqv, contents]
          have hlinev : MarketLine v c s' := by
            have hflag : SameQueues w1 (w1.updCtx c fun x => { x with isSimulatorStop := b }) :=
              updCtx_sameQueues w1 c fun _ => ⟨rfl, rfl⟩
            refine hline'.congr ?_ hqv
            rw [hv]
            exact hflag.queueNodes c .market
          have hrest := ih hiv (hdrop.ranked hi (SameStamps.of_seen hseenv) hr)
            (hmodev.trans hmode) ((hslot c).trans hsaved) hlinev h
          rw [firstKept_congr hev htv] at hrest
          refine ⟨fun p => (hrest.contents p).trans (hcont p ▸ hsuffix hpop p), fun x hx => ?_,
            fun x hx => ?_, fun x hx hlate => ?_⟩
          · rw [hrest.others x hx, hseenv]
          · obtain ⟨p, hp, hsuf⟩ := hrest.taken x hx
            exact ⟨p, ((hpop.skipped_view hv c).2 c p).mp hp,
              hsuf.trans (hcont p ▸ hsuffix hpop p)⟩
          · rw [← hseenv]
            exact hrest.inTime x hx (by rw [hev, htv]; exact hlate)

end Ats
