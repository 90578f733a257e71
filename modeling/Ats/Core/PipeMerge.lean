import Ats.Core.Delivery
import Ats.Lib.KWayMerge

/-!
# PipeMerge: a pipe drains as a k-way merge

The line of a bus is its queues in the order they were last registered or
served, as the history has it. `start_id` numbers that line, so the heap
order of a pipe picks the queue the merge picks: the first one in line
whose head event is oldest.
-/

namespace Ats

open KWayMerge

variable {w w' : World} {c d : CtxId} {k : QueueCategory} {q : QueueId} {e : EventId}
  {s : StepKind}

/-! ## The line -/

/-- Who is registered on `c`, or served, goes to the end of the line. -/
def lineStep (c : CtxId) (ls : List QueueId) : Act → List QueueId
  | .register d q => if d = c then ls.filter (· ≠ q) ++ [q] else ls
  | .take q _ => if q ∈ ls then ls.filter (· ≠ q) ++ [q] else ls
  | _ => ls

/-- The queues of bus `c`, least recently registered or served first. -/
def World.line (w : World) (c : CtxId) : List QueueId := w.log.foldl (lineStep c) []

/-- The queues of one category in line, with what they hold. -/
def pipeLine (w : World) (c : CtxId) (k : QueueCategory) :
    List (QueueId × List EventId) :=
  ((w.line c).filter fun q => (w.queues q).category = k).map fun q => (q, w.contents q)

/-- The key of the merge. -/
def stamp (w : World) (e : EventId) : Nat := (w.events e).timestamp

/-- **Start ids number the line**, and the heaps are in order. -/
structure LineInv (w : World) (c : CtxId) : Prop where
  registered : ∀ q, q ∈ w.line c ↔ q < w.nextQueue ∧ (w.queues q).ctx = some c
  nodup : (w.line c).Nodup
  ids : ∀ k, (w.line c).Pairwise fun p q =>
    p ∈ w.queueNodes c k → q ∈ w.queueNodes c k →
      (w.queues p).startId < (w.queues q).startId
  bound : ∀ k q, q ∈ w.queueNodes c k → (w.queues q).startId < (w.ctxs c).counter
  ordered : ∀ k, LevelHeap.Ordered (queueKey w) (w.queueNodes c k)

theorem line_append (h : w'.log = w.log ++ [a]) :
    w'.line c = lineStep c (w.line c) a := by
  rw [World.line, h, List.foldl_append]
  rfl

theorem mem_toEnd {ls : List QueueId} {p : QueueId} :
    p ∈ ls.filter (· ≠ q) ++ [q] ↔ p ∈ ls ∨ p = q := by
  rw [List.mem_append, List.mem_filter, List.mem_singleton]
  by_cases hp : p = q
  · simp [hp]
  · simp [hp]

theorem nodup_toEnd {ls : List QueueId} (h : ls.Nodup) :
    (ls.filter (· ≠ q) ++ [q]).Nodup := by
  rw [List.nodup_append]
  refine ⟨h.filter _, List.nodup_singleton q, ?_⟩
  intro a ha b hb hab
  rw [List.mem_singleton] at hb
  rw [List.mem_filter] at ha
  simp [hab, hb] at ha

/-- The order of a line after `q` went to its end. -/
theorem pairwise_toEnd {ls : List QueueId} {R R' : QueueId → QueueId → Prop}
    (h : ls.Pairwise R) (hold : ∀ a b, a ≠ q → b ≠ q → R a b → R' a b)
    (hnew : ∀ a, a ≠ q → R' a q) : (ls.filter (· ≠ q) ++ [q]).Pairwise R' := by
  rw [List.pairwise_append]
  refine ⟨?_, List.pairwise_singleton _ _, fun a ha b hb => ?_⟩
  · refine (h.filter _).imp_of_mem (fun ha hb hr => hold _ _ ?_ ?_ hr)
    · simpa using (List.mem_filter.mp ha).2
    · simpa using (List.mem_filter.mp hb).2
  · rw [List.mem_singleton] at hb
    subst hb
    exact hnew a (by simpa using (List.mem_filter.mp ha).2)

/-! ## What keeps the line in order -/

/-- Registering, for a queue that stands in no heap. -/
theorem LineInv.added (h : LineInv w c) (hadd : QueueAdded w w' d q)
    (hq : q < w.nextQueue) (hctx : (w.queues q).ctx = some d ∨ (w.queues q).ctx = none)
    (hn : ∀ x j, q ∉ w.queueNodes x j) : LineInv w' c := by
  have hline : w'.line c
      = if d = c then (w.line c).filter (· ≠ q) ++ [q] else w.line c :=
    line_append hadd.log
  have hnext : w'.nextQueue = w.nextQueue := hadd.frame.nextQueue
  have hmem : ∀ x j p, p ∈ w'.queueNodes x j → p ≠ q → p ∈ w.queueNodes x j := by
    intro x j p hp hpq
    by_cases hx : x = d ∧ j = (w.queues q).category
    · obtain ⟨rfl, rfl⟩ := hx
      rw [hadd.nodes.mem_iff] at hp
      split at hp
      · exact hp
      · exact (List.mem_cons.mp hp).resolve_left hpq
    · rwa [hadd.nodes_ne x j (by tauto)] at hp
  have hself : ∀ x j, q ∈ w'.queueNodes x j → x = d := by
    intro x j hp
    by_contra hx
    rw [hadd.nodes_ne x j (Or.inl hx)] at hp
    exact hn x j hp
  have hcnt : (w'.ctxs c).counter
      = if c = d then (w.ctxs c).counter + 1 else (w.ctxs c).counter := by
    by_cases hcd : c = d
    · rw [if_pos hcd, hcd, hadd.counter]
    · rw [if_neg hcd, hadd.ctxs_ne c hcd]
  refine ⟨fun p => ?_, ?_, fun k => ?_, fun k p hp => ?_, fun k => hadd.order c k (h.ordered k)⟩
  · rw [hline, hnext]
    by_cases hpq : p = q
    · subst hpq
      rw [hadd.ctx]
      by_cases hdc : d = c
      · rw [if_pos hdc, mem_toEnd, hdc]
        simp [hq]
      · have hne : ¬ p ∈ w.line c := by
          rw [h.registered]
          rintro ⟨_, hpc⟩
          rcases hctx with hx | hx <;> rw [hx] at hpc <;> cases hpc
          exact hdc rfl
        rw [if_neg hdc]
        simp [hne, hdc]
    · rw [hadd.others p hpq, ← h.registered]
      split
      · rw [mem_toEnd]
        simp [hpq]
      · exact Iff.rfl
  · rw [hline]
    split
    · exact nodup_toEnd h.nodup
    · exact h.nodup
  · rw [hline]
    -- two queues that were in line before keep their ids
    have hold : ∀ a b, a ≠ q → b ≠ q →
        (a ∈ w.queueNodes c k → b ∈ w.queueNodes c k →
          (w.queues a).startId < (w.queues b).startId) →
        a ∈ w'.queueNodes c k → b ∈ w'.queueNodes c k →
          (w'.queues a).startId < (w'.queues b).startId := by
      intro a b ha hb hr hma hmb
      rw [hadd.others a ha, hadd.others b hb]
      exact hr (hmem c k a hma ha) (hmem c k b hmb hb)
    split
    case isTrue hdc =>
      refine pairwise_toEnd (h.ids k) hold (fun a ha hma _ => ?_)
      rw [hadd.others a ha, hadd.startId, hdc]
      exact h.bound k a (hmem c k a hma ha)
    case isFalse hdc =>
      refine (h.ids k).imp_of_mem (fun {a b} ha hb hr hma hmb => ?_)
      have haq : a ≠ q := fun hc => hdc (hself c k (hc ▸ hma)).symm
      have hbq : b ≠ q := fun hc => hdc (hself c k (hc ▸ hmb)).symm
      exact hold a b haq hbq hr hma hmb
  · rw [hcnt]
    by_cases hpq : p = q
    · subst hpq
      have hcd := hself c k hp
      rw [if_pos hcd, hadd.startId, hcd]
      exact Nat.lt_succ_self _
    · rw [hadd.others p hpq]
      have hb := h.bound k p (hmem c k p hp hpq)
      split <;> omega

theorem QueuePushed.order (h : QueuePushed w w' q e) (hi : QueueInv w) {d : CtxId}
    {j : QueueCategory} (ho : LevelHeap.Ordered (queueKey w) (w.queueNodes d j)) :
    LevelHeap.Ordered (queueKey w') (w'.queueNodes d j) := by
  obtain ⟨w1, ha, hw⟩ := h.append
  have h1 := ha.order hi ho
  rw [h.queueNodes, ← ha.queueNodes]
  refine h1.congr (fun a _ => queueKey_congr ?_ ?_)
  · rw [hw]
  · rw [hw]

theorem QueuePushed.startId (h : QueuePushed w w' q e) (p : QueueId) :
    (w'.queues p).startId = (w.queues p).startId := by
  obtain ⟨w1, ha, hw⟩ := h.append
  rw [hw]
  exact ha.startId p

/-- Pushing. -/
theorem LineInv.pushed (h : LineInv w c) (hp : QueuePushed w w' q e) (hi : QueueInv w) :
    LineInv w' c := by
  have hline : w'.line c = w.line c := line_append hp.log
  have hcnt : (w'.ctxs c).counter = (w.ctxs c).counter := by rw [hp.ctxs]
  refine ⟨fun p => ?_, hline ▸ h.nodup, fun k => ?_, fun k p hm => ?_,
    fun k => hp.order hi (h.ordered k)⟩
  · rw [hline, hp.nextQueue, hp.queue_ctx]
    exact h.registered p
  · rw [hline, hp.queueNodes]
    refine (h.ids k).imp (fun hr ha hb => ?_)
    rw [hp.startId, hp.startId]
    exact hr ha hb
  · rw [hp.queueNodes] at hm
    rw [hp.startId, hcnt]
    exact h.bound k p hm

/-- The other heaps keep their order too when a pipe is served. -/
theorem PipePop.order_ne (h : PipePop w w' c k q e) (hi : QueueInv w)
    {j : QueueCategory} (hd : d ≠ c ∨ j ≠ k)
    (ho : LevelHeap.Ordered (queueKey w) (w.queueNodes d j)) :
    LevelHeap.Ordered (queueKey w') (w'.queueNodes d j) := by
  rw [h.nodes_ne d j hd]
  refine ho.congr (fun a ha => queueKey_congr h.frame.events (h.others a ?_))
  rintro rfl
  exact hi.notMem_other h.linkable.ctx h.linkable.category hd ha

/-- Being served. -/
theorem LineInv.pop (h : LineInv w c) (hp : PipePop w w' c k q e) (hi : QueueInv w) :
    LineInv w' c ∧ w'.line c = (w.line c).filter (· ≠ q) ++ [q] := by
  have hf := hp.frame
  have hq : q ∈ w.line c := (h.registered q).mpr ⟨hp.linkable.lt, hp.linkable.ctx⟩
  have hline : w'.line c = (w.line c).filter (· ≠ q) ++ [q] := by
    rw [line_append hp.log, lineStep, if_pos hq]
  have hmem : ∀ j p, p ∈ w'.queueNodes c j → p ∈ w.queueNodes c j := fun j _ hm =>
    hp.queueNodes_subset c j hm
  have hself : ∀ j, q ∈ w'.queueNodes c j →
      (w'.queues q).startId = (w.ctxs c).counter
        ∧ (w'.ctxs c).counter = (w.ctxs c).counter + 1 := by
    intro j hm
    have hj : j = k := by
      by_contra hj
      rw [hp.nodes_ne c j (Or.inr hj)] at hm
      exact hi.notMem_other hp.linkable.ctx hp.linkable.category (Or.inr hj) hm
    subst hj
    have hne : w'.contents q ≠ [] := by
      intro hc
      rw [hp.nodes.mem_iff, if_pos hc] at hm
      exact (hi.heap c j).nodup.not_mem_erase hm
    rw [hp.startId, hp.counter, if_neg hne, if_neg hne]
    exact ⟨rfl, rfl⟩
  have hcnt : (w.ctxs c).counter ≤ (w'.ctxs c).counter := by
    rw [hp.counter]
    split <;> omega
  refine ⟨⟨fun p => ?_, ?_, fun j => ?_, fun j p hm => ?_, fun j => ?_⟩, hline⟩
  · rw [hline, mem_toEnd, hf.nextQueue, hf.queue_ctx, ← h.registered]
    constructor
    · rintro (hm | rfl)
      · exact hm
      · exact hq
    · exact Or.inl
  · rw [hline]
    exact nodup_toEnd h.nodup
  · rw [hline]
    refine pairwise_toEnd (h.ids j) (fun a b ha hb hr hma hmb => ?_) (fun a ha hma hmq => ?_)
    · rw [hp.others a ha, hp.others b hb]
      exact hr (hmem j a hma) (hmem j b hmb)
    · rw [hp.others a ha, (hself j hmq).1]
      exact h.bound j a (hmem j a hma)
  · by_cases hpq : p = q
    · subst hpq
      obtain ⟨hs, hc⟩ := hself j hm
      rw [hs, hc]
      exact Nat.lt_succ_self _
    · rw [hp.others p hpq]
      exact Nat.lt_of_lt_of_le (h.bound j p (hmem j p hm)) hcnt
  · by_cases hj : j = k
    · subst hj
      exact hp.order (h.ordered j)
    · exact hp.order_ne hi (Or.inr hj) (h.ordered j)

/-- The kinds of steps that fill a bus. -/
def fillKinds : Set StepKind := { s | s = .push ∨ ∃ d, s = .add d ∨ s = .reenter d }

/-- Filling the queues of a bus keeps its line in order. -/
theorem BusStep.lineInv (hs : BusStep s w w') (hi : BusInv w) (hk : s ∈ fillKinds)
    (h : LineInv w c) : LineInv w' c := by
  cases hs with
  | add hlt hctx hadd =>
      exact h.added hadd hlt (Or.inr hctx) (hi.queue.nowhere_of_ctx hctx).1
  | push hpush => exact h.pushed hpush hi.queue
  | reenter hpend hadd =>
      rename_i d q rest
      obtain ⟨hl, hnot⟩ := hi.queue.pending d q (by rw [hpend]; exact List.mem_cons_self)
      obtain ⟨_, hnodes, _⟩ := hi.queue.unpend hpend
      have hcnt : ∀ x, ((w.updCtx d fun x => { x with pendingQueue := rest }).ctxs x).counter
          = (w.ctxs x).counter := fun x => w.updCtx_proj d x Ctx.counter (fun _ => rfl)
      have h1 : LineInv (w.updCtx d fun x => { x with pendingQueue := rest }) c := by
        refine ⟨h.registered, h.nodup, fun k => ?_, fun k p hm => ?_, fun k => ?_⟩
        · rw [hnodes]
          exact h.ids k
        · rw [hnodes] at hm
          rw [hcnt]
          exact h.bound k p hm
        · rw [hnodes]
          exact h.ordered k
      refine h1.added hadd hl.lt (Or.inl hl.ctx) (fun x j hm => ?_)
      rw [hnodes] at hm
      by_cases hx : x = d ∧ j = (w.queues q).category
      · obtain ⟨rfl, rfl⟩ := hx
        exact hnot hm
      · exact hi.queue.notMem_other hl.ctx rfl (by tauto) hm
  | _ => rcases hk with hk | ⟨d, hk | hk⟩ <;> cases hk

theorem BusRun.lineInv {S : Set StepKind} (hr : BusRun S w w')
    (hS : S ⊆ fillKinds) (h : LineInv w c) : LineInv w' c :=
  hr.keeps (fun _ hm _ _ hv _ hs hp => hs.lineInv hv (hS hm) hp) h

theorem Booted.lineInv (h : Booted w) (c : CtxId) : LineInv w c := by
  have hnil : w.line c = [] := by
    rw [World.line, h.log]
    rfl
  refine ⟨fun q => ?_, ?_, fun k => ?_, fun k q hq => ?_, fun k => ?_⟩
  · rw [hnil]
    constructor
    · intro hq
      cases hq
    · rintro ⟨hlt, hc⟩
      rw [h.queueCtx q hlt] at hc
      cases hc
  · rw [hnil]
    exact List.nodup_nil
  · rw [hnil]
    exact List.Pairwise.nil
  · rw [h.queueNodes] at hq
    cases hq
  · rw [h.queueNodes]
    intro i _ a b ha _
    cases ha

/-! ## One service is one step of the merge -/

/-- A bus whose pipes are in order and on whose pending list nobody waits. -/
structure PipeReady (w : World) (c : CtxId) : Prop where
  queue : QueueInv w
  line : LineInv w c
  covered : Covered w
  pending : (w.ctxs c).pendingQueue = []

theorem mem_pipeLine {p : QueueId × List EventId} :
    p ∈ pipeLine w c k ↔ p.1 ∈ w.line c ∧ (w.queues p.1).category = k
      ∧ p.2 = w.contents p.1 := by
  obtain ⟨q, es⟩ := p
  rw [pipeLine, List.mem_map]
  constructor
  · rintro ⟨x, hx, he⟩
    obtain ⟨hl, hk⟩ := List.mem_filter.mp hx
    cases he
    exact ⟨hl, by simpa using hk, rfl⟩
  · rintro ⟨hl, hk, he⟩
    exact ⟨q, List.mem_filter.mpr ⟨hl, by simpa using hk⟩, Prod.ext rfl he.symm⟩

theorem LineInv.distinct (h : LineInv w c) : Distinct (pipeLine w c k) := by
  have hfst : (pipeLine w c k).map Prod.fst
      = (w.line c).filter fun q => (w.queues q).category = k := by
    rw [pipeLine, List.map_map]
    exact List.map_id _
  rw [Distinct, hfst]
  exact h.nodup.filter _

/-- The queues that hold something are the ones in the heap. -/
theorem PipeReady.mem_nodes_iff (h : PipeReady w c) :
    q ∈ w.queueNodes c k ↔ q ∈ w.line c ∧ (w.queues q).category = k ∧ w.contents q ≠ [] := by
  constructor
  · intro hm
    have hl := h.queue.linked c k q hm
    exact ⟨(h.line.registered q).mpr ⟨hl.lt, hl.ctx⟩, hl.category, hl.nonempty⟩
  · rintro ⟨hm, rfl, hne⟩
    obtain ⟨hlt, hctx⟩ := (h.line.registered q).mp hm
    rcases h.covered q c hlt hctx hne with hn | hp
    · exact hn
    · rw [h.pending] at hp
      cases hp

/-- **The heap picks the queue the merge picks.** -/
theorem PipeReady.isFirstLeast (h : PipeReady w c) {es : List EventId}
    (hq : (w.queueNodes c k).head? = some q) (hc : w.contents q = e :: es) :
    IsFirstLeast (stamp w) (pipeLine w c k) q e es := by
  have hmem : q ∈ w.queueNodes c k := List.mem_of_mem_head? hq
  obtain ⟨hline, hk, _⟩ := h.mem_nodes_iff.mp hmem
  -- a queue in line that holds something is in the heap
  have hlive : ∀ p ∈ pipeLine w c k, p.2 ≠ [] → p.1 ∈ w.queueNodes c k := by
    intro p hp hne
    obtain ⟨hpl, hpk, hpc⟩ := mem_pipeLine.mp hp
    exact h.mem_nodes_iff.mpr ⟨hpl, hpk, hpc ▸ hne⟩
  apply isFirstLeast_of_numbered (n := fun p => (w.queues p).startId)
  · exact mem_pipeLine.mpr ⟨hline, hk, hc.symm⟩
  · have hids := (h.line.ids k).filter fun q => decide ((w.queues q).category = k)
    rw [pipeLine, List.pairwise_map]
    refine hids.imp_of_mem fun {p r} hp hr hlt hpe hre => hlt ?_ ?_
    · exact hlive (p, w.contents p) (List.mem_map_of_mem hp) hpe
    · exact hlive (r, w.contents r) (List.mem_map_of_mem hr) hre
  · intro p hp y hy
    have hne : p.2 ≠ [] := fun hnil => by rw [hnil] at hy; cases hy
    have hle := (h.line.ordered k).root_le_of_mem
      (by rw [← List.head?_eq_getElem?]; exact hq) (hlive p hp hne)
    have hhead : (w.contents p.1).headD 0 = y := by
      rw [← (mem_pipeLine.mp hp).2.2, List.headD_eq_head?_getD, Option.mem_def.mp hy]
      rfl
    rw [queueKey, queueKey, Prod.Lex.toLex_le_toLex, hc, hhead] at hle
    exact hle

/-- The line of a pipe after a service. -/
theorem PipePop.pipeLine_eq (hp : PipePop w w' c k q e)
    (hline : w'.line c = (w.line c).filter (· ≠ q) ++ [q]) :
    pipeLine w' c k = (pipeLine w c k).filter (fun p => p.1 ≠ q) ++ [(q, w'.contents q)] := by
  have hcat : ∀ p, (w'.queues p).category = (w.queues p).category := hp.frame.queue_category
  have hself : (w.queues q).category = k := hp.linkable.category
  simp only [pipeLine, hline, hcat, List.filter_append, List.map_append, List.filter_filter,
    List.filter_map]
  congr 1
  · have hcomp : ∀ p, (decide ((w.queues p).category = k) && decide (p ≠ q))
        = (decide (p ≠ q) && decide ((w.queues p).category = k)) :=
      fun _ => Bool.and_comm _ _
    simp only [hcomp, Function.comp_def]
    refine List.map_congr_left (fun p hm => ?_)
    have hpq : p ≠ q := by
      have := (List.mem_filter.mp hm).2
      simp at this
      exact this.1
    rw [hp.contents_ne hpq]
  · simp [hself]

/-- The lines of the other pipes stay. -/
theorem PipePop.pipeLine_ne (hp : PipePop w w' c k q e)
    (hline : w'.line c = (w.line c).filter (· ≠ q) ++ [q]) {j : QueueCategory} (hj : j ≠ k) :
    pipeLine w' c j = pipeLine w c j := by
  have hcat : ∀ p, (w'.queues p).category = (w.queues p).category := hp.frame.queue_category
  have hself : (w.queues q).category ≠ j := fun hc => hj (hc.symm.trans hp.linkable.category)
  have hrest : ((w.line c).filter (· ≠ q)).filter (fun p => (w.queues p).category = j)
      = (w.line c).filter fun p => (w.queues p).category = j := by
    rw [List.filter_filter]
    refine List.filter_congr (fun p _ => ?_)
    by_cases hpq : p = q
    · simp [hpq, hself]
    · simp [hpq]
  simp only [pipeLine, hline, hcat, List.filter_append, hrest]
  have hnil : [q].filter (fun p => (w.queues p).category = j) = [] := by simp [hself]
  rw [hnil, List.append_nil]
  refine List.map_congr_left (fun p hm => ?_)
  have hpq : p ≠ q := by
    rintro rfl
    exact hself (by simpa using (List.mem_filter.mp hm).2)
  rw [hp.contents_ne hpq]

theorem PipeReady.pop (h : PipeReady w c) (hp : PipePop w w' c k q e) (h' : QueueInv w') :
    PipeReady w' c where
  queue := h'
  line := (h.line.pop hp h.queue).1
  covered := h.covered.pop hp
  pending := by
    rw [hp.frame.pendingQueue]
    exact h.pending

/-- **A service is one step of the merge.** -/
theorem PipeReady.mergeStep_eq (h : PipeReady w c) (hp : PipePop w w' c k q e) :
    mergeStep (stamp w) (pipeLine w c k) = some ((q, e), pipeLine w' c k) := by
  have hleast := h.isFirstLeast hp.first hp.contents
  rw [mergeStep, hleast.firstLeast_eq, hp.pipeLine_eq (h.line.pop hp h.queue).2]
  rfl

/-- **`event_pop_form_pipe` is one step of the merge.** -/
theorem PipeReady.eventPopFormPipe (h : PipeReady w c) (k : QueueCategory) :
    match mergeStep (stamp w) (pipeLine w c k) with
    | none => eventPopFormPipe w c k = some (w, none) ∧ w.queueNodes c k = []
    | some (o, s') => ∃ w', eventPopFormPipe w c k = some (w', some o.2)
        ∧ PipeReady w' c ∧ pipeLine w' c k = s' ∧ stamp w' = stamp w
        ∧ w'.log = w.log ++ [.take o.1 o.2] := by
  cases hn : w.queueNodes c k with
  | nil =>
      have hnone : mergeStep (stamp w) (pipeLine w c k) = none := by
        rw [mergeStep_none]
        intro p hp
        obtain ⟨hl, hk, hc⟩ := mem_pipeLine.mp hp
        by_contra hne
        have hm := h.mem_nodes_iff.mpr ⟨hl, hk, hc ▸ hne⟩
        rw [hn] at hm
        cases hm
      rw [hnone]
      exact ⟨h.queue.eventPopFormPipe_nil hn, rfl⟩
  | cons p ps =>
      obtain ⟨w', q, e, hcall, hpop, hq'⟩ :=
        h.queue.eventPopFormPipe (c := c) (k := k) (by rw [hn]; exact List.cons_ne_nil p ps)
      rw [h.mergeStep_eq hpop]
      refine ⟨w', hcall, h.pop hpop hq', rfl, ?_, hpop.log⟩
      funext a
      rw [stamp, hpop.frame.events, stamp]

/-! ## Draining a pipe -/

/-- Calls `event_pop_form_pipe` until it returns `NULL`. -/
def drainPipe : Nat → World → CtxId → QueueCategory → Option (World × List EventId)
  | 0, _, _, _ => none
  | n + 1, w, c, k => do
      let (w, e) ← eventPopFormPipe w c k
      match e with
      | none => some (w, [])
      | some e => do
          let (w, es) ← drainPipe n w c k
          some (w, e :: es)

/-- **The drain rule**: draining runs the merge to its end. -/
theorem PipeReady.drainPipe : ∀ (n m : Nat) {w : World}, PipeReady w c →
    size (pipeLine w c k) < n → size (pipeLine w c k) ≤ m →
    ∃ w', drainPipe n w c k
        = some (w', (merge (stamp w) m (pipeLine w c k)).map Prod.snd)
      ∧ w'.log = w.log ++ (merge (stamp w) m (pipeLine w c k)).map (fun o => .take o.1 o.2)
      ∧ w'.queueNodes c k = [] := by
  intro n
  induction n with
  | zero =>
      intro m w _ hn _
      omega
  | succ n ih =>
      intro m w h hn hm
      have hstep := h.eventPopFormPipe k
      cases hs : mergeStep (stamp w) (pipeLine w c k) with
      | none =>
          rw [hs] at hstep
          have hmerge : merge (stamp w) m (pipeLine w c k) = [] := by
            cases m with
            | zero => rfl
            | succ m => rw [merge, hs]
          rw [hmerge, Ats.drainPipe, hstep.1]
          exact ⟨w, rfl, (List.append_nil _).symm, hstep.2⟩
      | some r =>
          obtain ⟨o, s'⟩ := r
          rw [hs] at hstep
          obtain ⟨w', hcall, h', hline, hstamp, hlog⟩ := hstep
          have hsize := h.line.distinct.size_mergeStep hs
          cases m with
          | zero => omega
          | succ m =>
              obtain ⟨w'', hcall'', hlog'', hnil⟩ :=
                ih m h' (by rw [hline]; omega) (by rw [hline]; omega)
              rw [hstamp, hline] at hcall'' hlog''
              rw [merge, hs]
              refine ⟨w'', ?_, ?_, hnil⟩
              · rw [Ats.drainPipe, hcall]
                show Option.bind (Ats.drainPipe n w' c k) _ = _
                rw [hcall'']
                rfl
              · rw [hlog'', hlog, List.append_assoc]
                rfl

/-! ## The order of a pipe -/

/-- The reference: the merge of all that the queues of a category hold,
each output with its queue. -/
def pipeMerge (w : World) (c : CtxId) (k : QueueCategory) : List (QueueId × EventId) :=
  merge (stamp w) (size (pipeLine w c k)) (pipeLine w c k)

/-- **What draining a pipe yields.** -/
structure Merged (w w' : World) (c : CtxId) (k : QueueCategory) (out : List EventId) :
    Prop where
  /-- the line is the queues registered on the bus, and holds what they hold -/
  line : ∀ q es, (q, es) ∈ pipeLine w c k ↔ q < w.nextQueue ∧ (w.queues q).ctx = some c
    ∧ (w.queues q).category = k ∧ es = w.contents q
  /-- the output is that of the reference merge -/
  merge : out = (pipeMerge w c k).map Prod.snd
  /-- every event came from the queue the merge took it from -/
  served : w'.log = w.log ++ (pipeMerge w c k).map (fun o => .take o.1 o.2)
  /-- nothing is lost or made up -/
  perm : out.Perm ((pipeLine w c k).flatMap Prod.snd)
  /-- each queue keeps its order -/
  fifo : ∀ q, q < w.nextQueue → (w.queues q).ctx = some c → (w.queues q).category = k →
    ((pipeMerge w c k).filter (fun o => o.1 = q)).map Prod.snd = w.contents q
  /-- sorted queues give sorted output -/
  sorted : (∀ q, q < w.nextQueue → (w.queues q).ctx = some c → (w.queues q).category = k →
      (w.contents q).Pairwise fun a b => (w.events a).timestamp ≤ (w.events b).timestamp) →
    out.Pairwise fun a b => (w.events a).timestamp ≤ (w.events b).timestamp
  /-- the pipe is empty then -/
  drained : w'.queueNodes c k = []

theorem PipeReady.merged (h : PipeReady w c) {n : Nat} (hn : size (pipeLine w c k) < n) :
    ∃ w' out, Ats.drainPipe n w c k = some (w', out) ∧ Merged w w' c k out := by
  obtain ⟨w', hcall, hlog, hnil⟩ := h.drainPipe n _ hn (Nat.le_refl _)
  have hline : ∀ q es, (q, es) ∈ pipeLine w c k ↔ q < w.nextQueue
      ∧ (w.queues q).ctx = some c ∧ (w.queues q).category = k ∧ es = w.contents q := by
    intro q es
    rw [mem_pipeLine, h.line.registered, and_assoc]
  refine ⟨w', _, hcall, hline, rfl, hlog, ?_, ?_, ?_, hnil⟩
  · have hperm : ((pipeMerge w c k).map Prod.snd).Perm ((pipeLine w c k).flatMap Prod.snd) :=
      h.line.distinct.merge_perm _ (Nat.le_refl _)
    exact hperm
  · intro q hq hc hk
    have hm := (hline q _).mpr ⟨hq, hc, hk, rfl⟩
    have hsource : ((pipeMerge w c k).filter (fun o => o.1 = q)).map Prod.snd = w.contents q :=
      h.line.distinct.merge_source _ (Nat.le_refl _) hm
    exact hsource
  · intro hsort
    have hsorted : (pipeMerge w c k).Pairwise (fun a b => stamp w a.2 ≤ stamp w b.2) := by
      refine h.line.distinct.merge_sorted _ (fun p hp => ?_)
      obtain ⟨q, es⟩ := p
      obtain ⟨hq, hc, hk, rfl⟩ := (hline q es).mp hp
      exact hsort q hq hc hk
    rw [List.pairwise_map]
    exact hsorted

/-- The calls that register queues and fill them. -/
def BusOp.Fills (w : World) : BusOp → Prop
  | .addQueue _ q => q < w.nextQueue
  | .push q _ => q < w.nextQueue
  | _ => False

/-- **The order of a pipe.** Whatever queues were registered, and whatever
was pushed onto them before or after, once the bus has taken its pending
queues in, draining a category yields the reference merge. -/
theorem drainPipe_merged (hw : Booted w) (ops : List BusOp)
    (hops : ∀ op ∈ ops, op.Fills w) (hnew : (ops.filterMap BusOp.registers).Nodup)
    (c : CtxId) (k : QueueCategory) :
    ∃ w1 w2, runOps w ops = some (w1, []) ∧ checkPendingQueue w1 c = some w2
      ∧ ∀ n, size (pipeLine w2 c k) < n →
        ∃ w3 out, drainPipe n w2 c k = some (w3, out) ∧ Merged w2 w3 c k out := by
  have hdel : ∀ op ∈ ops, op.Delivers w ∧ op.kinds ⊆ fillKinds := by
    intro op hop
    have hf := hops op hop
    cases op with
    | addQueue d q => exact ⟨hf, by simp [BusOp.kinds, fillKinds]⟩
    | push q e => exact ⟨hf, by simp [BusOp.kinds, fillKinds]⟩
    | _ => exact absurd hf id
  obtain ⟨w1, r, hcall1, hrun1, hret⟩ := hw.inv.runOps ops hdel hnew
    (hw.unregistered (fun op hop => (hdel op hop).1))
  obtain ⟨w2, hcall2, hrun2, hpend, _⟩ := hrun1.inv.checkPendingQueue c
  have hnil : r = [] := by
    have hnone := hrun1.returned (by simp [fillKinds])
    rw [hret] at hnone
    exact List.append_cancel_left (hnone.trans (List.append_nil _).symm)
  subst hnil
  have hline1 := hrun1.lineInv (Set.Subset.refl _) (hw.lineInv c)
  have hline := hrun2.lineInv (by simp [fillKinds]) hline1
  have hready : PipeReady w2 c :=
    ⟨hrun2.inv.queue, hline, ((hw.delivering.run hrun1).run hrun2).covered, hpend⟩
  exact ⟨w1, w2, hcall1, hcall2, fun n hn => hready.merged hn⟩

/-- Two market queues with equal head timestamps, one filled before it is
registered and one after. -/
theorem drainPipe_merged_two :
    ∃ w1 w2, runOps (World.fresh .simulation 0 [(4, .market), (4, .market)]
        (fun e => ⟨1, askEvent, 0, e % 10⟩))
        [.addQueue 0 1, .push 0 3, .push 0 14, .addQueue 0 0, .push 1 13, .push 1 2]
          = some (w1, [])
      ∧ checkPendingQueue w1 0 = some w2
      ∧ ∀ n, size (pipeLine w2 0 .market) < n →
        ∃ w3 out, drainPipe n w2 0 .market = some (w3, out) ∧ Merged w2 w3 0 .market out :=
  drainPipe_merged (World.fresh_booted (by simp)) _ (by simp [BusOp.Fills, World.fresh])
    (by decide) 0 .market

end Ats
