import Ats.Core.Removal

/-!
# Attach: `bus_attach` and `bus_detach`

`bus_detach` walks over the table `attached` while it deletes from it: the
entry that moves to the place of a deleted one is not looked at.
-/

namespace Ats

variable {w w' w'' : World} {c d src dst : CtxId} {k : QueueCategory} {q : QueueId}

/-- `attached[0 .. attached_count)` -/
def attachedQueues (w : World) (c : CtxId) : List QueueId :=
  (List.range (w.ctxs c).attachedCount).filterMap (w.ctxs c).attached

theorem SameSlots.attachedQueues (h : SameSlots w w') (c : CtxId) :
    attachedQueues w' c = attachedQueues w c := by
  rw [Ats.attachedQueues, h.count, h.attached, Ats.attachedQueues]

/-! ## The queues that `bus_detach` removes -/

/-- The queues that `bus_detach` hands to `bus_remove_queue`, from index `i`
on: what the table and the queues' `ctx` fields alone decide. -/
def detachVisits (ctxOf : QueueId → Option CtxId) (dst : CtxId) :
    Nat → Ctx → Nat → List QueueId
  | 0, _, _ => []
  | fuel + 1, x, i =>
      if i < x.attachedCount then
        match x.attached i with
        | none => []
        | some q =>
            if ctxOf q = some dst then
              q :: detachVisits ctxOf dst fuel (attachedShift x i) (i + 1)
            else detachVisits ctxOf dst fuel x (i + 1)
      else []

/-- The queues that `bus_detach(src, dst)` removes. -/
def World.detachVisits (w : World) (src dst : CtxId) : List QueueId :=
  Ats.detachVisits (fun q => (w.queues q).ctx) dst ((w.ctxs src).attachedCount + 1)
    (w.ctxs src) 0

/-- The calls of `bus_remove_queue` in `bus_detach`, from index `i` on: the
memory each of them finds, and its queue. -/
def detachRemovals : Nat → World → CtxId → CtxId → Nat → List (World × QueueId)
  | 0, _, _, _, _ => []
  | fuel + 1, w, src, dst, i =>
      if i < (w.ctxs src).attachedCount then
        match (w.ctxs src).attached i with
        | none => []
        | some q =>
            if (w.queues q).ctx = some dst then
              (w, q) :: match busRemoveQueue w dst q with
                | none => []
                | some w' =>
                    detachRemovals fuel (w'.updCtx src fun x => attachedShift x i) src dst
                      (i + 1)
            else detachRemovals fuel w src dst (i + 1)
      else []

/-- Each queue of the list is in its heap when its turn comes, or that heap
is empty by then; the queues `gone` have been removed before. -/
def DetachClean (w : World) (dst : CtxId) (gone : List QueueId) : List QueueId → Prop
  | [] => True
  | q :: qs =>
      (q ∈ w.queueNodes dst (w.queues q).category ∧ q ∉ gone
        ∨ ∀ p ∈ w.queueNodes dst (w.queues q).category, p ∈ gone)
      ∧ DetachClean w dst (q :: gone) qs

theorem detachVisits_congr {ctxOf : QueueId → Option CtxId} :
    ∀ (fuel : Nat) {x y : Ctx} (i : Nat), x.attached = y.attached →
      x.attachedCount = y.attachedCount →
      detachVisits ctxOf dst fuel x i = detachVisits ctxOf dst fuel y i := by
  intro fuel
  induction fuel with
  | zero =>
      intro x y i _ _
      rfl
  | succ fuel ih =>
      intro x y i ha hc
      have hshift : (attachedShift x i).attached = (attachedShift y i).attached
          ∧ (attachedShift x i).attachedCount = (attachedShift y i).attachedCount := by
        simp [attachedShift, ha, hc]
      rw [detachVisits, detachVisits, ha, hc, ih (i + 1) hshift.1 hshift.2,
        ih (i + 1) ha hc]

/-- Once `q` has left the pipes it counts as gone. -/
theorem DetachClean.cons_iff (hn : ∀ j p, p ∈ w'.queueNodes dst j ↔
      p ∈ w.queueNodes dst j ∧ p ≠ q) (hq : w'.queues = w.queues) :
    ∀ (qs gone : List QueueId),
      DetachClean w' dst gone qs ↔ DetachClean w dst (gone ++ [q]) qs := by
  intro qs
  induction qs with
  | nil =>
      intro gone
      exact Iff.rfl
  | cons r qs ih =>
      intro gone
      rw [DetachClean, DetachClean, ih (r :: gone), hq, hn]
      have hhead : (r ∈ w.queueNodes dst (w.queues r).category ∧ r ≠ q) ∧ r ∉ gone
          ↔ r ∈ w.queueNodes dst (w.queues r).category ∧ r ∉ gone ++ [q] := by
        rw [List.mem_append, List.mem_singleton]
        tauto
      have hall : (∀ p ∈ w'.queueNodes dst (w.queues r).category, p ∈ gone)
          ↔ ∀ p ∈ w.queueNodes dst (w.queues r).category, p ∈ gone ++ [q] := by
        constructor
        · intro h p hp
          rw [List.mem_append, List.mem_singleton]
          by_cases hpq : p = q
          · exact Or.inr hpq
          · exact Or.inl (h p ((hn _ p).mpr ⟨hp, hpq⟩))
        · intro h p hp
          obtain ⟨hp, hpq⟩ := (hn _ p).mp hp
          have hm := h p hp
          rw [List.mem_append, List.mem_singleton] at hm
          exact hm.resolve_right hpq
      rw [hhead, hall]
      exact Iff.rfl

/-! ## What `bus_detach` does -/

/-- **`bus_detach` has removed the queues `qs`** from the pipes of their bus
and rearranged the table of `src`; all else is as it was. -/
structure Detached (w w' : World) (src : CtxId) (qs : List QueueId) : Prop where
  queues : w'.queues = w.queues
  events : w'.events = w.events
  reminders : w'.reminders = w.reminders
  timerNode : w'.timerNode = w.timerNode
  nextQueue : w'.nextQueue = w.nextQueue
  log : w'.log = w.log
  nodes : ∀ d j p, p ∈ w'.queueNodes d j ↔ p ∈ w.queueNodes d j ∧ p ∉ qs
  ctxs : ∀ d, w'.ctxs d
    = { w.ctxs d with
        queueHeap := (w'.ctxs d).queueHeap
        attached := (w'.ctxs d).attached
        attachedCount := (w'.ctxs d).attachedCount }
  attached_ne : ∀ d, d ≠ src → (w'.ctxs d).attached = (w.ctxs d).attached
    ∧ (w'.ctxs d).attachedCount = (w.ctxs d).attachedCount
  attached : ∀ i, i < (w'.ctxs src).attachedCount →
    ∃ j, j < (w.ctxs src).attachedCount
      ∧ (w'.ctxs src).attached i = (w.ctxs src).attached j
  table : (attachedQueues w' src).Sublist (attachedQueues w src)

theorem Detached.refl (w : World) (src : CtxId) : Detached w w src [] where
  queues := rfl
  events := rfl
  reminders := rfl
  timerNode := rfl
  nextQueue := rfl
  log := rfl
  nodes := fun _ _ _ => by simp
  ctxs := fun _ => rfl
  attached_ne := fun _ _ => ⟨rfl, rfl⟩
  attached := fun i hi => ⟨i, hi, rfl⟩
  table := List.Sublist.refl _

theorem Detached.trans {qs rs : List QueueId} (h : Detached w w' src qs)
    (h' : Detached w' w'' src rs) : Detached w w'' src (qs ++ rs) where
  queues := h'.queues.trans h.queues
  events := h'.events.trans h.events
  reminders := h'.reminders.trans h.reminders
  timerNode := h'.timerNode.trans h.timerNode
  nextQueue := h'.nextQueue.trans h.nextQueue
  log := h'.log.trans h.log
  nodes := fun d j p => by
    rw [h'.nodes, h.nodes, List.mem_append]
    tauto
  ctxs := fun d => (h'.ctxs d).trans (by rw [h.ctxs d])
  attached_ne := fun d hd =>
    ⟨(h'.attached_ne d hd).1.trans (h.attached_ne d hd).1,
      (h'.attached_ne d hd).2.trans (h.attached_ne d hd).2⟩
  attached := fun i hi => by
    obtain ⟨j, hj, he⟩ := h'.attached i hi
    obtain ⟨m, hm, he'⟩ := h.attached j hj
    exact ⟨m, hm, he.trans he'⟩
  table := h'.table.trans h.table

/-- Where an entry of the shifted table comes from. -/
theorem attachedShift_attached {x : Ctx} {i j : Nat} (hi : i < x.attachedCount)
    (hj : j < (attachedShift x i).attachedCount) :
    ∃ m, m < x.attachedCount ∧ (attachedShift x i).attached j = x.attached m := by
  simp only [attachedShift] at hj ⊢
  by_cases h : i ≤ j ∧ j + 1 < x.attachedCount
  · exact ⟨j + 1, h.2, if_pos h⟩
  · exact ⟨j, by omega, if_neg h⟩

/-- The shift takes one entry out of the table. -/
theorem attachedShift_sublist (x : Ctx) {i : Nat} (hi : i < x.attachedCount) :
    ((List.range (attachedShift x i).attachedCount).filterMap
      (attachedShift x i).attached).Sublist
        ((List.range x.attachedCount).filterMap x.attached) := by
  have hlen : ((List.range x.attachedCount).eraseIdx i).length = x.attachedCount - 1 := by
    rw [List.length_eraseIdx, List.length_range, if_pos hi]
  have herase : (List.range (x.attachedCount - 1)).map (attachedShift x i).attached
      = ((List.range x.attachedCount).eraseIdx i).map x.attached := by
    refine List.ext_getElem (by simp [hlen]) (fun j h1 h2 => ?_)
    have hj : j < x.attachedCount - 1 := by simpa using h1
    simp only [List.getElem_map, List.getElem_range, List.getElem_eraseIdx, attachedShift]
    by_cases hij : j < i
    · rw [if_neg (by omega), dif_pos hij]
    · rw [if_pos (by omega), dif_neg hij]
  have hsplit : ∀ (f : Nat → Option QueueId) (l : List Nat),
      l.filterMap f = (l.map f).filterMap id := by
    intro f l
    simp [List.filterMap_map]
  show ((List.range (x.attachedCount - 1)).filterMap (attachedShift x i).attached).Sublist _
  rw [hsplit, herase, ← hsplit]
  exact (List.eraseIdx_sublist _ _).filterMap _

/-- A change of the attached tables only, to entries that were there. -/
theorem BusInv.updAttached (h : BusInv w) (src : CtxId) {f : Ctx → Ctx}
    (hf : ∀ x, f x = { x with
      attached := (f x).attached, attachedCount := (f x).attachedCount })
    (hatt : ∀ i, i < (f (w.ctxs src)).attachedCount →
      ∃ q, (f (w.ctxs src)).attached i = some q ∧ q < w.nextQueue
        ∧ ∃ d, (w.queues q).ctx = some d) : BusInv (w.updCtx src f) := by
  have hq : SameQueues w (w.updCtx src f) := by
    refine ⟨fun _ => rfl, fun _ => rfl, fun _ => rfl, rfl, rfl, ?_, ?_⟩
    · exact fun d => w.updCtx_proj src d Ctx.queueHeap (fun x => by rw [hf x])
    · exact fun d => w.updCtx_proj src d Ctx.pendingQueue (fun x => by rw [hf x])
  have ht : SameTimers w (w.updCtx src f) := by
    refine ⟨fun _ => rfl, fun _ => rfl, rfl, ?_⟩
    exact fun d => w.updCtx_proj src d Ctx.timerHeap (fun x => by rw [hf x])
  have hsaved : ∀ d, ((w.updCtx src f).ctxs d).savedEvent = (w.ctxs d).savedEvent :=
    fun d => w.updCtx_proj src d Ctx.savedEvent (fun x => by rw [hf x])
  have hfrom : ∀ d, ((w.updCtx src f).ctxs d).savedFrom = (w.ctxs d).savedFrom :=
    fun d => w.updCtx_proj src d Ctx.savedFrom (fun x => by rw [hf x])
  refine ⟨hq.queueInv h.queue, ht.timerInv h.timer, fun d => ?_, fun d q hd => ?_,
    fun d i hi => ?_⟩
  · rw [hsaved, hfrom]
    exact h.saved d
  · rw [hfrom] at hd
    exact h.savedFrom d q hd
  · by_cases hd : d = src
    · subst hd
      simp only [World.updCtx, Function.update_self] at hi ⊢
      exact hatt i hi
    · simp only [World.updCtx, Function.update_of_ne hd] at hi ⊢
      exact h.attached d i hi

/-- Heaps that were in order still are. -/
def OrderKept (w w' : World) : Prop :=
  ∀ d j, LevelHeap.Ordered (queueKey w) (w.queueNodes d j) →
    LevelHeap.Ordered (queueKey w') (w'.queueNodes d j)

/-- One removal of `bus_detach`: the queue, then its entry. -/
theorem BusInv.detachOne (h : BusInv w) {i : Nat} (hi : i < (w.ctxs src).attachedCount)
    (hc : (w.queues q).ctx = some dst)
    (hq : q ∈ w.queueNodes dst (w.queues q).category
      ∨ w.queueNodes dst (w.queues q).category = []) :
    ∃ w1, busRemoveQueue w dst q = some w1 ∧ QueueRemoval w w1 dst q
      ∧ BusInv (w1.updCtx src fun x => attachedShift x i)
      ∧ Detached w (w1.updCtx src fun x => attachedShift x i) src [q]
      ∧ OrderKept w (w1.updCtx src fun x => attachedShift x i)
      ∧ (w1.ctxs src).attached = (w.ctxs src).attached
      ∧ (w1.ctxs src).attachedCount = (w.ctxs src).attachedCount := by
  obtain ⟨w1, hcall, hrem, h1, hset⟩ := h.queue.removeQueue hc hq
  have hf : QueueFrame w w1 := by
    rcases hset with rfl | ⟨ys, hset⟩
    · exact QueueFrame.refl _
    · exact hset.frame
  have hqs : w1.queues = w.queues := by
    rcases hset with rfl | ⟨ys, hset⟩
    · rfl
    · exact hset.queues
  have hlog : w1.log = w.log := by
    rcases hset with rfl | ⟨ys, hset⟩
    · rfl
    · exact hset.log
  have hcnt : ∀ d, (w1.ctxs d).counter = (w.ctxs d).counter := by
    intro d
    rcases hset with rfl | ⟨ys, hset⟩
    · rfl
    · exact hset.counter d
  have hi1 : BusInv w1 := h.of_queueFrame hf h1
  have hatt : ∀ d, (w1.ctxs d).attached = (w.ctxs d).attached :=
    fun d => hf.ctx_proj d Ctx.attached (fun _ _ _ => rfl)
  have hcount : ∀ d, (w1.ctxs d).attachedCount = (w.ctxs d).attachedCount :=
    fun d => hf.ctx_proj d Ctx.attachedCount (fun _ _ _ => rfl)
  have hlt : i < (w1.ctxs src).attachedCount := by
    rw [hcount]
    exact hi
  have hnodes : ∀ d j, (w1.updCtx src fun x => attachedShift x i).queueNodes d j
      = w1.queueNodes d j := by
    have hsame : SameQueues w1 (w1.updCtx src fun x => attachedShift x i) :=
      updCtx_sameQueues w1 src (fun _ => ⟨rfl, rfl⟩)
    exact hsame.queueNodes
  have hx : ∀ d, (w1.updCtx src fun x => attachedShift x i).ctxs d
      = if d = src then attachedShift (w1.ctxs d) i else w1.ctxs d :=
    fun d => w1.updCtx_ctxs src d _
  -- the shift of the table touches no heap, so the order is that of the removal
  have hkept : OrderKept w (w1.updCtx src fun x => attachedShift x i) := by
    intro d j ho
    rw [hnodes]
    exact (hrem.order d j ho).congr fun a _ => queueKey_congr rfl rfl
  refine ⟨w1, hcall, hrem, ?_, ?_, hkept, hatt src, hcount src⟩
  · refine hi1.updAttached src (fun _ => rfl) (fun j hj => ?_)
    -- each entry that is left was an entry before
    obtain ⟨m, hm, he⟩ := attachedShift_attached hlt hj
    obtain ⟨p, hp, hrest⟩ := hi1.attached src m hm
    exact ⟨p, he.trans hp, hrest⟩
  · constructor
    case queues => exact hqs
    case events => exact hf.events
    case reminders => exact hf.reminders
    case timerNode => exact hf.timerNode
    case nextQueue => exact hf.nextQueue
    case log => exact hlog
    case nodes =>
      intro d j p
      rw [hnodes, hrem.others, List.mem_singleton]
    case ctxs =>
      intro d
      have hw := hf.ctxs d
      rw [hcnt] at hw
      rw [hx]
      split
      · rw [hw]
        rfl
      · rw [hw]
    case attached_ne =>
      intro d hd
      rw [hx, if_neg hd]
      exact ⟨hatt d, hcount d⟩
    case attached =>
      intro j hj
      rw [hx, if_pos rfl] at hj ⊢
      obtain ⟨m, hm, he⟩ := attachedShift_attached hlt hj
      exact ⟨m, by rw [← hcount]; exact hm, by rw [he, hatt]⟩
    case table =>
      rw [attachedQueues, attachedQueues, hx, if_pos rfl, ← hatt, ← hcount]
      exact attachedShift_sublist _ hlt

/-- After a removal the loop visits what is left of the table. -/
theorem detachVisits_shift {w1 : World} (dst : CtxId) (fuel i : Nat)
    (hq : (w1.updCtx src fun x => attachedShift x i).queues = w.queues)
    (hatt : (w1.ctxs src).attached = (w.ctxs src).attached)
    (hcount : (w1.ctxs src).attachedCount = (w.ctxs src).attachedCount) :
    Ats.detachVisits (fun q => ((w1.updCtx src fun x => attachedShift x i).queues q).ctx) dst fuel
        ((w1.updCtx src fun x => attachedShift x i).ctxs src) (i + 1)
      = Ats.detachVisits (fun q => (w.queues q).ctx) dst fuel (attachedShift (w.ctxs src) i)
          (i + 1) := by
  rw [hq, World.updCtx_ctxs, if_pos rfl]
  refine detachVisits_congr fuel (i + 1) ?_ ?_
  · simp [attachedShift, hatt, hcount]
  · simp [attachedShift, hcount]

/-- **The loop of `bus_detach`** goes through, and removes the queues it
visits, where each of them is in its heap or finds it empty. -/
theorem BusInv.busDetachLoop : ∀ (fuel : Nat) {w : World} (i : Nat), BusInv w →
    (w.ctxs src).attachedCount - i < fuel →
    DetachClean w dst []
      (Ats.detachVisits (fun q => (w.queues q).ctx) dst fuel (w.ctxs src) i) →
    ∃ w', busDetachLoop fuel w src dst i = some w' ∧ BusInv w'
      ∧ Detached w w' src
          (Ats.detachVisits (fun q => (w.queues q).ctx) dst fuel (w.ctxs src) i)
      ∧ OrderKept w w'
      ∧ ∀ v q, (v, q) ∈ detachRemovals fuel w src dst i → RemovesOnlyQueue v dst q := by
  intro fuel
  induction fuel with
  | zero =>
      intro w i _ hf _
      omega
  | succ fuel ih =>
      intro w i h hf hclean
      rw [Ats.detachVisits] at hclean ⊢
      rw [Ats.busDetachLoop, detachRemovals]
      by_cases hi : i < (w.ctxs src).attachedCount
      · obtain ⟨q, hq, hlt, x, hx⟩ := h.attached src i hi
        rw [if_pos hi, hq] at hclean ⊢
        rw [if_pos hi, if_pos hi]
        simp only [Option.bind_eq_bind, Option.bind_some] at hclean ⊢
        by_cases hdst : (w.queues q).ctx = some dst
        · rw [if_pos hdst] at hclean ⊢
          rw [if_pos hdst, if_pos hdst]
          obtain ⟨hhead, htail⟩ := hclean
          have hq' : q ∈ w.queueNodes dst (w.queues q).category
              ∨ w.queueNodes dst (w.queues q).category = [] := by
            rcases hhead with hm | hall
            · exact Or.inl hm.1
            · exact Or.inr (List.eq_nil_iff_forall_not_mem.mpr
                (fun p hp => List.not_mem_nil (hall p hp)))
          obtain ⟨w1, hcall, hrem, h2, hdet, hkept, hatt, hcount⟩ := h.detachOne hi hdst hq'
          have hvis := detachVisits_shift dst fuel i hdet.queues hatt hcount
          generalize hw2 : (w1.updCtx src fun x => attachedShift x i) = w2 at h2 hdet hkept hvis
          have hcount2 : (w2.ctxs src).attachedCount = (w.ctxs src).attachedCount - 1 := by
            rw [← hw2]
            simp [World.updCtx, attachedShift, hcount]
          have hclean2 : DetachClean w2 dst [] (Ats.detachVisits (fun q => (w2.queues q).ctx)
              dst fuel (w2.ctxs src) (i + 1)) := by
            rw [hvis, DetachClean.cons_iff (q := q) (w := w) _ hdet.queues]
            · exact htail
            · intro j p
              rw [hdet.nodes, List.mem_singleton]
          obtain ⟨w', hloop, h', hdet', hkept', hall⟩ :=
            ih (i + 1) h2 (by rw [hcount2]; omega) hclean2
          rw [hvis] at hdet'
          rw [hcall]
          simp only [Option.bind_some, hw2]
          refine ⟨w', hloop, h', hdet.trans hdet', fun d j ho => hkept' d j (hkept d j ho),
            fun v p hm => ?_⟩
          rcases List.mem_cons.mp hm with hm | hm
          · cases hm
            exact ⟨w1, hcall, hrem⟩
          · exact hall v p hm
        · rw [if_neg hdst] at hclean ⊢
          rw [if_neg hdst, if_neg hdst]
          exact ih (i + 1) h (by omega) hclean
      · rw [if_neg hi] at hclean ⊢
        rw [if_neg hi, if_neg hi]
        exact ⟨w, rfl, h, Detached.refl w src, fun _ _ ho => ho, fun v p hm => by cases hm⟩

/-- **Exactly then**: the first queue that is visited out of its heap, with
others still in it, is not removed cleanly. -/
theorem BusInv.detachRemovals_clean : ∀ (fuel : Nat) {w : World} (i : Nat), BusInv w →
    (∀ v q, (v, q) ∈ detachRemovals fuel w src dst i → RemovesOnlyQueue v dst q) →
    DetachClean w dst []
      (Ats.detachVisits (fun q => (w.queues q).ctx) dst fuel (w.ctxs src) i) := by
  intro fuel
  induction fuel with
  | zero =>
      intro w i _ _
      trivial
  | succ fuel ih =>
      intro w i h hall
      rw [Ats.detachVisits]
      rw [detachRemovals] at hall
      by_cases hi : i < (w.ctxs src).attachedCount
      · obtain ⟨q, hq, hlt, x, hx⟩ := h.attached src i hi
        rw [if_pos hi, hq] at hall ⊢
        simp only at hall ⊢
        by_cases hdst : (w.queues q).ctx = some dst
        · rw [if_pos hdst] at hall ⊢
          have hq' := (h.queue.removesOnlyQueue_iff hdst).mp (hall w q List.mem_cons_self)
          obtain ⟨w1, hcall, hrem, h2, hdet, hkept, hatt, hcount⟩ := h.detachOne hi hdst hq'
          rw [hcall] at hall
          simp only at hall
          have hvis := detachVisits_shift dst fuel i hdet.queues hatt hcount
          generalize hw2 : (w1.updCtx src fun x => attachedShift x i) = w2
            at h2 hdet hkept hall hvis
          have htail := ih (i + 1) h2 (fun v p hm => hall v p (List.mem_cons_of_mem _ hm))
          rw [hvis, DetachClean.cons_iff (q := q) (w := w) _ hdet.queues] at htail
          · refine ⟨?_, htail⟩
            rcases hq' with hm | hnil
            · exact Or.inl ⟨hm, List.not_mem_nil⟩
            · right
              intro p hp
              rw [hnil] at hp
              cases hp
          · intro j p
            rw [hdet.nodes, List.mem_singleton]
        · rw [if_neg hdst] at hall ⊢
          exact ih (i + 1) h hall
      · rw [if_neg hi]
        trivial

/-- `bus_detach(src, dst)` returns, and each of its calls of
`bus_remove_queue` removes only its queue. -/
def DetachesOnly (w : World) (src dst : CtxId) : Prop :=
  (∃ w', busDetach w src dst = some w')
    ∧ ∀ v q, (v, q) ∈ detachRemovals ((w.ctxs src).attachedCount + 1) w src dst 0 →
      RemovesOnlyQueue v dst q

/-- **`bus_detach`** where each queue it removes is in its heap, or finds it
empty. -/
theorem BusInv.busDetach (h : BusInv w)
    (hclean : DetachClean w dst [] (w.detachVisits src dst)) :
    ∃ w', busDetach w src dst = some w' ∧ BusInv w'
      ∧ Detached w w' src (w.detachVisits src dst) ∧ OrderKept w w' := by
  obtain ⟨w', hloop, h', hdet, hkept, _⟩ :=
    h.busDetachLoop ((w.ctxs src).attachedCount + 1) 0 (by omega) hclean
  exact ⟨w', hloop, h', hdet, hkept⟩

theorem BusInv.detachesOnly_iff (h : BusInv w) :
    DetachesOnly w src dst ↔ DetachClean w dst [] (w.detachVisits src dst) := by
  constructor
  · rintro ⟨_, hall⟩
    exact h.detachRemovals_clean _ 0 hall
  · intro hclean
    obtain ⟨w', hloop, _, _, _, hall⟩ :=
      h.busDetachLoop ((w.ctxs src).attachedCount + 1) 0 (by omega) hclean
    exact ⟨⟨w', hloop⟩, hall⟩

/-! ## What `bus_attach` does -/

/-- The capacity of an attached queue. -/
def attachedCapacity : Nat := 10000

/-- **`bus_attach`** puts a new queue `q`, empty and registered on `dst`, at
the end of the table of `src`. -/
structure QueueAttached (w w' : World) (src dst : CtxId) (q : QueueId) : Prop where
  fresh : q = w.nextQueue
  nextQueue : w'.nextQueue = w.nextQueue + 1
  others : ∀ p, p ≠ q → w'.queues p = w.queues p
  ctx : (w'.queues q).ctx = some dst
  category : (w'.queues q).category = .market
  contents : w'.contents q = []
  capacity : (w'.queues q).spsc.capacity = attachedCapacity
  refcount : (w'.queues q).refcount = 0
  events : w'.events = w.events
  sameTimers : SameTimers w w'
  reminders : w'.reminders = w.reminders
  nodes : ∀ d j, (w'.queueNodes d j).Perm (w.queueNodes d j)
  ctxs : ∀ d, w'.ctxs d
    = { w.ctxs d with
        queueHeap := (w'.ctxs d).queueHeap
        counter := (w'.ctxs d).counter
        attached :=
          if d = src then
            Function.update (w.ctxs d).attached (w.ctxs d).attachedCount (some q)
          else (w.ctxs d).attached
        attachedCount :=
          if d = src then (w.ctxs d).attachedCount + 1 else (w.ctxs d).attachedCount }
  log : w'.log = w.log ++ [.attach src q, .register dst q]

theorem QueueAttached.contents_ne (h : QueueAttached w w' src dst q) {p : QueueId}
    (hp : p ≠ q) : w'.contents p = w.contents p := by
  rw [World.contents, h.others p hp, World.contents]

/-- The tables after `bus_attach`. -/
theorem QueueAttached.table (h : QueueAttached w w' src dst q) (d : CtxId) :
    attachedQueues w' d
      = if d = src then attachedQueues w d ++ [q] else attachedQueues w d := by
  rw [attachedQueues, attachedQueues, h.ctxs]
  dsimp only
  by_cases hd : d = src
  · rw [if_pos hd, if_pos hd, if_pos hd, List.range_succ, List.filterMap_append]
    congr 1
    · refine List.filterMap_congr (fun i hlt => ?_)
      exact Function.update_of_ne (Nat.ne_of_lt (List.mem_range.mp hlt)) _ _
    · simp
  · rw [if_neg hd, if_neg hd, if_neg hd]

/-- A queue that is not allocated stands nowhere. -/
theorem QueueInv.nowhere_of_le (h : QueueInv w) (hq : w.nextQueue ≤ q) :
    (∀ d j, q ∉ w.queueNodes d j) ∧ ∀ d, q ∉ (w.ctxs d).pendingQueue := by
  constructor
  · intro d j hm
    exact absurd (h.linked d j q hm).lt (Nat.not_lt_of_le hq)
  · intro d hm
    exact absurd (h.pending d q hm).1.lt (Nat.not_lt_of_le hq)

/-- **The memory that `bus_add_queue` finds in `bus_attach`**: the new queue is
set up and in the table of `src`, and registered nowhere. -/
structure AttachSlot (w w1 : World) (src : CtxId) : Prop where
  queue : (w1.queues w.nextQueue).ctx = none ∧ (w1.queues w.nextQueue).category = .market
    ∧ (w1.queues w.nextQueue).refcount = 0
    ∧ (w1.queues w.nextQueue).spsc.capacity = attachedCapacity
  others : ∀ p, p ≠ w.nextQueue → w1.queues p = w.queues p
  contents : w1.contents w.nextQueue = []
  ctxs : ∀ d, w1.ctxs d
    = if d = src then
        { w.ctxs d with
          attached := Function.update (w.ctxs d).attached (w.ctxs d).attachedCount
            (some w.nextQueue)
          attachedCount := (w.ctxs d).attachedCount + 1 }
      else w.ctxs d
  events : w1.events = w.events
  reminders : w1.reminders = w.reminders
  timerNode : w1.timerNode = w.timerNode
  nextQueue : w1.nextQueue = w.nextQueue + 1
  log : w1.log = w.log ++ [.attach src w.nextQueue]
  nodes : ∀ d j, w1.queueNodes d j = w.queueNodes d j

/-- **`bus_attach` with room in the table** ends with `bus_add_queue`. -/
theorem BusInv.attachSlot (h : BusInv w) (dst : CtxId)
    (hroom : (w.ctxs src).attachedCount < attachedSize) :
    ∃ w1 w', AttachSlot w w1 src ∧ QueueInv w1 ∧ Ats.busAttach w src dst = some w'
      ∧ QueueAdded w1 w' dst w.nextQueue ∧ QueueInv w' := by
  have hsize : 2 ≤ attachedCapacity ∧ attachedCapacity < 2 ^ 32 := by
    simp [attachedCapacity]
  obtain ⟨ring, hring, hrep, hcap⟩ := SpscqRep.init (α := EventId) hsize.1 hsize.2
  obtain ⟨w1, hw1⟩ : ∃ w1, w1 = ((({ w with
      queues := Function.update w.queues w.nextQueue
        ⟨0, ⟨0, fun _ => none, 0, 0⟩, none, .market, 0⟩
      queueNode := Function.update w.queueNode w.nextQueue ⟨none, none, none⟩
      nextQueue := w.nextQueue + 1 } : World).updCtx src fun x =>
        { x with
          attachedCount := (w.ctxs src).attachedCount + 1
          attached := Function.update x.attached (w.ctxs src).attachedCount
            (some w.nextQueue) }).updQueue w.nextQueue fun x =>
          { x with spsc := ring, ctx := none, category := .market }).note
            (.attach src w.nextQueue) := ⟨_, rfl⟩
  have hcall : Ats.busAttach w src dst = busAddQueue w1 dst w.nextQueue := by
    rw [Ats.busAttach, if_neg (Nat.not_le_of_lt hroom)]
    show Option.bind (eventQueueInit _ w.nextQueue 10000 .market) _ = _
    rw [eventQueueInit, show spscqInit 10000 = some ring from hring, hw1]
    rfl
  have hq1 : w1.queues w.nextQueue = ⟨0, ring, none, .market, 0⟩ := by
    rw [hw1]
    simp [World.note, World.updQueue, World.updCtx]
  have hne1 : ∀ p, p ≠ w.nextQueue → w1.queues p = w.queues p := by
    intro p hp
    rw [hw1]
    simp [World.note, World.updQueue, World.updCtx, Function.update_of_ne hp]
  have hx1 : ∀ d, w1.ctxs d
      = if d = src then
          { w.ctxs d with
            attached := Function.update (w.ctxs d).attached (w.ctxs d).attachedCount
              (some w.nextQueue)
            attachedCount := (w.ctxs d).attachedCount + 1 }
        else w.ctxs d := by
    intro d
    rw [hw1]
    by_cases hd : d = src
    · subst hd
      simp [World.note, World.updQueue, World.updCtx]
    · simp [World.note, World.updQueue, World.updCtx, hd]
  have hnext1 : w1.nextQueue = w.nextQueue + 1 := by rw [hw1]; rfl
  have hcont1 : w1.contents w.nextQueue = [] := by
    rw [World.contents, hq1]
    exact hrep.toList_eq
  have hlow : ∀ p, p ≠ w.nextQueue → p < w.nextQueue + 1 → p < w.nextQueue :=
    fun p hp hlt => Nat.lt_of_le_of_ne (Nat.le_of_lt_succ hlt) hp
  obtain ⟨hnow, hpnow⟩ := h.queue.nowhere_of_le (Nat.le_refl w.nextQueue)
  obtain ⟨h1, hnodes1⟩ : QueueInv w1 ∧ ∀ d j, w1.queueNodes d j = w.queueNodes d j :=
    h.queue.touch hnow hpnow
    (fun d => by rw [hx1]; split <;> rfl) (fun d => by rw [hx1]; split <;> rfl)
    (fun p hp => by rw [hw1]; simp [World.note, World.updQueue, World.updCtx, hp]) hne1
    (by rw [hnext1]; exact Nat.le_succ _) (fun p hp hlt => hlow p hp (hnext1 ▸ hlt))
    (by rw [hcont1, hq1]; exact hrep)
  obtain ⟨w', hadd, hqa, h'⟩ := h1.busAddQueue (c := dst) (q := w.nextQueue)
    (by rw [hnext1]; exact Nat.lt_succ_self _) (Or.inr (by rw [hq1]))
    (fun d j => by rw [hnodes1]; exact hnow d j)
    (fun d => by rw [hx1]; split <;> exact hpnow d)
  refine ⟨w1, w', ⟨?_, hne1, hcont1, hx1, ?_, ?_, ?_, hnext1, ?_, hnodes1⟩, h1,
    hcall.trans hadd, hqa, h'⟩
  · rw [hq1]
    exact ⟨rfl, rfl, rfl, hcap⟩
  · rw [hw1]
    rfl
  · rw [hw1]
    rfl
  · rw [hw1]
    rfl
  · rw [hw1]
    rfl

/-- **`bus_attach` with room in the table.** -/
theorem BusInv.busAttach (h : BusInv w) (dst : CtxId)
    (hroom : (w.ctxs src).attachedCount < attachedSize) :
    ∃ w', busAttach w src dst = some w' ∧ BusInv w'
      ∧ QueueAttached w w' src dst w.nextQueue := by
  obtain ⟨w1, w', hslot, h1, hcall, hqa, h'⟩ := h.attachSlot dst hroom
  obtain ⟨_, hcat1, href1, hcap1⟩ := hslot.queue
  have hf := hqa.frame
  have hatt : QueueAttached w w' src dst w.nextQueue := by
    constructor
    case fresh => rfl
    case nextQueue => exact hf.nextQueue.trans hslot.nextQueue
    case others => intro p hp; rw [hqa.others p hp, hslot.others p hp]
    case ctx => exact hqa.ctx
    case category => rw [hqa.category, hcat1]
    case contents => rw [hqa.contents, hslot.contents]
    case capacity =>
      rw [hf.capacity w.nextQueue]
      simpa [World.updQueue] using hcap1
    case refcount =>
      rw [hf.queues w.nextQueue]
      simpa [World.updQueue] using href1
    case events => exact hf.events.trans hslot.events
    case sameTimers =>
      have ht := hf.sameTimers
      have hrem : (w1.updQueue w.nextQueue fun x => { x with ctx := some dst }).reminders
          = w.reminders := hslot.reminders
      refine ⟨fun t => ?_, fun t => ?_, ?_, fun d => ?_⟩
      · rw [ht.ctx, hrem]
      · rw [ht.clockType, hrem]
      · exact ht.node.trans hslot.timerNode
      · rw [hf.ctxs d]
        show (w1.ctxs d).timerHeap = _
        rw [hslot.ctxs]
        split <;> rfl
    case reminders => exact hf.reminders.trans hslot.reminders
    case nodes =>
      intro d j
      by_cases hd : d = dst ∧ j = .market
      · obtain ⟨rfl, rfl⟩ := hd
        have hperm := hqa.nodes
        rw [hcat1, if_pos hslot.contents] at hperm
        rw [← hslot.nodes]
        exact hperm
      · rw [hqa.nodes_ne d j (by rw [hcat1]; tauto), hslot.nodes]
    case ctxs =>
      intro d
      refine (hf.ctxs d).trans ?_
      show ({ w1.ctxs d with
        queueHeap := (w'.ctxs d).queueHeap, counter := (w'.ctxs d).counter } : Ctx) = _
      rw [hslot.ctxs]
      by_cases hd : d = src
      · rw [if_pos hd, if_pos hd, if_pos hd]
      · rw [if_neg hd, if_neg hd, if_neg hd]
    case log =>
      rw [hqa.log, hslot.log, List.append_assoc]
      rfl
  refine ⟨w', hcall, ⟨h', ?_, fun d => ?_, fun d q hq => ?_, fun d i hi => ?_⟩,
    hatt⟩
  · exact hatt.sameTimers.timerInv h.timer
  · rw [hatt.ctxs]
    exact h.saved d
  · rw [hatt.ctxs] at hq
    obtain ⟨hlt, hrest⟩ := h.savedFrom d q hq
    rw [hatt.nextQueue, hatt.others q (Nat.ne_of_lt hlt)]
    exact ⟨Nat.lt_succ_of_lt hlt, hrest⟩
  · have hold : ∀ i, i < (w.ctxs d).attachedCount →
        ∃ q, (w.ctxs d).attached i = some q ∧ q < w'.nextQueue
          ∧ ∃ x, (w'.queues q).ctx = some x := by
      intro i hi
      obtain ⟨q, hq, hlt, hx⟩ := h.attached d i hi
      refine ⟨q, hq, by rw [hatt.nextQueue]; exact Nat.lt_succ_of_lt hlt, ?_⟩
      rw [hatt.others q (Nat.ne_of_lt hlt)]
      exact hx
    rw [hatt.ctxs] at hi ⊢
    dsimp only at hi ⊢
    by_cases hd : d = src
    · rw [if_pos hd] at hi ⊢
      -- the new entry stands at the end of the table
      by_cases hlast : i = (w.ctxs d).attachedCount
      · subst hlast
        exact ⟨w.nextQueue, Function.update_self .., by
          rw [hatt.nextQueue]
          exact Nat.lt_succ_self _, dst, hatt.ctx⟩
      · rw [Function.update_of_ne hlast]
        exact hold i (by omega)
    · rw [if_neg hd] at hi ⊢
      exact hold i hi

end Ats
