import Ats.Core.Calls
import Ats.Lib.GuardedRun

/-!
# AttachTable: `attached` as a list

`bus_attach` appends to the table of its bus without a look at its length,
and `bus_detach` goes on past the entry that has moved to the place of a
deleted one. So the table is the list of what is attached as long as there is
room, and no two neighbours lead to the bus that is detached.
-/

namespace Ats

open GuardedRun

variable {w w' : World} {src dst : CtxId} {l : List (QueueId × CtxId)}

/-! ## What the table should be -/

/-- A call on the source bus. -/
inductive AttachOp where
  | attach (dst : CtxId)
  | detach (dst : CtxId)
deriving DecidableEq, Repr

def AttachOp.exec (src : CtxId) (w : World) : AttachOp → Option World
  | .attach dst => busAttach w src dst
  | .detach dst => busDetach w src dst

/-- The queues that are attached, each with its destination, and the queue
that the next `bus_attach` makes. -/
def AttachOp.spec (x : QueueId × List (QueueId × CtxId)) :
    AttachOp → QueueId × List (QueueId × CtxId)
  | .attach dst => (x.1 + 1, x.2 ++ [(x.1, dst)])
  | .detach dst => (x.1, x.2.filter fun y => y.2 ≠ dst)

/-- **The table of `src` is `l`**: its entries are the queues of `l`, each
registered on its destination, and no queue twice. -/
structure TableExact (w : World) (src : CtxId) (l : List (QueueId × CtxId)) : Prop where
  count : (w.ctxs src).attachedCount = l.length
  fits : l.length ≤ attachedSize
  entry : ∀ i, i < l.length → (w.ctxs src).attached i = (l[i]?).map Prod.fst
  ctx : ∀ x ∈ l, (w.queues x.1).ctx = some x.2
  nodup : (l.map Prod.fst).Nodup

/-- **The table is exact after each call**, and each call comes to its end. -/
def TablesExact (w : World) (src : CtxId) (ops : List AttachOp) : Prop :=
  ∀ p, p <+: ops → ∃ u, run (AttachOp.exec src) w p = some u
    ∧ TableExact u src (p.foldl AttachOp.spec (w.nextQueue, [])).2

/-- What a call has to find: room for an entry, or no two neighbours that
lead to `dst`. -/
def AttachOp.Fits (src : CtxId) (w : World) : AttachOp → Prop
  | .attach _ => (w.ctxs src).attachedCount < attachedSize
  | .detach dst => ∀ i q r, i + 1 < (w.ctxs src).attachedCount →
      (w.ctxs src).attached i = some q → (w.ctxs src).attached (i + 1) = some r →
      ¬ ((w.queues q).ctx = some dst ∧ (w.queues r).ctx = some dst)

/-! ## A pass that skips -/

/-- What the loop of `bus_detach` leaves of a list. -/
def detachPass (dst : CtxId) : List (QueueId × CtxId) → List (QueueId × CtxId)
  | [] => []
  | [x] => if x.2 = dst then [] else [x]
  | x :: y :: l => if x.2 = dst then y :: detachPass dst l else x :: detachPass dst (y :: l)

theorem detachPass_cons_of_ne {x : QueueId × CtxId} (h : x.2 ≠ dst)
    (l : List (QueueId × CtxId)) : detachPass dst (x :: l) = x :: detachPass dst l := by
  cases l <;> simp [detachPass, h]

theorem detachPass_sublist : ∀ (l : List (QueueId × CtxId)), (detachPass dst l).Sublist l
  | [] => List.Sublist.refl _
  | [x] => by by_cases hx : x.2 = dst <;> simp [detachPass, hx]
  | x :: y :: l => by
      by_cases hx : x.2 = dst
      · simpa [detachPass, hx] using ((detachPass_sublist l).cons_cons y).cons x
      · simpa [detachPass, hx] using (detachPass_sublist (y :: l)).cons_cons x

/-- **The pass deletes all that it should** just where no two neighbours are
to be deleted. -/
theorem detachPass_eq_filter_iff : ∀ (l : List (QueueId × CtxId)),
    detachPass dst l = l.filter (fun x => x.2 ≠ dst)
      ↔ l.IsChain fun x y => ¬ (x.2 = dst ∧ y.2 = dst)
  | [] => by simp [detachPass]
  | [x] => by by_cases hx : x.2 = dst <;> simp [detachPass, hx]
  | x :: y :: l => by
      have ih := detachPass_eq_filter_iff l
      have ih' := detachPass_eq_filter_iff (y :: l)
      by_cases hx : x.2 = dst
      · by_cases hy : y.2 = dst
        · -- the second of the two stays
          have hmem : y ∉ (x :: y :: l).filter fun x => x.2 ≠ dst := by simp [hy]
          refine iff_of_false (fun hc => hmem ?_) (by simp [hx, hy])
          rw [← hc]
          simp [detachPass, hx]
        · rw [detachPass_cons_of_ne hy] at ih'
          simp [detachPass, hx, hy] at ih' ⊢
          exact ih'
      · rw [detachPass_cons_of_ne hx]
        simp [hx] at ih' ⊢
        exact ih'

/-! ## The memory while only one bus is attached and detached -/

/-- Every pipe is empty: `heap_remove` has nothing to do. -/
def PipesEmpty (w : World) : Prop := ∀ c k, ((w.ctxs c).queueHeap k).nelts = 0

/-- The first `attached_count` entries are the queues of `l`. -/
structure TableList (w : World) (src : CtxId) (l : List (QueueId × CtxId)) : Prop where
  pipes : PipesEmpty w
  count : (w.ctxs src).attachedCount = l.length
  entry : ∀ i, i < l.length → (w.ctxs src).attached i = (l[i]?).map Prod.fst
  ctx : ∀ x ∈ l, (w.queues x.1).ctx = some x.2
  old : ∀ x ∈ l, x.1 < w.nextQueue

theorem busRemoveQueue_empty (h : PipesEmpty w) (c : CtxId) (q : QueueId) :
    busRemoveQueue w c q = some w := by
  have hempty : (w.queueMem c (w.queues q).category).heap.nelts = 0 := h c _
  rw [busRemoveQueue, queueHeapRemove, heapRemove_empty q hempty]
  simp [World.setQueueMem, World.queueMem, World.updCtx]

/-- `bus_attach` with room in the table. -/
theorem TableList.busAttach (h : TableList w src l) (hroom : l.length < attachedSize)
    (dst : CtxId) : ∃ w', busAttach w src dst = some w'
      ∧ TableList w' src (l ++ [(w.nextQueue, dst)]) ∧ w'.nextQueue = w.nextQueue + 1 := by
  have hcount := h.count
  -- the memory that `bus_add_queue` finds
  obtain ⟨w1, hw1⟩ : ∃ w1, w1 = ((((queueZalloc w).1.updCtx src fun x =>
      { x with
        attachedCount := (w.ctxs src).attachedCount + 1
        attached := Function.update x.attached (w.ctxs src).attachedCount
          (some w.nextQueue) }).updQueue w.nextQueue fun x =>
        { x with spsc := ⟨10000, fun _ => none, 0, 0⟩, ctx := none, category := .market }).note
          (.attach src w.nextQueue)) := ⟨_, rfl⟩
  have hcall : Ats.busAttach w src dst = busAddQueue w1 dst w.nextQueue := by
    rw [Ats.busAttach, if_neg (by omega), hw1]
    rfl
  have hq1 : w1.queues w.nextQueue = ⟨0, ⟨10000, fun _ => none, 0, 0⟩, none, .market, 0⟩ := by
    rw [hw1]
    simp [queueZalloc, World.note, World.updQueue, World.updCtx]
  obtain ⟨w', hw'⟩ : ∃ w', w' = queueStart ((w1.updQueue w.nextQueue fun x =>
      { x with ctx := some dst }).note (.register dst w.nextQueue)) dst w.nextQueue := ⟨_, rfl⟩
  have hadd : busAddQueue w1 dst w.nextQueue = some w' := by
    have hreg : busRegister w1 dst w.nextQueue = some w' := by
      rw [busRegister, if_pos (Or.inr (by rw [hq1])), hw']
    have hempty : eventQueueIsEmpty w' w.nextQueue = true := by
      rw [hw']
      simp [eventQueueIsEmpty, spscqIsEmpty, queueStart, World.note, World.updQueue,
        World.updCtx, hq1]
    simp [busAddQueue, hreg, hempty]
  have hself : (w'.queues w.nextQueue).ctx = some dst := by
    rw [hw']
    simp [queueStart, World.note, World.updQueue, World.updCtx]
  have hne : ∀ p, p ≠ w.nextQueue → w'.queues p = w.queues p := by
    intro p hp
    rw [hw', hw1]
    simp [queueZalloc, queueStart, World.note, World.updQueue, World.updCtx, hp]
  have htable : ∀ d, (w'.ctxs d).queueHeap = (w.ctxs d).queueHeap
      ∧ (w'.ctxs d).attachedCount = (if d = src then l.length + 1 else (w.ctxs d).attachedCount)
      ∧ (w'.ctxs d).attached = (if d = src then
          Function.update (w.ctxs src).attached l.length (some w.nextQueue)
        else (w.ctxs d).attached) := by
    intro d
    rw [hw', hw1]
    by_cases hsrc : d = src <;> by_cases hdst : d = dst <;> by_cases hsd : dst = src <;>
      simp_all [queueZalloc, queueStart, World.note, World.updQueue, World.updCtx]
  have hnext : w'.nextQueue = w.nextQueue + 1 := by
    rw [hw', hw1]
    rfl
  refine ⟨w', hcall.trans hadd, ⟨fun d k => ?_, ?_, fun i hi => ?_, fun x hx => ?_,
    fun x hx => ?_⟩, hnext⟩
  · rw [(htable d).1]
    exact h.pipes d k
  · simp [(htable src).2.1]
  · rw [(htable src).2.2, if_pos rfl]
    by_cases hlast : i = l.length
    · simp [hlast]
    · have hlt : i < l.length := by
        simp at hi
        omega
      rw [Function.update_of_ne hlast, List.getElem?_append_left hlt]
      exact h.entry i hlt
  · rcases List.mem_append.mp hx with hx | hx
    · have hold := h.old x hx
      rw [hne x.1 (Nat.ne_of_lt hold)]
      exact h.ctx x hx
    · obtain rfl := List.mem_singleton.mp hx
      exact hself
  · rw [hnext]
    rcases List.mem_append.mp hx with hx | hx
    · exact Nat.lt_succ_of_lt (h.old x hx)
    · obtain rfl := List.mem_singleton.mp hx
      exact Nat.lt_succ_self _

/-- `attachedShift` deletes one entry. -/
theorem TableList.shift (h : TableList w src l) {i : Nat} (hi : i < l.length) :
    TableList (w.updCtx src fun x => attachedShift x i) src (l.eraseIdx i) := by
  have hcount := h.count
  have hlen : (l.eraseIdx i).length = l.length - 1 := by simp [List.length_eraseIdx, hi]
  refine ⟨fun c k => ?_, ?_, fun j hj => ?_, fun x hx => h.ctx x (List.mem_of_mem_eraseIdx hx),
    fun x hx => h.old x (List.mem_of_mem_eraseIdx hx)⟩
  · have hheap : ((w.updCtx src fun x => attachedShift x i).ctxs c).queueHeap
        = (w.ctxs c).queueHeap := w.updCtx_proj src c Ctx.queueHeap (fun _ => rfl)
    rw [hheap]
    exact h.pipes c k
  · simp [World.updCtx, attachedShift, hcount, hlen]
  · rw [hlen] at hj
    simp only [World.updCtx, Function.update_self, attachedShift, hcount]
    rw [List.getElem?_eraseIdx]
    by_cases hij : j < i
    · rw [if_neg (by omega), if_pos hij]
      exact h.entry j (by omega)
    · rw [if_pos (by omega), if_neg hij]
      exact h.entry (j + 1) (by omega)

/-- **The loop of `bus_detach`** makes a pass over what it has not seen. -/
theorem TableList.busDetachLoop (dst : CtxId) : ∀ (fuel : Nat) {w : World}
    (pre suf : List (QueueId × CtxId)), TableList w src (pre ++ suf) → suf.length < fuel →
    ∃ w', busDetachLoop fuel w src dst pre.length = some w'
      ∧ TableList w' src (pre ++ detachPass dst suf) ∧ w'.nextQueue = w.nextQueue := by
  intro fuel
  induction fuel with
  | zero => exact fun _ _ _ hf => absurd hf (Nat.not_lt_zero _)
  | succ fuel ih =>
      intro w pre suf h hf
      have hcount := h.count
      cases suf with
      | nil =>
          refine ⟨w, ?_, by simpa [detachPass] using h, rfl⟩
          simp [Ats.busDetachLoop, hcount]
      | cons x suf =>
          have hlt : pre.length < (pre ++ x :: suf).length := by simp
          have hentry : (w.ctxs src).attached pre.length = some x.1 := by
            simp [h.entry pre.length hlt]
          have hctx := h.ctx x (by simp)
          by_cases hx : x.2 = dst
          · -- the entry goes, and the next one is not looked at
            have hcond : (w.queues x.1).ctx = some dst := by rw [hctx, hx]
            have hshift := h.shift hlt
            have herase : (pre ++ x :: suf).eraseIdx pre.length = pre ++ suf := by
              simp [List.eraseIdx_append_of_length_le]
            rw [herase] at hshift
            have hstep : Ats.busDetachLoop (fuel + 1) w src dst pre.length
                = Ats.busDetachLoop fuel (w.updCtx src fun x => attachedShift x pre.length) src
                    dst (pre.length + 1) := by
              simp [Ats.busDetachLoop, hcount, hentry, hcond, busRemoveQueue_empty h.pipes]
            rw [hstep]
            cases suf with
            | nil =>
                have hcount' := hshift.count
                obtain ⟨n, rfl⟩ : ∃ n, fuel = n + 1 := ⟨fuel - 1, by simp at hf; omega⟩
                refine ⟨w.updCtx src fun x => attachedShift x pre.length, ?_,
                  by simpa [detachPass, hx] using hshift, rfl⟩
                simp [Ats.busDetachLoop, hcount']
            | cons y suf =>
                obtain ⟨w', hloop, htable, hnext⟩ := ih (pre ++ [y]) suf (by simpa using hshift)
                  (by simp at hf; omega)
                refine ⟨w', by simpa using hloop, by simpa [detachPass, hx] using htable, hnext⟩
          · have hcond : ¬ (w.queues x.1).ctx = some dst := by
              rw [hctx]
              simpa using hx
            have hstep : Ats.busDetachLoop (fuel + 1) w src dst pre.length
                = Ats.busDetachLoop fuel w src dst (pre.length + 1) := by
              simp [Ats.busDetachLoop, hcount, hentry, hcond]
            obtain ⟨w', hloop, htable, hnext⟩ := ih (pre ++ [x]) suf (by simpa using h)
              (by simp at hf; omega)
            refine ⟨w', ?_, ?_, hnext⟩
            · rw [hstep]
              simpa using hloop
            · simpa [detachPass_cons_of_ne hx] using htable

/-! ## Calls -/

/-- A list is exact, and the table is that list. -/
theorem TableList.exact_iff (h : TableList w src l) (hnodup : (l.map Prod.fst).Nodup)
    {l' : List (QueueId × CtxId)} : TableExact w src l' ↔ l' = l ∧ l.length ≤ attachedSize := by
  constructor
  · intro he
    have hlen : l'.length = l.length := he.count.symm.trans h.count
    refine ⟨List.ext_getElem hlen fun i hi hi' => ?_, hlen ▸ he.fits⟩
    have hfst : l'[i].1 = l[i].1 := by
      have h1 := he.entry i hi
      have h2 := h.entry i hi'
      simpa [hi, hi'] using h1.symm.trans h2
    have hsnd : some l'[i].2 = some l[i].2 := by
      rw [← he.ctx _ (List.getElem_mem hi), ← h.ctx _ (List.getElem_mem hi'), hfst]
    exact Prod.ext hfst (Option.some.inj hsnd)
  · rintro ⟨rfl, hfits⟩
    exact ⟨h.count, hfits, h.entry, h.ctx, hnodup⟩

/-- No two neighbours of the table lead to `dst`. -/
theorem TableList.fits_detach_iff (h : TableList w src l) :
    (AttachOp.detach dst).Fits src w ↔ l.IsChain fun x y => ¬ (x.2 = dst ∧ y.2 = dst) := by
  have hctx : ∀ i (hi : i < l.length), (w.queues l[i].1).ctx = some l[i].2 :=
    fun i hi => h.ctx _ (List.getElem_mem hi)
  have hentry : ∀ i (hi : i < l.length), (w.ctxs src).attached i = some l[i].1 := by
    intro i hi
    simp [h.entry i hi, hi]
  rw [List.isChain_iff_getElem]
  constructor
  · intro hfits i hi hboth
    refine hfits i l[i].1 l[i + 1].1 (h.count ▸ hi) (hentry i (by omega)) (hentry (i + 1) hi) ?_
    simpa [hctx i (by omega), hctx (i + 1) hi] using hboth
  · intro hchain i q r hi hq hr hboth
    have hi' : i + 1 < l.length := h.count ▸ hi
    obtain rfl : l[i].1 = q := Option.some.inj ((hentry i (by omega)).symm.trans hq)
    obtain rfl : l[i + 1].1 = r := Option.some.inj ((hentry (i + 1) hi').symm.trans hr)
    refine hchain i hi' ?_
    simpa [hctx i (by omega), hctx (i + 1) hi'] using hboth

/-- `bus_detach` makes a pass over the whole table. -/
theorem TableList.busDetach (h : TableList w src l) (dst : CtxId) :
    ∃ w', busDetach w src dst = some w' ∧ TableList w' src (detachPass dst l)
      ∧ w'.nextQueue = w.nextQueue := by
  have hloop := TableList.busDetachLoop dst ((w.ctxs src).attachedCount + 1) [] l h
    (by rw [h.count]; exact Nat.lt_succ_self _)
  exact hloop

/-- **A call that finds what it needs** does to the list what it should. -/
theorem TableList.call (h : TableList w src l) (hnodup : (l.map Prod.fst).Nodup)
    (hlen : l.length ≤ attachedSize) {op : AttachOp} (hop : op.Fits src w) :
    ∃ w', op.exec src w = some w' ∧ TableList w' src (op.spec (w.nextQueue, l)).2
      ∧ w'.nextQueue = (op.spec (w.nextQueue, l)).1
      ∧ ((op.spec (w.nextQueue, l)).2.map Prod.fst).Nodup
      ∧ (op.spec (w.nextQueue, l)).2.length ≤ attachedSize := by
  cases op with
  | attach dst =>
      have hroom : l.length < attachedSize := h.count ▸ hop
      obtain ⟨w', hcall, htable, hnext⟩ := h.busAttach hroom dst
      refine ⟨w', hcall, htable, hnext, ?_, by simpa [AttachOp.spec] using Nat.succ_le_of_lt hroom⟩
      have hnew : w.nextQueue ∉ l.map Prod.fst := by
        intro hm
        obtain ⟨x, hx, hxn⟩ := List.mem_map.mp hm
        exact absurd hxn (Nat.ne_of_lt (h.old x hx))
      simpa [AttachOp.spec, List.nodup_append, hnodup] using fun a b hb hc => hnew
        (List.mem_map.mpr ⟨(a, b), hb, hc⟩)
  | detach dst =>
      obtain ⟨w', hcall, htable, hnext⟩ := h.busDetach dst
      rw [(detachPass_eq_filter_iff l).mpr (h.fits_detach_iff.mp hop)] at htable
      refine ⟨w', hcall, htable, hnext, ?_, ?_⟩
      · exact hnodup.sublist (List.filter_sublist.map Prod.fst)
      · exact (List.length_filter_le _ l).trans hlen

/-- **A call that leaves the table exact** has found what it needs. -/
theorem TableList.fits_of_exact (h : TableList w src l) (hnodup : (l.map Prod.fst).Nodup)
    {op : AttachOp} (hcall : op.exec src w = some w')
    (he : TableExact w' src (op.spec (w.nextQueue, l)).2) : op.Fits src w := by
  cases op with
  | attach dst =>
      by_contra hfull
      have hnone : Ats.busAttach w src dst = none := if_pos (Nat.le_of_not_lt hfull)
      simp [AttachOp.exec, hnone] at hcall
  | detach dst =>
      obtain ⟨v, hcall', htable, _⟩ := h.busDetach dst
      obtain rfl : v = w' := Option.some.inj (hcall'.symm.trans hcall)
      have hsub : ((detachPass dst l).map Prod.fst).Nodup :=
        hnodup.sublist ((detachPass_sublist l).map Prod.fst)
      exact h.fits_detach_iff.mpr
        ((detachPass_eq_filter_iff l).mp ((htable.exact_iff hsub).mp he).1.symm)

/-- **Every sequence of calls.** -/
theorem TableList.calls_iff : ∀ (ops : List AttachOp) {w : World} {l : List (QueueId × CtxId)},
    TableList w src l → (l.map Prod.fst).Nodup → l.length ≤ attachedSize →
    ((∀ p, p <+: ops → ∃ u, run (AttachOp.exec src) w p = some u
        ∧ TableExact u src (p.foldl AttachOp.spec (w.nextQueue, l)).2)
      ↔ Guarded (AttachOp.exec src) (AttachOp.Fits src) w ops) := by
  intro ops
  induction ops with
  | nil =>
      intro w l h hnodup hlen
      refine iff_of_true (fun p hp => ?_) trivial
      obtain rfl := List.prefix_nil.mp hp
      exact ⟨w, rfl, (h.exact_iff hnodup).mpr ⟨rfl, hlen⟩⟩
  | cons op ops ih =>
      intro w l h hnodup hlen
      constructor
      · intro hall
        obtain ⟨u, hrun, he⟩ := hall [op] (by simp)
        obtain ⟨w', hcall, hrest⟩ := run_cons_some hrun
        cases hrest
        have hop := h.fits_of_exact hnodup hcall he
        obtain ⟨v, hcall', htable, hnext, hnodup', hlen'⟩ := h.call hnodup hlen hop
        obtain rfl : v = u := Option.some.inj (hcall'.symm.trans hcall)
        refine ⟨hop, ?_⟩
        rw [hcall]
        refine (ih htable hnodup' hlen').mp fun p hp => ?_
        obtain ⟨u', hrun', he'⟩ := hall (op :: p) (by simpa using hp)
        refine ⟨u', ?_, ?_⟩
        · simpa [run, hcall] using hrun'
        · rw [hnext]
          exact he'
      · rintro ⟨hop, hrest⟩ p hp
        obtain ⟨v, hcall, htable, hnext, hnodup', hlen'⟩ := h.call hnodup hlen hop
        rw [hcall] at hrest
        rcases List.prefix_cons_iff.mp hp with rfl | ⟨q, rfl, hq⟩
        · exact ⟨w, rfl, (h.exact_iff hnodup).mpr ⟨rfl, hlen⟩⟩
        · obtain ⟨u, hrun, he⟩ := (ih htable hnodup' hlen').mpr hrest q hq
          refine ⟨u, by simpa [run, hcall] using hrun, ?_⟩
          rw [hnext] at he
          exact he

/-- Busses as `bus_init` leaves them: no pipe holds a queue and no table an
entry. -/
theorem Booted.tableList (hw : Booted w) (src : CtxId) : TableList w src [] := by
  refine ⟨fun c k => ?_, ?_, by simp, by simp, by simp⟩
  · rw [(hw.ctxs c).queueHeap]
    rfl
  · simp [(hw.ctxs src).attachedCount]

/-- **The table of a bus is exact** over a sequence of attachments and
detachments if and only if each `bus_attach` finds one of the 128 places
free, and no `bus_detach` finds two neighbours that lead to its bus. -/
theorem busAttach_tablesExact_iff (hw : Booted w) (src : CtxId) (ops : List AttachOp) :
    TablesExact w src ops ↔ Guarded (AttachOp.exec src) (AttachOp.Fits src) w ops :=
  (hw.tableList src).calls_iff ops (by simp) (by simp)

/-- Two destinations in turns, one of them attached twice. -/
theorem busAttach_tablesExact_iff_turns :
    TablesExact (.fresh .simulation 0 [] fun _ => ⟨1, askEvent, 2, 0⟩) 0
        [.attach 1, .attach 2, .attach 1, .detach 1, .attach 0]
      ↔ Guarded (AttachOp.exec 0) (AttachOp.Fits 0)
        (.fresh .simulation 0 [] fun _ => ⟨1, askEvent, 2, 0⟩)
        [.attach 1, .attach 2, .attach 1, .detach 1, .attach 0] :=
  busAttach_tablesExact_iff (World.fresh_booted (by simp)) 0 _

/-- A bus attached twice in a row: one of the two entries outlives
`bus_detach`. -/
theorem busDetach_leaves_entry :
    ¬ ∀ (w : World) (src : CtxId) (ops : List AttachOp), Booted w → TablesExact w src ops := by
  intro hall
  obtain ⟨u, hrun, he⟩ := hall (.fresh .simulation 0 [] fun _ => ⟨1, askEvent, 2, 0⟩) 0
    [.attach 1, .attach 1, .detach 1] (World.fresh_booted (by simp)) _ (List.prefix_refl _)
  have hcount : (run (AttachOp.exec 0) (.fresh .simulation 0 [] fun _ => ⟨1, askEvent, 2, 0⟩)
      [.attach 1, .attach 1, .detach 1]).map (fun u => (u.ctxs 0).attachedCount) = some 1 := by
    decide +kernel
  rw [hrun] at hcount
  have hzero : (u.ctxs 0).attachedCount = 0 := he.count
  simp [hzero] at hcount

end Ats
