import Ats.Core.Simulation
import Ats.Core.TimerBus

/-!
# TimerMerge: timers fire as a merge of arithmetic progressions

A timer stands for the sequence of its firing times. The line of a clock is
its timers in the order they were last added or fired; start ids number
that line, so `timer_heap_pop` takes the timer that the merge of the
sequences takes: the first one in line whose next time is the least.
-/

namespace Ats

open KWayMerge

variable {w w' : World} {c : CtxId} {k : ClockType} {t : EventId} {n m : Nat}
  {s : List (EventId × List Nat)} {ts : List EventId} {fs : List (EventId × Nat)}

/-! ## Adding and firing -/

/-- `bus_add_timer` for each of `ts`. -/
def addTimers (w : World) (c : CtxId) : List EventId → Option World
  | [] => some w
  | t :: ts => do
      let w ← busAddTimer w c t
      addTimers w c ts

/-- `n` times `bus_timer_dequeue`: the timers that were returned, each with
the timeout it had before. -/
def fireTimers : Nat → World → CtxId → ClockType → Option (World × List (EventId × Nat))
  | 0, w, _, _ => some (w, [])
  | n + 1, w, c, k => do
      let (w', r) ← busTimerDequeue w c k
      let (w'', fs) ← fireTimers n w' c k
      some (w'', (r.map fun t => (t, (w.reminders t).timeout)).toList ++ fs)

/-! ## The reference -/

/-- The firing times of a timer: its timeout, once if it does not repeat, or
the first `m` terms of the progression. -/
def firingSeq (timeout rep m : Nat) : List Nat :=
  if rep = 0 then [timeout] else firingTimes timeout rep m

/-- The timers in line, with `m` terms for each that repeats. -/
def timerLines (w : World) (ts : List EventId) (m : Nat) : List (EventId × List Nat) :=
  ts.map fun t => (t, firingSeq (w.reminders t).timeout (w.reminders t).repeat m)

/-- **The merge of the progressions**, of which `m` terms are taken. -/
def timerMerge (w : World) (ts : List EventId) (m : Nat) : List (EventId × Nat) :=
  merge id (size (timerLines w ts m)) (timerLines w ts m)

/-- No timeout reached 2^64 while the timers fired. -/
def FitsIn (w : World) (fs : List (EventId × Nat)) : Prop :=
  ∀ f ∈ fs, (w.reminders f.1).repeat ≠ 0 → f.2 + (w.reminders f.1).repeat < 2 ^ 64

/-- **`n` firings in order**: the first `n` of the merge, however many terms
of the progressions it is made of; sorted; and each timer at its own times,
from the first, none skipped and none repeated. -/
structure FiredInOrder (w : World) (ts : List EventId) (n : Nat) (fs : List (EventId × Nat)) :
    Prop where
  merge : ∀ m, n ≤ m → fs = (timerMerge w ts m).take n
  sorted : fs.Pairwise fun f g => f.2 ≤ g.2
  progression : ∀ m, n ≤ m → ∀ t ∈ ts, (fs.filter (fun f => f.1 = t)).map Prod.snd
    <+: firingSeq (w.reminders t).timeout (w.reminders t).repeat m

/-- The next firing of a timer, and what comes after it. -/
theorem firingSeq_succ (timeout rep m : Nat) :
    firingSeq timeout rep (m + 1)
      = timeout :: if rep = 0 then [] else firingSeq (timeout + rep) rep m := by
  unfold firingSeq
  split
  · rfl
  · rw [firingTimes, List.range_succ_eq_map, List.map_cons, List.map_map, firingTimes]
    simp only [Nat.zero_mul, Nat.add_zero, List.cons.injEq, true_and]
    refine List.map_congr_left fun i _ => ?_
    simp only [Function.comp_apply, Nat.succ_mul]
    omega

/-- The firing times of a timer never go back. -/
theorem firingSeq_sorted (timeout rep m : Nat) :
    (firingSeq timeout rep m).Pairwise (· ≤ ·) := by
  unfold firingSeq
  split
  · exact List.pairwise_singleton _ _
  · refine List.pairwise_map.mpr (List.pairwise_lt_range.imp fun {i j} hij => ?_)
    have := Nat.mul_le_mul_right rep (Nat.le_of_lt hij)
    omega

/-! ## The line of a clock -/

/-- **The timers of a clock in line**: each that is armed waits with at least
`m` terms of its times, each that is spent with none, and start ids number
the armed ones. -/
structure TimerLine (w : World) (c : CtxId) (k : ClockType) (m : Nat)
    (s : List (EventId × List Nat)) : Prop where
  timer : TimerInv w
  distinct : Distinct s
  listed : ∀ t ∈ w.timerNodes c k, ∃ xs, (t, xs) ∈ s
  waits : ∀ p ∈ s, p.1 ∈ w.timerNodes c k →
    ∃ j, m ≤ j ∧ p.2 = firingSeq (w.reminders p.1).timeout (w.reminders p.1).repeat j
  spent : ∀ p ∈ s, p.1 ∉ w.timerNodes c k → p.2 = []
  ids : s.Pairwise fun p q => p.1 ∈ w.timerNodes c k → q.1 ∈ w.timerNodes c k →
    (w.reminders p.1).startId < (w.reminders q.1).startId
  bound : ∀ t ∈ w.timerNodes c k, (w.reminders t).startId < (w.ctxs c).counter
  ordered : LevelHeap.Ordered (timerKey w) (w.timerNodes c k)

theorem TimerLine.mono (h : TimerLine w c k m s) (hn : n ≤ m) : TimerLine w c k n s :=
  { h with
    waits := fun p hp hm => by
      obtain ⟨j, hj, he⟩ := h.waits p hp hm
      exact ⟨j, Nat.le_trans hn hj, he⟩ }

/-- The head of a timer in line is its timeout, and only armed timers have
one. -/
theorem TimerLine.head (h : TimerLine w c k (m + 1) s) {p : EventId × List Nat} (hp : p ∈ s)
    {y : Nat} (hy : y ∈ p.2.head?) :
    p.1 ∈ w.timerNodes c k ∧ y = (w.reminders p.1).timeout := by
  by_cases hm : p.1 ∈ w.timerNodes c k
  · obtain ⟨j, hj, he⟩ := h.waits p hp hm
    obtain ⟨j, rfl⟩ : ∃ i, j = i + 1 := ⟨j - 1, by omega⟩
    rw [he, firingSeq_succ] at hy
    exact ⟨hm, by simpa using hy.symm⟩
  · rw [h.spent p hp hm] at hy
    cases hy

/-- **The heap picks the timer the merge picks.** -/
theorem TimerLine.isFirstLeast (h : TimerLine w c k (m + 1) s)
    (ht : (w.timerNodes c k).head? = some t) :
    ∃ j, m ≤ j ∧ IsFirstLeast id s t (w.reminders t).timeout
      (if (w.reminders t).repeat = 0 then []
        else firingSeq ((w.reminders t).timeout + (w.reminders t).repeat)
          (w.reminders t).repeat j) := by
  have hmem : t ∈ w.timerNodes c k := List.mem_of_mem_head? ht
  obtain ⟨xs, hxs⟩ := h.listed t hmem
  obtain ⟨j, hj, he⟩ := h.waits _ hxs hmem
  obtain ⟨j, rfl⟩ : ∃ i, j = i + 1 := ⟨j - 1, by omega⟩
  dsimp only at he
  rw [firingSeq_succ] at he
  subst he
  refine ⟨j, by omega, isFirstLeast_of_numbered (n := fun r => (w.reminders r).startId) hxs ?_
    fun p hp y hy => ?_⟩
  · -- a timer with times left is armed
    have hlive : ∀ p ∈ s, p.2 ≠ [] → p.1 ∈ w.timerNodes c k :=
      fun p hp hne => by_contra fun hn => hne (h.spent p hp hn)
    exact h.ids.imp_of_mem fun {p q} hp hq hlt hpe hqe => hlt (hlive p hp hpe) (hlive q hq hqe)
  · obtain ⟨hpm, rfl⟩ := h.head hp hy
    have hle := h.ordered.root_le_of_mem (by rw [← List.head?_eq_getElem?]; exact ht) hpm
    rw [timerKey, timerKey, Prod.Lex.toLex_le_toLex] at hle
    exact hle

/-- No timer waits in an empty heap. -/
theorem TimerLine.mergeStep_none (h : TimerLine w c k m s) (hnil : w.timerNodes c k = []) :
    mergeStep id s = none :=
  KWayMerge.mergeStep_none.mpr fun p hp => h.spent p hp (by simp [hnil])

/-- Firing a timer takes it to the end of the line. -/
theorem TimerLine.pop (h : TimerLine w c k (m + 1) s) (hp : TimerPop w w' c k t)
    (h' : TimerInv w') (hfit : (w.reminders t).repeat ≠ 0 →
      (w.reminders t).timeout + (w.reminders t).repeat < 2 ^ 64) :
    ∃ s', mergeStep id s = some ((t, (w.reminders t).timeout), s') ∧ TimerLine w' c k m s' := by
  obtain ⟨j, hj, hleast⟩ := h.isFirstLeast hp.first
  obtain ⟨xs, hxs⟩ : ∃ xs, xs = if (w.reminders t).repeat = 0 then []
      else firingSeq ((w.reminders t).timeout + (w.reminders t).repeat) (w.reminders t).repeat j :=
    ⟨_, rfl⟩
  rw [← hxs] at hleast
  have hstep : mergeStep id s
      = some ((t, (w.reminders t).timeout), s.filter (fun p => p.1 ≠ t) ++ [(t, xs)]) := by
    rw [mergeStep, hleast.firstLeast_eq]
    rfl
  have hnd : (w.timerNodes c k).Nodup := (h.timer.heap c k).nodup
  -- the armed timers: those from before, less `t` if it does not repeat
  have hsub : ∀ r, r ∈ w'.timerNodes c k ↔ r ∈ w.timerNodes c k
      ∧ (r = t → (w.reminders t).repeat ≠ 0) := by
    intro r
    rw [hp.nodes.mem_iff]
    split
    case isTrue hz =>
      rw [hnd.mem_erase_iff]
      constructor
      · rintro ⟨hne, hm⟩
        exact ⟨hm, fun hc => absurd hc hne⟩
      · rintro ⟨hm, hne⟩
        exact ⟨fun hc => hne hc hz, hm⟩
    case isFalse hz => exact ⟨fun hm => ⟨hm, fun _ => hz⟩, And.left⟩
  have hself : t ∈ w'.timerNodes c k → w'.reminders t = { w.reminders t with
      timeout := (w.reminders t).timeout + (w.reminders t).repeat
      startId := (w.ctxs c).counter } ∧ (w'.ctxs c).counter = (w.ctxs c).counter + 1 := by
    intro hm
    have hz := ((hsub t).mp hm).2 rfl
    rw [hp.reminder, hp.counter, if_neg hz, if_neg hz, Nat.mod_eq_of_lt (hfit hz)]
    exact ⟨rfl, rfl⟩
  have hcnt : (w.ctxs c).counter ≤ (w'.ctxs c).counter := by
    rw [hp.counter]
    split <;> omega
  have hold : ∀ p ∈ s.filter (fun p => p.1 ≠ t), p ∈ s ∧ p.1 ≠ t := by
    intro p hm
    obtain ⟨hm, hne⟩ := List.mem_filter.mp hm
    exact ⟨hm, by simpa using hne⟩
  refine ⟨_, hstep, h', h.distinct.mergeStep hstep, fun r hr => ?_, fun p hpm hm => ?_,
    fun p hpm hm => ?_, ?_, fun r hr => ?_, hp.order h.ordered⟩
  · by_cases hrt : r = t
    · exact ⟨xs, by simp [hrt]⟩
    · obtain ⟨ys, hys⟩ := h.listed r ((hsub r).mp hr).1
      exact ⟨ys, List.mem_append_left _ (List.mem_filter.mpr ⟨hys, by simpa using hrt⟩)⟩
  · rcases List.mem_append.mp hpm with hpm | hpm
    · obtain ⟨hps, hne⟩ := hold p hpm
      rw [hp.others p.1 hne]
      obtain ⟨i, hi, he⟩ := h.waits p hps ((hsub p.1).mp hm).1
      exact ⟨i, by omega, he⟩
    · obtain rfl := List.mem_singleton.mp hpm
      have hz := ((hsub t).mp hm).2 rfl
      dsimp only
      rw [(hself hm).1]
      exact ⟨j, hj, by rw [hxs, if_neg hz]⟩
  · rcases List.mem_append.mp hpm with hpm | hpm
    · obtain ⟨hps, hne⟩ := hold p hpm
      exact h.spent p hps fun hc => hm ((hsub p.1).mpr ⟨hc, fun hct => absurd hct hne⟩)
    · obtain rfl := List.mem_singleton.mp hpm
      by_cases hz : (w.reminders t).repeat = 0
      · rw [hxs, if_pos hz]
      · exact absurd ((hsub t).mpr ⟨hp.mem, fun _ => hz⟩) hm
  · rw [List.pairwise_append]
    refine ⟨(h.ids.filter _).imp_of_mem fun {p q} hpm hqm hlt hp' hq' => ?_,
      List.pairwise_singleton _ _, fun p hpm q hqm hp' hq' => ?_⟩
    · rw [hp.others p.1 (hold p hpm).2, hp.others q.1 (hold q hqm).2]
      exact hlt ((hsub p.1).mp hp').1 ((hsub q.1).mp hq').1
    · obtain rfl := List.mem_singleton.mp hqm
      rw [hp.others p.1 (hold p hpm).2, (hself hq').1]
      exact h.bound p.1 ((hsub p.1).mp hp').1
  · by_cases hrt : r = t
    · subst hrt
      rw [(hself hr).1, (hself hr).2]
      exact Nat.lt_succ_self _
    · rw [hp.others r hrt]
      exact Nat.lt_of_lt_of_le (h.bound r ((hsub r).mp hr).1) hcnt

/-- Adding a timer puts it at the end of the line. -/
theorem TimerLine.armed (h : TimerLine w c k m s)
    (ha : TimerArmed w w' c k t (w.reminders t).timeout) (h' : TimerInv w')
    (hnew : ∀ p ∈ s, p.1 ≠ t) :
    TimerLine w' c k m
      (s ++ [(t, firingSeq (w.reminders t).timeout (w.reminders t).repeat m)]) := by
  have hmem : ∀ r, r ∈ w'.timerNodes c k ↔ r = t ∨ r ∈ w.timerNodes c k := by
    intro r
    rw [ha.nodes.mem_iff, List.mem_cons]
  refine ⟨h', ?_, fun r hr => ?_, fun p hpm hm => ?_, fun p hpm hm => ?_, ?_, fun r hr => ?_,
    ha.order c k h.ordered⟩
  · rw [Distinct, List.map_append, List.nodup_append]
    refine ⟨h.distinct, List.nodup_singleton _, fun a hat b hb hab => ?_⟩
    obtain ⟨p, hp, rfl⟩ := List.mem_map.mp hat
    exact hnew p hp (hab.trans (by simpa using hb))
  · rcases (hmem r).mp hr with rfl | hr
    · exact ⟨_, List.mem_append_right _ (List.mem_singleton.mpr rfl)⟩
    · obtain ⟨xs, hxs⟩ := h.listed r hr
      exact ⟨xs, List.mem_append_left _ hxs⟩
  · rcases List.mem_append.mp hpm with hpm | hpm
    · rw [ha.others p.1 (hnew p hpm)]
      exact h.waits p hpm (((hmem p.1).mp hm).resolve_left (hnew p hpm))
    · obtain rfl := List.mem_singleton.mp hpm
      dsimp only
      rw [ha.reminder]
      exact ⟨m, Nat.le_refl m, rfl⟩
  · rcases List.mem_append.mp hpm with hpm | hpm
    · exact h.spent p hpm fun hc => hm ((hmem p.1).mpr (Or.inr hc))
    · obtain rfl := List.mem_singleton.mp hpm
      exact absurd ((hmem t).mpr (Or.inl rfl)) hm
  · rw [List.pairwise_append]
    refine ⟨h.ids.imp_of_mem fun {p q} hpm hqm hlt hp' hq' => ?_, List.pairwise_singleton _ _,
      fun p hpm q hqm hp' _ => ?_⟩
    · rw [ha.others p.1 (hnew p hpm), ha.others q.1 (hnew q hqm)]
      exact hlt (((hmem p.1).mp hp').resolve_left (hnew p hpm))
        (((hmem q.1).mp hq').resolve_left (hnew q hqm))
    · obtain rfl := List.mem_singleton.mp hqm
      rw [ha.others p.1 (hnew p hpm)]
      dsimp only
      rw [ha.reminder]
      exact h.bound p.1 (((hmem p.1).mp hp').resolve_left (hnew p hpm))
  · rw [ha.counter]
    by_cases hrt : r = t
    · rw [hrt, ha.reminder]
      exact Nat.lt_succ_self _
    · rw [ha.others r hrt]
      have := h.bound r (((hmem r).mp hr).resolve_left hrt)
      omega

/-! ## Runs -/

theorem TimerLine.nil (h : TimerInv w) (hnil : w.timerNodes c k = []) (m : Nat) :
    TimerLine w c k m [] where
  timer := h
  distinct := List.nodup_nil
  listed := by simp [hnil]
  waits := by simp
  spent := by simp
  ids := .nil
  bound := by simp [hnil]
  ordered := by
    rw [hnil]
    intro i _ a b ha _
    cases ha

theorem timerLines_congr (h : ∀ t ∈ ts, w'.reminders t = w.reminders t) (m : Nat) :
    timerLines w' ts m = timerLines w ts m :=
  List.map_congr_left fun t ht => by rw [h t ht]

/-- **Adding timers**, each of which stands nowhere, lines them up. -/
theorem TimerLine.addTimers : ∀ (ts : List EventId) {w : World} {s : List (EventId × List Nat)},
    TimerLine w c k m s → ts.Nodup →
    (∀ t ∈ ts, (∀ d j, t ∉ w.timerNodes d j) ∧ (w.reminders t).clockType = k
      ∧ ∀ p ∈ s, p.1 ≠ t) →
    ∃ w', addTimers w c ts = some w' ∧ TimerLine w' c k m (s ++ timerLines w ts m)
      ∧ ∀ r, (w'.reminders r).repeat = (w.reminders r).repeat := by
  intro ts
  induction ts with
  | nil =>
      intro w s h _ _
      refine ⟨w, rfl, ?_, fun _ => rfl⟩
      rw [timerLines, List.map_nil, List.append_nil]
      exact h
  | cons t ts ih =>
      intro w s h hnd hts
      obtain ⟨hnot, hnd⟩ := List.nodup_cons.mp hnd
      obtain ⟨hnowhere, hk, hnew⟩ := hts t List.mem_cons_self
      obtain ⟨w1, hcall, ha, h1⟩ := h.timer.busAddTimer hnowhere c
      rw [hk] at ha
      have hothers : ∀ r ∈ ts, w1.reminders r = w.reminders r := fun r hr =>
        ha.others r fun hc => hnot (hc ▸ hr)
      obtain ⟨w', hrest, h', hrep⟩ := ih (h.armed ha h1 hnew) hnd (fun r hr => by
        obtain ⟨hrn, hrk, hrs⟩ := hts r (List.mem_cons_of_mem t hr)
        have hrt : r ≠ t := fun hc => hnot (hc ▸ hr)
        refine ⟨fun d j hm => ?_, by rw [hothers r hr]; exact hrk, fun p hp => ?_⟩
        · by_cases hd : d = c ∧ j = k
          · obtain ⟨rfl, rfl⟩ := hd
            rw [ha.nodes.mem_iff, List.mem_cons] at hm
            exact hrn d j (hm.resolve_left hrt)
          · rw [ha.nodes_ne d j (by tauto)] at hm
            exact hrn d j hm
        · rcases List.mem_append.mp hp with hp | hp
          · exact hrs p hp
          · rw [List.mem_singleton.mp hp]
            exact hrt.symm)
      refine ⟨w', ?_, ?_, fun r => (hrep r).trans ?_⟩
      · rw [Ats.addTimers, hcall]
        exact hrest
      · rw [timerLines_congr hothers, List.append_assoc] at h'
        exact h'
      · rw [ha.frame.reminders]

/-- One `bus_timer_dequeue` in a run: nothing is armed, or the first timer
fires. -/
theorem TimerInv.fireTimers_succ (h : TimerInv w) (n : Nat) :
    w.timerNodes c k = [] ∧ Ats.fireTimers (n + 1) w c k = Ats.fireTimers n w c k
      ∨ ∃ t v, TimerPop w v c k t ∧ TimerInv v ∧ Ats.fireTimers (n + 1) w c k
        = (Ats.fireTimers n v c k).map fun r => (r.1, (t, (w.reminders t).timeout) :: r.2) := by
  cases hn : (w.timerNodes c k).head? with
  | none =>
      left
      have hmin := h.timerHeapPeek_eq c k
      rw [hn, timerHeapPeek] at hmin
      have hcall : busTimerDequeue w c k = some (w, none) := by
        rw [busTimerDequeue, Ats.timerHeapPop, hmin]
      refine ⟨List.head?_eq_none_iff.mp hn, ?_⟩
      rw [Ats.fireTimers, hcall]
      simp only [Option.bind_eq_bind, Option.bind_some]
      cases Ats.fireTimers n w c k <;> rfl
  | some t =>
      right
      obtain ⟨v, hcall, hpop, hv⟩ := h.timerHeapPop hn
      refine ⟨t, v, hpop, hv, ?_⟩
      rw [Ats.fireTimers, busTimerDequeue, hcall]
      simp only [Option.bind_eq_bind, Option.bind_some]
      cases Ats.fireTimers n v c k <;> rfl

/-- Firing goes through, however often. -/
theorem TimerInv.fireTimers : ∀ (n : Nat) {w : World}, TimerInv w →
    ∃ w' fs, Ats.fireTimers n w c k = some (w', fs) := by
  intro n
  induction n with
  | zero => exact fun _ => ⟨_, [], rfl⟩
  | succ n ih =>
      intro w h
      rcases h.fireTimers_succ (c := c) (k := k) n with ⟨_, hcall⟩ | ⟨t, v, _, hv, hcall⟩
      · rw [hcall]
        exact ih h
      · obtain ⟨w', fs, hrest⟩ := ih hv
        exact ⟨w', _, by rw [hcall, hrest]; rfl⟩

/-- No firing changes what a timer repeats by. -/
theorem TimerPop.repeat_eq (hp : TimerPop w w' c k t) (r : EventId) :
    (w'.reminders r).repeat = (w.reminders r).repeat := by
  rw [hp.frame.reminders]

/-- **`n` firings are `n` steps of the merge.** -/
theorem TimerLine.fireTimers : ∀ (n : Nat) {w : World} {s : List (EventId × List Nat)} {m : Nat}
    {fs : List (EventId × Nat)}, TimerLine w c k m s → n ≤ m →
    Ats.fireTimers n w c k = some (w', fs) → FitsIn w fs → fs = merge id n s := by
  intro n
  induction n with
  | zero =>
      intro w s m fs _ _ h _
      cases h
      rfl
  | succ n ih =>
      intro w s m fs hline hn h hfit
      obtain ⟨m, rfl⟩ : ∃ i, m = i + 1 := ⟨m - 1, by omega⟩
      rw [merge]
      rcases hline.timer.fireTimers_succ n with ⟨hnil, hcall⟩ | ⟨t, v, hpop, hv, hcall⟩
      · -- nothing fires any more
        have hnone := hline.mergeStep_none hnil
        have htail := ih (hline.mono (Nat.le_succ m)) (by omega) (hcall.symm.trans h) hfit
        rw [hnone, htail]
        cases n with
        | zero => rfl
        | succ n => rw [merge, hnone]
      · rw [hcall, Option.map_eq_some_iff] at h
        obtain ⟨⟨u, gs⟩, hrest, he⟩ := h
        cases he
        obtain ⟨s', hstep, hline'⟩ := hline.pop hpop hv (hfit _ List.mem_cons_self)
        have htail := ih hline' (by omega) hrest (fun f hf hz => by
          rw [hpop.repeat_eq] at hz ⊢
          exact hfit f (List.mem_cons_of_mem _ hf) hz)
        rw [hstep, htail]

/-- Who fires was armed. -/
theorem TimerInv.fireTimers_mem : ∀ (n : Nat) {w : World} {fs : List (EventId × Nat)},
    TimerInv w → Ats.fireTimers n w c k = some (w', fs) → ∀ f ∈ fs, f.1 ∈ w.timerNodes c k := by
  intro n
  induction n with
  | zero =>
      intro w fs _ h f hf
      cases h
      cases hf
  | succ n ih =>
      intro w fs hi h f hf
      rcases hi.fireTimers_succ n with ⟨_, hcall⟩ | ⟨t, v, hpop, hv, hcall⟩
      · exact ih hi (hcall.symm.trans h) f hf
      · rw [hcall, Option.map_eq_some_iff] at h
        obtain ⟨⟨u, gs⟩, hrest, he⟩ := h
        cases he
        rcases List.mem_cons.mp hf with rfl | hf
        · exact hpop.mem
        · exact hpop.timerNodes_subset c k (ih hv hrest f hf)

/-- Timers that fire once leave the heap, one at each call. -/
theorem TimerInv.fireTimers_length : ∀ (n : Nat) {w : World} {fs : List (EventId × Nat)},
    TimerInv w → (∀ t, (w.reminders t).repeat ≠ 0 → t ∉ w.timerNodes c k) →
    Ats.fireTimers n w c k = some (w', fs) →
    (w'.timerNodes c k).length = (w.timerNodes c k).length - n := by
  intro n
  induction n with
  | zero =>
      intro w fs _ _ h
      cases h
      rfl
  | succ n ih =>
      intro w fs hi honce h
      rcases hi.fireTimers_succ n with ⟨hnil, hcall⟩ | ⟨t, v, hpop, hv, hcall⟩
      · rw [ih hi honce (hcall.symm.trans h), hnil]
        simp
      · rw [hcall, Option.map_eq_some_iff] at h
        obtain ⟨⟨u, gs⟩, hrest, he⟩ := h
        cases he
        have hz : (w.reminders t).repeat = 0 := by
          by_contra hc
          exact honce t hc hpop.mem
        have hperm := hpop.nodes
        rw [if_pos hz] at hperm
        have honce' : ∀ r, (v.reminders r).repeat ≠ 0 → r ∉ v.timerNodes c k := by
          intro r hr hm
          rw [hpop.repeat_eq] at hr
          exact honce r hr (List.mem_of_mem_erase (hperm.mem_iff.mp hm))
        rw [ih hv honce' hrest, hperm.length_eq, List.length_erase_of_mem hpop.mem]
        omega

/-- Timers added to an empty clock stand in line in the order they were
added, whatever number of terms is taken of each. -/
theorem TimerInv.addTimers_lined (h : TimerInv w) (hempty : w.timerNodes c k = [])
    (hnd : ts.Nodup) (hts : ∀ t ∈ ts, Unarmed w t ∧ (w.reminders t).clockType = k) :
    ∃ w1, addTimers w c ts = some w1
      ∧ (∀ m, TimerLine w1 c k m (timerLines w ts m))
      ∧ ∀ r, (w1.reminders r).repeat = (w.reminders r).repeat := by
  have hstand : ∀ t ∈ ts, (∀ d j, t ∉ w.timerNodes d j) ∧ (w.reminders t).clockType = k
      ∧ ∀ p ∈ ([] : List (EventId × List Nat)), p.1 ≠ t := fun t ht =>
    ⟨h.nowhere_of_unarmed (hts t ht).1, (hts t ht).2, fun _ hp => by cases hp⟩
  obtain ⟨w1, hadd, _, hrep⟩ := (TimerLine.nil h hempty 0).addTimers ts hnd hstand
  refine ⟨w1, hadd, fun m => ?_, hrep⟩
  obtain ⟨v, hadd', hv, _⟩ := (TimerLine.nil h hempty m).addTimers ts hnd hstand
  cases hadd'.symm.trans hadd
  exact hv

theorem mem_timerLines (ht : t ∈ ts) (m : Nat) :
    (t, firingSeq (w.reminders t).timeout (w.reminders t).repeat m) ∈ timerLines w ts m :=
  List.mem_map.mpr ⟨t, ht, rfl⟩

section
variable (hlines : ∀ m, TimerLine w' c k m (timerLines w ts m))
  (hrep : ∀ r, (w'.reminders r).repeat = (w.reminders r).repeat)
include hlines hrep

/-- The firings of timers in line, while their timeouts fit. -/
theorem firedInOrder {w2 : World} (hfire : fireTimers n w' c k = some (w2, fs))
    (hfit : FitsIn w fs) : FiredInOrder w ts n fs := by
  have hmerge : ∀ m, n ≤ m → fs = (timerMerge w ts m).take n := by
    intro m hm
    rw [timerMerge, (hlines m).distinct.take_merge]
    exact (hlines m).fireTimers n hm hfire fun f hf hz => by
      rw [hrep] at hz ⊢
      exact hfit f hf hz
  refine ⟨hmerge, ?_, fun m hm t ht => ?_⟩
  · have hsorted : (timerMerge w ts n).Pairwise fun f g => f.2 ≤ g.2 :=
      (hlines n).distinct.merge_sorted _ (fun p hp => by
        obtain ⟨t, _, rfl⟩ := List.mem_map.mp hp
        exact firingSeq_sorted _ _ n)
    rw [hmerge n (Nat.le_refl n)]
    exact hsorted.sublist (List.take_sublist _ _)
  · rw [hmerge m hm]
    have hsource : ((timerMerge w ts m).filter (fun f => f.1 = t)).map Prod.snd
        = firingSeq (w.reminders t).timeout (w.reminders t).repeat m :=
      (hlines m).distinct.merge_source _ (Nat.le_refl _) (mem_timerLines ht m)
    rw [← hsource]
    exact ((List.take_prefix n _).filter _).map _

/-- Timers that fire once, and are called often enough, leave sorted and
leave nothing behind. -/
theorem firedOnce {w2 : World} (hfire : fireTimers n w' c k = some (w2, fs))
    (honce : ∀ t ∈ ts, (w.reminders t).repeat = 0) (hn : ts.length ≤ n) :
    fs = (ts.map fun t => (t, (w.reminders t).timeout)).insertionSort (fun f g => f.2 ≤ g.2)
      ∧ w2.timerNodes c k = [] := by
  have harmed : ∀ t ∈ w'.timerNodes c k, t ∈ ts := by
    intro t ht
    obtain ⟨xs, hxs⟩ := (hlines 0).listed t ht
    obtain ⟨r, hr, he⟩ := List.mem_map.mp hxs
    cases he
    exact hr
  have hfit : FitsIn w' fs := fun f hf hz => by
    rw [hrep] at hz
    exact absurd (honce f.1 (harmed _ ((hlines 0).timer.fireTimers_mem n hfire f hf))) hz
  have hseq : timerLines w ts n = ts.map fun t => (t, [(w.reminders t).timeout]) :=
    List.map_congr_left fun t ht => by rw [firingSeq, if_pos (honce t ht)]
  have hsize : size (timerLines w ts n) = ts.length := by
    rw [hseq, size, List.map_map]
    simp [Function.comp_def]
  have hlabelled : labelled (timerLines w ts n)
      = ts.map fun t => (t, (w.reminders t).timeout) := by
    rw [hseq, labelled, List.flatMap_map]
    exact List.map_eq_flatMap.symm
  constructor
  · rw [← hlabelled, (hlines n).fireTimers n (Nat.le_refl n) hfire hfit]
    refine (hlines n).distinct.merge_singles n (by omega) fun p hp => ?_
    rw [hseq] at hp
    obtain ⟨t, _, rfl⟩ := List.mem_map.mp hp
    exact Nat.le_refl 1
  · have hlen := (hlines 0).timer.fireTimers_length n (fun t hz hm => by
      rw [hrep] at hz
      exact hz (honce t (harmed t hm))) hfire
    have hle : (w'.timerNodes c k).length ≤ ts.length :=
      (List.subperm_of_subset ((hlines 0).timer.heap c k).nodup harmed).length_le
    exact List.length_eq_zero_iff.mp (by omega)

end

/-- **Timers fire as a sorted merge of arithmetic progressions.** Whatever
else the busses have been used for, timers that are added to a clock without
timers fire in the order of the merge of their times; if they fire once,
this is the stable sort by timeout, and no timer is left. -/
theorem fireTimers_merged {w0 : World} {setup : List BusOp} {rs : List (CtxId × EventId)}
    (hw : Booted w0) (hrun : CleanRun w0 setup) (hcall : runOps w0 setup = some (w, rs))
    (hempty : w.timerNodes c k = []) (hnd : ts.Nodup)
    (hts : ∀ t ∈ ts, Unarmed w t ∧ (w.reminders t).clockType = k) :
    ∃ w1, addTimers w c ts = some w1 ∧ ∀ n, ∃ w2 fs, fireTimers n w1 c k = some (w2, fs)
      ∧ (FitsIn w fs → FiredInOrder w ts n fs)
      ∧ ((∀ t ∈ ts, (w.reminders t).repeat = 0) → ts.length ≤ n →
        fs = (ts.map fun t => (t, (w.reminders t).timeout)).insertionSort (fun f g => f.2 ≤ g.2)
          ∧ w2.timerNodes c k = []) := by
  have hi : BusInv w := hw.inv.cleanRun_inv hrun hcall
  obtain ⟨w1, hadd, hlines, hrep⟩ := hi.timer.addTimers_lined hempty hnd hts
  refine ⟨w1, hadd, fun n => ?_⟩
  obtain ⟨w2, fs, hfire⟩ := (hlines 0).timer.fireTimers (c := c) (k := k) n
  exact ⟨w2, fs, hfire, firedInOrder hlines hrep hfire, firedOnce hlines hrep hfire⟩

/-- A bus whose client has filled in three timers: two that repeat every 3
and every 2, from 4, and one that fires once, at 6. -/
def progressionWorld : World :=
  ((repeatingWorld.updReminder 10 fun x => { x with timeout := 4, «repeat» := 2 }).updReminder 11
    fun x => { x with timeout := 6 })

theorem progressionWorld_booted : Booted progressionWorld :=
  have h := repeatingWorld_booted
  ⟨h.ctxs, h.ring, h.queueCtx, h.log⟩

/-- They have equal times at 4, at 6 and at 10. -/
theorem fireTimers_merged_three :
    ∃ w1, addTimers progressionWorld 0 [9, 10, 11] = some w1
      ∧ ∀ n, ∃ w2 fs, fireTimers n w1 0 .clockLocal = some (w2, fs)
        ∧ (FitsIn progressionWorld fs → FiredInOrder progressionWorld [9, 10, 11] n fs)
        ∧ ((∀ t ∈ [9, 10, 11], (progressionWorld.reminders t).repeat = 0) →
          [9, 10, 11].length ≤ n →
          fs = ([9, 10, 11].map fun t => (t, (progressionWorld.reminders t).timeout)).insertionSort
              (fun f g => f.2 ≤ g.2)
            ∧ w2.timerNodes 0 .clockLocal = []) :=
  @fireTimers_merged progressionWorld 0 .clockLocal [9, 10, 11] progressionWorld [] []
    progressionWorld_booted trivial rfl rfl (by decide) (by decide +kernel)

end Ats
