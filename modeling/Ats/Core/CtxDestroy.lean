import Ats.Core.Delayed
import Ats.Core.Teardown

/-!
# CtxDestroy: what `ctx_destroy` gives back

`ctx_destroy` takes the dispatcher down first: `spscq_destroy` wants an
empty ring, and nobody has emptied it. The bus comes next, with its saved
event, its queues and its timers, and the run loop last.
-/

namespace Ats

open GuardedRun

variable {w w' w'' : World} {c : CtxId} {k : QueueCategory} {j : ClockType} {q : QueueId}
  {t e : EventId} {acts bs : List Act} {es fs xs : List EventId} {s s' s₀ : Dispatching}

/-! ## `ctx_destroy` -/

/-- `loop_destroy`, less the mutex and the condition. -/
def loopDestroy (w : World) (c : CtxId) : World :=
  w.updCtx c fun x => { x with asyncQueue := [] }

/-- `ctx_destroy` of the context `c` whose dispatcher is `s`. -/
def ctxDestroy (s : Dispatching) (c : CtxId) : Option Dispatching := do
  let s ← s.dispatcherDestroy
  let w ← busClear s.world c
  some { s with world := loopDestroy w c }

/-- The events that were unreferenced, in order. -/
def unrefs (acts : List Act) : List EventId :=
  acts.filterMap fun
    | .unref e => some e
    | _ => none

/-- The queues that were freed, in order. -/
def freedQueues (acts : List Act) : List QueueId :=
  acts.filterMap fun
    | .freeQueue q => some q
    | _ => none

@[simp] theorem unrefs_append (acts bs : List Act) :
    unrefs (acts ++ bs) = unrefs acts ++ unrefs bs :=
  List.filterMap_append

@[simp] theorem freedQueues_append (acts bs : List Act) :
    freedQueues (acts ++ bs) = freedQueues acts ++ freedQueues bs := List.filterMap_append

/-- **`ctx_destroy` is complete**: it comes to its end, and has unreferenced
once what the context held: the saved event, the timers of both heaps, the
delayed events, and what was in the queues that it freed. -/
def TornDown (s : Dispatching) (c : CtxId) : Prop :=
  ∃ s' acts, ctxDestroy s c = some s' ∧ s'.world.log = s.world.log ++ acts
    ∧ (unrefs acts).Perm ((s.world.ctxs c).savedEvent.toList
        ++ s.world.timerNodes c .clockLocal ++ s.world.timerNodes c .clockExchange
        ++ s.waiting ++ (freedQueues acts).flatMap s.world.contents)

/-! ## What a stage gives back -/

/-- **A stage of the teardown** has unreferenced `es`, and what was in the
queues that it freed. -/
structure GaveBack (w w' : World) (acts : List Act) (es : List EventId) : Prop where
  log : w'.log = w.log ++ acts
  unrefs : (unrefs acts).Perm (es ++ (freedQueues acts).flatMap w.contents)
  refcount : ∀ q, (w'.queues q).refcount ≤ (w.queues q).refcount
  alive : ∀ q ∈ freedQueues acts, 0 < (w.queues q).refcount
  dead : ∀ q ∈ freedQueues acts, (w'.queues q).refcount ≤ 0
  kept : ∀ q, q ∉ freedQueues acts → w'.contents q = w.contents q

namespace GaveBack

/-- A change that frees and unreferences nothing. -/
theorem silent (hlog : w'.log = w.log) (hq : w'.queues = w.queues) : GaveBack w w' [] [] where
  log := by simp [hlog]
  unrefs := by simp [Ats.unrefs, freedQueues]
  refcount := fun q => by rw [hq]
  alive := by simp [freedQueues]
  dead := by simp [freedQueues]
  kept := fun q _ => by rw [World.contents, hq, World.contents]

theorem trans (h : GaveBack w w' acts es) (h' : GaveBack w' w'' bs fs) :
    GaveBack w w'' (acts ++ bs) (es ++ fs) where
  log := by rw [h'.log, h.log, List.append_assoc]
  unrefs := by
    -- a queue that the second stage freed was not touched by the first
    have hcont : (freedQueues bs).flatMap w'.contents = (freedQueues bs).flatMap w.contents := by
      refine List.flatMap_congr fun q hq => h.kept q fun hc => ?_
      have := h.dead q hc
      have := h'.alive q hq
      omega
    have hperm := h.unrefs.append (hcont ▸ h'.unrefs)
    simp only [unrefs_append, freedQueues_append, List.flatMap_append]
    refine hperm.trans ?_
    simp only [List.append_assoc]
    refine List.Perm.append_left es ?_
    rw [← List.append_assoc, ← List.append_assoc]
    exact List.Perm.append_right _ List.perm_append_comm
  refcount := fun q => Int.le_trans (h'.refcount q) (h.refcount q)
  alive := fun q hq => by
    rw [freedQueues_append, List.mem_append] at hq
    rcases hq with hq | hq
    · exact h.alive q hq
    · exact Int.lt_of_lt_of_le (h'.alive q hq) (h.refcount q)
  dead := fun q hq => by
    rw [freedQueues_append, List.mem_append] at hq
    rcases hq with hq | hq
    · exact Int.le_trans (h'.refcount q) (h.dead q hq)
    · exact h'.dead q hq
  kept := fun q hq => by
    rw [freedQueues_append, List.mem_append, not_or] at hq
    rw [h'.kept q hq.2, h.kept q hq.1]

end GaveBack

/-! ## One event, one queue -/

/-- `event_unref` is recorded, and `event_free` perhaps. -/
theorem eventUnref_acts (w : World) (e : EventId) :
    ∃ acts, (eventUnref w e).log = w.log ++ acts ∧ unrefs acts = [e] ∧ freedQueues acts = [] := by
  unfold eventUnref
  dsimp only
  split
  · exact ⟨[.unref e, .free e], by simp [eventFree, World.note, World.updEvent], rfl, rfl⟩
  · exact ⟨[.unref e], rfl, rfl, rfl⟩

theorem eventUnref_gaveBack (w : World) (e : EventId) :
    ∃ acts, GaveBack w (eventUnref w e) acts [e] := by
  obtain ⟨acts, hlog, hun, hfree⟩ := eventUnref_acts w e
  have hq : (eventUnref w e).queues = w.queues := by rw [eventUnref_rest]
  exact ⟨acts, hlog, by simp [hun, hfree], fun q => by rw [hq], by simp [hfree],
    by simp [hfree], fun q _ => by rw [World.contents, hq, World.contents]⟩

/-- `event_queue_destroy` unreferences what is in the queue, in order. -/
theorem eventQueueDrain_unrefs : ∀ (xs : List EventId) (fuel : Nat) {w w' : World},
    SpscqRep (w.queues q).spsc xs → eventQueueDrain fuel w q = some w' →
    ∃ acts, w'.log = w.log ++ acts ∧ unrefs acts = xs ∧ freedQueues acts = [] := by
  apply eventQueueDrain_rule
  · intro w
    exact ⟨[], by simp, rfl, rfl⟩
  · rintro x xs w v w' hv ⟨as, hlog, hun, hfree⟩
    obtain ⟨bs, hlog', hun', hfree'⟩ := eventUnref_acts v x
    have hvlog : v.log = w.log := by rw [hv]; rfl
    refine ⟨bs ++ as, ?_, by simp [hun, hun'], by simp [hfree, hfree']⟩
    rw [hlog, hlog', hvlog, List.append_assoc]

/-- `event_queue_unref` gives back what the queue held, where it frees it. -/
theorem eventQueueUnref_gaveBack (hr : SpscqRep (w.queues q).spsc xs)
    (h : eventQueueUnref w q = some w') :
    w' = { w with queues := w'.queues, events := w'.events, log := w'.log }
      ∧ ∃ acts, GaveBack w w' acts [] := by
  obtain ⟨v, hv⟩ : ∃ v, v = w.updQueue q fun x => { x with refcount := x.refcount - 1 } :=
    ⟨_, rfl⟩
  have hvq : v.queues q = { w.queues q with refcount := (w.queues q).refcount - 1 } := by
    rw [hv]
    simp [World.updQueue]
  have hvne : ∀ p, p ≠ q → v.queues p = w.queues p := by
    intro p hp
    rw [hv]
    simp [World.updQueue, hp]
  have hvlog : v.log = w.log := by rw [hv]; rfl
  have hcall : eventQueueUnref w q
      = if (w.queues q).refcount = 1 then queueFree v q else some v := by
    rw [hv]
    rfl
  rw [hcall] at h
  split at h
  case isFalse hone =>
    -- somebody else holds the queue, so it keeps what it holds
    cases h
    refine ⟨by rw [hv]; rfl, [], by simp [hvlog], by simp [unrefs, freedQueues], fun p => ?_,
      by simp [freedQueues], by simp [freedQueues], fun p _ => ?_⟩
    · by_cases hp : p = q
      · subst hp
        rw [hvq]
        show (w.queues p).refcount - 1 ≤ _
        omega
      · rw [hvne p hp]
    · by_cases hp : p = q
      · subst hp
        rw [World.contents, hvq, World.contents]
      · rw [World.contents, hvne p hp, World.contents]
  case isTrue hone =>
    -- the last reference: `event_queue_destroy` drains the ring first
    have hrv : SpscqRep (v.queues q).spsc xs := by
      rw [hvq]
      exact hr
    obtain ⟨u, hdestroy, hnote⟩ := Option.bind_eq_some_iff.mp h
    obtain rfl : u.note (.freeQueue q) = w' := Option.some.inj hnote
    have hdrain := eventQueueDrain_of_destroy hdestroy
    obtain ⟨u', hdrain', hempty⟩ := eventQueueDrain_emptied xs
      (spscqLength (v.queues q).spsc + 1) hrv (by simp [hrv.length_eq])
    obtain rfl : u = u' := Option.some.inj (hdrain.symm.trans hdrain')
    obtain ⟨acts, hlog, hun, hfree⟩ := eventQueueDrain_unrefs xs _ hrv hdrain
    have hcont : w.contents q = xs := hr.toList_eq
    have hfreed : freedQueues (acts ++ [.freeQueue q]) = [q] := by
      rw [freedQueues_append, hfree]
      rfl
    have hunrefs : unrefs (acts ++ [.freeQueue q]) = xs := by
      rw [unrefs_append, hun]
      simp [unrefs]
    refine ⟨?_, acts ++ [.freeQueue q], ?_, ?_, fun p => ?_, ?_, ?_, fun p hp => ?_⟩
    · rw [World.note, hempty.rest, hv]
      rfl
    · show u.log ++ [.freeQueue q] = _
      rw [hlog, hvlog, List.append_assoc]
    · rw [hunrefs, hfreed]
      simp [hcont]
    · show (u.queues p).refcount ≤ _
      by_cases hp : p = q
      · subst hp
        rw [hempty.queue, hvq]
        show (w.queues p).refcount - 1 ≤ _
        omega
      · rw [hempty.others p hp, hvne p hp]
    · rw [hfreed]
      simp [hone]
    · rw [hfreed]
      intro p hp
      obtain rfl := List.mem_singleton.mp hp
      show (u.queues p).refcount ≤ 0
      rw [hempty.queue, hvq]
      simp [hone]
    · rw [hfreed] at hp
      have hne : p ≠ q := by simpa using hp
      show u.contents p = _
      rw [World.contents, hempty.others p hne, hvne p hne, World.contents]

/-! ## The heaps -/

/-- `queue_heap_clear` gives back what was in the queues that it freed. -/
theorem BusInv.queueHeapClear_gaveBack : ∀ (fuel : Nat) {w w' : World}, BusInv w →
    Ats.queueHeapClear fuel w c k = some w' →
    (∀ i, w'.timerNodes c i = w.timerNodes c i) ∧ ∃ acts, GaveBack w w' acts [] := by
  intro fuel
  induction fuel with
  | zero => intro w w' _ h; cases h
  | succ fuel ih =>
      intro w w' hi h
      have hmin := hi.queue.heapMin_eq c k
      cases hn : w.queueNodes c k with
      | nil =>
          rw [Ats.queueHeapClear, hmin, hn] at h
          cases h
          exact ⟨fun _ => rfl, [], GaveBack.silent rfl rfl⟩
      | cons q rest =>
          have hmem : q ∈ w.queueNodes c k := by rw [hn]; exact List.mem_cons_self
          obtain ⟨w1, w2, hrem, hunref, hi2, _⟩ :=
            hi.clearOne (c := c) (k := k) (q := q) (by rw [hn]; rfl)
          obtain ⟨m, _, hm⟩ := Option.bind_eq_some_iff.mp hrem
          obtain rfl : w.setQueueMem c k m = w1 := Option.some.inj hm
          rw [Ats.queueHeapClear, hmin, hn] at h
          simp only [List.head?_cons, hrem, hunref, Option.bind_eq_bind, Option.bind_some] at h
          have hring : SpscqRep ((w.setQueueMem c k m).queues q).spsc (w.contents q) :=
            hi.queue.ring q (hi.queue.linked c k q hmem).lt
          obtain ⟨hsame, as, hgave⟩ := eventQueueUnref_gaveBack hring hunref
          obtain ⟨hkeep, bs, hrest⟩ := ih hi2 h
          have hsilent : GaveBack w (w.setQueueMem c k m) [] [] := GaveBack.silent rfl rfl
          refine ⟨fun i => ?_, _, (hsilent.trans hgave).trans hrest⟩
          rw [hkeep i, hsame]
          simp [World.timerNodes, World.timerMem, World.setQueueMem, World.updCtx]

/-- `timer_heap_clear` gives back the timers of the heap. -/
theorem BusInv.timerHeapClear_gaveBack : ∀ (fuel : Nat) {w w' : World}, BusInv w →
    Ats.timerHeapClear fuel w c j = some w' →
    ∃ acts ts, GaveBack w w' acts ts ∧ ts.Perm (w.timerNodes c j) := by
  intro fuel
  induction fuel with
  | zero => intro w w' _ h; cases h
  | succ fuel ih =>
      intro w w' hi h
      have hmin := hi.timer.timerHeapPeek_eq c j
      rw [timerHeapPeek] at hmin
      cases hn : w.timerNodes c j with
      | nil =>
          rw [Ats.timerHeapClear, hmin, hn] at h
          cases h
          exact ⟨[], [], GaveBack.silent rfl rfl, .refl _⟩
      | cons t rest =>
          have ht : t ∈ w.timerNodes c j := by rw [hn]; exact List.mem_cons_self
          obtain ⟨w1, ys, hrem, hset, hperm, ht1, _⟩ := hi.timer.remove ht
          have hi1 : BusInv w1 := hi.of_timerFrame hset.frame ht1
          have hu := eventUnref_frame w1 t
          rw [Ats.timerHeapClear, hmin, hn] at h
          simp only [List.head?_cons, hrem, Option.bind_eq_bind, Option.bind_some] at h
          obtain ⟨as, hgave⟩ := eventUnref_gaveBack w1 t
          obtain ⟨bs, ts, hrest, hts⟩ := ih (hu.inv hi1) h
          have hsilent : GaveBack w w1 [] [] :=
            GaveBack.silent hset.frame.log (by rw [hset.frame.queues])
          refine ⟨_, _, (hsilent.trans hgave).trans hrest, ?_⟩
          rw [hu.timerNodes, hset.nodes] at hts
          rw [hn, List.erase_cons_head] at hperm
          simpa using (hts.trans hperm).cons t

/-- The queue heaps, one category after the other. -/
theorem BusInv.clearQueueHeaps_gaveBack (c : CtxId) : ∀ (ks : List QueueCategory) {w : World},
    BusInv w → ∃ w', ks.foldlM
        (fun w k => Ats.queueHeapClear (((w.ctxs c).queueHeap k).nelts + 1) w c k) w = some w'
      ∧ BusInv w' ∧ (∀ i, w'.timerNodes c i = w.timerNodes c i)
      ∧ ∃ acts, GaveBack w w' acts [] := by
  intro ks
  induction ks with
  | nil => exact fun {w} hi => ⟨w, rfl, hi, fun _ => rfl, [], GaveBack.silent rfl rfl⟩
  | cons k ks ih =>
      intro w hi
      obtain ⟨w1, hcall, hi1, _⟩ := hi.clearQueueHeap c k
      obtain ⟨hkeep1, as, hgave1⟩ := hi.queueHeapClear_gaveBack _ hcall
      obtain ⟨w', hrest, hi', hkeep', bs, hgave'⟩ := ih hi1
      refine ⟨w', ?_, hi', fun i => (hkeep' i).trans (hkeep1 i), _, hgave1.trans hgave'⟩
      rw [List.foldlM_cons, hcall]
      exact hrest

/-- The saved event. -/
theorem busClearSaved_gaveBack (w : World) (c : CtxId) :
    (∀ i, (busClearSaved w c).timerNodes c i = w.timerNodes c i)
      ∧ ∃ acts, GaveBack w (busClearSaved w c) acts (w.ctxs c).savedEvent.toList := by
  rw [busClearSaved]
  cases hs : (w.ctxs c).savedEvent with
  | none => exact ⟨fun _ => rfl, [], GaveBack.silent rfl rfl⟩
  | some e =>
      obtain ⟨acts, hgave⟩ := eventUnref_gaveBack w e
      have hsilent : GaveBack (eventUnref w e) ((eventUnref w e).updCtx c fun x =>
          { x with savedEvent := none, savedFrom := none }) [] [] := GaveBack.silent rfl rfl
      refine ⟨fun i => ?_, _, by simpa using hgave.trans hsilent⟩
      rw [← (eventUnref_frame w e).timerNodes]
      simp [World.timerNodes, World.timerMem, World.updCtx]

/-- **`bus_clear` of a bus with no attachments** comes to its end, and gives
back its saved event and its timers. -/
theorem BusInv.busClear_gaveBack (hi : BusInv w) (hatt : (w.ctxs c).attachedCount = 0) :
    ∃ w' acts es, Ats.busClear w c = some w' ∧ GaveBack w w' acts es
      ∧ es.Perm ((w.ctxs c).savedEvent.toList ++ w.timerNodes c .clockLocal
        ++ w.timerNodes c .clockExchange) := by
  have hi0 := (hi.busClearSaved c).1
  obtain ⟨hkeep0, as0, hgave0⟩ := busClearSaved_gaveBack w c
  obtain ⟨w1, hcall1, hi1, hkeep1, as1, hgave1⟩ :=
    hi0.clearQueueHeaps_gaveBack c [.market, .execution, .service, .command]
  obtain ⟨w2, hcall2, hc2⟩ := hi1.timerHeapClear (c := c) (k := .clockLocal)
    (((w1.ctxs c).timerHeap .clockLocal).nelts + 1)
    (by rw [hi1.timer.nelts]; exact Nat.lt_succ_self _)
  obtain ⟨w3, hcall3, hc3⟩ := hc2.inv.timerHeapClear (c := c) (k := .clockExchange)
    (((w2.ctxs c).timerHeap .clockExchange).nelts + 1)
    (by rw [hc2.inv.timer.nelts]; exact Nat.lt_succ_self _)
  obtain ⟨as2, ts2, hgave2, hperm2⟩ := hi1.timerHeapClear_gaveBack _ hcall2
  obtain ⟨as3, ts3, hgave3, hperm3⟩ := hc2.inv.timerHeapClear_gaveBack _ hcall3
  have hheaps : Ats.busClearHeaps w c = some w3 := by
    rw [Ats.busClearHeaps, hcall1]
    simp only [List.foldlM_cons, List.foldlM_nil, hcall2, hcall3, Option.bind_eq_bind,
      Option.bind_some]
    rfl
  have hzero : (w3.ctxs c).attachedCount = 0 := by
    obtain ⟨v, hv, hcleared⟩ := hi.busClearHeaps c
    obtain rfl : v = w3 := Option.some.inj (hv.symm.trans hheaps)
    exact (hcleared.count c).trans hatt
  refine ⟨w3, _, _, ?_, ((hgave0.trans hgave1).trans hgave2).trans hgave3, ?_⟩
  · rw [busClear_eq, hheaps, Option.bind_some]
    refine busClearTable_of ?_ hzero
    rw [busClearAttached, if_neg (by rw [hzero]; exact Nat.lt_irrefl 0)]
  · rw [hkeep1, hkeep0] at hperm2
    rw [hc2.nodes_ne c .clockExchange (Or.inr (by decide)), hkeep1, hkeep0] at hperm3
    simpa using ((List.Perm.refl _).append hperm2).append hperm3

/-! ## `ctx_destroy` after any run -/

open Dispatching

/-- **A context without attachments is torn down** just where no delayed
event waits. -/
theorem BusInv.tornDown_iff (hi : BusInv s.world) (hr : s.Ringed)
    (hatt : (s.world.ctxs c).attachedCount = 0) : TornDown s c ↔ s.waiting = [] := by
  constructor
  · rintro ⟨s', acts, hcall, _⟩
    obtain ⟨v, hdestroy, _⟩ := Option.bind_eq_some_iff.mp hcall
    obtain ⟨⟨⟩, hring, _⟩ := Option.bind_eq_some_iff.mp hdestroy
    exact hr.destroy_iff.mp hring
  · intro hempty
    obtain ⟨w', acts, es, hclear, hgave, hperm⟩ := hi.busClear_gaveBack hatt
    have hdestroy : s.dispatcherDestroy = some s := by
      simp [dispatcherDestroy, hr.destroy_iff.mpr hempty]
    refine ⟨{ s with world := loopDestroy w' c }, acts, ?_, hgave.log, ?_⟩
    · simp [ctxDestroy, hdestroy, hclear]
    · rw [hempty, List.append_nil]
      exact hgave.unrefs.trans (hperm.append_right _)

/-- A step of a context: where client code has control it may call a bus, and
the dispatcher goes its way. -/
inductive CtxOp where
  | call (op : BusOp)
  | dispatcher (op : DispatchOp)

def CtxOp.exec (s : Dispatching) : CtxOp → Option Dispatching
  | .call op =>
      if s.inClient then (op.exec s.world).map fun r => { s with world := r.1 } else none
  | .dispatcher op => s.step op

/-- Only events are written to. -/
def WritesEvents (w w' : World) : Prop := w' = { w with events := w'.events, log := w'.log }

/-- A filter that writes to events only. -/
def TameFilter (d : Dispatcher) : Prop :=
  ∀ f, d.eventFilter = some f → ∀ w e w' r, f w e = some (w', r) → WritesEvents w w'

/-- The calls on the busses are clean, and client code writes to events
only of its own. -/
def CtxOp.Clean (s : Dispatching) : CtxOp → Prop
  | .call op => op.Clean s.world
  | .dispatcher (.client (.write w)) => WritesEvents s.world w
  | .dispatcher (.client (.setFilter filter)) =>
      TameFilter (dispatcherSetEventFilter s.fields filter)
  | .dispatcher _ => True

theorem WritesEvents.refl (w : World) : WritesEvents w w := rfl

theorem WritesEvents.trans (h : WritesEvents w w') (h' : WritesEvents w' w'') :
    WritesEvents w w'' := by
  rw [WritesEvents, h', h]

theorem WritesEvents.eventUnref (w : World) (e : EventId) : WritesEvents w (eventUnref w e) :=
  eventUnref_rest w e

theorem WritesEvents.inv (h : WritesEvents w w') (hi : BusInv w) : BusInv w' := by
  have hctxs : w'.ctxs = w.ctxs := by rw [h]
  have hqueues : w'.queues = w.queues := by rw [h]
  have hreminders : w'.reminders = w.reminders := by rw [h]
  exact hi.of_sameQueues
    ⟨fun _ => by rw [hqueues], fun _ => by rw [hqueues], fun _ => by rw [hqueues], by rw [h],
      by rw [h], fun _ => by rw [hctxs], fun _ => by rw [hctxs]⟩
    ⟨fun _ => by rw [hreminders], fun _ => by rw [hreminders], by rw [h], fun _ => by rw [hctxs]⟩
    ⟨fun _ => by rw [hctxs], fun _ => by rw [hctxs], fun _ => by rw [hctxs],
      fun _ => by rw [hctxs]⟩

/-- `dispatch_event` writes to events only, up to its handler. -/
theorem enter_writes (htame : TameFilter s.fields) (h : s.enter e = some s') :
    WritesEvents s.world s'.world ∧ s'.fields = s.fields := by
  simp only [enter, Option.bind_eq_bind, Option.bind_eq_some_iff] at h
  obtain ⟨⟨w, r⟩, hfilter, h⟩ := h
  have hw : WritesEvents s.world w := by
    cases hf : s.fields.eventFilter with
    | none =>
        simp only [dispatchFilter, hf, Option.some.injEq, Prod.mk.injEq] at hfilter
        rw [← hfilter.1]
        exact .refl _
    | some f =>
        simp only [dispatchFilter, hf] at hfilter
        exact htame f hf _ _ _ _ hfilter
  cases r with
  | none =>
      cases h
      exact ⟨hw, rfl⟩
  | some x =>
      obtain rfl := Option.some.inj h
      simp only [handle]
      split
      · exact ⟨hw.trans (.eventUnref w x), rfl⟩
      · exact ⟨hw, rfl⟩

/-- So does every clean step of the dispatcher. -/
theorem step_writes {op : DispatchOp} (htame : TameFilter s.fields)
    (hop : (CtxOp.dispatcher op).Clean s) (h : s.step op = some s') :
    WritesEvents s.world s'.world ∧ TameFilter s'.fields := by
  have hsame : WritesEvents s.world s'.world ∧ s'.fields = s.fields →
      WritesEvents s.world s'.world ∧ TameFilter s'.fields := fun ⟨hw, hf⟩ => ⟨hw, hf ▸ htame⟩
  cases op with
  | client op =>
      simp only [step] at h
      split at h
      case isFalse => cases h
      cases op with
      | dispatch e => exact hsame (enter_writes htame h)
      | delay e => cases h; exact hsame ⟨.refl _, rfl⟩
      | emit => cases h; exact hsame ⟨.refl _, rfl⟩
      | write w => cases h; exact ⟨hop, htame⟩
      | setFilter filter => cases h; exact ⟨.refl _, hop⟩
      | setDispatch type dispatch =>
          obtain ⟨d, hd, rfl⟩ := Option.map_eq_some_iff.mp h
          have hfilter : d.eventFilter = s.fields.eventFilter := by
            simp only [dispatcherSetEventDispatch] at hd
            split at hd
            · cases hd; rfl
            · cases hd
          exact ⟨.refl _, fun f hf => htame f (hfilter ▸ hf)⟩
  | ret =>
      simp only [step] at h
      split at h
      case h_2 => cases h
      cases h
      exact hsame ⟨.eventUnref _ _, rfl⟩
  | pop =>
      simp only [step] at h
      split at h
      case h_2 => cases h
      rcases emitTurn_cases h with ⟨_, rfl⟩ | ⟨e, _, henter⟩
      · exact hsame ⟨.refl _, rfl⟩
      · have hwrites := enter_writes (s := { s with
          buffedEventQueue := (spscqPop s.buffedEventQueue).1
          emitted := s.emitted ++ [e] }) htame henter
        exact hsame hwrites

/-- **A well-formed context.** -/
structure CtxInv (s : Dispatching) : Prop where
  bus : BusInv s.world
  ring : s.Ringed
  tame : TameFilter s.fields

/-- **A clean step keeps a context well formed.** -/
theorem CtxInv.step (h : CtxInv s) {op : CtxOp} (hop : op.Clean s)
    (hexec : op.exec s = some s') : CtxInv s' := by
  cases op with
  | call op =>
      simp only [CtxOp.exec] at hexec
      split at hexec
      case isFalse => cases hexec
      obtain ⟨⟨w, r⟩, hcall, rfl⟩ := Option.map_eq_some_iff.mp hexec
      obtain ⟨w', r', hcall', hi', _⟩ := h.bus.call hop
      cases hcall'.symm.trans hcall
      exact ⟨hi', h.ring, h.tame⟩
  | dispatcher op =>
      obtain ⟨hw, htame⟩ := step_writes h.tame hop hexec
      exact ⟨hw.inv h.bus, (step_missing h.ring hexec).1, htame⟩

/-- **`ctx_destroy` of a context without attachments** is safe and complete
after any clean run of calls on the busses and the dispatcher, if and only if
no delayed event waits then. -/
theorem ctxDestroy_tornDown_iff (hw : Booted s.world) (hfilter : s.fields.eventFilter = none)
    (hinit : dispatcherInit s = some s₀) {ops : List CtxOp}
    (hg : Guarded CtxOp.exec CtxOp.Clean s₀ ops) (hrun : run CtxOp.exec s₀ ops = some s')
    (hatt : (s'.world.ctxs c).attachedCount = 0) : TornDown s' c ↔ s'.waiting = [] := by
  obtain ⟨hrep, _⟩ := dispatcherInit_ring hinit
  have hs₀ : s₀.world = s.world ∧ s₀.fields = s.fields := by
    simp only [dispatcherInit, Option.bind_eq_bind, Option.bind_eq_some_iff] at hinit
    obtain ⟨q, _, hq⟩ := hinit
    cases hq
    exact ⟨rfl, rfl⟩
  have htame : TameFilter s₀.fields := by
    intro f hf
    rw [hs₀.2, hfilter] at hf
    cases hf
  have hinv : CtxInv s' := hg.keeps (I := CtxInv) (fun _ _ _ hi hop hexec => hi.step hop hexec)
    ops hrun ⟨by rw [hs₀.1]; exact hw.inv, (ringed_of hrep).2, htame⟩
  exact hinv.bus.tornDown_iff hinv.ring hatt

/-- A context at rest, with one market queue of four slots. -/
def restingCtx : Dispatching where
  world := .fresh .simulation 0 [(4, .market)] fun _ => ⟨2, askEvent, 0, 5⟩
  fields := ⟨none, fun _ => none⟩
  dispatchReentrantCount := 0
  buffedEventQueue := ⟨0, fun _ => none, 0, 0⟩
  stack := []
  delayed := []
  emitted := []

theorem restingCtx_booted : Booted restingCtx.world := World.fresh_booted (by simp)

/-- The clean steps that write nothing and set no filter. -/
def CtxOp.plain (s : Dispatching) : CtxOp → Bool
  | .call op => decide (op.Clean s.world)
  | .dispatcher (.client (.delay _)) => true
  | .dispatcher (.client .emit) => true
  | .dispatcher .pop => true
  | .dispatcher _ => false

theorem CtxOp.clean_of_plain (s : Dispatching) (op : CtxOp) (h : op.plain s = true) :
    op.Clean s := by
  cases op with
  | call op =>
      show op.Clean s.world
      exact of_decide_eq_true h
  | dispatcher op =>
      simp only [CtxOp.plain] at h
      split at h
      case h_1 heq => cases heq
      case h_2 heq => cases heq; trivial
      case h_3 heq => cases heq; trivial
      case h_4 heq => cases heq; trivial
      case h_5 => cases h

/-- An event in the look-ahead, a timer that has fired, and a delayed event that
has been emitted. -/
theorem ctxDestroy_tornDown_iff_emitted :
    let ops : List CtxOp := [.call (.push 0 7), .call (.addQueue 0 0), .call (.push 0 8),
      .call (.addTimer 0 9), .call (.dequeue 0 0), .dispatcher (.client (.delay 3)),
      .dispatcher (.client .emit), .dispatcher .pop, .dispatcher .pop]
    ∃ s₀ s', dispatcherInit restingCtx = some s₀ ∧ run CtxOp.exec s₀ ops = some s'
      ∧ (TornDown s' 0 ↔ s'.waiting = []) := by
  intro ops
  have hplain : Guarded CtxOp.exec (fun s op => op.plain s = true)
      { restingCtx with buffedEventQueue := ⟨102400, fun _ => none, 0, 0⟩ } ops := by
    decide +kernel
  exact ⟨_, _, rfl, rfl,
    ctxDestroy_tornDown_iff restingCtx_booted rfl rfl (hplain.mono CtxOp.clean_of_plain ops) rfl rfl⟩

/-- One delayed event that was not emitted: `ctx_destroy` does not come to
its end. -/
theorem ctxDestroy_delayed_asserts :
    ¬ ∀ (s s₀ s' : Dispatching) (ops : List CtxOp) (c : CtxId), Booted s.world →
      s.fields.eventFilter = none → dispatcherInit s = some s₀ →
      Guarded CtxOp.exec CtxOp.Clean s₀ ops → run CtxOp.exec s₀ ops = some s' →
      (s'.world.ctxs c).attachedCount = 0 → TornDown s' c := by
  intro hall
  obtain ⟨s', acts, hcall, _⟩ := hall restingCtx _ _ [.dispatcher (.client (.delay 4))] 0
    restingCtx_booted rfl rfl ⟨trivial, trivial⟩ rfl rfl
  simp [ctxDestroy, dispatcherDestroy, spscqDestroy, delayDispatchEvent, spscqPush,
    spscqNext] at hcall

end Ats
