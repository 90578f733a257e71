import Ats.Core.Threads

/-!
# Races: what interleaving does to the heaps of a bus

`BusMove` says once what a turn of the consumer can do to the queues. From
it follow the two properties of a bus that is fed by another thread: no
queue is in a heap twice, and none is forgotten. Each holds as long as the
emptiness tests of the two threads do not contradict each other.
-/

namespace Ats

open GuardedRun

variable {w w' : World} {c d : CtxId} {k : QueueCategory} {q p : QueueId} {e : EventId}
  {P : PushPoint} {a b : BusPoint}

/-! ## What the threads have in hand -/

/-- The queue that has left the heap, or the pending list, and is in the
hands of the consumer. -/
def BusPoint.holds : BusPoint → Option QueueId
  | .test _ q => some q
  | .link _ q => some q
  | .pop _ _ q => some q
  | .retest _ _ q _ => some q
  | .relink _ _ q _ => some q
  | _ => none

/-- The queue whose emptiness the consumer's next turn tests. -/
def BusPoint.tests : BusPoint → Option QueueId
  | .test _ q => some q
  | .retest _ _ q _ => some q
  | _ => none

/-- The queue the consumer's next turn hands to `heap_insert`. -/
def BusPoint.inserts : BusPoint → Option QueueId
  | .link _ q => some q
  | .relink _ _ q _ => some q
  | _ => none

/-- The queue of an `event_queue_push` under way that found it empty. -/
def PushPoint.foundEmpty : PushPoint → Option QueueId
  | .append q _ true => some q
  | .notify q _ => some q
  | _ => none

/-- The queue of an `event_queue_push` under way that found it not empty. -/
def PushPoint.foundFilled : PushPoint → Option QueueId
  | .append q _ false => some q
  | _ => none

theorem BusPoint.holds_of_tests (h : a.tests = some q) : a.holds = some q := by
  cases a with
  | test _ _ => exact h
  | retest _ _ _ _ => exact h
  | _ => cases h

theorem BusPoint.holds_of_inserts (h : a.inserts = some q) : a.holds = some q := by
  cases a with
  | link _ _ => exact h
  | relink _ _ _ _ => exact h
  | _ => cases h

@[simp] theorem BusPoint.holds_back (back : Option Nat) : (BusPoint.back back).holds = none := by
  cases back <;> rfl

/-! ## What a turn of the consumer does -/

/-- What no turn changes. -/
structure TurnFrame (c : CtxId) (w w' : World) : Prop where
  inv : BusInv w'
  next : w'.nextQueue = w.nextQueue
  attached : attachedQueues w' c = attachedQueues w c
  category : ∀ q, (w'.queues q).category = (w.queues q).category

/-- `q` holds what it held, and stands where it stood. -/
structure Stays (w w' : World) (q : QueueId) : Prop where
  contents : w'.contents q = w.contents q
  ctx : (w'.queues q).ctx = (w.queues q).ctx
  nodes : ∀ d k, q ∈ w'.queueNodes d k ↔ q ∈ w.queueNodes d k
  pending : ∀ d, q ∈ (w'.ctxs d).pendingQueue ↔ q ∈ (w.ctxs d).pendingQueue

theorem SameQueues.refl (w : World) : SameQueues w w :=
  ⟨fun _ => rfl, fun _ => rfl, fun _ => rfl, rfl, rfl, fun _ => rfl, fun _ => rfl⟩

theorem SameQueues.stays (h : SameQueues w w') (q : QueueId) : Stays w w' q where
  contents := h.contents q
  ctx := h.ctx q
  nodes := fun d k => by rw [h.queueNodes]
  pending := fun d => by rw [h.pending]

theorem TurnFrame.of_same (hi : BusInv w') (hq : SameQueues w w') (hs : SameSlots w w') :
    TurnFrame c w w' :=
  ⟨hi, hq.next, hs.attachedQueues c, hq.category⟩

theorem TurnFrame.of_queueFrame (h : BusInv w) (hf : QueueFrame w w') (hq : QueueInv w') :
    TurnFrame c w w' :=
  ⟨h.of_queueFrame hf hq, hf.nextQueue, hf.sameSlots.attachedQueues c, hf.queue_category⟩

theorem TurnFrame.refl (h : BusInv w) : TurnFrame c w w := ⟨h, rfl, rfl, fun _ => rfl⟩

theorem TurnFrame.trans {w'' : World} (h : TurnFrame c w w') (h' : TurnFrame c w' w'') :
    TurnFrame c w w'' :=
  ⟨h'.inv, h'.next.trans h.next, h'.attached.trans h.attached,
    fun q => (h'.category q).trans (h.category q)⟩

/-! ### The forwarding loop -/

/-- Some attached queues of `c` have been pushed to. -/
structure Fed (c : CtxId) (w w' : World) : Prop where
  frame : TurnFrame c w w'
  ctx : ∀ q, (w'.queues q).ctx = (w.queues q).ctx
  nodes : ∀ d k, w'.queueNodes d k = w.queueNodes d k
  stays : ∀ q, q ∉ attachedQueues w c → Stays w w' q
  pending : ∀ q d, q ∈ (w.ctxs d).pendingQueue → q ∈ (w'.ctxs d).pendingQueue
  filled : ∀ q d, q < w.nextQueue → (w.queues q).ctx = some d → w'.contents q ≠ [] →
    w.contents q ≠ [] ∨ q ∈ (w'.ctxs d).pendingQueue

theorem Fed.refl (h : BusInv w) : Fed c w w where
  frame := TurnFrame.refl h
  ctx := fun _ => rfl
  nodes := fun _ _ => rfl
  stays := fun _ _ => ⟨rfl, rfl, fun _ _ => Iff.rfl, fun _ => Iff.rfl⟩
  pending := fun _ _ hm => hm
  filled := fun _ _ _ _ hne => Or.inl hne

/-- A change that leaves the queues as they are. -/
theorem Fed.same {v : World} (h : Fed c w v) (hs : SameQueues v w')
    (hf : TurnFrame c v w') : Fed c w w' where
  frame := h.frame.trans hf
  ctx := fun q => (hs.ctx q).trans (h.ctx q)
  nodes := fun d k => (hs.queueNodes d k).trans (h.nodes d k)
  stays := fun q hq => by
    have hv := h.stays q hq
    exact ⟨(hs.contents q).trans hv.contents, (hs.ctx q).trans hv.ctx,
      fun d k => by rw [hs.queueNodes, hv.nodes], fun d => by rw [hs.pending, hv.pending]⟩
  pending := fun q d hm => by
    rw [hs.pending]
    exact h.pending q d hm
  filled := fun q d hlt hctx hne => by
    rw [hs.pending]
    rw [hs.contents] at hne
    exact h.filled q d hlt hctx hne

/-- One more push. -/
theorem Fed.push {v : World} (h : Fed c w v) (hp : QueuePushed v w' p e) (hi : BusInv w')
    (hm : p ∈ attachedQueues w c) : Fed c w w' where
  frame := h.frame.trans ⟨hi, hp.nextQueue, hp.sameSlots.attachedQueues c, hp.queue_category⟩
  ctx := fun q => (hp.queue_ctx q).trans (h.ctx q)
  nodes := fun d k => (hp.queueNodes d k).trans (h.nodes d k)
  stays := fun q hq => by
    have hv := h.stays q hq
    have hqp : q ≠ p := fun hc => hq (hc ▸ hm)
    refine ⟨(hp.contents_ne hqp).trans hv.contents, (hp.queue_ctx q).trans hv.ctx,
      fun d k => by rw [hp.queueNodes, hv.nodes], fun d => ?_⟩
    rw [hp.ctxs, ← hv.pending]
    dsimp only
    split
    · rw [List.mem_append, List.mem_singleton, or_iff_left hqp]
    · exact Iff.rfl
  pending := fun q d hq => by
    rw [hp.ctxs]
    dsimp only
    split
    · exact List.mem_append_left _ (h.pending q d hq)
    · exact h.pending q d hq
  filled := fun q d hlt hctx hne => by
    rw [hp.ctxs]
    dsimp only
    have old : v.contents q ≠ [] → w.contents q ≠ []
        ∨ q ∈ (if v.contents p = [] ∧ (v.queues p).ctx = some d then
            (v.ctxs d).pendingQueue ++ [p] else (v.ctxs d).pendingQueue) := by
      intro hv
      refine (h.filled q d hlt hctx hv).imp_right (fun hq => ?_)
      split
      · exact List.mem_append_left _ hq
      · exact hq
    by_cases hqp : q = p
    · subst hqp
      by_cases he : v.contents q = []
      · right
        rw [if_pos ⟨he, (h.ctx q).trans hctx⟩]
        exact List.mem_append_right _ (List.mem_singleton.mpr rfl)
      · exact old he
    · rw [hp.contents_ne hqp] at hne
      exact old hne

/-- The forwarding loop. -/
theorem Fed.run {v v' : World} (h : Fed c w v) (hr : BusRun {.forward c, .overrun c} v v') :
    Fed c w v' := by
  have ref : ∀ {v : World} (e : EventId), BusInv v → Fed c w v → Fed c w (eventRef v e) := by
    intro v e hv h
    exact h.same
      ⟨fun _ => rfl, fun _ => rfl, fun _ => rfl, rfl, rfl, fun _ => rfl, fun _ => rfl⟩
      ⟨hv.updEvent _ _, rfl, rfl, fun _ => rfl⟩
  have hmem : ∀ {v : World} {i : Nat} {p : QueueId}, Fed c w v →
      i < (v.ctxs c).attachedCount → (v.ctxs c).attached i = some p →
      p ∈ attachedQueues w c := by
    intro v i p h hlt hatt
    rw [← h.frame.attached]
    exact List.mem_filterMap.mpr ⟨i, List.mem_range.mpr hlt, hatt⟩
  refine hr.keeps (P := Fed c w) (fun s hs v v' hv hv' hstep h => ?_) h
  rcases hs with rfl | rfl
  · cases hstep with
    | forward hlt hatt hpush => exact (ref _ hv h).push hpush hv' (hmem h hlt hatt)
  · cases hstep with
    | overrun _ _ _ => exact ref _ hv h

/-! ### All of them -/

/-- **What one turn of the consumer can do**, from point `a` to point `b`. -/
inductive BusMove (c : CtxId) (w w' : World) : BusPoint → BusPoint → Prop
  /-- nothing, to any queue -/
  | pass {a b : BusPoint} : a.holds = none → b.holds = none → SameQueues w w' →
      BusMove c w w' a b
  /-- a queue is registered, or taken off the pending list -/
  | take {a : BusPoint} {back : Option Nat} {q : QueueId} : a.holds = none →
      q < w.nextQueue → (∀ r, r ≠ q → Stays w w' r) → w'.contents q = w.contents q →
      (w'.queues q).ctx = some c → (∀ d k, q ∉ w'.queueNodes d k) →
      (∀ d, q ∉ (w'.ctxs d).pendingQueue) → BusMove c w w' a (.test back q)
  /-- a queue that is empty is let go -/
  | release {a b : BusPoint} {q : QueueId} : a.tests = some q → b.holds = none →
      w.contents q = [] → SameQueues w w' → BusMove c w w' a b
  /-- a queue that is not empty is kept for `heap_insert` -/
  | keep {a b : BusPoint} {q : QueueId} : a.tests = some q → b.holds = some q →
      b.tests = none → w.contents q ≠ [] → w' = w → BusMove c w w' a b
  /-- `heap_insert` -/
  | insert {a b : BusPoint} {q : QueueId} : a.inserts = some q → b.holds = none →
      (∀ r, r ≠ q → Stays w w' r) → (w'.queues q).ctx = some c →
      q ∈ w'.queueNodes c (w.queues q).category → BusMove c w w' a b
  /-- `heap_remove` -/
  | remove {a : BusPoint} {now : Nat} {k : QueueCategory} {q : QueueId} : a.holds = none →
      q ∈ w.queueNodes c k → (∀ r, r ≠ q → Stays w w' r) →
      w'.contents q = w.contents q → (w'.queues q).ctx = (w.queues q).ctx →
      (∀ d k, q ∉ w'.queueNodes d k) →
      (∀ d, q ∈ (w'.ctxs d).pendingQueue ↔ q ∈ (w.ctxs d).pendingQueue) →
      BusMove c w w' a (.pop now k q)
  /-- `event_queue_pop` -/
  | pop {now : Nat} {k : QueueCategory} {q : QueueId} {e : EventId} :
      w.contents q = e :: w'.contents q → (∀ r, r ≠ q → Stays w w' r) →
      (w'.queues q).ctx = (w.queues q).ctx →
      (∀ d k, q ∈ w'.queueNodes d k ↔ q ∈ w.queueNodes d k) →
      BusMove c w w' (.pop now k q) (.retest now k q (some e))
  /-- the saved event is returned, after its copies went to the attached
  queues -/
  | forward {a b : BusPoint} : a.holds = none → b.holds = none → Fed c w w' →
      BusMove c w w' a b

/-- `pop` and what follows it know the category, and the event. -/
def BusPoint.Fits (w : World) : BusPoint → Prop
  | .pop _ k q => (w.queues q).category = k
  | .retest _ k q e => (w.queues q).category = k ∧ e.isSome
  | .relink _ k q e => (w.queues q).category = k ∧ e.isSome
  | _ => True

theorem BusPoint.fits_of_holds (h : a.holds = none) : a.Fits w := by
  cases a with
  | pop _ _ _ => cases h
  | retest _ _ _ _ => cases h
  | relink _ _ _ _ => cases h
  | _ => trivial

theorem BusPoint.Fits.congr (h : a.Fits w)
    (hk : ∀ q, (w'.queues q).category = (w.queues q).category) : a.Fits w' := by
  cases a with
  | pop _ _ q => exact (hk q).trans h
  | retest _ _ q _ => exact ⟨(hk q).trans h.1, h.2⟩
  | relink _ _ q _ => exact ⟨(hk q).trans h.1, h.2⟩
  | _ => trivial

/-! ## The calls of a turn -/

/-- `heap_min` and `heap_remove`. -/
theorem BusInv.pipeUnlink (h : BusInv w) (hn : w.queueNodes c k ≠ []) (now : Nat)
    (ha : a.holds = none) :
    ∃ w' b, pipeUnlink w c now k = some (w', b) ∧ TurnFrame c w w' ∧ b.Fits w'
      ∧ BusMove c w w' a b := by
  obtain ⟨q, rest, hq⟩ := List.exists_cons_of_ne_nil hn
  have hmem : q ∈ w.queueNodes c k := by
    rw [hq]
    exact List.mem_cons_self
  have hl := h.queue.linked c k q hmem
  obtain ⟨w', ys, hcall, hset, hperm, hq', _⟩ := h.queue.remove hmem
  have hnd : (w.queueNodes c k).Nodup := (h.queue.heap c k).nodup
  have hnodes : ∀ r, r ≠ q → ∀ d j, r ∈ w'.queueNodes d j ↔ r ∈ w.queueNodes d j := by
    intro r hr d j
    by_cases hd : d = c ∧ j = k
    · obtain ⟨rfl, rfl⟩ := hd
      rw [hset.nodes, hperm.mem_iff, List.mem_erase_of_ne hr]
    · rw [hset.nodes_ne (by tauto)]
  obtain ⟨hout, _⟩ := h.queue.nowhere_of_removed hmem hset hperm hq'
  refine ⟨w', .pop now k q, ?_, TurnFrame.of_queueFrame h hset.frame hq', ?_,
    BusMove.remove ha hmem (fun r hr => ?_) (hset.contents q) (by rw [hset.queues]) hout
      (fun d => by rw [hset.pendingQueue])⟩
  · rw [Ats.pipeUnlink, h.queue.heapMin_eq, hq]
    simp only [List.head?_cons, Option.bind_eq_bind, Option.bind_some, hcall]
  · show (w'.queues q).category = k
    rw [hset.queues]
    exact hl.category
  · exact ⟨hset.contents r, by rw [hset.queues], hnodes r hr,
      fun d => by rw [hset.pendingQueue]⟩

/-- What becomes of an event taken from a queue of `c`: it is skipped, saved
or returned, and no queue changes. -/
theorem BusInv.pipeReturn (h : BusInv w) (hlt : q < w.nextQueue)
    (hctx : (w.queues q).ctx = some c) (hk : (w.queues q).category = k) (now : Nat)
    (e : EventId) :
    ∃ w' b, pipeReturn w c now k q (some e) = some (w', b) ∧ b.holds = none
      ∧ SameQueues w w' ∧ TurnFrame c w w' := by
  -- the four ways it can end
  have note : ∀ act : Act, SameQueues w (w.note act) ∧ TurnFrame c w (w.note act) := by
    intro act
    have hq : SameQueues w (w.note act) :=
      ⟨fun _ => rfl, fun _ => rfl, fun _ => rfl, rfl, rfl, fun _ => rfl, fun _ => rfl⟩
    exact ⟨hq, h.note act, rfl, rfl, fun _ => rfl⟩
  have save : ∀ f : Event → Event, (w.queues q).category = .market →
      SameQueues w (busSave (w.updEvent e f) c q e)
        ∧ TurnFrame c w (busSave (w.updEvent e f) c q e) := by
    intro f hm
    have hq := busSave_sameQueues w c q e f
    refine ⟨hq, (h.updEvent e f).setSaved rfl (fun p hp => ?_), rfl, ?_, fun _ => rfl⟩
    · cases hp
      exact ⟨hlt, hctx, hm⟩
    · rw [attachedQueues, attachedQueues]
      rw [busSave_proj _ c c q e Ctx.attachedCount (fun _ _ _ => rfl),
        busSave_proj _ c c q e Ctx.attached (fun _ _ _ => rfl)]
      rfl
  have stop : SameQueues w ((w.updCtx c fun x =>
        { x with isSimulatorStop := true }).note (.drop q e))
      ∧ TurnFrame c w ((w.updCtx c fun x =>
        { x with isSimulatorStop := true }).note (.drop q e)) := by
    have hq := (updCtx_sameQueues w c (f := fun x => { x with isSimulatorStop := true })
      (fun _ => ⟨rfl, rfl⟩)).note (.drop q e)
    have hi := h.updCtx c (f := fun x => { x with isSimulatorStop := true })
      (fun _ => ⟨rfl, rfl, rfl, rfl, rfl, rfl, rfl⟩)
    refine ⟨hq, hi.note _, rfl, ?_, fun _ => rfl⟩
    simp [attachedQueues, World.note, World.updCtx]
  have keep : (w.queues q).category = .market →
      SameQueues w (busSave w c q e) ∧ TurnFrame c w (busSave w c q e) := by
    intro hm
    have hsave := save id hm
    have hid : w.updEvent e id = w := by simp [World.updEvent]
    rw [hid] at hsave
    exact hsave
  by_cases hm : k = .market
  · rw [Ats.pipeReturn.eq_def, if_pos hm]
    have hcat := hk.trans hm
    cases hmode : (w.ctxs c).mode with
    | simulation =>
        simp only [Option.bind_eq_bind, Option.bind_some]
        rw [busSimulationAccept]
        by_cases hstop : (w.events e).eventType = simulatorStopEvent
        · rw [if_pos hstop]
          exact ⟨_, .market now, rfl, rfl, stop⟩
        rw [if_neg hstop]
        by_cases hlate : (w.events e).timestamp < busGetTime w c now
        · rw [if_pos hlate]
          by_cases hskip : (w.events e).eventType ≠ queueCloseEvent
              ∧ (w.events e).eventType ≠ queueOpenEvent
              ∧ (w.events e).eventType ≠ simulatorProgressEvent
          · rw [if_pos hskip]
            exact ⟨_, .market now, rfl, rfl, note _⟩
          · rw [if_neg hskip]
            exact ⟨_, .serve now, rfl, rfl, save _ hcat⟩
        · rw [if_neg hlate]
          exact ⟨_, .serve now, rfl, rfl, keep hcat⟩
    | realtime => exact ⟨_, .serve now, rfl, rfl, keep hcat⟩
  · rw [Ats.pipeReturn.eq_def, if_neg hm]
    exact ⟨_, .idle, rfl, rfl, note _⟩

/-- The cascade. -/
theorem BusInv.busServe (h : BusInv w) (now : Nat) (ha : a.holds = none) :
    ∃ w' b, busServe w c now = some (w', b) ∧ TurnFrame c w w' ∧ b.Fits w'
      ∧ BusMove c w w' a b := by
  have hspec := busSource_spec w c now
  rw [Ats.busServe]
  cases hs : busSource w c now with
  | timer k =>
      obtain ⟨t, ht⟩ := hspec.timer k hs
      obtain ⟨w', hcall, hserved, hrun⟩ := h.busReturnTimer ht
      cases hserved with
      | timer hpop =>
          have hq := hpop.frame.sameQueues.note (.fire c k t (w.reminders t).timeout)
          refine ⟨_, .idle, by simp only [hcall, Option.map_some],
            ⟨hrun.inv, hq.next, ?_, hq.category⟩, trivial, BusMove.pass ha rfl hq⟩
          exact hpop.frame.sameSlots.attachedQueues c
  | pipe k =>
      have hn : w.queueNodes c k ≠ [] := fun hc => by
        have := (hspec.pipe k hs).2
        rw [(h.queue.pipeIsEmpty_iff c k).mpr hc] at this
        cases this
      exact h.pipeUnlink hn now ha
  | saved =>
      obtain ⟨e, he⟩ := Option.isSome_iff_exists.mp (hspec.saved hs)
      obtain ⟨q, hq, hun, h1⟩ := h.busUnsave he
      have hsame := (updCtx_sameQueues w c
        (f := fun x => { x with savedEvent := none, savedFrom := none })
        (fun _ => ⟨rfl, rfl⟩)).note (.give c .market q e)
      have hframe : TurnFrame c w ((w.updCtx c fun x =>
          { x with savedEvent := none, savedFrom := none }).note (.give c .market q e)) := by
        refine ⟨h1, rfl, ?_, fun _ => rfl⟩
        simp [attachedQueues, World.note, World.updCtx]
      cases hmode : (w.ctxs c).mode with
      | simulation =>
          obtain ⟨w', hfw, hrun⟩ := h1.busForward c e
          have hfed := ((Fed.refl h).same hsame hframe).run hrun
          refine ⟨w', .idle, ?_, hfed.frame, trivial, BusMove.forward ha rfl hfed⟩
          simp only [hun, hfw, Option.bind_eq_bind, Option.bind_some]
      | realtime =>
          refine ⟨_, .idle, ?_, hframe, trivial, BusMove.pass ha rfl hsame⟩
          simp only [hun, Option.map_some]
  | nothing =>
      exact ⟨w, .idle, rfl, TurnFrame.refl h, trivial,
        BusMove.pass ha rfl (SameQueues.refl w)⟩

/-! ## The consumer's turn -/

/-- What a turn asks of the client: queues that exist, a producer's queue to
which no forwarding loop pushes, and `bus_add_queue` once for each queue. -/
def Turn.Proper (c : CtxId) (s : Threads) : Turn → Prop
  | .producer q _ => s.producer = .idle →
      q < s.world.nextQueue ∧ q ∉ attachedQueues s.world c
  | .consumer (.dequeue _) => True
  | .consumer (.addQueue q) => s.consumer = .idle →
      q < s.world.nextQueue ∧ (s.world.queues q).ctx = none

/-- What the producer knows. -/
def PushPoint.Ok (w : World) (c : CtxId) : PushPoint → Prop
  | .idle => True
  | .append q _ isEmpty => q < w.nextQueue ∧ q ∉ attachedQueues w c
      ∧ (isEmpty = true → w.contents q = [])
  | .notify q ret => q < w.nextQueue ∧ q ∉ attachedQueues w c ∧ ret = 0
      ∧ w.contents q ≠ [] ∧ (∀ d k, q ∉ w.queueNodes d k)
      ∧ ∀ d, q ∉ (w.ctxs d).pendingQueue

/-- **The invariant of the two threads.** What the consumer holds is in no
heap; once it has been found not empty it is not pending either, and no push
that found it empty is under way. -/
structure ThreadsInv (c : CtxId) (s : Threads) : Prop where
  bus : BusInv s.world
  producer : s.producer.Ok s.world c
  held : ∀ q, s.consumer.holds = some q → q < s.world.nextQueue
    ∧ (s.world.queues q).ctx = some c ∧ ∀ d k, q ∉ s.world.queueNodes d k
  due : ∀ q, s.consumer.holds = some q → s.consumer.tests = none →
    s.world.contents q ≠ [] ∧ (∀ d, q ∉ (s.world.ctxs d).pendingQueue)
      ∧ s.producer.foundEmpty ≠ some q
  fits : s.consumer.Fits s.world

/-- `q->ctx = ctx`, and what follows up to the emptiness test. -/
theorem BusInv.busRegister (h : BusInv w) (hlt : q < w.nextQueue)
    (hc : (w.queues q).ctx = some c ∨ (w.queues q).ctx = none)
    (hn : ∀ d k, q ∉ w.queueNodes d k) (hp : ∀ d, q ∉ (w.ctxs d).pendingQueue) :
    ∃ w', busRegister w c q = some w' ∧ TurnFrame c w w' ∧ QueueRegistered w w' c q := by
  obtain ⟨w', hcall, hreg, hq'⟩ := h.queue.busRegister hlt hc hn hp
  have hcat : ∀ p, (w'.queues p).category = (w.queues p).category := by
    intro p
    by_cases hpq : p = q
    · rw [hpq, hreg.category]
    · rw [hreg.others p hpq]
  have hslots : SameSlots w w' :=
    ⟨hreg.frame.savedEvent, hreg.frame.savedFrom, hreg.frame.sameSlots.attached,
      hreg.frame.sameSlots.count⟩
  refine ⟨w', hcall, ⟨?_, hreg.frame.nextQueue, hslots.attachedQueues c, hcat⟩, hreg⟩
  have ht := hreg.frame.sameTimers
  have htimers : SameTimers w w' := ⟨ht.ctx, ht.clockType, ht.node, ht.heap⟩
  refine h.of_same hq' (htimers.timerInv h.timer) hslots
    (Nat.le_of_eq hreg.frame.nextQueue.symm) (fun p d hpd => ?_) (fun p _ => hcat p)
  by_cases hpq : p = q
  · subst hpq
    rcases hc with hc | hc
    · rw [hreg.ctx, ← hc, hpd]
    · rw [hc] at hpd
      cases hpd
  · rw [hreg.others p hpq]
    exact hpd

theorem QueueRegistered.stays (h : QueueRegistered w w' c q)
    (hp : ∀ d, (w'.ctxs d).pendingQueue = (w.ctxs d).pendingQueue) (hpq : p ≠ q) :
    Stays w w' p :=
  ⟨h.contents p, by rw [h.others p hpq], fun d k => by rw [h.nodes], fun d => by rw [hp]⟩

/-- A round of `check_pending_queue`, up to the emptiness test. -/
theorem BusInv.takePending (h : BusInv w) {rest : List QueueId}
    (hp : (w.ctxs c).pendingQueue = q :: rest) (back : Option Nat) (ha : a.holds = none) :
    ∃ w', Ats.busRegister (w.updCtx c fun x => { x with pendingQueue := rest }) c q = some w'
      ∧ TurnFrame c w w' ∧ BusMove c w w' a (.test back q) := by
  have hmem : q ∈ (w.ctxs c).pendingQueue := by
    rw [hp]
    exact List.mem_cons_self
  obtain ⟨hl, hnot⟩ := h.queue.pending c q hmem
  obtain ⟨h1, hnodes1, hp1⟩ := h.queue.unpend hp
  obtain ⟨hb1, hslots⟩ := h.unpend hp
  have hframe1 : TurnFrame c w (w.updCtx c fun x => { x with pendingQueue := rest }) :=
    ⟨hb1, rfl, hslots.attachedQueues c, fun _ => rfl⟩
  have hnowhere := h.queue.nowhere_of_notMem hl.ctx hnot
  obtain ⟨w', hcall, hframe, hreg⟩ := hb1.busRegister (c := c) hl.lt (Or.inl hl.ctx)
    (fun d k => by rw [hnodes1]; exact hnowhere d k) hp1
  have hpend : ∀ r, r ≠ q → ∀ d, r ∈ (w'.ctxs d).pendingQueue
      ↔ r ∈ (w.ctxs d).pendingQueue := by
    intro r hr d
    rw [hreg.frame.pendingQueue]
    by_cases hd : d = c
    · subst hd
      rw [hp, List.mem_cons, or_iff_right hr]
      simp [World.updCtx, World.updQueue]
    · simp [World.updCtx, World.updQueue, hd]
  refine ⟨w', hcall, hframe1.trans hframe, BusMove.take ha hl.lt (fun r hr => ?_) ?_ hreg.ctx
    (fun d k => ?_) (fun d => ?_)⟩
  · refine ⟨hreg.contents r, by rw [hreg.others r hr]; rfl, fun d k => ?_, hpend r hr⟩
    rw [hreg.nodes, hnodes1]
  · exact hreg.contents q
  · rw [hreg.nodes, hnodes1]
    exact hnowhere d k
  · rw [hreg.frame.pendingQueue]
    exact hp1 d

/-- After `heap_insert`. -/
theorem QueueHeapSet.inserted {ys : List QueueId} (h : QueueHeapSet w w' c k ys)
    (hperm : ys.Perm (q :: w.queueNodes c k)) :
    (∀ r, r ≠ q → Stays w w' r) ∧ q ∈ w'.queueNodes c k := by
  refine ⟨fun r hr => ⟨h.contents r, by rw [h.queues], fun d j => ?_,
    fun d => by rw [h.pendingQueue]⟩, ?_⟩
  · by_cases hd : d = c ∧ j = k
    · obtain ⟨rfl, rfl⟩ := hd
      rw [h.nodes, hperm.mem_iff, List.mem_cons, or_iff_right hr]
    · rw [h.nodes_ne (by tauto)]
  · rw [h.nodes, hperm.mem_iff]
    exact List.mem_cons_self

/-- A change that leaves the queues as they are, after one that did not. -/
theorem Stays.same {v : World} (h : Stays w v q) (hs : SameQueues v w') : Stays w w' q :=
  ⟨(hs.contents q).trans h.contents, (hs.ctx q).trans h.ctx,
    fun d k => by rw [hs.queueNodes, h.nodes], fun d => by rw [hs.pending, h.pending]⟩

/-- A queue that is due can be linked. -/
theorem ThreadsInv.linkable (h : ThreadsInv c ⟨w, P, a⟩) (hq : a.holds = some q)
    (ht : a.tests = none) : Linkable w c (w.queues q).category q :=
  ⟨(h.held q hq).1, (h.held q hq).2.1, rfl, (h.due q hq ht).1⟩

/-- `bus_add_queue` registers the queue before it tests it. -/
theorem ThreadsInv.addQueueStep (h : ThreadsInv c ⟨w, P, .idle⟩)
    (hop : Turn.Proper c ⟨w, P, .idle⟩ (.consumer (.addQueue q))) :
    ∃ w' b, consumerStep w c (.addQueue q) .idle = some (w', b) ∧ TurnFrame c w w' ∧ b.Fits w'
      ∧ BusMove c w w' .idle b := by
  have hb : BusInv w := h.bus
  obtain ⟨hlt, hctx⟩ := hop rfl
  obtain ⟨hn, hp⟩ := hb.queue.nowhere_of_ctx hctx
  obtain ⟨w', hcall, hframe, hreg⟩ := hb.busRegister (c := c) hlt (Or.inr hctx) hn hp
  have hpend : ∀ d, (w'.ctxs d).pendingQueue = (w.ctxs d).pendingQueue :=
    hreg.frame.pendingQueue
  refine ⟨w', .test none q, ?_, hframe, trivial, BusMove.take rfl hlt
    (fun r hr => hreg.stays hpend hr) (hreg.contents q) hreg.ctx
    (fun d k => by rw [hreg.nodes]; exact hn d k)
    (fun d => by rw [hpend]; exact hp d)⟩
  rw [Ats.consumerStep, hcall]
  rfl

/-- `event_queue_pop` in `event_pop_form_pipe`. -/
theorem ThreadsInv.popStep {call : ConsumerCall} (h : ThreadsInv c ⟨w, P, .pop now k q⟩) :
    ∃ w' b, consumerStep w c call (.pop now k q) = some (w', b) ∧ TurnFrame c w w' ∧ b.Fits w'
      ∧ BusMove c w w' (.pop now k q) b := by
  have hb : BusInv w := h.bus
  have fits : (w.queues q).category = k := h.fits
  obtain ⟨hlt, hctx, hout⟩ := h.held q rfl
  obtain ⟨hne, hpend, _⟩ := h.due q rfl rfl
  obtain ⟨e, es, hc⟩ := List.exists_cons_of_ne_nil hne
  obtain ⟨w', hcall, hq', hf, hc', hothers, _, hx, hnode, _⟩ :=
    hb.queue.pop hlt hout hpend hc
  have hnodes : ∀ d j, w'.queueNodes d j = w.queueNodes d j := by
    intro d j
    rw [World.queueNodes, World.queueMem, hx, hnode]
    rfl
  refine ⟨w', .retest now k q (some e), ?_, TurnFrame.of_queueFrame hb hf hq', ?_,
    BusMove.pop (by rw [hc, hc']) (fun r hr => ?_) (hf.queue_ctx q)
      (fun d j => by rw [hnodes])⟩
  · rw [Ats.consumerStep, hcall]
  · exact ⟨(hf.queue_category q).trans fits, rfl⟩
  · exact ⟨by rw [World.contents, hothers r hr, World.contents], hf.queue_ctx r,
      fun d j => by rw [hnodes], fun d => by rw [hx]⟩

/-- `heap_insert` in `event_pop_form_pipe`, and the return from it. -/
theorem ThreadsInv.relinkStep {call : ConsumerCall} {e : EventId}
    (h : ThreadsInv c ⟨w, P, .relink now k q (some e)⟩) :
    ∃ w' b, consumerStep w c call (.relink now k q (some e)) = some (w', b) ∧ TurnFrame c w w'
      ∧ b.Fits w' ∧ BusMove c w w' (.relink now k q (some e)) b := by
  have hb : BusInv w := h.bus
  have hk : (w.queues q).category = k := h.fits.1
  obtain ⟨hlt, hctx, hout⟩ := h.held q rfl
  have hpend := (h.due q rfl rfl).2.1
  have hl : Linkable w c k q := hk ▸ h.linkable rfl rfl
  have hs := queueStart_sameQueues w c q
  obtain ⟨w1, ys, hcall, hset, hperm, hq1, _⟩ := (hs.queueInv hb.queue).insert
    (hs.linkable hl) (by rw [hs.queueNodes]; exact hout c k)
    (by rw [hs.pending]; exact hpend c)
  have hre : pipeRequeue w k q = some w1 := by
    rw [pipeRequeue, hctx]
    exact hcall
  have hframe1 : TurnFrame c w w1 :=
    TurnFrame.of_queueFrame hb ((queueStart_frame w c q).trans hset.frame) hq1
  obtain ⟨hstays, hin⟩ := hset.inserted hperm
  obtain ⟨w', b, hret, hb', hsame, hframe⟩ := hframe1.inv.pipeReturn
    (hframe1.next.symm ▸ hlt) (by rw [hset.queues, hs.ctx]; exact hctx)
    ((hframe1.category q).trans hk) now e
  refine ⟨w', b, ?_, hframe1.trans hframe, BusPoint.fits_of_holds hb',
    BusMove.insert rfl hb' (fun r hr => ?_) ?_ ?_⟩
  · rw [Ats.consumerStep, hre]
    exact hret
  · have hstart := (hstays r hr).same hsame
    have hbefore := hs.stays r
    exact ⟨hstart.contents.trans hbefore.contents, hstart.ctx.trans hbefore.ctx,
      fun d j => (hstart.nodes d j).trans (hbefore.nodes d j),
      fun d => (hstart.pending d).trans (hbefore.pending d)⟩
  · rw [hsame.ctx, hset.queues, hs.ctx]
    exact hctx
  · rw [hsame.queueNodes, hk]
    exact hin

/-- **The consumer's turn goes through, and is a `BusMove`.** -/
theorem ThreadsInv.consumerStep (h : ThreadsInv c ⟨w, P, a⟩) {call : ConsumerCall}
    (hop : Turn.Proper c ⟨w, P, a⟩ (.consumer call)) :
    ∃ w' b, consumerStep w c call a = some (w', b) ∧ TurnFrame c w w' ∧ b.Fits w'
      ∧ BusMove c w w' a b := by
  have hb : BusInv w := h.bus
  have stay := TurnFrame.refl (c := c) hb
  have same := SameQueues.refl w
  -- the test of a queue in hand
  have empty : ∀ q, a.holds = some q → (eventQueueIsEmpty w q = true ↔ w.contents q = []) :=
    fun q hq => hb.queue.isEmpty_iff (h.held q hq).1
  have fits : a.Fits w := h.fits
  cases a with
  | idle =>
      cases call with
      | dequeue now => exact ⟨w, .check now, rfl, stay, trivial, BusMove.pass rfl rfl same⟩
      | addQueue q => exact h.addQueueStep hop
  | check now =>
      cases hp : (w.ctxs c).pendingQueue with
      | nil =>
          refine ⟨w, .market now, ?_, stay, trivial, BusMove.pass rfl rfl same⟩
          rw [Ats.consumerStep, hp]
      | cons q rest =>
          obtain ⟨w', hcall, hframe, hmove⟩ :=
            hb.takePending hp (some now) (a := .check now) rfl
          refine ⟨w', .test (some now) q, ?_, hframe, trivial, hmove⟩
          rw [Ats.consumerStep, hp]
          simp only [hcall, Option.map_some]
  | test back q =>
      by_cases he : w.contents q = []
      · refine ⟨w, .back back, ?_, stay, BusPoint.fits_of_holds (BusPoint.holds_back back),
          BusMove.release rfl (BusPoint.holds_back back) he same⟩
        rw [Ats.consumerStep, if_pos ((empty q rfl).mpr he)]
      · refine ⟨w, .link back q, ?_, stay, trivial, BusMove.keep rfl rfl rfl he rfl⟩
        rw [Ats.consumerStep, if_neg (fun hc => he ((empty q rfl).mp hc))]
  | link back q =>
      have hout := (h.held q rfl).2.2
      have hpend := (h.due q rfl rfl).2.1
      obtain ⟨w', ys, hcall, hset, hperm, hq', _⟩ :=
        hb.queue.insert (h.linkable rfl rfl) (hout _ _) (hpend c)
      obtain ⟨hstays, hin⟩ := hset.inserted hperm
      refine ⟨w', .back back, ?_, TurnFrame.of_queueFrame hb hset.frame hq',
        BusPoint.fits_of_holds (BusPoint.holds_back back),
        BusMove.insert rfl (BusPoint.holds_back back) hstays ?_ hin⟩
      · rw [Ats.consumerStep, hcall]
        rfl
      · rw [hset.queues]
        exact (h.held q rfl).2.1
  | market now =>
      rw [Ats.consumerStep]
      by_cases hgo : ¬ pipeIsEmpty w c .market = true ∧ (w.ctxs c).savedEvent = none
      · rw [if_pos hgo]
        have hn : w.queueNodes c .market ≠ [] := fun hc =>
          hgo.1 ((hb.queue.pipeIsEmpty_iff c .market).mpr hc)
        exact hb.pipeUnlink hn now rfl
      · rw [if_neg hgo]
        exact ⟨w, .serve now, rfl, stay, trivial, BusMove.pass rfl rfl same⟩
  | serve now => exact hb.busServe now rfl
  | pop now k q => exact h.popStep
  | retest now k q o =>
      obtain ⟨hk, ho⟩ := fits
      obtain ⟨e, rfl⟩ := Option.isSome_iff_exists.mp ho
      obtain ⟨hlt, hctx, hout⟩ := h.held q rfl
      rw [Ats.consumerStep]
      by_cases he : w.contents q = []
      · obtain ⟨w', b, hcall, hb', hsame, hframe⟩ := hb.pipeReturn hlt hctx hk now e
        rw [if_pos ((empty q rfl).mpr he)]
        exact ⟨w', b, hcall, hframe, BusPoint.fits_of_holds hb',
          BusMove.release rfl hb' he hsame⟩
      · rw [if_neg (fun hc => he ((empty q rfl).mp hc))]
        exact ⟨w, .relink now k q (some e), rfl, stay, ⟨hk, rfl⟩,
          BusMove.keep rfl rfl rfl he rfl⟩
  | relink now k q o =>
      obtain ⟨e, rfl⟩ := Option.isSome_iff_exists.mp fits.2
      exact h.relinkStep

/-! ## Two contradicting tests -/

/-- **No double insertion**: where the consumer's turn finds a queue not
empty, no push that found it empty is under way, and it is not pending. -/
def Turn.Undoubled (c : CtxId) (s : Threads) : Turn → Prop
  | .producer _ _ => True
  | .consumer _ => ∀ q ∈ s.consumer.tests, eventQueueIsEmpty s.world q = false →
      s.producer.foundEmpty ≠ some q ∧ q ∉ (s.world.ctxs c).pendingQueue

/-- **No missed notification**: where the consumer's turn finds a queue
empty, no push that found it filled is under way. -/
def Turn.Heard (s : Threads) : Turn → Prop
  | .producer _ _ => True
  | .consumer _ => ∀ q ∈ s.consumer.tests, eventQueueIsEmpty s.world q = true →
      s.producer.foundFilled ≠ some q

/-! ## The invariant, turn by turn -/

theorem PushPoint.Ok.keep (h : P.Ok w c) (hf : TurnFrame c w w')
    (hkeep : ∀ q, P.foundEmpty = some q → w'.contents q = w.contents q
      ∧ (∀ d k, q ∈ w'.queueNodes d k → q ∈ w.queueNodes d k)
      ∧ ∀ d, q ∈ (w'.ctxs d).pendingQueue → q ∈ (w.ctxs d).pendingQueue) :
    P.Ok w' c := by
  cases P with
  | idle => trivial
  | append q e isEmpty =>
      obtain ⟨hlt, hatt, hempty⟩ := h
      refine ⟨hf.next.symm ▸ hlt, by rw [hf.attached]; exact hatt, fun he => ?_⟩
      subst he
      rw [(hkeep q rfl).1]
      exact hempty rfl
  | notify q ret =>
      obtain ⟨hlt, hatt, hret, hne, hout, hpend⟩ := h
      obtain ⟨hc, hn, hp⟩ := hkeep q rfl
      exact ⟨hf.next.symm ▸ hlt, by rw [hf.attached]; exact hatt, hret, by rw [hc]; exact hne,
        fun d k hm => hout d k (hn d k hm), fun d hm => hpend d (hp d hm)⟩

/-- A push that found its queue empty is about to append or to notify. -/
theorem PushPoint.of_foundEmpty (hq : P.foundEmpty = some q) :
    (∃ e, P = .append q e true) ∨ ∃ ret, P = .notify q ret := by
  cases P with
  | idle => cases hq
  | append p e isEmpty =>
      cases isEmpty with
      | true =>
          cases hq
          exact Or.inl ⟨e, rfl⟩
      | false => cases hq
  | notify p ret =>
      cases hq
      exact Or.inr ⟨ret, rfl⟩

/-- It works on none of the attached queues. -/
theorem PushPoint.Ok.notMem_attached (h : P.Ok w c) (hq : P.foundEmpty = some q) :
    q ∉ attachedQueues w c := by
  obtain ⟨e, rfl⟩ | ⟨ret, rfl⟩ := PushPoint.of_foundEmpty hq
  · exact h.2.1
  · exact h.2.1

/-- A linked queue was not found empty. -/
theorem PushPoint.Ok.foundEmpty_ne (h : P.Ok w c) (hne : w.contents q ≠ [])
    (hm : q ∈ w.queueNodes d k) : P.foundEmpty ≠ some q := by
  intro hq
  obtain ⟨e, rfl⟩ | ⟨ret, rfl⟩ := PushPoint.of_foundEmpty hq
  · exact hne (h.2.2 rfl)
  · exact h.2.2.2.2.1 d k hm

theorem BusPoint.tests_of_inserts (h : a.inserts = some q) : a.tests = none := by
  cases a with
  | link _ _ => rfl
  | relink _ _ _ _ => rfl
  | _ => cases h

/-- **The consumer's turn keeps the invariant.** -/
theorem ThreadsInv.consumerTurn (h : ThreadsInv c ⟨w, P, a⟩) {call : ConsumerCall}
    (hop : Turn.Proper c ⟨w, P, a⟩ (.consumer call))
    (hno : Turn.Undoubled c ⟨w, P, a⟩ (.consumer call)) :
    ∃ w' b, Ats.consumerStep w c call a = some (w', b) ∧ BusMove c w w' a b
      ∧ TurnFrame c w w' ∧ ThreadsInv c ⟨w', P, b⟩ := by
  obtain ⟨w', b, hcall, hframe, hfits, hmove⟩ := h.consumerStep hop
  refine ⟨w', b, hcall, hmove, hframe, ?_⟩
  have hb : BusInv w := h.bus
  have hP : P.Ok w c := h.producer
  have stays : ∀ q, Stays w w' q → w'.contents q = w.contents q
      ∧ (∀ d k, q ∈ w'.queueNodes d k → q ∈ w.queueNodes d k)
      ∧ ∀ d, q ∈ (w'.ctxs d).pendingQueue → q ∈ (w.ctxs d).pendingQueue :=
    fun q hs => ⟨hs.contents, fun d k => (hs.nodes d k).mp, fun d => (hs.pending d).mp⟩
  -- the consumer holds nothing any more
  have free : b.holds = none → P.Ok w' c → ThreadsInv c ⟨w', P, b⟩ := by
    intro hb hok
    have hnot : ∀ q, b.holds ≠ some q := by simp [hb]
    exact ⟨hframe.inv, hok, fun q hq => absurd hq (hnot q), fun q hq => absurd hq (hnot q),
      hfits⟩
  -- the consumer holds `q`
  have hold : ∀ q, b.holds = some q → P.Ok w' c → q < w'.nextQueue →
      (w'.queues q).ctx = some c → (∀ d k, q ∉ w'.queueNodes d k) →
      (b.tests = none → w'.contents q ≠ [] ∧ (∀ d, q ∉ (w'.ctxs d).pendingQueue)
        ∧ P.foundEmpty ≠ some q) → ThreadsInv c ⟨w', P, b⟩ := by
    intro q hq hok hlt hctx hout hdue
    refine ⟨hframe.inv, hok, fun r hr => ?_, fun r hr ht => ?_, hfits⟩
    · cases Option.some.inj (hq.symm.trans hr)
      exact ⟨hlt, hctx, hout⟩
    · cases Option.some.inj (hq.symm.trans hr)
      exact hdue ht
  cases hmove with
  | pass ha hfree hs => exact free hfree (hP.keep hframe (fun q _ => stays q (hs.stays q)))
  | take ha hlt hr hc hctx hn hp =>
      rename_i q
      refine hold q rfl (hP.keep hframe (fun r _ => ?_)) (hframe.next.symm ▸ hlt) hctx hn
        (fun ht => by cases ht)
      by_cases hrq : r = q
      · subst hrq
        exact ⟨hc, fun d k hm => absurd hm (hn d k), fun d hm => absurd hm (hp d)⟩
      · exact stays r (hr r hrq)
  | release ht hfree he hs =>
      exact free hfree (hP.keep hframe (fun q _ => stays q (hs.stays q)))
  | keep ht hholds hnt hne hw =>
      rename_i q
      subst hw
      obtain ⟨hlt, hctx, hout⟩ := h.held q (BusPoint.holds_of_tests ht)
      have hfilled : eventQueueIsEmpty w' q = false := by
        rw [Bool.eq_false_iff]
        exact fun hc => hne ((hb.queue.isEmpty_iff hlt).mp hc)
      obtain ⟨hfound, hpend⟩ := hno q ht hfilled
      refine hold q hholds hP hlt hctx hout (fun _ => ⟨hne, fun d hm => ?_, hfound⟩)
      have hd : d = c :=
        Option.some.inj ((hb.queue.pending d q hm).1.ctx.symm.trans hctx)
      exact hpend (hd ▸ hm)
  | insert hi hfree hr hctx hin =>
      refine free hfree (hP.keep hframe (fun r hfound => stays r (hr r ?_)))
      rintro rfl
      exact (h.due r (BusPoint.holds_of_inserts hi) (BusPoint.tests_of_inserts hi)).2.2 hfound
  | remove ha hin hr hc hctx hn hp =>
      rename_i now k q
      have hl := hb.queue.linked c k q hin
      refine hold q rfl (hP.keep hframe (fun r _ => ?_)) (hframe.next.symm ▸ hl.lt)
        (hctx.trans hl.ctx) hn (fun _ => ⟨by rw [hc]; exact hl.nonempty,
          fun d hm => hb.queue.notMem_pending hin d ((hp d).mp hm),
          hP.foundEmpty_ne hl.nonempty hin⟩)
      by_cases hrq : r = q
      · subst hrq
        exact ⟨hc, fun d k hm => absurd hm (hn d k), fun d => (hp d).mp⟩
      · exact stays r (hr r hrq)
  | pop hc hr hctx hn =>
      rename_i now k q e
      obtain ⟨hlt, hctx0, hout⟩ := h.held q rfl
      refine hold q rfl (hP.keep hframe (fun r hfound => stays r (hr r ?_)))
        (hframe.next.symm ▸ hlt) (hctx.trans hctx0) (fun d j hm => hout d j ((hn d j).mp hm))
        (fun ht => by cases ht)
      rintro rfl
      exact (h.due r rfl rfl).2.2 hfound
  | forward ha hfree hfed =>
      exact free hfree (hP.keep hframe
        (fun r hfound => stays r (hfed.stays r (hP.notMem_attached hfound))))

/-! ## The producer's turn -/

/-- **What one turn of the producer can do.** -/
inductive PushMove (w w' : World) : PushPoint → PushPoint → Prop
  /-- `spscq_is_empty` -/
  | test {q : QueueId} {e : EventId} {isEmpty : Bool} : w' = w →
      (isEmpty = true ↔ w.contents q = []) → PushMove w w' .idle (.append q e isEmpty)
  /-- `spscq_push` -/
  | append {q : QueueId} {e : EventId} {isEmpty : Bool} {ret : Int} :
      (∀ r, r ≠ q → Stays w w' r) → w'.contents q ≠ [] →
      (∀ r, (w'.queues r).ctx = (w.queues r).ctx) →
      (∀ d k, w'.queueNodes d k = w.queueNodes d k) → w'.ctxs = w.ctxs →
      PushMove w w' (.append q e isEmpty) (if isEmpty then .notify q ret else .idle)
  /-- `mpscq_push`, on the bus of the queue -/
  | notify {q : QueueId} {ret : Int} :
      (∀ r, w'.contents r = w.contents r ∧ (w'.queues r).ctx = (w.queues r).ctx
        ∧ (∀ d k, w'.queueNodes d k = w.queueNodes d k)
        ∧ ∀ d, r ∈ (w.ctxs d).pendingQueue → r ∈ (w'.ctxs d).pendingQueue) →
      (∀ r, r ≠ q → Stays w w' r) →
      (∀ d, (w.queues q).ctx = some d → q ∈ (w'.ctxs d).pendingQueue) →
      PushMove w w' (.notify q ret) .idle

theorem QueueAppended.turnFrame (h : QueueAppended w w' q e) (hb : BusInv w) :
    TurnFrame c w w' := by
  have hslots : SameSlots w w' :=
    ⟨fun d => by rw [h.ctxs], fun d => by rw [h.ctxs], fun d => by rw [h.ctxs],
      fun d => by rw [h.ctxs]⟩
  have htimers : SameTimers w w' :=
    ⟨fun t => by rw [h.rest], fun t => by rw [h.rest], by rw [h.rest],
      fun d => by rw [h.ctxs]⟩
  exact ⟨hb.of_same (h.queueInv hb.queue) (htimers.timerInv hb.timer) hslots
    (Nat.le_of_eq h.nextQueue.symm) (fun p _ hp => (h.ctx p).trans hp)
    (fun p _ => h.category p), h.nextQueue, hslots.attachedQueues c, h.category⟩

theorem QueueAppended.stays (h : QueueAppended w w' q e) (hpq : p ≠ q) : Stays w w' p :=
  ⟨h.contents_ne hpq, h.ctx p, fun d k => by rw [h.queueNodes], fun d => by rw [h.ctxs]⟩

theorem busAsyncAddQueue_pendingQueue (w : World) (c : CtxId) (q : QueueId) (d : CtxId) :
    ((busAsyncAddQueue w c q).ctxs d).pendingQueue
      = if d = c then (w.ctxs d).pendingQueue ++ [q] else (w.ctxs d).pendingQueue := by
  by_cases hd : d = c
  · subst hd
    simp [busAsyncAddQueue, World.updCtx]
  · simp [busAsyncAddQueue, World.updCtx, hd]

theorem busAsyncAddQueue_slots (w : World) (c : CtxId) (q : QueueId) :
    SameSlots w (busAsyncAddQueue w c q) ∧ SameTimers w (busAsyncAddQueue w c q)
      ∧ ∀ d k, (busAsyncAddQueue w c q).queueNodes d k = w.queueNodes d k := by
  have proj : ∀ {β : Type} (g : Ctx → β) (d : CtxId),
      (∀ x, g { x with pendingQueue := x.pendingQueue ++ [q] } = g x) →
      g ((busAsyncAddQueue w c q).ctxs d) = g (w.ctxs d) :=
    fun g d h => w.updCtx_proj c d g h
  refine ⟨⟨fun d => proj _ d (fun _ => rfl), fun d => proj _ d (fun _ => rfl),
    fun d => proj _ d (fun _ => rfl), fun d => proj _ d (fun _ => rfl)⟩,
    ⟨fun _ => rfl, fun _ => rfl, rfl, fun d => proj Ctx.timerHeap d (fun _ => rfl)⟩,
    fun d k => ?_⟩
  rw [World.queueNodes, World.queueMem, proj Ctx.queueHeap d (fun _ => rfl)]
  rfl

/-- The producer tests whether the queue is empty. -/
theorem ThreadsInv.producerTest (h : ThreadsInv c ⟨w, .idle, a⟩) (hlt : q < w.nextQueue)
    (hatt : q ∉ attachedQueues w c) :
    ∃ w' P', producerStep w q e .idle = some (w', P') ∧ PushMove w w' .idle P'
      ∧ TurnFrame c w w' ∧ ThreadsInv c ⟨w', P', a⟩ := by
  have hb : BusInv w := h.bus
  have hempty := hb.queue.isEmpty_iff hlt
  refine ⟨w, .append q e (eventQueueIsEmpty w q), rfl, PushMove.test rfl hempty,
    TurnFrame.refl hb, hb, ⟨hlt, hatt, hempty.mp⟩, h.held, fun r hr ht => ?_, h.fits⟩
  obtain ⟨hne, hp, _⟩ := h.due r hr ht
  refine ⟨hne, hp, fun hc => ?_⟩
  cases he : eventQueueIsEmpty w q with
  | true =>
      rw [he] at hc
      cases hc
      exact hne (hempty.mp he)
  | false =>
      rw [he] at hc
      cases hc

/-- The producer appends its event. -/
theorem ThreadsInv.producerAppend {q' : QueueId} {e' : EventId} {isEmpty : Bool}
    (h : ThreadsInv c ⟨w, .append q' e' isEmpty, a⟩) :
    ∃ w' P', producerStep w q e (.append q' e' isEmpty) = some (w', P')
      ∧ PushMove w w' (.append q' e' isEmpty) P' ∧ TurnFrame c w w'
      ∧ ThreadsInv c ⟨w', P', a⟩ := by
  have hb : BusInv w := h.bus
  obtain ⟨hlt, hatt, hwas⟩ := h.producer
  rcases hb.queue.append hlt e' with ⟨w', hcall, happ⟩ | ⟨hcall, hfull⟩
  · have hne : w'.contents q' ≠ [] := by simp [happ.contents]
    have hframe : TurnFrame c w w' := happ.turnFrame hb
    refine ⟨w', if isEmpty then .notify q' 0 else .idle, by rw [producerStep, hcall],
      PushMove.append (fun r hr => happ.stays hr) hne happ.ctx
        (fun d k => happ.queueNodes d k) happ.ctxs, hframe, hframe.inv, ?_,
      fun r hr => ?_, fun r hr ht => ?_, ?_⟩
    · cases isEmpty with
      | false => trivial
      | true =>
          refine ⟨hframe.next.symm ▸ hlt, by rw [hframe.attached]; exact hatt, rfl, hne,
            fun d k hm => ?_, fun d hm => ?_⟩
          · rw [happ.queueNodes] at hm
            exact (hb.queue.linked d k q' hm).nonempty (hwas rfl)
          · rw [happ.ctxs] at hm
            exact (hb.queue.pending d q' hm).1.nonempty (hwas rfl)
    · obtain ⟨hr1, hr2, hr3⟩ := h.held r hr
      exact ⟨hframe.next.symm ▸ hr1, (happ.ctx r).trans hr2,
        fun d k => by rw [happ.queueNodes]; exact hr3 d k⟩
    · obtain ⟨hr1, hr2, _⟩ := h.due r hr ht
      refine ⟨?_, fun d => by rw [happ.ctxs]; exact hr2 d, fun hc => ?_⟩
      · by_cases hrq : r = q'
        · rw [hrq]
          exact hne
        · rw [happ.contents_ne hrq]
          exact hr1
      · cases isEmpty with
        | false => cases hc
        | true =>
            cases hc
            exact hr1 (hwas rfl)
    · exact h.fits.congr happ.category
  · -- a full ring was not found empty
    have hlen := (hb.queue.ring q' hlt).two_le
    have hne : w.contents q' ≠ [] := by
      intro hc
      rw [hc, List.length_nil] at hfull
      omega
    cases isEmpty with
    | true => exact absurd (hwas rfl) hne
    | false =>
        refine ⟨w, .idle, by rw [producerStep, hcall]; rfl,
          @PushMove.append w w q' e' false (-1)
            (fun r _ => (SameQueues.refl w).stays r) hne (fun _ => rfl) (fun _ _ => rfl) rfl,
          TurnFrame.refl hb, hb, trivial, h.held, fun r hr ht => ?_, h.fits⟩
        obtain ⟨hr1, hr2, _⟩ := h.due r hr ht
        exact ⟨hr1, hr2, by simp [PushPoint.foundEmpty]⟩

/-- The producer puts the queue on the pending list. -/
theorem ThreadsInv.producerNotify {q' : QueueId} {ret : Int}
    (h : ThreadsInv c ⟨w, .notify q' ret, a⟩) :
    ∃ w' P', producerStep w q e (.notify q' ret) = some (w', P')
      ∧ PushMove w w' (.notify q' ret) P' ∧ TurnFrame c w w' ∧ ThreadsInv c ⟨w', P', a⟩ := by
  have hb : BusInv w := h.bus
  obtain ⟨hlt, hatt, rfl, hne, hout, hpend⟩ := h.producer
  cases hctx : (w.queues q').ctx with
  | none =>
      refine ⟨w, .idle, ?_, PushMove.notify (fun _ => ⟨rfl, rfl, fun _ _ => rfl,
        fun _ hm => hm⟩) (fun r _ => (SameQueues.refl w).stays r) (fun d hd => ?_),
        TurnFrame.refl hb, hb, trivial, h.held, fun r hr ht => ?_, h.fits⟩
      · rw [producerStep, eventQueueNotify_skip (by simp [hctx])]
        rfl
      · rw [hctx] at hd
        cases hd
      · obtain ⟨hr1, hr2, _⟩ := h.due r hr ht
        exact ⟨hr1, hr2, by simp [PushPoint.foundEmpty]⟩
  | some d =>
      obtain ⟨hslots, htimers, hnodes⟩ := busAsyncAddQueue_slots w d q'
      have hq := hb.queue.notify ⟨hlt, hctx, rfl, hne⟩ (hout d _) (hpend d)
      have hframe : TurnFrame c w (busAsyncAddQueue w d q') :=
        ⟨hb.of_same hq (htimers.timerInv hb.timer) hslots (Nat.le_refl _)
          (fun _ _ hp => hp) (fun _ _ => rfl), rfl, hslots.attachedQueues c, fun _ => rfl⟩
      have hgrow : ∀ r x, r ∈ (w.ctxs x).pendingQueue →
          r ∈ ((busAsyncAddQueue w d q').ctxs x).pendingQueue := by
        intro r x hm
        rw [busAsyncAddQueue_pendingQueue]
        split
        · exact List.mem_append_left _ hm
        · exact hm
      have hsame : ∀ r, r ≠ q' → ∀ x, r ∈ ((busAsyncAddQueue w d q').ctxs x).pendingQueue
          ↔ r ∈ (w.ctxs x).pendingQueue := by
        intro r hr x
        rw [busAsyncAddQueue_pendingQueue]
        split
        · rw [List.mem_append, List.mem_singleton, or_iff_left hr]
        · exact Iff.rfl
      refine ⟨busAsyncAddQueue w d q', .idle, ?_,
        PushMove.notify (fun r => ⟨rfl, rfl, hnodes, hgrow r⟩)
        (fun r hr => ⟨rfl, rfl, fun x k => by rw [hnodes], hsame r hr⟩) (fun x hx => ?_),
        hframe, hframe.inv, trivial, fun r hr => ?_, fun r hr ht => ?_, h.fits⟩
      · rw [producerStep, eventQueueNotify_ctx hctx]
        rfl
      · cases Option.some.inj (hctx.symm.trans hx)
        rw [busAsyncAddQueue_pendingQueue, if_pos rfl]
        exact List.mem_append_right _ (List.mem_singleton.mpr rfl)
      · obtain ⟨hr1, hr2, hr3⟩ := h.held r hr
        exact ⟨hr1, hr2, fun x k => by rw [hnodes]; exact hr3 x k⟩
      · obtain ⟨hr1, hr2, hr3⟩ := h.due r hr ht
        have hrq : r ≠ q' := fun hc => hr3 (hc ▸ rfl)
        exact ⟨hr1, fun x hm => hr2 x ((hsame r hrq x).mp hm),
          by simp [PushPoint.foundEmpty]⟩

/-- **The producer's turn goes through and keeps the invariant.** -/
theorem ThreadsInv.producerTurn (h : ThreadsInv c ⟨w, P, a⟩)
    (hop : Turn.Proper c ⟨w, P, a⟩ (.producer q e)) :
    ∃ w' P', producerStep w q e P = some (w', P') ∧ PushMove w w' P P'
      ∧ TurnFrame c w w' ∧ ThreadsInv c ⟨w', P', a⟩ := by
  cases P with
  | idle => exact h.producerTest (hop rfl).1 (hop rfl).2
  | append q' e' isEmpty => exact h.producerAppend
  | notify q' ret => exact h.producerNotify

/-! ## Known queues -/

/-- **No registered queue is out of sight**: one that holds something, or
was found filled by a push under way, is in its heap, pending, about to be
pending, or in the hands of the consumer. -/
def Known (s : Threads) : Prop :=
  ∀ q d, q < s.world.nextQueue → (s.world.queues q).ctx = some d →
    (s.world.contents q ≠ [] ∨ s.producer.foundFilled = some q) →
    q ∈ s.world.queueNodes d (s.world.queues q).category
      ∨ q ∈ (s.world.ctxs d).pendingQueue ∨ (∃ ret, s.producer = .notify q ret)
      ∨ s.consumer.holds = some q

/-- The consumer's turn forgets no queue. -/
theorem Known.consumerTurn (h : Known ⟨w, P, a⟩) (hf : TurnFrame c w w')
    (hm : BusMove c w w' a b)
    (hheard : ∀ q ∈ a.tests, w.contents q = [] → P.foundFilled ≠ some q) :
    Known ⟨w', P, b⟩ := by
  intro q d hlt hctx hq
  have hlt' : q < w.nextQueue := hf.next ▸ hlt
  have hcat : (w'.queues q).category = (w.queues q).category := hf.category q
  -- a queue that stays is known as before, or held as before
  have stay : Stays w w' q → a.holds ≠ some q →
      q ∈ w'.queueNodes d (w'.queues q).category ∨ q ∈ (w'.ctxs d).pendingQueue
        ∨ (∃ ret, P = .notify q ret) ∨ b.holds = some q := by
    intro hs ha
    have hq0 : w.contents q ≠ [] ∨ P.foundFilled = some q := by
      rw [← hs.contents]
      exact hq
    rw [hcat]
    rcases h q d hlt' (hs.ctx.symm.trans hctx) hq0 with hn | hp | hr | hh
    · exact Or.inl ((hs.nodes d _).mpr hn)
    · exact Or.inr (Or.inl ((hs.pending d).mpr hp))
    · exact Or.inr (Or.inr (Or.inl hr))
    · exact absurd hh ha
  have other : ∀ r, a.holds = some r → q ≠ r → a.holds ≠ some q :=
    fun r hr hqr hc => hqr (Option.some.inj (hc.symm.trans hr))
  cases hm with
  | pass ha hb hs => exact stay (hs.stays q) (by simp [ha])
  | take ha hltr hr hc hctxr hn hp =>
      rename_i back r
      by_cases hqr : q = r
      · exact Or.inr (Or.inr (Or.inr (hqr ▸ rfl)))
      · exact stay (hr q hqr) (by simp [ha])
  | release ht hb he hs =>
      rename_i r
      by_cases hqr : q = r
      · subst hqr
        rcases hq with hne | hfound
        · exact absurd ((hs.contents q).trans he) hne
        · exact absurd hfound (hheard q ht he)
      · exact stay (hs.stays q) (other r (BusPoint.holds_of_tests ht) hqr)
  | keep ht hb hnt hne hw =>
      rename_i r
      subst hw
      by_cases hqr : q = r
      · exact Or.inr (Or.inr (Or.inr (hqr ▸ hb)))
      · exact stay ((SameQueues.refl w').stays q)
          (other r (BusPoint.holds_of_tests ht) hqr)
  | insert hi hb hr hctxr hin =>
      rename_i r
      by_cases hqr : q = r
      · subst hqr
        cases Option.some.inj (hctxr.symm.trans hctx)
        left
        show q ∈ w'.queueNodes c (w'.queues q).category
        rw [hcat]
        exact hin
      · exact stay (hr q hqr) (other r (BusPoint.holds_of_inserts hi) hqr)
  | remove ha hin hr hc hctxr hn hp =>
      rename_i now k r
      by_cases hqr : q = r
      · exact Or.inr (Or.inr (Or.inr (hqr ▸ rfl)))
      · exact stay (hr q hqr) (by simp [ha])
  | pop hc hr hctxr hn =>
      rename_i now k r e
      by_cases hqr : q = r
      · exact Or.inr (Or.inr (Or.inr (hqr ▸ rfl)))
      · exact stay (hr q hqr) (other r rfl hqr)
  | forward ha hb hfed =>
      have hctx0 : (w.queues q).ctx = some d := (hfed.ctx q).symm.trans hctx
      have hold : (w.contents q ≠ [] ∨ P.foundFilled = some q)
          ∨ q ∈ (w'.ctxs d).pendingQueue := by
        rcases hq with hne | hfound
        · exact (hfed.filled q d hlt' hctx0 hne).imp_left Or.inl
        · exact Or.inl (Or.inr hfound)
      rcases hold with hold | hp
      · show q ∈ w'.queueNodes d (w'.queues q).category ∨ _
        rw [hcat, hfed.nodes]
        rcases h q d hlt' hctx0 hold with hn | hp | hr | hh
        · exact Or.inl hn
        · exact Or.inr (Or.inl (hfed.pending q d hp))
        · exact Or.inr (Or.inr (Or.inl hr))
        · exact absurd hh (by simp [ha])
      · exact Or.inr (Or.inl hp)

/-- Nor does the producer's. -/
theorem Known.producerTurn {P' : PushPoint} (h : Known ⟨w, P, a⟩) (hf : TurnFrame c w w')
    (hm : PushMove w w' P P') : Known ⟨w', P', a⟩ := by
  intro q d hlt hctx hq
  have hlt' : q < w.nextQueue := hf.next ▸ hlt
  have hcat : (w'.queues q).category = (w.queues q).category := hf.category q
  show q ∈ w'.queueNodes d (w'.queues q).category ∨ _
  rw [hcat]
  cases hm with
  | test hw hempty =>
      rename_i r e isEmpty
      subst hw
      have hne : w'.contents q ≠ [] := by
        rcases hq with hne | hfound
        · exact hne
        · cases isEmpty with
          | true => cases hfound
          | false =>
              cases hfound
              exact fun hc => Bool.false_ne_true (hempty.mpr hc)
      rcases h q d hlt' hctx (Or.inl hne) with hn | hp | ⟨ret, hr⟩ | hh
      · exact Or.inl hn
      · exact Or.inr (Or.inl hp)
      · cases hr
      · exact Or.inr (Or.inr (Or.inr hh))
  | append hr hne hctxr hn hx =>
      rename_i r e isEmpty ret
      have hx' : (w'.ctxs d).pendingQueue = (w.ctxs d).pendingQueue := by rw [hx]
      rw [hn, hx']
      have old : (w.contents q ≠ [] ∨ (PushPoint.append r e isEmpty).foundFilled = some q) →
          q ∈ w.queueNodes d (w.queues q).category ∨ q ∈ (w.ctxs d).pendingQueue
            ∨ a.holds = some q := by
        intro hq0
        rcases h q d hlt' ((hctxr q).symm.trans hctx) hq0 with hn | hp | ⟨ret, hr⟩ | hh
        · exact Or.inl hn
        · exact Or.inr (Or.inl hp)
        · cases hr
        · exact Or.inr (Or.inr hh)
      have widen : (q ∈ w.queueNodes d (w.queues q).category ∨ q ∈ (w.ctxs d).pendingQueue
          ∨ a.holds = some q) → q ∈ w.queueNodes d (w.queues q).category
            ∨ q ∈ (w.ctxs d).pendingQueue
            ∨ (∃ ret', (if isEmpty then PushPoint.notify r ret else .idle) = .notify q ret')
            ∨ a.holds = some q :=
        Or.imp_right (Or.imp_right Or.inr)
      by_cases hqr : q = r
      · subst hqr
        cases isEmpty with
        | true => exact Or.inr (Or.inr (Or.inl ⟨ret, rfl⟩))
        | false => exact widen (old (Or.inr rfl))
      · refine widen (old (Or.inl ?_))
        rw [← (hr q hqr).contents]
        rcases hq with hne | hfound
        · exact hne
        · cases isEmpty <;> cases hfound
  | notify hall hr hpend =>
      rename_i r ret
      obtain ⟨hc, hcx, hn, hgrow⟩ := hall q
      have hne : w.contents q ≠ [] := by
        rcases hq with hne | hfound
        · rw [← hc]
          exact hne
        · cases hfound
      rw [hn]
      rcases h q d hlt' (hcx.symm.trans hctx) (Or.inl hne) with hn | hp | ⟨ret, hr⟩ | hh
      · exact Or.inl hn
      · exact Or.inr (Or.inl (hgrow d hp))
      · cases hr
        exact Or.inr (Or.inl (hpend d (hcx.symm.trans hctx)))
      · exact Or.inr (Or.inr (Or.inr hh))

end Ats
