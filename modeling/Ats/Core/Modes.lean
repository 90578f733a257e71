import Ats.Core.PipeOrder
import Ats.Core.Client
import Ats.Lib.Repetition

/-!
# Modes: what a bus without timers delivers in either mode

Where time plays no role each category is merged on its own, and the modes
differ in the order in which they serve the categories: simulation serves
services before commands, real time commands before services.
-/

namespace Ats

open KWayMerge Repetition

variable {w w' v : World} {c d : CtxId} {k j : QueueCategory} {q p : QueueId} {e : EventId}
  {s : StepKind} {now : Nat} {o : Option EventId} {m : BusMode}

/-! ## The stream of a bus -/

/-- The order in which the categories are served before the market. -/
def pipeOrder : BusMode → List QueueCategory
  | .simulation => [.execution, .service, .command]
  | .realtime => [.execution, .command, .service]

theorem pipeOrder_ne (hj : j ∈ pipeOrder m) : j ≠ .market := by
  cases m <;> simp only [pipeOrder, List.mem_cons, List.not_mem_nil, or_false] at hj <;>
    rcases hj with rfl | rfl | rfl <;> decide

/-- The events of a category, merged. -/
def pipeEvents (w : World) (c : CtxId) (k : QueueCategory) : List EventId :=
  (pipeMerge w c k).map Prod.snd

/-- All that a bus has to deliver, category by category. -/
def stream (w : World) (c : CtxId) : List EventId :=
  (pipeOrder (w.ctxs c).mode).flatMap (pipeEvents w c)
    ++ ((w.ctxs c).savedEvent.toList ++ pipeEvents w c .market)

/-- Time plays no role: no timers, no attachments, time zero, and no event
that ends a simulation. -/
structure Still (w : World) (c : CtxId) : Prop where
  timers : ∀ k, w.timerNodes c k = []
  alone : (w.ctxs c).attachedCount = 0
  time : (w.ctxs c).time .clockLocal = 0
  running : ∀ q x, q < w.nextQueue → x ∈ w.contents q →
    (w.events x).eventType ≠ simulatorStopEvent

/-- **A bus on which time plays no role**, with its pipes in order. -/
structure Timeless (w : World) (c : CtxId) : Prop extends Still w c where
  inv : BusInv w
  line : LineInv w c
  covered : Covered w

theorem LineInv.of_same (h : LineInv w c) (hq : SameQueues w w') (hline : w'.line c = w.line c)
    (hid : ∀ p, (w'.queues p).startId = (w.queues p).startId)
    (hcnt : (w'.ctxs c).counter = (w.ctxs c).counter) (hst : SameStamps w w') :
    LineInv w' c := by
  refine ⟨fun p => ?_, hline ▸ h.nodup, fun k => ?_, fun k p hm => ?_, fun k => ?_⟩
  · rw [hline, hq.next, hq.ctx]
    exact h.registered p
  · rw [hline, hq.queueNodes]
    simpa only [hid] using h.ids k
  · rw [hq.queueNodes] at hm
    rw [hid, hcnt]
    exact h.bound k p hm
  · rw [hq.queueNodes]
    exact (h.ordered k).congr (fun a _ => queueKey_eq hst (hq.contents a) (hid a))

theorem pipeEvents_of_same (hq : SameQueues w w') (hline : w'.line c = w.line c)
    (hst : SameStamps w w') (k : QueueCategory) : pipeEvents w' c k = pipeEvents w c k := by
  have hstamp : stamp w' = stamp w := funext hst
  have hpipe : pipeLine w' c k = pipeLine w c k := by
    simp only [pipeLine, hline, hq.category, hq.contents]
  rw [pipeEvents, pipeMerge, hstamp, hpipe, pipeEvents, pipeMerge]

/-- What a step changes beside the queues of a timeless bus. -/
structure Beside (w w' : World) (c : CtxId) : Prop where
  queues : SameQueues w w'
  startId : ∀ p, (w'.queues p).startId = (w.queues p).startId
  counter : (w'.ctxs c).counter = (w.ctxs c).counter
  events : ∀ x, (w'.events x).timestamp = (w.events x).timestamp
    ∧ (w'.events x).eventType = (w.events x).eventType
  timers : SameTimers w w'
  count : (w'.ctxs c).attachedCount = (w.ctxs c).attachedCount
  time : (w'.ctxs c).time = (w.ctxs c).time
  line : w'.line c = w.line c

theorem Timeless.beside (h : Timeless w c) (hb : Beside w w' c) (hi : BusInv w') :
    Timeless w' c where
  inv := hi
  line := h.line.of_same hb.queues hb.line hb.startId hb.counter (fun x => (hb.events x).1)
  covered := h.covered.of_same hb.queues
  timers := fun k => (hb.timers.timerNodes c k).trans (h.timers k)
  alone := hb.count.trans h.alone
  time := by rw [hb.time]; exact h.time
  running := fun q x hq hx => by
    rw [hb.queues.contents] at hx
    rw [(hb.events x).2]
    exact h.running q x (hb.queues.next ▸ hq) hx

theorem Beside.trans (h : Beside w v c) (h' : Beside v w' c) : Beside w w' c where
  queues := ⟨fun p => (h'.queues.spsc p).trans (h.queues.spsc p),
    fun p => (h'.queues.ctx p).trans (h.queues.ctx p),
    fun p => (h'.queues.category p).trans (h.queues.category p),
    h'.queues.node.trans h.queues.node, h'.queues.next.trans h.queues.next,
    fun d => (h'.queues.heap d).trans (h.queues.heap d),
    fun d => (h'.queues.pending d).trans (h.queues.pending d)⟩
  startId := fun p => (h'.startId p).trans (h.startId p)
  counter := h'.counter.trans h.counter
  events := fun x => ⟨(h'.events x).1.trans (h.events x).1, (h'.events x).2.trans (h.events x).2⟩
  timers := ⟨fun t => (h'.timers.ctx t).trans (h.timers.ctx t),
    fun t => (h'.timers.clockType t).trans (h.timers.clockType t),
    h'.timers.node.trans h.timers.node, fun d => (h'.timers.heap d).trans (h.timers.heap d)⟩
  count := h'.count.trans h.count
  time := h'.time.trans h.time
  line := h'.line.trans h.line

/-- The look-ahead slot is written. -/
theorem Beside.setSaved (w : World) (c : CtxId) (o : Option EventId) (p : Option QueueId) :
    Beside w (w.updCtx c fun x => { x with savedEvent := o, savedFrom := p }) c where
  queues := updCtx_sameQueues w c (fun _ => ⟨rfl, rfl⟩)
  startId := fun _ => rfl
  counter := w.updCtx_proj c c Ctx.counter (fun _ => rfl)
  events := fun _ => ⟨rfl, rfl⟩
  timers := ⟨fun _ => rfl, fun _ => rfl, rfl,
    fun d => w.updCtx_proj c d Ctx.timerHeap (fun _ => rfl)⟩
  count := w.updCtx_proj c c Ctx.attachedCount (fun _ => rfl)
  time := w.updCtx_proj c c Ctx.time (fun _ => rfl)
  line := rfl

theorem Beside.note (w : World) {a : Act} (ha : ∀ ls, lineStep c ls a = ls) :
    Beside w (w.note a) c where
  queues := ⟨fun _ => rfl, fun _ => rfl, fun _ => rfl, rfl, rfl, fun _ => rfl, fun _ => rfl⟩
  startId := fun _ => rfl
  counter := rfl
  events := fun _ => ⟨rfl, rfl⟩
  timers := ⟨fun _ => rfl, fun _ => rfl, rfl, fun _ => rfl⟩
  count := rfl
  time := rfl
  line := by rw [line_append (w := w) (a := a) rfl, ha]

theorem Beside.pipeEvents (hb : Beside w w' c) (k : QueueCategory) :
    pipeEvents w' c k = pipeEvents w c k :=
  pipeEvents_of_same hb.queues hb.line (fun x => (hb.events x).1) k

/-! ## A service -/

theorem Timeless.ready (h : Timeless w c) (hp : (w.ctxs c).pendingQueue = []) :
    PipeReady w c :=
  ⟨h.inv.queue, h.line, h.covered, hp⟩

theorem pipeMerge_cons {xs : List (QueueId × List EventId)} {r : QueueId × EventId}
    (hd : Distinct (pipeLine w c k))
    (hs : mergeStep (stamp w) (pipeLine w c k) = some (r, xs)) :
    pipeMerge w c k = r :: merge (stamp w) (size xs) xs := by
  obtain ⟨a, x⟩ := r
  rw [pipeMerge, hd.size_mergeStep hs, merge, hs]

/-- **A service takes the first event of its category**, and leaves the others
alone. -/
theorem PipePop.pipeEvents (hp : PipePop w v c k q e) (hr : PipeReady w c) :
    pipeEvents w c k = e :: pipeEvents v c k
      ∧ ∀ j, j ≠ k → Ats.pipeEvents v c j = Ats.pipeEvents w c j := by
  have hline := (hr.line.pop hp hr.queue).2
  have hstamp : stamp v = stamp w := by
    funext a
    rw [stamp, hp.frame.events, stamp]
  constructor
  · rw [Ats.pipeEvents, pipeMerge_cons hr.line.distinct (hr.mergeStep_eq hp), Ats.pipeEvents,
      pipeMerge, hstamp]
    rfl
  · intro j hj
    rw [Ats.pipeEvents, pipeMerge, hstamp, hp.pipeLine_ne hline hj, Ats.pipeEvents, pipeMerge]

theorem Timeless.pop (h : Timeless w c) (hp : PipePop w v c k q e) (hi : BusInv v) :
    Timeless v c where
  inv := hi
  line := (h.line.pop hp h.inv.queue).1
  covered := h.covered.pop hp
  timers := fun j => (hp.frame.sameTimers.timerNodes c j).trans (h.timers j)
  alone := (hp.frame.sameSlots.count c).trans h.alone
  time := by
    rw [hp.frame.ctx_proj c Ctx.time (fun _ _ _ => rfl)]
    exact h.time
  running := fun p x hlt hx => by
    rw [hp.frame.nextQueue] at hlt
    rw [hp.frame.events]
    refine h.running p x hlt ?_
    by_cases hpq : p = q
    · rw [hpq, hp.contents]
      exact List.mem_cons_of_mem e (hpq ▸ hx)
    · rwa [hp.contents_ne hpq] at hx

/-- A pipe is empty when its merge is. -/
theorem PipeReady.pipeEvents_nil (hr : PipeReady w c) (hn : w.queueNodes c k = []) :
    Ats.pipeEvents w c k = [] := by
  have hstep := hr.eventPopFormPipe k
  cases hs : mergeStep (stamp w) (pipeLine w c k) with
  | none =>
      rw [mergeStep_none, ← size_eq_zero] at hs
      rw [Ats.pipeEvents, pipeMerge, hs]
      rfl
  | some r =>
      rw [hs] at hstep
      obtain ⟨v, hcall, _⟩ := hstep
      rw [hr.queue.eventPopFormPipe_nil hn] at hcall
      cases hcall

/-! ## The look-ahead -/

/-- The market block reads ahead of the market stream, and skips nothing. -/
theorem Timeless.look (h : Timeless w c) (hp : (w.ctxs c).pendingQueue = [])
    (hs : BusStep s w v) (hk : s ∈ ({.drop c, .save c} : Set StepKind)) (hi : BusInv v) :
    Timeless v c ∧ stream v c = stream w c ∧ (v.ctxs c).pendingQueue = []
      ∧ (v.ctxs c).mode = (w.ctxs c).mode := by
  have hr := h.ready hp
  cases hs with
  | drop hpop hmode hskip hsaved =>
      rename_i w1 d q e b
      have hd : d = c := by
        rcases hk with hk | hk <;> cases hk
        rfl
      subst hd
      rcases hskip with hstop | ⟨_, hlate⟩
      · refine absurd hstop (h.running q e hpop.linkable.lt ?_)
        rw [hpop.contents]
        exact List.mem_cons_self
      · rw [h.time] at hlate
        exact absurd hlate (Nat.not_lt_zero _)
  | save hpop hsaved hts =>
      rename_i w1 d q e ts
      have hd : d = c := by
        rcases hk with hk | hk <;> cases hk
        rfl
      subst hd
      have hts' : ts = (w1.events e).timestamp := by
        rw [hpop.frame.events]
        rcases hts with hts | ⟨_, _, hlt, _⟩
        · exact hts
        · rw [h.time] at hlt
          exact absurd hlt (Nat.not_lt_zero _)
      subst hts'
      have hv : w1.updEvent e (fun x => { x with timestamp := (w1.events e).timestamp })
          = w1 := by
        simp [World.updEvent]
      rw [hv] at hi ⊢
      have hb : Beside w1 (busSave w1 d q e) d := Beside.setSaved w1 d (some e) (some q)
      have hi1 : BusInv w1 := h.inv.of_pipePop hpop (hb.queues.symm.queueInv hi.queue)
      have h1 := h.pop hpop hi1
      obtain ⟨hmarket, hothers⟩ := hpop.pipeEvents hr
      have hmode : ((busSave w1 d q e).ctxs d).mode = (w.ctxs d).mode := by
        rw [busSave_proj w1 d d q e Ctx.mode (fun _ _ _ => rfl)]
        exact hpop.frame.ctx_proj d Ctx.mode (fun _ _ _ => rfl)
      refine ⟨h1.beside hb hi, ?_, ?_, hmode⟩
      · have hrest : (pipeOrder (w.ctxs d).mode).flatMap (pipeEvents (busSave w1 d q e) d)
            = (pipeOrder (w.ctxs d).mode).flatMap (pipeEvents w d) := by
          refine List.flatMap_congr (fun j hj => ?_)
          rw [hb.pipeEvents, hothers j (pipeOrder_ne hj)]
        rw [stream, stream, hmode, hrest, busSave_savedEvent, hb.pipeEvents, hsaved,
          hmarket]
        rfl
      · rw [hb.queues.pending, hpop.frame.pendingQueue]
        exact hp
  | _ => rcases hk with hk | hk <;> cases hk

/-! ## What is served -/

/-- **The cascade follows the order of its mode.** -/
theorem busSource_pipe (hs : busSource w c now = .pipe k) :
    ∃ pre post, pipeOrder (w.ctxs c).mode = pre ++ k :: post
      ∧ ∀ j ∈ pre, pipeIsEmpty w c j = true := by
  unfold busSource at hs
  split at hs
  case h_1 hm =>
    rw [hm]
    unfold busSimulationSource at hs
    split at hs
    · cases hs
    split at hs
    · cases hs
    split at hs
    · cases hs
      exact ⟨[], [.service, .command], rfl, by simp⟩
    split at hs
    · cases hs
      exact ⟨[.execution], [.command], rfl, by simp_all⟩
    split at hs
    · cases hs
      exact ⟨[.execution, .service], [], rfl, by simp_all⟩
    split at hs <;> cases hs
  case h_2 hm =>
    rw [hm]
    unfold busRealtimeSource at hs
    split at hs
    · cases hs
    split at hs
    · cases hs
    split at hs
    · cases hs
      exact ⟨[], [.command, .service], rfl, by simp⟩
    split at hs
    · cases hs
      exact ⟨[.execution], [.service], rfl, by simp_all⟩
    split at hs
    · cases hs
      exact ⟨[.execution, .command], [], rfl, by simp_all⟩
    split at hs <;> cases hs

theorem pipeOrder_nodup (m : BusMode) : (pipeOrder m).Nodup := by
  cases m <;> decide

/-- **One event of the stream is served**, the first. -/
theorem Timeless.serve (h : Timeless w c) (hp : (w.ctxs c).pendingQueue = [])
    (hfill : w.queueNodes c .market = [] ∨ (w.ctxs c).savedEvent ≠ none)
    (hs : Served w c (busSource w c now) v o) (hi : BusInv v) :
    Timeless v c ∧ stream w c = o.toList ++ stream v c ∧ (v.ctxs c).pendingQueue = []
      ∧ (v.ctxs c).mode = (w.ctxs c).mode ∧ (o = none → stream w c = []) := by
  have hr := h.ready hp
  have hnil : ∀ {j : QueueCategory}, pipeIsEmpty w c j = true → pipeEvents w c j = [] :=
    fun hj => hr.pipeEvents_nil ((h.inv.queue.pipeIsEmpty_iff c _).mp hj)
  have hspec := busSource_spec w c now
  generalize hsrc : busSource w c now = src at hs
  cases hs with
  | timer hpop =>
      rename_i k t w1
      -- no timer is armed on such a bus
      have hfirst := hpop.first
      rw [h.timers k] at hfirst
      cases hfirst
  | pipe hpop hk =>
      rename_i k q e w1
      obtain ⟨pre, post, horder, hempty⟩ := busSource_pipe hsrc
      have hb := Beside.note (c := c) w1 (a := .give c k q e) (fun _ => rfl)
      have hi1 : BusInv w1 := h.inv.of_pipePop hpop (hb.queues.symm.queueInv hi.queue)
      obtain ⟨hself, hothers⟩ := hpop.pipeEvents hr
      have hnd := pipeOrder_nodup (w.ctxs c).mode
      rw [horder, List.nodup_append, List.nodup_cons] at hnd
      have hsame : ∀ l : List QueueCategory, k ∉ l →
          l.flatMap (pipeEvents w1 c) = l.flatMap (pipeEvents w c) := fun l hl =>
        List.flatMap_congr (fun j hj => hothers j (fun hc => hl (hc ▸ hj)))
      -- the pipes before this one are empty, so its head is the first of the stream
      have hpre : pre.flatMap (pipeEvents w c) = [] :=
        List.flatMap_eq_nil_iff.mpr (fun j hj => hnil (hempty j hj))
      have hmode : (w1.ctxs c).mode = (w.ctxs c).mode :=
        hpop.frame.ctx_proj c Ctx.mode (fun _ _ _ => rfl)
      refine ⟨(h.pop hpop hi1).beside hb hi, ?_, ?_, hmode, fun hn => by cases hn⟩
      · have hstream : stream (w1.note (.give c k q e)) c = stream w1 c := by
          simp only [stream, funext hb.pipeEvents]
          rfl
        rw [hstream, stream, stream, hmode, horder, List.flatMap_append, List.flatMap_append,
          hpre, hsame pre (fun hc => hnd.2.2 k hc k List.mem_cons_self rfl), hpre,
          List.flatMap_cons, List.flatMap_cons, hsame post hnd.2.1.1, hself,
          hothers .market hk.symm, hpop.frame.savedEvent]
        rfl
      · show (w1.ctxs c).pendingQueue = []
        rw [hpop.frame.pendingQueue]
        exact hp
  | saved hun hfw =>
      rename_i e w1
      have hall : (pipeOrder (w.ctxs c).mode).flatMap (pipeEvents w c) = [] :=
        List.flatMap_eq_nil_iff.mpr (fun j hj =>
          hnil (hspec.late (Or.inl hsrc) j (pipeOrder_ne hj)))
      obtain ⟨q, hsv, _, rfl⟩ := busUnsave_eq hun
      have hb : Beside w ((w.updCtx c fun x => { x with savedEvent := none, savedFrom := none
          }).note (.give c .market q e)) c :=
        (Beside.setSaved w c none none).trans (Beside.note _ (fun _ => rfl))
      generalize hw1 : (w.updCtx c fun x => { x with savedEvent := none, savedFrom := none
        }).note (.give c .market q e) = w1 at hb hfw
      have hcount := hb.count.trans h.alone
      -- nothing is attached, so nothing is forwarded
      have hv : v = w1 := by
        split at hfw
        · rw [busForward, hcount] at hfw
          exact (Option.some.inj hfw).symm
        · exact hfw
      subst hv
      have hsv1 : (v.ctxs c).savedEvent = none := by
        rw [← hw1]
        simp [World.note, World.updCtx]
      have hmode1 : (v.ctxs c).mode = (w.ctxs c).mode := by
        rw [← hw1]
        simp [World.note, World.updCtx]
      have hall1 : (pipeOrder (w.ctxs c).mode).flatMap (pipeEvents v c) = [] := by
        rw [funext hb.pipeEvents]
        exact hall
      refine ⟨h.beside hb hi, ?_, ?_, hmode1, fun hn => by cases hn⟩
      · rw [stream, stream, hmode1, hall, hall1, hsv, hsv1, hb.pipeEvents]
        rfl
      · rw [hb.queues.pending]
        exact hp
  | nothing =>
      have hsaved := hspec.nothing hsrc
      -- with nothing saved after the look-ahead the market pipe is dry
      have hmarket : pipeEvents w c .market = [] := by
        rcases hfill with hm | hm
        · exact hr.pipeEvents_nil hm
        · exact absurd hsaved hm
      have hall : (pipeOrder (w.ctxs c).mode).flatMap (pipeEvents w c) = [] :=
        List.flatMap_eq_nil_iff.mpr (fun j hj =>
          hnil (hspec.late (Or.inr hsrc) j (pipeOrder_ne hj)))
      have hstream : stream w c = [] := by
        rw [stream, hall, hsaved, hmarket]
        rfl
      exact ⟨h, by rfl, hp, rfl, fun _ => hstream⟩

/-! ## Draining a bus -/

/-- Calls `bus_dequeue` until it returns `NULL`; `clock` is what the wall
clock shows at each call. -/
def drainBus : Nat → World → CtxId → (Nat → Nat) → Option (World × List EventId)
  | 0, _, _, _ => none
  | n + 1, w, c, clock => do
      let (w, e) ← busDequeue w c (clock 0)
      match e with
      | none => some (w, [])
      | some e => do
          let (w, es) ← drainBus n w c fun i => clock (i + 1)
          some (w, e :: es)

theorem checkPendingQueue_nil (hp : (w.ctxs c).pendingQueue = []) :
    checkPendingQueue w c = some w := by
  rw [checkPendingQueue, hp]
  rfl

/-- **Each call takes one event off the stream.** -/
theorem Timeless.dequeue (h : Timeless w c) (hp : (w.ctxs c).pendingQueue = []) (now : Nat) :
    ∃ v o, busDequeue w c now = some (v, o) ∧ Timeless v c ∧ (v.ctxs c).pendingQueue = []
      ∧ stream w c = o.toList ++ stream v c ∧ (o = none → stream w c = []) := by
  obtain ⟨w1, w2, v, o, hcall, hd⟩ := h.inv.busDequeue c now
  have hcheck := hd.check
  rw [checkPendingQueue_nil hp] at hcheck
  cases hcheck
  obtain ⟨h2, hp2, hstream⟩ := hd.look.run.keeps
    (P := fun u => Timeless u c ∧ (u.ctxs c).pendingQueue = [] ∧ stream u c = stream w c)
    (fun _ hk u u' _ hi' hs hu => by
      obtain ⟨hu', hstream, hpu, _⟩ := hu.1.look hu.2.1 hs hk hi'
      exact ⟨hu', hpu, hstream.trans hu.2.2⟩)
    ⟨h, hp, rfl⟩
  obtain ⟨hv, htake, hpv, _, hnone⟩ :=
    h2.serve hp2 hd.look.filled hd.served hd.finish.inv
  exact ⟨v, o, hcall, hv, hpv, hstream ▸ htake, fun hn => hstream ▸ hnone hn⟩

/-- **A timeless bus delivers its stream.** -/
theorem Timeless.drain : ∀ (n : Nat) {w : World} (clock : Nat → Nat), Timeless w c →
    (w.ctxs c).pendingQueue = [] → (stream w c).length < n →
    ∃ v, drainBus n w c clock = some (v, stream w c) := by
  intro n
  induction n with
  | zero =>
      intro w _ _ _ hn
      exact absurd hn (Nat.not_lt_zero _)
  | succ n ih =>
      intro w clock h hp hn
      obtain ⟨v, o, hcall, hv, hpv, htake, hnone⟩ := h.dequeue hp (clock 0)
      rw [drainBus, hcall]
      cases o with
      | none => exact ⟨v, by rw [hnone rfl]; rfl⟩
      | some e =>
          rw [htake] at hn
          obtain ⟨v', hrest⟩ := ih (fun i => clock (i + 1)) hv hpv (by simpa using hn)
          refine ⟨v', ?_⟩
          show Option.bind (drainBus n v c _) _ = _
          rw [hrest, htake]
          rfl

/-! ## Filling a bus -/

/-- A call that registers a queue, or pushes an event that does not end a
simulation. -/
def BusOp.Loads (w : World) : BusOp → Prop
  | .addQueue _ _ => True
  | .push _ e => (w.events e).eventType ≠ simulatorStopEvent
  | _ => False

theorem Booted.timeless (h : Booted w) (h0 : (w.ctxs c).time .clockLocal = 0) :
    Timeless w c where
  inv := h.inv
  line := h.lineInv c
  covered := fun q d hq hd _ => by
    rw [h.queueCtx q hq] at hd
    cases hd
  timers := h.timerNodes c
  alone := (h.ctxs c).attachedCount
  time := h0
  running := fun q x hq hx => by
    rw [h.contents hq] at hx
    cases hx

/-- Registering, from wherever the queue comes. -/
theorem Still.added (h : Still w c) (hadd : QueueAdded w v d q) : Still v c := by
  have hf := hadd.frame
  refine ⟨fun k => ?_, ?_, ?_, fun p x hlt hx => ?_⟩
  · exact (hf.sameTimers.timerNodes c k).trans (h.timers k)
  · exact (hf.sameSlots.count c).trans h.alone
  · rw [hf.ctx_proj c Ctx.time (fun _ _ _ => rfl)]
    exact h.time
  · rw [hadd.contents] at hx
    rw [hf.events]
    exact h.running p x (hf.nextQueue ▸ hlt) hx

theorem Still.unpend (h : Still w c) (rest : List QueueId) :
    Still (w.updCtx c fun x => { x with pendingQueue := rest }) c := by
  refine ⟨fun k => ?_, ?_, ?_, h.running⟩
  · simpa [World.timerNodes, World.timerMem, World.updCtx] using h.timers k
  · simpa [World.updCtx] using h.alone
  · simpa [World.updCtx] using h.time

/-- **Each call that fills a bus.** -/
theorem BusOp.Did.timeless {op : BusOp} {r : List (CtxId × EventId)} (hd : op.Did w v r)
    (hi : BusInv w) (hi' : BusInv v) (hclean : op.Clean w) (hload : op.Loads w)
    (h : Timeless w c) :
    Timeless v c ∧ (v.ctxs c).savedEvent = (w.ctxs c).savedEvent ∧ v.events = w.events
      ∧ r = [] := by
  cases op with
  | addQueue d q =>
      obtain ⟨hadd, rfl⟩ := hd
      have hc : (w.queues q).ctx = some d ∨ (w.queues q).ctx = none :=
        hclean.2.elim Or.inr (fun hc => Or.inl hc.1)
      have hline := h.line.added hadd hclean.1 hc
        (hi.queue.nowhere_of_registrable hclean).1
      exact ⟨⟨h.toStill.added hadd, hi', hline, hadd.covered (fun p e _ => h.covered p e)⟩,
        hadd.frame.savedEvent c, hadd.frame.events, rfl⟩
  | push q e =>
      obtain ⟨hpush | ⟨rfl, _⟩, rfl⟩ := hd
      · have hev : v.events = w.events := by
          obtain ⟨w1, ha, hw⟩ := hpush.append
          rw [hw, ha.rest]
        refine ⟨⟨⟨fun k => ?_, ?_, ?_, fun p x hlt hx => ?_⟩, hi',
          h.line.pushed hpush hi.queue, h.covered.push hpush⟩, ?_, hev, rfl⟩
        · exact (hpush.sameTimers.timerNodes c k).trans (h.timers k)
        · rw [hpush.ctxs]
          exact h.alone
        · rw [hpush.ctxs]
          exact h.time
        · rw [hpush.nextQueue] at hlt
          rw [hev]
          by_cases hpq : p = q
          · subst hpq
            rw [hpush.contents, List.mem_append, List.mem_singleton] at hx
            rcases hx with hx | rfl
            · exact h.running p x hlt hx
            · exact hload
          · rw [hpush.contents_ne hpq] at hx
            exact h.running p x hlt hx
        · rw [hpush.ctxs]
      · exact ⟨h, rfl, rfl, rfl⟩
  | _ => exact absurd hload id

/-- Who stands where, and holds what. -/
structure SameHoldings (w w' : World) : Prop where
  next : w'.nextQueue = w.nextQueue
  ctx : ∀ p, (w'.queues p).ctx = (w.queues p).ctx
  category : ∀ p, (w'.queues p).category = (w.queues p).category
  contents : ∀ p, w'.contents p = w.contents p

/-- Taking in the pending queues. -/
theorem Timeless.checkPendingQueue (h : Timeless w c) :
    ∃ v, checkPendingQueue w c = some v ∧ Timeless v c ∧ (v.ctxs c).pendingQueue = []
      ∧ (v.ctxs c).savedEvent = (w.ctxs c).savedEvent ∧ SameHoldings w v := by
  obtain ⟨v, hcall, hrun, hp, _⟩ := h.inv.checkPendingQueue c
  obtain ⟨hv, hsaved, hsame⟩ := hrun.keeps
    (P := fun u => Timeless u c ∧ (u.ctxs c).savedEvent = (w.ctxs c).savedEvent
      ∧ SameHoldings w u)
    (fun s hs u u' hi hi' hstep hu => by
      rw [Set.mem_singleton_iff] at hs
      subst hs
      have hline := hstep.lineInv hi (by simp [fillKinds]) hu.1.line
      have hcov := hstep.covered hi hu.1.covered
      cases hstep with
      | reenter hpend hadd =>
          rename_i q rest
          have hq : (u.queues q).ctx = some c :=
            (hi.queue.pending c q (by rw [hpend]; exact List.mem_cons_self)).1.ctx
          have hsame := hu.2.2
          refine ⟨⟨(hu.1.toStill.unpend rest).added hadd, hi', hline, hcov⟩, ?_,
            hadd.frame.nextQueue.trans hsame.next, fun p => ?_, fun p => ?_, fun p => ?_⟩
          · rw [hadd.frame.savedEvent]
            simpa [World.updQueue, World.updCtx] using hu.2.1
          · rw [← hsame.ctx]
            by_cases hpq : p = q
            · rw [hpq, hadd.ctx, hq]
            · rw [hadd.others p hpq]
              rfl
          · rw [← hsame.category]
            exact hadd.queue_category p
          · rw [← hsame.contents]
            exact hadd.contents p)
    ⟨h, rfl, rfl, fun _ => rfl, fun _ => rfl, fun _ => rfl⟩
  exact ⟨v, hcall, hv, hp, hsaved, hsame⟩

/-- A load goes through, and returns nothing. -/
theorem Timeless.load (h : Timeless w c) {ops : List BusOp} (hload : ∀ op ∈ ops, op.Loads w)
    (hrun : CleanRun w ops) : ∃ v, runOps w ops = some (v, []) ∧ Timeless v c
      ∧ (v.ctxs c).savedEvent = (w.ctxs c).savedEvent := by
  obtain ⟨v, r, hcall, _, hv, hsaved, _, hr⟩ := Along.keeps
    (I := fun u rs => Timeless u c ∧ (u.ctxs c).savedEvent = (w.ctxs c).savedEvent
      ∧ u.events = w.events ∧ rs = [])
    (fun _ _ hc => hc) ops [] h.inv hrun
    (fun op hop u u' r rs hi hi' hclean hdid hu => by
      obtain ⟨hu, hsaved, hev, rfl⟩ := hu
      have hloads : op.Loads u := by
        have := hload op hop
        cases op with
        | push q e => rwa [BusOp.Loads, hev]
        | _ => exact this
      obtain ⟨hu', hsaved', hev', rfl⟩ := hdid.timeless hi hi' hclean hloads hu
      exact ⟨hu', hsaved'.trans hsaved, hev'.trans hev, rfl⟩)
    ⟨h, rfl, rfl, rfl⟩
  rw [List.nil_append] at hr
  subst hr
  exact ⟨v, hcall, hv, hsaved⟩

/-! ## Either mode -/

/-- The client sets `ctx->mode`. -/
def World.inMode (w : World) (c : CtxId) (m : BusMode) : World :=
  w.updCtx c fun x => { x with mode := m }

/-- Changes of two fields of contexts can be made in either order. -/
theorem World.updCtx_comm (w : World) (c d : CtxId) {f g : Ctx → Ctx}
    (h : ∀ x, f (g x) = g (f x)) : (w.updCtx c f).updCtx d g = (w.updCtx d g).updCtx c f := by
  by_cases hcd : d = c
  · subst hcd
    simp [World.updCtx, h]
  · have hdc : c ≠ d := fun hc => hcd hc.symm
    simp [World.updCtx, Function.update_of_ne hcd, Function.update_of_ne hdc,
      Function.update_comm hcd]

theorem inMode_proj {β : Type} (w : World) (c d : CtxId) (m : BusMode) (g : Ctx → β)
    (h : ∀ x m, g { x with mode := m } = g x) : g ((w.inMode c m).ctxs d) = g (w.ctxs d) :=
  w.updCtx_proj c d g (fun x => h x m)

/-- A change of contexts that leaves modes alone. -/
theorem updCtx_inMode (w : World) (c d : CtxId) (m : BusMode) {f : Ctx → Ctx}
    (h : ∀ x, f { x with mode := m } = { f x with mode := m }) :
    (w.inMode c m).updCtx d f = (w.updCtx d f).inMode c m :=
  w.updCtx_comm c d (fun x => (h x).symm)

theorem Timeless.inMode (h : Timeless w c) (m : BusMode) :
    Timeless (w.inMode c m) c ∧ ∀ k, pipeEvents (w.inMode c m) c k = pipeEvents w c k := by
  have hb : Beside w (w.inMode c m) c :=
    { queues := updCtx_sameQueues w c (fun _ => ⟨rfl, rfl⟩)
      startId := fun _ => rfl
      counter := inMode_proj w c c m Ctx.counter (fun _ _ => rfl)
      events := fun _ => ⟨rfl, rfl⟩
      timers := ⟨fun _ => rfl, fun _ => rfl, rfl,
        fun d => inMode_proj w c d m Ctx.timerHeap (fun _ _ => rfl)⟩
      count := inMode_proj w c c m Ctx.attachedCount (fun _ _ => rfl)
      time := inMode_proj w c c m Ctx.time (fun _ _ => rfl)
      line := rfl }
  refine ⟨h.beside hb ?_, hb.pipeEvents⟩
  exact h.inv.updCtx c (fun _ => ⟨rfl, rfl, rfl, rfl, rfl, rfl, rfl⟩)

theorem eventQueueAppend_inMode (w : World) (c : CtxId) (m : BusMode) (q : QueueId)
    (e : EventId) : eventQueueAppend (w.inMode c m) q e
      = ((eventQueueAppend w q e).1.inMode c m, (eventQueueAppend w q e).2) := by
  have hq : ((w.inMode c m).queues q).spsc = (w.queues q).spsc := rfl
  simp only [eventQueueAppend, hq]
  split <;> rfl

theorem eventQueueNotify_inMode (w : World) (c : CtxId) (m : BusMode) (q : QueueId)
    (isEmpty : Bool) (ret : Int) : eventQueueNotify (w.inMode c m) q isEmpty ret
      = (eventQueueNotify w q isEmpty ret).map fun v => v.inMode c m := by
  have hctx : ((w.inMode c m).queues q).ctx = (w.queues q).ctx := rfl
  simp only [eventQueueNotify, hctx]
  split
  · split
    · rw [busAsyncAddQueue, updCtx_inMode _ _ _ _ (fun _ => rfl)]
      rfl
    · rfl
  · rfl

/-- The calls that fill a bus do not look at its mode. -/
theorem eventQueuePush_inMode (w : World) (c : CtxId) (m : BusMode) (q : QueueId)
    (e : EventId) : eventQueuePush (w.inMode c m) q e
      = (eventQueuePush w q e).map fun r => (r.1.inMode c m, r.2) := by
  have hempty : eventQueueIsEmpty (w.inMode c m) q = eventQueueIsEmpty w q := rfl
  rw [eventQueuePush, eventQueueAppend_inMode, hempty, eventQueuePush]
  simp only [eventQueueNotify_inMode]
  cases eventQueueNotify (eventQueueAppend w q e).1 q (eventQueueIsEmpty w q)
    (eventQueueAppend w q e).2 <;> rfl

theorem queueHeapInsert_inMode (w : World) (c d : CtxId) (m : BusMode) (k : QueueCategory)
    (q : QueueId) : queueHeapInsert (w.inMode c m) d k q
      = (queueHeapInsert w d k q).map fun v => v.inMode c m := by
  have hmem : (w.inMode c m).queueMem d k = w.queueMem d k := by
    rw [World.queueMem, inMode_proj w c d m Ctx.queueHeap (fun _ _ => rfl)]
    rfl
  have hless : queueLessThan (w.inMode c m) = queueLessThan w := rfl
  rw [queueHeapInsert, queueHeapInsert, hmem, hless]
  cases heapInsert (queueLessThan w) (w.queueMem d k) q with
  | none => rfl
  | some mem =>
      have hset : (w.inMode c m).setQueueMem d k mem = (w.setQueueMem d k mem).inMode c m :=
        congrArg (fun v : World => { v with queueNode := mem.node })
          (updCtx_inMode w c d m (fun _ => rfl))
      exact congrArg some hset

theorem queueStart_inMode (w : World) (c d : CtxId) (m : BusMode) (q : QueueId) :
    queueStart (w.inMode c m) d q = (queueStart w d q).inMode c m := by
  have hcnt : ((w.inMode c m).ctxs d).counter = (w.ctxs d).counter :=
    inMode_proj w c d m Ctx.counter (fun _ _ => rfl)
  rw [queueStart, hcnt, queueStart]
  exact updCtx_inMode (w.updQueue q fun x => { x with startId := (w.ctxs d).counter }) c d m
    (f := fun x => { x with counter := (w.ctxs d).counter + 1 }) (fun _ => rfl)

theorem busAddQueue_inMode (w : World) (c d : CtxId) (m : BusMode) (q : QueueId) :
    busAddQueue (w.inMode c m) d q = (busAddQueue w d q).map fun v => v.inMode c m := by
  have hreg : busRegister (w.inMode c m) d q
      = (busRegister w d q).map fun v => v.inMode c m := by
    have hctx : ((w.inMode c m).queues q).ctx = (w.queues q).ctx := rfl
    rw [busRegister, busRegister, hctx]
    split
    · exact congrArg some (queueStart_inMode
        ((w.updQueue q fun x => { x with ctx := some d }).note (.register d q)) c d m q)
    · rfl
  rw [busAddQueue, hreg, busAddQueue]
  cases busRegister w d q with
  | none => rfl
  | some v =>
      have hempty : eventQueueIsEmpty (v.inMode c m) q = eventQueueIsEmpty v q := rfl
      show (if eventQueueIsEmpty (v.inMode c m) q then some (v.inMode c m)
        else queueHeapInsert (v.inMode c m) d (v.queues q).category q) = _
      rw [hempty, queueHeapInsert_inMode]
      show _ = (if eventQueueIsEmpty v q then some v
        else queueHeapInsert v d (v.queues q).category q).map fun v => v.inMode c m
      split <;> rfl

theorem checkPendingLoop_inMode (c d : CtxId) (m : BusMode) : ∀ (n : Nat) (w : World),
    checkPendingLoop n (w.inMode c m) d
      = (checkPendingLoop n w d).map fun v => v.inMode c m := by
  intro n
  induction n with
  | zero => exact fun w => rfl
  | succ n ih =>
      intro w
      have hpend : ((w.inMode c m).ctxs d).pendingQueue = (w.ctxs d).pendingQueue :=
        inMode_proj w c d m Ctx.pendingQueue (fun _ _ => rfl)
      rw [checkPendingLoop, hpend, checkPendingLoop]
      cases (w.ctxs d).pendingQueue with
      | nil => rfl
      | cons q rest =>
          have hupd := updCtx_inMode w c d m
            (f := fun x => { x with pendingQueue := rest }) (fun _ => rfl)
          simp only [hupd, busAddQueue_inMode]
          cases busAddQueue (w.updCtx d fun x => { x with pendingQueue := rest }) d q with
          | none => rfl
          | some v => exact ih v

theorem checkPendingQueue_inMode (w : World) (c d : CtxId) (m : BusMode) :
    checkPendingQueue (w.inMode c m) d
      = (checkPendingQueue w d).map fun v => v.inMode c m := by
  rw [checkPendingQueue, inMode_proj w c d m Ctx.pendingQueue (fun _ _ => rfl)]
  exact checkPendingLoop_inMode c d m _ w

theorem BusOp.exec_inMode {op : BusOp} (h : op.Loads v) (w : World) (c : CtxId)
    (m : BusMode) : op.exec (w.inMode c m)
      = (op.exec w).map fun r => (r.1.inMode c m, r.2) := by
  cases op with
  | addQueue d q =>
      rw [BusOp.exec, busAddQueue_inMode, BusOp.exec]
      cases busAddQueue w d q <;> rfl
  | push q e =>
      rw [BusOp.exec, eventQueuePush_inMode, BusOp.exec]
      cases eventQueuePush w q e <;> rfl
  | _ => exact absurd h id

theorem runOps_inMode (c : CtxId) (m : BusMode) : ∀ (ops : List BusOp) {w : World},
    (∀ op ∈ ops, op.Loads v) →
    runOps (w.inMode c m) ops = (runOps w ops).map fun r => (r.1.inMode c m, r.2) := by
  intro ops
  induction ops with
  | nil => exact fun _ => rfl
  | cons op ops ih =>
      intro w h
      rw [runOps, BusOp.exec_inMode (h op List.mem_cons_self), runOps]
      cases op.exec w with
      | none => rfl
      | some r =>
          show Option.bind (runOps (r.1.inMode c m) ops) _
            = Option.map _ (Option.bind (runOps r.1 ops) _)
          rw [ih (fun o ho => h o (List.mem_cons_of_mem op ho))]
          cases runOps r.1 ops <;> rfl

/-! ## The two modes -/

/-- Draining `c` until it returns `NULL` yields `es`. -/
def Delivers (w : World) (c : CtxId) (clock : Nat → Nat) (es : List EventId) : Prop :=
  ∃ N, ∀ n, N < n → ∃ v, drainBus n w c clock = some (v, es)

/-- `e` waits in a queue of category `k` of bus `c`. -/
def Waits (w : World) (c : CtxId) (k : QueueCategory) (e : EventId) : Prop :=
  ∃ q, q < w.nextQueue ∧ (w.queues q).ctx = some c ∧ (w.queues q).category = k
    ∧ e ∈ w.contents q

theorem Timeless.mem_pipeEvents (h : Timeless w c) (hp : (w.ctxs c).pendingQueue = [])
    (k : QueueCategory) : e ∈ pipeEvents w c k ↔ Waits w c k e := by
  obtain ⟨v, out, _, hm⟩ := (h.ready hp).merged (k := k) (Nat.lt_succ_self _)
  have hperm := hm.perm
  rw [hm.merge] at hperm
  rw [pipeEvents, hperm.mem_iff, List.mem_flatMap]
  constructor
  · rintro ⟨⟨q, es⟩, hq, he⟩
    obtain ⟨hlt, hc, hk, rfl⟩ := (hm.line q es).mp hq
    exact ⟨q, hlt, hc, hk, he⟩
  · rintro ⟨q, hlt, hc, hk, he⟩
    exact ⟨(q, _), (hm.line q _).mpr ⟨hlt, hc, hk, rfl⟩, he⟩

/-- The first call of a drain takes the pending queues in. -/
theorem drainBus_check (h : checkPendingQueue w c = some v)
    (hp : (v.ctxs c).pendingQueue = []) (n : Nat) (clock : Nat → Nat) :
    drainBus n w c clock = drainBus n v c clock := by
  cases n with
  | zero => rfl
  | succ n =>
      have hsame : busDequeue w c (clock 0) = busDequeue v c (clock 0) := by
        rw [busDequeue, h, busDequeue, checkPendingQueue_nil hp]
      rw [drainBus, hsame, drainBus]

/-- **What a loaded bus delivers** in one mode. -/
theorem Timeless.delivers (h : Timeless v c) (hp : (v.ctxs c).pendingQueue = [])
    (hcheck : Ats.checkPendingQueue w c = some v) (m : BusMode) (clock : Nat → Nat) :
    Delivers (w.inMode c m) c clock (stream (v.inMode c m) c) := by
  have hcheck' : Ats.checkPendingQueue (w.inMode c m) c = some (v.inMode c m) := by
    rw [checkPendingQueue_inMode, hcheck]
    rfl
  have hp' : ((v.inMode c m).ctxs c).pendingQueue = [] :=
    (inMode_proj v c c m Ctx.pendingQueue (fun _ _ => rfl)).trans hp
  refine ⟨(stream (v.inMode c m) c).length, fun n hn => ?_⟩
  rw [drainBus_check hcheck' hp']
  exact (h.inMode m).1.drain n clock hp' hn

theorem Timeless.stream_eq (h : Timeless v c) (hs : (v.ctxs c).savedEvent = none)
    (m : BusMode) : stream (v.inMode c m) c
      = (pipeOrder m).flatMap (pipeEvents v c) ++ pipeEvents v c .market := by
  have hmode : ((v.inMode c m).ctxs c).mode = m := by simp [World.inMode, World.updCtx]
  have hsaved : ((v.inMode c m).ctxs c).savedEvent = none :=
    (inMode_proj v c c m Ctx.savedEvent (fun _ _ => rfl)).trans hs
  rw [stream, hmode, hsaved, funext (h.inMode m).2]
  rfl

/-- **The two modes deliver the same stream exactly when services and
commands commute.** On a bus that `bus_init` left, loaded with any queues,
the streams of both modes agree if and only if the merged service events and
the merged command events are repetitions of one sequence; where no event
waits in queues of both categories, that is: if one of the two categories is
empty. -/
theorem modes_agree_iff (hw : Booted w) (h0 : (w.ctxs c).time .clockLocal = 0)
    (ops : List BusOp) (hload : ∀ op ∈ ops, op.Loads w) (hrun : CleanRun w ops)
    (clock clock' : Nat → Nat) :
    ∃ w1 w2 sim real, runOps w ops = some (w1, []) ∧ checkPendingQueue w1 c = some w2
      ∧ (∀ m, runOps (w.inMode c m) ops = some (w1.inMode c m, []))
      ∧ Delivers (w1.inMode c .simulation) c clock sim
      ∧ Delivers (w1.inMode c .realtime) c clock' real
      ∧ (sim = real ↔ SameRoot (pipeEvents w2 c .service) (pipeEvents w2 c .command))
      ∧ ((∀ e, Waits w1 c .service e → ¬ Waits w1 c .command e) →
        (sim = real ↔ (∀ e, ¬ Waits w1 c .service e) ∨ ∀ e, ¬ Waits w1 c .command e)) := by
  obtain ⟨w1, hcall, h1, hsaved1⟩ := (hw.timeless h0).load hload hrun
  obtain ⟨w2, hcheck, h2, hp2, hsaved2, hsame⟩ := h1.checkPendingQueue
  have hsaved : (w2.ctxs c).savedEvent = none :=
    (hsaved2.trans hsaved1).trans (hw.ctxs c).savedEvent
  have hwait : ∀ k e, Waits w1 c k e ↔ e ∈ pipeEvents w2 c k := by
    intro k e
    rw [h2.mem_pipeEvents hp2, Waits, Waits]
    simp only [hsame.next, hsame.ctx, hsame.category, hsame.contents]
  have hagree : stream (w2.inMode c .simulation) c = stream (w2.inMode c .realtime) c
      ↔ SameRoot (pipeEvents w2 c .service) (pipeEvents w2 c .command) := by
    rw [h2.stream_eq hsaved, h2.stream_eq hsaved, List.append_cancel_right_eq, ← comm_iff]
    simp only [pipeOrder, List.flatMap_cons, List.flatMap_nil, List.append_nil,
      List.append_cancel_left_eq]
  refine ⟨w1, w2, _, _, hcall, hcheck, fun m => ?_, h2.delivers hp2 hcheck .simulation clock,
    h2.delivers hp2 hcheck .realtime clock', hagree, fun hdis => ?_⟩
  · rw [runOps_inMode c m ops hload, hcall]
    rfl
  · simp only [hwait] at hdis ⊢
    rw [hagree, sameRoot_iff_of_disjoint hdis, List.eq_nil_iff_forall_not_mem,
      List.eq_nil_iff_forall_not_mem]

/-- Queues of three categories, one of them filled before it is registered. -/
theorem modes_agree_iff_three :
    ∃ w1 w2 sim real, runOps (World.fresh .simulation 0
        [(4, .market), (4, .service), (4, .execution)] (fun e => ⟨1, askEvent, 0, e⟩))
        [.push 1 7, .addQueue 0 1, .addQueue 0 0, .push 0 3, .addQueue 0 2, .push 2 5]
          = some (w1, [])
      ∧ checkPendingQueue w1 0 = some w2
      ∧ (∀ m, runOps ((World.fresh .simulation 0
          [(4, .market), (4, .service), (4, .execution)] (fun e => ⟨1, askEvent, 0, e⟩)).inMode
            0 m)
          [.push 1 7, .addQueue 0 1, .addQueue 0 0, .push 0 3, .addQueue 0 2, .push 2 5]
            = some (w1.inMode 0 m, []))
      ∧ Delivers (w1.inMode 0 .simulation) 0 id sim
      ∧ Delivers (w1.inMode 0 .realtime) 0 id real
      ∧ (sim = real ↔ SameRoot (pipeEvents w2 0 .service) (pipeEvents w2 0 .command))
      ∧ ((∀ e, Waits w1 0 .service e → ¬ Waits w1 0 .command e) →
        (sim = real ↔ (∀ e, ¬ Waits w1 0 .service e) ∨ ∀ e, ¬ Waits w1 0 .command e)) :=
  modes_agree_iff (World.fresh_booted (by simp)) rfl _
    (by simp [BusOp.Loads, World.fresh, askEvent, simulatorStopEvent]) (by decide +kernel) id id

/-- One event in a service queue and one in a command queue: simulation
serves the service first, real time the command. -/
theorem modes_disagree :
    ∃ w1 w2 w3, runOps (World.fresh .simulation 0 [(4, .service), (4, .command)]
        (fun e => ⟨1, askEvent, 0, e⟩))
        [.push 0 3, .push 1 5, .addQueue 0 0, .addQueue 0 1] = some (w1, [])
      ∧ drainBus 3 (w1.inMode 0 .simulation) 0 id = some (w2, [3, 5])
      ∧ drainBus 3 (w1.inMode 0 .realtime) 0 id = some (w3, [5, 3]) := by
  have hrun : (runOps (World.fresh .simulation 0 [(4, .service), (4, .command)]
      (fun e => ⟨1, askEvent, 0, e⟩))
      [.push 0 3, .push 1 5, .addQueue 0 0, .addQueue 0 1]).any (fun r =>
        decide (r.2 = [])
        && (drainBus 3 (r.1.inMode 0 .simulation) 0 id).any (fun x => decide (x.2 = [3, 5]))
        && (drainBus 3 (r.1.inMode 0 .realtime) 0 id).any (fun x => decide (x.2 = [5, 3])))
      = true := by decide +kernel
  rw [Option.any_eq_true] at hrun
  obtain ⟨⟨w1, r⟩, hcall, hw⟩ := hrun
  rw [Bool.and_eq_true, Bool.and_eq_true, decide_eq_true_iff, Option.any_eq_true,
    Option.any_eq_true] at hw
  obtain ⟨⟨hr, ⟨w2, s2⟩, h2, hs2⟩, ⟨w3, s3⟩, h3, hs3⟩ := hw
  rw [decide_eq_true_iff] at hs2 hs3
  subst hr hs2 hs3
  exact ⟨w1, w2, w3, hcall, h2, h3⟩

end Ats
