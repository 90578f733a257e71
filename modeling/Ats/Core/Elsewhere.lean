import Ats.Core.Delivery

/-!
# Elsewhere: what a bus leaves alone before it returns an event

Until `bus_dequeue` hands out the saved event, a bus moves only its own
queues and its own context, pushes nothing, and touches no reference count.
-/

namespace Ats

variable {w w' w'' : World} {c d : CtxId} {q p : QueueId} {e : EventId} {s : StepKind}

/-- What happens on the bus's own account: nothing pushed, nothing attached,
no market event returned. -/
def Act.Quiet : Act → Prop
  | .push _ _ => False
  | .attach _ _ => False
  | .give _ .market _ _ => False
  | _ => True

/-- The steps of `bus_dequeue` on `c` but for handing out the saved event
and forwarding it. -/
def quietKinds (c : CtxId) : Set StepKind :=
  {.reenter c, .drop c, .save c, .give c, .fire c}

/-- **A quiet stretch of bus `c`.** -/
structure Quiet (w w' : World) (c : CtxId) : Prop where
  ctxs_ne : ∀ d, d ≠ c → w'.ctxs d = w.ctxs d
  queues_ne : ∀ q, (w.queues q).ctx ≠ some c → w'.queues q = w.queues q
  queue_ctx : ∀ q, (w'.queues q).ctx = (w.queues q).ctx
  nextQueue : w'.nextQueue = w.nextQueue
  attached : ∀ d, (w'.ctxs d).attached = (w.ctxs d).attached
    ∧ (w'.ctxs d).attachedCount = (w.ctxs d).attachedCount
  refcount : ∀ e, (w'.events e).refcount = (w.events e).refcount
  contents : ∀ q, ∀ x ∈ w'.contents q, x ∈ w.contents q
  log : ∃ acts, w'.log = w.log ++ acts ∧ ∀ a ∈ acts, a.Quiet

namespace Quiet

theorem refl (w : World) (c : CtxId) : Quiet w w c where
  ctxs_ne := fun _ _ => rfl
  queues_ne := fun _ _ => rfl
  queue_ctx := fun _ => rfl
  nextQueue := rfl
  attached := fun _ => ⟨rfl, rfl⟩
  refcount := fun _ => rfl
  contents := fun _ _ hx => hx
  log := ⟨[], (List.append_nil _).symm, fun _ ha => by cases ha⟩

theorem trans (h : Quiet w w' c) (h' : Quiet w' w'' c) : Quiet w w'' c where
  ctxs_ne := fun d hd => (h'.ctxs_ne d hd).trans (h.ctxs_ne d hd)
  queues_ne := fun q hq =>
    (h'.queues_ne q (by rw [h.queue_ctx]; exact hq)).trans (h.queues_ne q hq)
  queue_ctx := fun q => (h'.queue_ctx q).trans (h.queue_ctx q)
  nextQueue := h'.nextQueue.trans h.nextQueue
  attached := fun d => ⟨(h'.attached d).1.trans (h.attached d).1,
    (h'.attached d).2.trans (h.attached d).2⟩
  refcount := fun e => (h'.refcount e).trans (h.refcount e)
  contents := fun q x hx => h.contents q x (h'.contents q x hx)
  log := by
    obtain ⟨as, hl, ha⟩ := h.log
    obtain ⟨bs, hl', hb⟩ := h'.log
    refine ⟨as ++ bs, by rw [hl', hl, List.append_assoc], fun a hm => ?_⟩
    rcases List.mem_append.mp hm with hm | hm
    · exact ha a hm
    · exact hb a hm

end Quiet

/-- Serving a pipe, seen from elsewhere. -/
theorem PipePop.quiet {k : QueueCategory} (h : PipePop w w' c k q e) : Quiet w w' c where
  ctxs_ne := h.ctxs_ne
  queues_ne := fun p hp => h.others p (by
    rintro rfl
    exact hp h.linkable.ctx)
  queue_ctx := h.frame.queue_ctx
  nextQueue := h.frame.nextQueue
  attached := fun d => ⟨h.frame.sameSlots.attached d, h.frame.sameSlots.count d⟩
  refcount := fun e => by rw [h.frame.events]
  contents := fun p x hx => by
    by_cases hpq : p = q
    · rw [hpq, h.contents]
      exact List.mem_cons_of_mem e (hpq ▸ hx)
    · rwa [h.contents_ne hpq] at hx
  log := ⟨_, h.log, fun a ha => by
    rw [List.mem_singleton] at ha
    rw [ha]
    trivial⟩

/-- An entry of the history that is quiet changes nothing else. -/
theorem Quiet.note (w : World) (c : CtxId) {a : Act} (ha : a.Quiet) :
    Quiet w (w.note a) c where
  ctxs_ne := fun _ _ => rfl
  queues_ne := fun _ _ => rfl
  queue_ctx := fun _ => rfl
  nextQueue := rfl
  attached := fun _ => ⟨rfl, rfl⟩
  refcount := fun _ => rfl
  contents := fun _ _ hx => hx
  log := ⟨[a], rfl, fun b hb => by
    rw [List.mem_singleton] at hb
    rw [hb]
    exact ha⟩

/-- A change of the bus's own context that keeps its table. -/
theorem Quiet.updCtx (w : World) (c : CtxId) {f : Ctx → Ctx}
    (hf : ∀ x, (f x).attached = x.attached ∧ (f x).attachedCount = x.attachedCount) :
    Quiet w (w.updCtx c f) c where
  ctxs_ne := fun _ hd => w.updCtx_ctxs_ne hd f
  queues_ne := fun _ _ => rfl
  queue_ctx := fun _ => rfl
  nextQueue := rfl
  attached := fun d => ⟨w.updCtx_proj c d Ctx.attached (fun x => (hf x).1),
    w.updCtx_proj c d Ctx.attachedCount (fun x => (hf x).2)⟩
  refcount := fun _ => rfl
  contents := fun _ _ hx => hx
  log := ⟨[], (List.append_nil _).symm, fun _ ha => by cases ha⟩

/-- **Each quiet step is quiet.** -/
theorem BusStep.quiet (hs : BusStep s w w') (hi : BusInv w) (hk : s ∈ quietKinds c) :
    Quiet w w' c := by
  cases hs with
  | reenter hpend hadd =>
      rename_i x q rest
      have hx : x = c := by
        rcases hk with hk | hk | hk | hk | hk <;> cases hk
        rfl
      subst hx
      have hctx := (hi.queue.pending x q (by rw [hpend]; exact List.mem_cons_self)).1.ctx
      have hf := hadd.frame
      have hrest : Quiet w (w.updCtx x fun y => { y with pendingQueue := rest }) x :=
        Quiet.updCtx w x (fun _ => ⟨rfl, rfl⟩)
      refine hrest.trans ?_
      refine ⟨hadd.ctxs_ne, fun p hp => hadd.others p ?_, fun p => ?_, hf.nextQueue,
        fun d => ⟨hadd.sameSlots.attached d, hadd.sameSlots.count d⟩,
        fun e => by rw [hf.events]; rfl, fun p y hy => ?_, _, hadd.log, fun a ha => ?_⟩
      · rintro rfl
        exact hp hctx
      · by_cases hpq : p = q
        · rw [hpq, hadd.ctx]
          exact hctx.symm
        · rw [hadd.others p hpq]
      · rwa [hadd.contents] at hy
      · rw [List.mem_singleton] at ha
        rw [ha]
        trivial
  | drop hpop hmode hskip hsaved =>
      rename_i w1 x q e stop
      have hx : x = c := by
        rcases hk with hk | hk | hk | hk | hk <;> cases hk
        rfl
      subst hx
      have hflag : Quiet w1 (w1.updCtx x fun y => { y with isSimulatorStop := stop }) x :=
        Quiet.updCtx w1 x (fun _ => ⟨rfl, rfl⟩)
      exact (hpop.quiet.trans hflag).trans (Quiet.note _ _ trivial)
  | save hpop hsaved hts =>
      rename_i w1 x q e ts
      have hx : x = c := by
        rcases hk with hk | hk | hk | hk | hk <;> cases hk
        rfl
      subst hx
      have hstamp : Quiet w1 (w1.updEvent e fun y => { y with timestamp := ts }) x :=
        ⟨fun _ _ => rfl, fun _ _ => rfl, fun _ => rfl, rfl, fun _ => ⟨rfl, rfl⟩,
          fun a => w1.updEvent_proj e a Event.refcount (fun _ => rfl), fun _ _ hx => hx,
          [], (List.append_nil _).symm, fun _ ha => by cases ha⟩
      refine (hpop.quiet.trans hstamp).trans ?_
      exact Quiet.updCtx _ x (fun _ => ⟨rfl, rfl⟩)
  | give hpop hmarket =>
      rename_i w1 x k q e
      have hx : x = c := by
        rcases hk with hk | hk | hk | hk | hk <;> cases hk
        rfl
      subst hx
      refine hpop.quiet.trans (Quiet.note _ _ ?_)
      cases k with
      | market => exact absurd rfl hmarket
      | _ => trivial
  | fire hpop =>
      rename_i w1 x k t
      have hx : x = c := by
        rcases hk with hk | hk | hk | hk | hk <;> cases hk
        rfl
      subst hx
      have hf := hpop.frame
      have hpopQuiet : Quiet w w1 x := by
        refine ⟨hpop.ctxs_ne, fun p _ => by rw [hf.queues], fun p => by rw [hf.queues],
          hf.nextQueue, fun d => ⟨hf.sameSlots.attached d, hf.sameSlots.count d⟩,
          fun e => by rw [hf.events], fun p y hy => ?_, [], by rw [hf.log, List.append_nil],
          fun _ ha => by cases ha⟩
        rwa [hf.sameQueues.contents] at hy
      exact hpopQuiet.trans (Quiet.note _ _ trivial)
  | _ => rcases hk with hk | hk | hk | hk | hk <;> cases hk

theorem BusRun.quiet {S : Set StepKind} (hr : BusRun S w w') (hS : S ⊆ quietKinds c) :
    Quiet w w' c :=
  hr.keeps (P := fun v => Quiet w v c)
    (fun _ hm _ _ hv _ hs hp => hp.trans (hs.quiet hv (hS hm))) (Quiet.refl w c)

/-- **Up to the point where a source is served**, `bus_dequeue` is quiet. -/
theorem Dequeued.quiet {now : Nat} {w1 w2 : World} {r : Option EventId}
    (h : Dequeued w c now w1 w2 w' r) : Quiet w w2 c := by
  refine (h.enter.quiet ?_).trans (h.look.run.quiet ?_)
  · rintro s rfl
    simp [quietKinds]
  · rintro s (rfl | rfl) <;> simp [quietKinds]

/-! ## Timers stand still -/

/-- Nothing has changed about timers, not even the fields a client sets. -/
structure TimersStand (w w' : World) : Prop where
  reminders : w'.reminders = w.reminders
  node : w'.timerNode = w.timerNode
  heap : ∀ d, (w'.ctxs d).timerHeap = (w.ctxs d).timerHeap

namespace TimersStand

theorem refl (w : World) : TimersStand w w := ⟨rfl, rfl, fun _ => rfl⟩

theorem trans (h : TimersStand w w') (h' : TimersStand w' w'') : TimersStand w w'' where
  reminders := h'.reminders.trans h.reminders
  node := h'.node.trans h.node
  heap := fun d => (h'.heap d).trans (h.heap d)

theorem timerNodes (h : TimersStand w w') (d : CtxId) (j : ClockType) :
    w'.timerNodes d j = w.timerNodes d j := by
  rw [World.timerNodes, World.timerMem, h.heap, h.node]
  rfl

theorem updCtx (w : World) (c : CtxId) {f : Ctx → Ctx}
    (hf : ∀ x, (f x).timerHeap = x.timerHeap) : TimersStand w (w.updCtx c f) :=
  ⟨rfl, rfl, fun d => w.updCtx_proj c d Ctx.timerHeap hf⟩

end TimersStand

theorem QueueFrame.timersStand (h : QueueFrame w w') : TimersStand w w' :=
  ⟨h.reminders, h.timerNode, fun d => h.ctx_proj d Ctx.timerHeap (fun _ _ _ => rfl)⟩

theorem QueuePushed.timersStand (h : QueuePushed w w' q e) : TimersStand w w' := by
  obtain ⟨w1, ha, hw⟩ := h.append
  exact ⟨by rw [hw, ha.rest], by rw [hw, ha.rest], fun d => by rw [h.ctxs]⟩

theorem busUnsave_timersStand (h : busUnsave w c = some (w', e)) : TimersStand w w' := by
  obtain ⟨q, _, _, rfl⟩ := busUnsave_eq h
  have hrest : TimersStand w (w.updCtx c fun x =>
      { x with savedEvent := none, savedFrom := none }) := TimersStand.updCtx w c (fun _ => rfl)
  exact ⟨rfl, rfl, hrest.heap⟩

/-- **Only firing touches a timer.** -/
theorem BusStep.timersStand (hs : BusStep s w w') (hk : ∀ d, s ≠ .fire d) :
    TimersStand w w' := by
  cases hs with
  | add hlt hctx hadd =>
      have h := hadd.frame.timersStand
      exact ⟨h.reminders, h.node, h.heap⟩
  | reenter hpend hadd =>
      rename_i x q rest
      have hrest : TimersStand w (w.updCtx x fun y => { y with pendingQueue := rest }) :=
        TimersStand.updCtx w x (fun _ => rfl)
      have h := hadd.frame.timersStand
      exact hrest.trans ⟨h.reminders, h.node, h.heap⟩
  | push hpush => exact hpush.timersStand
  | drop hpop hmode hskip hsaved =>
      rename_i w1 x q e stop
      have hflag : TimersStand w1 (w1.updCtx x fun y => { y with isSimulatorStop := stop }) :=
        TimersStand.updCtx w1 x (fun _ => rfl)
      exact hpop.frame.timersStand.trans ⟨hflag.reminders, hflag.node, hflag.heap⟩
  | save hpop _ _ =>
      refine hpop.frame.timersStand.trans ⟨rfl, rfl, fun d => ?_⟩
      rw [busSave_proj _ _ d _ _ Ctx.timerHeap (fun _ _ _ => rfl)]
      rfl
  | give hpop _ => exact ⟨hpop.frame.timersStand.reminders, hpop.frame.timersStand.node,
      hpop.frame.timersStand.heap⟩
  | fire _ => exact absurd rfl (hk _)
  | release hun => exact busUnsave_timersStand hun
  | forward _ _ hpush => exact ⟨hpush.timersStand.reminders, hpush.timersStand.node,
      hpush.timersStand.heap⟩
  | overrun _ _ _ => exact ⟨rfl, rfl, fun _ => rfl⟩

theorem BusRun.timersStand {S : Set StepKind} (hr : BusRun S w w') (hS : ∀ d, .fire d ∉ S) :
    TimersStand w w' :=
  hr.keeps (P := fun v => TimersStand w v)
    (fun _ hm _ _ _ _ hs hp => hp.trans (hs.timersStand (fun d hc => hS d (hc ▸ hm))))
    (TimersStand.refl w)

/-- Up to the point where a source is served, timers stand still. -/
theorem Dequeued.timersStand {now : Nat} {w1 w2 : World} {r : Option EventId}
    (h : Dequeued w c now w1 w2 w' r) : TimersStand w w2 :=
  (h.enter.timersStand (by simp)).trans (h.look.run.timersStand (by simp))

end Ats
