import Ats.Core.TimerOrder
import Ats.Core.PipeMerge

/-!
# Interleave: timers and market data in time order

In simulation mode a local timer is served while the look-ahead holds a
market event that is not older; the market event follows when no such timer
is left and the other pipes are empty.
-/

namespace Ats

variable {w w' w1 w2 : World} {c d : CtxId} {k : QueueCategory} {j : ClockType}
  {q p : QueueId} {e t s : EventId} {now : Nat} {o : Option EventId} {kind : StepKind}

/-! ## What a call adds to the history -/

/-- What is recorded before a source is served. -/
def Act.Early : Act → Prop
  | .register _ _ => True
  | .take _ _ => True
  | .drop _ _ => True
  | _ => False

theorem BusStep.early (hs : BusStep kind w w')
    (hk : kind ∈ ({.reenter c, .drop c, .save c} : Set StepKind)) :
    ∃ acts, w'.log = w.log ++ acts ∧ ∀ a ∈ acts, a.Early := by
  cases hs with
  | reenter _ hadd =>
      refine ⟨_, hadd.log, fun a ha => ?_⟩
      rw [List.mem_singleton] at ha
      rw [ha]
      trivial
  | drop hpop hmode hskip hsaved =>
      rename_i w1 x q e stop
      refine ⟨[.take q e, .drop q e], ?_, fun a ha => ?_⟩
      · show w1.log ++ [.drop q e] = _
        rw [hpop.log, List.append_assoc]
        rfl
      · rcases List.mem_cons.mp ha with rfl | ha
        · trivial
        · rw [List.mem_singleton] at ha
          rw [ha]
          trivial
  | save hpop _ _ =>
      refine ⟨_, hpop.log, fun a ha => ?_⟩
      rw [List.mem_singleton] at ha
      rw [ha]
      trivial
  | _ => rcases hk with hk | hk | hk <;> cases hk

/-- **Nothing is returned until a source is served.** -/
theorem Dequeued.early (h : Dequeued w c now w1 w2 w' o) :
    ∃ acts, w2.log = w.log ++ acts ∧ ∀ a ∈ acts, a.Early := by
  have hrun : BusRun {.reenter c, .drop c, .save c} w w2 :=
    (h.enter.mono (by rintro s rfl; simp)).trans
      (h.look.run.mono (by rintro s (rfl | rfl) <;> simp))
  refine hrun.keeps (P := fun v => ∃ acts, v.log = w.log ++ acts ∧ ∀ a ∈ acts, a.Early)
    (fun s hm v v' _ _ hs hp => ?_) ⟨[], (List.append_nil _).symm, fun a ha => by cases ha⟩
  obtain ⟨as, hl, ha⟩ := hp
  obtain ⟨bs, hl', hb⟩ := hs.early hm
  refine ⟨as ++ bs, by rw [hl', hl, List.append_assoc], fun a hm => ?_⟩
  rcases List.mem_append.mp hm with hm | hm
  · exact ha a hm
  · exact hb a hm

/-! ## What a call returns, and when -/

/-- **A market event comes last**: after every local timer that is due by
then, and when the other pipes are empty. **A local timer** that is returned
is the least, and due at the saved event. -/
structure InTurn (w w' : World) (c : CtxId) (o : Option EventId) (acts : List Act) :
    Prop where
  log : w'.log = w.log ++ acts
  returned : acts.filterMap Act.returned = (o.map fun e => (c, e)).toList
  market : ∀ q e, .give c .market q e ∈ acts → o = some e
    ∧ (∀ t ∈ w'.timerNodes c .clockLocal,
        (w'.events e).timestamp < (w'.reminders t).timeout)
    ∧ ∀ k, k ≠ .market → w'.queueNodes c k = []
  timer : ∀ t timeout, .fire c .clockLocal t timeout ∈ acts → o = some t
    ∧ t ∈ w.timerNodes c .clockLocal ∧ timeout = (w.reminders t).timeout
    ∧ (∀ s ∈ w.timerNodes c .clockLocal, timerKey w t ≤ timerKey w s)
    ∧ ∃ e, (w'.ctxs c).savedEvent = some e ∧ timeout ≤ (w'.events e).timestamp

/-- Why `bus_simualtion_dequeue` chooses a source. -/
theorem busSimulationSource_timer (h : busSimulationSource w c = .timer j) :
    timerDueAtSaved w c j = true := by
  unfold busSimulationSource at h
  split at h
  case isTrue hd =>
    cases h
    exact hd
  case isFalse =>
    split at h
    case isTrue hd =>
      cases h
      exact hd.2
    case isFalse => repeat' split at h <;> try cases h

theorem busSimulationSource_saved (h : busSimulationSource w c = .saved) :
    timerDueAtSaved w c .clockLocal = false := by
  unfold busSimulationSource at h
  split at h
  case isTrue => cases h
  case isFalse hd => simpa using hd

/-- The timer that is popped is the one that was compared. -/
theorem TimerPop.dueAtSaved (hpop : TimerPop w w' c j t) (hi : TimerInv w)
    (hdue : timerDueAtSaved w c j = true) :
    ∃ e, (w.ctxs c).savedEvent = some e ∧ timerHeapPeek w c j = some t
      ∧ (w.reminders t).timeout ≤ (w.events e).timestamp := by
  obtain ⟨e, r, he, hr, hle⟩ := timerDueAtSaved_peek hdue
  have hrt : r = t := by
    rw [hi.timerHeapPeek_eq] at hr
    exact Option.some.inj (hr.symm.trans hpop.first)
  subst hrt
  exact ⟨e, he, hr, hle⟩

theorem busForward_queueNodes {v : World} (hr : BusRun {.forward d, .overrun d} w v)
    (c : CtxId) (k : QueueCategory) : v.queueNodes c k = w.queueNodes c k := by
  refine hr.keeps (P := fun u => u.queueNodes c k = w.queueNodes c k)
    (fun s hm u u' _ _ hs hp => ?_) rfl
  cases hs with
  | forward _ _ hpush => rw [hpush.queueNodes]; exact hp
  | overrun _ _ _ => exact hp
  | _ => rcases hm with hm | hm <;> cases hm

/-- What the loop over the attached queues adds to the history. -/
theorem busForward_log {v : World} (hr : BusRun {.forward d, .overrun d} w v) :
    ∃ acts, v.log = w.log ++ acts ∧ ∀ a ∈ acts, ∃ q e, a = .push q e := by
  refine hr.keeps (P := fun u => ∃ acts, u.log = w.log ++ acts ∧ ∀ a ∈ acts, ∃ q e, a = .push q e)
    (fun s hm u u' _ _ hs hp => ?_) ⟨[], (List.append_nil _).symm, fun a ha => by cases ha⟩
  obtain ⟨as, hl, ha⟩ := hp
  cases hs with
  | forward hlt hatt hpush =>
      rename_i x i q e
      refine ⟨as ++ [.push q e], ?_, fun a hm => ?_⟩
      · rw [hpush.log, show (eventRef u e).log = u.log from rfl, hl, List.append_assoc]
      · rcases List.mem_append.mp hm with hm | hm
        · exact ha a hm
        · exact ⟨q, e, List.mem_singleton.mp hm⟩
  | overrun _ _ _ => exact ⟨as, hl, ha⟩
  | _ => rcases hm with hm | hm <;> cases hm

theorem eventRef_proj {β : Type} (w : World) (e x : EventId) (g : Event → β)
    (hg : ∀ y n, g { y with refcount := n } = g y) :
    g ((eventRef w e).events x) = g (w.events x) :=
  w.updEvent_proj e x g fun y => hg y _

theorem eventRef_timestamp (w : World) (e x : EventId) :
    ((eventRef w e).events x).timestamp = (w.events x).timestamp :=
  eventRef_proj w e x Event.timestamp (fun _ _ => rfl)

/-- The loop changes nothing of an event but its count. -/
theorem busForward_proj {β : Type} {v : World} (hr : BusRun {.forward d, .overrun d} w v)
    (x : EventId) (g : Event → β) (hg : ∀ y n, g { y with refcount := n } = g y) :
    g (v.events x) = g (w.events x) := by
  refine hr.keeps (P := fun u => g (u.events x) = g (w.events x))
    (fun s hm u u' _ _ hs hp => ?_) rfl
  cases hs with
  | forward _ _ hpush => rw [hpush.events, eventRef_proj _ _ x g hg]; exact hp
  | overrun _ _ _ => rw [eventRef_proj _ _ x g hg]; exact hp
  | _ => rcases hm with hm | hm <;> cases hm

theorem busForward_savedEvent {v : World} (hr : BusRun {.forward d, .overrun d} w v)
    (c : CtxId) : (v.ctxs c).savedEvent = (w.ctxs c).savedEvent := by
  refine hr.keeps (P := fun u => (u.ctxs c).savedEvent = (w.ctxs c).savedEvent)
    (fun s hm u u' _ _ hs hp => ?_) rfl
  cases hs with
  | forward _ _ hpush => rw [hpush.sameSlots.saved]; exact hp
  | overrun _ _ _ => exact hp
  | _ => rcases hm with hm | hm <;> cases hm

/-- Serving the saved event ends in the loop over the attached queues. -/
theorem BusInv.released (h : BusInv w) {v : World} (hun : Ats.busUnsave w c = some (v, e))
    (hgo : if (w.ctxs c).mode = .simulation then Ats.busForward v c e = some w' else w' = v) :
    BusRun {.forward c, .overrun c} v w' := by
  have hiv := h.of_busUnsave hun
  split at hgo
  case isTrue =>
    obtain ⟨w'', hfw, hrun⟩ := hiv.busForward c e
    rw [hfw] at hgo
    cases hgo
    exact hrun
  case isFalse =>
    rw [hgo]
    exact BusRun.refl hiv

/-- **What serving the saved event leaves**: the history has it, and after it
only the pushes of its copies; the look-ahead is empty; the timers, the pipes
and what the events say stand. -/
structure HandedOut (w w' : World) (c : CtxId) (p : QueueId) (e : EventId)
    (copies : List Act) : Prop where
  saved : (w.ctxs c).savedEvent = some e
  log : w'.log = w.log ++ .give c .market p e :: copies
  pushes : ∀ a ∈ copies, ∃ q x, a = .push q x
  cleared : (w'.ctxs c).savedEvent = none
  timers : TimersStand w w'
  pipes : ∀ d k, w'.queueNodes d k = w.queueNodes d k
  events : ∀ {β : Type} (g : Event → β), (∀ y n, g { y with refcount := n } = g y) →
    ∀ x, g (w'.events x) = g (w.events x)

theorem BusInv.handedOut (h : BusInv w) {v : World} (hun : Ats.busUnsave w c = some (v, e))
    (hgo : if (w.ctxs c).mode = .simulation then Ats.busForward v c e = some w' else w' = v) :
    ∃ p copies, HandedOut w w' c p e copies := by
  have hrun := h.released hun hgo
  obtain ⟨p, he, _, hv⟩ := busUnsave_eq hun
  obtain ⟨copies, hlog, hpush⟩ := busForward_log hrun
  refine ⟨p, copies, he, ?_, hpush, ?_,
    (busUnsave_timersStand hun).trans (hrun.timersStand (by simp)), fun d k => ?_,
    fun g hg x => ?_⟩
  · have hlogv : v.log = w.log ++ [.give c .market p e] := by rw [hv]; rfl
    rw [hlog, hlogv, List.append_assoc]
    rfl
  · rw [busForward_savedEvent hrun, hv]
    simp [World.note, World.updCtx]
  · rw [busForward_queueNodes hrun, (busUnsave_sameQueues hun).queueNodes]
  · rw [busForward_proj hrun x g hg, hv]
    rfl

namespace HandedOut

variable {copies : List Act}

theorem timestamp (h : HandedOut w w' c p e copies) (x : EventId) :
    (w'.events x).timestamp = (w.events x).timestamp :=
  h.events Event.timestamp (fun _ _ => rfl) x

theorem not_give (h : HandedOut w w' c p e copies) (d : CtxId) (k : QueueCategory)
    (q : QueueId) (x : EventId) : .give d k q x ∉ copies := by
  intro hm
  obtain ⟨_, _, ha⟩ := h.pushes _ hm
  cases ha

theorem not_fire (h : HandedOut w w' c p e copies) (d : CtxId) (j : ClockType)
    (t : EventId) (n : Nat) : .fire d j t n ∉ copies := by
  intro hm
  obtain ⟨_, _, ha⟩ := h.pushes _ hm
  cases ha

end HandedOut

theorem Act.Early.not_give {a : Act} (h : a.Early) (c : CtxId) (k : QueueCategory)
    (q : QueueId) (e : EventId) : a ≠ .give c k q e := by
  rintro rfl
  exact h

theorem Act.Early.not_fire {a : Act} (h : a.Early) (c : CtxId) (j : ClockType)
    (t : EventId) (n : Nat) : a ≠ .fire c j t n := by
  rintro rfl
  exact h

theorem Dequeued.returned_acts {acts : List Act} (h : Dequeued w c now w1 w2 w' o)
    (hlog : w'.log = w.log ++ acts) :
    acts.filterMap Act.returned = (o.map fun e => (c, e)).toList := by
  have hret := h.returned
  rw [hlog, List.filterMap_append] at hret
  exact List.append_cancel_left hret

/-- **Each call of `bus_dequeue`** in simulation mode returns in turn. -/
theorem Dequeued.inTurn (h : Dequeued w c now w1 w2 w' o) (ht : TimersOrdered w)
    (hsim : (w.ctxs c).mode = .simulation) : ∃ acts, InTurn w w' c o acts := by
  obtain ⟨as, hlog2, hearly⟩ := h.early
  have hstand := h.timersStand
  have hi2 := h.look.run.inv
  have ht2 := ht.stand hstand
  have hsource : busSource w2 c now = busSimulationSource w2 c :=
    busSource_simulation (h.mode.trans hsim)
  have hserved := h.served
  generalize hsrc : busSource w2 c now = source at hserved
  rw [hsource] at hsrc
  have hspec := busSimulationSource_spec w2 c
  have hnotGive : ∀ k q e, .give c k q e ∉ as := fun k q e hm =>
    (hearly _ hm).not_give c k q e rfl
  have hnotFire : ∀ j t n, .fire c j t n ∉ as := fun j t n hm =>
    (hearly _ hm).not_fire c j t n rfl
  cases hserved with
  | @timer j t v hpop =>
      have hlog : (v.note (.fire c j t (w2.reminders t).timeout)).log
          = w.log ++ (as ++ [.fire c j t (w2.reminders t).timeout]) := by
        show v.log ++ _ = _
        rw [hpop.frame.log, hlog2, List.append_assoc]
      refine ⟨_, hlog, h.returned_acts hlog, fun q e hm => ?_, fun s n hm => ?_⟩
      · rcases List.mem_append.mp hm with hm | hm
        · exact absurd hm (hnotGive _ q e)
        · rw [List.mem_singleton] at hm
          cases hm
      · rcases List.mem_append.mp hm with hm | hm
        · exact absurd hm (hnotFire _ s n)
        · rw [List.mem_singleton] at hm
          cases hm
          -- it was the first in its heap, and due by the saved event
          obtain ⟨e, he, hr, hle⟩ :=
            hpop.dueAtSaved hi2.timer (busSimulationSource_timer hsrc)
          refine ⟨rfl, ?_, by rw [hstand.reminders], fun x hx => ?_, e, ?_, ?_⟩
          · rw [← hstand.timerNodes]
            exact hpop.mem
          · have hkey : ∀ y, timerKey w2 y = timerKey w y :=
              fun y => timerKey_congr (by rw [hstand.reminders])
            rw [← hkey, ← hkey]
            exact ht2.first hi2.timer hr (by rw [hstand.timerNodes]; exact hx)
          · show (v.ctxs c).savedEvent = some e
            rw [hpop.frame.sameSlots.saved]
            exact he
          · show _ ≤ (v.events e).timestamp
            rw [hpop.frame.events]
            exact hle
  | @pipe k q e v hpop hk =>
      have hlog : (v.note (.give c k q e)).log = w.log ++ (as ++ [.take q e, .give c k q e]) := by
        show v.log ++ _ = _
        rw [hpop.log, hlog2, List.append_assoc, List.append_assoc]
        rfl
      refine ⟨_, hlog, h.returned_acts hlog, fun p x hm => ?_, fun s n hm => ?_⟩
      · rcases List.mem_append.mp hm with hm | hm
        · exact absurd hm (hnotGive _ p x)
        · rcases List.mem_cons.mp hm with hm | hm
          · cases hm
          · rw [List.mem_singleton] at hm
            cases hm
            exact absurd rfl hk
      · rcases List.mem_append.mp hm with hm | hm
        · exact absurd hm (hnotFire _ s n)
        · rcases List.mem_cons.mp hm with hm | hm
          · cases hm
          · rw [List.mem_singleton] at hm
            cases hm
  | @saved e v w' hun hgo =>
      obtain ⟨p, bs, hout⟩ := hi2.handedOut hun hgo
      have hlog : w'.log = w.log ++ (as ++ (.give c .market p e :: bs)) := by
        rw [hout.log, hlog2, List.append_assoc]
      refine ⟨_, hlog, h.returned_acts hlog, fun q x hm => ?_, fun s n hm => ?_⟩
      · have hx : x = e := by
          rcases List.mem_append.mp hm with hm | hm
          · exact absurd hm (hnotGive _ q x)
          · rcases List.mem_cons.mp hm with hm | hm
            · cases hm
              rfl
            · exact absurd hm (hout.not_give c _ q x)
        subst hx
        refine ⟨rfl, fun t htm => ?_, fun k hk => ?_⟩
        · rw [hout.timers.timerNodes] at htm
          rw [hout.timestamp, hout.timers.reminders]
          refine ht2.not_due hi2.timer ?_ htm
          have hdue := busSimulationSource_saved hsrc
          rw [timerDueAtSaved, hout.saved] at hdue
          exact hdue
        · have hempty := hspec.late (Or.inl hsrc) k hk
          rw [hout.pipes]
          exact (hi2.queue.pipeIsEmpty_iff c k).mp hempty
      · rcases List.mem_append.mp hm with hm | hm
        · exact absurd hm (hnotFire _ s n)
        · rcases List.mem_cons.mp hm with hm | hm
          · cases hm
          · exact absurd hm (hout.not_fire c _ s n)
  | nothing =>
      exact ⟨as, hlog2, h.returned_acts hlog2, fun q e hm => absurd hm (hnotGive _ q e),
        fun s n hm => absurd hm (hnotFire _ s n)⟩

end Ats
