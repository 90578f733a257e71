import Ats.Core.BusView
import Ats.Core.StartIds

/-!
# View: the abstract bus in the memory

What the memory shows of one bus, and what each step makes of it: a step of
the bus itself is a step of the abstract bus, and a step of another bus shows
only where it appends to a queue of this one.
-/

namespace Ats

variable {w w' v : World} {c d : CtxId} {k : QueueCategory} {j : ClockType} {q p : QueueId}
  {t : EventId} {e : EventId} {s : StepKind} {now : Nat}

namespace World

/-- An event with the fields that `event_bus.c` reads. -/
def seen (w : World) (e : EventId) : Seen :=
  ⟨e, (w.events e).eventType, (w.events e).eventFlag, (w.events e).timestamp⟩

/-- `q` is registered on `d`. -/
def Owns (w : World) (d : CtxId) (q : QueueId) : Prop :=
  q < w.nextQueue ∧ (w.queues q).ctx = some d

instance (w : World) (d : CtxId) (q : QueueId) : Decidable (w.Owns d q) :=
  inferInstanceAs (Decidable (_ ∧ _))

def queueView (w : World) (q : QueueId) : QueueView where
  capacity := (w.queues q).spsc.capacity
  category := (w.queues q).category
  startId := (w.queues q).startId
  contents := (w.contents q).map w.seen

/-- **What bus `d` holds.** -/
def view (w : World) (d : CtxId) : BusView where
  mode := (w.ctxs d).mode
  time := (w.ctxs d).time
  counter := (w.ctxs d).counter
  pendingQueue := (w.ctxs d).pendingQueue
  saved := (w.ctxs d).savedEvent.map w.seen
  attached := attachedQueues w d
  queue := fun q => if w.Owns d q then some (w.queueView q) else none
  linked := fun k => { q | q ∈ w.queueNodes d k }
  timer := fun j t => if t ∈ w.timerNodes d j then some (w.reminders t) else none

theorem view_queue (h : w.Owns d q) : (w.view d).queue q = some (w.queueView q) := if_pos h

theorem view_queue_none (h : ¬ w.Owns d q) : (w.view d).queue q = none := if_neg h

theorem seen_congr (h : w'.events e = w.events e) : w'.seen e = w.seen e := by
  rw [seen, h, seen]

theorem queueView_congr (hq : w'.queues q = w.queues q)
    (he : ∀ e ∈ w.contents q, w'.seen e = w.seen e) : w'.queueView q = w.queueView q := by
  have hc : w'.contents q = w.contents q := by rw [contents, hq, contents]
  rw [queueView, queueView, hq, hc, List.map_congr_left he]

/-- The fields of a context that a bus reads, less its heaps. -/
structure SameCtx (x y : Ctx) : Prop where
  mode : y.mode = x.mode
  time : y.time = x.time
  counter : y.counter = x.counter
  pendingQueue : y.pendingQueue = x.pendingQueue
  savedEvent : y.savedEvent = x.savedEvent
  attached : y.attached = x.attached
  attachedCount : y.attachedCount = x.attachedCount

/-- **What is not touched is not seen to change.** -/
theorem view_congr (hctx : SameCtx (w.ctxs d) (w'.ctxs d))
    (howns : ∀ q, w'.Owns d q ↔ w.Owns d q)
    (hqueue : ∀ q, w.Owns d q → w'.queueView q = w.queueView q)
    (hsaved : ∀ e, (w.ctxs d).savedEvent = some e → w'.seen e = w.seen e)
    (hnodes : ∀ k q, q ∈ w'.queueNodes d k ↔ q ∈ w.queueNodes d k)
    (htimers : ∀ j t, t ∈ w'.timerNodes d j ↔ t ∈ w.timerNodes d j)
    (hrem : ∀ j t, t ∈ w.timerNodes d j → w'.reminders t = w.reminders t) :
    w'.view d = w.view d := by
  apply BusView.ext
  case mode => exact hctx.mode
  case time => exact hctx.time
  case counter => exact hctx.counter
  case pendingQueue => exact hctx.pendingQueue
  case saved =>
    show (w'.ctxs d).savedEvent.map w'.seen = (w.ctxs d).savedEvent.map w.seen
    rw [hctx.savedEvent]
    cases hs : (w.ctxs d).savedEvent with
    | none => rfl
    | some e => exact congrArg some (hsaved e hs)
  case attached =>
    show attachedQueues w' d = attachedQueues w d
    rw [attachedQueues, hctx.attached, hctx.attachedCount, attachedQueues]
  case queue =>
    funext q
    by_cases hq : w.Owns d q
    · rw [view_queue hq, view_queue ((howns q).mpr hq), hqueue q hq]
    · rw [view_queue_none hq, view_queue_none fun hc => hq ((howns q).mp hc)]
  case linked =>
    ext k q
    exact hnodes k q
  case timer =>
    funext j t
    show (if t ∈ w'.timerNodes d j then _ else _) = (if t ∈ w.timerNodes d j then _ else _)
    by_cases ht : t ∈ w.timerNodes d j
    · rw [if_pos ht, if_pos ((htimers j t).mpr ht), hrem j t ht]
    · rw [if_neg ht, if_neg fun hc => ht ((htimers j t).mp hc)]

/-- What looks the same holds events that look the same. -/
theorem view_seen (h : w'.view d = w.view d) (hq : w.Owns d q) (he : e ∈ w.contents q) :
    w'.seen e = w.seen e := by
  have hqueue := congrFun (congrArg BusView.queue h) q
  rw [view_queue hq] at hqueue
  have hown : w'.Owns d q := by
    by_contra hno
    rw [view_queue_none hno] at hqueue
    cases hqueue
  rw [view_queue hown, Option.some.injEq] at hqueue
  have hcont : (w'.contents q).map w'.seen = (w.contents q).map w.seen :=
    congrArg QueueView.contents hqueue
  have hmem : w.seen e ∈ (w'.contents q).map w'.seen := hcont ▸ List.mem_map_of_mem he
  obtain ⟨x, _, hx⟩ := List.mem_map.mp hmem
  obtain rfl : x = e := congrArg Seen.id hx
  exact hx

end World

open World

/-! ## The bus's own steps -/

theorem PipePop.owns (h : PipePop w w' c k q e) (p : QueueId) : w'.Owns d p ↔ w.Owns d p := by
  rw [Owns, Owns, h.frame.nextQueue, h.frame.queue_ctx]

/-- **Serving a pipe.** -/
theorem PipePop.view (h : PipePop w w' c k q e) (hi : QueueInv w) :
    w'.view c = (w.view c).pop k q ∧ (w.view c).head q = some (w.seen e) := by
  have hf := h.frame
  have hown : w.Owns c q := ⟨h.linkable.lt, h.linkable.ctx⟩
  have hseen : w'.seen = w.seen := funext fun a => seen_congr (by rw [hf.events])
  have hcont : (w.queueView q).contents = w.seen e :: (w'.contents q).map w.seen := by
    show (w.contents q).map w.seen = _
    rw [h.contents]
    rfl
  refine ⟨?_, by rw [BusView.head, view_queue hown, Option.bind_some, hcont]; rfl⟩
  have htail : (w.queueView q).contents.tail = (w'.contents q).map w.seen := by
    rw [hcont]
    rfl
  have hother : ∀ p, p ≠ q → (w'.view c).queue p = (w.view c).queue p := by
    intro p hp
    by_cases hown' : w.Owns c p
    · rw [view_queue hown', view_queue ((h.owns p).mpr hown'),
        queueView_congr (h.others p hp) fun a _ => congrFun hseen a]
    · rw [view_queue_none hown', view_queue_none fun hc => hown' ((h.owns p).mp hc)]
  -- `q` itself keeps the rest of its events, under a new start id if there is any
  have hself : (w'.view c).queue q = some { w.queueView q with
      startId := (w'.queues q).startId, contents := (w'.contents q).map w.seen } := by
    rw [view_queue ((h.owns q).mpr hown)]
    simp only [queueView, hseen, hf.capacity q, hf.queue_category q]
  -- it leaves its heap where it is drained
  have hlinked : ∀ i p, p ∈ w'.queueNodes c i ↔ p ∈ w.queueNodes c i
      ∧ (i = k → p = q → w'.contents q ≠ []) := by
    intro i p
    by_cases hik : i = k
    · subst hik
      rw [h.nodes.mem_iff]
      split
      case isTrue hnil =>
        rw [(hi.heap c i).nodup.mem_erase_iff]
        simp only [hnil, ne_eq, not_true_eq_false, forall_const, imp_false]
        tauto
      case isFalse hne => simp [hne]
    · rw [h.nodes_ne c i (Or.inr hik)]
      simp [hik]
  rw [BusView.pop, view_queue hown]
  simp only [htail, List.map_eq_nil_iff]
  apply BusView.ext
  case mode => exact hf.ctx_proj c Ctx.mode (fun _ _ _ => rfl)
  case time => exact hf.ctx_proj c Ctx.time (fun _ _ _ => rfl)
  case counter => exact h.counter
  case pendingQueue => exact hf.pendingQueue c
  case saved =>
    show (w'.ctxs c).savedEvent.map w'.seen = _
    rw [hf.savedEvent, hseen]
    rfl
  case attached => exact hf.sameSlots.attachedQueues c
  case queue =>
    funext p
    dsimp only
    by_cases hp : p = q
    · subst hp
      rw [hself, Function.update_self, h.startId]
      rfl
    · rw [Function.update_of_ne hp, hother p hp]
  case linked =>
    ext i p
    show p ∈ w'.queueNodes c i ↔ _
    dsimp only
    rw [hlinked]
    by_cases hnil : w'.contents q = []
    · rw [if_pos hnil]
      by_cases hik : i = k
      · subst hik
        rw [Function.update_self]
        show _ ↔ p ∈ w.queueNodes c i ∧ ¬ p = q
        simp [hnil]
      · rw [Function.update_of_ne hik]
        show _ ↔ p ∈ w.queueNodes c i
        simp [hik]
    · rw [if_neg hnil]
      show _ ↔ p ∈ w.queueNodes c i
      simp [hnil]
  case timer =>
    funext i t
    show (if t ∈ w'.timerNodes c i then _ else _) = _
    rw [hf.timersStand.timerNodes, hf.timersStand.reminders]
    rfl

/-- A queue with a new start id only. -/
theorem QueueAdded.queueView (h : QueueAdded w w' c q) :
    w'.queueView q = { w.queueView q with startId := (w.ctxs c).counter } := by
  have hf := h.frame
  have hcap : (w'.queues q).spsc.capacity = (w.queues q).spsc.capacity := by
    rw [hf.capacity q]
    exact w.updQueue_proj q q (fun x => x.spsc.capacity) (fun _ => rfl)
  have hseen : w'.seen = w.seen := funext fun a => seen_congr (by rw [hf.events]; rfl)
  simp only [World.queueView, hseen, hcap, h.category, h.startId, h.contents]

/-- **A pending queue goes into its heap.** -/
theorem BusStep.view_reenter (hs : BusStep (.reenter c) w w') (hi : BusInv w) :
    w'.view c = (w.view c).reenter
      ∧ (w.ctxs c).pendingQueue.length = (w'.ctxs c).pendingQueue.length + 1 := by
  cases hs with
  | reenter hpend hadd =>
      rename_i q rest
      obtain ⟨hl, _⟩ := hi.queue.pending c q (by rw [hpend]; exact List.mem_cons_self)
      obtain ⟨_, hnodes, _⟩ := hi.queue.unpend hpend
      generalize hv : (w.updCtx c fun x => { x with pendingQueue := rest }) = v at hadd hnodes
      have hvq : v.queues = w.queues := by rw [← hv]; rfl
      have hvn : v.nextQueue = w.nextQueue := by rw [← hv]; rfl
      have hve : v.events = w.events := by rw [← hv]; rfl
      have hvx : v.ctxs c = { w.ctxs c with pendingQueue := rest } := by
        rw [← hv]
        simp [World.updCtx]
      have hf := hadd.frame
      have hown : w.Owns c q := ⟨hl.lt, hl.ctx⟩
      have hseen : w'.seen = w.seen :=
        funext fun a => seen_congr (by rw [hf.events, ← hve]; rfl)
      -- the queue was registered on the bus before
      have howns : ∀ p, w'.Owns c p ↔ w.Owns c p := by
        intro p
        have hn : w'.nextQueue = w.nextQueue := hf.nextQueue.trans hvn
        rw [World.Owns, World.Owns, hn]
        by_cases hp : p = q
        · rw [hp, hadd.ctx, hl.ctx]
        · rw [hadd.others p hp, hvq]
      have hcat : (v.queues q).category = (w.queues q).category := by rw [hvq]
      have hpending : (w'.ctxs c).pendingQueue = rest := by
        rw [hf.pendingQueue]
        show (v.ctxs c).pendingQueue = rest
        rw [hvx]
      refine ⟨?_, by rw [hpend, hpending, List.length_cons]⟩
      have hproj : ∀ {β : Type} (g : Ctx → β),
          (∀ x l n, g { x with queueHeap := l, counter := n } = g x) →
          g (w'.ctxs c) = g (v.ctxs c) := fun g hg => hf.ctx_proj c g hg
      have hnonempty : v.contents q ≠ [] := by
        rw [World.contents, hvq]
        exact hl.nonempty
      rw [BusView.reenter, show (w.view c).pendingQueue = q :: rest from hpend]
      simp only [view_queue hown]
      apply BusView.ext
      case mode => exact (hproj Ctx.mode fun _ _ _ => rfl).trans (by rw [hvx]; rfl)
      case time => exact (hproj Ctx.time fun _ _ _ => rfl).trans (by rw [hvx]; rfl)
      case counter => exact hadd.counter.trans (by rw [hvx]; rfl)
      case pendingQueue => exact hpending
      case saved =>
        show (w'.ctxs c).savedEvent.map w'.seen = _
        rw [hproj Ctx.savedEvent fun _ _ _ => rfl, hvx, hseen]
        rfl
      case attached =>
        show attachedQueues w' c = attachedQueues w c
        rw [attachedQueues, hproj Ctx.attached fun _ _ _ => rfl,
          hproj Ctx.attachedCount fun _ _ _ => rfl, hvx]
        rfl
      case queue =>
        funext p
        dsimp only
        by_cases hp : p = q
        · subst hp
          have hsame : v.queueView p = w.queueView p :=
            queueView_congr (by rw [hvq]) fun a _ => seen_congr (by rw [hve])
          rw [view_queue ((howns p).mpr hown), hadd.queueView, Function.update_self, hsame, hvx]
          rfl
        · rw [Function.update_of_ne hp]
          by_cases ho : w.Owns c p
          · rw [view_queue ho, view_queue ((howns p).mpr ho)]
            refine congrArg some (queueView_congr ?_ fun a _ => congrFun hseen a)
            rw [hadd.others p hp, hvq]
          · rw [view_queue_none ho, view_queue_none fun hc => ho ((howns p).mp hc)]
      case linked =>
        ext i p
        show p ∈ w'.queueNodes c i ↔ _
        dsimp only
        by_cases hik : i = (w.queues q).category
        · have hperm := hadd.nodes
          rw [hcat, if_neg hnonempty] at hperm
          subst hik
          rw [hperm.mem_iff, hnodes, List.mem_cons, show (w.queueView q).category
            = (w.queues q).category from rfl, Function.update_self, Set.mem_insert_iff]
          exact Iff.rfl
        · rw [hadd.nodes_ne c i (by rw [hcat]; exact Or.inr hik), hnodes,
            Function.update_of_ne (show i ≠ (w.queueView q).category from hik)]
          exact Iff.rfl
      case timer =>
        funext i t
        show (if t ∈ w'.timerNodes c i then _ else _) = _
        have hunpend : TimersStand w (w.updCtx c fun x => { x with pendingQueue := rest }) :=
          TimersStand.updCtx w c fun _ => rfl
        rw [hv] at hunpend
        have hst : TimersStand w w' := hunpend.trans
          ⟨hf.timersStand.reminders, hf.timersStand.node, hf.timersStand.heap⟩
        rw [hst.timerNodes, hst.reminders]
        rfl

/-- **A timer fires.** -/
theorem TimerPop.view (h : TimerPop w w' c j t) (hi : TimerInv w) :
    w'.view c = (w.view c).fire j t (w.reminders t) := by
  have hf := h.frame
  have hnd := (hi.heap c j).nodup
  have hseen : w'.seen = w.seen := funext fun a => seen_congr (by rw [hf.events])
  have howns : ∀ p, w'.Owns c p ↔ w.Owns c p := fun p => by
    rw [World.Owns, World.Owns, hf.nextQueue, hf.queues]
  apply BusView.ext
  case mode => exact hf.ctx_proj c Ctx.mode (fun _ _ _ => rfl)
  case time => exact hf.ctx_proj c Ctx.time (fun _ _ _ => rfl)
  case counter => exact h.counter
  case pendingQueue => exact hf.ctx_proj c Ctx.pendingQueue (fun _ _ _ => rfl)
  case saved =>
    show (w'.ctxs c).savedEvent.map w'.seen = _
    rw [hf.ctx_proj c Ctx.savedEvent (fun _ _ _ => rfl), hseen]
    rfl
  case attached => exact hf.sameSlots.attachedQueues c
  case queue =>
    funext p
    show _ = (w.view c).queue p
    by_cases ho : w.Owns c p
    · rw [view_queue ho, view_queue ((howns p).mpr ho)]
      exact congrArg some (queueView_congr (by rw [hf.queues]) fun a _ => congrFun hseen a)
    · rw [view_queue_none ho, view_queue_none fun hc => ho ((howns p).mp hc)]
  case linked =>
    ext i p
    show p ∈ w'.queueNodes c i ↔ p ∈ w.queueNodes c i
    rw [hf.sameQueues.queueNodes]
  case timer =>
    funext i u
    show (if u ∈ w'.timerNodes c i then some (w'.reminders u) else none) = _
    dsimp only [BusView.fire]
    -- only `t` on clock `j` is not as it was
    by_cases hij : i = j
    · subst hij
      rw [Function.update_self]
      by_cases hu : u = t
      · subst hu
        rw [Function.update_self]
        by_cases hrep : (w.reminders u).repeat = 0
        · rw [if_pos hrep, if_neg]
          rw [h.nodes.mem_iff, if_pos hrep]
          exact hnd.not_mem_erase
        · rw [if_neg hrep, if_pos, h.reminder, if_neg hrep]
          · rfl
          · rw [h.nodes.mem_iff, if_neg hrep]
            exact h.mem
      · have hmem : u ∈ w'.timerNodes c i ↔ u ∈ w.timerNodes c i := h.mem_ne hu
        rw [Function.update_of_ne hu, h.others u hu]
        show _ = if u ∈ w.timerNodes c i then _ else _
        simp only [hmem]
    · rw [Function.update_of_ne hij, h.nodes_ne c i (Or.inr hij)]
      show _ = if u ∈ w.timerNodes c i then _ else _
      by_cases hu : u ∈ w.timerNodes c i
      · rw [if_pos hu, if_pos hu, h.others u]
        rintro rfl
        exact hi.notMem_other h.armed.1 h.armed.2 (Or.inr hij) hu
      · rw [if_neg hu, if_neg hu]

/-! ## Who is first -/

/-- The key of a queue in a heap. -/
theorem view_key (h : Linkable w c k q) : (w.view c).key q = queueKey w q := by
  have hown : w.Owns c q := ⟨h.lt, h.ctx⟩
  rw [BusView.key, view_queue hown, queueKey]
  cases hc : w.contents q with
  | nil => exact absurd hc h.nonempty
  | cons e es =>
      have hhead : (w.queueView q).contents = w.seen e :: es.map w.seen := by
        show (w.contents q).map w.seen = _
        rw [hc]
        rfl
      simp only [hhead]
      rfl

/-- **The first of a heap is before all others.** -/
theorem Ranked.first (h : Ranked w) (hi : QueueInv w)
    (hq : (w.queueNodes c k).head? = some q) : (w.view c).First k q := by
  have hmem : q ∈ w.queueNodes c k := List.mem_of_mem_head? hq
  refine ⟨hmem, fun p hp hne => ?_⟩
  have hp' : p ∈ w.queueNodes c k := hp
  rw [view_key (hi.linked c k q hmem), view_key (hi.linked c k p hp')]
  have hle := (h.pipes c k).root_le_of_mem (by rw [← List.head?_eq_getElem?]; exact hq) hp'
  refine lt_of_le_of_ne hle fun heq => hne ?_
  have hid : (w.queues q).startId = (w.queues p).startId := congrArg (fun x => (ofLex x).2) heq
  exact ((h.ids.queues c k).inj q hmem p hp' hid).symm

theorem Ranked.firstTimer (h : Ranked w) (ht : (w.timerNodes c j).head? = some t) :
    (w.view c).FirstTimer j t (w.reminders t) := by
  have hmem : t ∈ w.timerNodes c j := List.mem_of_mem_head? ht
  refine ⟨if_pos hmem, fun u x hu hne => ?_⟩
  have hu' : (if u ∈ w.timerNodes c j then some (w.reminders u) else none) = some x := hu
  split at hu'
  case isFalse => cases hu'
  case isTrue hm =>
    cases hu'
    have hle := (h.timers c j).root_le_of_mem (by rw [← List.head?_eq_getElem?]; exact ht) hm
    refine lt_of_le_of_ne hle fun heq => hne ?_
    have hid : (w.reminders t).startId = (w.reminders u).startId :=
      congrArg (fun x => (ofLex x).2) heq
    exact ((h.ids.timers c j).inj t hmem u hm hid).symm

/-! ## The cascade -/

theorem Ranked.due_iff (h : Ranked w) (hi : TimerInv w) {limit : Nat} :
    timerDue w c j limit = true ↔ (w.view c).Due j limit := by
  constructor
  · intro hdue
    obtain ⟨t, ht, hle⟩ := timerDue_peek hdue
    rw [hi.timerHeapPeek_eq] at ht
    exact ⟨t, w.reminders t, if_pos (List.mem_of_mem_head? ht), hle⟩
  · rintro ⟨t, r, ht, hle⟩
    have ht' : (if t ∈ w.timerNodes c j then some (w.reminders t) else none) = some r := ht
    split at ht'
    case isFalse => cases ht'
    case isTrue hm =>
      cases ht'
      by_contra hno
      rw [Bool.not_eq_true] at hno
      exact absurd hle (Nat.not_le_of_lt (h.timers.not_due hi hno hm))

theorem view_saved_iff {x : Seen} :
    (w.view c).saved = some x ↔ ∃ e, (w.ctxs c).savedEvent = some e ∧ x = w.seen e := by
  show (w.ctxs c).savedEvent.map w.seen = some x ↔ _
  rw [Option.map_eq_some_iff]
  simp only [eq_comm]

theorem view_saved_none : (w.view c).saved = none ↔ (w.ctxs c).savedEvent = none :=
  Option.map_eq_none_iff

theorem Ranked.dueAtSaved_iff (h : Ranked w) (hi : TimerInv w) :
    timerDueAtSaved w c j = true ↔ (w.view c).DueAtSaved j := by
  rw [timerDueAtSaved, BusView.DueAtSaved]
  simp only [view_saved_iff]
  cases hs : (w.ctxs c).savedEvent with
  | none => simp
  | some e =>
      show timerDue w c j (w.events e).timestamp = true ↔ _
      rw [h.due_iff hi]
      constructor
      · exact fun hd => ⟨w.seen e, ⟨e, rfl, rfl⟩, hd⟩
      · rintro ⟨x, ⟨a, ha, rfl⟩, hd⟩
        cases ha
        exact hd

theorem savedIsTick_iff : savedIsTick w c = true ↔ (w.view c).SavedIsTick := by
  rw [savedIsTick, BusView.SavedIsTick]
  simp only [view_saved_iff]
  cases hs : (w.ctxs c).savedEvent with
  | none => simp
  | some e =>
      show eventIsTick w e = true ↔ _
      rw [eventIsTick, decide_eq_true_iff]
      constructor
      · exact fun hd => ⟨w.seen e, ⟨e, rfl, rfl⟩, hd⟩
      · rintro ⟨x, ⟨a, ha, rfl⟩, hd⟩
        cases ha
        exact hd

theorem QueueInv.linked_empty_iff (h : QueueInv w) :
    (w.view c).linked k = ∅ ↔ pipeIsEmpty w c k = true := by
  rw [h.pipeIsEmpty_iff, Set.eq_empty_iff_forall_notMem, List.eq_nil_iff_forall_not_mem]
  exact Iff.rfl

open Classical in
/-- **The cascade is the abstract one.** -/
theorem Ranked.source (h : Ranked w) (hi : BusInv w) (c : CtxId) (now : Nat) :
    busSource w c now = (w.view c).source now := by
  have hmode : (w.view c).mode = (w.ctxs c).mode := rfl
  have hpipe : ∀ k, (¬ pipeIsEmpty w c k = true) ↔ (w.view c).linked k ≠ ∅ :=
    fun k => not_congr hi.queue.linked_empty_iff.symm
  have hsaved : ((w.ctxs c).savedEvent.isSome = true) ↔ (w.view c).saved ≠ none := by
    rw [ne_eq, view_saved_none, Option.isSome_iff_ne_none]
  have htick := and_congr (savedIsTick_iff (w := w) (c := c))
    (h.dueAtSaved_iff (c := c) (j := .clockExchange) hi.timer)
  rw [busSource, BusView.source, hmode]
  cases hm : (w.ctxs c).mode with
  | simulation =>
      refine if_congr ?_ rfl (if_congr htick rfl (if_congr (hpipe _) rfl ?_))
      · rw [if_pos rfl]
        exact h.dueAtSaved_iff hi.timer
      -- the service pipe is looked at before the command pipe
      by_cases hservice : (w.view c).linked .service ≠ ∅
      · rw [if_pos ((hpipe _).mpr hservice), if_pos ⟨rfl, hservice⟩]
      · have hno : ¬ (BusMode.simulation = .simulation ∧ (w.view c).linked .service ≠ ∅) :=
          fun hc => hservice hc.2
        rw [if_neg fun hc => hservice ((hpipe _).mp hc), if_neg hno]
        refine if_congr (hpipe _) rfl ?_
        rw [if_neg hservice]
        exact if_congr hsaved rfl rfl
  | realtime =>
      refine if_congr ?_ rfl (if_congr htick rfl (if_congr (hpipe _) rfl ?_))
      · rw [if_neg (by decide), busGetTime, hm]
        exact h.due_iff hi.timer
      have hno : ¬ (BusMode.realtime = .simulation ∧ (w.view c).linked .service ≠ ∅) :=
        fun hc => BusMode.noConfusion hc.1
      rw [if_neg hno]
      exact if_congr (hpipe _) rfl (if_congr (hpipe _) rfl (if_congr hsaved rfl rfl))

end Ats
