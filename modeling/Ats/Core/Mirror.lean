import Ats.Core.Retired
import Ats.Core.Elsewhere

/-!
# Mirror: attached queues receive the market stream

Each queue that `bus_attach` has put into the table of a simulation-mode bus
receives, in order and once, the market events the bus returns from then on,
less `QUEUE_OPEN` and `QUEUE_CLOSE`, as long as no event is forwarded while
an attached queue is full: the result of that push is not looked at.
-/

namespace Ats

variable {w w' w'' : World} {c d src dst : CtxId} {k : QueueCategory} {q a p : QueueId}
  {e : EventId} {n : Nat} {acts pre post : List Act}

/-! ## Reading the history -/

/-- The types the forwarding loop passes on. -/
def Forwarded (w : World) (e : EventId) : Prop :=
  (w.events e).eventType ≠ queueCloseEvent ∧ (w.events e).eventType ≠ queueOpenEvent

instance (w : World) (e : EventId) : Decidable (Forwarded w e) :=
  inferInstanceAs (Decidable (_ ∧ _))

/-- The queue that was attached to `src`. -/
def Act.attachedTo (src : CtxId) : Act → Option QueueId
  | .attach c q => if c = src then some q else none
  | _ => none

/-- The queue that was attached. -/
def Act.attaches : Act → Option QueueId
  | .attach _ q => some q
  | _ => none

/-- The market event that `src` returned, of a type that is passed on. -/
def Act.mirrored (w : World) (src : CtxId) : Act → Option EventId
  | .give c .market _ e => if c = src ∧ Forwarded w e then some e else none
  | _ => none

/-- **What was appended to `a` since it was attached to `src` is what `src`
has returned since then.** -/
def Mirrors (w : World) (src : CtxId) (a : QueueId) : Prop :=
  ∀ pre post, w.log = pre ++ .attach src a :: post →
    w.pushed a = post.filterMap (Act.mirrored w src)

theorem Forwarded.congr (ht : ∀ x, (w'.events x).eventType = (w.events x).eventType)
    (e : EventId) : Forwarded w' e ↔ Forwarded w e := by
  rw [Forwarded, Forwarded, ht]

theorem mirrored_congr (ht : ∀ x, (w'.events x).eventType = (w.events x).eventType)
    (src : CtxId) : Act.mirrored w' src = Act.mirrored w src := by
  funext x
  cases x with
  | give c k q e =>
      cases k with
      | market => simp only [Act.mirrored, Forwarded.congr ht]
      | _ => rfl
  | _ => rfl

/-- Where an entry stands in a history that has grown by others. -/
theorem split_of_append {l acts pre post : List Act} {x : Act} (hx : x ∉ acts)
    (h : l ++ acts = pre ++ x :: post) :
    ∃ post0, l = pre ++ x :: post0 ∧ post = post0 ++ acts := by
  rcases List.append_eq_append_iff.mp h with ⟨as, _, hb⟩ | ⟨bs, hl, hb⟩
  · exact absurd (by rw [hb]; simp) hx
  · cases bs with
    | nil => exact absurd (by rw [← List.nil_append acts, ← hb]; simp) hx
    | cons b bs =>
        rw [List.cons_append, List.cons.injEq] at hb
        obtain ⟨rfl, rfl⟩ := hb
        exact ⟨bs, hl, rfl⟩

/-- What is added to both sides. -/
theorem Mirrors.append (h : Mirrors w src a) (hlog : w'.log = w.log ++ acts)
    (ht : ∀ x, (w'.events x).eventType = (w.events x).eventType)
    (hx : .attach src a ∉ acts)
    (hacts : acts.filterMap (Act.pushedOn a) = acts.filterMap (Act.mirrored w src)) :
    Mirrors w' src a := by
  intro pre post hl
  rw [hlog] at hl
  obtain ⟨post0, hl0, rfl⟩ := split_of_append hx hl
  have h0 := h pre post0 hl0
  rw [World.pushed, hlog, List.filterMap_append, List.filterMap_append, mirrored_congr ht,
    ← h0, hacts, World.pushed]

/-! ## The invariant -/

/-- **The invariant of a run** in which the client keeps to its own queues,
those below `n`. -/
structure Mirroring (n : Nat) (w : World) : Prop where
  start : n ≤ w.nextQueue
  tables : ∀ src, attachedQueues w src = w.log.filterMap (Act.attachedTo src)
  nodup : (w.log.filterMap Act.attaches).Nodup
  placed : ∀ src a, .attach src a ∈ w.log →
    n ≤ a ∧ a < w.nextQueue ∧ ∃ d, d ≠ src ∧ (w.queues a).ctx = some d
  unborn : ∀ q, w.nextQueue ≤ q → w.pushed q = []
  mirror : ∀ src a, .attach src a ∈ w.log → (w.ctxs src).mode = .simulation →
    Mirrors w src a
  forwarded : ∀ src a, .attach src a ∈ w.log → ∀ x ∈ w.contents a, Forwarded w x

theorem Booted.mirroring (h : Booted w) : Mirroring w.nextQueue w where
  start := Nat.le_refl _
  tables := fun src => by
    rw [attachedQueues, (h.ctxs src).attachedCount, h.log]
    rfl
  nodup := by
    rw [h.log]
    exact List.nodup_nil
  placed := fun src a hm => by
    rw [h.log] at hm
    cases hm
  unborn := fun q _ => by
    rw [World.pushed, h.log]
    rfl
  mirror := fun src a hm => by
    rw [h.log] at hm
    cases hm
  forwarded := fun src a hm => by
    rw [h.log] at hm
    cases hm

/-- `a` is in the table of `src`. -/
theorem Mirroring.mem_attachedQueues (h : Mirroring n w) :
    a ∈ attachedQueues w src ↔ .attach src a ∈ w.log := by
  rw [h.tables, List.mem_filterMap]
  constructor
  · rintro ⟨x, hx, hxa⟩
    cases x with
    | attach c q =>
        rw [Act.attachedTo] at hxa
        split at hxa
        case isTrue hc =>
          cases hxa
          exact hc ▸ hx
        case isFalse => cases hxa
    | _ => cases hxa
  · intro hm
    exact ⟨_, hm, if_pos rfl⟩

/-- The tables hold no queue twice. -/
theorem Mirroring.nodup_attachedQueues (h : Mirroring n w) (src : CtxId) :
    (attachedQueues w src).Nodup := by
  have hsub : ∀ l : List Act,
      (l.filterMap (Act.attachedTo src)).Sublist (l.filterMap Act.attaches) := by
    intro l
    induction l with
    | nil => exact List.Sublist.refl []
    | cons x l ih =>
        cases x with
        | attach c q =>
            by_cases hc : c = src
            · simpa [List.filterMap_cons, Act.attachedTo, Act.attaches, hc] using ih
            · simpa [List.filterMap_cons, Act.attachedTo, Act.attaches, hc] using
                ih.trans (List.sublist_cons_self q _)
        | _ => simpa [List.filterMap_cons, Act.attachedTo, Act.attaches] using ih
  rw [h.tables]
  exact (hsub w.log).nodup h.nodup

/-- No queue is in two tables. -/
theorem Mirroring.attach_unique (h : Mirroring n w) (h1 : .attach src a ∈ w.log)
    (h2 : .attach c a ∈ w.log) : src = c := by
  have key : ∀ l : List Act, (l.filterMap Act.attaches).Nodup → .attach src a ∈ l →
      .attach c a ∈ l → src = c := by
    intro l
    induction l with
    | nil =>
        intro _ hm
        cases hm
    | cons x l ih =>
        intro hnd hm1 hm2
        have hmem : ∀ {b : CtxId}, .attach b a ∈ l → a ∈ l.filterMap Act.attaches :=
          fun hb => List.mem_filterMap.mpr ⟨_, hb, rfl⟩
        have hcons : ∀ b, (Act.attach b a :: l).filterMap Act.attaches
            = a :: l.filterMap Act.attaches := fun _ => rfl
        rcases List.mem_cons.mp hm1 with h1 | h1 <;> rcases List.mem_cons.mp hm2 with h2 | h2
        · rw [← h1] at h2
          cases h2
          rfl
        · rw [← h1, hcons, List.nodup_cons] at hnd
          exact absurd (hmem h2) hnd.1
        · rw [← h2, hcons, List.nodup_cons] at hnd
          exact absurd (hmem h1) hnd.1
        · refine ih ?_ h1 h2
          rw [List.filterMap_cons] at hnd
          split at hnd
          · exact hnd
          · exact (List.nodup_cons.mp hnd).2
  exact key w.log h.nodup h1 h2

/-- An entry about neither side of a mirror. -/
structure Act.Aside (n : Nat) (w : World) (x : Act) : Prop where
  attaches : x.attaches = none
  pushedOn : ∀ a, n ≤ a → x.pushedOn a = none
  mirrored : ∀ src, (w.ctxs src).mode = .simulation → x.mirrored w src = none

theorem Act.Aside.attachedTo {x : Act} (h : x.Aside n w) (src : CtxId) :
    x.attachedTo src = none := by
  cases x with
  | attach c q => exact absurd h.attaches (by simp [Act.attaches])
  | _ => rfl

theorem Act.Quiet.aside {x : Act} (h : x.Quiet) : x.Aside n w := by
  cases x with
  | push q e => exact absurd h id
  | attach c q => exact absurd h id
  | give c k q e =>
      cases k with
      | market => exact absurd h id
      | _ => exact ⟨rfl, fun _ _ => rfl, fun _ _ => rfl⟩
  | _ => exact ⟨rfl, fun _ _ => rfl, fun _ _ => rfl⟩

/-- A push onto one of the client's own queues. -/
theorem Act.aside_push (hq : q < n) : (Act.push q e).Aside n w where
  attaches := rfl
  pushedOn := fun _ ha => if_neg (fun hc => absurd (hc ▸ hq) (Nat.not_lt_of_le ha))
  mirrored := fun _ _ => rfl

/-- **What goes on aside leaves the mirrors as they are.** -/
theorem Mirroring.aside (h : Mirroring n w) (acts : List Act) (hlog : w'.log = w.log ++ acts)
    (hacts : ∀ x ∈ acts, x.Aside n w)
    (htab : ∀ d, (w'.ctxs d).attached = (w.ctxs d).attached
      ∧ (w'.ctxs d).attachedCount = (w.ctxs d).attachedCount)
    (hnext : w'.nextQueue = w.nextQueue)
    (hctx : ∀ q, n ≤ q → (w'.queues q).ctx = (w.queues q).ctx)
    (hmode : ∀ d, (w'.ctxs d).mode = (w.ctxs d).mode)
    (ht : ∀ x, (w'.events x).eventType = (w.events x).eventType)
    (hcont : ∀ q, n ≤ q → ∀ x ∈ w'.contents q, x ∈ w.contents q) : Mirroring n w' := by
  have hnil : ∀ (f : Act → Option Nat), (∀ x ∈ acts, f x = none) →
      acts.filterMap f = [] := fun f hf => List.filterMap_eq_nil_iff.mpr hf
  have hmem : ∀ src a, .attach src a ∈ w'.log → .attach src a ∈ w.log := by
    intro src a hm
    rw [hlog] at hm
    rcases List.mem_append.mp hm with hm | hm
    · exact hm
    · have := (hacts _ hm).attaches
      cases this
  refine ⟨hnext ▸ h.start, fun src => ?_, ?_, fun src a hm => ?_, fun q hq => ?_,
    fun src a hm hs => ?_, fun src a hm x hx => ?_⟩
  · rw [hlog, List.filterMap_append, hnil _ (fun x hx => (hacts x hx).attachedTo src),
      List.append_nil, ← h.tables, attachedQueues, attachedQueues, (htab src).1,
      (htab src).2]
  · rw [hlog, List.filterMap_append, hnil _ (fun x hx => (hacts x hx).attaches),
      List.append_nil]
    exact h.nodup
  · obtain ⟨hn, hlt, d, hd, hx⟩ := h.placed src a (hmem src a hm)
    exact ⟨hn, hnext ▸ hlt, d, hd, (hctx a hn).trans hx⟩
  · have hq' : w.nextQueue ≤ q := hnext ▸ hq
    rw [World.pushed, hlog, List.filterMap_append,
      hnil _ (fun x hx => (hacts x hx).pushedOn q (Nat.le_trans h.start hq')), List.append_nil]
    exact h.unborn q hq'
  · have hm' := hmem src a hm
    have hn := (h.placed src a hm').1
    refine (h.mirror src a hm' (hmode src ▸ hs)).append hlog ht ?_ ?_
    · intro hc
      have := (hacts _ hc).attaches
      cases this
    · rw [hnil _ (fun x hx => (hacts x hx).pushedOn a hn),
        hnil _ (fun x hx => (hacts x hx).mirrored src (hmode src ▸ hs))]
  · rw [Forwarded.congr ht]
    have hm' := hmem src a hm
    exact h.forwarded src a hm' x (hcont a (h.placed src a hm').1 x hx)

theorem Mirroring.quiet (h : Mirroring n w) (hq : Quiet w w' c) (hc : SameClock w w') :
    Mirroring n w' := by
  obtain ⟨acts, hlog, hacts⟩ := hq.log
  exact h.aside _ hlog (fun x hx => (hacts x hx).aside) hq.attached hq.nextQueue
    (fun q _ => hq.queue_ctx q) hc.mode hc.type (fun q _ => hq.contents q)

/-! ## Forwarding with room -/

/-- `a` has room for one more event. -/
def Roomy (w : World) (a : QueueId) : Prop :=
  (w.contents a).length + 1 < (w.queues a).spsc.capacity

/-- **`e` was copied to the queues `qs`**, once to each, with a reference for
each copy. -/
structure Copied (w w' : World) (qs : List QueueId) (e : EventId) : Prop where
  log : w'.log = w.log ++ qs.map (fun a => .push a e)
  contents : ∀ p, w'.contents p = w.contents p ++ if p ∈ qs then [e] else []
  capacity : ∀ p, (w'.queues p).spsc.capacity = (w.queues p).spsc.capacity
  refcount : ∀ x, (w'.events x).refcount
    = (w.events x).refcount + if x = e then (qs.length : Int) else 0
  type : ∀ x, (w'.events x).eventType = (w.events x).eventType
  attached : ∀ d, (w'.ctxs d).attached = (w.ctxs d).attached
    ∧ (w'.ctxs d).attachedCount = (w.ctxs d).attachedCount
  mode : ∀ d, (w'.ctxs d).mode = (w.ctxs d).mode
  queue_ctx : ∀ p, (w'.queues p).ctx = (w.queues p).ctx
  nextQueue : w'.nextQueue = w.nextQueue

theorem Copied.refl (w : World) (e : EventId) : Copied w w [] e where
  log := (List.append_nil _).symm
  contents := fun p => by simp
  capacity := fun _ => rfl
  refcount := fun x => by simp
  type := fun _ => rfl
  attached := fun _ => ⟨rfl, rfl⟩
  mode := fun _ => rfl
  queue_ctx := fun _ => rfl
  nextQueue := rfl

theorem QueuePushed.capacity (h : QueuePushed w w' q e) (p : QueueId) :
    (w'.queues p).spsc.capacity = (w.queues p).spsc.capacity := by
  obtain ⟨w1, ha, hw⟩ := h.append
  rw [hw]
  by_cases hp : p = q
  · rw [hp]
    exact ha.capacity
  · exact congrArg (fun x => x.spsc.capacity) (ha.others p hp)

/-- One copy. -/
theorem QueuePushed.copied (h : QueuePushed (eventRef w e) w' q e) : Copied w w' [q] e where
  log := h.log
  contents := fun p => by
    by_cases hp : p = q
    · rw [hp, h.contents]
      simp [World.contents, eventRef, World.updEvent]
    · rw [h.contents_ne hp]
      simp [World.contents, eventRef, World.updEvent, hp]
  capacity := h.capacity
  refcount := fun x => by
    rw [h.events]
    by_cases hx : x = e
    · subst hx
      simp [eventRef, World.updEvent]
    · simp [eventRef, World.updEvent, hx]
  type := fun x => by
    rw [h.events]
    exact w.updEvent_proj e x Event.eventType (fun _ => rfl)
  attached := fun d => ⟨h.sameSlots.attached d, h.sameSlots.count d⟩
  mode := h.sameClock.mode
  queue_ctx := h.queue_ctx
  nextQueue := h.nextQueue

theorem Copied.trans {qs rs : List QueueId} (h : Copied w w' qs e)
    (h' : Copied w' w'' rs e) (hnd : (qs ++ rs).Nodup) : Copied w w'' (qs ++ rs) e where
  log := by rw [h'.log, h.log, List.map_append, List.append_assoc]
  contents := fun p => by
    rw [h'.contents, h.contents, List.append_assoc]
    have hdis : p ∈ qs → p ∉ rs := fun hq hr =>
      (List.nodup_append.mp hnd).2.2 p hq p hr rfl
    by_cases hq : p ∈ qs
    · simp [hq, hdis hq]
    · simp [hq]
  capacity := fun p => (h'.capacity p).trans (h.capacity p)
  refcount := fun x => by
    rw [h'.refcount, h.refcount]
    split
    · rw [List.length_append]
      omega
    · rw [Int.add_zero]
  type := fun x => (h'.type x).trans (h.type x)
  attached := fun d => ⟨(h'.attached d).1.trans (h.attached d).1,
    (h'.attached d).2.trans (h.attached d).2⟩
  mode := fun d => (h'.mode d).trans (h.mode d)
  queue_ctx := fun p => (h'.queue_ctx p).trans (h.queue_ctx p)
  nextQueue := h'.nextQueue.trans h.nextQueue

/-- **The forwarding loop over queues with room** copies the event to each of
them. -/
theorem BusInv.forwardLoop (e : EventId) : ∀ (is : List Nat) {w : World}, BusInv w →
    (∀ i ∈ is, i < (w.ctxs c).attachedCount) → Forwarded w e →
    (is.filterMap (w.ctxs c).attached).Nodup →
    (∀ a ∈ is.filterMap (w.ctxs c).attached, Roomy w a) →
    ∃ w', is.foldlM (fun w i => Ats.busForwardOne w c e i) w = some w'
      ∧ Copied w w' (is.filterMap (w.ctxs c).attached) e := by
  intro is
  induction is with
  | nil =>
      intro w _ _ _ _ _
      exact ⟨w, rfl, Copied.refl w e⟩
  | cons i is ih =>
      intro w h hlt hfw hnd hroom
      obtain ⟨q, hq, hql, _⟩ := h.attached c i (hlt i List.mem_cons_self)
      have hcons : (i :: is).filterMap (w.ctxs c).attached
          = q :: is.filterMap (w.ctxs c).attached := List.filterMap_cons_some hq
      rw [hcons] at hnd hroom ⊢
      have h1 : BusInv (eventRef w e) := h.updEvent e _
      obtain ⟨w1, ret, hcall, hq1, hres⟩ := h1.queue.eventQueuePush (q := q) hql e
      have hr : Roomy w q := hroom q List.mem_cons_self
      have hpush : QueuePushed (eventRef w e) w1 q e := by
        rcases hres with ⟨_, hpush⟩ | ⟨_, _, hfull⟩
        · exact hpush
        · exact absurd hfull (Nat.ne_of_lt hr)
      have hcopy := hpush.copied
      have htab : (w1.ctxs c).attached = (w.ctxs c).attached := (hcopy.attached c).1
      have hnd' := List.nodup_cons.mp hnd
      obtain ⟨w2, hloop, hcopies⟩ := ih (h1.of_queuePushed hpush hq1)
        (fun j hj => by
          rw [(hcopy.attached c).2]
          exact hlt j (List.mem_cons_of_mem i hj))
        ((Forwarded.congr hcopy.type e).mpr hfw) (by rw [htab]; exact hnd'.2)
        (fun a ha => by
          rw [htab] at ha
          have haq : a ≠ q := fun hc => hnd'.1 (hc ▸ ha)
          have hra := hroom a (List.mem_cons_of_mem q ha)
          rw [Roomy, hcopy.contents, hcopy.capacity]
          rw [Roomy] at hra
          simpa [haq] using hra)
      rw [htab] at hcopies
      refine ⟨w2, ?_, hcopy.trans hcopies (by simpa using hnd)⟩
      have hgo : (w.events e).eventType ≠ queueCloseEvent
          ∧ (w.events e).eventType ≠ queueOpenEvent := hfw
      rw [List.foldlM_cons, Ats.busForwardOne, if_pos hgo, hq]
      simp only [hcall, Option.bind_eq_bind, Option.bind_some]
      exact hloop

/-- An event that is not passed on. -/
theorem busForward_skip (h : ¬ Forwarded w e) : busForward w c e = some w := by
  have hone : ∀ i, busForwardOne w c e i = some w := fun i => if_neg h
  rw [busForward]
  generalize List.range (w.ctxs c).attachedCount = is
  induction is with
  | nil => rfl
  | cons i is ih =>
      rw [List.foldlM_cons, hone]
      exact ih

/-- What the pushes of a copy are, read on one queue. -/
theorem pushes_pushedOn {qs : List QueueId} (hnd : qs.Nodup) (a : QueueId) :
    (qs.map fun p => Act.push p e).filterMap (Act.pushedOn a)
      = if a ∈ qs then [e] else [] := by
  induction qs with
  | nil => rfl
  | cons q qs ih =>
      obtain ⟨hq, hnd⟩ := List.nodup_cons.mp hnd
      rw [List.map_cons, List.filterMap_cons, ih hnd]
      by_cases hqa : q = a
      · subst hqa
        simp [Act.pushedOn, hq]
      · have haq : ¬ a = q := fun hc => hqa hc.symm
        simp [Act.pushedOn, hqa, haq]

/-- What a hand-out with its copies adds to the history. -/
def handOutActs (c : CtxId) (q : QueueId) (e : EventId) (qs : List QueueId) : List Act :=
  .give c .market q e :: qs.map fun a => .push a e

section HandOut

variable {qs : List QueueId}

theorem attach_notMem_handOutActs (src : CtxId) (a : QueueId) :
    .attach src a ∉ handOutActs c q e qs := by
  intro hm
  rcases List.mem_cons.mp hm with hm | hm
  · cases hm
  · obtain ⟨p, _, hp⟩ := List.mem_map.mp hm
    cases hp

theorem give_mem_handOutActs {x : EventId} (hm : .give d k p x ∈ handOutActs c q e qs) :
    x = e := by
  rcases List.mem_cons.mp hm with hm | hm
  · cases hm
    rfl
  · obtain ⟨b, _, hb⟩ := List.mem_map.mp hm
    cases hb

theorem handOutActs_filterMap {f : Act → Option QueueId}
    (hgive : ∀ c k q e, f (.give c k q e) = none) (hpush : ∀ q e, f (.push q e) = none) :
    (handOutActs c q e qs).filterMap f = [] := by
  refine List.filterMap_eq_nil_iff.mpr (fun x hx => ?_)
  rcases List.mem_cons.mp hx with rfl | hx
  · exact hgive _ _ _ _
  · obtain ⟨p, _, rfl⟩ := List.mem_map.mp hx
    exact hpush _ _

theorem handOutActs_pushedOn (hnd : qs.Nodup) (a : QueueId) :
    (handOutActs c q e qs).filterMap (Act.pushedOn a) = if a ∈ qs then [e] else [] := by
  rw [handOutActs, List.filterMap_cons_none rfl]
  exact pushes_pushedOn hnd a

theorem handOutActs_mirrored (hfw : Forwarded w e) (src : CtxId) :
    (handOutActs c q e qs).filterMap (Act.mirrored w src) = if src = c then [e] else [] := by
  have hpushes : (qs.map fun p => Act.push p e).filterMap (Act.mirrored w src) = [] := by
    refine List.filterMap_eq_nil_iff.mpr (fun x hx => ?_)
    obtain ⟨p, _, rfl⟩ := List.mem_map.mp hx
    rfl
  rw [handOutActs, List.filterMap_cons]
  by_cases hsc : src = c
  · have hgive : (Act.give c .market q e).mirrored w src = some e := if_pos ⟨hsc.symm, hfw⟩
    rw [hgive, if_pos hsc]
    simp [hpushes]
  · have hgive : (Act.give c .market q e).mirrored w src = none :=
      if_neg (fun hc => hsc hc.1.symm)
    rw [hgive, if_neg hsc]
    exact hpushes

end HandOut

/-- **Handing out the saved event and copying it** keeps the mirrors: both
sides of each mirror of `c` grow by the event. -/
theorem Mirroring.release (h : Mirroring n w) {w1 : World}
    (hsim : (w.ctxs c).mode = .simulation) (hun : busUnsave w c = some (w1, e))
    (hfw : Forwarded w e) (hcopy : Copied w1 w' (attachedQueues w c) e) : Mirroring n w' := by
  obtain ⟨q, _, _, hw1⟩ := busUnsave_eq hun
  have hx1 : ∀ {β : Type} (g : Ctx → β), (∀ x o p, g { x with savedEvent := o, savedFrom := p }
      = g x) → ∀ d, g (w1.ctxs d) = g (w.ctxs d) := by
    intro β g hg d
    rw [hw1]
    exact w.updCtx_proj c d g (fun x => hg x none none)
  have hlog1 : w1.log = w.log ++ [.give c .market q e] := by rw [hw1]; rfl
  have hlog : w'.log = w.log ++ handOutActs c q e (attachedQueues w c) := by
    rw [hcopy.log, hlog1, List.append_assoc]
    rfl
  have hevents : w1.events = w.events := by rw [hw1]; rfl
  have hqueues : w1.queues = w.queues := by rw [hw1]; rfl
  have ht : ∀ x, (w'.events x).eventType = (w.events x).eventType := by
    intro x
    rw [hcopy.type, hevents]
  have hmode : ∀ d, (w'.ctxs d).mode = (w.ctxs d).mode := by
    intro d
    rw [hcopy.mode, hx1 Ctx.mode (fun _ _ _ => rfl)]
  have hctx : ∀ p, (w'.queues p).ctx = (w.queues p).ctx := by
    intro p
    rw [hcopy.queue_ctx, hqueues]
  have hnext : w'.nextQueue = w.nextQueue := by
    rw [hcopy.nextQueue, hw1]
    rfl
  have htab : ∀ d, attachedQueues w' d = attachedQueues w d := by
    intro d
    rw [attachedQueues, attachedQueues, (hcopy.attached d).1, (hcopy.attached d).2,
      hx1 Ctx.attached (fun _ _ _ => rfl), hx1 Ctx.attachedCount (fun _ _ _ => rfl)]
  have hmem : ∀ src a, .attach src a ∈ w'.log → .attach src a ∈ w.log := by
    intro src a hm
    rw [hlog] at hm
    exact (List.mem_append.mp hm).resolve_right (attach_notMem_handOutActs src a)
  have hnd := h.nodup_attachedQueues c
  refine ⟨hnext ▸ h.start, fun src => ?_, ?_, fun src a hm => ?_, fun p hp => ?_,
    fun src a hm hs => ?_, fun src a hm x hx => ?_⟩
  · rw [hlog, List.filterMap_append, handOutActs_filterMap (fun _ _ _ _ => rfl)
      (fun _ _ => rfl), List.append_nil, htab]
    exact h.tables src
  · rw [hlog, List.filterMap_append, handOutActs_filterMap (fun _ _ _ _ => rfl)
      (fun _ _ => rfl), List.append_nil]
    exact h.nodup
  · rw [hnext, hctx]
    exact h.placed src a (hmem src a hm)
  · rw [hnext] at hp
    have hout : p ∉ attachedQueues w c := by
      intro hm
      exact absurd (h.placed c p (h.mem_attachedQueues.mp hm)).2.1 (Nat.not_lt_of_le hp)
    rw [World.pushed, hlog, List.filterMap_append, handOutActs_pushedOn hnd, if_neg hout,
      List.append_nil]
    exact h.unborn p hp
  · -- the returned event was pushed once on each mirror of its bus, and on no other
    have hm' := hmem src a hm
    refine (h.mirror src a hm' (hmode src ▸ hs)).append hlog ht
      (attach_notMem_handOutActs src a) ?_
    rw [handOutActs_pushedOn hnd, handOutActs_mirrored hfw]
    by_cases hsc : src = c
    · subst hsc
      rw [if_pos (h.mem_attachedQueues.mpr hm'), if_pos rfl]
    · have hout : a ∉ attachedQueues w c := fun hc =>
        hsc (h.attach_unique hm' (h.mem_attachedQueues.mp hc))
      rw [if_neg hout, if_neg hsc]
  · rw [Forwarded.congr ht]
    rw [hcopy.contents] at hx
    rcases List.mem_append.mp hx with hx | hx
    · have hcont : w1.contents a = w.contents a := by
        rw [World.contents, hqueues, World.contents]
      rw [hcont] at hx
      exact h.forwarded src a (hmem src a hm) x hx
    · split at hx
      · rw [List.mem_singleton] at hx
        rw [hx]
        exact hfw
      · cases hx

end Ats
