import Ats.Base.MpscqThreads

/-!
# MpscqRuns: what producers and consumer rely on

Over every interleaving of the steps of `mpscq_push` and `mpscq_pop`: what pops
answer, that no push is lost, and that a node that a pop has returned is touched
by no thread until it is pushed again.
-/

namespace Ats

open HalfLinked

variable {P N : Type}

/-! ## What pops answer -/

variable [DecidableEq P] [DecidableEq N] {s s' s'' : MpscqThreads P N} {L : List (MpscqNode N)}
  {x : MpscqPop N} {a : MpscqAnswer N} {n : N}

/-- **The queue in any interleaving.** Pops return the nodes in the order of
the exchanges that pushed them, once each and never the sentinel; a pop returns
`NULL` only where the queue is empty, where a link is missing, or where a
producer has linked since the pop began; `*empty` is set only where no link
leads on from the sentinel. -/
theorem mpscqRun_fifo (next : MpscqNode N → Option (MpscqNode N)) (acts : List (MpscqAct P N))
    (hfresh : GuardedRun.Guarded mpscqStep MpscqFresh (mpscqThreads next) acts)
    (hrun : GuardedRun.run mpscqStep (mpscqThreads next) acts = some s) :
    s.popped = (s.pushed.take s.popped.length).map .node
      ∧ ∀ x a, s.consumer = some x → (mpscqPopStep s.queue x).2 = .inr a →
        MpscqAnswered s a := by
  obtain ⟨L, h⟩ := MpscqInv.of_run next acts hfresh hrun
  refine ⟨?_, fun x a hx ha => (h.turns hx).2 a ha⟩
  rw [List.map_take, ← h.history, List.take_left]

/-- Two producers exchange, the first has not written its link: the first pop
finds nothing, the second one the node of the first producer. -/
theorem mpscqRun_fifo_two :
    ∃ s : MpscqThreads Bool Nat, GuardedRun.run mpscqStep (mpscqThreads fun _ => none)
        [.push true 7, .producer true, .producer true, .push false 8, .producer false,
          .producer false, .producer false, .pop, .consumer, .producer true, .pop, .consumer,
          .consumer] = some s
      ∧ s.popped = (s.pushed.take s.popped.length).map .node
      ∧ ∀ x a, s.consumer = some x → (mpscqPopStep s.queue x).2 = .inr a →
        MpscqAnswered s a := by
  obtain ⟨s, hs⟩ := Option.isSome_iff_exists.mp (by decide :
    (GuardedRun.run mpscqStep (mpscqThreads (fun _ => none) : MpscqThreads Bool Nat)
      [.push true 7, .producer true, .producer true, .push false 8, .producer false,
        .producer false, .producer false, .pop, .consumer, .producer true, .pop, .consumer,
        .consumer]).isSome)
  refine ⟨s, hs, mpscqRun_fifo _ _ ?_ hs⟩
  decide

/-! ## The consumer alone -/

/-- How many steps a pop may still take. -/
def MpscqPop.left : MpscqPop N → Nat
  | .start => 7
  | .skip _ => 6
  | .head _ => 5
  | .push _ (.clear _) => 4
  | .push _ (.swap _) => 3
  | .push _ (.link _ _) => 2
  | .last _ => 1

/-- Each step of a pop brings it nearer to its return. -/
theorem mpscqPopStep_left {q : Mpscq N} {y : MpscqPop N} (h : (mpscqPopStep q x).2 = .inl y) :
    y.left < x.left := by
  cases x with
  | start =>
      simp only [mpscqPopStep] at h
      split at h <;> split at h <;> cases h <;> simp [MpscqPop.left]
  | skip tail =>
      simp only [mpscqPopStep] at h
      split at h <;> cases h
      simp [MpscqPop.left]
  | head tail =>
      simp only [mpscqPopStep] at h
      split at h <;> cases h
      simp [MpscqPop.left]
  | push tail z =>
      cases z <;> cases h <;> simp [MpscqPop.left]
  | last tail =>
      simp only [mpscqPopStep] at h
      split at h <;> cases h

/-- No producer is between its exchange and its link. -/
def MpscqThreads.Settled (s : MpscqThreads P N) : Prop :=
  ∀ p prev n, s.producer p ≠ some (.link prev n)

/-- What turns of the consumer leave, and where they end. -/
structure MpscqAlone (s s' : MpscqThreads P N) : Prop where
  inv : ∃ L, MpscqInv s' L
  consumer : s'.consumer = none
  producer : s'.producer = s.producer
  pushed : s'.pushed = s.pushed

/-- **A pop returns** after some steps of its own, with a node where there is
one and no push was in its way. -/
theorem MpscqInv.finish (k : Nat) : ∀ {s : MpscqThreads P N} {x : MpscqPop N}, x.left = k →
    (∃ L, MpscqInv s L) → s.consumer = some x →
    ∃ m s', GuardedRun.run mpscqStep s (List.replicate m .consumer) = some s' ∧ MpscqAlone s s'
      ∧ (s.Settled → s.begun = s.linked → s.pushed.length ≠ s.popped.length →
        s'.popped.length = s.popped.length + 1) := by
  induction k using Nat.strong_induction_on with
  | _ k ih =>
      rintro s x hk ⟨L, h⟩ hx
      obtain ⟨hinv, hans⟩ := h.turns hx
      have hstep : mpscqStep s .consumer
          = some (s.turn (mpscqPopStep s.queue x).1 (mpscqPopStep s.queue x).2) := by
        simp only [mpscqStep, hx]
      cases hr : (mpscqPopStep s.queue x).2 with
      | inl y =>
          rw [hr] at hinv hstep
          have hlt := mpscqPopStep_left hr
          obtain ⟨m, s', hrun, hpost, hmore⟩ := ih y.left (hk ▸ hlt) rfl hinv rfl
          refine ⟨m + 1, s', ?_, ⟨hpost.inv, hpost.consumer, hpost.producer, hpost.pushed⟩, hmore⟩
          rw [List.replicate_succ, GuardedRun.run, hstep]
          exact hrun
      | inr a =>
          rw [hr] at hinv hstep
          refine ⟨1, _, ?_, ⟨hinv, rfl, rfl, rfl⟩, fun hsettled hbegun hne => ?_⟩
          · rw [List.replicate_one, GuardedRun.run, hstep]
            rfl
          · cases ha : a.node with
            | none =>
                rcases (hans a hr).null ha with heq | ⟨p, prev, n, hp⟩ | hlt
                · exact absurd heq hne
                · exact absurd hp (hsettled p prev n)
                · omega
            | some m => simp [MpscqThreads.turn, ha]

/-- A pop that no push is in the way of returns a node where there is one. -/
theorem MpscqInv.popAlone (h : ∃ L, MpscqInv s L) (hx : s.consumer = none) (hs : s.Settled)
    (hne : s.pushed.length ≠ s.popped.length) :
    ∃ m s', GuardedRun.run mpscqStep s (.pop :: List.replicate m .consumer) = some s'
      ∧ MpscqAlone s s' ∧ s'.popped.length = s.popped.length + 1 := by
  obtain ⟨L, h⟩ := h
  obtain ⟨m, s', hrun, hpost, hmore⟩ := finish _ rfl ⟨L, h.enterPop hx⟩ rfl
  refine ⟨m, s', ?_, ⟨hpost.inv, hpost.consumer, hpost.producer, hpost.pushed⟩,
    hmore hs rfl hne⟩
  have hstep : mpscqStep s .pop = some { s with consumer := some .start, begun := s.linked } := by
    simp only [mpscqStep, hx]
  rw [GuardedRun.run, hstep]
  exact hrun

theorem MpscqInv.drainAlone (k : Nat) : ∀ {s : MpscqThreads P N}, (∃ L, MpscqInv s L) →
    s.consumer = none → s.Settled → s.pushed.length = s.popped.length + k →
    ∃ acts s', (∀ a ∈ acts, a = .pop ∨ a = .consumer)
      ∧ GuardedRun.run mpscqStep s acts = some s' ∧ MpscqAlone s s'
      ∧ s'.popped.length = s.pushed.length := by
  induction k with
  | zero =>
      intro s h hx _ hk
      exact ⟨[], s, nofun, rfl, ⟨h, hx, rfl, rfl⟩, hk.symm⟩
  | succ k ih =>
      intro s h hx hs hk
      obtain ⟨m, s1, hrun1, hpost1, hlen⟩ := popAlone h hx hs (by omega)
      have hs1 : s1.Settled := by
        rw [MpscqThreads.Settled, hpost1.producer]
        exact hs
      obtain ⟨acts, s2, hacts, hrun2, hpost2, hlen2⟩ :=
        ih hpost1.inv hpost1.consumer hs1 (by rw [hpost1.pushed]; omega)
      refine ⟨_, s2, ?_, GuardedRun.run_append _ hrun1 hrun2,
        ⟨hpost2.inv, hpost2.consumer, hpost2.producer.trans hpost1.producer,
          hpost2.pushed.trans hpost1.pushed⟩, hlen2.trans (by rw [hpost1.pushed])⟩
      intro a ha
      rcases List.mem_append.mp ha with ha | ha
      · rcases List.mem_cons.mp ha with rfl | ha
        · exact .inl rfl
        · exact .inr (List.eq_of_mem_replicate ha)
      · exact hacts a ha

/-- **No push is lost.** From every state that is reached with no producer
between its exchange and its link, the consumer alone gets all the nodes, in
the order of the exchanges. -/
theorem mpscqRun_drains (next : MpscqNode N → Option (MpscqNode N)) (acts : List (MpscqAct P N))
    (hfresh : GuardedRun.Guarded mpscqStep MpscqFresh (mpscqThreads next) acts)
    (hrun : GuardedRun.run mpscqStep (mpscqThreads next) acts = some s) (hs : s.Settled) :
    ∃ acts' s', (∀ a ∈ acts', a = .pop ∨ a = .consumer)
      ∧ GuardedRun.run mpscqStep s acts' = some s' ∧ s'.consumer = none
      ∧ s'.popped = s.pushed.map .node := by
  have hinv := MpscqInv.of_run next acts hfresh hrun
  -- the pop that is under way comes first
  obtain ⟨acts1, s1, hacts1, hrun1, hpost1⟩ : ∃ acts1 s1, (∀ a ∈ acts1, a = .pop ∨ a = .consumer)
      ∧ GuardedRun.run mpscqStep s acts1 = some s1 ∧ MpscqAlone s s1 := by
    cases hx : s.consumer with
    | none => exact ⟨[], s, nofun, rfl, hinv, hx, rfl, rfl⟩
    | some x =>
        obtain ⟨m, s1, hrun1, hpost1, -⟩ := MpscqInv.finish _ rfl hinv hx
        exact ⟨_, s1, fun a ha => .inr (List.eq_of_mem_replicate ha), hrun1, hpost1⟩
  have hs1 : s1.Settled := by
    rw [MpscqThreads.Settled, hpost1.producer]
    exact hs
  obtain ⟨L1, h1⟩ := hpost1.inv
  have hlen1 := congrArg List.length h1.history
  rw [List.length_append, List.length_map, List.length_map] at hlen1
  obtain ⟨acts2, s2, hacts2, hrun2, hpost2, hlen2⟩ :=
    MpscqInv.drainAlone _ hpost1.inv hpost1.consumer hs1 hlen1.symm
  refine ⟨_, s2, ?_, GuardedRun.run_append _ hrun1 hrun2, hpost2.consumer, ?_⟩
  · intro a ha
    rcases List.mem_append.mp ha with ha | ha
    · exact hacts1 a ha
    · exact hacts2 a ha
  · obtain ⟨L2, h2⟩ := hpost2.inv
    have hhistory := h2.history
    have hnil := h2.length_iff.mp (by rw [hlen2, hpost2.pushed])
    rw [hnil, List.map_nil, List.append_nil, hpost2.pushed, hpost1.pushed] at hhistory
    exact hhistory

/-- The second producer has not begun its exchange. -/
theorem mpscqRun_drains_one :
    ∃ s : MpscqThreads Bool Nat, GuardedRun.run mpscqStep (mpscqThreads fun _ => none)
        [.push true 7, .producer true, .producer true, .producer true, .push false 8, .pop,
          .consumer] = some s
      ∧ ∃ acts' s', (∀ a ∈ acts', a = .pop ∨ a = .consumer)
        ∧ GuardedRun.run mpscqStep s acts' = some s' ∧ s'.consumer = none
        ∧ s'.popped = s.pushed.map .node := by
  obtain ⟨s, hs, htrue, hfalse⟩ : ∃ s : MpscqThreads Bool Nat,
      GuardedRun.run mpscqStep (mpscqThreads fun _ => none)
        [.push true 7, .producer true, .producer true, .producer true, .push false 8, .pop,
          .consumer] = some s
      ∧ s.producer true = none ∧ s.producer false = some (.clear (.node 8)) :=
    ⟨_, rfl, rfl, rfl⟩
  refine ⟨s, hs, mpscqRun_drains _ _ ?_ hs ?_⟩
  · decide
  · rintro (_ | _) prev n
    · simp [hfalse]
    · simp [htrue]

/-! ## A node that came back -/

/-- The node whose `next` field a step of `mpscq_push` accesses. -/
def MpscqPush.touches : MpscqPush N → Option (MpscqNode N)
  | .clear n => some n
  | .swap _ => none
  | .link prev _ => some prev

/-- The node whose `next` field a step of `mpscq_pop_and_check_end` accesses. -/
def MpscqPop.touches (q : Mpscq N) : MpscqPop N → Option (MpscqNode N)
  | .start => some q.tail
  | .skip tail => some tail
  | .head _ => none
  | .push _ x => x.touches
  | .last tail => some tail

/-- The node whose `next` field a thread accesses in its next step. -/
def mpscqTouches (s : MpscqThreads P N) : MpscqAct P N → Option (MpscqNode N)
  | .producer p => (s.producer p).bind MpscqPush.touches
  | .consumer => s.consumer.bind (MpscqPop.touches s.queue)
  | _ => none

omit [DecidableEq P] [DecidableEq N] in
/-- A step accesses only what is in the queue or in a producer's hands. -/
theorem MpscqInv.touches (h : MpscqInv s L) {b : MpscqAct P N}
    (hb : mpscqTouches s b = some (.node n)) : s.Has n := by
  have hin : .node n ∈ L → s.Has n := fun hn => .inl (h.mem_iff.mp hn)
  cases b with
  | producer p =>
      cases hp : s.producer p with
      | none => simp [mpscqTouches, hp] at hb
      | some z =>
          simp only [mpscqTouches, hp, Option.bind_some] at hb
          cases z with
          | clear m =>
              cases hb
              exact .inr ⟨p, by rw [hp]; rfl⟩
          | swap m => cases hb
          | link prev m =>
              cases hb
              exact hin (h.pushes.link_mem (k := some p) hp).1
  | consumer =>
      cases hx : s.consumer with
      | none => simp [mpscqTouches, hx] at hb
      | some x =>
          simp only [mpscqTouches, hx, Option.bind_some] at hb
          have hok := h.consumer x hx
          have htail := h.pushes.chain.tail_mem
          cases x with
          | start => exact hin (Option.some.inj hb ▸ htail)
          | skip tail => exact hin (Option.some.inj hb ▸ hok.1 ▸ htail)
          | head tail => cases hb
          | push tail z =>
              cases z with
              | clear m =>
                  cases hb
                  cases hok.2.2
              | swap m => cases hb
              | link prev m =>
                  cases hb
                  have hk : s.pushes none = some (.link (.node n) m) := by
                    rw [MpscqThreads.pushes, hx]
                    rfl
                  exact hin (h.pushes.link_mem hk).1
          | last tail => exact hin (Option.some.inj hb ▸ hok.1 ▸ htail)
  | push p m => cases hb
  | pop => cases hb

omit [DecidableEq P] in
/-- A pop returns the first node. -/
theorem MpscqInv.answer_tail (h : MpscqInv s L) (hx : s.consumer = some x)
    (ha : (mpscqPopStep s.queue x).2 = .inr a) {m : MpscqNode N} (hm : a.node = some m) :
    m = s.queue.tail := by
  have hok := h.consumer x hx
  cases x with
  | start =>
      simp only [mpscqPopStep] at ha
      split at ha <;> split at ha <;> cases ha <;> cases hm
      rfl
  | skip tail =>
      simp only [mpscqPopStep] at ha
      split at ha <;> cases ha
      cases hm
      exact hok.1
  | head tail =>
      simp only [mpscqPopStep] at ha
      split at ha <;> cases ha
      cases hm
  | push tail z => cases z <;> cases ha
  | last tail =>
      simp only [mpscqPopStep] at ha
      split at ha <;> cases ha <;> cases hm
      exact hok.1

/-- **A returned node has left the queue**, and is in nobody's hands. -/
theorem MpscqInv.not_has (h : MpscqInv s L) (hx : s.consumer = some x)
    (ha : (mpscqPopStep s.queue x).2 = .inr a) (hn : a.node = some (.node n))
    (hs : mpscqStep s .consumer = some s') : ¬ s'.Has n := by
  obtain ⟨k, hk, hfirst⟩ := ((h.turns hx).2 a ha).oldest _ hn
  cases hk
  obtain ⟨hlt, hget⟩ := List.getElem?_eq_some_iff.mp hfirst
  have hdrop : s.pushed.drop s.popped.length = n :: s.pushed.drop (s.popped.length + 1) := by
    rw [← hget]
    exact List.drop_eq_getElem_cons hlt
  have hs' : s' = s.turn (mpscqPopStep s.queue x).1 (.inr a) := by
    simp only [mpscqStep, hx, ha] at hs
    exact (Option.some.inj hs).symm
  have hmem : .node n ∈ L := by
    rw [h.mem_iff, hdrop]
    exact List.mem_cons_self
  subst hs'
  rintro (hin | ⟨p, hp⟩)
  · have hnodup : (n :: s.pushed.drop (s.popped.length + 1)).Nodup := by
      rw [← hdrop, ← h.content]
      refine h.pushes.chain.chain.nodup.filterMap fun m m' b hm hm' => ?_
      cases m <;> cases m' <;> simp_all [MpscqNode.node?]
    have hlen : (s.turn (mpscqPopStep s.queue x).1 (.inr a)).popped.length
        = s.popped.length + 1 := by
      simp [MpscqThreads.turn, hn]
    rw [hlen] at hin
    exact (List.nodup_cons.mp hnodup).1 hin
  · obtain ⟨z, hz, hnode⟩ := Option.map_eq_some_iff.mp hp
    have hz : s.producer p = some z := hz
    have hok := h.pushes.ok (some p) z hz
    rw [← hnode] at hmem
    cases z with
    | clear m => exact hok hmem
    | swap m => exact hok.1 hmem
    | link prev m =>
        -- no link leads to the first node
        have hadj := h.pushes.chain.chain.coming prev m ⟨some p, hz⟩
        obtain ⟨xs, rfl⟩ := h.pushes.chain.cons
        have htail : m = s.queue.tail := hnode.trans (h.answer_tail hx ha hn)
        have hnodup := (List.nodup_cons.mp h.pushes.chain.chain.nodup).1
        rw [← htail] at hnodup
        exact hnodup hadj.mem_tail

/-- No thread pushes `n`, or a node that is still in the queue. -/
def MpscqFreshBut (n : N) (s : MpscqThreads P N) : MpscqAct P N → Prop
  | .push _ m => m ≠ n ∧ ¬ s.Has m
  | _ => True

instance MpscqFreshBut.decide [Fintype P] (n : N) (s : MpscqThreads P N) :
    (b : MpscqAct P N) → Decidable (MpscqFreshBut n s b)
  | .push _ m => inferInstanceAs (Decidable (m ≠ n ∧ ¬ s.Has m))
  | .pop => isTrue trivial
  | .producer _ => isTrue trivial
  | .consumer => isTrue trivial

/-- **It stays outside** until it is pushed. -/
theorem MpscqInv.stays_out (h : ∃ L, MpscqInv s L) (hout : ¬ s.Has n) {b : MpscqAct P N}
    (hb : MpscqFreshBut n s b) (hs : mpscqStep s b = some s') : ¬ s'.Has n := by
  obtain ⟨L, h⟩ := h
  have hlen : s.popped.length ≤ s.pushed.length := by
    have := congrArg List.length h.history
    simp at this
    omega
  rw [MpscqThreads.Has, not_or] at hout
  obtain ⟨hqueue, hhand⟩ := hout
  cases b with
  | push p m =>
      cases hp : s.producer p with
      | some z => simp [mpscqStep, hp] at hs
      | none =>
          simp only [mpscqStep, hp] at hs
          cases hs
          rintro (hin | ⟨p', hp'⟩)
          · exact hqueue hin
          · by_cases hpp : p' = p
            · subst hpp
              simp only [Function.update_self, Option.map_some, Option.some.injEq,
                MpscqPush.node, MpscqNode.node.injEq] at hp'
              exact hb.1 hp'
            · simp only [Function.update_of_ne hpp] at hp'
              exact hhand ⟨p', hp'⟩
  | pop =>
      cases hx : s.consumer with
      | some z => simp [mpscqStep, hx] at hs
      | none =>
          simp only [mpscqStep, hx] at hs
          cases hs
          exact fun hc => hc.elim hqueue hhand
  | producer p =>
      cases hp : s.producer p with
      | none => simp [mpscqStep, hp] at hs
      | some z =>
          have hne : z.node ≠ .node n := fun hc => hhand ⟨p, by rw [hp, Option.map_some, hc]⟩
          simp only [mpscqStep, hp] at hs
          cases hs
          rintro (hin | ⟨p', hp'⟩)
          · rw [List.drop_append_of_le_length hlen] at hin
            rcases List.mem_append.mp hin with hin | hin
            · exact hqueue hin
            · cases z with
              | swap m =>
                  cases m with
                  | sentinel => cases hin
                  | node k =>
                      cases List.mem_singleton.mp hin
                      exact hne rfl
              | _ => cases hin
          · by_cases hpp : p' = p
            · subst hpp
              simp only [Function.update_self] at hp'
              cases z <;> simp_all [mpscqPushStep, MpscqPush.node]
            · simp only [Function.update_of_ne hpp] at hp'
              exact hhand ⟨p', hp'⟩
  | consumer =>
      cases hx : s.consumer with
      | none => simp [mpscqStep, hx] at hs
      | some x =>
          simp only [mpscqStep, hx] at hs
          cases hs
          cases (mpscqPopStep s.queue x).2 with
          | inl y => exact fun hc => hc.elim hqueue hhand
          | inr a =>
              rintro (hin | hp)
              · have hdrop : s.pushed.drop (s.popped ++ a.node.toList).length
                    = (s.pushed.drop s.popped.length).drop a.node.toList.length := by
                  rw [List.drop_drop, List.length_append]
                have hin : n ∈ s.pushed.drop (s.popped ++ a.node.toList).length := hin
                rw [hdrop] at hin
                exact hqueue (List.mem_of_mem_drop hin)
              · exact hhand hp

/-- The step that returns a node. -/
theorem mpscqStep_popped {m : MpscqNode N} (hs : mpscqStep s .consumer = some s')
    (hpop : s'.popped = s.popped ++ [m]) :
    ∃ x a, s.consumer = some x ∧ (mpscqPopStep s.queue x).2 = .inr a ∧ a.node = some m := by
  cases hx : s.consumer with
  | none => simp [mpscqStep, hx] at hs
  | some x =>
      simp only [mpscqStep, hx] at hs
      cases hs
      cases ha : (mpscqPopStep s.queue x).2 with
      | inl y =>
          rw [ha] at hpop
          exact absurd (List.self_eq_append_right.mp hpop) (List.cons_ne_nil m [])
      | inr a =>
          rw [ha] at hpop
          have hnode : a.node.toList = [m] := List.append_cancel_left hpop
          refine ⟨x, a, rfl, ha, ?_⟩
          cases hn : a.node with
          | none => simp [hn] at hnode
          | some k =>
              rw [hn] at hnode
              exact congrArg some (List.cons.inj hnode).1

/-- **A node that a pop has returned may be freed.** Whatever the threads do
after that, none accesses its `next` field before it is pushed again. -/
theorem mpscqRun_freed (next : MpscqNode N → Option (MpscqNode N)) (acts acts' : List (MpscqAct P N))
    (hfresh : GuardedRun.Guarded mpscqStep MpscqFresh (mpscqThreads next) acts)
    (hrun : GuardedRun.run mpscqStep (mpscqThreads next) acts = some s)
    (hs : mpscqStep s .consumer = some s') (hpop : s'.popped = s.popped ++ [.node n])
    (hfresh' : GuardedRun.Guarded mpscqStep (MpscqFreshBut n) s' acts')
    (hrun' : GuardedRun.run mpscqStep s' acts' = some s'') (b : MpscqAct P N) :
    mpscqTouches s'' b ≠ some (.node n) := by
  obtain ⟨L, h⟩ := MpscqInv.of_run next acts hfresh hrun
  obtain ⟨x, a, hx, ha, hn⟩ := mpscqStep_popped hs hpop
  obtain ⟨⟨L', h'⟩, hout⟩ := GuardedRun.Guarded.keeps
    (I := fun s => (∃ L, MpscqInv s L) ∧ ¬ s.Has n)
    (fun s b _ hi hg hs => ⟨MpscqInv.step hi.1 (by cases b <;> first | exact hg.2 | trivial) hs,
      MpscqInv.stays_out hi.1 hi.2 hg hs⟩)
    acts' hfresh' hrun'
    ⟨MpscqInv.step (a := .consumer) ⟨L, h⟩ trivial hs, h.not_has hx ha hn hs⟩
  exact fun hb => hout (h'.touches hb)

/-- The first node comes back while the second producer is in its push. -/
theorem mpscqRun_freed_one :
    ∃ s s' s'' : MpscqThreads Bool Nat,
      GuardedRun.run mpscqStep (mpscqThreads fun _ => none)
          [.push true 7, .producer true, .producer true, .producer true, .push false 8,
            .producer false, .producer false, .producer false, .pop, .consumer] = some s
        ∧ mpscqStep s .consumer = some s' ∧ s'.popped = s.popped ++ [.node 7]
        ∧ GuardedRun.run mpscqStep s' [.push true 9, .producer true, .producer true] = some s''
        ∧ ∀ b, mpscqTouches s'' b ≠ some (.node 7) := by
  obtain ⟨s, s', s'', hrun, hs, hpop, hrun', hfresh'⟩ : ∃ s s' s'' : MpscqThreads Bool Nat,
      GuardedRun.run mpscqStep (mpscqThreads fun _ => none)
          [.push true 7, .producer true, .producer true, .producer true, .push false 8,
            .producer false, .producer false, .producer false, .pop, .consumer] = some s
        ∧ mpscqStep s .consumer = some s' ∧ s'.popped = s.popped ++ [.node 7]
        ∧ GuardedRun.run mpscqStep s' [.push true 9, .producer true, .producer true] = some s''
        ∧ GuardedRun.Guarded mpscqStep (MpscqFreshBut 7) s'
          [.push true 9, .producer true, .producer true] :=
    ⟨_, _, _, rfl, rfl, rfl, rfl, by decide⟩
  exact ⟨s, s', s'', hrun, hs, hpop, hrun',
    mpscqRun_freed _ _ _ (by decide) hrun hs hpop hfresh' hrun'⟩

/-! ## One thread alone

Where no other thread steps in between, the steps of a call add up to the call
of `Mpscq`. -/

theorem mpscqPush_alone {p : P} (hidle : s.producer p = none) :
    GuardedRun.run mpscqStep s [.push p n, .producer p, .producer p, .producer p]
      = some { s with
          queue := mpscqPush s.queue (.node n)
          pushed := s.pushed ++ [n]
          linked := s.linked + 1 } := by
  simp [GuardedRun.run, mpscqStep, hidle, mpscqPushStep, mpscqPush, MpscqPush.exchanged,
    MpscqNode.node?]

/-- A pop that no other step comes between. -/
def mpscqPopSteps : Nat → Mpscq N → MpscqPop N → Option (Mpscq N × MpscqAnswer N)
  | 0, _, _ => none
  | k + 1, q, x =>
      match mpscqPopStep q x with
      | (q, .inl y) => mpscqPopSteps k q y
      | (q, .inr a) => some (q, a)

omit [DecidableEq P] in
theorem mpscqPopSteps_skip (k : Nat) (q : Mpscq N) (tail : MpscqNode N) :
    mpscqPopSteps (k + 6) q (.skip tail)
      = some ((mpscqPopFrom q tail).1, ⟨(mpscqPopFrom q tail).2.1, (mpscqPopFrom q tail).2.2⟩) := by
  cases hnext : q.next tail with
  | some next => simp [mpscqPopSteps, mpscqPopStep, mpscqPopFrom, hnext]
  | none =>
      by_cases hhead : tail = q.head
      · subst hhead
        simp [mpscqPopSteps, mpscqPopStep, mpscqPopFrom, hnext, mpscqPushStep, mpscqPush,
          Mpscq.setNext]
      · simp [mpscqPopSteps, mpscqPopStep, mpscqPopFrom, hnext, hhead]

omit [DecidableEq P] in
/-- The steps add up to `mpscq_pop_and_check_end`. -/
theorem mpscqPopSteps_start (q : Mpscq N) :
    mpscqPopSteps 7 q .start = some ((mpscqPopAndCheckEnd q).1,
      ⟨(mpscqPopAndCheckEnd q).2.1, (mpscqPopAndCheckEnd q).2.2⟩) := by
  by_cases htail : q.tail = .sentinel
  · rw [mpscqPopAndCheckEnd, if_pos htail]
    cases hnext : q.next q.tail with
    | none => simp only [mpscqPopSteps, mpscqPopStep, hnext, if_pos htail]
    | some next =>
        have hstart : mpscqPopStep q .start = ({ q with tail := next }, .inl (.skip next)) := by
          simp only [mpscqPopStep, hnext, if_pos htail]
        rw [mpscqPopSteps, hstart]
        exact mpscqPopSteps_skip 0 _ next
  · -- without the sentinel at the front the first load is the later one
    have hskip : mpscqPopStep q .start = mpscqPopStep q (.skip q.tail) := by
      simp only [mpscqPopStep, if_neg htail]
    rw [mpscqPopAndCheckEnd, if_neg htail, mpscqPopSteps, hskip, ← mpscqPopSteps]
    exact mpscqPopSteps_skip 1 q q.tail

theorem mpscqPopSteps_run (k : Nat) : ∀ {s : MpscqThreads P N} {x : MpscqPop N} {q : Mpscq N}
    {a : MpscqAnswer N}, s.consumer = some x → mpscqPopSteps k s.queue x = some (q, a) →
    ∃ m, GuardedRun.run mpscqStep s (List.replicate m .consumer) = some (s.turn q (.inr a)) := by
  induction k with
  | zero =>
      intro s x q a _ hsteps
      cases hsteps
  | succ k ih =>
      intro s x q a hx hsteps
      have hstep : mpscqStep s .consumer
          = some (s.turn (mpscqPopStep s.queue x).1 (mpscqPopStep s.queue x).2) := by
        simp only [mpscqStep, hx]
      rw [mpscqPopSteps] at hsteps
      split at hsteps
      case h_1 q' y hy =>
        rw [hy] at hstep
        obtain ⟨m, hm⟩ := ih (s := s.turn q' (.inl y)) rfl hsteps
        refine ⟨m + 1, ?_⟩
        rw [List.replicate_succ, GuardedRun.run, hstep]
        exact hm
      case h_2 q' b hb =>
        cases hsteps
        rw [hb] at hstep
        refine ⟨1, ?_⟩
        rw [List.replicate_one, GuardedRun.run, hstep]
        rfl

theorem mpscqPop_alone (hidle : s.consumer = none) :
    ∃ m, GuardedRun.run mpscqStep s (.pop :: List.replicate m .consumer)
      = some { s with
          queue := (mpscqPop s.queue).1
          popped := s.popped ++ (mpscqPop s.queue).2.toList
          begun := s.linked } := by
  have hstep : mpscqStep s .pop = some { s with consumer := some .start, begun := s.linked } := by
    simp only [mpscqStep, hidle]
  obtain ⟨m, hm⟩ := mpscqPopSteps_run 7 (s := { s with consumer := some .start, begun := s.linked })
    rfl (mpscqPopSteps_start s.queue)
  refine ⟨m, ?_⟩
  rw [GuardedRun.run, hstep]
  refine hm.trans (congrArg some ?_)
  simp [MpscqThreads.turn, mpscqPop, hidle]

end Ats
