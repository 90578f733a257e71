import Mathlib.Data.Fintype.Defs
import Ats.Base.Mpscq
import Ats.Lib.GuardedRun

/-!
# MpscqThreads: producers and consumer, store by store

Any number of threads run `mpscq_push`, one runs `mpscq_pop`, on the same
queue; every step is one load, store or exchange of `head` or of a `next`
field, in any interleaving. `tail` is the consumer's own, so that its loads and
stores go with the step next to them.
-/

namespace Ats

open HalfLinked

variable {P N K : Type}

/-- Where a call of `mpscq_push(q, n)` stands. -/
inductive MpscqPush (N : Type) where
  /-- before the store to `n->next` -/
  | clear (n : MpscqNode N)
  /-- before the exchange of `head` -/
  | swap (n : MpscqNode N)
  /-- before the store to `prev->next` -/
  | link (prev n : MpscqNode N)
deriving DecidableEq, Repr

/-- The node that is pushed. -/
def MpscqPush.node : MpscqPush N → MpscqNode N
  | .clear n => n
  | .swap n => n
  | .link _ n => n

/-- Where the consumer stands in `mpscq_pop_and_check_end(q, &empty)`. -/
inductive MpscqPop (N : Type) where
  /-- before the first load of `tail->next` -/
  | start
  /-- before the load of `tail->next` that follows the sentinel -/
  | skip (tail : MpscqNode N)
  /-- before the load of `head` -/
  | head (tail : MpscqNode N)
  /-- in `mpscq_push(q, &q->sentinel)` -/
  | push (tail : MpscqNode N) (x : MpscqPush N)
  /-- before the last load of `tail->next` -/
  | last (tail : MpscqNode N)
deriving DecidableEq, Repr

/-- What a pop returns, and what it writes to `*empty`. -/
structure MpscqAnswer (N : Type) where
  node : Option (MpscqNode N)
  empty : Option Bool
deriving DecidableEq, Repr

section

variable [DecidableEq N]

/-- The next store of `mpscq_push`. -/
def mpscqPushStep (q : Mpscq N) : MpscqPush N → Mpscq N × Option (MpscqPush N)
  | .clear n => (q.setNext n none, some (.swap n))
  | .swap n => ({ q with head := n }, some (.link q.head n))
  | .link prev n => (q.setNext prev (some n), none)

/-- The next load or store of `mpscq_pop_and_check_end`. -/
def mpscqPopStep (q : Mpscq N) : MpscqPop N → Mpscq N × (MpscqPop N ⊕ MpscqAnswer N)
  | .start =>
      match q.next q.tail with
      | none =>
          if q.tail = .sentinel then (q, .inr ⟨none, some true⟩) else (q, .inl (.head q.tail))
      | some next =>
          if q.tail = .sentinel then ({ q with tail := next }, .inl (.skip next))
          else ({ q with tail := next }, .inr ⟨some q.tail, some false⟩)
  | .skip tail =>
      match q.next tail with
      | none => (q, .inl (.head tail))
      | some next => ({ q with tail := next }, .inr ⟨some tail, some false⟩)
  | .head tail =>
      if tail ≠ q.head then (q, .inr ⟨none, some false⟩)
      else (q, .inl (.push tail (.clear .sentinel)))
  | .push tail x =>
      match mpscqPushStep q x with
      | (q, some x) => (q, .inl (.push tail x))
      | (q, none) => (q, .inl (.last tail))
  | .last tail =>
      match q.next tail with
      | none => (q, .inr ⟨none, some false⟩)
      | some next => ({ q with tail := next }, .inr ⟨some tail, none⟩)

end

/-- The queue, the threads, and the history: the nodes in the order of the
exchanges that pushed them, the nodes that pops have returned, the number of
links the producers have written, and that number when the last pop began. -/
structure MpscqThreads (P N : Type) where
  queue : Mpscq N
  producer : P → Option (MpscqPush N)
  consumer : Option (MpscqPop N)
  pushed : List N
  popped : List (MpscqNode N)
  linked : Nat
  begun : Nat

/-- A thread enters a call, or makes its next load or store. -/
inductive MpscqAct (P N : Type) where
  | push (p : P) (n : N)
  | pop
  | producer (p : P)
  | consumer
deriving DecidableEq, Repr

/-- What an exchange puts into the queue. -/
def MpscqPush.exchanged : MpscqPush N → List (MpscqNode N)
  | .swap n => [n]
  | _ => []

/-- The consumer goes on in its pop, or returns from it. -/
def MpscqThreads.turn (s : MpscqThreads P N) (queue : Mpscq N) :
    MpscqPop N ⊕ MpscqAnswer N → MpscqThreads P N
  | .inl x => { s with queue, consumer := some x }
  | .inr a => { s with queue, consumer := none, popped := s.popped ++ a.node.toList }

/-- One step of a thread. -/
def mpscqStep [DecidableEq P] [DecidableEq N] (s : MpscqThreads P N) :
    MpscqAct P N → Option (MpscqThreads P N)
  | .push p n =>
      match s.producer p with
      | some _ => none
      | none =>
          some { s with producer := Function.update s.producer p (some (.clear (.node n))) }
  | .pop =>
      match s.consumer with
      | some _ => none
      | none => some { s with consumer := some .start, begun := s.linked }
  | .producer p =>
      match s.producer p with
      | none => none
      | some x =>
          let (queue, y) := mpscqPushStep s.queue x
          some { s with
            queue
            producer := Function.update s.producer p y
            pushed := s.pushed ++ x.exchanged.filterMap MpscqNode.node?
            linked := if y.isNone then s.linked + 1 else s.linked }
  | .consumer =>
      match s.consumer with
      | none => none
      | some x =>
          let (queue, r) := mpscqPopStep s.queue x
          some (s.turn queue r)

/-- All threads outside, on a queue of `mpscq_init`. -/
def mpscqThreads [DecidableEq N] (next : MpscqNode N → Option (MpscqNode N)) : MpscqThreads P N :=
  ⟨mpscqInit next, fun _ => none, none, [], [], 0, 0⟩

/-- A node is in the queue, or in the hands of a producer. -/
def MpscqThreads.Has (s : MpscqThreads P N) (n : N) : Prop :=
  n ∈ s.pushed.drop s.popped.length ∨ ∃ p, (s.producer p).map MpscqPush.node = some (.node n)

/-- No thread pushes a node that is still in the queue or about to be. -/
def MpscqFresh (s : MpscqThreads P N) : MpscqAct P N → Prop
  | .push _ n => ¬ s.Has n
  | _ => True

instance MpscqThreads.decidableHas [DecidableEq N] [Fintype P] (s : MpscqThreads P N) (n : N) :
    Decidable (s.Has n) :=
  inferInstanceAs (Decidable (_ ∨ _))

instance MpscqFresh.decide [DecidableEq N] [Fintype P] (s : MpscqThreads P N) :
    (a : MpscqAct P N) → Decidable (MpscqFresh s a)
  | .push _ n => inferInstanceAs (Decidable (¬ s.Has n))
  | .pop => isTrue trivial
  | .producer _ => isTrue trivial
  | .consumer => isTrue trivial

/-! ## Pushes that are under way -/

/-- What a push knows of a chain `L`. -/
def MpscqPush.Ok (q : Mpscq N) (L : List (MpscqNode N)) : MpscqPush N → Prop
  | .clear n => n ∉ L
  | .swap n => n ∉ L ∧ q.next n = none
  | .link _ _ => True

/-- **The chain and the pushes under way**, each at a node of its own. -/
structure MpscqPushes (q : Mpscq N) (push : K → Option (MpscqPush N)) (L : List (MpscqNode N)) :
    Prop where
  chain : MpscqAt q (fun a b => ∃ k, push k = some (.link a b)) L
  ok : ∀ k x, push k = some x → x.Ok q L
  apart : ∀ k k' x x', push k = some x → push k' = some x' → x.node = x'.node → k = k'

namespace MpscqPushes

variable {q : Mpscq N} {push : K → Option (MpscqPush N)} {L xs : List (MpscqNode N)} {k : K}
  {x : MpscqPush N} {a b n : MpscqNode N}

theorem update_some [DecidableEq K] {y : Option (MpscqPush N)} {k' : K} :
    Function.update push k y k' = some x ↔ k' = k ∧ y = some x ∨ k' ≠ k ∧ push k' = some x := by
  by_cases hkk : k' = k
  · subst hkk
    simp
  · simp [hkk]

/-- The node a link on its way comes from is in the chain. -/
theorem link_mem (h : MpscqPushes q push L) (hk : push k = some (.link a b)) : a ∈ L ∧ b ∈ L :=
  have hadj := h.chain.chain.coming a b ⟨k, hk⟩
  ⟨hadj.mem_left, hadj.mem_right⟩

/-- **A thread enters `mpscq_push`** with a node that is nowhere. -/
theorem enter [DecidableEq K] (h : MpscqPushes q push L) (hk : push k = none) (hn : n ∉ L)
    (hfree : ∀ k x, push k = some x → x.node ≠ n) :
    MpscqPushes q (Function.update push k (some (.clear n))) L where
  chain := by
    refine h.chain.congr fun a b => ⟨?_, ?_⟩
    · rintro ⟨k', hk'⟩
      rcases update_some.mp hk' with ⟨-, hx⟩ | ⟨-, hx⟩
      · cases hx
      · exact ⟨k', hx⟩
    · rintro ⟨k', hk'⟩
      have hkk : k' ≠ k := by
        rintro rfl
        simp [hk] at hk'
      exact ⟨k', update_some.mpr (.inr ⟨hkk, hk'⟩)⟩
  ok := by
    intro k' x hx
    rcases update_some.mp hx with ⟨-, hx⟩ | ⟨-, hx⟩
    · cases hx
      exact hn
    · exact h.ok k' x hx
  apart := by
    intro k1 k2 x1 x2 h1 h2 heq
    rcases update_some.mp h1 with ⟨hk1, h1⟩ | ⟨-, h1⟩ <;>
      rcases update_some.mp h2 with ⟨hk2, h2⟩ | ⟨-, h2⟩
    · rw [hk1, hk2]
    · cases h1
      exact absurd heq.symm (hfree k2 x2 h2)
    · cases h2
      exact absurd heq (hfree k1 x1 h1)
    · exact h.apart k1 k2 x1 x2 h1 h2 heq

/-- A push that goes on keeps its node. -/
theorem apart_update [DecidableEq K] (h : MpscqPushes q push L) (hk : push k = some x)
    {y : Option (MpscqPush N)} (hy : ∀ x', y = some x' → x'.node = x.node) (k1 k2 : K)
    (x1 x2 : MpscqPush N) (h1 : Function.update push k y k1 = some x1)
    (h2 : Function.update push k y k2 = some x2) (heq : x1.node = x2.node) : k1 = k2 := by
  rcases update_some.mp h1 with ⟨hk1, h1⟩ | ⟨-, h1⟩ <;>
    rcases update_some.mp h2 with ⟨hk2, h2⟩ | ⟨-, h2⟩
  · rw [hk1, hk2]
  · exact hk1.trans (h.apart k k2 x x2 hk h2 ((hy x1 h1).symm.trans heq))
  · exact (h.apart k1 k x1 x h1 hk (heq.trans (hy x2 h2))).trans hk2.symm
  · exact h.apart k1 k2 x1 x2 h1 h2 heq

/-- **The store to `n->next`.** -/
theorem clear [DecidableEq K] [DecidableEq N] (h : MpscqPushes q push L)
    (hk : push k = some (.clear n)) :
    MpscqPushes (q.setNext n none) (Function.update push k (some (.swap n))) L where
  chain := by
    refine (h.chain.clear (h.ok k _ hk)).congr fun a b => ⟨?_, ?_⟩
    · rintro ⟨k', hk'⟩
      rcases update_some.mp hk' with ⟨-, hx⟩ | ⟨-, hx⟩
      · cases hx
      · exact ⟨k', hx⟩
    · rintro ⟨k', hk'⟩
      have hkk : k' ≠ k := by
        rintro rfl
        simp [hk] at hk'
      exact ⟨k', update_some.mpr (.inr ⟨hkk, hk'⟩)⟩
  ok := by
    intro k' x hx
    rcases update_some.mp hx with ⟨-, hx⟩ | ⟨hkk, hx⟩
    · cases hx
      exact ⟨h.ok k _ hk, Function.update_self ..⟩
    · cases x with
      | clear m => exact h.ok k' _ hx
      | swap m =>
          have hne : m ≠ n := fun heq => hkk (h.apart k' k _ _ hx hk heq)
          exact ⟨(h.ok k' _ hx).1, (Function.update_of_ne hne ..).trans (h.ok k' _ hx).2⟩
      | link _ _ => trivial
  apart := by
    refine h.apart_update hk fun x' hx' => ?_
    cases hx'
    rfl

/-- **The exchange of `head`.** -/
theorem swap [DecidableEq K] (h : MpscqPushes q push L) (hk : push k = some (.swap n)) :
    MpscqPushes { q with head := n } (Function.update push k (some (.link q.head n)))
      (L ++ [n]) where
  chain := by
    refine h.chain.swap (h.ok k _ hk).1 (h.ok k _ hk).2 fun a b => ⟨?_, ?_⟩
    · rintro ⟨k', hk'⟩
      rcases update_some.mp hk' with ⟨-, hx⟩ | ⟨-, hx⟩
      · cases hx
        exact .inr ⟨rfl, rfl⟩
      · exact .inl ⟨k', hx⟩
    · rintro (⟨k', hk'⟩ | ⟨rfl, rfl⟩)
      · have hkk : k' ≠ k := by
          rintro rfl
          simp [hk] at hk'
        exact ⟨k', update_some.mpr (.inr ⟨hkk, hk'⟩)⟩
      · exact ⟨k, update_some.mpr (.inl ⟨rfl, rfl⟩)⟩
  ok := by
    intro k' x hx
    rcases update_some.mp hx with ⟨-, hx⟩ | ⟨hkk, hx⟩
    · cases hx
      trivial
    · have hne : x.node ≠ n := fun heq => hkk (h.apart k' k _ _ hx hk heq)
      have hok := h.ok k' x hx
      cases x with
      | clear m =>
          intro hm
          rcases List.mem_append.mp hm with hm | hm
          · exact hok hm
          · exact hne (List.mem_singleton.mp hm)
      | swap m =>
          refine ⟨fun hm => ?_, hok.2⟩
          rcases List.mem_append.mp hm with hm | hm
          · exact hok.1 hm
          · exact hne (List.mem_singleton.mp hm)
      | link _ _ => trivial
  apart := by
    refine h.apart_update hk fun x' hx' => ?_
    cases hx'
    rfl

/-- **The store to `prev->next`.** -/
theorem link [DecidableEq K] [DecidableEq N] (h : MpscqPushes q push L)
    (hk : push k = some (.link a b)) :
    MpscqPushes (q.setNext a (some b)) (Function.update push k none) L where
  chain := by
    refine h.chain.link ⟨k, hk⟩ fun x y => ⟨?_, ?_⟩
    · rintro ⟨k', hk'⟩
      rcases update_some.mp hk' with ⟨-, hx⟩ | ⟨hkk, hx⟩
      · cases hx
      · exact ⟨⟨k', hx⟩, fun heq => hkk (h.apart k' k _ _ hx hk heq.2)⟩
    · rintro ⟨⟨k', hk'⟩, hne⟩
      have hkk : k' ≠ k := by
        rintro rfl
        cases hk.symm.trans hk'
        exact hne ⟨rfl, rfl⟩
      exact ⟨k', update_some.mpr (.inr ⟨hkk, hk'⟩)⟩
  ok := by
    intro k' x hx
    rcases update_some.mp hx with ⟨-, hx⟩ | ⟨-, hx⟩
    · cases hx
    · have hok := h.ok k' x hx
      cases x with
      | clear m => exact hok
      | swap m =>
          have hne : m ≠ a := fun heq => hok.1 (heq ▸ (h.link_mem hk).1)
          exact ⟨hok.1, (Function.update_of_ne hne ..).trans hok.2⟩
      | link _ _ => trivial
  apart := h.apart_update hk fun _ hx' => nomatch hx'

/-- **Every step of a push**: what an exchange takes in comes last. -/
theorem step [DecidableEq K] [DecidableEq N] (h : MpscqPushes q push L) (hk : push k = some x) :
    MpscqPushes (mpscqPushStep q x).1 (Function.update push k (mpscqPushStep q x).2)
      (L ++ x.exchanged) := by
  cases x with
  | clear n =>
      show MpscqPushes _ _ (L ++ [])
      rw [List.append_nil]
      exact h.clear hk
  | swap n => exact h.swap hk
  | link prev n =>
      show MpscqPushes _ _ (L ++ [])
      rw [List.append_nil]
      exact h.link hk

/-- **The consumer takes the first node.** -/
theorem take (h : MpscqPushes q push (a :: L)) (ha : q.next a = some b) :
    MpscqPushes { q with tail := b } push L ∧ ∃ xs, L = b :: xs := by
  obtain ⟨hchain, hL⟩ := h.chain.take ha
  refine ⟨⟨hchain, fun k x hx => ?_, h.apart⟩, hL⟩
  have hok := h.ok k x hx
  cases x with
  | clear n => exact fun hm => hok (List.mem_cons_of_mem _ hm)
  | swap n => exact ⟨fun hm => hok.1 (List.mem_cons_of_mem _ hm), hok.2⟩
  | link _ _ => trivial

end MpscqPushes

/-! ## The invariant -/

/-- The push that is a part of the pop. -/
def MpscqPop.push? : MpscqPop N → Option (MpscqPush N)
  | .push _ x => some x
  | _ => none

/-- The pushes under way, the consumer's among them. -/
def MpscqThreads.pushes (s : MpscqThreads P N) : Option P → Option (MpscqPush N)
  | none => s.consumer.bind MpscqPop.push?
  | some p => s.producer p

/-- What the consumer knows of a chain `L`. -/
def MpscqPop.Ok (s : MpscqThreads P N) (L : List (MpscqNode N)) : MpscqPop N → Prop
  | .start => True
  | .skip tail => tail = s.queue.tail ∧ tail ≠ .sentinel
  | .head tail =>
      tail = s.queue.tail ∧ tail ≠ .sentinel
        ∧ (s.queue.next tail = none ∨ s.begun < s.linked)
  | .push tail x => tail = s.queue.tail ∧ tail ≠ .sentinel ∧ x.node = .sentinel
  | .last tail => tail = s.queue.tail ∧ tail ≠ .sentinel ∧ .sentinel ∈ L

/-- **The invariant of the threads.** -/
structure MpscqInv (s : MpscqThreads P N) (L : List (MpscqNode N)) : Prop where
  pushes : MpscqPushes s.queue s.pushes L
  own : ∀ p x, s.producer p = some x → x.node ≠ .sentinel
  consumer : ∀ x, s.consumer = some x → x.Ok s L
  history : s.popped ++ (L.filterMap MpscqNode.node?).map .node = s.pushed.map .node
  begun : s.begun ≤ s.linked

/-- **What a pop answers**: the oldest node; or none, where the queue is
empty, a link is missing, or a producer has linked since the pop began. -/
structure MpscqAnswered (s : MpscqThreads P N) (a : MpscqAnswer N) : Prop where
  oldest : ∀ m, a.node = some m → ∃ n, m = .node n ∧ s.pushed[s.popped.length]? = some n
  null : a.node = none → s.pushed.length = s.popped.length
    ∨ (∃ p prev n, s.producer p = some (.link prev n)) ∨ s.begun < s.linked
  empty : a.empty = some true → a.node = none ∧ (s.pushed.length = s.popped.length
    ∨ ∃ p n, s.producer p = some (.link .sentinel n))
  of_empty : s.pushed.length = s.popped.length → a = ⟨none, some true⟩

namespace MpscqInv

variable {s : MpscqThreads P N} {L : List (MpscqNode N)} {n : N} {b tail : MpscqNode N}
  {x y : MpscqPop N}

/-- The nodes in the chain are those that were pushed and not popped. -/
theorem content (h : MpscqInv s L) :
    L.filterMap MpscqNode.node? = s.pushed.drop s.popped.length := by
  have hd := congrArg (List.drop s.popped.length) h.history
  rw [List.drop_left, ← List.map_drop] at hd
  exact List.map_injective_iff.mpr (fun _ _ => MpscqNode.node.inj) hd

theorem mem_iff (h : MpscqInv s L) : .node n ∈ L ↔ n ∈ s.pushed.drop s.popped.length := by
  rw [← h.content, List.mem_filterMap]
  refine ⟨fun hn => ⟨_, hn, rfl⟩, ?_⟩
  rintro ⟨m, hm, hmn⟩
  cases m with
  | sentinel => cases hmn
  | node k =>
      cases hmn
      exact hm

/-- The queue is empty where only the sentinel is left. -/
theorem length_iff (h : MpscqInv s L) :
    s.pushed.length = s.popped.length ↔ L.filterMap MpscqNode.node? = [] := by
  have hlength := congrArg List.length h.history
  rw [List.length_append, List.length_map, List.length_map] at hlength
  rw [← List.length_eq_zero_iff]
  omega

theorem nonempty (h : MpscqInv s L) (hn : .node n ∈ L) : s.pushed.length ≠ s.popped.length := by
  rw [Ne, h.length_iff, List.filterMap_eq_nil_iff]
  exact fun hall => nomatch hall _ hn

theorem init [DecidableEq N] (next : MpscqNode N → Option (MpscqNode N)) :
    MpscqInv (mpscqThreads next : MpscqThreads P N) [.sentinel] where
  pushes := by
    have hnone : ∀ k, (mpscqThreads next : MpscqThreads P N).pushes k = none := by
      intro k
      cases k <;> rfl
    refine ⟨(MpscqAt.init next).congr fun a b => ?_, fun k x hk => ?_, fun k k' x x' hk => ?_⟩
    · simp [hnone]
    · exact nomatch (hnone k).symm.trans hk
    · exact nomatch (hnone k).symm.trans hk
  own := nofun
  consumer := nofun
  history := rfl
  begun := Nat.le_refl _

/-! ## The consumer -/

theorem turn_pushes (hx : s.consumer.bind MpscqPop.push? = none) (q : Mpscq N)
    {r : MpscqPop N ⊕ MpscqAnswer N} (hr : ∀ y, r = .inl y → y.push? = none) :
    (s.turn q r).pushes = s.pushes := by
  funext k
  cases r with
  | inl y =>
      cases k with
      | none => exact (hr y rfl).trans hx.symm
      | some p => rfl
  | inr a =>
      cases k with
      | none => exact hx.symm
      | some p => rfl

/-- The consumer waits for no link of its own. -/
theorem producer_of_coming (hx : s.consumer.bind MpscqPop.push? = none) {a : MpscqNode N}
    (hc : ∃ k, s.pushes k = some (.link a b)) : ∃ p, s.producer p = some (.link a b) := by
  obtain ⟨k, hk⟩ := hc
  cases k with
  | none => exact nomatch hx.symm.trans hk
  | some p => exact ⟨p, hk⟩

/-- Where a node has no link, none comes after it, or its link is on its way. -/
theorem tail_none (h : MpscqInv s L) (hx : s.consumer.bind MpscqPop.push? = none)
    (hnone : s.queue.next s.queue.tail = none) :
    L = [s.queue.tail] ∨ ∃ p n, s.producer p = some (.link s.queue.tail n) := by
  obtain ⟨xs, rfl⟩ := h.pushes.chain.cons
  rcases h.pushes.chain.chain.head_none hnone with rfl | ⟨b, -, hc⟩
  · exact .inl rfl
  · obtain ⟨p, hp⟩ := producer_of_coming hx hc
    exact .inr ⟨p, b, hp⟩

/-- Where the first node is no sentinel, the queue is not empty. -/
theorem ne_of_tail (h : MpscqInv s L) (htail : s.queue.tail ≠ .sentinel) :
    s.pushed.length ≠ s.popped.length := by
  cases ht : s.queue.tail with
  | sentinel => exact absurd ht htail
  | node n => exact h.nonempty (ht ▸ h.pushes.chain.tail_mem)

/-- The consumer goes on, and has changed nothing. -/
theorem goOn (h : MpscqInv s L) (hx : s.consumer.bind MpscqPop.push? = none)
    (hy : y.push? = none) (hok : y.Ok s L) : MpscqInv (s.turn s.queue (.inl y)) L where
  pushes := by
    rw [turn_pushes hx]
    · exact h.pushes
    · rintro _ ⟨⟩
      exact hy
  own := h.own
  consumer := by
    intro x hx
    cases hx
    cases y <;> exact hok
  history := h.history
  begun := h.begun

/-- The consumer returns with nothing. -/
theorem giveUp (h : MpscqInv s L) (hx : s.consumer.bind MpscqPop.push? = none)
    (empty : Option Bool) : MpscqInv (s.turn s.queue (.inr ⟨none, empty⟩)) L where
  pushes := by
    rw [turn_pushes hx]
    · exact h.pushes
    · exact nofun
  own := h.own
  consumer := nofun
  history := by
    show (s.popped ++ []) ++ _ = _
    rw [List.append_nil]
    exact h.history
  begun := h.begun

/-- **The consumer returns with the first node.** -/
theorem takeNode (h : MpscqInv s L) (hx : s.consumer.bind MpscqPop.push? = none)
    (htail : s.queue.tail ≠ .sentinel) (hnext : s.queue.next s.queue.tail = some b)
    (empty : Option Bool) (hempty : empty ≠ some true) :
    (∃ L', MpscqInv (s.turn { s.queue with tail := b } (.inr ⟨some s.queue.tail, empty⟩)) L')
      ∧ MpscqAnswered s ⟨some s.queue.tail, empty⟩ := by
  have hne := h.ne_of_tail htail
  obtain ⟨xs, hxs⟩ := h.pushes.chain.cons
  cases ht : s.queue.tail with
  | sentinel => exact absurd ht htail
  | node n =>
      rw [ht] at hnext hxs
      subst hxs
      obtain ⟨hpushes, -⟩ := h.pushes.take hnext
      have hhistory := h.history
      simp only [List.filterMap_cons, MpscqNode.node?, List.map_cons] at hhistory
      refine ⟨⟨xs, ?_, h.own, nofun, ?_, h.begun⟩, ?_, nofun, fun hc => absurd hc hempty,
        fun hc => absurd hc hne⟩
      · rw [turn_pushes hx]
        · exact hpushes
        · exact nofun
      · show (s.popped ++ [.node n]) ++ _ = _
        rw [List.append_assoc]
        exact hhistory
      · intro m hm
        cases hm
        refine ⟨n, rfl, ?_⟩
        have hcontent := h.content
        rw [← List.head?_drop, ← hcontent]
        rfl

/-- What one turn of the consumer keeps, and what it may answer. -/
def Turns [DecidableEq N] (s : MpscqThreads P N) (x : MpscqPop N) : Prop :=
  (∃ L', MpscqInv (s.turn (mpscqPopStep s.queue x).1 (mpscqPopStep s.queue x).2) L')
    ∧ ∀ a, (mpscqPopStep s.queue x).2 = .inr a → MpscqAnswered s a

section

variable [DecidableEq N]

/-- The first load of `tail->next`. -/
theorem turn_start (h : MpscqInv s L) (hx : s.consumer = some .start) : Turns s .start := by
  have hx' : s.consumer.bind MpscqPop.push? = none := by rw [hx]; rfl
  cases hnext : s.queue.next s.queue.tail with
  | none =>
      by_cases htail : s.queue.tail = .sentinel
      · have hstep : mpscqPopStep s.queue .start = (s.queue, .inr ⟨none, some true⟩) := by
          simp only [mpscqPopStep, hnext, if_pos htail]
        rw [Turns, hstep]
        refine ⟨⟨L, h.giveUp hx' _⟩, ?_⟩
        rintro a ⟨⟩
        have hends : s.pushed.length = s.popped.length
            ∨ ∃ p n, s.producer p = some (.link .sentinel n) := by
          rcases h.tail_none hx' hnext with hL | hp
          · refine .inl (h.length_iff.mpr ?_)
            rw [hL, htail]
            rfl
          · rw [htail] at hp
            exact .inr hp
        refine ⟨nofun, fun _ => ?_, fun _ => ⟨rfl, hends⟩, fun _ => rfl⟩
        rcases hends with heq | ⟨p, n, hp⟩
        · exact .inl heq
        · exact .inr (.inl ⟨p, _, n, hp⟩)
      · have hstep : mpscqPopStep s.queue .start = (s.queue, .inl (.head s.queue.tail)) := by
          simp only [mpscqPopStep, hnext, if_neg htail]
        rw [Turns, hstep]
        exact ⟨⟨L, h.goOn hx' rfl ⟨rfl, htail, .inl hnext⟩⟩, nofun⟩
  | some b =>
      by_cases htail : s.queue.tail = .sentinel
      · have hstep : mpscqPopStep s.queue .start
            = ({ s.queue with tail := b }, .inl (.skip b)) := by
          simp only [mpscqPopStep, hnext, if_pos htail]
        rw [Turns, hstep]
        refine ⟨?_, nofun⟩
        obtain ⟨xs, hxs⟩ := h.pushes.chain.cons
        subst hxs
        obtain ⟨hpushes, ys, rfl⟩ := h.pushes.take hnext
        have hne : b ≠ .sentinel := by
          rintro rfl
          have hnodup := (List.nodup_cons.mp h.pushes.chain.chain.nodup).1
          rw [htail] at hnodup
          exact hnodup List.mem_cons_self
        refine ⟨b :: ys, ?_, h.own, ?_, ?_, h.begun⟩
        · rw [turn_pushes hx']
          · exact hpushes
          · rintro _ ⟨⟩
            rfl
        · rintro x ⟨⟩
          exact ⟨rfl, hne⟩
        · have hhistory := h.history
          rw [List.filterMap_cons, htail] at hhistory
          exact hhistory
      · have hstep : mpscqPopStep s.queue .start
            = ({ s.queue with tail := b }, .inr ⟨some s.queue.tail, some false⟩) := by
          simp only [mpscqPopStep, hnext, if_neg htail]
        obtain ⟨hinv, hans⟩ := h.takeNode hx' htail hnext (some false) (by decide)
        rw [Turns, hstep]
        refine ⟨hinv, ?_⟩
        rintro a ⟨⟩
        exact hans

/-- The load of `tail->next` after the sentinel. -/
theorem turn_skip (h : MpscqInv s L) (hx : s.consumer = some (.skip tail)) :
    Turns s (.skip tail) := by
  have hx' : s.consumer.bind MpscqPop.push? = none := by rw [hx]; rfl
  obtain ⟨rfl, htail⟩ := h.consumer _ hx
  cases hnext : s.queue.next s.queue.tail with
  | none =>
      have hstep : mpscqPopStep s.queue (.skip s.queue.tail)
          = (s.queue, .inl (.head s.queue.tail)) := by
        simp only [mpscqPopStep, hnext]
      rw [Turns, hstep]
      exact ⟨⟨L, h.goOn hx' rfl ⟨rfl, htail, .inl hnext⟩⟩, nofun⟩
  | some b =>
      have hstep : mpscqPopStep s.queue (.skip s.queue.tail)
          = ({ s.queue with tail := b }, .inr ⟨some s.queue.tail, some false⟩) := by
        simp only [mpscqPopStep, hnext]
      obtain ⟨hinv, hans⟩ := h.takeNode hx' htail hnext (some false) (by decide)
      rw [Turns, hstep]
      refine ⟨hinv, ?_⟩
      rintro a ⟨⟩
      exact hans

/-- The load of `head`. -/
theorem turn_head [DecidableEq P] (h : MpscqInv s L) (hx : s.consumer = some (.head tail)) :
    Turns s (.head tail) := by
  have hx' : s.consumer.bind MpscqPop.push? = none := by rw [hx]; rfl
  obtain ⟨rfl, htail, hmet⟩ := h.consumer _ hx
  by_cases heq : s.queue.tail = s.queue.head
  · have hstep : mpscqPopStep s.queue (.head s.queue.tail)
        = (s.queue, .inl (.push s.queue.tail (.clear .sentinel))) := by
      simp only [mpscqPopStep, ne_eq, heq, not_true, if_false]
    rw [Turns, hstep]
    refine ⟨⟨L, ?_, h.own, ?_, h.history, h.begun⟩, nofun⟩
    -- the sentinel is not in the chain, and in nobody's hands
    · have hout : .sentinel ∉ L := by
        rw [h.pushes.chain.eq_singleton heq, List.mem_singleton]
        exact fun hc => htail hc.symm
      have hfree : ∀ k x, s.pushes k = some x → x.node ≠ .sentinel := by
        intro k x hk
        cases k with
        | none => exact nomatch hx'.symm.trans hk
        | some p => exact h.own p x hk
      have henter := h.pushes.enter (k := none) hx' hout hfree
      refine cast (congrArg (fun f => MpscqPushes s.queue f L) ?_) henter
      funext k
      cases k <;> rfl
    · rintro x ⟨⟩
      exact ⟨rfl, htail, rfl⟩
  · have hstep : mpscqPopStep s.queue (.head s.queue.tail)
        = (s.queue, .inr ⟨none, some false⟩) := by
      simp only [mpscqPopStep, ne_eq, heq, not_false_eq_true, if_true]
    rw [Turns, hstep]
    refine ⟨⟨L, h.giveUp hx' _⟩, ?_⟩
    rintro a ⟨⟩
    refine ⟨nofun, fun _ => ?_, nofun, fun hc => absurd hc (h.ne_of_tail htail)⟩
    rcases hmet with hnone | hlt
    · rcases h.tail_none hx' hnone with hL | ⟨p, n, hp⟩
      · have hhead := h.pushes.chain.head
        rw [hL] at hhead
        exact absurd (Option.some.inj hhead) heq
      · exact .inr (.inl ⟨p, _, n, hp⟩)
    · exact .inr (.inr hlt)

/-- A store of the sentinel's push. -/
theorem turn_push [DecidableEq P] {z : MpscqPush N} (h : MpscqInv s L)
    (hx : s.consumer = some (.push tail z)) : Turns s (.push tail z) := by
  obtain ⟨rfl, htail, hz⟩ := h.consumer _ hx
  have hk : s.pushes none = some z := by
    show s.consumer.bind MpscqPop.push? = some z
    rw [hx]
    rfl
  have hpushes := h.pushes.step hk
  have hhistory : s.popped ++ ((L ++ z.exchanged).filterMap MpscqNode.node?).map .node
      = s.pushed.map .node := by
    have hnil : z.exchanged.filterMap MpscqNode.node? = [] := by
      cases z with
      | swap n =>
          rw [show n = .sentinel from hz]
          rfl
      | _ => rfl
    rw [List.filterMap_append, hnil, List.append_nil]
    exact h.history
  have htailEq : (mpscqPushStep s.queue z).1.tail = s.queue.tail := by cases z <;> rfl
  cases hstep : mpscqPushStep s.queue z with
  | mk q o =>
      rw [hstep] at hpushes htailEq
      cases o with
      | some y =>
          have hturn : mpscqPopStep s.queue (.push s.queue.tail z)
              = (q, .inl (.push s.queue.tail y)) := by
            simp only [mpscqPopStep, hstep]
          rw [Turns, hturn]
          refine ⟨⟨_, ?_, h.own, ?_, hhistory, h.begun⟩, nofun⟩
          · refine cast (congrArg (fun f => MpscqPushes q f _) ?_) hpushes
            funext k
            cases k <;> rfl
          · rintro x ⟨⟩
            refine ⟨htailEq.symm, htail, ?_⟩
            have hnode : y.node = z.node := by
              cases z <;> cases hstep <;> rfl
            exact hnode.trans hz
      | none =>
          have hturn : mpscqPopStep s.queue (.push s.queue.tail z)
              = (q, .inl (.last s.queue.tail)) := by
            simp only [mpscqPopStep, hstep]
          rw [Turns, hturn]
          refine ⟨⟨_, ?_, h.own, ?_, hhistory, h.begun⟩, nofun⟩
          · refine cast (congrArg (fun f => MpscqPushes q f _) ?_) hpushes
            funext k
            cases k <;> rfl
          · rintro x ⟨⟩
            refine ⟨htailEq.symm, htail, ?_⟩
            cases z with
            | link a b =>
                have hmem := (h.pushes.link_mem hk).2
                rw [show b = .sentinel from hz] at hmem
                exact List.mem_append_left _ hmem
            | clear n => cases hstep
            | swap n => cases hstep

/-- The last load of `tail->next`. -/
theorem turn_last (h : MpscqInv s L) (hx : s.consumer = some (.last tail)) :
    Turns s (.last tail) := by
  have hx' : s.consumer.bind MpscqPop.push? = none := by rw [hx]; rfl
  obtain ⟨rfl, htail, hmem⟩ := h.consumer _ hx
  cases hnext : s.queue.next s.queue.tail with
  | none =>
      have hstep : mpscqPopStep s.queue (.last s.queue.tail)
          = (s.queue, .inr ⟨none, some false⟩) := by
        simp only [mpscqPopStep, hnext]
      rw [Turns, hstep]
      refine ⟨⟨L, h.giveUp hx' _⟩, ?_⟩
      rintro a ⟨⟩
      refine ⟨nofun, fun _ => ?_, nofun, fun hc => absurd hc (h.ne_of_tail htail)⟩
      rcases h.tail_none hx' hnext with hL | ⟨p, n, hp⟩
      · rw [hL, List.mem_singleton] at hmem
        exact absurd hmem.symm htail
      · exact .inr (.inl ⟨p, _, n, hp⟩)
  | some b =>
      have hstep : mpscqPopStep s.queue (.last s.queue.tail)
          = ({ s.queue with tail := b }, .inr ⟨some s.queue.tail, none⟩) := by
        simp only [mpscqPopStep, hnext]
      obtain ⟨hinv, hans⟩ := h.takeNode hx' htail hnext none (by decide)
      rw [Turns, hstep]
      refine ⟨hinv, ?_⟩
      rintro a ⟨⟩
      exact hans

/-- **Every turn of the consumer.** -/
theorem turns [DecidableEq P] (h : MpscqInv s L) (hx : s.consumer = some x) : Turns s x := by
  cases x with
  | start => exact h.turn_start hx
  | skip tail => exact h.turn_skip hx
  | head tail => exact h.turn_head hx
  | push tail z => exact h.turn_push hx
  | last tail => exact h.turn_last hx

end

/-! ## The producers -/

variable {p : P} {z : MpscqPush N}

/-- A step of a push writes no `next` field of the chain but with a link. -/
theorem pushStep_next [DecidableEq N] (h : MpscqInv s L) (hp : s.producer p = some z)
    {a : MpscqNode N} (ha : a ∈ L) : (mpscqPushStep s.queue z).1.next a = s.queue.next a
      ∨ (mpscqPushStep s.queue z).2 = none := by
  cases z with
  | clear n =>
      have hn := h.pushes.ok (some p) _ hp
      have hne : a ≠ n := by
        rintro rfl
        exact hn ha
      exact .inl (Function.update_of_ne hne ..)
  | swap n => exact .inl rfl
  | link a b => exact .inr rfl

/-- **A step of a producer.** -/
theorem producerStep [DecidableEq P] [DecidableEq N] (h : MpscqInv s L)
    (hp : s.producer p = some z) :
    MpscqInv { s with
      queue := (mpscqPushStep s.queue z).1
      producer := Function.update s.producer p (mpscqPushStep s.queue z).2
      pushed := s.pushed ++ z.exchanged.filterMap MpscqNode.node?
      linked := if (mpscqPushStep s.queue z).2.isNone then s.linked + 1 else s.linked }
      (L ++ z.exchanged) where
  pushes := by
    refine cast (congrArg (fun f => MpscqPushes _ f _) ?_) (h.pushes.step (k := some p) hp)
    funext k
    cases k with
    | none => rfl
    | some p' =>
        by_cases hpp : p' = p
        · subst hpp
          simp [MpscqThreads.pushes]
        · simp [MpscqThreads.pushes, hpp]
  own := by
    intro p' y hy
    rcases MpscqPushes.update_some.mp hy with ⟨-, hy⟩ | ⟨-, hy⟩
    · have hnode : y.node = z.node := by
        cases z <;> cases hy <;> rfl
      rw [hnode]
      exact h.own p z hp
    · exact h.own p' y hy
  consumer := by
    intro y hy
    have hok := h.consumer y hy
    have htail : (mpscqPushStep s.queue z).1.tail = s.queue.tail := by cases z <;> rfl
    cases y with
    | start => trivial
    | skip tail => exact ⟨hok.1.trans htail.symm, hok.2⟩
    | head tail =>
        refine ⟨hok.1.trans htail.symm, hok.2.1, ?_⟩
        show (mpscqPushStep s.queue z).1.next tail = none ∨ s.begun < _
        have hle := h.begun
        cases hy : (mpscqPushStep s.queue z).2 with
        | none => exact .inr (Nat.lt_succ_of_le hle)
        | some y =>
            rcases h.pushStep_next hp (hok.1 ▸ h.pushes.chain.tail_mem) with hnext | hnone
            · rw [hnext]
              exact hok.2.2
            · cases hy.symm.trans hnone
    | push tail x => exact ⟨hok.1.trans htail.symm, hok.2⟩
    | last tail => exact ⟨hok.1.trans htail.symm, hok.2.1, List.mem_append_left _ hok.2.2⟩
  history := by
    show s.popped ++ _ = (s.pushed ++ _).map _
    rw [List.filterMap_append, List.map_append, List.map_append, ← List.append_assoc, h.history]
  begun := by
    have hle := h.begun
    cases (mpscqPushStep s.queue z).2 with
    | none => exact Nat.le_succ_of_le hle
    | some y => exact hle

/-- **A producer enters `mpscq_push`** with a node that is not in use. -/
theorem enterPush [DecidableEq P] (h : MpscqInv s L) (hp : s.producer p = none) (hn : ¬ s.Has n) :
    MpscqInv { s with producer := Function.update s.producer p (some (.clear (.node n))) } L where
  pushes := by
    have hout : .node n ∉ L := fun hm => hn (.inl (h.mem_iff.mp hm))
    have hfree : ∀ k x, s.pushes k = some x → x.node ≠ .node n := by
      intro k x hk hx
      cases k with
      | none =>
          cases hc : s.consumer with
          | none =>
              rw [MpscqThreads.pushes, hc] at hk
              cases hk
          | some y =>
              rw [MpscqThreads.pushes, hc] at hk
              have hok := h.consumer y hc
              cases y with
              | push tail z =>
                  cases hk
                  cases hok.2.2.symm.trans hx
              | _ => cases hk
      | some p' =>
          refine hn (.inr ⟨p', ?_⟩)
          rw [show s.producer p' = some x from hk, Option.map_some, hx]
    refine cast (congrArg (fun f => MpscqPushes _ f _) ?_)
      (h.pushes.enter (k := some p) hp hout hfree)
    funext k
    cases k with
    | none => rfl
    | some p' =>
        by_cases hpp : p' = p
        · subst hpp
          simp [MpscqThreads.pushes]
        · simp [MpscqThreads.pushes, hpp]
  own := by
    intro p' y hy
    rcases MpscqPushes.update_some.mp hy with ⟨-, hy⟩ | ⟨-, hy⟩
    · cases hy
      simp [MpscqPush.node]
    · exact h.own p' y hy
  consumer := by
    intro y hy
    have hok := h.consumer y hy
    cases y <;> exact hok
  history := h.history
  begun := h.begun

/-- The consumer enters `mpscq_pop_and_check_end`. -/
theorem enterPop (h : MpscqInv s L) (hx : s.consumer = none) :
    MpscqInv { s with consumer := some .start, begun := s.linked } L where
  pushes := by
    refine cast (congrArg (fun f => MpscqPushes _ f _) ?_) h.pushes
    funext k
    cases k with
    | none =>
        show s.consumer.bind MpscqPop.push? = none
        rw [hx]
        rfl
    | some p => rfl
  own := h.own
  consumer := by
    rintro y ⟨⟩
    trivial
  history := h.history
  begun := Nat.le_refl _

variable [DecidableEq P] [DecidableEq N]

/-- **Every step** keeps the invariant. -/
theorem step {s' : MpscqThreads P N} {a : MpscqAct P N} (h : ∃ L, MpscqInv s L)
    (hfresh : MpscqFresh s a) (hs : mpscqStep s a = some s') : ∃ L, MpscqInv s' L := by
  obtain ⟨L, h⟩ := h
  cases a with
  | push p n =>
      cases hp : s.producer p with
      | some x => simp [mpscqStep, hp] at hs
      | none =>
          simp only [mpscqStep, hp] at hs
          cases hs
          exact ⟨L, h.enterPush hp hfresh⟩
  | pop =>
      cases hx : s.consumer with
      | some x => simp [mpscqStep, hx] at hs
      | none =>
          simp only [mpscqStep, hx] at hs
          cases hs
          exact ⟨L, h.enterPop hx⟩
  | producer p =>
      cases hp : s.producer p with
      | none => simp [mpscqStep, hp] at hs
      | some z =>
          simp only [mpscqStep, hp] at hs
          cases hs
          exact ⟨_, h.producerStep hp⟩
  | consumer =>
      cases hx : s.consumer with
      | none => simp [mpscqStep, hx] at hs
      | some x =>
          simp only [mpscqStep, hx] at hs
          cases hs
          exact (h.turns hx).1

/-- **Every run** from `mpscq_init`. -/
theorem of_run (next : MpscqNode N → Option (MpscqNode N)) (acts : List (MpscqAct P N))
    (hfresh : GuardedRun.Guarded mpscqStep MpscqFresh (mpscqThreads next) acts)
    (hrun : GuardedRun.run mpscqStep (mpscqThreads next) acts = some s) :
    ∃ L, MpscqInv s L :=
  GuardedRun.Guarded.keeps (I := fun s => ∃ L, MpscqInv s L)
    (fun _ _ _ hi hg hs => step hi hg hs) acts hfresh hrun ⟨_, init next⟩

end MpscqInv

end Ats
