import Ats.Lib.HalfLinked

/-!
# Mpscq: the linked queue of `mpscq.c`

Producers exchange `head` for their node and then write the link that leads
to it; the one consumer follows the links from `tail`. A sentinel that is part
of the queue keeps the chain from running dry: the consumer skips it at the
front and pushes it again before it takes the last node.

`MpscqAt q coming L` says that the nodes from `tail` to `head` are `L`, with
the links of `coming` on their way. Without such links (`MpscqRep q xs`) every
operation is the operation of a FIFO list.
-/

namespace Ats

open HalfLinked

variable {N : Type}

/-- A `mpscq_node *`: the sentinel inside the queue, or a node of a caller. -/
inductive MpscqNode (N : Type) where
  | sentinel
  | node (n : N)
deriving DecidableEq, Repr

/-- The caller's node. -/
def MpscqNode.node? : MpscqNode N → Option N
  | .sentinel => none
  | .node n => some n

/-- `struct mpscq_s`, with the `next` fields of all the nodes. -/
structure Mpscq (N : Type) where
  head : MpscqNode N
  tail : MpscqNode N
  next : MpscqNode N → Option (MpscqNode N)

/-- `mpscq_init`, in a memory where the nodes hold `next`. -/
def mpscqInit [DecidableEq N] (next : MpscqNode N → Option (MpscqNode N)) : Mpscq N :=
  ⟨.sentinel, .sentinel, Function.update next .sentinel none⟩

/-- `mpscq_destroy`; `none` where an `ASSERT` fails. -/
def mpscqDestroy [DecidableEq N] (q : Mpscq N) : Option Unit :=
  if q.head = .sentinel ∧ q.tail = .sentinel then some () else none

/-- The store to a node's `next`. -/
def Mpscq.setNext [DecidableEq N] (q : Mpscq N) (n : MpscqNode N)
    (next : Option (MpscqNode N)) : Mpscq N :=
  { q with next := Function.update q.next n next }

/-- `mpscq_push` -/
def mpscqPush [DecidableEq N] (q : Mpscq N) (n : MpscqNode N) : Mpscq N :=
  let q := q.setNext n none
  let prev := q.head
  let q := { q with head := n }
  q.setNext prev (some n)

/-- `mpscq_is_empty` -/
def mpscqIsEmpty [DecidableEq N] (q : Mpscq N) : Bool :=
  q.tail = .sentinel ∧ q.next q.tail = none

/-- `mpscq_pop_and_check_end` from the load of `tail->next` that follows the
sentinel: the queue, the node, and what is written to `*empty`, where
anything is. -/
def mpscqPopFrom [DecidableEq N] (q : Mpscq N) (tail : MpscqNode N) :
    Mpscq N × Option (MpscqNode N) × Option Bool :=
  match q.next tail with
  | some next => ({ q with tail := next }, some tail, some false)
  | none =>
      if tail ≠ q.head then (q, none, some false)
      else
        let q := mpscqPush q .sentinel
        match q.next tail with
        | some next => ({ q with tail := next }, some tail, none)
        | none => (q, none, some false)

/-- `mpscq_pop_and_check_end` -/
def mpscqPopAndCheckEnd [DecidableEq N] (q : Mpscq N) :
    Mpscq N × Option (MpscqNode N) × Option Bool :=
  if q.tail = .sentinel then
    match q.next q.tail with
    | none => (q, none, some true)
    | some next => mpscqPopFrom { q with tail := next } next
  else mpscqPopFrom q q.tail

/-- `mpscq_pop` -/
def mpscqPop [DecidableEq N] (q : Mpscq N) : Mpscq N × Option (MpscqNode N) :=
  ((mpscqPopAndCheckEnd q).1, (mpscqPopAndCheckEnd q).2.1)

/-! ## The chain of a queue -/

/-- **The nodes from `tail` to `head`** are `L`, where the links of `coming`
are on their way. -/
structure MpscqAt (q : Mpscq N) (coming : MpscqNode N → MpscqNode N → Prop)
    (L : List (MpscqNode N)) : Prop where
  chain : Chain q.next coming L
  tail : L.head? = some q.tail
  head : L.getLast? = some q.head

namespace MpscqAt

variable {q : Mpscq N} {coming coming' : MpscqNode N → MpscqNode N → Prop}
  {L : List (MpscqNode N)} {a b n : MpscqNode N}

theorem init [DecidableEq N] (next : MpscqNode N → Option (MpscqNode N)) :
    MpscqAt (mpscqInit next) (fun _ _ => False) [.sentinel] where
  chain := by
    have hnone : (mpscqInit next).next .sentinel = none := by simp [mpscqInit]
    exact Chain.singleton hnone
  tail := rfl
  head := rfl

theorem cons (h : MpscqAt q coming L) : ∃ xs, L = q.tail :: xs := by
  have htail := h.tail
  cases L with
  | nil => cases htail
  | cons a xs =>
      cases htail
      exact ⟨xs, rfl⟩

theorem tail_mem (h : MpscqAt q coming L) : q.tail ∈ L := List.mem_of_mem_head? h.tail

theorem head_mem (h : MpscqAt q coming L) : q.head ∈ L := List.mem_of_getLast? h.head

theorem congr (h : MpscqAt q coming L) (hcoming : ∀ a b, coming' a b ↔ coming a b) :
    MpscqAt q coming' L :=
  ⟨h.chain.congr (fun _ _ => rfl) hcoming, h.tail, h.head⟩

/-- **The store to the `next` of a node outside.** -/
theorem clear [DecidableEq N] (h : MpscqAt q coming L) (hn : n ∉ L) :
    MpscqAt (q.setNext n none) coming L where
  chain := by
    refine h.chain.congr (fun a ha => ?_) (fun _ _ => Iff.rfl)
    have hne : a ≠ n := fun heq => hn (heq ▸ ha)
    exact Function.update_of_ne hne ..
  tail := h.tail
  head := h.head

/-- **The exchange of `head`** puts the node at the end; the link from the
node that was there is on its way. -/
theorem swap (h : MpscqAt q coming L) (hn : n ∉ L) (hnone : q.next n = none)
    (hcoming : ∀ a b, coming' a b ↔ coming a b ∨ a = q.head ∧ b = n) :
    MpscqAt { q with head := n } coming' (L ++ [n]) where
  chain := h.chain.concat h.head hn hnone hcoming
  tail := by
    obtain ⟨xs, rfl⟩ := h.cons
    rfl
  head := List.getLast?_concat

/-- **The store of a link** that is on its way. -/
theorem link [DecidableEq N] (h : MpscqAt q coming L) (hab : coming a b)
    (hcoming : ∀ x y, coming' x y ↔ coming x y ∧ ¬ (x = a ∧ y = b)) :
    MpscqAt (q.setNext a (some b)) coming' L where
  chain := h.chain.arrive hab hcoming
  tail := h.tail
  head := h.head

/-- **The store to `tail`** takes the first node out. -/
theorem take (h : MpscqAt q coming (a :: L)) (ha : q.next a = some b) :
    MpscqAt { q with tail := b } coming L ∧ ∃ xs, L = b :: xs := by
  obtain ⟨⟨xs, rfl⟩, hchain⟩ := h.chain.tail ha
  refine ⟨⟨hchain, rfl, ?_⟩, xs, rfl⟩
  rw [← h.head, List.getLast?_cons_cons]

/-- The only node is the one at both ends. -/
theorem eq_singleton (h : MpscqAt q coming L) (heq : q.tail = q.head) : L = [q.tail] := by
  obtain ⟨xs, hxs⟩ := h.cons
  subst hxs
  cases xs with
  | nil => rfl
  | cons b ys =>
      have hhead := h.head
      rw [List.getLast?_cons_cons, ← heq] at hhead
      exact absurd (List.mem_of_getLast? hhead) (List.nodup_cons.mp h.chain.nodup).1

/-- Without a link on its way, the first node has none just where it is the
only one. -/
theorem next_tail_none (h : MpscqAt q (fun _ _ => False) L) :
    q.next q.tail = none ↔ L = [q.tail] := by
  obtain ⟨xs, rfl⟩ := h.cons
  refine ⟨fun hnone => ?_, fun heq => ?_⟩
  · rcases h.chain.head_none hnone with rfl | ⟨b, -, hc⟩
    · rfl
    · exact hc.elim
  · exact h.chain.last _ (by rw [heq]; rfl)

/-- **A push that no other step comes between.** -/
theorem push [DecidableEq N] (h : MpscqAt q (fun _ _ => False) L) (hn : n ∉ L) :
    MpscqAt (mpscqPush q n) (fun _ _ => False) (L ++ [n]) := by
  have hclear := h.clear hn
  have hswap := hclear.swap hn
    (Function.update_self ..) (fun a b => by rw [false_or])
  exact hswap.link ⟨rfl, rfl⟩ (fun x y => by simp)

end MpscqAt

/-! ## The FIFO a queue stands for -/

/-- **The representation**: the queue holds the nodes `xs`, oldest first, and
the sentinel at the front or not at all. -/
def MpscqRep (q : Mpscq N) (xs : List N) : Prop :=
  MpscqAt q (fun _ _ => False) (.sentinel :: xs.map .node)
    ∨ MpscqAt q (fun _ _ => False) (xs.map .node)

namespace MpscqRep

variable [DecidableEq N] {q : Mpscq N} {xs : List N} {n : N}

theorem init (next : MpscqNode N → Option (MpscqNode N)) : MpscqRep (mpscqInit next) [] :=
  .inl (MpscqAt.init next)

theorem isEmpty_iff (h : MpscqRep q xs) : mpscqIsEmpty q = true ↔ xs = [] := by
  rw [mpscqIsEmpty, decide_eq_true_iff]
  rcases h with h | h
  · have htail := Option.some.inj h.tail
    rw [h.next_tail_none, ← htail]
    simp
  · cases xs with
    | nil =>
        obtain ⟨ys, hys⟩ := h.cons
        cases hys
    | cons x xs =>
        have htail := Option.some.inj h.tail
        rw [← htail]
        simp

/-- **`mpscq_destroy` asks for an empty queue.** -/
theorem destroy_iff (h : MpscqRep q xs) : mpscqDestroy q = some () ↔ xs = [] := by
  have hdestroy : mpscqDestroy q = some () ↔ q.head = .sentinel ∧ q.tail = .sentinel := by
    unfold mpscqDestroy
    split <;> simp_all
  rw [hdestroy]
  refine ⟨fun ⟨hhead, htail⟩ => ?_, ?_⟩
  · rcases h with h | h
    · have hnil : xs.map MpscqNode.node = [] :=
        (List.cons.inj (h.eq_singleton (htail.trans hhead.symm))).2
      exact List.map_eq_nil_iff.mp hnil
    · have hmem := h.head_mem
      rw [hhead] at hmem
      simp at hmem
  · rintro rfl
    rcases h with h | h
    · exact ⟨(Option.some.inj h.head).symm, (Option.some.inj h.tail).symm⟩
    · cases h.tail

/-- **Push**: append. -/
theorem push (h : MpscqRep q xs) (hn : n ∉ xs) : MpscqRep (mpscqPush q (.node n)) (xs ++ [n]) := by
  rcases h with h | h
  · refine .inl ?_
    have := h.push (n := .node n) (by simp [hn])
    rwa [List.cons_append, ← List.map_singleton, ← List.map_append] at this
  · refine .inr ?_
    have := h.push (n := .node n) (by simp [hn])
    rwa [← List.map_singleton, ← List.map_append] at this

theorem popFrom {x : N} (h : MpscqAt q (fun _ _ => False) ((x :: xs).map .node)) :
    (mpscqPopFrom q q.tail).2 = (some (.node x), if xs = [] then none else some false)
      ∧ MpscqRep (mpscqPopFrom q q.tail).1 xs := by
  have htail : q.tail = .node x := (Option.some.inj h.tail).symm
  cases xs with
  | nil =>
      have hnone : q.next q.tail = none := h.next_tail_none.mpr (by rw [htail]; rfl)
      have hhead : q.head = q.tail := by
        rw [htail]
        exact (Option.some.inj h.head).symm
      -- the sentinel goes behind the last node, which has a link then
      have hpush := h.push (n := .sentinel) (by simp)
      have hnext : (mpscqPush q .sentinel).next (.node x) = some .sentinel := by
        simp [mpscqPush, Mpscq.setNext, hhead, htail]
      obtain ⟨htake, -⟩ := hpush.take hnext
      rw [htail] at hnone
      simp only [mpscqPopFrom, htail, hnone, hhead, ne_eq, not_true, if_false, if_true, hnext]
      exact ⟨trivial, .inl htake⟩
  | cons y ys =>
      rcases h.chain.link (.node x) (.node y) (.inl ⟨rfl, rfl⟩) with ⟨hnext, -⟩ | ⟨-, hc⟩
      · obtain ⟨htake, -⟩ := h.take hnext
        simp only [mpscqPopFrom, htail, hnext, reduceCtorEq, if_false]
        exact ⟨trivial, .inr htake⟩
      · exact hc.elim

/-- **Pop of an empty queue.** -/
theorem pop_nil (h : MpscqRep q []) : mpscqPopAndCheckEnd q = (q, none, some true) := by
  have hempty := h.isEmpty_iff.mpr rfl
  rw [mpscqIsEmpty, decide_eq_true_iff] at hempty
  rw [mpscqPopAndCheckEnd, if_pos hempty.1, hempty.2]

/-- **Pop**: remove and return the oldest node. `*empty` is written unless
that was the last one. -/
theorem pop_cons {x : N} (h : MpscqRep q (x :: xs)) :
    (mpscqPopAndCheckEnd q).2 = (some (.node x), if xs = [] then none else some false)
      ∧ MpscqRep (mpscqPopAndCheckEnd q).1 xs := by
  rcases h with h | h
  · have htail : q.tail = .sentinel := (Option.some.inj h.tail).symm
    rcases h.chain.link .sentinel (.node x) (.inl ⟨rfl, rfl⟩) with ⟨hnext, -⟩ | ⟨-, hc⟩
    · obtain ⟨htake, -⟩ := h.take hnext
      rw [mpscqPopAndCheckEnd, if_pos htail, htail, hnext]
      exact popFrom htake
    · exact hc.elim
  · have htail : q.tail ≠ .sentinel := by
      rw [← Option.some.inj h.tail]
      exact nofun
    rw [mpscqPopAndCheckEnd, if_neg htail]
    exact popFrom h

end MpscqRep

/-! ## Sequences of calls -/

/-- A call on a queue. -/
inductive MpscqOp (N : Type) where
  | push (n : N)
  | pop
  | popAndCheckEnd
  | isEmpty
deriving DecidableEq, Repr

/-- What a call returns, and what it writes to `*empty`. -/
inductive MpscqResult (N : Type) where
  | done
  | pointer (n : Option (MpscqNode N))
  | checked (n : Option (MpscqNode N)) (empty : Option Bool)
  | flag (b : Bool)
deriving DecidableEq, Repr

/-- One call on the queue. -/
def MpscqOp.exec [DecidableEq N] (q : Mpscq N) : MpscqOp N → Mpscq N × MpscqResult N
  | .push n => (mpscqPush q (.node n), .done)
  | .pop => ((mpscqPop q).1, .pointer (mpscqPop q).2)
  | .popAndCheckEnd =>
      let (q, n, empty) := mpscqPopAndCheckEnd q
      (q, .checked n empty)
  | .isEmpty => (q, .flag (mpscqIsEmpty q))

/-- The queue after a sequence of calls, and what they returned. -/
def mpscqCalls [DecidableEq N] (q : Mpscq N) : List (MpscqOp N) → Mpscq N × List (MpscqResult N)
  | [] => (q, [])
  | op :: ops =>
      let (q, r) := op.exec q
      let (q, rs) := mpscqCalls q ops
      (q, r :: rs)

/-- What is written to `*empty` by a pop from the list `xs`. -/
def mpscqEnd : List N → Option Bool
  | [] => some true
  | [_] => none
  | _ => some false

/-- The same call on a list. -/
def MpscqOp.fifo (xs : List N) : MpscqOp N → List N × MpscqResult N
  | .push n => (xs ++ [n], .done)
  | .pop => (xs.tail, .pointer (xs.head?.map .node))
  | .popAndCheckEnd => (xs.tail, .checked (xs.head?.map .node) (mpscqEnd xs))
  | .isEmpty => (xs, .flag xs.isEmpty)

/-- The list after a sequence of calls, and what they returned. -/
def linkedCalls (xs : List N) : List (MpscqOp N) → List N × List (MpscqResult N)
  | [] => (xs, [])
  | op :: ops =>
      let (xs, r) := op.fifo xs
      let (xs, rs) := linkedCalls xs ops
      (xs, r :: rs)

/-- No call pushes a node that is in the queue. -/
def FreshCalls : List N → List (MpscqOp N) → Prop
  | _, [] => True
  | xs, op :: ops => (∀ n, op = .push n → n ∉ xs) ∧ FreshCalls (op.fifo xs).1 ops

variable [DecidableEq N] {q : Mpscq N} {xs : List N}

/-- **Each call** on a queue that holds `xs` is the call on `xs`. -/
theorem MpscqRep.exec (h : MpscqRep q xs) (op : MpscqOp N) (hop : ∀ n, op = .push n → n ∉ xs) :
    (op.exec q).2 = (op.fifo xs).2 ∧ MpscqRep (op.exec q).1 (op.fifo xs).1 := by
  have hpop : (mpscqPopAndCheckEnd q).2 = (xs.head?.map .node, mpscqEnd xs)
      ∧ MpscqRep (mpscqPopAndCheckEnd q).1 xs.tail := by
    cases xs with
    | nil =>
        rw [h.pop_nil]
        exact ⟨rfl, h⟩
    | cons x xs =>
        obtain ⟨hret, hrep⟩ := h.pop_cons
        refine ⟨?_, hrep⟩
        rw [hret]
        cases xs <;> rfl
  cases op with
  | push n => exact ⟨rfl, h.push (hop n rfl)⟩
  | pop =>
      refine ⟨?_, hpop.2⟩
      show MpscqResult.pointer (mpscqPopAndCheckEnd q).2.1 = _
      rw [hpop.1]
      rfl
  | popAndCheckEnd =>
      refine ⟨?_, hpop.2⟩
      show MpscqResult.checked (mpscqPopAndCheckEnd q).2.1 (mpscqPopAndCheckEnd q).2.2 = _
      rw [hpop.1]
      rfl
  | isEmpty =>
      refine ⟨?_, h⟩
      have hflag : mpscqIsEmpty q = xs.isEmpty := by
        rw [Bool.eq_iff_iff, h.isEmpty_iff, List.isEmpty_iff]
      exact congrArg MpscqResult.flag hflag

/-- **Any sequence of calls.** -/
theorem MpscqRep.calls (ops : List (MpscqOp N)) : ∀ {q : Mpscq N} {xs : List N}, MpscqRep q xs →
    FreshCalls xs ops → (mpscqCalls q ops).2 = (linkedCalls xs ops).2
      ∧ MpscqRep (mpscqCalls q ops).1 (linkedCalls xs ops).1 := by
  induction ops with
  | nil => exact fun h _ => ⟨rfl, h⟩
  | cons op ops ih =>
      intro q xs h hfresh
      obtain ⟨hret, hrep⟩ := h.exec op hfresh.1
      obtain ⟨hrets, hreps⟩ := ih hrep hfresh.2
      refine ⟨?_, hreps⟩
      simp only [mpscqCalls, linkedCalls]
      rw [hret, hrets]

/-- **The queue of `mpscq_init` is a FIFO list**, whatever the nodes hold, as
long as no node is pushed that is in it; `mpscq_destroy` asks for an empty
one. -/
theorem mpscqCalls_fifo (next : MpscqNode N → Option (MpscqNode N)) (ops : List (MpscqOp N))
    (h : FreshCalls [] ops) :
    (mpscqCalls (mpscqInit next) ops).2 = (linkedCalls [] ops).2
      ∧ (mpscqDestroy (mpscqCalls (mpscqInit next) ops).1 = some ()
        ↔ (linkedCalls [] ops).1 = []) := by
  obtain ⟨hrets, hrep⟩ := (MpscqRep.init next).calls ops h
  exact ⟨hrets, hrep.destroy_iff⟩

/-- Three pushes, one of a node that came back, and the pop of the last one,
which leaves `*empty` as it was. -/
theorem mpscqCalls_fifo_three :
    let ops : List (MpscqOp Nat) :=
      [.push 7, .push 8, .popAndCheckEnd, .push 7, .pop, .popAndCheckEnd, .popAndCheckEnd]
    (mpscqCalls (mpscqInit fun _ => some .sentinel) ops).2 = (linkedCalls [] ops).2
      ∧ (mpscqDestroy (mpscqCalls (mpscqInit fun _ => some .sentinel) ops).1 = some ()
        ↔ (linkedCalls [] ops).1 = []) :=
  mpscqCalls_fifo _ _ (by simp [FreshCalls, MpscqOp.fifo])

end Ats
