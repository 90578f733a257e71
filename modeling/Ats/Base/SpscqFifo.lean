import Ats.Base.Spscq

/-!
# SpscqFifo: the ring as a bounded queue

Any sequence of calls on a ring of `spscq_init` answers as a FIFO list does
that has room for one element less than the ring has slots.
-/

namespace Ats

variable {α : Type}

/-- A call on a ring. -/
inductive SpscqOp (α : Type) where
  | push (e : α)
  | pop
  | peek
  | isEmpty
  | isFull
deriving DecidableEq, Repr

/-- What a call returns: a code, a pointer, or a truth value. -/
inductive SpscqResult (α : Type) where
  | code (ret : Int)
  | pointer (e : Option α)
  | flag (b : Bool)
deriving DecidableEq, Repr

/-- One call on the ring. -/
def SpscqOp.exec (q : Spscq α) : SpscqOp α → Spscq α × SpscqResult α
  | .push e => ((spscqPush q e).1, .code (spscqPush q e).2)
  | .pop => ((spscqPop q).1, .pointer (spscqPop q).2)
  | .peek => (q, .pointer (spscqPeek q))
  | .isEmpty => (q, .flag (spscqIsEmpty q))
  | .isFull => (q, .flag (spscqIsFull q))

/-- The ring after a sequence of calls, and what they returned. -/
def spscqCalls (q : Spscq α) : List (SpscqOp α) → Spscq α × List (SpscqResult α)
  | [] => (q, [])
  | op :: ops =>
      let (q, r) := op.exec q
      let (q, rs) := spscqCalls q ops
      (q, r :: rs)

/-! ## The FIFO list -/

/-- The same call on a list that holds at most `n` elements. -/
def SpscqOp.fifo (n : Nat) (xs : List α) : SpscqOp α → List α × SpscqResult α
  | .push e => if xs.length = n then (xs, .code (-1)) else (xs ++ [e], .code 0)
  | .pop => (xs.tail, .pointer xs.head?)
  | .peek => (xs, .pointer xs.head?)
  | .isEmpty => (xs, .flag (xs.length = 0))
  | .isFull => (xs, .flag (xs.length = n))

/-- The list after a sequence of calls, and what they returned. -/
def fifoCalls (n : Nat) (xs : List α) : List (SpscqOp α) → List α × List (SpscqResult α)
  | [] => (xs, [])
  | op :: ops =>
      let (xs, r) := op.fifo n xs
      let (xs, rs) := fifoCalls n xs ops
      (xs, r :: rs)

/-! ## The simulation -/

variable {q : Spscq α} {xs : List α}

/-- **Each call** on a ring that holds `xs` is the call on `xs`. -/
theorem SpscqRep.exec (h : SpscqRep q xs) (op : SpscqOp α) :
    (op.exec q).2 = (op.fifo (q.capacity - 1) xs).2
      ∧ SpscqRep (op.exec q).1 (op.fifo (q.capacity - 1) xs).1
      ∧ (op.exec q).1.capacity = q.capacity := by
  have htwo := h.two_le
  have hfits := h.fits
  cases op with
  | push e =>
      by_cases hfull : xs.length = q.capacity - 1
      · have hpush := h.push_full e (by omega)
        simp [SpscqOp.exec, SpscqOp.fifo, hfull, hpush, h]
      · obtain ⟨hret, hrep, hcap⟩ := h.push e (by omega)
        simp [SpscqOp.exec, SpscqOp.fifo, hfull, hret, hrep, hcap]
  | pop =>
      cases xs with
      | nil => simp [SpscqOp.exec, SpscqOp.fifo, h.pop_nil, h]
      | cons x xs =>
          obtain ⟨hret, hrep, hcap⟩ := h.pop_cons
          simp [SpscqOp.exec, SpscqOp.fifo, hret, hrep, hcap]
  | peek => simp [SpscqOp.exec, SpscqOp.fifo, h.peek, h]
  | isEmpty =>
      have hflag : spscqIsEmpty q = decide (xs.length = 0) := by
        rw [Bool.eq_iff_iff, h.isEmpty_iff]
        simp
      simp [SpscqOp.exec, SpscqOp.fifo, hflag, h]
  | isFull =>
      have hflag : spscqIsFull q = decide (xs.length = q.capacity - 1) := by
        rw [Bool.eq_iff_iff, h.isFull_iff, decide_eq_true_iff]
        omega
      simp [SpscqOp.exec, SpscqOp.fifo, hflag, h]

/-- **Any sequence of calls.** -/
theorem SpscqRep.calls (ops : List (SpscqOp α)) : ∀ {q : Spscq α} {xs : List α}, SpscqRep q xs →
    (spscqCalls q ops).2 = (fifoCalls (q.capacity - 1) xs ops).2
      ∧ SpscqRep (spscqCalls q ops).1 (fifoCalls (q.capacity - 1) xs ops).1
      ∧ (spscqCalls q ops).1.capacity = q.capacity := by
  induction ops with
  | nil => exact fun h => ⟨rfl, h, rfl⟩
  | cons op ops ih =>
      intro q xs h
      obtain ⟨hret, hrep, hcap⟩ := h.exec op
      obtain ⟨hrets, hreps, hcaps⟩ := ih hrep
      rw [hcap] at hrets hreps hcaps
      refine ⟨?_, hreps, hcaps⟩
      simp only [spscqCalls, fifoCalls]
      rw [hret, hrets]

/-- The write position stays inside the ring, as the read position does. -/
theorem SpscqRep.write_lt (h : SpscqRep q xs) : q.writePos < q.capacity := by
  rw [h.write]
  exact h.slot_lt (Nat.le_refl _)

/-- **The ring of `spscq_init(c)` is a FIFO list bounded by `c - 1`**, and
both positions stay below `c`. -/
theorem spscqCalls_boundedFifo {c : Nat} (hc : 2 ≤ c) (hw : c < 2 ^ 32)
    (ops : List (SpscqOp α)) :
    ∃ q, spscqInit c = some q ∧ (spscqCalls q ops).2 = (fifoCalls (c - 1) [] ops).2
      ∧ (spscqCalls q ops).1.readPos < c ∧ (spscqCalls q ops).1.writePos < c := by
  obtain ⟨q, hinit, hrep, hcap⟩ := SpscqRep.init (α := α) hc hw
  obtain ⟨hrets, hreps, hcaps⟩ := hrep.calls ops
  rw [hcap] at hrets hreps hcaps
  refine ⟨q, hinit, hrets, ?_, ?_⟩
  · rw [← hcaps]
    exact hreps.read_lt
  · rw [← hcaps]
    exact hreps.write_lt

/-- The smallest ring, around its end three times. -/
theorem spscqCalls_boundedFifo_two :
    ∃ q : Spscq Nat, spscqInit 2 = some q
      ∧ (spscqCalls q [.push 7, .push 8, .isFull, .pop, .push 9, .peek, .pop, .pop]).2
        = (fifoCalls 1 [] [.push 7, .push 8, .isFull, .pop, .push 9, .peek, .pop, .pop]).2
      ∧ (spscqCalls q [.push 7, .push 8, .isFull, .pop, .push 9, .peek, .pop, .pop]).1.readPos < 2
      ∧ (spscqCalls q [.push 7, .push 8, .isFull, .pop, .push 9, .peek, .pop, .pop]).1.writePos
        < 2 :=
  spscqCalls_boundedFifo (by decide) (by decide) _

/-! ## The size -/

/-- The difference of the positions is an `int`. -/
def SizeFits (q : Spscq α) : Prop :=
  -2 ^ 31 ≤ (q.writePos : Int) - q.readPos ∧ (q.writePos : Int) - q.readPos < 2 ^ 31

/-- **`spscq_size`** is the number of elements just where the difference of the
positions is an `int`. -/
theorem SpscqRep.size_eq_iff (h : SpscqRep q xs) : spscqSize q = xs.length ↔ SizeFits q := by
  have hlength := h.length_eq
  have hread := h.read_lt
  have hwrite := h.write_lt
  have hword := h.lt_word
  have hlt := i32_lt ((q.writePos : Int) - q.readPos)
  have hle := le_i32 ((q.writePos : Int) - q.readPos)
  have hmod := i32_emod ((q.writePos : Int) - q.readPos)
  unfold spscqLength at hlength
  unfold spscqSize SizeFits
  dsimp only
  generalize i32 ((q.writePos : Int) - q.readPos) = ret at hlt hle hmod ⊢
  have hunsigned : ((ret % 2 ^ 32 + q.capacity).toNat : Int) = ret % 2 ^ 32 + q.capacity :=
    Int.toNat_of_nonneg (by omega)
  have hsum := i32_emod (u32 (ret % 2 ^ 32 + q.capacity).toNat : Nat)
  generalize i32 (u32 (ret % 2 ^ 32 + q.capacity).toNat : Nat) = sum at hsum ⊢
  unfold u32 at hsum
  -- the positions may stand in either order, and the difference may have turned its sign
  split at hlength <;> split <;> omega

/-- Where it is the number of elements, it says when the ring is empty and when
it is full. -/
theorem SpscqRep.size_says (h : SpscqRep q xs) (hsize : spscqSize q = xs.length) :
    (spscqSize q = 0 ↔ spscqIsEmpty q = true)
      ∧ (spscqSize q = q.capacity - 1 ↔ spscqIsFull q = true) := by
  have htwo := h.two_le
  rw [h.isEmpty_iff, h.isFull_iff, hsize, List.length_eq_zero_iff]
  exact ⟨Iff.rfl, by omega⟩

/-- The size is right, and says when the ring is empty and when it is full. -/
structure SizeRight (c : Nat) (q : Spscq α) (stored : List α) : Prop where
  size : spscqSize q = stored.length
  empty : spscqSize q = 0 ↔ spscqIsEmpty q = true
  full : spscqSize q = c - 1 ↔ spscqIsFull q = true

/-- After any calls on the ring of `spscq_init(c)`, **`spscq_size` is right**
exactly where the difference of the positions is an `int`, as it always is up to
a capacity of `2 ^ 31`. -/
theorem spscqSize_right_iff {c : Nat} (hc : 2 ≤ c) (hw : c < 2 ^ 32) (ops : List (SpscqOp α)) :
    ∃ q, spscqInit c = some q
      ∧ (SizeRight c (spscqCalls q ops).1 (fifoCalls (c - 1) [] ops).1
        ↔ SizeFits (spscqCalls q ops).1)
      ∧ (c ≤ 2 ^ 31 → SizeFits (spscqCalls q ops).1) := by
  obtain ⟨q, hinit, hrep, hcap⟩ := SpscqRep.init (α := α) hc hw
  obtain ⟨-, hreps, hcaps⟩ := hrep.calls ops
  rw [hcap] at hreps hcaps
  refine ⟨q, hinit, ⟨fun h => hreps.size_eq_iff.mp h.size, fun hfits => ?_⟩, fun hsmall => ?_⟩
  · have hsize := hreps.size_eq_iff.mpr hfits
    obtain ⟨hempty, hfull⟩ := hreps.size_says hsize
    rw [hcaps] at hfull
    exact ⟨hsize, hempty, hfull⟩
  · have hread := hreps.read_lt
    have hwrite := hreps.write_lt
    rw [hcaps] at hread hwrite
    exact ⟨by omega, by omega⟩

/-- A ring of four slots, around its end. -/
theorem spscqSize_right_iff_four :
    ∃ q : Spscq Nat, spscqInit 4 = some q
      ∧ (SizeRight 4 (spscqCalls q [.push 7, .push 8, .pop, .push 9, .push 6]).1
          (fifoCalls 3 [] [.push 7, .push 8, .pop, .push 9, .push 6]).1
        ↔ SizeFits (spscqCalls q [.push 7, .push 8, .pop, .push 9, .push 6]).1)
      ∧ (4 ≤ 2 ^ 31 → SizeFits (spscqCalls q [.push 7, .push 8, .pop, .push 9, .push 6]).1) :=
  spscqSize_right_iff (by decide) (by decide) _

theorem spscqPush_readPos (q : Spscq α) (e : α) : (spscqPush q e).1.readPos = q.readPos := by
  rw [spscqPush]
  split <;> rfl

theorem spscqCalls_pushes_readPos (e : α) (n : Nat) (q : Spscq α) :
    (spscqCalls q (List.replicate n (.push e))).1.readPos = q.readPos := by
  induction n generalizing q with
  | zero => rfl
  | succ n ih => exact (ih _).trans (spscqPush_readPos q e)

theorem fifoCalls_pushes_length (e : α) {bound n : Nat} {xs : List α}
    (hroom : xs.length + n ≤ bound) :
    (fifoCalls bound xs (List.replicate n (.push e))).1.length = xs.length + n := by
  induction n generalizing xs with
  | zero => rfl
  | succ n ih =>
    have hne : xs.length ≠ bound := by omega
    have hpush : ((SpscqOp.push e).fifo bound xs).1 = xs ++ [e] := by
      rw [SpscqOp.fifo, if_neg hne]
    have hlen : (xs ++ [e]).length = xs.length + 1 := List.length_append
    rw [List.replicate_succ, fifoCalls]
    dsimp only
    rw [hpush, ih (by omega), hlen]
    omega

/-- A ring of `2 ^ 31 + 1` slots that is full after as many pushes less one. -/
theorem spscqSize_full_is_one :
    (∃ q : Spscq Nat, spscqInit (2 ^ 31 + 1) = some q
      ∧ spscqSize (spscqCalls q (List.replicate (2 ^ 31) (.push 7))).1 = 1
      ∧ (fifoCalls (2 ^ 31) [] (List.replicate (2 ^ 31) (.push 7))).1.length = 2 ^ 31)
    ∧ ¬ ∀ (c : Nat) (ops : List (SpscqOp Nat)), 2 ≤ c → c < 2 ^ 32 → ∃ q, spscqInit c = some q
      ∧ SizeRight c (spscqCalls q ops).1 (fifoCalls (c - 1) [] ops).1 := by
  have hall : ∃ q : Spscq Nat, spscqInit (2 ^ 31 + 1) = some q
      ∧ spscqSize (spscqCalls q (List.replicate (2 ^ 31) (.push 7))).1 = 1
      ∧ (fifoCalls (2 ^ 31) [] (List.replicate (2 ^ 31) (.push 7))).1.length = 2 ^ 31 := by
    obtain ⟨q, hinit, hrep, hcap⟩ := SpscqRep.init (α := Nat) (show 2 ≤ 2 ^ 31 + 1 by decide)
      (by decide)
    have hlen := fifoCalls_pushes_length 7 (show ([] : List Nat).length + 2 ^ 31 ≤ 2 ^ 31 from
      Nat.le_of_eq (Nat.zero_add _))
    refine ⟨q, hinit, ?_, hlen.trans (Nat.zero_add _)⟩
    obtain ⟨-, hreps, hcaps⟩ := hrep.calls (List.replicate (2 ^ 31) (.push 7))
    have hread := spscqCalls_pushes_readPos 7 (2 ^ 31) q
    have hzero : q.readPos = 0 := by
      cases hinit
      rfl
    rw [hcap, Nat.add_sub_cancel] at hreps
    have hwrite := hreps.write
    rw [hlen, spscqSlot, hread, hzero, hcaps, hcap] at hwrite
    have hpos : (spscqCalls q (List.replicate (2 ^ 31) (.push 7))).1.writePos = 2 ^ 31 := hwrite
    rw [spscqSize, hpos, hread, hzero, hcaps, hcap]
    decide
  refine ⟨hall, fun h => ?_⟩
  obtain ⟨q, hinit, hsize, hlen⟩ := hall
  obtain ⟨q', hinit', hright⟩ := h (2 ^ 31 + 1) (List.replicate (2 ^ 31) (.push 7)) (by decide)
    (by decide)
  obtain rfl : q = q' := Option.some.inj (hinit.symm.trans hinit')
  have hsame := hright.size
  rw [Nat.add_sub_cancel, hsize, hlen] at hsame
  exact absurd hsame (by decide)

end Ats
