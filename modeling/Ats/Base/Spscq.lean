import Mathlib.Logic.Function.Basic
import Ats.Base.Integers
import Ats.Lib.ListRead

/-!
# Spscq: the ring buffer of `spscq.c`

One producer advances `write_pos`, one consumer `read_pos`; one slot stays
free so that equal positions mean an empty ring. The record array is a map
from positions to pointers; a slot that was never written holds `none`, as
`malloc`ed memory holds nothing the code may rely on.

`SpscqRep q xs` says that the ring holds the elements `xs`, oldest first.
Under it every operation is the operation of a FIFO list that is bounded by
`capacity - 1`.
-/

namespace Ats

/-- `struct spscq_s`. `capacity` is a `uint32_t`. -/
structure Spscq (α : Type) where
  capacity : Nat
  records : Nat → Option α
  readPos : Nat
  writePos : Nat

variable {α : Type}

/-- `spscq_init`; `none` where `ASSERT(size >= 2)` fails. -/
def spscqInit (size : Nat) : Option (Spscq α) :=
  if 2 ≤ size then some ⟨size, fun _ => none, 0, 0⟩ else none

/-- `nextRecord = pos + 1; if (nextRecord == q->capacity) nextRecord = 0`,
in 32-bit unsigned arithmetic. -/
def spscqNext (q : Spscq α) (pos : Nat) : Nat :=
  let nextRecord := (pos + 1) % 2 ^ 32
  if nextRecord = q.capacity then 0 else nextRecord

/-- `spscq_destroy`; `none` where `ASSERT(spscq_is_empty(q) == 1)` fails. -/
def spscqDestroy (q : Spscq α) : Option Unit :=
  if q.readPos = q.writePos then some () else none

/-- `spscq_push`: the ring and the returned code. -/
def spscqPush (q : Spscq α) (e : α) : Spscq α × Int :=
  let currentWrite := q.writePos
  let nextRecord := spscqNext q currentWrite
  if nextRecord ≠ q.readPos then
    ({ q with
        records := Function.update q.records currentWrite (some e)
        writePos := nextRecord }, 0)
  else (q, -1)

/-- `spscq_pop`: the ring and the returned pointer. -/
def spscqPop (q : Spscq α) : Spscq α × Option α :=
  let currentRead := q.readPos
  if currentRead = q.writePos then (q, none)
  else ({ q with readPos := spscqNext q currentRead }, q.records currentRead)

/-- `spscq_peek` -/
def spscqPeek (q : Spscq α) : Option α :=
  if q.readPos = q.writePos then none else q.records q.readPos

/-- `spscq_is_empty` -/
def spscqIsEmpty (q : Spscq α) : Bool := q.readPos = q.writePos

/-- `spscq_is_full` -/
def spscqIsFull (q : Spscq α) : Bool := spscqNext q q.writePos = q.readPos

/-- `spscq_size`: the difference of the positions as an `int`, to which the
unsigned capacity may be added, as an unsigned number. -/
def spscqSize (q : Spscq α) : Nat :=
  let ret := i32 (q.writePos - q.readPos)
  let ret := if ret < 0 then i32 (u32 (ret % 2 ^ 32 + q.capacity).toNat) else ret
  (ret % 2 ^ 32).toNat

/-- `spscq_capacity` -/
def spscqCapacity (q : Spscq α) : Nat := q.capacity

/-! ## The FIFO a ring stands for -/

/-- The position of the `i`-th oldest element. -/
def spscqSlot (q : Spscq α) (i : Nat) : Nat :=
  if q.readPos + i < q.capacity then q.readPos + i
  else q.readPos + i - q.capacity

/-- The number of positions from `read_pos` up to `write_pos`. -/
def spscqLength (q : Spscq α) : Nat :=
  if q.readPos ≤ q.writePos then q.writePos - q.readPos
  else q.writePos + q.capacity - q.readPos

/-- The elements in the ring, oldest first. -/
def spscqToList (q : Spscq α) : List α :=
  (List.range (spscqLength q)).filterMap fun i => q.records (spscqSlot q i)

/-- **The representation**: the ring holds `xs`, oldest first. -/
structure SpscqRep (q : Spscq α) (xs : List α) : Prop where
  two_le : 2 ≤ q.capacity
  lt_word : q.capacity < 2 ^ 32
  read_lt : q.readPos < q.capacity
  fits : xs.length < q.capacity
  write : q.writePos = spscqSlot q xs.length
  record : ∀ i x, xs[i]? = some x → q.records (spscqSlot q i) = some x

namespace SpscqRep

variable {q : Spscq α} {xs : List α}

theorem init {size : Nat} (h : 2 ≤ size) (hw : size < 2 ^ 32) :
    ∃ q : Spscq α, spscqInit size = some q ∧ SpscqRep q [] ∧ q.capacity = size := by
  refine ⟨_, if_pos h, ⟨h, hw, ?_, ?_, ?_, ?_⟩, rfl⟩
  · show 0 < size
    omega
  · show 0 < size
    omega
  · simp [spscqSlot]
  · intro i x hi
    simp at hi

theorem slot_lt (h : SpscqRep q xs) {i : Nat} (hi : i ≤ xs.length) :
    spscqSlot q i < q.capacity := by
  have := h.fits
  have := h.read_lt
  unfold spscqSlot
  split <;> omega

/-- Different elements stand at different positions. -/
theorem slot_inj (h : SpscqRep q xs) {i j : Nat} (hi : i ≤ xs.length)
    (hj : j ≤ xs.length) (he : spscqSlot q i = spscqSlot q j) : i = j := by
  have := h.fits
  have := h.read_lt
  unfold spscqSlot at he
  split at he <;> split at he <;> omega

/-- One step on the ring is one place on in the list. -/
theorem next_slot (h : SpscqRep q xs) {i : Nat} (hi : i < q.capacity) :
    spscqNext q (spscqSlot q i)
      = if q.readPos + (i + 1) < q.capacity then q.readPos + (i + 1)
        else q.readPos + (i + 1) - q.capacity := by
  have := h.read_lt
  have := h.lt_word
  unfold spscqNext spscqSlot
  dsimp only
  split <;> split <;> split <;> omega

theorem length_eq (h : SpscqRep q xs) : spscqLength q = xs.length := by
  have := h.fits
  have := h.read_lt
  unfold spscqLength
  rw [h.write]
  unfold spscqSlot
  split <;> split <;> omega

/-- Reading the ring back gives its elements. -/
theorem toList_eq (h : SpscqRep q xs) : spscqToList q = xs := by
  rw [spscqToList, h.length_eq]
  refine ListRead.filterMap_range_eq xs _ (fun i hi => ?_)
  rw [List.getElem?_eq_getElem hi]
  exact h.record i _ (List.getElem?_eq_getElem hi)

theorem isEmpty_iff (h : SpscqRep q xs) : spscqIsEmpty q = true ↔ xs = [] := by
  have := h.fits
  have := h.read_lt
  rw [spscqIsEmpty, decide_eq_true_iff, h.write, ← List.length_eq_zero_iff]
  unfold spscqSlot
  split <;> omega

/-- **`spscq_destroy` asks for an empty ring.** -/
theorem destroy_iff (h : SpscqRep q xs) : spscqDestroy q = some () ↔ xs = [] := by
  rw [← h.isEmpty_iff, spscqDestroy, spscqIsEmpty]
  simp

theorem isFull_iff (h : SpscqRep q xs) :
    spscqIsFull q = true ↔ xs.length + 1 = q.capacity := by
  have := h.fits
  have := h.read_lt
  rw [spscqIsFull, decide_eq_true_iff, h.write, h.next_slot h.fits]
  split <;> omega

theorem peek (h : SpscqRep q xs) : spscqPeek q = xs.head? := by
  cases xs with
  | nil => rw [spscqPeek, if_pos (by simpa [spscqIsEmpty] using h.isEmpty_iff.mpr rfl)]; rfl
  | cons x xs =>
      have hne : ¬ q.readPos = q.writePos := by
        intro hc
        have := h.isEmpty_iff.mp (by simpa [spscqIsEmpty] using hc)
        cases this
      have h0 : spscqSlot q 0 = q.readPos := by
        simp [spscqSlot, h.read_lt]
      rw [spscqPeek, if_neg hne, ← h0]
      exact h.record 0 x rfl

/-- **Push**: append, unless the list has `capacity - 1` elements. -/
theorem push (h : SpscqRep q xs) (e : α) (hroom : xs.length + 1 < q.capacity) :
    (spscqPush q e).2 = 0 ∧ SpscqRep (spscqPush q e).1 (xs ++ [e])
      ∧ (spscqPush q e).1.capacity = q.capacity := by
  have hfull : spscqNext q q.writePos ≠ q.readPos := by
    intro hc
    have := h.isFull_iff.mp (by rw [spscqIsFull, decide_eq_true_iff]; exact hc)
    omega
  rw [spscqPush]
  simp only [hfull, ne_eq, not_false_eq_true, if_true, true_and, and_true]
  refine ⟨h.two_le, h.lt_word, h.read_lt, ?_, ?_, ?_⟩
  · simpa using hroom
  · rw [h.write, h.next_slot h.fits]
    simp [spscqSlot]
  · intro i x hi
    show Function.update q.records q.writePos (some e) (spscqSlot q i) = some x
    rcases Nat.lt_or_ge i xs.length with hlt | hge
    · have hne : spscqSlot q i ≠ q.writePos := by
        rw [h.write]
        intro hc
        have := h.slot_inj (Nat.le_of_lt hlt) (Nat.le_refl _) hc
        omega
      rw [Function.update_of_ne hne]
      rw [List.getElem?_append_left hlt] at hi
      exact h.record i x hi
    · have hil : i = xs.length := by
        obtain ⟨hlt, _⟩ := List.getElem?_eq_some_iff.mp hi
        simp at hlt
        omega
      subst hil
      simp at hi
      rw [← h.write, Function.update_self, hi]

theorem push_full (h : SpscqRep q xs) (e : α) (hfull : xs.length + 1 = q.capacity) :
    spscqPush q e = (q, -1) := by
  have hf := h.isFull_iff.mpr hfull
  rw [spscqIsFull, decide_eq_true_iff] at hf
  simp [spscqPush, hf]

theorem pop_nil (h : SpscqRep q []) : spscqPop q = (q, none) := by
  have he := h.isEmpty_iff.mpr rfl
  rw [spscqIsEmpty, decide_eq_true_iff] at he
  simp [spscqPop, he]

/-- **Pop**: remove and return the oldest element. -/
theorem pop_cons {x : α} (h : SpscqRep q (x :: xs)) :
    (spscqPop q).2 = some x ∧ SpscqRep (spscqPop q).1 xs
      ∧ (spscqPop q).1.capacity = q.capacity := by
  have hne : ¬ q.readPos = q.writePos := by
    intro hc
    have := h.isEmpty_iff.mp (by simpa [spscqIsEmpty] using hc)
    cases this
  have hfits := h.fits
  have hread := h.read_lt
  simp only [List.length_cons] at hfits
  have h0 : spscqSlot q 0 = q.readPos := by
    simp [spscqSlot, h.read_lt]
  have hnext : spscqNext q q.readPos
      = if q.readPos + 1 < q.capacity then q.readPos + 1
        else q.readPos + 1 - q.capacity := by
    rw [← h0]
    have := h.next_slot (i := 0) (by omega)
    rw [this, h0]
  have hpop : spscqPop q
      = ({ q with readPos := spscqNext q q.readPos }, q.records q.readPos) := by
    simp only [spscqPop, if_neg hne]
  -- positions count from the new `read_pos`
  have hslot : ∀ i, i < q.capacity →
      spscqSlot { q with readPos := spscqNext q q.readPos } i = spscqSlot q (i + 1) := by
    intro i hi
    simp only [spscqSlot, hnext]
    split <;> split <;> split <;> omega
  rw [hpop]
  refine ⟨?_, ⟨h.two_le, h.lt_word, ?_, ?_, ?_, ?_⟩, rfl⟩
  · rw [← h0]
    exact h.record 0 x rfl
  · show spscqNext q q.readPos < q.capacity
    rw [hnext]
    split <;> omega
  · show xs.length < q.capacity
    omega
  · rw [hslot _ (by omega)]
    exact h.write
  · intro i y hi
    obtain ⟨hil, _⟩ := List.getElem?_eq_some_iff.mp hi
    rw [hslot i (by omega)]
    exact h.record (i + 1) y (by simpa using hi)

end SpscqRep

end Ats
