import Mathlib.Data.Nat.Bitwise

/-!
# Rounding up to a power of two by shifts

Or-ing a number with its own shifts copies the top bit into all the lower
ones; the number after that is the next power of two.
-/

namespace BitSmear

/-- The steps for numbers of up to 32 bits. -/
def smear (x : Nat) : Nat :=
  let x := x ||| x >>> 1
  let x := x ||| x >>> 2
  let x := x ||| x >>> 4
  let x := x ||| x >>> 8
  x ||| x >>> 16

/-- Of the bits from `k` down, the first `n` are set. -/
def Filled (k n x : Nat) : Prop := ∀ j, j < n → j ≤ k → x.testBit (k - j) = true

theorem Filled.step {k n x : Nat} (h : Filled k n x) : Filled k (2 * n) (x ||| x >>> n) := by
  intro j hj hjk
  rw [Nat.testBit_lor, Nat.testBit_shiftRight, Bool.or_eq_true]
  rcases Nat.lt_or_ge j n with hlt | hge
  · exact Or.inl (h j hlt hjk)
  · right
    have hat : n + (k - j) = k - (j - n) := by omega
    rw [hat]
    exact h (j - n) (by omega) (by omega)

/-- Shifts reach no higher bit. -/
theorem or_shift_lt {k x : Nat} (n : Nat) (h : x < 2 ^ k) : x ||| x >>> n < 2 ^ k :=
  Nat.or_lt_two_pow h (Nat.lt_of_le_of_lt (Nat.shiftRight_le x n) h)

theorem smear_lt {k x : Nat} (h : x < 2 ^ k) : smear x < 2 ^ k :=
  or_shift_lt 16 (or_shift_lt 8 (or_shift_lt 4 (or_shift_lt 2 (or_shift_lt 1 h))))

theorem le_smear (x : Nat) : x ≤ smear x := by
  have hor : ∀ {y z : Nat} (n : Nat), y ≤ z → y ≤ z ||| z >>> n :=
    fun n h => Nat.le_trans h Nat.left_le_or
  exact hor 16 (hor 8 (hor 4 (hor 2 (hor 1 (Nat.le_refl x)))))

theorem filled_one {k x : Nat} (h : 2 ^ k ≤ x) (h' : x < 2 ^ (k + 1)) : Filled k 1 x := by
  intro j hj _
  obtain rfl : j = 0 := by omega
  rw [Nat.sub_zero, Nat.testBit_eq_decide_div_mod_eq]
  have hdiv : x / 2 ^ k = 1 := by
    apply Nat.div_eq_of_lt_le
    · omega
    · rw [Nat.pow_succ] at h'
      omega
  rw [hdiv]
  rfl

/-- **All bits from the top one down are set.** -/
theorem smear_eq {k x : Nat} (hk : k < 32) (h : 2 ^ k ≤ x) (h' : x < 2 ^ (k + 1)) :
    smear x = 2 ^ (k + 1) - 1 := by
  have hfilled : Filled k 32 (smear x) := (filled_one h h').step.step.step.step.step
  apply Nat.eq_of_testBit_eq
  intro i
  rw [Nat.testBit_two_pow_sub_one]
  rcases Nat.lt_or_ge i (k + 1) with hi | hi
  · have hbit := hfilled (k - i) (by omega) (by omega)
    rw [Nat.sub_sub_self (by omega)] at hbit
    rw [hbit, decide_eq_true hi]
  · rw [decide_eq_false (Nat.not_lt.mpr hi)]
    apply Nat.testBit_lt_two_pow
    exact Nat.lt_of_lt_of_le (smear_lt h') (Nat.pow_le_pow_right (by decide) hi)

/-- The next power of two of a number above `2 ^ k`. -/
theorem smear_pred_add_one {k x : Nat} (hk : k < 32) (h : 2 ^ k < x) (h' : x ≤ 2 ^ (k + 1)) :
    smear (x - 1) + 1 = 2 ^ (k + 1) := by
  rw [smear_eq hk (by omega) (by omega)]
  exact Nat.sub_add_cancel Nat.one_le_two_pow

end BitSmear
