import Mathlib.Algebra.Group.Int.Defs
import Mathlib.Algebra.Group.Nat.Defs

/-!
# Integers: conversions to the fixed widths of C
-/

namespace Ats

def u16 (n : Nat) : Nat := n % 2 ^ 16
def u32 (n : Nat) : Nat := n % 2 ^ 32
def u64 (n : Nat) : Nat := n % 2 ^ 64

/-- Conversion to `int32_t`. -/
def i32 (z : Int) : Int := z.bmod (2 ^ 32)

/-- A value of the type is converted to itself. -/
theorem i32_of_mem {z : Int} (hlow : -2 ^ 31 ≤ z) (hhigh : z < 2 ^ 31) : i32 z = z := by
  unfold i32
  rw [Int.bmod_eq_of_le] <;> omega

theorem i32_lt (z : Int) : i32 z < 2 ^ 31 := by
  have := Int.bmod_lt (x := z) (m := 2 ^ 32) (by decide)
  unfold i32
  omega

theorem le_i32 (z : Int) : -2 ^ 31 ≤ i32 z := by
  have := Int.le_bmod (x := z) (m := 2 ^ 32) (by decide)
  unfold i32
  omega

/-- Conversion changes a value by a multiple of `2 ^ 32`. -/
theorem i32_emod (z : Int) : i32 z % 2 ^ 32 = z % 2 ^ 32 := by
  unfold i32
  exact Int.bmod_emod

end Ats
