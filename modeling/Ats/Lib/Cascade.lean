import Mathlib.Algebra.BigOperators.Group.Finset.Basic
import Mathlib.Algebra.Order.BigOperators.Group.Finset
import Mathlib.Tactic.Ring

/-!
# Work that is passed on downwards

The nodes of a network hold work, and a node that does a piece of its own may
give pieces to nodes on lower levels. Where a piece is worth more the higher up
it lies, the worth of all work falls.
-/

namespace Cascade

variable {N : Type} {S : Finset N} {level load load' : N → Nat} {base k : Nat} {c d : N}

/-- **The worth of the work** that the nodes hold. -/
def worth (S : Finset N) (level : N → Nat) (base : Nat) (load : N → Nat) : Nat :=
  ∑ c ∈ S, base ^ level c * load c

theorem worth_le (h : ∀ c ∈ S, load' c ≤ load c) :
    worth S level base load' ≤ worth S level base load :=
  Finset.sum_le_sum fun c hc => Nat.mul_le_mul_left _ (h c hc)

variable [DecidableEq N]

/-- The worth, with one node apart. -/
theorem worth_eq (hc : c ∈ S) :
    worth S level base load = base ^ level c * load c + worth (S.erase c) level base load :=
  (Finset.add_sum_erase S _ hc).symm

/-- **A node that does a piece of work** takes off what it is worth there. -/
theorem worth_lower (hc : c ∈ S) (hlt : load' c < load c)
    (hle : ∀ d ∈ S, d ≠ c → load' d ≤ load d) :
    worth S level base load' + base ^ level c ≤ worth S level base load := by
  have hrest : worth (S.erase c) level base load' ≤ worth (S.erase c) level base load :=
    worth_le fun d hd => hle d (Finset.mem_of_mem_erase hd) (Finset.ne_of_mem_erase hd)
  have hown : base ^ level c * (load' c + 1) ≤ base ^ level c * load c :=
    Nat.mul_le_mul_left _ hlt
  rw [worth_eq hc, worth_eq hc]
  rw [Nat.mul_succ] at hown
  omega

/-- **Work that is given to a node further down** adds less than it was worth. -/
theorem worth_raise (hbase : 0 < base) (hd : d ∈ S → level d < level c)
    (hown : load' d ≤ load d + k) (hle : ∀ b ∈ S, b ≠ d → load' b ≤ load b) :
    base * worth S level base load' ≤ base * worth S level base load + k * base ^ level c := by
  by_cases hmem : d ∈ S
  · have hrest : worth (S.erase d) level base load' ≤ worth (S.erase d) level base load :=
      worth_le fun b hb => hle b (Finset.mem_of_mem_erase hb) (Finset.ne_of_mem_erase hb)
    have hpow : base * base ^ level d ≤ base ^ level c := by
      rw [← Nat.pow_succ']
      exact Nat.pow_le_pow_right hbase (hd hmem)
    calc base * worth S level base load'
        = base * (base ^ level d * load' d + worth (S.erase d) level base load') := by
          rw [worth_eq hmem]
      _ ≤ base * (base ^ level d * (load d + k) + worth (S.erase d) level base load) :=
          Nat.mul_le_mul_left _ (Nat.add_le_add (Nat.mul_le_mul_left _ hown) hrest)
      _ = base * worth S level base load + k * (base * base ^ level d) := by
          rw [worth_eq hmem]
          ring
      _ ≤ base * worth S level base load + k * base ^ level c :=
          Nat.add_le_add_left (Nat.mul_le_mul_left _ hpow) _
  · refine Nat.le_trans (Nat.mul_le_mul_left _ (worth_le fun b hb => hle b hb ?_))
      (Nat.le_add_right _ _)
    rintro rfl
    exact hmem hb

end Cascade
