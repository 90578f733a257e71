import Mathlib.Data.List.Basic
import Mathlib.Order.Basic

/-!
# SortedOutput: what serves the least first puts out a sorted list

`InOrder out next`: the list `out` has been put out in order, and nothing
that is still to come (`next`) is below any of it. Serving a least element
keeps this, as long as what comes later is not below what was served.
-/

namespace SortedOutput

variable {κ : Type} [Preorder κ] {out : List κ} {next next' : κ → Prop} {n : κ}

/-- Sorted so far, and so with anything that is still to come. -/
structure InOrder (out : List κ) (next : κ → Prop) : Prop where
  sorted : out.Pairwise (· ≤ ·)
  floor : ∀ m ∈ out, ∀ n, next n → m ≤ n

theorem InOrder.nil (next : κ → Prop) : InOrder [] next :=
  ⟨List.Pairwise.nil, fun _ hm => by cases hm⟩

/-- Less may be to come. -/
theorem InOrder.mono (h : InOrder out next) (hsub : ∀ n, next' n → next n) :
    InOrder out next' :=
  ⟨h.sorted, fun m hm n hn => h.floor m hm n (hsub n hn)⟩

/-- **Serving `n`**: it was to come, and what comes later is not below it. -/
theorem InOrder.serve (h : InOrder out next) (hn : next n) (hle : ∀ m, next' m → n ≤ m) :
    InOrder (out ++ [n]) next' := by
  refine ⟨?_, fun m hm x hx => ?_⟩
  · rw [List.pairwise_append]
    refine ⟨h.sorted, List.pairwise_singleton _ _, fun a ha b hb => ?_⟩
    rw [List.mem_singleton] at hb
    subst hb
    exact h.floor a ha b hn
  · rcases List.mem_append.mp hm with hm | hm
    · exact le_trans (h.floor m hm n hn) (hle x hx)
    · rw [List.mem_singleton] at hm
      subst hm
      exact hle x hx

/-- Everything is at most what was put out last. -/
theorem InOrder.le_last (h : InOrder out next) {z : κ} (hz : out.getLast? = some z)
    {m : κ} (hm : m ∈ out) : m ≤ z := by
  obtain ⟨pre, rfl⟩ := List.getLast?_eq_some_iff.mp hz
  rcases List.mem_append.mp hm with hm | hm
  · exact (List.pairwise_append.mp h.sorted).2.2 m hm z List.mem_cons_self
  · rw [List.mem_singleton] at hm
    rw [hm]

end SortedOutput
