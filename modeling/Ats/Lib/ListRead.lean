import Mathlib.Data.List.Basic

/-!
# ListRead: reading a list back from a function of positions
-/

namespace Ats.ListRead

variable {α : Type}

/-- A function that answers `xs[i]?` at every position below the length
reads the list back. -/
theorem filterMap_range_eq : ∀ (xs : List α) (f : Nat → Option α),
    (∀ i, i < xs.length → f i = xs[i]?) →
    (List.range xs.length).filterMap f = xs := by
  intro xs
  induction xs with
  | nil => intro f _; rfl
  | cons x xs ih =>
      intro f h
      have h0 : f 0 = some x := h 0 (by simp)
      have hs := ih (fun i => f (i + 1)) (fun i hi => by
        simpa using h (i + 1) (by simpa using hi))
      rw [List.length_cons, List.range_succ_eq_map, List.filterMap_cons, h0]
      simpa [List.filterMap_map, Function.comp_def] using hs

end Ats.ListRead
