import Mathlib.Data.List.Basic

/-!
# Repetition: lists that commute

Two lists give the same list in either order exactly when both are
repetitions of one list.
-/

namespace Ats.Repetition

variable {α : Type} {x y z : List α}

/-- `n` copies of `z`, one after the other. -/
def repeated (z : List α) (n : Nat) : List α := (List.replicate n z).flatten

@[simp] theorem repeated_zero : repeated z 0 = [] := rfl

@[simp] theorem repeated_one : repeated z 1 = z := by simp [repeated]

theorem repeated_add (m n : Nat) : repeated z (m + n) = repeated z m ++ repeated z n := by
  rw [repeated, List.replicate_add, List.flatten_append, repeated, repeated]

theorem repeated_ne_nil {n : Nat} (h : repeated z n ≠ []) : n ≠ 0 ∧ z ≠ [] := by
  constructor
  · rintro rfl
    exact h rfl
  · rintro rfl
    exact h (by simp [repeated])

/-- Both lists are repetitions of one list. -/
def SameRoot (x y : List α) : Prop := ∃ z m n, x = repeated z m ∧ y = repeated z n

theorem SameRoot.nil_left (y : List α) : SameRoot [] y := ⟨y, 0, 1, by simp, by simp⟩

theorem SameRoot.nil_right (x : List α) : SameRoot x [] := ⟨x, 1, 0, by simp, by simp⟩

theorem SameRoot.comm (h : SameRoot x y) : x ++ y = y ++ x := by
  obtain ⟨z, m, n, rfl, rfl⟩ := h
  rw [← repeated_add, ← repeated_add, Nat.add_comm]

/-- Lists that commute share a root: the shorter one is a prefix of the other,
and commutes with what is left of it. -/
theorem sameRoot_of_comm : ∀ (n : Nat) {x y : List α}, x.length + y.length ≤ n →
    x ++ y = y ++ x → SameRoot x y := by
  intro n
  induction n with
  | zero =>
      intro x y hn _
      have hx : x = [] := List.length_eq_zero_iff.mp (by omega)
      rw [hx]
      exact SameRoot.nil_left y
  | succ n ih =>
      intro x y hn h
      by_cases hx : x = []
      · rw [hx]
        exact SameRoot.nil_left y
      by_cases hy : y = []
      · rw [hy]
        exact SameRoot.nil_right x
      have hxlen := List.length_pos_iff.mpr hx
      have hylen := List.length_pos_iff.mpr hy
      rcases List.append_eq_append_iff.mp h with ⟨a, ha, ha'⟩ | ⟨a, ha, ha'⟩
      · have hlen : y.length = x.length + a.length := by rw [ha, List.length_append]
        obtain ⟨z, m, k, rfl, rfl⟩ := ih (by omega) (ha.symm.trans ha')
        exact ⟨z, m, m + k, rfl, by rw [ha, repeated_add]⟩
      · have hlen : x.length = y.length + a.length := by rw [ha, List.length_append]
        obtain ⟨z, m, k, rfl, rfl⟩ := ih (by omega) (ha.symm.trans ha')
        exact ⟨z, m + k, m, by rw [ha, repeated_add], rfl⟩

/-- **Lists commute exactly when they share a root.** -/
theorem comm_iff : x ++ y = y ++ x ↔ SameRoot x y :=
  ⟨sameRoot_of_comm _ (Nat.le_refl _), SameRoot.comm⟩

/-- Lists without a common element share a root only if one is empty. -/
theorem sameRoot_iff_of_disjoint (h : ∀ a ∈ x, a ∉ y) : SameRoot x y ↔ x = [] ∨ y = [] := by
  constructor
  · rintro ⟨z, m, n, rfl, rfl⟩
    by_contra hne
    rw [not_or] at hne
    obtain ⟨hm, hz⟩ := repeated_ne_nil hne.1
    obtain ⟨hn, _⟩ := repeated_ne_nil hne.2
    obtain ⟨a, ha⟩ := List.exists_mem_of_ne_nil z hz
    have hmem : ∀ {i : Nat}, i ≠ 0 → a ∈ repeated z i := fun hi =>
      List.mem_flatten.mpr ⟨z, List.mem_replicate.mpr ⟨hi, rfl⟩, ha⟩
    exact h a (hmem hm) (hmem hn)
  · rintro (rfl | rfl)
    · exact SameRoot.nil_left y
    · exact SameRoot.nil_right x

end Ats.Repetition
