import Mathlib.Data.List.Basic
import Ats.Lib.Scan

/-!
# StringOrder: fields of a fixed width sort as text

`strcmp` compares strings byte by byte. A code of one length keeps the order
of the numbers it codes if their texts compare as they do; codes one after the
other then compare field by field.
-/

namespace Ats.StringOrder

open Scan

/-! ## `strcmp` -/

/-- `strcmp(s, t) < 0` -/
def Precedes (s t : Nat → UInt8) : Prop := ∃ n, (∀ i < n, s i = t i ∧ s i ≠ 0) ∧ s n < t n

theorem precedes_step {s t : Nat → UInt8} : Precedes s t
    ↔ s 0 < t 0 ∨ s 0 = t 0 ∧ s 0 ≠ 0 ∧ Precedes (fun i => s (i + 1)) fun i => t (i + 1) := by
  constructor
  · rintro ⟨n, hbelow, hlt⟩
    cases n with
    | zero => exact .inl hlt
    | succ n =>
        obtain ⟨heq, hne⟩ := hbelow 0 (Nat.succ_pos n)
        exact .inr ⟨heq, hne, n, fun i hi => hbelow (i + 1) (Nat.succ_lt_succ hi), hlt⟩
  · rintro (hlt | ⟨heq, hne, n, hbelow, hlt⟩)
    · exact ⟨0, fun i hi => absurd hi (Nat.not_lt_zero i), hlt⟩
    · refine ⟨n + 1, fun i hi => ?_, hlt⟩
      cases i with
      | zero => exact ⟨heq, hne⟩
      | succ i => exact hbelow i (Nat.lt_of_succ_lt_succ hi)

theorem holds_shift {s : Nat → UInt8} {i : Nat} {bs : List UInt8} :
    Holds (fun k => some (s k)) (i + 1) bs ↔ Holds (fun k => some (s (k + 1))) i bs := by
  constructor
  · intro h k hk
    rw [← h k hk, Nat.add_right_comm]
  · intro h k hk
    rw [← h k hk, Nat.add_right_comm]

/-- **`strcmp` compares the texts**, each up to its terminator. -/
theorem precedes_iff : ∀ {xs ys : List UInt8} {s t : Nat → UInt8},
    Holds (fun i => some (s i)) 0 (xs ++ [0]) → Holds (fun i => some (t i)) 0 (ys ++ [0]) →
    0 ∉ xs → 0 ∉ ys → (Precedes s t ↔ xs < ys) := by
  intro xs
  induction xs with
  | nil =>
      intro ys s t hs ht _ hy
      obtain ⟨hs0, -⟩ := holds_cons.mp hs
      rw [precedes_step, Option.some.inj hs0]
      cases ys with
      | nil =>
          obtain ⟨ht0, -⟩ := holds_cons.mp ht
          simp [Option.some.inj ht0]
      | cons y ys =>
          obtain ⟨ht0, -⟩ := holds_cons.mp ht
          have hpos : 0 < y := UInt8.pos_iff_ne_zero.mpr fun h => hy (h ▸ List.mem_cons_self)
          simp [Option.some.inj ht0, hpos]
  | cons x xs ih =>
      intro ys s t hs ht hx hy
      obtain ⟨hs0, hs'⟩ := holds_cons.mp hs
      rw [precedes_step, Option.some.inj hs0]
      have hx0 : x ≠ 0 := fun h => hx (h ▸ List.mem_cons_self)
      cases ys with
      | nil =>
          obtain ⟨ht0, -⟩ := holds_cons.mp ht
          simp [Option.some.inj ht0, hx0]
      | cons y ys =>
          obtain ⟨ht0, ht'⟩ := holds_cons.mp ht
          rw [Option.some.inj ht0, List.cons_lt_cons_iff,
            ih (holds_shift.mp hs') (holds_shift.mp ht')
              (fun h => hx (List.mem_cons_of_mem x h)) (fun h => hy (List.mem_cons_of_mem y h))]
          simp [hx0]

/-! ## Fields -/

variable {α : Type} [LT α]

theorem append_lt_append_iff : ∀ {xs ys us vs : List α}, xs.length = ys.length →
    (xs ++ us < ys ++ vs ↔ xs < ys ∨ xs = ys ∧ us < vs) := by
  intro xs
  induction xs with
  | nil =>
      intro ys us vs hlen
      obtain rfl := List.length_eq_zero_iff.mp hlen.symm
      simp
  | cons x xs ih =>
      intro ys us vs hlen
      cases ys with
      | nil => simp at hlen
      | cons y ys =>
          rw [List.cons_append, List.cons_append, List.cons_lt_cons_iff, List.cons_lt_cons_iff,
            ih (Nat.succ.inj hlen), List.cons.injEq, and_or_left, or_assoc, and_assoc]

/-- **A code of one length that keeps the order** of the numbers below `n`. -/
structure OrderedCode (n : Nat) (code : Nat → List α) : Prop where
  length_eq : ∀ u v, (code u).length = (code v).length
  lt_iff : ∀ {u v}, u < n → v < n → (code u < code v ↔ u < v)

theorem div_mod_lt_iff (m u v : Nat) : u / m < v / m ∨ u / m = v / m ∧ u % m < v % m ↔ u < v := by
  have hu := Nat.div_add_mod u m
  have hv := Nat.div_add_mod v m
  rcases Nat.lt_trichotomy (u / m) (v / m) with h | h | h
  · have := Nat.lt_of_div_lt_div h
    omega
  · rw [h] at hu
    omega
  · have := Nat.lt_of_div_lt_div h
    omega

namespace OrderedCode

variable [Std.Irrefl (α := α) (· < ·)] {n m u v : Nat} {code code' : Nat → List α}

theorem eq_iff (h : OrderedCode n code) (hu : u < n) (hv : v < n) :
    code u = code v ↔ u = v := by
  constructor
  · intro heq
    have hnot : ¬ u < v := fun hlt =>
      List.lt_irrefl (code v) (heq ▸ (h.lt_iff hu hv).mpr hlt)
    have hnot' : ¬ v < u := fun hlt =>
      List.lt_irrefl (code v) (heq ▸ (h.lt_iff hv hu).mpr hlt)
    omega
  · exact congrArg code

/-- A field decides, unless it is the same. -/
theorem append_lt_iff (h : OrderedCode n code) (hu : u < n) (hv : v < n) {us vs : List α} :
    code u ++ us < code v ++ vs ↔ u < v ∨ u = v ∧ us < vs := by
  rw [append_lt_append_iff (h.length_eq u v), h.lt_iff hu hv, h.eq_iff hu hv]

/-- **Quotient and remainder**, one after the other. -/
theorem divMod (h : OrderedCode n code) (h' : OrderedCode m code') (between : List α) :
    OrderedCode (n * m) fun v => code (v / m) ++ (between ++ code' (v % m)) where
  length_eq u v := by
    simp only [List.length_append, h.length_eq (u / m) (v / m), h'.length_eq (u % m) (v % m)]
  lt_iff {u v} hu hv := by
    have hm : 0 < m := Nat.pos_of_ne_zero fun h0 => by simp [h0] at hu
    rw [h.append_lt_iff (Nat.div_lt_of_lt_mul (by rwa [Nat.mul_comm]))
        (Nat.div_lt_of_lt_mul (by rwa [Nat.mul_comm])),
      append_lt_append_iff rfl, h'.lt_iff (Nat.mod_lt u hm) (Nat.mod_lt v hm)]
    simp only [List.lt_irrefl, false_or, true_and]
    exact div_mod_lt_iff m u v

end OrderedCode
end Ats.StringOrder
