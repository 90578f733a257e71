import Mathlib.Data.List.Basic
import Mathlib.Logic.Function.Basic

/-!
# Scanning bytes in memory

A scanner reads bytes by address and either gives a value or rejects its
input. Reading outside the object is a third outcome, so that a scanner that
strays shows it: `none` is such a read, `some none` a rejection.
-/

/-- A computation that reads bytes, may reject, and may read out of bounds. -/
abbrev Scan (α : Type) := OptionT Option α

namespace Scan

variable {α β : Type} {mem : Nat → Option UInt8}

/-- The byte at address `i`. -/
def byte (mem : Nat → Option UInt8) (i : Nat) : Scan UInt8 := OptionT.mk ((mem i).map some)

def reject : Scan α := OptionT.mk (some none)

def require (p : Prop) [Decidable p] : Scan Unit := if p then pure () else reject

/-! ## Giving a value -/

/-- The scanner stays in bounds and gives `a`. -/
def Gives (x : Scan α) (a : α) : Prop := x.run = some (some a)

theorem run_bind (x : Scan α) (f : α → Scan β) :
    (x >>= f).run = x.run.bind (fun o => o.elim (some none) (fun a => (f a).run)) := by
  change x.run.bind _ = _
  apply congrArg
  funext o
  cases o with
  | none => rfl
  | some a => rfl

@[simp] theorem gives_pure {a b : α} : Gives (pure a) b ↔ a = b := by
  change some (some a) = some (some b) ↔ a = b
  simp

@[simp] theorem gives_reject {b : α} : Gives (reject : Scan α) b ↔ False := by
  change some none = some (some b) ↔ False
  simp

@[simp] theorem gives_bind {x : Scan α} {f : α → Scan β} {b : β} :
    Gives (x >>= f) b ↔ ∃ a, Gives x a ∧ Gives (f a) b := by
  unfold Gives
  rw [run_bind]
  cases x.run with
  | none => simp
  | some o =>
    cases o with
    | none => simp
    | some a => simp

@[simp] theorem gives_byte {i : Nat} {b : UInt8} : Gives (byte mem i) b ↔ mem i = some b := by
  change (mem i).map some = some (some b) ↔ _
  simp

@[simp] theorem gives_require {p : Prop} [Decidable p] {u : Unit} :
    Gives (require p) u ↔ p := by
  unfold require
  split <;> simp_all

@[simp] theorem gives_ite {p : Prop} [Decidable p] {x y : Scan α} {a : α} :
    Gives (if p then x else y) a ↔ (p ∧ Gives x a) ∨ (¬ p ∧ Gives y a) := by
  split <;> simp_all

/-! ## Staying in bounds -/

/-- The scanner reads nothing out of bounds. -/
def Stays (x : Scan α) : Prop := x.run ≠ none

@[simp] theorem stays_pure (a : α) : Stays (pure a) := Option.some_ne_none _

@[simp] theorem stays_reject : Stays (reject : Scan α) := Option.some_ne_none _

@[simp] theorem stays_require (p : Prop) [Decidable p] : Stays (require p) := by
  unfold require
  split <;> simp

@[simp] theorem stays_byte {i : Nat} : Stays (byte mem i) ↔ (mem i).isSome := by
  change (mem i).map some ≠ none ↔ _
  simp [Option.isSome_iff_ne_none]

/-- What follows is scanned only after a value. -/
@[simp] theorem stays_bind {x : Scan α} {f : α → Scan β} :
    Stays (x >>= f) ↔ Stays x ∧ ∀ a, Gives x a → Stays (f a) := by
  unfold Stays Gives
  rw [run_bind]
  cases x.run with
  | none => simp
  | some o =>
    cases o with
    | none => simp
    | some a => simp

@[simp] theorem stays_map {x : Scan α} {f : α → β} : Stays (f <$> x) ↔ Stays x := by
  rw [← bind_pure_comp, stays_bind]
  simp only [stays_pure, implies_true, and_true]

@[simp] theorem stays_ite {p : Prop} [Decidable p] {x y : Scan α} :
    Stays (if p then x else y) ↔ (p → Stays x) ∧ (¬ p → Stays y) := by
  split <;> simp_all

/-- A scanner in bounds that gives no value rejects. -/
theorem Stays.rejects {x : Scan α} (h : Stays x) (hno : ∀ a, ¬ Gives x a) :
    x.run = some none := by
  cases hrun : x.run with
  | none => exact absurd hrun h
  | some o =>
    cases o with
    | none => rfl
    | some a => exact absurd hrun (hno a)

/-! ## Bytes in memory -/

/-- The bytes `bs` stand at `i`. -/
def Holds (mem : Nat → Option UInt8) (i : Nat) (bs : List UInt8) : Prop :=
  ∀ k, k < bs.length → mem (i + k) = bs[k]?

@[simp] theorem holds_nil {i : Nat} : Holds mem i [] :=
  fun k hk => absurd hk (Nat.not_lt_zero k)

@[simp] theorem holds_cons {i : Nat} {b : UInt8} {bs : List UInt8} :
    Holds mem i (b :: bs) ↔ mem i = some b ∧ Holds mem (i + 1) bs := by
  constructor
  · intro h
    refine ⟨by simpa using h 0 (Nat.succ_pos _), fun k hk => ?_⟩
    have hat := h (k + 1) (Nat.succ_lt_succ hk)
    rw [List.getElem?_cons_succ] at hat
    rw [← hat]
    apply congrArg
    omega
  · rintro ⟨hb, h⟩ k hk
    cases k with
    | zero => simpa using hb
    | succ k =>
      have hat := h k (Nat.lt_of_succ_lt_succ hk)
      rw [List.getElem?_cons_succ, ← hat]
      apply congrArg
      omega

@[simp] theorem holds_append {i : Nat} {bs cs : List UInt8} :
    Holds mem i (bs ++ cs) ↔ Holds mem i bs ∧ Holds mem (i + bs.length) cs := by
  induction bs generalizing i with
  | nil => simp
  | cons b bs ih =>
    have hadd : i + 1 + bs.length = i + (bs.length + 1) := by omega
    simp [ih, and_assoc, hadd]

/-- One address holds one text of a length. -/
theorem Holds.unique {i : Nat} {bs cs : List UInt8} (hb : Holds mem i bs) (hc : Holds mem i cs)
    (hlen : bs.length = cs.length) : bs = cs := by
  apply List.ext_getElem?
  intro k
  rcases Nat.lt_or_ge k bs.length with hk | hk
  · rw [← hb k hk, hc k (hlen ▸ hk)]
  · rw [List.getElem?_eq_none hk, List.getElem?_eq_none (hlen ▸ hk)]

/-- The memory with `s` at address 0 and `beyond` after its end. -/
def textAt (s : List UInt8) (beyond : Nat → UInt8) (i : Nat) : Option UInt8 :=
  some (s[i]?.getD (beyond i))

theorem textAt_isSome (s : List UInt8) (beyond : Nat → UInt8) (i : Nat) :
    (textAt s beyond i).isSome := rfl

theorem holds_textAt (s : List UInt8) (beyond : Nat → UInt8) : Holds (textAt s beyond) 0 s := by
  intro k hk
  simp [textAt, List.getElem?_eq_getElem hk]

/-! ## Writing bytes -/

/-- Memory after the writes `ws`, from first to last. -/
def stored (dst : Nat → UInt8) (ws : List (Nat × UInt8)) : Nat → UInt8 :=
  ws.foldl (fun m w => Function.update m w.1 w.2) dst

theorem stored_of_not_mem {dst : Nat → UInt8} {ws : List (Nat × UInt8)} {i : Nat}
    (hi : i ∉ ws.map Prod.fst) : stored dst ws i = dst i := by
  induction ws generalizing dst with
  | nil => rfl
  | cons w ws ih =>
    rw [List.map_cons, List.mem_cons, not_or] at hi
    exact (ih hi.2).trans (Function.update_of_ne hi.1 _ _)

/-- A byte written once, at an address of its own, stays. -/
theorem stored_of_mem {dst : Nat → UInt8} {ws : List (Nat × UInt8)} {i : Nat} {b : UInt8}
    (hnodup : (ws.map Prod.fst).Nodup) (hw : (i, b) ∈ ws) : stored dst ws i = b := by
  induction ws generalizing dst with
  | nil => cases hw
  | cons w ws ih =>
    rw [List.map_cons, List.nodup_cons] at hnodup
    rcases List.mem_cons.mp hw with rfl | hw
    · exact (stored_of_not_mem hnodup.1).trans (Function.update_self _ _ _)
    · exact ih hnodup.2 hw

end Scan
