import Mathlib.Data.List.Basic

/-!
# Keeps: what a partial computation leaves as it was

`Keeps x f r` says that whatever `r` returns still shows `x` to `f`. The
rules follow the shape of a `do` block, so that a function is covered by the
rules for the functions it calls.
-/

variable {α β σ τ : Type} {x : τ} {f : α → τ} {g : β → τ} {h : σ → τ} {r : Option α}

/-- Whatever `r` returns shows `x` to `f`. -/
def Keeps (x : τ) (f : α → τ) (r : Option α) : Prop := ∀ a, r = some a → f a = x

namespace Keeps

theorem none : Keeps x f Option.none := fun _ h => by cases h

theorem some {a : α} (ha : f a = x) : Keeps x f (Option.some a) := by
  intro b hb
  cases hb
  exact ha

/-- **The rule for a call and what comes after it.** -/
theorem bind {k : α → Option β} (hr : Keeps x f r) (hk : ∀ a, f a = x → Keeps x g (k a)) :
    Keeps x g (r >>= k) := by
  intro b hb
  obtain ⟨a, ha, hka⟩ := Option.bind_eq_some_iff.mp hb
  exact hk a (hr a ha) b hka

/-- The rule for a read, which may fail and returns no state. -/
theorem read {k : α → Option β} (hk : ∀ a, Keeps x g (k a)) : Keeps x g (r >>= k) := by
  intro b hb
  obtain ⟨a, _, hka⟩ := Option.bind_eq_some_iff.mp hb
  exact hk a b hka

theorem map {k : α → β} (hr : Keeps x f r) (hk : ∀ a, f a = x → g (k a) = x) :
    Keeps x g (r.map k) := by
  intro b hb
  obtain ⟨a, ha, rfl⟩ := Option.map_eq_some_iff.mp hb
  exact hk a (hr a ha)

theorem ite {p : Prop} {dec : Decidable p} {r' : Option α} (ht : p → Keeps x f r)
    (he : ¬ p → Keeps x f r') : Keeps x f (if p then r else r') := by
  split
  case isTrue hp => exact ht hp
  case isFalse hp => exact he hp

/-- **The rule for a loop over a list.** -/
theorem foldlM {step : σ → β → Option σ} (hstep : ∀ s b, h s = x → Keeps x h (step s b)) :
    ∀ (bs : List β) {s : σ}, h s = x → Keeps x h (bs.foldlM step s) := by
  intro bs
  induction bs with
  | nil => exact fun hs => Keeps.some hs
  | cons b bs ih =>
      intro s hs
      rw [List.foldlM_cons]
      exact (hstep s b hs).bind fun s' hs' => ih hs'

end Keeps
