import Mathlib.Data.List.Basic

/-!
# GuardedRun: runs of a partial step function

A machine is a function `step : σ → α → Option σ`, a run a list of
actions. `Guarded P` asks that every action meets `P` in the state it finds;
the rules turn what one guarded step keeps into what a run keeps.
-/

namespace GuardedRun

variable {σ α : Type} {step : σ → α → Option σ} {P Q : σ → α → Prop} {I : σ → Prop}
  {s s' s'' : σ} {a : α} {as bs : List α}

/-- The state after the actions `as`. -/
def run (step : σ → α → Option σ) : σ → List α → Option σ
  | s, [] => some s
  | s, a :: as => (step s a).bind fun s => run step s as

/-- Each action meets `P` in the state it finds. -/
def Guarded (step : σ → α → Option σ) (P : σ → α → Prop) : σ → List α → Prop
  | _, [] => True
  | s, a :: as => P s a ∧
      match step s a with
      | none => True
      | some s' => Guarded step P s' as

instance Guarded.decide [∀ s a, Decidable (P s a)] :
    (s : σ) → (as : List α) → Decidable (Guarded step P s as)
  | _, [] => isTrue trivial
  | s, a :: as =>
      match hs : step s a with
      | none => decidable_of_iff (P s a) (by simp [Guarded, hs])
      | some s' =>
          have := Guarded.decide s' as
          decidable_of_iff (P s a ∧ Guarded step P s' as) (by simp [Guarded, hs])

theorem run_cons_some (h : run step s (a :: as) = some s'') :
    ∃ s', step s a = some s' ∧ run step s' as = some s'' :=
  Option.bind_eq_some_iff.mp h

theorem run_append : ∀ (as : List α) {s s' s'' : σ} {bs : List α},
    run step s as = some s' → run step s' bs = some s'' →
    run step s (as ++ bs) = some s'' := by
  intro as
  induction as with
  | nil =>
      intro s s' s'' bs h h'
      cases h
      exact h'
  | cons a as ih =>
      intro s s' s'' bs h h'
      obtain ⟨t, ht, hrest⟩ := run_cons_some h
      rw [List.cons_append, run, ht]
      exact ih hrest h'

/-- **The rule for what every step keeps.** -/
theorem run_keeps (hstep : ∀ s a s', I s → step s a = some s' → I s') :
    ∀ (as : List α) {s s' : σ}, run step s as = some s' → I s → I s' := by
  intro as
  induction as with
  | nil =>
      intro s s' h hi
      cases h
      exact hi
  | cons a as ih =>
      intro s s' h hi
      obtain ⟨t, ht, hrest⟩ := run_cons_some h
      exact ih hrest (hstep s a t hi ht)

theorem Guarded.mono (hPQ : ∀ s a, P s a → Q s a) : ∀ (as : List α) {s : σ},
    Guarded step P s as → Guarded step Q s as := by
  intro as
  induction as with
  | nil => exact fun _ => trivial
  | cons a as ih =>
      intro s h
      refine ⟨hPQ s a h.1, ?_⟩
      have := h.2
      split at this
      · trivial
      · exact ih this

/-- **The rule for runs that go through**: what every guarded step keeps. -/
theorem Guarded.keeps (hstep : ∀ s a s', I s → P s a → step s a = some s' → I s') :
    ∀ (as : List α) {s s' : σ}, Guarded step P s as → run step s as = some s' → I s →
      I s' := by
  intro as
  induction as with
  | nil =>
      intro s s' _ h hi
      cases h
      exact hi
  | cons a as ih =>
      intro s s' hg h hi
      obtain ⟨t, ht, hrest⟩ := run_cons_some h
      have hg' := hg.2
      rw [ht] at hg'
      exact ih hg' hrest (hstep s a t hi hg.1 ht)

/-- **The rule for machines that never get stuck** where the guard holds. -/
theorem Guarded.total (hstep : ∀ s a, I s → P s a → ∃ s', step s a = some s' ∧ I s') :
    ∀ (as : List α) {s : σ}, Guarded step P s as → I s →
      ∃ s', run step s as = some s' ∧ I s' := by
  intro as
  induction as with
  | nil => exact fun _ hi => ⟨_, rfl, hi⟩
  | cons a as ih =>
      intro s hg hi
      obtain ⟨t, ht, hit⟩ := hstep s a hi hg.1
      have hg' := hg.2
      rw [ht] at hg'
      obtain ⟨s', hrun, hi'⟩ := ih hg' hit
      exact ⟨s', by rw [run, ht]; exact hrun, hi'⟩

/-- A guarded run is guarded up to each of its actions. -/
theorem Guarded.split : ∀ (as : List α) {s : σ}, Guarded step P s (as ++ a :: bs) →
    Guarded step P s as ∧ ∀ s', run step s as = some s' → P s' a := by
  intro as
  induction as with
  | nil =>
      intro s h
      refine ⟨trivial, fun s' hr => ?_⟩
      cases hr
      exact h.1
  | cons b as ih =>
      intro s h
      have h' := h.2
      cases hs : step s b with
      | none =>
          refine ⟨⟨h.1, by rw [hs]; trivial⟩, fun s' hr => ?_⟩
          rw [run, hs] at hr
          cases hr
      | some t =>
          rw [List.append_eq, hs] at h'
          obtain ⟨hg, hlast⟩ := ih h'
          refine ⟨⟨h.1, by rw [hs]; exact hg⟩, fun s' hr => hlast s' ?_⟩
          rw [run, hs] at hr
          exact hr

/-- A guarded run is guarded up to each of its states. -/
theorem Guarded.left : ∀ (as : List α) {s : σ}, Guarded step P s (as ++ bs) →
    Guarded step P s as := by
  intro as
  induction as with
  | nil => exact fun _ => trivial
  | cons a as ih =>
      intro s h
      refine ⟨h.1, ?_⟩
      have h' := h.2
      cases hs : step s a with
      | none => trivial
      | some t =>
          rw [List.append_eq, hs] at h'
          exact ih h'

/-- A guard that always holds. -/
theorem Guarded.of_forall (hP : ∀ s a, P s a) : ∀ (as : List α) {s : σ}, Guarded step P s as := by
  intro as
  induction as with
  | nil => exact trivial
  | cons a as ih =>
      intro s
      refine ⟨hP s a, ?_⟩
      split
      · trivial
      · exact ih

/-- **The rule for measures**: one that no guarded step lowers, and that a
step leaves alone just where it meets `Q`, is back at its first value just
where the run is guarded by `Q`. -/
theorem Guarded.measure {μ : σ → Int} (hstep : ∀ s a s', I s → P s a → step s a = some s' →
      I s' ∧ μ s ≤ μ s' ∧ (μ s' = μ s ↔ Q s a)) :
    ∀ (as : List α) {s s' : σ}, Guarded step P s as → run step s as = some s' → I s →
      I s' ∧ μ s ≤ μ s' ∧ (μ s' = μ s ↔ Guarded step Q s as) := by
  intro as
  induction as with
  | nil =>
      intro s s' _ h hi
      cases h
      exact ⟨hi, Int.le_refl _, iff_of_true rfl trivial⟩
  | cons a as ih =>
      intro s s' hg h hi
      obtain ⟨t, ht, hrest⟩ := run_cons_some h
      obtain ⟨hit, hle, hiff⟩ := hstep s a t hi hg.1 ht
      have hg' := hg.2
      rw [ht] at hg'
      obtain ⟨hi', hle', hiff'⟩ := ih hg' hrest hit
      refine ⟨hi', Int.le_trans hle hle', ?_⟩
      simp only [Guarded, ht, ← hiff, ← hiff']
      omega

/-- The rule for measures, of runs with no guard. -/
theorem run_measure {μ : σ → Int}
    (hstep : ∀ s a s', I s → step s a = some s' → I s' ∧ μ s ≤ μ s' ∧ (μ s' = μ s ↔ P s a))
    (as : List α) {s s' : σ} (h : run step s as = some s') (hi : I s) :
    I s' ∧ μ s ≤ μ s' ∧ (μ s' = μ s ↔ Guarded step P s as) :=
  Guarded.measure (P := fun _ _ => True) (fun s a s' hi _ => hstep s a s' hi) as
    (Guarded.of_forall (fun _ _ => trivial) as) h hi

end GuardedRun
