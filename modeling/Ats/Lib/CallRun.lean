/-!
# CallRun: calls with results, and forward simulation

A sequence of partial calls returns a list of results. Where every call that
the upper state allows is the same call on the lower one, so is every
sequence.
-/

namespace CallRun

variable {σ τ α β : Type} {step : σ → α → Option (σ × β)} {upper : τ → α → Option (τ × β)}
  {R : σ → τ → Prop}

/-- The state after a sequence of calls, and what they returned. -/
def calls (step : σ → α → Option (σ × β)) : σ → List α → Option (σ × List β)
  | s, [] => some (s, [])
  | s, a :: as => do
    let (s, r) ← step s a
    let (s, rs) ← calls step s as
    some (s, r :: rs)

theorem calls_cons {s s' : σ} {a : α} {as : List α} {r : β} (h : step s a = some (s', r)) :
    calls step s (a :: as) = (calls step s' as).map fun p => (p.1, r :: p.2) := by
  rw [calls, h]
  show (calls step s' as).bind _ = _
  cases calls step s' as <;> rfl

theorem calls_cons_some {s s'' : σ} {a : α} {as : List α} {out : List β}
    (h : calls step s (a :: as) = some (s'', out)) :
    ∃ s' r rs, step s a = some (s', r) ∧ calls step s' as = some (s'', rs) ∧ out = r :: rs := by
  obtain ⟨⟨s', r⟩, hstep, h⟩ := Option.bind_eq_some_iff.mp h
  obtain ⟨⟨s₁, rs⟩, hrest, h⟩ := Option.bind_eq_some_iff.mp h
  cases h
  exact ⟨s', r, rs, hstep, hrest, rfl⟩

/-- **Forward simulation.** -/
theorem calls_simulated
    (hstep : ∀ s t a t' r, R s t → upper t a = some (t', r) →
      ∃ s', step s a = some (s', r) ∧ R s' t') :
    ∀ (as : List α) {s : σ} {t t' : τ} {rs : List β}, R s t → calls upper t as = some (t', rs) →
      ∃ s', calls step s as = some (s', rs) ∧ R s' t' := by
  intro as
  induction as with
  | nil =>
      intro s t t' rs hR hrun
      cases hrun
      exact ⟨s, rfl, hR⟩
  | cons a as ih =>
      intro s t t' rs hR hrun
      obtain ⟨t₁, r, rest, hfirst, hrest, rfl⟩ := calls_cons_some hrun
      obtain ⟨s₁, hcall, hR₁⟩ := hstep s t a t₁ r hR hfirst
      obtain ⟨s', hcalls, hR'⟩ := ih hR₁ hrest
      exact ⟨s', by rw [calls_cons hcall, hcalls]; rfl, hR'⟩

end CallRun
