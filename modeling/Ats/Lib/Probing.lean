import Mathlib.Data.Fintype.EquivFin
import Mathlib.Data.Nat.ModEq
import Mathlib.Data.Nat.Prime.Basic
import Mathlib.Tactic.Ring

/-!
# Triangular probing

From a hash `h` the positions of a table of `2 ^ k` buckets are visited at
growing distances 1, 2, 3 and so on. The first `2 ^ k` positions are all the
positions, each once.
-/

namespace Probing

/-- The position after `step` moves, in 32-bit arithmetic. -/
def probe (mask h : Nat) : Nat → Nat
  | 0 => h &&& mask
  | s + 1 => (probe mask h s + (s + 1)) % 2 ^ 32 &&& mask

def triangle (s : Nat) : Nat := s * (s + 1) / 2

theorem two_mul_triangle (s : Nat) : 2 * triangle s = s * (s + 1) :=
  Nat.mul_div_cancel' (Nat.even_mul_succ_self s).two_dvd

theorem triangle_succ (s : Nat) : triangle (s + 1) = triangle s + (s + 1) := by
  have h := two_mul_triangle s
  have h' := two_mul_triangle (s + 1)
  have hring : (s + 1) * (s + 1 + 1) = s * (s + 1) + 2 * (s + 1) := by ring
  omega

/-- **The positions** are the triangular numbers from the hash on. -/
theorem probe_eq {k : Nat} (hk : k ≤ 32) (h s : Nat) :
    probe (2 ^ k - 1) h s = (h + triangle s) % 2 ^ k := by
  have hdvd : 2 ^ k ∣ 2 ^ 32 := Nat.pow_dvd_pow 2 hk
  induction s with
  | zero => rw [probe, Nat.and_two_pow_sub_one_eq_mod]; rfl
  | succ s ih =>
    rw [probe, ih, Nat.and_two_pow_sub_one_eq_mod, Nat.mod_mod_of_dvd _ hdvd, Nat.mod_add_mod,
      triangle_succ, Nat.add_assoc]

theorem probe_lt {k : Nat} (hk : k ≤ 32) (h s : Nat) : probe (2 ^ k - 1) h s < 2 ^ k := by
  rw [probe_eq hk]
  exact Nat.mod_lt _ (Nat.two_pow_pos k)

/-- Triangular numbers of different numbers below `2 ^ k` differ modulo it. -/
theorem triangle_injective {k a b : Nat} (hab : a < b) (hb : b < 2 ^ k) :
    ¬ triangle a ≡ triangle b [MOD 2 ^ k] := by
  intro h
  obtain ⟨d, rfl⟩ := Nat.exists_eq_add_of_lt hab
  have hsplit : 2 * triangle (a + d + 1) = 2 * triangle a + (d + 1) * (2 * a + d + 2) := by
    rw [two_mul_triangle, two_mul_triangle]
    ring
  obtain ⟨q, hq⟩ := (Nat.modEq_iff_dvd' (show triangle a ≤ triangle (a + d + 1) by omega)).mp h
  have hdvd : 2 ^ (k + 1) ∣ (d + 1) * (2 * a + d + 2) := by
    refine ⟨q, ?_⟩
    have hdouble : 2 ^ (k + 1) * q = 2 * (2 ^ k * q) := by ring
    rw [hdouble]
    omega
  have hpow : 2 ^ (k + 1) = 2 * 2 ^ k := Nat.pow_succ'
  -- one of the two factors is odd, so the other one has all the twos
  rcases Nat.even_or_odd d with heven | hodd
  · have hcop : Nat.Coprime (2 ^ (k + 1)) (d + 1) :=
      (Nat.coprime_two_left.mpr heven.add_one).pow_left _
    have hle := Nat.le_of_dvd (by omega) (hcop.dvd_of_dvd_mul_left hdvd)
    omega
  · have hodd' : Odd (2 * a + d + 2) := by
      have h2 : Even (2 * a + 2) := ⟨a + 1, by ring⟩
      have hsum : 2 * a + d + 2 = 2 * a + 2 + d := by ring
      rw [hsum]
      exact h2.add_odd hodd
    have hcop : Nat.Coprime (2 ^ (k + 1)) (2 * a + d + 2) :=
      (Nat.coprime_two_left.mpr hodd').pow_left _
    have hle := Nat.le_of_dvd (by omega) (hcop.dvd_of_dvd_mul_right hdvd)
    omega

/-- **No position comes twice** in the first `2 ^ k`. -/
theorem probe_injective {k h a b : Nat} (hk : k ≤ 32) (ha : a < 2 ^ k) (hb : b < 2 ^ k)
    (heq : probe (2 ^ k - 1) h a = probe (2 ^ k - 1) h b) : a = b := by
  rw [probe_eq hk, probe_eq hk] at heq
  have hmod : triangle a ≡ triangle b [MOD 2 ^ k] := Nat.ModEq.add_left_cancel' h heq
  rcases Nat.lt_trichotomy a b with hlt | rfl | hlt
  · exact absurd hmod (triangle_injective hlt hb)
  · rfl
  · exact absurd hmod.symm (triangle_injective hlt ha)

/-- **Every position comes** in the first `2 ^ k`. -/
theorem exists_probe {k i : Nat} (h : Nat) (hk : k ≤ 32) (hi : i < 2 ^ k) :
    ∃ s, s < 2 ^ k ∧ probe (2 ^ k - 1) h s = i := by
  let f : Fin (2 ^ k) → Fin (2 ^ k) := fun s => ⟨probe (2 ^ k - 1) h s, probe_lt hk h s⟩
  have hf : Function.Injective f := fun a b hab =>
    Fin.ext (probe_injective hk a.isLt b.isLt (Fin.mk.inj hab))
  obtain ⟨s, hs⟩ := Finite.surjective_of_injective hf ⟨i, hi⟩
  exact ⟨s, s.isLt, Fin.mk.inj hs⟩

/-! ## Walking -/

variable {σ : Type}

/-- The loop `while (go(i)) { visit(i); i = (i + (++step)) & mask; }`, which
is left when it comes to `last`: the position where it stops, or `none` at
`last`, and what the visits made of `a`. No result is a lack of fuel. -/
def walk (go : Nat → Bool) (visit : Nat → σ → σ) (mask : Nat) (last : Option Nat) :
    Nat → Nat → Nat → σ → Option (Option Nat × σ)
  | 0, _, _, _ => none
  | fuel + 1, i, step, a =>
    if go i then
      let i' := (i + (step + 1)) % 2 ^ 32 &&& mask
      if last = some i' then some (none, visit i a)
      else walk go visit mask last fuel i' (step + 1) (visit i a)
    else some (some i, a)

variable {go : Nat → Bool} {visit : Nat → σ → σ} {last : Option Nat} {a : σ}

/-- What the visits to the first `s` positions make of `a`. -/
def visits (visit : Nat → σ → σ) (mask h : Nat) : Nat → σ → σ
  | 0, a => a
  | s + 1, a => visit (probe mask h s) (visits visit mask h s a)

theorem visits_eq {mask h : Nat} : ∀ {e : Nat},
    (∀ t, t < e → visit (probe mask h t) a = a) → visits visit mask h e a = a := by
  intro e
  induction e with
  | zero => exact fun _ => rfl
  | succ e ih =>
    intro hvisit
    rw [visits, ih fun t ht => hvisit t (Nat.lt_succ_of_lt ht)]
    exact hvisit e (Nat.lt_succ_self e)

/-- **A walk visits the positions before the one where it stops.** -/
theorem walk_stops_at {mask h e fuel : Nat} (hgo : ∀ t, t < e → go (probe mask h t) = true)
    (hstop : go (probe mask h e) = false)
    (hlast : ∀ t, 0 < t → t ≤ e → last ≠ some (probe mask h t)) (hfuel : e < fuel) :
    walk go visit mask last fuel (h &&& mask) 0 a
      = some (some (probe mask h e), visits visit mask h e a) := by
  -- `d` positions are left from `s` on
  have hfrom : ∀ d s fuel, s + d = e → d < fuel →
      walk go visit mask last fuel (probe mask h s) s (visits visit mask h s a)
        = some (some (probe mask h e), visits visit mask h e a) := by
    intro d
    induction d with
    | zero =>
      rintro s (_ | fuel) rfl hlt
      · omega
      · rw [Nat.add_zero] at hstop ⊢
        simp [walk, hstop]
    | succ d ih =>
      rintro s (_ | fuel) hsum hlt
      · omega
      · have hnext : last ≠ some ((probe mask h s + (s + 1)) % 2 ^ 32 &&& mask) :=
          hlast (s + 1) (Nat.succ_pos s) (by omega)
        have hpass := hgo s (by omega)
        simp only [walk, hpass, if_true]
        rw [if_neg hnext]
        exact ih (s + 1) fuel (by omega) (by omega)
  exact hfrom e 0 fuel (Nat.zero_add e) hfuel

/-- The walk passes the positions before the one where it stops. -/
theorem walk_stops {mask h e fuel : Nat} (hgo : ∀ t, t < e → go (probe mask h t) = true)
    (hstop : go (probe mask h e) = false)
    (hlast : ∀ t, 0 < t → t ≤ e → last ≠ some (probe mask h t))
    (hvisit : ∀ t, t < e → visit (probe mask h t) a = a) (hfuel : e < fuel) :
    walk go visit mask last fuel (h &&& mask) 0 a = some (some (probe mask h e), a) := by
  rw [walk_stops_at hgo hstop hlast hfuel, visits_eq hvisit]

/-- **A walk finds a position to stop at** where there is one, the first, and
visits those before. -/
theorem walk_first_at {k fuel : Nat} (h : Nat) (last : Option Nat) (visit : Nat → σ → σ) (a : σ)
    (hk : k ≤ 32)
    (hstop : ∃ i, i < 2 ^ k ∧ go i = false)
    (hlast : ∀ i, last = some i → i = h &&& (2 ^ k - 1)) (hfuel : 2 ^ k ≤ fuel) :
    ∃ e, e < 2 ^ k ∧ (∀ t, t < e → go (probe (2 ^ k - 1) h t) = true)
      ∧ go (probe (2 ^ k - 1) h e) = false
      ∧ walk go visit (2 ^ k - 1) last fuel (h &&& (2 ^ k - 1)) 0 a
        = some (some (probe (2 ^ k - 1) h e), visits visit (2 ^ k - 1) h e a) := by
  have hex : ∃ s, s < 2 ^ k ∧ go (probe (2 ^ k - 1) h s) = false := by
    obtain ⟨i, hi, hgo⟩ := hstop
    obtain ⟨s, hs, rfl⟩ := exists_probe h hk hi
    exact ⟨s, hs, hgo⟩
  classical
  obtain ⟨hlt, hfound⟩ := Nat.find_spec hex
  have hbefore : ∀ t, t < Nat.find hex → go (probe (2 ^ k - 1) h t) = true := by
    intro t ht
    have hmin := Nat.find_min hex ht
    rw [not_and, Bool.not_eq_false] at hmin
    exact hmin (Nat.lt_trans ht hlt)
  refine ⟨Nat.find hex, hlt, hbefore, hfound, walk_stops_at hbefore hfound ?_ ?_⟩
  · intro t hpos hle heq
    have hzero := probe_injective hk (Nat.lt_of_le_of_lt hle hlt) (Nat.two_pow_pos k)
      (hlast _ heq)
    omega
  · omega

/-- **A walk finds a position to stop at** where there is one, the first. -/
theorem walk_first {k fuel : Nat} (h : Nat) (last : Option Nat) (hk : k ≤ 32)
    (hstop : ∃ i, i < 2 ^ k ∧ go i = false) (hlast : ∀ i, last = some i → i = h &&& (2 ^ k - 1))
    (hvisit : ∀ t, visit (probe (2 ^ k - 1) h t) a = a)
    (hfuel : 2 ^ k ≤ fuel) :
    ∃ e, e < 2 ^ k ∧ (∀ t, t < e → go (probe (2 ^ k - 1) h t) = true)
      ∧ go (probe (2 ^ k - 1) h e) = false
      ∧ walk go visit (2 ^ k - 1) last fuel (h &&& (2 ^ k - 1)) 0 a
        = some (some (probe (2 ^ k - 1) h e), a) := by
  obtain ⟨e, he, hgo, hfound, hwalk⟩ := walk_first_at h last visit a hk hstop hlast hfuel
  exact ⟨e, he, hgo, hfound, hwalk.trans (by rw [visits_eq fun t _ => hvisit t])⟩

/-- A walk that never stops ends where it comes to `last`. -/
theorem walk_returns {mask h e fuel : Nat} (hgo : ∀ t, t < e → go (probe mask h t) = true)
    (hpos : 0 < e) (hlast : last = some (probe mask h e))
    (hbefore : ∀ t, 0 < t → t < e → last ≠ some (probe mask h t)) (hfuel : e ≤ fuel) :
    walk go visit mask last fuel (h &&& mask) 0 a = some (none, visits visit mask h e a) := by
  -- `d + 1` positions are left from `s` on
  have hfrom : ∀ d s fuel, s + d + 1 = e → d < fuel →
      walk go visit mask last fuel (probe mask h s) s (visits visit mask h s a)
        = some (none, visits visit mask h e a) := by
    intro d
    induction d with
    | zero =>
      rintro s (_ | fuel) rfl hlt
      · omega
      · have hnext : last = some ((probe mask h s + (s + 1)) % 2 ^ 32 &&& mask) := hlast
        simp only [walk, hgo s (by omega), if_true]
        rw [if_pos hnext]
        rfl
    | succ d ih =>
      rintro s (_ | fuel) hsum hlt
      · omega
      · have hnext : last ≠ some ((probe mask h s + (s + 1)) % 2 ^ 32 &&& mask) :=
          hbefore (s + 1) (Nat.succ_pos s) (by omega)
        simp only [walk, hgo s (by omega), if_true]
        rw [if_neg hnext]
        exact ih (s + 1) fuel (by omega) (by omega)
  exact hfrom (e - 1) 0 fuel (by omega) (by omega)

/-- The position before the `2 ^ (k + 1)`th is the first one again. -/
theorem probe_period {k : Nat} (hk : k ≤ 32) (h : Nat) :
    probe (2 ^ k - 1) h (2 ^ (k + 1) - 1) = probe (2 ^ k - 1) h 0 := by
  have htriangle : triangle (2 ^ (k + 1) - 1) = 2 ^ k * (2 ^ (k + 1) - 1) := by
    have hpos : 0 < 2 ^ (k + 1) := Nat.two_pow_pos (k + 1)
    have htwice := two_mul_triangle (2 ^ (k + 1) - 1)
    rw [Nat.sub_add_cancel hpos] at htwice
    apply Nat.eq_of_mul_eq_mul_left (show 0 < 2 by decide)
    rw [htwice, Nat.pow_succ]
    ring
  rw [probe_eq hk, probe_eq hk, htriangle, Nat.add_mul_mod_self_left]
  rfl

/-- **A walk that finds nothing to stop at** comes around, and has visited
every position by then. -/
theorem walk_around_at {k fuel : Nat} (h : Nat) (visit : Nat → σ → σ) (a : σ) (hk : k ≤ 32)
    (hgo : ∀ t, go (probe (2 ^ k - 1) h t) = true) (hfuel : 2 * 2 ^ k ≤ fuel) :
    ∃ e, 2 ^ k ≤ e
      ∧ walk go visit (2 ^ k - 1) (some (h &&& (2 ^ k - 1))) fuel (h &&& (2 ^ k - 1)) 0 a
        = some (none, visits visit (2 ^ k - 1) h e a) := by
  have hpos := Nat.two_pow_pos k
  have hdouble : 2 ^ (k + 1) = 2 * 2 ^ k := Nat.pow_succ'
  have hex : ∃ s, 0 < s ∧ s < 2 * 2 ^ k ∧ probe (2 ^ k - 1) h s = probe (2 ^ k - 1) h 0 :=
    ⟨2 ^ (k + 1) - 1, by omega, by omega, probe_period hk h⟩
  classical
  obtain ⟨hfirst, hlt, hback⟩ := Nat.find_spec hex
  refine ⟨Nat.find hex, ?_, walk_returns (fun t _ => hgo t) hfirst (congrArg some hback.symm) ?_
    (by omega)⟩
  · -- no position comes twice before
    by_contra hlt'
    have hzero := probe_injective hk (by omega) hpos hback
    omega
  · intro t ht hbefore heq
    refine Nat.find_min hex hbefore ⟨ht, by omega, ?_⟩
    exact (Option.some.inj heq).symm

/-- **A walk that finds nothing to stop at** comes around. -/
theorem walk_around {k fuel : Nat} (h : Nat) (hk : k ≤ 32)
    (hgo : ∀ t, go (probe (2 ^ k - 1) h t) = true)
    (hvisit : ∀ t, visit (probe (2 ^ k - 1) h t) a = a) (hfuel : 2 * 2 ^ k ≤ fuel) :
    walk go visit (2 ^ k - 1) (some (h &&& (2 ^ k - 1))) fuel (h &&& (2 ^ k - 1)) 0 a
      = some (none, a) := by
  obtain ⟨e, -, hwalk⟩ := walk_around_at h visit a hk hgo hfuel
  rw [hwalk, visits_eq fun t _ => hvisit t]

end Probing
