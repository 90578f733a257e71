import Mathlib.Data.List.Basic
import Mathlib.Tactic.SplitIfs

/-!
# Gregorian: the proleptic Gregorian calendar

Dates from the year 1 on, with the rule that gives the next date and the
number of days since 0001-01-01. Counting days is a bijection: `dayNumber`
goes up by one with `next`, and every number is reached.
-/

namespace Gregorian

def IsLeap (y : Nat) : Prop := y % 4 = 0 ∧ (y % 100 ≠ 0 ∨ y % 400 = 0)

instance : DecidablePred IsLeap := fun _ => inferInstanceAs (Decidable (_ ∧ (_ ∨ _)))

def yearLength (y : Nat) : Nat := if IsLeap y then 366 else 365

/-- The length of month `m`, 1 to 12. -/
def monthLength (y m : Nat) : Nat :=
  match m with
  | 2 => if IsLeap y then 29 else 28
  | 4 | 6 | 9 | 11 => 30
  | _ => 31

/-- The days before year `y`, from year 1. -/
def daysBeforeYear : Nat → Nat
  | 0 => 0
  | 1 => 0
  | y + 2 => daysBeforeYear (y + 1) + yearLength (y + 1)

/-- The days of year `y` before month `m`. -/
def daysBeforeMonth (y : Nat) : Nat → Nat
  | 0 => 0
  | 1 => 0
  | m + 2 => daysBeforeMonth y (m + 1) + monthLength y (m + 1)

/-- **A date** of the calendar. -/
structure Date where
  year : Nat
  month : Nat
  day : Nat
  year_pos : 1 ≤ year
  month_pos : 1 ≤ month
  month_le : month ≤ 12
  day_pos : 1 ≤ day
  day_le : day ≤ monthLength year month

theorem monthLength_pos (y m : Nat) : 1 ≤ monthLength y m := by
  unfold monthLength
  split
  case h_1 => split <;> omega
  all_goals omega

theorem monthLength_le (y m : Nat) : monthLength y m ≤ 31 := by
  unfold monthLength
  split
  case h_1 => split <;> omega
  all_goals omega

theorem monthLength_ge (y m : Nat) : 28 ≤ monthLength y m := by
  unfold monthLength
  split
  case h_1 => split <;> omega
  all_goals omega

namespace Date

theorem ext' {a b : Date} (hy : a.year = b.year) (hm : a.month = b.month)
    (hd : a.day = b.day) : a = b := by
  cases a
  cases b
  simp only at hy hm hd
  subst hy hm hd
  rfl

/-- The date that three numbers name. -/
def ofYmd (y m d : Nat) (h : 1 ≤ y ∧ (1 ≤ m ∧ m ≤ 12) ∧ 1 ≤ d ∧ d ≤ monthLength y m) : Date :=
  ⟨y, m, d, h.1, h.2.1.1, h.2.1.2, h.2.2.1, h.2.2.2⟩

def first : Date := .ofYmd 1 1 1 (by decide)

/-- The days from 0001-01-01 to the date. -/
def dayNumber (d : Date) : Nat :=
  daysBeforeYear d.year + daysBeforeMonth d.year d.month + (d.day - 1)

/-- The next day. -/
def next (d : Date) : Date :=
  if hd : d.day < monthLength d.year d.month then
    ⟨d.year, d.month, d.day + 1, d.year_pos, d.month_pos, d.month_le, Nat.le_add_left 1 _, hd⟩
  else if hm : d.month < 12 then
    ⟨d.year, d.month + 1, 1, d.year_pos, Nat.le_add_left 1 _, hm, Nat.le_refl 1,
      monthLength_pos _ _⟩
  else
    ⟨d.year + 1, 1, 1, Nat.le_add_left 1 _, Nat.le_refl 1, by decide, Nat.le_refl 1,
      monthLength_pos _ _⟩

end Date

/-! ## Closed forms -/

theorem daysBeforeYear_succ {y : Nat} (hy : 1 ≤ y) :
    daysBeforeYear (y + 1) = daysBeforeYear y + yearLength y := by
  obtain ⟨k, rfl⟩ := Nat.exists_eq_add_of_le' hy
  rfl

theorem daysBeforeMonth_succ (y : Nat) {m : Nat} (hm : 1 ≤ m) :
    daysBeforeMonth y (m + 1) = daysBeforeMonth y m + monthLength y m := by
  obtain ⟨k, rfl⟩ := Nat.exists_eq_add_of_le' hm
  rfl

/-- **The leap-year rule, summed up.** -/
theorem daysBeforeYear_eq (y : Nat) :
    daysBeforeYear (y + 1) = 365 * y + y / 4 - y / 100 + y / 400 := by
  induction y with
  | zero => rfl
  | succ y ih =>
      rw [daysBeforeYear_succ (by omega), ih, yearLength]
      split
      case isTrue h =>
        unfold IsLeap at h
        omega
      case isFalse h =>
        unfold IsLeap at h
        omega

/-- The twelve months of a year add up. -/
theorem daysBeforeMonth_year (y : Nat) :
    daysBeforeMonth y 12 + monthLength y 12 = yearLength y := by
  simp only [daysBeforeMonth, monthLength, yearLength]
  split <;> rfl

theorem daysBeforeMonth_mono (y : Nat) {m n : Nat} (hmn : m < n) (hm : 1 ≤ m) :
    daysBeforeMonth y m + monthLength y m ≤ daysBeforeMonth y n := by
  induction n with
  | zero => omega
  | succ n ih =>
      rcases Nat.lt_or_ge m n with hlt | hge
      · have hn : 1 ≤ n := by omega
        have := ih hlt
        rw [daysBeforeMonth_succ y hn]
        omega
      · have hmn' : m = n := by omega
        have hlast := daysBeforeMonth_succ y hm
        rw [← hmn']
        omega

namespace Date

/-! ## Counting days -/

/-- **The next date is one day later.** -/
theorem dayNumber_next (d : Date) : d.next.dayNumber = d.dayNumber + 1 := by
  have hday := d.day_pos
  unfold next dayNumber
  split
  case isTrue =>
    simp only
    omega
  case isFalse hd =>
    have hlast : d.day = monthLength d.year d.month := by
      have := d.day_le
      omega
    split
    case isTrue =>
      simp only [daysBeforeMonth_succ d.year d.month_pos]
      omega
    case isFalse hm =>
      have hdec : d.month = 12 := by
        have := d.month_le
        omega
      have hyear := daysBeforeMonth_year d.year
      rw [hdec] at hlast
      simp only [daysBeforeYear_succ d.year_pos, hdec, daysBeforeMonth]
      simp only [daysBeforeMonth] at hyear
      omega

theorem dayNumber_first : first.dayNumber = 0 := rfl

/-- Every day from 0001-01-01 on has a date. -/
theorem exists_dayNumber (n : Nat) : ∃ d : Date, d.dayNumber = n := by
  induction n with
  | zero => exact ⟨first, dayNumber_first⟩
  | succ n ih =>
      obtain ⟨d, rfl⟩ := ih
      exact ⟨d.next, d.dayNumber_next⟩

/-- Where a date lies in its year. -/
theorem dayOfYear_lt (d : Date) :
    daysBeforeMonth d.year d.month + (d.day - 1) < yearLength d.year := by
  have hpos := d.day_pos
  have hle := d.day_le
  have hyear := daysBeforeMonth_year d.year
  rcases Nat.lt_or_ge d.month 12 with hlt | hge
  · have := daysBeforeMonth_mono d.year hlt d.month_pos
    have := monthLength_pos d.year 12
    omega
  · have hdec : d.month = 12 := Nat.le_antisymm d.month_le hge
    rw [hdec] at hle ⊢
    omega

theorem daysBeforeYear_mono {y z : Nat} (hyz : y < z) (hy : 1 ≤ y) :
    daysBeforeYear y + yearLength y ≤ daysBeforeYear z := by
  induction z with
  | zero => omega
  | succ z ih =>
      rcases Nat.lt_or_ge y z with hlt | hge
      · have hz : 1 ≤ z := by omega
        have := ih hlt
        rw [daysBeforeYear_succ hz]
        omega
      · have hyz' : y = z := by omega
        have hlast := daysBeforeYear_succ hy
        rw [← hyz']
        omega

/-- The date order: year, then month, then day. -/
def Before (a b : Date) : Prop :=
  a.year < b.year ∨ a.year = b.year
    ∧ (a.month < b.month ∨ a.month = b.month ∧ a.day < b.day)

/-- **Earlier dates have smaller numbers.** -/
theorem dayNumber_lt {a b : Date} (h : a.Before b) : a.dayNumber < b.dayNumber := by
  have ha := a.dayOfYear_lt
  have hapos := a.day_pos
  have hbpos := b.day_pos
  unfold dayNumber
  rcases h with hy | ⟨hy, hm | ⟨hm, hd⟩⟩
  · have := daysBeforeYear_mono hy a.year_pos
    omega
  · have hmono := daysBeforeMonth_mono a.year hm a.month_pos
    have := a.day_le
    rw [← hy]
    omega
  · rw [← hy, ← hm]
    omega

theorem before_trichotomy (a b : Date) : a.Before b ∨ a = b ∨ b.Before a := by
  unfold Before
  rcases Nat.lt_trichotomy a.year b.year with hy | hy | hy
  · exact Or.inl (Or.inl hy)
  · rcases Nat.lt_trichotomy a.month b.month with hm | hm | hm
    · exact Or.inl (Or.inr ⟨hy, Or.inl hm⟩)
    · rcases Nat.lt_trichotomy a.day b.day with hd | hd | hd
      · exact Or.inl (Or.inr ⟨hy, Or.inr ⟨hm, hd⟩⟩)
      · exact Or.inr (Or.inl (ext' hy hm hd))
      · exact Or.inr (Or.inr (Or.inr ⟨hy.symm, Or.inr ⟨hm.symm, hd⟩⟩))
    · exact Or.inr (Or.inr (Or.inr ⟨hy.symm, Or.inl hm⟩))
  · exact Or.inr (Or.inr (Or.inl hy))

/-- **A day has one date.** -/
theorem dayNumber_injective {a b : Date} (h : a.dayNumber = b.dayNumber) : a = b := by
  rcases before_trichotomy a b with hab | hab | hab
  · have := dayNumber_lt hab
    omega
  · exact hab
  · have := dayNumber_lt hab
    omega

/-! ## Days of the week -/

/-- The day of the week, Sunday being 0; 0001-01-01 was a Monday. -/
def weekday (d : Date) : Nat := (d.dayNumber + 1) % 7

theorem weekday_next (d : Date) : d.next.weekday = (d.weekday + 1) % 7 := by
  rw [weekday, weekday, dayNumber_next]
  omega

end Date

end Gregorian
