import Ats.Base.Datetime

/-!
# Days: `datetime_from_ymd` on the calendar and beyond it

On dates of the calendar `datetime_from_ymd` counts days. A month out of
range is carried to the year; the day of the year then passes through a
`uint16_t`, which is where large days are lost.
-/

namespace Ats

open Gregorian

/-! ## Counting days -/

/-- `datetime_from_ymd` of a date. -/
def datetimeOfDate (d : Date) : Nat := datetimeFromYmd d.year d.month d.day

theorem datetimeOfDate_eq {d : Date} (hy : d.year ≤ 65535) (hd : d.dayNumber < 2 ^ 27) :
    datetimeOfDate d = d.dayNumber * ticksPerDay := by
  rw [datetimeOfDate, datetimeFromYmd, ymdToRdn_date d hy]
  unfold u64 ticksPerDay
  omega

/-- Up to the end of the year 9999. -/
theorem datetimeOfDate_of_year {d : Date} (hy : d.year ≤ 9999) :
    datetimeOfDate d = d.dayNumber * ticksPerDay := by
  have hlt := (dayNumber_lt_iff d).mp hy
  exact datetimeOfDate_eq (by omega) (by omega)

/-- The day after a date up to 9999-12-31, also the one that ends it. -/
theorem datetimeOfDate_next {d : Date} (hy : d.year ≤ 9999) :
    datetimeOfDate d.next = datetimeOfDate d + ticksPerDay := by
  have hlt := (dayNumber_lt_iff d).mp hy
  have hnext := d.dayNumber_next
  have hyear : d.next.year ≤ d.year + 1 := by
    unfold Date.next
    split_ifs <;> simp
  rw [datetimeOfDate_eq (by omega) (by omega), datetimeOfDate_of_year hy, hnext, Nat.add_mul,
    Nat.one_mul]

theorem before_iff {a b : Date} : a.Before b ↔ a.dayNumber < b.dayNumber := by
  constructor
  · exact Date.dayNumber_lt
  · intro hlt
    rcases Date.before_trichotomy a b with hab | rfl | hba
    · exact hab
    · exact absurd hlt (Nat.lt_irrefl _)
    · exact absurd hlt (Nat.lt_asymm (Date.dayNumber_lt hba))

/-- **`datetime_from_ymd` counts proleptic Gregorian days**: it starts at
`MIN_DATE_TIME`, goes up by one day from each date to the next, so keeps the
order of dates, and meets the constants of the header. -/
theorem datetimeFromYmd_counts :
    datetimeFromYmd 1 1 1 = minDateTime
    ∧ (∀ d : Date, d.year ≤ 9999 →
      datetimeFromYmd d.next.year d.next.month d.next.day
        = datetimeFromYmd d.year d.month d.day + ticksPerDay)
    ∧ (∀ a b : Date, a.year ≤ 9999 → b.year ≤ 9999 →
      (a.Before b ↔ datetimeFromYmd a.year a.month a.day < datetimeFromYmd b.year b.month b.day))
    ∧ datetimeFromYmd 1970 1 1 = epochDateTime
    ∧ datetimeFromYmd 9999 12 31 + datetimeFromHmsu 23 59 59 999999 = maxDateTime := by
  refine ⟨by decide, fun d hy => datetimeOfDate_next hy, fun a b ha hb => ?_, by decide,
    by decide⟩
  change _ ↔ datetimeOfDate a < datetimeOfDate b
  rw [datetimeOfDate_of_year ha, datetimeOfDate_of_year hb, before_iff]
  exact (Nat.mul_lt_mul_right (show 0 < ticksPerDay by decide)).symm

/-- 2000-02-28 and 9999-12-31, the days before a leap day and before the year
10000. -/
def leapEve : Date := .ofYmd 2000 2 28 (by decide)

def lastDate : Date := .ofYmd 9999 12 31 (by decide)

theorem datetimeFromYmd_counts_leap :
    datetimeFromYmd leapEve.next.year leapEve.next.month leapEve.next.day
        = datetimeFromYmd leapEve.year leapEve.month leapEve.day + ticksPerDay
      ∧ (leapEve.Before lastDate ↔ datetimeFromYmd leapEve.year leapEve.month leapEve.day
        < datetimeFromYmd lastDate.year lastDate.month lastDate.day) :=
  ⟨datetimeFromYmd_counts.2.1 leapEve (by decide),
    datetimeFromYmd_counts.2.2.1 leapEve lastDate (by decide) (by decide)⟩

/-! ## Carrying months and days -/

/-- The block of `ymd_to_rdn` for a month out of range, where a computed year
is put away by `store`; the month is at most 12 then. -/
def ymdCarryVia (store : Int → Option Nat) (y m : Nat) : Option (Nat × Nat) :=
  if m < 1 ∨ m > 12 then do
    let y ← store (y + (m / 12 : Nat))
    let m := m % 12
    if m < 1 then do
      let y ← store (y - 1)
      pure (y, m + 12)
    else pure (y, m)
  else pure (y, m)

/-- `ymd_to_rdn` with `yd_to_rdn`, where every `uint16_t` that is computed is
put away by `store`. -/
def ymdToRdnVia (store : Int → Option Nat) (y m d : Nat) : Option Nat := do
  let (y, m) ← ymdCarryVia store y m
  let d ← store (daysPrecedingMonth y m + d - 1)
  let y ← store (y - 1)
  pure (u32 (365 * y + y / 4 - y / 100 + y / 400 + d))

/-- What a `uint16_t` makes of a number. -/
def wrapping16 (z : Int) : Option Nat := some (z % 2 ^ 16).toNat

/-- A number that a `uint16_t` can hold. -/
def exact16 (z : Int) : Option Nat := if 0 ≤ z ∧ z < 2 ^ 16 then some z.toNat else none

/-- No 16-bit intermediate of `datetime_from_ymd` wraps. -/
def NoWrap16 (y m d : Nat) : Prop := (ymdToRdnVia exact16 y m d).isSome

/-- The year normalised by the month; month 0 is December of the year before. -/
def normalYear (y m : Nat) : Int := y + ((m : Int) - 1) / 12

def normalMonth (m : Nat) : Nat := (((m : Int) - 1) % 12 + 1).toNat

theorem normalMonth_bounds (m : Nat) : 1 ≤ normalMonth m ∧ normalMonth m ≤ 12 := by
  unfold normalMonth
  omega

theorem normal_of_le {y m : Nat} (h1 : 1 ≤ m) (h12 : m ≤ 12) :
    normalYear y m = y ∧ normalMonth m = m := by
  unfold normalYear normalMonth
  omega

theorem exact16_of_eq {z : Int} {n : Nat} (h : z = n) :
    exact16 z = if n < 2 ^ 16 then some n else none := by
  subst h
  rw [exact16, Int.toNat_natCast]
  exact if_congr (by omega) rfl rfl

/-- Of `yd_to_rdn` only the day of the year can wrap. -/
theorem dayOfYear_exact_iff {year month d : Nat} (hd : 1 ≤ d) (h1 : 1 ≤ year)
    (hle : year ≤ 65535) :
    (do
      let d ← exact16 (daysPrecedingMonth year month + d - 1)
      let y ← exact16 (year - 1)
      pure (u32 (365 * y + y / 4 - y / 100 + y / 400 + d)) : Option Nat).isSome
    ↔ daysPrecedingMonth year month + (d - 1) < 2 ^ 16 := by
  rw [exact16_of_eq (n := daysPrecedingMonth year month + (d - 1)) (by omega),
    exact16_of_eq (n := year - 1) (by omega), if_pos (show year - 1 < 2 ^ 16 by omega)]
  split
  case isTrue hlt => exact iff_of_true rfl hlt
  case isFalse hlt => exact iff_of_false Bool.false_ne_true hlt

/-! ### The three cases of the month -/

theorem ymdCarryVia_in (store : Int → Option Nat) {y m : Nat} (h1 : 1 ≤ m) (h12 : m ≤ 12) :
    ymdCarryVia store y m = some (y, m) := by
  rw [ymdCarryVia, if_neg (by omega)]
  rfl

/-- A multiple of twelve: the year goes one too far and back. -/
theorem ymdCarryVia_twelve (store : Int → Option Nat) {y m : Nat} (hout : m < 1 ∨ m > 12)
    (hm : m % 12 = 0) :
    ymdCarryVia store y m = (store (y + (m / 12 : Nat))).bind fun y =>
      (store (y - 1)).map fun y => (y, 12) := by
  simp only [ymdCarryVia, if_pos hout, hm, Option.map_eq_bind]
  rfl

theorem ymdCarryVia_out (store : Int → Option Nat) {y m : Nat} (hout : m > 12)
    (hm : m % 12 ≠ 0) :
    ymdCarryVia store y m = (store (y + (m / 12 : Nat))).map fun y => (y, m % 12) := by
  have hlow : ¬ m % 12 < 1 := by omega
  simp only [ymdCarryVia, if_pos (Or.inr hout), if_neg hlow, Option.map_eq_bind]
  rfl

/-- The normalisation of `ymd_to_rdn`, in three cases. -/
theorem month_split (m : Nat) :
    (1 ≤ m ∧ m ≤ 12) ∨ ((m < 1 ∨ m > 12) ∧ m % 12 = 0) ∨ (m > 12 ∧ m % 12 ≠ 0) := by
  omega

/-- `ymd_to_rdn` is the version whose stores wrap. -/
theorem ymdToRdnVia_wrapping (y m d : Nat) :
    ymdToRdnVia wrapping16 y m d = some (ymdToRdn y m d) := by
  have hadd : ((y : Int) + (m / 12 : Nat)) % 2 ^ 16 = (u16 (y + m / 12) : Nat) := by
    unfold u16
    omega
  have hpred : ∀ z : Nat, (((z : Int) - 1) % 2 ^ 16).toNat = u16 (z + 2 ^ 16 - 1) := by
    intro z
    unfold u16
    omega
  have hday : ∀ z : Nat, (((z : Int) + d - 1) % 2 ^ 16).toNat = u16 (z + d + 2 ^ 16 - 1) := by
    intro z
    unfold u16
    omega
  have hcarry : ymdCarryVia wrapping16 y m = some (ymdCarry y m) := by
    rw [ymdCarry]
    rcases month_split m with ⟨h1, h12⟩ | ⟨hout, hm⟩ | ⟨hout, hm⟩
    · rw [ymdCarryVia_in _ h1 h12, if_neg (by omega)]
    · rw [ymdCarryVia_twelve _ hout hm, if_pos hout]
      simp only [wrapping16, hadd, Option.bind_some, Option.map_some, Int.toNat_natCast, hpred,
        hm, Nat.zero_add]
      rfl
    · rw [ymdCarryVia_out _ hout hm, if_pos (Or.inr hout)]
      simp only [wrapping16, hadd, Option.map_some, Int.toNat_natCast,
        if_neg (show ¬ m % 12 < 1 by omega)]
  rw [ymdToRdnVia, hcarry]
  simp only [Option.bind_eq_bind, Option.bind_some, wrapping16, hday, hpred]
  rfl

/-- The carry normalises: for a year that fits, whatever wraps in between. -/
theorem ymdCarry_normal {y m : Nat} (hn : 1 ≤ normalYear y m) (hn' : normalYear y m ≤ 65535) :
    ymdCarry y m = ((normalYear y m).toNat, normalMonth m) := by
  unfold normalYear at *
  rw [ymdCarry, normalMonth]
  rcases month_split m with ⟨h1, h12⟩ | ⟨hout, hm⟩ | ⟨hout, hm⟩
  · rw [if_neg (by omega)]
    exact Prod.ext (by simp only; omega) (by simp only; omega)
  · rw [if_pos hout]
    simp only [if_pos (show m % 12 < 1 by omega)]
    unfold u16
    exact Prod.ext (by simp only; omega) (by simp only; omega)
  · rw [if_pos (Or.inr hout)]
    simp only [if_neg (show ¬ m % 12 < 1 by omega)]
    unfold u16
    exact Prod.ext (by simp only; omega) (by simp only; omega)

/-! ### What is stored -/

theorem daysPrecedingMonth_le {y m : Nat} (h1 : 1 ≤ m) (h12 : m ≤ 12) :
    daysPrecedingMonth y m ≤ 335 := by
  rw [daysPrecedingMonth_eq h1 h12]
  exact daysBeforeMonth_le h1 h12

/-- `yd_to_rdn` in a year that fits. -/
theorem ydToRdn_eq {y n : Nat} (h1 : 1 ≤ y) (hy : y ≤ 65535) (hn : n < 2 ^ 16) :
    ydToRdn y n = daysBeforeYear y + n := by
  have hbefore : daysBeforeYear y
      = 365 * (y - 1) + (y - 1) / 4 - (y - 1) / 100 + (y - 1) / 400 := by
    rw [← daysBeforeYear_eq, Nat.sub_add_cancel h1]
  have hpred : u16 (y + 2 ^ 16 - 1) = y - 1 := by
    unfold u16
    omega
  simp only [ydToRdn, hpred, hbefore, u32]
  omega

section Carry

variable {y m d : Nat} (hn : 1 ≤ normalYear y m) (hn' : normalYear y m ≤ 65535)
include hn hn'

/-- **What is computed**: the day of the year is cut to 16 bits. -/
theorem datetimeFromYmd_eq (hd : 1 ≤ d) :
    datetimeFromYmd y m d = (daysBeforeYear (normalYear y m).toNat
      + u16 (daysPrecedingMonth (normalYear y m).toNat (normalMonth m) + (d - 1)))
        * ticksPerDay := by
  have hcut : u16 (daysPrecedingMonth (normalYear y m).toNat (normalMonth m) + d + 2 ^ 16 - 1)
      = u16 (daysPrecedingMonth (normalYear y m).toNat (normalMonth m) + (d - 1)) := by
    unfold u16
    omega
  generalize hy : (normalYear y m).toNat = year at *
  have h1 : 1 ≤ year := by omega
  have hyear : year ≤ 65535 := by omega
  have hbefore := daysBeforeYear_eq (year - 1)
  rw [Nat.sub_add_cancel h1] at hbefore
  have hlt : ∀ n, u16 n < 2 ^ 16 := fun n => Nat.mod_lt n (by decide)
  have hn16 := hlt (daysPrecedingMonth year (normalMonth m) + (d - 1))
  rw [datetimeFromYmd, ymdToRdn, ymdCarry_normal hn hn', hy]
  simp only [hcut, ydToRdn_eq h1 hyear hn16]
  unfold u64 ticksPerDay
  omega

/-- The first day of the month needs no cut. -/
theorem datetimeFromYmd_first :
    datetimeFromYmd (normalYear y m).toNat (normalMonth m) 1
      = (daysBeforeYear (normalYear y m).toNat
        + daysPrecedingMonth (normalYear y m).toNat (normalMonth m)) * ticksPerDay := by
  obtain ⟨h1, h12⟩ := normalMonth_bounds m
  obtain ⟨hyear, hmonth⟩ := normal_of_le (y := (normalYear y m).toNat) h1 h12
  have hle := daysPrecedingMonth_le (y := (normalYear y m).toNat) h1 h12
  have hcut : u16 (daysPrecedingMonth (normalYear y m).toNat (normalMonth m) + (1 - 1))
      = daysPrecedingMonth (normalYear y m).toNat (normalMonth m) := by
    unfold u16
    omega
  rw [datetimeFromYmd_eq (by omega) (by omega) (Nat.le_refl 1), hyear, hmonth, Int.toNat_natCast,
    hcut]

/-- The day of the year is what must fit. -/
theorem carried_iff (hd : 1 ≤ d) :
    datetimeFromYmd y m d = datetimeFromYmd (normalYear y m).toNat (normalMonth m) 1
        + (d - 1) * ticksPerDay
      ↔ daysPrecedingMonth (normalYear y m).toNat (normalMonth m) + (d - 1) < 2 ^ 16 := by
  rw [datetimeFromYmd_eq hn hn' hd, datetimeFromYmd_first hn hn', ← Nat.add_mul,
    Nat.mul_left_inj (show ticksPerDay ≠ 0 by decide)]
  unfold u16
  omega

/-- Which intermediates wrap. -/
theorem noWrap16_iff (hy : y < 2 ^ 16) (hd : 1 ≤ d) :
    NoWrap16 y m d ↔ (m ≤ 12 ∨ y + m / 12 < 2 ^ 16)
      ∧ daysPrecedingMonth (normalYear y m).toNat (normalMonth m) + (d - 1) < 2 ^ 16 := by
  rw [NoWrap16, ymdToRdnVia]
  rcases month_split m with ⟨h1, h12⟩ | ⟨hout, hm⟩ | ⟨hout, hm⟩
  · obtain ⟨hyear, hmonth⟩ := normal_of_le (y := y) h1 h12
    rw [ymdCarryVia_in _ h1 h12, hyear, hmonth, Int.toNat_natCast, and_iff_right (Or.inl h12)]
    exact dayOfYear_exact_iff hd (by omega) (by omega)
  · have hyear : (normalYear y m).toNat = y + m / 12 - 1 ∧ normalMonth m = 12 := by
      unfold normalYear normalMonth at *
      omega
    have hpos : 1 ≤ y + m / 12 - 1 ∧ y + m / 12 - 1 ≤ 65535 := by omega
    rw [ymdCarryVia_twelve _ hout hm, hyear.1, hyear.2, exact16_of_eq (n := y + m / 12) (by omega)]
    by_cases hfit : y + m / 12 < 2 ^ 16
    · rw [if_pos hfit, Option.bind_some, exact16_of_eq (n := y + m / 12 - 1) (by omega),
        if_pos (by omega), and_iff_right (Or.inr hfit)]
      exact dayOfYear_exact_iff hd hpos.1 hpos.2
    · rw [if_neg hfit]
      refine iff_of_false Bool.false_ne_true fun h => ?_
      rcases h.1 with hle | hlt
      · omega
      · exact hfit hlt
  · have hyear : (normalYear y m).toNat = y + m / 12 ∧ normalMonth m = m % 12 := by
      unfold normalYear normalMonth at *
      omega
    have hpos : 1 ≤ y + m / 12 ∧ y + m / 12 ≤ 65535 := by omega
    rw [ymdCarryVia_out _ hout hm, hyear.1, hyear.2, exact16_of_eq (n := y + m / 12) (by omega),
      if_pos (by omega), and_iff_right (Or.inr (by omega))]
    exact dayOfYear_exact_iff hd hpos.1 hpos.2

end Carry

/-- **Out-of-range months and days are carried** while the day of the year
fits 16 bits; the year may go one too far in between and come back. -/
theorem datetimeFromYmd_carries (y m d : Nat) (hy : y < 2 ^ 16) (hd : 1 ≤ d)
    (hn : 1 ≤ normalYear y m) (hn' : normalYear y m ≤ 65535) :
    (datetimeFromYmd y m d = datetimeFromYmd (normalYear y m).toNat (normalMonth m) 1
          + (d - 1) * ticksPerDay ∧ NoWrap16 y m d
        ↔ (m ≤ 12 ∨ y + m / 12 < 2 ^ 16)
          ∧ daysPrecedingMonth (normalYear y m).toNat (normalMonth m) + (d - 1) < 2 ^ 16)
      ∧ (datetimeFromYmd y m d = datetimeFromYmd (normalYear y m).toNat (normalMonth m) 1
          + (d - 1) * ticksPerDay
        ↔ daysPrecedingMonth (normalYear y m).toNat (normalMonth m) + (d - 1) < 2 ^ 16) := by
  have hiff := carried_iff hn hn' hd
  refine ⟨?_, hiff⟩
  rw [hiff, noWrap16_iff hn hn' hy hd]
  exact and_iff_right_of_imp And.right

/-- Month 24 of the year 1 is December of the year 2. -/
theorem datetimeFromYmd_carries_twelve :
    (datetimeFromYmd 1 24 40 = datetimeFromYmd (normalYear 1 24).toNat (normalMonth 24) 1
          + (40 - 1) * ticksPerDay ∧ NoWrap16 1 24 40
        ↔ (24 ≤ 12 ∨ 1 + 24 / 12 < 2 ^ 16)
          ∧ daysPrecedingMonth (normalYear 1 24).toNat (normalMonth 24) + (40 - 1) < 2 ^ 16)
      ∧ (datetimeFromYmd 1 24 40 = datetimeFromYmd (normalYear 1 24).toNat (normalMonth 24) 1
          + (40 - 1) * ticksPerDay
        ↔ daysPrecedingMonth (normalYear 1 24).toNat (normalMonth 24) + (40 - 1) < 2 ^ 16) :=
  datetimeFromYmd_carries 1 24 40 (by decide) (by decide) (by decide) (by decide)

/-- 334 days before December and 65535 more do not fit 16 bits. -/
theorem datetimeFromYmd_loses_days :
    datetimeFromYmd 1 12 65535 = datetimeFromYmd 1 12 1 - 2 * ticksPerDay
      ∧ ¬ ∀ y < 2 ^ 16, ∀ m < 2 ^ 16, ∀ d < 2 ^ 16, 1 ≤ d → 1 ≤ normalYear y m →
        normalYear y m ≤ 65535 →
        datetimeFromYmd y m d = datetimeFromYmd (normalYear y m).toNat (normalMonth m) 1
          + (d - 1) * ticksPerDay ∧ NoWrap16 y m d := by
  have hlost : datetimeFromYmd 1 12 65535 = datetimeFromYmd 1 12 1 - 2 * ticksPerDay := by decide
  refine ⟨hlost, fun h => ?_⟩
  have hclaim := (h 1 (by decide) 12 (by decide) 65535 (by decide) (by decide) (by decide)
    (by decide)).1
  exact absurd hclaim (by decide)

end Ats
