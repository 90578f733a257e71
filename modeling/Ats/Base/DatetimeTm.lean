import Ats.Base.DatetimeDays

/-!
# Broken-down time: `datetime_to_tm`

The fields of a `struct tm` against the calendar. The seconds since the epoch
follow from them; the day of the week is off by one throughout.
-/

namespace Ats

open Gregorian

/-- The fields of `struct tm` that `datetime_to_tm` writes. -/
structure Tm where
  sec : Int
  min : Int
  hour : Int
  mday : Int
  mon : Int
  year : Int
  wday : Int
  yday : Int
deriving DecidableEq, Repr

/-- `datetime_to_tm`; `none` where it returns 1. -/
def datetimeToTm (dt : Nat) : Option Tm :=
  if dt < u64 (dt + 2 ^ 64 - epochDateTime) then none
  else
    let rdn := u32 (dt / ticksPerDay)
    let sod := u32 (dt % ticksPerDay / ticksPerSecond)
    let ymd := rdnToYmd rdn
    some {
      mday := ymd.day
      yday := (ymd.yday : Int) - 1
      mon := (ymd.month : Int) - 1
      year := (ymd.year : Int) - 1900
      wday := (rdn % 7 : Nat)
      sec := (sod % 60 : Nat)
      min := (sod / 60 % 60 : Nat)
      hour := (sod / 60 / 60 : Nat) }

/-- The test on the wrapped difference is the test for a time before 1970. -/
theorem datetimeToTm_guard {dt : Nat} (hdt : dt ≤ maxDateTime) :
    dt < u64 (dt + 2 ^ 64 - epochDateTime) ↔ dt < epochDateTime := by
  unfold u64 epochDateTime maxDateTime at *
  omega

/-- **The fields** of a day and a time of the day. -/
theorem datetimeToTm_date (d : Date) (hy : d.year ≤ 9999) {r : Nat} (hr : r < 86400000000)
    (hepoch : epochDateTime ≤ d.dayNumber * 86400000000 + r) :
    datetimeToTm (d.dayNumber * 86400000000 + r) = some {
      mday := d.day
      yday := (daysBeforeMonth d.year d.month + d.day : Nat) - 1
      mon := (d.month : Int) - 1
      year := (d.year : Int) - 1900
      wday := (d.dayNumber % 7 : Nat)
      sec := (r / 1000000 % 60 : Nat)
      min := (r / 1000000 / 60 % 60 : Nat)
      hour := (r / 1000000 / 60 / 60 : Nat) } := by
  have hlt := (dayNumber_lt_iff d).mp hy
  have hmax : d.dayNumber * 86400000000 + r ≤ maxDateTime := by
    unfold maxDateTime
    omega
  have hdiv : u32 ((d.dayNumber * 86400000000 + r) / ticksPerDay) = d.dayNumber := by
    unfold u32 ticksPerDay
    omega
  have hsod : u32 ((d.dayNumber * 86400000000 + r) % ticksPerDay / ticksPerSecond)
      = r / 1000000 := by
    unfold u32 ticksPerDay ticksPerSecond
    omega
  have hguard := (datetimeToTm_guard hmax).not.mpr (Nat.not_lt.mpr hepoch)
  rw [datetimeToTm, if_neg hguard]
  simp only [hdiv, hsod, rdnToYmd_date d hy]

/-- The fields name a date of the calendar. -/
structure Tm.OnDate (tm : Tm) (d : Date) : Prop where
  year : tm.year + 1900 = d.year
  mon : tm.mon + 1 = d.month
  mday : tm.mday = d.day

/-- The seconds since the epoch, as POSIX gives them. -/
def Tm.posixSeconds (tm : Tm) : Int :=
  tm.sec + 60 * tm.min + 3600 * tm.hour + 86400 * tm.yday + 31536000 * (tm.year - 70)
    + 86400 * ((tm.year - 69) / 4 - (tm.year - 1) / 100 + (tm.year + 299) / 400)

/-- What `datetime_to_tm` promises of its fields. -/
structure Tm.Posix (tm : Tm) (dt : Nat) : Prop where
  seconds : tm.posixSeconds = ((dt - epochDateTime) / 10 ^ 6 : Nat)
  sec : 0 ≤ tm.sec ∧ tm.sec < 60
  min : 0 ≤ tm.min ∧ tm.min < 60
  hour : 0 ≤ tm.hour ∧ tm.hour < 24
  date : ∃ d : Date, tm.OnDate d ∧ tm.yday = (daysBeforeMonth d.year d.month + (d.day - 1) : Nat)

/-- No date before 1970 has a day number from 719162 on. -/
theorem year_ge_of_epoch {d : Date} (h : 719162 ≤ d.dayNumber) : 1970 ≤ d.year := by
  by_contra hc
  have hlt := d.dayOfYear_lt
  have hmono := Date.daysBeforeYear_mono (show d.year < 1970 by omega) d.year_pos
  have hend : daysBeforeYear 1970 = 719162 := daysBeforeYear_eq 1969
  unfold Date.dayNumber at h
  omega

/-- **`datetime_to_tm` satisfies the POSIX formula.** -/
theorem datetimeToTm_posix (dt : Nat) (hdt : dt ≤ maxDateTime) :
    (datetimeToTm dt = none ↔ dt < epochDateTime)
      ∧ ∀ tm, datetimeToTm dt = some tm → tm.Posix dt := by
  by_cases hlt : dt < epochDateTime
  · have hnone : datetimeToTm dt = none := if_pos ((datetimeToTm_guard hdt).mpr hlt)
    refine ⟨iff_of_true hnone hlt, fun tm htm => ?_⟩
    rw [hnone] at htm
    cases htm
  · obtain ⟨d, r, hy, hr, rfl⟩ := exists_date hdt
    have hepoch := Nat.not_lt.mp hlt
    rw [datetimeToTm_date d hy hr hepoch]
    refine ⟨iff_of_false (fun hc => by cases hc) hlt, fun tm htm => ?_⟩
    cases htm
    have hday := d.day_pos
    have hnum : 719162 ≤ d.dayNumber := by
      unfold epochDateTime at hepoch
      omega
    have hyear := year_ge_of_epoch hnum
    have hbefore := daysBeforeYear_eq (d.year - 1)
    rw [Nat.sub_add_cancel d.year_pos] at hbefore
    refine ⟨?_, ?_, ?_, ?_, d, ⟨?_, ?_, rfl⟩, ?_⟩
    · -- the leap days since 1970, counted from there and from the year 1
      have hsplit : d.dayNumber
          = daysBeforeYear d.year + (daysBeforeMonth d.year d.month + (d.day - 1)) :=
        Nat.add_assoc _ _ _
      unfold Tm.posixSeconds epochDateTime
      simp only
      omega
    all_goals
      simp only
      omega

/-- The epoch itself. -/
theorem datetimeToTm_posix_epoch :
    (datetimeToTm epochDateTime = none ↔ epochDateTime < epochDateTime)
      ∧ ∀ tm, datetimeToTm epochDateTime = some tm → tm.Posix epochDateTime :=
  datetimeToTm_posix epochDateTime (by decide)

/-! ## The day of the week -/

/-- 1970-01-01 -/
def epochDate : Date := .ofYmd 1970 1 1 (by decide)

/-- `tm_wday` is the weekday of the day before. -/
theorem datetimeToTm_wday {dt : Nat} (hdt : dt ≤ maxDateTime) (hepoch : epochDateTime ≤ dt) :
    ∃ tm d, datetimeToTm dt = some tm ∧ tm.OnDate d ∧ (tm.wday + 1) % 7 = d.weekday := by
  obtain ⟨d, r, hy, hr, rfl⟩ := exists_date hdt
  refine ⟨_, d, datetimeToTm_date d hy hr hepoch, ⟨?_, ?_, rfl⟩, ?_⟩
  · simp only
    omega
  · simp only
    omega
  · unfold Date.weekday
    simp only
    omega

/-- **`tm_wday` is wrong on every day.** 1970-01-01 is a Thursday and the days
of the week follow in turn, but `datetime_to_tm` takes a day number that
starts with a Monday for one that starts with a Sunday. -/
theorem datetimeToTm_wday_never (dt : Nat) (hepoch : epochDateTime ≤ dt) (hdt : dt ≤ maxDateTime) :
    (∃ tm d, datetimeToTm dt = some tm ∧ tm.OnDate d ∧ tm.wday ≠ d.weekday)
      ∧ epochDate.weekday = 4 ∧ ∀ d : Date, d.next.weekday = (d.weekday + 1) % 7 := by
  refine ⟨?_, by decide +kernel, Date.weekday_next⟩
  obtain ⟨tm, d, htm, hd, hwday⟩ := datetimeToTm_wday hdt hepoch
  refine ⟨tm, d, htm, hd, fun hc => ?_⟩
  omega

/-- The last datetime, on a Friday. -/
theorem datetimeToTm_wday_never_last :
    (∃ tm d, datetimeToTm maxDateTime = some tm ∧ tm.OnDate d ∧ tm.wday ≠ d.weekday)
      ∧ epochDate.weekday = 4 ∧ ∀ d : Date, d.next.weekday = (d.weekday + 1) % 7 :=
  datetimeToTm_wday_never maxDateTime (by decide) (by decide)

/-- The epoch is given as a Wednesday. -/
theorem datetimeToTm_epoch_wednesday :
    datetimeToTm epochDateTime = some ⟨0, 0, 0, 1, 0, 70, 3, 0⟩ ∧ epochDate.weekday = 4
      ∧ ¬ ∀ dt, epochDateTime ≤ dt → dt ≤ maxDateTime → ∀ tm, datetimeToTm dt = some tm →
        ∀ d : Date, tm.OnDate d → tm.wday = d.weekday := by
  have htm : datetimeToTm epochDateTime = some ⟨0, 0, 0, 1, 0, 70, 3, 0⟩ := by decide +kernel
  have hweek : epochDate.weekday = 4 := by decide +kernel
  refine ⟨htm, hweek, fun h => ?_⟩
  have hclaim := h epochDateTime (Nat.le_refl _) (by decide) _ htm epochDate ⟨rfl, rfl, rfl⟩
  rw [hweek] at hclaim
  exact absurd hclaim (by decide)

end Ats
