import Ats.Base.DatetimeDays
import Ats.Base.DatetimeParse

/-!
# Range: the value of an accepted text

The zone is subtracted after every check, so a text of the first or the last
day of the range may lie outside it.
-/

namespace Ats

open Scan Gregorian

namespace IsoText

/-- The microseconds from midnight. -/
def timeOfDay (t : IsoText) : Nat :=
  (t.header.hour * 3600 + t.header.minute * 60 + t.header.second) * 1000000 + usec t.fraction

/-- The civil time less the zone offset, in microseconds since 0001-01-01. -/
def instant (t : IsoText) : Int :=
  (daysBeforeYear t.header.year + daysBeforeMonth t.header.year t.header.month
      + (t.header.day - 1) : Nat) * 86400000000 + t.timeOfDay - t.zone.ticks

/-- On the first day the zone takes off at most the time of the day, and on
the last one it adds less than what is left of it. -/
def ZoneKeepsRange (t : IsoText) : Prop :=
  (t.header.year = 1 ∧ t.header.month = 1 ∧ t.header.day = 1 → t.zone.ticks ≤ t.timeOfDay)
  ∧ (t.header.year = 9999 ∧ t.header.month = 12 ∧ t.header.day = 31 →
    (t.timeOfDay : Int) - t.zone.ticks < 86400000000)

/-! ## The parts of the value -/

variable {t : IsoText}

theorem number_lt {ds : List Nat} (hds : ∀ d ∈ ds, d < 10) (hlen : ds.length ≤ 9) :
    number ds < 10 ^ ds.length := by
  obtain ⟨heq, hlt⟩ := digitsNsec_eq hds (show 0 < 10 ^ 0 by decide) (by omega)
  rwa [heq, Nat.zero_add] at hlt

/-- A fraction is less than a second. -/
theorem usec_lt {ds : List Nat} (hds : ∀ d ∈ ds, d < 10) (hlen : ds.length ≤ 9) :
    usec ds < 1000000 := by
  unfold usec
  apply Nat.div_lt_of_lt_mul
  exact Nat.mul_lt_mul_of_pos_right (number_lt hds hlen) (by decide)

theorem Valid.timeOfDay_lt (ht : t.Valid) : t.timeOfDay < 86400000000 := by
  have husec := usec_lt ht.fraction_digit ht.fraction_length
  have hhour := ht.header.hour_le
  have hminute := ht.header.minute_le
  have hsecond := ht.header.second_le
  unfold timeOfDay
  omega

/-- A zone is less than a day away. -/
theorem ticks_bounds {z : IsoZone} (hz : z.Valid) :
    -86400000000 < z.ticks ∧ z.ticks < 86400000000 := by
  cases z with
  | utc letter =>
    simp only [IsoZone.ticks]
    omega
  | offset sign hour minute =>
    obtain ⟨-, hhour, hminute⟩ := hz
    simp only [IsoZone.ticks]
    split <;> omega

def Valid.date (ht : t.Valid) : Date :=
  ⟨t.header.year, t.header.month, t.header.day, ht.header.year_pos, ht.header.month_pos,
    ht.header.month_le, ht.header.day_pos, ht.header.day_le⟩

theorem Valid.instant_eq (ht : t.Valid) :
    t.instant = ht.date.dayNumber * 86400000000 + t.timeOfDay - t.zone.ticks := rfl

/-- **The parser's sum** has the value of the calendar. -/
theorem Valid.value_eq (ht : t.Valid) : t.value = t.instant := by
  have hdays := datetimeOfDate_of_year (d := ht.date) ht.header.year_le
  have htime := ht.timeOfDay_lt
  have hmicros : datetimeFromHmsu t.header.hour t.header.minute t.header.second
      (usec t.fraction) = t.timeOfDay :=
    Nat.mod_eq_of_lt (Nat.lt_trans htime (by decide))
  rw [value, hmicros, ht.instant_eq]
  change ((datetimeOfDate ht.date : Nat) : Int) + _ - _ = _
  rw [hdays]
  simp [ticksPerDay]

theorem dayNumber_eq_zero {d : Date} :
    d.dayNumber = 0 ↔ d.year = 1 ∧ d.month = 1 ∧ d.day = 1 := by
  constructor
  · intro h
    obtain rfl : d = Date.first := Date.dayNumber_injective h
    exact ⟨rfl, rfl, rfl⟩
  · rintro ⟨hy, hm, hd⟩
    have hfirst : d = Date.first := Date.ext' hy hm hd
    rw [hfirst]
    rfl

theorem dayNumber_lastDate : lastDate.dayNumber = 3652058 := by
  have hyear := daysBeforeYear_eq 9998
  simp only [Nat.reduceAdd] at hyear
  simp only [Date.dayNumber, lastDate, Date.ofYmd]
  rw [hyear]
  decide

theorem dayNumber_eq_last {d : Date} :
    d.dayNumber = 3652058 ↔ d.year = 9999 ∧ d.month = 12 ∧ d.day = 31 := by
  rw [← dayNumber_lastDate]
  constructor
  · intro h
    obtain rfl : d = lastDate := Date.dayNumber_injective h
    exact ⟨rfl, rfl, rfl⟩
  · rintro ⟨hy, hm, hd⟩
    have hlast : d = lastDate := Date.ext' hy hm hd
    rw [hlast]

/-- **The zone keeps the range** exactly when the instant lies in it. -/
theorem Valid.zoneKeepsRange_iff (ht : t.Valid) :
    t.ZoneKeepsRange ↔ (minDateTime : Int) ≤ t.instant ∧ t.instant ≤ maxDateTime := by
  have htime := ht.timeOfDay_lt
  obtain ⟨hlow, hhigh⟩ := ticks_bounds ht.zone
  have hdays := (dayNumber_lt_iff ht.date).mp ht.header.year_le
  have hfirst : ht.date.dayNumber = 0 ↔ _ := dayNumber_eq_zero
  have hlast : ht.date.dayNumber = 3652058 ↔ _ := dayNumber_eq_last
  rw [ht.instant_eq]
  change (_ → _) ∧ (_ → _) ↔ _
  rw [show (t.header.year = 1 ∧ t.header.month = 1 ∧ t.header.day = 1) ↔ _ from hfirst.symm,
    show (t.header.year = 9999 ∧ t.header.month = 12 ∧ t.header.day = 31) ↔ _ from hlast.symm]
  unfold minDateTime maxDateTime
  omega

end IsoText

/-! ## What is accepted -/

/-- **An accepted text has a legal datetime**, its instant, exactly when its
zone keeps it in the range. -/
theorem datetimeFromIso8601_legal_iff {mem : Nat → Option UInt8} {s : List UInt8} {dt : Nat}
    (out : Nat) (hs : Holds mem 0 s) (hret : datetimeFromIso8601 mem s.length out = some (0, dt)) :
    (∃ t : IsoText, t.Valid ∧ t.bytes = s)
      ∧ ∀ t : IsoText, t.Valid → t.bytes = s →
        ((minDateTime ≤ dt ∧ dt ≤ maxDateTime ∧ (dt : Int) = t.instant) ↔ t.ZoneKeepsRange) := by
  have hgives := gives_of_accepted hret
  obtain ⟨t₀, ht₀, hheld₀, hlen₀, -⟩ := gives_isoParse.mp hgives
  refine ⟨⟨t₀, ht₀, hheld₀.unique hs hlen₀⟩, ?_⟩
  rintro t ht rfl
  have hvalue : Gives (isoParse mem t.bytes.length) (t.value % 2 ^ 64).toNat :=
    gives_isoParse.mpr ⟨t, ht, hs, rfl,
      Int.toNat_of_nonneg (Int.emod_nonneg _ (by decide))⟩
  have hdt : (dt : Int) = t.value % 2 ^ 64 := by
    rw [Option.some.inj (Option.some.inj (hgives.symm.trans hvalue))]
    exact Int.toNat_of_nonneg (Int.emod_nonneg _ (by decide))
  rw [ht.value_eq] at hdt
  rw [ht.zoneKeepsRange_iff]
  constructor
  · rintro ⟨hmin, hmax, heq⟩
    rw [← heq]
    exact ⟨Int.ofNat_le.mpr hmin, Int.ofNat_le.mpr hmax⟩
  · rintro ⟨hmin, hmax⟩
    have hsame : (dt : Int) = t.instant := by
      rw [hdt]
      unfold minDateTime maxDateTime at *
      omega
    rw [← hsame] at hmin hmax
    exact ⟨Int.ofNat_le.mp hmin, Int.ofNat_le.mp hmax, hsame⟩

/-- `2013-12-31T23:59:59-01:30` -/
def yearEndText : IsoText :=
  ⟨⟨2013, 12, 31, ascii 'T', 23, 59, 59⟩, [], .offset (ascii '-') 1 30⟩

theorem datetimeFromIso8601_legal_yearEnd :
    (∃ t : IsoText, t.Valid ∧ t.bytes = yearEndText.bytes)
      ∧ ∀ t : IsoText, t.Valid → t.bytes = yearEndText.bytes →
        ((minDateTime ≤ 63524136599000000 ∧ 63524136599000000 ≤ maxDateTime
          ∧ ((63524136599000000 : Nat) : Int) = t.instant) ↔ t.ZoneKeepsRange) :=
  datetimeFromIso8601_legal_iff 0 (holds_textAt yearEndText.bytes fun _ => 0)
    (by decide +kernel)

/-- `0001-01-01T00:00:00+00:01` -/
def beforeFirstText : IsoText :=
  ⟨⟨1, 1, 1, ascii 'T', 0, 0, 0⟩, [], .offset (ascii '+') 0 1⟩

/-- A minute before the first datetime is accepted as a minute before `2 ^ 64`. -/
theorem datetimeFromIso8601_wraps :
    datetimeFromIso8601 (textAt beforeFirstText.bytes fun _ => 0) beforeFirstText.bytes.length 0
        = some (0, 2 ^ 64 - 60000000)
      ∧ ¬ ∀ (mem : Nat → Option UInt8) (s : List UInt8) (out dt : Nat), Holds mem 0 s →
        datetimeFromIso8601 mem s.length out = some (0, dt) →
        ∃ t : IsoText, t.Valid ∧ t.bytes = s ∧ minDateTime ≤ dt ∧ dt ≤ maxDateTime
          ∧ (dt : Int) = t.instant := by
  have hrun : datetimeFromIso8601 (textAt beforeFirstText.bytes fun _ => 0)
      beforeFirstText.bytes.length 0 = some (0, 2 ^ 64 - 60000000) := by
    decide +kernel
  refine ⟨hrun, fun h => ?_⟩
  obtain ⟨t, -, -, -, hmax, -⟩ := h _ _ 0 _ (holds_textAt _ _) hrun
  exact absurd hmax (by decide)

end Ats
