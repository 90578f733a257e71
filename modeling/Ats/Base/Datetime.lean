import Ats.Base.Integers
import Ats.Lib.Gregorian

/-!
# Datetime: the calendar of `datetime.c`

A `datetime_t` counts microseconds from 0001-01-01. Integers are natural
numbers, cut to their width (`u16`, `u32`, `u64`) wherever C stores or
converts; the `int` results in between stay below `2 ^ 31`.
-/

namespace Ats

open Gregorian

/-! ## Constants of `datetime.h` -/

/-- `MIN_DATE_TIME`: 0001-01-01T00:00:00 -/
def minDateTime : Nat := 0

/-- `EPOCH_DATE_TIME`: 1970-01-01T00:00:00 -/
def epochDateTime : Nat := 62135596800000000

/-- `MAX_DATE_TIME`: 9999-12-31T23:59:59.999999 -/
def maxDateTime : Nat := 315537897599999999

/-- `TICKS_PER_SECOND` -/
def ticksPerSecond : Nat := 1000000

/-- `TICKS_PER_DAY` -/
def ticksPerDay : Nat := 86400000000

/-! ## Dates -/

/-- `leap_year` -/
def leapYear (y : Nat) : Bool := y &&& 3 == 0 && (y % 100 != 0 || y % 400 == 0)

/-- `month_days`, for a month 1 to 12. -/
def monthDays (y m : Nat) : Nat :=
  if m = 2 ∧ leapYear y then
    [0, 31, 29, 31, 30, 31, 30, 31, 31, 30, 31, 30, 31].getD m 0
  else [0, 31, 28, 31, 30, 31, 30, 31, 31, 30, 31, 30, 31].getD m 0

/-- `days_preceding_month[leap_year(y)][m]`, for a month 1 to 12. -/
def daysPrecedingMonth (y m : Nat) : Nat :=
  if leapYear y then
    [0, 0, 31, 60, 91, 121, 152, 182, 213, 244, 274, 305, 335].getD m 0
  else [0, 0, 31, 59, 90, 120, 151, 181, 212, 243, 273, 304, 334].getD m 0

/-- `DayOffset[m]`, for a month 1 to 12. -/
def dayOffset (m : Nat) : Nat :=
  [0, 306, 337, 0, 31, 61, 92, 122, 153, 184, 214, 245, 275].getD m 0

/-- What `rdn_to_ymd` writes through its pointers. -/
structure Ymd where
  year : Nat
  month : Nat
  day : Nat
  yday : Nat
deriving DecidableEq, Repr

/-- `rdn_to_ymd` -/
def rdnToYmd (rdn : Nat) : Ymd :=
  let rdn := u32 (rdn + 1)
  let z := u32 (rdn + 306)
  let h := u32 (100 * z + 2 ^ 32 - 25)
  let a := h / 3652425
  let b := u32 (a + 2 ^ 32 - (a >>> 2))
  let y := u16 (u32 (100 * b + h) / 36525)
  let d := u16 (b + z + 2 ^ 32 - ((1461 * y) >>> 2))
  let m := u16 ((535 * d + 48950) >>> 14)
  if m > 12 then
    let y := u16 (y + 1)
    let m := m - 12
    ⟨y, m, u16 (d + 2 ^ 16 - dayOffset m), u16 (d + 2 ^ 16 - 306)⟩
  else
    ⟨y, m, u16 (d + 2 ^ 16 - dayOffset m), u16 (d + 59 + (leapYear y).toNat)⟩

/-- `yd_to_rdn` -/
def ydToRdn (y d : Nat) : Nat :=
  let y := u16 (y + 2 ^ 16 - 1)
  u32 (365 * y + y / 4 - y / 100 + y / 400 + d)

/-- The block of `ymd_to_rdn` for a month out of range. Both assertions
after it hold, see `ymdCarry_month`. -/
def ymdCarry (y m : Nat) : Nat × Nat :=
  if m < 1 ∨ m > 12 then
    let y := u16 (y + m / 12)
    let m := m % 12
    if m < 1 then (u16 (y + 2 ^ 16 - 1), m + 12) else (y, m)
  else (y, m)

/-- `ymd_to_rdn` -/
def ymdToRdn (y m d : Nat) : Nat :=
  let (y, m) := ymdCarry y m
  ydToRdn y (u16 (daysPrecedingMonth y m + d + 2 ^ 16 - 1))

/-- `datetime_from_ymd` -/
def datetimeFromYmd (year month day : Nat) : Nat :=
  u64 (ymdToRdn year month day * ticksPerDay)

/-- `datetime_from_hmsu` -/
def datetimeFromHmsu (hour minute second usec : Nat) : Nat :=
  let totalSeconds := hour * 3600 + minute * 60 + second
  u64 (totalSeconds * ticksPerSecond + usec)

/-- What `datetime_decode` writes through its pointers. -/
structure Decoded where
  year : Nat
  month : Nat
  day : Nat
  hour : Nat
  minute : Nat
  second : Nat
  usec : Nat
deriving DecidableEq, Repr

/-- `datetime_decode` -/
def datetimeDecode (dt : Nat) : Decoded :=
  let ymd := rdnToYmd (u32 (dt / ticksPerDay))
  let perday := dt % ticksPerDay
  let usec := u32 (perday % ticksPerSecond)
  let sod := u32 (perday / ticksPerSecond)
  let second := u16 (sod % 60)
  let sod := sod / 60
  let minute := u16 (sod % 60)
  let sod := sod / 60
  ⟨ymd.year, ymd.month, ymd.day, u16 sod, minute, second, usec⟩

theorem ymdCarry_month (y m : Nat) : 1 ≤ (ymdCarry y m).2 ∧ (ymdCarry y m).2 ≤ 12 := by
  unfold ymdCarry
  split
  · dsimp only
    split
    · simp only
      omega
    · simp only
      omega
  · simp only
    omega

/-! ## The tables are the calendar's -/

theorem leapYear_iff (y : Nat) : leapYear y = true ↔ IsLeap y := by
  have hmod : y &&& 3 = y % 4 := Nat.and_two_pow_sub_one_eq_mod y 2
  simp [leapYear, IsLeap, hmod]

theorem month_cases {m : Nat} (h1 : 1 ≤ m) (h2 : m ≤ 12) :
    m = 1 ∨ m = 2 ∨ m = 3 ∨ m = 4 ∨ m = 5 ∨ m = 6 ∨ m = 7 ∨ m = 8 ∨ m = 9 ∨ m = 10
      ∨ m = 11 ∨ m = 12 := by
  omega

theorem monthDays_eq {y m : Nat} (h1 : 1 ≤ m) (h2 : m ≤ 12) :
    monthDays y m = monthLength y m := by
  have hleap := leapYear_iff y
  rcases month_cases h1 h2 with rfl | rfl | rfl | rfl | rfl | rfl | rfl | rfl | rfl | rfl
    | rfl | rfl
  all_goals simp [monthDays, monthLength, hleap]

theorem daysPrecedingMonth_eq {y m : Nat} (h1 : 1 ≤ m) (h2 : m ≤ 12) :
    daysPrecedingMonth y m = daysBeforeMonth y m := by
  have hleap := leapYear_iff y
  rcases month_cases h1 h2 with rfl | rfl | rfl | rfl | rfl | rfl | rfl | rfl | rfl | rfl
    | rfl | rfl
  all_goals
    simp only [daysPrecedingMonth, daysBeforeMonth, monthLength, hleap]
    split <;> rfl

theorem daysBeforeMonth_le {y m : Nat} (h1 : 1 ≤ m) (h2 : m ≤ 12) :
    daysBeforeMonth y m ≤ 335 := by
  rw [← daysPrecedingMonth_eq h1 h2]
  unfold daysPrecedingMonth
  rcases month_cases h1 h2 with rfl | rfl | rfl | rfl | rfl | rfl | rfl | rfl | rfl | rfl
    | rfl | rfl
  all_goals split <;> decide

/-! ## Encoding a date -/

/-- **`ymd_to_rdn` counts the days** of the calendar. -/
theorem ymdToRdn_date (d : Date) (hy : d.year ≤ 65535) :
    ymdToRdn d.year d.month d.day = d.dayNumber := by
  have hcarry : ymdCarry d.year d.month = (d.year, d.month) := by
    have := d.month_pos
    have := d.month_le
    rw [ymdCarry, if_neg (by omega)]
  have hmonth := daysBeforeMonth_le (y := d.year) d.month_pos d.month_le
  have hday := d.day_pos
  have hday' := Nat.le_trans d.day_le (monthLength_le _ _)
  have hyear := d.year_pos
  have hbefore : daysBeforeYear d.year
      = 365 * (d.year - 1) + (d.year - 1) / 4 - (d.year - 1) / 100 + (d.year - 1) / 400 := by
    rw [← daysBeforeYear_eq, Nat.sub_add_cancel hyear]
  have hy16 : u16 (d.year + 2 ^ 16 - 1) = d.year - 1 := by
    unfold u16
    omega
  have hd16 : u16 (daysBeforeMonth d.year d.month + d.day + 2 ^ 16 - 1)
      = daysBeforeMonth d.year d.month + (d.day - 1) := by
    unfold u16
    omega
  rw [ymdToRdn, hcarry]
  simp only [daysPrecedingMonth_eq d.month_pos d.month_le, ydToRdn, hy16, hd16,
    Date.dayNumber, hbefore, u32]
  omega

/-! ## Decoding a date

`rdn_to_ymd` counts years from March, so that a leap day comes last. -/

/-- The days of the March year `y` and its predecessors before a day `n`, 1
to 366, of that year; day 1 is March 1. -/
def marchDays (y n : Nat) : Nat := 365 * y + y / 4 - y / 100 + y / 400 + n

/-- The March year of a date. -/
def marchYear (d : Date) : Nat := if d.month ≤ 2 then d.year - 1 else d.year

/-- The day of the March year. -/
def marchDay (d : Date) : Nat := dayOffset d.month + d.day

theorem marchDays_eq (y n : Nat) : marchDays y n = daysBeforeYear (y + 1) + n := by
  rw [marchDays, daysBeforeYear_eq]

/-- **The calendar, counted from March.** -/
theorem dayNumber_march (d : Date) :
    d.dayNumber + 307 = marchDays (marchYear d) (marchDay d) := by
  have hyear := d.year_pos
  have hday := d.day_pos
  have hsucc := daysBeforeYear_succ hyear
  have hpred : d.year - 1 + 1 = d.year := Nat.sub_add_cancel hyear
  have hlen : 365 ≤ yearLength d.year := by
    unfold yearLength
    split <;> omega
  have hfeb : (if IsLeap d.year then 29 else 28) = yearLength d.year - 337 := by
    unfold yearLength
    split <;> rfl
  rw [marchDays_eq, Date.dayNumber, marchYear, marchDay]
  rcases month_cases d.month_pos d.month_le with hm | hm | hm | hm | hm | hm | hm | hm | hm
    | hm | hm | hm
  all_goals
    simp only [hm, daysBeforeMonth, monthLength, hfeb, dayOffset, List.getD_cons_succ,
      List.getD_cons_zero, Nat.reduceLeDiff, if_true, if_false, hpred]
    omega

/-- A March year has 365 days, or 366 when February ends in a leap year. -/
theorem marchDay_le (d : Date) :
    1 ≤ marchDay d ∧ (marchDay d ≤ 365 ∨ marchDay d = 366 ∧ IsLeap (marchYear d + 1)) := by
  have hpred : d.year - 1 + 1 = d.year := Nat.sub_add_cancel d.year_pos
  have hpos := d.day_pos
  have hle := d.day_le
  have hday : 1 ≤ marchDay d
      ∧ (marchDay d ≤ 365 ∨ marchDay d = 366 ∧ d.month = 2 ∧ d.day = 29) := by
    have hfeb : (if IsLeap d.year then 29 else 28) ≤ 29 := by
      split <;> omega
    unfold marchDay
    rcases month_cases d.month_pos d.month_le with hm | hm | hm | hm | hm | hm | hm | hm | hm
      | hm | hm | hm
    all_goals
      simp only [hm] at hle ⊢
      simp only [monthLength] at hle
      simp only [dayOffset, List.getD_cons_succ, List.getD_cons_zero, true_and]
      omega
  refine ⟨hday.1, hday.2.imp_right ?_⟩
  rintro ⟨hn, hm, hd⟩
  refine ⟨hn, ?_⟩
  rw [marchYear, if_pos (by omega), hpred]
  by_contra hl
  rw [hm, hd, monthLength, if_neg hl] at hle
  omega

/-- **The arithmetic of `rdn_to_ymd`**: the century, the March year, its day,
and the month from 3 to 14. -/
theorem rdnToYmd_march {rdn y n : Nat} (hy : y ≤ 9999) (h1 : 1 ≤ n)
    (h366 : n ≤ 365 ∨ n = 366 ∧ IsLeap (y + 1)) (hr : rdn + 307 = marchDays y n) :
    rdnToYmd rdn =
      let m := (535 * n + 48950) / 16384
      if m > 12 then
        ⟨y + 1, m - 12, u16 (n + 2 ^ 16 - dayOffset (m - 12)), u16 (n + 2 ^ 16 - 306)⟩
      else ⟨y, m, u16 (n + 2 ^ 16 - dayOffset m), n + 59 + (leapYear y).toNat⟩ := by
  have hleap : IsLeap (y + 1) → (y + 1) % 4 = 0 ∧ ((y + 1) % 100 ≠ 0 ∨ (y + 1) % 400 = 0) :=
    fun h => h
  -- `y = 100 * c + k`
  obtain ⟨c, k, hk, hyc⟩ : ∃ c k, k < 100 ∧ y = 100 * c + k :=
    ⟨y / 100, y % 100, Nat.mod_lt _ (by decide), (Nat.div_add_mod y 100).symm⟩
  have hdays : marchDays y n = 36524 * c + c / 4 + 365 * k + k / 4 + n := by
    unfold marchDays
    omega
  have hn : n ≤ 365 ∨ n = 366 ∧ (k % 4 = 3) ∧ (k ≠ 99 ∨ c % 4 = 3) := by
    rcases h366 with h | ⟨h, hl⟩
    · exact Or.inl h
    · have := hleap hl
      refine Or.inr ⟨h, ?_, ?_⟩
      · omega
      · omega
  have hz : u32 (u32 (rdn + 1) + 306) = 36524 * c + c / 4 + 365 * k + k / 4 + n := by
    unfold u32
    omega
  generalize hzz : 36524 * c + c / 4 + 365 * k + k / 4 + n = z at hz
  have hh : u32 (100 * z + 2 ^ 32 - 25) = 100 * z - 25 := by
    unfold u32
    omega
  have ha : (100 * z - 25) / 3652425 = c := by
    refine Nat.div_eq_of_lt_le ?_ ?_
    · omega
    · omega
  have hb : u32 (c + 2 ^ 32 - (c >>> 2)) = c - c / 4 := by
    rw [Nat.shiftRight_eq_div_pow]
    unfold u32
    omega
  have hyy : u16 (u32 (100 * (c - c / 4) + (100 * z - 25)) / 36525) = y := by
    have hdiv : (100 * (c - c / 4) + (100 * z - 25)) / 36525 = y := by
      refine Nat.div_eq_of_lt_le ?_ ?_
      · omega
      · omega
    have hu : u32 (100 * (c - c / 4) + (100 * z - 25)) = 100 * (c - c / 4) + (100 * z - 25) := by
      unfold u32
      omega
    rw [hu, hdiv]
    unfold u16
    omega
  have hd : u16 (c - c / 4 + z + 2 ^ 32 - ((1461 * y) >>> 2)) = n := by
    have hq : (1461 * y) >>> 2 = 36525 * c + 365 * k + k / 4 := by
      rw [Nat.shiftRight_eq_div_pow]
      omega
    have hsum : c - c / 4 + z + 2 ^ 32 - (36525 * c + 365 * k + k / 4) = n + 2 ^ 32 := by
      omega
    rw [hq, hsum]
    unfold u16
    omega
  have hm : u16 ((535 * n + 48950) >>> 14) = (535 * n + 48950) / 16384 := by
    rw [Nat.shiftRight_eq_div_pow]
    unfold u16
    omega
  have hy1 : u16 (y + 1) = y + 1 := by
    unfold u16
    omega
  have hyday : u16 (n + 59 + (leapYear y).toNat) = n + 59 + (leapYear y).toNat := by
    have := (leapYear y).toNat_le
    unfold u16
    omega
  rw [rdnToYmd]
  simp only [hz, hh, ha, hb, hyy, hd, hm, hy1, hyday]

/-- The month of a March day: 3 to 12, then 13 and 14. -/
theorem marchDay_month (d : Date) :
    (535 * marchDay d + 48950) / 16384 = if d.month ≤ 2 then d.month + 12 else d.month := by
  have hpos := d.day_pos
  have hle := d.day_le
  have hfeb : (if IsLeap d.year then 29 else 28) ≤ 29 := by
    split <;> omega
  unfold marchDay
  rcases month_cases d.month_pos d.month_le with hm | hm | hm | hm | hm | hm | hm | hm | hm
    | hm | hm | hm
  all_goals
    simp only [hm] at hle
    simp only [monthLength] at hle
    simp only [hm, dayOffset, List.getD_cons_succ, List.getD_cons_zero, Nat.reduceLeDiff,
      if_true, if_false]
    omega

/-- The days of the year before a month, from March days. -/
theorem dayOffset_yday (d : Date) :
    daysBeforeMonth d.year d.month
      = if d.month ≤ 2 then dayOffset d.month - 306
        else dayOffset d.month + 59 + (leapYear d.year).toNat := by
  have hfeb : (if IsLeap d.year then 29 else 28) = 28 + (leapYear d.year).toNat := by
    cases hl : leapYear d.year
    · have hn : ¬ IsLeap d.year := fun hc => by
        rw [(leapYear_iff _).mpr hc] at hl
        cases hl
      rw [if_neg hn]
      rfl
    · rw [if_pos ((leapYear_iff _).mp hl)]
      rfl
  rcases month_cases d.month_pos d.month_le with hm | hm | hm | hm | hm | hm | hm | hm | hm
    | hm | hm | hm
  all_goals
    simp only [hm, dayOffset, daysBeforeMonth, monthLength, List.getD_cons_succ,
      List.getD_cons_zero, Nat.reduceLeDiff, if_true, if_false, hfeb] <;> omega

theorem dayOffset_le (d : Date) : dayOffset d.month ≤ 337
    ∧ (d.month ≤ 2 → 306 ≤ dayOffset d.month) := by
  rcases month_cases d.month_pos d.month_le with hm | hm | hm | hm | hm | hm | hm | hm | hm
    | hm | hm | hm
  all_goals
    rw [hm]
    decide

/-- **`rdn_to_ymd` finds the date** of a day, up to the end of 9999. -/
theorem rdnToYmd_date (d : Date) (hy : d.year ≤ 9999) :
    rdnToYmd d.dayNumber
      = ⟨d.year, d.month, d.day, daysBeforeMonth d.year d.month + d.day⟩ := by
  have hpred : d.year - 1 + 1 = d.year := Nat.sub_add_cancel d.year_pos
  have hday := Nat.le_trans d.day_le (monthLength_le _ _)
  have hmarch : marchYear d ≤ 9999 := by
    unfold marchYear
    split <;> omega
  obtain ⟨hoff, hoff2⟩ := dayOffset_le d
  obtain ⟨h1, h366⟩ := marchDay_le d
  have hd16 : u16 (marchDay d + 2 ^ 16 - dayOffset d.month) = d.day := by
    unfold u16 marchDay
    omega
  have hyday := dayOffset_yday d
  rw [rdnToYmd_march hmarch h1 h366 (dayNumber_march d), marchDay_month]
  by_cases hm : d.month ≤ 2
  · rw [if_pos hm] at hyday ⊢
    have hgt : d.month + 12 > 12 := by
      have := d.month_pos
      omega
    have hu : u16 (marchDay d + 2 ^ 16 - 306) = daysBeforeMonth d.year d.month + d.day := by
      have := hoff2 hm
      unfold u16 marchDay
      omega
    simp only [if_pos hgt, Nat.add_sub_cancel, hd16, hu, marchYear, if_pos hm, hpred]
  · rw [if_neg hm] at hyday ⊢
    have hle : ¬ d.month > 12 := by
      have := d.month_le
      omega
    have hn : marchDay d + 59 + (leapYear d.year).toNat
        = daysBeforeMonth d.year d.month + d.day := by
      unfold marchDay
      omega
    simp only [if_neg hle, hd16, marchYear, if_neg hm, hn]

/-! ## Encoding and decoding -/

/-- The fields of a civil date and time, up to the end of the year 9999. -/
structure Decoded.Valid (f : Decoded) : Prop where
  year_pos : 1 ≤ f.year
  year_le : f.year ≤ 9999
  month_pos : 1 ≤ f.month
  month_le : f.month ≤ 12
  day_pos : 1 ≤ f.day
  day_le : f.day ≤ monthLength f.year f.month
  hour_lt : f.hour < 24
  minute_lt : f.minute < 60
  second_lt : f.second < 60
  usec_lt : f.usec < 1000000

/-- `datetime_from_ymd(…) + datetime_from_hmsu(…)` -/
def datetimeEncode (f : Decoded) : Nat :=
  u64 (datetimeFromYmd f.year f.month f.day
    + datetimeFromHmsu f.hour f.minute f.second f.usec)

def Decoded.Valid.date {f : Decoded} (h : f.Valid) : Date :=
  ⟨f.year, f.month, f.day, h.year_pos, h.month_pos, h.month_le, h.day_pos, h.day_le⟩

/-- The year 9999 ends with day 3652058. -/
theorem dayNumber_lt_iff (d : Date) : d.year ≤ 9999 ↔ d.dayNumber < 3652059 := by
  have hend : daysBeforeYear 10000 = 3652059 := daysBeforeYear_eq 9999
  constructor
  · intro hy
    have hlt := d.dayOfYear_lt
    have := Date.daysBeforeYear_mono (show d.year < 10000 by omega) d.year_pos
    unfold Date.dayNumber
    omega
  · intro hn
    by_contra hc
    have hge : daysBeforeYear 10000 ≤ daysBeforeYear d.year := by
      rcases Nat.lt_or_eq_of_le (show 10000 ≤ d.year by omega) with hlt | heq
      · have := Date.daysBeforeYear_mono hlt (by decide)
        omega
      · exact Nat.le_of_eq (congrArg daysBeforeYear heq)
    unfold Date.dayNumber at hn
    omega

/-- A valid date and time is encoded without overflow. -/
theorem Decoded.Valid.encode {f : Decoded} (h : f.Valid) :
    datetimeEncode f = h.date.dayNumber * 86400000000
      + ((f.hour * 3600 + f.minute * 60 + f.second) * 1000000 + f.usec) := by
  have hday : ymdToRdn f.year f.month f.day = h.date.dayNumber :=
    ymdToRdn_date h.date (Nat.le_trans h.year_le (by decide))
  have hlt := (dayNumber_lt_iff h.date).mp h.year_le
  have h1 := h.hour_lt
  have h2 := h.minute_lt
  have h3 := h.second_lt
  have h4 := h.usec_lt
  simp only [datetimeEncode, datetimeFromYmd, datetimeFromHmsu, ticksPerDay, ticksPerSecond,
    u64, hday]
  omega

/-- **Decoding** a number of days and a time of the day. -/
theorem datetimeDecode_date (d : Date) (hy : d.year ≤ 9999) {r : Nat} (hr : r < 86400000000) :
    datetimeDecode (d.dayNumber * 86400000000 + r)
      = ⟨d.year, d.month, d.day, r / 1000000 / 60 / 60, r / 1000000 / 60 % 60,
        r / 1000000 % 60, r % 1000000⟩ := by
  have hlt := (dayNumber_lt_iff d).mp hy
  have hdiv : u32 ((d.dayNumber * 86400000000 + r) / ticksPerDay) = d.dayNumber := by
    unfold u32 ticksPerDay
    omega
  have hmod : (d.dayNumber * 86400000000 + r) % ticksPerDay = r := by
    unfold ticksPerDay
    omega
  unfold datetimeDecode
  simp only [hdiv, hmod, rdnToYmd_date d hy]
  unfold ticksPerSecond u16 u32
  simp only [Decoded.mk.injEq, true_and]
  omega

theorem Decoded.Valid.decode_encode {f : Decoded} (h : f.Valid) :
    datetimeDecode (datetimeEncode f) = f := by
  have h1 := h.hour_lt
  have h2 := h.minute_lt
  have h3 := h.second_lt
  have h4 := h.usec_lt
  have hr : (f.hour * 3600 + f.minute * 60 + f.second) * 1000000 + f.usec < 86400000000 := by
    omega
  rw [h.encode, datetimeDecode_date h.date h.year_le hr]
  generalize hrr : (f.hour * 3600 + f.minute * 60 + f.second) * 1000000 + f.usec = r
  have hhour : r / 1000000 / 60 / 60 = f.hour := by omega
  have hminute : r / 1000000 / 60 % 60 = f.minute := by omega
  have hsecond : r / 1000000 % 60 = f.second := by omega
  have husec : r % 1000000 = f.usec := by omega
  rw [hhour, hminute, hsecond, husec]
  rfl

theorem exists_date {dt : Nat} (hdt : dt ≤ maxDateTime) :
    ∃ (d : Date) (r : Nat), d.year ≤ 9999 ∧ r < 86400000000
      ∧ d.dayNumber * 86400000000 + r = dt := by
  unfold maxDateTime at hdt
  obtain ⟨d, hd⟩ := Date.exists_dayNumber (dt / 86400000000)
  refine ⟨d, dt % 86400000000, (dayNumber_lt_iff d).mpr (by omega), by omega, by omega⟩

/-- The fields of a day and a time of the day encode to it. -/
theorem datetimeEncode_date (d : Date) (hy : d.year ≤ 9999) {r : Nat} (hr : r < 86400000000)
    {f : Decoded} (hf : f = ⟨d.year, d.month, d.day, r / 1000000 / 60 / 60,
      r / 1000000 / 60 % 60, r / 1000000 % 60, r % 1000000⟩) :
    f.Valid ∧ datetimeEncode f = d.dayNumber * 86400000000 + r := by
  subst hf
  have hvalid : Decoded.Valid ⟨d.year, d.month, d.day, r / 1000000 / 60 / 60,
      r / 1000000 / 60 % 60, r / 1000000 % 60, r % 1000000⟩ := by
    refine ⟨d.year_pos, hy, d.month_pos, d.month_le, d.day_pos, d.day_le, ?_, ?_, ?_, ?_⟩
    all_goals
      simp only
      omega
  refine ⟨hvalid, ?_⟩
  rw [hvalid.encode]
  have hdate : hvalid.date = d := rfl
  rw [hdate]
  simp only
  omega

theorem encode_decode {dt : Nat} (hdt : dt ≤ maxDateTime) :
    (datetimeDecode dt).Valid ∧ datetimeEncode (datetimeDecode dt) = dt := by
  obtain ⟨d, r, hy, hr, hsplit⟩ := exists_date hdt
  have hdec := datetimeDecode_date d hy hr
  rw [hsplit] at hdec
  have h := datetimeEncode_date d hy hr hdec
  rwa [hsplit] at h

/-- **Civil date-time encoding is a bijection**: decoding undoes encoding on
valid fields, and every datetime up to `MAX_DATE_TIME` decodes to valid fields
that encode to it. -/
theorem datetime_bijection :
    (∀ f : Decoded, f.Valid → datetimeDecode (datetimeEncode f) = f)
    ∧ ∀ dt, dt ≤ maxDateTime →
      (datetimeDecode dt).Valid ∧ datetimeEncode (datetimeDecode dt) = dt :=
  ⟨fun _ h => h.decode_encode, fun _ hdt => encode_decode hdt⟩

/-- A leap day, and the last datetime. -/
theorem datetime_bijection_leap :
    datetimeDecode (datetimeEncode ⟨2000, 2, 29, 23, 59, 59, 999999⟩)
        = ⟨2000, 2, 29, 23, 59, 59, 999999⟩
      ∧ (datetimeDecode maxDateTime).Valid
      ∧ datetimeEncode (datetimeDecode maxDateTime) = maxDateTime :=
  ⟨datetime_bijection.1 _ ⟨by decide, by decide, by decide, by decide, by decide, by decide,
    by decide, by decide, by decide, by decide⟩,
    datetime_bijection.2 _ (Nat.le_refl maxDateTime)⟩

end Ats
