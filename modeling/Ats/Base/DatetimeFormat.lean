import Ats.Base.DatetimeParse
import Mathlib.Data.List.Nodup

/-!
# Formatting: `datetime_format`

The formatter's writes to `dst` are a list, in the order of the source, of
indices and bytes.
-/

namespace Ats

open Scan Gregorian

/-- `timestamp_format_internal` up to the seconds. -/
def headerWrites (ymd : Ymd) (v : Nat) : List (Nat × UInt8) :=
  let v17 := v / 10
  let v15 := v17 / 6
  let v14 := v15 / 10
  let v12 := v14 / 6
  let v11 := v12 / 10
  let d8 := ymd.day / 10
  let m5 := ymd.month / 10
  let y2 := ymd.year / 10
  let y1 := y2 / 10
  let y0 := y1 / 10
  [(18, digitChar (v % 10)), (17, digitChar (v17 % 6)), (16, ascii ':'),
    (15, digitChar (v15 % 10)), (14, digitChar (v14 % 6)), (13, ascii ':'),
    (12, digitChar (v12 % 10)), (11, digitChar (v11 % 10)), (10, ascii 'T'),
    (9, digitChar (ymd.day % 10)), (8, digitChar (d8 % 10)), (7, ascii '-'),
    (6, digitChar (ymd.month % 10)), (5, digitChar (m5 % 10)), (4, ascii '-'),
    (3, digitChar (ymd.year % 10)), (2, digitChar (y2 % 10)), (1, digitChar (y1 % 10)),
    (0, digitChar (y0 % 10))]

/-- The cases of the `switch`, from `precision` down: the digits of `v` after
`p[0]`. -/
def precisionWrites (p : Nat) : Nat → Nat → List (Nat × UInt8)
  | 0, _ => []
  | k + 1, v => (p + (k + 1), digitChar (v % 10)) :: precisionWrites p k (v / 10)

/-- The zone and the terminator, from `p`. -/
def zoneWrites (p : Nat) (zoneOffset : Int) : List (Nat × UInt8) :=
  if zoneOffset = 0 then [(p, ascii 'Z'), (p + 1, 0)]
  else
    let v := zoneOffset.natAbs
    let v4 := v / 10
    let v2 := v4 / 6
    let v1 := v2 / 10
    [(p, if zoneOffset < 0 then ascii '-' else ascii '+'), (p + 5, digitChar (v % 10)),
      (p + 4, digitChar (v4 % 6)), (p + 3, ascii ':'), (p + 2, digitChar (v2 % 10)),
      (p + 1, digitChar (v1 % 10)), (p + 6, 0)]

/-- The length that `timestamp_format_internal` computes, `dlen`. -/
def formatLength (precision : Nat) : Nat := if precision ≠ 0 then 20 + (1 + precision) else 20

/-- `timestamp_format_internal`: its writes and its result. -/
def timestampFormatInternal (len dt : Nat) (zoneOffset : Int) (precision : Nat) :
    List (Nat × UInt8) × Nat :=
  let dlen := formatLength precision
  if dlen ≥ len then ([], 0)
  else
    let sec := dt % ticksPerDay / ticksPerSecond
    let rdn := u32 (dt / ticksPerDay)
    let nsec := u32 (dt % ticksPerDay % ticksPerSecond)
    let header := headerWrites (rdnToYmd rdn) (u32 (sec % ticksPerSecond))
    if precision ≠ 0 then
      let v := nsec / pow10 (9 - precision)
      (header ++ precisionWrites 19 precision v ++ (19, ascii '.')
        :: zoneWrites (19 + (1 + precision)) zoneOffset, dlen)
    else (header ++ zoneWrites 19 zoneOffset, dlen)

/-- The choice of `datetime_format`, from the ticks after the second. -/
def formatPrecision (f : Nat) : Nat :=
  if f = 0 then 0
  else if f % 1000000 = 0 then 3
  else if f % 1000 = 0 then 6
  else 9

/-- `datetime_format` -/
def datetimeFormat (len dt : Nat) (offset : Int) : List (Nat × UInt8) × Nat :=
  let f := u32 (dt % ticksPerDay % ticksPerSecond)
  timestampFormatInternal len dt (i32 offset) (formatPrecision f)

/-! ## The text that is written -/

/-- Memory has the byte of each write. -/
def Wrote (mem : Nat → Option UInt8) (ws : List (Nat × UInt8)) : Prop :=
  ∀ w ∈ ws, mem w.1 = some w.2

@[simp] theorem wrote_nil {mem : Nat → Option UInt8} : Wrote mem [] := by
  simp [Wrote]

@[simp] theorem wrote_cons {mem : Nat → Option UInt8} {w : Nat × UInt8}
    {ws : List (Nat × UInt8)} : Wrote mem (w :: ws) ↔ mem w.1 = some w.2 ∧ Wrote mem ws := by
  simp [Wrote]

@[simp] theorem wrote_append {mem : Nat → Option UInt8} {ws us : List (Nat × UInt8)} :
    Wrote mem (ws ++ us) ↔ Wrote mem ws ∧ Wrote mem us := by
  simp [Wrote, or_imp, forall_and]

/-- Writes to different addresses all stay. -/
theorem wrote_stored (dst : Nat → UInt8) {ws : List (Nat × UInt8)}
    (hnodup : (ws.map Prod.fst).Nodup) : Wrote (fun i => some (stored dst ws i)) ws :=
  fun _ hw => congrArg some (stored_of_mem hnodup hw)

/-- **The header that is written** for a date and a second of the day. -/
theorem holds_headerWrites {mem : Nat → Option UInt8} {ymd : Ymd} {v : Nat} (hv : v < 86400)
    (hy : ymd.year ≤ 9999) (hm : ymd.month ≤ 12) (hd : ymd.day ≤ 31)
    (hw : Wrote mem (headerWrites ymd v)) :
    Holds mem 0 (IsoHeader.bytes
      ⟨ymd.year, ymd.month, ymd.day, ascii 'T', v / 60 / 60, v / 60 % 60, v % 60⟩) := by
  simp only [headerWrites, wrote_cons, wrote_nil, and_true] at hw
  simp only [IsoHeader.bytes, twoDigits, fourDigits, holds_append, holds_cons, holds_nil,
    List.length_append, List.length_cons, List.length_nil, and_true, Nat.zero_add, Nat.reduceAdd,
    hw, Option.some.injEq, true_and]
  -- what is left is one equation for each digit
  refine ⟨⟨⟨⟨⟨⟨?_, ?_⟩, ?_⟩, ?_⟩, ?_, ?_⟩, ?_, ?_⟩, ?_, ?_⟩
  all_goals
    apply congrArg
    omega

/-- The digits of `v`, `k` of them. -/
def digits : Nat → Nat → List Nat
  | 0, _ => []
  | k + 1, v => digits k (v / 10) ++ [v % 10]

theorem digits_length (k v : Nat) : (digits k v).length = k := by
  induction k generalizing v with
  | zero => rfl
  | succ k ih => simp [digits, ih]

theorem digits_ne_nil {k v : Nat} (hk : k ≠ 0) : digits k v ≠ [] := by
  intro h
  have hlen := digits_length k v
  rw [h] at hlen
  exact hk hlen.symm

theorem digits_lt (k v : Nat) : ∀ d ∈ digits k v, d < 10 := by
  induction k generalizing v with
  | zero => simp [digits]
  | succ k ih =>
    intro d hd
    rcases List.mem_append.mp hd with hd | hd
    · exact ih _ d hd
    · rw [List.mem_singleton.mp hd]
      exact Nat.mod_lt _ (by decide)

theorem number_digits (k v : Nat) : IsoText.number (digits k v) = v % 10 ^ k := by
  induction k generalizing v with
  | zero => simp [digits, IsoText.number, Nat.mod_one]
  | succ k ih =>
    have hstep : IsoText.number (digits (k + 1) v)
          = IsoText.number (digits k (v / 10)) * 10 + v % 10 := by
      simp [digits, IsoText.number]
    rw [hstep, ih, Nat.pow_succ, Nat.mul_comm (10 ^ k), Nat.mod_mul]
    omega

/-- The cases of the `switch` write the digits after `p[0]`. -/
theorem holds_precisionWrites {mem : Nat → Option UInt8} {p k v : Nat}
    (hw : Wrote mem (precisionWrites p k v)) :
    Holds mem (p + 1) ((digits k v).map digitChar) := by
  induction k generalizing v with
  | zero => simp [digits]
  | succ k ih =>
    simp only [precisionWrites, wrote_cons] at hw
    have hat : p + 1 + (digits k (v / 10)).length = p + (k + 1) := by
      rw [digits_length]
      omega
    simp only [digits, List.map_append, List.map_cons, List.map_nil, holds_append, holds_cons,
      holds_nil, and_true, List.length_map, hat]
    exact ⟨ih hw.2, hw.1⟩

/-- The microseconds that a parser reads from the fraction: the ticks stand
for nanoseconds. -/
theorem usec_digits {f : Nat} (hf : f < 1000000) :
    IsoText.usec (digits (formatPrecision f) (f / pow10 (9 - formatPrecision f))) = f / 1000 := by
  simp only [IsoText.usec, number_digits, digits_length]
  unfold formatPrecision
  have hmod : f % 1000000 = f := Nat.mod_eq_of_lt hf
  by_cases h0 : f = 0
  · subst h0
    rfl
  · rw [if_neg h0, hmod, if_neg h0]
    split
    · simp [pow10]
      omega
    · simp [pow10]
      omega

theorem formatPrecision_le (f : Nat) : formatPrecision f ≤ 9 := by
  unfold formatPrecision
  split_ifs <;> decide

/-! ## The zone that is written -/

/-- The designator of an offset in minutes. -/
def formatZone (offset : Int) : IsoZone :=
  if offset = 0 then .utc (ascii 'Z')
  else .offset (if offset < 0 then ascii '-' else ascii '+') (offset.natAbs / 60)
    (offset.natAbs % 60)

theorem formatZone_valid {offset : Int} (h : offset.natAbs ≤ 1439) :
    (formatZone offset).Valid := by
  unfold formatZone
  split
  · exact Or.inl rfl
  · refine ⟨?_, by omega, by omega⟩
    split
    · exact Or.inr rfl
    · exact Or.inl rfl

/-- The zone is written with its terminator. -/
theorem holds_zoneWrites {mem : Nat → Option UInt8} {p : Nat} {offset : Int}
    (h : offset.natAbs ≤ 1439) (hw : Wrote mem (zoneWrites p offset)) :
    Holds mem p ((formatZone offset).first :: ((formatZone offset).tail ++ [0])) := by
  unfold zoneWrites at hw
  unfold formatZone
  by_cases h0 : offset = 0
  · rw [if_pos h0] at hw ⊢
    simpa [IsoZone.first, IsoZone.tail] using hw
  · rw [if_neg h0] at hw ⊢
    simp only [wrote_cons, wrote_nil, and_true] at hw
    obtain ⟨hsign, h5, h4, h3, h2, h1, hnul⟩ := hw
    simp only [IsoZone.first, IsoZone.tail, twoDigits, List.cons_append, List.nil_append,
      holds_cons, holds_nil, and_true, Nat.add_assoc, Nat.reduceAdd, hsign, h5, h4, h3, h2, h1,
      hnul, Option.some.injEq, true_and]
    refine ⟨?_, ?_, ?_, ?_⟩
    all_goals
      apply congrArg
      omega

/-! ## The whole text -/

/-- The text for a date, a second `v` of the day and `f` ticks after it, with
the designator of an offset. -/
def zonedText (ymd : Ymd) (v f : Nat) (offset : Int) : IsoText :=
  ⟨⟨ymd.year, ymd.month, ymd.day, ascii 'T', v / 60 / 60, v / 60 % 60, v % 60⟩,
    digits (formatPrecision f) (f / pow10 (9 - formatPrecision f)), formatZone offset⟩

/-- The writes for such a text. -/
def zonedWrites (ymd : Ymd) (v f : Nat) (offset : Int) : List (Nat × UInt8) :=
  if formatPrecision f ≠ 0 then
    headerWrites ymd v ++ precisionWrites 19 (formatPrecision f) (f / pow10 (9 - formatPrecision f))
      ++ (19, ascii '.') :: zoneWrites (19 + (1 + formatPrecision f)) offset
  else headerWrites ymd v ++ zoneWrites 19 offset

theorem i32_offset {offset : Int} (h : offset.natAbs ≤ 1439) : i32 offset = offset :=
  i32_of_mem (by omega) (by omega)

/-- **What the formatter does** where it does not refuse. -/
theorem datetimeFormat_eq {len dt : Nat} {offset : Int} (h : offset.natAbs ≤ 1439)
    (hlen : formatLength (formatPrecision (dt % 1000000)) < len) :
    datetimeFormat len dt offset
      = (zonedWrites (rdnToYmd (u32 (dt / 86400000000))) (dt % 86400000000 / 1000000)
          (dt % 1000000) offset, formatLength (formatPrecision (dt % 1000000))) := by
  have hf : u32 (dt % ticksPerDay % ticksPerSecond) = dt % 1000000 := by
    unfold u32 ticksPerDay ticksPerSecond
    omega
  have hv : u32 (dt % ticksPerDay / ticksPerSecond % ticksPerSecond)
      = dt % 86400000000 / 1000000 := by
    unfold u32 ticksPerDay ticksPerSecond
    omega
  simp only [datetimeFormat, timestampFormatInternal, hf, hv, i32_offset h, ge_iff_le,
      if_neg (Nat.not_le.mpr hlen)]
  unfold zonedWrites
  split <;> rfl

/-- The writes for a time `r` of a day. -/
theorem datetimeFormat_date (d : Date) (hy : d.year ≤ 9999) {r len : Nat} {offset : Int}
    (hr : r < 86400000000) (h : offset.natAbs ≤ 1439)
    (hlen : formatLength (formatPrecision (r % 1000000)) < len) :
    datetimeFormat len (d.dayNumber * 86400000000 + r) offset
      = (zonedWrites ⟨d.year, d.month, d.day, daysBeforeMonth d.year d.month + d.day⟩
          (r / 1000000) (r % 1000000) offset, formatLength (formatPrecision (r % 1000000))) := by
  have hdiv : u32 ((d.dayNumber * 86400000000 + r) / 86400000000) = d.dayNumber := by
    have := (dayNumber_lt_iff d).mp hy
    unfold u32
    omega
  have hmod : (d.dayNumber * 86400000000 + r) % 86400000000 = r := by omega
  have hsub : (d.dayNumber * 86400000000 + r) % 1000000 = r % 1000000 := by omega
  rw [datetimeFormat_eq h (hsub ▸ hlen), hdiv, hmod, hsub, rdnToYmd_date d hy]

/-- The header is written below 19, from the end. -/
theorem headerWrites_fst (ymd : Ymd) (v : Nat) :
    (headerWrites ymd v).map Prod.fst = (List.range 19).reverse := rfl

theorem precisionWrites_fst (p k v : Nat) : (precisionWrites p k v).map Prod.fst
    = ((List.range k).map fun i => p + (i + 1)).reverse := by
  induction k generalizing v with
  | zero => rfl
  | succ k ih =>
      rw [precisionWrites, List.map_cons, ih, List.range_succ, List.map_append,
        List.reverse_append]
      rfl

/-- The zone is written from `p` on, each byte once. -/
theorem zoneWrites_fst (p : Nat) (offset : Int) :
    (∀ i ∈ (zoneWrites p offset).map Prod.fst, p ≤ i)
      ∧ ((zoneWrites p offset).map Prod.fst).Nodup := by
  unfold zoneWrites
  split
  · simp
  · simp

/-- The addresses that the formatter writes are different ones. -/
theorem zonedWrites_nodup (ymd : Ymd) (v f : Nat) (offset : Int) :
    ((zonedWrites ymd v f offset).map Prod.fst).Nodup := by
  have hheader : (List.range 19).reverse.Nodup := List.nodup_reverse.mpr List.nodup_range
  unfold zonedWrites
  split
  · generalize formatPrecision f = k
    obtain ⟨hle, hzone⟩ := zoneWrites_fst (19 + (1 + k)) offset
    have hdigits : ((List.range k).map fun i => 19 + (i + 1)).reverse.Nodup :=
      List.nodup_reverse.mpr (List.nodup_range.map fun a b (h : 19 + (a + 1) = 19 + (b + 1)) => by
        omega)
    rw [List.map_append, List.map_append, headerWrites_fst, precisionWrites_fst, List.map_cons]
    refine List.nodup_append.mpr ⟨List.nodup_append.mpr ⟨hheader, hdigits, ?_⟩,
      List.nodup_cons.mpr ⟨fun hmem => absurd (hle 19 hmem) (by omega), hzone⟩, ?_⟩
    · intro a ha b hb
      simp only [List.mem_reverse, List.mem_range, List.mem_map] at ha hb
      obtain ⟨i, hi, rfl⟩ := hb
      omega
    · intro a ha b hb
      have hlow : a < 19 ∨ 19 < a ∧ a < 19 + (1 + k) := by
        simp only [List.mem_append, List.mem_reverse, List.mem_range, List.mem_map] at ha
        rcases ha with ha | ⟨i, hi, rfl⟩
        · exact .inl ha
        · exact .inr (by omega)
      have hhigh : b = 19 ∨ 19 + (1 + k) ≤ b := (List.mem_cons.mp hb).imp_right (hle b)
      omega
  · obtain ⟨hle, hzone⟩ := zoneWrites_fst 19 offset
    rw [List.map_append, headerWrites_fst]
    refine List.nodup_append.mpr ⟨hheader, hzone, fun a ha b hb => ?_⟩
    have hlow : a < 19 := List.mem_range.mp (List.mem_reverse.mp ha)
    have hhigh := hle b hb
    omega

/-- **The text that is written**, with its terminator. -/
theorem holds_zonedText {mem : Nat → Option UInt8} {ymd : Ymd} {v f : Nat} {offset : Int}
    (h : offset.natAbs ≤ 1439) (hv : v < 86400) (hy : ymd.year ≤ 9999) (hm : ymd.month ≤ 12)
    (hd : ymd.day ≤ 31) (hw : Wrote mem (zonedWrites ymd v f offset)) :
    Holds mem 0 ((zonedText ymd v f offset).bytes ++ [0]) := by
  have hparts : (zonedText ymd v f offset).bytes ++ [0]
      = (zonedText ymd v f offset).header.bytes
        ++ (IsoText.fractionBytes (zonedText ymd v f offset).fraction
          ++ ((formatZone offset).first :: ((formatZone offset).tail ++ [0]))) := by
    simp [IsoText.bytes, zonedText]
  rw [hparts, holds_append, holds_append, header_length, Nat.zero_add]
  simp only [zonedText]
  unfold zonedWrites at hw
  by_cases hp : formatPrecision f = 0
  · rw [if_neg (not_not_intro hp), wrote_append] at hw
    refine ⟨holds_headerWrites hv hy hm hd hw.1, ?_, ?_⟩
    · simp [hp, digits, IsoText.fractionBytes]
    · simpa [hp, digits, IsoText.fractionBytes] using holds_zoneWrites h hw.2
  · rw [if_pos hp, wrote_append, wrote_append, wrote_cons] at hw
    obtain ⟨⟨hheader, hdigits⟩, hdot, hzone⟩ := hw
    have hfraction := fractionBytes_cons (digits_ne_nil (v := f / pow10 (9 - formatPrecision f)) hp)
      []
    simp only [List.append_nil] at hfraction
    refine ⟨holds_headerWrites hv hy hm hd hheader, ?_, ?_⟩
    · rw [hfraction, holds_cons]
      exact ⟨hdot, holds_precisionWrites hdigits⟩
    · have hat : 19 + (IsoText.fractionBytes (digits (formatPrecision f)
          (f / pow10 (9 - formatPrecision f)))).length = 19 + (1 + formatPrecision f) := by
        rw [hfraction, List.length_cons, List.length_map, digits_length]
        omega
      rw [hat]
      exact holds_zoneWrites h hzone

theorem zonedText_length (ymd : Ymd) (v f : Nat) (offset : Int) :
    (zonedText ymd v f offset).bytes.length
      = formatLength (formatPrecision f) + (formatZone offset).tail.length := by
  rw [IsoText.bytes_length]
  simp only [zonedText]
  by_cases hp : formatPrecision f = 0
  · simp [hp, digits, IsoText.fractionBytes, formatLength]
  · simp [IsoText.fractionBytes, digits_ne_nil hp, digits_length, formatLength, hp]
    omega

theorem zonedText_valid {ymd : Ymd} {v f u : Nat} {offset : Int} (hz : offset.natAbs ≤ 1439)
    (h : Decoded.Valid ⟨ymd.year, ymd.month, ymd.day, v / 60 / 60, v / 60 % 60, v % 60, u⟩) :
    (zonedText ymd v f offset).Valid where
  header := ⟨h.year_pos, h.year_le, h.month_pos, h.month_le, h.day_pos, h.day_le, Or.inl rfl,
    Nat.le_of_lt_succ h.hour_lt, Nat.le_of_lt_succ h.minute_lt, Nat.le_of_lt_succ h.second_lt⟩
  fraction_length := Nat.le_trans (Nat.le_of_eq (digits_length _ _)) (formatPrecision_le f)
  fraction_digit := digits_lt _ _
  zone := formatZone_valid hz

/-- **The parser reads such a text back**, whatever else is in the buffer. -/
theorem zonedText_parse {ymd : Ymd} {v f u x : Nat} {offset : Int} (dst : Nat → UInt8) (out : Nat)
    (hz : offset.natAbs ≤ 1439)
    (h : Decoded.Valid ⟨ymd.year, ymd.month, ymd.day, v / 60 / 60, v / 60 % 60, v % 60, u⟩)
    (hx : (zonedText ymd v f offset).value % 2 ^ 64 = (x : Int)) :
    datetimeFromIso8601 (fun i => some (stored dst (zonedWrites ymd v f offset) i))
        (formatLength (formatPrecision f) + (formatZone offset).tail.length) out
      = some (0, x) := by
  have hv : v < 86400 := by
    have hhour : v / 60 / 60 < 24 := h.hour_lt
    omega
  have hheld := holds_zonedText hz hv h.year_le h.month_le
    (Nat.le_trans h.day_le (monthLength_le _ _)) (wrote_stored dst (zonedWrites_nodup ymd v f offset))
  apply datetimeFromIso8601_gives
  exact gives_isoParse.mpr ⟨_, zonedText_valid hz h, (holds_append.mp hheld).1,
    zonedText_length ymd v f offset, hx.symm⟩

/-! ## What is read back in UTC -/

/-- A text in UTC has the encoding of its fields as value. -/
theorem IsoText.value_utc {t : IsoText} (hzone : t.zone.ticks = 0) :
    t.value % 2 ^ 64 = (datetimeEncode ⟨t.header.year, t.header.month, t.header.day,
      t.header.hour, t.header.minute, t.header.second, usec t.fraction⟩ : Int) := by
  simp only [IsoText.value, hzone, datetimeEncode, u64]
  omega

/-- **What is read back**: the ticks after the second are taken for
nanoseconds. -/
theorem format_parse {dt len : Nat} (dst : Nat → UInt8) (out : Nat) (hdt : dt ≤ maxDateTime)
    (hlen : formatLength (formatPrecision (dt % 1000000)) < len) :
    datetimeFromIso8601 (fun i => some (stored dst (datetimeFormat len dt 0).1 i))
        (datetimeFormat len dt 0).2 out
      = some (0, dt - dt % 1000000 + dt % 1000000 / 1000) := by
  obtain ⟨d, r, hy, hr, rfl⟩ := exists_date hdt
  have hsub : (d.dayNumber * 86400000000 + r) % 1000000 = r % 1000000 := by omega
  rw [hsub] at hlen ⊢
  rw [datetimeFormat_date d hy hr (by decide) hlen]
  -- the ticks that are left, read as nanoseconds
  have hr' : r - r % 1000000 + r % 1000000 / 1000 < 86400000000 := by omega
  generalize hymd : Ymd.mk d.year d.month d.day _ = ymd
  have hfields : Decoded.mk ymd.year ymd.month ymd.day (r / 1000000 / 60 / 60)
      (r / 1000000 / 60 % 60) (r / 1000000 % 60) (r % 1000000 / 1000)
      = ⟨d.year, d.month, d.day, (r - r % 1000000 + r % 1000000 / 1000) / 1000000 / 60 / 60,
        (r - r % 1000000 + r % 1000000 / 1000) / 1000000 / 60 % 60,
        (r - r % 1000000 + r % 1000000 / 1000) / 1000000 % 60,
        (r - r % 1000000 + r % 1000000 / 1000) % 1000000⟩ := by
    have hsec : (r - r % 1000000 + r % 1000000 / 1000) / 1000000 = r / 1000000 := by omega
    have husec : (r - r % 1000000 + r % 1000000 / 1000) % 1000000 = r % 1000000 / 1000 := by omega
    rw [hsec, husec, ← hymd]
  obtain ⟨hvalid, hencode⟩ := datetimeEncode_date d hy hr' hfields
  refine zonedText_parse dst out (show (0 : Int).natAbs ≤ 1439 by decide) hvalid ?_
  rw [IsoText.value_utc rfl]
  simp only [zonedText, usec_digits (Nat.mod_lt r (show 1000000 > 0 by decide)), hencode]
  omega

/-- **The round trip holds exactly for whole seconds.** -/
theorem datetimeFormat_roundTrip (dt len : Nat) (dst : Nat → UInt8) (out : Nat)
    (hdt : dt ≤ maxDateTime) (hlen : formatLength (formatPrecision (dt % 1000000)) < len) :
    datetimeFromIso8601 (fun i => some (stored dst (datetimeFormat len dt 0).1 i))
        (datetimeFormat len dt 0).2 out = some (0, dt)
      ↔ dt % 1000000 = 0 := by
  rw [format_parse dst out hdt hlen, Option.some.injEq, Prod.mk.injEq]
  omega

/-- 12:00:00 of the first day, in 21 bytes. -/
theorem datetimeFormat_roundTrip_noon :
    datetimeFromIso8601 (fun i => some (stored (fun _ => 0) (datetimeFormat 21 43200000000 0).1 i))
        (datetimeFormat 21 43200000000 0).2 7 = some (0, 43200000000)
      ↔ 43200000000 % 1000000 = 0 :=
  datetimeFormat_roundTrip 43200000000 21 (fun _ => 0) 7 (by decide) (by decide)

/-- One millisecond is written as one microsecond. -/
theorem datetimeFormat_loses_millisecond :
    (datetimeFormat 64 1000 0).2 = 27
      ∧ datetimeFromIso8601 (fun i => some (stored (fun _ => 0) (datetimeFormat 64 1000 0).1 i))
          27 7 = some (0, 1)
      ∧ ¬ ∀ dt ≤ maxDateTime, ∀ len, formatLength (formatPrecision (dt % 1000000)) < len →
        ∀ (dst : Nat → UInt8) (out : Nat),
          datetimeFromIso8601 (fun i => some (stored dst (datetimeFormat len dt 0).1 i))
            (datetimeFormat len dt 0).2 out = some (0, dt) := by
  have hlen : (datetimeFormat 64 1000 0).2 = 27 := by decide
  have hparse : datetimeFromIso8601
      (fun i => some (stored (fun _ => 0) (datetimeFormat 64 1000 0).1 i)) 27 7 = some (0, 1) := by
    decide +kernel
  refine ⟨hlen, hparse, fun h => ?_⟩
  have hclaim := h 1000 (by decide) 64 (by decide) (fun _ => 0) 7
  rw [hlen, hparse] at hclaim
  exact absurd hclaim (by decide)

end Ats
