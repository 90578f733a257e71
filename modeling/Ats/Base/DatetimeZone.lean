import Mathlib.Tactic.IntervalCases
import Ats.Base.DatetimeFormat
import Ats.Base.DatetimeRange

/-!
# Zones: `datetime_format` with an offset

The length that the formatter computes leaves out the designator of a zone,
and the fields it prints are those of UTC. Both show as soon as the offset is
not 0.
-/

namespace Ats

open Scan Gregorian

/-! ## The buffer -/

/-- A string of `n` characters and its terminator. -/
def IsCString (m : Nat → UInt8) (n : Nat) : Prop := m n = 0 ∧ ∀ i, i < n → m i ≠ 0

/-- The length of the text of a datetime, without its terminator. -/
def textLength (dt : Nat) (offset : Int) : Nat :=
  19 + (if dt % 1000000 = 0 then 0 else 1 + formatPrecision (dt % 1000000))
    + if offset = 0 then 1 else 6

/-- The buffer is respected and the length reported. -/
structure RespectsBuffer (len dt : Nat) (offset : Int) : Prop where
  inside : ∀ w ∈ (datetimeFormat len dt offset).1, w.1 < len
  refused : (datetimeFormat len dt offset).2 = 0 ∧ (datetimeFormat len dt offset).1 = []
    ↔ len < textLength dt offset + 1
  counted : textLength dt offset + 1 ≤ len → ∀ dst : Nat → UInt8,
    IsCString (stored dst (datetimeFormat len dt offset).1) (datetimeFormat len dt offset).2

/-- Each address from `a` to `b` is given a character. -/
def Covers (ws : List (Nat × UInt8)) (a b : Nat) : Prop :=
  ∀ i, a ≤ i → i < b → ∃ c, c ≠ 0 ∧ (i, c) ∈ ws

theorem Covers.trans {ws : List (Nat × UInt8)} {a b c : Nat} (hab : Covers ws a b)
    (hbc : Covers ws b c) : Covers ws a c := by
  intro i hi hlt
  rcases Nat.lt_or_ge i b with h | h
  · exact hab i hi h
  · exact hbc i h hlt

theorem Covers.mono {ws us : List (Nat × UInt8)} {a b : Nat} (h : Covers ws a b)
    (hsub : ws ⊆ us) : Covers us a b := by
  intro i hi hlt
  obtain ⟨c, hc, hmem⟩ := h i hi hlt
  exact ⟨c, hc, hsub hmem⟩

theorem covers_single {a : Nat} {c : UInt8} (hc : c ≠ 0) : Covers [(a, c)] a (a + 1) := by
  intro i hi hlt
  obtain rfl : i = a := by omega
  exact ⟨c, hc, List.mem_cons_self⟩

theorem digitChar_ne_zero {d : Nat} (hd : d < 10) : digitChar d ≠ 0 := by
  decide +revert

theorem digitChar_mod_ne_zero (v : Nat) : digitChar (v % 10) ≠ 0 :=
  digitChar_ne_zero (Nat.mod_lt v (by decide))

theorem digitChar_mod_six_ne_zero (v : Nat) : digitChar (v % 6) ≠ 0 :=
  digitChar_ne_zero (Nat.lt_trans (Nat.mod_lt v (by decide)) (by decide))

theorem covers_headerWrites (ymd : Ymd) (v : Nat) : Covers (headerWrites ymd v) 0 19 := by
  have hdigit := digitChar_mod_ne_zero
  have hsix := digitChar_mod_six_ne_zero
  have hmarks : ascii ':' ≠ 0 ∧ ascii '-' ≠ 0 ∧ ascii 'T' ≠ 0 := by decide
  intro i _ hi
  unfold headerWrites
  interval_cases i <;> simp [hdigit, hsix, hmarks]

theorem covers_precisionWrites (p k v : Nat) :
    Covers (precisionWrites p k v) (p + 1) (p + 1 + k) := by
  induction k generalizing v with
  | zero =>
    intro i hi hlt
    omega
  | succ k ih =>
    intro i hi hlt
    rw [precisionWrites]
    rcases Nat.lt_or_ge i (p + 1 + k) with h | h
    · obtain ⟨c, hc, hmem⟩ := ih (v / 10) i hi h
      exact ⟨c, hc, List.mem_cons_of_mem _ hmem⟩
    · obtain rfl : i = p + (k + 1) := by omega
      exact ⟨_, digitChar_mod_ne_zero v, List.mem_cons_self⟩

theorem covers_zoneWrites (p : Nat) (offset : Int) :
    Covers (zoneWrites p offset) p (p + if offset = 0 then 1 else 6) := by
  have hdigit := digitChar_mod_ne_zero
  have hsix := digitChar_mod_six_ne_zero
  have hmarks : ascii ':' ≠ 0 ∧ ascii '-' ≠ 0 ∧ ascii '+' ≠ 0 ∧ ascii 'Z' ≠ 0 := by decide
  intro i hi hlt
  obtain ⟨j, rfl⟩ := Nat.exists_eq_add_of_le hi
  unfold zoneWrites
  split at hlt
  case isTrue h0 =>
    obtain rfl : j = 0 := by omega
    simp [h0, hmarks]
  case isFalse h0 =>
    have hj : j < 6 := by omega
    rw [if_neg h0]
    interval_cases j <;> split <;> simp [hdigit, hsix, hmarks]

theorem formatPrecision_eq_zero {f : Nat} : formatPrecision f = 0 ↔ f = 0 := by
  unfold formatPrecision
  split_ifs <;> simp_all

/-- `dlen` counts one character for the zone. -/
theorem textLength_eq (dt : Nat) (offset : Int) :
    textLength dt offset
      = formatLength (formatPrecision (dt % 1000000)) + if offset = 0 then 0 else 5 := by
  have hzero := formatPrecision_eq_zero (f := dt % 1000000)
  unfold textLength formatLength
  split_ifs <;> omega

/-- **Every character of the text is written.** -/
theorem covers_zonedWrites (ymd : Ymd) (v dt : Nat) (offset : Int) :
    Covers (zonedWrites ymd v (dt % 1000000) offset) 0 (textLength dt offset) := by
  have hheader := covers_headerWrites ymd v
  unfold zonedWrites textLength
  by_cases hf : dt % 1000000 = 0
  · rw [if_pos hf, if_neg (not_not_intro (formatPrecision_eq_zero.mpr hf))]
    refine (hheader.mono ?_).trans ((covers_zoneWrites 19 offset).mono ?_)
    · exact List.subset_append_left _ _
    · exact List.subset_append_right _ _
  · rw [if_neg hf, if_pos (mt formatPrecision_eq_zero.mp hf)]
    generalize formatPrecision (dt % 1000000) = k
    generalize dt % 1000000 / pow10 (9 - k) = u
    have hdot := covers_single (a := 19) (show ascii '.' ≠ 0 by decide)
    have hdigits := covers_precisionWrites 19 k u
    have hzone := covers_zoneWrites (19 + (1 + k)) offset
    -- the point is written after the digits
    have hfraction : Covers (headerWrites ymd v ++ precisionWrites 19 k u
        ++ (19, ascii '.') :: zoneWrites (19 + (1 + k)) offset) 19 (19 + (1 + k)) := by
      refine (hdot.mono ?_).trans ((Nat.add_assoc 19 1 k ▸ hdigits).mono ?_)
      · intro w hw
        simp [List.mem_singleton.mp hw]
      · intro w hw
        simp [hw]
    refine ((hheader.mono ?_).trans hfraction).trans (hzone.mono ?_)
    · intro w hw
      simp [hw]
    · intro w hw
      simp [hw]

theorem zoneWrites_end (p : Nat) (offset : Int) :
    (p + (if offset = 0 then 1 else 6), 0) ∈ zoneWrites p offset := by
  unfold zoneWrites
  split <;> simp

theorem zonedWrites_end (ymd : Ymd) (v dt : Nat) (offset : Int) :
    (textLength dt offset, 0) ∈ zonedWrites ymd v (dt % 1000000) offset := by
  unfold zonedWrites textLength
  by_cases hf : dt % 1000000 = 0
  · rw [if_pos hf, if_neg (not_not_intro (formatPrecision_eq_zero.mpr hf))]
    exact List.mem_append_right _ (zoneWrites_end 19 offset)
  · rw [if_neg hf, if_pos (mt formatPrecision_eq_zero.mp hf)]
    exact List.mem_append_right _ (List.mem_cons_of_mem _ (zoneWrites_end _ offset))

theorem headerWrites_le (ymd : Ymd) (v : Nat) : ∀ w ∈ headerWrites ymd v, w.1 ≤ 18 := by
  simp [headerWrites]

theorem precisionWrites_le (p k v : Nat) : ∀ w ∈ precisionWrites p k v, w.1 ≤ p + k := by
  induction k generalizing v with
  | zero => simp [precisionWrites]
  | succ k ih =>
    intro w hw
    rcases List.mem_cons.mp hw with rfl | hw
    · exact Nat.le_refl _
    · have := ih _ w hw
      omega

theorem zoneWrites_le (p : Nat) (offset : Int) :
    ∀ w ∈ zoneWrites p offset, w.1 ≤ p + if offset = 0 then 1 else 6 := by
  unfold zoneWrites
  split <;> simp

/-- Nothing is written after the terminator. -/
theorem zonedWrites_le (ymd : Ymd) (v dt : Nat) (offset : Int) :
    ∀ w ∈ zonedWrites ymd v (dt % 1000000) offset, w.1 ≤ textLength dt offset := by
  have hheader := headerWrites_le ymd v
  unfold zonedWrites textLength
  by_cases hf : dt % 1000000 = 0
  · rw [if_pos hf, if_neg (not_not_intro (formatPrecision_eq_zero.mpr hf))]
    intro w hw
    rcases List.mem_append.mp hw with hw | hw
    · have := hheader w hw
      omega
    · exact zoneWrites_le 19 offset w hw
  · rw [if_neg hf, if_pos (mt formatPrecision_eq_zero.mp hf)]
    intro w hw
    rw [List.mem_append, List.mem_append, List.mem_cons] at hw
    rcases hw with (hw | hw) | rfl | hw
    · have := hheader w hw
      omega
    · have := precisionWrites_le 19 _ _ w hw
      omega
    · simp only
      omega
    · exact zoneWrites_le _ offset w hw

/-- The text stands in the buffer, up to its terminator. -/
theorem isCString_zonedWrites (dst : Nat → UInt8) (ymd : Ymd) (v dt : Nat) (offset : Int) :
    IsCString (stored dst (zonedWrites ymd v (dt % 1000000) offset)) (textLength dt offset) := by
  have hnodup := zonedWrites_nodup ymd v (dt % 1000000) offset
  refine ⟨stored_of_mem hnodup (zonedWrites_end ymd v dt offset), fun i hi => ?_⟩
  obtain ⟨c, hc, hmem⟩ := covers_zonedWrites ymd v dt offset i (Nat.zero_le i) hi
  rw [stored_of_mem hnodup hmem]
  exact hc

theorem IsCString.unique {m : Nat → UInt8} {a b : Nat} (ha : IsCString m a) (hb : IsCString m b) :
    a = b := by
  rcases Nat.lt_trichotomy a b with h | h | h
  · exact absurd ha.1 (hb.2 a h)
  · exact h
  · exact absurd hb.1 (ha.2 b h)

/-- A buffer that is too small for the length with `Z` is left alone. -/
theorem datetimeFormat_refuses {len dt : Nat} (offset : Int)
    (hlen : len ≤ formatLength (formatPrecision (dt % 1000000))) :
    datetimeFormat len dt offset = ([], 0) := by
  have hf : u32 (dt % ticksPerDay % ticksPerSecond) = dt % 1000000 := by
    unfold u32 ticksPerDay ticksPerSecond
    omega
  simp only [datetimeFormat, timestampFormatInternal, hf, ge_iff_le, if_pos hlen]

theorem respectsBuffer_of_refuses {len dt : Nat} (offset : Int)
    (hlen : len ≤ formatLength (formatPrecision (dt % 1000000))) :
    RespectsBuffer len dt offset := by
  have heq := datetimeFormat_refuses offset hlen
  have htext := textLength_eq dt offset
  have hsmall : len < textLength dt offset + 1 := by
    split at htext <;> omega
  refine ⟨?_, ?_, ?_⟩
  · simp [heq]
  · simp [heq, hsmall]
  · intro hfits
    omega

/-- Past the test the text is written, with a designator of any length. -/
theorem respectsBuffer_iff_of_lt {len dt : Nat} {offset : Int} (habs : offset.natAbs ≤ 1439)
    (hlen : formatLength (formatPrecision (dt % 1000000)) < len) :
    RespectsBuffer len dt offset ↔ offset = 0 := by
  have htext := textLength_eq dt offset
  have heq := datetimeFormat_eq habs hlen
  generalize rdnToYmd (u32 (dt / 86400000000)) = ymd at heq
  generalize dt % 86400000000 / 1000000 = v at heq
  have hend := zonedWrites_end ymd v dt offset
  have hcstring := fun dst => isCString_zonedWrites dst ymd v dt offset
  constructor
  · intro h
    by_contra hz
    rw [if_neg hz] at htext
    have hfits := h.inside (textLength dt offset, 0) (by rw [heq]; exact hend)
    have hcounted := h.counted hfits (fun _ => 0)
    rw [heq] at hcounted
    have hsame := hcounted.unique (hcstring _)
    simp only at hsame
    omega
  · intro hz
    have hpos : formatLength (formatPrecision (dt % 1000000)) ≠ 0 := by
      unfold formatLength
      split <;> omega
    rw [if_pos hz, Nat.add_zero] at htext
    refine ⟨?_, ?_, ?_⟩
    · intro w hw
      rw [heq] at hw
      have := zonedWrites_le ymd v dt offset w hw
      omega
    · rw [heq]
      simp only
      omega
    · intro _ dst
      rw [heq]
      simp only
      rw [← htext]
      exact hcstring dst

/-- **The formatter respects its buffer** exactly when it writes `Z` or
refuses. -/
theorem datetimeFormat_respects_iff (len dt : Nat) (offset : Int) (hlow : -1439 ≤ offset)
    (hhigh : offset ≤ 1439) :
    RespectsBuffer len dt offset
      ↔ offset = 0 ∨ len ≤ formatLength (formatPrecision (dt % 1000000)) := by
  rcases Nat.lt_or_ge (formatLength (formatPrecision (dt % 1000000))) len with hlen | hlen
  · rw [respectsBuffer_iff_of_lt (show offset.natAbs ≤ 1439 by omega) hlen,
      or_iff_left (Nat.not_le.mpr hlen)]
  · exact iff_of_true (respectsBuffer_of_refuses offset hlen) (Or.inr hlen)

/-- 12:00:00 of the first day, two hours ahead, in 20 bytes. -/
theorem datetimeFormat_respects_noon :
    RespectsBuffer 20 43200000000 120
      ↔ (120 : Int) = 0 ∨ 20 ≤ formatLength (formatPrecision (43200000000 % 1000000)) :=
  datetimeFormat_respects_iff 20 43200000000 120 (by decide) (by decide)

/-- With room for `Z` and no more, the designator is written past the end. -/
theorem datetimeFormat_overruns :
    (25, 0) ∈ (datetimeFormat 21 0 60).1 ∧ (datetimeFormat 21 0 60).2 = 20
      ∧ ¬ ∀ (len dt : Nat) (offset : Int), -1439 ≤ offset → offset ≤ 1439 →
        RespectsBuffer len dt offset := by
  have hpast : (25, 0) ∈ (datetimeFormat 21 0 60).1 := by decide +kernel
  have hret : (datetimeFormat 21 0 60).2 = 20 := by decide +kernel
  refine ⟨hpast, hret, fun h => ?_⟩
  have hclaim := (h 21 0 60 (by decide) (by decide)).inside _ hpast
  exact absurd hclaim (by decide)

/-! ## The instant -/

theorem formatZone_ticks (offset : Int) : (formatZone offset).ticks = offset * 60000000 := by
  have hsigns : ascii '+' ≠ ascii '-' := by decide
  unfold formatZone
  by_cases h0 : offset = 0
  · rw [if_pos h0, h0]
    rfl
  · rw [if_neg h0]
    simp only [IsoZone.ticks]
    rcases Int.lt_or_le offset 0 with hneg | hpos
    · rw [if_pos hneg, if_pos rfl]
      omega
    · rw [if_neg (Int.not_lt.mpr hpos), if_neg hsigns]
      omega

theorem formatZone_tail_length (offset : Int) :
    (formatZone offset).tail.length = if offset = 0 then 0 else 5 := by
  unfold formatZone
  split <;> rfl

/-- **What is read back** of whole seconds: the fields are those of UTC, and
the parser takes the offset off them. -/
theorem zoned_parse {dt len : Nat} {offset : Int} (dst : Nat → UInt8) (out : Nat)
    (habs : offset.natAbs ≤ 1439) (hsec : dt % 1000000 = 0) (hdt : dt ≤ maxDateTime)
    (hlen : formatLength (formatPrecision (dt % 1000000)) < len) :
    datetimeFromIso8601 (fun i => some (stored dst (datetimeFormat len dt offset).1 i))
        (textLength dt offset) out
      = some (0, (((dt : Int) - offset * 60000000) % 2 ^ 64).toNat) := by
  obtain ⟨d, r, hy, hr, rfl⟩ := exists_date hdt
  have hr0 : r % 1000000 = 0 := by omega
  obtain ⟨hvalid, -⟩ := datetimeEncode_date d hy hr rfl
  have hwrites := datetimeFormat_date d hy hr habs (show _ < len by rwa [hr0, ← hsec])
  rw [hwrites, textLength_eq, hsec, hr0, ← formatZone_tail_length]
  generalize hymd : Ymd.mk d.year d.month d.day _ = ymd
  have hdecoded : Decoded.Valid ⟨ymd.year, ymd.month, ymd.day, r / 1000000 / 60 / 60,
      r / 1000000 / 60 % 60, r / 1000000 % 60, r % 1000000⟩ := by
    subst hymd
    exact hvalid
  have ht := zonedText_valid (f := 0) habs hdecoded
  refine zonedText_parse dst out habs hdecoded ?_
  have hdate : ht.date = d := by
    subst hymd
    rfl
  have htime : (zonedText ymd (r / 1000000) 0 offset).timeOfDay = r := by
    have hno : IsoText.usec (zonedText ymd (r / 1000000) 0 offset).fraction = 0 := by
      simp [IsoText.usec, IsoText.number, zonedText, formatPrecision, digits]
    rw [IsoText.timeOfDay, hno]
    simp only [zonedText]
    omega
  have hzone : (zonedText ymd (r / 1000000) 0 offset).zone.ticks = offset * 60000000 :=
    formatZone_ticks offset
  rw [ht.value_eq, ht.instant_eq, hdate, htime, hzone,
    Int.toNat_of_nonneg (Int.emod_nonneg _ (by decide))]
  omega

/-- The year after the last one is written `0000`, which is no year. -/
theorem zoned_parse_beyond {dt len : Nat} {offset : Int} (dst : Nat → UInt8) (out n : Nat)
    (habs : offset.natAbs ≤ 1439) (hday : dt / 86400000000 = 3652059)
    (hlen : formatLength (formatPrecision (dt % 1000000)) < len) (v : Nat) :
    datetimeFromIso8601 (fun i => some (stored dst (datetimeFormat len dt offset).1 i)) n out
      ≠ some (0, v) := by
  intro hret
  have hymd : rdnToYmd (u32 3652059) = ⟨10000, 1, 1, 1⟩ := by decide +kernel
  rw [datetimeFormat_eq habs hlen, hday, hymd] at hret
  have hwrote := wrote_stored dst
    (zonedWrites_nodup ⟨10000, 1, 1, 1⟩ (dt % 86400000000 / 1000000) (dt % 1000000) offset)
  generalize dt % 86400000000 / 1000000 = second at hret hwrote
  generalize hmem : (fun i => some (stored dst (zonedWrites _ second _ offset) i)) = mem
    at hret hwrote
  have hheader : Wrote mem (headerWrites ⟨10000, 1, 1, 1⟩ second) := by
    intro w hw
    refine hwrote w ?_
    unfold zonedWrites
    split <;> simp [hw]
  have hzero : Holds mem (0 + 0) (fourDigits 0) := by
    simp only [headerWrites, wrote_cons, wrote_nil, and_true] at hheader
    simp [fourDigits, hheader]
  obtain ⟨t, ht, hheld, -⟩ := gives_isoParse.mp (gives_of_accepted hret)
  have hyear : Holds mem (0 + 0) (fourDigits t.header.year) := by
    have hbytes := ((IsoText.holds_bytes t).mp hheld).1
    simp only [IsoHeader.bytes, List.append_assoc, holds_append] at hbytes
    exact hbytes.1
  have hle := ht.header.year_le
  have hgives := gives_parse4d.mpr ⟨show t.header.year < 10000 by omega, hyear⟩
  have hgives0 := gives_parse4d.mpr ⟨show 0 < 10000 by decide, hzero⟩
  have hsame := Option.some.inj (Option.some.inj (hgives.symm.trans hgives0))
  have hpos := ht.header.year_pos
  omega

theorem shifted_eq_iff {dt : Nat} {offset : Int} (habs : offset.natAbs ≤ 1439)
    (hdt : dt ≤ maxDateTime) :
    (((dt : Int) - offset * 60000000) % 2 ^ 64).toNat = dt ↔ offset = 0 := by
  constructor
  · intro h
    have hmod : ((dt : Int) - offset * 60000000) % 2 ^ 64 = dt := by
      rw [← Int.toNat_of_nonneg (Int.emod_nonneg _ (show (2 : Int) ^ 64 ≠ 0 by decide)), h]
    have hsplit := Int.emod_add_mul_ediv ((dt : Int) - offset * 60000000) (2 ^ 64)
    rw [hmod] at hsplit
    have hdvd : (2 : Int) ^ 64 ∣ offset * 60000000 := by
      rw [← Int.sub_sub_self (dt : Int) (offset * 60000000), ← hsplit, sub_add_cancel_left]
      exact Int.dvd_neg.mpr (Int.dvd_mul_right _ _)
    have hlt : (offset * 60000000).natAbs < ((2 : Int) ^ 64).natAbs := by
      rw [Int.natAbs_mul]
      exact Nat.lt_of_le_of_lt (Nat.mul_le_mul_right _ habs) (by decide)
    have hzero := Int.eq_zero_of_dvd_of_natAbs_lt_natAbs hdvd hlt
    exact (Int.mul_eq_zero.mp hzero).resolve_right (by decide)
  · rintro rfl
    have hlt : (dt : Int) < 2 ^ 64 := by
      unfold maxDateTime at hdt
      omega
    rw [Int.zero_mul, Int.sub_zero, Int.emod_eq_of_lt (Int.natCast_nonneg dt) hlt,
      Int.toNat_natCast]

/-- **A text with a zone denotes its instant** only when the zone is UTC. -/
theorem datetimeFormat_sameInstant_iff (dt len : Nat) (offset : Int) (dst : Nat → UInt8)
    (out : Nat) (hlow : -1439 ≤ offset) (hhigh : offset ≤ 1439) (hsec : dt % 1000000 = 0)
    (hshift : (dt : Int) + offset * 60000000 ≤ maxDateTime) (hlen : textLength dt offset < len) :
    IsCString (stored dst (datetimeFormat len dt offset).1) (textLength dt offset)
      ∧ (datetimeFromIso8601 (fun i => some (stored dst (datetimeFormat len dt offset).1 i))
          (textLength dt offset) out = some (0, dt) ↔ offset = 0) := by
  have habs : offset.natAbs ≤ 1439 := by omega
  have hfits : formatLength (formatPrecision (dt % 1000000)) < len := by
    have htext := textLength_eq dt offset
    omega
  have hwritten := isCString_zonedWrites dst (rdnToYmd (u32 (dt / 86400000000)))
    (dt % 86400000000 / 1000000) dt offset
  constructor
  · simp only [datetimeFormat_eq habs hfits]
    exact hwritten
  unfold maxDateTime at hshift
  rcases Nat.lt_or_ge maxDateTime dt with hbeyond | hdt
  · unfold maxDateTime at hbeyond
    have hday : dt / 86400000000 = 3652059 := by omega
    refine ⟨fun h => absurd h (zoned_parse_beyond dst out _ habs hday hfits dt), fun h => ?_⟩
    omega
  · rw [zoned_parse dst out habs hsec hdt hfits, Option.some.injEq, Prod.mk.injEq,
      and_iff_right rfl]
    exact shifted_eq_iff habs hdt

/-- 12:00:00 of the first day, two hours ahead. -/
theorem datetimeFormat_sameInstant_noon :
    IsCString (stored (fun _ => 0) (datetimeFormat 64 43200000000 120).1)
        (textLength 43200000000 120)
      ∧ (datetimeFromIso8601
          (fun i => some (stored (fun _ => 0) (datetimeFormat 64 43200000000 120).1 i))
          (textLength 43200000000 120) 0 = some (0, 43200000000) ↔ (120 : Int) = 0) :=
  datetimeFormat_sameInstant_iff 43200000000 64 120 (fun _ => 0) 0 (by decide) (by decide)
    (by decide) (by decide) (by decide)

/-- Noon is written as `0001-01-01T12:00:00+02:00`, which is ten o'clock. -/
theorem datetimeFormat_movesInstant :
    datetimeFromIso8601
        (fun i => some (stored (fun _ => 0) (datetimeFormat 64 43200000000 120).1 i))
        (textLength 43200000000 120) 0 = some (0, 36000000000)
      ∧ ¬ ∀ (dt len : Nat) (offset : Int) (dst : Nat → UInt8) (out : Nat),
        -1439 ≤ offset → offset ≤ 1439 → dt % 1000000 = 0 →
        (minDateTime : Int) ≤ dt + offset * 60000000 →
        (dt : Int) + offset * 60000000 ≤ maxDateTime → textLength dt offset < len →
        datetimeFromIso8601 (fun i => some (stored dst (datetimeFormat len dt offset).1 i))
          (textLength dt offset) out = some (0, dt) := by
  have hrun : datetimeFromIso8601
      (fun i => some (stored (fun _ => 0) (datetimeFormat 64 43200000000 120).1 i))
      (textLength 43200000000 120) 0 = some (0, 36000000000) := by
    decide +kernel
  refine ⟨hrun, fun h => ?_⟩
  have hclaim := h 43200000000 64 120 (fun _ => 0) 0 (by decide) (by decide) (by decide)
    (by decide) (by decide) (by decide)
  rw [hrun] at hclaim
  exact absurd hclaim (by decide)

end Ats
