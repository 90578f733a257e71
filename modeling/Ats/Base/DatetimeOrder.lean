import Ats.Base.DatetimeDays
import Ats.Base.DatetimeZone
import Ats.Lib.StringOrder

/-!
# DatetimeOrder: timestamps sorted as text

The header has a field of fixed width for each part of a datetime. The
fraction has not: it is left out or cut short where the ticks end in zeros, and
what stands there then is the zone.
-/

namespace Ats

open Scan Gregorian StringOrder

/-! ## Fields of digits -/

theorem orderedCode_digitChar : OrderedCode 10 fun d => [digitChar d] where
  length_eq _ _ := rfl
  lt_iff {u v} hu hv := by
    have hto : ∀ d, d < 10 → (digitChar d).toNat = 48 + d := fun d hd =>
      UInt8.toNat_ofNat_of_lt' (show 48 + d < 256 by omega)
    rw [List.cons_lt_cons_iff, UInt8.lt_iff_toNat_lt, hto u hu, hto v hv]
    simp

theorem orderedCode_twoDigits : OrderedCode 100 twoDigits :=
  orderedCode_digitChar.divMod orderedCode_digitChar []

theorem orderedCode_fourDigits : OrderedCode 10000 fourDigits := by
  have hcode := orderedCode_twoDigits.divMod orderedCode_twoDigits []
  have heq : (fun v => twoDigits (v / 100) ++ ([] ++ twoDigits (v % 100))) = fourDigits := by
    funext v
    have h1 : v / 100 / 10 = v / 1000 := by omega
    have h2 : v % 100 / 10 = v / 10 % 10 := by omega
    have h3 : v % 100 % 10 = v % 10 := by omega
    simp [twoDigits, fourDigits, h1, h2, h3]
  rwa [heq] at hcode

theorem orderedCode_digits (k : Nat) :
    OrderedCode (10 ^ k) fun v => (digits k v).map digitChar := by
  induction k with
  | zero =>
      refine ⟨fun _ _ => rfl, fun {u v} hu hv => ?_⟩
      have : u = v := by omega
      simp [digits, this]
  | succ k ih =>
      have hcode := ih.divMod orderedCode_digitChar []
      rw [Nat.pow_succ]
      simpa only [digits, List.map_append, List.map_cons, List.map_nil, List.nil_append] using hcode

/-- A second of the day. -/
theorem orderedCode_time : OrderedCode 86400 fun v =>
    twoDigits (v / 60 / 60) ++ ascii ':' :: twoDigits (v / 60 % 60)
      ++ ascii ':' :: twoDigits (v % 60) := by
  have hfield : OrderedCode 60 twoDigits :=
    ⟨orderedCode_twoDigits.length_eq, fun hu hv =>
      orderedCode_twoDigits.lt_iff (by omega) (by omega)⟩
  have hhour : OrderedCode 24 twoDigits :=
    ⟨orderedCode_twoDigits.length_eq, fun hu hv =>
      orderedCode_twoDigits.lt_iff (by omega) (by omega)⟩
  exact (hhour.divMod hfield [ascii ':']).divMod hfield [ascii ':']

/-! ## The header -/

/-- The header of a date and a second of the day. -/
def headerOf (d : Date) (v : Nat) : IsoHeader :=
  ⟨d.year, d.month, d.day, ascii 'T', v / 60 / 60, v / 60 % 60, v % 60⟩

/-- **Headers compare as their seconds.** -/
theorem headerOf_append_lt {d e : Date} {v w : Nat} (hd : d.year ≤ 9999) (he : e.year ≤ 9999)
    (hv : v < 86400) (hw : w < 86400) {us vs : List UInt8} :
    (headerOf d v).bytes ++ us < (headerOf e w).bytes ++ vs
      ↔ d.dayNumber * 86400 + v < e.dayNumber * 86400 + w
        ∨ d.dayNumber * 86400 + v = e.dayNumber * 86400 + w ∧ us < vs := by
  have hdate := before_iff (a := d) (b := e)
  have hdate' := before_iff (a := e) (b := d)
  have hm := d.month_le
  have hm' := e.month_le
  have hday := Nat.le_trans d.day_le (monthLength_le _ _)
  have hday' := Nat.le_trans e.day_le (monthLength_le _ _)
  simp only [headerOf, IsoHeader.bytes, List.append_assoc, List.cons_append]
  rw [orderedCode_fourDigits.append_lt_iff (by omega) (by omega), List.cons_lt_cons_iff,
    orderedCode_twoDigits.append_lt_iff (by omega) (by omega), List.cons_lt_cons_iff,
    orderedCode_twoDigits.append_lt_iff (by omega) (by omega), List.cons_lt_cons_iff]
  have htime (us vs : List UInt8) := (orderedCode_time.append_lt_iff hv hw : _ ++ us < _ ++ vs ↔ _)
  simp only [List.append_assoc, List.cons_append] at htime
  rw [htime]
  simp only [UInt8.lt_irrefl, false_or, true_and]
  rcases Date.before_trichotomy d e with hlt | rfl | hlt
  · have hn := hdate.mp hlt
    unfold Date.Before at hlt
    constructor
    · exact fun _ => .inl (by omega)
    · intro _
      omega
  · simp
  · have hn := hdate'.mp hlt
    unfold Date.Before at hlt
    constructor
    · intro h
      omega
    · intro h
      omega

/-! ## The fraction and the zone -/

/-- The zone as text. -/
def zoneText (offset : Int) : List UInt8 := (formatZone offset).first :: (formatZone offset).tail

/-- `Z` comes after the point and the digits, a sign before them. -/
theorem formatZone_first_lt (offset : Int) {c : UInt8}
    (hc : c = ascii '.' ∨ ∃ d < 10, c = digitChar d) :
    ((formatZone offset).first < c ↔ offset ≠ 0) ∧ (c < (formatZone offset).first ↔ offset = 0)
      ∧ (formatZone offset).first ≠ c := by
  have hZ : c < ascii 'Z' ∧ ascii '+' < c ∧ ascii '-' < c := by
    rcases hc with rfl | ⟨d, hd, rfl⟩
    · decide
    · decide +revert
  obtain ⟨hZ, hplus, hminus⟩ := hZ
  have hafter : ∀ {a b : UInt8}, a < b → ¬ b < a ∧ b ≠ a := fun hab =>
    ⟨UInt8.lt_asymm hab, (UInt8.ne_of_lt hab).symm⟩
  unfold formatZone
  by_cases h0 : offset = 0
  · rw [if_pos h0]
    simp [IsoZone.first, h0, hZ, hafter hZ]
  · rw [if_neg h0]
    split
    · simp [IsoZone.first, h0, hminus, (hafter hminus).1, UInt8.ne_of_lt hminus]
    · simp [IsoZone.first, h0, hplus, (hafter hplus).1, UInt8.ne_of_lt hplus]

theorem zoneText_lt_cons (offset : Int) {c : UInt8} {us : List UInt8}
    (hc : c = ascii '.' ∨ ∃ d < 10, c = digitChar d) :
    (zoneText offset < c :: us ↔ offset ≠ 0) ∧ (c :: us < zoneText offset ↔ offset = 0) := by
  obtain ⟨hlt, hgt, hne⟩ := formatZone_first_lt offset hc
  rw [zoneText, List.cons_lt_cons_iff, List.cons_lt_cons_iff, hlt, hgt]
  simp [hne, hne.symm]

theorem digits_nine (f : Nat) : digits 9 f = digits 6 (f / 1000) ++ digits 3 (f % 1000) := by
  simp only [digits, List.nil_append, List.cons_append, List.cons.injEq, and_true]
  omega

theorem digits_three_append (u : Nat) (us : List UInt8) :
    ∃ d < 10, ∃ bs, (digits 3 u).map digitChar ++ us = digitChar d :: bs :=
  ⟨u / 10 / 10 % 10, Nat.mod_lt _ (by decide), _, rfl⟩

/-- What follows the header. -/
def afterHeader (f : Nat) (offset : Int) : List UInt8 :=
  IsoText.fractionBytes (digits (formatPrecision f) (f / pow10 (9 - formatPrecision f)))
    ++ zoneText offset

/-- Six digits for the milliseconds, and three for the rest unless it is 0. -/
theorem afterHeader_of_pos {f : Nat} (h0 : f ≠ 0) (hf : f < 1000000) (offset : Int) :
    afterHeader f offset = ascii '.' :: ((digits 6 (f / 1000)).map digitChar
      ++ if f % 1000 = 0 then zoneText offset
        else (digits 3 (f % 1000)).map digitChar ++ zoneText offset) := by
  have hmod : f % 1000000 = f := Nat.mod_eq_of_lt hf
  unfold afterHeader formatPrecision
  rw [if_neg h0, hmod, if_neg h0]
  by_cases hms : f % 1000 = 0
  · rw [if_pos hms, if_pos hms, IsoText.fractionBytes, if_neg (digits_ne_nil (by decide))]
    rfl
  · rw [if_neg hms, if_neg hms, IsoText.fractionBytes, if_neg (digits_ne_nil (by decide))]
    have hnine : f / pow10 (9 - 9) = f := Nat.div_one f
    rw [hnine, digits_nine, List.map_append, List.cons_append, List.append_assoc]

/-- **The digits of `a` end within those of `b`**: `a` is a whole second or
millisecond, and `b` lies in it. -/
def EndsWithin (a b : Nat) : Prop :=
  a % 1000000 = 0 ∧ a / 1000000 = b / 1000000 ∨ a % 1000 = 0 ∧ a / 1000 = b / 1000

instance EndsWithin.decide (a b : Nat) : Decidable (EndsWithin a b) :=
  inferInstanceAs (Decidable (_ ∨ _))

/-- **Fractions of one second**: the zone of the shorter one is compared with
the digits that the longer one goes on with. -/
theorem afterHeader_lt_iff {f g : Nat} (hf : f < 1000000) (hg : g < 1000000) (offset : Int) :
    afterHeader f offset < afterHeader g offset
      ↔ if offset = 0 ∧ (EndsWithin f g ∨ EndsWithin g f) then g < f else f < g := by
  have hpoint : ascii '.' = ascii '.' ∨ ∃ d < 10, ascii '.' = digitChar d := .inl rfl
  have hzero : afterHeader 0 offset = zoneText offset := rfl
  unfold EndsWithin
  by_cases hf0 : f = 0
  · subst hf0
    rw [hzero]
    by_cases hg0 : g = 0
    · subst hg0
      simp [hzero, List.lt_irrefl]
    · rw [afterHeader_of_pos hg0 hg, (zoneText_lt_cons offset hpoint).1]
      split <;> omega
  · rw [afterHeader_of_pos hf0 hf]
    by_cases hg0 : g = 0
    · subst hg0
      rw [hzero, (zoneText_lt_cons offset hpoint).2]
      split <;> omega
    · rw [afterHeader_of_pos hg0 hg, List.cons_lt_cons_iff,
        (orderedCode_digits 6).append_lt_iff (by omega) (by omega)]
      simp only [UInt8.lt_irrefl, false_or, true_and]
      by_cases hms : f / 1000 = g / 1000
      · -- the milliseconds do not decide
        obtain ⟨d, hd, bs, hdigits⟩ := digits_three_append (f % 1000) (zoneText offset)
        obtain ⟨d', hd', bs', hdigits'⟩ := digits_three_append (g % 1000) (zoneText offset)
        have hsame := List.lt_irrefl (zoneText offset)
        simp only [hms, Nat.lt_irrefl, false_or, true_and, and_true]
        by_cases hf1 : f % 1000 = 0
        · rw [if_pos hf1]
          by_cases hg1 : g % 1000 = 0
          · rw [if_pos hg1, iff_false_left hsame]
            split <;> omega
          · rw [if_neg hg1, hdigits', (zoneText_lt_cons offset (.inr ⟨d', hd', rfl⟩)).1]
            split <;> omega
        · rw [if_neg hf1]
          by_cases hg1 : g % 1000 = 0
          · rw [if_pos hg1, hdigits, (zoneText_lt_cons offset (.inr ⟨d, hd, rfl⟩)).2]
            split <;> omega
          · rw [if_neg hg1, (orderedCode_digits 3).append_lt_iff (by omega) (by omega),
              or_iff_left fun h => hsame h.2]
            split <;> omega
      · rw [or_iff_left fun h => hms h.1]
        split <;> omega

/-! ## Whole texts -/

/-- The text for a day and a time of the day. -/
def textOf (d : Date) (r : Nat) (offset : Int) : List UInt8 :=
  (headerOf d (r / 1000000)).bytes ++ afterHeader (r % 1000000) offset

/-- **The string that `datetime_format` leaves behind.** -/
theorem holds_textOf {len : Nat} {d : Date} {r : Nat} {offset : Int} (dst : Nat → UInt8)
    (habs : offset.natAbs ≤ 1439) (hy : d.year ≤ 9999) (hr : r < 86400000000)
    (hlen : formatLength (formatPrecision (r % 1000000)) < len) :
    Holds (fun i => some (stored dst
        (datetimeFormat len (d.dayNumber * 86400000000 + r) offset).1 i)) 0
        (textOf d r offset ++ [0])
      ∧ 0 ∉ textOf d r offset := by
  rw [datetimeFormat_date d hy hr habs hlen]
  generalize hymd : Ymd.mk d.year d.month d.day _ = ymd
  have htext : (zonedText ymd (r / 1000000) (r % 1000000) offset).bytes = textOf d r offset := by
    subst hymd
    simp only [IsoText.bytes, zonedText, textOf, headerOf, afterHeader, zoneText,
      List.append_assoc]
  have hheld : Holds (fun i => some (stored dst (zonedWrites ymd (r / 1000000) (r % 1000000)
      offset) i)) 0 (textOf d r offset ++ [0]) := by
    rw [← htext]
    subst hymd
    exact holds_zonedText habs (by omega) hy d.month_le
      (Nat.le_trans d.day_le (monthLength_le _ _)) (wrote_stored dst (zonedWrites_nodup _ _ _ _))
  refine ⟨hheld, fun hmem => ?_⟩
  obtain ⟨k, hk, hzero⟩ := List.mem_iff_getElem.mp hmem
  have hlength : (textOf d r offset).length = textLength r offset := by
    rw [← htext, zonedText_length, textLength_eq, formatZone_tail_length]
  have hat := hheld k (by simp; omega)
  rw [List.getElem?_append_left hk, List.getElem?_eq_getElem hk, hzero, Nat.zero_add] at hat
  exact (isCString_zonedWrites dst ymd (r / 1000000) r offset).2 k (hlength ▸ hk)
    (Option.some.inj hat)

theorem ticks_mod_second (n r : Nat) : (n * 86400000000 + r) % 1000000 = r % 1000000 := by
  omega

/-- **Timestamps sort as text**, if they are printed with one and the same
offset that is not 0. In UTC they do unless the digits of the one end within
those of the other: then the earlier of the two comes last. -/
theorem datetimeFormat_sorts_iff (a b len : Nat) (offset : Int) (s t : Nat → UInt8)
    (hlow : -1439 ≤ offset) (hhigh : offset ≤ 1439) (ha : a ≤ maxDateTime) (hb : b ≤ maxDateTime)
    (halen : formatLength (formatPrecision (a % 1000000)) < len)
    (hblen : formatLength (formatPrecision (b % 1000000)) < len) :
    Precedes (stored s (datetimeFormat len a offset).1) (stored t (datetimeFormat len b offset).1)
      ↔ if offset = 0 ∧ (EndsWithin a b ∨ EndsWithin b a) then b < a else a < b := by
  obtain ⟨d, r, hy, hr, rfl⟩ := exists_date ha
  obtain ⟨e, q, hy', hq, rfl⟩ := exists_date hb
  rw [ticks_mod_second] at halen hblen
  have habs : offset.natAbs ≤ 1439 := by omega
  obtain ⟨hheld, hzero⟩ := holds_textOf s habs hy hr halen
  obtain ⟨hheld', hzero'⟩ := holds_textOf t habs hy' hq hblen
  rw [precedes_iff hheld hheld' hzero hzero', textOf, textOf,
    headerOf_append_lt hy hy' (by omega) (by omega),
    afterHeader_lt_iff (by omega) (by omega)]
  unfold EndsWithin
  split <;> split <;> omega

/-- In UTC the text of an instant comes after that of half a second later, with
an offset of an hour before it. -/
theorem datetimeFormat_sorts_iff_half :
    Precedes (stored (fun _ => 0) (datetimeFormat 31 500000 0).1)
        (stored (fun _ => 0) (datetimeFormat 31 0 0).1)
      ∧ Precedes (stored (fun _ => 0) (datetimeFormat 31 0 60).1)
        (stored (fun _ => 0) (datetimeFormat 31 500000 60).1) :=
  ⟨(datetimeFormat_sorts_iff 500000 0 31 0 _ _ (by decide) (by decide) (by decide) (by decide)
      (by decide) (by decide)).mpr (by decide),
    (datetimeFormat_sorts_iff 0 500000 31 60 _ _ (by decide) (by decide) (by decide) (by decide)
      (by decide) (by decide)).mpr (by decide)⟩

end Ats
