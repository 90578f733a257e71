import Ats.Base.DatetimeParse

/-!
# Reads: where `datetime_from_iso8601` leaves its input

The parser runs on an object that ends with the text, so that a read at the
length or beyond gives no byte. The length is checked for the fixed part and
in the fraction; before a signed zone the check is the wrong way round.
-/

namespace Ats

open Scan

/-- The object of a text, with nothing after its end. -/
def objectOf (s : List UInt8) (i : Nat) : Option UInt8 := s[i]?

theorem holds_objectOf {s bs : List UInt8} {i : Nat} :
    Holds (objectOf s) i bs ↔ bs <+: s.drop i := by
  rw [List.prefix_iff_getElem?]
  unfold Holds objectOf
  constructor
  · intro h k hk
    rw [List.getElem?_drop, h k hk]
    exact List.getElem?_eq_getElem hk
  · intro h k hk
    rw [← List.getElem?_drop, h k hk]
    exact (List.getElem?_eq_getElem hk).symm

/-- Bytes that reach the end of the object are all that is left of it. -/
theorem drop_eq_of_holds {s bs : List UInt8} {i : Nat} (h : Holds (objectOf s) i bs)
    (hend : s.length = i + bs.length) : s.drop i = bs := by
  have hlen : bs.length = (s.drop i).length := by
    rw [List.length_drop]
    omega
  exact ((holds_objectOf.mp h).eq_of_length hlen).symm

/-! ## The parts that stay inside -/

section Inside

variable {mem : Nat → Option UInt8} {len : Nat} (hmem : ∀ i, i < len → (mem i).isSome)
include hmem

theorem stays_parseDigit_of_lt {i : Nat} (hi : i < len) : Scan.Stays (parseDigit mem i) := by
  simp [parseDigit, hmem i hi]

theorem stays_parse2d_of_le {p i : Nat} (hi : p + i + 2 ≤ len) : Scan.Stays (parse2d mem p i) := by
  have h0 := stays_parseDigit_of_lt hmem (show p + i < len by omega)
  have h1 := stays_parseDigit_of_lt hmem (show p + (i + 1) < len by omega)
  simp [parse2d, h0, h1]

/-- The length is checked before anything is read. -/
theorem stays_isoHeader_of_lt : Scan.Stays (isoHeader mem len) := by
  unfold isoHeader
  rw [stays_bind]
  refine ⟨stays_require _, fun _ hlen => ?_⟩
  rw [gives_require, Nat.not_lt] at hlen
  have hread : ∀ i, i < 20 → (mem i).isSome := fun i hi => hmem i (by omega)
  have hdigit : ∀ i, i < 20 → Scan.Stays (parseDigit mem i) :=
    fun i hi => stays_parseDigit_of_lt hmem (by omega)
  have htwo : ∀ i, i < 19 → Scan.Stays (parse2d mem 0 i) :=
    fun i hi => stays_parse2d_of_le hmem (by omega)
  simp [hread, hdigit, htwo, parse4d]

/-- The loop stops at the end. -/
theorem stays_isoDigits_of_le {n cur nsec : Nat} (hn : cur + n ≤ len) :
    Scan.Stays (isoDigits mem n cur nsec) := by
  induction n generalizing cur nsec with
  | zero => simp [isoDigits]
  | succ n ih =>
      have hbyte := hmem cur (by omega)
      have htail : ∀ v, Scan.Stays (isoDigits mem n (cur + 1) v) := fun v => ih (by omega)
      simp [isoDigits, hbyte, htail]

theorem stays_isoPoint_of_le (hlen : 20 ≤ len) : Scan.Stays (isoPoint mem len) := by
  have hdigits : Scan.Stays (isoDigits mem (len - 20) 20 0) :=
    stays_isoDigits_of_le hmem (by omega)
  unfold isoPoint
  rw [stays_bind, stays_byte]
  refine ⟨hmem 19 (by omega), fun ch _ => ?_⟩
  rw [stays_ite]
  refine ⟨fun _ => ?_, fun _ => stays_pure _⟩
  unfold isoFraction
  rw [stays_bind]
  refine ⟨hdigits, fun r hr => ?_⟩
  obtain ⟨ds, -, -, rfl, hend⟩ := gives_isoDigits.mp hr
  simp only [stays_bind, stays_require, stays_byte, stays_pure, gives_require, true_and,
    implies_true, and_true]
  intro _ _ _ hne
  exact hmem _ (by omega)

end Inside

/-! ## The zone -/

/-- What may be left after a sign for the parser to read past the end: at most
two bytes, or the hours, the colon and at most one digit. -/
inductive CutShort : List UInt8 → Prop
  | hours {rest : List UInt8} : rest.length ≤ 2 → CutShort rest
  | minutes {hour : Nat} {ds : List Nat} : hour ≤ 23 → ds.length ≤ 1 → (∀ d ∈ ds, d < 10) →
      CutShort (twoDigits hour ++ ascii ':' :: ds.map digitChar)

/-- A text that ends within the designator of a signed zone. -/
def EndsInZone (s : List UInt8) : Prop :=
  ∃ (h : IsoHeader) (ds : List Nat) (sign : UInt8) (rest : List UInt8), h.Valid
    ∧ (∀ d ∈ ds, d < 10) ∧ ds.length ≤ 9 ∧ (sign = ascii '+' ∨ sign = ascii '-')
    ∧ CutShort rest ∧ s = h.bytes ++ IsoText.fractionBytes ds ++ sign :: rest

theorem objectOf_isSome {s : List UInt8} {i : Nat} : (objectOf s i).isSome ↔ i < s.length := by
  unfold objectOf
  simp

theorem stays_parseDigit_iff {s : List UInt8} {i : Nat} :
    Scan.Stays (parseDigit (objectOf s) i) ↔ i < s.length := by
  simp [parseDigit, objectOf_isSome]

/-- The second digit is read only after the first one. -/
theorem stays_parse2d_iff {s : List UInt8} {p i : Nat} :
    Scan.Stays (parse2d (objectOf s) p i) ↔ p + i < s.length
      ∧ ∀ d, Gives (parseDigit (objectOf s) (p + i)) d → p + (i + 1) < s.length := by
  simp [parse2d, stays_parseDigit_iff]

/-- The order of the reads after a sign: the colon, the hours, the minutes. -/
theorem stays_isoZone_signed {s : List UInt8} {cur : Nat} {ch : UInt8}
    (hsign : ch = ascii '+' ∨ ch = ascii '-') :
    Scan.Stays (isoZone (objectOf s) cur s.length ch)
      ↔ (s.length ≤ cur + 5 → cur + 2 < s.length
        ∧ (objectOf s (cur + 2) = some (ascii ':') → Scan.Stays (parse2d (objectOf s) cur 0)
          ∧ ∀ zh, Gives (parse2d (objectOf s) cur 0) zh → zh ≤ 23 →
            Scan.Stays (parse2d (objectOf s) cur 3))) := by
  have hutc : ¬ (ch = ascii 'Z' ∨ ch = ascii 'z') := by
    rcases hsign with rfl | rfl <;> decide
  rw [isoZone, if_neg hutc]
  simp only [stays_bind, stays_require, gives_require, stays_byte, gives_byte, stays_pure,
    objectOf_isSome, hsign, true_and, forall_const, Nat.not_lt, gt_iff_lt, implies_true, and_true]
  refine imp_congr_right fun _ => and_congr_right fun _ => ⟨fun h hcolon => h _ hcolon rfl, ?_⟩
  rintro h _ hcolon rfl
  exact h hcolon

/-- The bytes that make a signed zone end too early are read as its hours, its
colon and a first digit of its minutes. -/
theorem not_stays_isoZone {s : List UInt8} {cur : Nat} {ch : UInt8}
    (hsign : ch = ascii '+' ∨ ch = ascii '-') (hcut : CutShort (s.drop cur)) :
    ¬ Scan.Stays (isoZone (objectOf s) cur s.length ch) := by
  rw [stays_isoZone_signed hsign]
  intro hstays
  generalize hrest : s.drop cur = rest at hcut
  have hlen : rest.length = s.length - cur := by rw [← hrest, List.length_drop]
  cases hcut with
  | hours hle =>
    have hcolon := (hstays (by omega)).1
    omega
  | @minutes hour ds hhour hds hdigits =>
    have hheld : Holds (objectOf s) cur (twoDigits hour ++ ascii ':' :: ds.map digitChar) :=
      holds_objectOf.mpr (hrest ▸ List.prefix_refl _)
    have hcount : ds.length + 3 = s.length - cur := by
      rw [← hlen]
      simp [twoDigits]
    simp only [holds_append, holds_cons] at hheld
    obtain ⟨hzh, hcolon, hzm⟩ := hheld
    have hminutes := ((hstays (by omega)).2 hcolon).2 hour
      (gives_parse2d.mpr ⟨by omega, hzh⟩) hhour
    rw [stays_parse2d_iff] at hminutes
    obtain ⟨hfirst, hsecond⟩ := hminutes
    cases ds with
    | nil =>
      simp only [List.length_nil] at hcount
      omega
    | cons d ds =>
      rw [List.map_cons, holds_cons] at hzm
      have hpast := hsecond d (gives_parseDigit.mpr ⟨hdigits d List.mem_cons_self, hzm.1⟩)
      simp only [List.length_cons] at hcount hds
      omega

/-- A signed zone that is not cut short is read to its end, or given up. -/
theorem stays_isoZone_of_not {s : List UInt8} {cur : Nat} {ch : UInt8}
    (hsign : ch = ascii '+' ∨ ch = ascii '-') (hcut : ¬ CutShort (s.drop cur)) :
    Scan.Stays (isoZone (objectOf s) cur s.length ch) := by
  rw [stays_isoZone_signed hsign]
  intro hle
  have hpast : 2 < (s.drop cur).length := Nat.lt_of_not_le fun h => hcut (.hours h)
  rw [List.length_drop] at hpast
  have hinside : ∀ i, i < s.length → (objectOf s i).isSome := fun i => objectOf_isSome.mpr
  refine ⟨by omega, fun hcolon => ⟨stays_parse2d_of_le hinside (by omega), fun zh hzh hhour => ?_⟩⟩
  obtain ⟨-, hhours⟩ := gives_parse2d.mp hzh
  rw [stays_parse2d_iff]
  -- the text would end after the colon, or after one digit of the minutes
  have hshort : ∀ ds : List Nat, ds.length ≤ 1 → (∀ d ∈ ds, d < 10) →
      Holds (objectOf s) (cur + 3) (ds.map digitChar) → s.length ≠ cur + 3 + ds.length := by
    intro ds hds hdigits hheld hend
    have hrest : s.drop cur = twoDigits zh ++ ascii ':' :: ds.map digitChar := by
      apply drop_eq_of_holds
      · simp only [holds_append, holds_cons]
        exact ⟨hhours, hcolon, hheld⟩
      · simp [twoDigits]
        omega
    rw [hrest] at hcut
    exact hcut (.minutes hhour hds hdigits)
  constructor
  · have hnone := hshort [] (Nat.zero_le _) (by simp) holds_nil
    simp only [List.length_nil] at hnone
    omega
  · intro d hd
    obtain ⟨hd10, hdmem⟩ := gives_parseDigit.mp hd
    have hone := hshort [d] (Nat.le_refl _) (by simpa using hd10) (by simpa using hdmem)
    have hat := objectOf_isSome.mp (Option.isSome_of_eq_some hdmem)
    simp only [List.length_cons, List.length_nil] at hone
    omega

/-- **The zone is read inside the text** unless it is cut short. -/
theorem stays_isoZone_iff {s : List UInt8} {cur : Nat} {ch : UInt8} :
    Scan.Stays (isoZone (objectOf s) cur s.length ch)
      ↔ ¬ ((ch = ascii '+' ∨ ch = ascii '-') ∧ CutShort (s.drop cur)) := by
  by_cases hsign : ch = ascii '+' ∨ ch = ascii '-'
  · refine ⟨fun h hcut => not_stays_isoZone hsign hcut.2 h, fun h => ?_⟩
    exact stays_isoZone_of_not hsign fun hcut => h ⟨hsign, hcut⟩
  · simp [isoZone, hsign]

/-! ## The whole text -/

theorem gives_isoPoint_le {mem : Nat → Option UInt8} {len cur nsec : Nat} {ch : UInt8}
    (hlen : 20 ≤ len) (h : Gives (isoPoint mem len) (cur, nsec, ch)) : cur ≤ len := by
  simp only [isoPoint, gives_bind, gives_ite, gives_isoFraction hlen, gives_pure,
    Prod.mk.injEq] at h
  obtain ⟨_, -, ⟨-, ds, c, -, -, -, -, hlt, -, rfl, -⟩ | ⟨-, rfl, -⟩⟩ := h <;> omega

/-- A text that begins with `bs` is `bs` and what is left of it. -/
theorem holds_objectOf_zero {s bs : List UInt8} :
    Holds (objectOf s) 0 bs ↔ s = bs ++ s.drop bs.length := by
  rw [holds_objectOf, List.drop_zero, List.prefix_iff_eq_append]
  exact eq_comm

theorem headerAndFraction_length (h : IsoHeader) (ds : List Nat) (sign : UInt8) :
    (h.bytes ++ (IsoText.fractionBytes ds ++ [sign])).length
      = 20 + (IsoText.fractionBytes ds).length := by
  simp [header_length]
  omega

/-- A text that ends in its zone brings the parser there. -/
theorem EndsInZone.reached {s : List UInt8} (h : EndsInZone s) :
    ∃ (f : Decoded) (cur nsec : Nat) (sign : UInt8), Gives (isoHeader (objectOf s) s.length) f
      ∧ Gives (isoPoint (objectOf s) s.length) (cur, nsec, sign)
      ∧ (sign = ascii '+' ∨ sign = ascii '-') ∧ CutShort (s.drop cur) := by
  obtain ⟨h, ds, sign, rest, hh, hds, hle, hsign, hcut, hs⟩ := h
  have hat := headerAndFraction_length h ds sign
  have hsplit : s = (h.bytes ++ (IsoText.fractionBytes ds ++ [sign])) ++ rest := by
    rw [hs]
    simp
  have hlen : s.length = 20 + (IsoText.fractionBytes ds).length + rest.length := by
    rw [hsplit, List.length_append, hat]
  have hheld : Holds (objectOf s) 0 (h.bytes ++ (IsoText.fractionBytes ds ++ [sign])) :=
    holds_objectOf.mpr ⟨rest, hsplit.symm⟩
  rw [holds_append, header_length] at hheld
  have hz : (IsoZone.offset sign 0 0).Valid := ⟨hsign, Nat.zero_le _, Nat.zero_le _⟩
  refine ⟨_, _, _, sign, gives_isoHeader.mpr ⟨by omega, h, hh, hheld.1, rfl⟩,
    (gives_isoPoint hz (by omega) (by omega)).mpr ⟨ds, hds, hle, hheld.2, rfl, rfl⟩, hsign, ?_⟩
  rw [hsplit, ← hat, List.drop_left]
  exact hcut

/-- A zone that the parser comes to and that is cut short ends the text. -/
theorem endsInZone_of_reached {s : List UInt8} {f : Decoded} {cur nsec : Nat} {sign : UInt8}
    (hf : Gives (isoHeader (objectOf s) s.length) f)
    (hpoint : Gives (isoPoint (objectOf s) s.length) (cur, nsec, sign))
    (hsign : sign = ascii '+' ∨ sign = ascii '-') (hcut : CutShort (s.drop cur)) :
    EndsInZone s := by
  obtain ⟨hlen, h, hh, hheld, -⟩ := gives_isoHeader.mp hf
  have hz : (IsoZone.offset sign 0 0).Valid := ⟨hsign, Nat.zero_le _, Nat.zero_le _⟩
  obtain ⟨ds, hds, hle, hfrac, rfl, -⟩ :=
    (gives_isoPoint hz hlen (gives_isoPoint_le hlen hpoint)).mp hpoint
  refine ⟨h, ds, sign, _, hh, hds, hle, hsign, hcut, ?_⟩
  have hall : Holds (objectOf s) 0 (h.bytes ++ (IsoText.fractionBytes ds ++ [sign])) :=
    holds_append.mpr ⟨hheld, by rwa [header_length, Nat.zero_add]⟩
  have heq := holds_objectOf_zero.mp hall
  rw [headerAndFraction_length] at heq
  simpa using heq

/-- **The parser stays inside its input** exactly where the text does not end
in the designator of a signed zone: the test before it rejects the texts that
go on, not those that stop. -/
theorem datetimeFromIso8601_inside_iff (s : List UInt8) (dt : Nat) :
    datetimeFromIso8601 (objectOf s) s.length dt ≠ none ↔ ¬ EndsInZone s := by
  have hinside : ∀ i, i < s.length → (objectOf s i).isSome := fun i => objectOf_isSome.mpr
  have hrun : datetimeFromIso8601 (objectOf s) s.length dt ≠ none
      ↔ Scan.Stays (isoParse (objectOf s) s.length) := by
    unfold datetimeFromIso8601 Scan.Stays
    split <;> simp_all
  rw [hrun]
  simp only [isoParse, stays_bind, stays_require, stays_pure, implies_true, and_true,
    stays_isoHeader_of_lt hinside, true_and, Prod.forall, stays_isoZone_iff, not_and]
  constructor
  · intro h hends
    obtain ⟨f, cur, nsec, sign, hf, hpoint, hsign, hcut⟩ := hends.reached
    exact (h f hf).2 cur nsec sign hpoint hsign hcut
  · intro h f hf
    refine ⟨stays_isoPoint_of_le hinside (gives_isoHeader.mp hf).1, ?_⟩
    intro cur nsec sign hpoint hsign hcut
    exact h (endsInZone_of_reached hf hpoint hsign hcut)

/-- `2013-12-31T23:59:59+` -/
def signAtEnd : List UInt8 := "2013-12-31T23:59:59+".toList.map ascii

/-- The byte 22 is read where the text has 20. -/
theorem datetimeFromIso8601_reads_past :
    datetimeFromIso8601 (objectOf signAtEnd) signAtEnd.length 0 = none
      ∧ ¬ ∀ (s : List UInt8) (dt : Nat),
        datetimeFromIso8601 (objectOf s) s.length dt ≠ none := by
  have hout : datetimeFromIso8601 (objectOf signAtEnd) signAtEnd.length 0 = none := by decide
  exact ⟨hout, fun h => h signAtEnd 0 hout⟩

end Ats
