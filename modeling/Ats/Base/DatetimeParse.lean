import Ats.Lib.Scan
import Ats.Base.Datetime

/-!
# Parsing: `datetime_from_iso8601`

The parser walks the bytes of a text by address. Memory is a partial map, so
an address outside the caller's object gives no byte.
-/

namespace Ats

open Scan Gregorian

/-- A character constant, as the `unsigned char` it is compared with. -/
def ascii (c : Char) : UInt8 := c.toUInt8

/-- `Pow10[i]` -/
def pow10 (i : Nat) : Nat :=
  [1, 10, 100, 1000, 10000, 100000, 1000000, 10000000, 100000000, 1000000000].getD i 0

section Parser

variable (mem : Nat → Option UInt8)

/-- `(d = p[i] - '0') > 9` rejects; the difference is an `unsigned char`. -/
def parseDigit (i : Nat) : Scan Nat := do
  let d ← byte mem i
  require (¬ d - ascii '0' > 9)
  pure (d - ascii '0').toNat

/-- `parse_2d` -/
def parse2d (p i : Nat) : Scan Nat := do
  let d0 ← parseDigit mem (p + (i + 0))
  let d1 ← parseDigit mem (p + (i + 1))
  pure (u16 (d0 * 10 + d1))

/-- `parse_4d` -/
def parse4d (p i : Nat) : Scan Nat := do
  let d0 ← parseDigit mem (p + (i + 0))
  let d1 ← parseDigit mem (p + (i + 1))
  let d2 ← parseDigit mem (p + (i + 2))
  let d3 ← parseDigit mem (p + (i + 3))
  pure (u16 (d0 * 1000 + d1 * 100 + d2 * 10 + d3))

/-- `datetime_from_iso8601` up to the seconds: the length, the separators and
the fields, in the order in which they are checked. -/
def isoHeader (len : Nat) : Scan Decoded := do
  require (¬ len < 20)
  let dash4 ← byte mem 4
  require (dash4 = ascii '-')
  let dash7 ← byte mem 7
  require (dash7 = ascii '-')
  let colon13 ← byte mem 13
  require (colon13 = ascii ':')
  let colon16 ← byte mem 16
  require (colon16 = ascii ':')
  let ch ← byte mem 10
  require (ch = ascii 'T' ∨ ch = ascii ' ' ∨ ch = ascii 't')
  let year ← parse4d mem 0 0
  require (¬ year < 1)
  let month ← parse2d mem 0 5
  require (¬ (month < 1 ∨ month > 12))
  let day ← parse2d mem 0 8
  require (¬ (day < 1 ∨ day > 31))
  let hour ← parse2d mem 0 11
  require (¬ hour > 23)
  let minute ← parse2d mem 0 14
  require (¬ minute > 59)
  let sec ← parse2d mem 0 17
  require (¬ sec > 59)
  require (¬ (day > 28 ∧ day > monthDays year month))
  pure ⟨year, month, day, hour, minute, sec, 0⟩

/-- The digits of the fraction, from `cur` with `n` bytes to the end: where
they stop, and `nsec`. -/
def isoDigits : Nat → Nat → Nat → Scan (Nat × Nat)
  | 0, cur, nsec => pure (cur, nsec)
  | n + 1, cur, nsec => do
    let b ← byte mem cur
    if b - ascii '0' > 9 then pure (cur, nsec)
    else isoDigits n (cur + 1) (u32 (nsec * 10 + (b - ascii '0').toNat))

/-- The fraction after its point: `cur`, `nsec` and the next `ch`. -/
def isoFraction (start len : Nat) : Scan (Nat × Nat × UInt8) := do
  let (cur, nsec) ← isoDigits mem (len - start) start 0
  let ndigits := cur - start
  require (¬ (ndigits < 1 ∨ ndigits > 9))
  require (¬ cur = len)
  let ch ← byte mem cur
  pure (cur + 1, u32 (nsec * pow10 (9 - ndigits)), ch)

/-- The byte after the seconds and the fraction that may start there. -/
def isoPoint (len : Nat) : Scan (Nat × Nat × UInt8) := do
  let ch ← byte mem 19
  if ch = ascii '.' then isoFraction mem 20 len else pure (20, 0, ch)

/-- The zone designator that starts with `ch`: `cur` and `offset`. -/
def isoZone (cur len : Nat) (ch : UInt8) : Scan (Nat × Int) :=
  if ch = ascii 'Z' ∨ ch = ascii 'z' then pure (cur, 0)
  else do
    require (¬ cur + 5 < len)
    require (ch = ascii '+' ∨ ch = ascii '-')
    let colon2 ← byte mem (cur + 2)
    require (colon2 = ascii ':')
    let zoneHour ← parse2d mem cur 0
    require (¬ zoneHour > 23)
    let zoneMin ← parse2d mem cur 3
    require (¬ zoneMin > 59)
    let offset := (zoneHour * 60 + zoneMin) * 60 * ticksPerSecond
    pure (cur + 5, if ch = ascii '-' then -(offset : Int) else offset)

/-- The value that `datetime_from_iso8601` stores. -/
def isoParse (len : Nat) : Scan Nat := do
  let f ← isoHeader mem len
  let (cur, nsec, ch) ← isoPoint mem len
  let (cur, offset) ← isoZone mem cur len ch
  require (cur = len)
  let dt := datetimeFromYmd f.year f.month f.day
  let dt := u64 (dt + datetimeFromHmsu f.hour f.minute f.second (nsec / 1000))
  pure (((dt : Int) - offset) % 2 ^ 64).toNat

/-- `datetime_from_iso8601`: its result and `*dt`; `none` when it reads
outside the object. -/
def datetimeFromIso8601 (len dt : Nat) : Option (Nat × Nat) :=
  match (isoParse mem len).run with
  | none => none
  | some none => some (1, dt)
  | some (some dt') => some (0, dt')

end Parser

/-! ## The grammar -/

/-- The character of a digit. -/
def digitChar (d : Nat) : UInt8 := UInt8.ofNat (48 + d)

def twoDigits (v : Nat) : List UInt8 := [digitChar (v / 10), digitChar (v % 10)]

def fourDigits (v : Nat) : List UInt8 :=
  [digitChar (v / 1000), digitChar (v / 100 % 10), digitChar (v / 10 % 10), digitChar (v % 10)]

/-- A zone designator. -/
inductive IsoZone where
  | utc (letter : UInt8)
  | offset (sign : UInt8) (hour minute : Nat)
deriving DecidableEq, Repr

namespace IsoZone

def Valid : IsoZone → Prop
  | utc letter => letter = ascii 'Z' ∨ letter = ascii 'z'
  | offset sign hour minute =>
    (sign = ascii '+' ∨ sign = ascii '-') ∧ hour ≤ 23 ∧ minute ≤ 59

/-- The first byte. -/
def first : IsoZone → UInt8
  | utc letter => letter
  | offset sign _ _ => sign

/-- The bytes after the first. -/
def tail : IsoZone → List UInt8
  | utc _ => []
  | offset _ hour minute => twoDigits hour ++ ascii ':' :: twoDigits minute

/-- The signed offset, in microseconds. -/
def ticks : IsoZone → Int
  | utc _ => 0
  | offset sign hour minute =>
    (if sign = ascii '-' then -1 else 1) * ((hour * 60 + minute) * 60 * 1000000)

end IsoZone

/-- The part `YYYY-MM-DDThh:mm:ss` of a text. -/
structure IsoHeader where
  year : Nat
  month : Nat
  day : Nat
  sep : UInt8
  hour : Nat
  minute : Nat
  second : Nat
deriving DecidableEq, Repr

namespace IsoHeader

structure Valid (h : IsoHeader) : Prop where
  year_pos : 1 ≤ h.year
  year_le : h.year ≤ 9999
  month_pos : 1 ≤ h.month
  month_le : h.month ≤ 12
  day_pos : 1 ≤ h.day
  day_le : h.day ≤ monthLength h.year h.month
  sep : h.sep = ascii 'T' ∨ h.sep = ascii 't' ∨ h.sep = ascii ' '
  hour_le : h.hour ≤ 23
  minute_le : h.minute ≤ 59
  second_le : h.second ≤ 59

def bytes (h : IsoHeader) : List UInt8 :=
  fourDigits h.year ++ ascii '-' :: twoDigits h.month ++ ascii '-' :: twoDigits h.day
    ++ h.sep :: twoDigits h.hour ++ ascii ':' :: twoDigits h.minute
    ++ ascii ':' :: twoDigits h.second

/-- The fields, before the fraction is known. -/
def fields (h : IsoHeader) : Decoded :=
  ⟨h.year, h.month, h.day, h.hour, h.minute, h.second, 0⟩

end IsoHeader

/-- A text `YYYY-MM-DDThh:mm:ss[.f]zone`; no fraction is the empty list. -/
structure IsoText where
  header : IsoHeader
  fraction : List Nat
  zone : IsoZone
deriving DecidableEq, Repr

namespace IsoText

structure Valid (t : IsoText) : Prop where
  header : t.header.Valid
  fraction_length : t.fraction.length ≤ 9
  fraction_digit : ∀ d ∈ t.fraction, d < 10
  zone : t.zone.Valid

def fractionBytes (ds : List Nat) : List UInt8 :=
  if ds = [] then [] else ascii '.' :: ds.map digitChar

def bytes (t : IsoText) : List UInt8 :=
  t.header.bytes ++ fractionBytes t.fraction ++ t.zone.first :: t.zone.tail

/-- The number that a list of digits writes. -/
def number (ds : List Nat) : Nat := ds.foldl (fun v d => v * 10 + d) 0

/-- The fraction of a second, truncated to microseconds. -/
def usec (ds : List Nat) : Nat := number ds * 10 ^ 6 / 10 ^ ds.length

/-- The instant, as an integer. -/
def value (t : IsoText) : Int :=
  (datetimeFromYmd t.header.year t.header.month t.header.day : Int)
    + (datetimeFromHmsu t.header.hour t.header.minute t.header.second (usec t.fraction) : Int)
    - t.zone.ticks

end IsoText

/-! ## Digits -/

theorem digitChar_iff (b : UInt8) {d : Nat} (hd : d < 10) :
    b = digitChar d ↔ ¬ b - ascii '0' > 9 ∧ (b - ascii '0').toNat = d := by
  have hb := b.toNat_lt
  have h0 : ascii '0' = 48 := by decide
  rw [h0, gt_iff_lt, UInt8.not_lt, UInt8.le_iff_toNat_le, UInt8.toNat_sub]
  constructor
  · rintro rfl
    simp [digitChar]
    omega
  · rintro ⟨hle, hd'⟩
    apply UInt8.toNat.inj
    simp [digitChar] at hle hd' ⊢
    omega

theorem gives_parseDigit {mem : Nat → Option UInt8} {i d : Nat} :
    Gives (parseDigit mem i) d ↔ d < 10 ∧ mem i = some (digitChar d) := by
  simp only [parseDigit, gives_bind, gives_byte, gives_require, gives_pure, exists_const]
  constructor
  · rintro ⟨b, hb, hle, hd⟩
    have hlt : d < 10 := by
      have h0 : ascii '0' = 48 := by decide
      rw [gt_iff_lt, UInt8.not_lt, UInt8.le_iff_toNat_le, hd] at hle
      simp at hle
      omega
    exact ⟨hlt, hb.trans (congrArg some ((digitChar_iff b hlt).mpr ⟨hle, hd⟩))⟩
  · rintro ⟨hlt, hmem⟩
    exact ⟨_, hmem, (digitChar_iff _ hlt).mp rfl⟩

theorem gives_parse2d {mem : Nat → Option UInt8} {p i v : Nat} :
    Gives (parse2d mem p i) v ↔ v < 100 ∧ Holds mem (p + i) (twoDigits v) := by
  simp only [parse2d, gives_bind, gives_parseDigit, gives_pure, twoDigits, holds_cons, holds_nil,
    and_true]
  constructor
  · rintro ⟨d0, ⟨h0, hm0⟩, d1, ⟨h1, hm1⟩, rfl⟩
    have hv : u16 (d0 * 10 + d1) = d0 * 10 + d1 := by
      unfold u16
      omega
    have hdiv : (d0 * 10 + d1) / 10 = d0 := by omega
    have hmod : (d0 * 10 + d1) % 10 = d1 := by omega
    rw [hv, hdiv, hmod]
    exact ⟨by omega, hm0, hm1⟩
  · rintro ⟨hv, hm0, hm1⟩
    refine ⟨v / 10, ⟨by omega, hm0⟩, v % 10, ⟨by omega, hm1⟩, ?_⟩
    unfold u16
    omega

theorem gives_parse4d {mem : Nat → Option UInt8} {p i v : Nat} :
    Gives (parse4d mem p i) v ↔ v < 10000 ∧ Holds mem (p + i) (fourDigits v) := by
  simp only [parse4d, gives_bind, gives_parseDigit, gives_pure, fourDigits, holds_cons,
    holds_nil, and_true]
  constructor
  · rintro ⟨d0, ⟨h0, hm0⟩, d1, ⟨h1, hm1⟩, d2, ⟨h2, hm2⟩, d3, ⟨h3, hm3⟩, rfl⟩
    have hv : u16 (d0 * 1000 + d1 * 100 + d2 * 10 + d3)
        = d0 * 1000 + d1 * 100 + d2 * 10 + d3 := by
      unfold u16
      omega
    rw [hv]
    generalize hvv : d0 * 1000 + d1 * 100 + d2 * 10 + d3 = v
    have e0 : v / 1000 = d0 := by omega
    have e1 : v / 100 % 10 = d1 := by omega
    have e2 : v / 10 % 10 = d2 := by omega
    have e3 : v % 10 = d3 := by omega
    rw [e0, e1, e2, e3]
    exact ⟨by omega, hm0, hm1, hm2, hm3⟩
  · rintro ⟨hv, hm0, hm1, hm2, hm3⟩
    refine ⟨v / 1000, ⟨by omega, hm0⟩, v / 100 % 10, ⟨by omega, hm1⟩, v / 10 % 10,
      ⟨by omega, hm2⟩, v % 10, ⟨by omega, hm3⟩, ?_⟩
    have h100 : v / 100 = v / 10 / 10 := by omega
    have h1000 : v / 1000 = v / 10 / 10 / 10 := by omega
    rw [h100, h1000]
    unfold u16
    omega

/-! ## The header -/

theorem monthLength_ge {y m : Nat} (h1 : 1 ≤ m) (h2 : m ≤ 12) : 28 ≤ monthLength y m := by
  rcases month_cases h1 h2 with rfl | rfl | rfl | rfl | rfl | rfl | rfl | rfl | rfl | rfl
    | rfl | rfl
  all_goals simp [monthLength]
  split <;> omega

/-- The three checks of a day together. -/
theorem day_check {y m day : Nat} (h1 : 1 ≤ m) (h2 : m ≤ 12) :
    (¬ (day < 1 ∨ day > 31) ∧ ¬ (day > 28 ∧ day > monthDays y m))
      ↔ 1 ≤ day ∧ day ≤ monthLength y m := by
  have hge := monthLength_ge (y := y) h1 h2
  have hle := monthLength_le y m
  rw [monthDays_eq h1 h2]
  omega

/-- **The header accepts its 19 bytes.** -/
theorem gives_isoHeader {mem : Nat → Option UInt8} {len : Nat} {f : Decoded} :
    Gives (isoHeader mem len) f ↔ 20 ≤ len
      ∧ ∃ h : IsoHeader, h.Valid ∧ Holds mem 0 h.bytes ∧ f = h.fields := by
  have hlen : (¬ len < 20) ↔ 20 ≤ len := Nat.not_lt
  simp only [isoHeader, gives_bind, gives_byte, gives_require, gives_parse4d, gives_parse2d,
    gives_pure, exists_const, hlen, IsoHeader.bytes, twoDigits, fourDigits, holds_append,
    holds_cons, holds_nil, List.length_append, List.length_cons, List.length_nil, and_true,
    Nat.zero_add, Nat.reduceAdd]
  constructor
  · rintro ⟨hlen, _, h4, rfl, _, h7, rfl, _, h13, rfl, _, h16, rfl, ch, h10, hch, year, hyear,
      hyear1, month, hmonth, hmonth1, day, hday, hday1, hour, hhour, hhour1, minute, hminute,
      hminute1, sec, hsec, hsec1, hdm, rfl⟩
    have hd := (day_check (by omega) (by omega)).mp ⟨hday1, hdm⟩
    have hv : IsoHeader.Valid ⟨year, month, day, ch, hour, minute, sec⟩ := by
      refine ⟨?_, ?_, ?_, ?_, hd.1, hd.2, by tauto, ?_, ?_, ?_⟩
      all_goals
        simp only
        omega
    exact ⟨hlen, _, hv, by simp [*], rfl⟩
  · rintro ⟨hlen, h, hv, hh, rfl⟩
    have hd := (day_check hv.month_pos hv.month_le).mpr ⟨hv.day_pos, hv.day_le⟩
    obtain ⟨hy1, hy2, hm1, hm2, -, hd2, hsep, hhour, hmin, hsec⟩ := hv
    have hday := Nat.le_trans hd2 (monthLength_le _ _)
    obtain ⟨⟨⟨⟨⟨hyear, m4, hmonth⟩, m7, hdays⟩, m10, hhours⟩, m13, hminutes⟩, m16, hseconds⟩ := hh
    refine ⟨hlen, _, m4, rfl, _, m7, rfl, _, m13, rfl, _, m16, rfl, _, m10, by tauto,
      _, ⟨by omega, hyear⟩, by omega, _, ⟨by omega, hmonth⟩, by omega, _, ⟨by omega, hdays⟩, hd.1,
      _, ⟨by omega, hhours⟩, by omega, _, ⟨by omega, hminutes⟩, by omega,
      _, ⟨by omega, hseconds⟩, by omega, hd.2, rfl⟩

/-! ## The fraction -/

/-- The loop's accumulator, in 32 bits. -/
def digitsNsec (nsec : Nat) (ds : List Nat) : Nat :=
  ds.foldl (fun v d => u32 (v * 10 + d)) nsec

/-- **The loop reads as many digits as there are.** -/
theorem gives_isoDigits {mem : Nat → Option UInt8} {n cur nsec : Nat} {r : Nat × Nat} :
    Gives (isoDigits mem n cur nsec) r ↔ ∃ ds : List Nat, (∀ d ∈ ds, d < 10)
      ∧ Holds mem cur (ds.map digitChar) ∧ r = (cur + ds.length, digitsNsec nsec ds)
      ∧ (ds.length = n
        ∨ ds.length < n ∧ ∃ b, mem (cur + ds.length) = some b ∧ b - ascii '0' > 9) := by
  induction n generalizing cur nsec with
  | zero =>
    simp only [isoDigits, gives_pure]
    constructor
    · rintro rfl
      exact ⟨[], by simp, by simp, rfl, Or.inl rfl⟩
    · rintro ⟨ds, -, -, rfl, hlen | ⟨hlen, -⟩⟩
      · rw [List.length_eq_zero_iff.mp hlen]
        rfl
      · exact absurd hlen (Nat.not_lt_zero _)
  | succ n ih =>
    simp only [isoDigits, gives_bind, gives_byte, gives_ite, gives_pure, ih]
    constructor
    · rintro ⟨b, hb, ⟨hstop, rfl⟩ | ⟨hdigit, ds, hds, hh, rfl, hend⟩⟩
      · exact ⟨[], by simp, by simp, rfl, Or.inr ⟨Nat.succ_pos n, b, hb, hstop⟩⟩
      · have hlt : (b - ascii '0').toNat < 10 := by
          have h0 : ascii '0' = 48 := by decide
          rw [gt_iff_lt, UInt8.not_lt, UInt8.le_iff_toNat_le] at hdigit
          simp at hdigit
          omega
        refine ⟨(b - ascii '0').toNat :: ds, ?_, ?_, ?_, ?_⟩
        · simpa [hlt] using hds
        · have hbd := (digitChar_iff b hlt).mpr ⟨hdigit, rfl⟩
          simp only [List.map_cons, holds_cons, ← hbd]
          exact ⟨hb, hh⟩
        · simp only [List.length_cons, digitsNsec, List.foldl_cons, Prod.mk.injEq, and_true]
          omega
        · have hadd : cur + 1 + ds.length = cur + (ds.length + 1) := by omega
          simp only [List.length_cons, ← hadd]
          exact hend.imp (congrArg Nat.succ) (And.imp_left Nat.succ_lt_succ)
    · rintro ⟨ds, hds, hh, rfl, hend⟩
      cases ds with
      | nil =>
        obtain ⟨-, b, hb, hstop⟩ := hend.resolve_left (Nat.succ_ne_zero n).symm
        exact ⟨b, hb, Or.inl ⟨hstop, rfl⟩⟩
      | cons d ds =>
        simp only [List.map_cons, holds_cons] at hh
        obtain ⟨hdigit, hd⟩ := (digitChar_iff _ (hds d List.mem_cons_self)).mp rfl
        have hadd : cur + 1 + ds.length = cur + (ds.length + 1) := by omega
        refine ⟨_, hh.1, Or.inr ⟨hdigit, ds, fun x hx => hds x (List.mem_cons_of_mem _ hx),
          hh.2, ?_, ?_⟩⟩
        · rw [hd, hadd]
          rfl
        · simp only [List.length_cons, ← hadd] at hend
          exact hend.imp Nat.succ.inj (And.imp_left Nat.lt_of_succ_lt_succ)

/-- Nine digits fit into 32 bits. -/
theorem digitsNsec_eq {nsec k : Nat} {ds : List Nat} (hds : ∀ d ∈ ds, d < 10)
    (hnsec : nsec < 10 ^ k) (hlen : k + ds.length ≤ 9) :
    digitsNsec nsec ds = ds.foldl (fun v d => v * 10 + d) nsec
      ∧ digitsNsec nsec ds < 10 ^ (k + ds.length) := by
  induction ds generalizing nsec k with
  | nil => exact ⟨rfl, hnsec⟩
  | cons d ds ih =>
    have hd := hds d List.mem_cons_self
    rw [List.length_cons] at hlen
    have hpow : 10 ^ (k + 1) ≤ 10 ^ 9 := Nat.pow_le_pow_right (by decide) (by omega)
    have hlt : nsec * 10 + d < 10 ^ (k + 1) := by
      rw [Nat.pow_succ]
      omega
    have hu : u32 (nsec * 10 + d) = nsec * 10 + d := by
      apply Nat.mod_eq_of_lt
      omega
    have hadd : k + (ds.length + 1) = k + 1 + ds.length := by omega
    have htail := ih (fun x hx => hds x (List.mem_cons_of_mem _ hx)) hlt (hadd ▸ hlen)
    simpa [digitsNsec, hu, hadd] using htail

theorem pow10_eq {i : Nat} (hi : i ≤ 9) : pow10 i = 10 ^ i := by
  decide +revert

theorem nsec_eq {ds : List Nat} (hds : ∀ d ∈ ds, d < 10) (hlen : ds.length ≤ 9) :
    u32 (digitsNsec 0 ds * pow10 (9 - ds.length)) = IsoText.number ds * 10 ^ (9 - ds.length) := by
  obtain ⟨heq, hlt⟩ := digitsNsec_eq hds (show 0 < 10 ^ 0 by decide) (by omega)
  have hmul := Nat.mul_lt_mul_of_pos_right hlt
      (Nat.pow_pos (n := 9 - ds.length) (show 0 < 10 by decide))
  rw [← Nat.pow_add, show 0 + ds.length + (9 - ds.length) = 9 by omega] at hmul
  rw [pow10_eq (Nat.sub_le _ _), IsoText.number, ← heq]
  exact Nat.mod_eq_of_lt (Nat.lt_trans hmul (by decide))

/-- **The fraction**: one to nine digits, then a byte that is none. -/
theorem gives_isoFraction {mem : Nat → Option UInt8} {start len : Nat} (hlen : start ≤ len)
    {r : Nat × Nat × UInt8} :
    Gives (isoFraction mem start len) r ↔ ∃ (ds : List Nat) (ch : UInt8), (∀ d ∈ ds, d < 10)
      ∧ ds ≠ [] ∧ ds.length ≤ 9 ∧ Holds mem start (ds.map digitChar ++ [ch])
      ∧ start + ds.length < len ∧ ch - ascii '0' > 9
      ∧ r = (start + ds.length + 1, IsoText.number ds * 10 ^ (9 - ds.length), ch) := by
  simp only [isoFraction, gives_bind, gives_isoDigits, holds_append, holds_cons, holds_nil,
    and_true, List.length_map]
  constructor
  · rintro ⟨_, ⟨ds, hds, hh, rfl, hend⟩, h⟩
    simp only [gives_require, gives_byte, gives_pure, exists_const,
      Nat.add_sub_cancel_left] at h
    obtain ⟨hcount, hne, ch, hch, rfl⟩ := h
    have hlt : ds.length < len - start := by omega
    obtain ⟨b, hb, hstop⟩ := (hend.resolve_left (Nat.ne_of_lt hlt)).2
    obtain rfl : ch = b := Option.some.inj (hch.symm.trans hb)
    refine ⟨ds, ch, hds, ?_, by omega, ⟨hh, hch⟩, by omega, hstop, ?_⟩
    · rintro rfl
      simp at hcount
    · rw [nsec_eq hds (by omega)]
  · rintro ⟨ds, ch, hds, hne, hle, ⟨hh, hch⟩, hlt, hstop, rfl⟩
    have hpos := List.length_pos_iff.mpr hne
    refine ⟨_, ⟨ds, hds, hh, rfl, Or.inr ⟨by omega, ch, hch, hstop⟩⟩, ?_⟩
    simp only [gives_require, gives_byte, gives_pure, exists_const,
      Nat.add_sub_cancel_left, nsec_eq hds hle]
    exact ⟨by omega, by omega, ch, hch, rfl⟩

/-! ## The zone -/

theorem holds_zoneTail {mem : Nat → Option UInt8} {cur zh zm : Nat} {sign : UInt8} :
    Holds mem cur (IsoZone.tail (.offset sign zh zm)) ↔ Holds mem (cur + 0) (twoDigits zh)
      ∧ mem (cur + 2) = some (ascii ':') ∧ Holds mem (cur + 3) (twoDigits zm) := by
  simp [IsoZone.tail, twoDigits, and_assoc]

theorem ticks_offset {sign : UInt8} {zh zm : Nat} :
    IsoZone.ticks (.offset sign zh zm)
      = if sign = ascii '-' then -(((zh * 60 + zm) * 60 * ticksPerSecond : Nat) : Int)
        else ((zh * 60 + zm) * 60 * ticksPerSecond : Nat) := by
  unfold IsoZone.ticks ticksPerSecond
  by_cases hsign : sign = ascii '-'
  · simp only [if_pos hsign]
    omega
  · simp only [if_neg hsign]
    omega

/-- **The zone** and the end of the text. -/
theorem gives_isoZone {mem : Nat → Option UInt8} {cur len : Nat} {ch : UInt8} {off : Int} :
    Gives (isoZone mem cur len ch) (len, off) ↔ ∃ z : IsoZone, z.Valid ∧ z.first = ch
      ∧ Holds mem cur z.tail ∧ cur + z.tail.length = len ∧ off = z.ticks := by
  have hsigns : ∀ {c : UInt8}, c = ascii '+' ∨ c = ascii '-' →
      ¬ (c = ascii 'Z' ∨ c = ascii 'z') := by
    rintro c (rfl | rfl) <;> decide
  simp only [isoZone, gives_ite, gives_bind, gives_require, gives_byte, gives_parse2d, gives_pure,
    exists_const]
  constructor
  · rintro (⟨hutc, heq⟩ | ⟨-, hle, hsign, _, hcolon, rfl, zh, ⟨-, hzh⟩, hzh1, zm, ⟨-, hzm⟩, hzm1,
      heq⟩)
    · obtain ⟨rfl, rfl⟩ := Prod.mk.inj heq
      exact ⟨.utc ch, hutc, rfl, by simp [IsoZone.tail], rfl, rfl⟩
    · obtain ⟨rfl, rfl⟩ := Prod.mk.inj heq
      exact ⟨.offset ch zh zm, ⟨hsign, by omega, by omega⟩, rfl,
        holds_zoneTail.mpr ⟨hzh, hcolon, hzm⟩, rfl, ticks_offset.symm⟩
  · rintro ⟨z, hz, rfl, hh, rfl, rfl⟩
    cases z with
    | utc letter => exact Or.inl ⟨hz, rfl⟩
    | offset sign zh zm =>
      obtain ⟨hsign, hzh, hzm⟩ := hz
      obtain ⟨hhour, hcolon, hmin⟩ := holds_zoneTail.mp hh
      have hlen : (IsoZone.tail (.offset sign zh zm)).length = 5 := rfl
      refine Or.inr ⟨hsigns hsign, by omega, hsign, _, hcolon, rfl, zh, ⟨by omega, hhour⟩,
        by omega, zm, ⟨by omega, hmin⟩, by omega, ?_⟩
      rw [hlen, ticks_offset]
      rfl

/-! ## The whole text -/

theorem header_length (h : IsoHeader) : h.bytes.length = 19 := rfl

/-- A zone starts with none of `.` and the digits. -/
theorem IsoZone.Valid.first_ne {z : IsoZone} (h : z.Valid) :
    z.first ≠ ascii '.' ∧ z.first - ascii '0' > 9 := by
  cases z with
  | utc letter => rcases h with rfl | rfl <;> decide
  | offset sign hour minute =>
    simp only [IsoZone.first]
    rcases h.1 with rfl | rfl <;> decide

/-- The bytes of a fraction, and of what follows it. -/
theorem fractionBytes_cons {ds : List Nat} (hds : ds ≠ []) (bs : List UInt8) :
    IsoText.fractionBytes ds ++ bs = ascii '.' :: (ds.map digitChar ++ bs) := by
  simp [IsoText.fractionBytes, hds]

/-- **The point**: a fraction or none, before the first byte of a zone. -/
theorem gives_isoPoint {mem : Nat → Option UInt8} {len cur nsec : Nat} {z : IsoZone}
    (hz : z.Valid) (hlen : 20 ≤ len) (hcur : cur ≤ len) :
    Gives (isoPoint mem len) (cur, nsec, z.first) ↔ ∃ ds : List Nat, (∀ d ∈ ds, d < 10)
      ∧ ds.length ≤ 9 ∧ Holds mem 19 (IsoText.fractionBytes ds ++ [z.first])
      ∧ cur = 20 + (IsoText.fractionBytes ds).length
      ∧ nsec = IsoText.number ds * 10 ^ (9 - ds.length) := by
  obtain ⟨hdot, hdigit⟩ := hz.first_ne
  simp only [isoPoint, gives_bind, gives_byte, gives_ite, gives_isoFraction hlen, gives_pure]
  constructor
  · rintro ⟨ch, hch, ⟨rfl, ds, c, hds, hne, hle, hh, -, -, heq⟩ | ⟨-, heq⟩⟩
    · obtain ⟨rfl, rfl, rfl⟩ := by simpa using heq
      refine ⟨ds, hds, hle, ?_, ?_, rfl⟩
      · rw [fractionBytes_cons hne, holds_cons]
        exact ⟨hch, hh⟩
      · simp [IsoText.fractionBytes, hne]
        omega
    · obtain ⟨rfl, rfl, rfl⟩ := by simpa using heq
      exact ⟨[], by simp, by simp, by simpa [IsoText.fractionBytes] using hch, rfl, rfl⟩
  · rintro ⟨ds, hds, hle, hh, rfl, rfl⟩
    by_cases hne : ds = []
    · subst hne
      have hz19 : mem 19 = some z.first := by
        simpa [IsoText.fractionBytes] using hh
      exact ⟨z.first, hz19, Or.inr ⟨hdot, rfl⟩⟩
    · rw [fractionBytes_cons hne, holds_cons] at hh
      have hbytes : (IsoText.fractionBytes ds).length = ds.length + 1 := by
        simp [IsoText.fractionBytes, hne]
      refine ⟨_, hh.1, Or.inl ⟨rfl, ds, z.first, hds, hne, hle, hh.2, by omega, hdigit, ?_⟩⟩
      rw [hbytes, Nat.add_assoc]

/-- Nanoseconds, cut to microseconds. -/
theorem usec_eq {ds : List Nat} (hlen : ds.length ≤ 9) :
    IsoText.number ds * 10 ^ (9 - ds.length) / 1000 = IsoText.usec ds := by
  unfold IsoText.usec
  have hpow : (10 : Nat) ^ (9 - ds.length) * 10 ^ ds.length = 10 ^ 6 * 1000 :=
    calc (10 : Nat) ^ (9 - ds.length) * 10 ^ ds.length
        = 10 ^ 9 := by rw [← Nat.pow_add, Nat.sub_add_cancel hlen]
      _ = 10 ^ 6 * 1000 := rfl
  have hpos : 0 < 10 ^ ds.length := Nat.pow_pos (by decide)
  calc IsoText.number ds * 10 ^ (9 - ds.length) / 1000
      = IsoText.number ds * 10 ^ (9 - ds.length) * 10 ^ ds.length / (1000 * 10 ^ ds.length) :=
        (Nat.mul_div_mul_right _ _ hpos).symm
    _ = IsoText.number ds * 10 ^ 6 * 1000 / (10 ^ ds.length * 1000) := by
        rw [Nat.mul_assoc, hpow, ← Nat.mul_assoc, Nat.mul_comm 1000]
    _ = IsoText.number ds * 10 ^ 6 / 10 ^ ds.length :=
        Nat.mul_div_mul_right _ _ (by decide)

theorem IsoText.bytes_length (t : IsoText) :
    t.bytes.length = 20 + (fractionBytes t.fraction).length + t.zone.tail.length := by
  simp only [IsoText.bytes, List.length_append, List.length_cons, header_length]
  omega

/-- The parts of a text, each at its address. -/
theorem IsoText.holds_bytes {mem : Nat → Option UInt8} (t : IsoText) :
    Holds mem 0 t.bytes ↔ Holds mem 0 t.header.bytes
      ∧ Holds mem 19 (fractionBytes t.fraction ++ [t.zone.first])
      ∧ Holds mem (20 + (fractionBytes t.fraction).length) t.zone.tail := by
  have hat : 19 + (fractionBytes t.fraction).length + 1
      = 20 + (fractionBytes t.fraction).length := by
    omega
  simp [IsoText.bytes, header_length, hat, and_assoc]

/-- The stored value, as an integer. -/
theorem isoStored_eq (a b : Nat) (offset : Int) :
    (((((u64 (a + b) : Nat) : Int) - offset) % 2 ^ 64).toNat : Int)
      = ((a : Int) + b - offset) % 2 ^ 64 := by
  unfold u64
  omega

/-- **The parser accepts the grammar**, with the value of the text. -/
theorem gives_isoParse {mem : Nat → Option UInt8} {len v : Nat} :
    Gives (isoParse mem len) v ↔ ∃ t : IsoText, t.Valid ∧ Holds mem 0 t.bytes
      ∧ t.bytes.length = len ∧ (v : Int) = t.value % 2 ^ 64 := by
  simp only [isoParse, gives_bind, gives_isoHeader]
  constructor
  · rintro ⟨_, ⟨hlen, h, hh, hmem, rfl⟩, ⟨cur, nsec, c⟩, hpoint, ⟨cur', off⟩, hzone, hrest⟩
    simp only [gives_require, gives_pure, exists_const] at hrest
    obtain ⟨rfl, rfl⟩ := hrest
    obtain ⟨z, hz, rfl, hztail, hlen', rfl⟩ := gives_isoZone.mp hzone
    obtain ⟨ds, hds, hle, hfrac, rfl, rfl⟩ := (gives_isoPoint hz hlen (by omega)).mp hpoint
    refine ⟨⟨h, ds, z⟩, ⟨hh, hle, hds, hz⟩, ?_, ?_, ?_⟩
    · exact (IsoText.holds_bytes _).mpr ⟨hmem, hfrac, hztail⟩
    · rw [IsoText.bytes_length]
      exact hlen'
    · rw [isoStored_eq, usec_eq hle]
      rfl
  · rintro ⟨⟨h, ds, z⟩, ⟨hh, hle, hds, hz⟩, hmem, hlen, hv⟩
    obtain ⟨hheader, hfrac, hztail⟩ := (IsoText.holds_bytes _).mp hmem
    rw [IsoText.bytes_length] at hlen
    simp only at hh hle hds hz hheader hfrac hztail hlen
    refine ⟨_, ⟨by omega, h, hh, hheader, rfl⟩, _,
      (gives_isoPoint hz (by omega) (by omega)).mpr ⟨ds, hds, hle, hfrac, rfl, rfl⟩,
      _, gives_isoZone.mpr ⟨z, hz, rfl, hztail, hlen, rfl⟩, ?_⟩
    simp only [gives_require, gives_pure, exists_const, true_and]
    apply Int.ofNat.inj
    change ((_ : Nat) : Int) = (v : Int)
    rw [isoStored_eq, usec_eq hle, hv]
    rfl

/-! ## Staying in bounds -/

section Readable

variable {mem : Nat → Option UInt8} (hmem : ∀ i, (mem i).isSome)

include hmem

theorem stays_parseDigit (i : Nat) : Scan.Stays (parseDigit mem i) := by
  simp [parseDigit, hmem]

theorem stays_parse2d (p i : Nat) : Scan.Stays (parse2d mem p i) := by
  simp [parse2d, stays_parseDigit hmem]

theorem stays_isoHeader (len : Nat) : Scan.Stays (isoHeader mem len) := by
  simp [isoHeader, parse4d, hmem, stays_parseDigit hmem, stays_parse2d hmem]

theorem stays_isoDigits (n cur nsec : Nat) : Scan.Stays (isoDigits mem n cur nsec) := by
  induction n generalizing cur nsec with
  | zero => simp [isoDigits]
  | succ n ih => simp [isoDigits, hmem, ih]

theorem stays_isoPoint (len : Nat) : Scan.Stays (isoPoint mem len) := by
  simp [isoPoint, isoFraction, hmem, stays_isoDigits hmem]

theorem stays_isoZone (cur len : Nat) (ch : UInt8) : Scan.Stays (isoZone mem cur len ch) := by
  simp [isoZone, hmem, stays_parse2d hmem]

/-- In readable memory the parser reaches a verdict. -/
theorem stays_isoParse (len : Nat) : Scan.Stays (isoParse mem len) := by
  simp [isoParse, stays_isoHeader hmem, stays_isoPoint hmem, stays_isoZone hmem]

end Readable

/-! ## The verdict -/

theorem datetimeFromIso8601_gives {mem : Nat → Option UInt8} {len v : Nat}
    (h : Gives (isoParse mem len) v) (dt : Nat) :
    datetimeFromIso8601 mem len dt = some (0, v) := by
  unfold Gives at h
  simp only [datetimeFromIso8601, h]

/-- An accepted text gives the stored value. -/
theorem gives_of_accepted {mem : Nat → Option UInt8} {len out v : Nat}
    (h : datetimeFromIso8601 mem len out = some (0, v)) : Gives (isoParse mem len) v := by
  unfold datetimeFromIso8601 at h
  unfold Gives
  split at h <;> simp_all

/-- The two outcomes in readable memory. -/
theorem datetimeFromIso8601_cases {mem : Nat → Option UInt8} (hmem : ∀ i, (mem i).isSome)
    (len dt : Nat) :
    (∃ v, Gives (isoParse mem len) v ∧ datetimeFromIso8601 mem len dt = some (0, v))
    ∨ (∀ v, ¬ Gives (isoParse mem len) v) ∧ datetimeFromIso8601 mem len dt = some (1, dt) := by
  by_cases h : ∃ v, Gives (isoParse mem len) v
  · obtain ⟨v, hv⟩ := h
    exact Or.inl ⟨v, hv, datetimeFromIso8601_gives hv dt⟩
  · have hno : ∀ v, ¬ Gives (isoParse mem len) v := fun v hv => h ⟨v, hv⟩
    refine Or.inr ⟨hno, ?_⟩
    simp only [datetimeFromIso8601, (stays_isoParse hmem len).rejects hno]

/-- One text is held in the memory of a string: itself. -/
theorem gives_textAt (s : List UInt8) (beyond : Nat → UInt8) (v : Nat) :
    Gives (isoParse (textAt s beyond) s.length) v
      ↔ ∃ t : IsoText, t.Valid ∧ t.bytes = s ∧ (v : Int) = t.value % 2 ^ 64 := by
  rw [gives_isoParse]
  apply exists_congr
  intro t
  apply and_congr_right
  intro _
  constructor
  · rintro ⟨hh, hlen, hv⟩
    exact ⟨hh.unique (holds_textAt s beyond) hlen, hv⟩
  · rintro ⟨rfl, hv⟩
    exact ⟨holds_textAt _ _, rfl, hv⟩

/-- The value of a valid text is the one value that the parser gives. -/
theorem IsoText.Valid.gives {t : IsoText} (ht : t.Valid) (beyond : Nat → UInt8) :
    Gives (isoParse (textAt t.bytes beyond) t.bytes.length) (t.value % 2 ^ 64).toNat :=
  (gives_textAt _ _ _).mpr
    ⟨t, ht, rfl, Int.toNat_of_nonneg (Int.emod_nonneg _ (by decide))⟩

/-- **The parser accepts exactly its grammar**: whatever follows `s`, it
returns 0 if and only if `s` is a valid text, then with its value modulo
`2 ^ 64`, and leaves `*dt` alone otherwise. -/
theorem datetimeFromIso8601_grammar (s : List UInt8) (beyond : Nat → UInt8) (dt : Nat) :
    ∃ ret dt', datetimeFromIso8601 (textAt s beyond) s.length dt = some (ret, dt')
      ∧ (ret = 0 ↔ ∃ t : IsoText, t.Valid ∧ t.bytes = s)
      ∧ (ret ≠ 0 → dt' = dt)
      ∧ (∀ t : IsoText, t.Valid → t.bytes = s → (dt' : Int) = t.value % 2 ^ 64)
      ∧ ∀ beyond', datetimeFromIso8601 (textAt s beyond') s.length dt = some (ret, dt') := by
  have hcases := fun b => datetimeFromIso8601_cases (textAt_isSome s b) s.length dt
  rcases hcases beyond with ⟨v, hv, hrun⟩ | ⟨hno, hrun⟩
  · have hgives := (gives_textAt s beyond v).mp hv
    refine ⟨0, v, hrun, ?_, fun h => absurd rfl h, ?_, fun b => ?_⟩
    · obtain ⟨t, ht, hs, -⟩ := hgives
      exact ⟨fun _ => ⟨t, ht, hs⟩, fun _ => rfl⟩
    · rintro t ht rfl
      have hsame := Option.some.inj (Option.some.inj (hv.symm.trans (ht.gives beyond)))
      rw [hsame]
      exact Int.toNat_of_nonneg (Int.emod_nonneg _ (by decide))
    · have hvb := (gives_textAt s b v).mpr hgives
      rcases hcases b with ⟨w, hw, hrunb⟩ | ⟨hnob, -⟩
      · rwa [Option.some.inj (Option.some.inj (hw.symm.trans hvb))] at hrunb
      · exact absurd hvb (hnob v)
  · have hnone : ¬ ∃ t : IsoText, t.Valid ∧ t.bytes = s := by
      rintro ⟨t, ht, rfl⟩
      exact hno _ (ht.gives beyond)
    refine ⟨1, dt, hrun, ?_, fun _ => rfl, fun t ht hs => absurd ⟨t, ht, hs⟩ hnone, fun b => ?_⟩
    · exact ⟨fun h => absurd h (by decide), fun h => absurd h hnone⟩
    · rcases hcases b with ⟨w, hw, -⟩ | ⟨-, hrunb⟩
      · obtain ⟨t, ht, hs, -⟩ := (gives_textAt s b w).mp hw
        exact absurd ⟨t, ht, hs⟩ hnone
      · exact hrunb

end Ats
