import Ats.Base.HashList
import Ats.Base.KhashResize
import Ats.Lib.CallRun

/-!
# Currency: `currency.c`

The names of the currencies are put into a hash table when a name is looked up
for the first time; the names of the codes are a `switch`.
-/

namespace Ats

open Khash CallRun

/-- A `currency_t`; its constants are the codes of `currencyDef`. -/
abbrev Currency := Nat

/-- `CURRENCY_NONE` -/
def currencyNone : Currency := 0

/-- `CURRENCY_DEF` -/
def currencyDef : List (String × Currency) :=
  [("NONE", 0), ("AED", 784), ("AFN", 971), ("ALL", 8), ("AMD", 51), ("ANG", 532), ("AOA", 973),
    ("ARS", 32), ("AUD", 36), ("AWG", 533), ("AZN", 944), ("BAM", 977), ("BBD", 52), ("BDT", 50),
    ("BGN", 975), ("BHD", 48), ("BIF", 108), ("BMD", 60), ("BND", 96), ("BOB", 68), ("BOV", 984),
    ("BRL", 986), ("BSD", 44), ("BTN", 64), ("BWP", 72), ("BYR", 974), ("BZD", 84), ("CAD", 124),
    ("CDF", 976), ("CHE", 947), ("CHF", 756), ("CHW", 948), ("CLF", 990), ("CLP", 152),
    ("CNY", 156), ("COP", 170), ("COU", 970), ("CRC", 188), ("CUC", 931), ("CUP", 192),
    ("CVE", 132), ("CZK", 203), ("DJF", 262), ("DKK", 208), ("DOP", 214), ("DZD", 12),
    ("EGP", 818), ("ERN", 232), ("ETB", 230), ("EUR", 978), ("FJD", 242), ("FKP", 238),
    ("GBP", 826), ("GEL", 981), ("GHS", 936), ("GIP", 292), ("GMD", 270), ("GNF", 324),
    ("GTQ", 320), ("GYD", 328), ("HKD", 344), ("HNL", 340), ("HRK", 191), ("HTG", 332),
    ("HUF", 348), ("IDR", 360), ("ILS", 376), ("INR", 356), ("IQD", 368), ("IRR", 364),
    ("ISK", 352), ("JMD", 388), ("JOD", 400), ("JPY", 392), ("KES", 404), ("KGS", 417),
    ("KHR", 116), ("KMF", 174), ("KPW", 408), ("KRW", 410), ("KWD", 414), ("KYD", 136),
    ("KZT", 398), ("LAK", 418), ("LBP", 422), ("LKR", 144), ("LRD", 430), ("LSL", 426),
    ("LTL", 440), ("LYD", 434), ("MAD", 504), ("MDL", 498), ("MGA", 969), ("MKD", 807),
    ("MMK", 104), ("MNT", 496), ("MOP", 446), ("MRO", 478), ("MUR", 480), ("MVR", 462),
    ("MWK", 454), ("MXN", 484), ("MXV", 979), ("MYR", 458), ("MZN", 943), ("NAD", 516),
    ("NGN", 566), ("NIO", 558), ("NOK", 578), ("NPR", 524), ("NZD", 554), ("OMR", 512),
    ("PAB", 590), ("PEN", 604), ("PGK", 598), ("PHP", 608), ("PKR", 586), ("PLN", 985),
    ("PYG", 600), ("QAR", 634), ("RON", 946), ("RSD", 941), ("RUB", 643), ("RWF", 646),
    ("SAR", 682), ("SBD", 90), ("SCR", 690), ("SDG", 938), ("SEK", 752), ("SGD", 702),
    ("SHP", 654), ("SLL", 694), ("SOS", 706), ("SRD", 968), ("SSP", 728), ("STD", 678),
    ("SYP", 760), ("SZL", 748), ("THB", 764), ("TJS", 972), ("TMT", 934), ("TND", 788),
    ("TOP", 776), ("TRY", 949), ("TTD", 780), ("TWD", 901), ("TZS", 834), ("UAH", 980),
    ("UGX", 800), ("USD", 840), ("USN", 997), ("USS", 998), ("UYI", 940), ("UYU", 858),
    ("UZS", 860), ("VEF", 937), ("VND", 704), ("VUV", 548), ("WST", 882), ("XAF", 950),
    ("XAG", 961), ("XAU", 959), ("XBA", 955), ("XBB", 956), ("XBC", 957), ("XBD", 958),
    ("XCD", 951), ("XDR", 960), ("XOF", 952), ("XPD", 964), ("XPF", 953), ("XPT", 962),
    ("XSU", 994), ("XTS", 963), ("XUA", 965), ("XXX", 999), ("YER", 886), ("ZAR", 710),
    ("ZMW", 967), ("ZWD", 932)]

/-- A string literal of C. -/
def cString (s : String) : CString := ⟨(s.toList.map Char.toUInt8).filter (· ≠ 0), by simp⟩

section Functions

variable (ofChar : UInt8 → UInt32) (keys : Nat → CString) (vals : Nat → Currency)

/-- `put_key` -/
def putKey (h : Khash CString Currency) (key : CString) (val : Currency) :
    Option (Khash CString Currency) := do
  let (h, iter, _) ← h.put (strHash ofChar) key
  some (h.setValue iter val)

/-- `init_hash_table` -/
def initHashTable : Option (Khash CString Currency) :=
  currencyDef.foldlM (fun h p => putKey ofChar h (cString p.1) p.2) (khInit keys vals)

/-- `currency_from_name`; `none` is a table that `uv_once` has not made yet. -/
def currencyFromName (map : Option (Khash CString Currency)) (name : CString) :
    Option (Option (Khash CString Currency) × Currency) := do
  let h ← match map with
    | none => initHashTable ofChar keys vals
    | some h => some h
  let iter ← h.get (strHash ofChar) name
  if iter = h.nBuckets then some (some h, currencyNone)
  else some (some h, h.vals iter)

end Functions

/-- `currency_to_name` -/
def currencyToName (currency : Currency) : String :=
  match currencyDef.find? fun p => p.2 = currency with
  | some p => p.1
  | none => "NONE"

/-! ## A table of pairs -/

section Pairs

variable {K V : Type} {hash : K → UInt32} {h : Khash K V} {ps : List (K × V)} {key : K} {val : V}

/-- The table holds these pairs. -/
structure HoldsPairs (hash : K → UInt32) (h : Khash K V) (ps : List (K × V)) : Prop where
  wf : h.Wf hash
  entry : ∀ key val, h.Entry key val ↔ (key, val) ∈ ps
  size : h.size = ps.length

theorem holdsPairs_init (hash : K → UInt32) (keys : Nat → K) (vals : Nat → V) :
    HoldsPairs hash (khInit keys vals) [] where
  wf := wf_init keys vals
  entry := fun _ _ =>
    iff_of_false (fun ⟨i, hi, _⟩ => Nat.not_lt_zero i hi.1.1) List.not_mem_nil
  size := rfl

variable [DecidableEq K]

theorem HoldsPairs.put (hs : HoldsPairs hash h ps) (hnew : key ∉ ps.map Prod.fst)
    (hroom : ps.length < 2 ^ 31) (val : V) :
    ∃ g x, h.put hash key = some (g, x, 1)
      ∧ HoldsPairs hash (g.setValue x val) (ps ++ [(key, val)]) := by
  have hnone : ∀ v, ¬ h.Entry key v := fun v hv =>
    hnew (List.mem_map.mpr ⟨_, (hs.entry key v).mp hv, rfl⟩)
  obtain ⟨g, x, hput, hwf, hsize, hentry⟩ := hs.wf.put_new (hs.size ▸ hroom) hnone
  refine ⟨g, x, hput, setValue_wf hwf, fun key' val' => ?_, ?_⟩
  · rw [hentry, hs.entry, List.mem_append, List.mem_singleton, Prod.mk.injEq, or_comm]
  · rw [List.length_append, List.length_singleton, ← hs.size]
    exact hsize

theorem lookup_of_mem (hnodup : (ps.map Prod.fst).Nodup) (hmem : (key, val) ∈ ps) :
    ps.lookup key = some val := by
  obtain ⟨front, back, rfl⟩ := List.append_of_mem hmem
  refine List.lookup_eq_some_iff.mpr ⟨front, back, rfl, fun p hp => ?_⟩
  rw [List.map_append, List.map_cons] at hnodup
  have hne := List.disjoint_of_nodup_append hnodup (List.mem_map_of_mem hp)
  simpa using fun heq : key = p.1 => hne (heq ▸ List.mem_cons_self)

/-- **`kh_get`** is the look-up in the list. -/
theorem HoldsPairs.get (hs : HoldsPairs hash h ps) (hnodup : (ps.map Prod.fst).Nodup) (key : K) :
    ∃ iter, h.get hash key = some iter
      ∧ ps.lookup key = if iter = h.nBuckets then none else some (h.vals iter) := by
  rcases hs.wf.get_spec key with ⟨i, hi, hget⟩ | ⟨habsent, hget⟩
  · refine ⟨i, hget, ?_⟩
    rw [if_neg (Nat.ne_of_lt hi.1.1)]
    exact lookup_of_mem hnodup ((hs.entry key _).mp ⟨i, hi, rfl⟩)
  · refine ⟨_, hget, ?_⟩
    rw [if_pos rfl]
    refine List.lookup_eq_none_iff.mpr fun p hp => ?_
    obtain ⟨i, hi, -⟩ := (hs.entry p.1 p.2).mpr hp
    simpa using fun heq : key = p.1 => habsent i (heq ▸ hi)

end Pairs

/-! ## The table of the currencies -/

section Names

variable {ofChar : UInt8 → UInt32} {h : Khash CString Currency}

/-- The pairs that `init_hash_table` puts. -/
def currencyPairs : List (CString × Currency) := currencyDef.map fun p => (cString p.1, p.2)

theorem currencyPairs_nodup : (currencyPairs.map Prod.fst).Nodup := by decide +kernel

theorem codes_nodup : (currencyDef.map Prod.snd).Nodup := by decide +kernel

/-- The code of a name. -/
def currencyOf (name : CString) : Currency := (currencyPairs.lookup name).getD currencyNone

theorem putKey_all : ∀ (ds : List (String × Currency)) {h : Khash CString Currency}
    {ps : List (CString × Currency)}, HoldsPairs (strHash ofChar) h ps →
    ((ps ++ ds.map fun p => (cString p.1, p.2)).map Prod.fst).Nodup →
    ps.length + ds.length < 2 ^ 31 →
    ∃ h', ds.foldlM (fun h p => putKey ofChar h (cString p.1) p.2) h = some h'
      ∧ HoldsPairs (strHash ofChar) h' (ps ++ ds.map fun p => (cString p.1, p.2)) := by
  intro ds
  induction ds with
  | nil =>
      intro h ps hs _ _
      exact ⟨h, rfl, by rw [List.map_nil, List.append_nil]; exact hs⟩
  | cons p ds ih =>
      intro h ps hs hnodup hroom
      rw [List.map_cons, List.append_cons] at hnodup ⊢
      have hnew : cString p.1 ∉ ps.map Prod.fst := by
        rw [List.append_assoc, List.map_append] at hnodup
        exact fun hmem => List.disjoint_of_nodup_append hnodup hmem List.mem_cons_self
      rw [List.length_cons] at hroom
      obtain ⟨g, x, hput, hg⟩ := hs.put hnew (by omega) p.2
      have hfirst : putKey ofChar h (cString p.1) p.2 = some (g.setValue x p.2) := by
        rw [putKey, hput]
        rfl
      obtain ⟨h', hrest, hh'⟩ := ih hg hnodup (by
        rw [List.length_append, List.length_singleton]
        omega)
      exact ⟨h', by rw [List.foldlM_cons, hfirst]; exact hrest, hh'⟩

theorem initHashTable_holds (ofChar : UInt8 → UInt32) (keys : Nat → CString)
    (vals : Nat → Currency) :
    ∃ h, initHashTable ofChar keys vals = some h
      ∧ HoldsPairs (strHash ofChar) h currencyPairs :=
  putKey_all currencyDef (holdsPairs_init _ keys vals) currencyPairs_nodup (by decide +kernel)

/-- **Each call** finds the table, or makes it. -/
theorem currencyFromName_eq {keys : Nat → CString} {vals : Nat → Currency}
    {map : Option (Khash CString Currency)}
    (hmap : ∀ h ∈ map, HoldsPairs (strHash ofChar) h currencyPairs) (name : CString) :
    ∃ h, currencyFromName ofChar keys vals map name = some (some h, currencyOf name)
      ∧ HoldsPairs (strHash ofChar) h currencyPairs := by
  obtain ⟨h, hs, hcall⟩ : ∃ h, HoldsPairs (strHash ofChar) h currencyPairs
      ∧ currencyFromName ofChar keys vals map name = (h.get (strHash ofChar) name).bind fun iter =>
        if iter = h.nBuckets then some (some h, currencyNone) else some (some h, h.vals iter) := by
    cases map with
    | none =>
        obtain ⟨h, hmade, hs⟩ := initHashTable_holds ofChar keys vals
        refine ⟨h, hs, ?_⟩
        show (initHashTable ofChar keys vals).bind _ = _
        rw [hmade]
        rfl
    | some h => exact ⟨h, hmap h rfl, rfl⟩
  obtain ⟨iter, hget, hlookup⟩ := hs.get currencyPairs_nodup name
  refine ⟨h, ?_, hs⟩
  rw [hcall, hget, Option.bind_some, currencyOf, hlookup]
  by_cases hend : iter = h.nBuckets <;> simp [hend]

/-- A name in the table has its code. -/
theorem currencyOf_of_mem {p : String × Currency} (hp : p ∈ currencyDef) :
    currencyOf (cString p.1) = p.2 := by
  have hmem : (cString p.1, p.2) ∈ currencyPairs := List.mem_map.mpr ⟨p, hp, rfl⟩
  rw [currencyOf, lookup_of_mem currencyPairs_nodup hmem]
  rfl

/-- A code in the table has its name. -/
theorem currencyToName_of_mem {p : String × Currency} (hp : p ∈ currencyDef) :
    currencyToName p.2 = p.1 := by
  obtain ⟨q, hq⟩ : ∃ q, currencyDef.find? (fun q => q.2 = p.2) = some q :=
    Option.isSome_iff_exists.mp (List.find?_isSome.mpr ⟨p, hp, by simp⟩)
  have hcode : q.2 = p.2 := by simpa using List.find?_some hq
  have hsame : q = p := List.inj_on_of_nodup_map codes_nodup (List.mem_of_find?_eq_some hq) hp hcode
  rw [currencyToName, hq, hsame]

/-- **Names and codes of currencies** go back and forth: every sequence of
look-ups of any strings gives the codes of the table, with which the names come
back, and what is not in the table is none. -/
theorem currency_roundTrip (ofChar : UInt8 → UInt32) (keys : Nat → CString)
    (vals : Nat → Currency) (names : List CString) :
    (∃ map, calls (currencyFromName ofChar keys vals) none names
        = some (map, names.map currencyOf))
      ∧ (∀ p ∈ currencyDef, currencyOf (cString p.1) = p.2 ∧ currencyToName p.2 = p.1)
      ∧ (∀ name, (∀ p ∈ currencyDef, cString p.1 ≠ name) → currencyOf name = currencyNone)
      ∧ ∀ code, (∀ p ∈ currencyDef, p.2 ≠ code) → currencyToName code = "NONE" := by
  refine ⟨?_, fun p hp => ⟨currencyOf_of_mem hp, currencyToName_of_mem hp⟩, fun name hname => ?_,
    fun code hcode => ?_⟩
  · have hupper : ∀ names, calls (fun (_ : Unit) name => some ((), currencyOf name)) () names
        = some ((), names.map currencyOf) := by
      intro names
      induction names with
      | nil => rfl
      | cons name names ih => rw [calls_cons rfl, ih]; rfl
    obtain ⟨map, hcalls, -⟩ : ∃ map, calls (currencyFromName ofChar keys vals) none names
          = some (map, names.map currencyOf)
        ∧ ∀ h ∈ map, HoldsPairs (strHash ofChar) h currencyPairs :=
      calls_simulated (R := fun map _ => ∀ h ∈ map, HoldsPairs (strHash ofChar) h currencyPairs)
        (fun map _ name _ code hmap hcall => by
          cases hcall
          obtain ⟨h, hcall, hs⟩ := currencyFromName_eq hmap name
          exact ⟨some h, hcall, fun g hg => Option.some.inj hg ▸ hs⟩)
        names nofun (hupper names)
    exact ⟨map, hcalls⟩
  · have hnone : currencyPairs.lookup name = none := by
      refine List.lookup_eq_none_iff.mpr fun q hq => ?_
      obtain ⟨p, hp, rfl⟩ := List.mem_map.mp hq
      simpa using fun heq : name = cString p.1 => hname p hp heq.symm
    rw [currencyOf, hnone]
    rfl
  · have hnone : currencyDef.find? (fun p => p.2 = code) = none :=
      List.find?_eq_none.mpr fun p hp => by simpa using hcode p hp
    rw [currencyToName, hnone]

end Names

end Ats
