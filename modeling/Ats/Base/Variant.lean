import Ats.Base.Integers
import Mathlib.Data.List.Basic

/-!
# Variant: the values of `variant.h`, printed and compared

A value is a tree: what an array or a map points to is part of it. Memory
that no function reads through the tag is left out.
-/

namespace Ats

/-! ## Values -/

/-- `variant_str` and `variant_bin`: `size` bytes at `ptr`. -/
structure Blob where
  bytes : List UInt8
  size_lt : bytes.length < 2 ^ 32

/-- `size` -/
def Blob.size (b : Blob) : Nat := b.bytes.length

theorem Blob.ext {a b : Blob} (h : a.bytes = b.bytes) : a = b := by
  cases a
  cases b
  cases h
  rfl

/-- A `type` that `variant_type` does not list. -/
structure UnknownType where
  type : UInt32
  unknown : 0x0a < type

mutual

/-- `variant_t`. A double is its 64 bits; the size of an array or a map is
the length of its list. -/
inductive Variant where
  | nil
  | boolean (boolean : Bool)
  | positiveInteger (u64 : UInt64)
  | negativeInteger (i64 : Int64)
  | float32 (f64 : UInt64)
  | float64 (f64 : UInt64)
  | str (str : Blob)
  | array (array : List Variant)
  | map (map : List VariantKv)
  | bin (bin : Blob)
  | ext (type : Int8) (ext : Blob)
  | unknown (type : UnknownType) (u64 : UInt64)

/-- `variant_kv` -/
inductive VariantKv where
  | mk (key val : Variant)

end

def VariantKv.key : VariantKv → Variant
  | ⟨key, _⟩ => key

def VariantKv.val : VariantKv → Variant
  | ⟨_, val⟩ => val

@[simp] theorem VariantKv.key_mk (key val : Variant) : (VariantKv.mk key val).key = key := rfl

@[simp] theorem VariantKv.val_mk (key val : Variant) : (VariantKv.mk key val).val = val := rfl

/-- `o.type` -/
def Variant.type : Variant → UInt32
  | .nil => 0x00
  | .boolean _ => 0x01
  | .positiveInteger _ => 0x02
  | .negativeInteger _ => 0x03
  | .float32 _ => 0x0a
  | .float64 _ => 0x04
  | .str _ => 0x05
  | .array _ => 0x06
  | .map _ => 0x07
  | .bin _ => 0x08
  | .ext _ _ => 0x09
  | .unknown t _ => t.type

/-- **Induction over a value**: an array from its elements, a map from its
keys and values. -/
@[elab_as_elim]
theorem Variant.induct {P : Variant → Prop} (nil : P .nil) (boolean : ∀ b, P (.boolean b))
    (positiveInteger : ∀ n, P (.positiveInteger n)) (negativeInteger : ∀ n, P (.negativeInteger n))
    (float32 : ∀ d, P (.float32 d)) (float64 : ∀ d, P (.float64 d)) (str : ∀ b, P (.str b))
    (array : ∀ xs, (∀ x ∈ xs, P x) → P (.array xs))
    (map : ∀ kvs, (∀ kv ∈ kvs, P kv.key ∧ P kv.val) → P (.map kvs)) (bin : ∀ b, P (.bin b))
    (ext : ∀ t b, P (.ext t b)) (unknown : ∀ t n, P (.unknown t n)) (v : Variant) : P v :=
  @Variant.rec P (fun kv => P kv.key ∧ P kv.val) (fun xs => ∀ x ∈ xs, P x)
    (fun kvs => ∀ kv ∈ kvs, P kv.key ∧ P kv.val)
    nil boolean positiveInteger negativeInteger float32 float64 str array map bin ext unknown
    (fun _ _ hk hv => ⟨hk, hv⟩) (by simp) (fun _ _ hx hxs => List.forall_mem_cons.mpr ⟨hx, hxs⟩)
    (by simp) (fun _ _ hkv hkvs => List.forall_mem_cons.mpr ⟨hkv, hkvs⟩) v

mutual

/-- A value and the values in it. -/
def Variant.parts : Variant → List Variant
  | .array xs => .array xs :: partsOfArray xs
  | .map kvs => .map kvs :: partsOfMap kvs
  | v => [v]
termination_by structural v => v

def Variant.partsOfArray : List Variant → List Variant
  | [] => []
  | x :: xs => x.parts ++ partsOfArray xs
termination_by structural xs => xs

def Variant.partsOfMap : List VariantKv → List Variant
  | [] => []
  | ⟨key, val⟩ :: kvs => key.parts ++ val.parts ++ partsOfMap kvs
termination_by structural kvs => kvs

end

theorem Variant.partsOfArray_eq (xs : List Variant) :
    Variant.partsOfArray xs = xs.flatMap Variant.parts := by
  induction xs with
  | nil => rfl
  | cons x xs ih => rw [Variant.partsOfArray, ih, List.flatMap_cons]

theorem Variant.partsOfMap_eq (kvs : List VariantKv) :
    Variant.partsOfMap kvs = kvs.flatMap fun kv => kv.key.parts ++ kv.val.parts := by
  induction kvs with
  | nil => rfl
  | cons kv kvs ih =>
      obtain ⟨key, val⟩ := kv
      rw [Variant.partsOfMap, ih, List.flatMap_cons]
      rfl

/-- A condition on all parts of an array. -/
theorem Variant.forall_parts_array {P : Variant → Prop} {xs : List Variant} :
    (∀ u ∈ (Variant.array xs).parts, P u) ↔
      P (.array xs) ∧ ∀ x ∈ xs, ∀ u ∈ x.parts, P u := by
  rw [Variant.parts, Variant.partsOfArray_eq, List.forall_mem_cons]
  simp only [List.mem_flatMap]
  exact and_congr_right fun _ =>
    ⟨fun h x hx u hu => h u ⟨x, hx, hu⟩, fun h u ⟨x, hx, hu⟩ => h x hx u hu⟩

/-- A condition on all parts of a map. -/
theorem Variant.forall_parts_map {P : Variant → Prop} {kvs : List VariantKv} :
    (∀ u ∈ (Variant.map kvs).parts, P u) ↔
      P (.map kvs) ∧ ∀ kv ∈ kvs, (∀ u ∈ kv.key.parts, P u) ∧ ∀ u ∈ kv.val.parts, P u := by
  rw [Variant.parts, Variant.partsOfMap_eq, List.forall_mem_cons]
  simp only [List.mem_flatMap, List.mem_append]
  refine and_congr_right fun _ => ⟨fun h kv hkv => ⟨fun u hu => ?_, fun u hu => ?_⟩, ?_⟩
  · exact h u ⟨kv, hkv, .inl hu⟩
  · exact h u ⟨kv, hkv, .inr hu⟩
  · rintro h u ⟨kv, hkv, hu | hu⟩
    · exact (h kv hkv).1 u hu
    · exact (h kv hkv).2 u hu

/-! ## `variant_print` -/

/-- What the C library leaves open: the text of `%f`, what `snprintf`
returns for a text of more than `INT_MAX` bytes, and the memory after a
string, up to a NUL. -/
structure Libc where
  formatF : UInt64 → List UInt8
  tooLong : Nat → Int32
  beyond : Blob → List UInt8

/-- The bytes of a string literal. -/
def literal (s : String) : List UInt8 := s.toList.map Char.toUInt8

/-- `%PRIu64` -/
def formatU (n : Nat) : List UInt8 := (Nat.toDigits 10 n).map Char.toUInt8

/-- `%PRIi64`, `%PRIi8` and `%i` -/
def formatI (z : Int) : List UInt8 :=
  if z < 0 then literal "-" ++ formatU z.natAbs else formatU z.natAbs

/-- `"\\x%02x"` -/
def formatX (c : UInt8) : List UInt8 :=
  literal "\\x" ++ [(Nat.digitChar (c.toNat / 16)).toUInt8, (Nat.digitChar (c.toNat % 16)).toUInt8]

/-- `isprint` of the "C" locale -/
def isprint (c : UInt8) : Bool := 0x20 ≤ c && c ≤ 0x7e

/-- `'"'` -/
def quote : UInt8 := 0x22

/-- `variant_bin_print`; a stream is what has been written to it. -/
def variantBinPrint (out : List UInt8) : List UInt8 → List UInt8
  | [] => out
  | c :: ptr =>
      if c = quote then variantBinPrint (out ++ literal "\\\"") ptr
      else if isprint c then variantBinPrint (out ++ [c]) ptr
      else variantBinPrint (out ++ formatX c) ptr

/-- `"(ext: %PRIi8)"` -/
def formatExt (type : Int8) : List UInt8 := literal "(ext: " ++ formatI type.toInt ++ literal ")"

/-- `"#<UNKNOWN %i %PRIu64>"` -/
def formatUnknown (type : UnknownType) (u64 : UInt64) : List UInt8 :=
  literal "#<UNKNOWN " ++ formatI (i32 type.type.toNat) ++ literal " " ++ formatU u64.toNat
    ++ literal ">"

mutual

/-- `variant_print` -/
def variantPrint (lib : Libc) (out : List UInt8) : Variant → List UInt8
  | .nil => out ++ literal "nil"
  | .boolean b => out ++ (if b then literal "true" else literal "false")
  | .positiveInteger n => out ++ formatU n.toNat
  | .negativeInteger n => out ++ formatI n.toInt
  | .float32 d | .float64 d => out ++ lib.formatF d
  | .str b =>
      let out := out ++ literal "\""
      let out := out ++ b.bytes
      out ++ literal "\""
  | .bin b =>
      let out := out ++ literal "\""
      let out := variantBinPrint out b.bytes
      out ++ literal "\""
  | .ext type b =>
      let out := out ++ formatExt type
      let out := out ++ literal "\""
      let out := variantBinPrint out b.bytes
      out ++ literal "\""
  | .array xs =>
      let out := out ++ literal "["
      let out :=
        match xs with
        | [] => out
        | p :: rest => printElements lib (variantPrint lib out p) rest
      out ++ literal "]"
  | .map kvs =>
      let out := out ++ literal "\x7b"
      let out :=
        match kvs with
        | [] => out
        | ⟨key, val⟩ :: rest =>
            let out := variantPrint lib out key
            let out := out ++ literal "=>"
            printPairs lib (variantPrint lib out val) rest
      out ++ literal "\x7d"
  | .unknown type n => out ++ formatUnknown type n
termination_by structural o => o

/-- The loop of `variant_print` over an array, after the first element. -/
def printElements (lib : Libc) (out : List UInt8) : List Variant → List UInt8
  | [] => out
  | p :: rest =>
      let out := out ++ literal ", "
      printElements lib (variantPrint lib out p) rest
termination_by structural p => p

/-- The loop of `variant_print` over a map, after the first pair. -/
def printPairs (lib : Libc) (out : List UInt8) : List VariantKv → List UInt8
  | [] => out
  | ⟨key, val⟩ :: rest =>
      let out := out ++ literal ", "
      let out := variantPrint lib out key
      let out := out ++ literal "=>"
      printPairs lib (variantPrint lib out val) rest
termination_by structural p => p

end

/-! ## `variant_equal` -/

/-- `memcmp(p, q, size) == 0` -/
def memEqual (p q : List UInt8) (size : Nat) : Bool := p.take size == q.take size

mutual

/-- `variant_equal`; `feq` is `==` of doubles. -/
def variantEqual (feq : UInt64 → UInt64 → Bool) (x y : Variant) : Bool :=
  if x.type ≠ y.type then false
  else
    match x, y with
    | .nil, .nil => true
    | .boolean a, .boolean b => a == b
    | .positiveInteger a, .positiveInteger b => a == b
    | .negativeInteger a, .negativeInteger b => a == b
    | .float32 a, .float32 b => feq a b
    | .float64 a, .float64 b => feq a b
    | .str a, .str b => a.size == b.size && memEqual a.bytes b.bytes a.size
    | .bin a, .bin b => a.size == b.size && memEqual a.bytes b.bytes a.size
    | .ext s a, .ext t b => a.size == b.size && s == t && memEqual a.bytes b.bytes a.size
    | .array xs, .array ys =>
        if xs.length ≠ ys.length then false
        else if xs.length = 0 then true
        else elementsEqual feq xs ys
    | .map xs, .map ys =>
        if xs.length ≠ ys.length then false
        else if xs.length = 0 then true
        else pairsEqual feq xs ys
    | _, _ => false
termination_by structural x

/-- `do { .. } while(px < pxend)` over two arrays; the pointers move on
together, and only `px` is compared with an end. -/
def elementsEqual (feq : UInt64 → UInt64 → Bool) : List Variant → List Variant → Bool
  | px :: xs, py :: ys =>
      if ¬ variantEqual feq px py then false
      else
        match xs with
        | [] => true
        | _ :: _ => elementsEqual feq xs ys
  | _, _ => false
termination_by structural px => px

/-- `do { .. } while(px < pxend)` over two maps. -/
def pairsEqual (feq : UInt64 → UInt64 → Bool) : List VariantKv → List VariantKv → Bool
  | ⟨key, val⟩ :: xs, ⟨key', val'⟩ :: ys =>
      if ¬ variantEqual feq key key' ∨ ¬ variantEqual feq val val' then false
      else
        match xs with
        | [] => true
        | _ :: _ => pairsEqual feq xs ys
  | _, _ => false
termination_by structural px => px

end

/-- The tag is valid, and not that of a float. -/
def Variant.isPlain : Variant → Bool
  | .float32 _ | .float64 _ | .unknown _ _ => false
  | _ => true

/-- No float and no invalid tag anywhere in the value. -/
def Variant.Plain (v : Variant) : Prop := ∀ u ∈ v.parts, u.isPlain = true

instance (v : Variant) : Decidable v.Plain :=
  inferInstanceAs (Decidable (∀ u ∈ v.parts, u.isPlain = true))

variable {feq : UInt64 → UInt64 → Bool} {x y z : Variant}

/-- The test of two byte strings. -/
theorem Blob.equal_iff (a b : Blob) :
    (a.size == b.size && memEqual a.bytes b.bytes a.size) = true ↔ a = b := by
  constructor
  · intro h
    obtain ⟨hsize, hmem⟩ := Bool.and_eq_true_iff.mp h
    have hlen : a.bytes.length = b.bytes.length := eq_of_beq hsize
    have htake := eq_of_beq hmem
    rw [Blob.size, List.take_length, hlen, List.take_length] at htake
    exact Blob.ext htake
  · rintro rfl
    simp [memEqual]

/-- A round of the loop over two arrays. -/
theorem elementsEqual_cons (x y : Variant) (xs ys : List Variant) :
    elementsEqual feq (x :: xs) (y :: ys)
      = (variantEqual feq x y && (xs.isEmpty || elementsEqual feq xs ys)) := by
  cases hxy : variantEqual feq x y with
  | false => simp [elementsEqual, hxy]
  | true => cases xs <;> simp [elementsEqual, hxy]

/-- A round of the loop over two maps. -/
theorem pairsEqual_cons (key val key' val' : Variant) (xs ys : List VariantKv) :
    pairsEqual feq (⟨key, val⟩ :: xs) (⟨key', val'⟩ :: ys)
      = (variantEqual feq key key' && variantEqual feq val val'
        && (xs.isEmpty || pairsEqual feq xs ys)) := by
  cases hkey : variantEqual feq key key' with
  | false => simp [pairsEqual, hkey]
  | true =>
      cases hval : variantEqual feq val val' with
      | false => simp [pairsEqual, hkey, hval]
      | true => cases xs <;> simp [pairsEqual, hkey, hval]

/-- The test of a loop for its end. -/
theorem atEnd_iff {α : Type} {xs ys : List α} {b : Bool} (hlen : xs.length = ys.length)
    (h : xs ≠ [] → (b = true ↔ xs = ys)) : (xs.isEmpty || b) = true ↔ xs = ys := by
  by_cases hxs : xs = []
  · subst hxs
    simp [List.eq_nil_of_length_eq_zero hlen.symm]
  · rw [← h hxs]
    simp [hxs]

/-- The tests of the sizes before a loop. -/
theorem sizes_iff {α : Type} {xs ys : List α} {b : Bool}
    (h : xs ≠ [] → xs.length = ys.length → (b = true ↔ xs = ys)) :
    (if xs.length ≠ ys.length then false else if xs.length = 0 then true else b) = true
      ↔ xs = ys := by
  by_cases hlen : xs.length = ys.length
  · rw [if_neg (not_not_intro hlen), ← atEnd_iff hlen fun hxs => h hxs hlen]
    cases xs <;> simp
  · rw [if_pos hlen]
    exact iff_of_false (by simp) (mt (congrArg List.length) hlen)

/-- **The loop over two arrays** of one length, which is not zero. -/
theorem elementsEqual_iff : ∀ {xs ys : List Variant},
    (∀ x ∈ xs, ∀ y, variantEqual feq x y = true ↔ x = y) → xs ≠ [] → xs.length = ys.length →
    (elementsEqual feq xs ys = true ↔ xs = ys) := by
  intro xs
  induction xs with
  | nil => exact fun _ hne => absurd rfl hne
  | cons x xs ih =>
      intro ys hx _ hlen
      cases ys with
      | nil => cases hlen
      | cons y ys =>
          have hlen' : xs.length = ys.length := Nat.succ.inj hlen
          rw [elementsEqual_cons, Bool.and_eq_true, hx x List.mem_cons_self y, List.cons.injEq]
          have hrest := atEnd_iff hlen' fun hxs =>
            ih (fun u hu => hx u (List.mem_cons_of_mem _ hu)) hxs hlen'
          exact and_congr_right fun _ => hrest

/-- **The loop over two maps** of one length, which is not zero. -/
theorem pairsEqual_iff : ∀ {xs ys : List VariantKv},
    (∀ kv ∈ xs, (∀ y, variantEqual feq kv.key y = true ↔ kv.key = y)
      ∧ ∀ y, variantEqual feq kv.val y = true ↔ kv.val = y) →
    xs ≠ [] → xs.length = ys.length → (pairsEqual feq xs ys = true ↔ xs = ys) := by
  intro xs
  induction xs with
  | nil => exact fun _ hne => absurd rfl hne
  | cons kv xs ih =>
      intro ys hx _ hlen
      cases ys with
      | nil => cases hlen
      | cons kv' ys =>
          obtain ⟨hkey, hval⟩ := hx kv List.mem_cons_self
          have hlen' : xs.length = ys.length := Nat.succ.inj hlen
          obtain ⟨key, val⟩ := kv
          obtain ⟨key', val'⟩ := kv'
          rw [pairsEqual_cons, Bool.and_eq_true, Bool.and_eq_true, List.cons.injEq,
            VariantKv.mk.injEq]
          have hrest := atEnd_iff hlen' fun hxs =>
            ih (fun u hu => hx u (List.mem_cons_of_mem _ hu)) hxs hlen'
          exact and_congr (and_congr (hkey key') (hval val')) hrest

/-- No value equals one with an invalid tag. -/
theorem variantEqual_unknown (x : Variant) (t : UnknownType) (n : UInt64) :
    variantEqual feq x (.unknown t n) = false := by
  unfold variantEqual
  split
  · rfl
  · cases x <;> rfl

/-- **`variant_equal` decides equality** of plain values. -/
theorem Variant.Plain.variantEqual_iff (hx : x.Plain) (y : Variant) :
    variantEqual feq x y = true ↔ x = y := by
  revert y
  induction x using Variant.induct with
  | float32 _ | float64 _ | unknown _ _ =>
      exact absurd (hx _ List.mem_cons_self) (by simp [Variant.isPlain])
  | nil | boolean _ | positiveInteger _ | negativeInteger _ =>
      intro y
      cases y with
      | unknown t n => simp [variantEqual_unknown]
      | _ => simp [variantEqual, Variant.type]
  | str b =>
      intro y
      cases y with
      | str b' =>
          rw [variantEqual, Variant.str.injEq, ← Blob.equal_iff]
          simp [Variant.type]
      | unknown t n => simp [variantEqual_unknown]
      | _ => simp [variantEqual, Variant.type]
  | bin b =>
      intro y
      cases y with
      | bin b' =>
          rw [variantEqual, Variant.bin.injEq, ← Blob.equal_iff]
          simp [Variant.type]
      | unknown t n => simp [variantEqual_unknown]
      | _ => simp [variantEqual, Variant.type]
  | ext t b =>
      intro y
      cases y with
      | ext t' b' =>
          rw [variantEqual, Variant.ext.injEq, ← Blob.equal_iff]
          simp only [Variant.type, Bool.and_eq_true]
          simp [and_left_comm, and_assoc]
      | unknown t n => simp [variantEqual_unknown]
      | _ => simp [variantEqual, Variant.type]
  | array xs ih =>
      obtain ⟨_, hparts⟩ := Variant.forall_parts_array.mp hx
      intro y
      cases y with
      | array ys =>
          rw [variantEqual, Variant.array.injEq]
          simp only [Variant.type, ne_eq, not_true_eq_false, if_false]
          exact sizes_iff (elementsEqual_iff fun x hx => ih x hx (hparts x hx))
      | unknown t n => simp [variantEqual_unknown]
      | _ => simp [variantEqual, Variant.type]
  | map kvs ih =>
      obtain ⟨_, hparts⟩ := Variant.forall_parts_map.mp hx
      intro y
      cases y with
      | map kvs' =>
          rw [variantEqual, Variant.map.injEq]
          simp only [Variant.type, ne_eq, not_true_eq_false, if_false]
          exact sizes_iff (pairsEqual_iff fun kv hkv =>
            ⟨(ih kv hkv).1 (hparts kv hkv).1, (ih kv hkv).2 (hparts kv hkv).2⟩)
      | unknown t n => simp [variantEqual_unknown]
      | _ => simp [variantEqual, Variant.type]

/-- **`variant_equal` is structural equality** where no float and no invalid
tag is about, so an equivalence, and equal values have one text. -/
theorem variantEqual_structural (lib : Libc) (feq : UInt64 → UInt64 → Bool) (hx : x.Plain)
    (hy : y.Plain) :
    (variantEqual feq x y = true ↔ x = y)
      ∧ variantEqual feq x x = true
      ∧ (variantEqual feq x y = true → variantEqual feq y x = true)
      ∧ (variantEqual feq x y = true → variantEqual feq y z = true → variantEqual feq x z = true)
      ∧ (variantEqual feq x y = true → ∀ out, variantPrint lib out x = variantPrint lib out y) := by
  simp only [hx.variantEqual_iff, hy.variantEqual_iff]
  refine ⟨trivial, trivial, Eq.symm, Eq.trans, fun h out => by rw [h]⟩

/-- Two arrays with maps in them that differ in a value, and a string. -/
theorem variantEqual_structural_arrays :
    let lib : Libc := ⟨fun _ => [], fun _ => -1, fun _ => []⟩
    let x : Variant := .array [.nil, .map [⟨.positiveInteger 7, .boolean true⟩]]
    let y : Variant := .array [.nil, .map [⟨.positiveInteger 7, .boolean false⟩]]
    let z : Variant := .str ⟨[0x61, 0x00], by decide⟩
    (variantEqual (· == ·) x y = true ↔ x = y)
      ∧ variantEqual (· == ·) x x = true
      ∧ (variantEqual (· == ·) x y = true → variantEqual (· == ·) y x = true)
      ∧ (variantEqual (· == ·) x y = true → variantEqual (· == ·) y z = true →
        variantEqual (· == ·) x z = true)
      ∧ (variantEqual (· == ·) x y = true →
        ∀ out, variantPrint lib out x = variantPrint lib out y) :=
  variantEqual_structural _ _ (by decide) (by decide)

end Ats
