import Ats.Base.Variant
import Ats.Lib.BoundedPrint
import Mathlib.Algebra.GroupWithZero.Nat
import Mathlib.Algebra.Order.BigOperators.Group.List
import Mathlib.Algebra.Order.Group.Nat
import Mathlib.Data.List.TakeWhile

/-!
# VariantBuffer: `variant_print_buffer`

The printer of `Variant` over again, for a buffer. What it prints piece by
piece is the layout of the value; strings go through `%.*s`, which ends at
a NUL.
-/

namespace Ats

open BoundedPrint

/-! ## `variant_print_buffer` -/

/-- The loop of `variant_bin_print_buffer`. -/
def binPrintLoop (lib : Libc) (aux : Cursor) : List UInt8 → Cursor
  | [] => aux
  | c :: ptr =>
      if c = quote then binPrintLoop lib (aux.text lib.tooLong (literal "\\\"")) ptr
      else if isprint c then binPrintLoop lib (aux.put c) ptr
      else binPrintLoop lib (aux.text lib.tooLong (formatX c)) ptr

/-- `variant_bin_print_buffer` -/
def variantBinPrintBuffer (lib : Libc) (st : Store) (buffer : Int) (bufferSize : Nat)
    (ptr : List UInt8) : Store × Int :=
  (binPrintLoop lib ⟨st, buffer, bufferSize⟩ ptr).result bufferSize

/-- `"%.*s"` with the precision `(int)size`. A negative one counts as none,
and then what follows the string in memory is read too. -/
def formatS (lib : Libc) (b : Blob) : List UInt8 :=
  if 0 ≤ i32 b.size then (b.bytes.take (i32 b.size).toNat).takeWhile (· ≠ 0)
  else (b.bytes ++ lib.beyond b).takeWhile (· ≠ 0)

mutual

/-- `variant_print_buffer` -/
def variantPrintBuffer (lib : Libc) (st : Store) (buffer : Int) (bufferSize : Nat) (o : Variant) :
    Store × Int :=
  let aux : Cursor := ⟨st, buffer, bufferSize⟩
  let aux :=
    match o with
    | .nil => aux.text lib.tooLong (literal "nil")
    | .boolean b => aux.text lib.tooLong (if b then literal "true" else literal "false")
    | .positiveInteger n => aux.text lib.tooLong (formatU n.toNat)
    | .negativeInteger n => aux.text lib.tooLong (formatI n.toInt)
    | .float32 d | .float64 d => aux.text lib.tooLong (lib.formatF d)
    | .str b =>
        let aux := aux.text lib.tooLong (literal "\"")
        let aux := aux.text lib.tooLong (formatS lib b)
        aux.text lib.tooLong (literal "\"")
    | .bin b =>
        let aux := aux.text lib.tooLong (literal "\"")
        let aux := aux.call fun st p n => variantBinPrintBuffer lib st p n b.bytes
        aux.text lib.tooLong (literal "\"")
    | .ext type b =>
        let aux := aux.text lib.tooLong (formatExt type)
        let aux := aux.text lib.tooLong (literal "\"")
        let aux := aux.call fun st p n => variantBinPrintBuffer lib st p n b.bytes
        aux.text lib.tooLong (literal "\"")
    | .array xs =>
        let aux := aux.text lib.tooLong (literal "[")
        let aux :=
          match xs with
          | [] => aux
          | x :: rest =>
              let aux := aux.call fun st p n => variantPrintBuffer lib st p n x
              printBufferElements lib aux rest
        aux.text lib.tooLong (literal "]")
    | .map kvs =>
        let aux := aux.text lib.tooLong (literal "\x7b")
        let aux :=
          match kvs with
          | [] => aux
          | ⟨key, val⟩ :: rest =>
              let aux := aux.call fun st p n => variantPrintBuffer lib st p n key
              let aux := aux.text lib.tooLong (literal "=>")
              let aux := aux.call fun st p n => variantPrintBuffer lib st p n val
              printBufferPairs lib aux rest
        aux.text lib.tooLong (literal "\x7d")
    | .unknown type n => aux.text lib.tooLong (formatUnknown type n)
  aux.result bufferSize
termination_by structural o

/-- The loop over an array, after the first element. -/
def printBufferElements (lib : Libc) (aux : Cursor) : List Variant → Cursor
  | [] => aux
  | x :: rest =>
      let aux := aux.text lib.tooLong (literal ", ")
      let aux := aux.call fun st p n => variantPrintBuffer lib st p n x
      printBufferElements lib aux rest
termination_by structural p => p

/-- The loop over a map, after the first pair. -/
def printBufferPairs (lib : Libc) (aux : Cursor) : List VariantKv → Cursor
  | [] => aux
  | ⟨key, val⟩ :: rest =>
      let aux := aux.text lib.tooLong (literal ", ")
      let aux := aux.call fun st p n => variantPrintBuffer lib st p n key
      let aux := aux.text lib.tooLong (literal "=>")
      let aux := aux.call fun st p n => variantPrintBuffer lib st p n val
      printBufferPairs lib aux rest
termination_by structural p => p

end

/-! ## The layout of a value -/

/-- The pieces of `variant_bin_print_buffer`. -/
def binLayout : List UInt8 → List Piece
  | [] => []
  | c :: ptr =>
      (if c = quote then .text (literal "\\\"") else if isprint c then .byte c
        else .text (formatX c)) :: binLayout ptr

section
variable (lib : Libc) (format : Blob → List UInt8)

mutual

/-- **What is printed for a value**, where `format` is what is printed for
the bytes of a string. -/
def layout : Variant → List Piece
  | .nil => [.text (literal "nil")]
  | .boolean b => [.text (if b then literal "true" else literal "false")]
  | .positiveInteger n => [.text (formatU n.toNat)]
  | .negativeInteger n => [.text (formatI n.toInt)]
  | .float32 d | .float64 d => [.text (lib.formatF d)]
  | .str b => [.text (literal "\""), .text (format b), .text (literal "\"")]
  | .bin b => [.text (literal "\""), .call (binLayout b.bytes), .text (literal "\"")]
  | .ext type b => [.text (formatExt type), .text (literal "\""), .call (binLayout b.bytes),
      .text (literal "\"")]
  | .array [] => [.text (literal "["), .text (literal "]")]
  | .array (x :: rest) => .text (literal "[") :: .call (layout x)
      :: (elementsLayout rest ++ [.text (literal "]")])
  | .map [] => [.text (literal "\x7b"), .text (literal "\x7d")]
  | .map (⟨key, val⟩ :: rest) => .text (literal "\x7b") :: .call (layout key)
      :: .text (literal "=>") :: .call (layout val)
      :: (pairsLayout rest ++ [.text (literal "\x7d")])
  | .unknown type n => [.text (formatUnknown type n)]
termination_by structural v => v

def elementsLayout : List Variant → List Piece
  | [] => []
  | x :: rest => .text (literal ", ") :: .call (layout x) :: elementsLayout rest
termination_by structural xs => xs

def pairsLayout : List VariantKv → List Piece
  | [] => []
  | ⟨key, val⟩ :: rest => .text (literal ", ") :: .call (layout key) :: .text (literal "=>")
      :: .call (layout val) :: pairsLayout rest
termination_by structural kvs => kvs

end

theorem pairsLayout_cons (kv : VariantKv) (rest : List VariantKv) :
    pairsLayout lib format (kv :: rest) = .text (literal ", ") :: .call (layout lib format kv.key)
      :: .text (literal "=>") :: .call (layout lib format kv.val)
      :: pairsLayout lib format rest := by
  cases kv
  rfl

theorem layout_map_cons (kv : VariantKv) (rest : List VariantKv) :
    layout lib format (.map (kv :: rest)) = .text (literal "\x7b")
      :: .call (layout lib format kv.key) :: .text (literal "=>")
      :: .call (layout lib format kv.val)
      :: (pairsLayout lib format rest ++ [.text (literal "\x7d")]) := by
  cases kv
  rfl

end

variable {lib : Libc} {format : Blob → List UInt8}

/-! ## Both printers follow the layout -/

theorem binPrintLoop_eq : ∀ (ptr : List UInt8) (aux : Cursor),
    binPrintLoop lib aux ptr = printAll lib.tooLong aux (binLayout ptr) := by
  intro ptr
  induction ptr with
  | nil => exact fun _ => rfl
  | cons c ptr ih =>
      intro aux
      rw [binPrintLoop, binLayout, printAll]
      split
      · rw [ih, Piece.print]
      · split
        · rw [ih, Piece.print]
        · rw [ih, Piece.print]

theorem printBufferElements_eq {xs : List Variant}
    (hxs : ∀ x ∈ xs, ∀ st p n, variantPrintBuffer lib st p n x
      = (printAll lib.tooLong ⟨st, p, n⟩ (layout lib (formatS lib) x)).result n) :
    ∀ aux : Cursor, printBufferElements lib aux xs
      = printAll lib.tooLong aux (elementsLayout lib (formatS lib) xs) := by
  induction xs with
  | nil => exact fun _ => rfl
  | cons x xs ih =>
      intro aux
      have hx := hxs x List.mem_cons_self
      rw [printBufferElements, ih fun y hy => hxs y (List.mem_cons_of_mem _ hy)]
      simp only [elementsLayout, printAll, Piece.print, hx]

theorem printBufferPairs_eq {kvs : List VariantKv}
    (hkvs : ∀ kv ∈ kvs, (∀ st p n, variantPrintBuffer lib st p n kv.key
        = (printAll lib.tooLong ⟨st, p, n⟩ (layout lib (formatS lib) kv.key)).result n)
      ∧ ∀ st p n, variantPrintBuffer lib st p n kv.val
        = (printAll lib.tooLong ⟨st, p, n⟩ (layout lib (formatS lib) kv.val)).result n) :
    ∀ aux : Cursor, printBufferPairs lib aux kvs
      = printAll lib.tooLong aux (pairsLayout lib (formatS lib) kvs) := by
  induction kvs with
  | nil => exact fun _ => rfl
  | cons kv kvs ih =>
      intro aux
      obtain ⟨hkey, hval⟩ := hkvs kv List.mem_cons_self
      obtain ⟨key, val⟩ := kv
      rw [printBufferPairs, ih fun y hy => hkvs y (List.mem_cons_of_mem _ hy)]
      simp only [VariantKv.key_mk, VariantKv.val_mk] at hkey hval
      simp only [pairsLayout, printAll, Piece.print, hkey, hval]

/-- **`variant_print_buffer` prints the layout**, piece by piece. -/
theorem variantPrintBuffer_eq (o : Variant) : ∀ (st : Store) (buffer : Int) (n : Nat),
    variantPrintBuffer lib st buffer n o
      = (printAll lib.tooLong ⟨st, buffer, n⟩ (layout lib (formatS lib) o)).result n := by
  induction o using Variant.induct with
  | array xs ih =>
      intro st buffer n
      cases xs with
      | nil => simp only [variantPrintBuffer, layout, printAll, Piece.print]
      | cons x rest =>
          have hx := ih x List.mem_cons_self
          have hrest := printBufferElements_eq fun y hy => ih y (List.mem_cons_of_mem _ hy)
          simp only [variantPrintBuffer, layout, printAll, Piece.print, printAll_append, hx, hrest]
  | map kvs ih =>
      intro st buffer n
      cases kvs with
      | nil => simp only [variantPrintBuffer, layout, printAll, Piece.print]
      | cons kv rest =>
          obtain ⟨hkey, hval⟩ := ih kv List.mem_cons_self
          have hrest := printBufferPairs_eq fun y hy => ih y (List.mem_cons_of_mem _ hy)
          obtain ⟨key, val⟩ := kv
          simp only [VariantKv.key_mk, VariantKv.val_mk] at hkey hval
          simp only [variantPrintBuffer, layout, printAll, Piece.print, printAll_append, hkey, hval,
            hrest]
  | bin b =>
      intro st buffer n
      simp only [variantPrintBuffer, layout, printAll, Piece.print, variantBinPrintBuffer,
        binPrintLoop_eq]
  | ext type b =>
      intro st buffer n
      simp only [variantPrintBuffer, layout, printAll, Piece.print, variantBinPrintBuffer,
        binPrintLoop_eq]
  | _ =>
      intro st buffer n
      simp only [variantPrintBuffer, layout, printAll, Piece.print]

theorem variantBinPrint_eq : ∀ (ptr out : List UInt8),
    variantBinPrint out ptr = out ++ allBytes (binLayout ptr) := by
  intro ptr
  induction ptr with
  | nil => exact fun out => (List.append_nil out).symm
  | cons c ptr ih =>
      intro out
      rw [variantBinPrint, binLayout, allBytes]
      split
      · rw [ih, Piece.bytes, List.append_assoc]
      · split
        · rw [ih, Piece.bytes, List.append_assoc]
        · rw [ih, Piece.bytes, List.append_assoc]

theorem printElements_eq {xs : List Variant} (hxs : ∀ x ∈ xs, ∀ out,
      variantPrint lib out x = out ++ allBytes (layout lib Blob.bytes x)) :
    ∀ out, printElements lib out xs = out ++ allBytes (elementsLayout lib Blob.bytes xs) := by
  induction xs with
  | nil => exact fun out => (List.append_nil out).symm
  | cons x xs ih =>
      intro out
      have hx := hxs x List.mem_cons_self
      rw [printElements, ih fun y hy => hxs y (List.mem_cons_of_mem _ hy)]
      simp only [elementsLayout, allBytes, Piece.bytes, hx, List.append_assoc]

theorem printPairs_eq {kvs : List VariantKv} (hkvs : ∀ kv ∈ kvs,
      (∀ out, variantPrint lib out kv.key = out ++ allBytes (layout lib Blob.bytes kv.key))
      ∧ ∀ out, variantPrint lib out kv.val = out ++ allBytes (layout lib Blob.bytes kv.val)) :
    ∀ out, printPairs lib out kvs = out ++ allBytes (pairsLayout lib Blob.bytes kvs) := by
  induction kvs with
  | nil => exact fun out => (List.append_nil out).symm
  | cons kv kvs ih =>
      intro out
      obtain ⟨hkey, hval⟩ := hkvs kv List.mem_cons_self
      obtain ⟨key, val⟩ := kv
      rw [printPairs, ih fun y hy => hkvs y (List.mem_cons_of_mem _ hy)]
      simp only [VariantKv.key_mk, VariantKv.val_mk] at hkey hval
      simp only [pairsLayout, allBytes, Piece.bytes, hkey, hval, List.append_assoc]

/-- **`variant_print` writes the layout**, with all bytes of the strings. -/
theorem variantPrint_eq (o : Variant) :
    ∀ out, variantPrint lib out o = out ++ allBytes (layout lib Blob.bytes o) := by
  induction o using Variant.induct with
  | array xs ih =>
      intro out
      cases xs with
      | nil => simp only [variantPrint, layout, allBytes, Piece.bytes, List.append_assoc,
          List.append_nil]
      | cons x rest =>
          have hx := ih x List.mem_cons_self
          have hrest := printElements_eq fun y hy => ih y (List.mem_cons_of_mem _ hy)
          simp only [variantPrint, layout, allBytes, Piece.bytes, allBytes_append, hx, hrest,
            List.append_assoc, List.append_nil]
  | map kvs ih =>
      intro out
      cases kvs with
      | nil => simp only [variantPrint, layout, allBytes, Piece.bytes, List.append_assoc,
          List.append_nil]
      | cons kv rest =>
          obtain ⟨hkey, hval⟩ := ih kv List.mem_cons_self
          have hrest := printPairs_eq fun y hy => ih y (List.mem_cons_of_mem _ hy)
          obtain ⟨key, val⟩ := kv
          simp only [VariantKv.key_mk, VariantKv.val_mk] at hkey hval
          simp only [variantPrint, layout, allBytes, Piece.bytes, allBytes_append, hkey, hval,
            hrest, List.append_assoc, List.append_nil]
  | bin b =>
      intro out
      simp only [variantPrint, layout, allBytes, Piece.bytes, variantBinPrint_eq,
        List.append_assoc, List.append_nil]
  | ext type b =>
      intro out
      simp only [variantPrint, layout, allBytes, Piece.bytes, variantBinPrint_eq,
        List.append_assoc, List.append_nil]
  | _ =>
      intro out
      simp only [variantPrint, layout, allBytes, Piece.bytes, List.append_assoc, List.append_nil]

/-! ## The strings in a value -/

/-- The string that a value is. -/
def Variant.str? : Variant → Option Blob
  | .str b => some b
  | _ => none

/-- The strings in a value, also the keys and values of its maps. -/
def Variant.strings (v : Variant) : List Blob := v.parts.filterMap Variant.str?

theorem Variant.strings_array (xs : List Variant) :
    (Variant.array xs).strings = xs.flatMap Variant.strings := by
  rw [Variant.strings, Variant.parts, Variant.partsOfArray_eq, List.filterMap_cons_none rfl,
    List.filterMap_flatMap]
  rfl

theorem Variant.strings_map (kvs : List VariantKv) : (Variant.map kvs).strings
    = kvs.flatMap fun kv => kv.key.strings ++ kv.val.strings := by
  rw [Variant.strings, Variant.parts, Variant.partsOfMap_eq, List.filterMap_cons_none rfl,
    List.filterMap_flatMap]
  simp only [List.filterMap_append]
  rfl

/-- How long the strings are when they are printed by `f`. -/
def formatted (f : Blob → List UInt8) (bs : List Blob) : Nat := (bs.map fun b => (f b).length).sum

theorem formatted_append (f : Blob → List UInt8) (bs cs : List Blob) :
    formatted f (bs ++ cs) = formatted f bs + formatted f cs := by
  simp [formatted]

variable {f g : Blob → List UInt8}

theorem elementsLayout_length {xs : List Variant} (hxs : ∀ x ∈ xs,
      (allBytes (layout lib f x)).length + formatted g x.strings
        = (allBytes (layout lib g x)).length + formatted f x.strings) :
    (allBytes (elementsLayout lib f xs)).length + formatted g (xs.flatMap Variant.strings)
      = (allBytes (elementsLayout lib g xs)).length + formatted f (xs.flatMap Variant.strings) := by
  induction xs with
  | nil => rfl
  | cons x xs ih =>
      have hx := hxs x List.mem_cons_self
      have hrest := ih fun y hy => hxs y (List.mem_cons_of_mem _ hy)
      simp only [elementsLayout, allBytes, Piece.bytes, List.flatMap_cons, formatted_append,
        List.length_append]
      omega

theorem pairsLayout_length {kvs : List VariantKv} (hkvs : ∀ kv ∈ kvs,
      (allBytes (layout lib f kv.key)).length + formatted g kv.key.strings
          = (allBytes (layout lib g kv.key)).length + formatted f kv.key.strings
        ∧ (allBytes (layout lib f kv.val)).length + formatted g kv.val.strings
          = (allBytes (layout lib g kv.val)).length + formatted f kv.val.strings) :
    (allBytes (pairsLayout lib f kvs)).length
        + formatted g (kvs.flatMap fun kv => kv.key.strings ++ kv.val.strings)
      = (allBytes (pairsLayout lib g kvs)).length
        + formatted f (kvs.flatMap fun kv => kv.key.strings ++ kv.val.strings) := by
  induction kvs with
  | nil => rfl
  | cons kv kvs ih =>
      obtain ⟨hkey, hval⟩ := hkvs kv List.mem_cons_self
      have hrest := ih fun y hy => hkvs y (List.mem_cons_of_mem _ hy)
      simp only [pairsLayout_cons, allBytes, Piece.bytes, List.flatMap_cons, formatted_append,
        List.length_append]
      omega

/-- **Two ways to print the strings** make a difference for the strings only. -/
theorem layout_length (lib : Libc) (f g : Blob → List UInt8) (v : Variant) :
    (allBytes (layout lib f v)).length + formatted g v.strings
      = (allBytes (layout lib g v)).length + formatted f v.strings := by
  induction v using Variant.induct with
  | str b => simp [layout, allBytes, Piece.bytes, Variant.strings, Variant.parts, Variant.str?,
      formatted, Nat.add_comm, Nat.add_left_comm]
  | array xs ih =>
      rw [Variant.strings_array]
      cases xs with
      | nil => rfl
      | cons x rest =>
          have hx := ih x List.mem_cons_self
          have hrest := elementsLayout_length fun y hy => ih y (List.mem_cons_of_mem _ hy)
          simp only [layout, allBytes, Piece.bytes, allBytes_append, List.flatMap_cons,
            formatted_append, List.length_append]
          omega
  | map kvs ih =>
      rw [Variant.strings_map]
      cases kvs with
      | nil => rfl
      | cons kv rest =>
          obtain ⟨hkey, hval⟩ := ih kv List.mem_cons_self
          have hrest := pairsLayout_length fun y hy => ih y (List.mem_cons_of_mem _ hy)
          simp only [layout_map_cons, allBytes, Piece.bytes, allBytes_append, List.flatMap_cons,
            formatted_append, List.length_append]
          omega
  | _ => rfl

/-- A string is not longer than the text it is in. -/
theorem length_le_text {v : Variant} {b : Blob} (hb : b ∈ v.strings) :
    (f b).length ≤ (allBytes (layout lib f v)).length := by
  have hsum := layout_length lib (fun _ => []) f v
  have hzero : formatted (fun _ => []) v.strings = 0 := by
    simp [formatted]
  have hle : (f b).length ≤ formatted f v.strings :=
    List.le_sum_of_mem (List.mem_map_of_mem hb)
  omega

theorem elementsLayout_congr {xs : List Variant} (hxs : ∀ x ∈ xs, layout lib f x = layout lib g x) :
    elementsLayout lib f xs = elementsLayout lib g xs := by
  induction xs with
  | nil => rfl
  | cons x xs ih =>
      rw [elementsLayout, elementsLayout, hxs x List.mem_cons_self,
        ih fun y hy => hxs y (List.mem_cons_of_mem _ hy)]

theorem pairsLayout_congr {kvs : List VariantKv} (hkvs : ∀ kv ∈ kvs,
      layout lib f kv.key = layout lib g kv.key ∧ layout lib f kv.val = layout lib g kv.val) :
    pairsLayout lib f kvs = pairsLayout lib g kvs := by
  induction kvs with
  | nil => rfl
  | cons kv kvs ih =>
      obtain ⟨hkey, hval⟩ := hkvs kv List.mem_cons_self
      rw [pairsLayout_cons, pairsLayout_cons, hkey, hval,
        ih fun y hy => hkvs y (List.mem_cons_of_mem _ hy)]

/-- The layout asks for the format of its strings only. -/
theorem layout_congr {v : Variant} (h : ∀ b ∈ v.strings, f b = g b) :
    layout lib f v = layout lib g v := by
  induction v using Variant.induct with
  | str b => rw [layout, layout, h b (by simp [Variant.strings, Variant.parts, Variant.str?])]
  | array xs ih =>
      rw [Variant.strings_array] at h
      have hxs : ∀ x ∈ xs, layout lib f x = layout lib g x := fun x hx =>
        ih x hx fun b hb => h b (List.mem_flatMap.mpr ⟨x, hx, hb⟩)
      cases xs with
      | nil => rfl
      | cons x rest =>
          rw [layout, layout, hxs x List.mem_cons_self,
            elementsLayout_congr fun y hy => hxs y (List.mem_cons_of_mem _ hy)]
  | map kvs ih =>
      rw [Variant.strings_map] at h
      have hkvs : ∀ kv ∈ kvs, layout lib f kv.key = layout lib g kv.key
          ∧ layout lib f kv.val = layout lib g kv.val := fun kv hkv =>
        ⟨(ih kv hkv).1 fun b hb =>
            h b (List.mem_flatMap.mpr ⟨kv, hkv, List.mem_append_left _ hb⟩),
          (ih kv hkv).2 fun b hb =>
            h b (List.mem_flatMap.mpr ⟨kv, hkv, List.mem_append_right _ hb⟩)⟩
      cases kvs with
      | nil => rfl
      | cons kv rest =>
          obtain ⟨hkey, hval⟩ := hkvs kv List.mem_cons_self
          rw [layout_map_cons, layout_map_cons, hkey, hval,
            pairsLayout_congr fun y hy => hkvs y (List.mem_cons_of_mem _ hy)]
  | _ => rfl

/-! ## `%.*s` -/

/-- A string that an `int` can count is printed up to its first NUL. -/
theorem formatS_eq {b : Blob} (hb : b.bytes.length < 2 ^ 31) :
    formatS lib b = b.bytes.takeWhile (· ≠ 0) := by
  have hsize : i32 b.size = b.bytes.length := i32_of_mem (by unfold Blob.size; omega) (by
    unfold Blob.size
    omega)
  rw [formatS, if_pos (by omega), hsize, Int.toNat_natCast, List.take_length]

theorem takeWhile_eq_iff (s : List UInt8) : s.takeWhile (· ≠ 0) = s ↔ 0 ∉ s := by
  rw [List.takeWhile_eq_self_iff]
  constructor
  · exact fun h hz => absurd (h 0 hz) (by simp)
  · intro h c hc
    simp only [ne_eq, decide_eq_true_iff]
    rintro rfl
    exact h hc

/-- **The text of the buffer is as long as that of the stream** only where
no string has a NUL. -/
theorem length_eq_iff (lib : Libc) {v : Variant}
    (hv : ∀ b ∈ v.strings, b.bytes.length < 2 ^ 31) :
    (allBytes (layout lib (formatS lib) v)).length ≤ (allBytes (layout lib Blob.bytes v)).length
      ∧ ((allBytes (layout lib (formatS lib) v)).length
          = (allBytes (layout lib Blob.bytes v)).length
        → ∀ b ∈ v.strings, 0 ∉ b.bytes) := by
  have hsum := layout_length lib (formatS lib) Blob.bytes v
  have hle : ∀ b ∈ v.strings, (formatS lib b).length ≤ b.bytes.length := by
    intro b hb
    rw [formatS_eq (hv b hb)]
    exact (List.takeWhile_prefix _).length_le
  have htotal : formatted (formatS lib) v.strings ≤ formatted Blob.bytes v.strings :=
    List.sum_le_sum hle
  refine ⟨by omega, fun heq b hb => ?_⟩
  by_contra hz
  have hlt : (formatS lib b).length < b.bytes.length := by
    refine Nat.lt_of_le_of_ne (hle b hb) fun hlen => ?_
    rw [formatS_eq (hv b hb)] at hlen
    exact (takeWhile_eq_iff b.bytes).mp ((List.takeWhile_prefix _).eq_of_length hlen)
      hz
  have hstrict : formatted (formatS lib) v.strings < formatted Blob.bytes v.strings :=
    List.sum_lt_sum _ _ hle ⟨b, hb, hlt⟩
  omega

/-! ## Layouts are closed -/

theorem endsWithText_append (ps : List Piece) (s : List UInt8) : EndsWithText (ps ++ [.text s]) :=
  ⟨ps, s, rfl⟩

/-- Every value ends with the output of an `snprintf`. -/
theorem layout_endsWithText (lib : Libc) (format : Blob → List UInt8) (v : Variant) :
    EndsWithText (layout lib format v) := by
  cases v with
  | array xs =>
      cases xs with
      | nil => exact endsWithText_append [_] _
      | cons x rest => exact endsWithText_append (_ :: _ :: elementsLayout lib format rest) _
  | map kvs =>
      cases kvs with
      | nil => exact endsWithText_append [_] _
      | cons kv rest =>
          rw [layout_map_cons]
          exact endsWithText_append (_ :: _ :: _ :: _ :: pairsLayout lib format rest) _
  | str b => exact endsWithText_append [_, _] _
  | bin b => exact endsWithText_append [_, _] _
  | ext type b => exact endsWithText_append [_, _, _] _
  | _ => exact endsWithText_append [] _

/-- A binary, before what follows it. -/
theorem binLayout_closed : ∀ (ptr : List UInt8) {rest : List Piece}, Closed rest →
    FollowsByte rest → Closed (flatAll (binLayout ptr) ++ rest)
      ∧ FollowsByte (flatAll (binLayout ptr) ++ rest) := by
  intro ptr
  induction ptr with
  | nil => exact fun h h' => ⟨h, h'⟩
  | cons c ptr ih =>
      intro rest h h'
      obtain ⟨hclosed, hfollows⟩ := ih h h'
      rw [binLayout, flatAll]
      split
      · exact ⟨hclosed, show literal "\\\"" ≠ [] by decide⟩
      · split
        · exact ⟨⟨hclosed, hfollows⟩, trivial⟩
        · exact ⟨hclosed, show formatX c ≠ [] by simp [formatX]⟩

theorem quoted_closed (ptr : List UInt8) :
    Closed (flatAll (binLayout ptr) ++ [.text (literal "\"")]) :=
  (binLayout_closed ptr (show Closed [.text (literal "\"")] from trivial)
    (show literal "\"" ≠ [] by decide)).1

theorem elementsLayout_closed {xs : List Variant}
    (hxs : ∀ x ∈ xs, Closed (flatAll (layout lib format x))) :
    Closed (flatAll (elementsLayout lib format xs)) := by
  induction xs with
  | nil => trivial
  | cons x xs ih =>
      have hrest := ih fun y hy => hxs y (List.mem_cons_of_mem _ hy)
      exact (hxs x List.mem_cons_self).append hrest

theorem pairsLayout_closed {kvs : List VariantKv}
    (hkvs : ∀ kv ∈ kvs, Closed (flatAll (layout lib format kv.key))
      ∧ Closed (flatAll (layout lib format kv.val))) :
    Closed (flatAll (pairsLayout lib format kvs)) := by
  induction kvs with
  | nil => trivial
  | cons kv kvs ih =>
      obtain ⟨hkey, hval⟩ := hkvs kv List.mem_cons_self
      have hrest := ih fun y hy => hkvs y (List.mem_cons_of_mem _ hy)
      rw [pairsLayout_cons]
      exact hkey.append (show Closed (.text (literal "=>") :: _) from hval.append hrest)

/-- **Every plain byte is followed by a quote or an escape**, in the end. -/
theorem layout_closed (v : Variant) : Closed (flatAll (layout lib format v)) := by
  induction v using Variant.induct with
  | bin b => exact quoted_closed b.bytes
  | ext type b => exact quoted_closed b.bytes
  | array xs ih =>
      cases xs with
      | nil => trivial
      | cons x rest =>
          have hrest := elementsLayout_closed fun y hy => ih y (List.mem_cons_of_mem _ hy)
          rw [layout, flatAll, flatAll, flatAll_append]
          exact (ih x List.mem_cons_self).append (hrest.append trivial)
  | map kvs ih =>
      cases kvs with
      | nil => trivial
      | cons kv rest =>
          obtain ⟨hkey, hval⟩ := ih kv List.mem_cons_self
          have hrest := pairsLayout_closed fun y hy => ih y (List.mem_cons_of_mem _ hy)
          rw [layout_map_cons, flatAll, flatAll, flatAll, flatAll, flatAll_append]
          exact hkey.append (show Closed (.text (literal "=>") :: _) from
            hval.append (hrest.append trivial))
  | _ => trivial

/-! ## The two printers -/

/-- A C library for examples: no floats, and no long texts. -/
def smallLibc : Libc := ⟨fun _ => [], fun _ => -1, fun _ => []⟩

/-- An array with a map and a binary in it. -/
def nestedArray : Variant :=
  .array [.boolean true, .map [⟨.positiveInteger 7, .str ⟨literal "ab", by decide⟩⟩],
    .bin ⟨[0x61, 0x22, 0x00, 0x62], by decide⟩]

/-- **`variant_print_buffer` agrees with `variant_print`**: the buffer holds
what the stream gets, and its length is returned. -/
structure Agrees (lib : Libc) (m : Int → UInt8) (buffer : Int) (size : Nat) (v : Variant) :
    Prop where
  text : ∀ i < (variantPrint lib [] v).length, (variantPrint lib [] v)[i]?
    = some ((variantPrintBuffer lib ⟨m, []⟩ buffer size v).1.byte (buffer + i))
  count : (variantPrintBuffer lib ⟨m, []⟩ buffer size v).2 = (variantPrint lib [] v).length

/-- **In a buffer with room the two printers agree** just where no string has
a NUL and an `int` can count the text. A NUL ends the text in the buffer, and
nothing else is written. -/
theorem variantPrintBuffer_agrees_iff (lib : Libc) (m : Int → UInt8) (buffer : Int) {size : Nat}
    {v : Variant} (hsize : size < 2 ^ 64) (hroom : (variantPrint lib [] v).length < size) :
    (Agrees lib m buffer size v
        ↔ (∀ b ∈ v.strings, 0 ∉ b.bytes) ∧ (variantPrint lib [] v).length < 2 ^ 31)
      ∧ (Agrees lib m buffer size v →
        (variantPrintBuffer lib ⟨m, []⟩ buffer size v).1.byte
            (buffer + (variantPrint lib [] v).length) = 0
          ∧ ∀ a, a < buffer ∨ buffer + (variantPrint lib [] v).length < a →
            (variantPrintBuffer lib ⟨m, []⟩ buffer size v).1.byte a = m a) := by
  have htext : variantPrint lib [] v = allBytes (layout lib Blob.bytes v) := variantPrint_eq v []
  have hend := layout_endsWithText lib (formatS lib) v
  rw [htext] at hroom
  -- a string that an `int` cannot count makes the text too long
  have hbound : (allBytes (layout lib Blob.bytes v)).length < 2 ^ 31 →
      ∀ b ∈ v.strings, b.bytes.length < 2 ^ 31 := fun hint b hb =>
    Nat.lt_of_le_of_lt (length_le_text hb) hint
  have hagrees : Agrees lib m buffer size v → (∀ b ∈ v.strings, 0 ∉ b.bytes)
      ∧ (allBytes (layout lib Blob.bytes v)).length < 2 ^ 31 := by
    intro h
    have hcount := h.count
    rw [htext] at hcount
    have hint : (allBytes (layout lib Blob.bytes v)).length < 2 ^ 31 := by
      have hlt : (variantPrintBuffer lib ⟨m, []⟩ buffer size v).2 < 2 ^ 31 := by
        rw [variantPrintBuffer_eq]
        exact i32_lt _
      rw [hcount] at hlt
      omega
    obtain ⟨hle, hstrings⟩ := length_eq_iff lib (hbound hint)
    obtain ⟨_, _, hret⟩ := hend.printAll lib.tooLong ⟨m, []⟩ buffer hsize (by omega)
      (by omega)
    rw [← variantPrintBuffer_eq, hcount] at hret
    exact ⟨hstrings (by omega), hint⟩
  have hprints : (∀ b ∈ v.strings, 0 ∉ b.bytes) →
      (allBytes (layout lib Blob.bytes v)).length < 2 ^ 31 →
      Printed m (variantPrintBuffer lib ⟨m, []⟩ buffer size v).1.byte buffer
          (allBytes (layout lib Blob.bytes v))
        ∧ (variantPrintBuffer lib ⟨m, []⟩ buffer size v).1.byte
          (buffer + (allBytes (layout lib Blob.bytes v)).length) = 0
        ∧ (variantPrintBuffer lib ⟨m, []⟩ buffer size v).2
          = (allBytes (layout lib Blob.bytes v)).length := by
    intro hnul hint
    have hsame : layout lib (formatS lib) v = layout lib Blob.bytes v := by
      refine layout_congr fun b hb => ?_
      rw [formatS_eq (hbound hint b hb), takeWhile_eq_iff]
      exact hnul b hb
    rw [hsame] at hend
    have h := hend.printAll lib.tooLong ⟨m, []⟩ buffer hsize hint hroom
    rw [← hsame, ← variantPrintBuffer_eq, hsame] at h
    exact h
  rw [htext]
  refine ⟨⟨hagrees, fun h => ?_⟩, fun h => ?_⟩
  · obtain ⟨hprinted, _, hret⟩ := hprints h.1 h.2
    exact ⟨by rw [htext]; exact hprinted.text, by rw [htext]; exact hret⟩
  · obtain ⟨hnul, hint⟩ := hagrees h
    obtain ⟨hprinted, hzero, _⟩ := hprints hnul hint
    exact ⟨hzero, hprinted.rest⟩

theorem variantPrintBuffer_agrees_iff_nested :
    (Agrees smallLibc (fun _ => 0xff) 1000 64 nestedArray
        ↔ (∀ b ∈ nestedArray.strings, 0 ∉ b.bytes)
          ∧ (variantPrint smallLibc [] nestedArray).length < 2 ^ 31)
      ∧ (Agrees smallLibc (fun _ => 0xff) 1000 64 nestedArray →
        (variantPrintBuffer smallLibc ⟨fun _ => 0xff, []⟩ 1000 64 nestedArray).1.byte
            (1000 + (variantPrint smallLibc [] nestedArray).length) = 0
          ∧ ∀ a : Int, a < 1000 ∨ 1000 + (variantPrint smallLibc [] nestedArray).length < a →
            (variantPrintBuffer smallLibc ⟨fun _ => 0xff, []⟩ 1000 64 nestedArray).1.byte a
              = 0xff) :=
  variantPrintBuffer_agrees_iff smallLibc (fun _ => 0xff) 1000 (by decide) (by decide)

/-- The string of the bytes 61, 00 and 62 is five bytes in the stream, and
three in a buffer. -/
theorem nulString_disagrees :
    ¬ ∀ (lib : Libc) (m : Int → UInt8) (buffer : Int) (size : Nat) (v : Variant),
      size < 2 ^ 64 → (variantPrint lib [] v).length < size → Agrees lib m buffer size v := by
  intro hall
  have h := (hall smallLibc (fun _ => 0xff) 1000 16 (.str ⟨[0x61, 0x00, 0x62], by decide⟩)
    (by decide) (by decide)).count
  exact absurd h (by decide)

/-- **`variant_print_buffer` writes in its buffer only**, and is promised no
more than what is left there, just where every piece of the layout starts
inside the buffer. Where the lengths that are returned are `int`s, that is to
say that the buffer has room for the text but for its last piece and the
plain bytes right before it. -/
theorem variantPrintBuffer_within_iff (lib : Libc) (m : Int → UInt8) (buffer : Int) {size : Nat}
    (hsize : size < 2 ^ 64) (v : Variant) :
    ((variantPrintBuffer lib ⟨m, []⟩ buffer size v).1.Within buffer size
        ↔ StartAll lib.tooLong size 0 (layout lib (formatS lib) v))
      ∧ (FitAll (layout lib (formatS lib) v) →
        ((variantPrintBuffer lib ⟨m, []⟩ buffer size v).1.Within buffer size
          ↔ needed (flatAll (layout lib (formatS lib) v)) ≤ size)) := by
  have hstart := Cursor.At.start hsize ⟨m, []⟩ buffer
  have hwithin : (variantPrintBuffer lib ⟨m, []⟩ buffer size v).1.Within buffer size
      ↔ StartAll lib.tooLong size 0 (layout lib (formatS lib) v) := by
    rw [variantPrintBuffer_eq]
    refine (printAll_at hsize _ hstart).2.trans (and_iff_right ?_)
    exact fun w hw => absurd hw List.not_mem_nil
  exact ⟨hwithin, fun hfit => hwithin.trans
    ((layout_endsWithText lib (formatS lib) v).startAll_iff hsize hfit (layout_closed v))⟩

example : needed (flatAll (layout smallLibc (formatS smallLibc) nestedArray)) = 28 := by decide

theorem variantPrintBuffer_within_iff_nested :
    ((variantPrintBuffer smallLibc ⟨fun _ => 0xff, []⟩ 1000 20 nestedArray).1.Within 1000 20
        ↔ StartAll smallLibc.tooLong 20 0 (layout smallLibc (formatS smallLibc) nestedArray))
      ∧ (FitAll (layout smallLibc (formatS smallLibc) nestedArray) →
        ((variantPrintBuffer smallLibc ⟨fun _ => 0xff, []⟩ 1000 20 nestedArray).1.Within 1000 20
          ↔ needed (flatAll (layout smallLibc (formatS smallLibc) nestedArray)) ≤ 20)) :=
  variantPrintBuffer_within_iff smallLibc (fun _ => 0xff) 1000 (by decide) nestedArray

/-- The string "ab" in a buffer of two bytes: the first quote fits, the
letters move the pointer past the end, and the second quote is written
there. -/
theorem shortBuffer_overrun :
    ¬ ∀ (lib : Libc) (m : Int → UInt8) (buffer : Int) (size : Nat) (v : Variant),
      1 ≤ size → size < 2 ^ 64 →
      (variantPrintBuffer lib ⟨m, []⟩ buffer size v).1.Within buffer size := by
  intro hall
  exact absurd (hall smallLibc (fun _ => 0xff) 1000 2 (.str ⟨literal "ab", by decide⟩)
    (by decide) (by decide)) (by decide)

end Ats
