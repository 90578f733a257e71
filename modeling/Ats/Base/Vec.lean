import Mathlib.Algebra.Group.Nat.Defs
import Mathlib.Data.List.Nodup
import Mathlib.Data.Nat.Log
import Ats.Lib.BlockMove

/-!
# Vec: the growing array of `vec.c` and `vec.h`

Memory is counted in elements. `data` is `NULL` or the block, `realloc` hands
out new slots that hold anything, or refuses. `none` is an access outside the
block, or an `int` that overflows. The assertions of the allocator are compiled
out; what becomes of them where they are not is told apart (`MemCall`).
-/

namespace Ats

open BlockMove

variable {α : Type}

/-- `vec_t(T)` -/
structure Vec (α : Type) where
  data : Option (List α)
  length : Nat
  capacity : Nat
deriving DecidableEq, Repr

/-- What `ats_realloc` answers: `NULL`, or memory and what its new slots
hold. -/
abbrev Memory (α : Type) := Option (Nat → α)

/-- An `int` that is not negative. -/
def inInt (n : Nat) : Option Nat := if n < 2 ^ 31 then some n else none

/-- `vec_init` -/
def vecInit : Vec α := ⟨none, 0, 0⟩

/-- `vec_deinit`; `free` takes `NULL`, too. -/
def vecDeinit (_ : Vec α) : Vec α := vecInit

namespace Vec

/-- The slots at `data`; none at `NULL`. -/
def block (v : Vec α) : List α := v.data.getD []

/-- `memmove` within the block. -/
def moved (v : Vec α) (dst src n : Nat) : Option (Vec α) :=
  (move v.block dst src n).map fun b => { v with data := v.data.map fun _ => b }

/-- `data[i] = x` -/
def store (v : Vec α) (i : Nat) (x : α) : Option (Vec α) :=
  if i < v.block.length then some { v with data := v.data.map (·.set i x) } else none

/-- `data[length++] = x` -/
def append (v : Vec α) (x : α) : Option (Vec α) := do
  let v' ← v.store v.length x
  some { v' with length := v.length + 1 }

end Vec

section Functions

variable (memsz : Nat)

/-- `ats_realloc` to `n` elements, and what its callers make of it. -/
def vecRealloc (v : Vec α) (n : Nat) (mem : Memory α) : Option (Vec α × Int) := do
  let _ ← inInt (n * memsz)
  match mem with
  | none => some (v, -1)
  | some junk => some ({ v with data := some (grow v.block n junk), capacity := n }, 0)

/-- `vec_expand_` -/
def vecExpand (v : Vec α) (mem : Memory α) : Option (Vec α × Int) :=
  if v.length + 1 > v.capacity then do
    let n ← inInt (if v.capacity = 0 then 1 else v.capacity <<< 1)
    vecRealloc memsz v n mem
  else some (v, 0)

/-- `vec_reserve_` -/
def vecReserve (v : Vec α) (n : Nat) (mem : Memory α) : Option (Vec α × Int) :=
  if n > v.capacity then vecRealloc memsz v n mem else some (v, 0)

/-- The loop of `vec_reserve_po2_`; an `int` cannot be doubled `fuel` times. -/
def po2Loop (n : Nat) : Nat → Nat → Option Nat
  | 0, _ => none
  | fuel + 1, n2 =>
      if n2 < n then do
        let n2 ← inInt (n2 <<< 1)
        po2Loop n fuel n2
      else some n2

/-- `vec_reserve_po2_` -/
def vecReservePo2 (v : Vec α) (n : Nat) (mem : Memory α) : Option (Vec α × Int) :=
  if n = 0 then some (v, 0)
  else do
    let n2 ← po2Loop n 32 1
    vecReserve memsz v n2 mem

/-- `vec_compact_` -/
def vecCompact (v : Vec α) (mem : Memory α) : Option (Vec α × Int) :=
  if v.length = 0 then some ({ v with data := none, capacity := 0 }, 0)
  else vecRealloc memsz v v.length mem

/-- `vec_insert_` -/
def vecInsertGap (v : Vec α) (idx : Nat) (mem : Memory α) : Option (Vec α × Int) := do
  let (v, err) ← vecExpand memsz v mem
  if err ≠ 0 then some (v, err)
  else if idx ≤ v.length then do
    let v ← v.moved (idx + 1) idx (v.length - idx)
    some (v, 0)
  else none

/-- `vec_insert` -/
def vecInsert (v : Vec α) (idx : Nat) (x : α) (mem : Memory α) : Option (Vec α × Int) := do
  let (v, err) ← vecInsertGap memsz v idx mem
  let v ← if err ≠ 0 then some v else v.store idx x
  -- the comma after the conditional: both branches count the element
  some ({ v with length := v.length + 1 }, 0)

/-- `vec_push` -/
def vecPush (v : Vec α) (x : α) (mem : Memory α) : Option (Vec α × Int) := do
  let (v, err) ← vecExpand memsz v mem
  let v ← if err ≠ 0 then some v else v.append x
  some (v, 0)

/-- `vec_pusharr`; `arr` is what `(arr)[i]` reads. -/
def vecPusharr (v : Vec α) (arr : Vec α → Nat → Option α) (count : Nat) (mem : Memory α) :
    Option (Vec α) := do
  let n ← inInt (v.length + count)
  let (v, err) ← vecReservePo2 memsz v n mem
  if err ≠ 0 then some v
  else (List.range count).foldlM (fun v i => do
    let x ← arr v i
    v.append x) v

/-- `vec_extend` with another vector -/
def vecExtend (v v2 : Vec α) (mem : Memory α) : Option (Vec α) :=
  vecPusharr memsz v (fun _ i => v2.block[i]?) v2.length mem

/-- `vec_extend` with the vector itself -/
def vecExtendSelf (v : Vec α) (mem : Memory α) : Option (Vec α) :=
  vecPusharr memsz v (fun v i => v.block[i]?) v.length mem

end Functions

/-- `vec_pop` -/
def vecPop (v : Vec α) : Option (Vec α × α) :=
  if v.length = 0 then none
  else do
    let x ← v.block[v.length - 1]?
    some ({ v with length := v.length - 1 }, x)

/-- `vec_splice` and `vec_splice_` -/
def vecSplice (v : Vec α) (start count : Nat) : Option (Vec α) :=
  if start + count ≤ v.length then do
    let v' ← v.moved start (start + count) (v.length - start - count)
    some { v' with length := v.length - count }
  else none

/-- `vec_swapsplice` and `vec_swapsplice_` -/
def vecSwapsplice (v : Vec α) (start count : Nat) : Option (Vec α) :=
  if count ≤ v.length then do
    let v' ← v.moved start (v.length - count) count
    some { v' with length := v.length - count }
  else none

/-- `vec_swap_`, which swaps all bytes of two elements. -/
def vecSwap (v : Vec α) (idx1 idx2 : Nat) : Option (Vec α) :=
  if idx1 = idx2 then some v
  else do
    let a ← v.block[idx1]?
    let b ← v.block[idx2]?
    let v ← v.store idx1 b
    v.store idx2 a

/-- `vec_truncate` -/
def vecTruncate (v : Vec α) (len : Nat) : Vec α :=
  { v with length := if len < v.length then len else v.length }

/-- `vec_clear` -/
def vecClear (v : Vec α) : Vec α := { v with length := 0 }

/-- `vec_first` -/
def vecFirst (v : Vec α) : Option α := v.block[0]?

/-- `vec_last` -/
def vecLast (v : Vec α) : Option α := if v.length = 0 then none else v.block[v.length - 1]?

/-- The loop of `vec_find`, with `left` elements to go; `none` for -1. -/
def findLoop [DecidableEq α] (v : Vec α) (val : α) : Nat → Option (Option Nat)
  | 0 => some none
  | left + 1 => do
      let x ← v.block[v.length - (left + 1)]?
      if x = val then some (some (v.length - (left + 1))) else findLoop v val left

/-- `vec_find` -/
def vecFind [DecidableEq α] (v : Vec α) (val : α) : Option (Option Nat) := findLoop v val v.length

/-- `vec_remove` -/
def vecRemove [DecidableEq α] (v : Vec α) (val : α) : Option (Vec α) := do
  match ← vecFind v val with
  | none => some v
  | some idx => vecSplice v idx 1

/-- The loop of `vec_reverse`. -/
def reverseLoop (v : Vec α) : Nat → Option (Vec α)
  | 0 => some v
  | i + 1 => do
      let v ← vecSwap v i (v.length - (i + 1))
      reverseLoop v i

/-- `vec_reverse` -/
def vecReverse (v : Vec α) : Option (Vec α) := reverseLoop v (v.length / 2)

/-- The elements that `vec_foreach` runs through. -/
def vecForeach (v : Vec α) : Option (List α) := (List.range v.length).mapM (v.block[·]?)

/-- The elements that `vec_foreach_rev` runs through. -/
def vecForeachRev (v : Vec α) : Option (List α) :=
  (List.range v.length).reverse.mapM (v.block[·]?)

/-! ## What a vector holds -/

/-- **The vector holds `xs`**, in the first slots of its block. -/
structure VecHolds (v : Vec α) (xs : List α) : Prop where
  length : v.length = xs.length
  block : ∃ rest, v.block = xs ++ rest ∧ v.capacity = xs.length + rest.length

theorem vecInit_holds : VecHolds (vecInit : Vec α) [] := ⟨rfl, [], rfl, rfl⟩

theorem inInt_of_lt {n : Nat} (h : n < 2 ^ 31) : inInt n = some n := if_pos h

namespace Vec

variable {v : Vec α} {b : List α} {dst src n i : Nat} {x : α}

theorem moved_eq (h : move v.block dst src n = some b) :
    ∃ v', v.moved dst src n = some v' ∧ v'.block = b ∧ v'.length = v.length
      ∧ v'.capacity = v.capacity := by
  refine ⟨{ v with data := v.data.map fun _ => b }, by rw [moved, h]; rfl, ?_, rfl, rfl⟩
  have hlen := move_length h
  cases hd : v.data with
  | none =>
      have hnil : b.length = 0 := by rw [hlen, block, hd]; rfl
      rw [List.length_eq_zero_iff.mp hnil]
      rfl
  | some a => rfl

theorem store_eq (h : i < v.block.length) (x : α) :
    ∃ v', v.store i x = some v' ∧ v'.block = v.block.set i x ∧ v'.length = v.length
      ∧ v'.capacity = v.capacity := by
  refine ⟨_, if_pos h, ?_, rfl, rfl⟩
  cases hd : v.data with
  | none =>
      rw [block, hd] at h
      exact absurd h (Nat.not_lt_zero i)
  | some a => simp [block, hd]

end Vec

namespace VecHolds

variable {v : Vec α} {xs : List α} {x : α}

theorem le_capacity (h : VecHolds v xs) : xs.length ≤ v.capacity := by
  obtain ⟨rest, -, hcap⟩ := h.block
  omega

theorem block_length (h : VecHolds v xs) : v.block.length = v.capacity := by
  obtain ⟨rest, hb, hcap⟩ := h.block
  rw [hb, hcap, List.length_append]

/-- A slot of an element holds it. -/
theorem read (h : VecHolds v xs) {i : Nat} (hi : i < xs.length) : v.block[i]? = xs[i]? := by
  obtain ⟨rest, hb, -⟩ := h.block
  rw [hb, List.getElem?_append_left hi]

/-- The slots behind the elements may hold anything. -/
theorem of_prefix {v' : Vec α} {ys : List α} (h : VecHolds v xs) (hb : v'.block = v.block)
    (hcap : v'.capacity = v.capacity) (hlen : v'.length = ys.length) (hpre : ys <+: xs) :
    VecHolds v' ys := by
  obtain ⟨rest, hblock, hc⟩ := h.block
  obtain ⟨zs, rfl⟩ := hpre
  refine ⟨hlen, zs ++ rest, by rw [hb, hblock, List.append_assoc], ?_⟩
  rw [hcap, hc, List.length_append, List.length_append, Nat.add_assoc]

theorem append (h : VecHolds v xs) (hlt : xs.length < v.capacity) (x : α) :
    ∃ v', v.append x = some v' ∧ VecHolds v' (xs ++ [x]) ∧ v'.capacity = v.capacity := by
  obtain ⟨rest, hb, hcap⟩ := h.block
  obtain ⟨y, rest, rfl⟩ : ∃ y ys, rest = y :: ys := List.exists_cons_of_length_pos (by omega)
  obtain ⟨v', hstore, hblock, -, hc⟩ := Vec.store_eq (i := v.length)
    (by rw [h.length, h.block_length]; exact hlt) x
  refine ⟨{ v' with length := v.length + 1 }, by rw [Vec.append, hstore]; rfl, ⟨?_, rest, ?_, ?_⟩,
    hc⟩
  · rw [List.length_append, h.length]
    rfl
  · show v'.block = _
    rw [hblock, hb, h.length, List.set_append_right _ _ (Nat.le_refl _), Nat.sub_self]
    simp
  · show v'.capacity = _
    rw [hc, hcap, List.length_append]
    simp only [List.length_cons, List.length_nil]
    omega

/-- **Elements change, their number does not**: `swap` and its like. -/
theorem of_set {ys : List α} {v' : Vec α} (h : VecHolds v xs) (hlen : ys.length = xs.length)
    (hb : ∀ rest, v.block = xs ++ rest → v'.block = ys ++ rest) (hl : v'.length = v.length)
    (hc : v'.capacity = v.capacity) : VecHolds v' ys := by
  obtain ⟨rest, hblock, hcap⟩ := h.block
  exact ⟨by rw [hl, hlen, h.length], rest, hb rest hblock, by rw [hc, hcap, hlen]⟩

end VecHolds

/-! ## Memory -/

section Growing

variable {memsz B : Nat} {v : Vec α} {xs : List α} {mem : Memory α}

theorem vecRealloc_served (h : VecHolds v xs) {n : Nat} (hn : xs.length ≤ n)
    (hfit : n * memsz < 2 ^ 31) (hmem : mem.isSome) :
    ∃ v', vecRealloc memsz v n mem = some (v', 0) ∧ VecHolds v' xs ∧ v'.capacity = n := by
  obtain ⟨junk, rfl⟩ := Option.isSome_iff_exists.mp hmem
  obtain ⟨rest, hb, -⟩ := h.block
  obtain ⟨new, hgrow, hlen⟩ := grow_append xs rest junk hn
  refine ⟨{ v with data := some (grow v.block n junk), capacity := n },
    by rw [vecRealloc, inInt_of_lt hfit]; rfl, ⟨h.length, new, ?_, ?_⟩, rfl⟩
  · show grow v.block n junk = _
    rw [hb, hgrow]
  · show n = _
    omega

theorem vecRealloc_refused {n : Nat} (hfit : n * memsz < 2 ^ 31) :
    vecRealloc memsz v n none = some (v, -1) := by
  rw [vecRealloc, inInt_of_lt hfit]
  rfl

/-- What fits into `2 * B` elements does not overflow. -/
structure Fits (memsz B : Nat) : Prop where
  pos : 0 < memsz
  bytes : 2 * B * memsz < 2 ^ 31

theorem Fits.mul_lt (hf : Fits memsz B) {n : Nat} (hn : n ≤ 2 * B) : n * memsz < 2 ^ 31 :=
  Nat.lt_of_le_of_lt (Nat.mul_le_mul_right memsz hn) hf.bytes

theorem Fits.lt (hf : Fits memsz B) {n : Nat} (hn : n ≤ 2 * B) : n < 2 ^ 31 :=
  Nat.lt_of_le_of_lt (Nat.le_mul_of_pos_right n hf.pos) (hf.mul_lt hn)

/-- The capacity that `vec_expand_` asks the allocator for, if any. -/
def expandAsks (length capacity : Nat) : Option Nat :=
  if length + 1 > capacity then some (if capacity = 0 then 1 else 2 * capacity) else none

/-- The capacity that `vec_reserve_` asks the allocator for, if any. -/
def reserveAsks (n capacity : Nat) : Option Nat := if n > capacity then some n else none

theorem vecExpand_full {n : Nat} (hf : Fits memsz B) (h : VecHolds v xs)
    (hB : xs.length + 1 ≤ B) (hn : expandAsks xs.length v.capacity = some n) (mem : Memory α) :
    xs.length < n ∧ n ≤ 2 * B ∧ vecExpand memsz v mem = vecRealloc memsz v n mem := by
  have hle := h.le_capacity
  rw [expandAsks] at hn
  split at hn
  case isTrue hfull =>
      obtain rfl := Option.some.inj hn
      have hshift : (if v.capacity = 0 then 1 else v.capacity <<< 1)
          = if v.capacity = 0 then 1 else 2 * v.capacity := by
        rw [Nat.shiftLeft_eq, Nat.pow_one, Nat.mul_comm]
      have hbound : xs.length < (if v.capacity = 0 then 1 else 2 * v.capacity)
          ∧ (if v.capacity = 0 then 1 else 2 * v.capacity) ≤ 2 * B := by
        split <;> omega
      refine ⟨hbound.1, hbound.2, ?_⟩
      rw [vecExpand, if_pos (by rw [h.length]; exact hfull), hshift, inInt_of_lt (hf.lt hbound.2)]
      rfl
  case isFalse => cases hn

/-- **After `vec_expand_` there is room for one more**, if its allocator has
the memory. -/
theorem vecExpand_served (hf : Fits memsz B) (h : VecHolds v xs) (hB : xs.length + 1 ≤ B)
    (hmem : (expandAsks xs.length v.capacity).isSome → mem.isSome) :
    ∃ v', vecExpand memsz v mem = some (v', 0) ∧ VecHolds v' xs ∧ xs.length < v'.capacity
      ∧ v'.capacity = (expandAsks xs.length v.capacity).getD v.capacity := by
  cases hn : expandAsks xs.length v.capacity with
  | none =>
      have hroom : ¬ xs.length + 1 > v.capacity := by
        intro hfull
        rw [expandAsks, if_pos hfull] at hn
        cases hn
      exact ⟨v, by rw [vecExpand, if_neg (by rw [h.length]; exact hroom)], h, by omega, rfl⟩
  | some n =>
      rw [hn] at hmem
      obtain ⟨hlt, hle, hcall⟩ := vecExpand_full hf h hB hn mem
      obtain ⟨v', hrealloc, hv', hcap⟩ :=
        vecRealloc_served h (Nat.le_of_lt hlt) (hf.mul_lt hle) (hmem rfl)
      exact ⟨v', by rw [hcall, hrealloc], hv', by omega, hcap⟩

theorem vecExpand_refused (hf : Fits memsz B) (h : VecHolds v xs) (hB : xs.length + 1 ≤ B)
    (hask : (expandAsks xs.length v.capacity).isSome) :
    vecExpand memsz v none = some (v, -1) := by
  obtain ⟨n, hn⟩ := Option.isSome_iff_exists.mp hask
  obtain ⟨-, hle, hcall⟩ := vecExpand_full hf h hB hn none
  rw [hcall, vecRealloc_refused (hf.mul_lt hle)]

theorem vecReserve_served (hf : Fits memsz B) (h : VecHolds v xs) {n : Nat} (hB : n ≤ 2 * B)
    (hmem : (reserveAsks n v.capacity).isSome → mem.isSome) :
    ∃ v', vecReserve memsz v n mem = some (v', 0) ∧ VecHolds v' xs ∧ n ≤ v'.capacity
      ∧ v'.capacity = (reserveAsks n v.capacity).getD v.capacity := by
  by_cases hn : n > v.capacity
  · rw [reserveAsks, if_pos hn] at hmem ⊢
    obtain ⟨v', hcall, hv', hc⟩ := vecRealloc_served h
      (Nat.le_trans h.le_capacity (Nat.le_of_lt hn)) (hf.mul_lt hB) (hmem rfl)
    exact ⟨v', by rw [vecReserve, if_pos hn, hcall], hv', Nat.le_of_eq hc.symm, hc⟩
  · rw [reserveAsks, if_neg hn]
    exact ⟨v, by rw [vecReserve, if_neg hn], h, Nat.le_of_not_lt hn, rfl⟩

theorem vecReserve_refused (hf : Fits memsz B) {n : Nat} (hB : n ≤ 2 * B)
    (hask : (reserveAsks n v.capacity).isSome) :
    vecReserve memsz v n none = some (v, -1) := by
  have hn : n > v.capacity := by
    by_contra hn
    rw [reserveAsks, if_neg hn] at hask
    cases hask
  rw [vecReserve, if_pos hn, vecRealloc_refused (hf.mul_lt hB)]

theorem vecCompact_served (h : VecHolds v xs) (hfit : xs.length * memsz < 2 ^ 31)
    (hmem : xs ≠ [] → mem.isSome) :
    ∃ v', vecCompact memsz v mem = some (v', 0) ∧ VecHolds v' xs
      ∧ v'.capacity = xs.length := by
  by_cases hn : v.length = 0
  · obtain rfl : xs = [] := List.length_eq_zero_iff.mp (h.length ▸ hn)
    exact ⟨{ v with data := none, capacity := 0 }, by rw [vecCompact, if_pos hn],
      ⟨hn, [], rfl, rfl⟩, rfl⟩
  · have hne : xs ≠ [] := fun hnil => hn (by rw [h.length, hnil]; rfl)
    obtain ⟨v', hcall, hv', hc⟩ := vecRealloc_served h (Nat.le_refl _) hfit (hmem hne)
    exact ⟨v', by rw [vecCompact, if_neg hn, h.length, hcall], hv', hc⟩

/-- The power of two that `vec_reserve_po2_` asks for. -/
def po2 (n : Nat) : Nat := if n = 0 then 0 else 2 ^ Nat.clog 2 n

theorem le_po2 (n : Nat) : n ≤ po2 n := by
  rw [po2]
  split
  case isTrue h => exact Nat.le_of_eq h
  case isFalse => exact Nat.le_pow_clog (by decide) n

theorem po2_le_double (n : Nat) : po2 n ≤ 2 * n := by
  rw [po2]
  split
  case isTrue => exact Nat.zero_le _
  case isFalse h =>
      rcases Nat.lt_or_ge 1 n with hlt | hle
      · have hpred := Nat.pow_pred_clog_lt_self (b := 2) (by decide) hlt
        have hpos : 0 < Nat.clog 2 n := Nat.clog_pos (by decide) hlt
        rw [← Nat.succ_pred_eq_of_pos hpos, Nat.pow_succ]
        omega
      · obtain rfl : n = 1 := by omega
        decide

/-- **The loop stops at the first power of two** that is large enough. -/
theorem po2Loop_eq {n : Nat} (hn : n ≤ 2 ^ 30) : ∀ fuel k, 31 ≤ k + fuel → k ≤ Nat.clog 2 n →
    po2Loop n fuel (2 ^ k) = some (2 ^ Nat.clog 2 n) := by
  have hclog : Nat.clog 2 n ≤ 30 := (Nat.clog_le_iff_le_pow (by decide)).mpr hn
  intro fuel
  induction fuel with
  | zero =>
      intro k hk hle
      omega
  | succ fuel ih =>
      intro k hk hle
      rw [po2Loop]
      split
      case isTrue hmore =>
          have hlt : k < Nat.clog 2 n := (Nat.lt_clog_iff_pow_lt (by decide)).mpr hmore
          have hdouble : 2 ^ k <<< 1 = 2 ^ (k + 1) := by
            rw [Nat.shiftLeft_eq, Nat.pow_one, Nat.pow_succ]
          have hint : 2 ^ (k + 1) < 2 ^ 31 := Nat.pow_lt_pow_right (by decide) (by omega)
          rw [hdouble, inInt_of_lt hint]
          exact ih (k + 1) (by omega) hlt
      case isFalse hstop =>
          have hge : Nat.clog 2 n ≤ k :=
            (Nat.clog_le_iff_le_pow (by decide)).mpr (Nat.le_of_not_lt hstop)
          rw [Nat.le_antisymm hle hge]

theorem vecReservePo2_eq {n : Nat} (hn : n ≤ 2 ^ 30) :
    vecReservePo2 memsz v n mem = vecReserve memsz v (po2 n) mem := by
  rw [vecReservePo2, po2]
  split
  case isTrue => rfl
  case isFalse =>
      rw [← Nat.pow_zero 2, po2Loop_eq hn 32 0 (by decide) (Nat.zero_le _)]
      rfl

end Growing

/-! ## Elements -/

section Elements

variable {memsz B : Nat} {v : Vec α} {xs : List α} {x : α} {mem : Memory α}

theorem vecPush_expanded {v₁ : Vec α} (hcall : vecExpand memsz v mem = some (v₁, 0))
    (h : VecHolds v₁ xs) (hroom : xs.length < v₁.capacity) (x : α) :
    ∃ v', vecPush memsz v x mem = some (v', 0) ∧ VecHolds v' (xs ++ [x])
      ∧ v'.capacity = v₁.capacity := by
  obtain ⟨v', happ, hv', hc⟩ := h.append hroom x
  refine ⟨v', ?_, hv', hc⟩
  rw [vecPush, hcall]
  show (v₁.append x).bind _ = _
  rw [happ]
  rfl

/-- **`vec_insert` opens a gap** and fills it. -/
theorem vecInsert_expanded {v₁ : Vec α} (hcall : vecExpand memsz v mem = some (v₁, 0))
    (h : VecHolds v₁ xs) (hroom : xs.length < v₁.capacity) {idx : Nat} (hidx : idx ≤ xs.length)
    (x : α) :
    ∃ v', vecInsert memsz v idx x mem = some (v', 0)
      ∧ VecHolds v' (xs.take idx ++ x :: xs.drop idx) ∧ v'.capacity = v₁.capacity := by
  obtain ⟨rest, hb, hcap⟩ := h.block
  obtain ⟨y, rest, rfl⟩ : ∃ y ys, rest = y :: ys := List.exists_cons_of_length_pos (by omega)
  obtain ⟨as, bs, rfl, rfl⟩ : ∃ as bs, xs = as ++ bs ∧ as.length = idx :=
    ⟨xs.take idx, xs.drop idx, (List.take_append_drop ..).symm, List.length_take_of_le hidx⟩
  have hlen := h.length
  rw [List.length_append] at hlen
  have hcount : v₁.length - as.length = bs.length := by omega
  obtain ⟨z, hmove⟩ := move_open as bs y rest
  rw [← List.append_assoc, ← hb] at hmove
  obtain ⟨v₂, hmoved, hb₂, hl₂, hc₂⟩ := Vec.moved_eq hmove
  obtain ⟨v₃, hstore, hb₃, hl₃, hc₃⟩ := Vec.store_eq (v := v₂) (i := as.length)
    (by rw [hb₂, List.length_append, List.length_cons]; omega) x
  have hgap : vecInsertGap memsz v as.length mem = some (v₂, 0) := by
    rw [vecInsertGap, hcall]
    show (if as.length ≤ v₁.length then _ else none) = _
    rw [if_pos (by omega), hcount, hmoved]
    rfl
  refine ⟨{ v₃ with length := v₃.length + 1 }, ?_, ⟨?_, rest, ?_, ?_⟩, hc₃.trans hc₂⟩
  · rw [vecInsert, hgap]
    show (v₂.store as.length x).bind _ = _
    rw [hstore]
    rfl
  · show v₃.length + 1 = _
    rw [List.take_left, List.drop_left, List.length_append, List.length_cons]
    omega
  · show v₃.block = _
    rw [hb₃, hb₂, List.set_append_right _ _ (Nat.le_refl _), Nat.sub_self, List.take_left,
      List.drop_left, List.append_assoc]
    rfl
  · show v₃.capacity = _
    rw [List.take_left, List.drop_left, hc₃, hc₂, hcap]
    simp only [List.length_append, List.length_cons]
    omega

theorem vecPop_holds (h : VecHolds v (xs ++ [x])) :
    ∃ v', vecPop v = some (v', x) ∧ VecHolds v' xs ∧ v'.capacity = v.capacity := by
  have hlen : v.length = xs.length + 1 := by rw [h.length, List.length_append]; rfl
  have hread : v.block[v.length - 1]? = some x := by
    rw [h.read (by rw [hlen, List.length_append]; exact Nat.lt_succ_self _), hlen]
    exact List.getElem?_concat_length
  refine ⟨{ v with length := v.length - 1 }, ?_,
    h.of_prefix rfl rfl (by show v.length - 1 = _; omega) (List.prefix_append ..), rfl⟩
  rw [vecPop, if_neg (by omega), hread]
  rfl

/-- **`vec_splice` closes the gap.** -/
theorem vecSplice_holds (h : VecHolds v xs) {start count : Nat}
    (hin : start + count ≤ xs.length) :
    ∃ v', vecSplice v start count = some v'
      ∧ VecHolds v' (xs.take start ++ xs.drop (start + count)) ∧ v'.capacity = v.capacity := by
  obtain ⟨rest, hb, hcap⟩ := h.block
  obtain ⟨as, bs, cs, rfl, rfl, rfl⟩ :
      ∃ as bs cs, xs = as ++ (bs ++ cs) ∧ as.length = start ∧ bs.length = count :=
    ⟨xs.take start, (xs.drop start).take count, xs.drop (start + count),
      by rw [← List.drop_drop, List.take_append_drop, List.take_append_drop],
      by rw [List.length_take]; omega, by rw [List.length_take, List.length_drop]; omega⟩
  have hlen := h.length
  have hmove := move_close as bs cs rest
  simp only [List.length_append] at hlen hcap
  simp only [← List.append_assoc] at hb hmove
  rw [← hb] at hmove
  obtain ⟨v₁, hmoved, hb₁, hl₁, hc₁⟩ := Vec.moved_eq hmove
  have htail : (as ++ (bs ++ cs)).drop (as.length + bs.length) = cs := by
    rw [← List.drop_drop, List.drop_left, List.drop_left]
  rw [List.take_left, htail]
  refine ⟨{ v₁ with length := v.length - bs.length }, ?_, ⟨?_, _, hb₁, ?_⟩, hc₁⟩
  · rw [vecSplice, if_pos (by omega), show v.length - as.length - bs.length = cs.length by omega,
      hmoved]
    rfl
  · show v.length - bs.length = _
    rw [List.length_append]
    omega
  · show v₁.capacity = _
    simp only [hc₁, List.length_append, List.length_drop]
    omega

theorem vecSwap_holds (h : VecHolds v xs) {i j : Nat} (hij : i ≠ j) {a b : α}
    (hi : xs[i]? = some a) (hj : xs[j]? = some b) :
    ∃ v', vecSwap v i j = some v' ∧ VecHolds v' ((xs.set i b).set j a)
      ∧ v'.capacity = v.capacity := by
  have hilt : i < xs.length := (List.getElem?_eq_some_iff.mp hi).1
  have hjlt : j < xs.length := (List.getElem?_eq_some_iff.mp hj).1
  have hle := h.le_capacity
  obtain ⟨v₁, hfirst, hb₁, hl₁, hc₁⟩ := Vec.store_eq (v := v) (i := i)
    (by rw [h.block_length]; omega) b
  have h₁ : VecHolds v₁ (xs.set i b) :=
    h.of_set List.length_set (fun rest hr => by rw [hb₁, hr, List.set_append_left _ _ hilt]) hl₁ hc₁
  have hjlt' : j < (xs.set i b).length := by rw [List.length_set]; exact hjlt
  obtain ⟨v₂, hsecond, hb₂, hl₂, hc₂⟩ := Vec.store_eq (v := v₁) (i := j)
    (by rw [h₁.block_length]; omega) a
  refine ⟨v₂, ?_, h₁.of_set List.length_set
    (fun rest hr => by rw [hb₂, hr, List.set_append_left _ _ hjlt']) hl₂ hc₂, hc₂.trans hc₁⟩
  rw [vecSwap, if_neg hij, h.read hilt, h.read hjlt, hi, hj]
  show (v.store i b).bind _ = _
  rw [hfirst]
  exact hsecond

/-- What `vec_swapsplice` leaves: the last `count` elements over the first of
the range, as far as the new length goes. -/
theorem vecSwapsplice_holds (h : VecHolds v xs) {start count : Nat}
    (hin : start + count ≤ xs.length) :
    ∃ v', vecSwapsplice v start count = some v'
      ∧ VecHolds v' (xs.take start ++ (xs.drop (xs.length - count)
          ++ (xs.take (xs.length - count)).drop (start + count)).take (xs.length - count - start))
      ∧ v'.capacity = v.capacity := by
  obtain ⟨rest, hb, hcap⟩ := h.block
  obtain ⟨as, bs, cs, rfl, rfl, rfl⟩ :
      ∃ as bs cs, xs = as ++ (bs ++ cs) ∧ as.length = start ∧ cs.length = count :=
    ⟨xs.take start, (xs.drop start).take (xs.length - count - start), xs.drop (xs.length - count),
      by
        rw [show xs.length - count = start + (xs.length - count - start) by omega,
          ← List.drop_drop, Nat.add_sub_cancel_left, List.take_append_drop, List.take_append_drop],
      by rw [List.length_take]; omega, by rw [List.length_drop]; omega⟩
  have hlen := h.length
  have hmove := move_close as bs cs rest
  simp only [List.length_append] at hlen hcap hin
  simp only [← List.append_assoc] at hb hmove
  rw [← hb] at hmove
  obtain ⟨v₁, hmoved, hb₁, hl₁, hc₁⟩ := Vec.moved_eq hmove
  have hkeep : (as ++ (bs ++ cs)).length - cs.length = as.length + bs.length := by
    simp only [List.length_append]
    omega
  have hfront : (as ++ (bs ++ cs)).take (as.length + bs.length) = as ++ bs := by
    rw [List.take_length_add_append, List.take_left]
  have hback : (as ++ (bs ++ cs)).drop (as.length + bs.length) = cs := by
    rw [← List.drop_drop, List.drop_left, List.drop_left]
  have hmid : (as ++ bs).drop (as.length + cs.length) = bs.drop cs.length := by
    rw [← List.drop_drop, List.drop_left]
  rw [hkeep, hfront, hback, hmid, List.take_left, Nat.add_sub_cancel_left]
  have hleft : v.length - cs.length = as.length + bs.length := by omega
  refine ⟨{ v₁ with length := v.length - cs.length }, ?_, ⟨?_,
    (cs ++ bs.drop cs.length).drop bs.length ++ (cs ++ rest).drop (cs.length - bs.length),
    ?_, ?_⟩, hc₁⟩
  · rw [vecSwapsplice, if_pos (by omega), hleft, hmoved]
    rfl
  · show v.length - cs.length = _
    simp only [List.length_append, List.length_take, List.length_drop]
    omega
  · show v₁.block = _
    rw [hb₁, List.append_assoc bs, List.drop_append, List.append_assoc as,
      ← List.append_assoc cs, List.append_assoc as, ← List.append_assoc (List.take _ _),
      List.take_append_drop]
  · show v₁.capacity = _
    simp only [hc₁, List.length_append, List.length_take, List.length_drop]
    omega

/-- **Where the elements that move are not in the range**, they take the place
of it. -/
theorem vecSwapsplice_apart (h : VecHolds v xs) {start count : Nat}
    (hin : start + 2 * count ≤ xs.length ∨ start + count = xs.length) :
    ∃ v', vecSwapsplice v start count = some v'
      ∧ VecHolds v' (xs.take start ++ (xs.drop (max (start + count) (xs.length - count))
          ++ (xs.take (xs.length - count)).drop (start + count)))
      ∧ v'.capacity = v.capacity := by
  obtain ⟨v', hcall, hv', hc⟩ :=
    vecSwapsplice_holds h (show start + count ≤ xs.length by omega)
  refine ⟨v', hcall, ?_, hc⟩
  rcases hin with hle | heq
  · have hshort : (xs.drop (xs.length - count)
        ++ (xs.take (xs.length - count)).drop (start + count)).length
          ≤ xs.length - count - start := by
      simp only [List.length_append, List.length_drop, List.length_take]
      omega
    rw [List.take_of_length_le hshort] at hv'
    rw [Nat.max_eq_right (by omega)]
    exact hv'
  · have hdrop : (xs.take (xs.length - count)).drop (start + count) = [] :=
      List.drop_eq_nil_of_le (by rw [List.length_take]; omega)
    rw [hdrop, show xs.length - count - start = 0 by omega] at hv'
    rw [hdrop, Nat.max_eq_left (by omega), heq, List.drop_length]
    exact hv'

/-! ## Loops -/

section Loops

/-- **The loop of `vec_pusharr`**, where `arr` reads the elements of `ys`. -/
theorem pushLoop_holds {arr : Vec α → Nat → Option α} {ys : List α} (h : VecHolds v xs)
    (hroom : xs.length + ys.length ≤ v.capacity)
    (harr : ∀ v' i, i < ys.length → VecHolds v' (xs ++ ys.take i) → arr v' i = ys[i]?) :
    ∀ n, n ≤ ys.length → ∃ v', (List.range n).foldlM (fun v i => do
        let x ← arr v i
        v.append x) v = some v'
      ∧ VecHolds v' (xs ++ ys.take n) ∧ v'.capacity = v.capacity := by
  intro n
  induction n with
  | zero =>
      intro _
      exact ⟨v, rfl, by rw [List.take_zero, List.append_nil]; exact h, rfl⟩
  | succ n ih =>
      intro hn
      obtain ⟨v₁, hrun, h₁, hc₁⟩ := ih (Nat.le_of_succ_le hn)
      have hread : arr v₁ n = some ys[n] := by
        rw [harr v₁ n hn h₁, List.getElem?_eq_getElem hn]
      obtain ⟨v₂, happ, h₂, hc₂⟩ := h₁.append (x := ys[n]) (by
        rw [List.length_append, List.length_take_of_le (Nat.le_of_succ_le hn), hc₁]
        omega)
      refine ⟨v₂, ?_, ?_, hc₂.trans hc₁⟩
      · rw [List.range_succ, List.foldlM_append, hrun]
        simp only [List.foldlM_cons, List.foldlM_nil, Option.bind_eq_bind, Option.bind_some, hread,
          happ]
        rfl
      · rw [List.take_succ_eq_append_getElem hn, ← List.append_assoc]
        exact h₂

theorem vecPusharr_served (hf : Fits memsz B) (h : VecHolds v xs)
    {arr : Vec α → Nat → Option α} {ys : List α} (hB : xs.length + ys.length ≤ B)
    (harr : ∀ v' i, i < ys.length → VecHolds v' (xs ++ ys.take i) → arr v' i = ys[i]?)
    (hmem : (reserveAsks (po2 (xs.length + ys.length)) v.capacity).isSome → mem.isSome) :
    ∃ v', vecPusharr memsz v arr ys.length mem = some v' ∧ VecHolds v' (xs ++ ys)
      ∧ v'.capacity
        = (reserveAsks (po2 (xs.length + ys.length)) v.capacity).getD v.capacity := by
  have hint := hf.lt (Nat.le_refl _)
  have hpo2 := Nat.le_trans (po2_le_double _) (Nat.mul_le_mul_left 2 hB)
  obtain ⟨v₁, hreserve, h₁, hroom, hc₁⟩ := vecReserve_served hf h hpo2 hmem
  obtain ⟨v₂, hloop, h₂, hc₂⟩ :=
    pushLoop_holds h₁ (Nat.le_trans (le_po2 _) hroom) harr ys.length (Nat.le_refl _)
  rw [List.take_length] at h₂
  refine ⟨v₂, ?_, h₂, hc₂.trans hc₁⟩
  rw [vecPusharr, h.length, inInt_of_lt (by omega)]
  show (vecReservePo2 memsz v (xs.length + ys.length) mem).bind _ = _
  rw [vecReservePo2_eq (by omega), hreserve]
  exact hloop

theorem vecPusharr_refused (hf : Fits memsz B) (h : VecHolds v xs)
    {arr : Vec α → Nat → Option α} {count : Nat} (hB : xs.length + count ≤ B)
    (hask : (reserveAsks (po2 (xs.length + count)) v.capacity).isSome) :
    vecPusharr memsz v arr count none = some v := by
  have hint := hf.lt (Nat.le_refl _)
  have hpo2 := Nat.le_trans (po2_le_double _) (Nat.mul_le_mul_left 2 hB)
  rw [vecPusharr, h.length, inInt_of_lt (by omega)]
  show (vecReservePo2 memsz v (xs.length + count) none).bind _ = _
  rw [vecReservePo2_eq (by omega), vecReserve_refused hf hpo2 hask]
  rfl

/-- **A vector that is extended with itself** reads what it has just moved. -/
theorem vecExtendSelf_served (hf : Fits memsz B) (h : VecHolds v xs)
    (hB : xs.length + xs.length ≤ B)
    (hmem : (reserveAsks (po2 (xs.length + xs.length)) v.capacity).isSome → mem.isSome) :
    ∃ v', vecExtendSelf memsz v mem = some v' ∧ VecHolds v' (xs ++ xs)
      ∧ v'.capacity
        = (reserveAsks (po2 (xs.length + xs.length)) v.capacity).getD v.capacity := by
  rw [vecExtendSelf, h.length]
  refine vecPusharr_served hf h hB (fun v' i hi hv' => ?_) hmem
  rw [hv'.read (by rw [List.length_append]; omega), List.getElem?_append_left hi]

/-- **The loop of `vec_find`** finds the first of the last `left` elements. -/
theorem findLoop_eq [DecidableEq α] (h : VecHolds v xs) (val : α) :
    ∀ left, left ≤ xs.length → findLoop v val left
      = some (((xs.drop (xs.length - left)).idxOf? val).map (xs.length - left + ·)) := by
  intro left
  induction left with
  | zero =>
      intro _
      rw [Nat.sub_zero, List.drop_length]
      rfl
  | succ left ih =>
      intro hle
      have hlt : xs.length - (left + 1) < xs.length := by omega
      have hnext : xs.length - (left + 1) + 1 = xs.length - left := by omega
      rw [findLoop, h.length, h.read hlt, List.getElem?_eq_getElem hlt,
        List.drop_eq_getElem_cons hlt, List.idxOf?_cons, hnext, ih (Nat.le_of_succ_le hle)]
      by_cases hx : xs[xs.length - (left + 1)] = val
      · simp [hx]
      · have hbeq : (xs[xs.length - (left + 1)] == val) = false := by simpa using hx
        have hshift : ∀ i, xs.length - left + i = xs.length - (left + 1) + (i + 1) := by
          intro i
          omega
        simp [hx, Function.comp_def, hshift]

theorem vecFind_eq [DecidableEq α] (h : VecHolds v xs) (val : α) :
    vecFind v val = some (xs.idxOf? val) := by
  rw [vecFind, h.length, findLoop_eq h val _ (Nat.le_refl _), Nat.sub_self, List.drop_zero]
  simp

/-- **`vec_remove`** takes out the first element of that value. -/
theorem vecRemove_holds [DecidableEq α] (h : VecHolds v xs) (val : α) :
    ∃ v', vecRemove v val = some v' ∧ VecHolds v' (xs.erase val) ∧ v'.capacity = v.capacity := by
  rw [vecRemove, vecFind_eq h]
  rw [List.erase_eq_eraseIdx]
  cases hidx : xs.idxOf? val with
  | none => exact ⟨v, rfl, h, rfl⟩
  | some i =>
      have hlt : i < xs.length := (List.idxOf?_eq_some_iff.mp hidx).1
      show ∃ v', vecSplice v i 1 = some v' ∧ VecHolds v' (xs.eraseIdx i) ∧ _
      rw [List.eraseIdx_eq_take_drop_succ]
      exact vecSplice_holds h hlt

/-- **The loop of `vec_reverse`** swaps the outer parts. -/
theorem reverseLoop_holds : ∀ (i : Nat) {v : Vec α} {as ms bs : List α},
    VecHolds v (as ++ (ms ++ bs)) → as.length = i → bs.length = i →
    ∃ v', reverseLoop v i = some v' ∧ VecHolds v' (bs.reverse ++ (ms ++ as.reverse))
      ∧ v'.capacity = v.capacity := by
  intro i
  induction i with
  | zero =>
      intro v as ms bs h has hbs
      obtain rfl := List.length_eq_zero_iff.mp has
      obtain rfl := List.length_eq_zero_iff.mp hbs
      exact ⟨v, rfl, h, rfl⟩
  | succ i ih =>
      intro v as ms bs h has hbs
      obtain ⟨as, a, rfl⟩ : ∃ ys y, as = ys ++ [y] :=
        (List.eq_nil_or_concat' as).resolve_left (List.ne_nil_of_length_eq_add_one has)
      obtain ⟨b, bs, rfl⟩ := List.exists_cons_of_length_eq_add_one hbs
      obtain rfl : as.length = i := by simpa using has
      have hbs : bs.length = as.length := by simpa using hbs
      have hlen := h.length
      simp only [List.length_append, List.length_cons, List.length_nil] at hlen
      have hj : v.length - (as.length + 1) = as.length + (ms.length + 1) := by omega
      have hne : as.length ≠ as.length + (ms.length + 1) := by omega
      obtain ⟨v₁, hswap, h₁, hc₁⟩ := vecSwap_holds h hne (a := a) (b := b) (by simp) (by simp)
      have hset : ((as ++ [a] ++ (ms ++ b :: bs)).set as.length b).set
            (as.length + (ms.length + 1)) a
          = as ++ (b :: (ms ++ [a]) ++ bs) := by
        simp
      rw [hset] at h₁
      obtain ⟨v₂, hloop, h₂, hc₂⟩ := ih h₁ rfl hbs
      refine ⟨v₂, ?_, ?_, hc₂.trans hc₁⟩
      · rw [reverseLoop, hj, hswap]
        exact hloop
      · simpa using h₂

theorem vecReverse_holds (h : VecHolds v xs) :
    ∃ v', vecReverse v = some v' ∧ VecHolds v' xs.reverse ∧ v'.capacity = v.capacity := by
  have hlen := h.length
  -- the loop leaves the middle alone, which is one element or none
  obtain ⟨as, ms, bs, rfl, has, hms, hbs⟩ : ∃ as ms bs, xs = as ++ (ms ++ bs)
      ∧ as.length = xs.length / 2 ∧ ms.length ≤ 1 ∧ bs.length = xs.length / 2 :=
    ⟨xs.take (xs.length / 2), (xs.drop (xs.length / 2)).take (xs.length % 2),
      xs.drop (xs.length / 2 + xs.length % 2),
      by rw [← List.drop_drop, List.take_append_drop, List.take_append_drop],
      by rw [List.length_take]; omega, by rw [List.length_take]; omega,
      by rw [List.length_drop]; omega⟩
  have hmid : ms.reverse = ms := by
    match ms, hms with
    | [], _ => rfl
    | [m], _ => rfl
  obtain ⟨v', hloop, hv', hc⟩ := reverseLoop_holds _ h has hbs
  refine ⟨v', by rw [vecReverse, hlen]; exact hloop, ?_, hc⟩
  rw [List.reverse_append, List.reverse_append, hmid, List.append_assoc]
  exact hv'

theorem mapM_eq_some {β : Type} {f : β → Option α} {is : List β} {ys : List α}
    (h : List.Forall₂ (fun i y => f i = some y) is ys) : is.mapM f = some ys := by
  induction h with
  | nil => rfl
  | cons hi _ ih =>
      rw [List.mapM_cons, hi, ih]
      rfl

/-- The positions in order, and what is read there. -/
theorem VecHolds.reads (h : VecHolds v xs) :
    List.Forall₂ (fun i y => v.block[i]? = some y) (List.range v.length) xs := by
  rw [List.forall₂_iff_get]
  refine ⟨by rw [List.length_range, h.length], fun i hi hi' => ?_⟩
  rw [List.get_eq_getElem, List.getElem_range, h.read hi', List.getElem?_eq_getElem hi']
  rfl

theorem vecForeach_eq (h : VecHolds v xs) : vecForeach v = some xs := mapM_eq_some h.reads

theorem vecForeachRev_eq (h : VecHolds v xs) : vecForeachRev v = some xs.reverse :=
  mapM_eq_some (List.rel_reverse h.reads)

end Loops

end Elements

end Ats
