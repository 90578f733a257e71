import Ats.Lib.BitSmear
import Ats.Lib.Probing

/-!
# Khash: `khash.h`

A hash table with triangular probing, of any keys and values, and the
functions that look up, insert and grow. Growing moves the entries within the
same arrays, kicking out what is in the way.
-/

namespace Ats

open BitSmear Probing

/-- The two bits of a bucket in `flags`. -/
structure Flag where
  empty : Bool
  del : Bool
deriving DecidableEq, Repr

/-- `__ac_iseither` -/
def Flag.either (f : Flag) : Bool := f.empty || f.del

/-- `0xaa`: two bits of an empty bucket. -/
def freshFlag : Flag := ⟨true, false⟩

/-- `kh_##name##_t`. The arrays have `nBuckets` entries; what lies beyond is
memory that was not written yet. -/
structure Khash (K V : Type) where
  nBuckets : Nat
  size : Nat
  nOccupied : Nat
  upperBound : Nat
  flags : Nat → Flag
  keys : Nat → K
  vals : Nat → V

/-- `kroundup32`, of a `khint_t` -/
def kroundup32 (x : Nat) : Nat := (smear ((x + 2 ^ 32 - 1) % 2 ^ 32) + 1) % 2 ^ 32

/-- `(khint_t)(n * __ac_HASH_UPPER + 0.5)` -/
def hashUpper (n : Nat) : Nat := (77 * n + 50) / 100

variable {K V : Type}

/-- `kh_init`, over memory with any contents. -/
def khInit (keys : Nat → K) (vals : Nat → V) : Khash K V :=
  ⟨0, 0, 0, 0, fun _ => ⟨false, false⟩, keys, vals⟩

namespace Khash

/-- The first index that a key is looked for at: `k & mask`. -/
def home (hash : K → UInt32) (mask : Nat) (key : K) : Nat := (hash key).toNat &&& mask

section Lookup

variable [DecidableEq K] (hash : K → UInt32) (h : Khash K V)

/-- The condition of the search loops. -/
def goesOn (key : K) (i : Nat) : Bool :=
  !(h.flags i).empty && ((h.flags i).del || h.keys i ≠ key)

/-- `kh_get` -/
def get (key : K) : Option Nat :=
  if h.nBuckets ≠ 0 then do
    let mask := h.nBuckets - 1
    let i := home hash mask key
    let (stop, _) ← walk (h.goesOn key) (fun _ u => u) mask (some i) (2 * h.nBuckets) i 0 ()
    match stop with
    | none => some h.nBuckets
    | some i => some (if (h.flags i).either then h.nBuckets else i)
  else some 0

/-- The search of `kh_put`: `x`. -/
def putSite (key : K) : Option Nat :=
  let mask := h.nBuckets - 1
  let i := home hash mask key
  if (h.flags i).empty then some i
  else do
    let (stop, site) ← walk (h.goesOn key) (fun i site => if (h.flags i).del then i else site)
      mask (some i) (2 * h.nBuckets) i 0 h.nBuckets
    let x := if stop.isNone then site else h.nBuckets
    let i := stop.getD i
    some (if x = h.nBuckets then
        if (h.flags i).empty ∧ site ≠ h.nBuckets then site else i
      else x)

end Lookup

/-! ## Growing -/

/-- What `kh_resize` works on. -/
structure Rehash (K V : Type) where
  flags : Nat → Flag
  newFlags : Nat → Flag
  keys : Nat → K
  vals : Nat → V

/-- `__ac_set_isdel_true(h->flags, j)` -/
def Rehash.remove (r : Rehash K V) (j : Nat) : Rehash K V :=
  { r with flags := Function.update r.flags j { r.flags j with del := true } }

/-- `__ac_set_isempty_false(new_flags, i)`, with a key and a value put there. -/
def Rehash.put (r : Rehash K V) (i : Nat) (key : K) (val : V) : Rehash K V :=
  { r with
    newFlags := Function.update r.newFlags i { r.newFlags i with empty := false }
    keys := Function.update r.keys i key
    vals := Function.update r.vals i val }

/-- The kick-out process, for a key and a value that were taken out. -/
def kickOut (hash : K → UInt32) (nBuckets newBuckets : Nat) :
    Nat → Rehash K V → K → V → Option (Rehash K V)
  | 0, _, _, _ => none
  | fuel + 1, r, key, val => do
    let newMask := newBuckets - 1
    let (stop, _) ← walk (fun i => !(r.newFlags i).empty) (fun _ u => u) newMask none newBuckets
      (home hash newMask key) 0 ()
    let i ← stop
    if i < nBuckets ∧ ¬ (r.flags i).either then
      kickOut hash nBuckets newBuckets fuel ((r.put i key val).remove i) (r.keys i) (r.vals i)
    else some (r.put i key val)

/-- The rehashing of the buckets below `j`. -/
def rehash (hash : K → UInt32) (nBuckets newBuckets : Nat) (r : Rehash K V) :
    Nat → Option (Rehash K V)
  | 0 => some r
  | j + 1 => do
    let r ← rehash hash nBuckets newBuckets r j
    if ¬ (r.flags j).either then
      kickOut hash nBuckets newBuckets (nBuckets + 1) (r.remove j) (r.keys j) (r.vals j)
    else some r

/-- `kh_resize`, with memory to be had. -/
def resize (hash : K → UInt32) (h : Khash K V) (newBuckets : Nat) : Option (Khash K V) :=
  let newBuckets := kroundup32 newBuckets
  let newBuckets := if newBuckets < 4 then 4 else newBuckets
  if h.size ≥ hashUpper newBuckets then some h
  else do
    let r ← rehash hash h.nBuckets newBuckets ⟨h.flags, fun _ => freshFlag, h.keys, h.vals⟩
      h.nBuckets
    some {
      nBuckets := newBuckets
      size := h.size
      nOccupied := h.size
      upperBound := hashUpper newBuckets
      flags := r.newFlags
      keys := r.keys
      vals := r.vals }

/-- The growth of `kh_put`, before its search. -/
def makeRoom (hash : K → UInt32) (h : Khash K V) : Option (Khash K V) :=
  if h.nOccupied ≥ h.upperBound then
    if h.nBuckets > h.size <<< 1 % 2 ^ 32 then h.resize hash (h.nBuckets - 1)
    else h.resize hash (h.nBuckets + 1)
  else some h

/-- `kh_put`: the table, the bucket and `*ret`. -/
def put [DecidableEq K] (hash : K → UInt32) (h : Khash K V) (key : K) :
    Option (Khash K V × Nat × Nat) := do
  let h ← h.makeRoom hash
  let x ← h.putSite hash key
  let filled := { h with
    keys := Function.update h.keys x key
    flags := Function.update h.flags x ⟨false, false⟩ }
  if (h.flags x).empty then
    some ({ filled with size := h.size + 1, nOccupied := h.nOccupied + 1 }, x, 1)
  else if (h.flags x).del then some ({ filled with size := h.size + 1 }, x, 2)
  else some (h, x, 0)

end Khash

end Ats
