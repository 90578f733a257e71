import Mathlib.Algebra.Group.Nat.Defs
import Ats.Base.HashMap
import Ats.Base.Idarray

/-!
# Mem: what `mem.c` asks of its callers

The allocator asserts that sizes are positive and pointers not `NULL`. The
containers start with `NULL` pointers, and grow and free them as C's own
`realloc` and `free` would allow.
-/

namespace Ats

/-! ## The allocator -/

/-- A call of the allocator: sizes, and whether the pointer is `NULL`. -/
inductive MemCall where
  /-- `ats_malloc` -/
  | malloc (size : Nat)
  /-- `ats_calloc` -/
  | calloc (count size : Nat)
  /-- `ats_realloc` -/
  | realloc (isNull : Bool) (size : Nat)
  /-- `ats_free` -/
  | free (isNull : Bool)
deriving DecidableEq, Repr

/-- The assertions of the function. -/
def MemCall.Meets : MemCall → Prop
  | .malloc size => size > 0
  | .calloc count size => count * size % 2 ^ 64 > 0
  | .realloc isNull size => isNull = false ∧ size > 0
  | .free isNull => isNull = false

instance : DecidablePred MemCall.Meets
  | .malloc size => inferInstanceAs (Decidable (size > 0))
  | .calloc count size => inferInstanceAs (Decidable (count * size % 2 ^ 64 > 0))
  | .realloc isNull size => inferInstanceAs (Decidable (isNull = false ∧ size > 0))
  | .free isNull => inferInstanceAs (Decidable (isNull = false))

section Trace

variable {σ α : Type} {step : σ → α → Option (σ × List MemCall)}

/-- The calls of the allocator that a run makes, in order. -/
def memCalls (step : σ → α → Option (σ × List MemCall)) : σ → List α → Option (σ × List MemCall)
  | s, [] => some (s, [])
  | s, op :: ops => do
    let (s, calls) ← step s op
    let (s, rest) ← memCalls step s ops
    some (s, calls ++ rest)

/-- **A container that is fresh** stays so while it is only read, and whatever
else is done to it fails an assertion. -/
theorem memCalls_meet_iff (fresh : σ → Prop) (reads : α → Prop)
    (hread : ∀ s op s' calls, fresh s → reads op → step s op = some (s', calls) →
      fresh s' ∧ calls = [])
    (hother : ∀ s op s' calls, fresh s → ¬ reads op → step s op = some (s', calls) →
      ∃ call ∈ calls, ¬ call.Meets) :
    ∀ (ops : List α) {s s' : σ} {calls : List MemCall}, fresh s →
      memCalls step s ops = some (s', calls) →
      ((∀ call ∈ calls, call.Meets) ↔ ∀ op ∈ ops, reads op) := by
  intro ops
  induction ops with
  | nil =>
    intro s s' calls _ hrun
    cases hrun
    simp
  | cons op ops ih =>
    intro s s' calls hs hrun
    obtain ⟨⟨s₁, first⟩, hstep, hrun⟩ := Option.bind_eq_some_iff.mp hrun
    obtain ⟨⟨s₂, rest⟩, hrest, hrun⟩ := Option.bind_eq_some_iff.mp hrun
    obtain rfl : first ++ rest = calls := by simpa using congrArg Prod.snd (Option.some.inj hrun)
    by_cases hop : reads op
    · obtain ⟨hs₁, rfl⟩ := hread s op s₁ first hs hop hstep
      simpa [hop] using ih hs₁ hrest
    · obtain ⟨call, hmem, hbad⟩ := hother s op s₁ first hs hop hstep
      constructor
      · exact fun hall => absurd (hall call (List.mem_append_left _ hmem)) hbad
      · exact fun hall => absurd (hall op (List.mem_cons_self ..)) hop

end Trace

/-! ## The id array -/

namespace Idarray

/-- A call on an array, from its `ida_init` to its `ida_destroy`. -/
inductive LifeOp where
  | init
  | set (i : Nat) (val : UInt64)
  | get (i : Nat)
  | clear
  | destroy
deriving DecidableEq, Repr

/-- `ida_init` and `ida_get` -/
def LifeOp.Reads : LifeOp → Prop
  | .init | .get _ => True
  | .set _ _ | .clear | .destroy => False

/-- What `ida_set` asks of the allocator. -/
def setCalls (v : Idarray) (i : Nat) : List MemCall :=
  if v.m ≤ i then [.realloc v.a.isNone (8 * newSize i % 2 ^ 64)] else []

/-- `ida_destroy` -/
def destroyCalls (v : Idarray) : List MemCall := [.free v.a.isNone]

/-- One call; no array is one that was destroyed. -/
def lifeStep (junk : Nat → UInt64) (s : Option Idarray) (op : LifeOp) :
    Option (Option Idarray × List MemCall) :=
  match s, op with
  | _, .init => some (some idaInit, [])
  | some v, .set i val => (idaSet v junk i val).map fun v' => (some v', v.setCalls i)
  | some v, .get i => (idaGet v i).map fun _ => (some v, [])
  | some v, .clear => some (some idaInit, v.destroyCalls)
  | some v, .destroy => some (none, v.destroyCalls)
  | none, _ => none

/-- **An id array** meets the assertions of the allocator just while it is only
initialised and read. -/
theorem lifeCalls_meet_iff (junk : Nat → UInt64) (ops : List LifeOp) {s : Option Idarray}
    {calls : List MemCall} (hrun : memCalls (lifeStep junk) (some idaInit) ops = some (s, calls)) :
    (∀ call ∈ calls, call.Meets) ↔ ∀ op ∈ ops, op.Reads := by
  refine memCalls_meet_iff (· = some idaInit) LifeOp.Reads ?_ ?_ ops rfl hrun
  · rintro s op s' calls rfl hop hstep
    cases op with
    | init =>
      cases hstep
      exact ⟨rfl, rfl⟩
    | get i =>
      obtain ⟨w, -, hout⟩ := Option.map_eq_some_iff.mp hstep
      cases hout
      exact ⟨rfl, rfl⟩
    | set i val => exact absurd hop id
    | clear => exact absurd hop id
    | destroy => exact absurd hop id
  · rintro s op s' calls rfl hop hstep
    cases op with
    | init => exact absurd trivial hop
    | get i => exact absurd trivial hop
    | set i val =>
      obtain ⟨v', -, hout⟩ := Option.map_eq_some_iff.mp hstep
      cases hout
      refine ⟨.realloc true (8 * newSize i % 2 ^ 64), ?_, fun h => absurd h.1 (by decide)⟩
      simp [setCalls, idaInit]
    | clear =>
      cases hstep
      exact ⟨.free true, List.mem_singleton.mpr rfl, by decide⟩
    | destroy =>
      cases hstep
      exact ⟨.free true, List.mem_singleton.mpr rfl, by decide⟩

end Idarray

/-! ## The hashes -/

namespace Khash

/-- Which of the arrays of a table are `NULL`. -/
structure Arrays where
  flagsNull : Bool
  keysNull : Bool
  valsNull : Bool
deriving DecidableEq, Repr

/-- `kh_init` takes zeroed memory. -/
def noArrays : Arrays := ⟨true, true, true⟩

/-- `sizeof(kh_##name##_t)` -/
def sizeofTable : Nat := 40

/-- The call of `kh_init` meets its assertion, so that the calls after it
decide. -/
theorem calloc_meet_iff {σ : Type} {r : Option (σ × List MemCall)} {calls : List MemCall}
    (hrun : (r.bind fun (_, rest) => some (.calloc 1 sizeofTable :: rest)) = some calls) :
    ∃ s rest, r = some (s, rest)
      ∧ ((∀ call ∈ calls, call.Meets) ↔ ∀ call ∈ rest, call.Meets) := by
  obtain ⟨⟨s, rest⟩, hrest, hout⟩ := Option.bind_eq_some_iff.mp hrun
  obtain rfl : .calloc 1 sizeofTable :: rest = calls := Option.some.inj hout
  have hcalloc : (MemCall.calloc 1 sizeofTable).Meets := by decide
  exact ⟨s, rest, hrest, by rw [List.forall_mem_cons, and_iff_right hcalloc]⟩

/-- `__ac_fsize` -/
def fsize (m : Nat) : Nat := if m < 16 then 1 else m >>> 4

section Calls

variable {K V : Type} (keySize valSize : Nat) (h : Khash K V) (a : Arrays)

/-- What `kh_resize` asks of the allocator, for keys and values of these sizes,
and the arrays after it. -/
def resizeCalls (newBuckets : Nat) : Arrays × List MemCall :=
  let newBuckets := kroundup32 newBuckets
  let newBuckets := if newBuckets < 4 then 4 else newBuckets
  if h.size ≥ hashUpper newBuckets then (a, [])
  else
    let resized : Arrays :=
      if h.nBuckets ≠ newBuckets then { a with keysNull := false, valsNull := false } else a
    -- before the rehashing where the table grows, after it where it shrinks
    let arrays : List MemCall :=
      if h.nBuckets ≠ newBuckets then
        [.realloc a.keysNull (newBuckets * keySize), .realloc a.valsNull (newBuckets * valSize)]
      else []
    ({ resized with flagsNull := false },
      .malloc (fsize newBuckets * 4) :: arrays ++ [.free a.flagsNull])

/-- What `kh_put` asks of the allocator. -/
def putCalls : Arrays × List MemCall :=
  if h.nOccupied ≥ h.upperBound then
    if h.nBuckets > h.size <<< 1 % 2 ^ 32 then h.resizeCalls keySize valSize a (h.nBuckets - 1)
    else h.resizeCalls keySize valSize a (h.nBuckets + 1)
  else (a, [])

end Calls

/-- The first `kh_put` passes the `NULL` pointers of a new table. -/
theorem putCalls_init {K V : Type} (keySize valSize : Nat) (keys : Nat → K) (vals : Nat → V) :
    putCalls keySize valSize (khInit keys vals) noArrays
      = (⟨false, false, false⟩, [.malloc 4, .realloc true (4 * keySize),
        .realloc true (4 * valSize), .free true]) := by
  have hround : (if kroundup32 1 < 4 then 4 else kroundup32 1) = 4 := by decide +kernel
  simp [putCalls, resizeCalls, khInit, noArrays, hround, fsize, hashUpper]

end Khash

open Khash

namespace HashMap

variable {K P : Type}

/-- `int_hash_get` and `str_hash_get` -/
def Op.Reads : Op K P → Prop
  | .get _ => True
  | .set _ _ => False

/-- One call on a table, with what it asks of the allocator. -/
def memStep (api : Api K P) (keySize valSize : Nat) (s : Khash K (Option P) × Arrays)
    (op : Op K P) : Option ((Khash K (Option P) × Arrays) × List MemCall) :=
  match op with
  | .set key val => do
    let h ← api.set s.1 key val
    let (a, calls) := s.1.putCalls keySize valSize s.2
    some ((h, a), calls)
  | .get key => (api.get s.1 key).map fun _ => (s, [])

/-- What a run from `kh_init` on asks of the allocator. -/
def memRun (api : Api K P) (keySize valSize : Nat) (keys : Nat → K) (vals : Nat → Option P)
    (ops : List (Op K P)) : Option (List MemCall) := do
  let (_, calls) ← memCalls (memStep api keySize valSize) (khInit keys vals, noArrays) ops
  some (.calloc 1 sizeofTable :: calls)

/-- The run after `kh_init`, whose call of the allocator meets its assertion. -/
theorem memRun_meet_iff {api : Api K P} {keySize valSize : Nat} {keys : Nat → K}
    {vals : Nat → Option P} {ops : List (Op K P)} {calls : List MemCall}
    (hrun : memRun api keySize valSize keys vals ops = some calls) :
    (∀ call ∈ calls, call.Meets) ↔ ∀ op ∈ ops, op.Reads := by
  obtain ⟨s, rest, hrest, hiff⟩ := calloc_meet_iff hrun
  refine hiff.trans
    (memCalls_meet_iff (· = (khInit keys vals, noArrays)) Op.Reads ?_ ?_ ops rfl hrest)
  · rintro s op s' calls rfl hop hstep
    cases op with
    | get key =>
      obtain ⟨val, -, hout⟩ := Option.map_eq_some_iff.mp hstep
      cases hout
      exact ⟨rfl, rfl⟩
    | set key val => exact absurd hop id
  · rintro s op s' calls rfl hop hstep
    cases op with
    | get key => exact absurd trivial hop
    | set key val =>
      obtain ⟨h, -, hout⟩ := Option.bind_eq_some_iff.mp hstep
      simp only [putCalls_init] at hout
      cases hout
      exact ⟨.free true, by simp, by decide⟩

end HashMap

namespace ListHash

variable {K N : Type}

/-- A call on a table of lists. -/
inductive TableOp (K : Type) where
  | getOrCreate (key : K)
  | get (key : K)
deriving DecidableEq, Repr

/-- `int_hash_get_list` and `str_hash_get_list` -/
def TableOp.Reads : TableOp K → Prop
  | .get _ => True
  | .getOrCreate _ => False

variable [DecidableEq K] [DecidableEq N]

/-- One call on a table of lists, with what it asks of the allocator. -/
def memStep (hash : K → UInt32) (keySize valSize : Nat) (s : ListHash K N × Arrays)
    (op : TableOp K) : Option ((ListHash K N × Arrays) × List MemCall) :=
  match op with
  | .getOrCreate key => do
    let iter ← s.1.hash.get hash key
    let (table, _) ← s.1.getOrCreateList hash key
    let (a, calls) :=
      if iter = s.1.hash.nBuckets then s.1.hash.putCalls keySize valSize s.2 else (s.2, [])
    some ((table, a), calls)
  | .get key => (s.1.getList hash key).map fun _ => (s, [])

/-- What a run from `kh_init` on asks of the allocator. -/
def memRun (hash : K → UInt32) (keySize valSize : Nat) (keys : Nat → K)
    (vals : Nat → Queue (Addr N)) (nodes : N → Queue (Addr N)) (ops : List (TableOp K)) :
    Option (List MemCall) := do
  let (_, calls) ←
    memCalls (memStep hash keySize valSize) (⟨khInit keys vals, nodes⟩, noArrays) ops
  some (.calloc 1 sizeofTable :: calls)

/-- The run after `kh_init`, whose call of the allocator meets its assertion. -/
theorem memRun_meet_iff {hash : K → UInt32} {keySize valSize : Nat} {keys : Nat → K}
    {vals : Nat → Queue (Addr N)} {nodes : N → Queue (Addr N)} {ops : List (TableOp K)}
    {calls : List MemCall}
    (hrun : memRun hash keySize valSize keys vals nodes ops = some calls) :
    (∀ call ∈ calls, call.Meets) ↔ ∀ op ∈ ops, op.Reads := by
  obtain ⟨s, rest, hrest, hiff⟩ := calloc_meet_iff hrun
  refine hiff.trans (memCalls_meet_iff (· = (⟨khInit keys vals, nodes⟩, noArrays))
    TableOp.Reads ?_ ?_ ops rfl hrest)
  · rintro s op s' calls rfl hop hstep
    cases op with
    | get key =>
      simp only [memStep, Option.map_eq_some_iff] at hstep
      obtain ⟨list, -, hout⟩ := hstep
      cases hout
      exact ⟨rfl, rfl⟩
    | getOrCreate key => exact absurd hop id
  · rintro s op s' calls rfl hop hstep
    cases op with
    | get key => exact absurd trivial hop
    | getOrCreate key =>
      have hget : (khInit keys vals).get hash key = some 0 := rfl
      have hend : 0 = (khInit keys vals).nBuckets := rfl
      simp only [memStep, hget, Option.bind_eq_bind, Option.bind_some, if_pos hend, putCalls_init,
        Option.bind_eq_some_iff] at hstep
      obtain ⟨⟨table, list⟩, -, hout⟩ := hstep
      cases hout
      exact ⟨.free true, by simp, by decide⟩

end ListHash

/-- **The containers meet the assertions of the allocator** exactly while they
are only read: the id array, the two maps and the two tables of lists. -/
theorem containers_meet_iff {P N : Type} [DecidableEq N] :
    (∀ (junk : Nat → UInt64) (ops : List Idarray.LifeOp) s calls,
      memCalls (Idarray.lifeStep junk) (some idaInit) ops = some (s, calls) →
      ((∀ call ∈ calls, call.Meets) ↔ ∀ op ∈ ops, op.Reads))
    ∧ (∀ keys vals ops calls, HashMap.memRun (HashMap.intApi P) 4 8 keys vals ops = some calls →
      ((∀ call ∈ calls, call.Meets) ↔ ∀ op ∈ ops, op.Reads))
    ∧ (∀ ofChar keys vals ops calls,
      HashMap.memRun (HashMap.strApi ofChar P) 8 8 keys vals ops = some calls →
      ((∀ call ∈ calls, call.Meets) ↔ ∀ op ∈ ops, op.Reads))
    ∧ (∀ keys (vals : Nat → Queue (Addr N)) nodes ops calls,
      ListHash.memRun intHash 4 16 keys vals nodes ops = some calls →
      ((∀ call ∈ calls, call.Meets) ↔ ∀ op ∈ ops, op.Reads))
    ∧ ∀ ofChar keys (vals : Nat → Queue (Addr N)) nodes ops calls,
      ListHash.memRun (strHash ofChar) 8 16 keys vals nodes ops = some calls →
      ((∀ call ∈ calls, call.Meets) ↔ ∀ op ∈ ops, op.Reads) :=
  ⟨fun junk ops _ _ => Idarray.lifeCalls_meet_iff junk ops,
    fun _ _ _ _ => HashMap.memRun_meet_iff, fun _ _ _ _ _ => HashMap.memRun_meet_iff,
    fun _ _ _ _ _ => ListHash.memRun_meet_iff, fun _ _ _ _ _ _ => ListHash.memRun_meet_iff⟩

/-- A first value in a new array. -/
def firstSet : List Idarray.LifeOp := [.set 0 7]

/-- A first value in a new map. -/
def firstPut {K : Type} (key : K) : List (HashMap.Op K Nat) := [.set key (some 1)]

/-- A first list in a new table. -/
def firstList {K : Type} (key : K) : List (ListHash.TableOp K) := [.getOrCreate key]

def oneKey : CString := ⟨"key".toList.map Char.toUInt8, by decide⟩

/-- The calls of a first `kh_put`, for keys and values of these sizes. -/
def firstCalls (keySize valSize : Nat) : List MemCall :=
  [.calloc 1 40, .malloc 4, .realloc true (4 * keySize), .realloc true (4 * valSize), .free true]

theorem containers_meet_iff_first :
    ((∀ call ∈ [MemCall.realloc true 128], call.Meets) ↔ ∀ op ∈ firstSet, op.Reads)
      ∧ ((∀ call ∈ firstCalls 4 8, call.Meets) ↔ ∀ op ∈ firstPut (7 : UInt32), op.Reads)
      ∧ ((∀ call ∈ firstCalls 8 8, call.Meets) ↔ ∀ op ∈ firstPut oneKey, op.Reads)
      ∧ ((∀ call ∈ firstCalls 4 16, call.Meets) ↔ ∀ op ∈ firstList (7 : UInt32), op.Reads)
      ∧ ((∀ call ∈ firstCalls 8 16, call.Meets) ↔ ∀ op ∈ firstList oneKey, op.Reads) := by
  obtain ⟨hida, hint, hstr, hints, hstrs⟩ := containers_meet_iff (P := Nat) (N := Nat)
  exact ⟨hida (fun _ => 0) firstSet (some ⟨16, some (7 :: List.replicate 15 0)⟩) _
    (by decide +kernel), hint (fun _ => 0) (fun _ => none) _ _ (by decide +kernel),
    hstr (fun c => c.toUInt32) (fun _ => oneKey) (fun _ => none) _ _ (by decide +kernel),
    hints (fun _ => 0) (fun _ => ⟨.node 0, .node 0⟩) (fun _ => ⟨.node 0, .node 0⟩) _ _
      (by decide +kernel),
    hstrs (fun c => c.toUInt32) (fun _ => oneKey) (fun _ => ⟨.node 0, .node 0⟩)
      (fun _ => ⟨.node 0, .node 0⟩) _ _ (by decide +kernel)⟩

/-- The first `ida_set` passes `NULL` to `ats_realloc`. -/
theorem firstSet_passes_null :
    memCalls (Idarray.lifeStep fun _ => 0) (some idaInit) firstSet
        = some (some ⟨16, some (7 :: List.replicate 15 0)⟩, [.realloc true 128])
      ∧ ¬ ∀ (ops : List Idarray.LifeOp) s calls,
        memCalls (Idarray.lifeStep fun _ => 0) (some idaInit) ops = some (s, calls) →
        ∀ call ∈ calls, call.Meets := by
  have hrun : memCalls (Idarray.lifeStep fun _ => 0) (some idaInit) firstSet
      = some (some ⟨16, some (7 :: List.replicate 15 0)⟩, [.realloc true 128]) := by
    decide +kernel
  refine ⟨hrun, fun h => ?_⟩
  have hmeets := h firstSet _ _ hrun (.realloc true 128) (by decide)
  exact absurd hmeets (by decide)

end Ats
