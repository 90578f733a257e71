import Mathlib.Data.List.Induction
import Ats.Lib.BitSmear

/-!
# Idarray: `idarray.h`

An array that grows with the index that is set. What `realloc` adds has any
contents, and only the part from the index on is cleared.
-/

namespace Ats

open BitSmear

/-- `idarray_t`; `a` is `NULL` or the object it points to. -/
structure Idarray where
  m : Nat
  a : Option (List UInt64)
deriving DecidableEq, Repr

def idarrayMinSize : Nat := 16

/-- `IDARRAY_MAX_SIZE`: `INT_MAX` -/
def idarrayMaxSize : Nat := 2147483647

/-- `roundup32`, of a `size_t` -/
def roundup32 (x : Nat) : Nat := (smear ((x + 2 ^ 64 - 1) % 2 ^ 64) + 1) % 2 ^ 64

namespace Idarray

/-- The words at a pointer; none at `NULL`. -/
def words (a : Option (List UInt64)) : List UInt64 := a.getD []

/-- `realloc` to `n` words: the old contents, and `junk` beyond them. -/
def realloc (a : Option (List UInt64)) (junk : Nat → UInt64) (n : Nat) : List UInt64 :=
  (List.range n).map fun k => (words a)[k]?.getD (junk k)

/-- `memset` of `n` words from `i` on. -/
def zeroed (a : List UInt64) (i n : Nat) : List UInt64 :=
  a.mapIdx fun k w => if i ≤ k ∧ k < i + n then 0 else w

/-- The size that `ida_set` chooses for an index beyond the array. -/
def newSize (i : Nat) : Nat :=
  let m := i + 1
  let m := if m < idarrayMinSize then idarrayMinSize else m
  roundup32 m

/-- The array after `realloc` to `m` words, cleared from index `i` on. -/
def grown (v : Idarray) (junk : Nat → UInt64) (i m : Nat) : Idarray :=
  ⟨m, some (zeroed (realloc v.a junk m) i (m - i))⟩

end Idarray

open Idarray

/-- `ida_init` -/
def idaInit : Idarray := ⟨0, none⟩

/-- `ida_get`; `none` for a failed assertion or a read outside the object. -/
def idaGet (v : Idarray) (i : Nat) : Option UInt64 :=
  if i < idarrayMaxSize then
    if i ≥ v.m then some 0 else (words v.a)[i]?
  else none

/-- `ida_set`; `none` for a failed assertion or a write outside the object. -/
def idaSet (v : Idarray) (junk : Nat → UInt64) (i : Nat) (val : UInt64) : Option Idarray :=
  if i < idarrayMaxSize then
    let v := if v.m ≤ i then v.grown junk i (newSize i) else v
    if i < (words v.a).length then some { v with a := v.a.map (·.set i val) } else none
  else none

namespace Idarray

/-! ## One call -/

theorem newSize_gt {i : Nat} (hi : i < idarrayMaxSize) : i < newSize i := by
  unfold idarrayMaxSize at hi
  unfold newSize idarrayMinSize
  simp only
  generalize hx : (if i + 1 < 16 then 16 else i + 1) = x
  have hx1 : i + 1 ≤ x ∧ x ≤ 2 ^ 31 := by
    rw [← hx]
    split <;> omega
  have hpred : (x + 2 ^ 64 - 1) % 2 ^ 64 = x - 1 := by omega
  have hlt := smear_lt (show x - 1 < 2 ^ 31 by omega)
  have hle := le_smear (x - 1)
  rw [roundup32, hpred]
  omega

theorem grown_length (v : Idarray) (junk : Nat → UInt64) (i m : Nat) :
    (words (v.grown junk i m).a).length = m := by
  simp [grown, words, zeroed, realloc]

/-- The words after growing for index `i`: cleared from `i` on. -/
theorem grown_getElem (v : Idarray) (junk : Nat → UInt64) (i : Nat) {k m : Nat} (hk : k < m) :
    (words (v.grown junk i m).a)[k]?
      = some (if i ≤ k then 0 else (words v.a)[k]?.getD (junk k)) := by
  have hin : k < i + (m - i) := by omega
  simp [grown, words, zeroed, realloc, hk, hin]

theorem words_map_set (a : Option (List UInt64)) (i : Nat) (val : UInt64) :
    words (a.map (·.set i val)) = (words a).set i val := by
  cases a <;> simp [words]

/-- The array stands for the map `f`. -/
structure Shows (v : Idarray) (f : Nat → UInt64) : Prop where
  length : (words v.a).length = v.m
  inside : ∀ k, k < v.m → (words v.a)[k]? = some (f k)
  beyond : ∀ k, v.m ≤ k → f k = 0

variable {v : Idarray} {f : Nat → UInt64}

theorem shows_init : Shows idaInit fun _ => 0 where
  length := rfl
  inside := fun _ h => absurd h (Nat.not_lt_zero _)
  beyond := fun _ _ => rfl

theorem Shows.get_eq (h : v.Shows f) {i : Nat} (hi : i < idarrayMaxSize) :
    idaGet v i = some (f i) := by
  unfold idaGet
  rw [if_pos hi]
  rcases Nat.lt_or_ge i v.m with hlt | hge
  · rw [if_neg (Nat.not_le.mpr hlt), h.inside i hlt]
  · rw [if_pos hge, h.beyond i hge]

/-- Growing for the next index clears all that is new. -/
theorem Shows.grown (h : v.Shows f) (junk : Nat → UInt64) {m : Nat} (hm : v.m < m) :
    (v.grown junk v.m m).Shows f where
  length := grown_length v junk v.m m
  inside := by
    intro k hk
    have hkm : k < m := hk
    rw [grown_getElem v junk v.m hkm]
    rcases Nat.lt_or_ge k v.m with hlt | hge
    · rw [if_neg (Nat.not_le.mpr hlt), h.inside k hlt]
      rfl
    · rw [if_pos hge, h.beyond k hge]
  beyond := fun k hk => h.beyond k (Nat.le_trans (Nat.le_of_lt hm) hk)

/-- Writing inside the array. -/
theorem Shows.write (h : v.Shows f) {i : Nat} (val : UInt64) (hi : i < v.m) :
    Shows { v with a := v.a.map (·.set i val) } (Function.update f i val) where
  length := by
    rw [← h.length, words_map_set, List.length_set]
  inside := by
    intro k hk
    rw [words_map_set, List.getElem?_set]
    rcases Nat.decEq i k with hne | rfl
    · rw [if_neg hne, h.inside k hk, Function.update_of_ne (Ne.symm hne)]
    · rw [if_pos rfl, if_pos (h.length ▸ hi), Function.update_self]
  beyond := by
    intro k hk
    have hne : k ≠ i := Nat.ne_of_gt (Nat.lt_of_lt_of_le hi hk)
    rw [Function.update_of_ne hne]
    exact h.beyond k hk

/-- The size after a set, from the size before. -/
def sizeSet (m i : Nat) : Nat := if m ≤ i then newSize i else m

/-- **A set of the next index or of one in the array** sets the map. -/
theorem Shows.set (h : v.Shows f) (junk : Nat → UInt64) {i : Nat} (val : UInt64)
    (hi : i < idarrayMaxSize) (hdense : i ≤ v.m) :
    ∃ v', idaSet v junk i val = some v' ∧ v'.Shows (Function.update f i val)
      ∧ v'.m = sizeSet v.m i := by
  have hsize := newSize_gt hi
  unfold idaSet sizeSet
  generalize newSize i = m at hsize
  rw [if_pos hi]
  rcases Nat.lt_or_eq_of_le hdense with hlt | rfl
  · have hin : i < (words v.a).length := h.length ▸ hlt
    simp only [if_neg (Nat.not_le.mpr hlt), if_pos hin]
    exact ⟨_, rfl, h.write val hlt, rfl⟩
  · have hgrown := h.grown junk hsize
    have hin : v.m < (words (v.grown junk v.m m).a).length := by rwa [grown_length]
    simp only [if_pos (Nat.le_refl v.m), if_pos hin]
    exact ⟨_, rfl, hgrown.write val hsize, rfl⟩

/-- **A set that skips an index** shows what `realloc` found there. -/
theorem Shows.set_skip (h : v.Shows f) (junk : Nat → UInt64) {i : Nat} (val : UInt64)
    (hi : i < idarrayMaxSize) (hskip : v.m < i) :
    ∃ v', idaSet v junk i val = some v' ∧ idaGet v' v.m = some (junk v.m) := by
  have hsize := newSize_gt hi
  unfold idaSet
  generalize newSize i = m at hsize
  have hin : i < (words (v.grown junk i m).a).length := by rwa [grown_length]
  have hnone : (words v.a)[v.m]? = none := List.getElem?_eq_none (Nat.le_of_eq h.length)
  have hat := grown_getElem v junk i (Nat.lt_trans hskip hsize)
  rw [if_neg (Nat.not_le.mpr hskip), hnone, Option.getD_none] at hat
  simp only [if_pos hi, if_pos (Nat.le_of_lt hskip), if_pos hin]
  refine ⟨_, rfl, ?_⟩
  have hm : ¬ v.m ≥ m := Nat.not_le.mpr (Nat.lt_trans hskip hsize)
  unfold idaGet
  rw [if_pos (Nat.lt_trans hskip hi), words_map_set, List.getElem?_set_ne (Nat.ne_of_gt hskip),
    hat]
  exact if_neg hm

/-! ## Runs -/

/-- A call. -/
inductive Op where
  | set (i : Nat) (val : UInt64)
  | get (i : Nat)
deriving DecidableEq, Repr

def Op.index : Op → Nat
  | .set i _ => i
  | .get i => i

/-- The array after a call. -/
def call (junk : Nat → UInt64) (v : Idarray) : Op → Option Idarray
  | .set i val => idaSet v junk i val
  | .get i => (idaGet v i).map fun _ => v

/-- The array after calls from `ida_init` on; the `n`th finds `junk n` in new
memory. -/
def run (junk : Nat → Nat → UInt64) (ops : List Op) : Option Idarray :=
  ops.zipIdx.foldlM (fun v p => v.call (junk p.2) p.1) idaInit

theorem run_concat (junk : Nat → Nat → UInt64) (ops : List Op) (op : Op) :
    run junk (ops ++ [op]) = (run junk ops).bind fun v => v.call (junk ops.length) op := by
  simp [run, List.zipIdx_append, List.foldlM_append]

/-- The map that a call leaves. -/
def callMap (f : Nat → UInt64) : Op → Nat → UInt64
  | .set i val => Function.update f i val
  | .get _ => f

/-- The value last set at each index, or 0. -/
def lastSet (ops : List Op) : Nat → UInt64 := ops.foldl callMap fun _ => 0

theorem lastSet_concat (ops : List Op) (op : Op) :
    lastSet (ops ++ [op]) = callMap (lastSet ops) op := by
  simp [lastSet]

def sizeAfter (m : Nat) : Op → Nat
  | .set i _ => sizeSet m i
  | .get _ => m

/-- The size after calls from `ida_init` on. -/
def sizeAt (ops : List Op) : Nat := ops.foldl sizeAfter 0

theorem sizeAt_concat (ops : List Op) (op : Op) :
    sizeAt (ops ++ [op]) = sizeAfter (sizeAt ops) op := by
  simp [sizeAt]

/-- No call skips an index: a set is in the array or at its end. -/
def Dense (ops : List Op) : Prop :=
  ∀ pre i val, pre ++ [.set i val] <+: ops → i ≤ sizeAt pre

/-- The calls succeed and leave the map of the last values. -/
def IsMap (junk : Nat → Nat → UInt64) (ops : List Op) : Prop :=
  ∃ v, run junk ops = some v ∧ ∀ i, i < idarrayMaxSize → idaGet v i = some (lastSet ops i)

/-- A call leaves the values of other indices. -/
def KeepsOthers (junk : Nat → Nat → UInt64) (ops : List Op) (op : Op) : Prop :=
  ∀ v v', run junk ops = some v → run junk (ops ++ [op]) = some v' →
    ∀ i, i < idarrayMaxSize → i ≠ op.index → idaGet v' i = idaGet v i

theorem Dense.of_prefix {ops pre : List Op} (h : Dense ops) (hpre : pre <+: ops) : Dense pre :=
  fun p i val hp => h p i val (hp.trans hpre)

/-- **Calls that skip no index** leave an array that shows the map. -/
theorem run_shows (junk : Nat → Nat → UInt64) {ops : List Op}
    (hops : ∀ op ∈ ops, op.index < idarrayMaxSize) (hdense : Dense ops) :
    ∃ v, run junk ops = some v ∧ v.Shows (lastSet ops) ∧ v.m = sizeAt ops := by
  induction ops using List.reverseRecOn with
  | nil => exact ⟨idaInit, rfl, shows_init, rfl⟩
  | append_singleton ops op ih =>
    have hop := hops op (by simp)
    obtain ⟨v, hrun, hshows, hm⟩ := ih (fun o ho => hops o (by simp [ho]))
      (hdense.of_prefix (List.prefix_append _ _))
    rw [run_concat, hrun, lastSet_concat, sizeAt_concat, ← hm]
    cases op with
    | set i val =>
      exact hshows.set (junk ops.length) val hop (hm ▸ hdense ops i val (List.prefix_refl _))
    | get i =>
      have hget : idaGet v i = some (lastSet ops i) := hshows.get_eq hop
      exact ⟨v, by simp [call, hget], hshows, rfl⟩

theorem Dense.isMap (junk : Nat → Nat → UInt64) {ops : List Op} (h : Dense ops)
    (hops : ∀ op ∈ ops, op.index < idarrayMaxSize) : IsMap junk ops := by
  obtain ⟨v, hrun, hshows, -⟩ := run_shows junk hops h
  exact ⟨v, hrun, fun i hi => hshows.get_eq hi⟩

/-- A call that keeps the array a map changes its own index alone. -/
theorem IsMap.keepsOthers {junk : Nat → Nat → UInt64} {ops : List Op} {op : Op}
    (h : IsMap junk ops) (h' : IsMap junk (ops ++ [op])) : KeepsOthers junk ops op := by
  obtain ⟨w, hw, hbefore⟩ := h
  obtain ⟨w', hw', hafter⟩ := h'
  intro v v' hrun hrun' i hi hne
  obtain rfl : v = w := Option.some.inj (hrun.symm.trans hw)
  obtain rfl : v' = w' := Option.some.inj (hrun'.symm.trans hw')
  rw [hbefore i hi, hafter i hi, lastSet_concat]
  cases op with
  | set j val => rw [callMap, Function.update_of_ne (show i ≠ j from hne)]
  | get j => rfl

/-- A set that skips an index shows what `realloc` found there, here a 1. -/
theorem Dense.skip_not_isMap {ops : List Op} {i : Nat} {val : UInt64} (h : Dense ops)
    (hops : ∀ op ∈ ops, op.index < idarrayMaxSize) (hi : i < idarrayMaxSize)
    (hskip : sizeAt ops < i) : ¬ IsMap (fun _ _ => 1) (ops ++ [.set i val]) := by
  obtain ⟨v, hrun, hshows, hm⟩ := run_shows (fun _ _ => 1) hops h
  rw [← hm] at hskip
  obtain ⟨v', hset, hget⟩ := hshows.set_skip (fun _ => 1) val hi hskip
  have hrun' : run (fun _ _ => 1) (ops ++ [.set i val]) = some v' := by
    rw [run_concat, hrun]
    exact hset
  rintro ⟨w, hw, hmap⟩
  obtain rfl : v' = w := Option.some.inj (hrun'.symm.trans hw)
  have hclaim := hmap v.m (Nat.lt_trans hskip hi)
  rw [hget, lastSet_concat, callMap, Function.update_of_ne (Nat.ne_of_lt hskip),
    hshows.beyond v.m (Nat.le_refl _)] at hclaim
  exact absurd hclaim (by decide)

/-- Calls that are a map whatever `realloc` finds skip no index. -/
theorem dense_of_isMap {ops : List Op} (hops : ∀ op ∈ ops, op.index < idarrayMaxSize)
    (h : ∀ pre, pre <+: ops → IsMap (fun _ _ => 1) pre) : Dense ops := by
  induction ops using List.reverseRecOn with
  | nil =>
    intro pre i val hpre
    have hnil := List.prefix_nil.mp hpre
    simp at hnil
  | append_singleton ops op ih =>
    have hops' : ∀ o ∈ ops, o.index < idarrayMaxSize := fun o ho => hops o (by simp [ho])
    have hdense : Dense ops :=
      ih hops' fun pre hpre => h pre (hpre.trans (List.prefix_append ops [op]))
    intro pre i val hpre
    rcases List.prefix_concat_iff.mp hpre with heq | hpre
    · obtain ⟨rfl, hop⟩ := List.append_inj' heq rfl
      obtain rfl : Op.set i val = op := by simpa using hop
      by_contra hskip
      exact hdense.skip_not_isMap hops' (hops (.set i val) (by simp)) (Nat.not_le.mp hskip)
        (h _ (List.prefix_refl _))
    · exact hdense pre i val hpre

/-- **The id array is a map with default 0**, which growing leaves alone,
exactly when no set skips an index. -/
theorem idarray_map_iff (ops : List Op) (hops : ∀ op ∈ ops, op.index < idarrayMaxSize) :
    (∀ junk, (∀ pre, pre <+: ops → IsMap junk pre)
        ∧ ∀ pre op, pre ++ [op] <+: ops → KeepsOthers junk pre op)
      ↔ Dense ops := by
  constructor
  · intro h
    exact dense_of_isMap hops (h fun _ _ => 1).1
  · intro hdense junk
    have hmap : ∀ pre, pre <+: ops → IsMap junk pre := fun pre hpre =>
      (hdense.of_prefix hpre).isMap junk fun o ho => hops o (hpre.subset ho)
    refine ⟨hmap, fun pre op hpre => ?_⟩
    exact (hmap pre ((List.prefix_append _ _).trans hpre)).keepsOthers (hmap _ hpre)

/-- Indices 0 to 2, each set in turn. -/
def threeSets : List Op := [.set 0 7, .set 1 8, .set 2 9]

theorem threeSets_map :
    (∀ junk, (∀ pre, pre <+: threeSets → IsMap junk pre)
        ∧ ∀ pre op, pre ++ [op] <+: threeSets → KeepsOthers junk pre op)
      ↔ Dense threeSets :=
  idarray_map_iff threeSets (by decide)

/-- Index 100 set in an array of 16. -/
def skipping : List Op := [.set 0 7, .set 100 8]

/-- What `realloc` found at index 50 is read there. -/
theorem skipping_reads_junk :
    (run (fun _ _ => 1) skipping).bind (fun v => idaGet v 50) = some 1
      ∧ ¬ ∀ ops : List Op, (∀ op ∈ ops, op.index < idarrayMaxSize) →
        ∀ junk, IsMap junk ops := by
  have hread : (run (fun _ _ => 1) skipping).bind (fun v => idaGet v 50) = some 1 := by
    decide +kernel
  refine ⟨hread, fun h => ?_⟩
  obtain ⟨v, hrun, hmap⟩ := h skipping (by decide) fun _ _ => 1
  rw [hrun, Option.bind_some, hmap 50 (by decide)] at hread
  exact absurd hread (by decide)

end Idarray

end Ats
