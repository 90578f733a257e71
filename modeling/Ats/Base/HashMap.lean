import Ats.Base.HashList
import Ats.Base.KhashResize

/-!
# Maps in a hash table: `hash.c`

`int_hash_set` and `str_hash_set` assert that `kh_put` has found a free
bucket, so a key can be set once. Up to there the table is a map.
-/

namespace Ats

open Khash GuardedRun

variable {K P : Type}

/-! ## Calls -/

section Calls

variable [DecidableEq K] (hash : K → UInt32) (h : Khash K (Option P))

/-- The value of a key; `NULL` is `none`. -/
def hashGet (key : K) : Option (Option P) := do
  let iter ← h.get hash key
  some (if iter = h.nBuckets then none else h.vals iter)

/-- A key is put and given a value; `none` where `ASSERT(ret > 0)` fails. -/
def hashSet (key : K) (val : Option P) : Option (Khash K (Option P)) := do
  let (h, iter, ret) ← h.put hash key
  if ret > 0 then some (h.setValue iter val) else none

end Calls

/-- `int_hash_get` -/
def intHashGet (h : Khash UInt32 (Option P)) (key : UInt32) : Option (Option P) :=
  hashGet intHash h key

/-- `int_hash_set` -/
def intHashSet (h : Khash UInt32 (Option P)) (key : UInt32) (val : Option P) :
    Option (Khash UInt32 (Option P)) :=
  hashSet intHash h key val

/-- `str_hash_get`, where `ofChar` converts a `char` -/
def strHashGet (ofChar : UInt8 → UInt32) (h : Khash CString (Option P)) (key : CString) :
    Option (Option P) :=
  hashGet (strHash ofChar) h key

/-- `str_hash_set` -/
def strHashSet (ofChar : UInt8 → UInt32) (h : Khash CString (Option P)) (key : CString)
    (val : Option P) : Option (Khash CString (Option P)) :=
  hashSet (strHash ofChar) h key val

namespace HashMap

/-- A call. -/
inductive Op (K P : Type) where
  | set (key : K) (val : Option P)
  | get (key : K)
deriving DecidableEq, Repr

/-- A pair of functions to set and to get. -/
structure Api (K P : Type) where
  set : Khash K (Option P) → K → Option P → Option (Khash K (Option P))
  get : Khash K (Option P) → K → Option (Option P)

def intApi (P : Type) : Api UInt32 P := ⟨intHashSet, intHashGet⟩

def strApi (ofChar : UInt8 → UInt32) (P : Type) : Api CString P :=
  ⟨strHashSet ofChar, strHashGet ofChar⟩

/-- The table after a call. -/
def Api.call (api : Api K P) (h : Khash K (Option P)) : Op K P → Option (Khash K (Option P))
  | .set key val => api.set h key val
  | .get key => (api.get h key).map fun _ => h

section Values

variable [DecidableEq K]

/-- The map that a call leaves. -/
def callMap (f : K → Option P) : Op K P → K → Option P
  | .set key val => Function.update f key val
  | .get _ => f

/-- The value last set for each key, or `NULL`. -/
def lastSet (ops : List (Op K P)) : K → Option P := ops.foldl callMap fun _ => none

end Values

/-- The keys that are set, in order. -/
def setKeys (ops : List (Op K P)) : List K :=
  ops.filterMap fun
    | .set key _ => some key
    | .get _ => none

/-- **The calls are those of a map**: none fails, and each key has the value
last set. -/
def IsMap [DecidableEq K] (api : Api K P) (h₀ : Khash K (Option P)) (ops : List (Op K P)) : Prop :=
  ∃ h, run api.call h₀ ops = some h ∧ ∀ key, api.get h key = some (lastSet ops key)

/-- No key is set twice, and no more keys than the largest table holds. -/
def Once (ops : List (Op K P)) : Prop := (setKeys ops).Nodup ∧ (setKeys ops).length ≤ 2 ^ 31

/-! ## One call -/

section Shows

variable {hash : K → UInt32} {h : Khash K (Option P)} {f : K → Option P} {keys : List K} {key : K}

/-- The table stands for the map `f`, in which `keys` were set. -/
structure Shows (hash : K → UInt32) (h : Khash K (Option P)) (f : K → Option P)
    (keys : List K) : Prop where
  wf : h.Wf hash
  entry : ∀ key val, h.Entry key val ↔ key ∈ keys ∧ val = f key
  unset : ∀ key, key ∉ keys → f key = none
  size : h.size = keys.length
  nodup : keys.Nodup

theorem shows_init (hash : K → UInt32) (keys : Nat → K) (vals : Nat → Option P) :
    Shows hash (khInit keys vals) (fun _ => none) [] where
  wf := wf_init keys vals
  entry := by
    intro key val
    constructor
    · rintro ⟨i, hi, -⟩
      exact absurd hi.1.1 (Nat.not_lt_zero i)
    · rintro ⟨hkey, -⟩
      exact absurd hkey List.not_mem_nil
  unset := fun _ _ => rfl
  size := rfl
  nodup := List.nodup_nil

variable [DecidableEq K]

/-- **A get** gives the value of the map. -/
theorem Shows.get_eq (hs : Shows hash h f keys) (key : K) : hashGet hash h key = some (f key) := by
  rcases hs.wf.get_spec key with ⟨i, hi, hget⟩ | ⟨habsent, hget⟩
  · obtain ⟨-, hval⟩ := (hs.entry key (h.vals i)).mp ⟨i, hi, rfl⟩
    simp [hashGet, hget, Nat.ne_of_lt hi.1.1, hval]
  · have hnot : key ∉ keys := by
      intro hmem
      obtain ⟨i, hi, -⟩ := (hs.entry key (f key)).mpr ⟨hmem, rfl⟩
      exact habsent i hi
    simp [hashGet, hget, hs.unset key hnot]

/-- **A set of a new key** sets the map. -/
theorem Shows.set_new (hs : Shows hash h f keys) (hnew : key ∉ keys)
    (hroom : keys.length < 2 ^ 31) (val : Option P) :
    ∃ h', hashSet hash h key val = some h'
      ∧ Shows hash h' (Function.update f key val) (keys ++ [key]) := by
  have hnone : ∀ v, ¬ h.Entry key v := fun v hv => hnew ((hs.entry key v).mp hv).1
  obtain ⟨g, x, hput, hwf, hsize, hentry⟩ := hs.wf.put_new (hs.size ▸ hroom) hnone
  refine ⟨g.setValue x val, by simp [hashSet, hput], setValue_wf hwf, ?_, ?_, ?_, ?_⟩
  · intro key' val'
    rw [hentry, hs.entry, List.mem_append, List.mem_singleton]
    rcases decEq key' key with hne | rfl
    · simp [hne]
    · simp [hnew]
  · intro key' hnot
    rw [List.mem_append, List.mem_singleton, not_or] at hnot
    rw [Function.update_of_ne hnot.2]
    exact hs.unset key' hnot.1
  · rw [List.length_append, List.length_singleton, ← hs.size]
    exact hsize
  · exact List.nodup_append.mpr ⟨hs.nodup, List.nodup_singleton key, fun a ha b hb => by
      rw [List.mem_singleton.mp hb]
      rintro rfl
      exact hnew ha⟩

/-- **A set of a key that was set**, or of one more than fit, fails. -/
theorem Shows.set_refused (hs : Shows hash h f keys) (val : Option P)
    (hcase : key ∈ keys ∨ keys.length = 2 ^ 31) : hashSet hash h key val = none := by
  obtain ⟨g, x, hput⟩ : ∃ g x, h.put hash key = some (g, x, 0) := hs.wf.put_refused
    (hcase.imp (fun hmem => ⟨f key, (hs.entry key (f key)).mpr ⟨hmem, rfl⟩⟩) (hs.size.trans ·))
  simp [hashSet, hput]

end Shows

/-! ## Runs -/

theorem setKeys_cons_set (key : K) (val : Option P) (ops : List (Op K P)) :
    setKeys (.set key val :: ops) = key :: setKeys ops := rfl

theorem setKeys_cons_get (key : K) (ops : List (Op K P)) :
    setKeys (.get key :: ops) = setKeys ops := rfl

theorem Once.of_prefix {ops pre : List (Op K P)} (h : Once ops) (hpre : pre <+: ops) :
    Once pre := by
  have hsub : (setKeys pre).Sublist (setKeys ops) := hpre.sublist.filterMap _
  exact ⟨h.1.sublist hsub, Nat.le_trans hsub.length_le h.2⟩

section Runs

variable [DecidableEq K] {hash : K → UInt32} {h : Khash K (Option P)} {f : K → Option P}
  {keys : List K}

/-- The two functions for keys with a hash. -/
def api (hash : K → UInt32) (P : Type) : Api K P := ⟨hashSet hash, hashGet hash⟩

/-- **Sets of new keys** go through and leave the map of the last values. -/
theorem run_shows : ∀ (ops : List (Op K P)) {h : Khash K (Option P)} {f : K → Option P}
    {keys : List K}, Shows hash h f keys → (keys ++ setKeys ops).Nodup →
    (keys ++ setKeys ops).length ≤ 2 ^ 31 →
    ∃ h', run (api hash P).call h ops = some h'
      ∧ Shows hash h' (ops.foldl callMap f) (keys ++ setKeys ops) := by
  intro ops
  induction ops with
  | nil =>
    intro h f keys hs _ _
    exact ⟨h, rfl, by simpa [setKeys] using hs⟩
  | cons op ops ih =>
    intro h f keys hs hnodup hlen
    cases op with
    | get key =>
      have hcall : (api hash P).call h (.get key) = some h := by
        simp [Api.call, api, hs.get_eq key]
      rw [setKeys_cons_get] at hnodup hlen ⊢
      obtain ⟨h', hrun, hs'⟩ := ih hs hnodup hlen
      exact ⟨h', by rw [run, hcall]; exact hrun, hs'⟩
    | set key val =>
      rw [setKeys_cons_set] at hnodup hlen ⊢
      have hnew : key ∉ keys := by
        intro hmem
        have hsplit := List.nodup_append.mp hnodup
        exact hsplit.2.2 key hmem key (List.mem_cons_self ..) rfl
      have hroom : keys.length < 2 ^ 31 := by
        rw [List.length_append, List.length_cons] at hlen
        omega
      obtain ⟨h₁, hset, hs₁⟩ := hs.set_new hnew hroom val
      have happend : keys ++ key :: setKeys ops = keys ++ [key] ++ setKeys ops := by simp
      rw [happend] at hnodup hlen ⊢
      obtain ⟨h', hrun, hs'⟩ := ih hs₁ hnodup hlen
      refine ⟨h', ?_, hs'⟩
      rw [run, show (api hash P).call h (.set key val) = some h₁ from hset]
      exact hrun

/-- **Calls that go through** set no key twice. -/
theorem once_of_run : ∀ (ops : List (Op K P)) {h h' : Khash K (Option P)} {f : K → Option P}
    {keys : List K}, Shows hash h f keys → run (api hash P).call h ops = some h' →
    (keys ++ setKeys ops).Nodup ∧ (keys ++ setKeys ops).length ≤ 2 ^ 31 := by
  intro ops
  induction ops with
  | nil =>
    intro h h' f keys hs _
    have hle := hs.wf.size_le_max
    rw [hs.size] at hle
    simpa [setKeys] using And.intro hs.nodup hle
  | cons op ops ih =>
    intro h h' f keys hs hrun
    obtain ⟨h₁, hcall, hrest⟩ := run_cons_some hrun
    cases op with
    | get key =>
      have hsame : (api hash P).call h (.get key) = some h := by
        simp [Api.call, api, hs.get_eq key]
      obtain rfl : h = h₁ := Option.some.inj (hsame.symm.trans hcall)
      exact ih hs hrest
    | set key val =>
      have hset : hashSet hash h key val = some h₁ := hcall
      have hfine : ¬ (key ∈ keys ∨ keys.length = 2 ^ 31) := by
        intro hcase
        rw [hs.set_refused val hcase] at hset
        cases hset
      rw [not_or] at hfine
      have hle := hs.wf.size_le_max
      rw [hs.size] at hle
      obtain ⟨h₂, hset', hs₂⟩ := hs.set_new hfine.1 (Nat.lt_of_le_of_ne hle hfine.2) val
      obtain rfl : h₂ = h₁ := Option.some.inj (hset'.symm.trans hset)
      rw [setKeys_cons_set]
      simpa using ih hs₂ hrest

/-- The calls are those of a map just where each key is set once. -/
theorem isMap_iff_once (keys : Nat → K) (vals : Nat → Option P) (ops : List (Op K P)) :
    (∀ pre, pre <+: ops → IsMap (api hash P) (khInit keys vals) pre) ↔ Once ops := by
  have hinit := shows_init hash keys vals
  constructor
  · intro hmap
    obtain ⟨h, hrun, -⟩ := hmap ops (List.prefix_refl ops)
    exact once_of_run ops hinit hrun
  · intro honce pre hpre
    have hpre' := honce.of_prefix hpre
    obtain ⟨h, hrun, hs⟩ := run_shows pre hinit hpre'.1 hpre'.2
    exact ⟨h, hrun, fun key => hs.get_eq key⟩

end Runs

/-- **The hashes are maps** exactly as long as no key is set twice, and no more
keys than the largest table holds. -/
theorem hashMap_iff {P : Type} :
    (∀ (keys : Nat → UInt32) (vals : Nat → Option P) (ops : List (Op UInt32 P)),
      (∀ pre, pre <+: ops → IsMap (intApi P) (khInit keys vals) pre) ↔ Once ops)
    ∧ ∀ (ofChar : UInt8 → UInt32) (keys : Nat → CString) (vals : Nat → Option P)
      (ops : List (Op CString P)),
      (∀ pre, pre <+: ops → IsMap (strApi ofChar P) (khInit keys vals) pre) ↔ Once ops :=
  ⟨isMap_iff_once, fun _ => isMap_iff_once⟩

/-- A key that is set again. -/
def settingAgain : List (Op UInt32 Nat) := [.set 7 (some 1), .set 7 (some 2)]

/-- The second set of a key fails its assertion. -/
theorem settingAgain_fails :
    run (intApi Nat).call (khInit (fun _ => 0) fun _ => none) settingAgain = none
      ∧ ¬ ∀ ops : List (Op UInt32 Nat),
        IsMap (intApi Nat) (khInit (fun _ => 0) fun _ => none) ops := by
  have hnone : run (intApi Nat).call (khInit (fun _ => 0) fun _ => none) settingAgain = none := by
    decide +kernel
  refine ⟨hnone, fun h => ?_⟩
  obtain ⟨h', hrun, -⟩ := h settingAgain
  rw [hnone] at hrun
  cases hrun

end HashMap

end Ats
