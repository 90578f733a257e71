import Mathlib.Data.Finmap
import Ats.Base.KhashDel
import Ats.Lib.CallRun

/-!
# Khash: a finite map

Any sequence of puts, look-ups, deletions, clearings and resizes is that of a
finite map. The table takes room for the keys that it holds at one time, not
for those that it ever held.
-/

namespace Ats

open CallRun Khash

namespace KhashMap

variable {K V : Type}

/-- What a client does. -/
inductive Op (K V : Type) where
  /-- `kh_put`, and the value written -/
  | put (key : K) (val : V)
  /-- `kh_get`, and the value read -/
  | get (key : K)
  /-- `kh_get`, and `kh_del` of what it found -/
  | del (key : K)
  | clear
  | resize (newBuckets : Nat)
  | size
deriving DecidableEq, Repr

inductive Result (V : Type) where
  /-- whether `*ret` says that the key is new -/
  | isNew (b : Bool)
  | value (v : Option V)
  | done
  | count (n : Nat)
deriving DecidableEq, Repr

variable [DecidableEq K]

/-- A call on the table. -/
def Op.exec (hash : K → UInt32) (h : Khash K V) : Op K V → Option (Khash K V × Result V)
  | .put key val => do
      let (h, x, ret) ← h.put hash key
      some (h.setValue x val, .isNew (ret > 0))
  | .get key => do
      let x ← h.get hash key
      some (h, .value (if x = h.nBuckets then none else some (h.vals x)))
  | .del key => do
      let x ← h.get hash key
      some (h.del x, .done)
  | .clear => some (h.clear, .done)
  | .resize newBuckets => do
      let h ← h.resize hash newBuckets
      some (h, .done)
  | .size => some (h, .count h.size)

/-- The same call on a finite map of up to `limit` keys, in a table that is
asked for up to `bound` buckets. -/
def Op.onMap (limit bound : Nat) (m : Finmap fun _ : K => V) :
    Op K V → Option ((Finmap fun _ : K => V) × Result V)
  | .put key val =>
      if (m.lookup key).isSome ∨ m.keys.card < limit then
        some (m.insert key val, .isNew (m.lookup key).isNone)
      else none
  | .get key => some (m, .value (m.lookup key))
  | .del key => some (m.erase key, .done)
  | .clear => some (∅, .done)
  | .resize newBuckets => if newBuckets ≤ bound then some (m, .done) else none
  | .size => some (m, .count m.keys.card)

/-! ## One call -/

/-- The table holds the map. -/
structure Shows (hash : K → UInt32) (h : Khash K V) (m : Finmap fun _ : K => V) : Prop where
  sound : h.Sound hash
  stores : ∀ key val, h.Stores key val ↔ m.lookup key = some val

variable {hash : K → UInt32} {h h' : Khash K V} {m m' : Finmap fun _ : K => V} {key : K} {val : V}
  {op : Op K V} {r : Result V} {limit bound : Nat}

theorem Shows.init (keys : Nat → K) (vals : Nat → V) : Shows hash (khInit keys vals) ∅ where
  sound := (wf_init keys vals).sound
  stores := by
    intro key val
    rw [Finmap.lookup_empty]
    exact iff_of_false (fun ⟨i, hi, _⟩ => Nat.not_lt_zero i hi.1) (by simp)

theorem Shows.mem_iff (hs : Shows hash h m) : (∃ v, h.Stores key v) ↔ key ∈ m := by
  rw [Finmap.mem_iff]
  exact exists_congr fun v => hs.stores key v

theorem Shows.keys_mem {i : Nat} (hs : Shows hash h m) (hi : h.Holds i) : h.keys i ∈ m :=
  hs.mem_iff.mp ⟨h.vals i, i, hi, rfl, rfl⟩

theorem Shows.absent (hs : Shows hash h m) (hnot : key ∉ m) (i : Nat) (hi : h.Holds i) :
    h.keys i ≠ key := by
  rintro rfl
  exact hnot (hs.keys_mem hi)

/-- **`kh_size`** is the number of keys. -/
theorem Shows.size (hs : Shows hash h m) : h.size = m.keys.card := by
  rw [hs.sound.size]
  refine Finset.card_bij (fun i _ => h.keys i) ?_ ?_ ?_
  · intro i hi
    exact Finmap.mem_keys.mpr (hs.keys_mem (Finset.mem_filter.mp hi).2)
  · intro i hi j hj heq
    exact hs.sound.inj i j (Finset.mem_filter.mp hi).2 (Finset.mem_filter.mp hj).2 heq
  · intro key hkey
    obtain ⟨v, i, hi, hat, -⟩ := hs.mem_iff.mpr (Finmap.mem_keys.mp hkey)
    exact ⟨i, Finset.mem_filter.mpr ⟨Finset.mem_range.mpr hi.1, hi⟩, hat⟩

/-- **`kh_foreach`** goes over each key of the map once. -/
theorem Shows.entries (hs : Shows hash h m) :
    (h.entries.map Prod.fst).Nodup
      ∧ ∀ key val, (key, val) ∈ h.entries ↔ m.lookup key = some val := by
  have hexist : ∀ i, i ∈ (List.range h.nBuckets).filter h.exist ↔ h.Holds i := by
    intro i
    rw [List.mem_filter, List.mem_range, exist, Bool.not_eq_true']
    rfl
  constructor
  · rw [Khash.entries, List.map_map]
    refine List.Nodup.map_on ?_ (List.nodup_range.filter _)
    intro i hi j hj heq
    exact hs.sound.inj i j ((hexist i).mp hi) ((hexist j).mp hj) heq
  · intro key val
    rw [← hs.stores, Khash.entries, List.mem_map]
    constructor
    · rintro ⟨i, hi, heq⟩
      exact ⟨i, (hexist i).mp hi, congrArg Prod.fst heq, congrArg Prod.snd heq⟩
    · rintro ⟨i, hi, rfl, rfl⟩
      exact ⟨i, (hexist i).mpr hi, rfl⟩

/-- `kh_get` finds the bucket of a key of the map, or none. -/
theorem Shows.get_eq (hs : Shows hash h m) (key : K) :
    (∃ i, h.get hash key = some i ∧ h.Holds i ∧ h.keys i = key ∧ m.lookup key = some (h.vals i))
      ∨ h.get hash key = some h.nBuckets ∧ m.lookup key = none := by
  by_cases hmem : key ∈ m
  · obtain ⟨v, i, hi, hkey, rfl⟩ := hs.mem_iff.mpr hmem
    exact .inl ⟨i, hs.sound.get_of_holds hi hkey, hi, hkey, (hs.stores _ _).mp ⟨i, hi, hkey, rfl⟩⟩
  · exact .inr ⟨hs.sound.get_of_absent (hs.absent hmem), Finmap.lookup_eq_none.mpr hmem⟩

/-- **A put** goes through for a key of the map, or where there is room. -/
theorem Shows.put (hs : Shows hash h m) (val : V) (hcase : key ∈ m ∨ m.keys.card < 2 ^ 31) :
    ∃ h', (Op.put key val).exec hash h = some (h', .isNew (m.lookup key).isNone)
      ∧ Shows hash h' (m.insert key val)
      ∧ h'.nBuckets ≤ max h.nBuckets (max 4 (4 * m.keys.card)) := by
  obtain ⟨g, x, ret, hput, hret, hsound, hstores, hbound⟩ := hs.sound.put_spec val
    (hcase.imp hs.mem_iff.mpr fun hlt => hs.size ▸ hlt)
  refine ⟨g.setValue x val, ?_, ⟨hsound, fun key' val' => ?_⟩, hs.size ▸ hbound⟩
  · have hnew : decide (ret > 0) = (m.lookup key).isNone := by
      rw [Bool.eq_iff_iff, decide_eq_true_iff, Option.isNone_iff_eq_none, Finmap.lookup_eq_none]
      exact hret.trans (not_congr hs.mem_iff)
    rw [Op.exec, hput, ← hnew]
    rfl
  · rw [hstores, hs.stores]
    rcases decEq key' key with hne | rfl
    · simp [hne, Finmap.lookup_insert_of_ne]
    · simp [eq_comm]

/-- **A deletion** takes the key out of the map, where it is there. -/
theorem Shows.del (hs : Shows hash h m) (key : K) :
    ∃ h', (Op.del key).exec hash h = some (h', .done) ∧ Shows hash h' (m.erase key)
      ∧ h'.nBuckets = h.nBuckets := by
  have hlookup : ∀ key' val', (m.erase key).lookup key' = some val'
      ↔ m.lookup key' = some val' ∧ key' ≠ key := by
    intro key' val'
    rcases decEq key' key with hne | rfl
    · simp [hne, Finmap.lookup_erase_ne]
    · simp
  rcases hs.get_eq key with ⟨i, hget, hi, rfl, -⟩ | ⟨hget, hnone⟩
  · refine ⟨h.del i, by rw [Op.exec, hget]; rfl, ⟨hs.sound.del hi, fun key' val' => ?_⟩, ?_⟩
    · rw [hs.sound.stores_del hi, hs.stores, hlookup]
    · unfold Khash.del
      split <;> rfl
  · refine ⟨h, ?_, ⟨hs.sound, fun key' val' => ?_⟩, rfl⟩
    · rw [Op.exec, hget]
      show some (h.del h.nBuckets, _) = _
      rw [Khash.del, if_neg fun hc => hc.1 rfl]
    · rw [hs.stores, hlookup]
      refine ⟨fun hsome => ⟨hsome, ?_⟩, And.left⟩
      rintro rfl
      rw [hnone] at hsome
      cases hsome

/-- **Each call on the table** is the call on the map. -/
theorem Shows.exec (hlimit : limit ≤ 2 ^ 31) (hbound : bound < 2 ^ 32) (hs : Shows hash h m)
    (hcall : op.onMap limit bound m = some (m', r)) :
    ∃ h', op.exec hash h = some (h', r) ∧ Shows hash h' m' := by
  cases op with
  | put key val =>
      obtain ⟨hcase, hcall⟩ := Option.ite_none_right_eq_some.mp hcall
      cases hcall
      obtain ⟨h', hput, hs', -⟩ := hs.put val
        (hcase.imp Finmap.lookup_isSome.mp fun hlt => Nat.lt_of_lt_of_le hlt hlimit)
      exact ⟨h', hput, hs'⟩
  | get key =>
      cases hcall
      refine ⟨h, ?_, hs⟩
      rcases hs.get_eq key with ⟨i, hget, hi, -, hval⟩ | ⟨hget, hnone⟩
      · rw [Op.exec, hget, hval]
        exact congrArg (fun v => some (h, Result.value v)) (if_neg (Nat.ne_of_lt hi.1))
      · rw [Op.exec, hget, hnone]
        exact congrArg (fun v => some (h, Result.value v)) (if_pos rfl)
  | del key =>
      cases hcall
      obtain ⟨h', hdel, hs', -⟩ := hs.del key
      exact ⟨h', hdel, hs'⟩
  | clear =>
      cases hcall
      obtain ⟨hsound, hnone, -⟩ := hs.sound.clear
      refine ⟨h.clear, rfl, hsound, fun key val => ?_⟩
      rw [Finmap.lookup_empty]
      exact iff_of_false (hnone key val) (by simp)
  | resize newBuckets =>
      obtain ⟨hle, hcall⟩ := Option.ite_none_right_eq_some.mp hcall
      cases hcall
      obtain ⟨h', hrun, hsound, hsame, -⟩ := hs.sound.resize (Nat.lt_of_le_of_lt hle hbound)
      exact ⟨h', by rw [Op.exec, hrun]; rfl, hsound, fun key val =>
        (hsame.stores key val).trans (hs.stores key val)⟩
  | size =>
      cases hcall
      exact ⟨h, by rw [Op.exec, hs.size], hs⟩

/-! ## Runs -/

theorem Shows.calls (hlimit : limit ≤ 2 ^ 31) (hbound : bound < 2 ^ 32) (ops : List (Op K V))
    (hs : Shows hash h m) {rs : List (Result V)}
    (hmap : calls (Op.onMap limit bound) m ops = some (m', rs)) :
    ∃ h', calls (Op.exec hash) h ops = some (h', rs) ∧ Shows hash h' m' :=
  calls_simulated (fun _ _ _ _ _ hs hcall => hs.exec hlimit hbound hcall) ops hs hmap

/-- **A hash table is a finite map.** Every sequence of calls on a new table,
with deletions and resizes anywhere among them, returns what the map returns,
as long as there are at most `2 ^ 31` keys at a time; and `kh_foreach` goes
over each key of the map once, with its value. -/
theorem khashCalls_map (hash : K → UInt32) (keys : Nat → K) (vals : Nat → V) (ops : List (Op K V))
    {rs : List (Result V)} (hmap : calls (Op.onMap (2 ^ 31) (2 ^ 32 - 1)) ∅ ops = some (m, rs)) :
    ∃ h, calls (Op.exec hash) (khInit keys vals) ops = some (h, rs)
      ∧ (h.entries.map Prod.fst).Nodup
      ∧ ∀ key val, (key, val) ∈ h.entries ↔ m.lookup key = some val := by
  have hinit : Shows hash (khInit keys vals) ∅ := .init keys vals
  obtain ⟨h, hcalls, hs⟩ := hinit.calls (Nat.le_refl _) (by decide) ops hmap
  exact ⟨h, hcalls, hs.entries⟩

/-- A deleted key comes back, in a table that was resized. -/
theorem khashCalls_map_deleted :
    ∃ h, calls (Op.exec fun k : UInt32 => k) (khInit (fun _ => 0) fun _ => 0)
        [.put 3 10, .put 7 20, .del 3, .get 3, .resize 9, .put 3 30, .size]
        = some (h, [.isNew true, .isNew true, .done, .value none, .done, .isNew true, .count 2])
      ∧ (h.entries.map Prod.fst).Nodup
      ∧ ∀ key (val : Nat), (key, val) ∈ h.entries ↔
        (((((∅ : Finmap fun _ : UInt32 => Nat).insert 3 10).insert 7 20).erase 3).insert 3 30).lookup
          key = some val :=
  khashCalls_map (fun k => k) (fun _ => 0) (fun _ => 0) _ rfl

/-- **The largest table keeps a key that is put** exactly where it had the key,
or room for one more. Otherwise `kh_put` leaves the table as it is and answers
with the bucket of another key, whose value is overwritten. -/
theorem khashPut_kept_iff (hash : K → UInt32) (keys : Nat → K) (vals : Nat → V)
    (ops : List (Op K V)) {rs : List (Result V)}
    (hmap : calls (Op.onMap (2 ^ 31) (2 ^ 32 - 1)) ∅ ops = some (m, rs)) (key : K) (val : V) :
    ∃ h h' r, calls (Op.exec hash) (khInit keys vals) ops = some (h, rs)
      ∧ (Op.put key val).exec hash h = some (h', r)
      ∧ ((∀ key' val', h'.Stores key' val' ↔ (m.insert key val).lookup key' = some val')
        ↔ key ∈ m ∨ m.keys.card < 2 ^ 31)
      ∧ (key ∉ m → m.keys.card = 2 ^ 31 → ∃ x, h.put hash key = some (h, x, 0) ∧ h.Holds x
        ∧ h.keys x ≠ key ∧ h' = h.setValue x val) := by
  have hinit : Shows hash (khInit keys vals) ∅ := .init keys vals
  obtain ⟨h, hcalls, hs⟩ := hinit.calls (Nat.le_refl _) (by decide) ops hmap
  by_cases hcase : key ∈ m ∨ m.keys.card < 2 ^ 31
  · obtain ⟨h', hput, hs', -⟩ := hs.put val hcase
    refine ⟨h, h', _, hcalls, hput, iff_of_true hs'.stores hcase, fun hnot hfull => ?_⟩
    exact absurd hcase (not_or.mpr ⟨hnot, Nat.not_lt.mpr (Nat.le_of_eq hfull.symm)⟩)
  · obtain ⟨hnot, hfull⟩ := not_or.mp hcase
    have hsize : h.size = 2 ^ 31 := by
      have hmax := Nat.le_trans hs.sound.size_le_occupied
        (Nat.le_trans hs.sound.occupied_le hs.sound.nBuckets_le)
      rw [← hs.size] at hfull
      omega
    obtain ⟨x, hput, hx⟩ := hs.sound.put_full hsize (hs.absent hnot)
    refine ⟨h, h.setValue x val, _, hcalls, by rw [Op.exec, hput]; rfl, iff_of_false ?_ hcase,
      fun _ _ => ⟨x, hput, hx, hs.absent hnot x hx, rfl⟩⟩
    intro hkept
    obtain ⟨i, hi, hkey, -⟩ := (hkept key val).mpr (Finmap.lookup_insert m)
    exact hs.absent hnot i hi hkey

theorem khashPut_kept_iff_one :
    ∃ h h' r, calls (Op.exec fun k : UInt32 => k) (khInit (fun _ => 0) fun _ => 0) [.put 3 10]
        = some (h, [.isNew true])
      ∧ (Op.put 3 20).exec (fun k : UInt32 => k) h = some (h', r)
      ∧ ((∀ key' (val' : Nat), h'.Stores key' val' ↔
          (((∅ : Finmap fun _ : UInt32 => Nat).insert 3 10).insert 3 20).lookup key' = some val')
        ↔ 3 ∈ (∅ : Finmap fun _ : UInt32 => Nat).insert 3 10
          ∨ ((∅ : Finmap fun _ : UInt32 => Nat).insert 3 10).keys.card < 2 ^ 31)
      ∧ (3 ∉ (∅ : Finmap fun _ : UInt32 => Nat).insert 3 10 →
        ((∅ : Finmap fun _ : UInt32 => Nat).insert 3 10).keys.card = 2 ^ 31 →
        ∃ x, h.put (fun k : UInt32 => k) 3 = some (h, x, 0) ∧ h.Holds x ∧ h.keys x ≠ 3
          ∧ h' = h.setValue x 20) :=
  khashPut_kept_iff (fun k => k) (fun _ => 0) (fun _ => 0) _ rfl 3 20

/-! ## The size of the table -/

/-- The table holds the map, of up to `limit` keys, in as many buckets as that
takes. -/
structure Within (hash : K → UInt32) (limit bound : Nat) (h : Khash K V)
    (m : Finmap fun _ : K => V) : Prop extends Shows hash h m where
  card : m.keys.card ≤ limit
  nBuckets : h.nBuckets ≤ max bound (4 * limit)

theorem keys_insert (m : Finmap fun _ : K => V) (key : K) (val : V) :
    (m.insert key val).keys = insert key m.keys := by
  ext key'
  rw [Finmap.mem_keys, Finmap.mem_insert, Finset.mem_insert, Finmap.mem_keys]

theorem Within.exec {j : Nat} (hlimit : limit ≤ 2 ^ 31) (h2 : 2 ≤ j) (hj : j ≤ 31)
    (hw : Within hash limit (2 ^ j) h m) (hcall : op.onMap limit (2 ^ j) m = some (m', r)) :
    ∃ h', op.exec hash h = some (h', r) ∧ Within hash limit (2 ^ j) h' m' := by
  have hfour : 2 ^ 2 ≤ 2 ^ j := Nat.pow_le_pow_right (by decide) h2
  have hcap : 2 ^ j ≤ 2 ^ 31 := Nat.pow_le_pow_right (by decide) hj
  have hcard := hw.card
  have hn := hw.nBuckets
  obtain ⟨h', hexec, hs'⟩ := hw.toShows.exec hlimit (show 2 ^ j < 2 ^ 32 by omega) hcall
  refine ⟨h', hexec, hs', ?_, ?_⟩
  · cases op with
    | put key val =>
        obtain ⟨hcase, hcall⟩ := Option.ite_none_right_eq_some.mp hcall
        cases hcall
        rw [keys_insert]
        rcases hcase with hmem | hlt
        · rw [Finset.insert_eq_of_mem (Finmap.mem_keys.mpr (Finmap.lookup_isSome.mp hmem))]
          exact hcard
        · exact Nat.le_trans (Finset.card_insert_le _ _) hlt
    | del key =>
        cases hcall
        rw [Finmap.keys_erase]
        exact Nat.le_trans (Finset.card_erase_le) hcard
    | resize newBuckets =>
        cases (Option.ite_none_right_eq_some.mp hcall).2
        exact hcard
    | clear =>
        cases hcall
        exact Nat.zero_le _
    | _ =>
        cases hcall
        exact hcard
  · cases op with
    | put key val =>
        obtain ⟨hcase, hcall⟩ := Option.ite_none_right_eq_some.mp hcall
        obtain ⟨h₁, hput, -, hgrown⟩ := hw.toShows.put val
          (hcase.imp Finmap.lookup_isSome.mp fun hlt => Nat.lt_of_lt_of_le hlt hlimit)
        obtain rfl : h' = h₁ := congrArg Prod.fst (Option.some.inj (hexec.symm.trans hput))
        omega
    | del key =>
        obtain ⟨h₁, hdel, -, hsame⟩ := hw.toShows.del key
        obtain rfl : h' = h₁ := congrArg Prod.fst (Option.some.inj (hexec.symm.trans hdel))
        omega
    | resize newBuckets =>
        obtain ⟨hle, -⟩ := Option.ite_none_right_eq_some.mp hcall
        obtain ⟨h₁, hrun, -, -, hgrown⟩ := hw.sound.resize (show newBuckets < 2 ^ 32 by omega)
        have hexec' : Op.exec hash h (.resize newBuckets) = some (h₁, .done) := by
          rw [Op.exec, hrun]
          rfl
        obtain rfl : h' = h₁ := congrArg Prod.fst (Option.some.inj (hexec.symm.trans hexec'))
        have hbound := hgrown j h2 hj hle
        omega
    | clear =>
        cases hexec
        rw [(hw.sound.clear).2.2]
        exact hn
    | get key =>
        rcases hw.get_eq key with ⟨i, hget, -⟩ | ⟨hget, -⟩
        all_goals
          rw [Op.exec, hget] at hexec
          cases hexec
          exact hn
    | size =>
        cases hexec
        exact hn

/-- **A hash table is no larger than its keys.** While it never holds more than
`limit` keys at a time, and is not asked for more than `2 ^ j` buckets, it has no
more than that, or four for each key, however many were put and deleted. -/
theorem khashCalls_buckets {j : Nat} (hlimit : limit ≤ 2 ^ 31) (h2 : 2 ≤ j) (hj : j ≤ 31)
    (hash : K → UInt32) (keys : Nat → K) (vals : Nat → V) (ops : List (Op K V))
    {rs : List (Result V)} (hmap : calls (Op.onMap limit (2 ^ j)) ∅ ops = some (m, rs)) :
    ∃ h, calls (Op.exec hash) (khInit keys vals) ops = some (h, rs)
      ∧ h.nBuckets ≤ max (2 ^ j) (4 * limit) := by
  have hinit : Within hash limit (2 ^ j) (khInit keys vals) ∅ :=
    ⟨.init keys vals, Nat.zero_le _, Nat.zero_le _⟩
  obtain ⟨h, hcalls, hw⟩ := calls_simulated
    (fun _ _ _ _ _ hw hcall => hw.exec hlimit h2 hj hcall) ops hinit hmap
  exact ⟨h, hcalls, hw.nBuckets⟩

/-- One key at a time, after another. -/
theorem khashCalls_buckets_one :
    ∃ h : Khash UInt32 Nat, calls (Op.exec fun k : UInt32 => k)
        (khInit (fun _ => 0) fun _ => 0) [.put 3 10, .del 3, .put 4 20, .del 4, .put 5 30, .size]
        = some (h, [.isNew true, .done, .isNew true, .done, .isNew true, .count 1])
      ∧ h.nBuckets ≤ max (2 ^ 2) (4 * 1) :=
  khashCalls_buckets (by decide) (Nat.le_refl 2) (by decide) (fun k => k) (fun _ => 0)
    (fun _ => 0) _ rfl


end KhashMap

end Ats
