import Ats.Base.KhashInv
import Ats.Base.Queue
import Ats.Lib.GuardedRun

/-!
# Lists in a hash table: `hash.c`

The heads of the lists are the values of a table and hold their own
addresses, those of the buckets they were made in. A value that the table
moves takes the old address along.
-/

namespace Ats

open Khash GuardedRun

/-! ## Keys -/

/-- `kh_int_hash_func` -/
def intHash (key : UInt32) : UInt32 := key

/-- The characters of a C string, none of them NUL. -/
def CString : Type := {s : List UInt8 // 0 ∉ s}

instance : DecidableEq CString := inferInstanceAs (DecidableEq {s : List UInt8 // 0 ∉ s})

/-- `__ac_X31_hash_string`, where `ofChar` converts a `char`. -/
def x31Hash (ofChar : UInt8 → UInt32) : List UInt8 → UInt32
  | [] => 0
  | c :: s =>
    let h := ofChar c
    if h ≠ 0 then s.foldl (fun h c => (h <<< 5) - h + ofChar c) h else h

/-- `kh_str_hash_func` -/
def strHash (ofChar : UInt8 → UInt32) (key : CString) : UInt32 := x31Hash ofChar key.val

/-! ## Calls -/

/-- Where a head or a caller's node is: a bucket of the table or a node. -/
inductive Addr (N : Type) where
  | bucket (j : Nat)
  | node (n : N)
deriving DecidableEq, Repr

/-- `ats_list_ihash_t` and `ats_list_shash_t`, and the nodes of the callers. -/
structure ListHash (K N : Type) where
  hash : Khash K (Queue (Addr N))
  nodes : N → Queue (Addr N)

namespace ListHash

variable {K N : Type}

/-- The memory of heads and nodes. -/
def mem (s : ListHash K N) : Addr N → Queue (Addr N)
  | .bucket j => s.hash.vals j
  | .node n => s.nodes n

/-- The same table and nodes with other memory. -/
def withMem (s : ListHash K N) (m : Addr N → Queue (Addr N)) : ListHash K N :=
  ⟨{ s.hash with vals := fun j => m (.bucket j) }, fun n => m (.node n)⟩

@[simp] theorem mem_withMem (s : ListHash K N) (m : Addr N → Queue (Addr N)) :
    (s.withMem m).mem = m := by
  funext a
  cases a <;> rfl

@[simp] theorem withMem_has (s : ListHash K N) (m : Addr N → Queue (Addr N)) {key : K} {i : Nat} :
    (s.withMem m).hash.Has key i ↔ s.hash.Has key i := Iff.rfl

theorem withMem_wf {s : ListHash K N} {hash : K → UInt32} (m : Addr N → Queue (Addr N))
    (hw : s.hash.Wf hash) : (s.withMem m).hash.Wf hash :=
  ⟨hw.buckets, hw.del, hw.occupied, hw.load, hw.size, hw.reach, hw.inj⟩

/-- A call of the caller: a look-up, or a look-up and a macro on the list. -/
inductive Op (K N : Type) where
  | lookup (key : K)
  | insertTail (key : K) (n : N)
  | remove (key : K) (n : N)
deriving DecidableEq, Repr

def Op.key : Op K N → K
  | .lookup key | .insertTail key _ | .remove key _ => key

section Calls

variable [DecidableEq K] [DecidableEq N] (hash : K → UInt32)

/-- `int_hash_get_list` and `str_hash_get_list`; no list is `NULL`. -/
def getList (s : ListHash K N) (key : K) : Option (Option (Addr N)) := do
  let iter ← s.hash.get hash key
  some (if iter = s.hash.nBuckets then none else some (.bucket iter))

/-- `int_hash_get_or_create_list` and `str_hash_get_or_create_list`; `none`
where the assertion fails. -/
def getOrCreateList (s : ListHash K N) (key : K) : Option (ListHash K N × Addr N) := do
  let iter ← s.hash.get hash key
  if iter = s.hash.nBuckets then do
    let (h, iter, ret) ← s.hash.put hash key
    if ret > 0 then
      let s : ListHash K N := { s with hash := h }
      some (s.withMem (Queue.init s.mem (.bucket iter)), .bucket iter)
    else none
  else some (s, .bucket iter)

/-- The macro after the look-up. -/
def act (s : ListHash K N) (list : Addr N) : Op K N → ListHash K N
  | .lookup _ => s
  | .insertTail _ n => s.withMem (Queue.insertTail s.mem list (.node n))
  | .remove _ n => s.withMem (Queue.remove s.mem (.node n))

end Calls

/-! ## Runs -/

/-- A table beside what its lists should be: the nodes inserted and not
removed for each key, and the keys that were used. -/
structure Calls (K N : Type) where
  table : ListHash K N
  members : K → List N
  used : List K

variable {hash : K → UInt32}

/-- The lists are what they should be. -/
structure Calls.Inv (hash : K → UInt32) (c : Calls K N) : Prop where
  table : c.table.hash.Wf hash
  used : ∀ key, key ∈ c.used ↔ ∃ i, c.table.hash.Has key i
  list : ∀ key i, c.table.hash.Has key i →
    Queue.IsList c.table.mem (.bucket i) ((c.members key).map .node)
  apart : ∀ key key' n, n ∈ c.members key → n ∈ c.members key' → key = key'
  unused : ∀ key, key ∉ c.used → c.members key = []

/-- A new table, over memory with any contents. -/
def start (keys : Nat → K) (vals : Nat → Queue (Addr N)) (nodes : N → Queue (Addr N)) :
    Calls K N :=
  ⟨⟨khInit keys vals, nodes⟩, fun _ => [], []⟩

theorem inv_start (keys : Nat → K) (vals : Nat → Queue (Addr N)) (nodes : N → Queue (Addr N)) :
    (start keys vals nodes).Inv hash where
  table := wf_init keys vals
  used := by simp [start, Has, Live, khInit]
  list := fun _ _ h => absurd h.1.1 (Nat.not_lt_zero _)
  apart := by simp [start]
  unused := fun _ _ => rfl

/-- Lists of different keys have no address in common. -/
theorem Calls.Inv.disjoint {c : Calls K N} (hi : c.Inv hash) {key key' : K} {i i' : Nat}
    (hhas : c.table.hash.Has key i) (hhas' : c.table.hash.Has key' i') (hne : key' ≠ key)
    {a : Addr N} (ha : a ∈ Addr.bucket i' :: (c.members key').map .node) :
    a ∉ Addr.bucket i :: (c.members key).map .node := by
  intro hmem
  rcases a with j | n
  · have hj : j = i ∧ j = i' := by simpa using And.intro hmem ha
    obtain ⟨rfl, rfl⟩ := hj
    exact hne (hhas'.2.symm.trans hhas.2)
  · have hn : n ∈ c.members key ∧ n ∈ c.members key' := by simpa using And.intro hmem ha
    exact hne (hi.apart key' key n hn.2 hn.1)

variable [DecidableEq K] [DecidableEq N]

def membersAfter (members : K → List N) : Op K N → K → List N
  | .lookup _ => members
  | .insertTail key n => Function.update members key (members key ++ [n])
  | .remove key n => Function.update members key ((members key).erase n)

/-- A call. -/
def step (hash : K → UInt32) (c : Calls K N) (op : Op K N) : Option (Calls K N) := do
  let (s, list) ← c.table.getOrCreateList hash op.key
  some ⟨s.act list op, membersAfter c.members op, op.key :: c.used⟩

/-- The callers insert nodes that are in no list, and remove nodes that are in
the list. -/
def Proper (c : Calls K N) : Op K N → Prop
  | .lookup _ => True
  | .insertTail _ n => ∀ key ∈ c.used, n ∉ c.members key
  | .remove key n => n ∈ c.members key

/-- A new key makes the table grow in place if at all. -/
def GrowsInPlace (hash : K → UInt32) (c : Calls K N) (op : Op K N) : Prop :=
  op.key ∉ c.used → c.table.hash.Room hash

/-- A new key takes an empty list of its own. -/
theorem Calls.Inv.create {c : Calls K N} (hi : c.Inv hash) {key : K} (hnew : key ∉ c.used)
    (hroom : c.table.hash.Room hash) :
    ∃ s i, c.table.getOrCreateList hash key = some (s, .bucket i) ∧ s.hash.Has key i
      ∧ Calls.Inv hash ⟨s, c.members, key :: c.used⟩ := by
  have habsent : ∀ i, ¬ c.table.hash.Has key i := fun i h => hnew ((hi.used key).mpr ⟨i, h⟩)
  have hget := hi.table.get_of_absent habsent (hi.table.size_lt_buckets hroom.size_lt)
  obtain ⟨h, x, hput, hwf, hfree, hvals, hhas⟩ := hi.table.put_of_absent hroom habsent
  have hmem : mem ⟨h, c.table.nodes⟩ = c.table.mem := by
    funext a
    cases a with
    | bucket j => exact congrFun hvals j
    | node n => rfl
  refine ⟨withMem ⟨h, c.table.nodes⟩ (Queue.init c.table.mem (.bucket x)), x, ?_,
    (hhas key x).mpr (Or.inl ⟨rfl, rfl⟩), ?_⟩
  · simp [ListHash.getOrCreateList, hget, hput, hmem]
  refine ⟨withMem_wf _ hwf, ?_, ?_, hi.apart, ?_⟩
  · intro key'
    change key' ∈ key :: c.used ↔ ∃ i, h.Has key' i
    rw [List.mem_cons, hi.used]
    constructor
    · rintro (rfl | ⟨i, hk⟩)
      · exact ⟨x, (hhas key' x).mpr (Or.inl ⟨rfl, rfl⟩)⟩
      · exact ⟨i, (hhas key' i).mpr (Or.inr hk)⟩
    · rintro ⟨i, hk⟩
      rcases (hhas key' i).mp hk with ⟨-, rfl⟩ | hk
      · exact Or.inl rfl
      · exact Or.inr ⟨i, hk⟩
  · intro key' i hk
    simp only [mem_withMem]
    rcases (hhas key' i).mp hk with ⟨rfl, rfl⟩ | hk
    · rw [hi.unused key hnew]
      exact Queue.isList_init _ _
    · refine (hi.list key' i hk).congr fun a ha => Queue.init_of_ne ?_
      rintro rfl
      -- a new bucket is none of those in use
      obtain rfl : x = i := by simpa using ha
      exact hfree hk.1
  · exact fun key' hk => hi.unused key' fun hu => hk (List.mem_cons_of_mem _ hu)

/-- **The list that is returned**: found, or made and empty. -/
theorem Calls.Inv.getOrCreateList {c : Calls K N} (hi : c.Inv hash) {key : K}
    (hroom : key ∉ c.used → c.table.hash.Room hash) :
    ∃ s i, c.table.getOrCreateList hash key = some (s, .bucket i) ∧ s.hash.Has key i
      ∧ Calls.Inv hash ⟨s, c.members, key :: c.used⟩ := by
  by_cases hused : key ∈ c.used
  · obtain ⟨i, hhas⟩ := (hi.used key).mp hused
    have hne : i ≠ c.table.hash.nBuckets := Nat.ne_of_lt hhas.1.1
    refine ⟨c.table, i, ?_, hhas, hi.table, ?_, hi.list, hi.apart, ?_⟩
    · simp [ListHash.getOrCreateList, hi.table.get_of_has hhas, hne]
    · intro key'
      rw [← hi.used, List.mem_cons, or_iff_right_of_imp]
      rintro rfl
      exact hused
    · exact fun key' hk => hi.unused key' fun hu => hk (List.mem_cons_of_mem _ hu)
  · exact hi.create hused (hroom hused)

/-- One list is changed, to have members that no other list has. -/
theorem Calls.Inv.replace {c : Calls K N} {key : K} {i : Nat} {ns : List N}
    {m : Addr N → Queue (Addr N)} (hi : c.Inv hash) (hhas : c.table.hash.Has key i)
    (hlist : Queue.IsList m (.bucket i) (ns.map .node))
    (hframe : ∀ a, a ∉ Addr.bucket i :: (c.members key).map .node → a ∉ ns.map .node →
      m a = c.table.mem a)
    (hfresh : ∀ n ∈ ns, n ∉ c.members key → ∀ key', n ∉ c.members key') :
    Calls.Inv hash ⟨c.table.withMem m, Function.update c.members key ns, c.used⟩ := by
  -- a node of the changed list is in no other one
  have hother : ∀ n ∈ ns, ∀ key', n ∈ c.members key' → key' = key := by
    intro n hn key' hn'
    by_cases hold : n ∈ c.members key
    · exact hi.apart key' key n hn' hold
    · exact absurd hn' (hfresh n hn hold key')
  refine ⟨withMem_wf m hi.table, hi.used, ?_, ?_, ?_⟩
  · intro key' i' hhas'
    simp only [mem_withMem]
    rcases decEq key' key with hne | rfl
    · rw [Function.update_of_ne hne]
      refine (hi.list key' i' hhas').congr fun a ha => hframe a (hi.disjoint hhas hhas' hne ha) ?_
      intro hmem
      obtain ⟨n, hn, rfl⟩ := List.mem_map.mp hmem
      exact hne (hother n hn key' (by simpa using ha))
    · rw [Function.update_self, Has.unique hi.table hhas' hhas]
      exact hlist
  · intro key₁ key₂ n h₁ h₂
    simp only [Function.update_apply] at h₁ h₂
    split at h₁ <;> split at h₂
    · simp_all
    · exact (‹key₁ = key›).trans (hother n h₁ key₂ h₂).symm
    · exact (hother n h₂ key₁ h₁).trans (‹key₂ = key›).symm
    · exact hi.apart key₁ key₂ n h₁ h₂
  · intro key' hunused
    have hne : key' ≠ key := fun heq => hunused (heq ▸ (hi.used key).mpr ⟨i, hhas⟩)
    exact (Function.update_of_ne hne _ _).trans (hi.unused key' hunused)

/-- **The macro on the list** that was returned. -/
theorem Calls.Inv.act {c : Calls K N} {i : Nat} {op : Op K N} (hi : c.Inv hash)
    (hhas : c.table.hash.Has op.key i) (hproper : Proper c op) :
    Calls.Inv hash ⟨c.table.act (.bucket i) op, membersAfter c.members op, c.used⟩ := by
  have hlist := hi.list op.key i hhas
  cases op with
  | lookup key => exact hi
  | insertTail key n =>
    have hnone : ∀ key', n ∉ c.members key' := by
      intro key' hn
      by_cases hused : key' ∈ c.used
      · exact hproper key' hused hn
      · rw [hi.unused key' hused] at hn
        cases hn
    have hn : Addr.node n ∉ Addr.bucket i :: (c.members key).map .node := by
      simpa using hnone key
    refine hi.replace hhas ?_ ?_ ?_
    · rw [List.map_append]
      exact hlist.insertTail hn
    · intro a ha han
      exact hlist.insertTail_of_not_mem ha fun heq => han (by simp [heq])
    · intro n' hn' hold
      rcases List.mem_append.mp hn' with h | h
      · exact absurd h hold
      · rw [List.mem_singleton.mp h]
        exact hnone
  | remove key n =>
    have hmem : n ∈ c.members key := hproper
    refine hi.replace hhas ?_ ?_ ?_
    · obtain ⟨ms, ls, -, hsplit, herase⟩ := List.exists_erase_eq hmem
      change Queue.IsList _ _ ((c.members key).map Addr.node) at hlist
      rw [hsplit, List.map_append, List.map_cons] at hlist
      rw [herase, List.map_append]
      exact hlist.remove
    · intro a ha _
      exact hlist.remove_of_not_mem (List.mem_map_of_mem hmem) ha
    · exact fun n' hn' hold => absurd (List.mem_of_mem_erase hn') hold

/-- **A call** by a proper caller that grows the table in place if at all. -/
theorem Calls.Inv.step {c : Calls K N} {op : Op K N} (hi : c.Inv hash) (hproper : Proper c op)
    (hgrows : GrowsInPlace hash c op) :
    ∃ c', step hash c op = some c' ∧ c'.Inv hash := by
  obtain ⟨s, i, hcall, hhas, hi'⟩ := hi.getOrCreateList hgrows
  have hproper' : Proper ⟨s, c.members, op.key :: c.used⟩ op := by
    cases op with
    | lookup key => trivial
    | remove key n => exact hproper
    | insertTail key n =>
      intro key' hused hn
      by_cases hold : key' ∈ c.used
      · exact hproper key' hold hn
      · rw [hi.unused key' hold] at hn
        cases hn
  refine ⟨_, ?_, hi'.act hhas hproper'⟩
  simp [ListHash.step, hcall]

/-- The list for a key: well-formed, headed at its address, of the members. -/
def IsListFor (c : Calls K N) (s : ListHash K N) (list : Addr N) (key : K) : Prop :=
  Queue.IsList s.mem list ((c.members key).map .node)

/-- **The lists of a run are well formed**: each look-up returns one, empty for
a new key, and at the end there is one for each key that was used. -/
structure WellFormed (hash : K → UInt32) (c₀ : Calls K N) (ops : List (Op K N)) : Prop where
  returned : ∀ pre op post, ops = pre ++ op :: post →
    ∃ c s list, GuardedRun.run (step hash) c₀ pre = some c
      ∧ c.table.getOrCreateList hash op.key = some (s, list) ∧ IsListFor c s list op.key
      ∧ (op.key ∉ c.used → Queue.IsEmpty s.mem list)
  kept : ∃ c, GuardedRun.run (step hash) c₀ ops = some c ∧ ∀ key ∈ c.used, ∃ list,
    c.table.getList hash key = some (some list) ∧ IsListFor c c.table list key

/-- The two conditions on a call. -/
def Fit (hash : K → UInt32) (c : Calls K N) (op : Op K N) : Prop :=
  Proper c op ∧ GrowsInPlace hash c op

theorem wellFormed_of_guarded (hash : K → UInt32) (keys : Nat → K)
    (vals : Nat → Queue (Addr N)) (nodes : N → Queue (Addr N)) (ops : List (Op K N))
    (hfit : Guarded (step hash) (Fit hash) (start keys vals nodes) ops) :
    WellFormed hash (start keys vals nodes) ops := by
  have htotal : ∀ as, Guarded (step hash) (Fit hash) (start keys vals nodes) as →
      ∃ c, GuardedRun.run (step hash) (start keys vals nodes) as = some c ∧ c.Inv hash :=
    fun as has => Guarded.total (fun c op hi hop => hi.step hop.1 hop.2) as has
      (inv_start keys vals nodes)
  constructor
  · rintro pre op post rfl
    obtain ⟨hpre, hop⟩ := Guarded.split pre hfit
    obtain ⟨c, hrun, hi⟩ := htotal pre hpre
    obtain ⟨s, i, hcall, hhas, hi'⟩ := hi.getOrCreateList (hop c hrun).2
    have hlist := hi'.list op.key i hhas
    refine ⟨c, s, _, hrun, hcall, hlist, fun hnew => hlist.isEmpty_iff.mpr ?_⟩
    change (c.members op.key).map Addr.node = []
    rw [hi.unused op.key hnew]
    rfl
  · obtain ⟨c, hrun, hi⟩ := htotal ops hfit
    refine ⟨c, hrun, fun key hused => ?_⟩
    obtain ⟨i, hhas⟩ := (hi.used key).mp hused
    have hne : i ≠ c.table.hash.nBuckets := Nat.ne_of_lt hhas.1.1
    refine ⟨.bucket i, ?_, hi.list key i hhas⟩
    simp [getList, hi.table.get_of_has hhas, hne]

instance (c : Calls K N) : (op : Op K N) → Decidable (Proper c op)
  | .lookup _ => inferInstanceAs (Decidable True)
  | .insertTail _ n => inferInstanceAs (Decidable (∀ key ∈ c.used, n ∉ c.members key))
  | .remove key n => inferInstanceAs (Decidable (n ∈ c.members key))

instance (c : Calls K N) (op : Op K N) : Decidable (GrowsInPlace hash c op) :=
  inferInstanceAs (Decidable (_ → _))

instance (c : Calls K N) (op : Op K N) : Decidable (Fit hash c op) :=
  inferInstanceAs (Decidable (_ ∧ _))

/-- **Lists stored in a hash stay well formed** where every growth of the table
is in place, for integer and for string keys. -/
theorem hashLists_wellFormed {N : Type} [DecidableEq N] :
    (∀ (keys : Nat → UInt32) (vals : Nat → Queue (Addr N)) (nodes : N → Queue (Addr N))
      (ops : List (Op UInt32 N)),
      Guarded (step intHash) (Fit intHash) (start keys vals nodes) ops →
      WellFormed intHash (start keys vals nodes) ops)
    ∧ ∀ (ofChar : UInt8 → UInt32) (keys : Nat → CString) (vals : Nat → Queue (Addr N))
      (nodes : N → Queue (Addr N)) (ops : List (Op CString N)),
      Guarded (step (strHash ofChar)) (Fit (strHash ofChar)) (start keys vals nodes) ops →
      WellFormed (strHash ofChar) (start keys vals nodes) ops :=
  ⟨wellFormed_of_guarded intHash, fun ofChar => wellFormed_of_guarded (strHash ofChar)⟩

/-- A new table over zeroed memory. -/
def fresh (key : K) : Calls K Nat :=
  start (fun _ => key) (fun _ => ⟨.node 0, .node 0⟩) fun _ => ⟨.node 0, .node 0⟩

/-- Four keys, the last of which makes the table grow from four buckets to
eight, where the others stay. -/
def inPlace : List (Op UInt32 Nat) :=
  [.insertTail 1 10, .insertTail 2 20, .insertTail 1 11, .lookup 3, .remove 1 10, .lookup 5]

def oneString : List (Op CString Nat) :=
  [.insertTail ⟨"id".toList.map Char.toUInt8, by decide⟩ 10]

theorem hashLists_wellFormed_inPlace :
    WellFormed intHash (fresh 0) inPlace
      ∧ WellFormed (strHash fun c => c.toUInt32) (fresh ⟨[], by decide⟩) oneString :=
  ⟨hashLists_wellFormed.1 _ _ _ inPlace (by decide +kernel),
    hashLists_wellFormed.2 _ _ _ _ oneString (by decide +kernel)⟩

/-- The fourth of these keys moves key 4 from bucket 0 to bucket 4. -/
def moving : List (Op UInt32 Nat) := [.lookup 4, .lookup 1, .lookup 2, .lookup 3, .lookup 4]

/-- The head of the list for key 4 points to the bucket it was made in. -/
theorem hashLists_move :
    ((GuardedRun.run (step intHash) (fresh 0) (moving.take 4)).bind fun c =>
        (c.table.getOrCreateList intHash 4).map fun p => (p.2, (p.1.mem p.2).next))
      = some (.bucket 4, .bucket 0)
      ∧ ¬ ∀ ops : List (Op UInt32 Nat), Guarded (step intHash) Proper (fresh 0) ops →
        WellFormed intHash (fresh 0) ops := by
  have hmoved : ((GuardedRun.run (step intHash) (fresh 0) (moving.take 4)).bind fun c =>
      (c.table.getOrCreateList intHash 4).map fun p => (p.2, (p.1.mem p.2).next))
      = some (.bucket 4, .bucket 0) := by
    decide +kernel
  have hmembers : (GuardedRun.run (step intHash) (fresh 0) (moving.take 4)).map
      (fun c => c.members 4) = some [] := by
    decide +kernel
  refine ⟨hmoved, fun h => ?_⟩
  obtain ⟨c, s, list, hrun, hcall, hlist, -⟩ :=
    (h moving (by decide +kernel)).returned (moving.take 4) (.lookup 4) [] rfl
  rw [hrun] at hmoved hmembers
  change c.table.getOrCreateList intHash 4 = _ at hcall
  change Queue.IsList s.mem list ((c.members 4).map Addr.node) at hlist
  have hnone : c.members 4 = [] := Option.some.inj hmembers
  rw [hnone] at hlist
  simp only [Option.bind_some, hcall, Option.map_some, Option.some.injEq, Prod.mk.injEq] at hmoved
  have hempty := hlist.isEmpty_iff.mpr rfl
  rw [Queue.IsEmpty, hmoved.2, hmoved.1] at hempty
  exact absurd hempty (by decide)

end ListHash

end Ats
