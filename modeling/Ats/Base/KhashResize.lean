import Ats.Base.KhashInv

/-!
# Khash: growing with moves

`kh_resize` takes the entries out of the old table one by one. An entry that
goes to a bucket of the old table which still holds one takes its place, and
the one that was there is moved next.
-/

namespace Ats

open BitSmear Probing

namespace Khash

variable {K V : Type} {hash : K → UInt32} {n m size : Nat} {E : K → V → Prop}
  {r : Rehash K V} {hand : List (K × V)}

/-- A bucket of the old table, of `n` buckets, that still holds its entry. -/
def Rehash.Old (n : Nat) (r : Rehash K V) (i : Nat) : Prop :=
  i < n ∧ (r.flags i).either = false

/-- A bucket of the new table, of `m` buckets, that holds an entry. -/
def Rehash.New (m : Nat) (r : Rehash K V) (i : Nat) : Prop :=
  i < m ∧ (r.newFlags i).empty = false

instance (n : Nat) (r : Rehash K V) : DecidablePred (r.Old n) :=
  fun _ => inferInstanceAs (Decidable (_ ∧ _))

instance (m : Nat) (r : Rehash K V) : DecidablePred (r.New m) :=
  fun _ => inferInstanceAs (Decidable (_ ∧ _))

/-- The number of entries left in the old table. -/
def Rehash.oldCount (n : Nat) (r : Rehash K V) : Nat :=
  ((Finset.range n).filter (r.Old n)).card

/-- The number of entries in the new table. -/
def Rehash.newCount (m : Nat) (r : Rehash K V) : Nat :=
  ((Finset.range m).filter (r.New m)).card

/-- **Entries on the move**: those of `E` are in the old table, in the new one
or in the hand, each once, and the new table is well formed. -/
structure Moving (hash : K → UInt32) (n m size : Nat) (E : K → V → Prop) (r : Rehash K V)
    (hand : List (K × V)) : Prop where
  del : ∀ i, (r.newFlags i).del = false
  apart : ∀ i, r.Old n i → ¬ r.New m i
  reach : ∀ i, r.New m i → ∃ s, s < m ∧ path hash m (r.keys i) s = i
    ∧ ∀ t, t < s → r.New m (path hash m (r.keys i) t)
  inj : ∀ i j, r.Old n i ∨ r.New m i → r.Old n j ∨ r.New m j → r.keys i = r.keys j → i = j
  held : ∀ i, r.Old n i ∨ r.New m i → ∀ p ∈ hand, r.keys i ≠ p.1
  nodup : (hand.map Prod.fst).Nodup
  content : ∀ key val, E key val ↔
    (∃ i, (r.Old n i ∨ r.New m i) ∧ r.keys i = key ∧ r.vals i = val) ∨ (key, val) ∈ hand
  count : r.oldCount n + r.newCount m + hand.length = size

/-! ## Taking an entry out -/

theorem old_remove {i j : Nat} : (r.remove j).Old n i ↔ r.Old n i ∧ i ≠ j := by
  unfold Rehash.Old Rehash.remove
  rcases Nat.decEq i j with hne | rfl
  · simp [hne]
  · simp [Flag.either]

theorem oldCount_remove {j : Nat} (hj : r.Old n j) :
    (r.remove j).oldCount n + 1 = r.oldCount n := by
  have herase : (Finset.range n).filter ((r.remove j).Old n)
      = ((Finset.range n).filter (r.Old n)).erase j := by
    ext i
    simp only [Finset.mem_filter, Finset.mem_erase, old_remove]
    tauto
  have hmem : j ∈ (Finset.range n).filter (r.Old n) :=
    Finset.mem_filter.mpr ⟨Finset.mem_range.mpr hj.1, hj⟩
  rw [Rehash.oldCount, Rehash.oldCount, herase]
  exact Finset.card_erase_add_one hmem

/-- **An entry is taken** from the old table into the hand. -/
theorem Moving.take {j : Nat} (hm : Moving hash n m size E r hand) (hj : r.Old n j) :
    Moving hash n m size E (r.remove j) (hand ++ [(r.keys j, r.vals j)]) where
  del := hm.del
  apart := fun i hi => hm.apart i (old_remove.mp hi).1
  reach := hm.reach
  inj := fun i i' hi hi' => hm.inj i i' (hi.imp_left fun h => (old_remove.mp h).1)
    (hi'.imp_left fun h => (old_remove.mp h).1)
  held := by
    intro i hi p hp
    have hi' : r.Old n i ∨ r.New m i := hi.imp_left fun h => (old_remove.mp h).1
    rcases List.mem_append.mp hp with hp | hp
    · exact hm.held i hi' p hp
    · rw [List.mem_singleton.mp hp]
      intro heq
      obtain rfl : i = j := hm.inj i j hi' (Or.inl hj) heq
      rcases hi with hold | hnew
      · exact (old_remove.mp hold).2 rfl
      · exact hm.apart i hj hnew
  nodup := by
    rw [List.map_append, List.nodup_append]
    refine ⟨hm.nodup, List.nodup_singleton _, fun key hkey key' hkey' => ?_⟩
    obtain ⟨p, hp, rfl⟩ := List.mem_map.mp hkey
    rw [List.mem_singleton.mp hkey']
    exact (hm.held j (Or.inl hj) p hp).symm
  content := by
    intro key val
    rw [hm.content key val, List.mem_append, List.mem_singleton, Prod.mk.injEq]
    constructor
    · rintro (⟨i, hi, hkey, hval⟩ | hp)
      · rcases Nat.decEq i j with hne | rfl
        · exact Or.inl ⟨i, hi.imp_left fun h => old_remove.mpr ⟨h, hne⟩, hkey, hval⟩
        · exact Or.inr (Or.inr ⟨hkey.symm, hval.symm⟩)
      · exact Or.inr (Or.inl hp)
    · rintro (⟨i, hi, hkey, hval⟩ | hp | ⟨rfl, rfl⟩)
      · exact Or.inl ⟨i, hi.imp_left fun h => (old_remove.mp h).1, hkey, hval⟩
      · exact Or.inr hp
      · exact Or.inl ⟨j, Or.inl hj, rfl, rfl⟩
  count := by
    have hcount := hm.count
    have hold := oldCount_remove hj
    have hnew : (r.remove j).newCount m = r.newCount m := rfl
    rw [List.length_append, List.length_singleton, hnew]
    omega

/-! ## Putting an entry down -/

theorem old_put {i x : Nat} {key : K} {val : V} : (r.put x key val).Old n i ↔ r.Old n i :=
  Iff.rfl

theorem new_put {i x : Nat} {key : K} {val : V} (hx : x < m) :
    (r.put x key val).New m i ↔ i = x ∨ r.New m i := by
  unfold Rehash.New Rehash.put
  rcases Nat.decEq i x with hne | rfl
  · simp [hne]
  · simp [hx]

theorem newCount_put {x : Nat} {key : K} {val : V} (hx : x < m)
    (hempty : (r.newFlags x).empty = true) :
    (r.put x key val).newCount m = r.newCount m + 1 := by
  have hinsert : (Finset.range m).filter ((r.put x key val).New m)
      = insert x ((Finset.range m).filter (r.New m)) := by
    ext i
    simp only [Finset.mem_filter, Finset.mem_insert, Finset.mem_range, new_put hx]
    constructor
    · rintro ⟨hi, rfl | hnew⟩
      · exact Or.inl rfl
      · exact Or.inr ⟨hi, hnew⟩
    · rintro (rfl | hi)
      · exact ⟨hx, Or.inl rfl⟩
      · exact ⟨hi.1, Or.inr hi.2⟩
  have hnot : x ∉ (Finset.range m).filter (r.New m) := by
    intro hmem
    exact absurd (hempty.symm.trans (Finset.mem_filter.mp hmem).2.2) (by decide)
  rw [Rehash.newCount, hinsert, Finset.card_insert_of_notMem hnot]
  rfl

/-- The buckets in use after an entry was put down. -/
theorem entry_put {i x : Nat} {key : K} {val : V} (hx : x < m) :
    ((r.put x key val).Old n i ∨ (r.put x key val).New m i)
      ↔ i = x ∨ (r.Old n i ∨ r.New m i) := by
  rw [old_put, new_put hx]
  tauto

/-- **An entry of the hand is put down** at the first free bucket of its path,
which the old table does not need any more. -/
theorem Moving.put {key : K} {val : V} {s : Nat} (hm : Moving hash n m size E r ((key, val) :: hand))
    (hx : path hash m key s < m) (hs : s < m)
    (hempty : (r.newFlags (path hash m key s)).empty = true)
    (hfree : ¬ r.Old n (path hash m key s))
    (hbefore : ∀ t, t < s → r.New m (path hash m key t)) :
    Moving hash n m size E (r.put (path hash m key s) key val) hand := by
  generalize hpath : path hash m key s = x at hx hempty hfree
  have hunused : ∀ i, r.Old n i ∨ r.New m i → i ≠ x := by
    rintro i (hold | hnew) rfl
    · exact hfree hold
    · exact absurd (hempty.symm.trans hnew.2) (by decide)
  have hkeys : ∀ i, i ≠ x → (r.put x key val).keys i = r.keys i := fun i hi =>
    Function.update_of_ne hi _ _
  have hvals : ∀ i, i ≠ x → (r.put x key val).vals i = r.vals i := fun i hi =>
    Function.update_of_ne hi _ _
  have hkey : (r.put x key val).keys x = key := Function.update_self _ _ _
  have hval : (r.put x key val).vals x = val := Function.update_self _ _ _
  have hheld : ∀ i, r.Old n i ∨ r.New m i → r.keys i ≠ key := fun i hi =>
    hm.held i hi (key, val) (List.mem_cons_self ..)
  have hnodup := hm.nodup
  rw [List.map_cons, List.nodup_cons] at hnodup
  refine ⟨?_, ?_, ?_, ?_, ?_, hnodup.2, ?_, ?_⟩
  · intro i
    change (Function.update r.newFlags x _ i).del = false
    rcases Nat.decEq i x with hne | rfl
    · rw [Function.update_of_ne hne]
      exact hm.del i
    · rw [Function.update_self]
      exact hm.del i
  · intro i hold hnew
    rcases (new_put hx).mp hnew with rfl | hnew
    · exact hfree hold
    · exact hm.apart i hold hnew
  · intro i hi
    rcases (new_put hx).mp hi with rfl | hnew
    · rw [hkey]
      exact ⟨s, hs, hpath, fun t ht => (new_put hx).mpr (Or.inr (hbefore t ht))⟩
    · rw [hkeys i (hunused i (Or.inr hnew))]
      obtain ⟨t, ht, hat, hway⟩ := hm.reach i hnew
      exact ⟨t, ht, hat, fun u hu => (new_put hx).mpr (Or.inr (hway u hu))⟩
  · intro i j hi hj heq
    rcases (entry_put hx).mp hi with hix | hi'
    · rcases (entry_put hx).mp hj with hjx | hj'
      · exact hix.trans hjx.symm
      · rw [hix, hkey, hkeys j (hunused j hj')] at heq
        exact absurd heq.symm (hheld j hj')
    · rcases (entry_put hx).mp hj with hjx | hj'
      · rw [hjx, hkey, hkeys i (hunused i hi')] at heq
        exact absurd heq (hheld i hi')
      · rw [hkeys i (hunused i hi'), hkeys j (hunused j hj')] at heq
        exact hm.inj i j hi' hj' heq
  · intro i hi p hp
    rcases (entry_put hx).mp hi with rfl | hi
    · rw [hkey]
      exact fun heq => hnodup.1 (List.mem_map.mpr ⟨p, hp, heq.symm⟩)
    · rw [hkeys i (hunused i hi)]
      exact hm.held i hi p (List.mem_cons_of_mem _ hp)
  · intro key' val'
    rw [hm.content key' val', List.mem_cons, Prod.mk.injEq]
    constructor
    · rintro (⟨i, hi, hk, hv⟩ | ⟨rfl, rfl⟩ | hp)
      · have hne := hunused i hi
        exact Or.inl ⟨i, (entry_put hx).mpr (Or.inr hi), (hkeys i hne).trans hk,
          (hvals i hne).trans hv⟩
      · exact Or.inl ⟨x, (entry_put hx).mpr (Or.inl rfl), hkey, hval⟩
      · exact Or.inr hp
    · rintro (⟨i, hi, hk, hv⟩ | hp)
      · rcases (entry_put hx).mp hi with rfl | hi
        · exact Or.inr (Or.inl ⟨hk.symm.trans hkey, hv.symm.trans hval⟩)
        · have hne := hunused i hi
          exact Or.inl ⟨i, hi, (hkeys i hne).symm.trans hk, (hvals i hne).symm.trans hv⟩
      · exact Or.inr (Or.inr hp)
  · have hcount := hm.count
    have hnew : (r.put x key val).newCount m = r.newCount m + 1 := newCount_put hx hempty
    have hold : (r.put x key val).oldCount n = r.oldCount n := rfl
    rw [List.length_cons] at hcount
    rw [hnew, hold]
    omega

/-! ## The loops -/

theorem Moving.newCount_lt {p : K × V} (hm : Moving hash n m size E r (p :: hand))
    (hsize : size ≤ m) : r.newCount m < m := by
  have hcount := hm.count
  rw [List.length_cons] at hcount
  omega

/-- The first free bucket of the path of a key. -/
theorem Moving.find_free {k : Nat} {key : K} {val : V} (hk : k ≤ 31)
    (hm : Moving hash n (2 ^ k) size E r ((key, val) :: hand)) (hsize : size ≤ 2 ^ k) :
    ∃ s, s < 2 ^ k ∧ (r.newFlags (path hash (2 ^ k) key s)).empty = true
      ∧ (∀ t, t < s → r.New (2 ^ k) (path hash (2 ^ k) key t))
      ∧ walk (fun i => !(r.newFlags i).empty) (fun _ u => u) (2 ^ k - 1) none (2 ^ k)
          (home hash (2 ^ k - 1) key) 0 ()
        = some (some (path hash (2 ^ k) key s), ()) := by
  obtain ⟨i, hi, hnot⟩ := exists_not_of_card_lt (hm.newCount_lt hsize)
  have hempty : (!(r.newFlags i).empty) = false := by
    by_contra hne
    exact hnot ⟨hi, by simpa using hne⟩
  obtain ⟨s, hs, hpass, hstop, hwalk⟩ := @walk_first Unit (fun i => !(r.newFlags i).empty)
    (fun _ u => u) () k (2 ^ k) (hash key).toNat none (Nat.le_succ_of_le hk) ⟨i, hi, hempty⟩
    (fun _ h => absurd h (by simp)) (fun _ => rfl) (Nat.le_refl (2 ^ k))
  refine ⟨s, hs, by simpa [path] using hstop, fun t ht => ⟨path_lt hk key t, ?_⟩, hwalk⟩
  simpa [path] using hpass t ht

/-- **The kick-out process** ends with the hand empty. -/
theorem kickOut_spec {k : Nat} (hk : k ≤ 31) (hsize : size ≤ 2 ^ k) :
    ∀ (fuel : Nat) (r : Rehash K V) (key : K) (val : V),
      Moving hash n (2 ^ k) size E r [(key, val)] → r.oldCount n < fuel →
      ∃ r', kickOut hash n (2 ^ k) fuel r key val = some r'
        ∧ Moving hash n (2 ^ k) size E r' [] ∧ ∀ i, r'.Old n i → r.Old n i := by
  intro fuel
  induction fuel with
  | zero => exact fun r key val _ h => absurd h (Nat.not_lt_zero _)
  | succ fuel ih =>
    intro r key val hm hfuel
    obtain ⟨s, hs, hempty, hbefore, hwalk⟩ := hm.find_free hk hsize
    have hx : path hash (2 ^ k) key s < 2 ^ k := path_lt hk key s
    by_cases hold : r.Old n (path hash (2 ^ k) key s)
    · -- the entry in the way goes into the hand, and the bucket is free
      have htaken := hm.take hold
      have hfree : ¬ (r.remove (path hash (2 ^ k) key s)).Old n (path hash (2 ^ k) key s) :=
        fun h => (old_remove.mp h).2 rfl
      have hput := htaken.put hx hs hempty hfree hbefore
      have hcount := oldCount_remove hold
      obtain ⟨r', hrun, hm', hsub⟩ := ih _ _ _ hput (show _ < fuel by
        change (r.remove _).oldCount n < fuel
        omega)
      refine ⟨r', ?_, hm', fun i hi => (old_remove.mp (hsub i hi)).1⟩
      have hkick : path hash (2 ^ k) key s < n
          ∧ ¬ (r.flags (path hash (2 ^ k) key s)).either = true :=
        ⟨hold.1, by simp [hold.2]⟩
      simp only [kickOut, hwalk, Option.bind_eq_bind, Option.bind_some, if_pos hkick]
      exact hrun
    · refine ⟨_, ?_, hm.put hx hs hempty hold hbefore, fun i hi => hi⟩
      have hstay : ¬ (path hash (2 ^ k) key s < n
          ∧ ¬ (r.flags (path hash (2 ^ k) key s)).either = true) := by
        rintro ⟨hlt, heither⟩
        exact hold ⟨hlt, by simpa using heither⟩
      simp only [kickOut, hwalk, Option.bind_eq_bind, Option.bind_some, if_neg hstay]

theorem oldCount_le : r.oldCount n ≤ n :=
  (Finset.card_filter_le _ _).trans_eq (Finset.card_range _)

/-- **The buckets below `j`** have been emptied. -/
theorem rehash_spec {k : Nat} (hk : k ≤ 31) (hsize : size ≤ 2 ^ k)
    (hm : Moving hash n (2 ^ k) size E r []) :
    ∀ j, j ≤ n → ∃ r', rehash hash n (2 ^ k) r j = some r'
      ∧ Moving hash n (2 ^ k) size E r' [] ∧ ∀ i, i < j → ¬ r'.Old n i := by
  intro j
  induction j with
  | zero => exact fun _ => ⟨r, rfl, hm, fun i hi => absurd hi (Nat.not_lt_zero i)⟩
  | succ j ih =>
    intro hj
    obtain ⟨r₁, hrun, hm₁, hdone⟩ := ih (Nat.le_of_succ_le hj)
    by_cases hold : r₁.Old n j
    · have htaken := hm₁.take hold
      have hcount := oldCount_remove hold
      have hle := oldCount_le (n := n) (r := r₁)
      obtain ⟨r', hkick, hm', hsub⟩ := kickOut_spec hk hsize (n + 1) _ _ _ htaken (by omega)
      refine ⟨r', ?_, hm', fun i hi hi' => ?_⟩
      · have heither : ¬ (r₁.flags j).either = true := by simp [hold.2]
        simp only [rehash, hrun, Option.bind_eq_bind, Option.bind_some, if_pos heither]
        exact hkick
      · have hi₁ := old_remove.mp (hsub i hi')
        exact hdone i (by omega) hi₁.1
    · refine ⟨r₁, ?_, hm₁, fun i hi hi' => ?_⟩
      · have heither : ¬ ¬ (r₁.flags j).either = true := by
          intro h
          exact hold ⟨hj, by simpa using h⟩
        simp only [rehash, hrun, Option.bind_eq_bind, Option.bind_some, if_neg heither]
      · rcases Nat.lt_or_eq_of_le (Nat.le_of_lt_succ hi) with hlt | rfl
        · exact hdone i hlt hi'
        · exact hold hi'

/-! ## Growing -/

/-- A key and its value in a table. -/
def Entry (h : Khash K V) (key : K) (val : V) : Prop := ∃ i, h.Has key i ∧ h.vals i = val

/-- Two tables hold the same keys with the same values, in any buckets. -/
structure SameMap (h h' : Khash K V) : Prop where
  size : h'.size = h.size
  entry : ∀ key val, h'.Entry key val ↔ h.Entry key val

variable {h h' : Khash K V}

theorem SameMap.refl (h : Khash K V) : SameMap h h := ⟨rfl, fun _ _ => Iff.rfl⟩

theorem SameEntries.sameMap (hs : SameEntries h h') : SameMap h h' :=
  ⟨hs.size, fun key val => by unfold Entry; simp only [hs.has, hs.vals]⟩

theorem Entry.absent {key : K} (hnone : ∀ val, ¬ h.Entry key val) (i : Nat) : ¬ h.Has key i :=
  fun hi => hnone (h.vals i) ⟨i, hi, rfl⟩

/-- All entries are in the old table as the growing starts. -/
theorem Wf.moving (hw : h.Wf hash) (m : Nat) :
    Moving hash h.nBuckets m h.size h.Entry
      ⟨h.flags, fun _ => freshFlag, h.keys, h.vals⟩ [] := by
  have hold : ∀ i, Rehash.Old h.nBuckets ⟨h.flags, fun _ => freshFlag, h.keys, h.vals⟩ i
      ↔ h.Live i := by
    intro i
    unfold Rehash.Old Live Flag.either
    constructor
    · rintro ⟨hi, heither⟩
      exact ⟨hi, (Bool.or_eq_false_iff.mp heither).1⟩
    · rintro ⟨hi, hempty⟩
      exact ⟨hi, Bool.or_eq_false_iff.mpr ⟨hempty, hw.del i hi⟩⟩
  have hnew : ∀ i, ¬ Rehash.New m ⟨h.flags, fun _ => freshFlag, h.keys, h.vals⟩ i :=
    fun i hi => absurd hi.2 (by simp [freshFlag])
  refine ⟨fun _ => rfl, fun i _ => hnew i, fun i hi => absurd hi (hnew i), ?_, ?_,
    List.nodup_nil, ?_, ?_⟩
  · intro i j hi hj heq
    exact hw.inj i j ((hold i).mp (hi.resolve_right (hnew i)))
      ((hold j).mp (hj.resolve_right (hnew j))) heq
  · exact fun i _ p hp => absurd hp List.not_mem_nil
  · intro key val
    constructor
    · rintro ⟨i, ⟨hlive, hkey⟩, hval⟩
      exact Or.inl ⟨i, Or.inl ((hold i).mpr hlive), hkey, hval⟩
    · rintro (⟨i, hi, hkey, hval⟩ | hp)
      · exact ⟨i, ⟨(hold i).mp (hi.resolve_right (hnew i)), hkey⟩, hval⟩
      · exact absurd hp List.not_mem_nil
  · unfold Rehash.oldCount Rehash.newCount
    rw [Finset.filter_false_of_mem fun i _ => hnew i, Finset.card_empty, List.length_nil, hw.size]
    simp only [hold, Nat.add_zero]

/-- The table that a finished growing leaves. -/
theorem Moving.wf {k size : Nat} {E : K → V → Prop} {r : Rehash K V} (h2 : 2 ≤ k) (hk : k ≤ 31)
    (hm : Moving hash n (2 ^ k) size E r []) (hdone : ∀ i, ¬ r.Old n i)
    (hsize : size < hashUpper (2 ^ k)) :
    Wf hash ⟨2 ^ k, size, size, hashUpper (2 ^ k), r.newFlags, r.keys, r.vals⟩
      ∧ ∀ key val, Entry ⟨2 ^ k, size, size, hashUpper (2 ^ k), r.newFlags, r.keys, r.vals⟩ key val
        ↔ E key val := by
  refine ⟨⟨Or.inr ⟨k, h2, hk, rfl, rfl⟩, fun i _ => hm.del i, rfl, fun _ => Nat.le_of_lt hsize,
    ?_, hm.reach, fun i j hi hj => hm.inj i j (Or.inr hi) (Or.inr hj)⟩, ?_⟩
  · have hcount := hm.count
    have hnone : r.oldCount n = 0 := by
      rw [Rehash.oldCount, Finset.filter_false_of_mem fun i _ => hdone i, Finset.card_empty]
    rw [hnone, List.length_nil, Nat.zero_add, Nat.add_zero] at hcount
    exact hcount.symm
  · intro key val
    rw [hm.content key val]
    constructor
    · rintro ⟨i, ⟨hlive, hkey⟩, hval⟩
      exact Or.inl ⟨i, Or.inr hlive, hkey, hval⟩
    · rintro (⟨i, hi, hkey, hval⟩ | hp)
      · exact ⟨i, ⟨hi.resolve_left (hdone i), hkey⟩, hval⟩
      · exact absurd hp List.not_mem_nil

/-- **`kh_resize` keeps the map**, whatever it moves. -/
theorem Wf.resize_spec {k target : Nat} (hw : h.Wf hash) (h2 : 2 ≤ k) (hk : k ≤ 31)
    (hround : (if kroundup32 target < 4 then 4 else kroundup32 target) = 2 ^ k)
    (hsize : h.size < hashUpper (2 ^ k)) (hle : h.size ≤ 2 ^ k) :
    ∃ h', h.resize hash target = some h' ∧ h'.Wf hash ∧ h'.nBuckets = 2 ^ k
      ∧ h'.upperBound = hashUpper (2 ^ k) ∧ SameMap h h' := by
  obtain ⟨r, hrun, hm, hdone⟩ := rehash_spec hk hle (hw.moving (2 ^ k)) h.nBuckets (Nat.le_refl _)
  have hall : ∀ i, ¬ r.Old h.nBuckets i := fun i hi => hdone i hi.1 hi
  obtain ⟨hwf, hentry⟩ := hm.wf h2 hk hall hsize
  refine ⟨_, ?_, hwf, rfl, rfl, rfl, hentry⟩
  unfold resize
  simp only [hround, ge_iff_le, if_neg (Nat.not_le.mpr hsize), hrun, Option.bind_eq_bind,
    Option.bind_some]

/-- A full table of fewer than `2 ^ 31` buckets gets twice as many. -/
theorem Wf.makeRoom_expand {k : Nat} (hw : h.Wf hash) (h2 : 2 ≤ k) (hk : k ≤ 30)
    (hn : h.nBuckets = 2 ^ k) (hfull : h.upperBound ≤ h.nOccupied) :
    ∃ h', h.makeRoom hash = some h' ∧ h'.Ready hash ∧ SameMap h h' := by
  obtain ⟨hmake, hround, hspace, hlt⟩ := hw.makeRoom_full h2 hk hn hfull
  obtain ⟨h', hrun, hw', hn', hupper, hsame⟩ := hw.resize_spec (k := k + 1) (by omega) (by omega)
    hround hspace (Nat.le_of_lt hlt)
  have hsize := hsame.size
  exact ⟨h', hmake.trans hrun, ⟨hw', by omega, fun _ => by omega⟩, hsame⟩

/-- **Making room** keeps the map. -/
theorem Wf.makeRoom_sameMap (hw : h.Wf hash) (hlt : h.size < 2 ^ 31) :
    ∃ h', h.makeRoom hash = some h' ∧ h'.Ready hash ∧ SameMap h h' := by
  have hocc := hw.occupied
  rcases Nat.eq_zero_or_pos h.nBuckets with hn | hpos
  · obtain ⟨hmake, hready⟩ := hw.makeRoom_first hn
    exact ⟨_, hmake, hready, (sameEntries_grown (by omega)).sameMap⟩
  have hupper := hw.hashUpper_lt (Nat.ne_of_gt hpos)
  obtain ⟨k, h2, h31, hn, -⟩ := hw.two_pow (Nat.ne_of_gt hpos)
  rcases Nat.lt_or_eq_of_le h31 with hk | rfl
  · have hcap : 2 ^ k ≤ 2 ^ 30 := Nat.pow_le_pow_right (by decide) (Nat.le_of_lt_succ hk)
    rcases Nat.lt_or_ge h.nOccupied h.upperBound with hfree | hfull
    · refine ⟨h, if_neg (Nat.not_le.mpr hfree), ⟨hw, ?_, ?_⟩, SameMap.refl h⟩ <;> omega
    · exact hw.makeRoom_expand h2 (Nat.le_of_lt_succ hk) hn hfull
  · refine ⟨h, hw.makeRoom_last hn hlt, ⟨hw, ?_, ?_⟩, SameMap.refl h⟩ <;> omega

/-! ## Inserting -/

/-- `kh_value(h, x) = val` -/
def setValue (h : Khash K V) (x : Nat) (val : V) : Khash K V :=
  { h with vals := Function.update h.vals x val }

theorem setValue_wf {x : Nat} {val : V} (hw : h.Wf hash) : (h.setValue x val).Wf hash :=
  ⟨hw.buckets, hw.del, hw.occupied, hw.load, hw.size, hw.reach, hw.inj⟩

/-- The entries with a new key and its value. -/
theorem entry_inserted {key key' : K} {val val' : V} {x : Nat} (hx : x < h.nBuckets)
    (hempty : (h.flags x).empty = true) :
    ((h.inserted key x).setValue x val).Entry key' val'
      ↔ (key' = key ∧ val' = val) ∨ h.Entry key' val' := by
  have hother : ∀ i, h.Has key' i → (Function.update h.vals x val) i = h.vals i := by
    intro i hi
    refine Function.update_of_ne ?_ _ _
    rintro rfl
    exact absurd (hempty.symm.trans hi.1.2) (by decide)
  constructor
  · rintro ⟨i, hhas, hval⟩
    rcases (has_inserted hx hempty).mp hhas with ⟨rfl, rfl⟩ | hold
    · exact Or.inl ⟨rfl, hval.symm.trans (Function.update_self _ _ _)⟩
    · exact Or.inr ⟨i, hold, (hother i hold).symm.trans hval⟩
  · rintro (⟨rfl, rfl⟩ | ⟨i, hhas, hval⟩)
    · exact ⟨x, (has_inserted hx hempty).mpr (Or.inl ⟨rfl, rfl⟩), Function.update_self _ _ _⟩
    · exact ⟨i, (has_inserted hx hempty).mpr (Or.inr hhas), (hother i hhas).trans hval⟩

/-! ## The largest table -/

/-- All buckets of the largest table are in use. -/
structure Full (hash : K → UInt32) (h : Khash K V) : Prop extends h.Wf hash where
  nBuckets : h.nBuckets = 2 ^ 31
  all : ∀ i, i < 2 ^ 31 → h.Live i

theorem Wf.full (hw : h.Wf hash) (hsize : h.size = 2 ^ 31) : h.Full hash := by
  have hle := hw.size_le
  obtain ⟨k, -, hk, hn, -⟩ := hw.two_pow (by omega)
  have hcap : 2 ^ k ≤ 2 ^ 31 := Nat.pow_le_pow_right (by decide) hk
  have hbuckets : h.nBuckets = 2 ^ 31 := by omega
  refine ⟨hw, hbuckets, fun i hi => ?_⟩
  have hcard := hw.size
  rw [hsize, hbuckets] at hcard
  have hall := Finset.eq_of_subset_of_card_le
    (Finset.filter_subset h.Live (Finset.range (2 ^ 31)))
    ((Finset.card_range _).trans_le (Nat.le_of_eq hcard))
  exact (Finset.mem_filter.mp (hall ▸ Finset.mem_range.mpr hi)).2

theorem Wf.size_le_max (hw : h.Wf hash) : h.size ≤ 2 ^ 31 := by
  refine Nat.le_trans hw.size_le ?_
  rcases hw.buckets with ⟨hn, -⟩ | ⟨k, -, hk, hn, -⟩
  · omega
  · rw [hn]
    exact Nat.pow_le_pow_right (by decide) hk

/-- The largest table does not grow. -/
theorem Full.makeRoom_eq (hf : h.Full hash) (hsize : h.size = 2 ^ 31) :
    h.makeRoom hash = some h := by
  have hocc := hf.occupied
  have hupper := hf.hashUpper_lt (by rw [hf.nBuckets]; decide)
  have hn := hf.nBuckets
  have hshift : h.size <<< 1 % 2 ^ 32 = 0 := by
    rw [hsize]
    decide
  have hround : kroundup32 (h.nBuckets - 1) = 2 ^ 31 := by
    rw [hn]
    decide +kernel
  unfold Khash.makeRoom
  rw [if_pos (by omega), hshift, if_pos (by omega)]
  unfold Khash.resize
  rw [hround]
  apply if_pos
  rw [hsize]
  decide

/-! ## Calls -/

section Put

variable [DecidableEq K]

/-- **`kh_put` of a new key** adds it to the map, whatever the table moves. -/
theorem Wf.put_new {key : K} (hw : h.Wf hash) (hlt : h.size < 2 ^ 31)
    (hnew : ∀ val, ¬ h.Entry key val) :
    ∃ g x, h.put hash key = some (g, x, 1) ∧ g.Wf hash ∧ g.size = h.size + 1
      ∧ ∀ val key' val', (g.setValue x val).Entry key' val'
        ↔ (key' = key ∧ val' = val) ∨ h.Entry key' val' := by
  obtain ⟨g, hmake, hg, hsame⟩ := hw.makeRoom_sameMap hlt
  obtain ⟨x, hput, hwf, hx, hempty⟩ := hg.put_of_absent hmake
    (Entry.absent fun val hval => hnew val ((hsame.entry key val).mp hval))
  refine ⟨_, x, hput, hwf, congrArg (· + 1) hsame.size, fun val key' val' => ?_⟩
  rw [entry_inserted hx hempty, hsame.entry]

/-- `kh_put` of a key that is in the table made ready. -/
theorem put_of_has {g : Khash K V} {key : K} {i : Nat} (hg : g.Wf hash)
    (hmake : h.makeRoom hash = some g) (hi : g.Has key i) :
    h.put hash key = some (g, i, 0) := by
  simp [put, hmake, hg.putSite_of_has hi, hi.1.2, hg.del i hi.1.1]

/-- The search for a key that is not in the largest table stops nowhere. -/
theorem Full.goesOn {key : K} (hf : h.Full hash) (habsent : ∀ i, ¬ h.Has key i) :
    ∀ i, i < 2 ^ 31 → h.goesOn key i = true := fun i hi =>
  goesOn_of_ne (hf.all i hi) fun hkey => habsent i ⟨hf.all i hi, hkey⟩

/-- **`kh_put` of a key that is not in the largest table**, which is full, says
that it is there. -/
theorem Full.put_absent {key : K} (hf : h.Full hash) (hsize : h.size = 2 ^ 31)
    (habsent : ∀ i, ¬ h.Has key i) : ∃ i, h.put hash key = some (h, i, 0) := by
  have hn := hf.nBuckets
  have hgo := hf.goesOn habsent
  have hhome : home hash (2 ^ 31 - 1) key < 2 ^ 31 := path_lt (Nat.le_refl 31) key 0
  have hlive := hf.all _ hhome
  have hkept := hf.site_kept (by rw [hn]; decide) key
  rw [hn] at hkept
  have hwalk : walk (h.goesOn key) (fun i site => if (h.flags i).del then i else site)
      (2 ^ 31 - 1) (some (home hash (2 ^ 31 - 1) key)) (2 * 2 ^ 31) (home hash (2 ^ 31 - 1) key)
      0 (2 ^ 31) = some (none, 2 ^ 31) :=
    walk_around (hash key).toNat (by decide) (fun t => hgo _ (path_lt (Nat.le_refl 31) key t))
      hkept (Nat.le_refl _)
  generalize hx : home hash (2 ^ 31 - 1) key = x at hlive hwalk
  have hdel := hf.del x hlive.1
  have hsite : h.putSite hash key = some x := by
    unfold putSite
    simp only [hn, hx, hlive.2, hwalk, Option.bind_eq_bind, Option.bind_some, Option.isNone_none,
      Option.getD_none, if_true, Bool.false_eq_true, if_false, false_and]
  exact ⟨x, by simp [put, hf.makeRoom_eq hsize, hsite, hlive.2, hdel]⟩

/-- **Where `kh_put` answers 0**: the key is there, or the table is full. -/
theorem Wf.put_refused {key : K} (hw : h.Wf hash)
    (hcase : (∃ val, h.Entry key val) ∨ h.size = 2 ^ 31) :
    ∃ g x, h.put hash key = some (g, x, 0) := by
  rcases Nat.lt_or_eq_of_le hw.size_le_max with hlt | hsize
  · obtain ⟨val, hval⟩ := hcase.resolve_right (Nat.ne_of_lt hlt)
    obtain ⟨g, hmake, hg, hsame⟩ := hw.makeRoom_sameMap hlt
    obtain ⟨i, hi, -⟩ := (hsame.entry key val).mpr hval
    exact ⟨g, i, put_of_has hg.toWf hmake hi⟩
  · have hf := hw.full hsize
    by_cases hhas : ∃ i, h.Has key i
    · obtain ⟨i, hi⟩ := hhas
      exact ⟨h, i, put_of_has hw (hf.makeRoom_eq hsize) hi⟩
    · obtain ⟨i, hput⟩ := hf.put_absent hsize (not_exists.mp hhas)
      exact ⟨h, i, hput⟩

/-- A key that is in no bucket of the largest table is not found there. -/
theorem Full.get_absent {key : K} (hf : h.Full hash) (habsent : ∀ i, ¬ h.Has key i) :
    h.get hash key = some h.nBuckets := by
  have hn := hf.nBuckets
  have hgo := hf.goesOn habsent
  have hwalk : walk (h.goesOn key) (fun _ (u : Unit) => u) (2 ^ 31 - 1)
      (some (home hash (2 ^ 31 - 1) key)) (2 * 2 ^ 31) (home hash (2 ^ 31 - 1) key) 0 ()
      = some (none, ()) :=
    walk_around (hash key).toNat (by decide) (fun t => hgo _ (path_lt (Nat.le_refl 31) key t))
      (fun _ => rfl) (Nat.le_refl _)
  unfold get
  simp only [hn, hwalk]
  rfl

/-- **`kh_get`** finds the keys of the map and no others. -/
theorem Wf.get_spec (hw : h.Wf hash) (key : K) :
    (∃ i, h.Has key i ∧ h.get hash key = some i) ∨
      (∀ i, ¬ h.Has key i) ∧ h.get hash key = some h.nBuckets := by
  by_cases hhas : ∃ i, h.Has key i
  · obtain ⟨i, hi⟩ := hhas
    exact Or.inl ⟨i, hi, hw.get_of_has hi⟩
  · have habsent := not_exists.mp hhas
    refine Or.inr ⟨habsent, ?_⟩
    rcases Nat.lt_or_eq_of_le hw.size_le_max with hlt | hsize
    · exact hw.get_of_absent habsent (hw.size_lt_buckets hlt)
    · exact (hw.full hsize).get_absent habsent

end Put

end Khash

end Ats
