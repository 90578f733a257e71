import Mathlib.Logic.Equiv.Basic
import Mathlib.Data.List.Nodup
import Mathlib.Data.List.Perm.Basic
import Mathlib.Order.Lattice

/-!
# LevelHeap: heap order on the level order of a complete binary tree

A complete binary tree is the list of its nodes, row by row: the children
of position `i` stand at `2 * i + 1` and `2 * i + 2`, and its parent at
`(i - 1) / 2`. This library says what it means for such a list to be in
heap order under a key, what the two sift directions need of the order
around the moving node, and that one exchange of a node with its parent
(or its smallest child) keeps that.

Positions outside the list read as `none`, so no statement carries a bound.
-/

namespace Ats.LevelHeap

variable {α κ : Type} [LinearOrder κ]

/-- The position of `i`'s parent (`0` for the root itself). -/
def parent (i : Nat) : Nat := (i - 1) / 2

theorem parent_lt {i : Nat} (h : i ≠ 0) : parent i < i := by
  unfold parent; omega

theorem parent_eq_iff {i p : Nat} (h : i ≠ 0) :
    parent i = p ↔ i = 2 * p + 1 ∨ i = 2 * p + 2 := by
  unfold parent; omega

/-- The row of position `i`, the root's being `0`. -/
def row (i : Nat) : Nat := Nat.log2 (i + 1)

theorem row_parent {i : Nat} (h : i ≠ 0) : row i = row (parent i) + 1 := by
  have hp : parent i + 1 = (i + 1) / 2 := by unfold parent; omega
  rw [row, row, Nat.log2_def, if_pos (by omega), hp]

/-- A tree of `n` nodes has rows up to `log2 n`. -/
theorem row_le {i n : Nat} (h : i < n) : row i ≤ Nat.log2 n := by
  have hi : i + 1 ≠ 0 := Nat.succ_ne_zero i
  exact (Nat.le_log2 (by omega)).mpr ((Nat.log2_self_le hi).trans h)

/-- Equal members of a duplicate-free list stand at one position. -/
theorem getElem?_inj_of_nodup {xs : List α} (hnd : xs.Nodup) {i j : Nat} {a : α}
    (hi : xs[i]? = some a) (hj : xs[j]? = some a) : i = j := by
  obtain ⟨hil, _⟩ := List.getElem?_eq_some_iff.mp hi
  exact (List.getElem?_inj hil hnd).mp (hi.trans hj.symm)

/-! ## Exchanging two members -/

section Exchange

variable [DecidableEq α]

/-- The list with the members `a` and `b` in each other's place. -/
def exchange (a b : α) (xs : List α) : List α := xs.map (Equiv.swap a b)

theorem exchange_length (a b : α) (xs : List α) :
    (exchange a b xs).length = xs.length := by
  simp [exchange]

theorem exchange_nodup {a b : α} {xs : List α} (h : xs.Nodup) :
    (exchange a b xs).Nodup :=
  h.map (Equiv.swap a b).injective

/-- Writing a new member over an old one is an exchange of the two. -/
theorem set_eq_exchange {x c : α} {i : Nat} {xs : List α} (hnd : xs.Nodup) (hi : xs[i]? = some x)
    (hc : c ∉ xs) : xs.set i c = exchange x c xs := by
  obtain ⟨hil, _⟩ := List.getElem?_eq_some_iff.mp hi
  apply List.ext_getElem?
  intro k
  rw [List.getElem?_set, exchange, List.getElem?_map]
  by_cases hik : i = k
  · subst hik
    rw [hi]
    simp [hil]
  · rw [if_neg hik]
    cases hk : xs[k]? with
    | none => rfl
    | some b =>
        have hbx : b ≠ x := fun hb => hik (getElem?_inj_of_nodup hnd hi (hb ▸ hk))
        have hbc : b ≠ c := fun hb => hc (hb ▸ List.mem_of_getElem? hk)
        simp [Equiv.swap_apply_of_ne_of_ne hbx hbc]

/-- Writing a member over an old one takes the old one out. -/
theorem set_perm_cons_erase {x : α} {i : Nat} {xs : List α} (hnd : xs.Nodup)
    (hi : xs[i]? = some x) (c : α) : (xs.set i c).Perm (c :: xs.erase x) := by
  obtain ⟨hil, hix⟩ := List.getElem?_eq_some_iff.mp hi
  have hdec : xs.erase x = xs.take i ++ xs.drop (i + 1) := by
    rw [← hix, hnd.erase_getElem, List.eraseIdx_eq_take_drop_succ]
  rw [List.set_eq_take_append_cons_drop, if_pos hil, hdec]
  exact List.perm_middle

theorem mem_exchange {a b x : α} {xs : List α} (ha : a ∈ xs) (hb : b ∈ xs) :
    x ∈ exchange a b xs ↔ x ∈ xs := by
  simp only [exchange, List.mem_map]
  constructor
  · rintro ⟨y, hy, rfl⟩
    by_cases h1 : y = a
    · simpa [h1] using hb
    · by_cases h2 : y = b
      · simpa [h2] using ha
      · rwa [Equiv.swap_apply_of_ne_of_ne h1 h2]
  · intro hx
    refine ⟨Equiv.swap a b x, ?_, Equiv.swap_apply_self a b x⟩
    by_cases h1 : x = a
    · simpa [h1] using hb
    · by_cases h2 : x = b
      · simpa [h2] using ha
      · rwa [Equiv.swap_apply_of_ne_of_ne h1 h2]

theorem exchange_perm {a b : α} {xs : List α} (hnd : xs.Nodup)
    (ha : a ∈ xs) (hb : b ∈ xs) : (exchange a b xs).Perm xs :=
  (List.perm_ext_iff_of_nodup (exchange_nodup hnd) hnd).mpr
    fun _ => mem_exchange ha hb

/-- Read after an exchange: the two positions trade their members. -/
theorem exchange_getElem? {a b : α} {xs : List α} (hnd : xs.Nodup)
    {i j : Nat} (hi : xs[i]? = some a) (hj : xs[j]? = some b) (k : Nat) :
    (exchange a b xs)[k]?
      = if k = i then some b else if k = j then some a else xs[k]? := by
  simp only [exchange, List.getElem?_map]
  by_cases hki : k = i
  · subst hki
    simp [hi]
  · by_cases hkj : k = j
    · subst hkj
      simp [hj, hki]
    · rw [if_neg hki, if_neg hkj]
      cases hk : xs[k]? with
      | none => rfl
      | some x =>
          have hxa : x ≠ a := by
            rintro rfl
            exact hki (getElem?_inj_of_nodup hnd hk hi)
          have hxb : x ≠ b := by
            rintro rfl
            exact hkj (getElem?_inj_of_nodup hnd hk hj)
          simp [Equiv.swap_apply_of_ne_of_ne hxa hxb]

end Exchange

/-! ## Heap order -/

/-- The member at `i` is not below the one at `p` in key order. Vacuous
where either position is empty. -/
def Above (key : α → κ) (xs : List α) (p i : Nat) : Prop :=
  ∀ a b, xs[p]? = some a → xs[i]? = some b → key a ≤ key b

/-- Heap order: no member's key is below its parent's. -/
def Ordered (key : α → κ) (xs : List α) : Prop :=
  ∀ i, i ≠ 0 → Above key xs (parent i) i

/-- What sifting `j` up needs: every pair but `j` and its parent is in
order, and `j`'s children are in order with `j`'s parent. -/
structure UpOrdered (key : α → κ) (xs : List α) (j : Nat) : Prop where
  rest : ∀ i, i ≠ 0 → i ≠ j → Above key xs (parent i) i
  grand : j ≠ 0 → ∀ i, i ≠ 0 → parent i = j → Above key xs (parent j) i

/-- What sifting `j` down needs: every pair that does not touch `j` is in
order, and `j`'s children are in order with `j`'s parent. -/
structure DownOrdered (key : α → κ) (xs : List α) (j : Nat) : Prop where
  rest : ∀ i, i ≠ 0 → i ≠ j → parent i ≠ j → Above key xs (parent i) i
  grand : j ≠ 0 → ∀ i, i ≠ 0 → parent i = j → Above key xs (parent j) i

/-- The root has the smallest key. -/
theorem Ordered.root_le {key : α → κ} {xs : List α} (h : Ordered key xs)
    {r : α} (hr : xs[0]? = some r) :
    ∀ (i : Nat) (a : α), xs[i]? = some a → key r ≤ key a := by
  intro i
  induction i using Nat.strongRecOn with
  | ind i ih =>
    intro a ha
    by_cases hi : i = 0
    · subst hi
      rw [hr] at ha
      cases ha
      exact le_refl _
    · have hp : parent i < i := parent_lt hi
      obtain ⟨hil, _⟩ := List.getElem?_eq_some_iff.mp ha
      have hpl : parent i < xs.length := by omega
      have hb := List.getElem?_eq_getElem hpl
      exact le_trans (ih _ hp _ hb) (h i hi _ _ hb ha)

theorem Ordered.root_le_of_mem {key : α → κ} {xs : List α} (h : Ordered key xs)
    {r : α} (hr : xs[0]? = some r) {a : α} (ha : a ∈ xs) : key r ≤ key a := by
  obtain ⟨i, hi⟩ := List.mem_iff_getElem?.mp ha
  exact h.root_le hr i a hi

/-- Only the keys of the members count. -/
theorem Ordered.congr {key key' : α → κ} {xs : List α} (h : Ordered key xs)
    (he : ∀ a ∈ xs, key' a = key a) : Ordered key' xs := by
  intro i hi a b ha hb
  rw [he a (List.mem_of_getElem? ha), he b (List.mem_of_getElem? hb)]
  exact h i hi a b ha hb

/-! ## Sifting up -/

theorem UpOrdered.done {key : α → κ} {xs : List α} {j : Nat}
    (h : UpOrdered key xs j) (hj : j ≠ 0 → Above key xs (parent j) j) :
    Ordered key xs := by
  intro i hi
  by_cases hij : i = j
  · subst hij; exact hj hi
  · exact h.rest i hi hij

/-- The order of a heap with one more member in the last place. -/
theorem Ordered.snoc {key : α → κ} {xs : List α} (h : Ordered key xs) (x : α) :
    UpOrdered key (xs ++ [x]) xs.length := by
  constructor
  · intro i hi hil a b ha hb
    obtain ⟨hib, _⟩ := List.getElem?_eq_some_iff.mp hb
    simp only [List.length_append, List.length_singleton] at hib
    have hp := parent_lt hi
    rw [List.getElem?_append_left (by omega)] at ha hb
    exact h i hi a b ha hb
  · intro _ i hi hpi a b _ hb
    obtain ⟨hib, _⟩ := List.getElem?_eq_some_iff.mp hb
    simp only [List.length_append, List.length_singleton] at hib
    have hp := parent_lt hi
    omega

/-- **One exchange upwards**: where `x` at `j` is below its parent `p`,
exchanging the two leaves only `x`'s new place to check. -/
theorem UpOrdered.exchange [DecidableEq α] {key : α → κ} {xs : List α} {j : Nat} {x p : α}
    (h : UpOrdered key xs j) (hnd : xs.Nodup) (hj0 : j ≠ 0)
    (hx : xs[j]? = some x) (hp : xs[parent j]? = some p) (hlt : key x < key p) :
    UpOrdered key (exchange p x xs) (parent j) := by
  have hpj : parent j < j := parent_lt hj0
  have hget := exchange_getElem? hnd hp hx
  constructor
  · intro i hi hine a b ha hb
    rw [hget] at ha hb
    by_cases hij : i = j
    · -- the pair (parent j, j) itself: now `x` above `p`
      subst hij
      rw [if_pos rfl] at ha
      rw [if_neg (by omega), if_pos rfl] at hb
      cases ha; cases hb
      exact le_of_lt hlt
    · rw [if_neg hine, if_neg hij] at hb
      by_cases h1 : parent i = parent j
      · -- `j`'s sibling: under `x`, which is below `p`
        rw [if_pos h1] at ha
        cases ha
        have := h.rest i hi hij p b (by rw [h1]; exact hp) hb
        exact le_trans (le_of_lt hlt) this
      · by_cases h2 : parent i = j
        · rw [if_neg h1, if_pos h2] at ha
          cases ha
          exact h.grand hj0 i hi h2 p b hp hb
        · rw [if_neg h1, if_neg h2] at ha
          exact h.rest i hi hij a b ha hb
  · intro hpj0 i hi hpi a b ha hb
    have hgg : parent (parent j) < parent j := parent_lt hpj0
    rw [hget, if_neg (by omega), if_neg (by omega)] at ha
    have hup : key a ≤ key p := h.rest (parent j) hpj0 (by omega) a p ha hp
    rw [hget] at hb
    by_cases hij : i = j
    · subst hij
      rw [if_neg (by omega), if_pos rfl] at hb
      cases hb
      exact hup
    · have hipj : i ≠ parent j := by
        intro hc
        have := parent_lt hi
        omega
      rw [if_neg hipj, if_neg hij] at hb
      have := h.rest i hi hij p b (by rw [hpi]; exact hp) hb
      exact le_trans hup this

/-! ## Sifting down -/

/-- A node with no child below it only has its parent left to check. -/
theorem DownOrdered.done {key : α → κ} {xs : List α} {j : Nat}
    (h : DownOrdered key xs j)
    (hch : ∀ i, i ≠ 0 → parent i = j → Above key xs j i) :
    UpOrdered key xs j := by
  refine ⟨fun i hi hij => ?_, h.grand⟩
  by_cases hp : parent i = j
  · rw [hp]; exact hch i hi hp
  · exact h.rest i hi hij hp

/-- **One exchange downwards**: where `c` at `m` is the smallest child of
`x` at `j`, exchanging the two leaves only the pairs that touch `x`'s new
place to check. -/
theorem DownOrdered.exchange [DecidableEq α] {key : α → κ} {xs : List α} {j m : Nat} {x c : α}
    (h : DownOrdered key xs j) (hnd : xs.Nodup) (hm0 : m ≠ 0) (hmj : parent m = j)
    (hx : xs[j]? = some x) (hc : xs[m]? = some c)
    (hmin : ∀ i, i ≠ 0 → parent i = j → Above key xs m i) :
    DownOrdered key (exchange x c xs) m := by
  have hjm : j < m := by have := parent_lt hm0; omega
  have hget := exchange_getElem? hnd hx hc
  constructor
  · intro i hi him hpim a b ha hb
    rw [hget] at ha hb
    by_cases hij : i = j
    · -- the pair above the exchanged nodes: `c` under `j`'s old parent
      subst hij
      rw [if_pos rfl] at hb
      cases hb
      have hpi : parent i < i := parent_lt hi
      rw [if_neg (by omega), if_neg (by omega)] at ha
      exact h.grand hi m hm0 hmj a c ha hc
    · rw [if_neg hij, if_neg him] at hb
      by_cases hpj : parent i = j
      · rw [if_pos hpj] at ha
        cases ha
        exact hmin i hi hpj c b hc hb
      · rw [if_neg hpj, if_neg hpim] at ha
        exact h.rest i hi hij hpj a b ha hb
  · intro _ i hi hpi a b ha hb
    rw [hmj, hget, if_pos rfl] at ha
    cases ha
    have hmi : m < i := by have := parent_lt hi; omega
    rw [hget, if_neg (by omega), if_neg (by omega)] at hb
    exact h.rest i hi (by omega) (by omega) c b (by rw [hpi]; exact hc) hb

/-- Replacing the member at `j` of a heap by any other leaves the pairs
that touch `j` to check. -/
theorem Ordered.set {key : α → κ} {xs : List α} (h : Ordered key xs)
    (j : Nat) (x : α) : DownOrdered key (xs.set j x) j := by
  constructor
  · intro i hi hij hpj a b ha hb
    rw [List.getElem?_set_ne (Ne.symm hpj)] at ha
    rw [List.getElem?_set_ne (Ne.symm hij)] at hb
    exact h i hi a b ha hb
  · intro hj0 i hi hpi a b ha hb
    have hpj := parent_lt hj0
    have hip := parent_lt hi
    rw [List.getElem?_set_ne (by omega)] at ha
    rw [List.getElem?_set_ne (by omega)] at hb
    obtain ⟨hil, _⟩ := List.getElem?_eq_some_iff.mp hb
    have hjl : j < xs.length := by omega
    have hj := List.getElem?_eq_getElem hjl
    exact le_trans (h j hj0 a _ ha hj) (h i hi _ b (by rw [hpi]; exact hj) hb)

/-- A prefix of a heap is a heap. -/
theorem Ordered.dropLast {key : α → κ} {xs : List α} (h : Ordered key xs) :
    Ordered key xs.dropLast := by
  intro i hi a b ha hb
  rw [List.dropLast_eq_take, List.getElem?_take] at ha hb
  split at ha
  · split at hb
    · exact h i hi a b ha hb
    · cases hb
  · cases ha

end Ats.LevelHeap
