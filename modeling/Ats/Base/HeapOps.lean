import Ats.Lib.ListRead
import Ats.Base.HeapRep

/-!
# HeapOps: `heap_insert` and `heap_remove` on a well-formed heap

Over `HeapRep` the two operations are: walk to the last place of the level
order, write or clear the link there, and sift. Each theorem gives the
level order after the operation up to permutation, says that no node
outside the heap was touched, and that heap order is kept.
-/

namespace Ats

open LevelHeap

variable {α κ : Type} [LinearOrder κ]

/-- `less_than` answers on the members of `xs`, and compares their keys. -/
def Keyed (lessThan : HeapCompareFn α) (key : α → κ) (xs : List α) : Prop :=
  ∀ a ∈ xs, ∀ b ∈ xs, lessThan a b = some (decide (key a < key b))

theorem Keyed.mono {lessThan : HeapCompareFn α} {key : α → κ} {xs ys : List α}
    (h : Keyed lessThan key xs) (hs : ∀ a ∈ ys, a ∈ xs) : Keyed lessThan key ys :=
  fun a ha b hb => h a (hs a ha) b (hs b hb)

/-! ## The path to a place -/

/-- Where a path of `k` steps ends that starts at place `m` (places count
from `1`, the children of `m` are `2 * m` and `2 * m + 1`). -/
def walkEnd : Nat → Nat → Nat → Nat
  | m, 0, _ => m
  | m, k + 1, path => walkEnd (2 * m + path % 2) k (path / 2)

theorem le_walkEnd : ∀ (k m path : Nat), m ≤ walkEnd m k path := by
  intro k
  induction k with
  | zero => intro m path; exact Nat.le_refl m
  | succ k ih =>
      intro m path
      have := ih (2 * m + path % 2) (path / 2)
      rw [walkEnd]
      omega

/-- The path loop reverses the binary digits of `n`: read back from the
root they lead to place `n`. -/
theorem heapPathLoop_walkEnd : ∀ (fuel n path k : Nat), 1 ≤ n → n ≤ fuel →
    walkEnd 1 (heapPathLoop fuel n path k).2 (heapPathLoop fuel n path k).1
      = walkEnd n k path := by
  intro fuel
  induction fuel with
  | zero => intro n path k h1 h2; omega
  | succ fuel ih =>
      intro n path k h1 h2
      rw [heapPathLoop]
      by_cases hn : 2 ≤ n
      · rw [if_pos hn, ih _ _ _ (by omega) (by omega), walkEnd]
        congr 1 <;> omega
      · have : n = 1 := by omega
        subst this
        rw [if_neg hn]

theorem heapPath_walkEnd {n : Nat} (h : 1 ≤ n) :
    walkEnd 1 (heapPath n).2 (heapPath n).1 = n := by
  rw [heapPath, heapPathLoop_walkEnd n n 0 0 h (Nat.le_refl n), walkEnd]

/-- The slot that holds position `i` of the level order `xs`. -/
def slotAt (xs : List α) (i : Nat) : Slot α :=
  if i = 0 then .min
  else match xs[parent i]? with
    | none => .min
    | some a => if i % 2 = 1 then .left a else .right a

theorem slotAt_child {xs : List α} {i : Nat} {a : α} (hi : i ≠ 0)
    (ha : xs[parent i]? = some a) :
    slotAt xs i = if i % 2 = 1 then .left a else .right a := by
  rw [slotAt, if_neg hi, ha]

namespace HeapRep

variable {s : HeapMem α} {xs : List α}

theorem read_slotAt (h : HeapRep s xs) {i : Nat} (hi : i ≤ xs.length) :
    s.read (slotAt xs i) = xs[i]? := by
  by_cases hi0 : i = 0
  · subst hi0
    simpa [slotAt, HeapMem.read] using h.min
  · have hp := parent_lt hi0
    have ha := List.getElem?_eq_getElem (show parent i < xs.length by omega)
    rw [slotAt_child hi0 ha]
    by_cases ho : i % 2 = 1
    · rw [if_pos ho]
      simp only [HeapMem.read, h.node _ _ ha, linksAt]
      congr 1
      unfold parent
      omega
    · rw [if_neg ho]
      simp only [HeapMem.read, h.node _ _ ha, linksAt]
      congr 1
      unfold parent
      omega

/-- The walk stands on the slot of each place it passes, and `parent` is
the slot before the last. -/
theorem heapWalk_slotAt (h : HeapRep s xs) : ∀ (k path m : Nat) (p : Slot α),
    1 ≤ m → walkEnd m k path ≤ xs.length + 1 →
    ∃ p', heapWalk s k path p (slotAt xs (m - 1))
        = some (p', slotAt xs (walkEnd m k path - 1))
      ∧ (k = 0 → p' = p)
      ∧ (k ≠ 0 → p' = slotAt xs (walkEnd m k path / 2 - 1)) := by
  intro k
  induction k with
  | zero =>
      intro path m p _ _
      exact ⟨p, rfl, fun _ => rfl, fun hk => absurd rfl hk⟩
  | succ k ih =>
      intro path m p hm hend
      rw [walkEnd] at hend ⊢
      have hge := le_walkEnd k (2 * m + path % 2) (path / 2)
      have hml : m - 1 < xs.length := by omega
      have ha := List.getElem?_eq_getElem hml
      have hread : s.read (slotAt xs (m - 1)) = some xs[m - 1] := by
        rw [h.read_slotAt (by omega), ha]
      -- the slot one step down is the slot of the next place
      have hnext : (if path % 2 = 1 then Slot.right xs[m - 1]
            else Slot.left xs[m - 1])
          = slotAt xs (2 * m + path % 2 - 1) := by
        have hpar : parent (2 * m + path % 2 - 1) = m - 1 := by
          unfold parent; omega
        rw [slotAt_child (by omega) (by rw [hpar]; exact ha)]
        by_cases hb : path % 2 = 1
        · rw [if_pos hb, if_neg (by omega)]
        · rw [if_neg hb, if_pos (by omega)]
      obtain ⟨p', hw, h0, h1⟩ :=
        ih (path / 2) (2 * m + path % 2) (slotAt xs (m - 1)) (by omega) hend
      refine ⟨p', ?_, fun hk => absurd hk (Nat.succ_ne_zero k), fun _ => ?_⟩
      · rw [heapWalk, hread]
        dsimp only
        rw [hnext]
        exact hw
      · by_cases hk : k = 0
        · subst hk
          rw [h0 rfl, walkEnd]
          congr 1
          omega
        · exact h1 hk

/-- **The walk to place `n`** ends on its slot; the slot before reads as
the parent node. -/
theorem heapWalk_heapPath (h : HeapRep s xs) {n : Nat} (h1 : 1 ≤ n)
    (hn : n ≤ xs.length + 1) :
    ∃ p, heapWalk s (heapPath n).2 (heapPath n).1 .min .min
        = some (p, slotAt xs (n - 1))
      ∧ (n = 1 → p = .min) ∧ (n ≠ 1 → p = slotAt xs (n / 2 - 1)) := by
  have hend := heapPath_walkEnd h1
  obtain ⟨p, hw, h0, hs⟩ :=
    h.heapWalk_slotAt (heapPath n).2 (heapPath n).1 1 .min (Nat.le_refl 1)
      (by rw [hend]; exact hn)
  rw [hend] at hw hs
  refine ⟨p, hw, fun h1n => h0 (by rw [h1n]; rfl), fun hne => hs ?_⟩
  intro hk
  rw [hk, walkEnd] at hend
  exact hne hend.symm

/-- Reading the heap back gives the level order. -/
theorem heapNodes_eq (h : HeapRep s xs) : heapNodes s = xs := by
  rw [heapNodes, h.nelts]
  refine ListRead.filterMap_range_eq xs _ (fun i hi => ?_)
  obtain ⟨p, hw, _⟩ := h.heapWalk_heapPath (n := i + 1) (by omega) (by omega)
  simp only [heapAt]
  rw [hw]
  exact h.read_slotAt (by omega)

/-! ## The sift loops -/

section Ops

variable [DecidableEq α] {lessThan : HeapCompareFn α} {key : α → κ}

/-- The upward loop: it ends with the same members, and in heap order if
only `x`'s place was in doubt. The induction is on the fuel; the position
of `x` falls with every round. -/
theorem siftUp : ∀ (fuel : Nat) {s : HeapMem α} {xs : List α} {j : Nat} {x : α},
    HeapRep s xs → Keyed lessThan key xs → xs[j]? = some x → j < fuel →
    ∃ t ys, heapSiftUp lessThan fuel s x = some t ∧ HeapRep t ys ∧ ys.Perm xs
      ∧ (∀ a, a ∉ xs → t.node a = s.node a)
      ∧ (UpOrdered key xs j → Ordered key ys) := by
  intro fuel
  induction fuel with
  | zero => intro s xs j x _ _ _ hf; omega
  | succ fuel ih =>
      intro s xs j x h hk hx hf
      have hxm := List.mem_of_getElem? hx
      have hn := h.node j x hx
      rw [heapSiftUp]
      by_cases hj : j = 0
      · -- at the root: nothing above
        refine ⟨s, xs, ?_, h, List.Perm.refl xs, fun a _ => rfl,
          fun ho => ho.done (fun h0 => absurd hj h0)⟩
        simp [hn, linksAt, hj]
      · have hpl := parent_lt hj
        obtain ⟨hjl, _⟩ := List.getElem?_eq_some_iff.mp hx
        obtain ⟨p, hp⟩ : ∃ p, xs[parent j]? = some p :=
          ⟨_, List.getElem?_eq_getElem (by omega)⟩
        have hpm := List.mem_of_getElem? hp
        have hpar : (s.node x).parent = some p := by
          rw [hn]; simp [linksAt, hj, hp]
        rw [hpar]
        dsimp only
        rw [hk x hxm p hpm]
        by_cases hlt : key x < key p
        · -- one exchange, then the rest of the climb
          have hex := exchange_perm h.nodup hpm hxm
          obtain ⟨t, ys, ht, hrep, hperm, hframe, hord⟩ :=
            ih (h.swap hxm hpar) (hk.mono (fun a ha => hex.mem_iff.mp ha))
              (by rw [exchange_getElem? h.nodup hp hx, if_pos rfl]) (by omega)
          refine ⟨t, ys, ?_, hrep, hperm.trans hex, ?_, ?_⟩
          · simpa [hlt] using ht
          · intro a ha
            rw [hframe a (fun hc => ha (hex.mem_iff.mp hc)),
              h.heapNodeSwap_frame hxm hpar ha]
          · exact fun ho => hord (ho.exchange h.nodup hj hx hp hlt)
        · refine ⟨s, xs, ?_, h, List.Perm.refl xs, fun a _ => rfl, fun ho => ?_⟩
          · simp [hlt]
          · refine ho.done (fun _ a b ha hb => ?_)
            rw [hp] at ha
            rw [hx] at hb
            cases ha; cases hb
            exact not_lt.mp hlt

omit [DecidableEq α] in
/-- One comparison of the downward loop. -/
theorem heapSmaller_eq {xs : List α} (hk : Keyed lessThan key xs) {c : Option α}
    {m : α} (hc : ∀ a, c = some a → a ∈ xs) (hm : m ∈ xs) :
    ∃ r, heapSmaller lessThan c m = some r ∧ (r = m ∨ c = some r)
      ∧ key r ≤ key m ∧ (∀ a, c = some a → key r ≤ key a) := by
  cases c with
  | none => exact ⟨m, rfl, .inl rfl, le_refl _, fun a ha => by cases ha⟩
  | some a =>
      have ha := hc a rfl
      by_cases hlt : key a < key m
      · refine ⟨a, by simp [heapSmaller, hk a ha m hm, hlt], .inr rfl, le_of_lt hlt, ?_⟩
        intro b hb
        cases hb
        exact le_refl _
      · refine ⟨m, by simp [heapSmaller, hk a ha m hm, hlt], .inl rfl, le_refl _, ?_⟩
        intro b hb
        cases hb
        exact not_lt.mp hlt

/-- The downward loop: it ends with the same members, `x` at some position
`j'` below which nothing is out of order. The induction is on the fuel; the
position of `x` rises with every round. -/
theorem siftDown : ∀ (fuel : Nat) {s : HeapMem α} {xs : List α} {j : Nat} {x : α},
    HeapRep s xs → Keyed lessThan key xs → xs[j]? = some x →
    xs.length < fuel + j →
    ∃ t ys j', heapSiftDown lessThan fuel s x = some t ∧ HeapRep t ys
      ∧ ys.Perm xs ∧ ys[j']? = some x
      ∧ (∀ a, a ∉ xs → t.node a = s.node a)
      ∧ (DownOrdered key xs j → UpOrdered key ys j') := by
  intro fuel
  induction fuel with
  | zero =>
      intro s xs j x _ _ hx hf
      obtain ⟨hjl, _⟩ := List.getElem?_eq_some_iff.mp hx
      omega
  | succ fuel ih =>
      intro s xs j x h hk hx hf
      have hxm := List.mem_of_getElem? hx
      have hn := h.node j x hx
      have hL : (s.node x).left = xs[2 * j + 1]? := by rw [hn]; rfl
      have hR : (s.node x).right = xs[2 * j + 2]? := by rw [hn]; rfl
      obtain ⟨m1, hm1, hc1, hle1, hl1⟩ := heapSmaller_eq hk (c := (s.node x).left)
        (fun a ha => List.mem_of_getElem? (by rwa [hL] at ha)) hxm
      have hm1x : m1 ∈ xs := by
        rcases hc1 with hc1 | hc1
        · rw [hc1]; exact hxm
        · rw [hL] at hc1; exact List.mem_of_getElem? hc1
      obtain ⟨m2, hm2, hc2, hle2, hl2⟩ := heapSmaller_eq hk (c := (s.node x).right)
        (fun a ha => List.mem_of_getElem? (by rwa [hR] at ha)) hm1x
      -- `m2` is `x` or its child, and no child is below it
      have hmin : ∀ i, i ≠ 0 → parent i = j → ∀ b, xs[i]? = some b →
          key m2 ≤ key b := by
        intro i hi hpi b hb
        rcases (parent_eq_iff hi).mp hpi with h1 | h1
        · exact le_trans hle2 (hl1 b (by rw [hL, ← h1]; exact hb))
        · exact hl2 b (by rw [hR, ← h1]; exact hb)
      have hchild : m2 = x ∨ ∃ m, m ≠ 0 ∧ parent m = j ∧ xs[m]? = some m2 := by
        have hp1 : parent (2 * j + 1) = j := by unfold parent; omega
        have hp2 : parent (2 * j + 2) = j := by unfold parent; omega
        rcases hc2 with hc2 | hc2
        · rcases hc1 with hc1 | hc1
          · exact .inl (hc2.trans hc1)
          · exact .inr ⟨2 * j + 1, by omega, hp1, by rw [hc2, ← hL]; exact hc1⟩
        · exact .inr ⟨2 * j + 2, by omega, hp2, by rw [← hR]; exact hc2⟩
      rw [heapSiftDown]
      by_cases heq : m2 = x
      · refine ⟨s, xs, j, ?_, h, List.Perm.refl xs, hx, fun a _ => rfl, ?_⟩
        · simp [hm1, hm2, heq]
        · refine fun ho => ho.done (fun i hi hpi a b ha hb => ?_)
          rw [hx] at ha
          cases ha
          rw [← heq]
          exact hmin i hi hpi b hb
      · obtain ⟨m, hm0, hmj, hmx⟩ := hchild.resolve_left heq
        have hm2m := List.mem_of_getElem? hmx
        have hpar : (s.node m2).parent = some x := by
          rw [h.node m m2 hmx]; simp [linksAt, hm0, hmj, hx]
        have hex := exchange_perm h.nodup hxm hm2m
        have hmgt := parent_lt hm0
        obtain ⟨t, ys, j', ht, hrep, hperm, hj', hframe, hord⟩ :=
          ih (j := m) (h.swap hm2m hpar) (hk.mono (fun a ha => hex.mem_iff.mp ha))
            (by rw [exchange_getElem? h.nodup hx hmx, if_neg (by omega), if_pos rfl])
            (by rw [exchange_length]; omega)
        refine ⟨t, ys, j', ?_, hrep, hperm.trans hex, hj', ?_, ?_⟩
        · simpa [hm1, hm2, heq] using ht
        · intro a ha
          rw [hframe a (fun hc => ha (hex.mem_iff.mp hc)),
            h.heapNodeSwap_frame hm2m hpar ha]
        · refine fun ho => hord (ho.exchange h.nodup hm0 hmj hx hmx ?_)
          intro i hi hpi a b ha hb
          rw [hmx] at ha
          cases ha
          exact hmin i hi hpi b hb

/-! ## Linking and unlinking the last node -/

omit [DecidableEq α] in
theorem slotAt_eq_min {n : Nat} (hn : n ≤ xs.length) :
    slotAt xs n = .min ↔ n = 0 := by
  by_cases h0 : n = 0
  · simp [slotAt, h0]
  · have hp := parent_lt h0
    rw [slotAt_child h0 (List.getElem?_eq_getElem (by omega))]
    by_cases ho : n % 2 = 1 <;> simp [ho, h0]

omit [DecidableEq α] in
/-- The slot of a position is a link of the node above it. -/
theorem slotAt_eq_link (hnd : xs.Nodup) {n i : Nat} {a : α} (hn : n ≤ xs.length)
    (ha : xs[i]? = some a) :
    (slotAt xs n = .left a ↔ n ≠ 0 ∧ parent n = i ∧ n % 2 = 1)
      ∧ (slotAt xs n = .right a ↔ n ≠ 0 ∧ parent n = i ∧ n % 2 ≠ 1) := by
  by_cases h0 : n = 0
  · simp [slotAt, h0]
  · have hp := parent_lt h0
    obtain ⟨b, hb⟩ : ∃ b, xs[parent n]? = some b :=
      ⟨_, List.getElem?_eq_getElem (by omega)⟩
    have hab : b = a ↔ parent n = i := by
      constructor
      · rintro rfl
        exact getElem?_inj_of_nodup hnd hb ha
      · intro hpi
        rw [hpi, ha] at hb
        exact (Option.some.inj hb).symm
    rw [slotAt_child h0 hb, ← hab]
    by_cases ho : n % 2 = 1
    · simp [ho, h0]
    · simp [ho, h0]

omit [DecidableEq α] in
theorem slotAt_eq_left (hnd : xs.Nodup) {n i : Nat} {a : α}
    (hn : n ≤ xs.length) (ha : xs[i]? = some a) :
    slotAt xs n = .left a ↔ n = 2 * i + 1 := by
  rw [(slotAt_eq_link hnd hn ha).1]
  constructor
  · rintro ⟨h0, hpi, ho⟩
    have := (parent_eq_iff h0).mp hpi
    omega
  · intro hc
    have h0 : n ≠ 0 := by omega
    exact ⟨h0, (parent_eq_iff h0).mpr (.inl hc), by omega⟩

omit [DecidableEq α] in
theorem slotAt_eq_right (hnd : xs.Nodup) {n i : Nat} {a : α}
    (hn : n ≤ xs.length) (ha : xs[i]? = some a) :
    slotAt xs n = .right a ↔ n = 2 * i + 2 := by
  rw [(slotAt_eq_link hnd hn ha).2]
  constructor
  · rintro ⟨h0, hpi, ho⟩
    have := (parent_eq_iff h0).mp hpi
    omega
  · intro hc
    have h0 : n ≠ 0 := by omega
    exact ⟨h0, (parent_eq_iff h0).mpr (.inr hc), by omega⟩

/-- A write to the slot of position `n` changes what stands there, and
nothing else a member's links or the root pointer say. -/
theorem write_slotAt (h : HeapRep s xs) {n : Nat} (hn : n ≤ xs.length)
    (v : Option α) :
    (s.write (slotAt xs n) v).heap.min = (if n = 0 then v else xs[0]?)
    ∧ ∀ i a, xs[i]? = some a →
      (s.write (slotAt xs n) v).node a
        = ⟨if n = 2 * i + 1 then v else xs[2 * i + 1]?,
           if n = 2 * i + 2 then v else xs[2 * i + 2]?,
           if i = 0 then none else xs[parent i]?⟩ := by
  constructor
  · simp only [HeapMem.write_min, slotAt_eq_min hn, h.min]
  · intro i a ha
    apply HeapNode.ext <;>
      simp only [HeapMem.write_left, HeapMem.write_right, HeapMem.write_parent,
        slotAt_eq_left h.nodup hn ha, slotAt_eq_right h.nodup hn ha,
        h.node i a ha, linksAt]

/-- A write to a slot of the tree touches no node outside it. -/
theorem write_slotAt_frame (s : HeapMem α) {n : Nat} (hn : n ≤ xs.length)
    (v : Option α) {b : α} (hb : b ∉ xs) :
    (s.write (slotAt xs n) v).node b = s.node b := by
  have hl : slotAt xs n ≠ .left b ∧ slotAt xs n ≠ .right b := by
    by_cases h0 : n = 0
    · simp [slotAt, h0]
    · have hp := parent_lt h0
      have hlt : parent n < xs.length := by omega
      have ha := List.getElem?_eq_getElem hlt
      have hne : xs[parent n] ≠ b := fun hc =>
        hb (hc ▸ List.getElem_mem hlt)
      rw [slotAt_child h0 ha]
      by_cases ho : n % 2 = 1 <;> simp [ho, hne]
  apply HeapNode.ext <;> simp [hl]

omit [DecidableEq α] in
theorem getElem?_snoc (xs : List α) (x : α) (k : Nat) :
    (xs ++ [x])[k]? = if k = xs.length then some x else xs[k]? := by
  by_cases hk : k = xs.length
  · subst hk; simp
  · rw [if_neg hk]
    rcases Nat.lt_or_ge k xs.length with hlt | hge
    · exact List.getElem?_append_left hlt
    · rw [List.getElem?_eq_none (by simp; omega), List.getElem?_eq_none hge]

omit [DecidableEq α] in
theorem getElem?_dropLast (xs : List α) (k : Nat) :
    xs.dropLast[k]? = if k = xs.length - 1 then none else xs[k]? := by
  rw [List.dropLast_eq_take, List.getElem?_take]
  by_cases hk : k = xs.length - 1
  · subst hk; simp
  · rw [if_neg hk]
    rcases Nat.lt_or_ge k (xs.length - 1) with hlt | hge
    · rw [if_pos hlt]
    · rw [if_neg (by omega), List.getElem?_eq_none (by omega)]

/-- Linking a fresh node at the end of the level order. -/
theorem snoc (h : HeapRep s xs) {x : α} (hx : x ∉ xs)
    (hn : s.node x
      = ⟨none, none, if xs.length = 0 then none else xs[parent xs.length]?⟩) :
    HeapRep ((s.write (slotAt xs xs.length) (some x)).setNelts (xs.length + 1))
      (xs ++ [x]) := by
  obtain ⟨hmin, hnode⟩ := h.write_slotAt (Nat.le_refl xs.length) (some x)
  constructor
  · rw [List.nodup_append]
    refine ⟨h.nodup, List.nodup_singleton x, ?_⟩
    intro a ha b hb hab
    rw [List.mem_singleton] at hb
    exact hx (by rw [← hb, ← hab]; exact ha)
  · simp only [HeapMem.setNelts_heap]
    rw [hmin, getElem?_snoc]
    simp only [eq_comm]
  · simp
  · intro i a ha
    simp only [HeapMem.setNelts_node]
    rw [getElem?_snoc] at ha
    by_cases hi : i = xs.length
    · -- the fresh node: a leaf
      rw [if_pos hi] at ha
      cases ha
      rw [write_slotAt_frame s (Nat.le_refl _) _ hx, hn, hi]
      simp only [linksAt, getElem?_snoc]
      rw [if_neg (show ¬ 2 * xs.length + 1 = xs.length by omega),
        if_neg (show ¬ 2 * xs.length + 2 = xs.length by omega),
        List.getElem?_eq_none (show xs.length ≤ 2 * xs.length + 1 by omega),
        List.getElem?_eq_none (show xs.length ≤ 2 * xs.length + 2 by omega)]
      by_cases h0 : xs.length = 0
      · rw [if_pos h0, if_pos h0]
      · have := parent_lt h0
        rw [if_neg h0, if_neg h0,
          if_neg (show ¬ parent xs.length = xs.length by omega)]
    · rw [if_neg hi] at ha
      rw [hnode i a ha]
      obtain ⟨hil, _⟩ := List.getElem?_eq_some_iff.mp ha
      simp only [linksAt, getElem?_snoc, eq_comm (a := xs.length)]
      by_cases h0 : i = 0
      · simp [h0]
      · rw [if_neg h0, if_neg h0,
          if_neg (show ¬ parent i = xs.length by have := parent_lt h0; omega)]

/-- Unlinking the last node of the level order. -/
theorem unlink (h : HeapRep s xs) :
    HeapRep ((s.setNelts (xs.length - 1)).write (slotAt xs (xs.length - 1)) none)
      xs.dropLast := by
  have h' : ∀ n, ((s.setNelts n).write (slotAt xs (xs.length - 1)) none).heap.min
        = (s.write (slotAt xs (xs.length - 1)) none).heap.min
      ∧ ∀ a, ((s.setNelts n).write (slotAt xs (xs.length - 1)) none).node a
        = (s.write (slotAt xs (xs.length - 1)) none).node a := by
    intro n
    refine ⟨by simp, fun a => ?_⟩
    apply HeapNode.ext <;> simp
  obtain ⟨hmin, hnode⟩ := h.write_slotAt (Nat.sub_le xs.length 1) none
  constructor
  · exact h.nodup.sublist (List.dropLast_sublist xs)
  · rw [(h' _).1, hmin, getElem?_dropLast]
    simp only [eq_comm]
  · simp
  · intro i a ha
    rw [(h' _).2]
    rw [getElem?_dropLast] at ha
    by_cases hi : i = xs.length - 1
    · rw [if_pos hi] at ha
      cases ha
    · rw [if_neg hi] at ha
      rw [hnode i a ha]
      obtain ⟨hil, _⟩ := List.getElem?_eq_some_iff.mp ha
      simp only [linksAt, getElem?_dropLast, eq_comm (a := xs.length - 1)]
      by_cases h0 : i = 0
      · simp [h0]
      · rw [if_neg h0, if_neg h0,
          if_neg (show ¬ parent i = xs.length - 1 by have := parent_lt h0; omega)]

/-! ## heap_insert -/

/-- What `heap_insert` does before its loop: it links the node in the first
free place. -/
theorem link (h : HeapRep s xs) {x : α} (hx : x ∉ xs) :
    ∃ u, HeapRep u (xs ++ [x]) ∧ (∀ a, a ≠ x → a ∉ xs → u.node a = s.node a)
      ∧ ∀ lessThan rounds, heapInsertWithin lessThan rounds s x
        = heapSiftUp lessThan rounds u x := by
  -- `newnode->left = newnode->right = newnode->parent = NULL`
  have h1 : HeapRep (s.setNode x ⟨none, none, none⟩) xs :=
    h.congr rfl (fun a ha => by
      have hax : a ≠ x := fun hc => hx (hc ▸ ha)
      rw [HeapMem.setNode_node, if_neg hax])
  -- the walk to the free place
  obtain ⟨p, hw, hp1, hp2⟩ := h1.heapWalk_heapPath (n := 1 + xs.length)
    (by omega) (by omega)
  have hlen : 1 + xs.length - 1 = xs.length := by omega
  rw [hlen] at hw
  have hread : (s.setNode x ⟨none, none, none⟩).read p
      = if xs.length = 0 then none else xs[parent xs.length]? := by
    by_cases h0 : xs.length = 0
    · rw [hp1 (by omega), if_pos h0]
      simp only [HeapMem.read, HeapMem.setNode_heap, h.min]
      exact List.getElem?_eq_none (by omega)
    · have hpl : (1 + xs.length) / 2 - 1 = parent xs.length := by
        unfold parent; omega
      have := parent_lt h0
      rw [hp2 (by omega), if_neg h0, hpl, h1.read_slotAt (by omega)]
  -- `newnode->parent = *parent; *child = newnode; nelts += 1`
  have h2 : HeapRep ((s.setNode x ⟨none, none, none⟩).setParent x
      ((s.setNode x ⟨none, none, none⟩).read p)) xs :=
    h1.congr rfl (fun a ha =>
      HeapMem.setParent_node_ne _ _ (fun hc => hx (hc ▸ ha)))
  have h3 := h2.snoc hx (by
    rw [hread]
    apply HeapNode.ext <;> simp)
  refine ⟨_, h3, ?_, ?_⟩
  · intro a hax ha
    rw [HeapMem.setNelts_node, write_slotAt_frame _ (Nat.le_refl _) _ ha,
      HeapMem.setParent_node_ne _ _ hax, HeapMem.setNode_node, if_neg hax]
  · intro lessThan rounds
    simp only [heapInsertWithin, HeapMem.setNode_heap, h.nelts, hw, Option.bind_eq_bind,
      Option.bind_some, HeapMem.write_nelts, HeapMem.setParent_heap]

/-- **`heap_insert` adds its node**: the members are `x` and the old ones,
no other node is touched, and heap order is kept. -/
theorem insert (h : HeapRep s xs) {x : α} (hx : x ∉ xs)
    (hk : Keyed lessThan key (x :: xs)) :
    ∃ t ys, heapInsert lessThan s x = some t ∧ HeapRep t ys
      ∧ ys.Perm (x :: xs) ∧ (∀ a, a ≠ x → a ∉ xs → t.node a = s.node a)
      ∧ (Ordered key xs → Ordered key ys) := by
  obtain ⟨u, hu, huframe, hcall⟩ := h.link hx
  have hxl : (xs ++ [x])[xs.length]? = some x := by simp
  have hperm : (xs ++ [x]).Perm (x :: xs) := List.perm_append_singleton x xs
  obtain ⟨t, ys, ht, hrep, hys, hframe, hord⟩ :=
    siftUp (s.heap.nelts + 2) hu (hk.mono (fun a ha => hperm.mem_iff.mp ha)) hxl
      (by rw [h.nelts]; omega)
  refine ⟨t, ys, (hcall lessThan _).trans ht, hrep, hys.trans hperm, ?_,
    fun ho => hord (ho.snoc x)⟩
  intro a hax ha
  rw [hframe a (by simp [hax, ha]), huframe a hax ha]

/-! ## heap_remove -/

section Splice

variable {x c a : α}

/-! What the splice writes, for an `x` in the tree and a `c` outside. -/

theorem splice_left (h : HeapRep s xs) (hx : x ∈ xs) (hc : c ∉ xs) (hac : a ≠ c) :
    ((heapSplice s x c).node a).left
      = if (s.node x).parent = some a ∧ (s.node a).left = some x then some c
        else (s.node a).left := by
  have hxc : x ≠ c := fun hxc => hc (hxc ▸ hx)
  simp [heapSplice, hac, hxc, h.notSelf hx]

theorem splice_right (h : HeapRep s xs) (hx : x ∈ xs) (hc : c ∉ xs) (hac : a ≠ c) :
    ((heapSplice s x c).node a).right
      = if (s.node x).parent = some a ∧ (s.node a).left ≠ some x then some c
        else (s.node a).right := by
  have hxc : x ≠ c := fun hxc => hc (hxc ▸ hx)
  simp [heapSplice, hac, hxc, h.notSelf hx]

theorem splice_parent (s : HeapMem α) (x : α) (hac : a ≠ c) :
    ((heapSplice s x c).node a).parent
      = if (s.node x).left = some a ∨ (s.node x).right = some a then some c
        else (s.node a).parent := by
  by_cases h1 : (s.node x).right = some a <;>
    by_cases h2 : (s.node x).left = some a <;>
    simp [heapSplice, hac, h1, h2]

theorem splice_self (h : HeapRep s xs) (hx : x ∈ xs) (hc : c ∉ xs) :
    (heapSplice s x c).node c = s.node x := by
  have hxc : x ≠ c := fun hxc => hc (hxc ▸ hx)
  have hself := h.notSelf hx
  have hout := h.notOutside hx hc
  apply HeapNode.ext <;> simp [heapSplice, hxc, hself, hout]

theorem splice_min (h : HeapRep s xs) (hx : x ∈ xs) (hc : c ∉ xs) :
    (heapSplice s x c).heap.min
      = if (s.node x).parent = none then some c else s.heap.min := by
  have hxc : x ≠ c := fun hxc => hc (hxc ▸ hx)
  simp [heapSplice, hxc, h.notSelf hx]

end Splice

/-- The splice puts `c`, a node outside the tree, in `x`'s place: a
renaming, as in `heap_node_swap`. -/
theorem splice (h : HeapRep s xs) {x c : α} {i : Nat} (hi : xs[i]? = some x)
    (hc : c ∉ xs) : HeapRep (heapSplice s x c) (xs.set i c) := by
  have hx := List.mem_of_getElem? hi
  have notX := h.notSelf hx
  rw [set_eq_exchange h.nodup hi hc]
  constructor
  · exact exchange_nodup h.nodup
  · rw [h.splice_min hx hc, exchange, List.getElem?_map, ← h.min]
    by_cases hpn : (s.node x).parent = none
    · rw [if_pos hpn, (h.min_iff hx).mpr hpn]
      simp
    · rw [if_neg hpn]
      refine (swap_map_eq_self (fun hm => hpn ((h.min_iff hx).mp hm)) ?_).symm
      intro hm
      rw [h.min] at hm
      exact hc (List.mem_of_getElem? hm)
  · rw [exchange_length, ← h.nelts]
    simp [heapSplice]
  · intro k a ha
    rw [exchange, List.getElem?_map, Option.map_eq_some_iff] at ha
    obtain ⟨b, hb, rfl⟩ := ha
    have hbm := List.mem_of_getElem? hb
    have hbc : b ≠ c := fun hbc => hc (hbc ▸ hbm)
    have notC := h.notOutside hbm hc
    rw [exchange, linksAt_map, ← h.node k b hb]
    by_cases hbx : b = x
    · subst hbx
      rw [Equiv.swap_apply_left, h.splice_self hx hc]
      apply HeapNode.ext
      · exact (swap_map_eq_self notX.1 notC.1).symm
      · exact (swap_map_eq_self notX.2.1 notC.2.1).symm
      · exact (swap_map_eq_self notX.2.2 notC.2.2).symm
    · rw [Equiv.swap_apply_of_ne_of_ne hbx hbc]
      apply HeapNode.ext
      · rw [h.splice_left hx hc hbc]
        by_cases hl : (s.node b).left = some x
        · simp [renamed, hl, (h.parent_of_left hbm hl).2]
        · rw [if_neg (fun hz => hl hz.2)]
          exact (swap_map_eq_self hl notC.1).symm
      · rw [h.splice_right hx hc hbc]
        by_cases hr : (s.node b).right = some x
        · have hl : (s.node b).left ≠ some x := fun hl => h.left_ne_right hbm hl hr
          simp [renamed, hr, hl, (h.parent_of_right hbm hr).2]
        · have hno : ¬ ((s.node x).parent = some b ∧ (s.node b).left ≠ some x) := by
            rintro ⟨hxp, hl⟩
            rcases (h.child_of_parent hx hxp).2 with hz | hz
            · exact hl hz
            · exact hr hz
          rw [if_neg hno]
          exact (swap_map_eq_self hr notC.2.1).symm
      · rw [splice_parent s x hbc]
        by_cases h2 : (s.node x).left = some b ∨ (s.node x).right = some b
        · have hxb : (s.node b).parent = some x :=
            h2.elim (fun hl => (h.parent_of_left hx hl).2)
              (fun hr => (h.parent_of_right hx hr).2)
          simp [renamed, h2, hxb]
        · rw [if_neg h2]
          exact (swap_map_eq_self
            (fun hz => h2 (h.child_of_parent hbm hz).2) notC.2.2).symm

/-- The splice touches no node outside the tree but the one it links. -/
theorem splice_frame (h : HeapRep s xs) {x c : α} (hx : x ∈ xs) {a : α}
    (ha : a ∉ xs) (hac : a ≠ c) : (heapSplice s x c).node a = s.node a := by
  have hxc := h.notOutside hx ha
  have notX := h.notSelf hx
  by_cases hcx : x = c
  · subst hcx
    apply HeapNode.ext <;> simp [heapSplice, hac, hxc, notX]
  · apply HeapNode.ext <;> simp [heapSplice, hac, hcx, hxc, notX]

/-- What `heap_remove` does before its loops: it unlinks the last node `m`,
and puts it in the place of the node that goes, unless that is `m`. -/
theorem takeOut (h : HeapRep s xs) {x : α} (hx : x ∈ xs) :
    ∃ u, (∀ a, a ∉ xs → u.node a = s.node a)
      ∧ ((HeapRep u xs.dropLast ∧ xs.dropLast.Perm (xs.erase x)
          ∧ ∀ lessThan rounds, heapRemoveWithin lessThan rounds s x = some u)
        ∨ ∃ i m, m ∈ xs ∧ i < xs.dropLast.length ∧ HeapRep u (xs.dropLast.set i m)
          ∧ (xs.dropLast.set i m).Perm (xs.erase x)
          ∧ ∀ lessThan rounds, heapRemoveWithin lessThan rounds s x
            = (heapSiftDown lessThan rounds u m).bind
              fun t => heapSiftUp lessThan rounds t m) := by
  have hne : xs.length ≠ 0 := fun h0 => by
    rw [List.length_eq_zero_iff] at h0
    rw [h0] at hx
    cases hx
  obtain ⟨p, hw, _, _⟩ := h.heapWalk_heapPath (n := xs.length) (by omega) (by omega)
  obtain ⟨m, hm⟩ : ∃ m, xs[xs.length - 1]? = some m :=
    ⟨_, List.getElem?_eq_getElem (by omega)⟩
  have hmm := List.mem_of_getElem? hm
  -- the heap with its last node `m` unlinked
  have hread : (s.setNelts (xs.length - 1)).read (slotAt xs (xs.length - 1))
      = some m := by
    rw [← hm, ← h.read_slotAt (Nat.sub_le xs.length 1)]
    cases slotAt xs (xs.length - 1) <;> rfl
  have hu := h.unlink
  have huframe : ∀ a, a ∉ xs →
      ((s.setNelts (xs.length - 1)).write (slotAt xs (xs.length - 1)) none).node a
        = s.node a := fun a ha => by
    rw [write_slotAt_frame _ (Nat.sub_le xs.length 1) _ ha, HeapMem.setNelts_node]
  generalize hsu :
    (s.setNelts (xs.length - 1)).write (slotAt xs (xs.length - 1)) none = u
    at hu huframe
  have hxs : xs = xs.dropLast ++ [m] := by
    have hlast : xs.getLast? = some m := by
      rw [List.getLast?_eq_getElem?]
      exact hm
    exact (List.dropLast_append_getLast? m hlast).symm
  have hmd : m ∉ xs.dropLast := by
    intro hc
    have hnd := h.nodup
    rw [hxs, List.nodup_append] at hnd
    exact hnd.2.2 m hc m (List.mem_singleton_self m) rfl
  by_cases hmx : m = x
  · -- the last node itself
    have hmin : u.heap.min ≠ some m := by
      rw [hu.min]
      exact fun hc => hmd (List.mem_of_getElem? hc)
    have hxd : x ∉ xs.dropLast := hmx ▸ hmd
    have hperm : xs.dropLast.Perm (xs.erase x) := by
      conv_rhs => rw [hxs, List.erase_append_right _ hxd, hmx]
      simp
    refine ⟨u, huframe, .inl ⟨hu, hperm, fun lessThan rounds => ?_⟩⟩
    simp only [heapRemoveWithin, h.nelts, if_neg hne, hw, Option.bind_eq_bind,
      Option.bind_some, hread, hsu, if_pos hmx, if_neg hmin]
  · -- another node: the last one takes its place
    have hxd : x ∈ xs.dropLast := by
      rw [hxs, List.mem_append, List.mem_singleton] at hx
      exact hx.resolve_right (fun hc => hmx hc.symm)
    obtain ⟨i, hi⟩ := List.mem_iff_getElem?.mp hxd
    obtain ⟨hil, _⟩ := List.getElem?_eq_some_iff.mp hi
    have hperm : (xs.dropLast.set i m).Perm (xs.erase x) := by
      refine (set_perm_cons_erase hu.nodup hi m).trans ?_
      conv_rhs => rw [hxs, List.erase_append_left _ hxd]
      exact (List.perm_append_singleton m _).symm
    refine ⟨heapSplice u x m, ?_, .inr ⟨i, m, hmm, hil, hu.splice hi hmd, hperm, ?_⟩⟩
    · intro a ha
      have ham : a ≠ m := fun hc => ha (hc ▸ hmm)
      have had : a ∉ xs.dropLast := fun hc => ha (List.dropLast_subset xs hc)
      rw [hu.splice_frame hxd had ham, huframe a ha]
    · intro lessThan rounds
      simp only [heapRemoveWithin, h.nelts, if_neg hne, hw, Option.bind_eq_bind,
        Option.bind_some, hread, hsu, if_neg hmx]

/-- **`heap_remove` of a linked node removes it**: the members are the
others, no node outside the heap is touched, and heap order is kept. -/
theorem remove (h : HeapRep s xs) {x : α} (hx : x ∈ xs)
    (hk : Keyed lessThan key xs) :
    ∃ t ys, heapRemove lessThan s x = some t ∧ HeapRep t ys
      ∧ ys.Perm (xs.erase x) ∧ (∀ a, a ∉ xs → t.node a = s.node a)
      ∧ (Ordered key xs → Ordered key ys) := by
  obtain ⟨u, huframe, hcase⟩ := h.takeOut hx
  rcases hcase with ⟨hu, hperm, hcall⟩ | ⟨i, m, hmm, hil, hs, hperm, hcall⟩
  · exact ⟨u, xs.dropLast, hcall lessThan _, hu, hperm, huframe, fun ho => ho.dropLast⟩
  · have hlen : (xs.dropLast.set i m).length = xs.length - 1 := by simp
    have hsub : ∀ a ∈ xs.dropLast.set i m, a ∈ xs := by
      intro a ha
      rcases List.mem_or_eq_of_mem_set ha with ha | ha
      · exact List.dropLast_subset xs ha
      · rw [ha]; exact hmm
    obtain ⟨t, ys, j, ht, hrep, hys, hj, hframe, hord⟩ :=
      siftDown s.heap.nelts hs (hk.mono hsub)
        (List.getElem?_set_self hil)
        (by rw [hlen, h.nelts]; rw [List.length_dropLast] at hil; omega)
    obtain ⟨hjl, _⟩ := List.getElem?_eq_some_iff.mp hj
    obtain ⟨t', zs, ht', hrep', hzs, hframe', hord'⟩ :=
      siftUp s.heap.nelts hrep
        (hk.mono (fun a ha => hsub a (hys.mem_iff.mp ha))) hj
        (by rw [hys.length_eq, hlen] at hjl; rw [h.nelts]; omega)
    refine ⟨t', zs, ?_, hrep', hzs.trans (hys.trans hperm), ?_, ?_⟩
    · rw [heapRemove, hcall, ht]
      exact ht'
    · intro a ha
      have has : a ∉ xs.dropLast.set i m := fun hc => ha (hsub a hc)
      rw [hframe' a (fun hc => has (hys.mem_iff.mp hc)), hframe a has, huframe a ha]
    · exact fun ho => hord' (hord (ho.dropLast.set i m))

end Ops

end HeapRep

/-! ## The number of nodes

`heap_remove` counts one node less whatever its argument is, so these need
no well-formed heap. -/

variable [DecidableEq α]

theorem heapSiftUp_nelts {lessThan : HeapCompareFn α} :
    ∀ (fuel : Nat) {s t : HeapMem α} {x : α}, heapSiftUp lessThan fuel s x = some t →
      t.heap.nelts = s.heap.nelts := by
  intro fuel
  induction fuel with
  | zero =>
      intro s t x h
      cases h
  | succ fuel ih =>
      intro s t x h
      rw [heapSiftUp] at h
      split at h
      case h_1 =>
        cases h
        rfl
      case h_2 p _ =>
        rw [Option.bind_eq_bind, Option.bind_eq_some_iff] at h
        obtain ⟨b, _, h⟩ := h
        split at h
        · rw [ih h, heapNodeSwap_nelts]
        · cases h
          rfl

theorem heapSiftDown_nelts {lessThan : HeapCompareFn α} :
    ∀ (fuel : Nat) {s t : HeapMem α} {x : α}, heapSiftDown lessThan fuel s x = some t →
      t.heap.nelts = s.heap.nelts := by
  intro fuel
  induction fuel with
  | zero =>
      intro s t x h
      cases h
  | succ fuel ih =>
      intro s t x h
      rw [heapSiftDown] at h
      simp only [Option.bind_eq_bind, Option.bind_eq_some_iff] at h
      obtain ⟨m, _, m', _, h⟩ := h
      split at h
      · cases h
        rfl
      · rw [ih h, heapNodeSwap_nelts]

theorem heapSplice_nelts (s : HeapMem α) (node child : α) :
    (heapSplice s node child).heap.nelts = s.heap.nelts := by
  simp [heapSplice]

/-- `heap_remove` of anything, where it returns. -/
theorem heapRemove_nelts {lessThan : HeapCompareFn α} {s t : HeapMem α} {x : α}
    (h : heapRemove lessThan s x = some t) : t.heap.nelts = s.heap.nelts - 1 := by
  rw [heapRemove, heapRemoveWithin] at h
  split at h
  case isTrue h0 =>
    cases h
    omega
  case isFalse h0 =>
    simp only [Option.bind_eq_bind, Option.bind_eq_some_iff] at h
    obtain ⟨⟨_, max⟩, _, child, _, h⟩ := h
    split at h
    · cases h
      split <;> simp
    · simp only [Option.bind_eq_some_iff] at h
      obtain ⟨u, hdown, hup⟩ := h
      rw [heapSiftUp_nelts _ hup, heapSiftDown_nelts _ hdown, heapSplice_nelts]
      simp

/-- `heap_remove` on an empty heap returns at once. -/
theorem heapRemove_empty {lessThan : HeapCompareFn α} {s : HeapMem α} (x : α)
    (h : s.heap.nelts = 0) : heapRemove lessThan s x = some s := by
  rw [heapRemove, heapRemoveWithin, if_pos h]

end Ats
