import Ats.Lib.LevelHeap
import Ats.Base.HeapInl

/-!
# HeapRep: what the pointer heap stores

`HeapRep s xs` says that the pointers of `s` are the complete binary tree
with level order `xs`. The heap functions are then operations on `xs`:
`heap_node_swap` exchanges two neighbours, the path walk ends at the place
it was computed for, and `heap_insert` and `heap_remove` add and remove one
member, keep heap order, and touch no node outside the tree.
-/

namespace Ats

open LevelHeap

variable {α : Type} [DecidableEq α]

/-- The links of the node at position `i` of the level order `xs`. -/
def linksAt (xs : List α) (i : Nat) : HeapNode α :=
  ⟨xs[2 * i + 1]?, xs[2 * i + 2]?, if i = 0 then none else xs[parent i]?⟩

/-- **The representation**: the pointers of `s` spell the level order
`xs`, with no node twice. -/
structure HeapRep (s : HeapMem α) (xs : List α) : Prop where
  nodup : xs.Nodup
  min : s.heap.min = xs[0]?
  nelts : s.heap.nelts = xs.length
  node : ∀ i a, xs[i]? = some a → s.node a = linksAt xs i

namespace HeapRep

variable {s t : HeapMem α} {xs : List α}

omit [DecidableEq α] in
/-- The representation only reads the header and the members' links. -/
theorem congr (h : HeapRep s xs) (hh : t.heap = s.heap)
    (hn : ∀ a ∈ xs, t.node a = s.node a) : HeapRep t xs where
  nodup := h.nodup
  min := by rw [hh, h.min]
  nelts := by rw [hh, h.nelts]
  node := fun i a hi => by
    rw [hn a (List.mem_of_getElem? hi), h.node i a hi]

omit [DecidableEq α] in
/-- The empty heap. -/
theorem nil (node : α → HeapNode α) : HeapRep ⟨heapInit, node⟩ [] where
  nodup := List.nodup_nil
  min := rfl
  nelts := rfl
  node := fun i a hi => by simp at hi

/-! ## Parent and child pointers agree -/

omit [DecidableEq α] in
theorem parent_of_left (h : HeapRep s xs) {a b : α} (ha : a ∈ xs)
    (hl : (s.node a).left = some b) : b ∈ xs ∧ (s.node b).parent = some a := by
  obtain ⟨i, hi⟩ := List.mem_iff_getElem?.mp ha
  rw [h.node i a hi] at hl
  refine ⟨List.mem_of_getElem? hl, ?_⟩
  rw [h.node _ b hl]
  have : parent (2 * i + 1) = i := by unfold parent; omega
  simp [linksAt, this, hi]

omit [DecidableEq α] in
theorem parent_of_right (h : HeapRep s xs) {a b : α} (ha : a ∈ xs)
    (hr : (s.node a).right = some b) : b ∈ xs ∧ (s.node b).parent = some a := by
  obtain ⟨i, hi⟩ := List.mem_iff_getElem?.mp ha
  rw [h.node i a hi] at hr
  refine ⟨List.mem_of_getElem? hr, ?_⟩
  rw [h.node _ b hr]
  have : parent (2 * i + 2) = i := by unfold parent; omega
  simp [linksAt, this, hi]

omit [DecidableEq α] in
theorem child_of_parent (h : HeapRep s xs) {a b : α} (ha : a ∈ xs)
    (hp : (s.node a).parent = some b) :
    b ∈ xs ∧ ((s.node b).left = some a ∨ (s.node b).right = some a) := by
  obtain ⟨i, hi⟩ := List.mem_iff_getElem?.mp ha
  rw [h.node i a hi] at hp
  by_cases hi0 : i = 0
  · simp [linksAt, hi0] at hp
  · simp only [linksAt, if_neg hi0] at hp
    refine ⟨List.mem_of_getElem? hp, ?_⟩
    rw [h.node _ b hp]
    rcases (parent_eq_iff hi0).mp rfl with h1 | h1
    · exact .inl (by simp only [linksAt]; rw [← h1]; exact hi)
    · exact .inr (by simp only [linksAt]; rw [← h1]; exact hi)

omit [DecidableEq α] in
theorem left_ne_right (h : HeapRep s xs) {a b : α} (ha : a ∈ xs)
    (hl : (s.node a).left = some b) : (s.node a).right ≠ some b := by
  intro hr
  obtain ⟨i, hi⟩ := List.mem_iff_getElem?.mp ha
  rw [h.node i a hi] at hl hr
  have := getElem?_inj_of_nodup h.nodup hl hr
  omega

omit [DecidableEq α] in
/-- No node is its own child, nor its grandchild. -/
theorem parent_ne (h : HeapRep s xs) {a b : α} (ha : a ∈ xs)
    (hp : (s.node a).parent = some b) : a ≠ b ∧ (s.node b).parent ≠ some a := by
  obtain ⟨i, hi⟩ := List.mem_iff_getElem?.mp ha
  rw [h.node i a hi] at hp
  by_cases hi0 : i = 0
  · simp [linksAt, hi0] at hp
  · simp only [linksAt, if_neg hi0] at hp
    have hlt := parent_lt hi0
    constructor
    · rintro rfl
      have := getElem?_inj_of_nodup h.nodup hi hp
      omega
    · rw [h.node _ b hp]
      intro hc
      by_cases hp0 : parent i = 0
      · simp [linksAt, hp0] at hc
      · simp only [linksAt, if_neg hp0] at hc
        have := getElem?_inj_of_nodup h.nodup hi hc
        have := parent_lt hp0
        omega

omit [DecidableEq α] in
/-- No link of a node names the node itself. -/
theorem notSelf (h : HeapRep s xs) {x : α} (hx : x ∈ xs) :
    (s.node x).left ≠ some x ∧ (s.node x).right ≠ some x ∧ (s.node x).parent ≠ some x := by
  have self : (s.node x).parent ≠ some x := fun hs => (h.parent_ne hx hs).1 rfl
  exact ⟨fun hl => self (h.parent_of_left hx hl).2, fun hr => self (h.parent_of_right hx hr).2,
    self⟩

omit [DecidableEq α] in
/-- Nor a node outside the tree. -/
theorem notOutside (h : HeapRep s xs) {a c : α} (ha : a ∈ xs) (hc : c ∉ xs) :
    (s.node a).left ≠ some c ∧ (s.node a).right ≠ some c ∧ (s.node a).parent ≠ some c :=
  ⟨fun hl => hc (h.parent_of_left ha hl).1, fun hr => hc (h.parent_of_right ha hr).1,
    fun hp => hc (h.child_of_parent ha hp).1⟩

omit [DecidableEq α] in
theorem min_iff (h : HeapRep s xs) {a : α} (ha : a ∈ xs) :
    s.heap.min = some a ↔ (s.node a).parent = none := by
  obtain ⟨i, hi⟩ := List.mem_iff_getElem?.mp ha
  rw [h.node i a hi, h.min]
  by_cases hi0 : i = 0
  · subst hi0
    simp [linksAt, hi]
  · have hlt := parent_lt hi0
    obtain ⟨hil, _⟩ := List.getElem?_eq_some_iff.mp hi
    simp only [linksAt, if_neg hi0]
    constructor
    · intro h0
      exact absurd (getElem?_inj_of_nodup h.nodup h0 hi) (Ne.symm hi0)
    · intro hn
      rw [List.getElem?_eq_none_iff] at hn
      omega

/-! ## heap_node_swap -/

/-- The links with every pointer renamed. -/
def renamed (σ : α → α) (n : HeapNode α) : HeapNode α :=
  ⟨n.left.map σ, n.right.map σ, n.parent.map σ⟩

omit [DecidableEq α] in
theorem linksAt_map (σ : α → α) (xs : List α) (i : Nat) :
    linksAt (xs.map σ) i = renamed σ (linksAt xs i) := by
  simp only [linksAt, renamed, List.getElem?_map]
  split <;> rfl

/-- What the swapped pair's pointers must not be for the writes of
`heap_node_swap` not to run into one another. -/
structure SwapApart (s : HeapMem α) (p c : α) : Prop where
  ne : c ≠ p
  left_p : (s.node c).left ≠ some p
  left_c : (s.node c).left ≠ some c
  right_p : (s.node c).right ≠ some p
  right_c : (s.node c).right ≠ some c
  up_p : (s.node p).parent ≠ some p
  up_c : (s.node p).parent ≠ some c
  pl_p : (s.node p).left ≠ some p
  pr_p : (s.node p).right ≠ some p
  once : (s.node p).left = some c → (s.node p).right ≠ some c
  child : (s.node p).left = some c ∨ (s.node p).right = some c

omit [DecidableEq α] in
theorem swapApart (h : HeapRep s xs) {p c : α} (hc : c ∈ xs)
    (hpc : (s.node c).parent = some p) : SwapApart s p c := by
  obtain ⟨hp, hchild⟩ := h.child_of_parent hc hpc
  obtain ⟨hne, hpp⟩ := h.parent_ne hc hpc
  have self : ∀ a ∈ xs, (s.node a).parent ≠ some a :=
    fun a ha hs => (h.parent_ne ha hs).1 rfl
  refine ⟨hne, ?_, ?_, ?_, ?_, self p hp, hpp, ?_, ?_, h.left_ne_right hp, hchild⟩
  · exact fun hl => hpp (h.parent_of_left hc hl).2
  · exact fun hl => self c hc (h.parent_of_left hc hl).2
  · exact fun hr => hpp (h.parent_of_right hc hr).2
  · exact fun hr => self c hc (h.parent_of_right hc hr).2
  · exact fun hl => self p hp (h.parent_of_left hp hl).2
  · exact fun hr => self p hp (h.parent_of_right hp hr).2

/-- The links down that `heap_node_swap` leaves. -/
theorem heapNodeSwap_children {p c : α} (d : SwapApart s p c) (a : α) :
    ((heapNodeSwap s p c).node a).left
        = (if a = p then (s.node c).left
          else if a = c then
            (if (s.node p).left = some c then some p else (s.node p).left)
          else if (s.node p).parent = some a ∧ (s.node a).left = some p then some c
          else (s.node a).left)
      ∧ ((heapNodeSwap s p c).node a).right
        = (if a = p then (s.node c).right
          else if a = c then
            (if (s.node p).left = some c then (s.node p).right else some p)
          else if (s.node p).parent = some a ∧ (s.node a).left ≠ some p then some c
          else (s.node a).right) := by
  have hne := d.ne
  have hne' := d.ne.symm
  unfold heapNodeSwap
  by_cases hl : (s.node p).left = some c
  · simp [hne, hne', hl, d.once hl, d.left_c, d.right_c]
    by_cases hap : a = p
    · subst hap; simp [d.up_p, hne']
    · by_cases hac : a = c
      · subst hac; simp [hap, d.up_c]
      · simp [hap, hac]
  · simp [hne, hne', hl, d.left_c, d.right_c]
    by_cases hap : a = p
    · subst hap; simp [d.up_p, hne']
    · by_cases hac : a = c
      · subst hac; simp [hap, d.up_c]
      · simp [hap, hac]

theorem heapNodeSwap_left {p c : α} (d : SwapApart s p c) (a : α) :
    ((heapNodeSwap s p c).node a).left
      = if a = p then (s.node c).left
        else if a = c then
          (if (s.node p).left = some c then some p else (s.node p).left)
        else if (s.node p).parent = some a ∧ (s.node a).left = some p then some c
        else (s.node a).left :=
  (heapNodeSwap_children d a).1

theorem heapNodeSwap_right {p c : α} (d : SwapApart s p c) (a : α) :
    ((heapNodeSwap s p c).node a).right
      = if a = p then (s.node c).right
        else if a = c then
          (if (s.node p).left = some c then (s.node p).right else some p)
        else if (s.node p).parent = some a ∧ (s.node a).left ≠ some p then some c
        else (s.node a).right :=
  (heapNodeSwap_children d a).2

/-- The parent links `heap_node_swap` leaves. -/
theorem heapNodeSwap_parent {p c : α} (d : SwapApart s p c) (a : α) :
    ((heapNodeSwap s p c).node a).parent
      = if a = p then some c
        else if a = c then (s.node p).parent
        else if (s.node c).left = some a ∨ (s.node c).right = some a then some p
        else if (s.node p).left = some a ∨ (s.node p).right = some a then some c
        else (s.node a).parent := by
  have hne := d.ne
  have hne' := d.ne.symm
  unfold heapNodeSwap
  by_cases hl : (s.node p).left = some c
  · simp [hne, hne', hl, d.once hl, d.left_c, d.right_c]
    by_cases hap : a = p
    · subst hap; simp [d.right_p, d.left_p, d.pr_p]
    · by_cases hac : a = c
      · subst hac; simp [hap, d.right_c, d.left_c, d.once hl]
      · simp [hap, hac, Ne.symm hac]
        by_cases h1 : (s.node c).right = some a <;>
          by_cases h2 : (s.node c).left = some a <;> simp [h1, h2]
  · have hr : (s.node p).right = some c := d.child.resolve_left hl
    simp [hne, hne', hl, hr, d.left_c, d.right_c]
    by_cases hap : a = p
    · subst hap; simp [d.right_p, d.left_p, d.pl_p]
    · by_cases hac : a = c
      · subst hac; simp [hap, d.right_c, d.left_c, hl]
      · simp [hap, hac, Ne.symm hac]
        by_cases h1 : (s.node c).right = some a <;>
          by_cases h2 : (s.node c).left = some a <;> simp [h1, h2]

theorem heapNodeSwap_min {p c : α} (d : SwapApart s p c) :
    (heapNodeSwap s p c).heap.min
      = if (s.node p).parent = none then some c else s.heap.min := by
  have hne := d.ne
  have hne' := d.ne.symm
  unfold heapNodeSwap
  by_cases hl : (s.node p).left = some c
  · simp [hne, hne', hl, d.once hl, d.left_c, d.right_c]
  · simp [hne, hne', hl, d.left_c, d.right_c]

/-- A renaming that trades `p` and `c` fixes a pointer to neither. -/
theorem swap_map_eq_self {p c : α} {v : Option α} (hp : v ≠ some p)
    (hc : v ≠ some c) : v.map (Equiv.swap p c) = v := by
  cases v with
  | none => rfl
  | some b =>
      have hbp : b ≠ p := fun hb => hp (by rw [hb])
      have hbc : b ≠ c := fun hb => hc (by rw [hb])
      simp [Equiv.swap_apply_of_ne_of_ne hbp hbc]

/-- **`heap_node_swap` is a renaming**: in a tree it trades the names of
parent and child everywhere. -/
theorem heapNodeSwap_renamed (h : HeapRep s xs) {p c : α} (hc : c ∈ xs)
    (hpc : (s.node c).parent = some p) {a : α} (ha : a ∈ xs) :
    (heapNodeSwap s p c).node (Equiv.swap p c a)
      = renamed (Equiv.swap p c) (s.node a) := by
  have d := h.swapApart hc hpc
  obtain ⟨hp, _⟩ := h.child_of_parent hc hpc
  by_cases hap : a = p
  · -- `c` gets the parent's links
    subst hap
    rw [Equiv.swap_apply_left]
    apply HeapNode.ext
    · rw [heapNodeSwap_left d, if_neg d.ne, if_pos rfl]
      by_cases hl : (s.node a).left = some c
      · simp [renamed, hl]
      · rw [if_neg hl]
        exact (swap_map_eq_self d.pl_p hl).symm
    · rw [heapNodeSwap_right d, if_neg d.ne, if_pos rfl]
      by_cases hl : (s.node a).left = some c
      · rw [if_pos hl]
        exact (swap_map_eq_self d.pr_p (d.once hl)).symm
      · simp [renamed, hl, d.child.resolve_left hl]
    · rw [heapNodeSwap_parent d, if_neg d.ne, if_pos rfl]
      exact (swap_map_eq_self d.up_p d.up_c).symm
  · by_cases hac : a = c
    · -- `p` gets the child's links
      subst hac
      rw [Equiv.swap_apply_right]
      apply HeapNode.ext
      · rw [heapNodeSwap_left d, if_pos rfl]
        exact (swap_map_eq_self d.left_p d.left_c).symm
      · rw [heapNodeSwap_right d, if_pos rfl]
        exact (swap_map_eq_self d.right_p d.right_c).symm
      · rw [heapNodeSwap_parent d, if_pos rfl]
        simp [renamed, hpc]
    · -- any other node keeps its links, up to the two names
      rw [Equiv.swap_apply_of_ne_of_ne hap hac]
      have hlc : (s.node a).left ≠ some c := fun hl => by
        have := (h.parent_of_left ha hl).2
        rw [hpc] at this
        exact hap (Option.some.inj this).symm
      have hrc : (s.node a).right ≠ some c := fun hr => by
        have := (h.parent_of_right ha hr).2
        rw [hpc] at this
        exact hap (Option.some.inj this).symm
      apply HeapNode.ext
      · rw [heapNodeSwap_left d, if_neg hap, if_neg hac]
        by_cases hl : (s.node a).left = some p
        · simp [renamed, hl, (h.parent_of_left ha hl).2]
        · rw [if_neg (fun hx => hl hx.2)]
          exact (swap_map_eq_self hl hlc).symm
      · rw [heapNodeSwap_right d, if_neg hap, if_neg hac]
        by_cases hr : (s.node a).right = some p
        · have hl : (s.node a).left ≠ some p := fun hl => h.left_ne_right ha hl hr
          simp [renamed, hr, hl, (h.parent_of_right ha hr).2]
        · have hno : ¬ ((s.node p).parent = some a ∧ (s.node a).left ≠ some p) := by
            rintro ⟨hpa, hl⟩
            rcases (h.child_of_parent hp hpa).2 with hx | hx
            · exact hl hx
            · exact hr hx
          rw [if_neg hno]
          exact (swap_map_eq_self hr hrc).symm
      · rw [heapNodeSwap_parent d, if_neg hap, if_neg hac]
        by_cases h1 : (s.node c).left = some a ∨ (s.node c).right = some a
        · have hca : (s.node a).parent = some c :=
            h1.elim (fun hl => (h.parent_of_left hc hl).2)
              (fun hr => (h.parent_of_right hc hr).2)
          simp [renamed, h1, hca]
        · by_cases h2 : (s.node p).left = some a ∨ (s.node p).right = some a
          · have hpa : (s.node a).parent = some p :=
              h2.elim (fun hl => (h.parent_of_left hp hl).2)
                (fun hr => (h.parent_of_right hp hr).2)
            simp [renamed, h1, h2, hpa]
          · rw [if_neg h1, if_neg h2]
            exact (swap_map_eq_self
              (fun hx => h2 (h.child_of_parent ha hx).2)
              (fun hx => h1 (h.child_of_parent ha hx).2)).symm

/-- `heap_node_swap` touches no node outside the tree. -/
theorem heapNodeSwap_frame (h : HeapRep s xs) {p c : α} (hc : c ∈ xs)
    (hpc : (s.node c).parent = some p) {a : α} (ha : a ∉ xs) :
    (heapNodeSwap s p c).node a = s.node a := by
  have d := h.swapApart hc hpc
  obtain ⟨hp, _⟩ := h.child_of_parent hc hpc
  have hap : a ≠ p := fun hx => ha (hx ▸ hp)
  have hac : a ≠ c := fun hx => ha (hx ▸ hc)
  have hup := (h.notOutside hp ha).2.2
  have hch : ∀ b ∈ xs, ¬ ((s.node b).left = some a ∨ (s.node b).right = some a) := by
    rintro b hb (hx | hx)
    · exact (h.notOutside hb ha).1 hx
    · exact (h.notOutside hb ha).2.1 hx
  apply HeapNode.ext
  · rw [heapNodeSwap_left d, if_neg hap, if_neg hac, if_neg (fun hx => hup hx.1)]
  · rw [heapNodeSwap_right d, if_neg hap, if_neg hac, if_neg (fun hx => hup hx.1)]
  · rw [heapNodeSwap_parent d, if_neg hap, if_neg hac, if_neg (hch c hc),
      if_neg (hch p hp)]

/-- **`heap_node_swap` exchanges two neighbours** of the level order. -/
theorem swap (h : HeapRep s xs) {p c : α} (hc : c ∈ xs)
    (hpc : (s.node c).parent = some p) :
    HeapRep (heapNodeSwap s p c) (exchange p c xs) where
  nodup := exchange_nodup h.nodup
  nelts := by rw [heapNodeSwap_nelts, h.nelts, exchange_length]
  min := by
    have d := h.swapApart hc hpc
    obtain ⟨hp, _⟩ := h.child_of_parent hc hpc
    rw [heapNodeSwap_min d, exchange, List.getElem?_map, ← h.min]
    have hcm : s.heap.min ≠ some c := fun hx => by
      rw [(h.min_iff hc).mp hx] at hpc
      cases hpc
    by_cases hpn : (s.node p).parent = none
    · rw [if_pos hpn, (h.min_iff hp).mpr hpn]
      simp
    · rw [if_neg hpn]
      exact (swap_map_eq_self (fun hx => hpn ((h.min_iff hp).mp hx)) hcm).symm
  node := by
    intro i a hi
    rw [exchange, List.getElem?_map, Option.map_eq_some_iff] at hi
    obtain ⟨b, hb, rfl⟩ := hi
    rw [h.heapNodeSwap_renamed hc hpc (List.mem_of_getElem? hb), h.node i b hb,
      exchange, linksAt_map]

end HeapRep

end Ats
