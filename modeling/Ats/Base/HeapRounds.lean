import Ats.Base.HeapQueue

/-!
# HeapRounds: the loops of a heap are short

Every loop of `heap-inl.h` moves by one row of the tree in a round: the walk
to the last place, the loop up and the loop down. A tree of `n` nodes has
`log2 n + 1` rows, whatever `less_than` answers.
-/

namespace Ats

open GuardedRun LevelHeap

variable {α κ : Type}

/-! ## The walk -/

theorem heapPathLoop_length : ∀ (fuel n path k : Nat), n ≤ fuel →
    (heapPathLoop fuel n path k).2 = k + Nat.log2 n := by
  intro fuel
  induction fuel with
  | zero =>
      intro n path k hn
      obtain rfl : n = 0 := by omega
      rfl
  | succ fuel ih =>
      intro n path k hn
      rw [heapPathLoop, Nat.log2_def]
      by_cases h2 : 2 ≤ n
      · rw [if_pos h2, if_pos h2, ih _ _ _ (by omega)]
        omega
      · rw [if_neg h2, if_neg h2, Nat.add_zero]

/-- The path to the `n`-th place has one step for every row above it. -/
theorem heapPath_length (n : Nat) : (heapPath n).2 = Nat.log2 n := by
  rw [heapPath, heapPathLoop_length n n 0 0 (Nat.le_refl n), Nat.zero_add]

/-! ## The loops up and down -/

variable {lessThan : HeapCompareFn α}

theorem heapSmaller_or {c : Option α} {m r : α} (h : heapSmaller lessThan c m = some r) :
    r = m ∨ c = some r := by
  cases c with
  | none =>
      left
      simpa [heapSmaller] using h.symm
  | some a =>
      rw [heapSmaller, Option.bind_eq_bind, Option.bind_eq_some_iff] at h
      obtain ⟨less, -, h⟩ := h
      cases less with
      | true =>
          right
          simpa using h
      | false =>
          left
          simpa using h.symm

variable [DecidableEq α]

namespace HeapRep

/-- **The loop up** makes a round for each row from `x` to the root: more
rounds are never made. The induction is on the rounds, and `x` rises by a row in
each. -/
theorem heapSiftUp_eq : ∀ (k l : Nat) {s : HeapMem α} {xs : List α} {j : Nat} {x : α},
    HeapRep s xs → xs[j]? = some x → row j < k → row j < l →
    heapSiftUp lessThan k s x = heapSiftUp lessThan l s x := by
  intro k
  induction k with
  | zero => exact fun l _ _ _ _ _ _ hk _ => absurd hk (Nat.not_lt_zero _)
  | succ k ih =>
      intro l s xs j x h hx hk hl
      obtain ⟨l, rfl⟩ : ∃ l', l = l' + 1 := ⟨l - 1, by omega⟩
      rw [heapSiftUp, heapSiftUp, h.node j x hx]
      by_cases hj : j = 0
      · simp [linksAt, hj]
      · have hpl := parent_lt hj
        have hrow := row_parent hj
        have hxm := List.mem_of_getElem? hx
        obtain ⟨hjl, -⟩ := List.getElem?_eq_some_iff.mp hx
        obtain ⟨p, hp⟩ : ∃ p, xs[parent j]? = some p :=
          ⟨_, List.getElem?_eq_getElem (by omega)⟩
        have hpar : (s.node x).parent = some p := by
          rw [h.node j x hx]
          simp [linksAt, hj, hp]
        have hswap := ih l (h.swap hxm hpar) (j := parent j) (x := x)
          (by rw [exchange_getElem? h.nodup hp hx, if_pos rfl]) (by omega) (by omega)
        simp [linksAt, hj, hp, hswap]

omit [DecidableEq α] in
/-- The node that `heap_remove` swaps with is a child. -/
theorem child_of_smaller {s : HeapMem α} {xs : List α} {j : Nat} {x m₁ m : α}
    (h : HeapRep s xs) (hx : xs[j]? = some x)
    (h₁ : heapSmaller lessThan (s.node x).left x = some m₁)
    (h₂ : heapSmaller lessThan (s.node x).right m₁ = some m) (hne : m ≠ x) :
    ∃ i, i ≠ 0 ∧ parent i = j ∧ xs[i]? = some m := by
  have hl : parent (2 * j + 1) = j := by unfold parent; omega
  have hr : parent (2 * j + 2) = j := by unfold parent; omega
  rw [h.node j x hx] at h₁ h₂
  rcases heapSmaller_or h₂ with rfl | hright
  · rcases heapSmaller_or h₁ with rfl | hleft
    · exact absurd rfl hne
    · exact ⟨2 * j + 1, by omega, hl, hleft⟩
  · exact ⟨2 * j + 2, by omega, hr, hright⟩

/-- **The loop down** makes a round for each row from `x` to the last. The
induction is on the rounds, and `x` sinks by a row in each. -/
theorem heapSiftDown_eq : ∀ (k l : Nat) {s : HeapMem α} {xs : List α} {j : Nat} {x : α},
    HeapRep s xs → xs[j]? = some x → Nat.log2 xs.length < k + row j →
    Nat.log2 xs.length < l + row j →
    heapSiftDown lessThan k s x = heapSiftDown lessThan l s x := by
  intro k
  induction k with
  | zero =>
      intro l s xs j x _ hx hk _
      have hrow := row_le (List.getElem?_eq_some_iff.mp hx).1
      omega
  | succ k ih =>
      intro l s xs j x h hx hk hl
      have hrow := row_le (List.getElem?_eq_some_iff.mp hx).1
      obtain ⟨l, rfl⟩ : ∃ l', l = l' + 1 := ⟨l - 1, by omega⟩
      rw [heapSiftDown, heapSiftDown]
      refine Option.bind_congr fun m₁ h₁ => Option.bind_congr fun m h₂ => ?_
      by_cases hm : m = x
      · rw [if_pos hm, if_pos hm]
      · rw [if_neg hm, if_neg hm]
        obtain ⟨i, hi, hij, him⟩ := h.child_of_smaller hx h₁ h₂ hm
        have hirow := row_parent hi
        rw [hij] at hirow
        have hpar : (s.node m).parent = some x := by
          rw [h.node i m him]
          simp [linksAt, hi, hij, hx]
        have hgt := parent_lt hi
        exact ih l (h.swap (List.mem_of_getElem? him) hpar) (j := i)
          (by rw [exchange_getElem? h.nodup hx him, if_neg (by omega), if_pos rfl])
          (by rw [exchange_length]; omega) (by rw [exchange_length]; omega)

/-! ## The calls -/

variable {s : HeapMem α} {xs : List α} {x : α}

theorem heapInsertWithin_eq (h : HeapRep s xs) (hx : x ∉ xs) {rounds : Nat}
    (hr : Nat.log2 (1 + xs.length) < rounds) :
    heapInsertWithin lessThan rounds s x = heapInsert lessThan s x := by
  obtain ⟨u, hu, -, hwithin⟩ := h.link hx
  have hrow : row xs.length = Nat.log2 (1 + xs.length) := by rw [row, Nat.add_comm]
  have hle := Nat.log2_le_self (1 + xs.length)
  have hlast : (xs ++ [x])[xs.length]? = some x := by simp
  rw [heapInsert, hwithin, hwithin]
  exact heapSiftUp_eq _ _ hu hlast (by omega) (by rw [h.nelts]; omega)

theorem heapRemoveWithin_eq [LinearOrder κ] {key : α → κ} (h : HeapRep s xs) (hx : x ∈ xs)
    (hk : Keyed lessThan key xs) {rounds : Nat} (hr : Nat.log2 (xs.length - 1) < rounds) :
    heapRemoveWithin lessThan rounds s x = heapRemove lessThan s x := by
  obtain ⟨u, -, hcase⟩ := h.takeOut hx
  rcases hcase with ⟨-, -, hwithin⟩ | ⟨i, m, hmm, hil, hu, hperm, hwithin⟩
  · rw [heapRemove, hwithin, hwithin]
  · have hlen : (xs.dropLast.set i m).length = xs.length - 1 := by simp
    have hilt : i < xs.length - 1 := by simpa using hil
    have hle := Nat.log2_le_self (xs.length - 1)
    have hm : (xs.dropLast.set i m)[i]? = some m := List.getElem?_set_self hil
    have hdown : heapSiftDown lessThan rounds u m
        = heapSiftDown lessThan s.heap.nelts u m :=
      heapSiftDown_eq _ _ hu hm (by rw [hlen]; omega) (by rw [hlen, h.nelts]; omega)
    obtain ⟨t, ys, j, ht, hrep, hys, hj, -⟩ := siftDown s.heap.nelts hu
      (hk.mono fun a ha => List.mem_of_mem_erase (hperm.mem_iff.mp ha)) hm
      (by rw [hlen, h.nelts]; omega)
    have hjrow := row_le (List.getElem?_eq_some_iff.mp hj).1
    rw [hys.length_eq, hlen] at hjrow
    rw [heapRemove, hwithin, hwithin, hdown, ht]
    exact heapSiftUp_eq _ _ hrep hj (by omega) (by rw [h.nelts]; omega)

end HeapRep

variable [LinearOrder κ]

/-- **Every loop of a heap is logarithmic**: after every run of calls as in a
priority queue, inserting a node walks `log2 (nelts + 1)` links and ends with at
most one round more than that of its loop, and removing one walks
`log2 nelts` links and ends with at most `log2 (nelts - 1) + 1` rounds of either
loop. -/
theorem heapCalls_rounds (node : α → HeapNode α) (key : α → κ) (cs : List (HeapCall α κ))
    (hfair : Guarded HeapCall.step HeapCall.Fair (.start node key) cs) :
    ∃ s, run HeapCall.step (.start node key) cs = some s
      ∧ (∀ x, x ∉ heapNodes s.mem →
        (heapPath (1 + s.mem.heap.nelts)).2 = Nat.log2 (1 + s.mem.heap.nelts)
        ∧ ∃ mem, heapInsert s.lessThan s.mem x = some mem
          ∧ heapInsertWithin s.lessThan (Nat.log2 (1 + s.mem.heap.nelts) + 1) s.mem x = some mem)
      ∧ ∀ x ∈ heapNodes s.mem, (heapPath s.mem.heap.nelts).2 = Nat.log2 s.mem.heap.nelts
        ∧ ∃ mem, heapRemove s.lessThan s.mem x = some mem
          ∧ heapRemoveWithin s.lessThan (Nat.log2 (s.mem.heap.nelts - 1) + 1) s.mem x
            = some mem := by
  obtain ⟨s, hrun, xs, h⟩ := Guarded.total (I := fun s => ∃ xs, Prioritized s xs)
    (fun _ c h hf => Prioritized.step h c hf) cs hfair ⟨[], .start node key⟩
  refine ⟨s, hrun, ?_⟩
  rw [h.rep.heapNodes_eq, h.rep.nelts]
  refine ⟨fun x hx => ⟨heapPath_length _, ?_⟩, fun x hx => ⟨heapPath_length _, ?_⟩⟩
  · obtain ⟨mem, -, hcall, -⟩ := h.rep.insert hx (s.keyed _)
    exact ⟨mem, hcall, (h.rep.heapInsertWithin_eq hx (Nat.lt_succ_self _)).trans hcall⟩
  · obtain ⟨mem, -, hcall, -⟩ := h.rep.remove hx (s.keyed _)
    exact ⟨mem, hcall,
      (h.rep.heapRemoveWithin_eq hx (s.keyed _) (Nat.lt_succ_self _)).trans hcall⟩

theorem heapCalls_rounds_three :
    ∃ s, run HeapCall.step (.start (fun _ => ⟨none, none, none⟩) id) threeNodes = some s
      ∧ (∀ x, x ∉ heapNodes s.mem →
        (heapPath (1 + s.mem.heap.nelts)).2 = Nat.log2 (1 + s.mem.heap.nelts)
        ∧ ∃ mem, heapInsert s.lessThan s.mem x = some mem
          ∧ heapInsertWithin s.lessThan (Nat.log2 (1 + s.mem.heap.nelts) + 1) s.mem x = some mem)
      ∧ ∀ x ∈ heapNodes s.mem, (heapPath s.mem.heap.nelts).2 = Nat.log2 s.mem.heap.nelts
        ∧ ∃ mem, heapRemove s.lessThan s.mem x = some mem
          ∧ heapRemoveWithin s.lessThan (Nat.log2 (s.mem.heap.nelts - 1) + 1) s.mem x
            = some mem :=
  heapCalls_rounds (fun _ => ⟨none, none, none⟩) id threeNodes (by decide +kernel)

end Ats
