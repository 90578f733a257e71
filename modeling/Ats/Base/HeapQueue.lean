import Ats.Base.HeapOps
import Ats.Lib.GuardedRun

/-!
# HeapQueue: a heap over whole runs

Nodes with keys are inserted, removed from anywhere, given other keys while
they are in no heap, and dequeued. `heap_min` is the smallest at all times, and
`heap_dequeue` sorts.
-/

namespace Ats

open GuardedRun LevelHeap
open scoped List

variable {α κ : Type} [LinearOrder κ]

section Loop

variable [DecidableEq α]

/-- `heap_dequeue`: `heap_remove` returns before it reads a null node, if the
heap counts none. -/
def heapDequeue (lessThan : HeapCompareFn α) (s : HeapMem α) : Option (HeapMem α) :=
  match s.heap.min with
  | none => if s.heap.nelts = 0 then some s else none
  | some x => heapRemove lessThan s x

/-- The loop `while ((m = heap_min(heap)) != NULL) heap_dequeue(heap, less_than)`,
with what `m` was. -/
def heapDrain (lessThan : HeapCompareFn α) : Nat → HeapMem α → Option (HeapMem α × List α)
  | 0, _ => none
  | fuel + 1, s =>
      match heapMin s.heap with
      | none => some (s, [])
      | some m => do
          let s ← heapDequeue lessThan s
          let (s, ms) ← heapDrain lessThan fuel s
          some (s, m :: ms)

end Loop

/-- **A heap, the keys of the nodes**, and the history: which nodes came in and
which went out, in order. -/
structure KeyedHeap (α κ : Type) where
  mem : HeapMem α
  key : α → κ
  inserted : List α
  removed : List α

namespace KeyedHeap

/-- `heap_init`, over nodes with any links and keys. -/
def start (node : α → HeapNode α) (key : α → κ) : KeyedHeap α κ := ⟨⟨heapInit, node⟩, key, [], []⟩

/-- A comparison of keys. -/
def lessThan (s : KeyedHeap α κ) : HeapCompareFn α := fun a b => some (decide (s.key a < s.key b))

theorem keyed (s : KeyedHeap α κ) (xs : List α) : Keyed s.lessThan s.key xs :=
  fun _ _ _ _ => rfl

end KeyedHeap

/-! ## Calls -/

/-- A call. -/
inductive HeapCall (α κ : Type) where
  | insert (x : α)
  | remove (x : α)
  | dequeue
  /-- a node that is in no heap gets another key -/
  | rekey (x : α) (k : κ)

section Calls

variable [DecidableEq α]

def HeapCall.step (s : KeyedHeap α κ) : HeapCall α κ → Option (KeyedHeap α κ)
  | .insert x => do
      let mem ← heapInsert s.lessThan s.mem x
      some { s with mem, inserted := s.inserted ++ [x] }
  | .remove x => do
      let mem ← heapRemove s.lessThan s.mem x
      some { s with mem, removed := s.removed ++ [x] }
  | .dequeue => do
      let mem ← heapDequeue s.lessThan s.mem
      some { s with mem, removed := s.removed ++ (heapMin s.mem.heap).toList }
  | .rekey x k => some { s with key := Function.update s.key x k }

/-- A node is in the heap once, and its key stays while it is there. -/
def HeapCall.Fair (s : KeyedHeap α κ) : HeapCall α κ → Prop
  | .insert x | .rekey x _ => x ∉ heapNodes s.mem
  | .remove x => x ∈ heapNodes s.mem
  | .dequeue => True

instance HeapCall.Fair.decide (s : KeyedHeap α κ) : (c : HeapCall α κ) → Decidable (c.Fair s)
  | .insert x | .rekey x _ => inferInstanceAs (Decidable (x ∉ heapNodes s.mem))
  | .remove x => inferInstanceAs (Decidable (x ∈ heapNodes s.mem))
  | .dequeue => inferInstanceAs (Decidable True)

end Calls

/-- **A heap in order, of what came in and did not go out.** -/
structure Prioritized (s : KeyedHeap α κ) (xs : List α) : Prop where
  rep : HeapRep s.mem xs
  ordered : Ordered s.key xs
  account : (xs ++ s.removed).Perm s.inserted

variable {s : KeyedHeap α κ} {xs : List α} {x : α}

namespace Prioritized

theorem start (node : α → HeapNode α) (key : α → κ) : Prioritized (.start node key) [] where
  rep := .nil node
  ordered := by
    intro i _ a b _ hb
    simp at hb
  account := .refl _

theorem head_eq_min (h : Prioritized s xs) : heapMin s.mem.heap = xs.head? := by
  rw [heapMin, h.rep.min, List.head?_eq_getElem?]

/-- **`heap_min`** is `NULL` where the heap is empty, and else one of the
smallest. -/
theorem min_spec (h : Prioritized s xs) :
    (heapMin s.mem.heap = none ↔ xs = [])
      ∧ ∀ m, heapMin s.mem.heap = some m → m ∈ xs ∧ ∀ a ∈ xs, s.key m ≤ s.key a := by
  rw [h.head_eq_min]
  refine ⟨List.head?_eq_none_iff, fun m hm => ⟨List.mem_of_mem_head? hm, fun a ha => ?_⟩⟩
  rw [List.head?_eq_getElem?] at hm
  exact h.ordered.root_le_of_mem hm ha

variable [DecidableEq α]

theorem insert (h : Prioritized s xs) (hx : x ∉ xs) :
    ∃ mem ys, heapInsert s.lessThan s.mem x = some mem ∧ ys.Perm (x :: xs)
      ∧ Prioritized { s with mem, inserted := s.inserted ++ [x] } ys := by
  obtain ⟨mem, ys, hcall, hrep, hys, -, hord⟩ := h.rep.insert hx (s.keyed _)
  refine ⟨mem, ys, hcall, hys, hrep, hord h.ordered, ?_⟩
  calc ys ++ s.removed
    _ ~ x :: xs ++ s.removed := hys.append_right _
    _ ~ x :: s.inserted := h.account.cons x
    _ ~ s.inserted ++ [x] := (List.perm_append_singleton x s.inserted).symm

theorem remove (h : Prioritized s xs) (hx : x ∈ xs) :
    ∃ mem ys, heapRemove s.lessThan s.mem x = some mem ∧ ys.Perm (xs.erase x)
      ∧ Prioritized { s with mem, removed := s.removed ++ [x] } ys := by
  obtain ⟨mem, ys, hcall, hrep, hys, -, hord⟩ := h.rep.remove hx (s.keyed _)
  refine ⟨mem, ys, hcall, hys, hrep, hord h.ordered, ?_⟩
  calc ys ++ (s.removed ++ [x])
    _ ~ xs.erase x ++ (s.removed ++ [x]) := hys.append_right _
    _ ~ xs.erase x ++ x :: s.removed := (List.perm_append_singleton x s.removed).append_left _
    _ ~ x :: xs.erase x ++ s.removed := List.perm_middle
    _ ~ xs ++ s.removed := (List.perm_cons_erase hx).symm.append_right _
    _ ~ s.inserted := h.account

/-- **`heap_dequeue`** removes `heap_min`, if there is one. -/
theorem dequeue (h : Prioritized s xs) :
    ∃ mem ys, heapDequeue s.lessThan s.mem = some mem
      ∧ xs.Perm ((heapMin s.mem.heap).toList ++ ys)
      ∧ Prioritized { s with mem, removed := s.removed ++ (heapMin s.mem.heap).toList } ys := by
  have hmin := h.min_spec
  cases hm : heapMin s.mem.heap with
  | none =>
      obtain rfl := hmin.1.mp hm
      have hcall : heapDequeue s.lessThan s.mem = some s.mem := by
        rw [heapDequeue, show s.mem.heap.min = none from hm]
        exact if_pos h.rep.nelts
      refine ⟨s.mem, [], hcall, .refl _, h.rep, h.ordered, ?_⟩
      simpa using h.account
  | some m =>
      obtain ⟨hmem, -⟩ := hmin.2 m hm
      obtain ⟨mem, ys, hcall, hys, h'⟩ := h.remove hmem
      refine ⟨mem, ys, ?_, (List.perm_cons_erase hmem).trans (hys.symm.cons m), h'⟩
      rw [heapDequeue, show s.mem.heap.min = some m from hm]
      exact hcall

theorem rekey (h : Prioritized s xs) (hx : x ∉ xs) (k : κ) :
    Prioritized { s with key := Function.update s.key x k } xs where
  rep := h.rep
  ordered := by
    refine h.ordered.congr fun a ha => Function.update_of_ne ?_ _ _
    rintro rfl
    exact hx ha
  account := h.account

/-- **Each call** keeps the order. -/
theorem step (h : ∃ xs, Prioritized s xs) (c : HeapCall α κ) (hfair : c.Fair s) :
    ∃ s', c.step s = some s' ∧ ∃ xs, Prioritized s' xs := by
  obtain ⟨xs, h⟩ := h
  have hnodes := h.rep.heapNodes_eq
  cases c with
  | insert x =>
      have hx : x ∉ heapNodes s.mem := hfair
      obtain ⟨mem, ys, hcall, -, h'⟩ := h.insert (hnodes ▸ hx)
      exact ⟨_, by rw [HeapCall.step, hcall]; rfl, ys, h'⟩
  | remove x =>
      have hx : x ∈ heapNodes s.mem := hfair
      obtain ⟨mem, ys, hcall, -, h'⟩ := h.remove (hnodes ▸ hx)
      exact ⟨_, by rw [HeapCall.step, hcall]; rfl, ys, h'⟩
  | dequeue =>
      obtain ⟨mem, ys, hcall, -, h'⟩ := h.dequeue
      exact ⟨_, by rw [HeapCall.step, hcall]; rfl, ys, h'⟩
  | rekey x k =>
      have hx : x ∉ heapNodes s.mem := hfair
      exact ⟨_, rfl, xs, h.rekey (hnodes ▸ hx) k⟩

/-- **Dequeuing until the heap is empty** gives all nodes in order. -/
theorem drain : ∀ (fuel : Nat) {s : KeyedHeap α κ} {xs : List α}, Prioritized s xs →
    xs.length < fuel → ∃ mem ms, heapDrain s.lessThan fuel s.mem = some (mem, ms)
      ∧ ms.Perm xs ∧ ms.Pairwise (fun a b => s.key a ≤ s.key b) ∧ heapMin mem.heap = none := by
  intro fuel
  induction fuel with
  | zero => exact fun _ hlen => absurd hlen (Nat.not_lt_zero _)
  | succ fuel ih =>
      intro s xs h hlen
      obtain ⟨hnone, hleast⟩ := h.min_spec
      obtain ⟨mem, ys, hcall, hperm, h'⟩ := h.dequeue
      cases hm : heapMin s.mem.heap with
      | none =>
          obtain rfl := hnone.mp hm
          exact ⟨s.mem, [], by rw [heapDrain, hm], .refl _, .nil, hm⟩
      | some m =>
          rw [hm] at hperm
          have hperm : xs.Perm (m :: ys) := hperm
          have hlen' := hperm.length_eq
          rw [List.length_cons] at hlen'
          obtain ⟨mem', ms, hdrain, hms, hsorted, hempty⟩ := ih h' (by omega)
          refine ⟨mem', m :: ms, ?_, (hms.cons m).trans hperm.symm, .cons (fun a ha => ?_) hsorted,
            hempty⟩
          · rw [heapDrain, hm]
            show (heapDequeue s.lessThan s.mem).bind _ = _
            rw [hcall]
            show (heapDrain s.lessThan fuel mem).bind _ = _
            rw [show heapDrain s.lessThan fuel mem = some (mem', ms) from hdrain]
            rfl
          · exact (hleast m hm).2 a (hperm.mem_iff.mpr (List.mem_cons_of_mem m (hms.mem_iff.mp ha)))

end Prioritized

variable [DecidableEq α]

/-- **A heap is a priority queue.** In every run of calls in which a node is
inserted while it is not in the heap, and removed while it is, no call fails;
the heap has the nodes that came in and did not go out; `heap_min` is a smallest
of them, or `NULL` if there are none; and dequeuing until then gives them
all, sorted by key. -/
theorem heapCalls_sorted (node : α → HeapNode α) (key : α → κ) (cs : List (HeapCall α κ))
    (hfair : Guarded HeapCall.step HeapCall.Fair (.start node key) cs) :
    ∃ s, run HeapCall.step (.start node key) cs = some s
      ∧ (heapNodes s.mem ++ s.removed).Perm s.inserted
      ∧ s.mem.heap.nelts = (heapNodes s.mem).length
      ∧ (heapMin s.mem.heap = none ↔ heapNodes s.mem = [])
      ∧ (∀ m, heapMin s.mem.heap = some m →
        m ∈ heapNodes s.mem ∧ ∀ a ∈ heapNodes s.mem, s.key m ≤ s.key a)
      ∧ ∃ mem ms, heapDrain s.lessThan (s.mem.heap.nelts + 1) s.mem = some (mem, ms)
        ∧ ms.Perm (heapNodes s.mem) ∧ ms.Pairwise (fun a b => s.key a ≤ s.key b)
        ∧ heapMin mem.heap = none := by
  obtain ⟨s, hrun, xs, h⟩ := Guarded.total (I := fun s => ∃ xs, Prioritized s xs)
    (fun _ c h hf => Prioritized.step h c hf) cs hfair ⟨[], .start node key⟩
  obtain ⟨hnone, hleast⟩ := h.min_spec
  refine ⟨s, hrun, ?_⟩
  rw [h.rep.heapNodes_eq]
  refine ⟨h.account, h.rep.nelts, hnone, hleast, h.drain _ ?_⟩
  rw [h.rep.nelts]
  exact Nat.lt_succ_self _

/-- Three nodes, of which one is taken out from the middle and comes back with
another key. -/
def threeNodes : List (HeapCall Nat Nat) :=
  [.insert 5, .insert 3, .insert 9, .remove 5, .rekey 5 1, .insert 5, .dequeue]

theorem heapCalls_sorted_three :
    ∃ s, run HeapCall.step (.start (fun _ => ⟨none, none, none⟩) id) threeNodes = some s
      ∧ (heapNodes s.mem ++ s.removed).Perm s.inserted
      ∧ s.mem.heap.nelts = (heapNodes s.mem).length
      ∧ (heapMin s.mem.heap = none ↔ heapNodes s.mem = [])
      ∧ (∀ m, heapMin s.mem.heap = some m →
        m ∈ heapNodes s.mem ∧ ∀ a ∈ heapNodes s.mem, s.key m ≤ s.key a)
      ∧ ∃ mem ms, heapDrain s.lessThan (s.mem.heap.nelts + 1) s.mem = some (mem, ms)
        ∧ ms.Perm (heapNodes s.mem) ∧ ms.Pairwise (fun a b => s.key a ≤ s.key b)
        ∧ heapMin mem.heap = none :=
  heapCalls_sorted (fun _ => ⟨none, none, none⟩) id threeNodes (by decide +kernel)

end Ats
