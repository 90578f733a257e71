import Mathlib.Logic.Function.Basic

/-!
# HeapInl: the intrusive binary heap of `heap-inl.h`

The heap is a pointer tree: every node carries `left`, `right` and
`parent`, and the header only the root and the number of nodes. The node
memory is a map from nodes to their three links, so a node that is in no
heap keeps whatever links it last had, as it does in C. The number of nodes
is an `unsigned int` there: a heap has fewer than `2 ^ 32` nodes.

A `heap_compare_fn` may fail an assertion, so it answers in `Option`; the
functions below answer `none` where the C code would abort there, follow a
null pointer, or (`fuel` gone) loop on links that no longer form a tree.
-/

namespace Ats

/-- `struct heap_node`. A null pointer is `none`. -/
@[ext] structure HeapNode (α : Type) where
  left : Option α
  right : Option α
  parent : Option α
deriving DecidableEq, Repr

/-- `struct heap`. -/
structure Heap (α : Type) where
  min : Option α
  nelts : Nat
deriving DecidableEq, Repr

/-- What the heap functions read and write: one header, and the links of
every node there is. -/
structure HeapMem (α : Type) where
  heap : Heap α
  node : α → HeapNode α

/-- A `struct heap_node**`: the address of the root field or of a link. -/
inductive Slot (α : Type) where
  | min
  | left (a : α)
  | right (a : α)
deriving DecidableEq, Repr

/-- `heap_compare_fn`. -/
abbrev HeapCompareFn (α : Type) := α → α → Option Bool

variable {α : Type} [DecidableEq α]

namespace HeapMem

/-- `*a = n` -/
def setNode (s : HeapMem α) (a : α) (n : HeapNode α) : HeapMem α :=
  { s with node := Function.update s.node a n }

/-- `a->left = v` -/
def setLeft (s : HeapMem α) (a : α) (v : Option α) : HeapMem α :=
  s.setNode a { s.node a with left := v }

/-- `a->right = v` -/
def setRight (s : HeapMem α) (a : α) (v : Option α) : HeapMem α :=
  s.setNode a { s.node a with right := v }

/-- `a->parent = v` -/
def setParent (s : HeapMem α) (a : α) (v : Option α) : HeapMem α :=
  s.setNode a { s.node a with parent := v }

/-- `if (p != NULL) p->parent = v` -/
def setParent? (s : HeapMem α) (p : Option α) (v : Option α) : HeapMem α :=
  match p with
  | none => s
  | some a => s.setParent a v

/-- `heap->min = v` -/
def setMin (s : HeapMem α) (v : Option α) : HeapMem α :=
  { s with heap := { s.heap with min := v } }

/-- `heap->nelts = n` -/
def setNelts (s : HeapMem α) (n : Nat) : HeapMem α :=
  { s with heap := { s.heap with nelts := n } }

/-- `*slot` -/
def read (s : HeapMem α) : Slot α → Option α
  | .min => s.heap.min
  | .left a => (s.node a).left
  | .right a => (s.node a).right

/-- `*slot = v` -/
def write (s : HeapMem α) (slot : Slot α) (v : Option α) : HeapMem α :=
  match slot with
  | .min => s.setMin v
  | .left a => s.setLeft a v
  | .right a => s.setRight a v

end HeapMem

/-- The links a replaced node's parent gets: `child` in the place of `node`
(`if (node->parent == NULL) .. else if (node->parent->left == node) ..`,
the end of `heap_node_swap` and of the splice in `heap_remove`). -/
def heapRelink (s : HeapMem α) (up : Option α) (node child : α) : HeapMem α :=
  match up with
  | none => s.setMin (some child)
  | some g =>
      if (s.node g).left = some node then s.setLeft g (some child)
      else s.setRight g (some child)

/-- `heap_init` -/
def heapInit : Heap α := ⟨none, 0⟩

/-- `heap_min` -/
def heapMin (heap : Heap α) : Option α := heap.min

/-- `heap_node_swap` -/
def heapNodeSwap (s : HeapMem α) (parent child : α) : HeapMem α :=
  let t := s.node parent
  let s := s.setNode parent (s.node child)
  let s := s.setNode child t
  let s := s.setParent parent (some child)
  let sibling :=
    if (s.node child).left = some child then (s.node child).right
    else (s.node child).left
  let s :=
    if (s.node child).left = some child then s.setLeft child (some parent)
    else s.setRight child (some parent)
  let s := s.setParent? sibling (some child)
  let s := s.setParent? (s.node parent).left (some parent)
  let s := s.setParent? (s.node parent).right (some parent)
  heapRelink s (s.node child).parent parent child

/-- The loop `for (k = 0, n = ..; n >= 2; k += 1, n /= 2)
path = (path << 1) | (n & 1)`; `n` rounds are more than it makes. -/
def heapPathLoop : Nat → Nat → Nat → Nat → Nat × Nat
  | 0, _, path, k => (path, k)
  | fuel + 1, n, path, k =>
      if 2 ≤ n then heapPathLoop fuel (n / 2) (2 * path + n % 2) (k + 1)
      else (path, k)

/-- The path to the `n`-th place of the tree, and its length. -/
def heapPath (n : Nat) : Nat × Nat := heapPathLoop n n 0 0

/-- The loop `while (k > 0)` that follows a path: the last two slots it
stood on, `parent` and `child` in `heap_insert`. -/
def heapWalk (s : HeapMem α) : Nat → Nat → Slot α → Slot α →
    Option (Slot α × Slot α)
  | 0, _, parent, child => some (parent, child)
  | k + 1, path, _, child =>
      match s.read child with
      | none => none
      | some a =>
          heapWalk s k (path / 2) child
            (if path % 2 = 1 then .right a else .left a)

/-- `while (x->parent != NULL && less_than(x, x->parent))
heap_node_swap(heap, x->parent, x)` -/
def heapSiftUp (lessThan : HeapCompareFn α) :
    Nat → HeapMem α → α → Option (HeapMem α)
  | 0, _, _ => none
  | fuel + 1, s, x =>
      match (s.node x).parent with
      | none => some s
      | some p => do
          if ← lessThan x p then heapSiftUp lessThan fuel (heapNodeSwap s p x) x
          else some s

/-- `if (c != NULL && less_than(c, smallest)) smallest = c` -/
def heapSmaller (lessThan : HeapCompareFn α) (c : Option α) (smallest : α) :
    Option α :=
  match c with
  | none => some smallest
  | some c => do
      if ← lessThan c smallest then some c else some smallest

/-- The `for (;;)` of `heap_remove`: swap `child` with its smallest child
as long as that is below it. -/
def heapSiftDown (lessThan : HeapCompareFn α) :
    Nat → HeapMem α → α → Option (HeapMem α)
  | 0, _, _ => none
  | fuel + 1, s, child => do
      let smallest ← heapSmaller lessThan (s.node child).left child
      let smallest ← heapSmaller lessThan (s.node child).right smallest
      if smallest = child then some s
      else heapSiftDown lessThan fuel (heapNodeSwap s child smallest) child

/-- `heap_insert` with at most `rounds` rounds of its loop up the tree. -/
def heapInsertWithin (lessThan : HeapCompareFn α) (rounds : Nat) (s : HeapMem α)
    (newnode : α) : Option (HeapMem α) := do
  let s := s.setNode newnode ⟨none, none, none⟩
  let (path, k) := heapPath (1 + s.heap.nelts)
  let (parent, child) ← heapWalk s k path .min .min
  let s := s.setParent newnode (s.read parent)
  let s := s.write child (some newnode)
  let s := s.setNelts (s.heap.nelts + 1)
  heapSiftUp lessThan rounds s newnode

/-- `heap_insert`; a path in a tree of `nelts + 1` nodes takes fewer rounds
than there are. -/
def heapInsert (lessThan : HeapCompareFn α) (s : HeapMem α) (newnode : α) :
    Option (HeapMem α) :=
  heapInsertWithin lessThan (s.heap.nelts + 2) s newnode

/-- The part of `heap_remove` that puts `child`, the unlinked last node,
in the place of `node`. -/
def heapSplice (s : HeapMem α) (node child : α) : HeapMem α :=
  let s := s.setNode child (s.node node)
  let s := s.setParent? (s.node child).left (some child)
  let s := s.setParent? (s.node child).right (some child)
  heapRelink s (s.node node).parent node child

/-- `heap_remove` with at most `rounds` rounds of its loop down the tree, and
of the one up. -/
def heapRemoveWithin (lessThan : HeapCompareFn α) (rounds : Nat) (s : HeapMem α)
    (node : α) : Option (HeapMem α) :=
  if s.heap.nelts = 0 then some s
  else do
    let (path, k) := heapPath s.heap.nelts
    let (_, max) ← heapWalk s k path .min .min
    let s := s.setNelts (s.heap.nelts - 1)
    let child ← s.read max
    let s := s.write max none
    if child = node then
      some (if s.heap.min = some child then s.setMin none else s)
    else
      let s := heapSplice s node child
      let s ← heapSiftDown lessThan rounds s child
      heapSiftUp lessThan rounds s child

/-- `heap_remove`; it leaves `nelts - 1` nodes, and a path down or up takes no
more rounds than that and one. -/
def heapRemove (lessThan : HeapCompareFn α) (s : HeapMem α) (node : α) :
    Option (HeapMem α) :=
  heapRemoveWithin lessThan s.heap.nelts s node

/-! ## Reading the heap back -/

/-- The node at level-order position `i` (the root at `0`). -/
def heapAt (s : HeapMem α) (i : Nat) : Option α := do
  let (path, k) := heapPath (i + 1)
  let (_, slot) ← heapWalk s k path .min .min
  s.read slot

/-- The nodes of a heap, row by row: what stands at the `nelts` places the
code walks to. -/
def heapNodes (s : HeapMem α) : List α :=
  (List.range s.heap.nelts).filterMap (heapAt s)

/-! ## Reads after writes -/

namespace HeapMem

theorem setNode_node (s : HeapMem α) (a b : α) (n : HeapNode α) :
    (s.setNode a n).node b = if b = a then n else s.node b := by
  simp [setNode, Function.update_apply]

@[simp] theorem setNode_heap (s : HeapMem α) (a : α) (n : HeapNode α) :
    (s.setNode a n).heap = s.heap := rfl

@[simp] theorem setLeft_heap (s : HeapMem α) (a : α) (v : Option α) :
    (s.setLeft a v).heap = s.heap := rfl

@[simp] theorem setRight_heap (s : HeapMem α) (a : α) (v : Option α) :
    (s.setRight a v).heap = s.heap := rfl

@[simp] theorem setParent_heap (s : HeapMem α) (a : α) (v : Option α) :
    (s.setParent a v).heap = s.heap := rfl

@[simp] theorem setParent?_heap (s : HeapMem α) (p v : Option α) :
    (s.setParent? p v).heap = s.heap := by
  cases p <;> rfl

theorem setParent_node_ne (s : HeapMem α) {a b : α} (v : Option α) (h : b ≠ a) :
    (s.setParent a v).node b = s.node b := by
  rw [setParent, setNode_node, if_neg h]

@[simp] theorem setNode_left (s : HeapMem α) (a b : α) (n : HeapNode α) :
    ((s.setNode a n).node b).left
      = if b = a then n.left else (s.node b).left := by
  rw [setNode_node]; split <;> rfl

@[simp] theorem setNode_right (s : HeapMem α) (a b : α) (n : HeapNode α) :
    ((s.setNode a n).node b).right
      = if b = a then n.right else (s.node b).right := by
  rw [setNode_node]; split <;> rfl

@[simp] theorem setNode_parent (s : HeapMem α) (a b : α) (n : HeapNode α) :
    ((s.setNode a n).node b).parent
      = if b = a then n.parent else (s.node b).parent := by
  rw [setNode_node]; split <;> rfl

@[simp] theorem setLeft_left (s : HeapMem α) (a b : α) (v : Option α) :
    ((s.setLeft a v).node b).left = if b = a then v else (s.node b).left := by
  simp [setLeft]

@[simp] theorem setLeft_right (s : HeapMem α) (a b : α) (v : Option α) :
    ((s.setLeft a v).node b).right = (s.node b).right := by
  by_cases h : b = a <;> simp [setLeft, h]

@[simp] theorem setLeft_parent (s : HeapMem α) (a b : α) (v : Option α) :
    ((s.setLeft a v).node b).parent = (s.node b).parent := by
  by_cases h : b = a <;> simp [setLeft, h]

@[simp] theorem setRight_left (s : HeapMem α) (a b : α) (v : Option α) :
    ((s.setRight a v).node b).left = (s.node b).left := by
  by_cases h : b = a <;> simp [setRight, h]

@[simp] theorem setRight_right (s : HeapMem α) (a b : α) (v : Option α) :
    ((s.setRight a v).node b).right = if b = a then v else (s.node b).right := by
  simp [setRight]

@[simp] theorem setRight_parent (s : HeapMem α) (a b : α) (v : Option α) :
    ((s.setRight a v).node b).parent = (s.node b).parent := by
  by_cases h : b = a <;> simp [setRight, h]

@[simp] theorem setParent_left (s : HeapMem α) (a b : α) (v : Option α) :
    ((s.setParent a v).node b).left = (s.node b).left := by
  by_cases h : b = a <;> simp [setParent, h]

@[simp] theorem setParent_right (s : HeapMem α) (a b : α) (v : Option α) :
    ((s.setParent a v).node b).right = (s.node b).right := by
  by_cases h : b = a <;> simp [setParent, h]

@[simp] theorem setParent_parent (s : HeapMem α) (a b : α) (v : Option α) :
    ((s.setParent a v).node b).parent
      = if b = a then v else (s.node b).parent := by
  simp [setParent]

@[simp] theorem setParent?_left (s : HeapMem α) (p v : Option α) (b : α) :
    ((s.setParent? p v).node b).left = (s.node b).left := by
  cases p <;> simp [setParent?]

@[simp] theorem setParent?_right (s : HeapMem α) (p v : Option α) (b : α) :
    ((s.setParent? p v).node b).right = (s.node b).right := by
  cases p <;> simp [setParent?]

@[simp] theorem setParent?_parent (s : HeapMem α) (p v : Option α) (b : α) :
    ((s.setParent? p v).node b).parent
      = if p = some b then v else (s.node b).parent := by
  cases p with
  | none => simp [setParent?]
  | some a => simp [setParent?, eq_comm]

omit [DecidableEq α] in
@[simp] theorem setMin_node (s : HeapMem α) (v : Option α) :
    (s.setMin v).node = s.node := rfl

omit [DecidableEq α] in
@[simp] theorem setMin_heap (s : HeapMem α) (v : Option α) :
    (s.setMin v).heap = { s.heap with min := v } := rfl

omit [DecidableEq α] in
@[simp] theorem setNelts_node (s : HeapMem α) (n : Nat) :
    (s.setNelts n).node = s.node := rfl

omit [DecidableEq α] in
@[simp] theorem setNelts_heap (s : HeapMem α) (n : Nat) :
    (s.setNelts n).heap = { s.heap with nelts := n } := rfl

@[simp] theorem write_left (s : HeapMem α) (slot : Slot α) (v : Option α) (b : α) :
    ((s.write slot v).node b).left
      = if slot = .left b then v else (s.node b).left := by
  cases slot <;> simp [write, eq_comm]

@[simp] theorem write_right (s : HeapMem α) (slot : Slot α) (v : Option α)
    (b : α) :
    ((s.write slot v).node b).right
      = if slot = .right b then v else (s.node b).right := by
  cases slot <;> simp [write, eq_comm]

@[simp] theorem write_parent (s : HeapMem α) (slot : Slot α) (v : Option α)
    (b : α) : ((s.write slot v).node b).parent = (s.node b).parent := by
  cases slot <;> simp [write]

@[simp] theorem write_min (s : HeapMem α) (slot : Slot α) (v : Option α) :
    (s.write slot v).heap.min = if slot = .min then v else s.heap.min := by
  cases slot <;> simp [write]

@[simp] theorem write_nelts (s : HeapMem α) (slot : Slot α) (v : Option α) :
    (s.write slot v).heap.nelts = s.heap.nelts := by
  cases slot <;> simp [write]

end HeapMem

@[simp] theorem heapRelink_nelts (s : HeapMem α) (up : Option α) (a b : α) :
    (heapRelink s up a b).heap.nelts = s.heap.nelts := by
  unfold heapRelink
  cases up with
  | none => rfl
  | some g => dsimp only; split <;> rfl

@[simp] theorem heapRelink_left (s : HeapMem α) (up : Option α) (a c b : α) :
    ((heapRelink s up a c).node b).left
      = if up = some b ∧ (s.node b).left = some a then some c
        else (s.node b).left := by
  unfold heapRelink
  cases up with
  | none => simp
  | some g =>
      by_cases hgb : g = b
      · subst hgb
        by_cases hl : (s.node g).left = some a <;> simp [hl]
      · by_cases hl : (s.node g).left = some a <;> simp [hl, hgb, Ne.symm hgb]

@[simp] theorem heapRelink_right (s : HeapMem α) (up : Option α) (a c b : α) :
    ((heapRelink s up a c).node b).right
      = if up = some b ∧ (s.node b).left ≠ some a then some c
        else (s.node b).right := by
  unfold heapRelink
  cases up with
  | none => simp
  | some g =>
      by_cases hgb : g = b
      · subst hgb
        by_cases hl : (s.node g).left = some a <;> simp [hl]
      · by_cases hl : (s.node g).left = some a <;> simp [hl, hgb, Ne.symm hgb]

@[simp] theorem heapRelink_parent (s : HeapMem α) (up : Option α) (a c b : α) :
    ((heapRelink s up a c).node b).parent = (s.node b).parent := by
  unfold heapRelink
  cases up with
  | none => rfl
  | some g => dsimp only; split <;> simp

@[simp] theorem heapRelink_min (s : HeapMem α) (up : Option α) (a c : α) :
    (heapRelink s up a c).heap.min
      = if up = none then some c else s.heap.min := by
  unfold heapRelink
  cases up with
  | none => rfl
  | some g => dsimp only; split <;> simp

@[simp] theorem heapNodeSwap_nelts (s : HeapMem α) (p c : α) :
    (heapNodeSwap s p c).heap.nelts = s.heap.nelts := by
  unfold heapNodeSwap
  simp only [heapRelink_nelts, HeapMem.setParent?_heap]
  split <;> simp

end Ats
