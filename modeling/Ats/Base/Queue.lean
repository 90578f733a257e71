import Ats.Lib.LinkedRing

/-!
# Queue: `queue.h`

Circular doubly linked lists whose heads and members hold two addresses each.
The macros read and write memory one address at a time.
-/

namespace Ats

open LinkedRing

/-- `QUEUE`: the two pointers of a head or a member. -/
structure Queue (A : Type) where
  next : A
  prev : A
deriving DecidableEq, Repr

namespace Queue

variable {A : Type}

/-- `QUEUE_EMPTY` -/
def IsEmpty (mem : A → Queue A) (q : A) : Prop := q = (mem q).next

def nexts (mem : A → Queue A) (a : A) : A := (mem a).next

def prevs (mem : A → Queue A) (a : A) : A := (mem a).prev

theorem next_eq (mem : A → Queue A) (a : A) : (mem a).next = nexts mem a := rfl

theorem prev_eq (mem : A → Queue A) (a : A) : (mem a).prev = prevs mem a := rfl

section Macros

variable [DecidableEq A]

/-- `QUEUE_NEXT(q) = a` -/
def setNext (mem : A → Queue A) (q a : A) : A → Queue A :=
  Function.update mem q { mem q with next := a }

/-- `QUEUE_PREV(q) = a` -/
def setPrev (mem : A → Queue A) (q a : A) : A → Queue A :=
  Function.update mem q { mem q with prev := a }

instance (mem : A → Queue A) (q : A) : Decidable (IsEmpty mem q) :=
  inferInstanceAs (Decidable (_ = _))

/-- `QUEUE_INIT` -/
def init (mem : A → Queue A) (q : A) : A → Queue A :=
  let mem := setNext mem q q
  setPrev mem q q

/-- `QUEUE_INSERT_TAIL` -/
def insertTail (mem : A → Queue A) (h q : A) : A → Queue A :=
  let mem := setNext mem q h
  let mem := setPrev mem q (mem h).prev
  let mem := setNext mem (mem q).prev q
  setPrev mem h q

/-- `QUEUE_REMOVE` -/
def remove (mem : A → Queue A) (q : A) : A → Queue A :=
  let mem := setNext mem (mem q).prev (mem q).next
  setPrev mem (mem q).next (mem q).prev

/-- `QUEUE_HEAD` -/
def head (mem : A → Queue A) (h : A) : A := (mem h).next

/-- `QUEUE_INSERT_HEAD` -/
def insertHead (mem : A → Queue A) (h q : A) : A → Queue A :=
  let mem := setNext mem q (mem h).next
  let mem := setPrev mem q h
  let mem := setPrev mem (mem q).next q
  setNext mem h q

/-- `QUEUE_ADD` -/
def add (mem : A → Queue A) (h n : A) : A → Queue A :=
  let mem := setNext mem (mem h).prev (mem n).next
  let mem := setPrev mem (mem n).next (mem h).prev
  let mem := setPrev mem h (mem n).prev
  setNext mem (mem h).prev h

/-- `QUEUE_SPLIT` -/
def split (mem : A → Queue A) (h q n : A) : A → Queue A :=
  let mem := setPrev mem n (mem h).prev
  let mem := setNext mem (mem n).prev n
  let mem := setNext mem n q
  let mem := setPrev mem h (mem q).prev
  let mem := setNext mem (mem h).prev h
  setPrev mem q n

/-- `QUEUE_MOVE` -/
def move (mem : A → Queue A) (h n : A) : A → Queue A :=
  if IsEmpty mem h then init mem n else split mem h (head mem h) n

/-- The loop of `QUEUE_FOREACH` from `q` on, with the members it comes by. -/
def foreachLoop : Nat → (A → Queue A) → A → A → Option (List A)
  | 0, _, _, _ => none
  | fuel + 1, mem, h, q =>
      if q = h then some [] else (foreachLoop fuel mem h (mem q).next).map (q :: ·)

/-- `QUEUE_FOREACH` -/
def foreach (fuel : Nat) (mem : A → Queue A) (h : A) : Option (List A) :=
  foreachLoop fuel mem h (mem h).next

/-! ## The two pointers as functions -/

@[simp] theorem nexts_setNext (mem : A → Queue A) (q b : A) :
    nexts (setNext mem q b) = Function.update (nexts mem) q b := by
  funext a
  unfold nexts setNext
  rcases decEq a q with hne | rfl
  · simp [hne]
  · simp

@[simp] theorem prevs_setNext (mem : A → Queue A) (q b : A) :
    prevs (setNext mem q b) = prevs mem := by
  funext a
  unfold prevs setNext
  rcases decEq a q with hne | rfl
  · simp [hne]
  · simp

@[simp] theorem nexts_setPrev (mem : A → Queue A) (q b : A) :
    nexts (setPrev mem q b) = nexts mem := by
  funext a
  unfold nexts setPrev
  rcases decEq a q with hne | rfl
  · simp [hne]
  · simp

@[simp] theorem prevs_setPrev (mem : A → Queue A) (q b : A) :
    prevs (setPrev mem q b) = Function.update (prevs mem) q b := by
  funext a
  unfold prevs setPrev
  rcases decEq a q with hne | rfl
  · simp [hne]
  · simp

theorem nexts_init (mem : A → Queue A) (q : A) :
    nexts (init mem q) = Function.update (nexts mem) q q := by
  simp [init]

theorem prevs_init (mem : A → Queue A) (q : A) :
    prevs (init mem q) = Function.update (prevs mem) q q := by
  simp [init]

/-- Writing `q` leaves the pointer back from `h` to be read. -/
theorem insertTail_eq (mem : A → Queue A) (h q : A) :
    insertTail mem h q
      = setPrev (setNext (setPrev (setNext mem q h) q (prevs mem h)) (prevs mem h) q) h q := by
  have hback : (setNext mem q h h).prev = prevs mem h := congrFun (prevs_setNext mem q h) h
  have hprev : (setPrev (setNext mem q h) q (prevs mem h) q).prev = prevs mem h := by
    simp [setPrev]
  simp only [insertTail, hback, hprev]

theorem nexts_insertTail (mem : A → Queue A) (h q : A) :
    nexts (insertTail mem h q)
      = Function.update (Function.update (nexts mem) q h) (prevs mem h) q := by
  simp [insertTail_eq]

theorem prevs_insertTail (mem : A → Queue A) (h q : A) :
    prevs (insertTail mem h q)
      = Function.update (Function.update (prevs mem) q (prevs mem h)) h q := by
  simp [insertTail_eq]

/-- The first write of `QUEUE_REMOVE` leaves both pointers of `q`. -/
theorem remove_eq (mem : A → Queue A) (q : A) :
    remove mem q
      = setPrev (setNext mem (prevs mem q) (nexts mem q)) (nexts mem q) (prevs mem q) := by
  have hprev : (setNext mem (prevs mem q) (nexts mem q) q).prev = prevs mem q :=
    congrFun (prevs_setNext mem _ _) q
  have hnext : (setNext mem (prevs mem q) (nexts mem q) q).next = nexts mem q := by
    change nexts (setNext mem (prevs mem q) (nexts mem q)) q = nexts mem q
    rw [nexts_setNext]
    rcases decEq q (prevs mem q) with hne | heq
    · rw [Function.update_of_ne hne]
    · rw [← heq, Function.update_self]
  unfold remove
  change setPrev (setNext mem (prevs mem q) (nexts mem q))
    (setNext mem (prevs mem q) (nexts mem q) q).next
    (setNext mem (prevs mem q) (nexts mem q) q).prev = _
  rw [hnext, hprev]

theorem nexts_remove (mem : A → Queue A) (q : A) :
    nexts (remove mem q) = Function.update (nexts mem) (prevs mem q) (nexts mem q) := by
  simp [remove_eq]

theorem prevs_remove (mem : A → Queue A) (q : A) :
    prevs (remove mem q) = Function.update (prevs mem) (nexts mem q) (prevs mem q) := by
  simp [remove_eq]

/-- The new member keeps what is written to it first. -/
theorem insertHead_eq (mem : A → Queue A) (h q : A) :
    insertHead mem h q
      = setNext (setPrev (setPrev (setNext mem q (nexts mem h)) q h) (nexts mem h) q) h q := by
  simp [insertHead, next_eq]

theorem nexts_insertHead (mem : A → Queue A) (h q : A) :
    nexts (insertHead mem h q)
      = Function.update (Function.update (nexts mem) q (nexts mem h)) h q := by
  simp [insertHead_eq]

theorem prevs_insertHead (mem : A → Queue A) (h q : A) :
    prevs (insertHead mem h q)
      = Function.update (Function.update (prevs mem) q h) (nexts mem h) q := by
  simp [insertHead_eq]

/-- What `QUEUE_PREV(n)` is when `QUEUE_ADD` reads it. -/
def addedLast (mem : A → Queue A) (h n : A) : A :=
  Function.update (prevs mem) (nexts mem n) (prevs mem h) n

/-- Its first write leaves the pointer of `n` as it is. -/
theorem add_eq (mem : A → Queue A) (h n : A) :
    add mem h n
      = setNext (setPrev (setPrev (setNext mem (prevs mem h) (nexts mem n)) (nexts mem n)
          (prevs mem h)) h (addedLast mem h n)) (addedLast mem h n) h := by
  have hnext : Function.update (nexts mem) (prevs mem h) (nexts mem n) n = nexts mem n := by
    rcases decEq n (prevs mem h) with hne | heq
    · rw [Function.update_of_ne hne]
    · rw [← heq, Function.update_self]
  simp [add, next_eq, prev_eq, hnext, addedLast]

theorem nexts_add (mem : A → Queue A) (h n : A) :
    nexts (add mem h n)
      = Function.update (Function.update (nexts mem) (prevs mem h) (nexts mem n))
          (addedLast mem h n) h := by
  simp [add_eq]

theorem prevs_add (mem : A → Queue A) (h n : A) :
    prevs (add mem h n)
      = Function.update (Function.update (prevs mem) (nexts mem n) (prevs mem h)) h
          (addedLast mem h n) := by
  simp [add_eq]

/-- A new head that is not `q` leaves the pointer back from `q`. -/
theorem split_eq (mem : A → Queue A) {h q n : A} (hq : q ≠ n) :
    split mem h q n
      = setPrev (setNext (setPrev (setNext (setNext (setPrev mem n (prevs mem h)) (prevs mem h) n)
          n q) h (prevs mem q)) (prevs mem q) h) q n := by
  simp [split, prev_eq, hq]

theorem nexts_split (mem : A → Queue A) {h q n : A} (hq : q ≠ n) :
    nexts (split mem h q n)
      = Function.update (Function.update (Function.update (nexts mem) (prevs mem h) n) n q)
          (prevs mem q) h := by
  simp [split_eq mem hq]

theorem prevs_split (mem : A → Queue A) {h q n : A} (hq : q ≠ n) :
    prevs (split mem h q n)
      = Function.update (Function.update (Function.update (prevs mem) n (prevs mem h)) h
          (prevs mem q)) q n := by
  simp [split_eq mem hq]

end Macros

/-! ## Well-formed lists -/

/-- **A well-formed circular doubly linked list** with the head `h`. -/
def IsList (mem : A → Queue A) (h : A) (ns : List A) : Prop := Ring (nexts mem) (prevs mem) h ns

variable {mem mem' : A → Queue A} {h q : A} {ns : List A}

theorem IsList.isEmpty_iff (hlist : IsList mem h ns) : IsEmpty mem h ↔ ns = [] :=
  hlist.next_eq_iff

/-- Only the head and the members are read. -/
theorem IsList.congr (hlist : IsList mem h ns) (hsame : ∀ a ∈ h :: ns, mem' a = mem a) :
    IsList mem' h ns :=
  Ring.congr hlist (fun a ha => congrArg Queue.next (hsame a ha))
    (fun a ha => congrArg Queue.prev (hsame a ha))

variable [DecidableEq A]

theorem isList_init (mem : A → Queue A) (h : A) : IsList (init mem h) h [] := by
  unfold IsList
  rw [nexts_init, prevs_init]
  exact ring_nil.mpr ⟨Function.update_self _ _ _, Function.update_self _ _ _⟩

theorem IsList.insertTail (hlist : IsList mem h ns) (hq : q ∉ h :: ns) :
    IsList (insertTail mem h q) h (ns ++ [q]) := by
  unfold IsList
  rw [nexts_insertTail, prevs_insertTail]
  exact Ring.insert hlist hq

theorem IsList.remove {ms ls : List A} (hlist : IsList mem h (ms ++ q :: ls)) :
    IsList (remove mem q) h (ms ++ ls) := by
  unfold IsList
  rw [nexts_remove, prevs_remove]
  exact Ring.remove hlist

theorem IsList.insertHead (hlist : IsList mem h ns) (hq : q ∉ h :: ns) :
    IsList (insertHead mem h q) h (q :: ns) := by
  unfold IsList
  rw [nexts_insertHead, prevs_insertHead]
  exact Ring.insertFirst hlist hq

/-- **`QUEUE_ADD`** moves the members of `n` over; the head `n` is not put
right. -/
theorem IsList.add {n : A} {ms : List A} (hlist : IsList mem h ns) (hother : IsList mem n ms)
    (hapart : (h :: ns).Disjoint (n :: ms)) : IsList (add mem h n) h (ns ++ ms) := by
  unfold IsList
  rw [nexts_add, prevs_add]
  exact Ring.append hlist hother hapart rfl

/-- **`QUEUE_SPLIT`** at a member, with a new head. -/
theorem IsList.split {n : A} {ms ls : List A} (hlist : IsList mem h (ms ++ q :: ls))
    (hn : n ∉ h :: (ms ++ q :: ls)) :
    IsList (split mem h q n) h ms ∧ IsList (split mem h q n) n (q :: ls) := by
  have hq : q ≠ n := fun heq => hn (heq ▸ by simp)
  exact Ring.split hlist hn (nexts_split mem hq) (prevs_split mem hq)

/-- **`QUEUE_MOVE`** leaves the list empty. -/
theorem IsList.move {n : A} (hlist : IsList mem h ns) (hn : n ∉ h :: ns) :
    IsList (move mem h n) h [] ∧ IsList (move mem h n) n ns := by
  unfold Queue.move
  cases ns with
  | nil =>
      have hne : n ≠ h := fun heq => hn (heq ▸ List.mem_cons_self)
      rw [if_pos (hlist.isEmpty_iff.mpr rfl)]
      refine ⟨hlist.congr fun a ha => ?_, isList_init mem n⟩
      rw [List.mem_singleton.mp ha]
      exact Function.update_of_ne hne.symm _ _ |>.trans (Function.update_of_ne hne.symm _ _)
  | cons m ns =>
      have hhead : head mem h = m := hlist.linked.1.1
      have hcut : IsList mem h ([] ++ m :: ns) := hlist
      rw [if_neg (by simp [hlist.isEmpty_iff]), hhead]
      exact hcut.split hn

/-- **`QUEUE_FOREACH`** comes by the members in order, and ends at the head. -/
theorem IsList.foreach (hlist : IsList mem h ns) {fuel : Nat} (hfuel : ns.length < fuel) :
    foreach fuel mem h = some ns := by
  have loop : ∀ (fuel : Nat) (ls : List A) {a : A}, Linked (nexts mem) (prevs mem) a ls h →
      h ∉ ls → ls.length < fuel → foreachLoop fuel mem h (nexts mem a) = some ls := by
    intro fuel
    induction fuel with
    | zero => exact fun _ _ _ _ hlt => absurd hlt (Nat.not_lt_zero _)
    | succ fuel ih =>
        intro ls a hlinked hh hlt
        cases ls with
        | nil =>
            rw [hlinked.1]
            exact if_pos rfl
        | cons l ls =>
            have hl : nexts mem a = l := hlinked.1.1
            have hne : l ≠ h := fun heq => hh (heq ▸ List.mem_cons_self)
            have hrest := ih ls hlinked.2 (fun hmem => hh (List.mem_cons_of_mem l hmem))
              (Nat.lt_of_succ_lt_succ hlt)
            rw [hl, foreachLoop, if_neg hne, next_eq, hrest]
            rfl
  exact loop fuel ns hlist.linked (List.nodup_cons.mp hlist.nodup).1 hfuel

/-! ## What else is written -/

theorem init_of_ne {a : A} (hne : a ≠ h) : init mem h a = mem a := by
  simp [init, setNext, setPrev, hne]

theorem setNext_of_ne {a b : A} (hne : a ≠ q) : setNext mem q b a = mem a :=
  Function.update_of_ne hne _ _

theorem setPrev_of_ne {a b : A} (hne : a ≠ q) : setPrev mem q b a = mem a :=
  Function.update_of_ne hne _ _

/-- `QUEUE_INSERT_TAIL` writes the node, the head and the last member. -/
theorem IsList.insertTail_of_not_mem (hlist : IsList mem h ns) {a : A} (ha : a ∉ h :: ns)
    (haq : a ≠ q) : Queue.insertTail mem h q a = mem a := by
  have hah : a ≠ h := fun heq => ha (heq ▸ List.mem_cons_self)
  have hlast : a ≠ prevs mem h := fun heq => ha (heq ▸ Ring.prev_mem hlist List.mem_cons_self)
  rw [insertTail_eq, setPrev_of_ne hah, setNext_of_ne hlast, setPrev_of_ne haq,
    setNext_of_ne haq]

/-- `QUEUE_REMOVE` writes the neighbours of the node. -/
theorem IsList.remove_of_not_mem (hlist : IsList mem h ns) (hq : q ∈ ns) {a : A}
    (ha : a ∉ h :: ns) : Queue.remove mem q a = mem a := by
  have hq' := List.mem_cons_of_mem h hq
  have hnext : a ≠ nexts mem q := fun heq => ha (heq ▸ Ring.next_mem hlist hq')
  have hprev : a ≠ prevs mem q := fun heq => ha (heq ▸ Ring.prev_mem hlist hq')
  rw [remove_eq, setPrev_of_ne hnext, setNext_of_ne hprev]

/-- `QUEUE_INSERT_HEAD` writes the node, the head and the first member. -/
theorem IsList.insertHead_of_not_mem (hlist : IsList mem h ns) {a : A} (ha : a ∉ h :: ns)
    (haq : a ≠ q) : Queue.insertHead mem h q a = mem a := by
  have hah : a ≠ h := fun heq => ha (heq ▸ List.mem_cons_self)
  have hfirst : a ≠ nexts mem h := fun heq => ha (heq ▸ Ring.next_mem hlist List.mem_cons_self)
  rw [insertHead_eq, setNext_of_ne hah, setPrev_of_ne hfirst, setPrev_of_ne haq,
    setNext_of_ne haq]

/-- `QUEUE_ADD` writes the two lists. -/
theorem IsList.add_of_not_mem {n : A} {ms : List A} (hlist : IsList mem h ns)
    (hother : IsList mem n ms) {a : A} (ha : a ∉ h :: ns) (han : a ∉ n :: ms) :
    Queue.add mem h n a = mem a := by
  have hah : a ≠ h := fun heq => ha (heq ▸ List.mem_cons_self)
  have hback : a ≠ prevs mem h := fun heq => ha (heq ▸ Ring.prev_mem hlist List.mem_cons_self)
  have hfirst : a ≠ nexts mem n := fun heq => han (heq ▸ Ring.next_mem hother List.mem_cons_self)
  have hlast : a ≠ addedLast mem h n := by
    rw [addedLast]
    by_cases hn : n = nexts mem n
    · rw [← hn, Function.update_self]
      exact hback
    · rw [Function.update_of_ne hn]
      exact fun heq => han (heq ▸ Ring.prev_mem hother List.mem_cons_self)
  rw [add_eq, setNext_of_ne hlast, setPrev_of_ne hah, setPrev_of_ne hfirst, setNext_of_ne hback]

/-- `QUEUE_SPLIT` writes the list and the new head. -/
theorem IsList.split_of_not_mem {n : A} (hlist : IsList mem h ns) (hq : q ∈ ns) (hqn : q ≠ n)
    {a : A} (ha : a ∉ h :: ns) (han : a ≠ n) : Queue.split mem h q n a = mem a := by
  have hah : a ≠ h := fun heq => ha (heq ▸ List.mem_cons_self)
  have haq : a ≠ q := fun heq => ha (heq ▸ List.mem_cons_of_mem h hq)
  have hlast : a ≠ prevs mem h := fun heq => ha (heq ▸ Ring.prev_mem hlist List.mem_cons_self)
  have hback : a ≠ prevs mem q := fun heq =>
    ha (heq ▸ Ring.prev_mem hlist (List.mem_cons_of_mem h hq))
  rw [split_eq mem hqn, setPrev_of_ne haq, setNext_of_ne hback, setPrev_of_ne hah,
    setNext_of_ne han, setNext_of_ne hlast, setPrev_of_ne han]

/-- `QUEUE_MOVE` writes the list and the new head. -/
theorem IsList.move_of_not_mem {n : A} (hlist : IsList mem h ns) (hn : n ∉ h :: ns) {a : A}
    (ha : a ∉ h :: ns) (han : a ≠ n) : Queue.move mem h n a = mem a := by
  unfold Queue.move
  cases ns with
  | nil =>
      rw [if_pos (hlist.isEmpty_iff.mpr rfl)]
      exact init_of_ne han
  | cons m ns =>
      have hhead : head mem h = m := hlist.linked.1.1
      have hmn : m ≠ n := fun heq => hn (heq ▸ by simp)
      rw [if_neg (by simp [hlist.isEmpty_iff]), hhead]
      exact hlist.split_of_not_mem List.mem_cons_self hmn ha han

end Queue

end Ats
