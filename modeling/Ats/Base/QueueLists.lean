import Mathlib.Data.List.Flatten
import Mathlib.Data.List.Perm.Basic
import Ats.Base.Queue
import Ats.Lib.CallRun

/-!
# QueueLists: all the lists in one memory

The macros of `queue.h` have no list as an argument, only heads and members.
In a memory with any number of lists, each is a call on a table of lists: it
changes the lists that it is about, and no other.
-/

namespace Ats

open CallRun LinkedRing

namespace Queue

variable {A : Type}

/-! ## A table of lists -/

/-- The heads and the members of the lists. -/
def cells (rs : List (A × List A)) : List A := rs.flatMap fun r => r.1 :: r.2

/-- The members alone. -/
def members (rs : List (A × List A)) : List A := rs.flatMap Prod.snd

section Table

variable [DecidableEq A]

/-- The table without the list of `h`. -/
def without (rs : List (A × List A)) (h : A) : List (A × List A) :=
  rs.filter fun r => r.1 ≠ h

/-- A macro. -/
inductive Call (A : Type) where
  | init (h : A)
  | insertHead (h q : A)
  | insertTail (h q : A)
  | remove (q : A)
  | add (h n : A)
  | split (h q n : A)
  | move (h n : A)
  | isEmpty (h : A)
  | head (h : A)

/-- What it gives. -/
inductive Result (A : Type) where
  | done
  | flag (b : Bool)
  | cell (a : A)
deriving DecidableEq

/-- The macro, on memory. -/
def Call.exec (mem : A → Queue A) : Call A → Option ((A → Queue A) × Result A)
  | .init h => some (Queue.init mem h, .done)
  | .insertHead h q => some (Queue.insertHead mem h q, .done)
  | .insertTail h q => some (Queue.insertTail mem h q, .done)
  | .remove q => some (Queue.remove mem q, .done)
  | .add h n => some (Queue.add mem h n, .done)
  | .split h q n => some (Queue.split mem h q n, .done)
  | .move h n => some (Queue.move mem h n, .done)
  | .isEmpty h => some (mem, .flag (decide (IsEmpty mem h)))
  | .head h => some (mem, .cell (Queue.head mem h))

/-- **The same call on a table of lists.** A list may be made at any cell that
is no member, a member added that is in no list; a list that is given a new
head must not be in use there, and `QUEUE_ADD` takes the list that it adds out
of the table. -/
def Call.onLists (rs : List (A × List A)) : Call A → Option (List (A × List A) × Result A)
  | .init h => if h ∈ members rs then none else some ((h, []) :: without rs h, .done)
  | .insertHead h q => do
      let ns ← rs.lookup h
      if q ∈ cells rs then none else some ((h, q :: ns) :: without rs h, .done)
  | .insertTail h q => do
      let ns ← rs.lookup h
      if q ∈ cells rs then none else some ((h, ns ++ [q]) :: without rs h, .done)
  | .remove q => do
      let r ← rs.find? fun r => q ∈ r.2
      some ((r.1, r.2.erase q) :: without rs r.1, .done)
  | .add h n => do
      let ms ← rs.lookup n
      let ns ← (without rs n).lookup h
      some ((h, ns ++ ms) :: without (without rs n) h, .done)
  | .split h q n => do
      let ns ← (without rs n).lookup h
      if q ∈ ns ∧ n ∉ members rs then
        some ((h, ns.takeWhile (· ≠ q)) :: (n, ns.dropWhile (· ≠ q)) :: without (without rs n) h,
          .done)
      else none
  | .move h n => do
      let ns ← (without rs n).lookup h
      if n ∈ members rs then none
      else some ((h, []) :: (n, ns) :: without (without rs n) h, .done)
  | .isEmpty h => do
      let ns ← rs.lookup h
      some (rs, .flag ns.isEmpty)
  | .head h => do
      let ns ← rs.lookup h
      some (rs, .cell (ns.headD h))

end Table

/-- **The lists of a table are in memory**, none of them sharing a cell. -/
structure Rings (mem : A → Queue A) (rs : List (A × List A)) : Prop where
  apart : (cells rs).Nodup
  lists : ∀ r ∈ rs, IsList mem r.1 r.2

variable {mem mem' : A → Queue A} {rs rest : List (A × List A)} {h n q : A} {ns : List A}

theorem Rings.sublist (hr : Rings mem rs) (hsub : rest.Sublist rs) : Rings mem rest :=
  ⟨hr.apart.sublist (hsub.flatMap _), fun r hm => hr.lists r (hsub.subset hm)⟩

/-- **Lists are written** beside others that stay as they are. -/
theorem Rings.beside (hr : Rings mem rest) (ys : List (A × List A))
    (hys : ∀ r ∈ ys, IsList mem' r.1 r.2) (hnodup : (cells ys).Nodup)
    (hapart : ∀ a ∈ cells ys, a ∉ cells rest) (hframe : ∀ a ∈ cells rest, mem' a = mem a) :
    Rings mem' (ys ++ rest) where
  apart := by
    rw [cells, List.flatMap_append]
    exact List.nodup_append.mpr ⟨hnodup, hr.apart, fun a ha b hb heq => hapart a ha (heq ▸ hb)⟩
  lists := fun r hm => by
    rcases List.mem_append.mp hm with hm | hm
    · exact hys r hm
    · refine (hr.lists r hm).congr fun a ha => hframe a ?_
      exact List.mem_flatMap.mpr ⟨r, hm, ha⟩

theorem mem_cells {a : A} : a ∈ cells rs ↔ ∃ r ∈ rs, a ∈ r.1 :: r.2 := List.mem_flatMap

theorem mem_members {a : A} : a ∈ members rs ↔ ∃ r ∈ rs, a ∈ r.2 := List.mem_flatMap

variable [DecidableEq A]

theorem without_sublist (rs : List (A × List A)) (h : A) : (without rs h).Sublist rs :=
  List.filter_sublist

/-- A cell that is no member is in no list but its own. -/
theorem not_mem_without (hh : h ∉ members rs) : h ∉ cells (without rs h) := by
  intro hmem
  obtain ⟨r, hr, hmem⟩ := mem_cells.mp hmem
  obtain ⟨hr, hne⟩ := List.mem_filter.mp hr
  rcases List.mem_cons.mp hmem with heq | hmem
  · exact of_decide_eq_true hne heq.symm
  · exact hh (mem_members.mpr ⟨r, hr, hmem⟩)

/-- **The list of `h`, and the rest of the table.** -/
structure Taken (mem : A → Queue A) (rs : List (A × List A)) (h : A) (ns : List A) : Prop where
  isList : IsList mem h ns
  rest : Rings mem (without rs h)
  apart : (h :: ns).Disjoint (cells (without rs h))
  mem_iff : ∀ a, a ∈ cells rs ↔ a ∈ h :: ns ∨ a ∈ cells (without rs h)

theorem Rings.take_mem (hr : Rings mem rs) (hmem : (h, ns) ∈ rs) : Taken mem rs h ns := by
  obtain ⟨before, after, rfl⟩ := List.append_of_mem hmem
  have hperm : (cells (before ++ (h, ns) :: after)).Perm ((h :: ns) ++ cells (before ++ after)) :=
    List.perm_middle.flatMap_right _
  have hdistinct := List.nodup_append.mp (hperm.nodup_iff.mp hr.apart)
  have hothers : ∀ r ∈ before ++ after, r.1 ≠ h := fun r hr' heq =>
    hdistinct.2.2 h List.mem_cons_self r.1 (mem_cells.mpr ⟨r, hr', List.mem_cons_self⟩) heq.symm
  have hrest : without (before ++ (h, ns) :: after) h = before ++ after := by
    have hself : (before ++ after).filter (fun r => r.1 ≠ h) = before ++ after :=
      List.filter_eq_self.mpr fun r hr' => decide_eq_true (hothers r hr')
    rw [List.filter_append] at hself
    rw [without, List.filter_append, List.filter_cons_of_neg (by simp), hself]
  refine ⟨hr.lists _ hmem, hr.sublist (without_sublist _ _), ?_, fun a => ?_⟩
  · rw [hrest]
    exact fun a ha ha' => hdistinct.2.2 a ha a ha' rfl
  · rw [hrest, hperm.mem_iff, List.mem_append]

theorem mem_of_lookup (hl : rs.lookup h = some ns) : (h, ns) ∈ rs := by
  obtain ⟨before, after, rfl, -⟩ := List.lookup_eq_some_iff.mp hl
  simp

theorem Rings.take (hr : Rings mem rs) (hl : rs.lookup h = some ns) : Taken mem rs h ns :=
  hr.take_mem (mem_of_lookup hl)

/-- **A list is written anew**, over its own cells and some that were free. -/
theorem Taken.write {ms : List A} (ht : Taken mem rs h ns) (hlist : IsList mem' h ms)
    (hcells : ∀ a ∈ ms, a ∈ ns ∨ a ∉ cells rs)
    (hframe : ∀ a, a ∉ h :: ns → a ∈ cells rs → mem' a = mem a) :
    Rings mem' ((h, ms) :: without rs h) := by
  have hone : cells [(h, ms)] = h :: ms := List.append_nil _
  refine ht.rest.beside [(h, ms)] (fun r hm => ?_) ?_ (fun a ha hmem => ?_) fun a ha => ?_
  · rw [List.mem_singleton.mp hm]
    exact hlist
  · rw [hone]
    exact hlist.nodup
  · rw [hone] at ha
    rcases List.mem_cons.mp ha with rfl | ha
    · exact ht.apart List.mem_cons_self hmem
    · rcases hcells a ha with ha | ha
      · exact ht.apart (List.mem_cons_of_mem h ha) hmem
      · exact ha ((ht.mem_iff a).mpr (.inr hmem))
  · exact hframe a (fun hmem => ht.apart hmem ha) ((ht.mem_iff a).mpr (.inr ha))

/-- **A list is parted into two**, over its own cells and the new head. -/
theorem Taken.part {ms ks : List A} (ht : Taken mem (without rs n) h ns) (hn : n ∉ members rs)
    (hperm : (ms ++ ks).Perm ns) (hfirst : IsList mem' h ms) (hsecond : IsList mem' n ks)
    (hframe : ∀ a, a ∉ h :: ns → a ≠ n → mem' a = mem a) :
    Rings mem' ((h, ms) :: (n, ks) :: without (without rs n) h) := by
  have hfree := not_mem_without hn
  have hnh : n ∉ h :: ns := fun hmem => hfree ((ht.mem_iff n).mpr (.inl hmem))
  have hnrest : n ∉ cells (without (without rs n) h) := fun hmem =>
    hfree ((ht.mem_iff n).mpr (.inr hmem))
  have htwo : (cells [(h, ms), (n, ks)]).Perm (n :: h :: ns) := by
    have hcells : cells [(h, ms), (n, ks)] = (h :: ms) ++ n :: ks :=
      congrArg ((h :: ms) ++ ·) (List.append_nil (n :: ks))
    rw [hcells]
    exact List.perm_middle.trans ((hperm.cons h).cons n)
  refine ht.rest.beside [(h, ms), (n, ks)] (fun r hm => ?_) ?_ (fun a ha hmem => ?_)
    fun a ha => ?_
  · rcases List.mem_cons.mp hm with rfl | hm
    · exact hfirst
    · rw [List.mem_singleton.mp hm]
      exact hsecond
  · exact htwo.nodup_iff.mpr (List.nodup_cons.mpr ⟨hnh, ht.isList.nodup⟩)
  · rcases List.mem_cons.mp (htwo.mem_iff.mp ha) with rfl | ha
    · exact hnrest hmem
    · exact ht.apart ha hmem
  · exact hframe a (fun hmem => ht.apart hmem ha) fun heq => hnrest (heq ▸ ha)

/-! ## The macros -/

/-- A list, cut before its first `q`. -/
theorem cut_at {q : A} (hq : q ∈ ns) : ∃ ms ls, ns = ms ++ q :: ls ∧ q ∉ ms
    ∧ ns.takeWhile (· ≠ q) = ms ∧ ns.dropWhile (· ≠ q) = q :: ls := by
  obtain ⟨ms, ls, rfl, hms⟩ := List.eq_append_cons_of_mem hq
  have hpass : ∀ a ∈ ms, decide (a ≠ q) = true := fun a ha =>
    decide_eq_true fun heq => hms (heq ▸ ha)
  refine ⟨ms, ls, rfl, hms, ?_, ?_⟩
  · rw [List.takeWhile_append_of_pos hpass, List.takeWhile_cons_of_neg (by simp), List.append_nil]
  · rw [List.dropWhile_append_of_pos hpass, List.dropWhile_cons_of_neg (by simp)]

/-- **Each macro is the call on the table.** -/
theorem Rings.exec {call : Call A} {rs' : List (A × List A)} {r : Result A} (hr : Rings mem rs)
    (hcall : call.onLists rs = some (rs', r)) :
    ∃ mem', call.exec mem = some (mem', r) ∧ Rings mem' rs' := by
  cases call with
  | init h =>
      obtain ⟨hh, hcall⟩ := Option.ite_none_left_eq_some.mp hcall
      cases hcall
      have hfree := not_mem_without hh
      refine ⟨_, rfl, (hr.sublist (without_sublist rs h)).beside [(h, [])] ?_ ?_ ?_ ?_⟩
      · exact fun r hm => by
          rw [List.mem_singleton.mp hm]
          exact isList_init mem h
      · exact List.nodup_singleton h
      · intro a ha
        rwa [List.mem_singleton.mp ha]
      · exact fun a ha => init_of_ne fun heq => hfree (heq ▸ ha)
  | insertHead h q =>
      obtain ⟨ns, hl, hcall⟩ := Option.bind_eq_some_iff.mp hcall
      obtain ⟨hq, hcall⟩ := Option.ite_none_left_eq_some.mp hcall
      cases hcall
      have ht := hr.take hl
      have hqh : q ∉ h :: ns := fun hmem => hq ((ht.mem_iff q).mpr (.inl hmem))
      refine ⟨_, rfl, ht.write (ht.isList.insertHead hqh) (fun a ha => ?_) fun a ha hmem => ?_⟩
      · rcases List.mem_cons.mp ha with rfl | ha
        · exact .inr hq
        · exact .inl ha
      · exact ht.isList.insertHead_of_not_mem ha fun heq => hq (heq ▸ hmem)
  | insertTail h q =>
      obtain ⟨ns, hl, hcall⟩ := Option.bind_eq_some_iff.mp hcall
      obtain ⟨hq, hcall⟩ := Option.ite_none_left_eq_some.mp hcall
      cases hcall
      have ht := hr.take hl
      have hqh : q ∉ h :: ns := fun hmem => hq ((ht.mem_iff q).mpr (.inl hmem))
      refine ⟨_, rfl, ht.write (ht.isList.insertTail hqh) (fun a ha => ?_) fun a ha hmem => ?_⟩
      · rcases List.mem_append.mp ha with ha | ha
        · exact .inl ha
        · rw [List.mem_singleton.mp ha]
          exact .inr hq
      · exact ht.isList.insertTail_of_not_mem ha fun heq => hq (heq ▸ hmem)
  | remove q =>
      obtain ⟨⟨h, ns⟩, hfind, hcall⟩ := Option.bind_eq_some_iff.mp hcall
      cases hcall
      have hfound := List.find?_some hfind
      have hq : q ∈ ns := of_decide_eq_true hfound
      have ht := hr.take_mem (List.mem_of_find?_eq_some hfind)
      obtain ⟨ms, ls, rfl, hms, -, -⟩ := cut_at hq
      have herase : (ms ++ q :: ls).erase q = ms ++ ls := by
        rw [List.erase_append_right _ hms, List.erase_cons_head]
      refine ⟨_, rfl, ht.write ?_ (fun a ha => .inl (List.mem_of_mem_erase ha)) fun a ha _ => ?_⟩
      · rw [herase]
        exact ht.isList.remove
      · exact ht.isList.remove_of_not_mem hq ha
  | add h n =>
      obtain ⟨ms, hn, hcall⟩ := Option.bind_eq_some_iff.mp hcall
      obtain ⟨ns, hl, hcall⟩ := Option.bind_eq_some_iff.mp hcall
      cases hcall
      have hother := hr.take hn
      have ht := hother.rest.take hl
      have hapart : (h :: ns).Disjoint (n :: ms) := fun a ha han =>
        hother.apart han ((ht.mem_iff a).mpr (.inl ha))
      refine ⟨_, rfl, ht.write (ht.isList.add hother.isList hapart) (fun a ha => ?_)
        fun a ha hmem => ?_⟩
      · rcases List.mem_append.mp ha with ha | ha
        · exact .inl ha
        · exact .inr fun hmem => hother.apart (List.mem_cons_of_mem n ha) hmem
      · exact ht.isList.add_of_not_mem hother.isList ha fun han => hother.apart han hmem
  | split h q n =>
      obtain ⟨ns, hl, hcall⟩ := Option.bind_eq_some_iff.mp hcall
      obtain ⟨⟨hq, hn⟩, hcall⟩ := Option.ite_none_right_eq_some.mp hcall
      cases hcall
      have ht := (hr.sublist (without_sublist rs n)).take hl
      have hnh : n ∉ h :: ns := fun hmem => not_mem_without hn ((ht.mem_iff n).mpr (.inl hmem))
      have hqn : q ≠ n := fun heq => hnh (heq ▸ List.mem_cons_of_mem h hq)
      obtain ⟨ms, ls, rfl, hms, htake, hdrop⟩ := cut_at hq
      have hlists := ht.isList.split hnh
      rw [htake, hdrop]
      refine ⟨_, rfl, ht.part hn (List.Perm.refl _) hlists.1 hlists.2 fun a ha han => ?_⟩
      exact ht.isList.split_of_not_mem hq hqn ha han
  | move h n =>
      obtain ⟨ns, hl, hcall⟩ := Option.bind_eq_some_iff.mp hcall
      obtain ⟨hn, hcall⟩ := Option.ite_none_left_eq_some.mp hcall
      cases hcall
      have ht := (hr.sublist (without_sublist rs n)).take hl
      have hnh : n ∉ h :: ns := fun hmem => not_mem_without hn ((ht.mem_iff n).mpr (.inl hmem))
      have hlists := ht.isList.move hnh
      refine ⟨_, rfl, ht.part hn (List.Perm.refl _) hlists.1 hlists.2 fun a ha han => ?_⟩
      exact ht.isList.move_of_not_mem hnh ha han
  | isEmpty h =>
      obtain ⟨ns, hl, hcall⟩ := Option.bind_eq_some_iff.mp hcall
      cases hcall
      have hempty : decide (IsEmpty mem h) = ns.isEmpty := by
        rw [Bool.eq_iff_iff, decide_eq_true_iff, (hr.take hl).isList.isEmpty_iff, List.isEmpty_iff]
      exact ⟨mem, by rw [Call.exec, hempty], hr⟩
  | head h =>
      obtain ⟨ns, hl, hcall⟩ := Option.bind_eq_some_iff.mp hcall
      cases hcall
      have hhead : Queue.head mem h = ns.headD h := by
        have hlinked := (hr.take hl).isList.linked
        cases ns with
        | nil => exact hlinked.1
        | cons m ns => exact hlinked.1.1
      exact ⟨mem, by rw [Call.exec, hhead], hr⟩

/-- **`queue.h` keeps lists.** From any memory, every sequence of macros that
goes through on a table of lists that begins empty gives the same on memory, and
`QUEUE_FOREACH` then goes over each list of the table, member by member. -/
theorem queueCalls_lists (mem : A → Queue A) (cs : List (Call A)) {out : List (Result A)}
    (hcalls : calls Call.onLists [] cs = some (rs, out)) :
    ∃ mem', calls Call.exec mem cs = some (mem', out) ∧ (cells rs).Nodup
      ∧ ∀ r ∈ rs, ∀ fuel, r.2.length < fuel → foreach fuel mem' r.1 = some r.2 := by
  have hnone : Rings mem [] := ⟨List.nodup_nil, fun _ hm => absurd hm List.not_mem_nil⟩
  obtain ⟨mem', hexec, hr⟩ :=
    calls_simulated (fun _ _ _ _ _ hr hcall => hr.exec hcall) cs hnone hcalls
  exact ⟨mem', hexec, hr.apart, fun r hm fuel hfuel => (hr.lists r hm).foreach hfuel⟩

/-- A list is filled, cut in two, added to another and moved. -/
theorem queueCalls_lists_moved :
    ∃ mem', calls Call.exec (fun _ : Nat => ⟨0, 0⟩) [.init 1, .insertTail 1 11, .insertHead 1 12,
        .insertTail 1 13, .split 1 11 2, .init 3, .insertTail 3 14, .add 3 2, .remove 13, .move 3 4,
        .isEmpty 3, .head 4] = some (mem', List.replicate 10 .done ++ [.flag true, .cell 14])
      ∧ (cells [(3, []), (4, [14, 11]), (1, [12])]).Nodup
      ∧ ∀ r ∈ [(3, []), (4, [14, 11]), (1, [12])], ∀ fuel, r.2.length < fuel →
        foreach fuel mem' r.1 = some r.2 :=
  queueCalls_lists _ _ rfl

end Queue

end Ats
