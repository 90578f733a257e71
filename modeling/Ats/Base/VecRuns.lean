import Ats.Base.Mem
import Ats.Base.Vec
import Ats.Lib.CallRun

/-!
# VecRuns: sequences of calls on a vector

On a list, with the capacity beside it, each call of `vec.h` is what its name
says; a call that memory is refused to leaves the list as it is. All calls of
a run return what they return on the list.
-/

namespace Ats

open CallRun

variable {α : Type}

/-- A call on a vector, with what the allocator answers where it is asked. -/
inductive VecOp (α : Type) where
  | deinit
  | push (x : α) (mem : Memory α)
  | pop
  | insert (idx : Nat) (x : α) (mem : Memory α)
  | splice (start count : Nat)
  | swapsplice (start count : Nat)
  | swap (idx1 idx2 : Nat)
  | truncate (len : Nat)
  | clear
  | first
  | last
  | reserve (n : Nat) (mem : Memory α)
  | compact (mem : Memory α)
  | pusharr (arr : List α) (mem : Memory α)
  /-- the other vector holds `ys` -/
  | extend (ys : List α) (mem : Memory α)
  | extendSelf (mem : Memory α)
  | find (val : α)
  | remove (val : α)
  | reverse
  | foreach
  | foreachRev

/-- What a call is worth. -/
inductive VecResult (α : Type) where
  | done
  | code (err : Int)
  | element (x : α)
  | index (idx : Option Nat)
  | elements (xs : List α)
deriving DecidableEq, Repr

variable [DecidableEq α]

/-- One call on a vector. -/
def VecOp.exec (memsz : Nat) (v : Vec α) : VecOp α → Option (Vec α × VecResult α)
  | .deinit => some (vecDeinit v, .done)
  | .push x mem => (vecPush memsz v x mem).map fun r => (r.1, .code r.2)
  | .pop => (vecPop v).map fun r => (r.1, .element r.2)
  | .insert idx x mem => (vecInsert memsz v idx x mem).map fun r => (r.1, .code r.2)
  | .splice start count => (vecSplice v start count).map (·, .done)
  | .swapsplice start count => (vecSwapsplice v start count).map (·, .done)
  | .swap idx1 idx2 => (vecSwap v idx1 idx2).map (·, .done)
  | .truncate len => some (vecTruncate v len, .done)
  | .clear => some (vecClear v, .done)
  | .first => (vecFirst v).map (v, .element ·)
  | .last => (vecLast v).map (v, .element ·)
  | .reserve n mem => (vecReserve memsz v n mem).map fun r => (r.1, .code r.2)
  | .compact mem => (vecCompact memsz v mem).map fun r => (r.1, .code r.2)
  | .pusharr arr mem => (vecPusharr memsz v (fun _ i => arr[i]?) arr.length mem).map (·, .done)
  | .extend ys mem =>
      (vecExtend memsz v ⟨some ys, ys.length, ys.length⟩ mem).map (·, .done)
  | .extendSelf mem => (vecExtendSelf memsz v mem).map (·, .done)
  | .find val => (vecFind v val).map (v, .index ·)
  | .remove val => (vecRemove v val).map (·, .done)
  | .reverse => (vecReverse v).map (·, .done)
  | .foreach => (vecForeach v).map (v, .elements ·)
  | .foreachRev => (vecForeachRev v).map (v, .elements ·)

namespace VecOp

/-! ## The same call on a list -/

/-- What the allocator answers to the call. -/
def memory : VecOp α → Memory α
  | .push _ mem | .insert _ _ mem | .reserve _ mem | .compact mem | .pusharr _ mem
  | .extend _ mem | .extendSelf mem => mem
  | _ => none

/-- How many elements the call wants to have room for. -/
def need (xs : List α) : VecOp α → Nat
  | .push _ _ | .insert _ _ _ => xs.length + 1
  | .reserve n _ => n
  | .pusharr arr _ | .extend arr _ => xs.length + arr.length
  | .extendSelf _ => xs.length + xs.length
  | .compact _ => xs.length
  | _ => 0

/-- The capacity that the call asks the allocator for, if any. -/
def asks (s : List α × Nat) : VecOp α → Option Nat
  | .push _ _ | .insert _ _ _ => expandAsks s.1.length s.2
  | .reserve n _ => reserveAsks n s.2
  | .compact _ => if s.1 = [] then none else some s.1.length
  | .pusharr arr _ | .extend arr _ => reserveAsks (po2 (s.1.length + arr.length)) s.2
  | .extendSelf _ => reserveAsks (po2 (s.1.length + s.1.length)) s.2
  | _ => none

/-- The capacity after the call. -/
def capacity (s : List α × Nat) (op : VecOp α) : Nat :=
  match op with
  | .deinit => 0
  | .compact _ => s.1.length
  | _ => (op.asks s).getD s.2

/-- The call on a list, where its arguments are in range. -/
def served (xs : List α) : VecOp α → Option (List α × VecResult α)
  | .deinit => some ([], .done)
  | .push x _ => some (xs ++ [x], .code 0)
  | .pop => xs.getLast?.map (xs.dropLast, .element ·)
  | .insert idx x _ =>
      if idx ≤ xs.length then some (xs.take idx ++ x :: xs.drop idx, .code 0) else none
  | .splice start count =>
      if start + count ≤ xs.length then some (xs.take start ++ xs.drop (start + count), .done)
      else none
  | .swapsplice start count =>
      -- the elements that move are not themselves in the range
      if start + 2 * count ≤ xs.length ∨ start + count = xs.length then
        let stay := xs.length - count
        some (xs.take start
          ++ (xs.drop (max (start + count) stay) ++ (xs.take stay).drop (start + count)), .done)
      else none
  | .swap idx1 idx2 =>
      if idx1 = idx2 then some (xs, .done)
      else do
        let a ← xs[idx1]?
        let b ← xs[idx2]?
        some ((xs.set idx1 b).set idx2 a, .done)
  | .truncate len => some (xs.take len, .done)
  | .clear => some ([], .done)
  | .first => xs.head?.map (xs, .element ·)
  | .last => xs.getLast?.map (xs, .element ·)
  | .reserve _ _ | .compact _ => some (xs, .code 0)
  | .pusharr arr _ | .extend arr _ => some (xs ++ arr, .done)
  | .extendSelf _ => some (xs ++ xs, .done)
  | .find val => some (xs, .index (xs.idxOf? val))
  | .remove val => some (xs.erase val, .done)
  | .reverse => some (xs.reverse, .done)
  | .foreach => some (xs, .elements xs)
  | .foreachRev => some (xs, .elements xs.reverse)

/-- What the call returns that memory is refused to. `vec_push` has no other
answer than 0, and `vec_insert` does not come back to a list. -/
def refusal : VecOp α → Option (VecResult α)
  | .push _ _ => some (.code 0)
  | .reserve _ _ | .compact _ => some (.code (-1))
  | .pusharr _ _ | .extend _ _ | .extendSelf _ => some .done
  | _ => none

/-- Memory is asked for, and refused. -/
def Refused (s : List α × Nat) (op : VecOp α) : Prop := (op.asks s).isSome ∧ op.memory.isNone

instance (s : List α × Nat) (op : VecOp α) : Decidable (op.Refused s) :=
  inferInstanceAs (Decidable (_ ∧ _))

/-- The call on a list and a capacity, with room for `B` elements at most. -/
def onList (B : Nat) (s : List α × Nat) (op : VecOp α) :
    Option ((List α × Nat) × VecResult α) :=
  if op.need s.1 ≤ B then
    if op.Refused s then op.refusal.map (s, ·)
    else (op.served s.1).map fun r => ((r.1, op.capacity s), r.2)
  else none

end VecOp

/-! ## One call -/

namespace VecOp

variable {memsz B : Nat} {v v' : Vec α} {xs ys : List α} {op : VecOp α} {r : VecResult α}

/-- **A call that gets its memory** is the call on the list. -/
theorem exec_served (hf : Fits memsz B) (h : VecHolds v xs) (hneed : op.need xs ≤ B)
    (hmem : (op.asks (xs, v.capacity)).isSome → op.memory.isSome)
    (hcall : op.served xs = some (ys, r)) :
    ∃ v', op.exec memsz v = some (v', r) ∧ VecHolds v' ys
      ∧ v'.capacity = op.capacity (xs, v.capacity) := by
  cases op with
  | deinit =>
      cases hcall
      exact ⟨vecInit, rfl, vecInit_holds, rfl⟩
  | push x mem =>
      cases hcall
      obtain ⟨v₁, hexpand, h₁, hroom, hc₁⟩ := vecExpand_served hf h hneed hmem
      obtain ⟨v', hpush, hv', hc⟩ := vecPush_expanded hexpand h₁ hroom x
      exact ⟨v', congrArg (Option.map _) hpush, hv', hc.trans hc₁⟩
  | pop =>
      obtain ⟨x, hx, hcall⟩ := Option.map_eq_some_iff.mp hcall
      cases hcall
      obtain ⟨zs, rfl⟩ := List.getLast?_eq_some_iff.mp hx
      obtain ⟨v', hpop, hv', hc⟩ := vecPop_holds h
      rw [List.dropLast_concat]
      exact ⟨v', by rw [exec, hpop]; rfl, hv', hc⟩
  | insert idx x mem =>
      obtain ⟨hidx, hcall⟩ := Option.ite_none_right_eq_some.mp hcall
      cases hcall
      obtain ⟨v₁, hexpand, h₁, hroom, hc₁⟩ := vecExpand_served hf h hneed hmem
      obtain ⟨v', hinsert, hv', hc⟩ := vecInsert_expanded hexpand h₁ hroom hidx x
      exact ⟨v', congrArg (Option.map _) hinsert, hv', hc.trans hc₁⟩
  | splice start count =>
      obtain ⟨hin, hcall⟩ := Option.ite_none_right_eq_some.mp hcall
      cases hcall
      obtain ⟨v', hsplice, hv', hc⟩ := vecSplice_holds h hin
      exact ⟨v', by rw [exec, hsplice]; rfl, hv', hc⟩
  | swapsplice start count =>
      obtain ⟨hin, hcall⟩ := Option.ite_none_right_eq_some.mp hcall
      cases hcall
      obtain ⟨v', hsplice, hv', hc⟩ := vecSwapsplice_apart h hin
      exact ⟨v', by rw [exec, hsplice]; rfl, hv', hc⟩
  | swap idx1 idx2 =>
      rw [served] at hcall
      split at hcall
      case isTrue heq =>
          cases hcall
          exact ⟨v, by rw [exec, vecSwap, if_pos heq]; rfl, h, rfl⟩
      case isFalse hne =>
          obtain ⟨a, ha, hcall⟩ := Option.bind_eq_some_iff.mp hcall
          obtain ⟨b, hb, hcall⟩ := Option.bind_eq_some_iff.mp hcall
          cases hcall
          obtain ⟨v', hswap, hv', hc⟩ := vecSwap_holds h hne ha hb
          exact ⟨v', by rw [exec, hswap]; rfl, hv', hc⟩
  | truncate len =>
      cases hcall
      refine ⟨vecTruncate v len, rfl, h.of_prefix rfl rfl ?_ (List.take_prefix len xs), rfl⟩
      rw [vecTruncate, List.length_take, h.length]
      show (if len < xs.length then len else xs.length) = _
      split <;> omega
  | clear =>
      cases hcall
      exact ⟨vecClear v, rfl, h.of_prefix rfl rfl rfl (List.nil_prefix), rfl⟩
  | first =>
      obtain ⟨x, hx, hcall⟩ := Option.map_eq_some_iff.mp hcall
      cases hcall
      obtain ⟨zs, rfl⟩ := List.head?_eq_some_iff.mp hx
      refine ⟨v, ?_, h, rfl⟩
      rw [exec, vecFirst, h.read (Nat.zero_lt_succ _)]
      rfl
  | last =>
      obtain ⟨x, hx, hcall⟩ := Option.map_eq_some_iff.mp hcall
      cases hcall
      obtain ⟨zs, rfl⟩ := List.getLast?_eq_some_iff.mp hx
      have hlen : v.length = zs.length + 1 := by rw [h.length, List.length_append]; rfl
      refine ⟨v, ?_, h, rfl⟩
      rw [exec, vecLast, if_neg (by omega), hlen, Nat.add_sub_cancel,
        h.read (by rw [List.length_append]; exact Nat.lt_succ_self _), List.getElem?_concat_length]
      rfl
  | reserve n mem =>
      cases hcall
      obtain ⟨v', hreserve, hv', -, hc⟩ := vecReserve_served hf h (n := n)
        (Nat.le_trans hneed (Nat.le_mul_of_pos_left B (by decide))) hmem
      exact ⟨v', congrArg (Option.map _) hreserve, hv', hc⟩
  | compact mem =>
      cases hcall
      obtain ⟨v', hcompact, hv', hc⟩ := vecCompact_served h
        (hf.mul_lt (Nat.le_trans hneed (Nat.le_mul_of_pos_left B (by decide))))
        (fun hne => hmem (by rw [asks, if_neg hne]; rfl))
      exact ⟨v', congrArg (Option.map _) hcompact, hv', hc⟩
  | pusharr arr mem =>
      cases hcall
      obtain ⟨v', hpush, hv', hc⟩ := vecPusharr_served hf h
        (show xs.length + arr.length ≤ B from hneed) (fun _ _ _ _ => rfl) hmem
      exact ⟨v', congrArg (Option.map _) hpush, hv', hc⟩
  | extend ys mem =>
      cases hcall
      obtain ⟨v', hextend, hv', hc⟩ := vecPusharr_served hf h
        (show xs.length + ys.length ≤ B from hneed) (fun _ _ _ _ => rfl) hmem
      exact ⟨v', congrArg (Option.map _) hextend, hv', hc⟩
  | extendSelf mem =>
      cases hcall
      obtain ⟨v', hextend, hv', hc⟩ := vecExtendSelf_served hf h hneed hmem
      exact ⟨v', congrArg (Option.map _) hextend, hv', hc⟩
  | find val =>
      cases hcall
      exact ⟨v, by rw [exec, vecFind_eq h]; rfl, h, rfl⟩
  | remove val =>
      cases hcall
      obtain ⟨v', hremove, hv', hc⟩ := vecRemove_holds h val
      exact ⟨v', by rw [exec, hremove]; rfl, hv', hc⟩
  | reverse =>
      cases hcall
      obtain ⟨v', hreverse, hv', hc⟩ := vecReverse_holds h
      exact ⟨v', by rw [exec, hreverse]; rfl, hv', hc⟩
  | foreach =>
      cases hcall
      exact ⟨v, by rw [exec, vecForeach_eq h]; rfl, h, rfl⟩
  | foreachRev =>
      cases hcall
      exact ⟨v, by rw [exec, vecForeachRev_eq h]; rfl, h, rfl⟩

/-- **A call that is refused memory** leaves the vector as it is. -/
theorem exec_refused (hf : Fits memsz B) (h : VecHolds v xs) (hneed : op.need xs ≤ B)
    (hrefused : op.Refused (xs, v.capacity)) (hcall : op.refusal = some r) :
    op.exec memsz v = some (v, r) := by
  obtain ⟨hask, hmem⟩ := hrefused
  have hmem : op.memory = none := Option.isNone_iff_eq_none.mp hmem
  cases op with
  | push x mem =>
      obtain rfl : mem = none := hmem
      cases hcall
      rw [exec, vecPush, vecExpand_refused hf h hneed hask]
      rfl
  | reserve n mem =>
      obtain rfl : mem = none := hmem
      cases hcall
      rw [exec, vecReserve_refused hf (n := n)
        (Nat.le_trans hneed (Nat.le_mul_of_pos_left B (by decide))) hask]
      rfl
  | compact mem =>
      obtain rfl : mem = none := hmem
      cases hcall
      have hne : xs ≠ [] := by
        rintro rfl
        cases hask
      have hlen : v.length ≠ 0 := by
        rw [h.length]
        exact Nat.ne_of_gt (List.length_pos_of_ne_nil hne)
      rw [exec, vecCompact, if_neg hlen, h.length, vecRealloc_refused (n := xs.length)
        (hf.mul_lt (Nat.le_trans hneed (Nat.le_mul_of_pos_left B (by decide))))]
      rfl
  | pusharr arr mem =>
      obtain rfl : mem = none := hmem
      cases hcall
      rw [exec, vecPusharr_refused hf h hneed hask]
      rfl
  | extend ys mem =>
      obtain rfl : mem = none := hmem
      cases hcall
      rw [exec, vecExtend, vecPusharr_refused hf h hneed hask]
      rfl
  | extendSelf mem =>
      obtain rfl : mem = none := hmem
      cases hcall
      rw [exec, vecExtendSelf, h.length, vecPusharr_refused hf h hneed hask]
      rfl
  | _ => cases hcall

end VecOp

/-! ## Runs -/

section Runs

variable {memsz B : Nat}

/-- The vector holds the list, with that capacity. -/
def VecShows (v : Vec α) (s : List α × Nat) : Prop := VecHolds v s.1 ∧ v.capacity = s.2

/-- **Each call on a vector** is the call on its list. -/
theorem VecShows.exec (hf : Fits memsz B) {v : Vec α} {s s' : List α × Nat} (h : VecShows v s)
    {op : VecOp α} {r : VecResult α} (hcall : op.onList B s = some (s', r)) :
    ∃ v', op.exec memsz v = some (v', r) ∧ VecShows v' s' := by
  obtain ⟨xs, cap⟩ := s
  obtain ⟨h, rfl⟩ : VecHolds v xs ∧ v.capacity = cap := h
  obtain ⟨hneed, hcall⟩ := Option.ite_none_right_eq_some.mp hcall
  split at hcall
  case isTrue hrefused =>
      obtain ⟨r', hr, hcall⟩ := Option.map_eq_some_iff.mp hcall
      cases hcall
      exact ⟨v, VecOp.exec_refused hf h hneed hrefused hr, h, rfl⟩
  case isFalse hserved =>
      obtain ⟨⟨ys, r'⟩, hr, hcall⟩ := Option.map_eq_some_iff.mp hcall
      cases hcall
      have hmem : (op.asks (xs, v.capacity)).isSome → op.memory.isSome := by
        intro hask
        by_contra hnone
        exact hserved ⟨hask, by simpa using hnone⟩
      obtain ⟨v', hexec, hv', hcap⟩ := VecOp.exec_served hf h hneed hmem hr
      exact ⟨v', hexec, hv', hcap⟩

theorem VecShows.calls (hf : Fits memsz B) (ops : List (VecOp α)) {v : Vec α}
    {s s' : List α × Nat} {rs : List (VecResult α)} (h : VecShows v s)
    (hlist : calls (VecOp.onList B) s ops = some (s', rs)) :
    ∃ v', calls (VecOp.exec memsz) v ops = some (v', rs) ∧ VecShows v' s' :=
  calls_simulated (fun _ _ _ _ _ h hcall => h.exec hf hcall) ops h hlist

/-- **A vector is a list**, whatever the allocator answers: every sequence of
calls on a new vector that goes through on the list, without a refused
`vec_insert`, goes through on the vector, returns the same, and leaves the
same elements. -/
theorem vecCalls_list (hf : Fits memsz B) (ops : List (VecOp α)) {xs : List α} {cap : Nat}
    {rs : List (VecResult α)} (hlist : calls (VecOp.onList B) ([], 0) ops = some ((xs, cap), rs)) :
    ∃ v, calls (VecOp.exec memsz) vecInit ops = some (v, rs) ∧ VecHolds v xs
      ∧ v.capacity = cap :=
  VecShows.calls hf ops ⟨vecInit_holds, rfl⟩ hlist

/-- A vector that is refused memory once, and then gets it. -/
theorem vecCalls_list_four :
    ∃ v, calls (VecOp.exec 8) vecInit [.push 3 (some fun _ => 0), .push 5 none,
        .insert 0 7 (some fun _ => 0), .extendSelf (some fun _ => 0), .reverse]
        = some (v, [.code 0, .code 0, .code 0, .done, .done])
      ∧ VecHolds v [3, 7, 3, 7] ∧ v.capacity = 4 :=
  vecCalls_list (B := 4) ⟨by decide, by decide⟩ _ (by decide +kernel)

/-- **`vec_insert` counts its element** and returns 0 in any case; it has put
it there exactly where it did not need memory, or got it. Otherwise the length
is that of no list in the block. -/
theorem vecInsert_counted_iff (hf : Fits memsz B) (ops : List (VecOp α)) {xs : List α} {cap : Nat}
    {rs : List (VecResult α)} (hlist : calls (VecOp.onList B) ([], 0) ops = some ((xs, cap), rs))
    {idx : Nat} (hidx : idx ≤ xs.length) (hB : xs.length + 1 ≤ B) (x : α) (mem : Memory α) :
    ∃ v v', calls (VecOp.exec memsz) vecInit ops = some (v, rs)
      ∧ vecInsert memsz v idx x mem = some (v', 0) ∧ v'.length = xs.length + 1
      ∧ (VecHolds v' (xs.take idx ++ x :: xs.drop idx) ↔ xs.length < cap ∨ mem.isSome)
      ∧ ((∃ ys, VecHolds v' ys) ↔ xs.length < cap ∨ mem.isSome) := by
  obtain ⟨v, hcalls, h, rfl⟩ : ∃ v, calls (VecOp.exec memsz) vecInit ops = some (v, rs)
      ∧ VecHolds v xs ∧ v.capacity = cap :=
    VecShows.calls hf ops ⟨vecInit_holds, rfl⟩ hlist
  have hasks : (expandAsks xs.length v.capacity).isSome ↔ ¬ xs.length < v.capacity := by
    rw [expandAsks]
    split <;> simp <;> omega
  by_cases hserved : xs.length < v.capacity ∨ mem.isSome
  · obtain ⟨v₁, hexpand, h₁, hroom, -⟩ := vecExpand_served hf h hB
      fun hask => hserved.resolve_left (hasks.mp hask)
    obtain ⟨v', hinsert, hv', -⟩ := vecInsert_expanded hexpand h₁ hroom hidx x
    refine ⟨v, v', hcalls, hinsert, ?_, iff_of_true hv' hserved, iff_of_true ⟨_, hv'⟩ hserved⟩
    rw [hv'.length, List.length_append, List.length_cons, List.length_take, List.length_drop]
    omega
  · obtain ⟨hfull, hmem⟩ := not_or.mp hserved
    obtain rfl : mem = none := by simpa using hmem
    have hexpand := vecExpand_refused hf h hB (hasks.mpr hfull)
    have hnot : ∀ ys, ¬ VecHolds { v with length := v.length + 1 } ys := by
      intro ys hys
      have hle := hys.le_capacity
      have hlen : v.length + 1 = ys.length := hys.length
      have hv := h.length
      have hcap : ys.length ≤ v.capacity := hle
      omega
    refine ⟨v, { v with length := v.length + 1 }, hcalls, ?_, congrArg (· + 1) h.length,
      iff_of_false (hnot _) hserved, iff_of_false (not_exists.mpr hnot) hserved⟩
    rw [vecInsert, vecInsertGap, hexpand]
    rfl

theorem vecInsert_counted_iff_refused :
    ∃ v v', calls (VecOp.exec 8) vecInit [.push 3 (some fun _ => 0)] = some (v, [.code 0])
      ∧ vecInsert 8 v 0 5 none = some (v', 0) ∧ v'.length = 2
      ∧ (VecHolds v' [5, 3] ↔ 1 < 1 ∨ (none : Memory Nat).isSome)
      ∧ ((∃ ys, VecHolds v' ys) ↔ 1 < 1 ∨ (none : Memory Nat).isSome) :=
  vecInsert_counted_iff (B := 4) ⟨by decide, by decide⟩ _
    (by decide +kernel : calls (VecOp.onList 4) ([], 0) _ = some (([3], 1), [.code 0]))
    (by decide) (by decide) 5 none

/-- **`vec_swapsplice` takes out its range**, in whatever order, exactly where
the elements that move are not in the range themselves. -/
theorem vecSwapsplice_survivors_iff (hf : Fits memsz B) (ops : List (VecOp α)) {xs : List α}
    {cap : Nat} {rs : List (VecResult α)}
    (hlist : calls (VecOp.onList B) ([], 0) ops = some ((xs, cap), rs)) (hnodup : xs.Nodup)
    {start count : Nat} (hin : start + count ≤ xs.length) :
    ∃ v v' ys, calls (VecOp.exec memsz) vecInit ops = some (v, rs)
      ∧ vecSwapsplice v start count = some v' ∧ VecHolds v' ys
      ∧ (ys.Perm (xs.take start ++ xs.drop (start + count))
        ↔ start + 2 * count ≤ xs.length ∨ start + count = xs.length) := by
  obtain ⟨v, hcalls, h, rfl⟩ : ∃ v, calls (VecOp.exec memsz) vecInit ops = some (v, rs)
      ∧ VecHolds v xs ∧ v.capacity = cap :=
    VecShows.calls hf ops ⟨vecInit_holds, rfl⟩ hlist
  by_cases hapart : start + 2 * count ≤ xs.length ∨ start + count = xs.length
  · obtain ⟨v', hcall, hv', -⟩ := vecSwapsplice_apart h hapart
    refine ⟨v, v', _, hcalls, hcall, hv', iff_of_true (List.Perm.append_left _ ?_) hapart⟩
    rcases hapart with hle | heq
    · have hkeep : xs.drop (start + count)
          = (xs.take (xs.length - count)).drop (start + count) ++ xs.drop (xs.length - count) := by
        conv_lhs => rw [← List.take_append_drop (xs.length - count) xs]
        exact List.drop_append_of_le_length (by rw [List.length_take]; omega)
      rw [Nat.max_eq_right (by omega), hkeep]
      exact List.perm_append_comm
    · have hnil : (xs.take (xs.length - count)).drop (start + count) = [] :=
        List.drop_eq_nil_of_le (by rw [List.length_take]; omega)
      rw [Nat.max_eq_left (by omega), hnil, List.append_nil]
  · obtain ⟨v', hcall, hv', -⟩ := vecSwapsplice_holds h hin
    refine ⟨v, v', _, hcalls, hcall, hv', iff_of_false (fun hperm => ?_) hapart⟩
    -- the first element that moves is in the range
    have hlt : xs.length - count < xs.length := by omega
    have hmoved : xs[xs.length - count] ∈ xs.take start ++ xs.drop (start + count) := by
      refine hperm.subset (List.mem_append_right _ ?_)
      rw [List.drop_eq_getElem_cons hlt,
        show xs.length - count - start = (xs.length - count - start - 1) + 1 by omega]
      exact List.mem_cons_self
    rcases List.mem_append.mp hmoved with hfront | hback
    · obtain ⟨i, hi, heq⟩ := List.mem_take_iff_getElem.mp hfront
      have hsame := (hnodup.getElem_inj_iff).mp heq
      omega
    · obtain ⟨i, hi, heq⟩ := List.mem_drop_iff_getElem.mp hback
      have hsame := (hnodup.getElem_inj_iff).mp heq
      omega

/-- Of `[3, 5, 7, 9]`, `vec_swapsplice` at 1 for 2 elements leaves 3 and 7. -/
theorem vecSwapsplice_survivors_iff_four :
    ∃ v v' ys, calls (VecOp.exec 8) vecInit [.pusharr [3, 5, 7, 9] (some fun _ => 0)]
        = some (v, [.done])
      ∧ vecSwapsplice v 1 2 = some v' ∧ VecHolds v' ys
      ∧ (ys.Perm [3, 9] ↔ 1 + 2 * 2 ≤ 4 ∨ 1 + 2 = 4) :=
  vecSwapsplice_survivors_iff (B := 4) ⟨by decide, by decide⟩ _
    (by decide +kernel : calls (VecOp.onList 4) ([], 0) _ = some (([3, 5, 7, 9], 4), [.done]))
    (by decide) (by decide)

end Runs

/-! ## The assertions of the allocator -/

namespace VecOp

variable (memsz : Nat) (v : Vec α)

/-- What a call asks of the allocator. -/
def requests : VecOp α → List MemCall
  | .push _ _ | .insert _ _ _ => growth (expandAsks v.length v.capacity)
  | .reserve n _ => growth (reserveAsks n v.capacity)
  | .compact _ => if v.length = 0 then [.free v.data.isNone] else growth (some v.length)
  | .pusharr arr _ | .extend arr _ =>
      growth (reserveAsks (po2 (v.length + arr.length)) v.capacity)
  | .extendSelf _ => growth (reserveAsks (po2 (v.length + v.length)) v.capacity)
  | _ => []
where
  growth (n : Option Nat) : List MemCall := n.toList.map fun n => .realloc v.data.isNone (n * memsz)

/-- The call stores nothing and asks for no room. -/
def Idle : VecOp α → Prop
  | .push _ _ | .insert _ _ _ | .compact _ => False
  | .reserve n _ => n = 0
  | .pusharr arr _ | .extend arr _ => arr = []
  | _ => True

/-- One call, with what it asks of the allocator. -/
def memStep (op : VecOp α) : Option (Vec α × List MemCall) :=
  (op.exec memsz v).map fun r => (r.1, op.requests memsz v)

variable {memsz} {v' : Vec α} {op : VecOp α} {asked : List MemCall}

theorem idle_memStep (hop : op.Idle) (hstep : op.memStep memsz vecInit = some (v', asked)) :
    v' = vecInit ∧ asked = [] := by
  obtain ⟨⟨v₁, r⟩, hexec, hout⟩ := Option.map_eq_some_iff.mp hstep
  cases hout
  cases op with
  | push x mem => exact hop.elim
  | insert idx x mem => exact hop.elim
  | compact mem => exact hop.elim
  | pop => cases hexec
  | first => cases hexec
  | last => cases hexec
  | splice start count =>
      obtain ⟨v₂, hsplice, hout⟩ := Option.map_eq_some_iff.mp hexec
      obtain ⟨hin, hsplice⟩ := Option.ite_none_right_eq_some.mp hsplice
      obtain ⟨rfl, rfl⟩ := Nat.add_eq_zero_iff.mp (Nat.le_zero.mp hin)
      cases hsplice
      cases hout
      exact ⟨rfl, rfl⟩
  | swapsplice start count =>
      obtain ⟨v₂, hsplice, hout⟩ := Option.map_eq_some_iff.mp hexec
      obtain ⟨hin, hsplice⟩ := Option.ite_none_right_eq_some.mp hsplice
      obtain rfl := Nat.le_zero.mp hin
      obtain ⟨v₃, hmoved, hsplice⟩ := Option.bind_eq_some_iff.mp hsplice
      obtain ⟨b, hmove, hmoved⟩ := Option.map_eq_some_iff.mp hmoved
      cases hmoved
      cases hsplice
      cases hout
      exact ⟨rfl, rfl⟩
  | swap idx1 idx2 =>
      obtain ⟨v₂, hswap, hout⟩ := Option.map_eq_some_iff.mp hexec
      cases hout
      rw [vecSwap] at hswap
      split at hswap
      case isTrue =>
          cases hswap
          exact ⟨rfl, rfl⟩
      case isFalse => cases hswap
  | reserve n mem =>
      obtain rfl : n = 0 := hop
      cases hexec
      exact ⟨rfl, rfl⟩
  | pusharr arr mem =>
      obtain rfl : arr = [] := hop
      cases hexec
      exact ⟨rfl, rfl⟩
  | extend ys mem =>
      obtain rfl : ys = [] := hop
      cases hexec
      exact ⟨rfl, rfl⟩
  | truncate len =>
      cases hexec
      exact ⟨congrArg (fun n => (⟨none, n, 0⟩ : Vec α)) (if_neg (Nat.not_lt_zero len)), rfl⟩
  | reverse =>
      have hreverse : vecReverse (vecInit : Vec α) = some vecInit := by
        simp [vecReverse, vecInit, reverseLoop]
      rw [exec, hreverse] at hexec
      cases hexec
      exact ⟨rfl, rfl⟩
  | _ =>
      cases hexec
      exact ⟨rfl, rfl⟩

/-- Whatever else is done to a new vector passes `NULL`. -/
theorem memStep_of_not_idle (hop : ¬ op.Idle)
    (hstep : op.memStep memsz vecInit = some (v', asked)) : ∃ call ∈ asked, ¬ call.Meets := by
  obtain ⟨⟨v₁, r⟩, hexec, hout⟩ := Option.map_eq_some_iff.mp hstep
  cases hout
  have hnull : ∀ n, ∃ call ∈ requests.growth memsz (vecInit : Vec α) (some n), ¬ call.Meets :=
    fun n => ⟨.realloc true (n * memsz), List.mem_singleton.mpr rfl,
      fun h => absurd h.1 (by decide)⟩
  have hasks : ∀ arr : List α, arr ≠ [] → ∃ call ∈ requests.growth memsz (vecInit : Vec α)
      (reserveAsks (po2 (0 + arr.length)) 0), ¬ call.Meets := by
    intro arr harr
    have hn : po2 (0 + arr.length) > 0 :=
      Nat.lt_of_lt_of_le (by rw [Nat.zero_add]; exact List.length_pos_of_ne_nil harr) (le_po2 _)
    rw [reserveAsks, if_pos hn]
    exact hnull _
  cases op with
  | push x mem => exact hnull 1
  | insert idx x mem => exact hnull 1
  | compact mem => exact ⟨.free true, List.mem_singleton.mpr rfl, by decide⟩
  | reserve n mem =>
      have hn : n > 0 := Nat.pos_of_ne_zero hop
      show ∃ call ∈ requests.growth memsz vecInit (reserveAsks n 0), _
      rw [reserveAsks, if_pos hn]
      exact hnull n
  | pusharr arr mem => exact hasks arr hop
  | extend ys mem => exact hasks ys hop
  | _ => exact absurd trivial hop

end VecOp

/-- **A vector meets the assertions of the allocator** exactly while nothing is
stored in it, no room is reserved, and it is not compacted: the first call that
does passes `NULL`. -/
theorem vecCalls_meet_iff (memsz : Nat) (ops : List (VecOp α)) {v : Vec α}
    {asked : List MemCall}
    (hrun : memCalls (VecOp.memStep memsz) vecInit ops = some (v, asked)) :
    (∀ call ∈ asked, call.Meets) ↔ ∀ op ∈ ops, op.Idle :=
  memCalls_meet_iff (· = vecInit) VecOp.Idle
    (fun _ _ _ _ hv hop hstep => by subst hv; exact VecOp.idle_memStep hop hstep)
    (fun _ _ _ _ hv hop hstep => by subst hv; exact VecOp.memStep_of_not_idle hop hstep)
    ops rfl hrun

/-- The first `vec_push` passes `NULL` to `ats_realloc`. -/
theorem vecCalls_meet_iff_first :
    (∀ call ∈ [MemCall.realloc true 8], call.Meets)
      ↔ ∀ op ∈ [VecOp.reserve 0 none, .push 3 (some fun _ => 0)], op.Idle :=
  vecCalls_meet_iff (α := Nat) 8 _
    (by decide +kernel : memCalls (VecOp.memStep 8) vecInit _
      = some (⟨some [3], 1, 1⟩, [.realloc true 8]))

end Ats
