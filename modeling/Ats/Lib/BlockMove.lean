import Mathlib.Data.List.Basic

/-!
# BlockMove: moving elements within a block of memory

A block is the list of what its slots hold. `move` is a copy between ranges of
one block that may overlap; `grow` takes the block to another size, with new
slots that hold anything.
-/

namespace BlockMove

variable {α : Type} {xs ys zs rest : List α}

/-- A copy of `n` slots from `src` to `dst`, where both ranges are inside. -/
def move (block : List α) (dst src n : Nat) : Option (List α) :=
  if dst + n ≤ block.length ∧ src + n ≤ block.length then
    some (block.take dst ++ ((block.drop src).take n ++ block.drop (dst + n)))
  else none

/-- The block with `n` slots; `junk` is what new slots hold. -/
def grow (block : List α) (n : Nat) (junk : Nat → α) : List α :=
  (List.range n).map fun k => block[k]?.getD (junk k)

theorem move_length {block block' : List α} {dst src n : Nat}
    (h : move block dst src n = some block') : block'.length = block.length := by
  unfold move at h
  split at h
  case isTrue hin =>
      cases h
      simp only [List.length_append, List.length_take, List.length_drop]
      omega
  case isFalse => cases h

/-- **Closing a gap**: the slots behind `ys` move onto it. -/
theorem move_close (xs ys zs rest : List α) :
    move (xs ++ (ys ++ (zs ++ rest))) xs.length (xs.length + ys.length) zs.length
      = some (xs ++ (zs ++ (ys ++ (zs ++ rest)).drop zs.length)) := by
  have hsrc : (xs ++ (ys ++ (zs ++ rest))).drop (xs.length + ys.length) = zs ++ rest := by
    rw [← List.append_assoc, ← List.length_append, List.drop_left]
  have hdst : (xs ++ (ys ++ (zs ++ rest))).drop (xs.length + zs.length)
      = (ys ++ (zs ++ rest)).drop zs.length := by
    rw [← List.drop_drop, List.drop_left]
  rw [move, if_pos (by simp only [List.length_append]; omega), List.take_left, hsrc, hdst,
    List.take_left]

/-- **Opening a gap**: the slots from `xs` on move up by one. -/
theorem move_open (xs ys : List α) (y : α) (rest : List α) :
    ∃ z, move (xs ++ (ys ++ y :: rest)) (xs.length + 1) xs.length ys.length
      = some (xs ++ z :: (ys ++ rest)) := by
  obtain ⟨z, zs, hz⟩ : ∃ z zs, ys ++ y :: rest = z :: zs :=
    List.exists_cons_of_ne_nil (by simp)
  have htake : (xs ++ (ys ++ y :: rest)).take (xs.length + 1) = xs ++ [z] := by
    rw [List.take_length_add_append, hz]
    rfl
  have hdst : (xs ++ (ys ++ y :: rest)).drop (xs.length + 1 + ys.length) = rest := by
    rw [Nat.add_right_comm, Nat.add_assoc, ← List.drop_drop, List.drop_left, ← List.drop_drop,
      List.drop_left]
    rfl
  refine ⟨z, ?_⟩
  rw [move, if_pos (by simp only [List.length_append, List.length_cons]; omega), htake,
    List.drop_left, List.take_left, hdst]
  simp

/-- A block grows behind what it holds. -/
theorem grow_append (xs rest : List α) (junk : Nat → α) {n : Nat} (hn : xs.length ≤ n) :
    ∃ new, grow (xs ++ rest) n junk = xs ++ new ∧ new.length = n - xs.length := by
  refine ⟨(grow (xs ++ rest) n junk).drop xs.length, ?_, by simp [grow]⟩
  have htake : (grow (xs ++ rest) n junk).take xs.length = xs := by
    apply List.ext_getElem
    · rw [List.length_take, grow, List.length_map, List.length_range, Nat.min_eq_left hn]
    · intro i hi hi'
      simp [grow, List.getElem?_append_left hi', List.getElem?_eq_getElem hi']
  conv_lhs => rw [← List.take_append_drop xs.length (grow (xs ++ rest) n junk), htake]

end BlockMove
