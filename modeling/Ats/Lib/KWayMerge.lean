import Mathlib.Algebra.GroupWithZero.Nat
import Mathlib.Order.Basic
import Mathlib.Data.List.Basic
import Mathlib.Data.List.Sort

/-!
# KWayMerge: merging many sources, least recently served first

The sources wait in the order they were last served. A step takes the head
of the first source whose head has the smallest key, and that source goes
to the end of the line with its tail. The output is a permutation of all
elements that keeps each source's order, and sorted if the sources are.
-/

namespace Ats.KWayMerge

variable {ι α κ : Type} [LinearOrder κ]

/-- The first source whose head is smallest: the source, its head and its
tail. -/
def firstLeast (key : α → κ) : List (ι × List α) → Option (ι × α × List α)
  | [] => none
  | (_, []) :: s => firstLeast key s
  | (i, x :: xs) :: s =>
      match firstLeast key s with
      | none => some (i, x, xs)
      | some (j, y, ys) => if key y < key x then some (j, y, ys) else some (i, x, xs)

/-- One step: what is taken, and from where, and who waits then. -/
def mergeStep [DecidableEq ι] (key : α → κ) (s : List (ι × List α)) :
    Option ((ι × α) × List (ι × List α)) :=
  (firstLeast key s).map fun (i, x, xs) =>
    ((i, x), s.filter (fun p => p.1 ≠ i) ++ [(i, xs)])

/-- The merge of `n` steps, or of all there are. -/
def merge [DecidableEq ι] (key : α → κ) : Nat → List (ι × List α) → List (ι × α)
  | 0, _ => []
  | n + 1, s =>
      match mergeStep key s with
      | none => []
      | some (o, s') => o :: merge key n s'

/-- The number of elements that wait. -/
def size (s : List (ι × List α)) : Nat := (s.map fun p => p.2.length).sum

/-! ## The choice -/

/-- `i` is the first source with a smallest head `x`. -/
structure IsFirstLeast (key : α → κ) (s : List (ι × List α)) (i : ι) (x : α)
    (xs : List α) : Prop where
  split : ∃ pre post, s = pre ++ (i, x :: xs) :: post
    ∧ (∀ p ∈ pre, ∀ y ∈ p.2.head?, key x < key y)
    ∧ ∀ p ∈ post, ∀ y ∈ p.2.head?, key x ≤ key y

theorem firstLeast_none {key : α → κ} {s : List (ι × List α)} :
    firstLeast key s = none ↔ ∀ p ∈ s, p.2 = [] := by
  induction s with
  | nil => simp [firstLeast]
  | cons p s ih =>
      obtain ⟨i, xs⟩ := p
      cases xs with
      | nil => simpa [firstLeast] using ih
      | cons x xs =>
          rw [firstLeast]
          constructor
          · intro h
            split at h
            · cases h
            · split at h <;> cases h
          · intro h
            have := h (i, x :: xs) List.mem_cons_self
            cases this

theorem firstLeast_isFirstLeast {key : α → κ} {s : List (ι × List α)} {i : ι} {x : α}
    {xs : List α} (h : firstLeast key s = some (i, x, xs)) :
    IsFirstLeast key s i x xs := by
  induction s generalizing i x xs with
  | nil => cases h
  | cons p s ih =>
      obtain ⟨j, ys⟩ := p
      cases ys with
      | nil =>
          rw [firstLeast] at h
          obtain ⟨pre, post, rfl, hpre, hpost⟩ := (ih h).split
          refine ⟨(j, []) :: pre, post, rfl, ?_, hpost⟩
          intro p hp y hy
          rcases List.mem_cons.mp hp with rfl | hp
          · cases hy
          · exact hpre p hp y hy
      | cons y ys =>
          rw [firstLeast] at h
          cases hs : firstLeast key s with
          | none =>
              rw [hs] at h
              cases h
              refine ⟨[], s, rfl, by simp, fun p hp z hz => ?_⟩
              rw [firstLeast_none.mp hs p hp] at hz
              cases hz
          | some r =>
              obtain ⟨k, z, zs⟩ := r
              rw [hs] at h
              obtain ⟨pre, post, rfl, hpre, hpost⟩ := (ih hs).split
              dsimp only at h
              split at h
              case isTrue hlt =>
                cases h
                refine ⟨(j, y :: ys) :: pre, post, rfl, ?_, hpost⟩
                intro p hp v hv
                rcases List.mem_cons.mp hp with rfl | hp
                · cases hv
                  exact hlt
                · exact hpre p hp v hv
              case isFalse hge =>
                cases h
                have hle := le_of_not_gt hge
                refine ⟨[], _, rfl, by simp, fun p hp v hv => ?_⟩
                rcases List.mem_append.mp hp with hp | hp
                · exact le_trans hle (le_of_lt (hpre p hp v hv))
                · rcases List.mem_cons.mp hp with rfl | hp
                  · cases hv
                    exact hle
                  · exact le_trans hle (hpost p hp v hv)

/-- The choice is the only one there is. -/
theorem IsFirstLeast.firstLeast_eq {key : α → κ} {s : List (ι × List α)} {i : ι} {x : α}
    {xs : List α} (h : IsFirstLeast key s i x xs) :
    firstLeast key s = some (i, x, xs) := by
  obtain ⟨pre, post, rfl, hpre, hpost⟩ := h.split
  induction pre with
  | nil =>
      rw [List.nil_append, firstLeast]
      cases hs : firstLeast key post with
      | none => rfl
      | some r =>
          obtain ⟨k, z, zs⟩ := r
          obtain ⟨pre', post', rfl, _, _⟩ := (firstLeast_isFirstLeast hs).split
          have hle := hpost (k, z :: zs) (by simp) z rfl
          exact if_neg (not_lt_of_ge hle)
  | cons p pre ih =>
      obtain ⟨j, ys⟩ := p
      have htail : firstLeast key (pre ++ (i, x :: xs) :: post) = some (i, x, xs) :=
        ih ⟨pre, post, rfl, fun p hp => hpre p (List.mem_cons_of_mem _ hp), hpost⟩
          (fun p hp => hpre p (List.mem_cons_of_mem _ hp))
      cases ys with
      | nil =>
          rw [List.cons_append, firstLeast]
          exact htail
      | cons y ys =>
          have hlt := hpre (j, y :: ys) List.mem_cons_self y rfl
          rw [List.cons_append, firstLeast, htail]
          exact if_pos hlt

theorem IsFirstLeast.mem {key : α → κ} {s : List (ι × List α)} {i : ι} {x : α}
    {xs : List α} (h : IsFirstLeast key s i x xs) : (i, x :: xs) ∈ s := by
  obtain ⟨pre, post, rfl, _, _⟩ := h.split
  simp

/-- No head is below the one that is taken. -/
theorem IsFirstLeast.le {key : α → κ} {s : List (ι × List α)} {i : ι} {x : α}
    {xs : List α} (h : IsFirstLeast key s i x xs) {p : ι × List α} (hp : p ∈ s) {y : α}
    (hy : y ∈ p.2.head?) : key x ≤ key y := by
  obtain ⟨pre, post, rfl, hpre, hpost⟩ := h.split
  rcases List.mem_append.mp hp with hp | hp
  · exact le_of_lt (hpre p hp y hy)
  · rcases List.mem_cons.mp hp with rfl | hp
    · cases hy
      exact le_refl _
    · exact hpost p hp y hy

/-- The choice by key and number, where the sources with something left wait
in the order of their numbers. -/
theorem isFirstLeast_of_numbered {key : α → κ} {n : ι → Nat} {s : List (ι × List α)} {i : ι}
    {x : α} {xs : List α} (hmem : (i, x :: xs) ∈ s)
    (hids : s.Pairwise fun p q => p.2 ≠ [] → q.2 ≠ [] → n p.1 < n q.1)
    (hroot : ∀ p ∈ s, ∀ y ∈ p.2.head?, key x < key y ∨ key x = key y ∧ n i ≤ n p.1) :
    IsFirstLeast key s i x xs := by
  obtain ⟨pre, post, rfl⟩ := List.append_of_mem hmem
  rw [List.pairwise_append, List.pairwise_cons] at hids
  refine ⟨pre, post, rfl, fun p hp y hy => ?_, fun p hp y hy => ?_⟩
  · -- whoever stands before `i` has a smaller number
    have hne : p.2 ≠ [] := fun hc => by rw [hc] at hy; cases hy
    have hid := hids.2.2 p hp _ List.mem_cons_self hne (List.cons_ne_nil x xs)
    rcases hroot p (List.mem_append_left _ hp) y hy with hlt | ⟨_, hle⟩
    · exact hlt
    · exact absurd hid (Nat.not_lt_of_le hle)
  · rcases hroot p (List.mem_append_right _ (List.mem_cons_of_mem _ hp)) y hy with hlt | ⟨he, _⟩
    · exact le_of_lt hlt
    · exact le_of_eq he

/-! ## One step -/

variable [DecidableEq ι]

/-- The sources are different. -/
def Distinct (s : List (ι × List α)) : Prop := (s.map Prod.fst).Nodup

theorem mergeStep_some {key : α → κ} {s s' : List (ι × List α)} {i : ι} {x : α}
    (h : mergeStep key s = some ((i, x), s')) :
    ∃ xs, IsFirstLeast key s i x xs
      ∧ s' = s.filter (fun p => p.1 ≠ i) ++ [(i, xs)] := by
  rw [mergeStep, Option.map_eq_some_iff] at h
  obtain ⟨⟨j, y, ys⟩, hf, he⟩ := h
  cases he
  exact ⟨ys, firstLeast_isFirstLeast hf, rfl⟩

theorem mergeStep_none {key : α → κ} {s : List (ι × List α)} :
    mergeStep key s = none ↔ ∀ p ∈ s, p.2 = [] := by
  rw [mergeStep, Option.map_eq_none_iff, firstLeast_none]

/-- Without source `i` the line is what stood before and after it. -/
theorem Distinct.filter_ne {pre post : List (ι × List α)} {i : ι} {ys : List α}
    (h : Distinct (pre ++ (i, ys) :: post)) :
    (pre ++ (i, ys) :: post).filter (fun p => p.1 ≠ i) = pre ++ post := by
  rw [Distinct, List.map_append, List.map_cons, List.nodup_append, List.nodup_cons] at h
  have hpre : ∀ p ∈ pre, p.1 ≠ i := fun p hp hc =>
    h.2.2 p.1 (List.mem_map_of_mem hp) i List.mem_cons_self hc
  have hpost : ∀ p ∈ post, p.1 ≠ i := by
    intro p hp hc
    refine h.2.1.1 ?_
    show i ∈ post.map Prod.fst
    rw [← hc]
    exact List.mem_map_of_mem hp
  rw [List.filter_append, List.filter_cons]
  have h1 : pre.filter (fun p => p.1 ≠ i) = pre :=
    List.filter_eq_self.mpr (fun p hp => by simpa using hpre p hp)
  have h2 : post.filter (fun p => p.1 ≠ i) = post :=
    List.filter_eq_self.mpr (fun p hp => by simpa using hpost p hp)
  rw [h1, h2]
  simp

/-- **One step** in terms of what stands before and after the source. -/
theorem Distinct.mergeStep_split {key : α → κ} {s s' : List (ι × List α)} {i : ι} {x : α}
    (hd : Distinct s) (h : mergeStep key s = some ((i, x), s')) :
    ∃ pre post xs, s = pre ++ (i, x :: xs) :: post ∧ s' = pre ++ post ++ [(i, xs)] := by
  obtain ⟨xs, hleast, rfl⟩ := mergeStep_some h
  obtain ⟨pre, post, rfl, _, _⟩ := hleast.split
  exact ⟨pre, post, xs, rfl, by rw [hd.filter_ne]⟩

theorem Distinct.mergeStep {key : α → κ} {s s' : List (ι × List α)} {i : ι} {x : α}
    (hd : Distinct s) (h : mergeStep key s = some ((i, x), s')) : Distinct s' := by
  obtain ⟨pre, post, xs, rfl, rfl⟩ := hd.mergeStep_split h
  have hperm : ((pre ++ post ++ [(i, xs)]).map Prod.fst).Perm
      ((pre ++ (i, x :: xs) :: post).map Prod.fst) := by
    simp only [List.map_append, List.map_cons, List.map_nil, List.append_assoc]
    exact (List.perm_append_comm.append_left _)
  exact hperm.nodup_iff.mpr hd

theorem Distinct.size_mergeStep {key : α → κ} {s s' : List (ι × List α)} {i : ι} {x : α}
    (hd : Distinct s) (h : KWayMerge.mergeStep key s = some ((i, x), s')) :
    size s = size s' + 1 := by
  obtain ⟨pre, post, xs, rfl, rfl⟩ := hd.mergeStep_split h
  simp only [size, List.map_append, List.map_cons, List.map_nil, List.sum_append,
    List.sum_cons, List.sum_nil, List.length_cons]
  omega

/-! ## The whole merge -/

omit [DecidableEq ι] in
theorem size_eq_zero {s : List (ι × List α)} : size s = 0 ↔ ∀ p ∈ s, p.2 = [] := by
  induction s with
  | nil => simp [size]
  | cons p s ih =>
      have hcons : size (p :: s) = p.2.length + size s := rfl
      rw [hcons, Nat.add_eq_zero_iff, ih, List.length_eq_zero_iff]
      simp

/-- **Nothing is lost or made up**: the output holds the elements of all
sources. -/
theorem Distinct.merge_perm {key : α → κ} : ∀ (n : Nat) {s : List (ι × List α)},
    Distinct s → size s ≤ n →
    ((merge key n s).map Prod.snd).Perm (s.flatMap Prod.snd) := by
  intro n
  induction n with
  | zero =>
      intro s _ hn
      have hnil := size_eq_zero.mp (Nat.le_zero.mp hn)
      rw [List.flatMap_eq_nil_iff.mpr hnil]
      exact List.Perm.refl []
  | succ n ih =>
      intro s hd hn
      rw [merge]
      cases hs : KWayMerge.mergeStep key s with
      | none =>
          rw [List.flatMap_eq_nil_iff.mpr (mergeStep_none.mp hs)]
          exact List.Perm.refl []
      | some r =>
          obtain ⟨⟨i, x⟩, s'⟩ := r
          have hsize := hd.size_mergeStep hs
          have htail := ih (hd.mergeStep hs) (by omega)
          obtain ⟨pre, post, xs, rfl, rfl⟩ := hd.mergeStep_split hs
          rw [List.map_cons]
          refine (htail.cons x).trans ?_
          simp only [List.flatMap_append, List.flatMap_cons, List.flatMap_nil,
            List.append_nil, List.cons_append, List.append_assoc]
          refine List.Perm.trans ?_ List.perm_middle.symm
          exact (List.perm_append_comm.append_left _).cons x

/-- **Each source keeps its order**: what the output holds of source `i` is
that source. -/
theorem Distinct.merge_source {key : α → κ} : ∀ (n : Nat) {s : List (ι × List α)},
    Distinct s → size s ≤ n → ∀ {i : ι} {xs : List α}, (i, xs) ∈ s →
    ((merge key n s).filter (fun o => o.1 = i)).map Prod.snd = xs := by
  intro n
  induction n with
  | zero =>
      intro s _ hn i xs hm
      have hnil := size_eq_zero.mp (Nat.le_zero.mp hn) _ hm
      exact hnil.symm
  | succ n ih =>
      intro s hd hn i xs hm
      rw [merge]
      cases hs : KWayMerge.mergeStep key s with
      | none => exact (mergeStep_none.mp hs _ hm).symm
      | some r =>
          obtain ⟨⟨j, y⟩, s'⟩ := r
          have hsize := hd.size_mergeStep hs
          have hd' := hd.mergeStep hs
          obtain ⟨pre, post, ys, rfl, rfl⟩ := hd.mergeStep_split hs
          by_cases hij : j = i
          · -- the source that was served
            subst hij
            have hxs : xs = y :: ys := by
              have hfil := hd.filter_ne
              have hnot : (j, xs) ∉ (pre ++ (j, y :: ys) :: post).filter
                  (fun p => p.1 ≠ j) := by simp
              rw [hfil] at hnot
              rcases List.mem_append.mp hm with hm | hm
              · exact absurd (List.mem_append_left _ hm) hnot
              · rcases List.mem_cons.mp hm with hm | hm
                · exact congrArg Prod.snd hm
                · exact absurd (List.mem_append_right _ hm) hnot
            have hj : (j, ys) ∈ pre ++ post ++ [(j, ys)] := by simp
            have htail := ih hd' (by omega) hj
            rw [List.filter_cons_of_pos (by simp), List.map_cons, htail, hxs]
          · have hm' : (i, xs) ∈ pre ++ post ++ [(j, ys)] := by
              rcases List.mem_append.mp hm with hm | hm
              · simp [hm]
              · rcases List.mem_cons.mp hm with hm | hm
                · exact absurd (congrArg Prod.fst hm).symm hij
                · simp [hm]
            have htail := ih hd' (by omega) hm'
            rw [List.filter_cons_of_neg (by simpa using hij), htail]

/-- **A merge of sorted sources is sorted.** -/
theorem Distinct.merge_sorted {key : α → κ} : ∀ (n : Nat) {s : List (ι × List α)},
    Distinct s → (∀ p ∈ s, p.2.Pairwise (fun a b => key a ≤ key b)) →
    (merge key n s).Pairwise (fun a b => key a.2 ≤ key b.2) := by
  -- everything that waits is above a bound that every source's list respects
  have bound : ∀ (n : Nat) {s : List (ι × List α)} (b : κ),
      Distinct s → (∀ p ∈ s, ∀ y ∈ p.2, b ≤ key y) →
      ∀ o ∈ merge key n s, b ≤ key o.2 := by
    intro n
    induction n with
    | zero =>
        intro s b _ _ o ho
        cases ho
    | succ n ih =>
        intro s b hd hb o ho
        rw [merge] at ho
        cases hs : KWayMerge.mergeStep key s with
        | none =>
            rw [hs] at ho
            cases ho
        | some r =>
            obtain ⟨⟨i, x⟩, s'⟩ := r
            rw [hs] at ho
            have hd' := hd.mergeStep hs
            obtain ⟨pre, post, xs, rfl, rfl⟩ := hd.mergeStep_split hs
            rcases List.mem_cons.mp ho with rfl | ho
            · exact hb (i, x :: xs) (by simp) x List.mem_cons_self
            · refine ih b hd' (fun p hp y hy => ?_) o ho
              rcases List.mem_append.mp hp with hp | hp
              · refine hb p ?_ y hy
                rcases List.mem_append.mp hp with hp | hp <;> simp [hp]
              · rw [List.mem_singleton] at hp
                subst hp
                exact hb (i, x :: xs) (by simp) y (List.mem_cons_of_mem x hy)
  intro n
  induction n with
  | zero =>
      intro s _ _
      exact List.Pairwise.nil
  | succ n ih =>
      intro s hd hsort
      rw [merge]
      cases hs : KWayMerge.mergeStep key s with
      | none => exact List.Pairwise.nil
      | some r =>
          obtain ⟨⟨i, x⟩, s'⟩ := r
          obtain ⟨xs, hleast, hs'⟩ := mergeStep_some hs
          have hd' := hd.mergeStep hs
          have hxs : (x :: xs).Pairwise (fun a b => key a ≤ key b) := hsort _ hleast.mem
          have hmem : ∀ p ∈ s', p = (i, xs) ∨ p ∈ s := by
            intro p hp
            rw [hs'] at hp
            rcases List.mem_append.mp hp with hp | hp
            · exact Or.inr (List.mem_of_mem_filter hp)
            · exact Or.inl (List.mem_singleton.mp hp)
          refine List.pairwise_cons.mpr ⟨bound n _ hd' ?_, ih hd' ?_⟩
          · intro p hp y hy
            rcases hmem p hp with rfl | hp
            · exact (List.pairwise_cons.mp hxs).1 y hy
            · -- above the head of its own source, which is not below `x`
              cases hps : p.2 with
              | nil =>
                  rw [hps] at hy
                  cases hy
              | cons z zs =>
                  have hz : key x ≤ key z := hleast.le hp (by rw [hps]; rfl)
                  have hsp := hsort p hp
                  rw [hps] at hsp hy
                  rcases List.mem_cons.mp hy with rfl | hy
                  · exact hz
                  · exact le_trans hz ((List.pairwise_cons.mp hsp).1 y hy)
          · intro p hp
            rcases hmem p hp with rfl | hp
            · exact (List.pairwise_cons.mp hxs).2
            · exact hsort p hp

/-! ## Parts of the merge -/

/-- Fewer steps yield a first part of the output. -/
theorem merge_take {key : α → κ} : ∀ (n m : Nat) {s : List (ι × List α)},
    (merge key m s).take n = merge key (min n m) s := by
  intro n
  induction n with
  | zero => simp [merge]
  | succ n ih =>
      intro m s
      cases m with
      | zero => simp [merge]
      | succ m =>
          rw [Nat.succ_min_succ, merge, merge]
          cases KWayMerge.mergeStep key s with
          | none => rfl
          | some r =>
              dsimp only
              rw [List.take_succ_cons, ih]

/-- No step is left once everything is out. -/
theorem Distinct.merge_size {key : α → κ} : ∀ (n : Nat) {s : List (ι × List α)},
    Distinct s → size s ≤ n → merge key n s = merge key (size s) s := by
  intro n
  induction n with
  | zero =>
      intro s _ hn
      rw [Nat.le_zero.mp hn]
  | succ n ih =>
      intro s hd hn
      cases hs : KWayMerge.mergeStep key s with
      | none =>
          rw [size_eq_zero.mpr (mergeStep_none.mp hs), merge, merge, hs]
      | some r =>
          obtain ⟨⟨i, x⟩, s'⟩ := r
          have hsize := hd.size_mergeStep hs
          rw [hsize, merge, merge, hs]
          dsimp only
          rw [ih (hd.mergeStep hs) (by omega)]

/-- **`n` steps yield the first `n` elements** of the whole merge. -/
theorem Distinct.take_merge {key : α → κ} {s : List (ι × List α)} (hd : Distinct s) (n : Nat) :
    (merge key (size s) s).take n = merge key n s := by
  rw [merge_take]
  by_cases hn : n ≤ size s
  · rw [Nat.min_eq_left hn]
  · rw [Nat.min_eq_right (by omega)]
    exact (hd.merge_size n (by omega)).symm

/-! ## Sources of one element -/

/-- The elements of all sources, each with its source. -/
def labelled (s : List (ι × List α)) : List (ι × α) :=
  s.flatMap fun p => p.2.map fun x => (p.1, x)

/-- Insertion sort brings the first least element to the front. -/
theorem insertionSort_split {β : Type} {r : β → β → Prop} [DecidableRel r] {a : β}
    {post : List β} (hpost : ∀ b ∈ post, r a b) : ∀ {pre : List β}, (∀ b ∈ pre, ¬ r b a) →
      (pre ++ a :: post).insertionSort r = a :: (pre ++ post).insertionSort r := by
  intro pre
  induction pre with
  | nil => exact fun _ => List.insertionSort_cons_of_forall_rel r hpost
  | cons b pre ih =>
      intro hpre
      have htail := ih fun x hx => hpre x (List.mem_cons_of_mem b hx)
      rw [List.cons_append, List.insertionSort_cons, htail,
        List.orderedInsert_of_not_le _ _ (hpre b List.mem_cons_self), List.cons_append,
        List.insertionSort_cons]

/-- **Sources of one element merge into a stable sort.** -/
theorem Distinct.merge_singles {key : α → κ} : ∀ (n : Nat) {s : List (ι × List α)},
    Distinct s → size s ≤ n → (∀ p ∈ s, p.2.length ≤ 1) →
    merge key n s = (labelled s).insertionSort fun a b => key a.2 ≤ key b.2 := by
  intro n
  induction n with
  | zero =>
      intro s _ hn _
      have hnil := size_eq_zero.mp (Nat.le_zero.mp hn)
      have : labelled s = [] := List.flatMap_eq_nil_iff.mpr fun p hp => by rw [hnil p hp]; rfl
      rw [this]
      rfl
  | succ n ih =>
      intro s hd hn hone
      rw [merge]
      cases hs : KWayMerge.mergeStep key s with
      | none =>
          have hnil := mergeStep_none.mp hs
          have : labelled s = [] := List.flatMap_eq_nil_iff.mpr fun p hp => by rw [hnil p hp]; rfl
          rw [this]
          rfl
      | some o =>
          obtain ⟨⟨i, x⟩, s'⟩ := o
          have hsize := hd.size_mergeStep hs
          have hd' := hd.mergeStep hs
          obtain ⟨xs, hleast, rfl⟩ := mergeStep_some hs
          obtain ⟨pre, post, rfl, hpre, hpost⟩ := hleast.split
          obtain rfl : xs = [] := by
            have := hone (i, x :: xs) (by simp)
            simpa using this
          rw [hd.filter_ne] at hd' hsize ⊢
          have hone' : ∀ p ∈ pre ++ post ++ [(i, [])], p.2.length ≤ 1 := by
            intro p hp
            rcases List.mem_append.mp hp with hp | hp
            · refine hone p ?_
              rcases List.mem_append.mp hp with hp | hp <;> simp [hp]
            · rw [List.mem_singleton.mp hp]
              exact Nat.zero_le 1
          dsimp only
          rw [ih hd' (by omega) hone']
          -- an element of a source is its head
          have hhead : ∀ {t : List (ι × List α)}, (∀ p ∈ t, p.2.length ≤ 1) →
              ∀ b ∈ labelled t, ∃ p ∈ t, b.2 ∈ p.2.head? := by
            intro t ht b hb
            obtain ⟨p, hp, hm⟩ := List.mem_flatMap.mp hb
            obtain ⟨y, hy, rfl⟩ := List.mem_map.mp hm
            refine ⟨p, hp, ?_⟩
            have hlen := ht p hp
            cases hl : p.2 with
            | nil =>
                rw [hl] at hy
                cases hy
            | cons z zs =>
                rw [hl] at hy hlen
                obtain rfl : zs = [] := by simpa using hlen
                obtain rfl := List.mem_singleton.mp hy
                rfl
          have hsplit : labelled (pre ++ (i, [x]) :: post)
              = labelled pre ++ (i, x) :: labelled post := by
            simp [labelled]
          have hrest : labelled (pre ++ post ++ [(i, [])]) = labelled pre ++ labelled post := by
            simp [labelled]
          rw [hsplit, hrest, insertionSort_split]
          · intro b hb
            obtain ⟨p, hp, hm⟩ := hhead (fun p hp => hone p (by simp [hp])) b hb
            exact hpost p hp _ hm
          · intro b hb
            obtain ⟨p, hp, hm⟩ := hhead (fun p hp => hone p (by simp [hp])) b hb
            exact not_le_of_gt (hpre p hp _ hm)

end Ats.KWayMerge
