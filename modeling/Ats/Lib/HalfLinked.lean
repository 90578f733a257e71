import Mathlib.Data.List.Nodup
import Mathlib.Logic.Function.Basic

/-!
# HalfLinked: a chain with links on their way

Nodes are put at the end of a chain before the link that leads to them is
written. `Chain next coming L` says that `L` is the chain from its oldest to
its newest node: from each node but the last there is a link to the one after
it, or such a link is on its way.
-/

namespace HalfLinked

variable {A : Type} {next next' : A → Option A} {coming coming' : A → A → Prop} {L : List A}
  {a b c m n : A}

/-! ## Neighbours -/

/-- `b` comes right after `a`. -/
def Adj : List A → A → A → Prop
  | [], _, _ => False
  | x :: xs, a, b => a = x ∧ xs.head? = some b ∨ Adj xs a b

theorem Adj.mem_left (h : Adj L a b) : a ∈ L := by
  induction L with
  | nil => exact h.elim
  | cons x xs ih =>
      rcases h with ⟨rfl, -⟩ | h
      · exact List.mem_cons_self
      · exact List.mem_cons_of_mem _ (ih h)

theorem Adj.mem_tail (h : Adj L a b) : b ∈ L.tail := by
  induction L with
  | nil => exact h.elim
  | cons x xs ih =>
      rcases h with ⟨-, hb⟩ | h
      · exact List.mem_of_mem_head? hb
      · exact List.mem_of_mem_tail (ih h)

theorem Adj.mem_right (h : Adj L a b) : b ∈ L := List.mem_of_mem_tail h.mem_tail

theorem Adj.right_unique (hL : L.Nodup) (h : Adj L a b) (h' : Adj L a c) : b = c := by
  induction L with
  | nil => exact h.elim
  | cons x xs ih =>
      obtain ⟨hx, hxs⟩ := List.nodup_cons.mp hL
      rcases h with ⟨rfl, hb⟩ | h
      · rcases h' with ⟨-, hc⟩ | h'
        · exact Option.some.inj (hb.symm.trans hc)
        · exact absurd h'.mem_left hx
      · rcases h' with ⟨rfl, -⟩ | h'
        · exact absurd h.mem_left hx
        · exact ih hxs h h'

/-- Only the last node has none after it. -/
theorem not_adj_last (hL : L.Nodup) (hm : L.getLast? = some m) : ¬ Adj L m b := by
  induction L with
  | nil => exact id
  | cons x xs ih =>
      obtain ⟨hx, hxs⟩ := List.nodup_cons.mp hL
      cases xs with
      | nil =>
          rintro (⟨-, hb⟩ | h)
          · cases hb
          · exact h
      | cons y ys =>
          rw [List.getLast?_cons_cons] at hm
          rintro (⟨rfl, -⟩ | h)
          · exact hx (List.mem_of_getLast? hm)
          · exact ih hxs hm h

/-- A node that is put at the end comes right after the last one. -/
theorem adj_concat (hm : L.getLast? = some m) :
    Adj (L ++ [n]) a b ↔ Adj L a b ∨ a = m ∧ b = n := by
  induction L with
  | nil => cases hm
  | cons x xs ih =>
      cases xs with
      | nil =>
          cases hm
          simp [Adj, eq_comm]
      | cons y ys =>
          rw [List.getLast?_cons_cons] at hm
          have hstep : ∀ zs, Adj (x :: y :: zs) a b
              ↔ a = x ∧ (y :: zs).head? = some b ∨ Adj (y :: zs) a b := fun _ => Iff.rfl
          rw [List.cons_append, List.cons_append, hstep, hstep, ← List.cons_append, ih hm, or_assoc]
          rfl

/-! ## Chains -/

/-- **A chain**, from its oldest to its newest node. -/
structure Chain (next : A → Option A) (coming : A → A → Prop) (L : List A) : Prop where
  nodup : L.Nodup
  link : ∀ a b, Adj L a b → next a = some b ∧ ¬ coming a b ∨ next a = none ∧ coming a b
  last : ∀ m, L.getLast? = some m → next m = none
  coming : ∀ a b, coming a b → Adj L a b

namespace Chain

theorem singleton (ha : next a = none) : Chain next (fun _ _ => False) [a] where
  nodup := List.nodup_singleton a
  link := by
    rintro x y (⟨-, h⟩ | h)
    · cases h
    · exact h.elim
  last := by
    intro m hm
    cases hm
    exact ha
  coming := fun _ _ h => h.elim

/-- Only what the chain says of `next` and `coming` matters. -/
theorem congr (h : Chain next coming L) (hnext : ∀ a ∈ L, next' a = next a)
    (hcoming : ∀ a b, coming' a b ↔ coming a b) : Chain next' coming' L where
  nodup := h.nodup
  link := by
    intro a b hab
    rw [hnext a hab.mem_left, hcoming]
    exact h.link a b hab
  last := fun m hm => (hnext m (List.mem_of_getLast? hm)).trans (h.last m hm)
  coming := fun a b hab => h.coming a b ((hcoming a b).mp hab)

/-- **A node is put at the end**, and the link to it is on its way. -/
theorem concat (h : Chain next coming L) (hm : L.getLast? = some m) (hn : n ∉ L)
    (hnone : next n = none) (hcoming : ∀ a b, coming' a b ↔ coming a b ∨ a = m ∧ b = n) :
    Chain next coming' (L ++ [n]) where
  nodup := List.nodup_append.mpr ⟨h.nodup, List.nodup_singleton n, fun a ha b hb heq =>
    hn (List.mem_singleton.mp hb ▸ heq ▸ ha)⟩
  link := by
    intro a b hab
    rw [hcoming]
    rcases (adj_concat hm).mp hab with hab | ⟨rfl, rfl⟩
    · have hne : ¬ (a = m ∧ b = n) := fun heq => hn (heq.2 ▸ hab.mem_right)
      rw [or_iff_left hne]
      exact h.link a b hab
    · exact .inr ⟨h.last a hm, .inr ⟨rfl, rfl⟩⟩
  last := by
    intro x hx
    rw [List.getLast?_concat] at hx
    cases hx
    exact hnone
  coming := by
    intro a b hab
    rw [adj_concat hm]
    exact ((hcoming a b).mp hab).imp_left (h.coming a b)

/-- **A link is written.** -/
theorem arrive [DecidableEq A] (h : Chain next coming L) (hab : coming a b)
    (hcoming : ∀ x y, coming' x y ↔ coming x y ∧ ¬ (x = a ∧ y = b)) :
    Chain (Function.update next a (some b)) coming' L where
  nodup := h.nodup
  link := by
    intro x y hxy
    rw [hcoming]
    by_cases hx : x = a
    · subst hx
      have hy : b = y := (h.coming x b hab).right_unique h.nodup hxy
      subst hy
      exact .inl ⟨Function.update_self .., fun hc => hc.2 ⟨rfl, rfl⟩⟩
    · have hne : ¬ (x = a ∧ y = b) := fun heq => hx heq.1
      rw [Function.update_of_ne hx, and_iff_left hne]
      exact h.link x y hxy
  last := by
    intro m hm
    have hne : m ≠ a := by
      rintro rfl
      exact not_adj_last h.nodup hm (h.coming m b hab)
    rw [Function.update_of_ne hne]
    exact h.last m hm
  coming := fun x y hxy => h.coming x y ((hcoming x y).mp hxy).1

/-- Without a link the oldest node is the only one, or the link is on its
way. -/
theorem head_none (h : Chain next coming (a :: L)) (ha : next a = none) :
    L = [] ∨ ∃ b, L.head? = some b ∧ coming a b := by
  cases L with
  | nil => exact .inl rfl
  | cons b xs =>
      rcases h.link a b (.inl ⟨rfl, rfl⟩) with ⟨hsome, -⟩ | ⟨-, hcoming⟩
      · exact absurd (hsome.symm.trans ha) (by simp)
      · exact .inr ⟨b, rfl, hcoming⟩

/-- **The oldest node is taken** where its link leads to the next one. -/
theorem tail (h : Chain next coming (a :: L)) (ha : next a = some b) :
    (∃ xs, L = b :: xs) ∧ Chain next coming L := by
  cases L with
  | nil => exact absurd ((h.last a rfl).symm.trans ha) (by simp)
  | cons c xs =>
      have hlink := h.link a c (.inl ⟨rfl, rfl⟩)
      rcases hlink with ⟨hsome, hnot⟩ | ⟨hnone, -⟩
      · cases hsome.symm.trans ha
        refine ⟨⟨xs, rfl⟩, (List.nodup_cons.mp h.nodup).2, fun x y hxy => h.link x y (.inr hxy),
          fun m hm => h.last m (by rwa [List.getLast?_cons_cons]), fun x y hxy => ?_⟩
        rcases h.coming x y hxy with ⟨rfl, hy⟩ | hadj
        · cases hy
          exact absurd hxy hnot
        · exact hadj
      · exact absurd (hnone.symm.trans ha) (by simp)

end Chain

end HalfLinked
