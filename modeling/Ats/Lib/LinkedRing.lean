import Mathlib.Data.List.Nodup
import Mathlib.Logic.Function.Basic

/-!
# Circular doubly linked lists

A ring is a head and its members, joined by two address functions. A member
is added before the head, or taken out, with two or four writes.
-/

namespace LinkedRing

variable {A : Type} {next prev next' prev' : A → A}

/-- `b` follows `a`, read in both directions. -/
def Joined (next prev : A → A) (a b : A) : Prop := next a = b ∧ prev b = a

/-- The members `cs` lead from `a` to `b`. -/
def Linked (next prev : A → A) : A → List A → A → Prop
  | a, [], b => Joined next prev a b
  | a, c :: cs, b => Joined next prev a c ∧ Linked next prev c cs b

/-- **A ring**: the head `h` and the members `ns`, all different. -/
structure Ring (next prev : A → A) (h : A) (ns : List A) : Prop where
  nodup : (h :: ns).Nodup
  linked : Linked next prev h ns h

theorem linked_append {a b d : A} {cs ds : List A} :
    Linked next prev a (cs ++ d :: ds) b
      ↔ Linked next prev a cs d ∧ Linked next prev d ds b := by
  induction cs generalizing a with
  | nil => rfl
  | cons c cs ih => simp only [List.cons_append, Linked, ih, and_assoc]

theorem Linked.next_mem {a b x : A} {cs : List A} (hlinked : Linked next prev a cs b)
    (hx : x ∈ a :: cs) : next x ∈ cs ++ [b] := by
  induction cs generalizing a with
  | nil =>
    rw [List.mem_singleton.mp hx]
    simp [hlinked.1]
  | cons c cs ih =>
    rcases List.mem_cons.mp hx with rfl | hx
    · simp [hlinked.1.1]
    · exact List.mem_cons_of_mem _ (ih hlinked.2 hx)

theorem Linked.prev_mem {a b x : A} {cs : List A} (hlinked : Linked next prev a cs b)
    (hx : x ∈ cs ++ [b]) : prev x ∈ a :: cs := by
  induction cs generalizing a with
  | nil =>
    rw [List.mem_singleton.mp hx]
    simp [hlinked.2]
  | cons c cs ih =>
    rcases List.mem_cons.mp hx with rfl | hx
    · simp [hlinked.1.2]
    · exact List.mem_cons_of_mem _ (ih hlinked.2 hx)

/-- Only the cells on the way are read. -/
theorem Linked.congr {a b : A} {cs : List A} (hlinked : Linked next prev a cs b)
    (hnext : ∀ x ∈ a :: cs, next' x = next x) (hprev : ∀ x ∈ cs ++ [b], prev' x = prev x) :
    Linked next' prev' a cs b := by
  induction cs generalizing a with
  | nil =>
    have ha := hnext a (by simp)
    have hb := hprev b (by simp)
    exact ⟨ha.trans hlinked.1, hb.trans hlinked.2⟩
  | cons c cs ih =>
    have ha := hnext a (by simp)
    have hc := hprev c (by simp)
    refine ⟨⟨ha.trans hlinked.1.1, hc.trans hlinked.1.2⟩, ih hlinked.2 ?_ ?_⟩
    · exact fun x hx => hnext x (List.mem_cons_of_mem _ hx)
    · exact fun x hx => hprev x (List.mem_cons_of_mem _ hx)

theorem Ring.congr {h : A} {ns : List A} (hring : Ring next prev h ns)
    (hnext : ∀ x ∈ h :: ns, next' x = next x) (hprev : ∀ x ∈ h :: ns, prev' x = prev x) :
    Ring next' prev' h ns := by
  refine ⟨hring.nodup, hring.linked.congr hnext fun x hx => hprev x ?_⟩
  simpa [or_comm] using hx

/-- A head that is joined to itself alone. -/
theorem ring_nil {h : A} : Ring next prev h [] ↔ next h = h ∧ prev h = h := by
  refine ⟨fun hring => hring.linked, fun hself => ⟨by simp, hself⟩⟩

theorem Ring.next_eq_iff {h : A} {ns : List A} (hring : Ring next prev h ns) :
    h = next h ↔ ns = [] := by
  cases ns with
  | nil => simp [hring.linked.1]
  | cons n ns =>
    have hne : h ≠ n := fun heq => by
      have hnodup := hring.nodup
      simp [heq] at hnodup
    have hn : next h = n := hring.linked.1.1
    simp [hn, hne]

/-- The neighbours are in the ring. -/
theorem Ring.next_mem {h x : A} {ns : List A} (hring : Ring next prev h ns) (hx : x ∈ h :: ns) :
    next x ∈ h :: ns := by
  simpa [or_comm] using hring.linked.next_mem hx

theorem Ring.prev_mem {h x : A} {ns : List A} (hring : Ring next prev h ns) (hx : x ∈ h :: ns) :
    prev x ∈ h :: ns :=
  hring.linked.prev_mem (by simpa [or_comm] using hx)

variable [DecidableEq A]

/-- **A member is added before the head.** -/
theorem Ring.insert {h q : A} {ns : List A} (hring : Ring next prev h ns) (hq : q ∉ h :: ns) :
    Ring (Function.update (Function.update next q h) (prev h) q)
      (Function.update (Function.update prev q (prev h)) h q) h (ns ++ [q]) := by
  have hqh : q ≠ h := fun heq => hq (heq ▸ List.mem_cons_self)
  have hnodup : (h :: (ns ++ [q])).Nodup := by
    rw [← List.cons_append]
    exact List.nodup_append.mpr ⟨hring.nodup, List.nodup_singleton q, fun a ha b hb heq =>
      hq (List.mem_singleton.mp hb ▸ heq ▸ ha)⟩
  refine ⟨hnodup, ?_⟩
  rcases List.eq_nil_or_concat ns with rfl | ⟨ms, p, rfl⟩
  · obtain ⟨-, hprev⟩ := ring_nil.mp hring
    simp [Linked, Joined, hprev, hqh]
  · rw [List.concat_eq_append] at *
    have hne : h ∉ ms ∧ h ≠ p ∧ p ∉ ms := by
      have hdistinct := hring.nodup
      simp only [List.nodup_cons, List.mem_append, List.mem_singleton,
        List.nodup_append] at hdistinct
      grind
    have hqne : q ∉ ms ∧ q ≠ p := by
      simp only [List.mem_cons, List.mem_append] at hq
      grind
    obtain ⟨hlinked, -, hprev⟩ := linked_append.mp hring.linked
    rw [hprev, List.append_assoc]
    -- the last member is the only one whose `next` changes
    refine linked_append.mpr ⟨hlinked.congr ?_ ?_, ⟨?_, ?_⟩, ?_, ?_⟩
    · intro x hx
      have hxp : x ≠ p := by grind
      have hxq : x ≠ q := by grind
      rw [Function.update_of_ne hxp, Function.update_of_ne hxq]
    · intro x hx
      have hxh : x ≠ h := by grind
      have hxq : x ≠ q := by grind
      rw [Function.update_of_ne hxh, Function.update_of_ne hxq]
    · rw [Function.update_self]
    · rw [Function.update_of_ne hqh, Function.update_self]
    · rw [Function.update_of_ne hqne.2, Function.update_self]
    · rw [Function.update_self]

/-- The members after `q`, joined to another one before them. -/
theorem Linked.skip {p q h : A} {ls : List A} (hlinked : Linked next prev q ls h)
    (hnodup : ls.Nodup) (hh : h ∉ ls) (hp : p ∉ ls) :
    Linked (Function.update next p (next q)) (Function.update prev (next q) p) p ls h := by
  cases ls with
  | nil =>
    have hn : next q = h := hlinked.1
    simp [Linked, Joined, hn]
  | cons n ls =>
    have hn : next q = n := hlinked.1.1
    rw [hn]
    refine ⟨⟨Function.update_self _ _ _, Function.update_self _ _ _⟩, hlinked.2.congr ?_ ?_⟩
    · intro x hx
      exact Function.update_of_ne (fun heq : x = p => hp (heq ▸ hx)) _ _
    · intro x hx
      have hxn : x ≠ n := by
        rw [List.nodup_cons] at hnodup
        grind
      exact Function.update_of_ne hxn _ _

/-- **A member is taken out.** -/
theorem Ring.remove {h q : A} {ms ls : List A} (hring : Ring next prev h (ms ++ q :: ls)) :
    Ring (Function.update next (prev q) (next q)) (Function.update prev (next q) (prev q)) h
      (ms ++ ls) := by
  obtain ⟨hbefore, hafter⟩ := linked_append.mp hring.linked
  have hdistinct := hring.nodup
  rw [← List.cons_append, List.nodup_append] at hdistinct
  obtain ⟨hms, hqls, hapart⟩ := hdistinct
  have hls := (List.nodup_cons.mp hqls).2
  have hnodup : (h :: (ms ++ ls)).Nodup := by
    rw [← List.cons_append, List.nodup_append]
    exact ⟨hms, hls, fun a ha b hb => hapart a ha b (List.mem_cons_of_mem _ hb)⟩
  have hh : h ∉ ls := fun hmem =>
    hapart h List.mem_cons_self h (List.mem_cons_of_mem _ hmem) rfl
  refine ⟨hnodup, ?_⟩
  rcases List.eq_nil_or_concat ms with rfl | ⟨ms, p, rfl⟩
  · have hp : prev q = h := hbefore.2
    rw [hp]
    exact hafter.skip hls hh hh
  · rw [List.concat_eq_append] at *
    obtain ⟨hfirst, -, hp⟩ := linked_append.mp hbefore
    have hpl : p ∉ ls := fun hmem =>
      hapart p (by simp) p (List.mem_cons_of_mem _ hmem) rfl
    rw [hp, List.append_assoc]
    refine linked_append.mpr ⟨hfirst.congr ?_ ?_, hafter.skip hls hh hpl⟩
    · intro x hx
      have hxp : x ≠ p := by
        rw [← List.cons_append, List.nodup_append] at hms
        exact hms.2.2 x hx p (List.mem_singleton_self p)
      exact Function.update_of_ne hxp _ _
    · intro x hx
      have hxq : x ≠ next q := by
        intro heq
        rcases List.mem_append.mp (hafter.next_mem List.mem_cons_self) with hmem | hmem
        · exact hapart x (List.mem_cons_of_mem _ hx) _ (List.mem_cons_of_mem _ hmem) heq
        · rw [List.mem_singleton.mp hmem] at heq
          exact (List.nodup_cons.mp hms).1 (heq ▸ hx)
      exact Function.update_of_ne hxq _ _

/-! ## Rings read backwards -/

omit [DecidableEq A] in
theorem Linked.reverse {a b : A} {cs : List A} (hlinked : Linked next prev a cs b) :
    Linked prev next b cs.reverse a := by
  induction cs generalizing a with
  | nil => exact ⟨hlinked.2, hlinked.1⟩
  | cons c cs ih =>
    rw [List.reverse_cons]
    exact linked_append.mpr ⟨ih hlinked.2, hlinked.1.2, hlinked.1.1⟩

omit [DecidableEq A] in
theorem Ring.reverse {h : A} {ns : List A} (hring : Ring next prev h ns) :
    Ring prev next h ns.reverse := by
  obtain ⟨hh, hns⟩ := List.nodup_cons.mp hring.nodup
  exact ⟨List.nodup_cons.mpr ⟨by simpa using hh, List.nodup_reverse.mpr hns⟩, hring.linked.reverse⟩

/-- **A member is added after the head.** -/
theorem Ring.insertFirst {h q : A} {ns : List A} (hring : Ring next prev h ns)
    (hq : q ∉ h :: ns) :
    Ring (Function.update (Function.update next q (next h)) h q)
      (Function.update (Function.update prev q h) (next h) q) h (q :: ns) := by
  have hback := hring.reverse.insert (q := q) (by simpa using hq)
  simpa using hback.reverse

/-- The members before `b`, joined to another one after them. -/
theorem Linked.redirect {a b c : A} {cs : List A} (hlinked : Linked next prev a cs b)
    (hnodup : (a :: cs).Nodup) (hc : c ∉ cs) :
    Linked (Function.update next (prev b) c) (Function.update prev c (prev b)) a cs c := by
  obtain ⟨ha, hcs⟩ := List.nodup_cons.mp hnodup
  have hback := hlinked.reverse.skip (p := c) (List.nodup_reverse.mpr hcs) (by simpa using ha)
    (by simpa using hc)
  simpa using hback.reverse

/-! ## Rings joined and cut -/

/-- **The members of another ring are added before the head.** Where that ring
is empty its head stands for the first member, and is passed over. -/
theorem Ring.append {h n : A} {ns ms : List A} (hring : Ring next prev h ns)
    (hother : Ring next prev n ms) (hapart : (h :: ns).Disjoint (n :: ms)) {last : A}
    (hlast : last = Function.update prev (next n) (prev h) n) :
    Ring (Function.update (Function.update next (prev h) (next n)) last h)
      (Function.update (Function.update prev (next n) (prev h)) h last) h (ns ++ ms) := by
  have hprev := hring.prev_mem List.mem_cons_self
  have hself : next (prev h) = h := by
    rcases List.eq_nil_or_concat ns with rfl | ⟨ks, p, rfl⟩
    · obtain ⟨hn, hp⟩ := ring_nil.mp hring
      rw [hp, hn]
    · have hlinked := hring.linked
      rw [List.concat_eq_append] at hlinked
      obtain ⟨-, hp, hq⟩ := linked_append.mp hlinked
      rw [hq, hp]
  cases ms with
  | nil =>
    obtain ⟨hn, -⟩ := ring_nil.mp hother
    rw [hn, Function.update_self] at hlast
    subst hlast
    rw [List.append_nil, hn]
    refine hring.congr (fun x hx => ?_) fun x hx => ?_
    · grind [Function.update_apply]
    · have hxn : x ≠ n := fun heq => hapart hx (heq ▸ List.mem_cons_self)
      grind [Function.update_apply]
  | cons m ms =>
    obtain ⟨⟨hn, hm⟩, hlinked⟩ := hother.linked
    obtain ⟨hnms, hms⟩ := List.nodup_cons.mp hother.nodup
    have hne : n ≠ m := fun heq => hnms (heq ▸ List.mem_cons_self)
    rw [hn, Function.update_of_ne hne] at hlast
    subst hlast
    rw [hn]
    have hback : prev n ∈ m :: ms := hlinked.prev_mem (by simp)
    have hdisjoint : ∀ x ∈ h :: ns, x ∉ m :: ms := fun x hx hmem =>
      hapart hx (List.mem_cons_of_mem n hmem)
    have hnodup : (h :: (ns ++ m :: ms)).Nodup := by
      rw [← List.cons_append, List.nodup_append]
      exact ⟨hring.nodup, hms, fun a ha b hb heq => hdisjoint a ha (heq ▸ hb)⟩
    have hhm : h ∉ m :: ms := hdisjoint h List.mem_cons_self
    have hmns : m ∉ ns := fun hmem =>
      hdisjoint m (List.mem_cons_of_mem h hmem) List.mem_cons_self
    refine ⟨hnodup, linked_append.mpr ⟨?_, ?_⟩⟩
    · refine (hring.linked.redirect hring.nodup hmns).congr (fun x hx => ?_) fun x hx => ?_
      · have hxp : x ≠ prev n := fun heq => hdisjoint x hx (heq ▸ hback)
        rw [Function.update_of_ne hxp]
      · have hxh : x ≠ h := by
          rcases List.mem_append.mp hx with hx | hx
          · exact fun heq => (List.nodup_cons.mp hring.nodup).1 (heq ▸ hx)
          · rw [List.mem_singleton.mp hx]
            exact fun heq => hhm (heq ▸ List.mem_cons_self)
        rw [Function.update_of_ne hxh]
    · have hhms : h ∉ ms := fun hmem => hhm (List.mem_cons_of_mem m hmem)
      refine (hlinked.redirect hms hhms).congr (fun x hx => ?_) fun x hx => ?_
      · have hxp : x ≠ prev h := fun heq => hdisjoint x (heq ▸ hprev) hx
        grind [Function.update_apply]
      · have hxm : x ≠ m := by
          rcases List.mem_append.mp hx with hx | hx
          · exact fun heq => (List.nodup_cons.mp hms).1 (heq ▸ hx)
          · rw [List.mem_singleton.mp hx]
            exact fun heq => hhm (heq ▸ List.mem_cons_self)
        grind [Function.update_apply]

/-- **A ring is cut in two**: the members from `q` on go to the head `n`. -/
theorem Ring.split {h q n : A} {ms ks : List A} (hring : Ring next prev h (ms ++ q :: ks))
    (hn : n ∉ h :: (ms ++ q :: ks)) {next' prev' : A → A}
    (hnext : next' = Function.update (Function.update (Function.update next (prev h) n) n q)
      (prev q) h)
    (hprev : prev' = Function.update (Function.update (Function.update prev n (prev h)) h
      (prev q)) q n) :
    Ring next' prev' h ms ∧ Ring next' prev' n (q :: ks) := by
  obtain ⟨hbefore, hafter⟩ := linked_append.mp hring.linked
  have hdistinct := hring.nodup
  rw [← List.cons_append, List.nodup_append] at hdistinct
  obtain ⟨hms, hqks, hapart⟩ := hdistinct
  have hlast : prev h ∈ q :: ks := hafter.prev_mem (by simp)
  have hfront : prev q ∈ h :: ms := hbefore.prev_mem (by simp)
  have hnms : n ∉ h :: ms := fun hmem => hn (by
    rw [← List.cons_append]
    exact List.mem_append_left _ hmem)
  have hnks : n ∉ q :: ks := fun hmem => hn (List.mem_cons_of_mem h (List.mem_append_right ms hmem))
  subst hnext hprev
  refine ⟨⟨hms, ?_⟩, List.nodup_cons.mpr ⟨hnks, hqks⟩, ⟨?_, ?_⟩, ?_⟩
  · refine (hbefore.redirect hms (List.nodup_cons.mp hms).1).congr (fun x hx => ?_) fun x hx => ?_
    · have hxh : x ≠ prev h := fun heq => hapart x hx _ hlast heq
      have hxn : x ≠ n := fun heq => hnms (heq ▸ hx)
      grind [Function.update_apply]
    · have hx : x ∈ h :: ms := by simpa [or_comm] using hx
      have hxq : x ≠ q := fun heq => hapart x hx q List.mem_cons_self heq
      have hxn : x ≠ n := fun heq => hnms (heq ▸ hx)
      grind [Function.update_apply]
  · have hnq : n ≠ prev q := fun heq => hnms (heq ▸ hfront)
    rw [Function.update_of_ne hnq, Function.update_self]
  · rw [Function.update_self]
  · have hnk : n ∉ ks := fun hmem => hnks (List.mem_cons_of_mem q hmem)
    refine (hafter.redirect hqks hnk).congr (fun x hx => ?_) fun x hx => ?_
    · have hxq : x ≠ prev q := fun heq => hapart _ hfront x hx heq.symm
      have hxn : x ≠ n := fun heq => hnks (heq ▸ hx)
      grind [Function.update_apply]
    · have hxq : x ≠ q := by
        rcases List.mem_append.mp hx with hx | hx
        · exact fun heq => (List.nodup_cons.mp hqks).1 (heq ▸ hx)
        · rw [List.mem_singleton.mp hx]
          exact fun heq => hnks (heq ▸ List.mem_cons_self)
      have hxh : x ≠ h := by
        rcases List.mem_append.mp hx with hx | hx
        · exact fun heq => hapart h List.mem_cons_self x (List.mem_cons_of_mem q hx) heq.symm
        · rw [List.mem_singleton.mp hx]
          exact fun heq => hnms (heq ▸ List.mem_cons_self)
      grind [Function.update_apply]

end LinkedRing
