import Mathlib.Data.Finset.Card
import Mathlib.Data.Finset.Range
import Ats.Base.Khash

/-!
# Khash: the table without deletions

Every key lies on its own probe path, with no empty bucket before it. A table
that grows keeps its entries in place when the paths in the larger table lead
back to them.
-/

namespace Ats

open BitSmear Probing

namespace Khash

variable {K V : Type} {hash : K → UInt32} {h : Khash K V}

/-- A bucket that holds an entry. -/
def Live (h : Khash K V) (i : Nat) : Prop := i < h.nBuckets ∧ (h.flags i).empty = false

instance (h : Khash K V) : DecidablePred h.Live := fun _ => inferInstanceAs (Decidable (_ ∧ _))

/-- A bucket that holds an entry for `key`. -/
def Has (h : Khash K V) (key : K) (i : Nat) : Prop := h.Live i ∧ h.keys i = key

/-- The path of a key in a table of a size. -/
def path (hash : K → UInt32) (nBuckets : Nat) (key : K) (s : Nat) : Nat :=
  probe (nBuckets - 1) (hash key).toNat s

/-- **A table that nothing was deleted from.** -/
structure Wf (hash : K → UInt32) (h : Khash K V) : Prop where
  buckets : h.nBuckets = 0 ∧ h.upperBound = 0
    ∨ ∃ k, 2 ≤ k ∧ k ≤ 31 ∧ h.nBuckets = 2 ^ k ∧ h.upperBound = hashUpper (2 ^ k)
  del : ∀ i, i < h.nBuckets → (h.flags i).del = false
  occupied : h.nOccupied = h.size
  load : h.nBuckets < 2 ^ 31 → h.size ≤ h.upperBound
  size : h.size = ((Finset.range h.nBuckets).filter h.Live).card
  reach : ∀ i, h.Live i → ∃ s, s < h.nBuckets ∧ path hash h.nBuckets (h.keys i) s = i
    ∧ ∀ t, t < s → h.Live (path hash h.nBuckets (h.keys i) t)
  inj : ∀ i j, h.Live i → h.Live j → h.keys i = h.keys j → i = j

theorem wf_init (keys : Nat → K) (vals : Nat → V) : (khInit keys vals).Wf hash where
  buckets := Or.inl ⟨rfl, rfl⟩
  del := fun _ h => absurd h (Nat.not_lt_zero _)
  occupied := rfl
  load := fun _ => Nat.le_refl 0
  size := rfl
  reach := fun _ h => absurd h.1 (Nat.not_lt_zero _)
  inj := fun _ _ h => absurd h.1 (Nat.not_lt_zero _)

theorem Has.unique (hw : h.Wf hash) {key : K} {i j : Nat} (hi : h.Has key i) (hj : h.Has key j) :
    i = j :=
  hw.inj i j hi.1 hj.1 (hi.2.trans hj.2.symm)

/-- Fewer than all indices below `m` leave one out. -/
theorem exists_not_of_card_lt {m : Nat} {p : Nat → Prop} [DecidablePred p]
    (h : ((Finset.range m).filter p).card < m) : ∃ i, i < m ∧ ¬ p i := by
  by_contra hnone
  have hall : (Finset.range m).filter p = Finset.range m := by
    apply Finset.filter_true_of_mem
    intro i hi
    by_contra hp
    exact hnone ⟨i, Finset.mem_range.mp hi, hp⟩
  rw [hall, Finset.card_range] at h
  exact Nat.lt_irrefl _ h

/-- A table that is not full has an empty bucket. -/
theorem Wf.exists_empty (hw : h.Wf hash) (hlt : h.size < h.nBuckets) :
    ∃ i, i < h.nBuckets ∧ (h.flags i).empty = true := by
  rw [hw.size] at hlt
  obtain ⟨i, hi, hnot⟩ := exists_not_of_card_lt hlt
  refine ⟨i, hi, ?_⟩
  by_contra hempty
  exact hnot ⟨hi, by simpa using hempty⟩

theorem Wf.two_pow (hw : h.Wf hash) (hne : h.nBuckets ≠ 0) :
    ∃ k, 2 ≤ k ∧ k ≤ 31 ∧ h.nBuckets = 2 ^ k ∧ h.upperBound = hashUpper (2 ^ k) :=
  hw.buckets.resolve_left fun h0 => hne h0.1

theorem path_lt {k : Nat} (hk : k ≤ 31) (key : K) (s : Nat) : path hash (2 ^ k) key s < 2 ^ k :=
  probe_lt (Nat.le_succ_of_le hk) _ _

/-- A path does not come back within the size of the table. -/
theorem Wf.path_injective (hw : h.Wf hash) {key : K} {a b : Nat} (ha : a < h.nBuckets)
    (hb : b < h.nBuckets) (heq : path hash h.nBuckets key a = path hash h.nBuckets key b) :
    a = b := by
  obtain ⟨k, -, hk, hn, -⟩ := hw.two_pow (Nat.ne_of_gt (Nat.zero_lt_of_lt ha))
  rw [hn] at ha hb heq
  exact probe_injective (Nat.le_succ_of_le hk) ha hb heq

/-- What the search of `kh_put` remembers of the buckets it passes: nothing,
where nothing was deleted. -/
theorem Wf.site_kept (hw : h.Wf hash) (hne : h.nBuckets ≠ 0) (key : K) (t : Nat) :
    (if (h.flags (path hash h.nBuckets key t)).del then path hash h.nBuckets key t
      else h.nBuckets) = h.nBuckets := by
  obtain ⟨k, -, hk, hn, -⟩ := hw.two_pow hne
  rw [hw.del _ (hn ▸ path_lt hk key t)]
  rfl

/-! ## Looking up -/

section Lookup

variable [DecidableEq K]

theorem goesOn_false {key : K} {i : Nat} (hi : h.Has key i) (hdel : (h.flags i).del = false) :
    h.goesOn key i = false := by
  simp [goesOn, hdel, hi.2]

theorem goesOn_of_ne {key : K} {i : Nat} (hi : h.Live i) (hne : h.keys i ≠ key) :
    h.goesOn key i = true := by
  simp [goesOn, hi.2, hne]

theorem goesOn_of_empty {key : K} {i : Nat} (hi : (h.flags i).empty = true) :
    h.goesOn key i = false := by
  simp [goesOn, hi]

/-- The walk for a key that is in the table comes to its bucket. -/
theorem Wf.walk_of_has (hw : h.Wf hash) {key : K} {i : Nat} (hi : h.Has key i) {σ : Type}
    (visit : Nat → σ → σ) (a : σ) (hvisit : ∀ t, visit (path hash h.nBuckets key t) a = a) :
    (h.flags (home hash (h.nBuckets - 1) key)).empty = false
      ∧ walk (h.goesOn key) visit (h.nBuckets - 1) (some (home hash (h.nBuckets - 1) key))
          (2 * h.nBuckets) (home hash (h.nBuckets - 1) key) 0 a = some (some i, a) := by
  obtain ⟨s, hs, hat, hbefore⟩ := hw.reach i hi.1
  rw [hi.2] at hat hbefore
  have hpass : ∀ t, t < s → h.goesOn key (path hash h.nBuckets key t) = true := by
    intro t ht
    refine goesOn_of_ne (hbefore t ht) fun hkey => Nat.ne_of_lt ht ?_
    have hsame : path hash h.nBuckets key t = i := Has.unique hw ⟨hbefore t ht, hkey⟩ hi
    exact hw.path_injective (Nat.lt_trans ht hs) hs (hsame.trans hat.symm)
  have hstop : h.goesOn key (path hash h.nBuckets key s) = false := by
    rw [hat]
    exact goesOn_false hi (hw.del i hi.1.1)
  have hlast : ∀ t, 0 < t → t ≤ s →
      some (home hash (h.nBuckets - 1) key) ≠ some (path hash h.nBuckets key t) := by
    intro t hpos hle heq
    have hzero : path hash h.nBuckets key 0 = path hash h.nBuckets key t := Option.some.inj heq
    exact Nat.ne_of_lt hpos (hw.path_injective (by omega) (by omega) hzero)
  constructor
  · rcases Nat.eq_zero_or_pos s with rfl | hpos
    · change path hash h.nBuckets key 0 = i at hat
      exact (hat ▸ hi.1.2 : (h.flags (path hash h.nBuckets key 0)).empty = false)
    · exact (hbefore 0 hpos).2
  · rw [← hat]
    exact walk_stops hpass hstop hlast (fun t _ => hvisit t) (by omega)

/-- **A key that is in the table is found.** -/
theorem Wf.get_of_has (hw : h.Wf hash) {key : K} {i : Nat} (hi : h.Has key i) :
    h.get hash key = some i := by
  have hne : h.nBuckets ≠ 0 := Nat.ne_of_gt (Nat.zero_lt_of_lt hi.1.1)
  obtain ⟨-, hwalk⟩ := hw.walk_of_has hi (fun _ (u : Unit) => u) () fun _ => rfl
  have heither : (h.flags i).either = false := by
    simp [Flag.either, hi.1.2, hw.del i hi.1.1]
  simp [get, hne, hwalk, heither]

/-- The search of `kh_put` for a key that is in the table ends at its bucket. -/
theorem Wf.putSite_of_has (hw : h.Wf hash) {key : K} {i : Nat} (hi : h.Has key i) :
    h.putSite hash key = some i := by
  have hne : h.nBuckets ≠ 0 := Nat.ne_of_gt (Nat.zero_lt_of_lt hi.1.1)
  obtain ⟨hhome, hwalk⟩ := hw.walk_of_has hi
    (fun i site => if (h.flags i).del then i else site) h.nBuckets (hw.site_kept hne key)
  simp [putSite, hhome, hwalk]

/-- The walk for a key that is not in the table. -/
theorem Wf.walk_of_absent (hw : h.Wf hash) {key : K} (habsent : ∀ i, ¬ h.Has key i)
    (hroom : h.size < h.nBuckets) {σ : Type} (visit : Nat → σ → σ) (a : σ)
    (hvisit : ∀ t, visit (path hash h.nBuckets key t) a = a) :
    ∃ s, s < h.nBuckets ∧ (h.flags (path hash h.nBuckets key s)).empty = true
      ∧ (∀ t, t < s → h.Live (path hash h.nBuckets key t))
      ∧ walk (h.goesOn key) visit (h.nBuckets - 1) (some (home hash (h.nBuckets - 1) key))
          (2 * h.nBuckets) (home hash (h.nBuckets - 1) key) 0 a
        = some (some (path hash h.nBuckets key s), a) := by
  obtain ⟨i, hi, hempty⟩ := hw.exists_empty hroom
  obtain ⟨k, -, hk, hn, -⟩ := hw.two_pow (Nat.ne_of_gt (Nat.zero_lt_of_lt hi))
  have hlt : ∀ s, path hash h.nBuckets key s < h.nBuckets := fun s => by
    rw [hn]
    exact path_lt hk key s
  obtain ⟨s, hs, hpass, hstop, hwalk⟩ := walk_first (hash key).toNat
    (some (home hash (2 ^ k - 1) key)) (Nat.le_succ_of_le hk)
    ⟨i, hn ▸ hi, goesOn_of_empty hempty⟩ (fun j hj => (Option.some.inj hj).symm)
    (fun t => hn ▸ hvisit t) (show 2 ^ k ≤ 2 * 2 ^ k by omega)
  rw [← hn] at hs hpass hstop hwalk
  -- the walk goes on at the entries, and stops at nothing else
  have hlive : ∀ j, j < h.nBuckets → (h.goesOn key j = true ↔ h.Live j) := by
    intro j hj
    refine ⟨fun hgo => ⟨hj, ?_⟩, fun hl => goesOn_of_ne hl fun hkey => habsent j ⟨hl, hkey⟩⟩
    by_contra he
    rw [goesOn_of_empty (by simpa using he)] at hgo
    cases hgo
  refine ⟨s, hs, ?_, fun t ht => (hlive _ (hlt t)).mp (hpass t ht), hwalk⟩
  by_contra he
  have hgo := (hlive _ (hlt s)).mpr ⟨hlt s, by simpa using he⟩
  exact absurd (hgo.symm.trans hstop) (by decide)

/-- **A key that is not in the table is not found.** -/
theorem Wf.get_of_absent (hw : h.Wf hash) {key : K} (habsent : ∀ i, ¬ h.Has key i)
    (hroom : h.nBuckets = 0 ∨ h.size < h.nBuckets) : h.get hash key = some h.nBuckets := by
  rcases hroom with hzero | hroom
  · simp [get, hzero]
  · have hne : h.nBuckets ≠ 0 := by omega
    obtain ⟨s, -, hempty, -, hwalk⟩ :=
      hw.walk_of_absent habsent hroom (fun _ (u : Unit) => u) () fun _ => rfl
    have heither : (h.flags (path hash h.nBuckets key s)).either = true := by
      simp [Flag.either, hempty]
    simp [get, hne, hwalk, heither]

/-- The search of `kh_put` for a key that is not in the table ends at the first
empty bucket of its path. -/
theorem Wf.putSite_of_absent (hw : h.Wf hash) {key : K} (habsent : ∀ i, ¬ h.Has key i)
    (hroom : h.size < h.nBuckets) :
    ∃ s, s < h.nBuckets ∧ h.putSite hash key = some (path hash h.nBuckets key s)
      ∧ (h.flags (path hash h.nBuckets key s)).empty = true
      ∧ ∀ t, t < s → h.Live (path hash h.nBuckets key t) := by
  have hne : h.nBuckets ≠ 0 := Nat.ne_of_gt (Nat.zero_lt_of_lt hroom)
  obtain ⟨s, hs, hempty, hlive, hwalk⟩ := hw.walk_of_absent habsent hroom
    (fun i site => if (h.flags i).del then i else site) h.nBuckets (hw.site_kept hne key)
  refine ⟨s, hs, ?_, hempty, hlive⟩
  unfold putSite
  by_cases hhome : (h.flags (home hash (h.nBuckets - 1) key)).empty = true
  · -- the path starts at an empty bucket
    have hzero : s = 0 := by
      by_contra hne
      have hfirst : (h.flags (home hash (h.nBuckets - 1) key)).empty = false :=
        (hlive 0 (Nat.pos_of_ne_zero hne)).2
      rw [hhome] at hfirst
      cases hfirst
    rw [hzero]
    exact if_pos hhome
  · simp [hhome, hwalk]

end Lookup

/-! ## Growing in place -/

/-- In a table of `newBuckets` every entry is found again at its bucket: its
path comes to it over entries of smaller buckets alone. -/
def StaysPut (hash : K → UInt32) (h : Khash K V) (newBuckets : Nat) : Prop :=
  ∀ j, h.Live j → ∃ s, s < newBuckets ∧ path hash newBuckets (h.keys j) s = j
    ∧ ∀ t, t < s → h.Live (path hash newBuckets (h.keys j) t)
      ∧ path hash newBuckets (h.keys j) t < j

instance (hash : K → UInt32) (h : Khash K V) (newBuckets : Nat) :
    Decidable (StaysPut hash h newBuckets) :=
  decidable_of_iff (∀ j, j < h.nBuckets → h.Live j → ∃ s, s < newBuckets
      ∧ path hash newBuckets (h.keys j) s = j ∧ ∀ t, t < s →
        h.Live (path hash newBuckets (h.keys j) t) ∧ path hash newBuckets (h.keys j) t < j)
    ⟨fun hall j hj => hall j hj.1 hj, fun hall j _ hj => hall j hj⟩

/-- The work of `kh_resize` after the buckets below `j`, where all entries
stay. -/
def settled (h : Khash K V) (j : Nat) : Rehash K V where
  flags i := if h.Live i ∧ i < j then { h.flags i with del := true } else h.flags i
  newFlags i := if h.Live i ∧ i < j then ⟨false, false⟩ else freshFlag
  keys := h.keys
  vals := h.vals

theorem settled_succ_of_live {j : Nat} (hj : h.Live j) :
    ((h.settled j).remove j).put j (h.keys j) (h.vals j) = h.settled (j + 1) := by
  unfold settled Rehash.remove Rehash.put
  simp only [Function.update_eq_self, Rehash.mk.injEq, and_true]
  constructor
  · funext i
    rcases Nat.lt_trichotomy i j with hlt | rfl | hlt
    · simp [Function.update_of_ne (Nat.ne_of_lt hlt), hlt, Nat.lt_succ_of_lt hlt]
    · simp [hj]
    · simp [Function.update_of_ne (Nat.ne_of_gt hlt), Nat.not_lt.mpr hlt,
        Nat.not_lt_of_gt hlt]
  · funext i
    rcases Nat.lt_trichotomy i j with hlt | rfl | hlt
    · simp [Function.update_of_ne (Nat.ne_of_lt hlt), hlt, Nat.lt_succ_of_lt hlt]
    · simp [hj, freshFlag]
    · simp [Function.update_of_ne (Nat.ne_of_gt hlt), Nat.not_lt.mpr hlt,
        Nat.not_lt_of_gt hlt]

theorem settled_succ_of_not_live {j : Nat} (hj : ¬ h.Live j) :
    h.settled j = h.settled (j + 1) := by
  have hsame : ∀ i, (h.Live i ∧ i < j) ↔ (h.Live i ∧ i < j + 1) := by
    intro i
    refine ⟨fun hi => ⟨hi.1, Nat.lt_succ_of_lt hi.2⟩, fun hi => ⟨hi.1, ?_⟩⟩
    refine Nat.lt_of_le_of_ne (Nat.le_of_lt_succ hi.2) fun heq => hj (heq ▸ hi.1)
  simp only [settled, hsame]

/-- One bucket: its entry is put back where it was. -/
theorem kickOut_stays {newBuckets j fuel : Nat} (hstay : StaysPut hash h newBuckets)
    (hj : h.Live j) :
    kickOut hash h.nBuckets newBuckets (fuel + 1) ((h.settled j).remove j) (h.keys j) (h.vals j)
      = some (h.settled (j + 1)) := by
  obtain ⟨s, hs, hat, hbefore⟩ := hstay j hj
  have hpass : ∀ t, t < s → (!(((h.settled j).remove j).newFlags
      (path hash newBuckets (h.keys j) t)).empty) = true := by
    intro t ht
    simp [Rehash.remove, settled, hbefore t ht]
  have hstop : (!(((h.settled j).remove j).newFlags
      (path hash newBuckets (h.keys j) s)).empty) = false := by
    rw [hat]
    simp [Rehash.remove, settled, freshFlag]
  have hwalk : walk (fun i => !(((h.settled j).remove j).newFlags i).empty) (fun _ u => u)
      (newBuckets - 1) none newBuckets (home hash (newBuckets - 1) (h.keys j)) 0 ()
      = some (some (path hash newBuckets (h.keys j) s), ()) :=
    walk_stops hpass hstop (fun _ _ _ => (Option.some_ne_none _).symm) (fun _ _ => rfl) hs
  rw [hat] at hwalk
  have htaken : (((h.settled j).remove j).flags j).either = true := by
    simp [Rehash.remove, Flag.either]
  rw [← settled_succ_of_live hj]
  simp [kickOut, hwalk, htaken]

/-- **Rehashing leaves the entries** that stay put. -/
theorem rehash_stays {newBuckets : Nat} (hw : h.Wf hash) (hstay : StaysPut hash h newBuckets)
    (j : Nat) (hj : j ≤ h.nBuckets) :
    rehash hash h.nBuckets newBuckets ⟨h.flags, fun _ => freshFlag, h.keys, h.vals⟩ j
      = some (h.settled j) := by
  induction j with
  | zero => simp [rehash, settled]
  | succ j ih =>
    have hflag : (h.settled j).flags j = h.flags j := by
      simp [settled]
    rw [rehash, ih (Nat.le_of_succ_le hj)]
    simp only [Option.bind_eq_bind, Option.bind_some, hflag]
    by_cases hlive : h.Live j
    · have heither : ¬ (h.flags j).either = true := by
        simp [Flag.either, hlive.2, hw.del j hlive.1]
      rw [if_pos heither]
      exact kickOut_stays hstay hlive
    · have heither : (h.flags j).either = true := by
        have hempty : (h.flags j).empty = true := by
          by_contra he
          exact hlive ⟨hj, by simpa using he⟩
        simp [Flag.either, hempty]
      rw [if_neg (not_not_intro heither), settled_succ_of_not_live hlive]

/-- The table after growing in place. -/
def grown (h : Khash K V) (newBuckets : Nat) : Khash K V where
  nBuckets := newBuckets
  size := h.size
  nOccupied := h.size
  upperBound := hashUpper newBuckets
  flags := (h.settled h.nBuckets).newFlags
  keys := h.keys
  vals := h.vals

theorem live_grown {newBuckets i : Nat} (hle : h.nBuckets ≤ newBuckets) :
    (h.grown newBuckets).Live i ↔ h.Live i := by
  have hflag : ((h.grown newBuckets).flags i).empty = false ↔ h.Live i ∧ i < h.nBuckets := by
    simp only [grown, settled]
    split <;> simp_all [freshFlag]
  unfold Live at hflag ⊢
  rw [hflag]
  exact ⟨fun hi => hi.2.1, fun hi => ⟨Nat.lt_of_lt_of_le hi.1 hle, hi, hi.1⟩⟩

theorem Wf.grown {k : Nat} (hw : h.Wf hash) (h2 : 2 ≤ k) (h31 : k ≤ 31)
    (hle : h.nBuckets ≤ 2 ^ k) (hsize : h.size < hashUpper (2 ^ k))
    (hstay : StaysPut hash h (2 ^ k)) : (h.grown (2 ^ k)).Wf hash where
  buckets := Or.inr ⟨k, h2, h31, rfl, rfl⟩
  del := by
    intro i _
    simp only [Khash.grown, settled]
    split <;> rfl
  occupied := rfl
  load := fun _ => Nat.le_of_lt hsize
  size := by
    change h.size = _
    rw [hw.size]
    congr 1
    ext i
    simp only [Finset.mem_filter, Finset.mem_range, live_grown hle]
    exact ⟨fun hi => ⟨Nat.lt_of_lt_of_le hi.1 hle, hi.2⟩, fun hi => ⟨hi.2.1, hi.2⟩⟩
  reach := by
    intro i hi
    obtain ⟨s, hs, hat, hbefore⟩ := hstay i ((live_grown hle).mp hi)
    exact ⟨s, hs, hat, fun t ht => (live_grown hle).mpr (hbefore t ht).1⟩
  inj := fun i j hi hj => hw.inj i j ((live_grown hle).mp hi) ((live_grown hle).mp hj)

/-! ## The size of a grown table -/

theorem kroundup32_double {k : Nat} (hk : k ≤ 30) : kroundup32 (2 ^ k + 1) = 2 ^ (k + 1) := by
  have hpow : 2 ^ k ≤ 2 ^ 30 := Nat.pow_le_pow_right (by decide) hk
  have hpos : 1 ≤ 2 ^ k := Nat.one_le_two_pow
  have hdouble : 2 ^ (k + 1) = 2 * 2 ^ k := Nat.pow_succ'
  have hpred : (2 ^ k + 1 + 2 ^ 32 - 1) % 2 ^ 32 = 2 ^ k + 1 - 1 := by omega
  have hsmear := smear_pred_add_one (show k < 32 by omega) (show 2 ^ k < 2 ^ k + 1 by omega)
    (by omega)
  rw [kroundup32, hpred, hsmear]
  omega

theorem lt_hashUpper_double {n : Nat} (hn : 1 ≤ n) : n < hashUpper (2 * n) := by
  unfold hashUpper
  omega

/-- `kh_resize` to a size that all entries stay put in. -/
theorem Wf.resize_stays {n k : Nat} (hw : h.Wf hash)
    (hround : (if kroundup32 n < 4 then 4 else kroundup32 n) = 2 ^ k)
    (hsize : h.size < hashUpper (2 ^ k)) (hstay : StaysPut hash h (2 ^ k)) :
    h.resize hash n = some (h.grown (2 ^ k)) := by
  unfold resize
  simp only [hround, ge_iff_le, if_neg (Nat.not_le.mpr hsize)]
  rw [rehash_stays hw hstay h.nBuckets (Nat.le_refl _)]
  rfl

/-- One table has the entries of another, in the same buckets. -/
structure SameEntries (h h' : Khash K V) : Prop where
  size : h'.size = h.size
  live : ∀ i, h'.Live i ↔ h.Live i
  keys : h'.keys = h.keys
  vals : h'.vals = h.vals

theorem SameEntries.refl (h : Khash K V) : SameEntries h h :=
  ⟨rfl, fun _ => Iff.rfl, rfl, rfl⟩

theorem SameEntries.has {h' : Khash K V} (hs : SameEntries h h') {key : K} {i : Nat} :
    h'.Has key i ↔ h.Has key i := by
  unfold Has
  rw [hs.live, hs.keys]

theorem sameEntries_grown {newBuckets : Nat} (hle : h.nBuckets ≤ newBuckets) :
    SameEntries h (h.grown newBuckets) :=
  ⟨rfl, fun _ => live_grown hle, rfl, rfl⟩

theorem Wf.size_le (hw : h.Wf hash) : h.size ≤ h.nBuckets := by
  rw [hw.size]
  exact (Finset.card_filter_le _ _).trans_eq (Finset.card_range _)

/-- Where the table has room for a new key: it grows in place if it grows, and
not all of its `2 ^ 31` buckets are taken when it cannot. -/
structure Room (hash : K → UInt32) (h : Khash K V) : Prop where
  size_lt : h.size < 2 ^ 31
  stays : h.upperBound ≤ h.nOccupied → h.nBuckets < 2 ^ 31 → StaysPut hash h (2 * h.nBuckets)

instance (hash : K → UInt32) (h : Khash K V) : Decidable (h.Room hash) :=
  decidable_of_iff (h.size < 2 ^ 31 ∧ (h.upperBound ≤ h.nOccupied → h.nBuckets < 2 ^ 31 →
      StaysPut hash h (2 * h.nBuckets)))
    ⟨fun hr => ⟨hr.1, hr.2⟩, fun hr => ⟨hr.1, hr.2⟩⟩

/-- What a table is like before a new key is put there. -/
structure Ready (hash : K → UInt32) (h : Khash K V) : Prop extends h.Wf hash where
  size_lt : h.size < h.nBuckets
  load_lt : h.nBuckets < 2 ^ 31 → h.size < h.upperBound

theorem Wf.hashUpper_lt (hw : h.Wf hash) (hne : h.nBuckets ≠ 0) : h.upperBound < h.nBuckets := by
  obtain ⟨k, h2, -, hn, hupper⟩ := hw.two_pow hne
  have hfour : 2 ^ 2 ≤ 2 ^ k := Nat.pow_le_pow_right (by decide) h2
  rw [hn, hupper]
  unfold hashUpper
  omega

theorem Wf.size_lt_buckets (hw : h.Wf hash) (hlt : h.size < 2 ^ 31) :
    h.nBuckets = 0 ∨ h.size < h.nBuckets := by
  have hload := hw.load
  rcases Nat.eq_zero_or_pos h.nBuckets with hn | hpos
  · exact Or.inl hn
  · have hupper := hw.hashUpper_lt (Nat.ne_of_gt hpos)
    omega

/-- A table with no buckets gets four. -/
theorem Wf.makeRoom_first (hw : h.Wf hash) (hn : h.nBuckets = 0) :
    h.makeRoom hash = some (h.grown (2 ^ 2)) ∧ (h.grown (2 ^ 2)).Ready hash := by
  have hle := hw.size_le
  have hocc := hw.occupied
  have hupper : h.upperBound = 0 := by
    rcases hw.buckets with ⟨-, hupper⟩ | ⟨k, -, -, hk, -⟩
    · exact hupper
    · exact absurd (hk.symm.trans hn) (Nat.ne_of_gt (Nat.two_pow_pos k))
  have hspace : h.size < hashUpper (2 ^ 2) := by
    rw [show hashUpper (2 ^ 2) = 3 from rfl]
    omega
  have hstay : StaysPut hash h (2 ^ 2) := fun j hj => by
    have := hj.1
    omega
  have hresize : h.resize hash (h.nBuckets + 1) = some (h.grown (2 ^ 2)) := by
    rw [hn]
    exact hw.resize_stays (by decide) hspace hstay
  constructor
  · unfold Khash.makeRoom
    rw [if_pos (by omega), if_neg (by omega)]
    exact hresize
  · refine ⟨hw.grown (Nat.le_refl 2) (by decide) (by omega) hspace hstay, ?_, fun _ => hspace⟩
    change h.size < 2 ^ 2
    omega

/-- A table of `2 ^ 31` buckets is not asked for twice as many. -/
theorem Wf.makeRoom_last (hw : h.Wf hash) (hn : h.nBuckets = 2 ^ 31)
    (hsize : h.size < 2 ^ 31) : h.makeRoom hash = some h := by
  have hocc := hw.occupied
  unfold Khash.makeRoom
  rcases Nat.lt_or_ge h.nOccupied h.upperBound with hfree | hfull
  · exact if_neg (Nat.not_le.mpr hfree)
  · obtain ⟨k, -, -, hk, hupper⟩ := hw.two_pow (by omega)
    rw [← hk, hn] at hupper
    unfold hashUpper at hupper
    have hshift : h.size <<< 1 % 2 ^ 32 = 2 * h.size := by
      rw [Nat.shiftLeft_eq]
      omega
    have hround : kroundup32 (h.nBuckets + 1) = 0 := by
      rw [hn]
      decide +kernel
    rw [if_pos hfull, hshift, if_neg (by omega)]
    unfold Khash.resize
    simp only [hround]
    apply if_pos
    rw [show hashUpper (if 0 < 4 then 4 else 0) = 3 from rfl]
    omega

/-- A full table of fewer buckets is asked for twice as many, which is enough. -/
theorem Wf.makeRoom_full {k : Nat} (hw : h.Wf hash) (h2 : 2 ≤ k) (hk : k ≤ 30)
    (hn : h.nBuckets = 2 ^ k) (hfull : h.upperBound ≤ h.nOccupied) :
    h.makeRoom hash = h.resize hash (h.nBuckets + 1)
      ∧ (if kroundup32 (h.nBuckets + 1) < 4 then 4 else kroundup32 (h.nBuckets + 1)) = 2 ^ (k + 1)
      ∧ h.size < hashUpper (2 ^ (k + 1)) ∧ h.size < 2 ^ (k + 1) := by
  have hle := hw.size_le
  have hocc := hw.occupied
  have hdouble : 2 ^ (k + 1) = 2 * 2 ^ k := Nat.pow_succ'
  have hcap : 2 ^ k ≤ 2 ^ 30 := Nat.pow_le_pow_right (by decide) hk
  have hfour : 2 ^ 2 ≤ 2 ^ k := Nat.pow_le_pow_right (by decide) h2
  obtain ⟨k', -, -, hk', hupper⟩ := hw.two_pow (by omega)
  rw [← hk', hn] at hupper
  unfold hashUpper at hupper
  have hspace := lt_hashUpper_double (n := 2 ^ k) (by omega)
  rw [← hdouble] at hspace
  have hround : kroundup32 (h.nBuckets + 1) = 2 ^ (k + 1) := by
    rw [hn]
    exact kroundup32_double hk
  have hshift : h.size <<< 1 % 2 ^ 32 = 2 * h.size := by
    rw [Nat.shiftLeft_eq]
    omega
  refine ⟨?_, ?_, by omega, by omega⟩
  · unfold Khash.makeRoom
    rw [if_pos hfull, hshift, if_neg (by omega)]
  · rw [hround, if_neg (by omega)]

/-- A full table of fewer buckets gets twice as many. -/
theorem Wf.makeRoom_double {k : Nat} (hw : h.Wf hash) (h2 : 2 ≤ k) (hk : k ≤ 30)
    (hn : h.nBuckets = 2 ^ k) (hfull : h.upperBound ≤ h.nOccupied)
    (hstay : StaysPut hash h (2 * h.nBuckets)) :
    h.makeRoom hash = some (h.grown (2 ^ (k + 1))) ∧ (h.grown (2 ^ (k + 1))).Ready hash := by
  obtain ⟨hmake, hround, hspace, hlt⟩ := hw.makeRoom_full h2 hk hn hfull
  have hdouble : 2 ^ (k + 1) = 2 * 2 ^ k := Nat.pow_succ'
  rw [hn, ← hdouble] at hstay
  refine ⟨hmake.trans (hw.resize_stays hround hspace hstay), ?_, hlt, fun _ => hspace⟩
  exact hw.grown (by omega) (by omega) (by omega) hspace hstay

/-- **Making room** leaves the entries where they are. -/
theorem Wf.makeRoom_spec (hw : h.Wf hash) (hroom : h.Room hash) :
    ∃ h', h.makeRoom hash = some h' ∧ h'.Ready hash ∧ SameEntries h h' := by
  have hocc := hw.occupied
  have hlt := hroom.size_lt
  rcases Nat.eq_zero_or_pos h.nBuckets with hn | hpos
  · obtain ⟨hmake, hready⟩ := hw.makeRoom_first hn
    exact ⟨_, hmake, hready, sameEntries_grown (by omega)⟩
  have hupper := hw.hashUpper_lt (Nat.ne_of_gt hpos)
  obtain ⟨k, h2, h31, hn, -⟩ := hw.two_pow (Nat.ne_of_gt hpos)
  rcases Nat.lt_or_eq_of_le h31 with hk | rfl
  · have hcap : 2 ^ k ≤ 2 ^ 30 := Nat.pow_le_pow_right (by decide) (Nat.le_of_lt_succ hk)
    rcases Nat.lt_or_ge h.nOccupied h.upperBound with hfree | hfull
    · refine ⟨h, if_neg (Nat.not_le.mpr hfree), ⟨hw, ?_, ?_⟩, SameEntries.refl h⟩ <;> omega
    · obtain ⟨hmake, hready⟩ := hw.makeRoom_double h2 (Nat.le_of_lt_succ hk) hn hfull
        (hroom.stays hfull (by omega))
      refine ⟨_, hmake, hready, sameEntries_grown ?_⟩
      rw [hn]
      exact Nat.pow_le_pow_right (by decide) (Nat.le_succ k)
  · refine ⟨h, hw.makeRoom_last hn hlt, ⟨hw, ?_, ?_⟩, SameEntries.refl h⟩ <;> omega

/-! ## Inserting -/

/-- The table with a key in an empty bucket. -/
def inserted (h : Khash K V) (key : K) (x : Nat) : Khash K V :=
  { h with
    keys := Function.update h.keys x key
    flags := Function.update h.flags x ⟨false, false⟩
    size := h.size + 1
    nOccupied := h.nOccupied + 1 }

theorem live_inserted {key : K} {x i : Nat} (hx : x < h.nBuckets) :
    (h.inserted key x).Live i ↔ i = x ∨ h.Live i := by
  unfold Live Khash.inserted
  rcases Nat.decEq i x with hne | rfl
  · simp [hne]
  · simp [hx]

theorem has_inserted {key key' : K} {x i : Nat} (hx : x < h.nBuckets)
    (hempty : (h.flags x).empty = true) :
    (h.inserted key x).Has key' i ↔ (i = x ∧ key = key') ∨ h.Has key' i := by
  have hxl : ¬ h.Live x := fun hl => absurd (hempty.symm.trans hl.2) (by decide)
  unfold Has
  rw [live_inserted hx]
  rcases Nat.decEq i x with hne | rfl
  · simp [Khash.inserted, hne]
  · simp [Khash.inserted, hxl]

theorem keys_inserted {key : K} {x i : Nat} (hempty : (h.flags x).empty = true) (hi : h.Live i) :
    (h.inserted key x).keys i = h.keys i := by
  have hne : i ≠ x := by
    rintro rfl
    exact absurd (hempty.symm.trans hi.2) (by decide)
  exact Function.update_of_ne hne _ _

/-- One more bucket is in use. -/
theorem card_inserted {key : K} {x : Nat} (hx : x < h.nBuckets)
    (hempty : (h.flags x).empty = true) :
    ((Finset.range h.nBuckets).filter (h.inserted key x).Live).card
      = ((Finset.range h.nBuckets).filter h.Live).card + 1 := by
  have hset : (Finset.range h.nBuckets).filter (h.inserted key x).Live
      = insert x ((Finset.range h.nBuckets).filter h.Live) := by
    ext i
    simp only [Finset.mem_filter, Finset.mem_insert, Finset.mem_range, live_inserted hx]
    constructor
    · rintro ⟨hi, rfl | hl⟩
      · exact Or.inl rfl
      · exact Or.inr ⟨hi, hl⟩
    · rintro (rfl | hi)
      · exact ⟨hx, Or.inl rfl⟩
      · exact ⟨hi.1, Or.inr hi.2⟩
  have hnot : x ∉ (Finset.range h.nBuckets).filter h.Live := by
    intro hmem
    exact absurd (hempty.symm.trans (Finset.mem_filter.mp hmem).2.2) (by decide)
  rw [hset, Finset.card_insert_of_notMem hnot]

/-- **A new key at the first empty bucket of its path.** -/
theorem Ready.inserted {key : K} {s : Nat} (hw : h.Ready hash) (habsent : ∀ i, ¬ h.Has key i)
    (hs : s < h.nBuckets) (hempty : (h.flags (path hash h.nBuckets key s)).empty = true)
    (hbefore : ∀ t, t < s → h.Live (path hash h.nBuckets key t)) :
    (h.inserted key (path hash h.nBuckets key s)).Wf hash := by
  obtain ⟨k, -, hk, hn, -⟩ := hw.two_pow (Nat.ne_of_gt (Nat.zero_lt_of_lt hs))
  have hx : path hash h.nBuckets key s < h.nBuckets := by
    rw [hn]
    exact path_lt hk key s
  generalize hxx : path hash h.nBuckets key s = x at hx hempty
  have hlive : ∀ i, (h.inserted key x).Live i ↔ i = x ∨ h.Live i := fun i => live_inserted hx
  refine ⟨hw.buckets, ?_, congrArg (· + 1) hw.occupied, hw.load_lt, ?_, ?_, ?_⟩
  · intro i hi
    change (Function.update h.flags x _ i).del = false
    rcases Nat.decEq i x with hne | rfl
    · rw [Function.update_of_ne hne]
      exact hw.del i hi
    · rw [Function.update_self]
  · change h.size + 1 = ((Finset.range h.nBuckets).filter (h.inserted key x).Live).card
    rw [card_inserted hx hempty, ← hw.size]
  · intro i hi
    rcases (hlive i).mp hi with rfl | hl
    · have hkey : (h.inserted key i).keys i = key := Function.update_self _ _ _
      rw [hkey]
      exact ⟨s, hs, hxx, fun t ht => (hlive _).mpr (Or.inr (hbefore t ht))⟩
    · rw [keys_inserted hempty hl]
      obtain ⟨t, ht, hat, hpath⟩ := hw.reach i hl
      exact ⟨t, ht, hat, fun u hu => (hlive _).mpr (Or.inr (hpath u hu))⟩
  · intro i j hi hj heq
    have hi' := (has_inserted hx hempty).mp ⟨hi, heq⟩
    have hj' := (has_inserted hx hempty).mp ⟨hj, rfl⟩
    rcases hi' with ⟨rfl, hki⟩ | hi'
    · rcases hj' with ⟨rfl, -⟩ | hj'
      · rfl
      · exact absurd (hki ▸ hj') (habsent j)
    · rcases hj' with ⟨rfl, hkj⟩ | hj'
      · exact absurd (hkj ▸ hi') (habsent i)
      · exact hw.inj i j hi'.1 hj'.1 (hi'.2.trans hj'.2.symm)

/-- **`kh_put` of a new key** in the table that has been made ready. -/
theorem Ready.put_of_absent [DecidableEq K] {g : Khash K V} {key : K} (hg : g.Ready hash)
    (hmake : h.makeRoom hash = some g) (habsent : ∀ i, ¬ g.Has key i) :
    ∃ x, h.put hash key = some (g.inserted key x, x, 1) ∧ (g.inserted key x).Wf hash
      ∧ x < g.nBuckets ∧ (g.flags x).empty = true := by
  obtain ⟨s, hs, hsite, hempty, hbefore⟩ := hg.putSite_of_absent habsent hg.size_lt
  obtain ⟨k, -, hk, hn, -⟩ := hg.two_pow (Nat.ne_of_gt (Nat.zero_lt_of_lt hs))
  have hx : path hash g.nBuckets key s < g.nBuckets := by
    rw [hn]
    exact path_lt hk key s
  refine ⟨_, ?_, hg.inserted habsent hs hempty hbefore, hx, hempty⟩
  simp [put, hmake, hsite, hempty, Khash.inserted]

/-- **`kh_put` of a new key**, where the table has room: the entries stay where
they are and the key takes a bucket of its own. -/
theorem Wf.put_of_absent [DecidableEq K] {key : K} (hw : h.Wf hash) (hroom : h.Room hash)
    (habsent : ∀ i, ¬ h.Has key i) :
    ∃ h' x, h.put hash key = some (h', x, 1) ∧ h'.Wf hash ∧ ¬ h.Live x ∧ h'.vals = h.vals
      ∧ ∀ key' i, h'.Has key' i ↔ (i = x ∧ key = key') ∨ h.Has key' i := by
  obtain ⟨g, hmake, hg, hsame⟩ := hw.makeRoom_spec hroom
  obtain ⟨x, hput, hwf, hx, hempty⟩ := hg.put_of_absent hmake
    fun i hi => habsent i (hsame.has.mp hi)
  refine ⟨_, x, hput, hwf, ?_, hsame.vals, fun key' i => ?_⟩
  · rw [← hsame.live]
    exact fun hl => absurd (hempty.symm.trans hl.2) (by decide)
  · rw [has_inserted hx hempty, hsame.has]

end Khash

end Ats
