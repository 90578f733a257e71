import Ats.Base.KhashResize

/-!
# Khash: the table with deletions

`kh_del` marks a bucket, which stays on the paths that lead over it. `kh_put`
takes the last such bucket it passes, and rehashes the table within its size
where too many have come together.
-/

namespace Ats

open BitSmear Probing

namespace Khash

variable {K V : Type}

section Functions

variable (h : Khash K V)

/-- `kh_exist` -/
def exist (x : Nat) : Bool := !(h.flags x).either

/-- `kh_del` -/
def del (x : Nat) : Khash K V :=
  if x ≠ h.nBuckets ∧ ¬ (h.flags x).either then
    { h with
      flags := Function.update h.flags x { h.flags x with del := true }
      size := h.size - 1 }
  else h

/-- `kh_clear`; a table has `flags` as soon as it has buckets. -/
def clear : Khash K V :=
  if h.nBuckets ≠ 0 then { h with flags := fun _ => freshFlag, size := 0, nOccupied := 0 } else h

/-- What `kh_foreach` goes over. -/
def entries : List (K × V) :=
  ((List.range h.nBuckets).filter h.exist).map fun x => (h.keys x, h.vals x)

end Functions

variable {hash : K → UInt32} {h h' : Khash K V} {key key' : K} {val val' : V} {i x : Nat}

/-- A bucket that holds a key. -/
def Holds (h : Khash K V) (i : Nat) : Prop := i < h.nBuckets ∧ (h.flags i).either = false

instance (h : Khash K V) : DecidablePred h.Holds := fun _ => inferInstanceAs (Decidable (_ ∧ _))

/-- A key and its value are in the table. -/
def Stores (h : Khash K V) (key : K) (val : V) : Prop :=
  ∃ i, h.Holds i ∧ h.keys i = key ∧ h.vals i = val

theorem Holds.live (hi : h.Holds i) : h.Live i := ⟨hi.1, (Bool.or_eq_false_iff.mp hi.2).1⟩

theorem Holds.del (hi : h.Holds i) : (h.flags i).del = false := (Bool.or_eq_false_iff.mp hi.2).2

/-- A bucket in use that holds no key was deleted. -/
theorem Live.del_of_not_holds (hl : h.Live i) (hi : ¬ h.Holds i) : (h.flags i).del = true := by
  by_contra hdel
  exact hi ⟨hl.1, Bool.or_eq_false_iff.mpr ⟨hl.2, by simpa using hdel⟩⟩

/-- **A table, where deleted buckets may lie on the paths.** -/
structure Sound (hash : K → UInt32) (h : Khash K V) : Prop where
  buckets : h.nBuckets = 0 ∧ h.upperBound = 0
    ∨ ∃ k, 2 ≤ k ∧ k ≤ 31 ∧ h.nBuckets = 2 ^ k ∧ h.upperBound = hashUpper (2 ^ k)
  occupied : h.nOccupied = ((Finset.range h.nBuckets).filter h.Live).card
  size : h.size = ((Finset.range h.nBuckets).filter h.Holds).card
  load : h.nBuckets < 2 ^ 31 → h.nOccupied ≤ h.upperBound
  reach : ∀ i, h.Holds i → ∃ s, s < h.nBuckets ∧ path hash h.nBuckets (h.keys i) s = i
    ∧ ∀ t, t < s → h.Live (path hash h.nBuckets (h.keys i) t)
  inj : ∀ i j, h.Holds i → h.Holds j → h.keys i = h.keys j → i = j

theorem Wf.holds_iff (hw : h.Wf hash) : h.Holds i ↔ h.Live i :=
  ⟨Holds.live, fun hl => ⟨hl.1, Bool.or_eq_false_iff.mpr ⟨hl.2, hw.del i hl.1⟩⟩⟩

/-- A table without deletions is one of these. -/
theorem Wf.sound (hw : h.Wf hash) : h.Sound hash where
  buckets := hw.buckets
  occupied := hw.occupied.trans hw.size
  size := by
    rw [hw.size]
    exact congrArg Finset.card (Finset.filter_congr fun i _ => hw.holds_iff.symm)
  load := fun hn => hw.occupied ▸ hw.load hn
  reach := fun i hi => hw.reach i hi.live
  inj := fun i j hi hj => hw.inj i j hi.live hj.live

theorem Wf.stores_iff (hw : h.Wf hash) : h.Stores key val ↔ h.Entry key val := by
  unfold Stores Entry Has
  simp only [hw.holds_iff, and_assoc]

namespace Sound

variable (hs : h.Sound hash)
include hs

theorem two_pow (hne : h.nBuckets ≠ 0) :
    ∃ k, 2 ≤ k ∧ k ≤ 31 ∧ h.nBuckets = 2 ^ k ∧ h.upperBound = hashUpper (2 ^ k) :=
  hs.buckets.resolve_left fun h0 => hne h0.1

theorem size_le_occupied : h.size ≤ h.nOccupied := by
  rw [hs.size, hs.occupied]
  exact Finset.card_le_card (Finset.monotone_filter_right _ fun _ _ => Holds.live)

theorem occupied_le : h.nOccupied ≤ h.nBuckets := by
  rw [hs.occupied]
  exact (Finset.card_filter_le _ _).trans_eq (Finset.card_range _)

theorem nBuckets_le : h.nBuckets ≤ 2 ^ 31 := by
  rcases hs.buckets with ⟨hn, -⟩ | ⟨k, -, hk, hn, -⟩
  · omega
  · rw [hn]
    exact Nat.pow_le_pow_right (by decide) hk

theorem path_lt_buckets (hne : h.nBuckets ≠ 0) (key : K) (s : Nat) :
    path hash h.nBuckets key s < h.nBuckets := by
  obtain ⟨k, -, hk, hn, -⟩ := hs.two_pow hne
  rw [hn]
  exact path_lt hk key s

theorem path_injective {a b : Nat} (ha : a < h.nBuckets) (hb : b < h.nBuckets)
    (heq : path hash h.nBuckets key a = path hash h.nBuckets key b) : a = b := by
  obtain ⟨k, -, hk, hn, -⟩ := hs.two_pow (Nat.ne_of_gt (Nat.zero_lt_of_lt ha))
  rw [hn] at ha hb heq
  exact probe_injective (Nat.le_succ_of_le hk) ha hb heq

end Sound

/-! ## Looking up -/

/-- What the search of `kh_put` has found of the deleted buckets that it has
passed: none, or one of them. -/
theorem visits_site (hash : K → UInt32) (h : Khash K V) (key : K) (n e : Nat) :
    (visits (fun i site => if (h.flags i).del then i else site) (h.nBuckets - 1)
        (hash key).toNat e n = n
      ∧ ∀ t, t < e → (h.flags (path hash h.nBuckets key t)).del = false)
    ∨ ∃ t, t < e ∧ (h.flags (path hash h.nBuckets key t)).del = true
      ∧ visits (fun i site => if (h.flags i).del then i else site) (h.nBuckets - 1)
        (hash key).toNat e n = path hash h.nBuckets key t := by
  induction e with
  | zero => exact .inl ⟨rfl, fun t ht => absurd ht (Nat.not_lt_zero t)⟩
  | succ e ih =>
    by_cases hdel : (h.flags (path hash h.nBuckets key e)).del = true
    · exact .inr ⟨e, Nat.lt_succ_self e, hdel, if_pos hdel⟩
    · have hkeep : visits (fun i site => if (h.flags i).del then i else site) (h.nBuckets - 1)
          (hash key).toNat (e + 1) n
          = visits (fun i site => if (h.flags i).del then i else site) (h.nBuckets - 1)
            (hash key).toNat e n := if_neg hdel
      rw [hkeep]
      refine ih.imp (fun hnone => ⟨hnone.1, fun t ht => ?_⟩) fun ⟨t, ht, hsome⟩ =>
        ⟨t, Nat.lt_succ_of_lt ht, hsome⟩
      rcases Nat.lt_succ_iff_lt_or_eq.mp ht with ht | rfl
      · exact hnone.2 t ht
      · simpa using hdel

section Lookup

variable [DecidableEq K]

theorem goesOn_of_holds (hi : h.Holds i) (hkey : h.keys i = key) : h.goesOn key i = false := by
  simp [goesOn, hi.del, hkey]

/-- The searches go on at a bucket in use that does not hold the key. -/
theorem goesOn_of_live (hl : h.Live i) (hnot : h.Holds i → h.keys i ≠ key) :
    h.goesOn key i = true := by
  by_cases hi : h.Holds i
  · exact goesOn_of_ne hl (hnot hi)
  · simp [goesOn, hl.2, hl.del_of_not_holds hi]

/-- The walk for a key that is in the table comes to its bucket. -/
theorem Sound.walk_of_holds (hs : h.Sound hash) (hi : h.Holds i) (hkey : h.keys i = key)
    {σ : Type} (visit : Nat → σ → σ) (a : σ) :
    (h.flags (home hash (h.nBuckets - 1) key)).empty = false
      ∧ ∃ b, walk (h.goesOn key) visit (h.nBuckets - 1) (some (home hash (h.nBuckets - 1) key))
          (2 * h.nBuckets) (home hash (h.nBuckets - 1) key) 0 a = some (some i, b) := by
  obtain ⟨s, hlt, hat, hbefore⟩ := hs.reach i hi
  rw [hkey] at hat hbefore
  have hpass : ∀ t, t < s → h.goesOn key (path hash h.nBuckets key t) = true := by
    intro t ht
    refine goesOn_of_live (hbefore t ht) fun hh hsame => Nat.ne_of_lt ht ?_
    have hback : path hash h.nBuckets key t = i := hs.inj _ _ hh hi (hsame.trans hkey.symm)
    exact hs.path_injective (Nat.lt_trans ht hlt) hlt (hback.trans hat.symm)
  have hstop : h.goesOn key (path hash h.nBuckets key s) = false := by
    rw [hat]
    exact goesOn_of_holds hi hkey
  have hlast : ∀ t, 0 < t → t ≤ s →
      some (home hash (h.nBuckets - 1) key) ≠ some (path hash h.nBuckets key t) := by
    intro t hpos hle heq
    have hzero : path hash h.nBuckets key 0 = path hash h.nBuckets key t := Option.some.inj heq
    exact Nat.ne_of_lt hpos (hs.path_injective (by omega) (by omega) hzero)
  constructor
  · rcases Nat.eq_zero_or_pos s with rfl | hpos
    · change path hash h.nBuckets key 0 = i at hat
      exact (hat ▸ hi.live.2 : (h.flags (path hash h.nBuckets key 0)).empty = false)
    · exact (hbefore 0 hpos).2
  · rw [← hat]
    exact ⟨_, walk_stops_at hpass hstop hlast (by omega)⟩

/-- **A key that is in the table is found.** -/
theorem Sound.get_of_holds (hs : h.Sound hash) (hi : h.Holds i) (hkey : h.keys i = key) :
    h.get hash key = some i := by
  have hne : h.nBuckets ≠ 0 := Nat.ne_of_gt (Nat.zero_lt_of_lt hi.1)
  obtain ⟨-, b, hwalk⟩ := hs.walk_of_holds hi hkey (fun _ (u : Unit) => u) ()
  simp [get, hne, hwalk, hi.2]

/-- The search of `kh_put` for a key that is in the table ends at its bucket. -/
theorem Sound.putSite_of_holds (hs : h.Sound hash) (hi : h.Holds i) (hkey : h.keys i = key) :
    h.putSite hash key = some i := by
  obtain ⟨hhome, site, hwalk⟩ := hs.walk_of_holds hi hkey
    (fun i site => if (h.flags i).del then i else site) h.nBuckets
  simp [putSite, hhome, hwalk, hi.live.2]

/-- **The walk for a key that is not in the table** ends at the first empty
bucket of its path, or goes around where there is none. -/
theorem Sound.walk_of_absent (hs : h.Sound hash) (hne : h.nBuckets ≠ 0)
    (habsent : ∀ i, h.Holds i → h.keys i ≠ key) {σ : Type} (visit : Nat → σ → σ) (a : σ) :
    (∃ e, e < h.nBuckets ∧ (h.flags (path hash h.nBuckets key e)).empty = true
      ∧ (∀ t, t < e → h.Live (path hash h.nBuckets key t))
      ∧ walk (h.goesOn key) visit (h.nBuckets - 1) (some (home hash (h.nBuckets - 1) key))
          (2 * h.nBuckets) (home hash (h.nBuckets - 1) key) 0 a
        = some (some (path hash h.nBuckets key e),
          visits visit (h.nBuckets - 1) (hash key).toNat e a))
    ∨ (∀ i, i < h.nBuckets → h.Live i)
      ∧ ∃ e, h.nBuckets ≤ e
        ∧ walk (h.goesOn key) visit (h.nBuckets - 1) (some (home hash (h.nBuckets - 1) key))
            (2 * h.nBuckets) (home hash (h.nBuckets - 1) key) 0 a
          = some (none, visits visit (h.nBuckets - 1) (hash key).toNat e a) := by
  obtain ⟨k, -, hk, hn, -⟩ := hs.two_pow hne
  have hlt : ∀ s, path hash h.nBuckets key s < h.nBuckets := hs.path_lt_buckets hne key
  by_cases hempty : ∃ i, i < h.nBuckets ∧ (h.flags i).empty = true
  · obtain ⟨i, hi, hempty⟩ := hempty
    obtain ⟨e, he, hpass, hstop, hwalk⟩ := walk_first_at (hash key).toNat
      (some (home hash (2 ^ k - 1) key)) visit a (Nat.le_succ_of_le hk)
      ⟨i, hn ▸ hi, goesOn_of_empty hempty⟩ (fun j hj => (Option.some.inj hj).symm)
      (show 2 ^ k ≤ 2 * 2 ^ k by omega)
    rw [← hn] at he hpass hstop hwalk
    refine .inl ⟨e, he, ?_, fun t ht => ⟨hlt t, ?_⟩, hwalk⟩
    · by_contra hfull
      have hgo := goesOn_of_live ⟨hlt e, by simpa using hfull⟩ (habsent _)
      exact absurd (hgo.symm.trans hstop) (by decide)
    · by_contra hfree
      have hgo : h.goesOn key (path hash h.nBuckets key t) = false :=
        goesOn_of_empty (by simpa using hfree)
      exact absurd (hgo.symm.trans (hpass t ht)) (by decide)
  · have hlive : ∀ i, i < h.nBuckets → h.Live i := by
      intro i hi
      by_contra hnot
      exact hempty ⟨i, hi, by simpa [Live, hi] using hnot⟩
    obtain ⟨e, he, hwalk⟩ := walk_around_at (hash key).toNat visit a
      (Nat.le_succ_of_le hk) (fun t => goesOn_of_live (hlive _ (hn ▸ hlt t)) (habsent _))
      (Nat.le_refl (2 * 2 ^ k))
    rw [← hn] at he hwalk
    exact .inr ⟨hlive, e, he, hwalk⟩

/-- **A key that is not in the table is not found.** -/
theorem Sound.get_of_absent (hs : h.Sound hash) (habsent : ∀ i, h.Holds i → h.keys i ≠ key) :
    h.get hash key = some h.nBuckets := by
  by_cases hn : h.nBuckets = 0
  · simp [get, hn]
  · rcases hs.walk_of_absent hn habsent (fun _ (u : Unit) => u) () with
      ⟨e, -, hempty, -, hwalk⟩ | ⟨-, e, -, hwalk⟩
    · simp [get, hn, hwalk, Flag.either, hempty]
    · simp [get, hn, hwalk]

/-- **The search of `kh_put` for a key that is not in the table** ends at a
bucket of its path that holds none, with buckets in use before it. -/
theorem Sound.putSite_of_absent (hs : h.Sound hash)
    (habsent : ∀ i, h.Holds i → h.keys i ≠ key) (hroom : h.size < h.nBuckets) :
    ∃ s, s < h.nBuckets ∧ h.putSite hash key = some (path hash h.nBuckets key s)
      ∧ ¬ h.Holds (path hash h.nBuckets key s)
      ∧ ∀ t, t < s → h.Live (path hash h.nBuckets key t) := by
  have hne : h.nBuckets ≠ 0 := Nat.ne_of_gt (Nat.zero_lt_of_lt hroom)
  have hlt : ∀ s, path hash h.nBuckets key s < h.nBuckets := hs.path_lt_buckets hne key
  have hneq : ∀ s, path hash h.nBuckets key s ≠ h.nBuckets := fun s => Nat.ne_of_lt (hlt s)
  by_cases hhome : (h.flags (home hash (h.nBuckets - 1) key)).empty = true
  · -- "for speed up"
    refine ⟨0, by omega, if_pos hhome, fun hi => ?_, fun t ht => absurd ht (Nat.not_lt_zero t)⟩
    exact absurd (hhome.symm.trans hi.live.2) (by decide)
  rcases hs.walk_of_absent hne habsent (fun i site => if (h.flags i).del then i else site)
      h.nBuckets with ⟨e, he, hempty, hlive, hwalk⟩ | ⟨hlive, e, he, hwalk⟩
  · rcases visits_site hash h key h.nBuckets e with
      ⟨hsite, -⟩ | ⟨t, ht, hdel, hsite⟩
    · refine ⟨e, he, ?_, fun hi => absurd (hempty.symm.trans hi.live.2) (by decide), hlive⟩
      rw [hsite] at hwalk
      simp [putSite, hhome, hwalk]
    · refine ⟨t, Nat.lt_trans ht he, ?_, fun hi => absurd (hdel.symm.trans hi.del) (by decide),
        fun u hu => hlive u (Nat.lt_trans hu ht)⟩
      rw [hsite] at hwalk
      simp [putSite, hhome, hwalk, hempty, hneq]
  · -- all buckets are in use, and one of them was deleted
    rcases visits_site hash h key h.nBuckets e with
      ⟨-, hnone⟩ | ⟨t, -, hdel, hsite⟩
    · obtain ⟨k, -, hk, hn, -⟩ := hs.two_pow hne
      rw [hs.size] at hroom
      obtain ⟨i, hi, hnot⟩ := exists_not_of_card_lt hroom
      obtain ⟨t, ht, hat⟩ := exists_probe (hash key).toNat (Nat.le_succ_of_le hk) (hn ▸ hi)
      rw [← hn] at ht hat
      have hdel := hnone t (Nat.lt_of_lt_of_le ht he)
      rw [path, hat, (hlive i hi).del_of_not_holds hnot] at hdel
      cases hdel
    · obtain ⟨k, -, hk, hn, -⟩ := hs.two_pow hne
      obtain ⟨s, hlts, hat⟩ := exists_probe (hash key).toNat (Nat.le_succ_of_le hk) (hn ▸ hlt t)
      rw [← hn] at hlts hat
      have hsame : path hash h.nBuckets key s = path hash h.nBuckets key t := hat
      rw [hsite] at hwalk
      refine ⟨s, hlts, ?_, ?_, fun u _ => hlive _ (hlt u)⟩
      · rw [hsame]
        simp [putSite, hhome, hwalk, hneq]
      · rw [hsame]
        exact fun hi => absurd (hdel.symm.trans hi.del) (by decide)

end Lookup

/-! ## Putting and deleting -/

/-- The table with a key in a bucket that held none. -/
def taken (h : Khash K V) (key : K) (x : Nat) : Khash K V :=
  { h with
    keys := Function.update h.keys x key
    flags := Function.update h.flags x ⟨false, false⟩
    size := h.size + 1
    nOccupied := if (h.flags x).empty then h.nOccupied + 1 else h.nOccupied }

theorem live_taken (hx : x < h.nBuckets) : (h.taken key x).Live i ↔ i = x ∨ h.Live i := by
  unfold Live taken
  rcases Nat.decEq i x with hne | rfl
  · simp [hne]
  · simp [hx]

theorem holds_taken (hx : x < h.nBuckets) : (h.taken key x).Holds i ↔ i = x ∨ h.Holds i := by
  unfold Holds taken
  rcases Nat.decEq i x with hne | rfl
  · simp [hne]
  · simp [hx, Flag.either]

theorem keys_taken (hne : i ≠ x) : (h.taken key x).keys i = h.keys i :=
  Function.update_of_ne hne _ _

theorem filter_taken {p q : Nat → Prop} [DecidablePred p] [DecidablePred q] {n : Nat}
    (hx : x < n) (hq : ∀ i, q i ↔ i = x ∨ p i) :
    (Finset.range n).filter q = insert x ((Finset.range n).filter p) := by
  ext i
  simp only [Finset.mem_filter, Finset.mem_insert, Finset.mem_range, hq]
  constructor
  · rintro ⟨hi, rfl | hp⟩
    · exact .inl rfl
    · exact .inr ⟨hi, hp⟩
  · rintro (rfl | ⟨hi, hp⟩)
    · exact ⟨hx, .inl rfl⟩
    · exact ⟨hi, .inr hp⟩

/-- **A new key at a bucket of its path** that holds none, with buckets in use
before it. -/
theorem Sound.taken {s : Nat} (hs : h.Sound hash)
    (hload : h.nBuckets < 2 ^ 31 → h.nOccupied < h.upperBound)
    (habsent : ∀ i, h.Holds i → h.keys i ≠ key) (hlt : s < h.nBuckets)
    (hnot : ¬ h.Holds (path hash h.nBuckets key s))
    (hbefore : ∀ t, t < s → h.Live (path hash h.nBuckets key t)) :
    (h.taken key (path hash h.nBuckets key s)).Sound hash := by
  have hx : path hash h.nBuckets key s < h.nBuckets :=
    hs.path_lt_buckets (Nat.ne_of_gt (Nat.zero_lt_of_lt hlt)) key s
  generalize hxx : path hash h.nBuckets key s = x at hx hnot
  have hself : (h.taken key x).keys x = key := Function.update_self _ _ _
  have hother : ∀ i, h.Holds i → (h.taken key x).keys i = h.keys i := by
    intro i hi
    refine keys_taken ?_
    rintro rfl
    exact hnot hi
  refine ⟨hs.buckets, ?_, ?_, ?_, ?_, ?_⟩
  · show (if (h.flags x).empty then h.nOccupied + 1 else h.nOccupied)
      = ((Finset.range h.nBuckets).filter (h.taken key x).Live).card
    rw [filter_taken hx fun _ => live_taken hx, hs.occupied]
    split
    case isTrue hempty =>
      rw [Finset.card_insert_of_notMem]
      intro hmem
      exact absurd (hempty.symm.trans (Finset.mem_filter.mp hmem).2.2) (by decide)
    case isFalse hused =>
      rw [Finset.insert_eq_of_mem]
      exact Finset.mem_filter.mpr ⟨Finset.mem_range.mpr hx, hx, by simpa using hused⟩
  · show h.size + 1 = ((Finset.range h.nBuckets).filter (h.taken key x).Holds).card
    rw [filter_taken hx fun _ => holds_taken hx, hs.size, Finset.card_insert_of_notMem]
    exact fun hmem => hnot (Finset.mem_filter.mp hmem).2
  · intro hn
    show (if (h.flags x).empty then h.nOccupied + 1 else h.nOccupied) ≤ h.upperBound
    have hroom := hload hn
    split <;> omega
  · intro i hi
    rcases (holds_taken hx).mp hi with rfl | hi
    · rw [hself]
      exact ⟨s, hlt, hxx, fun t ht => (live_taken hx).mpr (.inr (hbefore t ht))⟩
    · rw [hother i hi]
      obtain ⟨t, ht, hat, hpath⟩ := hs.reach i hi
      exact ⟨t, ht, hat, fun u hu => (live_taken hx).mpr (.inr (hpath u hu))⟩
  · intro i j hi hj heq
    rcases (holds_taken hx).mp hi with hix | hi'
    · rcases (holds_taken hx).mp hj with hjx | hj'
      · exact hix.trans hjx.symm
      · rw [hix, hself, hother j hj'] at heq
        exact absurd heq.symm (habsent j hj')
    · rcases (holds_taken hx).mp hj with hjx | hj'
      · rw [hjx, hself, hother i hi'] at heq
        exact absurd heq (habsent i hi')
      · rw [hother i hi', hother j hj'] at heq
        exact hs.inj i j hi' hj' heq

theorem Sound.setValue (hs : h.Sound hash) : (h.setValue x val).Sound hash :=
  ⟨hs.buckets, hs.occupied, hs.size, hs.load, hs.reach, hs.inj⟩

/-- A value is written at the bucket of its key. -/
theorem Sound.stores_setValue (hs : h.Sound hash) (hx : h.Holds x) :
    (h.setValue x val).Stores key' val'
      ↔ (key' = h.keys x ∧ val' = val) ∨ (key' ≠ h.keys x ∧ h.Stores key' val') := by
  have hvals : ∀ i, i ≠ x → (h.setValue x val).vals i = h.vals i := fun i hi =>
    Function.update_of_ne hi _ _
  have hval : (h.setValue x val).vals x = val := Function.update_self _ _ _
  constructor
  · rintro ⟨i, hi, hkey, hv⟩
    rcases Nat.decEq i x with hne | rfl
    · refine .inr ⟨fun heq => hne (hs.inj i x hi hx (hkey.trans heq)), i, hi, hkey, ?_⟩
      rw [← hvals i hne]
      exact hv
    · exact .inl ⟨hkey.symm, hv.symm.trans hval⟩
  · rintro (⟨rfl, rfl⟩ | ⟨hne, i, hi, hkey, hv⟩)
    · exact ⟨x, hx, rfl, hval⟩
    · refine ⟨i, hi, hkey, (hvals i ?_).trans hv⟩
      rintro rfl
      exact hne hkey.symm

theorem live_del : (h.del x).Live i ↔ h.Live i := by
  unfold del
  split
  · unfold Live
    rcases Nat.decEq i x with hne | rfl
    · simp [hne]
    · simp
  · exact Iff.rfl

theorem holds_del (hx : h.Holds x) : (h.del x).Holds i ↔ h.Holds i ∧ i ≠ x := by
  unfold del
  rw [if_pos ⟨Nat.ne_of_lt hx.1, by simp [hx.2]⟩]
  unfold Holds
  rcases Nat.decEq i x with hne | rfl
  · simp [hne]
  · simp [Flag.either]

/-- **`kh_del`** of a bucket that holds a key. -/
theorem Sound.del (hs : h.Sound hash) (hx : h.Holds x) : (h.del x).Sound hash := by
  have hdel : h.del x = { h with
      flags := Function.update h.flags x { h.flags x with del := true }
      size := h.size - 1 } := if_pos ⟨Nat.ne_of_lt hx.1, by simp [hx.2]⟩
  have hn : (h.del x).nBuckets = h.nBuckets := by rw [hdel]
  have hupper : (h.del x).upperBound = h.upperBound := by rw [hdel]
  have hocc : (h.del x).nOccupied = h.nOccupied := by rw [hdel]
  have hkeys : (h.del x).keys = h.keys := by rw [hdel]
  have hsize : (h.del x).size = h.size - 1 := by rw [hdel]
  refine ⟨?_, ?_, ?_, ?_, ?_, ?_⟩
  · rw [hn, hupper]
    exact hs.buckets
  · rw [hn, hocc, hs.occupied]
    exact congrArg Finset.card (Finset.filter_congr fun i _ => live_del.symm)
  · have herase : (Finset.range h.nBuckets).filter (h.del x).Holds
        = ((Finset.range h.nBuckets).filter h.Holds).erase x := by
      ext i
      simp only [Finset.mem_filter, Finset.mem_erase, holds_del hx]
      tauto
    rw [hn, hsize, herase, hs.size, Finset.card_erase_of_mem]
    exact Finset.mem_filter.mpr ⟨Finset.mem_range.mpr hx.1, hx⟩
  · rw [hn, hocc, hupper]
    exact hs.load
  · intro i hi
    rw [hn, hkeys]
    obtain ⟨s, hlt, hat, hbefore⟩ := hs.reach i ((holds_del hx).mp hi).1
    exact ⟨s, hlt, hat, fun t ht => live_del.mpr (hbefore t ht)⟩
  · intro i j hi hj heq
    rw [hkeys] at heq
    exact hs.inj i j ((holds_del hx).mp hi).1 ((holds_del hx).mp hj).1 heq

theorem Sound.stores_del (hs : h.Sound hash) (hx : h.Holds x) :
    (h.del x).Stores key val ↔ h.Stores key val ∧ key ≠ h.keys x := by
  have hsame : (h.del x).keys = h.keys ∧ (h.del x).vals = h.vals := by
    unfold Khash.del
    split <;> exact ⟨rfl, rfl⟩
  constructor
  · rintro ⟨i, hi, hkey, hval⟩
    rw [hsame.1] at hkey
    rw [hsame.2] at hval
    obtain ⟨hi, hne⟩ := (holds_del hx).mp hi
    exact ⟨⟨i, hi, hkey, hval⟩, fun heq => hne (hs.inj i x hi hx (hkey.trans heq))⟩
  · rintro ⟨⟨i, hi, hkey, hval⟩, hne⟩
    refine ⟨i, (holds_del hx).mpr ⟨hi, ?_⟩, ?_, ?_⟩
    · rintro rfl
      exact hne hkey.symm
    · rw [hsame.1]
      exact hkey
    · rw [hsame.2]
      exact hval

/-- **`kh_clear`** leaves a table that holds nothing. -/
theorem Sound.clear (hs : h.Sound hash) :
    h.clear.Sound hash ∧ (∀ key val, ¬ h.clear.Stores key val)
      ∧ h.clear.nBuckets = h.nBuckets := by
  unfold Khash.clear
  split
  case isTrue hne =>
    have hlive : ∀ i, ¬ Live { h with flags := fun _ => freshFlag, size := 0, nOccupied := 0 } i :=
      fun i hi => absurd hi.2 (by simp [freshFlag])
    refine ⟨⟨hs.buckets, ?_, ?_, fun _ => Nat.zero_le _, fun i hi => absurd hi.live (hlive i),
      fun i _ hi => absurd hi.live (hlive i)⟩, fun key val hst => ?_, rfl⟩
    · exact (Finset.card_eq_zero.mpr (Finset.filter_false_of_mem fun i _ => hlive i)).symm
    · exact (Finset.card_eq_zero.mpr
        (Finset.filter_false_of_mem fun i _ hi => hlive i (Holds.live hi))).symm
    · obtain ⟨i, hi, -⟩ := hst
      exact hlive i hi.live
  case isFalse hzero =>
    refine ⟨hs, fun key val hst => ?_, rfl⟩
    obtain ⟨i, hi, -⟩ := hst
    have hlt := hi.1
    omega

/-! ## Rehashing -/

/-- The number of buckets that `kh_resize` goes for. -/
theorem kroundup32_two_pow {n : Nat} (hn : n < 2 ^ 32) :
    ∃ k, 2 ≤ k ∧ k ≤ 31 ∧ (if kroundup32 n < 4 then 4 else kroundup32 n) = 2 ^ k
      ∧ ∀ j, 2 ≤ j → j ≤ 31 → n ≤ 2 ^ j → k ≤ j := by
  have hsmall : kroundup32 n < 4 → ∃ k, 2 ≤ k ∧ k ≤ 31
      ∧ (if kroundup32 n < 4 then 4 else kroundup32 n) = 2 ^ k
      ∧ ∀ j, 2 ≤ j → j ≤ 31 → n ≤ 2 ^ j → k ≤ j := fun hlt =>
    ⟨2, Nat.le_refl 2, by decide, if_pos hlt, fun j hj _ _ => hj⟩
  rcases Nat.lt_or_ge n 2 with htwo | htwo
  · refine hsmall ?_
    obtain rfl | rfl : n = 0 ∨ n = 1 := by omega
    · decide +kernel
    · decide +kernel
  · obtain ⟨k, hbelow, habove⟩ : ∃ k, 2 ^ k < n ∧ n ≤ 2 ^ (k + 1) := by
      have hle := Nat.log2_self_le (show n - 1 ≠ 0 by omega)
      have hlt := @Nat.lt_log2_self (n - 1)
      exact ⟨(n - 1).log2, by omega, by omega⟩
    have hk32 : k < 32 := (Nat.pow_lt_pow_iff_right (by decide : 1 < 2)).mp (Nat.lt_trans hbelow hn)
    have hpred : (n + 2 ^ 32 - 1) % 2 ^ 32 = n - 1 := by omega
    have hround : kroundup32 n = 2 ^ (k + 1) % 2 ^ 32 := by
      rw [kroundup32, hpred, smear_pred_add_one hk32 hbelow habove]
    rcases Nat.lt_or_eq_of_le (Nat.le_of_lt_succ hk32) with hk31 | rfl
    · have hle : 2 ^ (k + 1) ≤ 2 ^ 31 := Nat.pow_le_pow_right (by decide) hk31
      rw [Nat.mod_eq_of_lt (by omega)] at hround
      by_cases hlt : kroundup32 n < 4
      · exact hsmall hlt
      · refine ⟨k + 1, ?_, hk31, by rw [if_neg hlt, hround], fun j _ _ hj => ?_⟩
        · rw [hround] at hlt
          by_contra hk1
          have hone : 2 ^ (k + 1) ≤ 2 ^ 1 := Nat.pow_le_pow_right (by decide) (by omega)
          omega
        · exact (Nat.pow_lt_pow_iff_right (by decide : 1 < 2)).mp (Nat.lt_of_lt_of_le hbelow hj)
    · exact hsmall (by rw [hround]; decide)

/-- Two tables hold the same keys with the same values. -/
structure SameStores (h h' : Khash K V) : Prop where
  size : h'.size = h.size
  stores : ∀ key val, h'.Stores key val ↔ h.Stores key val

theorem SameStores.refl (h : Khash K V) : SameStores h h := ⟨rfl, fun _ _ => Iff.rfl⟩

/-- What the table holds is in the old table as the rehashing starts. -/
theorem Sound.moving (hs : h.Sound hash) (m : Nat) :
    Moving hash h.nBuckets m h.size h.Stores
      ⟨h.flags, fun _ => freshFlag, h.keys, h.vals⟩ [] := by
  have hnew : ∀ i, ¬ Rehash.New m ⟨h.flags, fun _ => freshFlag, h.keys, h.vals⟩ i :=
    fun i hi => absurd hi.2 (by simp [freshFlag])
  refine ⟨fun _ => rfl, fun i _ => hnew i, fun i hi => absurd hi (hnew i), fun i j hi hj =>
    hs.inj i j (hi.resolve_right (hnew i)) (hj.resolve_right (hnew j)),
    fun i _ p hp => absurd hp List.not_mem_nil, List.nodup_nil, fun key val => ⟨?_, ?_⟩, ?_⟩
  · rintro ⟨i, hi, hkey, hval⟩
    exact .inl ⟨i, .inl hi, hkey, hval⟩
  · rintro (⟨i, hi, hkey, hval⟩ | hp)
    · exact ⟨i, hi.resolve_right (hnew i), hkey, hval⟩
    · exact absurd hp List.not_mem_nil
  · unfold Rehash.oldCount Rehash.newCount
    rw [Finset.filter_false_of_mem fun i _ => hnew i, Finset.card_empty, List.length_nil, hs.size]
    rfl

theorem hashUpper_le {k : Nat} (hk : 2 ≤ k) : hashUpper (2 ^ k) < 2 ^ k := by
  have hfour : 2 ^ 2 ≤ 2 ^ k := Nat.pow_le_pow_right (by decide) hk
  unfold hashUpper
  omega

/-- **A rehashed table** has no deleted buckets, and holds what it held. -/
theorem Sound.resize_rehash {k target : Nat} (hs : h.Sound hash) (h2 : 2 ≤ k) (hk : k ≤ 31)
    (hround : (if kroundup32 target < 4 then 4 else kroundup32 target) = 2 ^ k)
    (hsize : h.size < hashUpper (2 ^ k)) :
    ∃ h', h.resize hash target = some h' ∧ h'.Wf hash ∧ h'.nBuckets = 2 ^ k
      ∧ h'.upperBound = hashUpper (2 ^ k) ∧ SameStores h h' := by
  have hle := Nat.le_of_lt (Nat.lt_trans hsize (hashUpper_le h2))
  obtain ⟨r, hrun, hm, hdone⟩ := rehash_spec hk hle (hs.moving (2 ^ k)) h.nBuckets (Nat.le_refl _)
  obtain ⟨hwf, hentry⟩ := hm.wf h2 hk (fun i hi => hdone i hi.1 hi) hsize
  refine ⟨_, ?_, hwf, rfl, rfl, rfl, fun key val => hwf.stores_iff.trans (hentry key val)⟩
  unfold resize
  simp only [hround, ge_iff_le, if_neg (Nat.not_le.mpr hsize), hrun, Option.bind_eq_bind,
    Option.bind_some]

/-- **`kh_resize`** to any size. -/
theorem Sound.resize {target : Nat} (hs : h.Sound hash) (ht : target < 2 ^ 32) :
    ∃ h', h.resize hash target = some h' ∧ h'.Sound hash ∧ SameStores h h'
      ∧ ∀ j, 2 ≤ j → j ≤ 31 → target ≤ 2 ^ j → h'.nBuckets ≤ max h.nBuckets (2 ^ j) := by
  obtain ⟨k, h2, hk, hround, hleast⟩ := kroundup32_two_pow ht
  by_cases hsize : h.size < hashUpper (2 ^ k)
  · obtain ⟨h', hrun, hwf, hn, -, hsame⟩ := hs.resize_rehash h2 hk hround hsize
    refine ⟨h', hrun, hwf.sound, hsame, fun j h2j hj htj => ?_⟩
    rw [hn]
    exact Nat.le_trans (Nat.pow_le_pow_right (by decide) (hleast j h2j hj htj))
      (Nat.le_max_right _ _)
  · refine ⟨h, ?_, hs, .refl h, fun j _ _ _ => Nat.le_max_left _ _⟩
    unfold Khash.resize
    simp only [hround, ge_iff_le, if_pos (Nat.not_lt.mp hsize)]

/-- What a table is like before a new key is put there. -/
structure HasRoom (h : Khash K V) : Prop where
  size_lt : h.size < h.nBuckets
  load_lt : h.nBuckets < 2 ^ 31 → h.nOccupied < h.upperBound

/-- A table that was just rehashed has room. -/
theorem Wf.hasRoom {k : Nat} (hw : h.Wf hash) (h2 : 2 ≤ k) (hn : h.nBuckets = 2 ^ k)
    (hupper : h.upperBound = hashUpper (2 ^ k)) (hsize : h.size < hashUpper (2 ^ k)) :
    h.HasRoom := by
  have hlt := hashUpper_le h2
  have hocc := hw.occupied
  exact ⟨by omega, fun _ => by omega⟩

/-- **Making room** keeps what the table holds. It takes twice the buckets only
where half of them hold keys. -/
theorem Sound.makeRoom (hs : h.Sound hash) (hlt : h.size < 2 ^ 31) :
    ∃ h', h.makeRoom hash = some h' ∧ h'.Sound hash ∧ SameStores h h' ∧ h'.HasRoom
      ∧ h'.nBuckets ≤ max h.nBuckets (max 4 (4 * h.size)) := by
  have hle := hs.size_le_occupied
  have hall := hs.occupied_le
  have hshift : h.size <<< 1 % 2 ^ 32 = 2 * h.size := by
    rw [Nat.shiftLeft_eq]
    omega
  rcases Nat.lt_or_ge h.nOccupied h.upperBound with hfree | hfull
  · have hstay : h.makeRoom hash = some h := if_neg (Nat.not_le.mpr hfree)
    refine ⟨h, hstay, hs, .refl h, ⟨?_, fun _ => hfree⟩, Nat.le_max_left _ _⟩
    rcases hs.buckets with ⟨-, hzero⟩ | ⟨k, h2, -, hn, hupper⟩
    · omega
    · have hbelow := hashUpper_le h2
      omega
  have hrehash : ∀ target k, h.makeRoom hash = h.resize hash target → 2 ≤ k → k ≤ 31 →
      (if kroundup32 target < 4 then 4 else kroundup32 target) = 2 ^ k →
      h.size < hashUpper (2 ^ k) → 2 ^ k ≤ max h.nBuckets (max 4 (4 * h.size)) →
      ∃ h', h.makeRoom hash = some h' ∧ h'.Sound hash ∧ SameStores h h' ∧ h'.HasRoom
        ∧ h'.nBuckets ≤ max h.nBuckets (max 4 (4 * h.size)) := by
    intro target k hmake h2 hk hround hsize hbound
    obtain ⟨h', hrun, hwf, hn, hupper, hsame⟩ := hs.resize_rehash h2 hk hround hsize
    exact ⟨h', hmake.trans hrun, hwf.sound, hsame,
      hwf.hasRoom h2 hn hupper (hsame.size.symm ▸ hsize), hn.symm ▸ hbound⟩
  rcases hs.buckets with ⟨hn, hupper⟩ | ⟨k, h2, h31, hn, hupper⟩
  · -- the first buckets
    refine hrehash (h.nBuckets + 1) 2 ?_ (Nat.le_refl 2) (by decide) ?_ ?_ ?_
    · rw [Khash.makeRoom, if_pos hfull, if_neg (by omega)]
    · rw [hn]
      decide +kernel
    · rw [show hashUpper (2 ^ 2) = 3 from rfl]
      omega
    · omega
  have hfour : 2 ^ 2 ≤ 2 ^ k := Nat.pow_le_pow_right (by decide) h2
  by_cases hfew : h.nBuckets > 2 * h.size
  · -- "clear 'deleted' elements"
    have hround : kroundup32 (h.nBuckets - 1) = 2 ^ k := by
      obtain ⟨j, rfl⟩ : ∃ j, k = j + 1 := ⟨k - 1, by omega⟩
      have hcap : 2 ^ (j + 1) ≤ 2 ^ 31 := Nat.pow_le_pow_right (by decide) h31
      have hdouble : 2 ^ (j + 1) = 2 * 2 ^ j := Nat.pow_succ'
      have hpred : (2 ^ (j + 1) - 1 + 2 ^ 32 - 1) % 2 ^ 32 = 2 ^ (j + 1) - 1 - 1 := by omega
      rw [hn, kroundup32, hpred, smear_pred_add_one (show j < 32 by omega)
        (show 2 ^ j < 2 ^ (j + 1) - 1 by omega) (by omega)]
      omega
    refine hrehash (h.nBuckets - 1) k ?_ h2 h31 ?_ ?_ ?_
    · rw [Khash.makeRoom, if_pos hfull, hshift, if_pos hfew]
    · rw [hround, if_neg (by omega)]
    · unfold hashUpper
      omega
    · omega
  · rcases Nat.lt_or_eq_of_le h31 with hk | rfl
    · -- "expand the hash table"
      have hround : kroundup32 (h.nBuckets + 1) = 2 ^ (k + 1) := by
        rw [hn]
        exact kroundup32_double (Nat.le_of_lt_succ hk)
      have hdouble : 2 ^ (k + 1) = 2 * 2 ^ k := Nat.pow_succ'
      have hspace := lt_hashUpper_double (n := 2 ^ k) (by omega)
      rw [← hdouble] at hspace
      refine hrehash (h.nBuckets + 1) (k + 1) ?_ (by omega) hk ?_ (by omega)
        (by omega)
      · rw [Khash.makeRoom, if_pos hfull, hshift, if_neg hfew]
      · rw [hround, if_neg (by omega)]
    · -- the largest table does not grow
      have hround : kroundup32 (h.nBuckets + 1) = 0 := by
        rw [hn]
        decide +kernel
      have hmake : h.makeRoom hash = some h := by
        rw [Khash.makeRoom, if_pos hfull, hshift, if_neg hfew]
        unfold Khash.resize
        rw [hround]
        apply if_pos
        rw [show hashUpper (if 0 < 4 then 4 else 0) = 3 from rfl]
        omega
      exact ⟨h, hmake, hs, .refl h, ⟨by omega, fun hlt => by omega⟩, Nat.le_max_left _ _⟩

/-! ## The largest table -/

/-- A table of `2 ^ 31` keys is full, and nothing in it was deleted. -/
theorem Sound.full (hs : h.Sound hash) (hsize : h.size = 2 ^ 31) : h.Full hash := by
  have hle := hs.size_le_occupied
  have hocc := hs.occupied_le
  have hmax := hs.nBuckets_le
  have hn : h.nBuckets = 2 ^ 31 := by omega
  have hall : ∀ i, i < h.nBuckets → h.Holds i := by
    have hcard := hs.size
    rw [hsize, ← hn] at hcard
    have hfilter := Finset.eq_of_subset_of_card_le
      (Finset.filter_subset h.Holds (Finset.range h.nBuckets))
      ((Finset.card_range _).trans_le (Nat.le_of_eq hcard))
    exact fun i hi => (Finset.mem_filter.mp (hfilter ▸ Finset.mem_range.mpr hi)).2
  have hlive : ∀ i, h.Live i ↔ h.Holds i := fun i => ⟨fun hl => hall i hl.1, Holds.live⟩
  refine ⟨⟨hs.buckets, fun i hi => (hall i hi).del, by omega, fun hlt => by omega, ?_,
    fun i hi => hs.reach i (hall i hi.1), fun i j hi hj => hs.inj i j (hall i hi.1) (hall j hj.1)⟩,
    hn, fun i hi => (hall i (hn ▸ hi)).live⟩
  rw [hs.size]
  exact congrArg Finset.card (Finset.filter_congr fun i _ => (hlive i).symm)

section Put

variable [DecidableEq K]

/-- What `kh_put` does at the bucket that its search ends at. -/
theorem put_of_site {g : Khash K V} (hmake : h.makeRoom hash = some g)
    (hsite : g.putSite hash key = some x) :
    (g.Holds x → h.put hash key = some (g, x, 0))
      ∧ (x < g.nBuckets → ¬ g.Holds x →
        ∃ ret, 0 < ret ∧ h.put hash key = some (g.taken key x, x, ret)) := by
  refine ⟨fun hx => ?_, fun hx hnot => ?_⟩
  · simp [put, hmake, hsite, hx.live.2, hx.del]
  · by_cases hempty : (g.flags x).empty = true
    · exact ⟨1, by decide, by simp [put, hmake, hsite, hempty, Khash.taken]⟩
    · have hlive : g.Live x := ⟨hx, by simpa using hempty⟩
      exact ⟨2, by decide, by
        simp [put, hmake, hsite, hlive.2, hlive.del_of_not_holds hnot, Khash.taken]⟩

/-- **`kh_put`, and the value that the caller writes**, for a key that is in
the table, or where there is room for one more. -/
theorem Sound.put_spec (hs : h.Sound hash) (val : V)
    (hcase : (∃ v, h.Stores key v) ∨ h.size < 2 ^ 31) :
    ∃ g x ret, h.put hash key = some (g, x, ret) ∧ (0 < ret ↔ ¬ ∃ v, h.Stores key v)
      ∧ (g.setValue x val).Sound hash
      ∧ (∀ key' val', (g.setValue x val).Stores key' val'
        ↔ (key' = key ∧ val' = val) ∨ (key' ≠ key ∧ h.Stores key' val'))
      ∧ g.nBuckets ≤ max h.nBuckets (max 4 (4 * h.size)) := by
  obtain ⟨g, hmake, hg, hsame, hroom, hbound⟩ : ∃ g, h.makeRoom hash = some g ∧ g.Sound hash
      ∧ SameStores h g ∧ (h.size < 2 ^ 31 → g.HasRoom)
      ∧ g.nBuckets ≤ max h.nBuckets (max 4 (4 * h.size)) := by
    have hmax := Nat.le_trans hs.size_le_occupied (Nat.le_trans hs.occupied_le hs.nBuckets_le)
    rcases Nat.lt_or_eq_of_le hmax with hlt | hsize
    · obtain ⟨g, hmake, hg, hsame, hroom, hbound⟩ := hs.makeRoom hlt
      exact ⟨g, hmake, hg, hsame, fun _ => hroom, hbound⟩
    · exact ⟨h, (hs.full hsize).makeRoom_eq hsize, hs, .refl h, fun hlt => by omega,
        Nat.le_max_left _ _⟩
  by_cases hhas : ∃ i, g.Holds i ∧ g.keys i = key
  · obtain ⟨i, hi, hkey⟩ := hhas
    have hput := (put_of_site hmake (hg.putSite_of_holds hi hkey)).1 hi
    have hstored : ∃ v, h.Stores key v := ⟨g.vals i, (hsame.stores _ _).mp ⟨i, hi, hkey, rfl⟩⟩
    refine ⟨g, i, 0, hput, iff_of_false (Nat.lt_irrefl 0) (not_not_intro hstored), hg.setValue,
      fun key' val' => ?_, hbound⟩
    rw [hg.stores_setValue hi, hkey, hsame.stores]
  · have habsent : ∀ i, g.Holds i → g.keys i ≠ key := fun i hi hkey => hhas ⟨i, hi, hkey⟩
    have hnone : ¬ ∃ v, h.Stores key v := by
      rintro ⟨v, hv⟩
      obtain ⟨i, hi, hkey, -⟩ := (hsame.stores key v).mpr hv
      exact habsent i hi hkey
    have hroom := hroom (hcase.resolve_left hnone)
    obtain ⟨s, hlt, hsite, hnot, hbefore⟩ := hg.putSite_of_absent habsent hroom.size_lt
    have hx := hg.path_lt_buckets (Nat.ne_of_gt (Nat.zero_lt_of_lt hlt)) key s
    obtain ⟨ret, hret, hput⟩ := (put_of_site hmake hsite).2 hx hnot
    have htaken := hg.taken hroom.load_lt habsent hlt hnot hbefore
    refine ⟨_, _, ret, hput, iff_of_true hret hnone, htaken.setValue, fun key' val' => ?_, hbound⟩
    have hself : (g.taken key (path hash g.nBuckets key s)).keys (path hash g.nBuckets key s)
        = key := Function.update_self _ _ _
    rw [htaken.stores_setValue ((holds_taken hx).mpr (.inl rfl)), hself, ← hsame.stores]
    refine or_congr Iff.rfl (and_congr_right fun hne => ⟨?_, ?_⟩)
    · rintro ⟨i, hi, hkey, hval⟩
      rcases (holds_taken hx).mp hi with rfl | hi
      · exact absurd (hkey.symm.trans hself) hne
      · refine ⟨i, hi, (keys_taken ?_).symm.trans hkey, hval⟩
        rintro rfl
        exact hnot hi
    · rintro ⟨i, hi, hkey, hval⟩
      refine ⟨i, (holds_taken hx).mpr (.inr hi), (keys_taken ?_).trans hkey, hval⟩
      rintro rfl
      exact hnot hi

/-- **`kh_put` of a key that the full table does not have** answers as if it
had it, with the bucket of another one. -/
theorem Sound.put_full (hs : h.Sound hash) (hsize : h.size = 2 ^ 31)
    (habsent : ∀ i, h.Holds i → h.keys i ≠ key) :
    ∃ x, h.put hash key = some (h, x, 0) ∧ h.Holds x := by
  have hf := hs.full hsize
  have hn := hf.nBuckets
  have hne : h.nBuckets ≠ 0 := by omega
  have hhold : ∀ s, h.Holds (path hash h.nBuckets key s) := fun s =>
    hf.toWf.holds_iff.mpr (hf.all _ (hn ▸ hs.path_lt_buckets hne key s))
  have hsite : h.putSite hash key = some (path hash h.nBuckets key 0) := by
    have hhome : (h.flags (home hash (h.nBuckets - 1) key)).empty = false := (hhold 0).live.2
    rcases hs.walk_of_absent hne habsent (fun i site => if (h.flags i).del then i else site)
        h.nBuckets with ⟨e, -, hempty, -⟩ | ⟨-, e, -, hwalk⟩
    · exact absurd (hempty.symm.trans (hhold e).live.2) (by decide)
    · rcases visits_site hash h key h.nBuckets e with ⟨hnone, -⟩ | ⟨t, -, hdel, -⟩
      · rw [hnone] at hwalk
        simp [putSite, hhome, hwalk]
        rfl
      · exact absurd (hdel.symm.trans (hhold t).del) (by decide)
  exact ⟨_, (put_of_site (hf.makeRoom_eq hsize) hsite).1 (hhold 0), hhold 0⟩

end Put

end Khash

end Ats
