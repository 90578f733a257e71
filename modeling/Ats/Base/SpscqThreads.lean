import Ats.Base.Spscq
import Ats.Lib.GuardedRun

/-!
# SpscqThreads: producer and consumer, load by load

One thread runs `spscq_push`, one `spscq_pop` or `spscq_peek`, on the same
ring; every step is one load or store of `read_pos`, `write_pos` or a record,
in any interleaving. `spscq_pop` publishes `read_pos` before it reads the
slot: the free slot of the ring is what keeps the producer out of it.
-/

namespace Ats

variable {α : Type}

/-- Where the producer stands in `spscq_push(q, e)`. -/
inductive SpscqPush (α : Type) where
  | idle
  /-- before the load of `write_pos` -/
  | start (e : α)
  /-- before the load of `read_pos` -/
  | test (e : α) (currentWrite : Nat)
  /-- before the store to `records[currentWrite]` -/
  | write (e : α) (currentWrite nextRecord : Nat)
  /-- before the store to `write_pos` -/
  | publish (e : α) (currentWrite nextRecord : Nat)
deriving DecidableEq, Repr

inductive SpscqCall where
  | pop
  | peek
deriving DecidableEq, Repr

/-- Where the consumer stands in `spscq_pop(q)` or `spscq_peek(q)`. -/
inductive SpscqRead where
  | idle
  /-- before the load of `read_pos` -/
  | start (call : SpscqCall)
  /-- before the load of `write_pos` -/
  | test (call : SpscqCall) (currentRead : Nat)
  /-- before the store to `read_pos` -/
  | advance (currentRead : Nat)
  /-- before the load of `records[currentRead]` -/
  | read (call : SpscqCall) (currentRead : Nat)
deriving DecidableEq, Repr

/-- The ring, both threads, and two history variables: the values of the
pushes that succeeded, and what the pops that found something returned. -/
structure SpscqThreads (α : Type) where
  ring : Spscq α
  producer : SpscqPush α
  consumer : SpscqRead
  pushed : List α
  popped : List (Option α)

/-- A thread enters a call, or makes its next load or store. -/
inductive SpscqStep (α : Type) where
  | push (e : α)
  | call (c : SpscqCall)
  | producer
  | consumer
deriving DecidableEq, Repr

/-- The next load or store of `spscq_push`. -/
def spscqProducer (s : SpscqThreads α) : Option (SpscqThreads α) :=
  match s.producer with
  | .idle => none
  | .start e => some { s with producer := .test e s.ring.writePos }
  | .test e currentWrite =>
      let nextRecord := spscqNext s.ring currentWrite
      if nextRecord ≠ s.ring.readPos then
        some { s with producer := .write e currentWrite nextRecord }
      else some { s with producer := .idle }
  | .write e currentWrite nextRecord =>
      some { s with
        ring := { s.ring with
          records := Function.update s.ring.records currentWrite (some e) }
        producer := .publish e currentWrite nextRecord }
  | .publish e _ nextRecord =>
      some { s with
        ring := { s.ring with writePos := nextRecord }
        producer := .idle
        pushed := s.pushed ++ [e] }

/-- The next load or store of `spscq_pop` or `spscq_peek`. -/
def spscqConsumer (s : SpscqThreads α) : Option (SpscqThreads α) :=
  match s.consumer with
  | .idle => none
  | .start call => some { s with consumer := .test call s.ring.readPos }
  | .test call currentRead =>
      if currentRead = s.ring.writePos then some { s with consumer := .idle }
      else
        match call with
        | .pop => some { s with consumer := .advance currentRead }
        | .peek => some { s with consumer := .read .peek currentRead }
  | .advance currentRead =>
      some { s with
        ring := { s.ring with readPos := spscqNext s.ring currentRead }
        consumer := .read .pop currentRead }
  | .read .pop currentRead =>
      some { s with
        consumer := .idle
        popped := s.popped ++ [s.ring.records currentRead] }
  | .read .peek _ => some { s with consumer := .idle }

/-- One step of either thread. -/
def spscqStep (s : SpscqThreads α) : SpscqStep α → Option (SpscqThreads α)
  | .push e => if s.producer matches .idle then some { s with producer := .start e } else none
  | .call c => if s.consumer matches .idle then some { s with consumer := .start c } else none
  | .producer => spscqProducer s
  | .consumer => spscqConsumer s

/-- Both threads idle, on a ring of `spscq_init(q, size)`. -/
def spscqThreads (size : Nat) : Option (SpscqThreads α) := do
  let ring ← spscqInit size
  some ⟨ring, .idle, .idle, [], []⟩

/-! ## The invariant -/

/-- What the producer knows of a ring that holds `xs`. -/
def SpscqPush.Ok (q : Spscq α) (xs : List α) : SpscqPush α → Prop
  | .idle => True
  | .start _ => True
  | .test _ currentWrite => currentWrite = q.writePos
  | .write _ currentWrite nextRecord =>
      currentWrite = q.writePos ∧ nextRecord = spscqNext q q.writePos
        ∧ xs.length + 1 < q.capacity
  | .publish e currentWrite nextRecord =>
      currentWrite = q.writePos ∧ nextRecord = spscqNext q q.writePos
        ∧ xs.length + 1 < q.capacity ∧ q.records q.writePos = some e

/-- What the consumer knows of it. `out` is what has left the ring and has
not been returned: the value in the slot that a pop has released. -/
def SpscqRead.Ok (q : Spscq α) (out xs : List α) : SpscqRead → Prop
  | .idle => out = []
  | .start _ => out = []
  | .test _ currentRead => out = [] ∧ currentRead = q.readPos
  | .advance currentRead => out = [] ∧ currentRead = q.readPos ∧ xs ≠ []
  | .read .peek currentRead => out = [] ∧ currentRead = q.readPos ∧ xs ≠ []
  | .read .pop currentRead =>
      ∃ x, out = [x] ∧ q.records currentRead = some x
        ∧ spscqNext q currentRead = q.readPos

/-- **The invariant of the two threads.** -/
structure SpscqInv (s : SpscqThreads α) (out xs : List α) : Prop where
  rep : SpscqRep s.ring xs
  producer : s.producer.Ok s.ring xs
  consumer : s.consumer.Ok s.ring out xs
  history : s.pushed.map some = s.popped ++ (out ++ xs).map some

namespace SpscqRep

variable {q : Spscq α} {xs : List α}

/-- A store to the slot at `write_pos` is a store to the free slot. -/
theorem store (h : SpscqRep q xs) (o : Option α) :
    SpscqRep { q with records := Function.update q.records q.writePos o } xs := by
  refine ⟨h.two_le, h.lt_word, h.read_lt, h.fits, h.write, fun i x hi => ?_⟩
  obtain ⟨hlt, _⟩ := List.getElem?_eq_some_iff.mp hi
  have hne : spscqSlot q i ≠ q.writePos := by
    rw [h.write]
    intro hc
    have := h.slot_inj (Nat.le_of_lt hlt) (Nat.le_refl _) hc
    omega
  show Function.update q.records q.writePos o (spscqSlot q i) = some x
  rw [Function.update_of_ne hne]
  exact h.record i x hi

/-- The store to `write_pos` makes the written record an element. -/
theorem publish (h : SpscqRep q xs) {e : α} (he : q.records q.writePos = some e)
    (hroom : xs.length + 1 < q.capacity) :
    SpscqRep { q with writePos := spscqNext q q.writePos } (xs ++ [e]) := by
  obtain ⟨hret, hrep, _⟩ := h.push e hroom
  have hpush : (spscqPush q e).1 = { q with writePos := spscqNext q q.writePos } := by
    unfold spscqPush at hret ⊢
    simp only at hret ⊢
    split
    case isTrue => simp [← he]
    case isFalse hc => simp [hc] at hret
  rw [← hpush]
  exact hrep

/-- The store to `read_pos` takes the first element out; its record stays. -/
theorem advance {x : α} (h : SpscqRep q (x :: xs)) :
    SpscqRep { q with readPos := spscqNext q q.readPos } xs
      ∧ q.records q.readPos = some x := by
  have hne : ¬ q.readPos = q.writePos := by
    intro hc
    have := h.isEmpty_iff.mp (by simpa [spscqIsEmpty] using hc)
    cases this
  obtain ⟨hx, hrep, _⟩ := h.pop_cons
  simp only [spscqPop, if_neg hne] at hx hrep
  exact ⟨hrep, hx⟩

/-- With room for one more, the slot after `write_pos` is not the first. -/
theorem next_ne_read (h : SpscqRep q xs) (hroom : xs.length + 1 < q.capacity) :
    spscqNext q q.writePos ≠ q.readPos := by
  intro hc
  have := h.isFull_iff.mp (by rw [spscqIsFull, decide_eq_true_iff]; exact hc)
  omega

theorem head (h : SpscqRep q xs) (hne : xs ≠ []) : q.records q.readPos = xs.head? := by
  cases xs with
  | nil => exact absurd rfl hne
  | cons x xs => exact h.advance.2

end SpscqRep

/-! ## Each step -/

/-- What the producer knows stays true when the ring only loses elements. -/
theorem SpscqPush.Ok.shrink {q q' : Spscq α} {xs ys : List α} {pc : SpscqPush α}
    (h : pc.Ok q xs) (hw : q'.writePos = q.writePos) (hr : q'.records = q.records)
    (hc : q'.capacity = q.capacity) (hlen : ys.length ≤ xs.length) : pc.Ok q' ys := by
  have hnext : ∀ p, spscqNext q' p = spscqNext q p := fun p => by
    simp only [spscqNext, hc]
  cases pc with
  | idle => trivial
  | start e => trivial
  | test e w => exact h.trans hw.symm
  | write e w n =>
      obtain ⟨h1, h2, h3⟩ := h
      exact ⟨h1.trans hw.symm, by rw [hnext, hw, h2], by omega⟩
  | publish e w n =>
      obtain ⟨h1, h2, h3, h4⟩ := h
      exact ⟨h1.trans hw.symm, by rw [hnext, hw, h2], by omega, by rw [hr, hw, h4]⟩

/-- **The producer's steps keep the invariant.** -/
theorem SpscqInv.producerStep {s s' : SpscqThreads α} {out xs : List α}
    (h : SpscqInv s out xs) (hs : spscqProducer s = some s') :
    ∃ ys, SpscqInv s' out ys := by
  obtain ⟨hrep, hprod, hcons, hhist⟩ := h
  rw [spscqProducer] at hs
  cases hp : s.producer with
  | idle =>
      rw [hp] at hs
      cases hs
  | start e =>
      rw [hp] at hs
      cases hs
      exact ⟨xs, hrep, rfl, hcons, hhist⟩
  | test e w =>
      rw [hp] at hs hprod
      have hw : w = s.ring.writePos := hprod
      subst hw
      simp only at hs
      split at hs
      case isTrue hne =>
        cases hs
        refine ⟨xs, hrep, ⟨rfl, rfl, ?_⟩, hcons, hhist⟩
        have hfits := hrep.fits
        by_contra hc
        have hc' : ¬ xs.length + 1 < s.ring.capacity := hc
        have hfull := hrep.isFull_iff.mpr (by omega)
        rw [spscqIsFull, decide_eq_true_iff] at hfull
        exact hne hfull
      case isFalse =>
        cases hs
        exact ⟨xs, hrep, trivial, hcons, hhist⟩
  | write e w n =>
      rw [hp] at hs hprod
      obtain ⟨rfl, rfl, hroom⟩ := hprod
      cases hs
      refine ⟨xs, hrep.store (some e), ⟨rfl, rfl, hroom, Function.update_self ..⟩, ?_, hhist⟩
      -- the slot a pop is about to read is not the one written
      cases hc : s.consumer with
      | read call r =>
          rw [hc] at hcons
          cases call with
          | peek => exact hcons
          | pop =>
              obtain ⟨x, hout, hx, hnext⟩ := hcons
              refine ⟨x, hout, ?_, hnext⟩
              have hne : r ≠ s.ring.writePos := by
                rintro rfl
                exact hrep.next_ne_read hroom hnext
              exact (Function.update_of_ne hne ..).trans hx
      | _ =>
          rw [hc] at hcons
          exact hcons
  | publish e w n =>
      rw [hp] at hs hprod
      obtain ⟨rfl, rfl, hroom, he⟩ := hprod
      cases hs
      refine ⟨xs ++ [e], hrep.publish he hroom, trivial, ?_, ?_⟩
      · cases hc : s.consumer with
        | read call r =>
            rw [hc] at hcons
            cases call with
            | peek => exact ⟨hcons.1, hcons.2.1, by simp⟩
            | pop => exact hcons
        | advance r =>
            rw [hc] at hcons
            exact ⟨hcons.1, hcons.2.1, by simp⟩
        | _ =>
            rw [hc] at hcons
            exact hcons
      · simp [hhist]

/-- **The consumer's steps keep the invariant.** -/
theorem SpscqInv.consumerStep {s s' : SpscqThreads α} {out xs : List α}
    (h : SpscqInv s out xs) (hs : spscqConsumer s = some s') :
    ∃ out' ys, SpscqInv s' out' ys := by
  obtain ⟨hrep, hprod, hcons, hhist⟩ := h
  rw [spscqConsumer] at hs
  cases hc : s.consumer with
  | idle =>
      rw [hc] at hs
      cases hs
  | start call =>
      rw [hc] at hs hcons
      cases hs
      exact ⟨out, xs, hrep, hprod, ⟨hcons, rfl⟩, hhist⟩
  | test call r =>
      rw [hc] at hs hcons
      obtain ⟨rfl, rfl⟩ := hcons
      simp only at hs
      split at hs
      case isTrue =>
        cases hs
        exact ⟨[], xs, hrep, hprod, rfl, hhist⟩
      case isFalse hne =>
        have hxs : xs ≠ [] := by
          intro hnil
          have hempty := hrep.isEmpty_iff.mpr hnil
          rw [spscqIsEmpty, decide_eq_true_iff] at hempty
          exact hne hempty
        cases call with
        | pop =>
            cases hs
            exact ⟨[], xs, hrep, hprod, ⟨rfl, rfl, hxs⟩, hhist⟩
        | peek =>
            cases hs
            exact ⟨[], xs, hrep, hprod, ⟨rfl, rfl, hxs⟩, hhist⟩
  | advance r =>
      rw [hc] at hs hcons
      obtain ⟨rfl, rfl, hxs⟩ := hcons
      cases hs
      cases xs with
      | nil => exact absurd rfl hxs
      | cons x xs =>
          obtain ⟨hrep', hx⟩ := hrep.advance
          refine ⟨[x], xs, hrep', ?_, ⟨x, rfl, hx, rfl⟩, hhist⟩
          exact hprod.shrink rfl rfl rfl (by simp)
  | read call r =>
      rw [hc] at hs hcons
      cases call with
      | peek =>
          cases hs
          exact ⟨out, xs, hrep, hprod, hcons.1, hhist⟩
      | pop =>
          obtain ⟨x, rfl, hx, _⟩ := hcons
          cases hs
          refine ⟨[], xs, hrep, hprod, rfl, ?_⟩
          show s.pushed.map some = s.popped ++ [s.ring.records r] ++ _
          rw [hx, hhist]
          simp

/-- **Every step** keeps the invariant. -/
theorem SpscqInv.step {s s' : SpscqThreads α} {a : SpscqStep α}
    (h : ∃ out xs, SpscqInv s out xs) (hs : spscqStep s a = some s') :
    ∃ out xs, SpscqInv s' out xs := by
  obtain ⟨out, xs, h⟩ := h
  cases a with
  | push e =>
      rw [spscqStep] at hs
      split at hs
      · cases hs
        exact ⟨out, xs, h.rep, trivial, h.consumer, h.history⟩
      · cases hs
  | call c =>
      rw [spscqStep] at hs
      cases hc : s.consumer with
      | idle =>
          have hcons := h.consumer
          rw [hc] at hs hcons
          cases hs
          exact ⟨out, xs, h.rep, h.producer, hcons, h.history⟩
      | _ => simp [hc] at hs
  | producer => exact ⟨out, h.producerStep hs⟩
  | consumer => exact h.consumerStep hs

/-! ## Runs -/

/-- **What both threads rely on.** What pops have returned are the values of
the first successful pushes, in order; a slot about to be read holds the next
of them, whether or not `read_pos` has moved past it; and a slot about to be
written holds no element and is about to be read by nobody. -/
structure SpscqFifo (s : SpscqThreads α) : Prop where
  order : s.popped = (s.pushed.take s.popped.length).map some
  kept : ∀ call r, s.consumer = .read call r →
    s.ring.records r = s.pushed[s.popped.length]? ∧ s.popped.length < s.pushed.length
  rest : (∀ r, s.consumer ≠ .read .pop r) →
    s.pushed = s.pushed.take s.popped.length ++ spscqToList s.ring
  free : ∀ e w n, s.producer = .write e w n → w < s.ring.capacity
    ∧ (∀ i < spscqLength s.ring, spscqSlot s.ring i ≠ w)
    ∧ ∀ call, s.consumer ≠ .read call w

theorem SpscqInv.fifo {s : SpscqThreads α} {out xs : List α} (h : SpscqInv s out xs) :
    SpscqFifo s := by
  obtain ⟨hrep, hprod, hcons, hhist⟩ := h
  have hlen : s.pushed.length = s.popped.length + (out ++ xs).length := by
    have := congrArg List.length hhist
    simpa using this
  have htake : (s.pushed.take s.popped.length).map some = s.popped := by
    rw [List.map_take, hhist, List.take_left]
  have hdrop : s.pushed.drop s.popped.length = out ++ xs := by
    have hd : (s.pushed.drop s.popped.length).map some = (out ++ xs).map some := by
      rw [List.map_drop, hhist, List.drop_left]
    exact List.map_injective_iff.mpr (fun _ _ => Option.some.inj) hd
  have hnext : s.pushed[s.popped.length]? = (out ++ xs).head? := by
    rw [← hdrop, List.head?_drop]
  refine ⟨htake.symm, fun call r hc => ?_, fun hc => ?_, fun e w n hp => ?_⟩
  · rw [hc] at hcons
    rw [hnext]
    cases call with
    | peek =>
        obtain ⟨rfl, rfl, hxs⟩ := hcons
        have hpos := List.length_pos_iff.mpr hxs
        exact ⟨hrep.head hxs, by rw [hlen, List.nil_append]; omega⟩
    | pop =>
        obtain ⟨x, rfl, hx, _⟩ := hcons
        exact ⟨hx, by rw [hlen]; simp⟩
  -- no element is on its way out unless a pop holds one
  · have hout : out = [] := by
      cases hs : s.consumer with
      | read call r =>
          cases call with
          | peek =>
              rw [hs] at hcons
              exact hcons.1
          | pop => exact absurd hs (hc r)
      | idle =>
          rw [hs] at hcons
          exact hcons
      | start call =>
          rw [hs] at hcons
          exact hcons
      | test call r =>
          rw [hs] at hcons
          exact hcons.1
      | advance r =>
          rw [hs] at hcons
          exact hcons.1
    have hsplit := List.take_append_drop s.popped.length s.pushed
    rw [hdrop, hout, List.nil_append] at hsplit
    rw [hrep.toList_eq]
    exact hsplit.symm
  · rw [hp] at hprod
    obtain ⟨rfl, rfl, hroom⟩ := hprod
    have hwrite := hrep.write
    refine ⟨?_, fun i hi hc => ?_, fun call hc => ?_⟩
    · rw [hwrite]
      exact hrep.slot_lt (Nat.le_refl _)
    · rw [hrep.length_eq] at hi
      rw [hwrite] at hc
      -- the slots in use and the one at write_pos are different
      have := hrep.slot_inj (Nat.le_of_lt hi) (Nat.le_refl _) hc
      omega
    · rw [hc] at hcons
      cases call with
      | peek =>
          obtain ⟨_, hr, hxs⟩ := hcons
          have hempty := hrep.isEmpty_iff.mp (by
            rw [spscqIsEmpty, decide_eq_true_iff]
            exact hr.symm)
          exact hxs hempty
      | pop =>
          obtain ⟨x, _, _, hnext⟩ := hcons
          exact hrep.next_ne_read hroom hnext

/-- **Reading the slot after publishing `read_pos` is safe.** For every
capacity and every interleaving of the loads and stores of one producer and
one consumer, pops return the values of the successful pushes, in order and
once each, and no slot is written before it is free. -/
theorem spscqRun_fifo {size : Nat} (hsize : 2 ≤ size) (hword : size < 2 ^ 32) :
    ∃ s0 : SpscqThreads α, spscqThreads size = some s0
      ∧ ∀ (acts : List (SpscqStep α)) (s : SpscqThreads α),
        GuardedRun.run spscqStep s0 acts = some s → SpscqFifo s := by
  obtain ⟨ring, hring, hrep, _⟩ := SpscqRep.init (α := α) hsize hword
  refine ⟨⟨ring, .idle, .idle, [], []⟩, ?_, fun acts s hrun => ?_⟩
  · rw [spscqThreads, hring]
    rfl
  · have h0 : ∃ out xs, SpscqInv (⟨ring, .idle, .idle, [], []⟩ : SpscqThreads α) out xs :=
      ⟨[], [], hrep, trivial, rfl, rfl⟩
    obtain ⟨out, xs, h⟩ := GuardedRun.run_keeps (I := fun s => ∃ out xs, SpscqInv s out xs)
      (fun _ _ _ hi hs => SpscqInv.step hi hs) acts hrun h0
    exact h.fifo

/-- A ring of two slots, which holds one element at most. -/
theorem spscqRun_fifo_two :
    ∃ s0 : SpscqThreads Nat, spscqThreads 2 = some s0
      ∧ ∀ (acts : List (SpscqStep Nat)) (s : SpscqThreads Nat),
        GuardedRun.run spscqStep s0 acts = some s → SpscqFifo s :=
  spscqRun_fifo (by decide) (by decide)

/-! ## One thread alone

Where no other thread steps in between, the loads and stores of a call add up
to the call of `Spscq`. -/

theorem push_alone (s : SpscqThreads α) (hidle : s.producer = .idle) (e : α) :
    ∃ n, GuardedRun.run spscqStep s (.push e :: List.replicate n .producer)
      = some { s with
          ring := (spscqPush s.ring e).1
          pushed := if (spscqPush s.ring e).2 = 0 then s.pushed ++ [e] else s.pushed } := by
  by_cases hfull : spscqNext s.ring s.ring.writePos = s.ring.readPos
  · refine ⟨2, ?_⟩
    simp [GuardedRun.run, spscqStep, hidle, spscqProducer, spscqPush, hfull,
      List.replicate]
  · refine ⟨4, ?_⟩
    simp [GuardedRun.run, spscqStep, hidle, spscqProducer, spscqPush, hfull,
      List.replicate]

theorem pop_alone (s : SpscqThreads α) (hidle : s.consumer = .idle) :
    ∃ n, GuardedRun.run spscqStep s (.call .pop :: List.replicate n .consumer)
      = some { s with
          ring := (spscqPop s.ring).1
          popped := if s.ring.readPos = s.ring.writePos then s.popped
            else s.popped ++ [(spscqPop s.ring).2] } := by
  by_cases hempty : s.ring.readPos = s.ring.writePos
  · refine ⟨2, ?_⟩
    simp [GuardedRun.run, spscqStep, hidle, spscqConsumer, spscqPop, hempty,
      List.replicate]
  · refine ⟨4, ?_⟩
    simp [GuardedRun.run, spscqStep, hidle, spscqConsumer, spscqPop, hempty,
      List.replicate]

end Ats
