import Ats.Core.EventClone

/-!
# EventTable: the registry of event types

`event_vtable` is written by `register_event` only, and read by `event_size`,
`event_clone` and `event_zalloc`. Each of the four guards its index in its own
way: the first not at all, the next two with the test turned round.
-/

namespace Ats

variable {w w' : World} {cloneFunc : CloneFuncs}

/-- `event_size`; `none` where its `ASSERT` fails, and where the type is past
the table. -/
def eventSize (w : World) (type : Nat) : Option Nat :=
  if checkEventType type ≠ 0 then
    if type < eventLast then some (w.eventVtable type).eventSize else none
  else none

/-- The arguments of `register_event` that the core reads. -/
structure Registration where
  typeId : Nat
  defaultFlag : Nat
  eventSize : Nat
deriving DecidableEq, Repr

/-- A sequence of `register_event` calls, with what they return. -/
def registerEvents (w : World) : List Registration → Option (World × List Int)
  | [] => some (w, [])
  | r :: rs => do
      let (w, ret) ← registerEvent w r.typeId r.defaultFlag r.eventSize
      let (w, rets) ← registerEvents w rs
      some (w, ret :: rets)

/-! ## First writer wins -/

/-- The entry of `type` after the registrations `rs`: the first one's. -/
def registryEntry (rs : List Registration) (type : Nat) : EventInfo :=
  match rs.find? (fun r => r.typeId = type) with
  | none => ⟨0, 0⟩
  | some r => ⟨r.eventSize, r.defaultFlag⟩

/-- The answers to `rs` after `seen`: `-1` for a type past the table or one
that was registered before. -/
def registryCodes (seen : List Registration) : List Registration → List Int
  | [] => []
  | r :: rs =>
      (if eventLast ≤ r.typeId ∨ ∃ s ∈ seen, s.typeId = r.typeId then -1 else 0)
        :: registryCodes (seen ++ [r]) rs

/-- **The registry**: no call leaves the table, each is answered as its turn
says, and the entries are those of the first writers. -/
def FirstWriterWins (w : World) (rs : List Registration) : Prop :=
  ∃ w' rets, registerEvents w rs = some (w', rets) ∧ rets = registryCodes [] rs
    ∧ ∀ type, type < eventLast → w'.eventVtable type = registryEntry rs type

/-- The three readers of the table serve the registered `type` with no
assertion failing, and `event_size` says what was registered. -/
structure EntryServed (cloneFunc : CloneFuncs) (w : World) (type size : Nat) : Prop where
  size : eventSize w type = some size
  zalloc : (eventZalloc w type).isSome
  clone : ∀ m e, m.world.eventVtable = w.eventVtable → (m.world.events e).eventType = type →
    (eventClone false cloneFunc m e).isSome

/-- **A lawful history**: the registry keeps its rule, and its readers serve
every type that was registered. -/
def LawfulRegistry (cloneFunc : CloneFuncs) (w : World) (rs : List Registration) : Prop :=
  FirstWriterWins w rs ∧ ∀ w' rets, registerEvents w rs = some (w', rets) →
    ∀ r ∈ rs, r.typeId < eventLast →
      EntryServed cloneFunc w' r.typeId (registryEntry rs r.typeId).eventSize

/-! ## The entries -/

theorem registryEntry_eq_zero {rs : List Registration} {type : Nat}
    (hnew : ∀ s ∈ rs, s.typeId ≠ type) : registryEntry rs type = ⟨0, 0⟩ := by
  have hfind : rs.find? (fun r => r.typeId = type) = none := by
    simpa using hnew
  rw [registryEntry, hfind]

theorem registryEntry_pos {rs : List Registration} {type : Nat}
    (hpos : ∀ s ∈ rs, 0 < s.eventSize) (hold : ∃ s ∈ rs, s.typeId = type) :
    0 < (registryEntry rs type).eventSize := by
  obtain ⟨s, hs, ht⟩ := hold
  cases hfind : rs.find? (fun r => r.typeId = type) with
  | none =>
      have := List.find?_eq_none.mp hfind s hs
      simp [ht] at this
  | some r =>
      rw [registryEntry, hfind]
      exact hpos r (List.mem_of_find?_eq_some hfind)

/-- Who comes later does not matter to a type that is registered. -/
theorem registryEntry_old {rs rs' : List Registration} {type : Nat}
    (hold : ∃ s ∈ rs, s.typeId = type) :
    registryEntry (rs ++ rs') type = registryEntry rs type := by
  obtain ⟨s, hs, ht⟩ := hold
  cases hfind : rs.find? (fun r => r.typeId = type) with
  | none =>
      have := List.find?_eq_none.mp hfind s hs
      simp [ht] at this
  | some r => rw [registryEntry, registryEntry, List.find?_append, hfind, Option.some_or]

theorem registryEntry_new {rs : List Registration} {r : Registration} {type : Nat}
    (hnew : ∀ s ∈ rs, s.typeId ≠ type) :
    registryEntry (rs ++ [r]) type
      = if r.typeId = type then ⟨r.eventSize, r.defaultFlag⟩ else ⟨0, 0⟩ := by
  have hfind : rs.find? (fun r => r.typeId = type) = none := by
    simpa using hnew
  rw [registryEntry, List.find?_append, hfind, Option.none_or]
  by_cases hr : r.typeId = type
  · simp [hr]
  · simp [hr]

/-! ## The calls -/

/-- The table is what the registrations `seen` have made of it. -/
def TableOf (w : World) (seen : List Registration) : Prop :=
  ∀ type, type < eventLast → w.eventVtable type = registryEntry seen type

/-- **One call on a type inside the table.** -/
theorem TableOf.registerEvent {seen : List Registration} {r : Registration} (h : TableOf w seen)
    (hpos : ∀ s ∈ seen, 0 < s.eventSize) (hin : r.typeId < eventLast) :
    ∃ w', registerEvent w r.typeId r.defaultFlag r.eventSize
        = some (w', if eventLast ≤ r.typeId ∨ ∃ s ∈ seen, s.typeId = r.typeId then -1 else 0)
      ∧ TableOf w' (seen ++ [r]) := by
  have hle : ¬ eventLast ≤ r.typeId := Nat.not_le.mpr hin
  by_cases hold : ∃ s ∈ seen, s.typeId = r.typeId
  · -- registered before: the entry has a size
    have hsize : (w.eventVtable r.typeId).eventSize ≠ 0 := by
      rw [h r.typeId hin]
      exact Nat.ne_of_gt (registryEntry_pos hpos hold)
    refine ⟨w, ?_, fun type htype => ?_⟩
    · rw [Ats.registerEvent, if_neg hle, if_pos hsize, if_pos (Or.inr hold)]
    · rw [h type htype]
      by_cases hseen : ∃ s ∈ seen, s.typeId = type
      · rw [registryEntry_old hseen]
      · have hnew : ∀ s ∈ seen, s.typeId ≠ type := fun s hs hc => hseen ⟨s, hs, hc⟩
        have hr : r.typeId ≠ type := by
          rintro rfl
          exact hseen hold
        rw [registryEntry_new hnew, registryEntry_eq_zero hnew, if_neg hr]
  · have hnew : ∀ s ∈ seen, s.typeId ≠ r.typeId := fun s hs hc => hold ⟨s, hs, hc⟩
    have hsize : ¬ (w.eventVtable r.typeId).eventSize ≠ 0 := by
      rw [h r.typeId hin, registryEntry_eq_zero hnew]
      simp
    obtain ⟨entry, hentry⟩ : ∃ entry : EventInfo, entry = ⟨r.eventSize, r.defaultFlag⟩ :=
      ⟨_, rfl⟩
    refine ⟨{ w with eventVtable := Function.update w.eventVtable r.typeId entry }, ?_,
      fun type htype => ?_⟩
    · rw [Ats.registerEvent, if_neg hle, if_neg hsize, if_neg (by tauto), hentry]
    · by_cases ht : type = r.typeId
      · subst ht
        rw [registryEntry_new hnew, if_pos rfl]
        simp [hentry]
      · have hr : r.typeId ≠ type := fun hc => ht hc.symm
        simp only [Function.update_of_ne ht]
        rw [h type htype]
        by_cases hseen : ∃ s ∈ seen, s.typeId = type
        · rw [registryEntry_old hseen]
        · have hnew' : ∀ s ∈ seen, s.typeId ≠ type := fun s hs hc => hseen ⟨s, hs, hc⟩
          rw [registryEntry_new hnew', registryEntry_eq_zero hnew', if_neg hr]

/-- **Any history of types inside the table.** -/
theorem TableOf.registerEvents (rs : List Registration) : ∀ {w : World} {seen : List Registration},
    TableOf w seen → (∀ s ∈ seen, 0 < s.eventSize) → (∀ r ∈ rs, 0 < r.eventSize) →
    (∀ r ∈ rs, r.typeId < eventLast) →
    ∃ w', registerEvents w rs = some (w', registryCodes seen rs) ∧ TableOf w' (seen ++ rs) := by
  induction rs with
  | nil =>
      intro w seen h _ _ _
      exact ⟨w, rfl, by rw [List.append_nil]; exact h⟩
  | cons r rs ih =>
      intro w seen h hseen hpos hin
      obtain ⟨w1, hcall, h1⟩ := h.registerEvent hseen (hin r List.mem_cons_self)
      have hseen1 : ∀ s ∈ seen ++ [r], 0 < s.eventSize := by
        intro s hs
        rcases List.mem_append.mp hs with hs | hs
        · exact hseen s hs
        · rw [List.mem_singleton.mp hs]
          exact hpos r List.mem_cons_self
      obtain ⟨w2, hrest, h2⟩ := ih h1 hseen1 (fun x hx => hpos x (List.mem_cons_of_mem r hx))
        (fun x hx => hin x (List.mem_cons_of_mem r hx))
      refine ⟨w2, ?_, ?_⟩
      · simp only [Ats.registerEvents, hcall, hrest, Option.bind_eq_bind, Option.bind_some,
          registryCodes]
      · rw [List.append_assoc] at h2
        exact h2

/-- A type past the table is looked up all the same. -/
theorem registerEvents_outside {rs : List Registration} : ∀ {w : World},
    (∃ r ∈ rs, eventLast ≤ r.typeId) → registerEvents w rs = none := by
  induction rs with
  | nil => simp
  | cons r rs ih =>
      rintro w ⟨x, hx, hle⟩
      by_cases hr : eventLast ≤ r.typeId
      · simp [registerEvents, registerEvent, hr]
      · have hrest : ∃ y ∈ rs, eventLast ≤ y.typeId := by
          rcases List.mem_cons.mp hx with rfl | hx
          · exact absurd hle hr
          · exact ⟨x, hx, hle⟩
        rw [registerEvents, Option.bind_eq_bind, Option.bind_eq_none_iff]
        rintro ⟨v, ret⟩ _
        simp [ih hrest]

/-- **The first writer wins exactly if no call is past the table.** -/
theorem firstWriterWins_iff {rs : List Registration} (hw : ∀ type, w.eventVtable type = ⟨0, 0⟩)
    (hpos : ∀ r ∈ rs, 0 < r.eventSize) :
    FirstWriterWins w rs ↔ ∀ r ∈ rs, r.typeId < eventLast := by
  constructor
  · rintro ⟨w', rets, hrun, _, _⟩ r hr
    by_contra hlt
    rw [registerEvents_outside ⟨r, hr, Nat.le_of_not_lt hlt⟩] at hrun
    cases hrun
  · intro hin
    have h0 : TableOf w [] := fun type _ => hw type
    obtain ⟨w', hrun, h'⟩ := h0.registerEvents rs (by simp) hpos hin
    exact ⟨w', _, hrun, rfl, h'⟩

/-! ## The readers -/

theorem eventSize_none (w : World) (type : Nat) : eventSize w type = none := by
  by_cases hlt : type < eventLast
  · simp [eventSize, checkEventType, Nat.not_le.mpr hlt]
  · simp [eventSize, hlt]

/-- `event_zalloc` is the reader whose test is the right way round. -/
theorem eventZalloc_isSome (w : World) {type : Nat} (h : type < eventLast) :
    (eventZalloc w type).isSome := by
  have hcheck : checkEventType type = 0 := by
    rw [checkEventType, if_neg (Nat.not_le.mpr h)]
  rw [eventZalloc, if_pos hcheck]
  rfl

theorem eventClone_inTable (m : EventMem) (e : EventId)
    (h : (m.world.events e).eventType < eventLast) : eventClone false cloneFunc m e = none := by
  have hcheck : checkEventType (m.world.events e).eventType = 0 := by
    rw [checkEventType, if_neg (Nat.not_le.mpr h)]
  rw [eventClone, hcheck]
  simp

/-- **From the static, empty table**: first writers win exactly in histories
that stay inside the table; `event_zalloc` then serves what was registered, and
`event_size` and `event_clone` abort on it. So no history with a call in it is
lawful. -/
theorem registerEvents_lawful_iff {rs : List Registration}
    (hw : ∀ type, w.eventVtable type = ⟨0, 0⟩) (hpos : ∀ r ∈ rs, 0 < r.eventSize) :
    (FirstWriterWins w rs ↔ ∀ r ∈ rs, r.typeId < eventLast)
      ∧ (∀ w' rets, registerEvents w rs = some (w', rets) → ∀ r ∈ rs,
        (eventZalloc w' r.typeId).isSome ∧ eventSize w' r.typeId = none
          ∧ ∀ m e, (m.world.events e).eventType = r.typeId →
            eventClone false cloneFunc m e = none)
      ∧ (LawfulRegistry cloneFunc w rs ↔ rs = []) := by
  have hin : ∀ {w' rets}, registerEvents w rs = some (w', rets) →
      ∀ r ∈ rs, r.typeId < eventLast := by
    intro w' rets hrun r hr
    by_contra hlt
    rw [registerEvents_outside ⟨r, hr, Nat.le_of_not_lt hlt⟩] at hrun
    cases hrun
  refine ⟨firstWriterWins_iff hw hpos, fun w' rets hrun r hr => ?_, fun hlaw => ?_, ?_⟩
  · have hlt := hin hrun r hr
    refine ⟨eventZalloc_isSome w' hlt, eventSize_none w' r.typeId, fun m e he => ?_⟩
    exact eventClone_inTable m e (by rw [he]; exact hlt)
  · obtain ⟨⟨w', rets, hrun, _, _⟩, hserve⟩ := hlaw
    cases rs with
    | nil => rfl
    | cons r rs =>
        have hlt := hin hrun r List.mem_cons_self
        have hsize := (hserve w' rets hrun r List.mem_cons_self hlt).size
        rw [eventSize_none] at hsize
        cases hsize
  · rintro rfl
    refine ⟨(firstWriterWins_iff hw hpos).mpr (by simp), ?_⟩
    intro w' rets _ r hr
    cases hr

/-- Two registrations of `ask` from the static table. -/
theorem registerEvents_lawful_iff_ask :
    (FirstWriterWins (EventClient.start fun _ => ⟨0, 0⟩).mem.world [⟨1, 2, 56⟩, ⟨1, 0, 64⟩]
        ↔ ∀ r ∈ ([⟨1, 2, 56⟩, ⟨1, 0, 64⟩] : List Registration), r.typeId < eventLast)
      ∧ (∀ w' rets, registerEvents (EventClient.start fun _ => ⟨0, 0⟩).mem.world
          [⟨1, 2, 56⟩, ⟨1, 0, 64⟩] = some (w', rets) →
        ∀ r ∈ ([⟨1, 2, 56⟩, ⟨1, 0, 64⟩] : List Registration),
        (eventZalloc w' r.typeId).isSome ∧ eventSize w' r.typeId = none
          ∧ ∀ m e, (m.world.events e).eventType = r.typeId →
            eventClone false (fun _ => none) m e = none)
      ∧ (LawfulRegistry (fun _ => none) (EventClient.start fun _ => ⟨0, 0⟩).mem.world
          [⟨1, 2, 56⟩, ⟨1, 0, 64⟩]
        ↔ ([⟨1, 2, 56⟩, ⟨1, 0, 64⟩] : List Registration) = []) :=
  registerEvents_lawful_iff (fun _ => rfl) (by decide)

/-- A type past the table, and the built-in `ask`: neither history is
lawful. -/
theorem registry_unlawful :
    ¬ LawfulRegistry (fun _ => none) (EventClient.start fun _ => ⟨0, 0⟩).mem.world
        [⟨1024, 0, 32⟩]
      ∧ ¬ LawfulRegistry (fun _ => none) (EventClient.start fun _ => ⟨0, 0⟩).mem.world
        [⟨1, 2, 56⟩] := by
  constructor
  · rintro ⟨⟨w', rets, hrun, _⟩, _⟩
    cases hrun
  · rintro ⟨⟨w', rets, hrun, _⟩, hserve⟩
    have hsize := (hserve w' rets hrun ⟨1, 2, 56⟩ List.mem_cons_self (by decide)).size
    rw [eventSize_none] at hsize
    cases hsize

end Ats
