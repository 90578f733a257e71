import Ats.Core.Interleave

/-!
# Exchange: timers of the exchange clock

A tick carries an `exchange_timestamp` besides the timestamp that all events
have. Both dequeue routines compare the timers of the exchange clock with the
latter. Nothing in the core reads or writes `exchange_timestamp`, so here it
is a map of its own.
-/

namespace Ats

variable {w w' w1 w2 : World} {c : CtxId} {q : QueueId} {e t : EventId} {now : Nat}
  {o : Option EventId} {acts : List Act} {exchangeTimestamp : EventId → Nat}

/-- `bus_dequeue` up to the end of its market block. -/
def busLook (w : World) (c : CtxId) (now : Nat) : Option World := do
  let w ← checkPendingQueue w c
  match (w.ctxs c).mode with
  | .simulation => busSimulationMarket (busBacklog w c .market + 1) w c now
  | .realtime => busRealtimeMarket w c

/-- **`bus_dequeue` returns**, and looks ahead on its way. -/
theorem BusInv.busDequeue_look (h : BusInv w) (c : CtxId) (now : Nat) :
    ∃ w1 w2 w' r, Ats.busDequeue w c now = some (w', r) ∧ busLook w c now = some w2
      ∧ Dequeued w c now w1 w2 w' r := by
  obtain ⟨w1, hcheck, hrun1, hpend1, hmode1⟩ := h.checkPendingQueue c
  cases hmode : (w1.ctxs c).mode with
  | simulation =>
      obtain ⟨v1, w2, w', r, hcall, hd⟩ := h.busDequeue c now
      obtain rfl : v1 = w1 := Option.some.inj (hd.check.symm.trans hcheck)
      refine ⟨v1, w2, w', r, hcall, ?_, hd⟩
      simp [busLook, hcheck, hmode, hd.market (hmode1.symm.trans hmode)]
  | realtime =>
      obtain ⟨w2, hmarket, hlook⟩ := hrun1.inv.busRealtimeMarket c
      have hmode2 := hlook.mode.trans hmode
      obtain ⟨w', r, hserve, hserved, hfinish⟩ := hlook.run.inv.busRealtimeServe hmode2 now
      refine ⟨w1, w2, w', r, ?_, ?_, hcheck, hrun1, hlook, fun hsim => ?_,
        hlook.pending.trans hpend1, hlook.mode.trans hmode1, ?_, hfinish⟩
      · simp [Ats.busDequeue, hcheck, hmode, busRealtimeDequeue, hmarket, hserve]
      · simp [busLook, hcheck, hmode, hmarket]
      · simp [← hmode1, hmode] at hsim
      · rw [busSource_realtime hmode2]
        exact hserved

end Ats
