import CallRelay.Proofs.Dispatch
import CallRelay.Proofs.Session.Ending

/-! # The inbound half within a session

The inbound half acts in the order of time. Hence a session in which it is cut short has done a front part
of what it does alone, and one that it ends has done all of it. -/

namespace CallRelay
variable {σ κ η : Type}

namespace Session

theorem relay_inbound_front (s : Session) (leg : Leg σ κ η) (clock : Clock) (first : Half) (stop due : Nat)
    (reason : Disposition) : (s.relay leg clock first stop due reason).inbound <+: (s.inbound leg).acts := by
  have htimely : Timely s.opened (s.inbound leg).acts := Inbound.run_timely _ _ _ _ _ _
  unfold relay
  simp only
  split
  · exact List.prefix_rfl
  · exact htimely.before_front _
  · exact htimely.before_front _

/-- The inbound half of a session deals with the messages that are there when it starts or arrive then. A
    run has done a front part of it, and all of it if that half ends the session, as it does itself. -/
theorem inbound_deals (s : Session) (leg : Leg σ κ η) :
    Inbound.Deals leg.sink leg.handler leg.ear leg.watch
        (Inbound.due (Message.decodeAll (s.reader.buffer ++ s.reader.inflow.front)).1)
        (Inbound.endOf (Message.decodeAll (s.reader.buffer ++ s.reader.inflow.front)).1 s.reader.inflow.stop?)
        (s.inbound leg) ∧
      ∀ terms report, s.run? leg terms = some report →
        report.halves.inbound <+: (s.inbound leg).acts ∧
        (report.halves.ending.half = .inbound → report.halves.inbound = (s.inbound leg).acts ∧
          ∃ t e, (s.inbound leg).ending = some (t, e) ∧ report.halves.ending = ⟨t, .inbound, inboundVerdict e⟩ ∧
            report.result = (inboundVerdict e).map fun d =>
              ⟨s.identity, d, report.halves.sent, .of (Inbound.handedOf (s.inbound leg).acts)⟩) := by
  refine ⟨Inbound.run_deals _ _ _ _ _ _, fun terms report hrun => ⟨?_, run?_inbound hrun⟩⟩
  obtain ⟨stop, hhalves, -, -⟩ := run?_eq_some hrun
  rw [hhalves]
  exact relay_inbound_front s leg _ _ _ _ _

end Session
end CallRelay
