import CallRelay.Proofs.Clock
import CallRelay.Proofs.Reassembly.First
import CallRelay.Proofs.Session.Stopping

/-! # Accepting a session

An accepting session waits for what comes first on its connection. An identity opens it, and the bytes behind the
identity are left for the run. Whatever else comes, and a peer that keeps silent until the wait is given up, is turned
away: nothing is written, and the connection is shut down once. -/

namespace CallRelay

namespace Effort

theorem shutdown_time (clock : Clock) (out : Outflow) (now limit : Nat) (tag : Label) :
    now ≤ (Effort.shutdown clock out now limit tag).time ∧
      (Effort.shutdown clock out now limit tag).time ≤ clock.expiry now limit := by
  have hexpiry := clock.le_expiry now limit
  unfold shutdown
  simp only
  split
  · split
    · next hover => exact ⟨Nat.le_add_right _ _, hover⟩
    · exact ⟨hexpiry, Nat.le_refl _⟩
  · split
    · next hover => exact ⟨Nat.le_add_right _ _, hover⟩
    · exact ⟨hexpiry, Nat.le_refl _⟩
  · exact ⟨hexpiry, Nat.le_refl _⟩

end Effort

/-! ### The verdict -/

namespace Session

/-- The connection is turned away with the error `e` for what was found at `t`. -/
structure Rejects (clock : Clock) (config : Config) (t : Nat) (e : RelayError) (o : Opening) : Prop where
  silent : o.pieces = []
  /-- The connection is shut down once. -/
  shutdown : o.shutdown = some t
  /-- The call returns when that is over, or else when the wait for it is given up. -/
  ending : ∃ limit u, clock.GivesUp t config.drainTimeout limit ∧ o.ending = .refused u e ∧ t ≤ u ∧ u ≤ limit

/-- The session `id` is opened at `t`. Nothing is done to the connection, and what arrives on it behind the identity is
    left to be read, either from the buffer or when it arrives. -/
structure Admits (conn : Connection) (config : Config) (t : Nat) (id : Identity) (o : Opening) (s : Session) : Prop where
  silent : o.pieces = []
  kept : o.shutdown = none
  ending : o.ending = .opened s
  session : s.identity = id ∧ s.config = config ∧ s.opened = t
  unused : s.outflow = conn.outflow ∧ s.mark = {}
  behind : ∃ bs, conn.inflow.singly = Inflow.ofBytes bs ++ s.reader.inflow.singly ∧
    bs.map Prod.snd = encodeIdentity id ++ s.reader.buffer ∧ ∀ p ∈ bs, p.1 ≤ t

/-- How a connection is answered under valid settings, as what comes first by `limit` has it. -/
inductive Decides (clock : Clock) (conn : Connection) (config : Config) (now limit : Nat) (o : Opening) : Prop
  | identity (t : Nat) (m : Message) (s : Session) (hfirst : conn.inflow.first? now [] = some (t, .message m))
      (ht : t ≤ limit) (hkind : m.rawKind = 0x01) (hlength : m.payload.length = 16)
      (h : Admits conn config t ⟨m.payload, hlength⟩ o s)
  | other (t : Nat) (m : Message) (hfirst : conn.inflow.first? now [] = some (t, .message m)) (ht : t ≤ limit)
      (hm : ¬(m.rawKind = 0x01 ∧ m.payload.length = 16)) (h : Rejects clock config t (.protocolViolation m.rawKind) o)
      (htext : (RelayError.protocolViolation m.rawKind).message =
        "protocol violation: first message must be a 16-byte identity, got " ++ m.kind.text ++
          " (" ++ Hex.byteText m.rawKind ++ ")")
  | ended (t : Nat) (hfirst : conn.inflow.first? now [] = some (t, .ended)) (ht : t ≤ limit)
      (h : Rejects clock config t (.bootstrapFailed ⟨.unexpectedEof, "connection closed before identity message"⟩) o)
  | failed (t : Nat) (f : Fault) (hfirst : conn.inflow.first? now [] = some (t, .failed (.readFailure f)))
      (ht : t ≤ limit) (h : Rejects clock config t (.bootstrapFailed f) o)
  | late (hfirst : ∀ t a, conn.inflow.first? now [] = some (t, a) → limit < t)
      (h : Rejects clock config limit (.bootstrapFailed ⟨.timedOut, "no identity message before bootstrap timeout"⟩) o)

/-- Under settings with a fault the connection is left as it is. -/
structure Declines (now : Nat) (f : ConfigFault) (o : Opening) : Prop where
  silent : o.pieces = []
  kept : o.shutdown = none
  ending : o.ending = .refused now (.invalidConfig f.message)

/-! ### The course of accepting -/

section Accept
variable {clock : Clock} {conn : Connection} {config : Config} {now : Nat} {r : Reader}

/-- A reader waits for the identity up to the limit on the wait and hears what comes first. -/
theorem next_of_inflow (conn : Connection) (now limit : Nat) :
    ((Reader.ofInflow conn.inflow).next now (some limit)).2 = (conn.inflow.first? now []).filter fun p => p.1 ≤ limit :=
  Reader.next_first Message.decode_nil

theorem accept_admits {t : Nat} {m : Message} {id : Identity} (hvalid : config.Valid)
    (hnext : (Reader.ofInflow conn.inflow).next now (some (clock.expiry now config.bootstrapTimeout)) =
      (r, some (t, .message m)))
    (hm : m.identity? = some id) : ∃ s, Admits conn config t id (accept clock conn config now) s := by
  obtain ⟨hkind, hpayload⟩ := Message.identity?_eq_some_iff.mp hm
  obtain ⟨bs, hrest, hbytes, hbs⟩ := Reader.next_takes hnext
  have hencode : m.encode = encodeIdentity id := by
    rw [Message.encode_eq, hkind, hpayload, id.length_eq]
    rfl
  have hjudge : judge (.message m) = .ok id := by
    rw [judge, hm]
    rfl
  unfold accept
  split
  · next f hf =>
    rw [Config.fault?_eq_none_iff.mpr hvalid] at hf
    cases hf
  · simp only [hnext, hjudge]
    exact ⟨_, rfl, rfl, rfl, ⟨rfl, rfl, rfl⟩, ⟨rfl, rfl⟩, bs, hrest, hencode ▸ hbytes, hbs⟩

theorem accept_rejects {t : Nat} {e : RelayError} {heard : Option (Nat × Heard)} (hvalid : config.Valid)
    (hnext : (Reader.ofInflow conn.inflow).next now (some (clock.expiry now config.bootstrapTimeout)) = (r, heard))
    (h : (∃ a, heard = some (t, a) ∧ judge a = .error e) ∨
      heard = none ∧ t = clock.expiry now config.bootstrapTimeout ∧ e = .bootstrapFailed noIdentityInTime) :
    Rejects clock config t e (accept clock conn config now) := by
  obtain ⟨hle, hlimit⟩ := Effort.shutdown_time clock conn.outflow t config.drainTimeout (.given "bootstrap")
  have hgives := clock.expiry_givesUp t config.drainTimeout
  unfold accept
  split
  · next f hf =>
    rw [Config.fault?_eq_none_iff.mpr hvalid] at hf
    cases hf
  · rcases h with ⟨a, rfl, hjudge⟩ | ⟨rfl, rfl, rfl⟩
    · simp only [hnext, hjudge]
      exact ⟨rfl, rfl, _, _, hgives, rfl, hle, hlimit⟩
    · simp only [hnext]
      exact ⟨rfl, rfl, _, _, hgives, rfl, hle, hlimit⟩

theorem accept_of_fault {f : ConfigFault} (hf : config.fault? = some f) :
    accept clock conn config now = refuseConfig now f := by
  unfold accept
  split
  · next f' hf' =>
    cases hf.symm.trans hf'
    rfl
  · next hnone => cases hf.symm.trans hnone

theorem accept_of_valid (hvalid : config.Valid) :
    Decides clock conn config now (clock.expiry now config.bootstrapTimeout) (accept clock conn config now) := by
  have hheard := next_of_inflow conn now (clock.expiry now config.bootstrapTimeout)
  rcases hnext : (Reader.ofInflow conn.inflow).next now (some (clock.expiry now config.bootstrapTimeout)) with ⟨r, heard⟩
  rw [hnext] at hheard
  cases heard with
  | none =>
    refine .late (fun t a hfirst => ?_) (accept_rejects hvalid hnext (Or.inr ⟨rfl, rfl, rfl⟩))
    have hlate := Option.filter_eq_none_iff.mp hheard.symm (t, a) hfirst
    simpa using hlate
  | some p =>
    obtain ⟨t, a⟩ := p
    obtain ⟨hfirst, hpass⟩ := Option.filter_eq_some_iff.mp hheard.symm
    have ht : t ≤ clock.expiry now config.bootstrapTimeout := of_decide_eq_true hpass
    cases a with
    | message m =>
      cases hm : m.identity? with
      | some id =>
        obtain ⟨hkind, hpayload⟩ := Message.identity?_eq_some_iff.mp hm
        obtain ⟨b, hlength⟩ := id
        cases hpayload
        obtain ⟨s, hs⟩ := accept_admits hvalid hnext hm
        exact .identity t m s hfirst ht hkind hlength hs
      | none =>
        refine .other t m hfirst ht ?_ (accept_rejects hvalid hnext (Or.inl ⟨_, rfl, ?_⟩)) rfl
        · rintro ⟨hkind, hlength⟩
          have hsome : m.identity? = some ⟨m.payload, hlength⟩ := Message.identity?_eq_some_iff.mpr ⟨hkind, rfl⟩
          cases hm.symm.trans hsome
        · rw [judge, hm]
          rfl
    | ended => exact .ended t hfirst ht (accept_rejects hvalid hnext (Or.inl ⟨_, rfl, rfl⟩))
    | failed e =>
      obtain ⟨f, rfl⟩ := Inflow.readFailure_of_first? hfirst
      exact .failed t f hfirst ht (accept_rejects hvalid hnext (Or.inl ⟨_, rfl, rfl⟩))

/-- A session that has been opened has the identity that came first. -/
theorem first?_of_opened {s : Session} (h : (accept clock conn config now).ending = .opened s) :
    ∃ t m, conn.inflow.first? now [] = some (t, .message m) ∧ m.rawKind = 0x01 ∧ m.payload = s.identity.bytes := by
  have hrefused : ∀ {t e}, ¬Rejects clock config t e (accept clock conn config now) := by
    rintro t e ⟨-, -, limit, u, -, hend, -⟩
    cases h.symm.trans hend
  cases hf : config.fault? with
  | some f =>
    rw [accept_of_fault hf] at h
    cases h
  | none =>
    cases accept_of_valid (Config.fault?_eq_none_iff.mp hf) with
    | identity t m s' hfirst ht hkind hlength hs =>
      cases h.symm.trans hs.ending
      exact ⟨t, m, hfirst, hkind, congrArg Identity.bytes hs.session.1.symm⟩
    | other t m hfirst ht hm hrej => exact absurd hrej hrefused
    | ended t hfirst ht hrej => exact absurd hrej hrefused
    | failed t f hfirst ht hrej => exact absurd hrej hrefused
    | late hfirst hrej => exact absurd hrej hrefused

/-- Every connection is answered as what comes first on it has it, and without being looked at if the settings have a
    fault. -/
theorem accept_decides (clock : Clock) (conn : Connection) (config : Config) (now : Nat) :
    (∀ f, config.fault? = some f → Declines now f (accept clock conn config now) ∧
      ∀ conn', accept clock conn' config now = accept clock conn config now) ∧
    (config.Valid → ∃ limit, clock.GivesUp now config.bootstrapTimeout limit ∧
      Decides clock conn config now limit (accept clock conn config now)) := by
  constructor
  · intro f hf
    refine ⟨?_, fun conn' => (accept_of_fault hf).trans (accept_of_fault hf).symm⟩
    rw [accept_of_fault hf]
    exact ⟨rfl, rfl, rfl⟩
  · intro hvalid
    exact ⟨_, clock.expiry_givesUp _ _, accept_of_valid hvalid⟩

end Accept

/-! ### An identity behind the limit -/

/-- The wait is to last half a millisecond. -/
def hastyConfig : Config := { bootstrapTimeout := 500000 }

/-- An identity at one millisecond. -/
def tardyArrivals : Inflow := [⟨1000000, .bytes (encodeIdentity (.repeated 7))⟩]

/-- Waits end on whole milliseconds only, and until then the identity has come. -/
theorem tardy_identity_admitted : tardyArrivals.first? 0 [] = some (1000000, .message (.announce (.repeated 7))) ∧
    roughTerms.clock.add? 0 hastyConfig.bootstrapTimeout = some 500000 ∧
    ∃ s, (accept roughTerms.clock ⟨tardyArrivals, quickLine⟩ hastyConfig 0).ending = .opened s ∧ s.opened = 1000000 := by
  refine ⟨?_, rfl, ?_⟩
  · have hdec := Message.decode_encode_append (.announce (.repeated 7)) []
    rw [List.append_nil] at hdec
    exact Inflow.first?_of_ok (List.cons_ne_nil _ _) hdec
  · with_unfolding_all exact ⟨_, rfl, rfl⟩

end Session
end CallRelay
