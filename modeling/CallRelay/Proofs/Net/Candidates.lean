import CallRelay.Proofs.Clock
import CallRelay.Proofs.Net.Spelling

/-! # Trying the addresses of an endpoint

Addresses are tried in the order of their list, each once and behind the ones before it, up to the first that connects.
If none of them does, the error tells how many there are and what became of the last one. An attempt without an answer
is given up like any other wait, so that it lasts for the limit and less than a grain of the clock on top of it. -/

namespace CallRelay
variable {γ : Type} {net net' : Network γ} {clock : Clock} {timeout now start made i : Nat} {a : Address} {x : Attempt γ}
  {candidates : List Address} {last : Option RelayError} {attempts : List (Attempt γ)}
  {outcome : Except (Option RelayError) γ}

/-- When the attempt behind the first `i` ones begins, if the first of all begins at `now`. -/
def Attempt.startOf (attempts : List (Attempt γ)) (now i : Nat) : Nat := now + total ((attempts.take i).map Attempt.elapsed)

theorem Attempt.startOf_cons : startOf (x :: attempts) now (i + 1) = startOf attempts (now + x.elapsed) i :=
  (Nat.add_assoc now x.elapsed _).symm

namespace Network

/-! ### One attempt -/

/-- What its answer makes of an attempt at the address `a` that begins at `start`. -/
inductive Makes (clock : Clock) (timeout start : Nat) (a : Address) : Option (Nat × Except Fault γ) → Attempt γ → Prop
  | connected {delay : Nat} {c : γ} (h : start + delay ≤ clock.expiry start timeout) :
      Makes clock timeout start a (some (delay, .ok c)) ⟨a, delay, .ok c⟩
  | unanswered :
      Makes clock timeout start a none ⟨a, clock.expiry start timeout - start, .error (.connectTimeout a timeout)⟩
  | late {delay : Nat} {answer : Except Fault γ} (h : clock.expiry start timeout < start + delay) :
      Makes clock timeout start a (some (delay, answer))
        ⟨a, clock.expiry start timeout - start, .error (.connectTimeout a timeout)⟩
  | refused {delay : Nat} {f : Fault} (h : start + delay ≤ clock.expiry start timeout) (hf : f.kind = .connectionRefused) :
      Makes clock timeout start a (some (delay, .error f)) ⟨a, delay, .error (.connectRefused a)⟩
  | broken {delay : Nat} {f : Fault} (h : start + delay ≤ clock.expiry start timeout) (hf : f.kind ≠ .connectionRefused) :
      Makes clock timeout start a (some (delay, .error f)) ⟨a, delay, .error (.connectIo a f)⟩

/-- No connection comes before the wait for it is given up. -/
def Fails (clock : Clock) (timeout start : Nat) (answer : Option (Nat × Except Fault γ)) : Prop :=
  ∀ delay c, answer = some (delay, .ok c) → clock.expiry start timeout < start + delay

theorem connectAddress_makes (net : Network γ) (clock : Clock) (made : Nat) (a : Address) (timeout start : Nat) :
    Makes clock timeout start a (net.attempt made a) (net.connectAddress clock made a timeout start) := by
  unfold connectAddress
  cases net.attempt made a with
  | none => exact .unanswered
  | some answer =>
    obtain ⟨delay, outcome⟩ := answer
    dsimp only
    split
    · next hlate => exact .late hlate
    · next hdue =>
      have hdue := Nat.le_of_not_lt hdue
      cases outcome with
      | ok c => exact .connected hdue
      | error f =>
        dsimp only
        unfold attemptError
        split
        · next hf => exact .refused hdue hf
        · next hf => exact .broken hdue hf

theorem makes_of (h : net.connectAddress clock made a timeout start = x) :
    Makes clock timeout start a (net.attempt made a) x :=
  h ▸ net.connectAddress_makes clock made a timeout start

/-- What an attempt comes to hangs on its answer only. -/
theorem connectAddress_congr (h : net'.attempt made a = net.attempt made a) :
    net'.connectAddress clock made a timeout start = net.connectAddress clock made a timeout start := by
  unfold connectAddress
  rw [h]

namespace Makes
variable {answer : Option (Nat × Except Fault γ)}

theorem address (h : Makes clock timeout start a answer x) : x.address = a := by cases h <;> rfl

theorem elapsed_le (h : Makes clock timeout start a answer x) : x.elapsed ≤ clock.expiry start timeout - start := by
  cases h with
  | connected h | refused h | broken h => exact Nat.le_sub_of_add_le' h
  | unanswered | late => exact Nat.le_refl _

theorem fails_iff (h : Makes clock timeout start a answer x) :
    Fails clock timeout start answer ↔ ∃ e, x.outcome = .error e := by
  cases h with
  | connected h => exact iff_of_false (fun hf => Nat.not_lt_of_le h (hf _ _ rfl)) nofun
  | unanswered => exact iff_of_true nofun ⟨_, rfl⟩
  | late h =>
    refine iff_of_true (fun delay c hc => ?_) ⟨_, rfl⟩
    cases hc
    exact h
  | refused | broken => exact iff_of_true nofun ⟨_, rfl⟩

/-- A wait that the clock can give up is less than a grain longer than its limit. -/
theorem elapsed_le_limit (h : Makes clock timeout start a answer x) (hb : clock.Bounds start timeout) :
    x.elapsed ≤ timeout + (clock.grain - 1) := by
  have helapsed := h.elapsed_le
  have hexpiry := hb.expiry_le (Nat.le_refl start)
  have hwake := clock.wake_le (start + timeout)
  omega

end Makes

/-! ### One attempt after another -/

/-- Everything that trying addresses from the instant `now` on can come to, behind `made` attempts of which the last one
    failed with `last`. -/
inductive Tries (net : Network γ) (clock : Clock) (timeout : Nat) :
    Nat → Nat → List Address → Option RelayError → List (Attempt γ) → Except (Option RelayError) γ → Prop
  | nothing (made now : Nat) (last : Option RelayError) : Tries net clock timeout made now [] last [] (.error last)
  | connects {made now : Nat} {a : Address} {rest : List Address} {last : Option RelayError} {x : Attempt γ} {c : γ}
      (hx : net.connectAddress clock made a timeout now = x) (hc : x.outcome = .ok c) :
      Tries net clock timeout made now (a :: rest) last [x] (.ok c)
  | fails {made now : Nat} {a : Address} {rest : List Address} {last : Option RelayError} {x : Attempt γ} {e : RelayError}
      {attempts : List (Attempt γ)} {outcome : Except (Option RelayError) γ}
      (hx : net.connectAddress clock made a timeout now = x) (he : x.outcome = .error e)
      (later : Tries net clock timeout (made + 1) (now + x.elapsed) rest (some e) attempts outcome) :
      Tries net clock timeout made now (a :: rest) last (x :: attempts) outcome

theorem connectFirst_tries (net : Network γ) (clock : Clock) (timeout made now : Nat) (candidates : List Address)
    (last : Option RelayError) :
    Tries net clock timeout made now candidates last (net.connectFirst clock timeout made now candidates last).1
      (net.connectFirst clock timeout made now candidates last).2 := by
  induction candidates generalizing made now last with
  | nil => exact .nothing made now last
  | cons a rest ih =>
    rw [connectFirst]
    cases hx : (net.connectAddress clock made a timeout now).outcome with
    | ok c => exact .connects rfl hx
    | error e => exact .fails rfl hx (ih (made + 1) _ (some e))

namespace Tries

theorem order (h : Tries net clock timeout made now candidates last attempts outcome) :
    attempts.map Attempt.address <+: candidates := by
  induction h with
  | nothing => exact List.prefix_rfl
  | connects hx hc =>
    rw [List.map_singleton, (makes_of hx).address]
    exact List.prefix_append [_] _
  | fails hx he later ih =>
    rw [List.map_cons, (makes_of hx).address]
    exact List.prefix_cons_inj _ |>.mpr ih

theorem made_of (h : Tries net clock timeout made now candidates last attempts outcome) (hi : attempts[i]? = some x) :
    ∃ a, candidates[i]? = some a ∧
      Makes clock timeout (Attempt.startOf attempts now i) a (net.attempt (made + i) a) x := by
  induction h generalizing i with
  | nothing => cases hi
  | @connects made now a rest last x' c hx hc =>
    cases i with
    | zero =>
      cases hi
      exact ⟨a, rfl, makes_of hx⟩
    | succ i => cases hi
  | @fails made now a rest last x' e attempts outcome hx he later ih =>
    cases i with
    | zero =>
      cases hi
      exact ⟨a, rfl, makes_of hx⟩
    | succ i =>
      obtain ⟨b, hb, hmade⟩ := ih hi
      refine ⟨b, hb, ?_⟩
      rwa [Nat.add_right_comm, ← Attempt.startOf_cons] at hmade

theorem failing (h : Tries net clock timeout made now candidates last attempts outcome) :
    ∀ x ∈ attempts.dropLast, ∃ e, x.outcome = .error e := by
  induction h with
  | nothing | connects => exact List.forall_mem_nil _
  | @fails made now a rest last x e attempts outcome hx he later ih =>
    cases attempts with
    | nil => exact List.forall_mem_nil _
    | cons y attempts => exact List.forall_mem_cons.mpr ⟨⟨e, he⟩, ih⟩

theorem connected {c : γ} (h : Tries net clock timeout made now candidates last attempts outcome) (hc : outcome = .ok c) :
    ∃ x, attempts.getLast? = some x ∧ x.outcome = .ok c := by
  induction h with
  | nothing => cases hc
  | connects hx hc' =>
    cases hc
    exact ⟨_, rfl, hc'⟩
  | fails hx he later ih =>
    obtain ⟨y, hy, hyc⟩ := ih hc
    refine ⟨y, ?_, hyc⟩
    rw [List.getLast?_cons, hy]
    rfl

/-- If nothing connects then all addresses have been tried, and the error is that of the last one. -/
theorem failed {l : Option RelayError} (h : Tries net clock timeout made now candidates last attempts outcome)
    (hl : outcome = .error l) :
    attempts.map Attempt.address = candidates ∧
      (attempts = [] ∧ l = last ∨ ∃ x e, attempts.getLast? = some x ∧ x.outcome = .error e ∧ l = some e) := by
  induction h with
  | nothing =>
    cases hl
    exact ⟨rfl, Or.inl ⟨rfl, rfl⟩⟩
  | connects => cases hl
  | @fails made now a rest last x e attempts outcome hx he later ih =>
    obtain ⟨hall, hlast⟩ := ih hl
    refine ⟨?_, Or.inr ?_⟩
    · rw [List.map_cons, (makes_of hx).address, hall]
    · rcases hlast with ⟨rfl, rfl⟩ | ⟨y, e', hy, hye, rfl⟩
      · exact ⟨x, e, rfl, he, rfl⟩
      · refine ⟨y, e', ?_, hye, rfl⟩
        rw [List.getLast?_cons, hy]
        rfl

theorem error_iff (h : Tries net clock timeout made now candidates last attempts outcome) :
    (∃ l, outcome = .error l) ↔ ∀ i a, candidates[i]? = some a →
      Fails clock timeout (Attempt.startOf attempts now i) (net.attempt (made + i) a) := by
  induction h with
  | nothing => exact iff_of_true ⟨_, rfl⟩ nofun
  | @connects made now a rest last x c hx hc =>
    refine iff_of_false nofun fun hall => ?_
    obtain ⟨e, he⟩ := (makes_of hx).fails_iff.mp (hall 0 a rfl)
    cases hc.symm.trans he
  | @fails made now a rest last x e attempts outcome hx he later ih =>
    rw [ih]
    constructor
    · intro hall i b hb
      cases i with
      | zero =>
        cases hb
        exact (makes_of hx).fails_iff.mpr ⟨e, he⟩
      | succ i =>
        have hb := hall i b hb
        rwa [Nat.add_right_comm, ← Attempt.startOf_cons] at hb
    · intro hall i b hb
      have hb := hall (i + 1) b hb
      rwa [← Nat.add_assoc, Nat.add_right_comm, Attempt.startOf_cons] at hb

/-- Every wait that the clock can give up adds its limit and less than a grain. -/
theorem elapsed_le (h : Tries net clock timeout made now candidates last attempts outcome)
    (hb : ∀ i < attempts.length, clock.Bounds (Attempt.startOf attempts now i) timeout) :
    total (attempts.map Attempt.elapsed) ≤ attempts.length * (timeout + (clock.grain - 1)) := by
  induction h with
  | nothing => exact Nat.zero_le _
  | connects hx hc => simpa [total] using (makes_of hx).elapsed_le_limit (hb 0 Nat.one_pos)
  | @fails made now a rest last x e attempts outcome hx he later ih =>
    have hfirst := (makes_of hx).elapsed_le_limit (hb 0 (Nat.succ_pos _))
    have hlater := ih fun i hi => Attempt.startOf_cons ▸ hb (i + 1) (Nat.succ_lt_succ hi)
    rw [List.length_cons, Nat.succ_mul, Nat.add_comm]
    exact Nat.add_le_add hfirst hlater

/-- Only the attempts that were made matter, and not what is listed behind their addresses. -/
theorem untouched {c : γ} (h : Tries net clock timeout made now candidates last attempts outcome) (hc : outcome = .ok c)
    (net' : Network γ)
    (hsame : ∀ i x, attempts[i]? = some x → net'.attempt (made + i) x.address = net.attempt (made + i) x.address)
    (behind : List Address) :
    net'.connectFirst clock timeout made now (attempts.map Attempt.address ++ behind) last = (attempts, outcome) := by
  induction h with
  | nothing => cases hc
  | @connects made now a rest last x c' hx hc' =>
    have hattempt := hsame 0 x rfl
    rw [(makes_of hx).address, Nat.add_zero] at hattempt
    have hsame := (connectAddress_congr hattempt).trans hx
    rw [List.map_singleton, (makes_of hx).address, List.singleton_append, connectFirst, hsame, hc']
  | @fails made now a rest last x e attempts outcome hx he later ih =>
    have hattempt := hsame 0 x rfl
    rw [(makes_of hx).address, Nat.add_zero] at hattempt
    have hfirst := (connectAddress_congr hattempt).trans hx
    have hlater := ih hc fun i y hy => by
      have hy := hsame (i + 1) y hy
      rwa [← Nat.add_assoc, Nat.add_right_comm] at hy
    rw [List.map_cons, (makes_of hx).address, List.cons_append, connectFirst, hfirst, he]
    simp only [hlater]

end Tries

/-! ### All candidates -/

/-- What trying the candidate addresses of an endpoint comes to. -/
structure TriesAll (net : Network γ) (clock : Clock) (endpoint : String) (candidates : List Address) (timeout now : Nat)
    (tried : Attempted γ) : Prop where
  /-- They are tried in their order, each once, and each attempt is what its answer makes of it. -/
  order : tried.attempts.map Attempt.address <+: candidates
  makes : ∀ i x, tried.attempts[i]? = some x → ∃ a, candidates[i]? = some a ∧
    Makes clock timeout (Attempt.startOf tried.attempts now i) a (net.attempt i a) x
  /-- Another one is tried only if those before have failed. -/
  failing : ∀ x ∈ tried.attempts.dropLast, ∃ e, x.outcome = .error e
  connected : ∀ c, tried.outcome = .ok c → ∃ x, tried.attempts.getLast? = some x ∧ x.outcome = .ok c
  untouched : ∀ c, tried.outcome = .ok c → ∀ (net' : Network γ) behind,
    (∀ i x, tried.attempts[i]? = some x → net'.attempt i x.address = net.attempt i x.address) →
    net'.connectAny clock endpoint (tried.attempts.map Attempt.address ++ behind) timeout now = tried
  failed : ∀ e, tried.outcome = .error e → tried.attempts.map Attempt.address = candidates ∧ ∃ x last,
    tried.attempts.getLast? = some x ∧ x.outcome = .error last ∧ e = .connectFailed endpoint candidates.length (some last)
  fails_iff : (∃ e, tried.outcome = .error e) ↔ ∀ i a, candidates[i]? = some a →
    Fails clock timeout (Attempt.startOf tried.attempts now i) (net.attempt i a)
  /-- If the clock can give up every wait then each lasts at most for the limit and the rest of a grain. -/
  time : (∀ i < tried.attempts.length, clock.Bounds (Attempt.startOf tried.attempts now i) timeout) →
    tried.elapsed ≤ tried.attempts.length * (timeout + (clock.grain - 1))

theorem connectAny_triesAll (net : Network γ) (clock : Clock) (endpoint : String) (timeout now : Nat)
    (hne : candidates ≠ []) :
    TriesAll net clock endpoint candidates timeout now (net.connectAny clock endpoint candidates timeout now) := by
  have htries := net.connectFirst_tries clock timeout 0 now candidates none
  have hconnect : net.connectAny clock endpoint candidates timeout now =
      ⟨(net.connectFirst clock timeout 0 now candidates none).1,
        (net.connectFirst clock timeout 0 now candidates none).2.mapError (.connectFailed endpoint candidates.length)⟩ :=
    rfl
  rw [hconnect]
  generalize (net.connectFirst clock timeout 0 now candidates none).1 = attempts at htries ⊢
  generalize (net.connectFirst clock timeout 0 now candidates none).2 = outcome at htries ⊢
  have herror := htries.error_iff
  simp only [Nat.zero_add] at herror
  refine ⟨htries.order, fun i x hx => ?_, htries.failing, fun c hc => ?_, fun c hc net' behind hsame => ?_,
    fun e he => ?_, ?_, htries.elapsed_le⟩
  · have hmade := htries.made_of hx
    rwa [Nat.zero_add] at hmade
  · cases outcome with
    | ok c' =>
      cases hc
      exact htries.connected rfl
    | error l => cases hc
  · cases outcome with
    | ok c' =>
      have huntouched := htries.untouched rfl net' (fun i x hx => (Nat.zero_add i).symm ▸ hsame i x hx) behind
      rw [connectAny, huntouched]
      rfl
    | error l => cases hc
  · cases outcome with
    | ok c => cases he
    | error l =>
      cases he
      obtain ⟨hall, ⟨rfl, -⟩ | ⟨x, e, hx, hxe, rfl⟩⟩ := htries.failed rfl
      · exact absurd hall.symm hne
      · exact ⟨hall, x, e, hx, hxe, rfl⟩
  · rw [← herror]
    cases outcome with
    | ok c => exact iff_of_false nofun nofun
    | error l => exact iff_of_true ⟨_, rfl⟩ ⟨l, rfl⟩

/-- There is an address to try once an endpoint has been looked up. -/
theorem connect_cases (net : Network γ) (clock : Clock) (endpoint : String) (timeout now : Nat) :
    (∃ e, (∀ text n last, e ≠ .connectFailed text n last) ∧
      net.connect clock endpoint timeout now = { outcome := .error e }) ∨
    ∃ first others,
      net.connect clock endpoint timeout now = net.connectAny clock endpoint (first :: others) timeout now := by
  rw [connect_eq]
  cases Endpoint.ofText endpoint with
  | error f => exact Or.inl ⟨.invalidEndpoint endpoint f.message, nofun, rfl⟩
  | ok e =>
    cases net.addresses endpoint with
    | error f => exact Or.inl ⟨.resolve endpoint f, nofun, rfl⟩
    | ok found =>
      cases found with
      | nil => exact Or.inl ⟨.resolve endpoint noAddresses, nofun, rfl⟩
      | cons first others => exact Or.inr ⟨first, others, rfl⟩

theorem connect_failed {endpoint text : String} {n : Nat}
    (h : (net.connect clock endpoint timeout now).outcome = .error (.connectFailed text n last)) : 0 < n ∧ last ≠ none := by
  rcases net.connect_cases clock endpoint timeout now with ⟨e, hne, heq⟩ | ⟨first, others, heq⟩
  · rw [heq] at h
    cases h
    exact absurd rfl (hne text n last)
  · rw [heq] at h
    have htries := net.connectAny_triesAll clock endpoint timeout now (List.cons_ne_nil first others)
    obtain ⟨-, x, e, -, -, he⟩ := htries.failed _ h
    cases he
    exact ⟨Nat.succ_pos _, nofun⟩

/-- The candidate addresses of an endpoint are tried one after another up to the first that connects. If all of them fail,
    the error tells how many there are and how the last one failed, and connecting to an endpoint never fails so without an
    attempt. -/
theorem candidates_tried (net : Network γ) (clock : Clock) (timeout now : Nat) :
    (∀ endpoint first others, TriesAll net clock endpoint (first :: others) timeout now
      (net.connectAny clock endpoint (first :: others) timeout now)) ∧
    ∀ endpoint text n last,
      (net.connect clock endpoint timeout now).outcome ≠ .error (.connectFailed text 0 last) ∧
      (net.connect clock endpoint timeout now).outcome ≠ .error (.connectFailed text n none) := by
  refine ⟨fun endpoint first others =>
    net.connectAny_triesAll clock endpoint timeout now (List.cons_ne_nil first others), ?_⟩
  intro endpoint text n last
  exact ⟨fun h => Nat.lt_irrefl 0 (connect_failed h).1, fun h => (connect_failed h).2 rfl⟩

/-- A network on which attempts are answered as listed, and not at all behind the list. -/
def answering (answers : List (Option (Nat × Except Fault Unit))) : Network Unit where
  lookup _ _ := .ok []
  attempt made _ := answers[made]?.join
  listen _ := .ok ()

/-- An address of the machine itself. -/
def loopback : Address := ⟨.v4 127 0 0 1, 1⟩

/-- A clock on which waits end on whole milliseconds only. -/
def milliClock : Clock := ⟨0, 1000000, Nat.succ_pos _⟩

/-- With a limit of a millisecond and a quarter, silence lasts for two, and a connection that comes after one and a half
    still counts. So does a failure that is told a microsecond behind a limit of one nanosecond. -/
theorem silence_overruns :
    (¬∀ (net : Network Unit) (clock : Clock) endpoint first others timeout now,
      (net.connectAny clock endpoint (first :: others) timeout now).elapsed ≤
        (net.connectAny clock endpoint (first :: others) timeout now).attempts.length * timeout) ∧
    ((answering [some (1500000, .ok ())]).connectAny milliClock "a:1" [loopback] 1250000 0).outcome = .ok () ∧
    ((answering [some (1001, .error unreachable)]).connectAny milliClock "127.0.0.1:1" [loopback] 1 0).outcome =
      .error (.connectFailed "127.0.0.1:1" 1 (some (.connectIo loopback unreachable))) := by
  refine ⟨fun h => ?_, rfl, rfl⟩
  exact absurd (h (answering []) milliClock "a:1" loopback [] 1250000 0) (by decide)

/-- The first attempt is answered too late and the second one refused, at the same address, and then a third one
    connects. -/
example :
    ((answering [some (9, .ok ()), some (2, .error FaultKind.connectionRefused.fault), some (3, .ok ())]).connectAny
      ⟨0, 1, Nat.one_pos⟩ "a:1" [loopback, loopback, loopback, loopback] 5 0).attempts.map (·.elapsed) = [5, 2, 3] := by
  decide

end Network
end CallRelay
