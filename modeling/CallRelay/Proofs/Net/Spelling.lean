import CallRelay.Net.Connect
import Mathlib.Data.Nat.Digits.Defs

/-! # The syntax of endpoints

A text is an endpoint exactly if it is a host, a colon and a numeral from 1 to 65535. What is wrong with any other text
can be told from its white space and its colons. Nothing is looked up and no address is tried for such a text. -/

namespace CallRelay

/-! ### Numerals -/

namespace Numeral
variable {n m d bound : Nat} {c : Char} {cs ds : List Char}

/-- The number that decimal digits write, the digit for the ones last. -/
def value (ds : List Char) : Nat := Nat.ofDigits 10 (ds.reverse.map fun c => c.toNat - '0'.toNat)

/-- A numeral for `n`: decimal digits, at least one, behind an optional plus sign. -/
def Writes (cs : List Char) (n : Nat) : Prop :=
  ∃ sign ds, cs = sign ++ ds ∧ (sign = [] ∨ sign = ['+']) ∧ ds ≠ [] ∧ (∀ c ∈ ds, c.isDigit = true) ∧ value ds = n

theorem value_cons (c : Char) (ds : List Char) : value (c :: ds) = 10 ^ ds.length * (c.toNat - '0'.toNat) + value ds := by
  rw [value, List.reverse_cons, List.map_append, Nat.ofDigits_append, List.length_map, List.length_reverse,
    List.map_singleton, Nat.ofDigits_singleton, Nat.add_comm]
  rfl

theorem isDigit_iff : c.isDigit = true ↔ 48 ≤ c.toNat ∧ c.toNat ≤ 57 := by
  simp only [Char.isDigit, ge_iff_le, UInt32.le_iff_toNat_le, Bool.and_eq_true, decide_eq_true_eq]
  rfl

theorem digit?_eq_some_iff : digit? c = some d ↔ c.isDigit = true ∧ c.toNat - '0'.toNat = d := by
  rw [isDigit_iff, digit?]
  split
  · next h => exact (Option.some_inj).trans (and_iff_right h).symm
  · next h => exact iff_of_false nofun fun hd => h hd.1

theorem digits?_eq_some_iff : digits? n ds = some m ↔ (∀ c ∈ ds, c.isDigit = true) ∧ 10 ^ ds.length * n + value ds = m := by
  induction ds generalizing n with
  | nil => simp [digits?, value]
  | cons c ds ih =>
    rw [digits?, Option.bind_eq_some_iff, List.forall_mem_cons, value_cons, List.length_cons]
    simp only [digit?_eq_some_iff, ih]
    constructor
    · rintro ⟨d, ⟨hc, rfl⟩, hds, rfl⟩
      refine ⟨⟨hc, hds⟩, ?_⟩
      ring
    · rintro ⟨⟨hc, hds⟩, rfl⟩
      refine ⟨_, ⟨hc, rfl⟩, hds, ?_⟩
      ring

theorem decimal?_eq_some_iff : decimal? ds = some n ↔ ds ≠ [] ∧ (∀ c ∈ ds, c.isDigit = true) ∧ value ds = n := by
  cases ds with
  | nil => exact iff_of_false nofun fun h => h.1 rfl
  | cons c ds =>
    have hread : decimal? (c :: ds) = digits? 0 (c :: ds) := rfl
    rw [hread, digits?_eq_some_iff, Nat.mul_zero, Nat.zero_add]
    exact (and_iff_right (List.cons_ne_nil c ds)).symm

/-- A plus sign is no digit, so that it can be told from what it stands before. -/
theorem unsigned_of_digits (h : ∀ c ∈ ds, c.isDigit = true) : unsigned ds = ds := by
  unfold unsigned
  split
  · exact absurd (h '+' List.mem_cons_self) (by decide)
  · rfl

theorem read?_eq_some_iff : read? bound cs = some n ↔ Writes cs n ∧ n < bound := by
  rw [read?, Option.filter_eq_some_iff, decide_eq_true_eq, decimal?_eq_some_iff]
  refine and_congr_left fun _ => ⟨fun h => ?_, ?_⟩
  · unfold unsigned at h
    split at h
    · next ds => exact ⟨['+'], ds, rfl, Or.inr rfl, h⟩
    · next hsign => exact ⟨[], cs, rfl, Or.inl rfl, h⟩
  · rintro ⟨sign, ds, rfl, rfl | rfl, hds⟩
    · rwa [List.nil_append, unsigned_of_digits hds.2.1]
    · exact hds

theorem Writes.no_colon (h : Writes cs n) : ':' ∉ cs := by
  obtain ⟨sign, ds, rfl, hsign, -, hdigits, -⟩ := h
  intro hmem
  rcases List.mem_append.mp hmem with hmem | hmem
  · rcases hsign with rfl | rfl
    · exact absurd hmem List.not_mem_nil
    · exact absurd (List.mem_singleton.mp hmem) (by decide)
  · exact absurd (hdigits ':' hmem) (by decide)

end Numeral

/-! ### Reading an endpoint -/

namespace Endpoint
variable {s : String} {e : Endpoint} {n : Nat} {cs host port : List Char}

theorem splitLast_eq_none_iff : splitLast cs = none ↔ ':' ∉ cs := by
  induction cs with
  | nil => exact iff_of_true rfl List.not_mem_nil
  | cons c cs ih =>
    rw [List.mem_cons, not_or, ← ih, splitLast]
    cases splitLast cs with
    | some split => exact iff_of_false nofun fun h => nomatch h.2
    | none =>
      by_cases hc : c = ':'
      · simp [hc]
      · simp [hc, Ne.symm hc]

theorem splitLast_append (host : List Char) (hport : ':' ∉ port) : splitLast (host ++ ':' :: port) = some (host, port) := by
  induction host with
  | nil => rw [List.nil_append, splitLast, splitLast_eq_none_iff.mpr hport, if_pos rfl]
  | cons c host ih => rw [List.cons_append, splitLast, ih]

/-- The last colon is the one with no other behind it. -/
theorem splitLast_eq_some_iff : splitLast cs = some (host, port) ↔ cs = host ++ ':' :: port ∧ ':' ∉ port := by
  refine ⟨fun h => ?_, fun ⟨hcs, hport⟩ => hcs ▸ splitLast_append host hport⟩
  induction cs generalizing host with
  | nil => cases h
  | cons c cs ih =>
    rw [splitLast] at h
    cases hsplit : splitLast cs with
    | some split =>
      rw [hsplit] at h
      cases h
      obtain ⟨hcs, hport⟩ := ih hsplit
      exact ⟨congrArg (c :: ·) hcs, hport⟩
    | none =>
      rw [hsplit] at h
      dsimp only at h
      split at h
      · next hc =>
        cases h
        exact ⟨congrArg (· :: port) hc, splitLast_eq_none_iff.mp hsplit⟩
      · cases h

/-- The text is the host, a colon and a numeral for the port. -/
def Spells (text : String) (e : Endpoint) : Prop :=
  ∃ port : String, text = e.host ++ ":" ++ port ∧ e.host ≠ "" ∧ Numeral.Writes port.toList e.port ∧ 1 ≤ e.port ∧
    e.port ≤ 65535

/-- There is nothing but white space. -/
def Blank (text : String) : Prop := ∀ c ∈ text.toList, isBlank c = true

/-- The only colon is the first character. -/
def Headless (text : String) : Prop := ∃ port : String, text = ":" ++ port ∧ ':' ∉ port.toList

theorem port?_eq_some_iff : port? cs = some n ↔ Numeral.Writes cs n ∧ 1 ≤ n ∧ n ≤ 65535 := by
  rw [port?, Option.filter_eq_some_iff, decide_eq_true_eq, Numeral.read?_eq_some_iff]
  constructor
  · rintro ⟨⟨hwrites, hlt⟩, hpos⟩
    exact ⟨hwrites, hpos, Nat.le_of_lt_succ hlt⟩
  · rintro ⟨hwrites, hpos, hle⟩
    exact ⟨⟨hwrites, Nat.lt_succ_of_le hle⟩, hpos⟩

theorem not_blank_of_colon (h : ':' ∈ s.toList) : ¬Blank s := fun hblank => absurd (hblank ':' h) (by decide)

theorem spells_iff : Spells s e ↔
    ∃ host port, splitLast s.toList = some (host, port) ∧ host ≠ [] ∧ e.host = String.ofList host ∧
    port? port = some e.port := by
  simp only [splitLast_eq_some_iff, port?_eq_some_iff]
  constructor
  · rintro ⟨port, rfl, hhost, hport, hrange⟩
    refine ⟨e.host.toList, port.toList, ⟨?_, hport.no_colon⟩, ?_, (String.ofList_toList).symm, hport, hrange⟩
    · simp
    · simpa using hhost
  · rintro ⟨host, port, ⟨hs, -⟩, hhost, he, hport, hrange⟩
    refine ⟨String.ofList port, ?_, ?_, ?_, hrange⟩
    · apply String.toList_inj.mp
      simp [hs, he]
    · simpa [he] using hhost
    · rwa [String.toList_ofList]

theorem headless_iff : Headless s ↔ ∃ port, splitLast s.toList = some ([], port) := by
  simp only [splitLast_eq_some_iff]
  constructor
  · rintro ⟨port, rfl, hport⟩
    exact ⟨port.toList, by simp, hport⟩
  · rintro ⟨port, hs, hport⟩
    refine ⟨String.ofList port, ?_, ?_⟩
    · apply String.toList_inj.mp
      simpa using hs
    · rwa [String.toList_ofList]

/-- Everything that reading a text can come to. -/
inductive Reads (s : String) : Except EndpointFault Endpoint → Prop
  | blank (h : Blank s) : Reads s (.error .blank)
  | missingHost (hb : ¬Blank s) (h : Headless s) : Reads s (.error .missingHost)
  | missingPort (hb : ¬Blank s) (hh : ¬Headless s) (hs : ∀ e, ¬Spells s e) : Reads s (.error .missingPort)
  | endpoint {e : Endpoint} (h : Spells s e) : Reads s (.ok e)

theorem ofText_reads (s : String) : Reads s (ofText s) := by
  unfold ofText
  split
  · next hblank => exact .blank (List.all_eq_true.mp hblank)
  · next hblank =>
    have hblank : ¬Blank s := fun h => hblank (List.all_eq_true.mpr h)
    split
    · next hsplit =>
      refine .missingPort hblank ?_ ?_
      · simp [headless_iff, hsplit]
      · simp [spells_iff, hsplit]
    · next hsplit => exact .missingHost hblank (headless_iff.mpr ⟨_, hsplit⟩)
    · next host port hhost hsplit =>
      have hhost : host ≠ [] := hhost
      split
      · next hport =>
        refine .missingPort hblank ?_ ?_
        · simp [headless_iff, hsplit, hhost]
        · simp [spells_iff, hsplit, hport]
      · next n hport => exact .endpoint (spells_iff.mpr ⟨host, port, hsplit, hhost, rfl, hport⟩)

theorem Spells.not_blank (h : Spells s e) : ¬Blank s := by
  obtain ⟨port, rfl, -⟩ := h
  exact not_blank_of_colon (by simp)

theorem Headless.not_blank (h : Headless s) : ¬Blank s := by
  obtain ⟨port, rfl, -⟩ := h
  exact not_blank_of_colon (by simp)

theorem Spells.not_headless (h : Spells s e) : ¬Headless s := by
  obtain ⟨host, port, hsplit, hhost, -⟩ := spells_iff.mp h
  simp [headless_iff, hsplit, hhost]

theorem Spells.unique {e' : Endpoint} (h : Spells s e) (h' : Spells s e') : e = e' := by
  obtain ⟨host, port, hsplit, -, he, hport⟩ := spells_iff.mp h
  obtain ⟨host', port', hsplit', -, he', hport'⟩ := spells_iff.mp h'
  cases hsplit.symm.trans hsplit'
  obtain ⟨ehost, eport⟩ := e
  obtain ⟨ehost', eport'⟩ := e'
  cases he.trans he'.symm
  cases hport.symm.trans hport'
  rfl

theorem ofText_eq_ok_iff : ofText s = .ok e ↔ Spells s e := by
  have hreads := ofText_reads s
  generalize ofText s = read at hreads
  cases hreads with
  | blank hb => exact iff_of_false nofun fun h => h.not_blank hb
  | missingHost _ hh => exact iff_of_false nofun fun h => h.not_headless hh
  | missingPort _ _ hs => exact iff_of_false nofun (hs e)
  | endpoint h' =>
    refine ⟨fun h => ?_, fun h => congrArg Except.ok (h'.unique h)⟩
    cases h
    exact h'

theorem ofText_eq_blank_iff : ofText s = .error .blank ↔ Blank s := by
  have hreads := ofText_reads s
  generalize ofText s = read at hreads
  cases hreads with
  | blank hb => exact iff_of_true rfl hb
  | missingHost hb | missingPort hb => exact iff_of_false nofun hb
  | endpoint h => exact iff_of_false nofun h.not_blank

theorem ofText_eq_missingHost_iff : ofText s = .error .missingHost ↔ Headless s := by
  have hreads := ofText_reads s
  generalize ofText s = read at hreads
  cases hreads with
  | blank hb => exact iff_of_false nofun fun hh => hh.not_blank hb
  | missingHost _ hh => exact iff_of_true rfl hh
  | missingPort _ hh => exact iff_of_false nofun hh
  | endpoint h => exact iff_of_false nofun h.not_headless

theorem ofText_eq_missingPort_iff : ofText s = .error .missingPort ↔ ¬Blank s ∧ ¬Headless s ∧ ∀ e, ¬Spells s e := by
  have hreads := ofText_reads s
  generalize ofText s = read at hreads
  cases hreads with
  | blank hb => exact iff_of_false nofun fun h => h.1 hb
  | missingHost _ hh => exact iff_of_false nofun fun h => h.2.1 hh
  | missingPort hb hh hs => exact iff_of_true rfl ⟨hb, hh, hs⟩
  | endpoint h => exact iff_of_false nofun fun hno => hno.2.2 _ h

end Endpoint

/-! ### Connecting to an endpoint -/

namespace Network
variable {γ : Type} (net : Network γ) (clock : Clock) (endpoint : String) (timeout now : Nat)

/-- What connecting comes to without an attempt, because of the text of the endpoint. -/
def turnedAway (endpoint reason : String) : Attempted γ := { outcome := .error (.invalidEndpoint endpoint reason) }

/-- What connecting comes to once the addresses of the endpoint have been looked up. -/
def connectFound (found : Except Fault (List Address)) : Attempted γ :=
  match found with
  | .error f => { outcome := .error (.resolve endpoint f) }
  | .ok [] => { outcome := .error (.resolve endpoint noAddresses) }
  | .ok (a :: rest) => net.connectAny clock endpoint (a :: rest) timeout now

theorem connect_eq : net.connect clock endpoint timeout now = match Endpoint.ofText endpoint with
    | .error f => turnedAway endpoint f.message
    | .ok _ => net.connectFound clock endpoint timeout now (net.addresses endpoint) := by
  unfold connect resolve
  cases Endpoint.ofText endpoint with
  | error f => rfl
  | ok e =>
    cases net.addresses endpoint with
    | error f => rfl
    | ok found => cases found <;> rfl

variable {net clock endpoint timeout now} {reason t : String}

/-- The three faults have different texts. -/
theorem turnedAway_inj {f g : EndpointFault} :
    (turnedAway endpoint f.message : Attempted γ) = turnedAway endpoint g.message ↔ f = g := by
  refine ⟨fun h => ?_, fun h => h ▸ rfl⟩
  injection h with _ h
  injection h with h
  injection h with _ h
  cases f <;> cases g <;> first | rfl | exact absurd h (by decide)

theorem connectFound_not_invalid (found : Except Fault (List Address)) :
    (net.connectFound clock endpoint timeout now found).outcome ≠ .error (.invalidEndpoint t reason) := by
  unfold connectFound
  split
  · nofun
  · nofun
  · next a rest =>
    unfold connectAny
    simp only
    cases (net.connectFirst clock timeout 0 now (a :: rest) none).2 <;> nofun

theorem connect_eq_turnedAway_iff (f : EndpointFault) :
    net.connect clock endpoint timeout now = turnedAway endpoint f.message ↔ Endpoint.ofText endpoint = .error f := by
  rw [connect_eq]
  cases Endpoint.ofText endpoint with
  | error g => exact turnedAway_inj.trans (Except.error.injEq g f ▸ Iff.rfl)
  | ok e =>
    refine iff_of_false (fun h => ?_) nofun
    exact connectFound_not_invalid _ (congrArg Attempted.outcome h)

theorem connect_of_spells {e : Endpoint} (h : Endpoint.Spells endpoint e) :
    net.connect clock endpoint timeout now = net.connectFound clock endpoint timeout now (net.addresses endpoint) := by
  rw [connect_eq, Endpoint.ofText_eq_ok_iff.mpr h]

/-- The addresses of an endpoint are looked up exactly if its text is a host that is not empty, a colon and a numeral
    from 1 to 65535. Any other text is turned away, as it was given and without an attempt, and the reason is told from
    its white space and its colons. -/
theorem spelling_decides (net : Network γ) (clock : Clock) (endpoint : String) (timeout now : Nat) :
    ((∃ e, Endpoint.Spells endpoint e) ↔
      ∀ text reason, (net.connect clock endpoint timeout now).outcome ≠ .error (.invalidEndpoint text reason)) ∧
    (∀ e, Endpoint.Spells endpoint e →
      net.connect clock endpoint timeout now = net.connectFound clock endpoint timeout now (net.addresses endpoint)) ∧
    (net.connect clock endpoint timeout now = turnedAway endpoint "no AudioSocket server provided" ↔
      Endpoint.Blank endpoint) ∧
    (net.connect clock endpoint timeout now = turnedAway endpoint "missing host" ↔ Endpoint.Headless endpoint) ∧
    (net.connect clock endpoint timeout now = turnedAway endpoint "a port is required" ↔
      ¬Endpoint.Blank endpoint ∧ ¬Endpoint.Headless endpoint ∧ ∀ e, ¬Endpoint.Spells endpoint e) := by
  refine ⟨⟨?_, fun h => ?_⟩, fun e h => connect_of_spells h, ?_, ?_, ?_⟩
  · rintro ⟨e, h⟩ text reason
    rw [connect_of_spells h]
    exact connectFound_not_invalid _
  · cases hread : Endpoint.ofText endpoint with
    | error f =>
      rw [(connect_eq_turnedAway_iff f).mpr hread] at h
      exact absurd rfl (h endpoint f.message)
    | ok e => exact ⟨e, Endpoint.ofText_eq_ok_iff.mp hread⟩
  · exact (connect_eq_turnedAway_iff .blank).trans Endpoint.ofText_eq_blank_iff
  · exact (connect_eq_turnedAway_iff .missingHost).trans Endpoint.ofText_eq_missingHost_iff
  · exact (connect_eq_turnedAway_iff .missingPort).trans Endpoint.ofText_eq_missingPort_iff

/-- Colons before the last one belong to the host, a plus sign and zeros in front to the port. -/
example : Endpoint.ofText "::1:+0080" = .ok ⟨"::1", 80⟩ := by decide

end Network
end CallRelay
