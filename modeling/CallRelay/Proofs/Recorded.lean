import CallRelay.Dial
import CallRelay.Proofs.Samples
import CallRelay.Proofs.Session.Counters
import CallRelay.Proofs.Wave.Plain
import CallRelay.Proofs.Wave.Recording

/-! # Recorded calls

A buffer takes every payload that it is handed, at once. What it holds at the end of a session are whole samples, since
only such audio is handed over. Hence the recording of a call is loaded as what was heard, with any library that writes
canonical files and reads them back. -/

namespace CallRelay

namespace Inbound
variable {κ η : Type}

/-- Only whole samples are handed to the sink. -/
theorem Runs.whole {sink : Sink κ} {handler : Handler η} {r : Reader} {k : κ} {h : η} {now : Nat}
    {acts : List (Nat × InboundAct)} {ending : Option (Nat × InboundEnd)}
    (hruns : Runs sink handler r k h now acts ending) : ∀ b ∈ playedOf acts, WholeSamples b := by
  induction hruns with
  | played heard hm hk hw hok later ih =>
    exact List.forall_mem_cons.mpr ⟨(Message.ending?_of_audio hk).mp hm, ih⟩
  | told heard hm hk hh later ih => exact ih
  | waits | ranOut | broken | stopped | hangs | refused | held => exact List.forall_mem_nil _

theorem TakesAll.buffer (k : Bytes) (hands : List (Nat × Bytes)) :
    TakesAll Sink.buffer k hands (k ++ (hands.map Prod.snd).flatten) := by
  induction hands generalizing k with
  | nil => simpa using TakesAll.nil k
  | cons hand rest ih =>
    have hrest := ih (k ++ hand.2)
    rw [List.append_assoc] at hrest
    exact .cons rfl rfl hrest

/-- A buffer is done with a payload at the instant at which it is handed it. -/
theorem Plays.played_eq_handed {now : Nat} {k : Bytes} {acts : List (Nat × InboundAct)} {ending : Option (Nat × InboundEnd)}
    (h : Plays Sink.buffer now k acts ending) (seen : Nat → Bool) :
    playedOf (acts.filter (seen ·.1)) = handedOf (acts.filter (seen ·.1)) := by
  induction h with
  | waits now k => rfl
  | ends k => rfl
  | @quiet now t k act acts ending ht hact later ih =>
    rw [List.filter_cons]
    split
    · cases act with
      | took | ranOut | told => exact ih
      | handed | played | refused => exact hact.elim
    · exact ih
  | hangs ht hm hw =>
    cases hw
  | refused ht hm hw hf =>
    cases hw
    cases hf
  | @played now t k m p acts ending ht hm hw hok later ih =>
    cases hw
    simp only [List.filter_cons, Nat.add_zero]
    split
    · exact congrArg (m.payload :: ·) ih
    · exact ih

end Inbound

namespace Session
variable {σ η : Type} {s : Session} {leg : Leg σ Bytes η} {terms : Terms} {r : Report}

theorem run?_seen {κ : Type} {leg : Leg σ κ η} (h : s.run? leg terms = some r) :
    ∃ seen : Nat → Bool, r.halves.inbound = (s.inbound leg).acts.filter (seen ·.1) := by
  cases hhalf : r.halves.ending.half with
  | outbound => exact ⟨fun t => t < seenFor terms.first r.halves.ending.time, (run?_cut_short h hhalf).1⟩
  | inbound =>
    refine ⟨fun _ => true, ?_⟩
    rw [(run?_inbound h hhalf).1, List.filter_true]

/-- At the end of a session a buffer holds what it was handed, which are whole samples. -/
theorem run?_recorded (hsink : leg.sink = Sink.buffer) (h : s.run? leg terms = some r) :
    r.heard = (Inbound.handedOf r.halves.inbound).flatten ∧ WholeSamples r.heard := by
  obtain ⟨seen, hseen⟩ := run?_seen h
  have hplays : Inbound.Plays Sink.buffer s.opened leg.ear (s.inbound leg).acts (s.inbound leg).ending :=
    hsink ▸ Inbound.run_plays leg.sink leg.handler s.reader leg.ear leg.watch s.opened
  constructor
  · rw [Report.heard, hseen, hplays.played_eq_handed]
  · refine WholeSamples.flatten fun b hb => ?_
    have hsub : (Inbound.playedOf r.halves.inbound).Sublist (Inbound.playedOf (s.inbound leg).acts) := by
      rw [hseen]
      exact List.filter_sublist.filterMap _
    exact (Inbound.run_runs leg.sink leg.handler s.reader leg.ear leg.watch s.opened).whole b (hsub.subset hb)

end Session

namespace Recording
open Wave
variable {ρ ω ε : Type} {lib : Library ρ ω ε}

theorem load_save_whole (hlib : lib.Canonical sampleRate) {pcm : Bytes} (hfits : Fits pcm.length)
    (hwhole : WholeSamples pcm) : ∃ file, save lib pcm = .ok file ∧ load lib file = .ok pcm := by
  have hloads := load_save hlib hfits
  unfold WholeSamples at hwhole
  rwa [if_pos hwhole] at hloads

/-- What a buffer holds at the end of a session is loaded from its recording. -/
theorem loads_heard (hlib : lib.Canonical sampleRate) {σ η : Type} {s : Session} {leg : Leg σ Bytes η} {terms : Terms}
    {r : Session.Report} (hsink : leg.sink = Sink.buffer) (hr : s.run? leg terms = some r) :
    Inbound.TakesAll Sink.buffer leg.ear (Inbound.handsOf r.halves.inbound) (leg.ear ++ r.heard) ∧
      r.halves.received.bytes = r.heard.length ∧
      (Fits r.heard.length → ∃ file, save lib r.heard = .ok file ∧ load lib file = .ok r.heard) := by
  obtain ⟨hhanded, hwhole⟩ := Session.run?_recorded hsink hr
  refine ⟨?_, ?_, fun hfits => load_save_whole hlib hfits hwhole⟩
  · rw [hhanded, Inbound.handedOf_eq]
    exact Inbound.TakesAll.buffer leg.ear (Inbound.handsOf r.halves.inbound)
  · rw [hhanded, Session.Halves.received, Traffic.of, List.length_flatten]
    rfl

end Recording

namespace Dial
open Recording (load save)

/-- The summary of a call that has come to its end. -/
def Outcome.summary? {ε : Type} : Outcome ε → Option Summary
  | ended summary _ | unrecorded summary _ _ => some summary
  | misused | unloaded _ | failed _ | stuck => none

/-- A session `s` is dialled for the request `q`, and its run reports `r`. -/
structure Reports (net : Network Connection) (clock : Clock) (q : Request) (pcm : Bytes) (id : Identity)
    (seconds now : Nat) (cancel : Option Nat) (s : Session) (r : Session.Report) : Prop where
  connected : ∃ conn, (net.connect clock q.endpoint ({} : Config).connectTimeout now).outcome = .ok conn ∧
    (Session.dial conn id {} (now + (net.connect clock q.endpoint ({} : Config).connectTimeout now).elapsed)).ending =
      .opened s
  run : s.run? (leg pcm) { clock, deadline := Span.ofSeconds seconds, cancel } = some r

variable {ρ ω ε : Type} {net : Network Connection} {clock : Clock} {wav : Wave.Library ρ ω ε} {q : Request} {pcm : Bytes}
  {id : Identity} {now : Nat} {cancel : Option Nat} {summary : Summary} {o : Outcome ε}

theorem conclude_summary? (wav : Wave.Library ρ ω ε) (record : Option String) (heard : Bytes) (summary : Summary) :
    (conclude wav record heard summary).summary? = some summary := by
  unfold conclude
  split
  · rfl
  · split <;> rfl

theorem call_concludes {seconds : Nat} (h : call net clock wav q pcm id seconds now cancel = o)
    (hs : o.summary? = some summary) : ∃ s r, Reports net clock q pcm id seconds now cancel s r ∧
      r.result = .ok summary ∧ o = conclude wav q.record r.heard summary := by
  unfold call at h
  simp only at h
  split at h
  · subst h
    cases hs
  · next conn hconn =>
    split at h
    · subst h
      cases hs
    · subst h
      cases hs
    · next s hopened =>
      split at h
      · subst h
        cases hs
      · next r hr =>
        split at h
        · subst h
          cases hs
        · next summary' hok =>
          rw [← h, conclude_summary?] at hs
          cases hs
          exact ⟨s, r, ⟨⟨conn, hconn, hopened⟩, hr⟩, hok, h.symm⟩

theorem run_concludes {files : String → Option Bytes} {arguments : List String} {seconds : Option String}
    (h : run net clock wav files arguments seconds id now cancel = o) (hs : o.summary? = some summary) :
    ∃ q pcm s r, ofArguments? arguments = some q ∧ (files q.recording).map (load wav) = some (.ok pcm) ∧
      Reports net clock q pcm id (Settings.dialledSeconds seconds) now cancel s r ∧ r.result = .ok summary ∧
      o = conclude wav q.record r.heard summary := by
  unfold run at h
  split at h
  · subst h
    cases hs
  · next q hq =>
    split at h
    · subst h
      cases hs
    · next b hb =>
      split at h
      · subst h
        cases hs
      · next pcm hpcm =>
        obtain ⟨s, r, hreports, hok, ho⟩ := call_concludes h hs
        refine ⟨q, pcm, s, r, hq, ?_, hreports, hok, ho⟩
        rw [hb, Option.map_some, hpcm]

end Dial

/-- With a library that writes canonical files and reads them back, bytes are saved and loaded as whole samples. A buffer
    at the ear of a session holds all that it was handed, and that is loaded from its recording. So is what was heard in
    a dialled call, from the file that is recorded of it. -/
theorem Recording.heard_loaded {ρ ω ε : Type} (lib : Wave.Library ρ ω ε) (hlib : lib.Canonical sampleRate) :
    (∀ pcm, Wave.Fits pcm.length →
      ∃ file, save lib pcm = .ok file ∧ load lib file = .ok (if pcm.length % 2 = 0 then pcm else pcm.dropLast)) ∧
    (∀ (σ η : Type) (s : Session) (leg : Leg σ Bytes η) terms r, leg.sink = Sink.buffer → s.run? leg terms = some r →
      Inbound.TakesAll Sink.buffer leg.ear (Inbound.handsOf r.halves.inbound) (leg.ear ++ r.heard) ∧
      r.halves.received.bytes = r.heard.length ∧
      (Wave.Fits r.heard.length → ∃ file, save lib r.heard = .ok file ∧ load lib file = .ok r.heard)) ∧
    (∀ net clock files arguments seconds id now cancel o summary,
      Dial.run net clock lib files arguments seconds id now cancel = o → o.summary? = some summary →
      ∃ q pcm s r, Dial.ofArguments? arguments = some q ∧ (files q.recording).map (load lib) = some (.ok pcm) ∧
        Dial.Reports net clock q pcm id (Settings.dialledSeconds seconds) now cancel s r ∧ r.result = .ok summary ∧
        Inbound.TakesAll Sink.buffer [] (Inbound.handsOf r.halves.inbound) r.heard ∧
        ∀ path, q.record = some path → Wave.Fits summary.received.bytes →
          ∃ file, o = .ended summary (some (path, file)) ∧ load lib file = .ok r.heard) := by
  refine ⟨fun pcm => load_save hlib, fun σ η s leg terms r => loads_heard hlib, ?_⟩
  intro net clock files arguments seconds id now cancel o summary hrun hsummary
  obtain ⟨q, pcm, s, r, hq, hpcm, hreports, hok, ho⟩ := Dial.run_concludes hrun hsummary
  obtain ⟨htakes, hbytes, hloads⟩ := loads_heard hlib rfl hreports.run
  refine ⟨q, pcm, s, r, hq, hpcm, hreports, hok, htakes, fun path hpath hfits => ?_⟩
  obtain ⟨d, -, rfl⟩ := Session.run?_ok hreports.run hok
  obtain ⟨file, hsave, hload⟩ := hloads (hbytes ▸ hfits)
  refine ⟨file, ?_, hload⟩
  rw [ho, hpath, Dial.conclude]
  simp only [hsave]

namespace Dial
open Recording (load save)

/-! ### A reply of five samples -/

/-- Nothing, the smallest steps up and down, and the ends of the range. -/
def reply : Bytes := Wave.bytesOf [0, 1, -1, Int16.maxValue, Int16.minValue]

/-- The file of samples. -/
def fileOf (pcm : Bytes) : Bytes := Wave.canonical Recording.sampleRate (Wave.samplesOf pcm)

/-- Every address is answered, by a service that sends the reply in two messages and hangs up. -/
def answering : Network Connection where
  lookup _ _ := .error Network.nameless
  attempt _ _ := some (0, .ok ⟨[⟨0, .bytes ([0x10, 0, 4] ++ reply.take 4 ++ [0x10, 0, 6] ++ reply.drop 4 ++ encodeHangup)⟩],
    Session.quickLine⟩)
  listen _ := .ok ()

/-- A prompt of one sample is played. -/
def replied : Outcome Wave.WaveFault :=
  run answering Session.shortTerms.clock Wave.plain (fun _ => some (fileOf [1, 2]))
    ["127.0.0.1:8080", "prompt.wav", "reply.wav"] none (.repeated 7) 0 none

theorem replied_ended : ∃ summary, replied = .ended summary (some ("reply.wav", fileOf reply)) ∧
    summary.received = ⟨2, 10⟩ := by
  with_unfolding_all exact ⟨_, rfl, rfl⟩

theorem load_fileOf {pcm : Bytes} (h : Wave.Fits pcm.length) (hwhole : WholeSamples pcm) :
    load Wave.plain (fileOf pcm) = .ok pcm := by
  obtain ⟨file, hsave, hload⟩ := Recording.load_save_whole Wave.plain_canonical h hwhole
  cases hsave.symm.trans (Recording.save_canonical Wave.plain_canonical (Recording.fits_samplesOf h))
  exact hload

theorem reply_loaded : (∃ file, save Wave.plain (reply ++ [0x7f]) = .ok file ∧ load Wave.plain file = .ok reply) ∧
    ∃ (summary : Summary) (s : Session) (r : Session.Report),
      replied = .ended summary (some ("reply.wav", fileOf reply)) ∧
      s.run? (leg [1, 2]) { Session.shortTerms with deadline := Span.ofSeconds 120 } = some r ∧ r.result = .ok summary ∧
      Inbound.TakesAll Sink.buffer [] (Inbound.handsOf r.halves.inbound) reply ∧
      load Wave.plain (fileOf reply) = .ok reply := by
  obtain ⟨hsaved, hheard, hdialled⟩ := Recording.heard_loaded Wave.plain Wave.plain_canonical
  obtain ⟨summary, hended, hreceived⟩ := replied_ended
  obtain ⟨q, pcm, s, r, hq, hpcm, hreports, hok, htakes, hfile⟩ :=
    hdialled _ _ _ _ _ _ _ _ _ summary rfl (congrArg Outcome.summary? hended)
  cases hq
  obtain ⟨file, hended', hloaded⟩ := hfile "reply.wav" rfl (by rw [hreceived]; decide)
  cases hended.symm.trans hended'
  have hreply : r.heard = reply := Except.ok.inj (hloaded.symm.trans (load_fileOf (by decide) (by decide)))
  have hprompt : pcm = [1, 2] :=
    Except.ok.inj (Option.some.inj (hpcm.symm.trans (congrArg some (load_fileOf (by decide) (by decide)))))
  rw [hreply] at hloaded htakes
  subst hprompt
  exact ⟨hsaved (reply ++ [0x7f]) (by decide), summary, s, r, hended, hreports.run, hok, htakes, hloaded⟩

end Dial
end CallRelay
