import CallRelay.Proofs.Sources
import CallRelay.Source.Silence

/-! # Whole samples

A sample has two bytes. A source that is fed with whole samples hands out whole samples only, if it is always asked for
an even number of bytes. An odd number cuts a sample in two; only silence rounds it down, and nothing is left then of a
single byte. -/

namespace CallRelay

def WholeSamples (b : Bytes) : Prop := b.length % 2 = 0

instance (b : Bytes) : Decidable (WholeSamples b) := inferInstanceAs (Decidable (b.length % 2 = 0))

theorem WholeSamples.take {b : Bytes} {n : Nat} (h : WholeSamples b) (hn : n % 2 = 0) : WholeSamples (b.take n) := by
  unfold WholeSamples at h ⊢
  rw [List.length_take]
  omega

theorem WholeSamples.drop {b : Bytes} {n : Nat} (h : WholeSamples b) (hn : n % 2 = 0) : WholeSamples (b.drop n) := by
  unfold WholeSamples at h ⊢
  rw [List.length_drop]
  omega

theorem WholeSamples.flatten {bs : List Bytes} (h : ∀ b ∈ bs, WholeSamples b) : WholeSamples bs.flatten := by
  induction bs with
  | nil => rfl
  | cons b rest ih =>
    obtain ⟨hb, hrest⟩ := List.forall_mem_cons.mp h
    have hflat := ih hrest
    unfold WholeSamples at hb hflat ⊢
    rw [List.flatten_cons, List.length_append]
    omega

/-- One byte more than a request asks for. -/
def longer (room : Nat) : Bytes := List.replicate (room + 1) 0

theorem length_longer (room : Nat) : (longer room).length = room + 1 := List.length_replicate

theorem longer_whole {room : Nat} (hodd : room % 2 = 1) : WholeSamples (longer room) := by
  unfold WholeSamples
  rw [length_longer]
  omega

theorem not_whole_take_longer {room : Nat} (hodd : room % 2 = 1) : ¬WholeSamples ((longer room).take room) := by
  unfold WholeSamples
  rw [List.length_take, length_longer, Nat.min_eq_left (Nat.le_succ room), hodd]
  exact Nat.one_ne_zero

/-- The end of the audio, or whole samples and at least one of them. -/
def Supply.Whole : Supply → Prop
  | chunk b => b ≠ [] ∧ WholeSamples b
  | done => True
  | failed _ => False

namespace Source
variable {σ : Type} {src : Source σ} {room : Nat} {s s' : σ} {I : σ → Prop} {Q : Supply → Prop}

/-- The states of a source that is asked for `room` bytes again and again, whether or not its answers are awaited. -/
inductive Reaches (src : Source σ) (room : Nat) (s : σ) : σ → Prop
  | start : Reaches src room s s
  | answered {s' : σ} {now : Nat} {a : Supplied σ} (h : Reaches src room s s') (ha : src.next s' room now = some a) :
      Reaches src room s a.source
  | dropped {s' : σ} {now limit : Nat} (h : Reaches src room s s') : Reaches src room s (src.dropped s' room now limit)

/-- From `s` on, each answer to a request for `room` bytes is as `Q` tells. -/
def Supplies (src : Source σ) (room : Nat) (s : σ) (Q : Supply → Prop) : Prop :=
  ∀ s', src.Reaches room s s' → ∀ now a, src.next s' room now = some a → Q a.supply

/-- From `s` on, each request for `room` bytes is answered as `Q` tells. -/
def Serves (src : Source σ) (room : Nat) (s : σ) (Q : Supply → Prop) : Prop :=
  ∀ s', src.Reaches room s s' → ∀ now, ∃ a, src.next s' room now = some a ∧ Q a.supply

/-- Where `I` holds an answer is as `Q` tells, and no request breaks it. -/
structure Upholds (src : Source σ) (room : Nat) (I : σ → Prop) (Q : Supply → Prop) : Prop where
  answer : ∀ {s : σ} {now : Nat} {a : Supplied σ}, I s → src.next s room now = some a → Q a.supply ∧ I a.source
  dropped : ∀ {s : σ} {now limit : Nat}, I s → I (src.dropped s room now limit)

theorem Upholds.reaches (h : src.Upholds room I Q) (hs : I s) (hr : src.Reaches room s s') : I s' := by
  induction hr with
  | start => exact hs
  | answered _ ha ih => exact (h.answer ih ha).2
  | dropped _ ih => exact h.dropped ih

theorem Upholds.supplies (h : src.Upholds room I Q) (hs : I s) : src.Supplies room s Q :=
  fun _ hr _ _ ha => (h.answer (h.reaches hs hr) ha).1

end Source

theorem Supply.whole_take {c : Bytes} {room : Nat} (hc : c ≠ []) (hwhole : WholeSamples c) (hroom : 0 < room)
    (heven : room % 2 = 0) : (Supply.chunk (c.take room)).Whole ∧ WholeSamples (c.drop room) := by
  refine ⟨⟨?_, hwhole.take heven⟩, hwhole.drop heven⟩
  rw [Ne, List.take_eq_nil_iff]
  rintro (rfl | rfl)
  · exact Nat.lt_irrefl 0 hroom
  · exact hc rfl

/-! ### Clips and silence -/

namespace Clip
variable {c : Clip} {room now : Nat}

theorem length_chunk (h : c.offset < c.requestEnd room) :
    ((c.data.drop c.offset).take (c.requestEnd room - c.offset)).length = c.requestEnd room - c.offset := by
  have hlast := Nat.le_trans (c.requestEnd_le room).1 c.playable_le
  rw [List.length_take, List.length_drop]
  omega

theorem requestEnd_even (hc : c.offset % 2 = 0) (heven : room % 2 = 0) : c.requestEnd room % 2 = 0 := by
  unfold requestEnd playable
  omega

theorem upholds_even (heven : room % 2 = 0) : source.Upholds room (fun c => c.offset % 2 = 0) Supply.Whole where
  answer := by
    intro c now a hc hnext
    rw [next_eq] at hnext
    split at hnext
    · next hlt =>
      cases hnext
      have hlength := length_chunk hlt.2
      have hlast := requestEnd_even hc heven
      refine ⟨⟨List.length_pos_iff.mp (by omega), ?_⟩, hlast⟩
      unfold WholeSamples
      omega
    · cases hnext
      exact ⟨trivial, hc⟩
  dropped hc := hc

theorem next_longer (hroom : 0 < room) (hle : room ≤ maxPayload) (hodd : room % 2 = 1) :
    ∃ a, source.next ⟨longer room, 0⟩ room now = some a ∧ a.supply = .chunk ((longer room).take room) := by
  have hend : requestEnd ⟨longer room, 0⟩ room = room := by
    unfold maxPayload at hle
    simp only [requestEnd, playable, length_longer]
    omega
  have hreaches : Reaches ⟨longer room, 0⟩ room := by
    unfold maxPayload at hle
    simp only [Reaches, UInt64.size]
    omega
  exact ⟨_, by rw [next_eq, hend, if_pos ⟨hreaches, hroom⟩], rfl⟩

/-- Requests for clips are answered, and with whole samples exactly if they are for an even number of bytes. -/
theorem serves_whole_iff (hroom : 0 < room) (hle : room ≤ maxPayload) :
    (∀ data, source.Serves room ⟨data, 0⟩ Supply.Whole) ↔ room % 2 = 0 := by
  constructor
  · intro h
    rcases Nat.mod_two_eq_zero_or_one room with heven | hodd
    · exact heven
    · obtain ⟨a, hnext, hsupply⟩ := next_longer hroom hle hodd
      obtain ⟨a', hnext', hwhole⟩ := h _ _ .start 0
      cases hnext.symm.trans hnext'
      rw [hsupply] at hwhole
      exact absurd hwhole.2 (not_whole_take_longer hodd)
  · intro heven data c hr now
    obtain ⟨a, ha⟩ : ∃ a, source.next c room now = some a := by
      rw [next_eq]
      split <;> exact ⟨_, rfl⟩
    exact ⟨a, ha, (upholds_even heven).supplies rfl c hr now a ha⟩

end Clip

namespace Silence

theorem length_samples (room : Nat) : (samples room).length = room / 2 * 2 := List.length_replicate

theorem samples_whole (room : Nat) : WholeSamples (samples room) := by
  unfold WholeSamples
  rw [length_samples]
  omega

/-- Requests for silence are answered with at least one whole sample exactly if they are for more than one byte. -/
theorem serves_whole_iff {room : Nat} :
    source.Serves room () (fun x => ∃ b, x = .chunk b ∧ b ≠ [] ∧ WholeSamples b) ↔ 2 ≤ room := by
  constructor
  · intro h
    obtain ⟨a, hnext, b, hb, hne, -⟩ := h () .start 0
    cases hnext
    cases hb
    have hpos := List.length_pos_iff.mpr hne
    rw [length_samples] at hpos
    omega
  · intro hroom s hr now
    refine ⟨_, rfl, _, rfl, List.length_pos_iff.mp ?_, samples_whole room⟩
    rw [length_samples]
    omega

end Silence

/-! ### Feeds -/

namespace Feed
variable {f : Feed} {room now : Nat}

/-- All audio that the feed still has is whole samples, frame by frame. -/
def Whole (f : Feed) : Prop := WholeSamples f.pending ∧ ∀ x ∈ f.frames, WholeSamples x.2

theorem upholds_whole (hroom : 0 < room) (heven : room % 2 = 0) : source.Upholds room Whole Supply.Whole where
  answer := by
    rintro f now a ⟨hpending, hframes⟩ hnext
    obtain ⟨taken, hlooks⟩ := next_looks hnext
    rw [hlooks.frames] at hframes
    obtain ⟨htaken, hleft⟩ := List.forall_mem_append.mp hframes
    rcases hlooks.splits with ⟨-, hnone, hdone, -⟩ | ⟨c, hc, hfrom, hchunk, hrest⟩
    · rw [hdone]
      exact ⟨trivial, hnone ▸ rfl, hleft⟩
    · have hwhole : WholeSamples c := by
        rcases hfrom with rfl | ⟨t, hmem⟩
        · exact hpending
        · exact htaken _ hmem
      obtain ⟨hfront, hbehind⟩ := Supply.whole_take hc hwhole hroom heven
      rw [hchunk]
      exact ⟨hfront, hrest ▸ hbehind, hleft⟩
  dropped := by
    rintro f now limit ⟨hpending, hframes⟩
    obtain ⟨silent, hleft, -, hsame, -⟩ := dropped_looks f room now limit
    exact ⟨hsame ▸ hpending, fun x hx => hframes x (hleft ▸ List.mem_append_right _ hx)⟩

theorem supplies_whole_iff (hroom : 0 < room) :
    (∀ f : Feed, f.Whole → source.Supplies room f Supply.Whole) ↔ room % 2 = 0 := by
  constructor
  · intro h
    rcases Nat.mod_two_eq_zero_or_one room with heven | hodd
    · exact heven
    · have hfed : Whole ⟨[(0, longer room)], none, []⟩ := ⟨rfl, List.forall_mem_singleton.mpr (longer_whole hodd)⟩
      obtain ⟨-, hwhole⟩ := h _ hfed _ .start 0 _ rfl
      exact absurd hwhole (not_whole_take_longer hodd)
  · intro heven f hf
    exact (upholds_whole hroom heven).supplies hf

end Feed

/-! ### Host channels -/

namespace HostVoice
variable {v : HostVoice} {room now : Nat}

/-- All voice that the channel still has is whole samples, frame by frame. -/
def Whole (v : HostVoice) : Prop := WholeSamples v.pending ∧ ∀ t b, (t, .voice b) ∈ v.leg.frames → WholeSamples b

def Faults (v : HostVoice) (x : Supply) : Prop := ∃ t e, x = .failed e ∧ (t, .fault e) ∈ v.leg.frames

theorem upholds_whole (hv : v.Whole) (hroom : 0 < room) (heven : room % 2 = 0) :
    source.Upholds room (fun v' => WholeSamples v'.pending ∧ v'.leg.frames <:+ v.leg.frames)
      fun x => x.Whole ∨ v.Faults x where
  answer := by
    rintro v' now a ⟨hpending, hframes⟩ hnext
    -- Frames are only ever left behind, so that each one read is among those at the start.
    obtain ⟨taken, hlooks⟩ := next_looks hnext
    rw [hlooks.frames] at hframes
    have hleft := (List.suffix_append taken _).trans hframes
    have htaken := fun x (hx : x ∈ taken) => hframes.subset (List.mem_append_left _ hx)
    rcases hlooks.splits with ⟨-, hnone, hlast⟩ | ⟨c, hc, hfrom, hchunk, hrest⟩
    · refine ⟨?_, hnone ▸ rfl, hleft⟩
      rcases hlast with ⟨hdone, -⟩ | ⟨silent, t, e, hfailed, rfl, -⟩
      · exact Or.inl (hdone ▸ trivial)
      · exact Or.inr ⟨t, e, hfailed, htaken _ (List.mem_append_right _ List.mem_cons_self)⟩
    · have hwhole : WholeSamples c := by
        rcases hfrom with rfl | ⟨t, hmem⟩
        · exact hpending
        · exact hv.2 t c (htaken _ hmem)
      obtain ⟨hfront, hbehind⟩ := Supply.whole_take hc hwhole hroom heven
      exact ⟨Or.inl (hchunk ▸ hfront), hrest ▸ hbehind, hleft⟩
  dropped := by
    rintro v' now limit ⟨hpending, hframes⟩
    obtain ⟨silent, hleft, -, -, -, hsame⟩ := dropped_looks v' room now limit
    rw [hleft] at hframes
    exact ⟨hsame ▸ hpending, (List.suffix_append silent _).trans hframes⟩

theorem supplies_whole_iff (hroom : 0 < room) :
    (∀ v : HostVoice, v.Whole → source.Supplies room v fun x => x.Whole ∨ v.Faults x) ↔ room % 2 = 0 := by
  constructor
  · intro h
    rcases Nat.mod_two_eq_zero_or_one room with heven | hodd
    · exact heven
    · have hfed : Whole ⟨⟨[(0, .voice (longer room))], 0, fun _ _ => true⟩, []⟩ := by
        refine ⟨rfl, fun t b hmem => ?_⟩
        cases List.mem_singleton.mp hmem
        exact longer_whole hodd
      rcases h _ hfed _ .start 0 _ rfl with ⟨-, hwhole⟩ | ⟨t, e, hfailed, -⟩
      · exact absurd hwhole (not_whole_take_longer hodd)
      · cases hfailed
  · intro heven v hv
    exact (upholds_whole hv hroom heven).supplies ⟨hv.1, List.suffix_refl _⟩

end HostVoice

/-! ### The four sources -/

/-- A source at its start that is fed with whole samples and asked for an even number of bytes, or silence. -/
inductive Source.Sound (room : Nat) : {σ : Type} → Source σ → σ → Prop
  | clip (data : Bytes) (heven : room % 2 = 0) : Sound room Clip.source ⟨data, 0⟩
  | silence : Sound room Silence.source ()
  | feed (f : Feed) (hf : f.Whole) (heven : room % 2 = 0) : Sound room Feed.source f
  | voice (v : HostVoice) (hv : v.Whole) (heven : room % 2 = 0) : Sound room HostVoice.source v

/-- What is handed out, if anything, is whole samples. -/
def Supply.Aligned (x : Supply) : Prop := WholeSamples x.audio

theorem Supply.Whole.aligned {x : Supply} (h : x.Whole) : x.Aligned := by
  cases x with
  | chunk b => exact h.2
  | done => rfl
  | failed e => exact h.elim

theorem Source.Sound.supplies {room : Nat} (hroom : 0 < room) {σ : Type} {src : Source σ} {s : σ} (h : src.Sound room s) :
    src.Supplies room s Supply.Aligned := by
  intro s' hr now a ha
  cases h with
  | clip data heven => exact ((Clip.upholds_even heven).supplies rfl s' hr now a ha).aligned
  | silence =>
    cases ha
    exact Silence.samples_whole room
  | feed f hf heven => exact ((Feed.upholds_whole hroom heven).supplies hf s' hr now a ha).aligned
  | voice v hv heven =>
    rcases (HostVoice.supplies_whole_iff hroom).mpr heven v hv s' hr now a ha with hwhole | ⟨t, e, hfailed, -⟩
    · exact hwhole.aligned
    · rw [hfailed]
      rfl

end CallRelay
