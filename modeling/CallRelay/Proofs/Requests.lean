import CallRelay.Source.Feed
import CallRelay.Source.HostVoice

/-! # One request for live audio

A feed and a host channel go through their frames in the same way. As long as a rest of the last frame is left it is
handed out, and nothing is read. Then frames with nothing to hand out are passed over up to the next one with audio, to
a fault or to the end. A request that is given up has passed over such frames only. -/

namespace CallRelay

namespace HostRead

@[simp] def voice? : HostRead → Option Bytes
  | voice b => some b
  | other | fault _ => none

@[simp] def fault? : HostRead → Option Fault
  | fault f => some f
  | voice _ | other => none

/-- There is nothing in it to hand out. -/
def Silent (r : HostRead) : Prop := r = .other ∨ r = .voice []

theorem silent_voice_iff {b : Bytes} : (voice b).Silent ↔ b = [] := by simp [Silent]

theorem Silent.fault? {r : HostRead} (h : r.Silent) : r.fault? = none := by
  rcases h with rfl | rfl <;> rfl

theorem flatten_voices_of_silent {reads : List HostRead} (h : ∀ r ∈ reads, r.Silent) :
    (reads.filterMap voice?).flatten = [] := by
  refine List.flatten_eq_nil_iff.mpr fun b hb => ?_
  obtain ⟨r, hr, hvoice⟩ := List.mem_filterMap.mp hb
  rcases h r hr with rfl | rfl
  · cases hvoice
  · exact (Option.some.inj hvoice).symm

end HostRead

namespace Supply

/-- The audio that is handed out with an answer. -/
def audio : Supply → Bytes
  | chunk b => b
  | done | failed _ => []

@[simp] def chunk? : Supply → Option Bytes
  | chunk b => some b
  | done | failed _ => none

@[simp] def fault? : Supply → Option Fault
  | failed f => some f
  | chunk _ | done => none

end Supply

/-- What a request for `room` bytes reads, how it is answered, if it is, and what is left of the last frame. -/
inductive Handed (room : Nat) : Bytes → List HostRead → Option Supply → Bytes → Prop
  | rest {p : Bytes} (hp : p ≠ []) : Handed room p [] (some (.chunk (p.take room))) (p.drop room)
  | voice {silent : List HostRead} {b : Bytes} (hs : ∀ r ∈ silent, r.Silent) (hb : b ≠ []) :
      Handed room [] (silent ++ [.voice b]) (some (.chunk (b.take room))) (b.drop room)
  | fault {silent : List HostRead} {e : Fault} (hs : ∀ r ∈ silent, r.Silent) :
      Handed room [] (silent ++ [.fault e]) (some (.failed e)) []
  | done {silent : List HostRead} (hs : ∀ r ∈ silent, r.Silent) : Handed room [] silent (some .done) []
  | givenUp {silent : List HostRead} (hs : ∀ r ∈ silent, r.Silent) : Handed room [] silent none []

namespace Handed
variable {room : Nat} {p p' : Bytes} {reads : List HostRead} {x : Supply}

/-- No audio is lost. -/
theorem audio (h : Handed room p reads (some x) p') : p ++ (reads.filterMap HostRead.voice?).flatten = x.audio ++ p' := by
  cases h with
  | rest hp => exact (List.append_nil p).trans (List.take_append_drop room p).symm
  | @voice silent b hs hb =>
    rw [List.filterMap_append, List.flatten_append, HostRead.flatten_voices_of_silent hs]
    exact (List.append_nil b).trans (List.take_append_drop room b).symm
  | fault hs =>
    rw [List.filterMap_append, List.flatten_append, HostRead.flatten_voices_of_silent hs]
    rfl
  | done hs => exact HostRead.flatten_voices_of_silent hs

theorem faults {x : Option Supply} (h : Handed room p reads x p') :
    (x.bind Supply.fault?).toList = reads.filterMap HostRead.fault? := by
  have hsilent : ∀ {silent : List HostRead}, (∀ r ∈ silent, r.Silent) → silent.filterMap HostRead.fault? = [] := fun hs =>
    List.filterMap_eq_nil_iff.mpr fun r hr => (hs r hr).fault?
  cases h with
  | rest hp => rfl
  | voice hs hb | fault hs =>
    rw [List.filterMap_append, hsilent hs]
    rfl
  | done hs | givenUp hs => exact (hsilent hs).symm

theorem sound (h : Handed room p reads (some x) p') (hx : ∀ e, x ≠ .failed e) : ∀ r ∈ reads, ∀ e, r ≠ .fault e := by
  rintro r hr e rfl
  have hfault : e ∈ reads.filterMap HostRead.fault? := List.mem_filterMap.mpr ⟨.fault e, hr, rfl⟩
  rw [← h.faults] at hfault
  cases x with
  | failed f => exact hx f rfl
  | chunk | done => exact absurd hfault List.not_mem_nil

/-- The front of a frame is handed out, and the rest of it is kept; or nothing is kept. -/
theorem splits (h : Handed room p reads (some x) p') :
    p = [] ∧ p' = [] ∧ (x = .done ∧ (∀ r ∈ reads, r.Silent) ∨
      ∃ silent e, x = .failed e ∧ reads = silent ++ [.fault e] ∧ ∀ r ∈ silent, r.Silent) ∨
    ∃ b, b ≠ [] ∧ (b = p ∨ .voice b ∈ reads) ∧ x = .chunk (b.take room) ∧ p' = b.drop room := by
  cases h with
  | rest hp => exact Or.inr ⟨p, hp, Or.inl rfl, rfl, rfl⟩
  | voice hs hb => exact Or.inr ⟨_, hb, Or.inr (List.mem_append_right _ List.mem_cons_self), rfl, rfl⟩
  | fault hs => exact Or.inl ⟨rfl, rfl, Or.inr ⟨_, _, rfl, rfl, hs⟩⟩
  | done hs => exact Or.inl ⟨rfl, rfl, Or.inl ⟨rfl, hs⟩⟩

end Handed

/-! ### Feeds -/

namespace Feed
variable {f : Feed} {room now : Nat} {a : Supplied Feed}

theorem frame?_reads {t : Nat} {b : Bytes} {frames rest : List (Nat × Bytes)} (h : frame? now frames = some (t, b, rest)) :
    b ≠ [] ∧ now ≤ t ∧ ∃ silent sent, frames = (silent ++ [(sent, b)]) ++ rest ∧ (∀ x ∈ silent, x.2 = []) ∧
      ∀ x ∈ silent ++ [(sent, b)], x.1 ≤ t := by
  induction frames generalizing now with
  | nil => cases h
  | cons f frames ih =>
    obtain ⟨sent, c⟩ := f
    unfold frame? at h
    split at h
    · next hc =>
      obtain ⟨hb, hle, silent, sent', rfl, hsilent, hcome⟩ := ih h
      refine ⟨hb, Nat.le_trans (Nat.le_max_left _ _) hle, (sent, c) :: silent, sent', rfl,
        List.forall_mem_cons.mpr ⟨hc, hsilent⟩, ?_⟩
      exact List.forall_mem_cons.mpr ⟨Nat.le_trans (Nat.le_max_right _ _) hle, hcome⟩
    · next hc =>
      cases h
      refine ⟨hc, Nat.le_max_left _ _, [], sent, rfl, List.forall_mem_nil _, ?_⟩
      exact List.forall_mem_singleton.mpr (Nat.le_max_right _ _)

theorem frame?_eq_none_iff {frames : List (Nat × Bytes)} : frame? now frames = none ↔ ∀ x ∈ frames, x.2 = [] := by
  induction frames generalizing now with
  | nil => exact iff_of_true rfl (List.forall_mem_nil _)
  | cons f frames ih =>
    obtain ⟨sent, c⟩ := f
    rw [List.forall_mem_cons]
    unfold frame?
    split
    · next hc => exact ih.trans (and_iff_right hc).symm
    · next hc => exact iff_of_false (Option.some_ne_none _) fun h => hc h.1

theorem skipEmpty_reads (limit : Nat) (frames : List (Nat × Bytes)) :
    ∃ silent, frames = silent ++ skipEmpty limit frames ∧ ∀ x ∈ silent, x.2 = [] ∧ x.1 ≤ limit := by
  induction frames with
  | nil => exact ⟨[], rfl, List.forall_mem_nil _⟩
  | cons f frames ih =>
    obtain ⟨sent, c⟩ := f
    obtain ⟨silent, hframes, hsilent⟩ := ih
    unfold skipEmpty
    split
    · next hc => exact ⟨(sent, c) :: silent, congrArg ((sent, c) :: ·) hframes, List.forall_mem_cons.mpr ⟨hc, hsilent⟩⟩
    · exact ⟨[], rfl, List.forall_mem_nil _⟩

theorem le_allTaken (now : Nat) (frames : List (Nat × Bytes)) :
    now ≤ allTaken now frames ∧ ∀ x ∈ frames, x.1 ≤ allTaken now frames := by
  induction frames generalizing now with
  | nil => exact ⟨Nat.le_refl now, List.forall_mem_nil _⟩
  | cons f frames ih =>
    obtain ⟨hle, hall⟩ := ih (max now f.1)
    have hle : max now f.1 ≤ allTaken now (f :: frames) := hle
    refine ⟨Nat.le_trans (Nat.le_max_left _ _) hle, List.forall_mem_cons.mpr ⟨?_, hall⟩⟩
    exact Nat.le_trans (Nat.le_max_right _ _) hle

theorem silent_of_empty {silent : List (Nat × Bytes)} (h : ∀ x ∈ silent, x.2 = []) :
    ∀ r ∈ silent.map fun x => HostRead.voice x.2, r.Silent := by
  intro r hr
  obtain ⟨x, hx, rfl⟩ := List.mem_map.mp hr
  exact HostRead.silent_voice_iff.mpr (h x hx)

/-- The answer `a` to a request takes these frames, each of which is like a voice frame of a host channel. -/
structure Looks (f : Feed) (room now : Nat) (a : Supplied Feed) (taken : List (Nat × Bytes)) : Prop where
  frames : f.frames = taken ++ a.source.frames
  come : ∀ x ∈ taken, x.1 ≤ now + a.delay
  closes : a.source.closes = f.closes
  handed : Handed room f.pending (taken.map fun x => .voice x.2) (some a.supply) a.source.pending
  closed : a.supply = .done → a.source.frames = [] ∧ ∃ t, a.source.closes = some t ∧ t ≤ now + a.delay

theorem next_rest (hp : f.pending ≠ []) (room now : Nat) : f.next room now = some (f.handOut room 0) := if_pos hp

theorem next_looks (h : f.next room now = some a) : ∃ taken, Looks f room now a taken := by
  by_cases hp : f.pending = []
  · unfold next at h
    rw [if_neg (not_not_intro hp)] at h
    split at h
    · next t b rest hframe =>
      cases h
      obtain ⟨hb, hle, silent, sent, hframes, hsilent, hcome⟩ := frame?_reads hframe
      have htime : now + (t - now) = t := Nat.add_sub_cancel' hle
      refine ⟨silent ++ [(sent, b)], hframes, fun x hx => Nat.le_trans (hcome x hx) (Nat.le_of_eq htime.symm), rfl, ?_,
        nofun⟩
      rw [hp, List.map_append]
      exact .voice (silent_of_empty hsilent) hb
    · next hframe =>
      -- All frames left are empty, and the feed waits for them and for its close.
      obtain ⟨t, ht, rfl⟩ := Option.map_eq_some_iff.mp h
      obtain ⟨hle, hcome⟩ := le_allTaken now f.frames
      have htime : now + (max (allTaken now f.frames) t - now) = max (allTaken now f.frames) t :=
        Nat.add_sub_cancel' (Nat.le_trans hle (Nat.le_max_left _ _))
      refine ⟨f.frames, (List.append_nil _).symm, fun x hx => ?_, rfl, ?_, fun _ => ⟨rfl, t, ht, ?_⟩⟩
      · exact Nat.le_trans (Nat.le_trans (hcome x hx) (Nat.le_max_left _ _)) (Nat.le_of_eq htime.symm)
      · rw [hp]
        exact .done (silent_of_empty (frame?_eq_none_iff.mp hframe))
      · exact Nat.le_trans (Nat.le_max_right _ _) (Nat.le_of_eq htime.symm)
  · rw [next_rest hp] at h
    cases h
    exact ⟨[], rfl, List.forall_mem_nil _, rfl, .rest hp, nofun⟩

theorem Looks.splits {taken : List (Nat × Bytes)} (h : Looks f room now a taken) :
    f.pending = [] ∧ a.source.pending = [] ∧ a.supply = .done ∧ (∀ x ∈ taken, x.2 = []) ∨
    ∃ b, b ≠ [] ∧ (b = f.pending ∨ ∃ t, (t, b) ∈ taken) ∧ a.supply = .chunk (b.take room) ∧
      a.source.pending = b.drop room := by
  rcases h.handed.splits with ⟨hp, hp', ⟨hdone, hsilent⟩ | ⟨silent, e, -, hreads, -⟩⟩ | ⟨b, hb, hfrom, hchunk, hrest⟩
  · refine Or.inl ⟨hp, hp', hdone, fun x hx => HostRead.silent_voice_iff.mp (hsilent _ (List.mem_map_of_mem hx))⟩
  · have hfault : HostRead.fault e ∈ silent ++ [.fault e] := List.mem_append_right _ List.mem_cons_self
    obtain ⟨x, -, hx⟩ := List.mem_map.mp (hreads ▸ hfault)
    cases hx
  · refine Or.inr ⟨b, hb, hfrom.imp_right fun hmem => ?_, hchunk, hrest⟩
    obtain ⟨⟨t, c⟩, hx, hc⟩ := List.mem_map.mp hmem
    cases hc
    exact ⟨t, hx⟩

theorem next_eq_none (h : f.next room now = none) : f.pending = [] ∧ (∀ x ∈ f.frames, x.2 = []) ∧ f.closes = none := by
  unfold next at h
  split at h
  · cases h
  · next hp =>
    split at h
    · cases h
    · next hframe => exact ⟨Decidable.not_not.mp hp, frame?_eq_none_iff.mp hframe, Option.map_eq_none_iff.mp h⟩

/-- A request that is given up has taken empty frames only. -/
theorem dropped_looks (f : Feed) (room now limit : Nat) :
    ∃ silent, f.frames = silent ++ (source.dropped f room now limit).frames ∧
    (∀ x ∈ silent, x.2 = [] ∧ x.1 ≤ limit) ∧ (source.dropped f room now limit).pending = f.pending ∧
    (source.dropped f room now limit).closes = f.closes := by
  unfold source
  simp only
  split
  · exact ⟨[], rfl, List.forall_mem_nil _, rfl, rfl⟩
  · obtain ⟨silent, hframes, hsilent⟩ := skipEmpty_reads limit f.frames
    exact ⟨silent, hframes, hsilent, rfl, rfl⟩

end Feed

/-! ### Host channels -/

namespace HostVoice
variable {v : HostVoice} {up : Nat → Nat → Bool} {room now reads : Nat} {frames : List (Nat × HostRead)} {o : Outcome}
  {a : Supplied HostVoice}

/-- What is found behind the frames that have nothing to hand out: a voice frame, a fault, or that the leg is down. -/
def Finds (up : Nat → Nat → Bool) (o : Outcome) (found : List HostRead) : Prop :=
  match o.what with
  | some (.ok b) => found = [.voice b] ∧ b ≠ []
  | some (.error e) => found = [.fault e]
  | none => found = [] ∧ up o.reads o.time = false

/-- The frames read by a search that comes to `o`. Before each read the leg was found up. -/
structure Searches (up : Nat → Nat → Bool) (now reads : Nat) (frames : List (Nat × HostRead)) (o : Outcome)
    (silent found : List (Nat × HostRead)) : Prop where
  frames : frames = (silent ++ found) ++ o.frames
  nothing : ∀ x ∈ silent, x.2.Silent
  finds : Finds up o (found.map Prod.snd)
  come : ∀ x ∈ silent ++ found, x.1 ≤ o.time
  time : now ≤ o.time
  count : o.reads = reads + (silent ++ found).length
  up : ∀ i < (silent ++ found).length, ∃ t ≤ o.time, up (reads + i) t = true

theorem Searches.skip {t : Nat} {r : HostRead} {rest silent found : List (Nat × HostRead)}
    (h : Searches up (max now t) (reads + 1) rest o silent found) (hup : up reads now = true) (hr : r.Silent) :
    Searches up now reads ((t, r) :: rest) o ((t, r) :: silent) found := by
  have hnow : now ≤ o.time := Nat.le_trans (Nat.le_max_left _ _) h.time
  have ht : t ≤ o.time := Nat.le_trans (Nat.le_max_right _ _) h.time
  refine ⟨congrArg ((t, r) :: ·) h.frames, List.forall_mem_cons.mpr ⟨hr, h.nothing⟩, h.finds,
    List.forall_mem_cons.mpr ⟨ht, h.come⟩, hnow, ?_, ?_⟩
  · rw [h.count, List.cons_append, List.length_cons]
    omega
  · intro i hi
    cases i with
    | zero => exact ⟨now, hnow, hup⟩
    | succ i =>
      obtain ⟨look, hlook, hlooked⟩ := h.up i (Nat.lt_of_succ_lt_succ hi)
      rw [Nat.add_assoc, Nat.add_comm 1 i] at hlooked
      exact ⟨look, hlook, hlooked⟩

theorem Searches.first {t : Nat} {r : HostRead} {what : Except Fault Bytes} {rest : List (Nat × HostRead)}
    (hup : up reads now = true) (hfinds : Finds up ⟨max now t, some what, rest, reads + 1⟩ [r]) :
    Searches up now reads ((t, r) :: rest) ⟨max now t, some what, rest, reads + 1⟩ [] [(t, r)] := by
  refine ⟨rfl, List.forall_mem_nil _, hfinds, List.forall_mem_singleton.mpr (Nat.le_max_right _ _), Nat.le_max_left _ _,
    rfl, ?_⟩
  intro i hi
  obtain rfl : i = 0 := Nat.lt_one_iff.mp hi
  exact ⟨now, Nat.le_max_left _ _, hup⟩

theorem seek_searches (h : seek up now reads frames = some o) :
    ∃ silent found, Searches up now reads frames o silent found := by
  fun_induction seek up now reads frames with
  | case1 => cases h
  | case2 now reads hup | case7 now reads t r rest hup =>
    cases h
    exact ⟨[], [], rfl, List.forall_mem_nil _, ⟨rfl, Bool.eq_false_iff.mpr hup⟩, List.forall_mem_nil _, Nat.le_refl _, rfl,
      fun i hi => absurd hi (Nat.not_lt_zero i)⟩
  | case3 now reads t rest hup ih =>
    obtain ⟨silent, found, hsearches⟩ := ih h
    exact ⟨_, found, hsearches.skip hup (Or.inr rfl)⟩
  | case4 now reads t rest hup ih =>
    obtain ⟨silent, found, hsearches⟩ := ih h
    exact ⟨_, found, hsearches.skip hup (Or.inl rfl)⟩
  | case5 now reads t rest hup b hb =>
    cases h
    exact ⟨[], _, .first hup ⟨rfl, hb⟩⟩
  | case6 now reads t rest hup e =>
    cases h
    exact ⟨[], _, .first hup rfl⟩

theorem silent_of_seek_none (h : seek up now reads frames = none) : ∀ x ∈ frames, x.2.Silent := by
  fun_induction seek up now reads frames with
  | case1 => exact List.forall_mem_nil _
  | case3 now reads t rest hup ih => exact List.forall_mem_cons.mpr ⟨Or.inr rfl, ih h⟩
  | case4 now reads t rest hup ih => exact List.forall_mem_cons.mpr ⟨Or.inl rfl, ih h⟩
  | case2 | case5 | case6 | case7 => cases h

theorem skip_reads (up : Nat → Nat → Bool) (now reads limit : Nat) (frames : List (Nat × HostRead)) :
    ∃ silent, frames = silent ++ (skip up now reads limit frames).1 ∧ (∀ x ∈ silent, x.2.Silent ∧ x.1 ≤ limit) ∧
      (skip up now reads limit frames).2 = reads + silent.length := by
  fun_induction skip up now reads limit frames with
  | case1 => exact ⟨[], rfl, List.forall_mem_nil _, rfl⟩
  | case2 now reads t rest hup ih =>
    obtain ⟨silent, hframes, hsilent, hcount⟩ := ih
    refine ⟨(t, .voice []) :: silent, congrArg (_ :: ·) hframes, List.forall_mem_cons.mpr ⟨⟨Or.inr rfl, hup.2⟩, hsilent⟩,
      ?_⟩
    rw [hcount, List.length_cons]
    omega
  | case3 now reads t rest hup ih =>
    obtain ⟨silent, hframes, hsilent, hcount⟩ := ih
    refine ⟨(t, .other) :: silent, congrArg (_ :: ·) hframes, List.forall_mem_cons.mpr ⟨⟨Or.inl rfl, hup.2⟩, hsilent⟩, ?_⟩
    rw [hcount, List.length_cons]
    omega
  | case4 => exact ⟨[], rfl, List.forall_mem_nil _, rfl⟩
  | case5 => exact ⟨[], rfl, List.forall_mem_nil _, rfl⟩

theorem silent_reads {silent : List (Nat × HostRead)} (h : ∀ x ∈ silent, x.2.Silent) :
    ∀ r ∈ silent.map Prod.snd, r.Silent := by
  intro r hr
  obtain ⟨x, hx, rfl⟩ := List.mem_map.mp hr
  exact h x hx

/-- The answer `a` to a request takes these frames from the leg. -/
structure Looks (v : HostVoice) (room now : Nat) (a : Supplied HostVoice) (taken : List (Nat × HostRead)) : Prop where
  frames : v.leg.frames = taken ++ a.source.leg.frames
  come : ∀ x ∈ taken, x.1 ≤ now + a.delay
  count : a.source.leg.reads = v.leg.reads + taken.length
  same : a.source.leg.up = v.leg.up
  up : ∀ i < taken.length, ∃ t ≤ now + a.delay, v.leg.up (v.leg.reads + i) t = true
  handed : Handed room v.pending (taken.map Prod.snd) (some a.supply) a.source.pending
  down : a.supply = .done → a.source.leg.isUp (now + a.delay) = false

theorem next_rest (hp : v.pending ≠ []) (room now : Nat) : v.next room now = some (v.handOut room 0) := if_pos hp

theorem next_looks (h : v.next room now = some a) : ∃ taken, Looks v room now a taken := by
  by_cases hp : v.pending = []
  · unfold next at h
    rw [if_neg (not_not_intro hp)] at h
    obtain ⟨o, hseek, rfl⟩ := Option.map_eq_some_iff.mp h
    obtain ⟨silent, found, hsearches⟩ := seek_searches hseek
    have hsilent := silent_reads hsearches.nothing
    have htime : now + (o.time - now) = o.time := Nat.add_sub_cancel' hsearches.time
    have hcome : ∀ x ∈ silent ++ found, x.1 ≤ now + (o.time - now) := by
      rw [htime]
      exact hsearches.come
    have hup : ∀ i < (silent ++ found).length, ∃ t ≤ now + (o.time - now), v.leg.up (v.leg.reads + i) t = true := by
      rw [htime]
      exact hsearches.up
    have hfinds := hsearches.finds
    unfold Finds at hfinds
    refine ⟨silent ++ found, ?_⟩
    simp only
    split
    · next b hwhat =>
      simp only [hwhat] at hfinds
      refine ⟨hsearches.frames, hcome, hsearches.count, rfl, hup, ?_, nofun⟩
      rw [hp, List.map_append, hfinds.1]
      exact .voice hsilent hfinds.2
    · next e hwhat =>
      simp only [hwhat] at hfinds
      refine ⟨hsearches.frames, hcome, hsearches.count, rfl, hup, ?_, nofun⟩
      rw [hp, List.map_append, hfinds]
      exact .fault hsilent
    · next hwhat =>
      simp only [hwhat] at hfinds
      have hdown : v.leg.up o.reads (now + (o.time - now)) = false := (congrArg (v.leg.up o.reads) htime).trans hfinds.2
      refine ⟨hsearches.frames, hcome, hsearches.count, rfl, hup, ?_, fun _ => hdown⟩
      rw [hp, List.map_append, hfinds.1, List.append_nil]
      exact .done hsilent
  · rw [next_rest hp] at h
    cases h
    exact ⟨[], rfl, List.forall_mem_nil _, rfl, rfl, fun i hi => absurd hi (Nat.not_lt_zero i), .rest hp, nofun⟩

theorem Looks.splits {taken : List (Nat × HostRead)} (h : Looks v room now a taken) :
    v.pending = [] ∧ a.source.pending = [] ∧ (a.supply = .done ∧ (∀ x ∈ taken, x.2.Silent) ∨
      ∃ silent t e, a.supply = .failed e ∧ taken = silent ++ [(t, .fault e)] ∧ ∀ x ∈ silent, x.2.Silent) ∨
    ∃ b, b ≠ [] ∧ (b = v.pending ∨ ∃ t, (t, .voice b) ∈ taken) ∧ a.supply = .chunk (b.take room) ∧
      a.source.pending = b.drop room := by
  rcases h.handed.splits with ⟨hp, hp', ⟨hdone, hsilent⟩ | ⟨silent, e, hfailed, hreads, hsilent⟩⟩ |
      ⟨b, hb, hfrom, hchunk, hrest⟩
  · exact Or.inl ⟨hp, hp', Or.inl ⟨hdone, fun x hx => hsilent _ (List.mem_map_of_mem hx)⟩⟩
  · obtain ⟨before, last, rfl, rfl, hlast⟩ := List.map_eq_append_iff.mp hreads
    obtain ⟨⟨t, r⟩, rfl, rfl⟩ := List.map_eq_singleton_iff.mp hlast
    exact Or.inl ⟨hp, hp', Or.inr ⟨before, t, e, hfailed, rfl, fun x hx => hsilent _ (List.mem_map_of_mem hx)⟩⟩
  · refine Or.inr ⟨b, hb, hfrom.imp_right fun hmem => ?_, hchunk, hrest⟩
    obtain ⟨⟨t, r⟩, hx, hr⟩ := List.mem_map.mp hmem
    cases hr
    exact ⟨t, hx⟩

theorem next_eq_none (h : v.next room now = none) : v.pending = [] ∧ ∀ x ∈ v.leg.frames, x.2.Silent := by
  unfold next at h
  split at h
  · cases h
  · next hp => exact ⟨Decidable.not_not.mp hp, silent_of_seek_none (Option.map_eq_none_iff.mp h)⟩

/-- A request that is given up has taken frames only that have nothing to hand out. -/
theorem dropped_looks (v : HostVoice) (room now limit : Nat) :
    ∃ silent, v.leg.frames = silent ++ (source.dropped v room now limit).leg.frames ∧
      (∀ x ∈ silent, x.2.Silent ∧ x.1 ≤ limit) ∧
      (source.dropped v room now limit).leg.reads = v.leg.reads + silent.length ∧
      (source.dropped v room now limit).leg.up = v.leg.up ∧ (source.dropped v room now limit).pending = v.pending := by
  unfold source
  simp only
  split
  · exact ⟨[], rfl, List.forall_mem_nil _, rfl, rfl, rfl⟩
  · obtain ⟨silent, hframes, hsilent, hcount⟩ := skip_reads v.leg.up now v.leg.reads limit v.leg.frames
    exact ⟨silent, hframes, hsilent, hcount, rfl, rfl⟩

end HostVoice
end CallRelay
