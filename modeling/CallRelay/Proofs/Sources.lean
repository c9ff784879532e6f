import CallRelay.Proofs.Requests
import CallRelay.Source.Clip
import CallRelay.Wire.Message

/-! # The audio of a source

What a source has handed out, together with the rest that it keeps, is the front of its audio: nothing is lost between two
requests, however the audio is cut into frames and the frames into chunks. At its end a source keeps no rest. -/

namespace CallRelay

namespace Source
variable {σ : Type}

/-- No chunk is longer than was asked for. -/
def Obeys (src : Source σ) : Prop :=
  ∀ s room now a b, src.next s room now = some a → a.supply = .chunk b → b.length ≤ room

/-- Every request keeps `Q`, which tells of an instant, of the audio handed out by then, and of the source then. -/
structure Keeps (src : Source σ) (Q : Nat → Bytes → σ → Prop) : Prop where
  later : ∀ {t t' : Nat} {out : Bytes} {s : σ}, Q t out s → t ≤ t' → Q t' out s
  answer : ∀ {room now : Nat} {out : Bytes} {s : σ} {a : Supplied σ}, Q now out s → src.next s room now = some a →
    (∀ e, a.supply ≠ .failed e) → Q (now + a.delay) (out ++ a.supply.audio) a.source

end Source

/-! ### Clips -/

namespace Clip

/-- A block of memory has fewer bytes than half of the words can tell. -/
def InMemory (c : Clip) : Prop := c.data.length < UInt64.size / 2

/-- The bytes from the offset on to the end of the last whole sample. -/
def rest (c : Clip) : Bytes := (c.data.take c.playable).drop c.offset

/-- What was handed out of the clip `c`, up to what is left of it in `c'`. -/
def Plays (c : Clip) (out : Bytes) (c' : Clip) : Prop := c'.data = c.data ∧ c.rest = out ++ c'.rest

theorem playable_le (c : Clip) : c.playable ≤ c.data.length := Nat.div_mul_le_self _ _

theorem requestEnd_le (c : Clip) (room : Nat) : c.requestEnd room ≤ c.playable ∧ c.requestEnd room ≤ c.offset + room :=
  ⟨Nat.min_le_left _ _, Nat.min_le_right _ _⟩

theorem plays_to {c : Clip} {room : Nat} (h : c.offset < c.requestEnd room) :
    c.Plays ((c.data.drop c.offset).take (c.requestEnd room - c.offset)) { c with offset := c.requestEnd room } := by
  have hle := (c.requestEnd_le room).1
  have hfront : c.rest.take (c.requestEnd room - c.offset) =
      (c.data.drop c.offset).take (c.requestEnd room - c.offset) := by
    rw [rest, List.drop_take, List.take_take, Nat.min_eq_left (Nat.sub_le_sub_right hle _)]
  have hbehind : c.rest.drop (c.requestEnd room - c.offset) = { c with offset := c.requestEnd room }.rest := by
    rw [rest, List.drop_drop, Nat.add_sub_cancel' (Nat.le_of_lt h)]
    rfl
  refine ⟨rfl, ?_⟩
  rw [← hfront, ← hbehind, List.take_append_drop]

theorem next_eq (c : Clip) (room now : Nat) : source.next c room now =
    if c.Reaches room ∧ c.offset < c.requestEnd room then
      some { delay := 0, supply := .chunk ((c.data.drop c.offset).take (c.requestEnd room - c.offset)),
             source := { c with offset := c.requestEnd room } }
    else some { delay := 0, supply := .done, source := c } := by
  unfold source take? take
  by_cases hreaches : c.Reaches room
  · by_cases hlt : c.offset < c.requestEnd room
    · simp only [if_pos hreaches, if_pos hlt, if_pos (And.intro hreaches hlt)]
    · simp only [if_pos hreaches, if_neg hlt, if_neg (fun h : _ ∧ _ => hlt h.2)]
  · simp only [if_neg hreaches, if_neg (fun h : _ ∧ _ => hreaches h.1)]

/-- A clip answers with its next part, or it has no whole sample behind its offset, or the request panics. -/
theorem next_cases {c : Clip} {room now : Nat} {a : Supplied Clip} (h : source.next c room now = some a) :
    (∃ b, a.supply = .chunk b ∧ b.length ≤ room ∧ c.Plays b a.source) ∨
      a.supply = .done ∧ a.source = c ∧ (c.Reaches room → c.requestEnd room ≤ c.offset) := by
  have hle := (c.requestEnd_le room).2
  rw [next_eq] at h
  split at h
  · next hlt =>
    cases h
    refine Or.inl ⟨_, rfl, ?_, plays_to hlt.2⟩
    rw [List.length_take]
    omega
  · next hlast =>
    cases h
    exact Or.inr ⟨rfl, rfl, fun hreaches => Nat.le_of_not_lt fun hlt => hlast ⟨hreaches, hlt⟩⟩

theorem obeys : source.Obeys := by
  intro c room now a b h hb
  rcases next_cases h with ⟨b', hb', hle, -⟩ | ⟨hdone, -⟩
  · cases hb.symm.trans hb'
    exact hle
  · cases hb.symm.trans hdone

theorem plays_keeps (c : Clip) : source.Keeps fun _ => c.Plays where
  later h _ := h
  answer := by
    rintro room now out c' a ⟨hdata, hrest⟩ hnext -
    rcases next_cases hnext with ⟨b, hb, -, hdata', hrest'⟩ | ⟨hdone, hsame, -⟩
    · refine ⟨hdata'.trans hdata, ?_⟩
      rw [hrest, hrest', hb, List.append_assoc]
      rfl
    · refine ⟨by rw [hsame, hdata], ?_⟩
      rw [hrest, hsame, hdone]
      exact congrArg (· ++ c'.rest) (List.append_nil out).symm

/-- No clip in memory is so long that an offset inside it and a request make up more than the largest word. -/
theorem reaches_of_inMemory {c : Clip} {room : Nat} (hdata : c.InMemory) (hin : c.offset ≤ c.playable)
    (hle : room ≤ maxPayload) : c.Reaches room := by
  have hplayable := c.playable_le
  unfold InMemory UInt64.size at hdata
  unfold maxPayload at hle
  unfold Reaches UInt64.size
  omega

theorem rest_of_done {c : Clip} {room now : Nat} {a : Supplied Clip} (hroom : 0 < room) (hle : room ≤ maxPayload)
    (h : source.next c room now = some a) (hdone : a.supply = .done) (hdata : a.source.InMemory) : a.source.rest = [] := by
  rcases next_cases h with ⟨b, hb, -⟩ | ⟨-, hsame, hlast⟩
  · cases hb.symm.trans hdone
  · rw [hsame] at hdata ⊢
    refine List.drop_eq_nil_of_le (Nat.le_trans (List.length_take_le _ _) (Nat.le_of_not_lt fun hlt => ?_))
    have hlast := hlast (reaches_of_inMemory hdata (Nat.le_of_lt hlt) hle)
    unfold requestEnd at hlast
    omega

end Clip

/-! ### Feeds -/

namespace Feed

/-- The bytes of a list of frames. -/
def bytesOf (frames : List (Nat × Bytes)) : Bytes := frames.flatMap Prod.snd

/-- By `now` the feed `f` has taken frames that had been sent by then and handed out all of them but the rest of the last
    one. -/
def Plays (f : Feed) (now : Nat) (out : Bytes) (f' : Feed) : Prop :=
  ∃ taken, f.frames = taken ++ f'.frames ∧ f'.closes = f.closes ∧ (∀ x ∈ taken, x.1 ≤ now) ∧
    f.pending ++ bytesOf taken = out ++ f'.pending

theorem plays_nothing (f : Feed) (now : Nat) : f.Plays now [] f := ⟨[], rfl, rfl, nofun, List.append_nil _⟩

theorem bytesOf_append (taken more : List (Nat × Bytes)) : bytesOf (taken ++ more) = bytesOf taken ++ bytesOf more :=
  List.flatMap_append

theorem voices_eq (taken : List (Nat × Bytes)) :
    ((taken.map fun x => HostRead.voice x.2).filterMap HostRead.voice?).flatten = bytesOf taken := by
  rw [List.filterMap_map]
  exact congrArg List.flatten (congrFun List.filterMap_eq_map taken)

theorem next_cases {f : Feed} {room now : Nat} {a : Supplied Feed} (h : f.next room now = some a) :
    f.Plays (now + a.delay) a.supply.audio a.source ∧
      ((∃ b, a.supply = .chunk b ∧ b.length ≤ room) ∨
        a.supply = .done ∧ a.source.frames = [] ∧ a.source.pending = [] ∧
          ∃ t, a.source.closes = some t ∧ t ≤ now + a.delay) := by
  obtain ⟨taken, hlooks⟩ := next_looks h
  have haudio := hlooks.handed.audio
  rw [voices_eq] at haudio
  refine ⟨⟨taken, hlooks.frames, hlooks.closes, hlooks.come, haudio⟩, ?_⟩
  rcases hlooks.splits with ⟨-, hnone, hdone, -⟩ | ⟨b, -, -, hchunk, -⟩
  · obtain ⟨hframes, hclosed⟩ := hlooks.closed hdone
    exact Or.inr ⟨hdone, hframes, hnone, hclosed⟩
  · exact Or.inl ⟨_, hchunk, List.length_take_le _ _⟩

theorem obeys : source.Obeys := by
  intro f room now a b h hb
  rcases (next_cases h).2 with ⟨b', hb', hle⟩ | ⟨hdone, -⟩
  · cases hb.symm.trans hb'
    exact hle
  · cases hb.symm.trans hdone

theorem plays_keeps (f : Feed) : source.Keeps f.Plays where
  later := by
    rintro t t' out f' ⟨taken, hframes, hcloses, hall, hbytes⟩ hle
    exact ⟨taken, hframes, hcloses, fun x hx => Nat.le_trans (hall x hx) hle, hbytes⟩
  answer := by
    rintro room now out f' a ⟨taken, hframes, hcloses, hall, hbytes⟩ hnext -
    obtain ⟨⟨more, hframes', hcloses', hall', hbytes'⟩, -⟩ := next_cases hnext
    refine ⟨taken ++ more, ?_, hcloses'.trans hcloses, fun x hx => ?_, ?_⟩
    · rw [hframes, hframes', List.append_assoc]
    · rcases List.mem_append.mp hx with hx | hx
      · exact Nat.le_trans (hall x hx) (Nat.le_add_right _ _)
      · exact hall' x hx
    · rw [bytesOf_append, ← List.append_assoc, hbytes, List.append_assoc, hbytes', ← List.append_assoc]

end Feed

/-! ### Host channels -/

namespace HostLeg

/-- The audio of the frames that are voice. -/
def voices (frames : List (Nat × HostRead)) : Bytes :=
  frames.flatMap fun f => match f.2 with | .voice b => b | _ => []

/-- By `now` these frames have been read one after another from a leg that had been read `reads` times. Each had come by
    then, none was a fault, and before each read the leg was found up. -/
structure ReadBy (up : Nat → Nat → Bool) (reads : Nat) (taken : List (Nat × HostRead)) (now : Nat) : Prop where
  come : ∀ f ∈ taken, f.1 ≤ now
  sound : ∀ f ∈ taken, ∀ e, f.2 ≠ .fault e
  up : ∀ i < taken.length, ∃ t ≤ now, up (reads + i) t = true

variable {up : Nat → Nat → Bool} {reads now t : Nat} {taken more : List (Nat × HostRead)}

theorem voices_append (taken more : List (Nat × HostRead)) : voices (taken ++ more) = voices taken ++ voices more :=
  List.flatMap_append

theorem ReadBy.nil : ReadBy up reads [] now := ⟨nofun, nofun, nofun⟩

theorem ReadBy.later (h : ReadBy up reads taken now) (hle : now ≤ t) : ReadBy up reads taken t := by
  refine ⟨fun f hf => Nat.le_trans (h.come f hf) hle, h.sound, fun i hi => ?_⟩
  obtain ⟨look, hlook, hup⟩ := h.up i hi
  exact ⟨look, Nat.le_trans hlook hle, hup⟩

theorem ReadBy.append (h : ReadBy up reads taken now) (hmore : ReadBy up (reads + taken.length) more now) :
    ReadBy up reads (taken ++ more) now := by
  refine ⟨fun f hf => ?_, fun f hf => ?_, fun i hi => ?_⟩
  · rcases List.mem_append.mp hf with hf | hf
    · exact h.come f hf
    · exact hmore.come f hf
  · rcases List.mem_append.mp hf with hf | hf
    · exact h.sound f hf
    · exact hmore.sound f hf
  · by_cases hlt : i < taken.length
    · exact h.up i hlt
    · rw [List.length_append] at hi
      obtain ⟨look, hlook, hup⟩ := hmore.up (i - taken.length) (by omega)
      refine ⟨look, hlook, ?_⟩
      rwa [Nat.add_assoc, Nat.add_sub_cancel' (Nat.le_of_not_lt hlt)] at hup

theorem voices_eq (taken : List (Nat × HostRead)) :
    ((taken.map Prod.snd).filterMap HostRead.voice?).flatten = voices taken := by
  induction taken with
  | nil => rfl
  | cons x taken ih =>
    obtain ⟨t, r⟩ := x
    rw [voices, List.flatMap_cons]
    cases r with
    | voice b => exact congrArg (b ++ ·) ih
    | other | fault e => exact ih

end HostLeg

namespace HostVoice
open HostLeg

/-- By `now` frames have been read from the leg of `v`, and all voice of them was handed out but the rest of the last
    one. -/
def Plays (v : HostVoice) (now : Nat) (out : Bytes) (v' : HostVoice) : Prop :=
  ∃ taken, v.leg.frames = taken ++ v'.leg.frames ∧ v'.leg.reads = v.leg.reads + taken.length ∧ v'.leg.up = v.leg.up ∧
    ReadBy v.leg.up v.leg.reads taken now ∧ v.pending ++ voices taken = out ++ v'.pending

theorem plays_nothing (v : HostVoice) (now : Nat) : v.Plays now [] v := ⟨[], rfl, rfl, rfl, .nil, List.append_nil _⟩

/-- A host channel answers with the front of a voice frame, or its leg was found down and it keeps nothing. -/
theorem next_cases {v : HostVoice} {room now : Nat} {a : Supplied HostVoice} (h : v.next room now = some a)
    (hsound : ∀ e, a.supply ≠ .failed e) :
    v.Plays (now + a.delay) a.supply.audio a.source ∧
      ((∃ b, a.supply = .chunk b ∧ b.length ≤ room) ∨
        a.supply = .done ∧ a.source.pending = [] ∧ a.source.leg.up a.source.leg.reads (now + a.delay) = false) := by
  obtain ⟨taken, hlooks⟩ := next_looks h
  have haudio := hlooks.handed.audio
  rw [voices_eq] at haudio
  have hsound : ∀ x ∈ taken, ∀ e, x.2 ≠ .fault e := fun x hx => hlooks.handed.sound hsound _ (List.mem_map_of_mem hx)
  refine ⟨⟨taken, hlooks.frames, hlooks.count, hlooks.same, ⟨hlooks.come, hsound, hlooks.up⟩, haudio⟩, ?_⟩
  rcases hlooks.splits with ⟨-, hnone, ⟨hdone, -⟩ | ⟨silent, t, e, -, rfl, -⟩⟩ | ⟨b, -, -, hchunk, -⟩
  · exact Or.inr ⟨hdone, hnone, hlooks.down hdone⟩
  · exact absurd rfl (hsound _ (List.mem_append_right _ List.mem_cons_self) e)
  · exact Or.inl ⟨_, hchunk, List.length_take_le _ _⟩

theorem obeys : source.Obeys := by
  intro v room now a b h hb
  rcases (next_cases h (hb ▸ nofun)).2 with ⟨b', hb', hle⟩ | ⟨hdone, -⟩
  · cases hb.symm.trans hb'
    exact hle
  · cases hb.symm.trans hdone

theorem plays_keeps (v : HostVoice) : source.Keeps v.Plays where
  later := by
    rintro t t' out v' ⟨taken, hframes, hcount, hup, hread, hbytes⟩ hle
    exact ⟨taken, hframes, hcount, hup, hread.later hle, hbytes⟩
  answer := by
    rintro room now out v' a ⟨taken, hframes, hcount, hup, hread, hbytes⟩ hnext hsound
    obtain ⟨⟨more, hframes', hcount', hup', hread', hbytes'⟩, -⟩ := next_cases hnext hsound
    rw [hup, hcount] at hread'
    refine ⟨taken ++ more, ?_, ?_, hup'.trans hup, (hread.later (Nat.le_add_right _ _)).append hread', ?_⟩
    · rw [hframes, hframes', List.append_assoc]
    · rw [hcount', hcount, List.length_append, Nat.add_assoc]
    · rw [voices_append, ← List.append_assoc, hbytes, List.append_assoc, hbytes', ← List.append_assoc]

end HostVoice
end CallRelay
