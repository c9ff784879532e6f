import CallRelay.Proofs.Requests
import Mathlib.Data.List.Forall2

/-! # Frames cut into chunks

A feed and a host channel hand their frames out in chunks, each of the size asked for or of what is left of its frame.
Whatever is read in between, a frame without audio, a frame of another sort, a fault or the end, and whenever a request
is given up, no byte is lost or moved from one frame to another. -/

namespace CallRelay

/-! ### One frame -/

/-- The frame has been handed out in these chunks, each beside the size that was asked for, up to the rest. -/
structure Parted (frame : Bytes) (part : List (Nat × Bytes)) (rest : Bytes) : Prop where
  whole : frame = (part.map Prod.snd).flatten ++ rest
  /-- Only the chunk at the end of the frame is shorter than was asked for. -/
  full : ∀ x ∈ part.dropLast, x.2.length = x.1
  cut : rest ≠ [] → ∀ x ∈ part, x.2.length = x.1
  count : rest = [] → ∀ m, 0 < m → (∀ x ∈ part, x.1 = m) → part.length = (frame.length + m - 1) / m

theorem length_flatten_of_forall {m : Nat} {part : List (Nat × Bytes)} (h : ∀ x ∈ part, x.2.length = m) :
    (part.map Prod.snd).flatten.length = part.length * m := by
  induction part with
  | nil => exact (Nat.zero_mul m).symm
  | cons x part ih =>
    obtain ⟨hx, hpart⟩ := List.forall_mem_cons.mp h
    rw [List.map_cons, List.flatten_cons, List.length_append, ih hpart, hx, List.length_cons, Nat.succ_mul, Nat.add_comm]

theorem Parted.nil (frame : Bytes) : Parted frame [] frame := by
  refine ⟨rfl, List.forall_mem_nil _, fun _ => List.forall_mem_nil _, ?_⟩
  rintro rfl m hm -
  exact (Nat.div_eq_of_lt (by simpa using Nat.sub_lt hm Nat.one_pos)).symm

theorem Parted.chunk {frame rest : Bytes} {part : List (Nat × Bytes)} {room : Nat} (h : Parted frame part rest)
    (hrest : rest ≠ []) (hroom : 0 < room) : Parted frame (part ++ [(room, rest.take room)]) (rest.drop room) := by
  have hfull := h.cut hrest
  constructor
  · rw [h.whole, List.map_append, List.flatten_append, List.append_assoc]
    exact congrArg (_ ++ ·) (by simp)
  · rw [List.dropLast_concat]
    exact hfull
  · intro hmore
    refine List.forall_mem_append.mpr ⟨hfull, List.forall_mem_singleton.mpr ?_⟩
    have hlt := Nat.lt_of_not_le fun hle => hmore (List.drop_eq_nil_of_le hle)
    exact List.length_take_of_le (Nat.le_of_lt hlt)
  · intro hlast m hm hrooms
    obtain ⟨hpart, hsize⟩ := List.forall_mem_append.mp hrooms
    obtain rfl : room = m := hsize _ (List.mem_singleton_self _)
    have hle := List.drop_eq_nil_iff.mp hlast
    have hpos := List.length_pos_iff.mpr hrest
    have hlength : frame.length = part.length * room + rest.length := by
      rw [h.whole, List.length_append, length_flatten_of_forall fun x hx => (hfull x hx).trans (hpart x hx)]
    rw [List.length_append, List.length_singleton]
    refine (Nat.div_eq_of_lt_le ?_ ?_).symm
    · rw [Nat.succ_mul]
      omega
    · rw [Nat.succ_mul, Nat.succ_mul]
      omega

/-! ### Frames in a row -/

/-- These chunks, each beside the size that was asked for, have been handed out of frames that came one after another,
    up to the rest of the last one. -/
structure Divided (frames : List Bytes) (outs : List (Nat × Bytes)) (rest : Bytes) : Prop where
  whole : frames.flatten = (outs.map Prod.snd).flatten ++ rest
  sizes : ∀ x ∈ outs, x.2 ≠ [] ∧ x.2.length ≤ x.1
  /-- Each chunk is taken from a single frame. -/
  parts : ∃ done last parts part, frames = done ++ [last] ∧ outs = parts.flatten ++ part ∧
    List.Forall₂ (fun frame part => Parted frame part []) done parts ∧ Parted last part rest

namespace Divided
variable {frames : List Bytes} {outs : List (Nat × Bytes)} {rest : Bytes}

theorem start (frame : Bytes) : Divided [frame] [] frame :=
  ⟨List.append_nil frame, List.forall_mem_nil _, [], frame, [], [], rfl, rfl, .nil, .nil frame⟩

theorem frame (h : Divided frames outs []) (next : Bytes) : Divided (frames ++ [next]) outs next := by
  obtain ⟨done, last, parts, part, hframes, houts, hdone, hlast⟩ := h.parts
  refine ⟨?_, h.sizes, done ++ [last], next, parts ++ [part], [], by rw [hframes], ?_, ?_, .nil next⟩
  · rw [List.flatten_append, h.whole, List.append_nil, List.flatten_singleton]
  · rw [houts, List.flatten_append, List.flatten_singleton, List.append_nil]
  · exact List.rel_append hdone (.cons hlast .nil)

theorem chunk {room : Nat} (h : Divided frames outs rest) (hrest : rest ≠ []) (hroom : 0 < room) :
    Divided frames (outs ++ [(room, rest.take room)]) (rest.drop room) := by
  obtain ⟨done, last, parts, part, hframes, houts, hdone, hlast⟩ := h.parts
  refine ⟨?_, ?_, done, last, parts, part ++ [(room, rest.take room)], hframes, ?_, hdone, hlast.chunk hrest hroom⟩
  · rw [h.whole, List.map_append, List.flatten_append, List.append_assoc]
    exact congrArg (_ ++ ·) (by simp)
  · refine List.forall_mem_append.mpr ⟨h.sizes, List.forall_mem_singleton.mpr ⟨?_, List.length_take_le _ _⟩⟩
    rw [Ne, List.take_eq_nil_iff]
    rintro (rfl | hnil)
    · exact Nat.lt_irrefl 0 hroom
    · exact hrest hnil
  · rw [houts, List.append_assoc]

end Divided

namespace Handed
variable {room : Nat} {p p' : Bytes} {reads silent : List HostRead} {x : Option Supply} {frames : List Bytes}
  {outs : List (Nat × Bytes)}

theorem divided_silent (hs : ∀ r ∈ silent, r.Silent) (h : Divided frames outs []) :
    Divided (frames ++ silent.filterMap HostRead.voice?) outs [] := by
  induction silent generalizing frames with
  | nil => rwa [List.filterMap_nil, List.append_nil]
  | cons r silent ih =>
    obtain ⟨hr, hlater⟩ := List.forall_mem_cons.mp hs
    rcases hr with rfl | rfl
    · exact ih hlater h
    · have hlater := ih hlater (h.frame [])
      rwa [List.append_assoc] at hlater

theorem divided (h : Handed room p reads x p') (hroom : 0 < room) (hd : Divided frames outs p) :
    Divided (frames ++ reads.filterMap HostRead.voice?) (outs ++ (x.bind Supply.chunk?).toList.map (room, ·)) p' := by
  cases h with
  | rest hp =>
    rw [List.filterMap_nil, List.append_nil]
    exact hd.chunk hp hroom
  | @voice silent b hs hb =>
    have hsilent := divided_silent hs hd
    rw [List.filterMap_append, ← List.append_assoc]
    exact (hsilent.frame b).chunk hb hroom
  | @fault silent e hs =>
    have hsilent := divided_silent hs hd
    have hnone : [HostRead.fault e].filterMap HostRead.voice? = [] := rfl
    rw [List.filterMap_append, hnone, List.append_nil]
    simpa using hsilent
  | done hs | givenUp hs =>
    have hsilent := divided_silent hs hd
    simpa using hsilent

end Handed

/-! ### Any requests -/

/-- A request: how long after the one before it is made, for how much, and how long its answer is waited for. -/
structure Request where
  wait : Nat
  room : Nat
  room_pos : 0 < room
  patience : Nat

/-- What requests come to: the sizes that were asked for with the answers, the source behind them, and when they were
    over. -/
structure Handing (σ : Type) where
  answers : List (Nat × Supply)
  source : σ
  time : Nat

namespace Handing
variable {σ : Type}

/-- The chunks handed out, each beside the size that was asked for. -/
def chunks (h : Handing σ) : List (Nat × Bytes) := h.answers.filterMap fun x => x.2.chunk?.map (x.1, ·)

def faults (h : Handing σ) : List Fault := h.answers.filterMap fun x => x.2.fault?

/-- One more request in front, for `room` bytes, and its answer, if there was one. -/
def prepend (room : Nat) (x : Option Supply) (later : Handing σ) : Handing σ :=
  { later with answers := (x.map (room, ·)).toList ++ later.answers }

theorem chunks_prepend (room : Nat) (x : Option Supply) (later : Handing σ) :
    (prepend room x later).chunks = (x.bind Supply.chunk?).toList.map (room, ·) ++ later.chunks := by
  rcases x with - | x
  · rfl
  · cases x <;> rfl

theorem faults_prepend (room : Nat) (x : Option Supply) (later : Handing σ) :
    (prepend room x later).faults = (x.bind Supply.fault?).toList ++ later.faults := by
  rcases x with - | x
  · rfl
  · cases x <;> rfl

end Handing

namespace Source
variable {σ α : Type} {src : Source σ} {view : α → HostRead} {frames : σ → List (Nat × α)} {pending : σ → Bytes} {s : σ}

/-- The source is asked one request after another, from the instant `now` on. -/
def asks (src : Source σ) (s : σ) (now : Nat) : List Request → Handing σ
  | [] => ⟨[], s, now⟩
  | q :: qs =>
    let limit := now + q.wait + q.patience
    let asked := src.ask s q.room (now + q.wait) limit
    .prepend q.room (asked.1.map fun x => x.2.supply) (src.asks asked.2 (asked.1.elim limit Prod.fst) qs)

/-- What is true of a source is kept by each of its answers and by each request that is given up. -/
structure Stays (src : Source σ) (I : σ → Prop) : Prop where
  answer : ∀ {s room now a}, I s → src.next s room now = some a → I a.source
  dropped : ∀ {s room now limit}, I s → I (src.dropped s room now limit)

/-- The source reads its frames one after another, and each request hands out what one request can. -/
structure Live (src : Source σ) (view : α → HostRead) (frames : σ → List (Nat × α)) (pending : σ → Bytes) : Prop where
  answer : ∀ {s room now a}, src.next s room now = some a → ∃ more, frames s = more ++ frames a.source ∧
    (∀ x ∈ more, x.1 ≤ now + a.delay) ∧
    Handed room (pending s) (more.map fun x => view x.2) (some a.supply) (pending a.source)
  dropped : ∀ {s room now limit}, now ≤ limit → (∀ a, src.next s room now = some a → limit < now + a.delay) → ∃ more,
    frames s = more ++ frames (src.dropped s room now limit) ∧ (∀ x ∈ more, x.1 ≤ limit) ∧
    Handed room (pending s) (more.map fun x => view x.2) none (pending (src.dropped s room now limit))

/-- Everything that a request can come to. -/
inductive Asked (src : Source σ) (s : σ) (room now limit : Nat) : Option (Nat × Supplied σ) × σ → Prop
  | answered {a : Supplied σ} (ha : src.next s room now = some a) (hlimit : now + a.delay ≤ limit) :
      Asked src s room now limit (some (now + a.delay, a), a.source)
  | givenUp (h : ∀ a, src.next s room now = some a → limit < now + a.delay) :
      Asked src s room now limit (none, src.dropped s room now limit)

theorem ask_asked (src : Source σ) (s : σ) (room now limit : Nat) :
    src.Asked s room now limit (src.ask s room now limit) := by
  unfold ask
  split
  · next a ha =>
    split
    · next hle => exact .answered ha hle
    · next hgt =>
      refine .givenUp fun a' ha' => ?_
      cases ha.symm.trans ha'
      exact Nat.lt_of_not_le hgt
  · next hnone => exact .givenUp fun a ha => by cases hnone.symm.trans ha

theorem Stays.ask {I : σ → Prop} (h : src.Stays I) (hs : I s) (room now limit : Nat) : I (src.ask s room now limit).2 := by
  have hasked := src.ask_asked s room now limit
  generalize src.ask s room now limit = x at hasked
  cases hasked with
  | answered ha => exact h.answer hs ha
  | givenUp => exact h.dropped hs

theorem Stays.asks {I : σ → Prop} (h : src.Stays I) (hs : I s) (now : Nat) (qs : List Request) :
    I (src.asks s now qs).source := by
  induction qs generalizing s now with
  | nil => exact hs
  | cons q qs ih => exact ih (h.ask hs _ _ _) _

theorem le_time_asks (src : Source σ) (s : σ) (now : Nat) (qs : List Request) : now ≤ (src.asks s now qs).time := by
  induction qs generalizing s now with
  | nil => exact Nat.le_refl now
  | cons q qs ih =>
    refine Nat.le_trans ?_ (ih _ _)
    have hasked := src.ask_asked s q.room (now + q.wait) (now + q.wait + q.patience)
    generalize src.ask s q.room (now + q.wait) (now + q.wait + q.patience) = x at hasked
    cases hasked with
    | @answered a ha =>
      show now ≤ now + q.wait + a.delay
      omega
    | givenUp =>
      show now ≤ now + q.wait + q.patience
      omega

theorem Live.ask (hlive : src.Live view frames pending) (s : σ) (room : Nat) {now limit : Nat} (hle : now ≤ limit) : ∃ more,
    frames s = more ++ frames (src.ask s room now limit).2 ∧
    (∀ x ∈ more, x.1 ≤ (src.ask s room now limit).1.elim limit Prod.fst) ∧
    Handed room (pending s) (more.map fun x => view x.2) ((src.ask s room now limit).1.map fun x => x.2.supply)
      (pending (src.ask s room now limit).2) := by
  have hasked := src.ask_asked s room now limit
  generalize src.ask s room now limit = x at hasked
  cases hasked with
  | answered ha => exact hlive.answer ha
  | givenUp h => exact hlive.dropped hle h

/-- The frames that any requests have read, what was handed out of them, and what is left of the last one. -/
theorem Live.asks (hlive : src.Live view frames pending) (s : σ) (now : Nat) (qs : List Request) : ∃ taken,
    frames s = taken ++ frames (src.asks s now qs).source ∧ (∀ x ∈ taken, x.1 ≤ (src.asks s now qs).time) ∧
    Divided (pending s :: taken.filterMap fun x => (view x.2).voice?) (src.asks s now qs).chunks
      (pending (src.asks s now qs).source) ∧
    (src.asks s now qs).faults = taken.filterMap fun x => (view x.2).fault? := by
  suffices ∀ begun outs, Divided begun outs (pending s) → ∃ taken,
      frames s = taken ++ frames (src.asks s now qs).source ∧ (∀ x ∈ taken, x.1 ≤ (src.asks s now qs).time) ∧
      Divided (begun ++ taken.filterMap fun x => (view x.2).voice?) (outs ++ (src.asks s now qs).chunks)
        (pending (src.asks s now qs).source) ∧
      (src.asks s now qs).faults = taken.filterMap fun x => (view x.2).fault? from
    this _ _ (.start (pending s))
  induction qs generalizing s now with
  | nil =>
    intro begun outs hd
    refine ⟨[], rfl, List.forall_mem_nil _, ?_, rfl⟩
    rw [List.filterMap_nil, List.append_nil]
    exact (List.append_nil outs).symm ▸ hd
  | cons q qs ih =>
    intro begun outs hd
    obtain ⟨more, hframes, hcome, hhanded⟩ := hlive.ask s q.room (Nat.le_add_right (now + q.wait) q.patience)
    have hdivided := hhanded.divided q.room_pos hd
    have hfaults := hhanded.faults
    rw [Source.asks]
    generalize src.ask s q.room (now + q.wait) (now + q.wait + q.patience) = asked at hframes hcome hdivided hfaults ⊢
    obtain ⟨taken, hframes', hcome', hdivided', hfaults'⟩ :=
      ih asked.2 (asked.1.elim (now + q.wait + q.patience) Prod.fst) _ _ hdivided
    have htime := src.le_time_asks asked.2 (asked.1.elim (now + q.wait + q.patience) Prod.fst) qs
    generalize src.asks asked.2 (asked.1.elim (now + q.wait + q.patience) Prod.fst) qs = later
      at hframes' hcome' hdivided' hfaults' htime ⊢
    refine ⟨more ++ taken, ?_, ?_, ?_, ?_⟩
    · rw [hframes, hframes', List.append_assoc]
      rfl
    · exact List.forall_mem_append.mpr ⟨fun x hx => Nat.le_trans (hcome x hx) htime, hcome'⟩
    · rw [Handing.chunks_prepend, List.filterMap_append, ← List.append_assoc, ← List.append_assoc]
      rw [List.filterMap_map] at hdivided'
      exact hdivided'
    · rw [Handing.faults_prepend, hfaults, hfaults', List.filterMap_append, List.filterMap_map]
      rfl

end Source

/-! ### Feeds -/

namespace Feed

/-- A frame of a feed is like a voice frame of a host channel. -/
theorem live : source.Live HostRead.voice Feed.frames Feed.pending where
  answer := by
    intro f room now a h
    obtain ⟨taken, hlooks⟩ := next_looks h
    exact ⟨taken, hlooks.frames, hlooks.come, hlooks.handed⟩
  dropped := by
    intro f room now limit hle h
    -- A rest would have been handed out at once.
    have hp : f.pending = [] := Decidable.not_not.mp fun hp => Nat.not_lt_of_le hle (h _ (next_rest hp room now))
    obtain ⟨silent, hframes, hsilent, hsame, -⟩ := dropped_looks f room now limit
    refine ⟨silent, hframes, fun x hx => (hsilent x hx).2, ?_⟩
    rw [hsame, hp]
    exact .givenUp (silent_of_empty fun x hx => (hsilent x hx).1)

theorem stays_closes (closes : Option Nat) : source.Stays fun f => f.closes = closes where
  answer := by
    intro f room now a hf h
    obtain ⟨taken, hlooks⟩ := next_looks h
    exact hlooks.closes.trans hf
  dropped := by
    intro f room now limit hf
    obtain ⟨silent, -, -, -, hcloses⟩ := dropped_looks f room now limit
    exact hcloses.trans hf

/-- What any requests come to that are made of the feed `f`. -/
structure Serves (f : Feed) (h : Handing Feed) : Prop where
  /-- The frames taken have been received, and all of their audio has been handed out but the rest that is pending. -/
  received : ∃ taken, f.frames = taken ++ h.source.frames ∧ (∀ x ∈ taken, x.1 ≤ h.time) ∧
    Divided (f.pending :: taken.map Prod.snd) h.chunks h.source.pending
  sound : h.faults = []
  rest : h.source.pending ≠ [] → ∀ room now, source.next h.source room now = some (h.source.handOut room 0)
  /-- The end is told when nothing is pending, and when everything sent before the feed was closed has been received. -/
  ends : ∀ room now a, source.next h.source room now = some a → a.supply = .done → h.source.pending = [] ∧
    (∀ x ∈ h.source.frames, x.2 = [] ∧ x.1 ≤ now + a.delay) ∧ ∃ t, f.closes = some t ∧ t ≤ now + a.delay
  /-- A request waits for ever only if there will be nothing to hand out and no end. -/
  waits : ∀ room now, source.next h.source room now = none →
    h.source.pending = [] ∧ (∀ x ∈ h.source.frames, x.2 = []) ∧ f.closes = none

theorem asks_serves (f : Feed) (now : Nat) (qs : List Request) : f.Serves (source.asks f now qs) := by
  obtain ⟨taken, hframes, hcome, hdivided, hfaults⟩ := live.asks f now qs
  have hcloses := (stays_closes f.closes).asks rfl now qs
  generalize source.asks f now qs = h at hframes hcome hdivided hfaults hcloses ⊢
  constructor
  · refine ⟨taken, hframes, hcome, ?_⟩
    rwa [← List.filterMap_eq_map]
  · rw [hfaults]
    exact List.filterMap_eq_nil_iff.mpr fun x hx => rfl
  · exact fun hp room now => next_rest hp room now
  · intro room now a hnext hdone
    obtain ⟨more, hlooks⟩ := next_looks hnext
    rcases hlooks.splits with ⟨hp, -, -, hsilent⟩ | ⟨b, -, -, hchunk, -⟩
    · obtain ⟨hnone, t, ht, hle⟩ := hlooks.closed hdone
      have hall : h.source.frames = more := hlooks.frames.trans (hnone ▸ List.append_nil more)
      rw [hall]
      exact ⟨hp, fun x hx => ⟨hsilent x hx, hlooks.come x hx⟩, t, hcloses.symm.trans (hlooks.closes.symm.trans ht), hle⟩
    · cases hchunk.symm.trans hdone
  · intro room now hnone
    obtain ⟨hp, hempty, hnever⟩ := next_eq_none hnone
    exact ⟨hp, hempty, hcloses.symm.trans hnever⟩

end Feed

/-! ### Host channels -/

namespace HostVoice

theorem live : source.Live id (fun v => v.leg.frames) HostVoice.pending where
  answer := by
    intro v room now a h
    obtain ⟨taken, hlooks⟩ := next_looks h
    exact ⟨taken, hlooks.frames, hlooks.come, hlooks.handed⟩
  dropped := by
    intro v room now limit hle h
    have hp : v.pending = [] := Decidable.not_not.mp fun hp => Nat.not_lt_of_le hle (h _ (next_rest hp room now))
    obtain ⟨silent, hframes, hsilent, -, -, hsame⟩ := dropped_looks v room now limit
    refine ⟨silent, hframes, fun x hx => (hsilent x hx).2, ?_⟩
    rw [hsame, hp]
    exact .givenUp (silent_reads fun x hx => (hsilent x hx).1)

/-- How often the leg was read and how many of its frames are left add up to the same at any time. -/
theorem stays_counted (v : HostVoice) : source.Stays fun v' => v'.leg.up = v.leg.up ∧
    v'.leg.reads + v'.leg.frames.length = v.leg.reads + v.leg.frames.length where
  answer := by
    rintro v' room now a ⟨hup, hcount⟩ h
    obtain ⟨taken, hlooks⟩ := next_looks h
    have hlength := congrArg List.length hlooks.frames
    rw [List.length_append] at hlength
    exact ⟨hlooks.same.trans hup, by rw [hlooks.count]; omega⟩
  dropped := by
    rintro v' room now limit ⟨hup, hcount⟩
    obtain ⟨silent, hframes, -, hreads, hsame, -⟩ := dropped_looks v' room now limit
    have hlength := congrArg List.length hframes
    rw [List.length_append] at hlength
    exact ⟨hsame.trans hup, by rw [hreads]; omega⟩

/-- What any requests come to that are made of the channel `v`. -/
structure Serves (v : HostVoice) (h : Handing HostVoice) : Prop where
  /-- The frames taken have been read, all voice of them has been handed out but the rest that is pending, and each
      fault has been told in its turn. -/
  received : ∃ taken, v.leg.frames = taken ++ h.source.leg.frames ∧ h.source.leg.reads = v.leg.reads + taken.length ∧
    (∀ x ∈ taken, x.1 ≤ h.time) ∧ Divided (v.pending :: taken.filterMap fun x => x.2.voice?) h.chunks h.source.pending ∧
    h.faults = taken.filterMap fun x => x.2.fault?
  up : h.source.leg.up = v.leg.up
  /-- Whether or not the leg is up, a rest is handed out first. -/
  rest : h.source.pending ≠ [] → ∀ room now, source.next h.source room now = some (h.source.handOut room 0)
  ends : ∀ room now a, source.next h.source room now = some a → a.supply = .done →
    h.source.pending = [] ∧ a.source.leg.isUp (now + a.delay) = false
  /-- A fault is that of the next frame behind those with nothing to hand out. -/
  fails : ∀ room now a e, source.next h.source room now = some a → a.supply = .failed e → h.source.pending = [] ∧
    ∃ silent t, h.source.leg.frames = silent ++ (t, .fault e) :: a.source.leg.frames ∧ ∀ x ∈ silent, x.2.Silent
  waits : ∀ room now, source.next h.source room now = none → h.source.pending = [] ∧ ∀ x ∈ h.source.leg.frames, x.2.Silent

theorem asks_serves (v : HostVoice) (now : Nat) (qs : List Request) : v.Serves (source.asks v now qs) := by
  obtain ⟨taken, hframes, hcome, hdivided, hfaults⟩ := live.asks v now qs
  obtain ⟨hup, hcount⟩ := (stays_counted v).asks ⟨rfl, rfl⟩ now qs
  generalize source.asks v now qs = h at hframes hcome hdivided hfaults hup hcount ⊢
  constructor
  · refine ⟨taken, hframes, ?_, hcome, hdivided, hfaults⟩
    have hlength := congrArg List.length hframes
    rw [List.length_append] at hlength
    omega
  · exact hup
  · exact fun hp room now => next_rest hp room now
  · intro room now a hnext hdone
    obtain ⟨more, hlooks⟩ := next_looks hnext
    rcases hlooks.splits with ⟨hp, -⟩ | ⟨b, -, -, hchunk, -⟩
    · exact ⟨hp, hlooks.down hdone⟩
    · cases hchunk.symm.trans hdone
  · intro room now a e hnext hfailed
    obtain ⟨more, hlooks⟩ := next_looks hnext
    rcases hlooks.splits with ⟨hp, -, ⟨hdone, -⟩ | ⟨silent, t, e', hfailed', rfl, hsilent⟩⟩ | ⟨b, -, -, hchunk, -⟩
    · cases hdone.symm.trans hfailed
    · cases hfailed'.symm.trans hfailed
      exact ⟨hp, silent, t, hlooks.frames.trans (List.append_assoc ..), hsilent⟩
    · cases hchunk.symm.trans hfailed
  · exact fun room now hnone => next_eq_none hnone

end HostVoice

/-- Whatever frames are sent to a feed or read from a host channel, with empty ones and ones that are no voice among
    them, and however they are asked for, their audio is handed out frame by frame and whole. -/
theorem frames_split : (∀ (f : Feed) now qs, f.Serves (Feed.source.asks f now qs)) ∧
    ∀ (v : HostVoice) now qs, v.Serves (HostVoice.source.asks v now qs) :=
  ⟨Feed.asks_serves, HostVoice.asks_serves⟩

/-- Four frames are read, two of them no voice, and then the leg is down. -/
example : (HostVoice.source.asks
    ⟨⟨[(0, .other), (0, .voice [1, 1, 1, 1]), (5, .other), (9, .voice [2, 2])], 0, fun n _ => n < 4⟩, []⟩ 0
      (List.replicate 4 ⟨0, 3, by decide, 20⟩)).answers =
    [(3, .chunk [1, 1, 1]), (3, .chunk [1]), (3, .chunk [2, 2]), (3, .done)] := rfl

end CallRelay
