import CallRelay.Proofs.Reassembly.Calls
import CallRelay.Proofs.Wire.Inverse

/-! # How much a reader holds

A reader reads only while no message is complete in its buffer, and then there is room in it for less than the longest
message. Hence one more read is all that comes on top of that, however much has arrived and however seldom the reader is
asked. -/

namespace CallRelay

theorem Inflow.length_le_of_read {room now : Nat} {i : Inflow} {f : Found} {b : Bytes} (h : read room now i = some f)
    (hb : f.what = .bytes b) : b.length ≤ room := by
  induction i with
  | nil => cases h
  | cons a rest ih =>
    unfold read at h
    split at h
    · exact ih h
    · cases h
      cases hb
      exact List.length_take_le _ _
    · cases h
      cases hb
    · cases h
      cases hb

namespace Reader
variable {r r' : Reader} {rs : List Reader}

/-! ### The states of a reader -/

/-- The states that a call passes through behind `r`: one with each read that is answered in time, and one with the
    message that it takes. -/
def stages (r : Reader) (now : Nat) (limit : Option Nat) : List Reader :=
  match Message.decode r.buffer with
  | .ok (_, used) => [{ r with buffer := r.buffer.drop used }]
  | .error _ =>
    match _hread : Inflow.read readBuffer now r.inflow with
    | none => []
    | some f =>
      if limit.any (· < f.time) then []
      else match _hwhat : f.what with
        | .eof | .fault _ => [{ r with inflow := f.rest }]
        | .bytes b =>
          let fuller : Reader := ⟨r.buffer ++ b, r.bytesRead + b.length, f.rest⟩
          fuller :: stages fuller f.time limit
termination_by r.inflow.size
decreasing_by
  have hsize := Inflow.size_of_read _hread
  have hne := List.length_pos_iff.mpr (Inflow.read_ne_nil (by decide) _hread _hwhat)
  simp only [_hwhat] at hsize ⊢
  omega

/-- The states that a reader passes through in calls one after another. -/
def history (r : Reader) : List Call → List Reader
  | [] => []
  | c :: cs => r.stages c.time c.limit ++ history (r.next c.time c.limit).1 cs

/-- No message is complete in the buffer. -/
def Idle (r : Reader) : Prop := ∀ m : Message, ¬m.encode <+: r.buffer

/-- What a reader does next: it takes the message at the front of its buffer, or it reads, but only if there is none. -/
inductive Moves : Reader → Reader → Prop
  | takes {r : Reader} {m : Message} {rest : Bytes} (h : r.buffer = m.encode ++ rest) : Moves r { r with buffer := rest }
  | reads {r : Reader} {now : Nat} {f : Found} {b : Bytes} (hidle : r.Idle)
      (hread : Inflow.read readBuffer now r.inflow = some f) (hb : f.what = .bytes b) :
      Moves r ⟨r.buffer ++ b, r.bytesRead + b.length, f.rest⟩
  | stops {r : Reader} {now : Nat} {f : Found} (hidle : r.Idle) (hread : Inflow.read readBuffer now r.inflow = some f)
      (hb : ∀ b, f.what ≠ .bytes b) : Moves r { r with inflow := f.rest }

/-- A reader goes from one state to another through the given ones, the last of which it comes to. -/
inductive Passes : Reader → List Reader → Reader → Prop
  | nil (r : Reader) : Passes r [] r
  | cons {r r₁ r' : Reader} {rs : List Reader} (h : Moves r r₁) (later : Passes r₁ rs r') : Passes r (r₁ :: rs) r'

theorem Passes.append {r₁ : Reader} {later : List Reader} (h : Passes r rs r₁) (h' : Passes r₁ later r') :
    Passes r (rs ++ later) r' := by
  induction h with
  | nil => exact h'
  | cons hmove _ ih => exact .cons hmove (ih h')

theorem idle_of_decode {e : CodecFault} (h : Message.decode r.buffer = .error e) : r.Idle := by
  intro m hm
  cases h.symm.trans (Message.decode_eq_ok_iff.mpr ⟨rfl, hm⟩)

section Stages
variable {now : Nat} {limit : Option Nat} {e : CodecFault} {f : Found}

theorem stages_of_waiting (hdec : Message.decode r.buffer = .error e)
    (hread : ∀ f, Inflow.read readBuffer now r.inflow = some f → limit.any (· < f.time) = true) :
    r.stages now limit = [] := by
  unfold stages
  simp only [hdec]
  split
  · rfl
  · next f hf => exact if_pos (hread f hf)

theorem stages_of_stop (hdec : Message.decode r.buffer = .error e) (hread : Inflow.read readBuffer now r.inflow = some f)
    (hlim : ¬limit.any (· < f.time) = true) (hb : ∀ b, f.what ≠ .bytes b) :
    r.stages now limit = [{ r with inflow := f.rest }] := by
  unfold stages
  simp only [hdec]
  split
  · next hnone => cases hnone.symm.trans hread
  · next f' hf =>
    cases hf.symm.trans hread
    rw [if_neg hlim]
    split
    · rfl
    · rfl
    · next b hbytes => exact absurd hbytes (hb b)

theorem stages_of_bytes {b : Bytes} (hdec : Message.decode r.buffer = .error e)
    (hread : Inflow.read readBuffer now r.inflow = some f) (hlim : ¬limit.any (· < f.time) = true)
    (hb : f.what = .bytes b) :
    r.stages now limit = ⟨r.buffer ++ b, r.bytesRead + b.length, f.rest⟩ ::
      stages ⟨r.buffer ++ b, r.bytesRead + b.length, f.rest⟩ f.time limit := by
  conv => lhs; unfold stages
  simp only [hdec]
  split
  · next hnone => cases hnone.symm.trans hread
  · next f' hf =>
    cases hf.symm.trans hread
    rw [if_neg hlim]
    split
    · next hwhat => cases hwhat.symm.trans hb
    · next hwhat => cases hwhat.symm.trans hb
    · next b' hwhat =>
      cases hwhat.symm.trans hb
      rfl

end Stages

/-- A call goes through its stages. -/
theorem Hears.passes {limit : Option Nat} {now : Nat} {out : Option (Nat × Heard)} (h : Hears limit r now r' out) :
    Passes r (r.stages now limit) r' := by
  induction h with
  | message hdec =>
    unfold stages
    simp only [hdec]
    exact .cons (.takes (Message.eq_encode_append_of_decode hdec)) (.nil _)
  | waits hdec hread =>
    rw [stages_of_waiting hdec fun f hf => by cases hread.symm.trans hf]
    exact .nil _
  | givenUp hdec hread hlim =>
    rw [stages_of_waiting hdec fun f' hf => by cases hread.symm.trans hf; exact hlim]
    exact .nil _
  | @ended r now e f hdec hread hlim hwhat =>
    have hnone : ∀ b, f.what ≠ .bytes b := fun b hb => by cases hwhat.symm.trans hb
    rw [stages_of_stop hdec hread hlim hnone]
    exact .cons (.stops (idle_of_decode hdec) hread hnone) (.nil _)
  | @failed r now e f g hdec hread hlim hwhat =>
    have hnone : ∀ b, f.what ≠ .bytes b := fun b hb => by cases hwhat.symm.trans hb
    rw [stages_of_stop hdec hread hlim hnone]
    exact .cons (.stops (idle_of_decode hdec) hread hnone) (.nil _)
  | reads hdec hread hlim hwhat later ih =>
    rw [stages_of_bytes hdec hread hlim hwhat]
    exact .cons (.reads (idle_of_decode hdec) hread hwhat) ih

theorem next_passes (r : Reader) (now : Nat) (limit : Option Nat) : Passes r (r.stages now limit) (r.next now limit).1 :=
  (next_hears r now limit).passes

theorem calls_passes (r : Reader) (cs : List Call) : Passes r (r.history cs) (r.calls cs).1 := by
  induction cs generalizing r with
  | nil => exact .nil r
  | cons c cs ih => exact (next_passes r c.time c.limit).append (ih _)

/-! ### Their buffers -/

/-- A message cut short by its last byte, the longest one there is. -/
def longestPart : Nat := headerLength + maxPayload - 1

theorem Idle.length_le (h : r.Idle) : r.buffer.length ≤ longestPart := by
  refine Nat.le_of_not_lt fun hlt => ?_
  have hlong : headerLength + maxPayload ≤ r.buffer.length := Nat.le_of_pred_lt hlt
  obtain ⟨m, n, hm⟩ := Message.decode_of_long hlong
  exact h m (Message.decode_eq_ok_iff.mp hm).2

theorem Moves.length_le (h : Moves r r') (hr : r.buffer.length ≤ longestPart + readBuffer) :
    r'.buffer.length ≤ longestPart + readBuffer := by
  cases h with
  | takes hbuf =>
    rw [hbuf, List.length_append] at hr
    exact Nat.le_trans (Nat.le_add_left _ _) hr
  | reads hidle hread hb =>
    rw [List.length_append]
    exact Nat.add_le_add hidle.length_le (Inflow.length_le_of_read hread hb)
  | stops => exact hr

theorem Passes.length_le (h : Passes r rs r') (hr : r.buffer.length ≤ longestPart + readBuffer) :
    ∀ x ∈ r :: rs, x.buffer.length ≤ longestPart + readBuffer := by
  induction h with
  | nil => exact List.forall_mem_singleton.mpr hr
  | cons hmove _ ih => exact List.forall_mem_cons.mpr ⟨hr, ih (hmove.length_le hr)⟩

/-- Whatever calls are made and given up, the reader reads only while no message is complete in its buffer, which never
    holds more than the longest part of a message and one read on top of it. -/
theorem buffer_bounded (i : Inflow) (cs : List Call) :
    Passes (ofInflow i) ((ofInflow i).history cs) ((ofInflow i).calls cs).1 ∧
    ((∀ m, ((ofInflow i).calls cs).2.getLast? ≠ some (some (.message m))) → ((ofInflow i).calls cs).1.Idle) ∧
    ∀ r ∈ ofInflow i :: (ofInflow i).history cs, r.buffer.length ≤ 65537 + 4096 := by
  have hpasses := calls_passes (ofInflow i) cs
  refine ⟨hpasses, fun hlast => ?_, hpasses.length_le (Nat.zero_le _)⟩
  cases cs with
  | nil => exact idle_of_decode Message.decode_nil
  | cons c cs =>
    obtain ⟨e, he⟩ := calls_idle (ofInflow i) (c :: cs) (List.cons_ne_nil c cs) hlast
    exact idle_of_decode he

end Reader
end CallRelay
