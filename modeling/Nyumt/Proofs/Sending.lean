import Nyumt.NoiseOutput
import Nyumt.Proofs.Framed

/-!
# The end that writes

Whatever an end is asked to write, to flush or to close comes to moves of four kinds (`Moves`): more
of a message is written to the io, the frame that is gathered becomes the next message or fails to,
and more is gathered. While the buffer is the frame that is gathered or nothing is (`Gathers`),
which each move keeps, none of the assertions fails.
-/

namespace Nyumt.Noise

/-- The bytes of a buffer that were taken. -/
def Poll.accepted (buf : Bytes) : Poll (Except IoError ℕ) → Bytes
  | .ready (.ok n) => buf.take n
  | .ready (.error _) | .pending => []

namespace NoiseOutput

variable {σ : Type}

/-- The buffer holds the frame that is gathered, or nothing is gathered. -/
def Gathers (o : NoiseOutput σ) : Prop :=
  (o.sendOffset = 0 ∨ o.sendOffset = o.sendBuffer.length) ∧ o.sendBuffer.length ≤ maxFrameLen

/-- What is gathered for the next frame. -/
def gathered (o : NoiseOutput σ) : Bytes := o.sendBuffer.take o.sendOffset

theorem take_takeD {α : Type} (d : α) : ∀ {m n : ℕ} {l : List α}, m ≤ n → m ≤ l.length →
    (l.takeD n d).take m = l.take m
  | 0, _, _, _, _ => by rw [List.take_zero, List.take_zero]
  | m + 1, n + 1, x :: l, hn, hl => by
    rw [List.takeD_succ, List.take_succ_cons, List.take_succ_cons, List.head?_cons,
      Option.getD_some, List.tail_cons,
      take_takeD d (Nat.le_of_succ_le_succ hn) (Nat.le_of_succ_le_succ hl)]

theorem Gathers.of_buffer {o : NoiseOutput σ} (h : o.Gathers) (buf : Bytes) :
    (o.buffer buf).2.Gathers
      ∧ (o.buffer buf).2.gathered = o.gathered ++ buf.take (o.buffer buf).1 := by
  obtain ⟨hoff, hle⟩ := h
  have hlen := List.takeD_length (min maxFrameLen (o.sendOffset + buf.length)) o.sendBuffer 0
  have htake :
      (o.sendBuffer.takeD (min maxFrameLen (o.sendOffset + buf.length)) 0).take o.sendOffset
        = o.gathered :=
    take_takeD 0 (by omega) (by omega)
  have hdrop : (o.sendBuffer.takeD (min maxFrameLen (o.sendOffset + buf.length)) 0).drop
      (o.sendOffset + min (maxFrameLen - o.sendOffset) buf.length) = [] := by
    rw [List.drop_eq_nil_iff, hlen]
    omega
  have hnew : (o.gathered ++ buf.take (min (maxFrameLen - o.sendOffset) buf.length)).length
      = o.sendOffset + min (maxFrameLen - o.sendOffset) buf.length := by
    rw [List.length_append, gathered, List.length_take, List.length_take]
    omega
  unfold Gathers NoiseOutput.buffer
  dsimp only
  rw [htake, hdrop, List.append_nil, hnew]
  refine ⟨⟨.inr rfl, by omega⟩, ?_⟩
  exact List.take_of_length_le hnew.le

/-- Moves of an end that asks its io with one of these: the bytes it accepts, the frames it seals
and the bytes its io takes. -/
inductive Moves (S : SessionState σ) (asks : List (List IoWrite)) (o : NoiseOutput σ) :
    Bytes → List Bytes → Bytes → NoiseOutput σ → Prop
  | refl : Moves S asks o [] [] [] o
  | write {acc out : Bytes} {ps : List Bytes} {o' : NoiseOutput σ} {as : List IoWrite}
      (h : Moves S asks o acc ps out o') (has : as ∈ asks) :
      Moves S asks o acc ps (out ++ (o'.io.pollReady as).2.2)
        { o' with io := (o'.io.pollReady as).2.1 }
  | send {acc out msg : Bytes} {ps : List Bytes} {o' : NoiseOutput σ} {session : σ}
      (h : Moves S asks o acc ps out o') (hready : o'.io.writeState = .ready)
      (hoff : o'.sendOffset = o'.sendBuffer.length)
      (hs : S.writeMessage o'.io.session o'.sendBuffer (o'.sendBuffer.length + extraEncryptSpace)
        = some (msg, session)) :
      Moves S asks o acc (ps ++ [o'.sendBuffer]) out { o' with
        io := { o'.io with
          session := session
          writeBuffer := msg
          writeState := .writeLen msg.length (toBeBytes msg.length) 0 }
        sendOffset := 0 }
  | fail {acc out : Bytes} {ps : List Bytes} {o' : NoiseOutput σ} (h : Moves S asks o acc ps out o')
      (hready : o'.io.writeState = .ready) :
      Moves S asks o acc ps out { o' with io := { o'.io with writeState := .encErr } }
  | buffer {acc out : Bytes} {ps : List Bytes} {o' : NoiseOutput σ}
      (h : Moves S asks o acc ps out o') (buf : Bytes) :
      Moves S asks o (acc ++ buf.take (o'.buffer buf).1) ps out (o'.buffer buf).2

variable {S : SessionState σ} {asks : List (List IoWrite)} {o o' : NoiseOutput σ}

theorem Moves.gathers {acc out : Bytes} {ps : List Bytes} (h : Moves S asks o acc ps out o')
    (ho : o.Gathers) : o'.Gathers := by
  induction h with
  | refl => exact ho
  | write _ _ ih => exact ih
  | send _ _ _ _ ih => exact ⟨.inl rfl, ih.2⟩
  | fail _ _ ih => exact ih
  | buffer _ buf ih => exact (ih.of_buffer buf).1

/-- What is accepted is sealed, or gathered. -/
theorem Moves.sealed_append {acc out : Bytes} {ps : List Bytes} (h : Moves S asks o acc ps out o')
    (ho : o.Gathers) : o.gathered ++ acc = ps.flatten ++ o'.gathered := by
  induction h with
  | refl => exact List.append_nil _
  | write _ _ ih => exact ih
  | @send _ _ _ _ o' _ _ _ hoff _ ih =>
    have hall : o'.gathered = o'.sendBuffer := by
      rw [gathered, hoff, List.take_length]
    rw [ih, hall]
    simp [gathered]
  | fail _ _ ih => exact ih
  | buffer h buf ih =>
    rw [((h.gathers ho).of_buffer buf).2, ← List.append_assoc, ih, List.append_assoc]

variable (S)

/-- The frame that `sendFrame` seals. -/
def sealed (o : NoiseOutput σ) (as : List IoWrite) : List Bytes :=
  match o.io.pollReady as with
  | (.ready (.ok ()), io, _) =>
    ((S.writeMessage io.session o.sendBuffer (o.sendBuffer.length + extraEncryptSpace)).map fun _ =>
      o.sendBuffer).toList
  | _ => []

variable {S}

theorem sendFrame_moves {as : List IoWrite} (has : as ∈ asks) (ho : o.Gathers)
    (hpos : 0 < o.sendOffset) :
    ∃ r o' out, o.sendFrame S as = some (r, o', out) ∧ Moves S asks o [] (o.sealed S as) out o'
      ∧ (r = .ready (.ok ()) → o'.sendOffset = 0) := by
  obtain ⟨hframe, hready⟩ := pollReady_frame as o.io
  have hwrite := Moves.refl.write (S := S) (o := o) has
  unfold sendFrame sealed
  rcases hr : o.io.pollReady as with ⟨_ | e | _, io, out⟩ <;> rw [hr] at hframe hready hwrite <;>
    dsimp only at hframe hready hwrite ⊢
  · exact ⟨_, _, _, rfl, hwrite, fun h => by cases h⟩
  · exact ⟨_, _, _, rfl, hwrite, fun h => by cases h⟩
  · have hready := hready rfl
    have hmay : o.sendBuffer.length ≤ maxFrameLen ∧ io.writeState = .ready := ⟨ho.2, hready⟩
    unfold NoiseFramed.startSend
    rw [if_pos hmay]
    rcases hs : S.writeMessage io.session o.sendBuffer (o.sendBuffer.length + extraEncryptSpace)
      with _ | ⟨msg, session⟩
    · exact ⟨_, _, _, rfl, hwrite.fail hready, fun h => by cases h⟩
    · refine ⟨_, _, _, rfl, hwrite.send hready ?_ hs, fun _ => rfl⟩
      show o.sendOffset = o.sendBuffer.length
      rcases ho.1 with h | h
      · omega
      · exact h

theorem pollWrite_moves {as : List IoWrite} (has : as ∈ asks) (ho : o.Gathers) (buf : Bytes) :
    ∃ r o' out, o.pollWrite S buf as = some (r, o', out)
      ∧ Moves S asks o (r.accepted buf)
        (if o.sendOffset = maxFrameLen then o.sealed S as else []) out o' := by
  unfold pollWrite
  split_ifs with hfull
  · have hpos : 0 < o.sendOffset := by
      rw [hfull]
      exact Nat.succ_pos _
    obtain ⟨r, o', out, hsend, hmoves, -⟩ := sendFrame_moves (S := S) has ho hpos
    rw [hsend]
    rcases r with _ | e | _
    · exact ⟨_, _, _, rfl, hmoves⟩
    · exact ⟨_, _, _, rfl, hmoves⟩
    · exact ⟨_, _, _, rfl, hmoves.buffer buf⟩
  · exact ⟨_, _, _, rfl, Moves.refl.buffer buf⟩

/-- Nothing is gathered, and no message is being written. -/
def Idle (o : NoiseOutput σ) : Prop := o.sendOffset = 0 ∧ o.io.writeState = .ready

theorem Moves.flush {acc out : Bytes} {ps : List Bytes} {as : List IoWrite}
    (h : Moves S asks o acc ps out o') (has : as ∈ asks) (hoff : o'.sendOffset = 0)
    (io : Poll (Except IoError Unit)) :
    let r := o'.io.pollFlush as io
    Moves S asks o acc ps (out ++ r.2.2) { o' with io := r.2.1 }
      ∧ (r.1 = .ready (.ok ()) → Idle { o' with io := r.2.1 }) := by
  have hready := (pollReady_frame as o'.io).2
  have hwrite := h.write has
  unfold NoiseFramed.pollFlush
  rcases hr : o'.io.pollReady as with ⟨_ | e | _, io', out'⟩ <;> rw [hr] at hready hwrite
  · exact ⟨hwrite, fun h => by cases h⟩
  · exact ⟨hwrite, fun h => by cases h⟩
  · exact ⟨hwrite, fun _ => ⟨hoff, hready rfl⟩⟩

theorem pollFlush_moves {a : Flush} (hasks : a.ready ∈ asks ∧ a.write ∈ asks) (ho : o.Gathers) :
    ∃ r o' out, o.pollFlush S a = some (r, o', out)
      ∧ Moves S asks o [] (if 0 < o.sendOffset then o.sealed S a.ready else []) out o'
      ∧ (r = .ready (.ok ()) → o'.Idle) := by
  unfold pollFlush
  dsimp only
  split_ifs with hpos
  · obtain ⟨r, o', out, hsend, hmoves, hoff⟩ := sendFrame_moves (S := S) hasks.1 ho hpos
    rw [hsend]
    rcases r with _ | e | _
    · exact ⟨_, _, _, rfl, hmoves, fun h => by cases h⟩
    · exact ⟨_, _, _, rfl, hmoves, fun h => by cases h⟩
    · exact ⟨_, _, _, rfl, hmoves.flush hasks.2 (hoff rfl) a.io⟩
  · exact ⟨_, _, _, rfl, Moves.refl.flush hasks.2 (Nat.eq_zero_of_not_pos hpos) a.io⟩

theorem pollClose_moves {a : Flush} {as : List IoWrite} (hasks : a.ready ∈ asks ∧ a.write ∈ asks)
    (has : as ∈ asks) (ho : o.Gathers) (io close : Poll (Except IoError Unit)) :
    ∃ r o' out, o.pollClose S a as io close = some (r, o', out)
      ∧ Moves S asks o [] (if 0 < o.sendOffset then o.sealed S a.ready else []) out o'
      ∧ (r = .ready (.ok ()) → o'.Idle) := by
  obtain ⟨r, o', out, hflush, hmoves, hidle⟩ := pollFlush_moves (S := S) hasks ho
  unfold pollClose
  rw [hflush]
  rcases r with _ | e | _
  · exact ⟨_, _, _, rfl, hmoves, fun h => by cases h⟩
  · exact ⟨_, _, _, rfl, hmoves, fun h => by cases h⟩
  · obtain ⟨hmoves', hidle'⟩ := hmoves.flush has (hidle rfl).1 io
    dsimp only
    rcases hr : o'.io.pollFlush as io with ⟨_ | e | _, io', out'⟩ <;> rw [hr] at hmoves' hidle'
    · exact ⟨_, _, _, rfl, hmoves', fun h => by cases h⟩
    · exact ⟨_, _, _, rfl, hmoves', fun h => by cases h⟩
    · exact ⟨_, _, _, rfl, hmoves', fun _ => hidle' rfl⟩

theorem pollFlush_idle (h : o.Idle) (a : Flush) : o.pollFlush S a = some (a.io, o, []) := by
  rw [pollFlush, h.1, if_neg (Nat.lt_irrefl 0)]
  dsimp only
  rw [pollFlush_ready h.2]
  rfl

theorem pollClose_idle (h : o.Idle) (a : Flush) (as : List IoWrite)
    (io close : Poll (Except IoError Unit)) :
    ∃ r, o.pollClose S a as io close = some (r, o, []) := by
  rw [pollClose, pollFlush_idle h]
  rcases a.io with _ | e | _
  · exact ⟨_, rfl⟩
  · exact ⟨_, rfl⟩
  · dsimp only
    rw [pollFlush_ready h.2]
    rcases io with _ | e | _ <;> exact ⟨_, rfl⟩

end NoiseOutput

end Nyumt.Noise
