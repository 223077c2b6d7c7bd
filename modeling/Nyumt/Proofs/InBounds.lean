import Nyumt.Proofs.Integrity

/-!
# What never goes wrong at the ends of a connection

None of the assertions of an end fails, no slice it takes is out of range, and no length is cut off
that it writes in two bytes: whatever it is asked for, whatever the io answers and whatever bytes
come, each poll leaves it with its offsets in their buffers (`InBounds`), from where the next poll
has an answer (`runs_of_attacked`).
-/

namespace Nyumt.Noise

section Framed

variable {σ : Type} {S : SessionState σ}

def ReadState.InBounds : ReadState → Prop
  | .readLen buf => buf.length < 2
  | .readData len data => data.length < len
  | .ready | .eof _ | .decErr => True

/-- The offset is in the message or its length, which fits into its two bytes. -/
def WriteState.InBounds (msg : Bytes) : WriteState → Prop
  | .writeLen len buf off => len = msg.length ∧ len < 65536 ∧ buf = toBeBytes len ∧ off < 2
  | .writeData len off => len = msg.length ∧ (off < len ∨ off = 0)
  | .ready | .eof | .encErr => True

theorem pollRead_length {inc inc' : Incoming} {room : ℕ} {a : IoRead} {bs : Bytes}
    (h : inc.pollRead room a = (.ready (.ok bs), inc')) : bs.length ≤ room := by
  rcases a with _ | _ | n
  · cases h
  · cases h
  · unfold Incoming.pollRead at h
    dsimp only at h
    split_ifs at h with hnone
    · cases h
    · cases h
      rw [List.length_take]
      omega

theorem readLoop_inBounds : ∀ (as : List IoRead) (inc : Incoming) (f : NoiseFramed σ) (buf : Bytes),
    f.readState.InBounds → (f.at buf).InBounds → (f.readLoop S inc buf as).2.2.readState.InBounds
  | as, inc, ⟨s, st, w, wb⟩, buf, hin, hat => by
    rcases st with _ | buf₀ | ⟨len, data⟩ | ⟨_ | _⟩ | _
    · rcases as with _ | _ <;> trivial
    · rcases as with _ | ⟨a, as⟩
      · exact hat
      · have hbuf : buf.length < 2 := hat
        unfold NoiseFramed.readLoop
        dsimp only
        rcases hr : inc.pollRead (2 - buf.length) a with ⟨_ | e | _ | ⟨b, bs⟩, inc'⟩ <;> dsimp only
        · exact hat
        · exact hin
        · trivial
        · have hlen := pollRead_length hr
          have hbuf' : (buf ++ b :: bs).length ≤ 2 := by
            rw [List.length_append]
            omega
          split_ifs with h2 h0
          · exact readLoop_inBounds as _ _ _ hin (show (buf ++ b :: bs).length < 2 by omega)
          · exact readLoop_inBounds as _ _ _ Nat.two_pos Nat.two_pos
          · exact readLoop_inBounds as _ _ _ (Nat.pos_of_ne_zero h0) (Nat.pos_of_ne_zero h0)
    · rcases as with _ | ⟨a, as⟩
      · exact hin
      · have hdata : data.length < len := hin
        unfold NoiseFramed.readLoop
        dsimp only
        rcases hr : inc.pollRead (len - data.length) a with ⟨_ | e | _ | ⟨b, bs⟩, inc'⟩ <;>
          dsimp only
        · exact hin
        · exact hin
        · trivial
        · have hlen := pollRead_length hr
          have hdata' : (data ++ b :: bs).length ≤ len := by
            rw [List.length_append]
            omega
          split_ifs with h2
          · have hlt : (data ++ b :: bs).length < len := by omega
            exact readLoop_inBounds as _ _ _ hlt hlt
          · rcases S.readMessage s (data ++ b :: bs) with _ | ⟨payload, s'⟩ <;> trivial
    · rcases as with _ | _ <;> trivial
    · rcases as with _ | _ <;> trivial
    · rcases as with _ | _ <;> trivial

theorem pollNext_inBounds (as : List IoRead) (inc : Incoming) {f : NoiseFramed σ}
    (h : f.readState.InBounds) : (f.pollNext S inc as).2.2.readState.InBounds := by
  obtain ⟨s, st, w, wb⟩ := f
  unfold NoiseFramed.pollNext
  cases st with
  | ready => exact readLoop_inBounds as _ _ _ Nat.two_pos Nat.two_pos
  | readLen buf => exact readLoop_inBounds as _ _ _ h h
  | readData | eof | decErr => exact readLoop_inBounds as _ _ _ h h

theorem pollWrite_length {buf : Bytes} {a : IoWrite} {n : ℕ}
    (h : pollWrite buf a = .ready (.ok n)) : n ≤ buf.length := by
  rcases a with _ | _ | k
  · cases h
  · cases h
  · cases h
    exact Nat.min_le_right _ _

theorem writeLoop_inBounds : ∀ (as : List IoWrite) (f : NoiseFramed σ) (off : ℕ),
    f.writeState.InBounds f.writeBuffer → (f.writing off).InBounds f.writeBuffer →
      (f.writeLoop off as).2.1.writeState.InBounds f.writeBuffer
  | as, ⟨s, rd, st, msg⟩, off, hin, hat => by
    rcases st with _ | ⟨len, buf, off₀⟩ | ⟨len, off'⟩ | _ | _
    · rcases as with _ | _ <;> trivial
    · rcases as with _ | ⟨a, as⟩
      · exact hat
      · obtain ⟨hlen, hlt, rfl, hoff⟩ :
          len = msg.length ∧ len < 65536 ∧ buf = toBeBytes len ∧ off < 2 :=
          id hat
        unfold NoiseFramed.writeLoop
        dsimp only
        rcases hw : pollWrite ((toBeBytes len).drop off) a with _ | _ | _ | n <;> dsimp only
        · exact hat
        · exact hin
        · trivial
        · have hn := pollWrite_length hw
          rw [List.length_drop, length_toBeBytes] at hn
          split_ifs with h2
          · exact writeLoop_inBounds as _ _ ⟨hlen, .inr rfl⟩ ⟨hlen, .inr rfl⟩
          · have hoff' : off + (n + 1) < 2 := by omega
            exact writeLoop_inBounds as _ _ hin ⟨hlen, hlt, rfl, hoff'⟩
    · rcases as with _ | ⟨a, as⟩
      · exact hin
      · obtain ⟨rfl, hoff⟩ : len = msg.length ∧ (off' < len ∨ off' = 0) := id hin
        unfold NoiseFramed.writeLoop
        dsimp only
        rcases hw : pollWrite ((msg.take msg.length).drop off') a with _ | _ | _ | n <;> dsimp only
        · exact hin
        · exact hin
        · trivial
        · have hn := pollWrite_length hw
          rw [List.take_length, List.length_drop] at hn
          split_ifs with h2
          · exact writeLoop_inBounds as _ _ trivial trivial
          · have hlt : off' + (n + 1) < msg.length := by omega
            exact writeLoop_inBounds as _ _ ⟨rfl, .inl hlt⟩ ⟨rfl, .inl hlt⟩
    · rcases as with _ | _ <;> trivial
    · rcases as with _ | _ <;> trivial

theorem pollReady_inBounds (as : List IoWrite) {f : NoiseFramed σ}
    (h : f.writeState.InBounds f.writeBuffer) :
    (f.pollReady as).2.1.writeState.InBounds (f.pollReady as).2.1.writeBuffer := by
  rw [show (f.pollReady as).2.1.writeBuffer = f.writeBuffer by rw [(pollReady_frame as f).1]]
  obtain ⟨s, rd, st, msg⟩ := f
  unfold NoiseFramed.pollReady
  cases st with
  | writeLen len buf off => exact writeLoop_inBounds as _ _ h h
  | ready | writeData | eof | encErr => exact writeLoop_inBounds as _ _ h h

end Framed

section Output

variable {σ : Type} {S : SessionState σ}

/-- Each offset of an end is in its buffer. -/
structure NoiseOutput.InBounds (o : NoiseOutput σ) : Prop where
  read : o.io.readState.InBounds
  write : o.io.writeState.InBounds o.io.writeBuffer
  view : o.InView
  gathers : o.Gathers

theorem pollRead_inBounds : ∀ (polls : List (List IoRead)) (inc : Incoming) (o : NoiseOutput σ)
    (room : ℕ), o.io.readState.InBounds → (o.pollRead S inc room polls).2.2.io.readState.InBounds
  | polls, inc, o, room, h => by
    obtain ⟨bs, buffer, offset, -, -, -, heq⟩ | ⟨hbuf, as, r, inc', io, has, hr, hnot, heq⟩
      | ⟨hbuf, as, polls', p, inc', io, rfl, hr, heq⟩ := o.pollRead_cases S inc room polls
    · rw [heq]
      exact h
    · have hnext := pollNext_inBounds (S := S) as inc h
      rw [hr] at hnext
      rw [heq]
      exact hnext
    · have hnext := pollNext_inBounds (S := S) as inc h
      rw [hr] at hnext
      rw [heq]
      exact pollRead_inBounds polls' inc' _ room hnext

theorem NoiseOutput.Moves.write_inBounds {asks : List (List IoWrite)} {o o' : NoiseOutput σ}
    {acc out : Bytes} {ps : List Bytes}
    (hfits : ∀ s p room msg s', S.writeMessage s p room = some (msg, s') → msg.length ≤ room)
    (h : o.Moves S asks acc ps out o') (ho : o.Gathers)
    (hin : o.io.writeState.InBounds o.io.writeBuffer) :
    o'.io.writeState.InBounds o'.io.writeBuffer := by
  induction h with
  | refl => exact hin
  | write _ _ ih => exact pollReady_inBounds _ ih
  | send h _ _ hs _ =>
    have hroom := hfits _ _ _ _ _ hs
    have hle := (h.gathers ho).2
    have hmax : maxFrameLen + extraEncryptSpace = 65535 := rfl
    exact ⟨rfl, by omega, rfl, Nat.two_pos⟩
  | fail => trivial
  | buffer _ _ ih => exact ih

end Output

namespace Connection

open NoiseOutput Run

variable {κ : Type} {C : CipherState κ} {c c' : Connection κ}

/-- A poll of an end, or other bytes for it, is answered and leaves the ends in their bounds. -/
theorem exists_step
    (hfits : ∀ k p room msg k', C.encrypt k p room = some (msg, k') → msg.length ≤ room)
    (hin : ∀ e, (c.ends e).InBounds) (a : Act ⊕ Bool × Incoming) :
    ∃ c', attacked C c a = some c' ∧ ∀ e, (c'.ends e).InBounds := by
  rcases a with a | ⟨e, inc⟩
  · have hg := fun e => (hin e).gathers
    obtain ⟨c', h⟩ : ∃ c', c.step C a = some c' := by
      rcases a.cases_by with ⟨e, room, polls, rfl⟩ | ha
      · exact ⟨_, rfl⟩
      · obtain ⟨o, out, closed, hput, -⟩ := step_put (C := C) hg ha
        exact ⟨_, hput⟩
    refine ⟨c', h, fun e => ⟨?_, ?_, inView_step hg h (fun e => (hin e).view) e,
      gathers_step hg h e⟩⟩
    · have hway := step_way hg h (!e)
      cases hway with
      | writes _ _ _ _ _ _ hends =>
        rw [Bool.not_not] at hends
        exact hends ▸ (hin e).read
      | @reads room polls _ _ _ _ _ hreader =>
        rw [Bool.not_not] at hreader
        rw [hreader]
        exact pollRead_inBounds polls _ _ room (hin e).read
      | neither _ _ hr =>
        rw [Bool.not_not] at hr
        have hstate : (c'.ends e).io.readState = (c.ends e).io.readState :=
          congrArg Receiver.state hr
        rw [hstate]
        exact (hin e).read
    · cases step_way hg h e with
      | writes _ _ _ hmoves =>
        refine hmoves.write_inBounds (fun s p room msg s' hs => ?_) (hg e) (hin e).write
        exact hfits _ _ _ _ _ (of_writeMessage.1 hs).1
      | reads _ _ _ _ _ _ _ hends => exact hends ▸ (hin e).write
      | neither _ hs =>
        have hstate : (c'.ends e).io.writeState = (c.ends e).io.writeState :=
          congrArg Sender.state hs
        have hmsg : (c'.ends e).io.writeBuffer = (c.ends e).io.writeBuffer :=
          congrArg Sender.msg hs
        rw [hstate, hmsg]
        exact (hin e).write
  · exact ⟨_, rfl, hin⟩

/-- No run panics, whatever is asked of the ends, however their io fails and whatever bytes come. -/
theorem runs_of_attacked
    (hfits : ∀ k p room msg k', C.encrypt k p room = some (msg, k') → msg.length ≤ room)
    (key : Bool → κ) (as : List (Act ⊕ Bool × Incoming)) :
    ∃ c, run (attacked C) (start key) as = some c ∧ ∀ e, (c.ends e).InBounds := by
  refine run_total (I := fun c : Connection κ => ∀ e, (c.ends e).InBounds)
    (fun c a hin => exists_step hfits hin a) as fun e => ?_
  exact ⟨trivial, trivial, fun hne => (hne rfl).elim, gathers_start key e⟩

theorem runs_of_attacked_tagging :
    ∃ c, run (attacked tagging) (start fun _ => 0) [.inr (true, ⟨[0, 0, 0], true⟩),
      .inl (.read true 1 [[.upTo 0, .error], [.upTo 9]]), .inl (.write false [1] [.error])] = some c
      ∧ ∀ e, (c.ends e).InBounds :=
  runs_of_attacked (fun _ _ _ _ _ => tagging_sound.fits) _ _

end Connection

end Nyumt.Noise
