import Nyumt.Proofs.Transport

/-!
# A buffer that is not in use

What is left of a message in the write buffer is not looked at once it is written: ends that differ
in it only are polled alike, and the same passes (`step_alike`, `passes_alike`). Nor does a poll
look at the other end, or at what that has to read.
-/

namespace Nyumt.Noise

variable {σ : Type} {S : SessionState σ}

/-- No message is being written. -/
def WriteState.Rests : WriteState → Prop
  | .ready | .eof | .encErr => True
  | .writeLen _ _ _ | .writeData _ _ => False

namespace NoiseFramed

/-- They are the same but for a buffer that is not in use. -/
def Alike (f g : NoiseFramed σ) : Prop :=
  f = g ∨ f.writeState.Rests ∧ ∃ b, g = { f with writeBuffer := b }

theorem Alike.refl (f : NoiseFramed σ) : f.Alike f := .inl rfl

variable {f g : NoiseFramed σ}

theorem Alike.session (h : f.Alike g) : f.session = g.session := by
  rcases h with rfl | ⟨-, b, rfl⟩ <;> rfl

theorem readLoop_buffer : ∀ (as : List IoRead) (inc : Incoming) (f : NoiseFramed σ) (buf b : Bytes),
    NoiseFramed.readLoop S inc { f with writeBuffer := b } buf as
      = ((f.readLoop S inc buf as).1, (f.readLoop S inc buf as).2.1,
        { (f.readLoop S inc buf as).2.2 with writeBuffer := b })
  | as, inc, ⟨s, st, w, wb⟩, buf, b => by
    rcases st with _ | buf₀ | ⟨len, data⟩ | ⟨_ | _⟩ | _
    · rcases as with _ | _ <;> rfl
    · rcases as with _ | ⟨a, as⟩
      · rfl
      · unfold NoiseFramed.readLoop
        dsimp only
        rcases inc.pollRead (2 - buf.length) a with ⟨_ | e | _ | ⟨c, cs⟩, inc'⟩ <;> dsimp only
        split_ifs
        · exact readLoop_buffer as inc' ⟨s, .readLen buf₀, w, wb⟩ _ b
        · exact readLoop_buffer as inc' ⟨s, .readLen [], w, wb⟩ _ b
        · exact readLoop_buffer as inc' ⟨s, .readData _ [], w, wb⟩ _ b
    · rcases as with _ | ⟨a, as⟩
      · rfl
      · unfold NoiseFramed.readLoop
        dsimp only
        rcases inc.pollRead (len - data.length) a with ⟨_ | e | _ | ⟨c, cs⟩, inc'⟩ <;> dsimp only
        split_ifs
        · exact readLoop_buffer as inc' ⟨s, .readData len _, w, wb⟩ _ b
        · rcases S.readMessage s (data ++ c :: cs) with _ | ⟨p, s'⟩ <;> rfl
    · rcases as with _ | _ <;> rfl
    · rcases as with _ | _ <;> rfl
    · rcases as with _ | _ <;> rfl

theorem pollNext_alike (h : f.Alike g) (inc : Incoming) (as : List IoRead) :
    ∃ g', g.pollNext S inc as = ((f.pollNext S inc as).1, (f.pollNext S inc as).2.1, g')
      ∧ (f.pollNext S inc as).2.2.Alike g' := by
  have hframe := (pollNext_takes (S := S) as inc f).frame
  rcases h with rfl | ⟨hrests, b, rfl⟩
  · exact ⟨_, rfl, .refl _⟩
  · refine ⟨{ (f.pollNext S inc as).2.2 with writeBuffer := b }, ?_, .inr ⟨?_, b, rfl⟩⟩
    · obtain ⟨s, st, w, wb⟩ := f
      unfold NoiseFramed.pollNext
      dsimp only
      cases st with
      | ready => exact readLoop_buffer as inc ⟨s, .readLen [], w, wb⟩ [] b
      | readLen buf => exact readLoop_buffer as inc ⟨s, .readLen buf, w, wb⟩ buf b
      | readData len data => exact readLoop_buffer as inc ⟨s, .readData len data, w, wb⟩ [] b
      | eof expected => exact readLoop_buffer as inc ⟨s, .eof expected, w, wb⟩ [] b
      | decErr => exact readLoop_buffer as inc ⟨s, .decErr, w, wb⟩ [] b
    · rw [hframe]
      exact hrests

theorem pollReady_rests (h : f.writeState.Rests) (as : List IoWrite) :
    ∃ r, ∀ b, pollReady { f with writeBuffer := b } as = (r, { f with writeBuffer := b }, []) := by
  obtain ⟨s, rd, st, wb⟩ := f
  rcases st with _ | _ | _ | _ | _
  · exact ⟨_, fun b => pollReady_ready rfl as⟩
  · exact h.elim
  · exact h.elim
  · exact ⟨.ready (.error .writeZero), fun b => by cases as <;> rfl⟩
  · exact ⟨.ready (.error .invalidData), fun b => by cases as <;> rfl⟩

theorem pollReady_alike (h : f.Alike g) (as : List IoWrite) :
    ∃ g', g.pollReady as = ((f.pollReady as).1, g', (f.pollReady as).2.2)
      ∧ (f.pollReady as).2.1.Alike g' := by
  rcases h with rfl | ⟨hrests, b, rfl⟩
  · exact ⟨_, rfl, .refl _⟩
  · obtain ⟨r, hr⟩ := pollReady_rests hrests as
    have hf : f.pollReady as = (r, f, []) := hr f.writeBuffer
    rw [hr b, hf]
    exact ⟨_, rfl, .inr ⟨hrests, b, rfl⟩⟩

theorem pollFlush_alike (h : f.Alike g) (as : List IoWrite) (io : Poll (Except IoError Unit)) :
    ∃ g', g.pollFlush as io = ((f.pollFlush as io).1, g', (f.pollFlush as io).2.2)
      ∧ (f.pollFlush as io).2.1.Alike g' := by
  obtain ⟨g', hg, hlike⟩ := pollReady_alike h as
  unfold pollFlush
  rw [hg]
  rcases hr : f.pollReady as with ⟨_ | _ | _, f', out⟩ <;> rw [hr] at hlike <;>
    exact ⟨_, rfl, hlike⟩

theorem startSend_alike (h : f.Alike g) {frame : Bytes} {r : Except IoError Unit}
    {f' : NoiseFramed σ} (hs : f.startSend S frame = some (r, f')) :
    ∃ g', g.startSend S frame = some (r, g') ∧ f'.Alike g' := by
  rcases h with rfl | ⟨hrests, b, rfl⟩
  · exact ⟨_, hs, .refl _⟩
  · unfold startSend at hs ⊢
    dsimp only
    split_ifs at hs ⊢ with hmay
    rcases hw : S.writeMessage f.session frame (frame.length + extraEncryptSpace) with
      _ | ⟨m, s⟩ <;> rw [hw] at hs <;> cases hs
    · exact ⟨_, rfl, .inr ⟨trivial, b, rfl⟩⟩
    · exact ⟨_, rfl, .refl _⟩

end NoiseFramed

namespace NoiseOutput

/-- Two ends of which the same is true. -/
def Alike (o o' : NoiseOutput σ) : Prop := o' = { o with io := o'.io } ∧ o.io.Alike o'.io

theorem Alike.refl (o : NoiseOutput σ) : o.Alike o := ⟨rfl, .refl _⟩

theorem Alike.io {o o' : NoiseOutput σ} {f g : NoiseFramed σ} (h : o.Alike o') (hio : f.Alike g) :
    NoiseOutput.Alike { o with io := f } { o' with io := g } := by
  refine ⟨?_, hio⟩
  rw [h.1]

variable {o o' u : NoiseOutput σ}

theorem pollRead_alike : ∀ (polls : List (List IoRead)) (inc : Incoming) {o o' : NoiseOutput σ}
    (room : ℕ), o.Alike o' → ∃ u', o'.pollRead S inc room polls
      = ((o.pollRead S inc room polls).1, (o.pollRead S inc room polls).2.1, u')
        ∧ (o.pollRead S inc room polls).2.2.Alike u'
  | polls, inc, o, o', room, h => by
    obtain ⟨g, rfl⟩ : ∃ g, o' = { o with io := g } := ⟨o'.io, h.1⟩
    have hio := h.2
    unfold pollRead
    dsimp only
    by_cases hpos : 0 < o.recvBuffer.length
    · rw [if_pos hpos, if_pos hpos]
      exact ⟨_, rfl, rfl, hio⟩
    · rw [if_neg hpos, if_neg hpos]
      obtain ⟨g', hg, hlike⟩ := NoiseFramed.pollNext_alike (S := S) hio inc (polls.headD [])
      rw [hg]
      rcases hr : o.io.pollNext S inc (polls.headD []) with ⟨_ | _ | e | frame, inc', io⟩ <;>
        rw [hr] at hlike <;> dsimp only at hlike ⊢
      · exact ⟨_, rfl, rfl, hlike⟩
      · exact ⟨_, rfl, rfl, hlike⟩
      · exact ⟨_, rfl, rfl, hlike⟩
      · rcases polls with _ | ⟨as, polls⟩
        · exact ⟨_, rfl, rfl, hlike⟩
        · exact pollRead_alike polls inc' room ⟨rfl, hlike⟩

theorem sendFrame_alike (h : o.Alike o') {as : List IoWrite} {r : Poll (Except IoError Unit)}
    {out : Bytes} (hs : o.sendFrame S as = some (r, u, out)) :
    ∃ u', o'.sendFrame S as = some (r, u', out) ∧ u.Alike u' := by
  obtain ⟨g, rfl⟩ : ∃ g, o' = { o with io := g } := ⟨o'.io, h.1⟩
  obtain ⟨g', hg, hlike⟩ := NoiseFramed.pollReady_alike h.2 as
  unfold sendFrame at hs ⊢
  dsimp only
  rw [hg]
  rcases hr : o.io.pollReady as with ⟨_ | e | _, io, out'⟩ <;> rw [hr] at hlike hs <;>
    dsimp only at hlike hs ⊢
  · cases hs
    exact ⟨_, rfl, rfl, hlike⟩
  · cases hs
    exact ⟨_, rfl, rfl, hlike⟩
  · rcases hstart : io.startSend S o.sendBuffer with _ | ⟨_ | _, io₁⟩ <;> rw [hstart] at hs <;>
      dsimp only at hs
    · cases hs
    · obtain ⟨g₁, hg₁, hlike₁⟩ := NoiseFramed.startSend_alike hlike hstart
      cases hs
      rw [hg₁]
      exact ⟨_, rfl, rfl, hlike₁⟩
    · obtain ⟨g₁, hg₁, hlike₁⟩ := NoiseFramed.startSend_alike hlike hstart
      cases hs
      rw [hg₁]
      exact ⟨_, rfl, rfl, hlike₁⟩

theorem Alike.sendOffset (h : o.Alike o') : o.sendOffset = o'.sendOffset := by rw [h.1]

theorem sealed_alike (h : o.Alike o') (as : List IoWrite) : o.sealed S as = o'.sealed S as := by
  obtain ⟨g, rfl⟩ : ∃ g, o' = { o with io := g } := ⟨o'.io, h.1⟩
  obtain ⟨g', hg, hlike⟩ := NoiseFramed.pollReady_alike h.2 as
  unfold sealed
  dsimp only
  rw [hg]
  rcases hr : o.io.pollReady as with ⟨_ | _ | _, io, out⟩
  · rfl
  · rfl
  · rw [hr] at hlike
    dsimp only at hlike ⊢
    rw [hlike.session]

theorem Alike.buffer (h : o.Alike o') (buf : Bytes) :
    (o.buffer buf).1 = (o'.buffer buf).1 ∧ (o.buffer buf).2.Alike (o'.buffer buf).2 := by
  obtain ⟨g, rfl⟩ : ∃ g, o' = { o with io := g } := ⟨o'.io, h.1⟩
  exact ⟨rfl, rfl, h.2⟩

theorem pollWrite_alike (h : o.Alike o') {buf : Bytes} {as : List IoWrite}
    {r : Poll (Except IoError ℕ)} {out : Bytes} (hs : o.pollWrite S buf as = some (r, u, out)) :
    ∃ u', o'.pollWrite S buf as = some (r, u', out) ∧ u.Alike u' := by
  obtain ⟨g, rfl⟩ : ∃ g, o' = { o with io := g } := ⟨o'.io, h.1⟩
  unfold pollWrite at hs ⊢
  dsimp only
  split_ifs at hs ⊢ with hfull
  · rcases hsend : o.sendFrame S as with _ | ⟨_ | e | _, o₁, out₁⟩ <;> rw [hsend] at hs <;>
      dsimp only at hs
    · cases hs
    all_goals
      obtain ⟨u', hu', hlike⟩ := sendFrame_alike h hsend
      rw [hu']
      cases hs
    · exact ⟨_, rfl, hlike⟩
    · exact ⟨_, rfl, hlike⟩
    · obtain ⟨hn, hlike'⟩ := hlike.buffer buf
      dsimp only
      rw [← hn]
      exact ⟨_, rfl, hlike'⟩
  · cases hs
    obtain ⟨hn, hlike'⟩ := h.buffer buf
    rw [← hn]
    exact ⟨_, rfl, hlike'⟩

theorem pollFlush_alike (h : o.Alike o') {a : Flush} {r : Poll (Except IoError Unit)} {out : Bytes}
    (hs : o.pollFlush S a = some (r, u, out)) :
    ∃ u', o'.pollFlush S a = some (r, u', out) ∧ u.Alike u' := by
  obtain ⟨g, rfl⟩ : ∃ g, o' = { o with io := g } := ⟨o'.io, h.1⟩
  have hflush : ∀ {v v' : NoiseOutput σ} (sent : Bytes), v.Alike v' →
      some ((v.io.pollFlush a.write a.io).1, { v with io := (v.io.pollFlush a.write a.io).2.1 },
        sent ++ (v.io.pollFlush a.write a.io).2.2) = some (r, u, out) →
      ∃ u', some ((v'.io.pollFlush a.write a.io).1,
        { v' with io := (v'.io.pollFlush a.write a.io).2.1 },
        sent ++ (v'.io.pollFlush a.write a.io).2.2) = some (r, u', out) ∧ u.Alike u' := by
    intro v v' sent hv hs
    obtain ⟨g, hg, hlike⟩ := NoiseFramed.pollFlush_alike hv.2 a.write a.io
    rw [hg]
    cases hs
    exact ⟨_, rfl, hv.io hlike⟩
  unfold pollFlush at hs ⊢
  dsimp only at hs ⊢
  split_ifs at hs ⊢ with hpos
  · rcases hsend : o.sendFrame S a.ready with _ | ⟨_ | e | _, o₁, out₁⟩ <;> rw [hsend] at hs <;>
      dsimp only at hs
    · cases hs
    all_goals
      obtain ⟨u', hu', hlike⟩ := sendFrame_alike h hsend
      rw [hu']
    · cases hs
      exact ⟨_, rfl, hlike⟩
    · cases hs
      exact ⟨_, rfl, hlike⟩
    · exact hflush out₁ hlike hs
  · exact hflush [] h hs

theorem pollClose_alike (h : o.Alike o') {a : Flush} {as : List IoWrite}
    {io close r : Poll (Except IoError Unit)} {out : Bytes}
    (hs : o.pollClose S a as io close = some (r, u, out)) :
    ∃ u', o'.pollClose S a as io close = some (r, u', out) ∧ u.Alike u' := by
  unfold pollClose at hs ⊢
  rcases hflush : o.pollFlush S a with _ | ⟨_ | e | _, o₁, out₁⟩ <;> rw [hflush] at hs <;>
    dsimp only at hs
  · cases hs
  all_goals
    obtain ⟨u', hu', hlike⟩ := pollFlush_alike h hflush
    rw [hu']
  · cases hs
    exact ⟨_, rfl, hlike⟩
  · cases hs
    exact ⟨_, rfl, hlike⟩
  · obtain ⟨g, hg, hlike'⟩ := NoiseFramed.pollFlush_alike hlike.2 as io
    dsimp only
    rw [hg]
    rcases hr : o₁.io.pollFlush as io with ⟨_ | e | _, io₁, out₂⟩ <;> rw [hr] at hs hlike' <;>
      cases hs <;> exact ⟨_, rfl, hlike.io hlike'⟩

end NoiseOutput

namespace Connection

variable {κ : Type} {C : CipherState κ}

/-- A poll by an end, where it is alike and has the same to read: whatever the other end is, and
whatever that has to read. -/
theorem step_alike {c c' d : Connection κ} {a : Act} (h : c.step C a = some c')
    (ho : (c.ends a.by).Alike (d.ends a.by)) (hin : c.incoming a.by = d.incoming a.by) :
    ∃ d', d.step C a = some d' ∧ (c'.ends a.by).Alike (d'.ends a.by)
      ∧ d'.ends (!a.by) = d.ends (!a.by) ∧ c'.incoming a.by = d'.incoming a.by
      ∧ ∃ out closed,
        c'.incoming (!a.by)
            = ⟨(c.incoming (!a.by)).bytes ++ out, (c.incoming (!a.by)).closed || closed⟩
        ∧ d'.incoming (!a.by)
          = ⟨(d.incoming (!a.by)).bytes ++ out, (d.incoming (!a.by)).closed || closed⟩ := by
  have hput : ∀ {e : Bool} {u u' : NoiseOutput (TransportState κ)} (out : Bytes) (closed : Bool),
      c.incoming e = d.incoming e → u.Alike u' →
        ((c.put e u out closed).ends e).Alike ((d.put e u' out closed).ends e)
        ∧ (d.put e u' out closed).ends (!e) = d.ends (!e)
        ∧ (c.put e u out closed).incoming e = (d.put e u' out closed).incoming e
        ∧ ∃ out' closed',
          (c.put e u out closed).incoming (!e)
            = ⟨(c.incoming (!e)).bytes ++ out', (c.incoming (!e)).closed || closed'⟩
          ∧ (d.put e u' out closed).incoming (!e)
            = ⟨(d.incoming (!e)).bytes ++ out', (d.incoming (!e)).closed || closed'⟩ := by
    intro e u u' out closed hin hu
    refine ⟨by simpa using hu, put_ends_not _ _ _ _, by simpa using hin, out, closed, ?_, ?_⟩
    · exact put_incoming_not _ _ _ _
    · exact put_incoming_not _ _ _ _
  cases a with
  | read e room polls =>
    obtain ⟨u', hu, hlike⟩ :=
      NoiseOutput.pollRead_alike (S := C.session) polls (c.incoming e) room ho
    unfold step at h ⊢
    dsimp only [Act.by] at h hin hu hlike ⊢
    rw [← hin, hu]
    cases h
    refine ⟨_, rfl, ?_, ?_, ?_, [], false, ?_, ?_⟩
    · simpa using hlike
    · exact Function.update_of_ne (Bool.not_ne_self e) _ _
    · simp
    · simp
    · simp
  | write e buf as =>
    unfold step at h ⊢
    dsimp only [Act.by] at h hin ho ⊢
    obtain ⟨⟨r, u, out⟩, hu, h⟩ := Option.bind_eq_some_iff.1 h
    obtain ⟨u', hu', hlike⟩ := NoiseOutput.pollWrite_alike ho hu
    cases h
    rw [hu']
    exact ⟨_, rfl, hput out false hin hlike⟩
  | flush e a =>
    unfold step at h ⊢
    dsimp only [Act.by] at h hin ho ⊢
    obtain ⟨⟨r, u, out⟩, hu, h⟩ := Option.bind_eq_some_iff.1 h
    obtain ⟨u', hu', hlike⟩ := NoiseOutput.pollFlush_alike ho hu
    cases h
    rw [hu']
    exact ⟨_, rfl, hput out false hin hlike⟩
  | close e a as io close =>
    unfold step at h ⊢
    dsimp only [Act.by] at h hin ho ⊢
    obtain ⟨⟨r, u, out⟩, hu, h⟩ := Option.bind_eq_some_iff.1 h
    obtain ⟨u', hu', hlike⟩ := NoiseOutput.pollClose_alike ho hu
    cases h
    rw [hu']
    exact ⟨_, rfl, hput out _ hin hlike⟩

/-- And the same passes. -/
theorem passes_alike {c c' d : Connection κ} {a : Act} (h : c.step C a = some c')
    (ho : (c.ends a.by).Alike (d.ends a.by)) (hin : c.incoming a.by = d.incoming a.by) (e : Bool) :
    passes C e c a = passes C e d a := by
  cases a with
  | read e' room polls =>
    unfold passes
    dsimp only [Act.by] at ho hin ⊢
    by_cases he : e' = !e
    · subst he
      obtain ⟨u', hu, -⟩ :=
        NoiseOutput.pollRead_alike (S := C.session) polls (c.incoming !e) room ho
      rw [← hin, hu]
    · rw [if_neg he, if_neg he]
  | write e' buf as =>
    unfold step at h
    unfold passes
    dsimp only [Act.by] at h ho ⊢
    by_cases he : e' = e
    · subst he
      obtain ⟨⟨r, u, out⟩, hu, -⟩ := Option.bind_eq_some_iff.1 h
      obtain ⟨u', hu', -⟩ := NoiseOutput.pollWrite_alike ho hu
      rw [hu, hu', ho.sendOffset, NoiseOutput.sealed_alike ho]
      rfl
    · rw [if_neg he, if_neg he]
  | flush e' a | close e' a as io close =>
    unfold passes
    dsimp only [Act.by] at ho ⊢
    by_cases he : e' = e
    · subst he
      rw [ho.sendOffset, NoiseOutput.sealed_alike ho]
    · rw [if_neg he, if_neg he]

end Connection

end Nyumt.Noise
