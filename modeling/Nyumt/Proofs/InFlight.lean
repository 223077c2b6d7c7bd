import Nyumt.Proofs.Receiving
import Nyumt.Proofs.Sending

/-!
# One way through a connection

What one end of a connection writes and the other one reads meet in the bytes between them: the
frame that is read in part, the bytes that have come and those still to be written are whole frames,
and the messages in them open one after another, from the key of the reader to that of the writer
(`InFlight`). A poll of either end keeps this.
-/

namespace Nyumt.Noise

variable {κ : Type}

/-- What a cipher seals opens again, fits into the room there is, and is not empty. -/
structure CipherState.Sound (C : CipherState κ) : Prop where
  opens : ∀ {k p room c k'}, C.encrypt k p room = some (c, k') → C.decrypt k c = some (p, k')
  fits : ∀ {k p room c k'}, C.encrypt k p room = some (c, k') → c.length ≤ room
  ne_nil : ∀ {k p room c k'}, C.encrypt k p room = some (c, k') → c ≠ []

/-- A cipher whose key is a number, and which only adds a tag of 16 bytes. -/
def tagging : CipherState ℕ where
  encrypt k p room :=
    if p.length + 16 ≤ room then some (p ++ List.replicate 16 (.ofNat k), k + 1) else none
  decrypt k c :=
    if 16 ≤ c.length ∧ c.drop (c.length - 16) = List.replicate 16 (.ofNat k) then
      some (c.take (c.length - 16), k + 1)
    else none

theorem tagging_sound : tagging.Sound where
  opens {k p room c k'} h := by
    simp only [tagging, Option.ite_none_right_eq_some, Option.some.injEq, Prod.mk.injEq] at h ⊢
    obtain ⟨-, rfl, rfl⟩ := h
    simp
  fits {k p room c k'} h := by
    simp only [tagging, Option.ite_none_right_eq_some, Option.some.injEq, Prod.mk.injEq] at h
    obtain ⟨hroom, rfl, rfl⟩ := h
    simpa using hroom
  ne_nil {k p room c k'} h := by
    simp only [tagging, Option.ite_none_right_eq_some, Option.some.injEq, Prod.mk.injEq] at h
    obtain ⟨-, rfl, rfl⟩ := h
    simp

variable {C : CipherState κ}

/-- The frames between a writer and a reader hold this text. -/
def InFlight (C : CipherState κ) (s : Sender κ) (bytes : Bytes) (r : Receiver κ) (text : Bytes) :
    Prop :=
  r.state.Live ∧ ∃ msgs ps tail, lengths.Fits msgs ∧ [] ∉ msgs
    ∧ r.state.part ++ (bytes ++ tail) = lengths.frames msgs ∧ s.state.Owes s.msg tail
    ∧ Opens C r.key msgs ps s.key ∧ ps.flatten = text

section Writing

variable {s : Sender κ} {bytes : Bytes} {r : Receiver κ} {text : Bytes}

/-- The writer goes on with its message. -/
theorem InFlight.writes {f : NoiseFramed (TransportState κ)} {as : List IoWrite} (has : .error ∉ as)
    (hs : s.state = f.writeState) (hmsg : s.msg = f.writeBuffer)
    (h : InFlight C s bytes r text) :
    InFlight C { s with state := (f.pollReady as).2.1.writeState } (bytes ++ (f.pollReady as).2.2) r
      text := by
  obtain ⟨hlive, msgs, ps, tail, hfits, hne, hframes, howes, hopens, htext⟩ := h
  rw [hs, hmsg] at howes
  obtain ⟨tail', rfl, howes'⟩ := pollReady_writes has howes
  refine ⟨hlive, msgs, ps, tail', hfits, hne, ?_, hmsg ▸ howes', hopens, htext⟩
  rw [← hframes, List.append_assoc]

/-- A writer that is ready takes the next message. -/
theorem InFlight.send (hC : C.Sound) {p c : Bytes} {k : κ} (hp : p.length ≤ maxFrameLen)
    (hready : s.state = .ready)
    (hc : C.encrypt s.key p (p.length + extraEncryptSpace) = some (c, k))
    (h : InFlight C s bytes r text) :
    InFlight C { s with key := k, state := .writeLen c.length (toBeBytes c.length) 0, msg := c }
      bytes r (text ++ p) := by
  obtain ⟨hlive, msgs, ps, tail, hfits, hne, hframes, howes, hopens, rfl⟩ := h
  obtain rfl : tail = [] := by
    rw [hready] at howes
    exact howes
  have hlen : c.length < 65536 := by
    have hroom := hC.fits hc
    have hmax : maxFrameLen + extraEncryptSpace = 65535 := rfl
    omega
  refine ⟨hlive, msgs ++ [c], ps ++ [p], lengths.frames [c], ?_, ?_, ?_, ?_, ?_, ?_⟩
  · exact Framing.fits_append.2 ⟨hfits, Framing.fits_cons.2 ⟨hlen, .nil⟩⟩
  · simpa using ⟨hne, hC.ne_nil hc⟩
  · rw [Framing.frames_append, ← hframes, List.append_nil, List.append_assoc]
  · refine ⟨rfl, List.length_pos_iff.2 (hC.ne_nil hc), length_toBeBytes _, Nat.two_pos, ?_⟩
    rw [Framing.frames_cons, Framing.frames_nil, List.append_nil]
    rfl
  · exact hopens.append (.cons (hC.opens hc) .nil)
  · simp

end Writing

section Reading

variable {s : Sender κ} {bytes rest acc given : Bytes} {r : Receiver κ} {text : Bytes} {n : ℕ}

/-- An empty frame begins no messages that are not empty. -/
theorem eq_zero_of_frames {msgs : List Bytes} (hfits : lengths.Fits msgs) (hne : [] ∉ msgs)
    (h : lengths.frames (List.replicate n []) ++ rest = lengths.frames msgs) : n = 0 := by
  obtain ⟨msgs', rfl, -⟩ := Framing.of_frames_append (fits_replicate n) hfits h
  by_contra hn
  exact hne (List.mem_append_left _ (List.mem_replicate.2 ⟨hn, rfl⟩))

theorem InFlight.pending {st : ReadState} (hst : st.Live)
    (hb : r.state.part ++ bytes = lengths.frames (List.replicate n []) ++ (st.part ++ rest))
    (h : InFlight C s bytes r text) : InFlight C s rest { r with state := st } text := by
  obtain ⟨-, msgs, ps, tail, hfits, hne, hframes, howes, hopens, htext⟩ := h
  rw [← List.append_assoc, hb, List.append_assoc] at hframes
  obtain rfl := eq_zero_of_frames hfits hne hframes
  refine ⟨hst, msgs, ps, tail, hfits, hne, ?_, howes, hopens, htext⟩
  rw [← hframes, List.append_assoc]
  rfl

/-- A message that has come whole opens to the next part of the text. -/
theorem InFlight.frame {msg : Bytes} (hlt : msg.length < 65536)
    (hb : r.state.part ++ bytes
      = lengths.frames (List.replicate n []) ++ (lengths.frame msg ++ rest))
    (h : InFlight C s bytes r text) :
    ∃ p k text', C.decrypt r.key msg = some (p, k) ∧ text = p ++ text'
      ∧ InFlight C s rest { r with key := k, state := .ready } text' := by
  obtain ⟨-, msgs, ps, tail, hfits, hne, hframes, howes, hopens, rfl⟩ := h
  rw [← List.append_assoc, hb, List.append_assoc] at hframes
  obtain rfl := eq_zero_of_frames hfits hne hframes
  have hfirst : lengths.frames [msg] ++ (rest ++ tail) = lengths.frames msgs := by
    rw [← hframes, Framing.frames_cons, Framing.frames_nil, List.append_nil]
    simp [Framing.frame]
  obtain ⟨msgs', rfl, hrest⟩ :=
    Framing.of_frames_append (Framing.fits_cons.2 ⟨hlt, .nil⟩) hfits hfirst
  rw [List.singleton_append] at hfits hne hopens
  rcases hopens with _ | ⟨hdec, hopens⟩
  exact ⟨_, _, _, hdec, rfl, trivial, msgs', _, tail, (Framing.fits_cons.1 hfits).2,
    fun hmem => hne (List.mem_cons_of_mem _ hmem), hrest, howes, hopens, rfl⟩

/-- Once all that was written has come and holds no whole frame, there is no more text. -/
theorem InFlight.text_eq_nil (hready : s.state = .ready) (hshort : lengths.Short rest)
    (hb : r.state.part ++ bytes = lengths.frames (List.replicate n []) ++ rest)
    (h : InFlight C s bytes r text) : rest = [] ∧ text = [] := by
  obtain ⟨-, msgs, ps, tail, hfits, hne, hframes, howes, hopens, rfl⟩ := h
  obtain rfl : tail = [] := by
    rw [hready] at howes
    exact howes
  rw [List.append_nil, hb] at hframes
  obtain rfl := eq_zero_of_frames hfits hne hframes
  obtain ⟨hnil, rfl⟩ := Framing.eq_nil_of_short hfits hshort hframes
  rw [hopens.eq_nil]
  exact ⟨hnil, rfl⟩

/-- `acc` is what the writer has accepted, and `given` what the reader has given. -/
def Carries (C : CipherState κ) (s : Sender κ) (bytes : Bytes) (r : Receiver κ)
    (acc given : Bytes) :
    Prop :=
  (∃ text, InFlight C s bytes r text ∧ acc = given ++ r.rest ++ text ++ s.gathered)
    ∨ (r.state.Over ∧ given ++ r.rest <+: acc)

theorem Carries.in_order (h : Carries C s bytes r acc given) : given <+: acc := by
  rcases h with ⟨text, -, rfl⟩ | ⟨-, hpre⟩
  · rw [List.append_assoc, List.append_assoc]
    exact List.prefix_append _ _
  · exact (List.prefix_append _ _).trans hpre

/-- The frame that is polled for opens to the next part of the text. -/
theorem InFlight.of_frame {inc inc' : Incoming} {o : NoiseOutput (TransportState κ)}
    {io : NoiseFramed (TransportState κ)} {as : List IoRead} {p : Bytes} (has : .error ∉ as)
    (hr : o.io.pollNext C.session inc as = (.ready (some (.ok p)), inc', io))
    (h : InFlight C s inc.bytes o.receiver text) :
    ∃ text', text = p ++ text' ∧ InFlight C s inc'.bytes
      (NoiseOutput.receiver { o with io := io, recvBuffer := p, recvOffset := 0 }) text' := by
  have hp := pollNext_polls (S := C.session) inc has h.1
  rw [hr] at hp
  obtain ⟨t, st, w, wb⟩ := io
  dsimp only at hp
  cases hp with
  | frame hne hlt hs hb =>
    obtain ⟨p', k, text', hdec, rfl, htext'⟩ := h.frame hlt hb
    obtain ⟨hdec', -⟩ := of_readMessage.1 hs
    obtain ⟨rfl, rfl⟩ : p' = p ∧ k = t.receiving := by
      have hsome := hdec.symm.trans hdec'
      simpa using hsome
    exact ⟨text', rfl, htext'⟩

theorem error_notMem {polls : List (List IoRead)} {as : List IoRead}
    (ha : ∀ as ∈ polls, .error ∉ as) (has : as ∈ polls ∨ as = []) : .error ∉ as := by
  rcases has with has | rfl
  · exact ha as has
  · exact List.not_mem_nil

/-- The text a poll gives is taken from between the ends. -/
theorem pollRead_carries : ∀ (polls : List (List IoRead)) (inc : Incoming)
    (o : NoiseOutput (TransportState κ)) (room : ℕ), (∀ as ∈ polls, .error ∉ as) →
      Carries C s inc.bytes o.receiver acc given →
        let r := o.pollRead C.session inc room polls
        Carries C s r.2.1.bytes r.2.2.receiver acc (given ++ r.1.bytes)
  | polls, inc, o, room, ha, h => by
    dsimp only
    obtain ⟨bs, buffer, offset, hdrop, -, -, heq⟩ | ⟨hbuf, as, r, inc', io, has, hr, hnot, heq⟩
      | ⟨hbuf, as, polls', p, inc', io, rfl, hr, heq⟩ := o.pollRead_cases C.session inc room polls
    · rw [heq]
      have hrest : o.receiver.rest = bs ++ buffer.drop offset := hdrop
      rcases h with ⟨text, htext, rfl⟩ | ⟨hover, hpre⟩
      · refine .inl ⟨text, htext, ?_⟩
        rw [hrest]
        simp [Receiver.rest, Poll.bytes, NoiseOutput.receiver]
      · refine .inr ⟨hover, ?_⟩
        rw [hrest] at hpre
        simpa [Receiver.rest, Poll.bytes, NoiseOutput.receiver] using hpre
    · rw [heq, stop_bytes, List.append_nil]
      rcases h with ⟨text, htext, rfl⟩ | ⟨hover, hpre⟩
      · have hp := pollNext_polls (S := C.session) inc (error_notMem ha has) htext.1
        rw [hr] at hp
        obtain ⟨t, st, w, wb⟩ := io
        dsimp only at hp
        have hpre :
            given ++ o.receiver.rest <+: given ++ o.receiver.rest ++ text ++ s.gathered := by
          rw [List.append_assoc (given ++ _)]
          exact List.prefix_append _ _
        cases hp with
        | pending hst hb => exact .inl ⟨text, htext.pending hst hb, rfl⟩
        | frame hne hlt hs hb => exact (hnot _ rfl).elim
        | invalid hne hlt hs hb =>
          obtain ⟨p, k, -, hdec, -⟩ := htext.frame hlt hb
          rw [readMessage_none] at hs
          cases hs.symm.trans hdec
        | eof => exact .inr ⟨trivial, hpre⟩
        | unexpectedEof => exact .inr ⟨trivial, hpre⟩
      · obtain ⟨hsame, -⟩ := pollNext_over (S := C.session) inc as hover
        rw [hr, Prod.mk.injEq] at hsame
        obtain ⟨rfl, rfl⟩ := hsame
        exact .inr ⟨hover, hpre⟩
    · rw [heq]
      have hrest : o.receiver.rest = [] := by
        rw [Receiver.rest, NoiseOutput.receiver, hbuf, List.drop_nil]
      refine pollRead_carries polls' inc' _ room
        (fun as' has => ha as' (List.mem_cons_of_mem _ has)) ?_
      rcases h with ⟨text, htext, rfl⟩ | ⟨hover, -⟩
      · obtain ⟨text', rfl, htext'⟩ := htext.of_frame (ha as List.mem_cons_self) hr
        refine .inl ⟨text', htext', ?_⟩
        rw [hrest]
        simp [Receiver.rest, NoiseOutput.receiver]
      · exact (pollNext_over_frame as hover (congrArg Prod.fst hr)).elim

/-- A reader that comes to the end of the stream, where the writer had nothing more to write, has
all of the text. -/
theorem pollRead_end : ∀ (polls : List (List IoRead)) (inc : Incoming)
    (o : NoiseOutput (TransportState κ)) (room : ℕ) {text : Bytes}, (∀ as ∈ polls, .error ∉ as) →
      InFlight C s inc.bytes o.receiver text →
        let r := o.pollRead C.session inc room polls
        r.2.2.io.readState = .eof true →
          inc.closed
            ∧ (s.state = .ready → o.receiver.rest ++ text = r.1.bytes ++ r.2.2.receiver.rest)
  | polls, inc, o, room, text, ha, htext => by
    dsimp only
    obtain ⟨bs, buffer, offset, -, -, -, heq⟩ | ⟨hbuf, as, r, inc', io, has, hr, hnot, heq⟩
      | ⟨hbuf, as, polls', p, inc', io, rfl, hr, heq⟩ := o.pollRead_cases C.session inc room polls
    · rw [heq]
      intro hend
      have hlive := htext.1
      rw [show o.receiver.state = .eof true from hend] at hlive
      exact hlive.elim
    · rw [heq, stop_bytes]
      intro hend
      have hp := pollNext_polls (S := C.session) inc (error_notMem ha has) htext.1
      rw [hr] at hp
      obtain ⟨t, st, w, wb⟩ := io
      obtain rfl : st = .eof true := hend
      dsimp only at hp
      cases hp with
      | pending hst => exact hst.elim
      | eof hclosed hshort hb =>
        refine ⟨hclosed, fun hready => ?_⟩
        obtain ⟨-, rfl⟩ := htext.text_eq_nil hready (.inl hshort) hb
        exact List.append_nil _
    · rw [heq]
      intro hend
      obtain ⟨text', rfl, htext'⟩ := htext.of_frame (ha as List.mem_cons_self) hr
      have hclosed := (pollNext_takes (S := C.session) as inc o.io).closed
      rw [hr] at hclosed
      obtain ⟨hc, htext⟩ := pollRead_end polls' inc' _ room
        (fun as' has => ha as' (List.mem_cons_of_mem _ has)) htext' hend
      refine ⟨hclosed ▸ hc, fun hready => ?_⟩
      rw [← htext hready]
      simp [Receiver.rest, NoiseOutput.receiver, hbuf]

/-- A reader at the end of the stream gives what is left of the frame that came last. -/
theorem pollRead_over (polls : List (List IoRead)) (inc : Incoming)
    {o : NoiseOutput (TransportState κ)} (room : ℕ) (hover : o.io.readState.Over) :
    let r := o.pollRead C.session inc room polls
    r.2.2.io = o.io ∧ o.receiver.rest = r.1.bytes ++ r.2.2.receiver.rest := by
  dsimp only
  obtain ⟨bs, buffer, offset, hdrop, -, -, heq⟩ | ⟨hbuf, as, r, inc', io, has, hr, hnot, heq⟩
    | ⟨hbuf, as, polls', p, inc', io, rfl, hr, heq⟩ := o.pollRead_cases C.session inc room polls
  · rw [heq]
    exact ⟨rfl, hdrop⟩
  · obtain ⟨hsame, -⟩ := pollNext_over (S := C.session) inc as hover
    rw [hr, Prod.mk.injEq] at hsame
    rw [heq, stop_bytes]
    exact ⟨hsame.2, rfl⟩
  · exact (pollNext_over_frame as hover (congrArg Prod.fst hr)).elim

end Reading

section Sending

variable {s : Sender κ} {bytes acc acc' given out : Bytes} {r : Receiver κ} {ps : List Bytes}
  {asks : List (List IoWrite)} {o o' : NoiseOutput (TransportState κ)}

theorem of_writeMessage {t t' : TransportState κ} {p msg : Bytes} {room : ℕ} :
    C.session.writeMessage t p room = some (msg, t')
      ↔ C.encrypt t.sending p room = some (msg, t'.sending) ∧ t'.receiving = t.receiving := by
  obtain ⟨send, recv⟩ := t
  obtain ⟨send', recv'⟩ := t'
  rcases h : C.encrypt send p room with _ | ⟨msg', k⟩
  · simp [CipherState.session, h]
  · simp only [CipherState.session, h, Option.map_some, Option.some.injEq, Prod.mk.injEq,
      TransportState.mk.injEq, and_assoc]
    exact and_congr_right fun _ => and_congr_right fun _ => eq_comm

/-- An end that writes stays as it is where it reads. -/
theorem receiver_moves (h : o.Moves C.session asks acc ps out o') : o'.receiver = o.receiver := by
  induction h with
  | refl => rfl
  | @write acc out ps o' as _ _ ih =>
    rw [← ih, NoiseOutput.receiver, (pollReady_frame as o'.io).1]
    rfl
  | send _ _ _ hs ih =>
    rw [← ih, NoiseOutput.receiver, (of_writeMessage.1 hs).2]
    rfl
  | fail _ _ ih => exact ih
  | buffer _ _ ih => exact ih

/-- The text that is accepted goes between the ends, or waits to. -/
theorem inFlight_moves (hC : C.Sound) (hasks : ∀ as ∈ asks, .error ∉ as)
    (h : o.Moves C.session asks acc' ps out o') (ho : o.Gathers) {text : Bytes}
    (htext : InFlight C o.sender bytes r text) :
    ∃ text', InFlight C o'.sender (bytes ++ out) r text'
      ∧ text ++ o.gathered ++ acc' = text' ++ o'.gathered := by
  induction h with
  | refl =>
    refine ⟨text, ?_, List.append_nil _⟩
    rw [List.append_nil]
    exact htext
  | @write _ _ _ o' as _ has ih =>
    obtain ⟨text', hin, heq⟩ := ih
    refine ⟨text', ?_, heq⟩
    have hsender : NoiseOutput.sender { o' with io := (o'.io.pollReady as).2.1 }
        = { o'.sender with state := (o'.io.pollReady as).2.1.writeState } := by
      rw [NoiseOutput.sender, (pollReady_frame as o'.io).1]
      rfl
    rw [hsender, ← List.append_assoc]
    exact hin.writes (hasks as has) rfl rfl
  | @send acc out msg ps o' session h hready hoff hs ih =>
    obtain ⟨text', hin, heq⟩ := ih
    have hgathered : o'.gathered = o'.sendBuffer := by
      rw [NoiseOutput.gathered, hoff, List.take_length]
    refine ⟨text' ++ o'.sendBuffer, ?_, ?_⟩
    · exact hin.send hC (h.gathers ho).2 hready (of_writeMessage.1 hs).1
    rw [heq, hgathered]
    simp [NoiseOutput.gathered]
  | @fail _ _ _ o' _ hready ih =>
    obtain ⟨text', ⟨hlive, msgs, ps, tail, hfits, hne, hframes, howes, hopens, htext⟩, heq⟩ := ih
    have hstate : o'.sender.state = .ready := hready
    rw [hstate] at howes
    exact ⟨text', ⟨hlive, msgs, ps, tail, hfits, hne, hframes, howes, hopens, htext⟩, heq⟩
  | @buffer _ _ _ o' h buf ih =>
    obtain ⟨text', hin, heq⟩ := ih
    refine ⟨text', hin, ?_⟩
    rw [((h.gathers ho).of_buffer buf).2, ← List.append_assoc, heq, List.append_assoc]

theorem carries_moves (hC : C.Sound) (hasks : ∀ as ∈ asks, .error ∉ as)
    (h : o.Moves C.session asks acc' ps out o') (ho : o.Gathers)
    (hc : Carries C o.sender bytes r acc given) :
    Carries C o'.sender (bytes ++ out) r (acc ++ acc') given := by
  rcases hc with ⟨text, htext, rfl⟩ | ⟨hover, hpre⟩
  · obtain ⟨text', hin, heq⟩ := inFlight_moves hC hasks h ho htext
    refine .inl ⟨text', hin, ?_⟩
    rw [List.append_assoc, List.append_assoc, ← List.append_assoc text, List.append_assoc _ text']
    exact congrArg _ heq
  · exact .inr ⟨hover, hpre.trans (List.prefix_append _ _)⟩

end Sending

end Nyumt.Noise
