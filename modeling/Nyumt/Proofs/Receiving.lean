import Nyumt.NoiseOutput
import Nyumt.Proofs.Framed

/-!
# The end that reads

A poll of an end gives what is left of the frame that came last, or polls for the next one
(`pollRead_cases`). Whatever the io does and whatever bytes it brings, what an end gives is what
messages open to that came in one piece each, one after another, with the key that the one before
has left (`pollRead_opens`).
-/

namespace Nyumt.Noise

variable {κ : Type}

/-- The half of an end that writes. -/
structure Sender (κ : Type) where
  key : κ
  state : WriteState
  msg : Bytes
  buffer : Bytes
  offset : ℕ

/-- The half of an end that reads. -/
structure Receiver (κ : Type) where
  key : κ
  state : ReadState
  buffer : Bytes
  offset : ℕ

/-- What is written and not in a frame yet. -/
def Sender.gathered (s : Sender κ) : Bytes := s.buffer.take s.offset

/-- What has come in a frame and is not read yet. -/
def Receiver.rest (r : Receiver κ) : Bytes := r.buffer.drop r.offset

namespace NoiseOutput

def sender (o : NoiseOutput (TransportState κ)) : Sender κ where
  key := o.io.session.sending
  state := o.io.writeState
  msg := o.io.writeBuffer
  buffer := o.sendBuffer
  offset := o.sendOffset

def receiver (o : NoiseOutput (TransportState κ)) : Receiver κ where
  key := o.io.session.receiving
  state := o.io.readState
  buffer := o.recvBuffer
  offset := o.recvOffset

end NoiseOutput

/-- Each message opens with the key that the one before has left. -/
inductive Opens (C : CipherState κ) : κ → List Bytes → List Bytes → κ → Prop
  | nil {k : κ} : Opens C k [] [] k
  | cons {k k' k'' : κ} {msg p : Bytes} {msgs ps : List Bytes} (h : C.decrypt k msg = some (p, k'))
      (hs : Opens C k' msgs ps k'') : Opens C k (msg :: msgs) (p :: ps) k''

theorem Opens.append {C : CipherState κ} {msgs' ps' : List Bytes} {k'' : κ} : ∀ {k k' : κ}
    {msgs ps : List Bytes}, Opens C k msgs ps k' → Opens C k' msgs' ps' k'' →
      Opens C k (msgs ++ msgs') (ps ++ ps') k''
  | _, _, _, _, .nil, h' => h'
  | _, _, _, _, .cons h hs, h' => .cons h (hs.append h')

theorem Opens.eq_nil {C : CipherState κ} {k k' : κ} {ps : List Bytes} (h : Opens C k [] ps k') :
    ps = [] := by
  cases h
  rfl

/-- With keys that follow one another, each message opens with the key of its place. -/
theorem Opens.of_getElem? {C : CipherState κ} {next : κ → κ}
    (hnext : ∀ k msg p k', C.decrypt k msg = some (p, k') → k' = next k) : ∀ {k k' : κ}
      {msgs ps : List Bytes} {j : ℕ} {p : Bytes}, Opens C k msgs ps k' → ps[j]? = some p →
        ∃ msg ∈ msgs, ∃ k'', C.decrypt (next^[j] k) msg = some (p, k'')
  | _, _, _, _, j, p, .nil, h => by simp at h
  | _, _, _, _, 0, p, .cons hdec hs, h => by
    rw [List.getElem?_cons_zero, Option.some.injEq] at h
    subst h
    exact ⟨_, List.mem_cons_self, _, hdec⟩
  | _, _, _, _, j + 1, p, .cons hdec hs, h => by
    rw [List.getElem?_cons_succ] at h
    obtain ⟨msg, hmsg, k'', hdec'⟩ := Opens.of_getElem? hnext hs h
    rw [hnext _ _ _ _ hdec] at hdec'
    exact ⟨msg, List.mem_cons_of_mem _ hmsg, k'', hdec'⟩

section Receiving

variable {C : CipherState κ}

theorem of_readMessage {t t' : TransportState κ} {msg p : Bytes} :
    C.session.readMessage t msg = some (p, t')
      ↔ C.decrypt t.receiving msg = some (p, t'.receiving) ∧ t'.sending = t.sending := by
  obtain ⟨send, recv⟩ := t
  obtain ⟨send', recv'⟩ := t'
  rcases h : C.decrypt recv msg with _ | ⟨p', k⟩
  · simp [CipherState.session, h]
  · simp only [CipherState.session, h, Option.map_some, Option.some.injEq, Prod.mk.injEq,
      TransportState.mk.injEq, and_assoc]
    exact and_congr_right fun _ => by rw [and_comm, eq_comm (a := send)]

theorem readMessage_none {t : TransportState κ} {msg : Bytes} :
    C.session.readMessage t msg = none ↔ C.decrypt t.receiving msg = none :=
  Option.map_eq_none_iff

theorem pollNext_over {σ : Type} {S : SessionState σ} (inc : Incoming) {f : NoiseFramed σ}
    (as : List IoRead) (h : f.readState.Over) :
    (f.pollNext S inc as).2 = (inc, f)
      ∧ ((f.pollNext S inc as).1 = .ready none
        ∨ ∃ e, (f.pollNext S inc as).1 = .ready (some (.error e))) := by
  obtain ⟨s, st, w, wb⟩ := f
  rcases st with _ | _ | _ | ⟨_ | _⟩ | _
  · exact h.elim
  · exact h.elim
  · exact h.elim
  all_goals
    rcases as with _ | _
  · exact ⟨rfl, .inr ⟨_, rfl⟩⟩
  · exact ⟨rfl, .inr ⟨_, rfl⟩⟩
  · exact ⟨rfl, .inl rfl⟩
  · exact ⟨rfl, .inl rfl⟩
  · exact ⟨rfl, .inr ⟨_, rfl⟩⟩
  · exact ⟨rfl, .inr ⟨_, rfl⟩⟩

theorem pollNext_over_frame {σ : Type} {S : SessionState σ} {inc : Incoming} {f : NoiseFramed σ}
    (as : List IoRead) (h : f.readState.Over) {p : Bytes} :
    (f.pollNext S inc as).1 ≠ .ready (some (.ok p)) := by
  intro hp
  obtain ⟨-, hnone | ⟨e, herr⟩⟩ := pollNext_over (S := S) inc as h
  · cases hp.symm.trans hnone
  · cases hp.symm.trans herr

theorem pollNext_nil {σ : Type} {S : SessionState σ} {inc : Incoming} {f : NoiseFramed σ}
    (p : Bytes) : (f.pollNext S inc []).1 ≠ .ready (some (.ok p)) := by
  obtain ⟨s, st, w, wb⟩ := f
  rcases st with _ | _ | _ | ⟨_ | _⟩ | _ <;> exact fun h => by cases h

/-- What a reader answers where no frame has come. -/
def stop : Poll (Option (Except IoError Bytes)) → Poll (Except IoError Bytes)
  | .ready none => .ready (.ok [])
  | .ready (some (.error e)) => .ready (.error e)
  | .ready (some (.ok _)) | .pending => .pending

theorem stop_bytes (r : Poll (Option (Except IoError Bytes))) : (stop r).bytes = [] := by
  rcases r with _ | _ | _ | _ <;> rfl

/-- There is something left of the frame that came last, if it is kept. -/
def NoiseOutput.InView {σ : Type} (o : NoiseOutput σ) : Prop :=
  o.recvBuffer ≠ [] → o.recvOffset < o.recvBuffer.length

/-- A poll gives what is left of a frame, or polls for the next one. -/
theorem NoiseOutput.pollRead_cases {σ : Type} (S : SessionState σ) (inc : Incoming)
    (o : NoiseOutput σ) (room : ℕ) (polls : List (List IoRead)) :
    (∃ bs buffer offset, o.recvBuffer.drop o.recvOffset = bs ++ buffer.drop offset
      ∧ (o.InView → InView { o with recvBuffer := buffer, recvOffset := offset })
      ∧ (o.InView → 0 < room → bs ≠ [])
      ∧ o.pollRead S inc room polls = (.ready (.ok bs), inc,
        { o with recvBuffer := buffer, recvOffset := offset }))
    ∨ (o.recvBuffer = [] ∧ ∃ as r inc' io, (as ∈ polls ∨ as = [])
      ∧ o.io.pollNext S inc as = (r, inc', io) ∧ (∀ p, r ≠ .ready (some (.ok p)))
      ∧ o.pollRead S inc room polls = (stop r, inc', { o with io := io }))
    ∨ (o.recvBuffer = [] ∧ ∃ as polls' p inc' io, polls = as :: polls'
      ∧ o.io.pollNext S inc as = (.ready (some (.ok p)), inc', io)
      ∧ o.pollRead S inc room polls
        = NoiseOutput.pollRead S inc' { o with io := io, recvBuffer := p, recvOffset := 0 }
          room polls') := by
  rcases hbuf : o.recvBuffer with _ | ⟨b, bs⟩
  · rcases hr : o.io.pollNext S inc (polls.headD []) with ⟨r, inc', io⟩
    have hhead : polls.headD [] ∈ polls ∨ polls.headD [] = [] := by
      rcases polls with _ | ⟨as, polls⟩
      · exact .inr rfl
      · exact .inl List.mem_cons_self
    rcases r with _ | _ | e | p
    · refine .inr (.inl ⟨rfl, _, _, _, _, hhead, hr, fun p h => (by cases h), ?_⟩)
      rw [NoiseOutput.pollRead.eq_def, hbuf, List.length_nil, if_neg (Nat.lt_irrefl 0), hr]
      cases polls <;> rfl
    · refine .inr (.inl ⟨rfl, _, _, _, _, hhead, hr, fun p h => (by cases h), ?_⟩)
      rw [NoiseOutput.pollRead.eq_def, hbuf, List.length_nil, if_neg (Nat.lt_irrefl 0), hr]
      cases polls <;> rfl
    · refine .inr (.inl ⟨rfl, _, _, _, _, hhead, hr, fun p h => (by cases h), ?_⟩)
      rw [NoiseOutput.pollRead.eq_def, hbuf, List.length_nil, if_neg (Nat.lt_irrefl 0), hr]
      cases polls <;> rfl
    · rcases polls with _ | ⟨as, polls⟩
      · exact (pollNext_nil p (congrArg Prod.fst hr)).elim
      · refine .inr (.inr ⟨rfl, as, polls, p, inc', io, rfl, hr, ?_⟩)
        rw [NoiseOutput.pollRead.eq_def, hbuf, List.length_nil, if_neg (Nat.lt_irrefl 0), hr]
  · left
    rw [NoiseOutput.pollRead.eq_def, hbuf, List.length_cons, if_pos (Nat.succ_pos bs.length)]
    refine ⟨_, _, _, ?_, fun hview hne => ?_, fun hview hroom => ?_, rfl⟩
    · split_ifs with h
      · rw [List.drop_nil, List.append_nil, List.take_of_length_le]
        rw [List.length_drop, List.length_cons]
        omega
      · rw [← List.drop_drop, List.take_append_drop]
    · have hoff : o.recvOffset < o.recvBuffer.length :=
        hview (by rw [hbuf]; exact List.cons_ne_nil _ _)
      rw [hbuf, List.length_cons] at hoff
      dsimp only at hne ⊢
      split_ifs at hne ⊢ with h
      · exact (hne rfl).elim
      · rw [List.length_cons]
        omega
    · have hoff : o.recvOffset < o.recvBuffer.length :=
        hview (by rw [hbuf]; exact List.cons_ne_nil _ _)
      rw [hbuf, List.length_cons] at hoff
      rw [← List.length_pos_iff, List.length_take, List.length_drop, List.length_cons]
      omega

theorem pollRead_answers {σ : Type} {S : SessionState σ} : ∀ (polls : List (List IoRead))
    (inc : Incoming) (o : NoiseOutput σ) (room : ℕ), o.InView →
      let r := o.pollRead S inc room polls
      r.2.2.InView
        ∧ (r.1 = .pending → r.2.2.recvBuffer = [] ∧ ¬ r.2.2.io.readState.Over)
        ∧ (r.1 = .ready (.ok []) → 0 < room →
          r.2.2.recvBuffer = [] ∧ r.2.2.io.readState = .eof true)
  | polls, inc, o, room, hview => by
    dsimp only
    obtain ⟨bs, buffer, offset, -, hview', hne, heq⟩ | ⟨hbuf, as, r, inc', io, has, hr, hnot, heq⟩
      | ⟨hbuf, as, polls', p, inc', io, rfl, hr, heq⟩ := o.pollRead_cases S inc room polls
    · rw [heq]
      refine ⟨hview' hview, fun h => (by cases h), fun h hroom => ?_⟩
      cases h
      exact (hne hview hroom rfl).elim
    · rw [heq]
      have hanswers := (pollNext_takes (S := S) as inc o.io).answers
      rw [hr] at hanswers
      refine ⟨fun h => (h hbuf).elim, fun h => ⟨hbuf, ?_⟩, fun h _ => ⟨hbuf, ?_⟩⟩
      · rcases r with _ | _ | _ | _
        · exact hanswers
        · cases h
        · cases h
        · exact (hnot _ rfl).elim
      · rcases r with _ | _ | _ | _
        · cases h
        · exact hanswers
        · cases h
        · cases h
    · rw [heq]
      exact pollRead_answers polls' inc' _ room fun hp => List.length_pos_iff.2 hp

/-- What becomes of an end that reads and gives these bytes: the messages it opened are pieces of
what it read. -/
structure Reads (C : CipherState κ) (inc : Incoming) (o : NoiseOutput (TransportState κ))
    (inc' : Incoming) (o' : NoiseOutput (TransportState κ)) (bs : Bytes) : Prop where
  sender : o'.sender = o.sender
  closed : inc'.closed = inc.closed
  opened : ∃ taken msgs ps, inc.bytes = taken ++ inc'.bytes
    ∧ o'.io.readState.data <:+ o.io.readState.data ++ taken
    ∧ Opens C o.receiver.key msgs ps o'.receiver.key
    ∧ (∀ msg ∈ msgs, msg <:+: o.io.readState.data ++ taken)
    ∧ o.receiver.rest ++ ps.flatten = bs ++ o'.receiver.rest

variable {inc inc' inc'' : Incoming} {o o' o'' : NoiseOutput (TransportState κ)} {bs bs' : Bytes}

theorem Reads.trans (h : Reads C inc o inc' o' bs) (h' : Reads C inc' o' inc'' o'' bs') :
    Reads C inc o inc'' o'' (bs ++ bs') where
  sender := h'.sender.trans h.sender
  closed := h'.closed.trans h.closed
  opened := by
    obtain ⟨taken, msgs, ps, hbytes, hdata, hopens, hmsgs, hrest⟩ := h.opened
    obtain ⟨taken', msgs', ps', hbytes', hdata', hopens', hmsgs', hrest'⟩ := h'.opened
    have hsuf : o'.io.readState.data ++ taken' <:+ o.io.readState.data ++ (taken ++ taken') := by
      rw [← List.append_assoc]
      exact suffix_append_right hdata taken'
    refine ⟨taken ++ taken', msgs ++ msgs', ps ++ ps', ?_, hdata'.trans hsuf, hopens.append hopens',
      ?_, ?_⟩
    · rw [hbytes, hbytes', List.append_assoc]
    · intro msg hmsg
      rcases List.mem_append.1 hmsg with hmsg | hmsg
      · rw [← List.append_assoc]
        exact (hmsgs msg hmsg).trans (List.prefix_append _ _).isInfix
      · exact (hmsgs' msg hmsg).trans hsuf.isInfix
    · rw [List.flatten_append, ← List.append_assoc, hrest, List.append_assoc, hrest',
        List.append_assoc]

/-- The frame is polled for, and comes or does not. -/
theorem Reads.of_takes {io : NoiseFramed (TransportState κ)}
    {r : Poll (Option (Except IoError Bytes))} (hbuf : o.recvBuffer = [])
    (h : Takes C.session inc o.io (r, inc', io)) :
    ((∀ p, r ≠ .ready (some (.ok p))) → Reads C inc o inc' { o with io := io } [])
      ∧ ∀ p, r = .ready (some (.ok p)) →
        Reads C inc o inc' { o with io := io, recvBuffer := p, recvOffset := 0 } [] := by
  obtain ⟨hframe, hclosed, -, taken, hbytes, hdata, hsession⟩ := h
  have hrest : o.receiver.rest = [] := by
    show o.recvBuffer.drop o.recvOffset = []
    rw [hbuf, List.drop_nil]
  have hsender : io.session.sending = o.io.session.sending →
      (NoiseOutput.sender { o with io := io }) = o.sender := by
    intro hsend
    have hstate : io.writeState = o.io.writeState := by
      rw [show io = _ from hframe]
    have hmsg : io.writeBuffer = o.io.writeBuffer := by
      rw [show io = _ from hframe]
    simp only [NoiseOutput.sender, hsend, hstate, hmsg]
  rcases hsession with ⟨hsame, hnot⟩ | ⟨msg, p, hs, hp, hmsg⟩
  · refine ⟨fun _ => ⟨hsender (by rw [hsame]), hclosed, taken, [], [], hbytes, hdata, ?_, ?_, ?_⟩,
      fun p hp => (hnot p hp).elim⟩
    · rw [show (NoiseOutput.receiver { o with io := io }).key = o.receiver.key from
        congrArg TransportState.receiving hsame]
      exact .nil
    · simp
    · rw [hrest, show (NoiseOutput.receiver { o with io := io }).rest = [] from hrest]
      rfl
  · obtain ⟨hdec, hsend⟩ := of_readMessage.1 hs
    refine ⟨fun hnot => (hnot p hp).elim, fun p' hp' => ?_⟩
    obtain rfl : p = p' := by
      have heq := hp.symm.trans hp'
      simpa using heq
    refine ⟨hsender hsend, hclosed, taken, [msg], [p], hbytes, hdata, .cons hdec .nil, ?_, ?_⟩
    · intro m hm
      rw [List.mem_singleton.1 hm]
      exact hmsg.isInfix
    · rw [hrest]
      simp [Receiver.rest, NoiseOutput.receiver]

theorem pollRead_reads : ∀ (polls : List (List IoRead)) (inc : Incoming)
    (o : NoiseOutput (TransportState κ)) (room : ℕ),
      let r := o.pollRead C.session inc room polls
      Reads C inc o r.2.1 r.2.2 r.1.bytes
  | polls, inc, o, room => by
    dsimp only
    obtain ⟨bs, buffer, offset, hdrop, -, -, heq⟩ | ⟨hbuf, as, r, inc', io, has, hr, hnot, heq⟩
      | ⟨hbuf, as, polls', p, inc', io, rfl, hr, heq⟩ := o.pollRead_cases C.session inc room polls
    · rw [heq]
      refine ⟨rfl, rfl, [], [], [], rfl, ⟨[], ?_⟩, .nil, ?_, ?_⟩
      · rw [List.nil_append, List.append_nil]
      · simp
      · rw [List.flatten_nil, List.append_nil]
        exact hdrop
    · rw [heq, stop_bytes]
      have htakes := pollNext_takes (S := C.session) as inc o.io
      rw [hr] at htakes
      exact (Reads.of_takes hbuf htakes).1 hnot
    · rw [heq]
      have htakes := pollNext_takes (S := C.session) as inc o.io
      rw [hr] at htakes
      exact ((Reads.of_takes hbuf htakes).2 p rfl).trans (pollRead_reads polls' inc' _ room)

end Receiving

end Nyumt.Noise
