import Nyumt.Framed

/-!
# What is polled of a framed stream

What a poll for the next frame gives is a message of the session that came in one piece, whatever
the io does (`pollNext_takes`). While the io does not fail, the poll reads up to the end of the
frame and no further, wherever the polls before left off (`pollNext_polls`), and a poll that readies
the writer writes on from where the last one left off (`pollReady_writes`). An io that fails while a
length is being read or written has that poll's bytes of it lost, or written again.
-/

namespace Nyumt.Noise

open Borsh

/-- A length in two bytes, the higher one first. -/
def lengths : Framing UInt8 where
  width := 2
  bound := 65536
  encode := toBeBytes
  decode := fromBeBytes
  width_pos := Nat.two_pos
  length_encode n := by rw [toBeBytes, List.length_reverse, length_leBytes]
  decode_encode n hn := by rw [fromBeBytes, toBeBytes, List.reverse_reverse, ofLE_leBytes 2 n hn]
  of_length h hlen := by
    have hlen' : h.reverse.length = 2 := by rw [List.length_reverse, hlen]
    refine ⟨?_, ?_⟩
    · have hlt := ofLE_lt h.reverse
      rw [hlen'] at hlt
      exact hlt
    · have hle := leBytes_ofLE h.reverse
      rw [hlen'] at hle
      rw [toBeBytes, fromBeBytes, hle, List.reverse_reverse]

theorem fits_replicate (k : ℕ) : lengths.Fits (List.replicate k []) := by
  intro xs hxs
  rw [List.eq_of_mem_replicate hxs]
  exact Nat.succ_pos _

theorem length_toBeBytes (n : ℕ) : (toBeBytes n).length = 2 := lengths.length_encode n

namespace ReadState

/-- Neither the end nor a message that is no good has come. -/
def Live : ReadState → Prop
  | .ready => True
  | .readLen buf => buf.length < 2
  | .readData len data => data.length < len ∧ len < 65536
  | .eof _ | .decErr => False

/-- The end of the stream, expected or not, or a message that does not open. -/
def Over : ReadState → Prop
  | .eof _ | .decErr => True
  | .ready | .readLen _ | .readData _ _ => False

/-- What is read of the next frame. -/
def part : ReadState → Bytes
  | .readLen buf => buf
  | .readData len data => toBeBytes len ++ data
  | .ready | .eof _ | .decErr => []

theorem Live.short {st : ReadState} (h : st.Live) : lengths.Short st.part := by
  cases st with
  | ready => exact .inl Nat.two_pos
  | readLen buf => exact .inl h
  | readData len data =>
    refine .inr ?_
    have htake : (toBeBytes len ++ data).take 2 = toBeBytes len :=
      List.take_left' (length_toBeBytes len)
    show (toBeBytes len ++ data).length < 2 + fromBeBytes ((toBeBytes len ++ data).take 2)
    rw [htake, List.length_append, length_toBeBytes]
    have hlen : fromBeBytes (toBeBytes len) = len := lengths.decode_encode len h.2
    have hdata := h.1
    omega
  | eof | decErr => exact h.elim

end ReadState

section Reading

variable {σ : Type} (S : SessionState σ)

/-- The bytes of a message that are read of it. -/
def ReadState.data : ReadState → Bytes
  | .readData _ data => data
  | .ready | .readLen _ | .eof _ | .decErr => []

/-- The bytes that were read. -/
def Poll.bytes : Poll (Except IoError Bytes) → Bytes
  | .ready (.ok bs) => bs
  | .ready (.error _) | .pending => []

/-- Where a poll leaves a reader when it answers so. -/
def Answers (st : ReadState) : Poll (Option (Except IoError Bytes)) → Prop
  | .pending => ¬ st.Over
  | .ready none => st = .eof true
  | .ready (some (.error _)) => True
  | .ready (some (.ok _)) => st = .ready

/-- What a poll of a reader may come to, whatever the io answers. -/
structure Takes (inc : Incoming) (f : NoiseFramed σ)
    (r : Poll (Option (Except IoError Bytes)) × Incoming × NoiseFramed σ) : Prop where
  frame : r.2.2 = { f with session := r.2.2.session, readState := r.2.2.readState }
  closed : r.2.1.closed = inc.closed
  answers : Answers r.2.2.readState r.1
  bytes : ∃ taken, inc.bytes = taken ++ r.2.1.bytes
    ∧ r.2.2.readState.data <:+ f.readState.data ++ taken
    ∧ ((r.2.2.session = f.session ∧ ∀ p, r.1 ≠ .ready (some (.ok p)))
      ∨ ∃ msg p, S.readMessage f.session msg = some (p, r.2.2.session)
        ∧ r.1 = .ready (some (.ok p)) ∧ msg <:+ f.readState.data ++ taken)

variable {S}

theorem pollRead_takes {inc inc' : Incoming} {room : ℕ} {a : IoRead}
    {r : Poll (Except IoError Bytes)} (h : inc.pollRead room a = (r, inc')) :
    inc'.closed = inc.closed ∧ inc.bytes = r.bytes ++ inc'.bytes := by
  rcases a with _ | _ | n
  · cases h
    exact ⟨rfl, rfl⟩
  · cases h
    exact ⟨rfl, rfl⟩
  · unfold Incoming.pollRead at h
    dsimp only at h
    split_ifs at h with hnone
    · cases h
      exact ⟨rfl, rfl⟩
    · cases h
      exact ⟨rfl, (List.take_append_drop (min (n + 1) room) inc.bytes).symm⟩

theorem suffix_append_right {xs ys : Bytes} (h : xs <:+ ys) (zs : Bytes) :
    xs ++ zs <:+ ys ++ zs := by
  obtain ⟨pre, rfl⟩ := h
  exact ⟨pre, (List.append_assoc _ _ _).symm⟩

theorem Takes.head {inc inc' : Incoming} {f : NoiseFramed σ} {t : ReadState} {b : Bytes}
    {r : Poll (Option (Except IoError Bytes)) × Incoming × NoiseFramed σ}
    (hbytes : inc.bytes = b ++ inc'.bytes) (hclosed : inc'.closed = inc.closed)
    (hdata : t.data <:+ f.readState.data ++ b) (h : Takes S inc' { f with readState := t } r) :
    Takes S inc f r where
  frame := h.frame
  closed := h.closed.trans hclosed
  answers := h.answers
  bytes := by
    obtain ⟨taken, htaken, hd, hs⟩ := h.bytes
    have hsuf : t.data ++ taken <:+ f.readState.data ++ (b ++ taken) := by
      rw [← List.append_assoc]
      exact suffix_append_right hdata taken
    refine ⟨b ++ taken, by rw [hbytes, htaken, List.append_assoc], hd.trans hsuf, ?_⟩
    rcases hs with hs | ⟨msg, p, hmsg, hp, hm⟩
    · exact .inl hs
    · exact .inr ⟨msg, p, hmsg, hp, hm.trans hsuf⟩

/-- A poll that reads nothing more. -/
theorem Takes.last {inc inc' : Incoming} {f : NoiseFramed σ} {t : ReadState} {b : Bytes}
    {r : Poll (Option (Except IoError Bytes))} (hbytes : inc.bytes = b ++ inc'.bytes)
    (hclosed : inc'.closed = inc.closed) (hdata : t.data <:+ f.readState.data ++ b)
    (ha : Answers t r) (hr : ∀ p, r ≠ .ready (some (.ok p))) :
    Takes S inc f (r, inc', { f with readState := t }) :=
  ⟨rfl, hclosed, ha, b, hbytes, hdata, .inl ⟨rfl, hr⟩⟩

theorem readLoop_takes : ∀ (as : List IoRead) (inc : Incoming) (f : NoiseFramed σ) (buf : Bytes),
    Takes S inc f (f.readLoop S inc buf as)
  | as, inc, ⟨s, st, w, wb⟩, buf => by
    rcases st with _ | buf₀ | ⟨len, data⟩ | ⟨_ | _⟩ | _
    · rcases as with _ | _ <;>
        exact .last (b := []) rfl rfl List.nil_suffix id fun p h => by cases h
    · rcases as with _ | ⟨a, as⟩
      · exact .last (t := .readLen buf) (b := []) rfl rfl List.nil_suffix id fun p h => by cases h
      · unfold NoiseFramed.readLoop
        dsimp only
        rcases hr : inc.pollRead (2 - buf.length) a with ⟨_ | e | _ | ⟨b, bs⟩, inc'⟩ <;>
          dsimp only <;> obtain ⟨hclosed, hbytes⟩ := pollRead_takes hr
        · exact .last (t := .readLen buf) hbytes hclosed List.nil_suffix id fun p h => by cases h
        · exact .last (t := .readLen buf₀) hbytes hclosed List.nil_suffix trivial
            fun p h => by cases h
        · exact .last (t := .eof true) hbytes hclosed List.nil_suffix rfl fun p h => by cases h
        · split_ifs with h2 h0
          · exact .head (t := .readLen buf₀) hbytes hclosed List.nil_suffix
              (readLoop_takes as _ _ _)
          · exact .head (t := .readLen []) hbytes hclosed List.nil_suffix (readLoop_takes as _ _ _)
          · exact .head (t := .readData _ []) hbytes hclosed List.nil_suffix
              (readLoop_takes as _ _ _)
    · have hsuf : data <:+ data ++ [] := ⟨[], (List.append_nil data).symm⟩
      rcases as with _ | ⟨a, as⟩
      · exact .last (t := .readData len data) (b := []) rfl rfl hsuf id fun p h => by cases h
      · unfold NoiseFramed.readLoop
        dsimp only
        rcases hr : inc.pollRead (len - data.length) a with ⟨_ | e | _ | ⟨b, bs⟩, inc'⟩ <;>
          dsimp only <;> obtain ⟨hclosed, hbytes⟩ := pollRead_takes hr
        · exact .last (t := .readData len data) hbytes hclosed hsuf id fun p h => by cases h
        · exact .last (t := .readData len data) hbytes hclosed hsuf trivial fun p h => by cases h
        · exact .last (t := .eof false) hbytes hclosed List.nil_suffix trivial fun p h => by cases h
        · split_ifs with h2
          · exact .head (t := .readData len (data ++ b :: bs)) hbytes hclosed List.suffix_rfl
              (readLoop_takes as _ _ _)
          · rcases hs : S.readMessage s (data ++ b :: bs) with _ | ⟨payload, s'⟩
            · exact .last (t := .decErr) hbytes hclosed List.nil_suffix trivial
                fun p h => by cases h
            · exact ⟨rfl, hclosed, rfl, _, hbytes, List.nil_suffix,
                .inr ⟨_, _, hs, rfl, List.suffix_rfl⟩⟩
    · rcases as with _ | _ <;>
        exact .last (b := []) rfl rfl List.nil_suffix trivial fun p h => by cases h
    · rcases as with _ | _ <;>
        exact .last (b := []) rfl rfl List.nil_suffix rfl fun p h => by cases h
    · rcases as with _ | _ <;>
        exact .last (b := []) rfl rfl List.nil_suffix trivial fun p h => by cases h

theorem pollNext_takes (as : List IoRead) (inc : Incoming) (f : NoiseFramed σ) :
    Takes S inc f (f.pollNext S inc as) := by
  obtain ⟨s, st, w, wb⟩ := f
  unfold NoiseFramed.pollNext
  rcases st with _ | buf | ⟨len, data⟩ | ⟨_ | _⟩ | _
  · exact .head (t := .readLen []) (b := []) rfl rfl List.nil_suffix (readLoop_takes as _ _ _)
  all_goals exact readLoop_takes as _ _ _

variable (S)

/-- What becomes of a reader in session `s`, with these bytes read in part and there to be read: it
passes over empty frames, and leaves the bytes behind the frame it gives. -/
inductive Polls (s : σ) (bytes : Bytes) (closed : Bool) :
    Poll (Option (Except IoError Bytes)) → Incoming → ReadState → σ → Prop
  | pending {k : ℕ} {st : ReadState} {rest : Bytes} (hst : st.Live)
      (h : bytes = lengths.frames (List.replicate k []) ++ (st.part ++ rest)) :
      Polls s bytes closed .pending ⟨rest, closed⟩ st s
  | frame {k : ℕ} {msg payload rest : Bytes} {s' : σ} (hne : msg ≠ []) (hlt : msg.length < 65536)
      (hs : S.readMessage s msg = some (payload, s'))
      (h : bytes = lengths.frames (List.replicate k []) ++ (lengths.frame msg ++ rest)) :
      Polls s bytes closed (.ready (some (.ok payload))) ⟨rest, closed⟩ .ready s'
  | invalid {k : ℕ} {msg rest : Bytes} (hne : msg ≠ []) (hlt : msg.length < 65536)
      (hs : S.readMessage s msg = none)
      (h : bytes = lengths.frames (List.replicate k []) ++ (lengths.frame msg ++ rest)) :
      Polls s bytes closed (.ready (some (.error .invalidData))) ⟨rest, closed⟩ .decErr s
  | eof {k : ℕ} {rest : Bytes} (hclosed : closed) (hrest : rest.length < 2)
      (h : bytes = lengths.frames (List.replicate k []) ++ rest) :
      Polls s bytes closed (.ready none) ⟨[], closed⟩ (.eof true) s
  | unexpectedEof {k : ℕ} {rest : Bytes} (hclosed : closed) (hrest : 2 ≤ rest.length)
      (hshort : lengths.Short rest) (h : bytes = lengths.frames (List.replicate k []) ++ rest) :
      Polls s bytes closed (.ready (some (.error .unexpectedEof))) ⟨[], closed⟩ (.eof false) s

variable {S}

/-- An empty frame is passed over. -/
theorem Polls.skip {s s' : σ} {bytes hdr : Bytes} {closed : Bool}
    {r : Poll (Option (Except IoError Bytes))} {inc : Incoming} {st : ReadState}
    (hlen : hdr.length = 2) (hhdr : fromBeBytes hdr = 0) (h : Polls S s bytes closed r inc st s') :
    Polls S s (hdr ++ bytes) closed r inc st s' := by
  have hframe : ∀ (k : ℕ) (bs : Bytes), hdr ++ (lengths.frames (List.replicate k []) ++ bs)
      = lengths.frames (List.replicate (k + 1) []) ++ bs := by
    intro k bs
    have hzero : lengths.encode 0 = hdr := by
      have := (lengths.of_length hdr hlen).2
      rwa [show lengths.decode hdr = 0 from hhdr] at this
    rw [List.replicate_succ, Framing.frames_cons, List.length_nil, hzero, List.nil_append,
      List.append_assoc]
  cases h with
  | pending hst h => exact .pending hst (by rw [h, hframe])
  | frame hne hlt hs h => exact .frame hne hlt hs (by rw [h, hframe])
  | invalid hne hlt hs h => exact .invalid hne hlt hs (by rw [h, hframe])
  | eof hclosed hrest h => exact .eof hclosed hrest (by rw [h, hframe])
  | unexpectedEof hclosed hrest hshort h =>
    exact .unexpectedEof hclosed hrest hshort (by rw [h, hframe])

theorem pollRead_cases (inc : Incoming) {room : ℕ} {a : IoRead} (ha : a ≠ .error)
    (hroom : 0 < room) : inc.pollRead room a = (.pending, inc)
      ∨ (inc.pollRead room a = (.ready (.ok []), inc) ∧ inc.bytes = [] ∧ inc.closed)
      ∨ ∃ b bs rest, inc.pollRead room a = (.ready (.ok (b :: bs)), ⟨rest, inc.closed⟩)
        ∧ inc.bytes = b :: bs ++ rest ∧ (b :: bs).length ≤ room := by
  rcases a with _ | _ | n
  · exact .inl rfl
  · exact (ha rfl).elim
  · unfold Incoming.pollRead
    obtain ⟨bytes, closed⟩ := inc
    dsimp only
    split_ifs with h
    · exact .inl rfl
    · rcases bytes with _ | ⟨b, bytes⟩
      · refine .inr (.inl ⟨by simp, rfl, ?_⟩)
        simpa using h
      · refine .inr (.inr ?_)
        obtain ⟨k, hk⟩ : ∃ k, min (n + 1) room = k + 1 := ⟨min (n + 1) room - 1, by omega⟩
        rw [hk]
        refine ⟨b, bytes.take k, bytes.drop k, rfl, ?_, ?_⟩
        · rw [List.cons_append, List.take_append_drop]
        · rw [List.length_cons, List.length_take]
          omega

/-- Where the loop of `poll_next` is. -/
def NoiseFramed.at (f : NoiseFramed σ) (buf : Bytes) : ReadState :=
  match f.readState with
  | .readLen _ => .readLen buf
  | st => st

theorem readLoop_polls : ∀ (as : List IoRead) (inc : Incoming) (f : NoiseFramed σ) (buf : Bytes),
    .error ∉ as → f.readState ≠ .ready → (f.at buf).Live →
      let r := f.readLoop S inc buf as
      Polls S f.session ((f.at buf).part ++ inc.bytes) inc.closed r.1 r.2.1 r.2.2.readState
        r.2.2.session
  | as, inc, ⟨s, st, w, wb⟩, buf, ha, hne, hlive => by
    rcases st with _ | buf₀ | ⟨len, data⟩ | b | _
    · exact (hne rfl).elim
    · have hbuf : buf.length < 2 := hlive
      rcases as with _ | ⟨a, as⟩
      · exact .pending (k := 0) hbuf rfl
      · obtain ⟨ha, has⟩ := not_or.1 (mt List.mem_cons.2 ha)
        unfold NoiseFramed.readLoop
        dsimp only
        rcases pollRead_cases inc (Ne.symm ha) (Nat.sub_pos_of_lt hbuf) with
          h | ⟨h, hbytes, hclosed⟩ | ⟨b, bs, rest, h, hbytes, hle⟩ <;> rw [h] <;> dsimp only
        · exact .pending (k := 0) hbuf rfl
        · obtain ⟨bytes, closed⟩ := inc
          obtain rfl : bytes = [] := hbytes
          exact .eof (k := 0) hclosed hbuf (List.append_nil _)
        · have hat : ((⟨s, .readLen buf₀, w, wb⟩ : NoiseFramed σ).at buf).part = buf := rfl
          have hpart : buf ++ inc.bytes = (buf ++ b :: bs) ++ rest := by
            rw [hbytes, List.append_assoc]
          have hlen : (buf ++ b :: bs).length ≤ 2 := by
            rw [List.length_append]
            omega
          split_ifs with h2 h0
          · have ih := readLoop_polls as ⟨rest, inc.closed⟩ ⟨s, .readLen buf₀, w, wb⟩
              (buf ++ b :: bs) has (by simp) (show (buf ++ b :: bs).length < 2 by omega)
            rw [hat, hpart]
            exact ih
          · have ih := readLoop_polls as ⟨rest, inc.closed⟩ ⟨s, .readLen [], w, wb⟩ [] has (by simp)
              Nat.two_pos
            rw [hat, hpart]
            exact ih.skip (not_not.1 h2) h0
          · have hdec := lengths.of_length (buf ++ b :: bs) (not_not.1 h2)
            have ih := readLoop_polls as ⟨rest, inc.closed⟩
              ⟨s, .readData (fromBeBytes (buf ++ b :: bs)) [], w, wb⟩ [] has (by simp)
              ⟨Nat.pos_of_ne_zero h0, hdec.1⟩
            have hdata : ((⟨s, .readData (fromBeBytes (buf ++ b :: bs)) [], w, wb⟩
                : NoiseFramed σ).at []).part = buf ++ b :: bs :=
              (List.append_nil _).trans hdec.2
            rw [hat, hpart]
            rwa [hdata] at ih
    · obtain ⟨hdata, hlen⟩ : data.length < len ∧ len < 65536 := hlive
      rcases as with _ | ⟨a, as⟩
      · exact .pending (k := 0) ⟨hdata, hlen⟩ rfl
      · obtain ⟨ha, has⟩ := not_or.1 (mt List.mem_cons.2 ha)
        unfold NoiseFramed.readLoop
        dsimp only
        rcases pollRead_cases inc (Ne.symm ha) (Nat.sub_pos_of_lt hdata) with
          h | ⟨h, hbytes, hclosed⟩ | ⟨b, bs, rest, h, hbytes, hle⟩ <;> rw [h] <;> dsimp only
        · exact .pending (k := 0) ⟨hdata, hlen⟩ rfl
        · obtain ⟨bytes, closed⟩ := inc
          obtain rfl : bytes = [] := hbytes
          have hlive : (ReadState.readData len data).Live := ⟨hdata, hlen⟩
          refine .unexpectedEof (k := 0) hclosed ?_ hlive.short (List.append_nil _)
          show 2 ≤ (toBeBytes len ++ data).length
          rw [List.length_append, length_toBeBytes]
          omega
        · have hpart : (toBeBytes len ++ data) ++ inc.bytes
              = toBeBytes len ++ (data ++ b :: bs) ++ rest := by
            rw [hbytes]
            simp only [List.append_assoc]
          have hle' : (data ++ b :: bs).length ≤ len := by
            rw [List.length_append]
            omega
          split_ifs with h2
          · have ih := readLoop_polls as ⟨rest, inc.closed⟩
              ⟨s, .readData len (data ++ b :: bs), w, wb⟩ [] has (by simp) ⟨by omega, hlen⟩
            show Polls S s ((toBeBytes len ++ data) ++ inc.bytes) _ _ _ _ _
            rw [hpart]
            exact ih
          · have hmsg : (data ++ b :: bs).length = len := not_not.1 h2
            have hne : data ++ b :: bs ≠ [] := by simp
            have hframe : (toBeBytes len ++ data) ++ inc.bytes
                = lengths.frames (List.replicate 0 [])
                  ++ (lengths.frame (data ++ b :: bs) ++ rest) := by
              rw [hpart, ← hmsg]
              rfl
            rcases hs : S.readMessage s (data ++ b :: bs) with _ | ⟨payload, s'⟩
            · exact .invalid hne (by omega) hs hframe
            · exact .frame hne (by omega) hs hframe
    · exact hlive.elim
    · exact hlive.elim

/-- A poll of a reader that is live. -/
theorem pollNext_polls {as : List IoRead} (inc : Incoming) {f : NoiseFramed σ} (ha : .error ∉ as)
    (hlive : f.readState.Live) :
    let r := f.pollNext S inc as
    Polls S f.session (f.readState.part ++ inc.bytes) inc.closed r.1 r.2.1 r.2.2.readState
      r.2.2.session := by
  obtain ⟨s, st, w, wb⟩ := f
  unfold NoiseFramed.pollNext
  cases st with
  | ready =>
    exact readLoop_polls as inc ⟨s, .readLen [], w, wb⟩ [] ha (by simp) Nat.two_pos
  | readLen buf => exact readLoop_polls as inc ⟨s, .readLen buf, w, wb⟩ buf ha (by simp) hlive
  | readData len data =>
    exact readLoop_polls as inc ⟨s, .readData len data, w, wb⟩ [] ha (by simp) hlive
  | eof | decErr => exact hlive.elim

/-- A poll whose io did not fail went as it does with answers none of which is a failure. -/
theorem readLoop_until : ∀ (as : List IoRead) (inc : Incoming) (f : NoiseFramed σ) (buf : Bytes),
    (f.readLoop S inc buf as).1 ≠ .ready (some (.error .io)) →
      ∃ as', .error ∉ as' ∧ f.readLoop S inc buf as' = f.readLoop S inc buf as
  | [], _, _, _, _ => ⟨[], List.not_mem_nil, rfl⟩
  | a :: as, inc, ⟨s, st, w, wb⟩, buf, h => by
    have hcons : ∀ {as'}, a ≠ .error → .error ∉ as' → .error ∉ a :: as' := fun ha has hm =>
      (List.mem_cons.1 hm).elim (fun he => ha he.symm) has
    rcases st with _ | buf₀ | ⟨len, data⟩ | ⟨_ | _⟩ | _
    case readLen =>
      have ha : a ≠ .error := by
        rintro rfl
        exact h rfl
      unfold NoiseFramed.readLoop at h ⊢
      dsimp only at h ⊢
      rcases hr : inc.pollRead (2 - buf.length) a with ⟨_ | e | _ | ⟨b, bs⟩, inc'⟩ <;>
        rw [hr] at h <;> dsimp only at h
      iterate 3 exact ⟨[a], hcons ha List.not_mem_nil, by simp only [hr]⟩
      split_ifs at h with h2 h0
      · obtain ⟨as', has, heq⟩ := readLoop_until as _ _ _ h
        exact ⟨a :: as', hcons ha has, by simp only [hr, if_pos h2, heq]⟩
      · obtain ⟨as', has, heq⟩ := readLoop_until as _ _ _ h
        exact ⟨a :: as', hcons ha has, by simp only [hr, if_neg h2, if_pos h0, heq]⟩
      · obtain ⟨as', has, heq⟩ := readLoop_until as _ _ _ h
        exact ⟨a :: as', hcons ha has, by simp only [hr, if_neg h2, if_neg h0, heq]⟩
    case readData =>
      have ha : a ≠ .error := by
        rintro rfl
        exact h rfl
      unfold NoiseFramed.readLoop at h ⊢
      dsimp only at h ⊢
      rcases hr : inc.pollRead (len - data.length) a with ⟨_ | e | _ | ⟨b, bs⟩, inc'⟩ <;>
        rw [hr] at h <;> dsimp only at h
      iterate 3 exact ⟨[a], hcons ha List.not_mem_nil, by simp only [hr]⟩
      split_ifs at h with h2
      · obtain ⟨as', has, heq⟩ := readLoop_until as _ _ _ h
        exact ⟨a :: as', hcons ha has, by simp only [hr, if_pos h2, heq]⟩
      · exact ⟨[a], hcons ha List.not_mem_nil, by simp only [hr, if_neg h2]⟩
    all_goals exact ⟨[], List.not_mem_nil, rfl⟩

theorem pollNext_until {as : List IoRead} {inc : Incoming} {f : NoiseFramed σ}
    (h : (f.pollNext S inc as).1 ≠ .ready (some (.error .io))) :
    ∃ as', .error ∉ as' ∧ f.pollNext S inc as' = f.pollNext S inc as := by
  obtain ⟨s, st, w, wb⟩ := f
  unfold NoiseFramed.pollNext at h ⊢
  cases st with
  | ready | readLen | readData | eof | decErr => exact readLoop_until as _ _ _ h

/-- A poll of a reader that is live, whose io did not fail. -/
theorem pollNext_polls_until (as : List IoRead) (inc : Incoming) {f : NoiseFramed σ}
    (h : (f.pollNext S inc as).1 ≠ .ready (some (.error .io))) (hlive : f.readState.Live) :
    let r := f.pollNext S inc as
    Polls S f.session (f.readState.part ++ inc.bytes) inc.closed r.1 r.2.1 r.2.2.readState
      r.2.2.session := by
  obtain ⟨as', has, heq⟩ := pollNext_until h
  rw [← heq]
  exact pollNext_polls inc has hlive

theorem pollRead_pending {inc inc' : Incoming} {room : ℕ} {a : IoRead} (ha : a ≠ .pending)
    (h : inc.pollRead room a = (.pending, inc')) : inc'.bytes = [] := by
  rcases a with _ | _ | n
  · exact (ha rfl).elim
  · cases h
  · unfold Incoming.pollRead at h
    dsimp only at h
    split_ifs at h with hnone
    · cases h
      exact hnone.1
    · cases h

theorem length_pollRead {inc inc' : Incoming} {room : ℕ} {a : IoRead} {b : UInt8} {bs : Bytes}
    (h : inc.pollRead room a = (.ready (.ok (b :: bs)), inc')) :
    inc'.bytes.length < inc.bytes.length := by
  have hbytes : inc.bytes = b :: bs ++ inc'.bytes := (pollRead_takes h).2
  rw [hbytes, List.length_append, List.length_cons]
  omega

/-- A reader that is pending, of an io that always answered, has taken a byte with each answer, or
all there were. -/
theorem readLoop_drains : ∀ (as : List IoRead) (inc : Incoming) (f : NoiseFramed σ) (buf : Bytes),
    .pending ∉ as → f.readState ≠ .ready → (f.readLoop S inc buf as).1 = .pending →
      (f.readLoop S inc buf as).2.1.bytes = []
        ∨ (f.readLoop S inc buf as).2.1.bytes.length + as.length ≤ inc.bytes.length
  | as, inc, ⟨s, st, w, wb⟩, buf, ha, hne, hp => by
    rcases st with _ | buf₀ | ⟨len, data⟩ | ⟨_ | _⟩ | _
    · exact (hne rfl).elim
    · rcases as with _ | ⟨a, as⟩
      · exact .inr le_rfl
      · obtain ⟨ha, has⟩ := not_or.1 (mt List.mem_cons.2 ha)
        unfold NoiseFramed.readLoop at hp ⊢
        dsimp only at hp ⊢
        rcases hr : inc.pollRead (2 - buf.length) a with ⟨_ | e | _ | ⟨b, bs⟩, inc'⟩ <;>
          rw [hr] at hp <;> dsimp only at hp ⊢
        · exact .inl (pollRead_pending (Ne.symm ha) hr)
        · cases hp
        · cases hp
        · have hlen := length_pollRead hr
          split_ifs at hp ⊢ with h2 h0
          · exact (readLoop_drains as inc' _ _ has (by simp) hp).imp_right fun h => by
              rw [List.length_cons]
              omega
          · exact (readLoop_drains as inc' _ _ has (by simp) hp).imp_right fun h => by
              rw [List.length_cons]
              omega
          · exact (readLoop_drains as inc' _ _ has (by simp) hp).imp_right fun h => by
              rw [List.length_cons]
              omega
    · rcases as with _ | ⟨a, as⟩
      · exact .inr le_rfl
      · obtain ⟨ha, has⟩ := not_or.1 (mt List.mem_cons.2 ha)
        unfold NoiseFramed.readLoop at hp ⊢
        dsimp only at hp ⊢
        rcases hr : inc.pollRead (len - data.length) a with ⟨_ | e | _ | ⟨b, bs⟩, inc'⟩ <;>
          rw [hr] at hp <;> dsimp only at hp ⊢
        · exact .inl (pollRead_pending (Ne.symm ha) hr)
        · cases hp
        · cases hp
        · have hlen := length_pollRead hr
          split_ifs at hp ⊢ with h2
          · exact (readLoop_drains as inc' _ _ has (by simp) hp).imp_right fun h => by
              rw [List.length_cons]
              omega
          · rcases hs : S.readMessage s (data ++ b :: bs) with _ | ⟨payload, s'⟩ <;>
              rw [hs] at hp <;> cases hp
    · rcases as with _ | _ <;> cases hp
    · rcases as with _ | _ <;> cases hp
    · rcases as with _ | _ <;> cases hp

theorem pollNext_drains {as : List IoRead} {inc : Incoming} {f : NoiseFramed σ} (ha : .pending ∉ as)
    (hp : (f.pollNext S inc as).1 = .pending) : (f.pollNext S inc as).2.1.bytes = []
      ∨ (f.pollNext S inc as).2.1.bytes.length + as.length ≤ inc.bytes.length := by
  obtain ⟨s, st, w, wb⟩ := f
  unfold NoiseFramed.pollNext at hp ⊢
  cases st with
  | ready => exact readLoop_drains as inc ⟨s, .readLen [], w, wb⟩ [] ha (by simp) hp
  | readLen buf => exact readLoop_drains as inc ⟨s, .readLen buf, w, wb⟩ buf ha (by simp) hp
  | readData len data =>
    exact readLoop_drains as inc ⟨s, .readData len data, w, wb⟩ [] ha (by simp) hp
  | eof expected => exact readLoop_drains as inc ⟨s, .eof expected, w, wb⟩ [] ha (by simp) hp
  | decErr => exact readLoop_drains as inc ⟨s, .decErr, w, wb⟩ [] ha (by simp) hp

end Reading

section Writing

variable {σ : Type}

/-- What a writer at this place of its message has still to write. One whose io takes no more has
left some of it. -/
def WriteState.Owes (msg tail : Bytes) : WriteState → Prop
  | .writeLen len buf off => len = msg.length ∧ 0 < len ∧ buf.length = 2 ∧ off < 2
      ∧ tail = buf.drop off ++ msg
  | .writeData len off => len = msg.length ∧ off < len ∧ tail = msg.drop off
  | .ready | .encErr => tail = []
  | .eof => True

theorem pollWrite_cases (buf : Bytes) {a : IoWrite} (ha : a ≠ .error) :
    pollWrite buf a = .pending ∨ pollWrite buf a = .ready (.ok 0)
      ∨ ∃ n, pollWrite buf a = .ready (.ok (n + 1)) ∧ n + 1 ≤ buf.length := by
  rcases a with _ | _ | n
  · exact .inl rfl
  · exact (ha rfl).elim
  · rcases hn : min n buf.length with _ | k
    · exact .inr (.inl (by rw [pollWrite, hn]))
    · refine .inr (.inr ⟨k, by rw [pollWrite, hn], ?_⟩)
      have := Nat.min_le_right n buf.length
      omega

/-- Where the loop of `poll_ready` is. -/
def NoiseFramed.writing (f : NoiseFramed σ) (off : ℕ) : WriteState :=
  match f.writeState with
  | .writeLen len buf _ => .writeLen len buf off
  | st => st

/-- A poll of the writer, whatever the io answers, goes on with the message there is. -/
theorem writeLoop_frame : ∀ (as : List IoWrite) (f : NoiseFramed σ) (off : ℕ),
    (f.writeLoop off as).2.1 = { f with writeState := (f.writeLoop off as).2.1.writeState }
      ∧ ((f.writeLoop off as).1 = .ready (.ok ()) → (f.writeLoop off as).2.1.writeState = .ready)
  | as, ⟨s, rd, st, msg⟩, off => by
    rcases st with _ | ⟨len, buf, off₀⟩ | ⟨len, off'⟩ | _ | _
    · rcases as with _ | _ <;> exact ⟨rfl, fun _ => rfl⟩
    · rcases as with _ | ⟨a, as⟩
      · exact ⟨rfl, fun h => by cases h⟩
      · unfold NoiseFramed.writeLoop
        dsimp only
        rcases pollWrite (buf.drop off) a with _ | _ | _ | n <;> dsimp only
        · exact ⟨rfl, fun h => by cases h⟩
        · exact ⟨rfl, fun h => by cases h⟩
        · exact ⟨rfl, fun h => by cases h⟩
        · split_ifs
          · exact writeLoop_frame as ⟨s, rd, .writeData len 0, msg⟩ 0
          · exact writeLoop_frame as ⟨s, rd, .writeLen len buf off₀, msg⟩ _
    · rcases as with _ | ⟨a, as⟩
      · exact ⟨rfl, fun h => by cases h⟩
      · unfold NoiseFramed.writeLoop
        dsimp only
        rcases pollWrite ((msg.take len).drop off') a with _ | _ | _ | n <;> dsimp only
        · exact ⟨rfl, fun h => by cases h⟩
        · exact ⟨rfl, fun h => by cases h⟩
        · exact ⟨rfl, fun h => by cases h⟩
        · split_ifs
          · exact writeLoop_frame as ⟨s, rd, .ready, msg⟩ 0
          · exact writeLoop_frame as ⟨s, rd, .writeData len (off' + (n + 1)), msg⟩ 0
    · rcases as with _ | _ <;> exact ⟨rfl, fun h => by cases h⟩
    · rcases as with _ | _ <;> exact ⟨rfl, fun h => by cases h⟩

theorem pollReady_frame (as : List IoWrite) (f : NoiseFramed σ) :
    (f.pollReady as).2.1 = { f with writeState := (f.pollReady as).2.1.writeState }
      ∧ ((f.pollReady as).1 = .ready (.ok ()) → (f.pollReady as).2.1.writeState = .ready) := by
  obtain ⟨s, rd, st, msg⟩ := f
  unfold NoiseFramed.pollReady
  cases st with
  | writeLen len buf off => exact writeLoop_frame as ⟨s, rd, .writeLen len buf off, msg⟩ off
  | ready | writeData | eof | encErr => exact writeLoop_frame as _ 0

theorem pollReady_ready {f : NoiseFramed σ} (h : f.writeState = .ready) (as : List IoWrite) :
    f.pollReady as = (.ready (.ok ()), f, []) := by
  obtain ⟨s, rd, st, msg⟩ := f
  obtain rfl : st = .ready := h
  cases as <;> rfl

theorem pollFlush_ready {f : NoiseFramed σ} (h : f.writeState = .ready) (as : List IoWrite)
    (io : Poll (Except IoError Unit)) : f.pollFlush as io = (io, f, []) := by
  rw [NoiseFramed.pollFlush, pollReady_ready h]

/-- What a poll of the writer may come to, when `tail` was to be written. -/
def Writes (f : NoiseFramed σ) (tail : Bytes)
    (r : Poll (Except IoError Unit) × NoiseFramed σ × Bytes) : Prop :=
  ∃ tail', tail = r.2.2 ++ tail' ∧ r.2.1.writeState.Owes f.writeBuffer tail'

theorem Writes.cons {f : NoiseFramed σ} {st : WriteState} {out tail tail' : Bytes}
    {r : Poll (Except IoError Unit) × NoiseFramed σ × Bytes} (htail : tail = out ++ tail')
    (h : Writes { f with writeState := st } tail' r) :
    Writes f tail (r.1, r.2.1, out ++ r.2.2) := by
  obtain ⟨tail'', rfl, howes⟩ := h
  exact ⟨tail'', htail.trans (List.append_assoc _ _ _).symm, howes⟩

theorem writeLoop_writes : ∀ (as : List IoWrite) (f : NoiseFramed σ) (off : ℕ) {tail : Bytes},
    .error ∉ as → (f.writing off).Owes f.writeBuffer tail → Writes f tail (f.writeLoop off as)
  | as, ⟨s, rd, st, msg⟩, off, tail, ha, howes => by
    rcases st with _ | ⟨len, buf, off₀⟩ | ⟨len, off'⟩ | _ | _
    · rcases as with _ | _ <;> exact ⟨tail, rfl, howes⟩
    · obtain ⟨hlen, hpos, hbuf, hoff, rfl⟩ : len = msg.length ∧ 0 < len ∧ buf.length = 2 ∧ off < 2
          ∧ tail = buf.drop off ++ msg := id howes
      rcases as with _ | ⟨a, as⟩
      · exact ⟨_, rfl, howes⟩
      · obtain ⟨ha, has⟩ := not_or.1 (mt List.mem_cons.2 ha)
        unfold NoiseFramed.writeLoop
        dsimp only
        rcases pollWrite_cases (buf.drop off) (Ne.symm ha) with h | h | ⟨n, h, hn⟩ <;>
          rw [h] <;> dsimp only
        · exact ⟨_, rfl, howes⟩
        · exact ⟨_, rfl, trivial⟩
        · rw [List.length_drop, hbuf] at hn
          have hrest : buf.drop off ++ msg
              = (buf.drop off).take (n + 1) ++ (buf.drop (off + (n + 1)) ++ msg) := by
            rw [← List.append_assoc, ← List.drop_drop, List.take_append_drop]
          split_ifs with h2
          · have hnil : buf.drop (off + (n + 1)) = [] := by
              rw [List.drop_eq_nil_iff]
              omega
            rw [hnil, List.nil_append] at hrest
            exact .cons hrest (writeLoop_writes as ⟨s, rd, .writeData len 0, msg⟩ 0 has
              ⟨hlen, hpos, rfl⟩)
          · refine .cons hrest (writeLoop_writes as ⟨s, rd, .writeLen len buf off₀, msg⟩ _ has
              ⟨hlen, hpos, hbuf, ?_, rfl⟩)
            omega
    · obtain ⟨rfl, hoff, rfl⟩ : len = msg.length ∧ off' < len ∧ tail = msg.drop off' := id howes
      rcases as with _ | ⟨a, as⟩
      · exact ⟨_, rfl, howes⟩
      · obtain ⟨ha, has⟩ := not_or.1 (mt List.mem_cons.2 ha)
        unfold NoiseFramed.writeLoop
        dsimp only
        rw [List.take_length]
        rcases pollWrite_cases (msg.drop off') (Ne.symm ha) with h | h | ⟨n, h, hn⟩ <;>
          rw [h] <;> dsimp only
        · exact ⟨_, rfl, howes⟩
        · exact ⟨_, rfl, trivial⟩
        · rw [List.length_drop] at hn
          have hrest : msg.drop off' = (msg.drop off').take (n + 1)
              ++ msg.drop (off' + (n + 1)) := by
            rw [← List.drop_drop, List.take_append_drop]
          split_ifs with h2
          · have hnil : msg.drop (off' + (n + 1)) = [] := by
              rw [List.drop_eq_nil_iff]
              omega
            rw [hnil] at hrest
            exact .cons hrest (writeLoop_writes as ⟨s, rd, .ready, msg⟩ 0 has rfl)
          · refine .cons hrest (writeLoop_writes as
              ⟨s, rd, .writeData msg.length (off' + (n + 1)), msg⟩ 0 has ⟨rfl, ?_, rfl⟩)
            omega
    · rcases as with _ | _ <;> exact ⟨tail, rfl, trivial⟩
    · rcases as with _ | _ <;> exact ⟨tail, rfl, howes⟩

/-- A poll of a writer that has still to write `tail`. -/
theorem pollReady_writes {as : List IoWrite} {f : NoiseFramed σ} {tail : Bytes} (ha : .error ∉ as)
    (howes : f.writeState.Owes f.writeBuffer tail) : Writes f tail (f.pollReady as) := by
  obtain ⟨s, rd, st, msg⟩ := f
  unfold NoiseFramed.pollReady
  cases st with
  | writeLen len buf off =>
    exact writeLoop_writes as ⟨s, rd, .writeLen len buf off, msg⟩ off ha howes
  | ready => exact writeLoop_writes as ⟨s, rd, .ready, msg⟩ 0 ha howes
  | writeData len off => exact writeLoop_writes as ⟨s, rd, .writeData len off, msg⟩ 0 ha howes
  | eof => exact writeLoop_writes as ⟨s, rd, .eof, msg⟩ 0 ha trivial
  | encErr => exact writeLoop_writes as ⟨s, rd, .encErr, msg⟩ 0 ha howes

/-- The io has not taken nothing, and the message was sealed. -/
def WriteState.Works : WriteState → Prop
  | .eof | .encErr => False
  | .ready | .writeLen _ _ _ | .writeData _ _ => True

theorem pollWrite_takes {buf : Bytes} {a : IoWrite} (ha : a ≠ .error) (h0 : a ≠ .upTo 0)
    (hbuf : buf ≠ []) :
    pollWrite buf a = .pending ∨ ∃ n, pollWrite buf a = .ready (.ok (n + 1)) := by
  rcases pollWrite_cases buf ha with h | h | ⟨n, h, -⟩
  · exact .inl h
  · rcases a with _ | _ | n
    · exact .inl rfl
    · exact (ha rfl).elim
    · have hpos := List.length_pos_iff.2 hbuf
      have hzero : min n buf.length = 0 := by
        simpa [pollWrite] using h
      have hn : n ≠ 0 := fun hn => h0 (by rw [hn])
      omega
  · exact .inr ⟨n, h⟩

/-- While the io takes something of what it takes, nothing fails. -/
theorem writeLoop_works : ∀ (as : List IoWrite) (f : NoiseFramed σ) (off : ℕ) {tail : Bytes},
    .error ∉ as → .upTo 0 ∉ as → (f.writing off).Owes f.writeBuffer tail → (f.writing off).Works →
      (f.writeLoop off as).2.1.writeState.Works ∧ ∀ e, (f.writeLoop off as).1 ≠ .ready (.error e)
  | as, ⟨s, rd, st, msg⟩, off, tail, ha, h0, howes, hworks => by
    rcases st with _ | ⟨len, buf, off₀⟩ | ⟨len, off'⟩ | _ | _
    · rcases as with _ | _ <;> exact ⟨trivial, fun e h => by cases h⟩
    · obtain ⟨hlen, hpos, hbuf, hoff, rfl⟩ : len = msg.length ∧ 0 < len ∧ buf.length = 2 ∧ off < 2
          ∧ tail = buf.drop off ++ msg := id howes
      rcases as with _ | ⟨a, as⟩
      · exact ⟨trivial, fun e h => by cases h⟩
      · obtain ⟨ha, has⟩ := not_or.1 (mt List.mem_cons.2 ha)
        obtain ⟨h0, h0s⟩ := not_or.1 (mt List.mem_cons.2 h0)
        have hrest : buf.drop off ≠ [] := by
          rw [ne_eq, List.drop_eq_nil_iff]
          omega
        unfold NoiseFramed.writeLoop
        dsimp only
        have hcases := pollWrite_cases (buf.drop off) (Ne.symm ha)
        rcases pollWrite_takes (Ne.symm ha) (Ne.symm h0) hrest with h | ⟨n, h⟩ <;>
          rw [h] at hcases ⊢ <;> dsimp only
        · exact ⟨trivial, fun e h => by cases h⟩
        · have hn : n + 1 ≤ 2 - off := by
            simpa [hbuf] using hcases
          split_ifs with h2
          · exact writeLoop_works as ⟨s, rd, .writeData len 0, msg⟩ 0 has h0s
              ⟨hlen, hpos, rfl⟩ trivial
          · refine writeLoop_works as ⟨s, rd, .writeLen len buf off₀, msg⟩ _ has h0s
              ⟨hlen, hpos, hbuf, ?_, rfl⟩ trivial
            omega
    · obtain ⟨rfl, hoff, rfl⟩ : len = msg.length ∧ off' < len ∧ tail = msg.drop off' := id howes
      rcases as with _ | ⟨a, as⟩
      · exact ⟨trivial, fun e h => by cases h⟩
      · obtain ⟨ha, has⟩ := not_or.1 (mt List.mem_cons.2 ha)
        obtain ⟨h0, h0s⟩ := not_or.1 (mt List.mem_cons.2 h0)
        have hrest : msg.drop off' ≠ [] := by
          rw [ne_eq, List.drop_eq_nil_iff]
          omega
        unfold NoiseFramed.writeLoop
        dsimp only
        rw [List.take_length]
        have hcases := pollWrite_cases (msg.drop off') (Ne.symm ha)
        rcases pollWrite_takes (Ne.symm ha) (Ne.symm h0) hrest with h | ⟨n, h⟩ <;>
          rw [h] at hcases ⊢ <;> dsimp only
        · exact ⟨trivial, fun e h => by cases h⟩
        · have hn : n + 1 ≤ msg.length - off' := by
            simpa using hcases
          split_ifs with h2
          · exact writeLoop_works as ⟨s, rd, .ready, msg⟩ 0 has h0s rfl trivial
          · refine writeLoop_works as ⟨s, rd, .writeData msg.length (off' + (n + 1)), msg⟩ 0 has h0s
              ⟨rfl, ?_, rfl⟩ trivial
            omega
    · exact hworks.elim
    · exact hworks.elim

theorem pollReady_works {as : List IoWrite} {f : NoiseFramed σ} {tail : Bytes} (ha : .error ∉ as)
    (h0 : .upTo 0 ∉ as) (howes : f.writeState.Owes f.writeBuffer tail)
    (hworks : f.writeState.Works) :
    (f.pollReady as).2.1.writeState.Works ∧ ∀ e, (f.pollReady as).1 ≠ .ready (.error e) := by
  obtain ⟨s, rd, st, msg⟩ := f
  unfold NoiseFramed.pollReady
  cases st with
  | writeLen len buf off =>
    exact writeLoop_works as ⟨s, rd, .writeLen len buf off, msg⟩ off ha h0 howes trivial
  | ready => exact writeLoop_works as ⟨s, rd, .ready, msg⟩ 0 ha h0 howes trivial
  | writeData len off =>
    exact writeLoop_works as ⟨s, rd, .writeData len off, msg⟩ 0 ha h0 howes trivial
  | eof | encErr => exact hworks.elim

theorem pollWrite_ne_pending {a : IoWrite} (ha : a ≠ .pending) (buf : Bytes) :
    pollWrite buf a ≠ .pending := by
  rcases a with _ | _ | n
  · exact (ha rfl).elim
  · exact fun h => by cases h
  · exact fun h => by cases h

theorem le_length_of_pollWrite {buf : Bytes} {a : IoWrite} {n : ℕ}
    (h : pollWrite buf a = .ready (.ok n)) : n ≤ buf.length := by
  rcases a with _ | _ | k <;> cases h
  exact Nat.min_le_right _ _

/-- A writer that is pending, to an io that always answered, has written a byte with each answer. -/
theorem writeLoop_drains : ∀ (as : List IoWrite) (f : NoiseFramed σ) (off : ℕ), .pending ∉ as →
    (f.writeLoop off as).1 = .pending → as.length ≤ (f.writeLoop off as).2.2.length
  | as, ⟨s, rd, st, msg⟩, off, ha, hp => by
    rcases st with _ | ⟨len, buf, off₀⟩ | ⟨len, off'⟩ | _ | _
    · rcases as with _ | _ <;> cases hp
    · rcases as with _ | ⟨a, as⟩
      · exact Nat.zero_le _
      · obtain ⟨ha, has⟩ := not_or.1 (mt List.mem_cons.2 ha)
        unfold NoiseFramed.writeLoop at hp ⊢
        dsimp only at hp ⊢
        rcases hw : pollWrite (buf.drop off) a with _ | e | _ | n <;> rw [hw] at hp <;>
          dsimp only at hp ⊢
        · exact (pollWrite_ne_pending (Ne.symm ha) _ hw).elim
        · cases hp
        · cases hp
        · have hn := le_length_of_pollWrite hw
          rw [List.length_append, List.length_take, List.length_cons]
          split_ifs at hp ⊢ with h2
          · have ih := writeLoop_drains as _ _ has hp
            omega
          · have ih := writeLoop_drains as _ _ has hp
            omega
    · rcases as with _ | ⟨a, as⟩
      · exact Nat.zero_le _
      · obtain ⟨ha, has⟩ := not_or.1 (mt List.mem_cons.2 ha)
        unfold NoiseFramed.writeLoop at hp ⊢
        dsimp only at hp ⊢
        rcases hw : pollWrite ((msg.take len).drop off') a with _ | e | _ | n <;> rw [hw] at hp <;>
          dsimp only at hp ⊢
        · exact (pollWrite_ne_pending (Ne.symm ha) _ hw).elim
        · cases hp
        · cases hp
        · have hn := le_length_of_pollWrite hw
          rw [List.length_append, List.length_take, List.length_cons]
          split_ifs at hp ⊢ with h2
          · have ih := writeLoop_drains as _ _ has hp
            omega
          · have ih := writeLoop_drains as _ _ has hp
            omega
    · rcases as with _ | _ <;> cases hp
    · rcases as with _ | _ <;> cases hp

theorem pollReady_drains {as : List IoWrite} {f : NoiseFramed σ} (ha : .pending ∉ as)
    (hp : (f.pollReady as).1 = .pending) : as.length ≤ (f.pollReady as).2.2.length := by
  obtain ⟨s, rd, st, msg⟩ := f
  unfold NoiseFramed.pollReady at hp ⊢
  cases st with
  | writeLen len buf off => exact writeLoop_drains as ⟨s, rd, .writeLen len buf off, msg⟩ off ha hp
  | ready => exact writeLoop_drains as ⟨s, rd, .ready, msg⟩ 0 ha hp
  | writeData len off => exact writeLoop_drains as ⟨s, rd, .writeData len off, msg⟩ 0 ha hp
  | eof => exact writeLoop_drains as ⟨s, rd, .eof, msg⟩ 0 ha hp
  | encErr => exact writeLoop_drains as ⟨s, rd, .encErr, msg⟩ 0 ha hp

end Writing

end Nyumt.Noise
