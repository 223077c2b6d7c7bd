import Nyumt.Proofs.Transport
import Nyumt.ToySuite

/-!
# Who a handshake is with

The payload a party sends is the one that is read, behind a length or not, where the length is that
of a legacy handshake, which the reader has to allow and which no payload begins with
(`readPayload_writePayload`). An upgrade that ends with an identity key goes on from the session
that has read all the frames of the handshake, and in those frames heard a signature by that key of
the key that session has of the other end (`authenticated_run`).
-/

namespace Nyumt.Noise

open Borsh

variable {η κ : Type} {H : Suite η κ}

namespace Suite

/-- What a payload is written as reads as it, an empty one is nothing, and none begins with a zero,
which is no key of a field. -/
structure Codec (H : Suite η κ) : Prop where
  decode_encode : ∀ pb, H.decode (H.encode pb) = some pb
  encode_default : H.encode {} = []
  decode_zero : ∀ bytes, H.decode (0 :: bytes) = none

theorem Codec.encode_eq_nil (hH : H.Codec) {pb : NoiseHandshakePayload} :
    H.encode pb = [] ↔ pb = {} := by
  refine ⟨fun h => ?_, fun h => h ▸ hH.encode_default⟩
  have hpb := hH.decode_encode pb
  rw [h, ← hH.encode_default, hH.decode_encode] at hpb
  exact (Option.some.inj hpb).symm

theorem toBeBytes_of_lt {n : ℕ} (hn : n < 256) : toBeBytes n = [0, .ofNat n] := by
  have hdiv : n / 256 = 0 := by omega
  simp [toBeBytes, leBytes, hdiv, Nat.mod_eq_of_lt hn]

/-- A legacy payload is read where that is allowed and there is something in it. -/
theorem readPayload_writePayload (hH : H.Codec) (l l' : LegacyConfig) {pb : NoiseHandshakePayload}
    (hlen : l.sendLegacyHandshake → (H.encode pb).length < 256) :
    H.readPayload l' (H.writePayload l pb)
      = if l.sendLegacyHandshake → l'.recvLegacyHandshake ∧ pb ≠ {} then some pb else none := by
  unfold readPayload writePayload
  cases hsend : l.sendLegacyHandshake with
  | false => simp [hH.decode_encode]
  | true =>
    have hlen := hlen hsend
    have htake : fromBeBytes (toBeBytes (H.encode pb).length) = (H.encode pb).length :=
      lengths.decode_encode _ (by show _ < 65536; omega)
    have hzero : H.decode (toBeBytes (H.encode pb).length ++ H.encode pb) = none := by
      rw [toBeBytes_of_lt hlen]
      exact hH.decode_zero _
    have hpos : 0 < (H.encode pb).length ↔ pb ≠ {} := by
      rw [List.length_pos_iff, ne_eq, hH.encode_eq_nil]
    simp only [if_true, hzero, List.length_append, length_toBeBytes,
      List.take_left' (length_toBeBytes _), List.drop_left' (length_toBeBytes _), htake,
      hH.decode_encode, forall_const]
    exact if_congr (and_congr_right fun _ => by rw [← hpos]; omega) rfl rfl

theorem toySuite_codec : toySuite.Codec where
  decode_encode := decodePayload_encodePayload
  encode_default := rfl
  decode_zero _ := rfl

end Suite

/-- What is known of the other end by the signature of a payload, if it has one. -/
def State.signed (s : State η) (pb : NoiseHandshakePayload) : Option Bytes :=
  if pb.identitySig = [] then s.dhRemotePubkeySig else some pb.identitySig

theorem State.recv_cases {s s' : State η} {msg : Bytes} {p : Payload}
    (h : s.recv H msg p = .ok s') :
    msg = [] ∧ s' = s ∨ ∃ pb, H.readPayload s.legacy msg = some pb
      ∧ (pb.identityKey = [] ∧ s' = { s with dhRemotePubkeySig := s.signed pb }
        ∨ ∃ pk, H.fromProtobufEncoding pb.identityKey = some pk ∧ (∀ k ∈ s.idRemotePubkey, k = pk)
          ∧ s' = { s with idRemotePubkey := some pk, dhRemotePubkeySig := s.signed pb }) := by
  cases p with
  | empty =>
    unfold State.recv State.recvEmpty at h
    dsimp only at h
    split_ifs at h with hmsg
    cases h
    exact .inl ⟨hmsg, rfl⟩
  | identity =>
    unfold State.recv State.recvIdentity at h
    dsimp only at h
    rcases hpb : H.readPayload s.legacy msg with _ | pb <;> rw [hpb] at h <;> dsimp only at h
    · cases h
    · refine .inr ⟨pb, rfl, ?_⟩
      have hsigned : s.signed pb
        = if pb.identitySig = [] then s.dhRemotePubkeySig else some pb.identitySig := rfl
      rw [← hsigned] at h
      split_ifs at h with hkey
      · cases h
        exact .inl ⟨hkey, rfl⟩
      · rcases hpk : H.fromProtobufEncoding pb.identityKey with _ | pk <;> rw [hpk] at h <;>
          dsimp only at h
        · cases h
        · split_ifs at h with hany
          cases h
          refine .inr ⟨pk, rfl, fun k hk => ?_, rfl⟩
          by_contra hne
          exact hany ((Option.any_eq_true _ _).2 ⟨k, hk, decide_eq_true hne⟩)

/-- A message that is received changes what is known of the other end. -/
theorem State.recv_frame {s s' : State η} {msg : Bytes} {p : Payload}
    (h : s.recv H msg p = .ok s') :
    s' = { s with
      dhRemotePubkeySig := s'.dhRemotePubkeySig
      idRemotePubkey := s'.idRemotePubkey } := by
  obtain ⟨-, rfl⟩ | ⟨pb, -, ⟨-, rfl⟩ | ⟨pk, -, -, rfl⟩⟩ := State.recv_cases h
  · rfl
  · rfl
  · rfl

namespace Handshake

variable (H)

/-- The bytes that a poll takes. -/
def taken (inc : Incoming) (h : Handshake η) (a : Replies) : Bytes :=
  (h.poll H inc a).elim [] fun r => inc.bytes.take (inc.bytes.length - r.2.1.bytes.length)

/-- What a poll of an end whose reader is live may come to, by the bytes it takes. -/
inductive Moves (h : Handshake η) (a : Replies) : Bytes → Upgrade η κ → Prop
  | failed (taken : Bytes) (e : NoiseError) : Moves h a taken (.failed e)
  | stays {io : NoiseFramed η} {p : Payload} {ops : List Op}
      (hs : io.session = h.state.io.session) (hread : io.readState = h.state.io.readState)
      (hops : h.ops = .send p :: ops) :
      Moves h a [] (.handshake { h with state := { h.state with io := io } })
  | wrote {io : NoiseFramed η} {p : Payload} {c : Bytes} {ops : List Op}
      (hw : H.session.writeMessage h.state.io.session (h.state.message H p)
        ((h.state.message H p).length + extraEncryptSpace) = some (c, io.session))
      (hread : io.readState = h.state.io.readState) (hops : h.ops = .send p :: ops)
      (hflushing : h.flushing = false) :
      Moves h a [] (.handshake { h with state := { h.state with io := io }, flushing := true })
  | flushed {io : NoiseFramed η} {p : Payload} {ops : List Op}
      (hs : io.session = h.state.io.session) (hread : io.readState = h.state.io.readState)
      (hops : h.ops = .send p :: ops) (hflushing : h.flushing) :
      Moves h a [] (.handshake ⟨h.config, { h.state with io := io }, ops, false⟩)
  | waits {io : NoiseFramed η} {p : Payload} {taken : Bytes} {ops : List Op} {k : ℕ}
      (hs : io.session = h.state.io.session) (hlive : io.readState.Live)
      (hops : h.ops = .recv p :: ops)
      (hframes : h.state.io.readState.part ++ taken
        = lengths.frames (List.replicate k []) ++ io.readState.part) :
      Moves h a taken (.handshake { h with state := { h.state with io := io } })
  | received {io : NoiseFramed η} {p : Payload} {taken c msg : Bytes} {ops : List Op} {k : ℕ}
      {state : State η} (hlt : c.length < 65536) (hne : c ≠ [])
      (hr : H.session.readMessage h.state.io.session c = some (msg, io.session))
      (hready : io.readState = .ready) (hops : h.ops = .recv p :: ops)
      (hframes : h.state.io.readState.part ++ taken
        = lengths.frames (List.replicate k []) ++ lengths.frame c)
      (hs : State.recv H { h.state with io := io } msg p = .ok state) :
      Moves h a taken (.handshake ⟨h.config, state, ops, h.flushing⟩)
  | upgraded {remote : RemoteIdentity} {io : NoiseOutput (TransportState κ)} (hops : h.ops = [])
      (hf : h.state.finish H = .ok (remote, io)) (ha : h.config.andThen a.known remote = .ok ()) :
      Moves h a [] (.upgraded remote io)

variable {H}

theorem taken_eq {inc inc' : Incoming} {h : Handshake η} {a : Replies} {u : Upgrade η κ}
    {out taken : Bytes} (hp : h.poll H inc a = some (u, inc', out))
    (hbytes : inc.bytes = taken ++ inc'.bytes) : h.taken H inc a = taken := by
  rw [Handshake.taken, hp, Option.elim_some, hbytes, List.length_append, Nat.add_sub_cancel,
    List.take_left]

/-- A poll that writes leaves the reader as it is. -/
theorem moves_send {inc inc' : Incoming} {h : Handshake η} {a : Replies} {u : Upgrade η κ}
    {out : Bytes} {p : Payload} {ops : List Op} (hops : h.ops = .send p :: ops)
    (hp : h.poll H inc a = some (u, inc', out)) : inc' = inc ∧ h.Moves H a [] u := by
  obtain ⟨config, state, _, flushing⟩ := h
  obtain rfl := hops
  have hframe := (pollReady_frame a.write state.io).1
  unfold poll at hp
  dsimp only at hp
  split_ifs at hp with hflushing
  · have hsame : (state.io.pollFlush a.write a.flush).2.1.session = state.io.session
        ∧ (state.io.pollFlush a.write a.flush).2.1.readState = state.io.readState := by
      unfold NoiseFramed.pollFlush
      rcases hr : state.io.pollReady a.write with ⟨_ | _ | _, io, out⟩ <;> rw [hr] at hframe <;>
        exact ⟨(congrArg NoiseFramed.session hframe :), (congrArg NoiseFramed.readState hframe :)⟩
    rcases hr : state.io.pollFlush a.write a.flush with ⟨_ | e | _, io, out⟩ <;>
      rw [hr] at hp hsame <;> cases hp
    · exact ⟨rfl, .stays hsame.1 hsame.2 rfl⟩
    · exact ⟨rfl, .failed _ _⟩
    · exact ⟨rfl, .flushed hsame.1 hsame.2 rfl hflushing⟩
  · have hsession : (state.io.pollReady a.write).2.1.session = state.io.session :=
      (congrArg NoiseFramed.session hframe :)
    have hread : (state.io.pollReady a.write).2.1.readState = state.io.readState :=
      (congrArg NoiseFramed.readState hframe :)
    rcases hr : state.io.pollReady a.write with ⟨_ | e | _, io, out⟩ <;>
      rw [hr] at hp hsession hread <;> dsimp only at hp hsession hread
    · cases hp
      exact ⟨rfl, .stays hsession hread rfl⟩
    · cases hp
      exact ⟨rfl, .failed _ _⟩
    · unfold NoiseFramed.startSend at hp
      split_ifs at hp with hmay
      rcases hw : H.session.writeMessage io.session (state.message H p)
        ((state.message H p).length + extraEncryptSpace) with _ | ⟨c, session⟩ <;>
        rw [hw] at hp <;> cases hp
      · exact ⟨rfl, .failed _ _⟩
      · rw [hsession] at hw
        exact ⟨rfl, .wrote hw hread rfl (Bool.eq_false_iff.2 hflushing)⟩

theorem moves_recv {inc inc' : Incoming} {h : Handshake η} {a : Replies} {u : Upgrade η κ}
    {out : Bytes} {p : Payload} {ops : List Op} (hops : h.ops = .recv p :: ops)
    (hlive : h.state.io.readState.Live) (hp : h.poll H inc a = some (u, inc', out)) :
    ∃ taken, inc.bytes = taken ++ inc'.bytes ∧ h.Moves H a taken u := by
  obtain ⟨config, state, _, flushing⟩ := h
  obtain rfl := hops
  unfold poll at hp
  dsimp only at hp
  obtain ⟨taken, hbytes, -, -⟩ := (pollNext_takes (S := H.session) a.read inc state.io).bytes
  have hpolls := pollNext_polls_until (S := H.session) a.read inc (f := state.io)
  rcases hr : state.io.pollNext H.session inc a.read with ⟨_ | _ | e | msg, inc'', io⟩ <;>
    rw [hr] at hp hbytes hpolls <;> dsimp only at hp hbytes hpolls
  · cases hp
    generalize hsession : io.session = s at hpolls
    rcases hpolls (fun h => by cases h) hlive with ⟨hst, hframes⟩
    rw [hbytes, ← List.append_assoc, ← List.append_assoc] at hframes
    exact ⟨taken, hbytes, .waits hsession hst rfl (List.append_cancel_right hframes)⟩
  · cases hp
    exact ⟨taken, hbytes, .failed _ _⟩
  · cases hp
    exact ⟨taken, hbytes, .failed _ _⟩
  · rcases hs : State.recv H { state with io := io } msg p with e | state' <;> rw [hs] at hp <;>
      cases hp
    · exact ⟨taken, hbytes, .failed _ _⟩
    · generalize hready : io.readState = st at hpolls
      rcases hpolls (fun h => by cases h) hlive with _ | ⟨hne, hlt, hread, hframes⟩
      rw [hbytes, ← List.append_assoc, ← List.append_assoc] at hframes
      exact ⟨taken, hbytes,
        .received hlt hne hread hready rfl (List.append_cancel_right hframes) hs⟩

theorem moves {inc inc' : Incoming} {h : Handshake η} {a : Replies} {u : Upgrade η κ} {out : Bytes}
    (hlive : h.state.io.readState.Live) (hp : h.poll H inc a = some (u, inc', out)) :
    h.Moves H a (h.taken H inc a) u := by
  rcases hops : h.ops with _ | ⟨p | p, ops⟩
  · have hp' := hp
    obtain ⟨config, state, _, flushing⟩ := h
    obtain rfl := hops
    unfold poll at hp'
    dsimp only at hp'
    rcases hf : state.finish H with e | ⟨remote, io⟩ <;> rw [hf] at hp' <;> dsimp only at hp'
    · cases hp'
      exact .failed _ _
    · rcases ha : config.andThen a.known remote with e | _ <;> rw [ha] at hp' <;> cases hp'
      · exact .failed _ _
      · rw [taken_eq hp (List.nil_append _).symm]
        exact .upgraded rfl hf ha
  · obtain ⟨rfl, hmoves⟩ := moves_send hops hp
    rwa [taken_eq hp (List.nil_append _).symm]
  · obtain ⟨taken, hbytes, hmoves⟩ := moves_recv hops hlive hp
    rwa [taken_eq hp hbytes]

end Handshake

namespace Handshake

/-- The awaits whose messages are still to be written or read. -/
def todo (h : Handshake η) : List Op := if h.flushing then h.ops.tail else h.ops

/-- The reader has read of a frame only at an await for a message. -/
def Awaits (h : Handshake η) : Prop :=
  match h.ops with
  | .recv _ :: _ => h.flushing = false ∧ h.state.io.readState.Live
  | _ => h.state.io.readState = .ready

theorem Awaits.live {h : Handshake η} (ha : h.Awaits) : h.state.io.readState.Live := by
  unfold Awaits at ha
  split at ha
  · exact ha.2
  · rw [ha]
    trivial

theorem awaits_of_ready {h : Handshake η} (hflushing : h.flushing = false)
    (hready : h.state.io.readState = .ready) : h.Awaits := by
  unfold Awaits
  split
  · rw [hready]
    exact ⟨hflushing, trivial⟩
  · exact hready

end Handshake

namespace Upgrading

open Relation Run

variable (H) (C : CipherState κ)

section Step

variable {H C} {s s' : Upgrading η κ} {e : Bool} {u : Upgrade η κ} {inc : Incoming} {out : Bytes}

@[simp] theorem put_ends : (s.put e u inc out).ends e = u := Function.update_self _ _ _

theorem of_step_poll {a : Replies} (hs : s.step H C (.poll e a) = some s') :
    ∃ h u inc out, s.ends e = .handshake h ∧ h.poll H (s.incoming e) a = some (u, inc, out)
      ∧ s' = s.put e u inc out := by
  unfold step at hs
  dsimp only at hs
  rcases hu : s.ends e with h | err | ⟨remote, io⟩ <;> rw [hu] at hs
  · obtain ⟨⟨u, inc, out⟩, hp, hs⟩ := Option.bind_eq_some_iff.1 hs
    cases hs
    exact ⟨h, u, inc, out, rfl, hp, rfl⟩
  · cases hs
  · cases hs

theorem of_step_transport {a : Connection.Act} (hs : s.step H C (.transport a) = some s') :
    ∃ remote io c, s.ends a.by = .upgraded remote io
      ∧ Connection.step C { ends := fun _ => io, incoming := s.incoming } a = some c
      ∧ s' = {
        ends := Function.update s.ends a.by (.upgraded remote (c.ends a.by))
        incoming := c.incoming } := by
  unfold step at hs
  dsimp only at hs
  rcases hu : s.ends a.by with h | err | ⟨remote, io⟩ <;> rw [hu] at hs
  · cases hs
  · cases hs
  · obtain ⟨c, hc, hs⟩ := Option.bind_eq_some_iff.1 hs
    cases hs
    exact ⟨remote, io, c, rfl, hc, rfl⟩

end Step

/-- A poll by one of the ends, or other bytes that the network has for one of them. -/
def attacked (s : Upgrading η κ) : Act ⊕ Bool × Incoming → Option (Upgrading η κ)
  | .inl a => s.step H C a
  | .inr (e, inc) => some { s with incoming := Function.update s.incoming e inc }

/-- The bytes that end `e` takes in its handshake. -/
def taken (e : Bool) (s : Upgrading η κ) : Act ⊕ Bool × Incoming → Bytes
  | .inl (.poll e' a) =>
    match s.ends e with
    | .handshake h => if e' = e then h.taken H (s.incoming e) a else []
    | _ => []
  | _ => []

def allTaken (e : Bool) (s : Upgrading η κ) (as : List (Act ⊕ Bool × Incoming)) : Bytes :=
  (observe (attacked H C) (taken H e) s as).flatten

/-- The session of an end that started so after these awaits, with the frames it has read, which are
passed over if they are empty, and the messages they gave. -/
inductive Hears (start : State η) : List Op → List Bytes → List Bytes → η → Prop
  | start : Hears start [] [] [] start.io.session
  | send {ops : List Op} {fs msgs : List Bytes} {p : Payload} {c : Bytes} {t t' : η}
      (h : Hears start ops fs msgs t)
      (hw : H.session.writeMessage t (start.message H p)
        ((start.message H p).length + extraEncryptSpace) = some (c, t')) :
      Hears start (ops ++ [.send p]) fs msgs t'
  | skip {ops : List Op} {fs msgs : List Bytes} {t : η} (h : Hears start ops fs msgs t) :
      Hears start ops (fs ++ [[]]) msgs t
  | recv {ops : List Op} {fs msgs : List Bytes} {p : Payload} {c msg : Bytes} {t t' : η}
      (h : Hears start ops fs msgs t) (hne : c ≠ [])
      (hr : H.session.readMessage t c = some (msg, t')) :
      Hears start (ops ++ [.recv p]) (fs ++ [c]) (msgs ++ [msg]) t'

/-- A payload that is among these messages. -/
def Said (legacy : LegacyConfig) (msgs : List Bytes) (pb : NoiseHandshakePayload) : Prop :=
  ∃ msg ∈ msgs, H.readPayload legacy msg = some pb

/-- A key the other end is known by, or said to be its own. -/
def Named (start : State η) (msgs : List Bytes) (pk : IdentityKey) : Prop :=
  start.idRemotePubkey = some pk
    ∨ start.idRemotePubkey = none
      ∧ ∃ pb, Said H start.legacy msgs pb ∧ H.fromProtobufEncoding pb.identityKey = some pk

/-- What a session shows of the other end, when these messages were said in it. -/
def Shows (start : State η) (msgs : List Bytes) (t : η) : RemoteIdentity → Prop
  | .unknown => H.getRemoteStatic t = none
  | .staticDhKey dhPk => H.getRemoteStatic t = some dhPk.toList
  | .identityKey pk => Named H start msgs pk ∧ ∃ dhPk : Array32,
    H.getRemoteStatic t = some dhPk.toList ∧ ∃ pb, Said H start.legacy msgs pb
      ∧ H.verify pk (Suite.staticKeyDomain ++ dhPk.toList) pb.identitySig

/-- The bytes are whole frames, and the session that has read them, at the end of the handshake,
shows the other end to be this one and is the one that goes on. -/
def Authentic (start : State η) (ops : List Op) (bytes : Bytes) (remote : RemoteIdentity)
    (now : TransportState κ) : Prop :=
  ∃ fs msgs t tr, bytes = lengths.frames fs ∧ lengths.Fits fs ∧ Hears H start ops fs msgs t
    ∧ Shows H start msgs t remote ∧ H.intoTransportMode t = some tr
    ∧ ReflTransGen C.session.Next tr now

variable {H C} {start : State η} {msgs : List Bytes}

theorem Hears.skips {ops : List Op} {fs : List Bytes} {t : η} (h : Hears H start ops fs msgs t) :
    ∀ k, Hears H start ops (fs ++ List.replicate k []) msgs t
  | 0 => by
    rw [List.replicate_zero, List.append_nil]
    exact h
  | k + 1 => by
    rw [List.replicate_succ', ← List.append_assoc]
    exact (h.skips k).skip

theorem Said.append {legacy : LegacyConfig} {pb : NoiseHandshakePayload} (h : Said H legacy msgs pb)
    (msgs' : List Bytes) : Said H legacy (msgs ++ msgs') pb := by
  obtain ⟨msg, hmsg, hpb⟩ := h
  exact ⟨msg, List.mem_append_left _ hmsg, hpb⟩

theorem Named.append {pk : IdentityKey} (h : Named H start msgs pk) (msgs' : List Bytes) :
    Named H start (msgs ++ msgs') pk :=
  h.imp_right fun ⟨hnone, pb, hpb, hpk⟩ => ⟨hnone, pb, hpb.append msgs', hpk⟩

/-- What a state has of the other end was said by it, but for the key it was known by. -/
structure Told (H : Suite η κ) (start : State η) (msgs : List Bytes) (s : State η) : Prop where
  legacy : s.legacy = start.legacy
  message : s.message H = start.message H
  sig : ∀ sig ∈ s.dhRemotePubkeySig, ∃ pb, Said H start.legacy msgs pb ∧ pb.identitySig = sig
  named : ∀ pk ∈ s.idRemotePubkey, Named H start msgs pk
  known : ∀ pk ∈ start.idRemotePubkey, s.idRemotePubkey = some pk

theorem Told.io {s : State η} (h : Told H start msgs s) (io : NoiseFramed η) :
    Told H start msgs { s with io := io } :=
  ⟨h.legacy, h.message, h.sig, h.named, h.known⟩

theorem Told.append {s : State η} (h : Told H start msgs s) (msgs' : List Bytes) :
    Told H start (msgs ++ msgs') s := {
  h with
  sig := fun sig hsig => (h.sig sig hsig).imp fun _ hpb => ⟨hpb.1.append _, hpb.2⟩
  named := fun pk hpk => (h.named pk hpk).append _ }

theorem Told.recv {s s' : State η} {msg : Bytes} {p : Payload} (h : Told H start msgs s)
    (hs : s.recv H msg p = .ok s') : Told H start (msgs ++ [msg]) s' := by
  have happend := h.append [msg]
  obtain ⟨-, rfl⟩ | ⟨pb, hpb, hs⟩ := State.recv_cases hs
  · exact happend
  have hsaid : Said H start.legacy (msgs ++ [msg]) pb := ⟨msg, by simp, h.legacy ▸ hpb⟩
  have hsig : ∀ sig ∈ s.signed pb,
      ∃ pb, Said H start.legacy (msgs ++ [msg]) pb ∧ pb.identitySig = sig := by
    intro sig hmem
    unfold State.signed at hmem
    split_ifs at hmem
    · exact happend.sig sig hmem
    · exact ⟨pb, hsaid, Option.some.inj hmem⟩
  obtain ⟨-, rfl⟩ | ⟨pk, hpk, hknown, rfl⟩ := hs
  · exact { happend with sig := hsig }
  · refine ⟨h.legacy, h.message, hsig, fun k hk => ?_, fun k hk => ?_⟩
    · obtain rfl : pk = k := Option.some.inj hk
      rcases hstart : start.idRemotePubkey with _ | k
      · exact .inr ⟨hstart, pb, hsaid, hpk⟩
      · obtain rfl := hknown k (h.known k hstart)
        exact .inl hstart
    · exact congrArg some (hknown k (h.known k hk)).symm

theorem Told.shows {s : State η} {remote : RemoteIdentity} {io : NoiseOutput (TransportState κ)}
    (hf : s.finish H = .ok (remote, io)) (h : Told H start msgs s) :
    H.intoTransportMode s.io.session = some io.io.session ∧ io.Gathers
      ∧ Shows H start msgs s.io.session remote := by
  unfold State.finish Suite.intoTransport at hf
  dsimp only at hf
  rcases hmode : H.intoTransportMode s.io.session with _ | t <;> rw [hmode] at hf
  · rcases hdh : H.getRemoteStatic s.io.session with _ | k <;> rw [hdh] at hf <;> dsimp only at hf
    · cases hf
    · rcases hk : Suite.publicFromBytes k with e | dhPk <;> rw [hk] at hf <;> cases hf
  · rcases hdh : H.getRemoteStatic s.io.session with _ | k <;> rw [hdh] at hf <;> dsimp only at hf
    · cases hf
      exact ⟨rfl, ⟨.inl rfl, Nat.zero_le _⟩, hdh⟩
    · rcases hk : Suite.publicFromBytes k with e | dhPk <;> rw [hk] at hf <;> dsimp only at hf
      · cases hf
      · obtain rfl : dhPk.toList = k := by
          unfold Suite.publicFromBytes at hk
          split_ifs at hk
          cases hk
          rfl
        rcases hid : s.idRemotePubkey with _ | pk <;> rw [hid] at hf <;> dsimp only at hf
        · cases hf
          exact ⟨rfl, ⟨.inl rfl, Nat.zero_le _⟩, hdh⟩
        · split_ifs at hf with hv
          cases hf
          obtain ⟨sig, hsig, hverify⟩ := (Option.any_eq_true _ _).1 hv
          obtain ⟨pb, hpb, rfl⟩ := h.sig sig hsig
          exact ⟨rfl, ⟨.inl rfl, Nat.zero_le _⟩, h.named pk hid, dhPk, hdh, pb, hpb, hverify⟩

/-- What an end that was started so has come to, with these bytes taken. -/
def Heard (H : Suite η κ) (C : CipherState κ) (config : Config) (start : State η) (ops : List Op)
    (polls : Set Replies) (bytes : Bytes) : Upgrade η κ → Prop
  | .handshake h => h.config = config ∧ h.Awaits ∧ ∃ done fs msgs, ops = done ++ h.todo
    ∧ bytes = lengths.frames fs ++ h.state.io.readState.part ∧ lengths.Fits fs
    ∧ Told H start msgs h.state ∧ Hears H start done fs msgs h.state.io.session
  | .failed _ => True
  | .upgraded remote io => (∃ a ∈ polls, config.andThen a.known remote = .ok ()) ∧ io.Gathers
    ∧ Authentic H C start ops bytes remote io.io.session

section Authentic

variable {config : Config} {ops : List Op} {s s' : Upgrading η κ} {e : Bool} {polls : Set Replies}
  {bytes : Bytes}

theorem heard_poll {h : Handshake η} {a : Replies} {taken : Bytes} {u : Upgrade η κ}
    (hm : h.Moves H a taken u) (ha : a ∈ polls)
    (hh : Heard H C config start ops polls bytes (.handshake h)) :
    Heard H C config start ops polls (bytes ++ taken) u := by
  obtain ⟨_, state, left, flushing⟩ := h
  obtain ⟨rfl, hawaits, done, fs, msgs, rfl, rfl, hfits, htold, hhears⟩ := hh
  cases hm with
  | failed taken e => trivial
  | @stays io p ops hs hread hops =>
    obtain rfl : left = .send p :: ops := hops
    have hready : io.readState = .ready := hread.trans hawaits
    rw [List.append_nil, ← hread]
    exact ⟨rfl, hready, done, fs, msgs, rfl, rfl, hfits, htold.io io, hs ▸ hhears⟩
  | @wrote io p c ops hw hread hops hflushing =>
    obtain rfl : left = .send p :: ops := hops
    obtain rfl : flushing = false := hflushing
    have hready : io.readState = .ready := hread.trans hawaits
    rw [htold.message] at hw
    rw [List.append_nil, ← hread]
    exact ⟨rfl, hready, done ++ [.send p], fs, msgs, by simp [Handshake.todo], rfl, hfits,
      htold.io io, hhears.send hw⟩
  | @flushed io p ops hs hread hops hflushing =>
    obtain rfl : left = .send p :: ops := hops
    obtain rfl : flushing = true := hflushing
    have hready : io.readState = .ready := hread.trans hawaits
    rw [List.append_nil, ← hread]
    exact ⟨rfl, Handshake.awaits_of_ready rfl hready, done, fs, msgs, rfl, rfl, hfits, htold.io io,
      hs ▸ hhears⟩
  | @waits io p taken ops k hs hlive hops hframes =>
    obtain rfl : left = .recv p :: ops := hops
    obtain ⟨hflushing, -⟩ : flushing = false ∧ state.io.readState.Live := hawaits
    refine ⟨rfl, ⟨hflushing, hlive⟩, done, fs ++ List.replicate k [], msgs, rfl, ?_,
      Framing.fits_append.2 ⟨hfits, fits_replicate k⟩, htold.io io, hs ▸ hhears.skips k⟩
    rw [Framing.frames_append, List.append_assoc, List.append_assoc, hframes]
  | @received io p taken c msg ops k state' hlt hne hr hready hops hframes hs =>
    obtain rfl : left = .recv p :: ops := hops
    obtain ⟨rfl, -⟩ : flushing = false ∧ state.io.readState.Live := hawaits
    have hio : state'.io = io := congrArg State.io (State.recv_frame hs)
    have hfits' : lengths.Fits (List.replicate k [] ++ [c]) :=
      Framing.fits_append.2 ⟨fits_replicate k, Framing.fits_cons.2 ⟨hlt, .nil⟩⟩
    refine ⟨rfl, Handshake.awaits_of_ready rfl (hio ▸ hready), done ++ [.recv p],
      fs ++ (List.replicate k [] ++ [c]), msgs ++ [msg], by simp [Handshake.todo], ?_,
      Framing.fits_append.2 ⟨hfits, hfits'⟩, (htold.io io).recv hs, ?_⟩
    · rw [hio, hready, List.append_assoc, hframes]
      simp [Framing.frame, ReadState.part]
    · rw [hio, ← List.append_assoc]
      exact (hhears.skips k).recv hne hr
  | @upgraded remote io hops hf hok =>
    obtain rfl : left = [] := hops
    have hready : state.io.readState = .ready := hawaits
    have htodo : ∀ c, Handshake.todo ⟨c, state, [], flushing⟩ = [] := fun c => by
      simp [Handshake.todo]
    obtain ⟨hmode, hgathers, hshows⟩ := htold.shows hf
    rw [hready, htodo]
    refine ⟨⟨a, ha, hok⟩, hgathers, fs, msgs, _, _, ?_, hfits, ?_, hshows, hmode, .refl⟩
    · simp [ReadState.part]
    · rwa [List.append_nil]

theorem heard_transport {c c' : Connection κ} {remote : RemoteIdentity} {a : Connection.Act}
    (hc : ∀ e, c.ends e = c.ends a.by) (hs : c.step C a = some c')
    (hh : Heard H C config start ops polls bytes (.upgraded remote (c.ends a.by))) :
    Heard H C config start ops polls bytes (.upgraded remote (c'.ends a.by)) := by
  obtain ⟨hok, hg, fs, msgs, t, tr, hbytes, hfits, hhears, hshows, hmode, hreach⟩ := hh
  have hgathers : ∀ e, (c.ends e).Gathers := fun e => hc e ▸ hg
  exact ⟨hok, Connection.gathers_step hgathers hs _, fs, msgs, t, tr, hbytes, hfits, hhears, hshows,
    hmode, hreach.trans (Connection.session_step hgathers hs)⟩

theorem heard_step_poll {e' : Bool} {a : Replies} (ha : e' = e → a ∈ polls)
    (hs : s.step H C (.poll e' a) = some s')
    (hh : Heard H C config start ops polls bytes (s.ends e)) :
    Heard H C config start ops polls (bytes ++ s.taken H e (.inl (.poll e' a))) (s'.ends e) := by
  obtain ⟨h, u, inc, out, hu, hp, rfl⟩ := of_step_poll hs
  by_cases he : e' = e
  · subst he
    rw [hu] at hh
    have htaken : s.taken H e' (.inl (.poll e' a)) = h.taken H (s.incoming e') a := by
      unfold taken
      rw [hu]
      exact if_pos rfl
    rw [htaken, put_ends]
    exact heard_poll (Handshake.moves hh.2.1.live hp) (ha rfl) hh
  · have htaken : s.taken H e (.inl (.poll e' a)) = [] := by
      unfold taken
      rcases s.ends e with _ | _ | _
      · exact if_neg he
      · rfl
      · rfl
    have hsame : (s.put e' u inc out).ends e = s.ends e := Function.update_of_ne (Ne.symm he) _ _
    rwa [htaken, hsame, List.append_nil]

theorem heard_step_transport {a : Connection.Act} (hs : s.step H C (.transport a) = some s')
    (hh : Heard H C config start ops polls bytes (s.ends e)) :
    Heard H C config start ops polls bytes (s'.ends e) := by
  obtain ⟨remote, io, c, hu, hc, rfl⟩ := of_step_transport hs
  by_cases he : e = a.by
  · subst he
    rw [hu] at hh
    dsimp only
    rw [Function.update_self]
    exact heard_transport (fun _ => rfl) hc hh
  · dsimp only
    rwa [Function.update_of_ne he]

theorem heard_step {a : Act ⊕ Bool × Incoming} (ha : ∀ r, a = .inl (.poll e r) → r ∈ polls)
    (hs : s.attacked H C a = some s')
    (hh : Heard H C config start ops polls bytes (s.ends e)) :
    Heard H C config start ops polls (bytes ++ s.taken H e a) (s'.ends e) := by
  rcases a with (⟨e', r⟩ | a) | ⟨e', inc⟩
  · exact heard_step_poll (fun he => ha r (by rw [he])) hs hh
  · have hnil : s.taken H e (.inl (.transport a)) = [] := rfl
    rw [hnil, List.append_nil]
    exact heard_step_transport hs hh
  · cases hs
    have hnil : s.taken H e (.inr (e', inc)) = [] := rfl
    rwa [hnil, List.append_nil]

/-- Whatever the network brings, an end that is upgraded has taken whole frames in its handshake,
and goes on from the session that has read them: with an identity key that the end knew, or that it
heard named there, and heard a signature by it of the other end's key in that session; and with what
its config lets through. -/
theorem authenticated_run {session : η} {identity : KeypairIdentity} {x : IdentityExchange}
    {legacy : LegacyConfig} {remote : RemoteIdentity} {io : NoiseOutput (TransportState κ)}
    {as : List (Act ⊕ Bool × Incoming)}
    (hnew : State.new (.ok session) identity x legacy = .ok start)
    (hstart : s.ends e = .handshake { config := config, state := start, ops := ops })
    (h : Run.run (attacked H C) s as = some s') (hup : s'.ends e = .upgraded remote io) :
    (∃ a, .inl (.poll e a) ∈ as ∧ config.andThen a.known remote = .ok ())
      ∧ Authentic H C start ops (allTaken H C e s as) remote io.io.session := by
  have hinit : Heard H C config start ops {a | .inl (.poll e a) ∈ as} [] (s.ends e) := by
    rw [hstart]
    cases hnew
    refine ⟨rfl, Handshake.awaits_of_ready rfl rfl, [], [], [], rfl, rfl, .nil, ?_, .start⟩
    exact ⟨rfl, rfl, fun sig hsig => (by cases hsig), fun pk hpk => .inl hpk, fun pk hpk => hpk⟩
  have hok : Along (attacked H C)
      (fun _ a => ∀ r, a = .inl (.poll e r) → .inl (.poll e r) ∈ as) s as :=
    along_of_forall fun a ha r hr => hr ▸ ha
  have hrun := observe_induction (taken H e)
    (I := fun u os => Heard H C config start ops {a | .inl (.poll e a) ∈ as} os.flatten (u.ends e))
    (fun u a u' os ha hs hi => by
      rw [List.flatten_append, List.flatten_singleton]
      exact heard_step ha hs hi) [] hok h hinit
  rw [hup] at hrun
  exact ⟨hrun.1, hrun.2.2⟩

/-- Who an end that is upgraded is with. -/
def remote? : Upgrade η κ → Option RemoteIdentity
  | .upgraded remote _ => some remote
  | _ => none

theorem of_remote? {u : Upgrade η κ} {remote : RemoteIdentity} (h : remote? u = some remote) :
    ∃ io, u = .upgraded remote io := by
  rcases u with _ | _ | ⟨remote', io⟩ <;> cases h
  exact ⟨io, rfl⟩

theorem authenticated_run_toyUpgrade :
    let as : List (Act ⊕ Bool × Incoming) := toyUpgrade.map .inl
    let start : State ToySession := {
      io := { session := ⟨true, toyXX, toyDh true, none⟩ }
      identity := toyIdentity true
      idRemotePubkey := none
      sendIdentity := true
      legacy := {} }
    ∃ io : NoiseOutput (TransportState ℕ), Authentic toySuite tagging start rt15Initiator
      (allTaken toySuite tagging true toyEnds as) (.identityKey (toyIdentity false).publicKey)
      io.io.session := by
  intro as start
  obtain ⟨s, h, hup⟩ := exists_of_any (o := run (attacked toySuite tagging) toyEnds as)
    (p := fun s => remote? (s.ends true) = some (.identityKey (toyIdentity false).publicKey))
    (by decide +kernel)
  obtain ⟨io, hio⟩ := of_remote? hup
  have hnew : State.new (.ok start.io.session) (toyIdentity true) .mutual {} = .ok start := rfl
  exact ⟨io, (authenticated_run hnew rfl h hio).2⟩

end Authentic

end Upgrading

end Nyumt.Noise
