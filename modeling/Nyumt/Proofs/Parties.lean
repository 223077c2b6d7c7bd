import Nyumt.Proofs.Handshake

/-!
# Ends that mean well

What the two ends of a handshake start with when neither is an attacker (`Honest`): sessions that
read one another's messages in the order of the pattern, and each end's signature of its own key.
An end that has taken the payload of such another one knows it (`Knows.recv`, `Knows.finish`).
-/

namespace Nyumt.Noise

open Borsh Run

variable {η κ : Type}

/-- The messages of a pattern: which end sends it, the initiator or not, and what for. -/
abbrev Script := List (Bool × Payload)

def rt1 : Script := [(true, .identity), (false, .identity)]

def rt15 : Script := [(true, .empty), (false, .identity), (true, .identity)]

namespace Script

/-- What a pattern is for one of its ends. -/
def ops (e : Bool) (script : Script) : List Op :=
  script.map fun m => if m.1 = e then .send m.2 else .recv m.2

example : rt1.ops true = rt1Initiator ∧ rt1.ops false = rt1Responder := ⟨rfl, rfl⟩

example : rt15.ops true = rt15Initiator ∧ rt15.ops false = rt15Responder := ⟨rfl, rfl⟩

@[simp] theorem ops_send (e : Bool) (p : Payload) (r : Script) :
    ops e ((e, p) :: r) = .send p :: ops e r := by simp [ops]

@[simp] theorem ops_recv (e : Bool) (p : Payload) (r : Script) :
    ops e ((!e, p) :: r) = .recv p :: ops e r := by simp [ops]

/-- No end sends twice in a row. -/
def Alternates : Script → Prop
  | (w, _) :: (w', p) :: script => w ≠ w' ∧ Alternates ((w', p) :: script)
  | [_] | [] => True

end Script

/-- What an end starts with. -/
structure Party (η : Type) where
  config : Config
  session : η
  identity : KeypairIdentity
  exchange : IdentityExchange
  legacy : LegacyConfig

namespace Party

variable (H : Suite η κ) (p : Party η)

def state : State η where
  io := { session := p.session }
  identity := p.identity
  idRemotePubkey := p.exchange.remote
  sendIdentity := p.exchange.sends
  legacy := p.legacy

/-- The payload it identifies itself with. -/
def payload : NoiseHandshakePayload where
  identityKey := if p.exchange.sends then H.toProtobufEncoding p.identity.publicKey else []
  identitySig := p.identity.signature.getD []

end Party

namespace Upgrading

def init (party : Bool → Party η) (script : Script) : Upgrading η κ where
  ends e := .start (party e).config (script.ops e) (.ok (party e).session) (party e).identity
    (party e).exchange (party e).legacy

section Honest

variable (H : Suite η κ) (dh : Bool → Array32) (key : Bool → κ)

/-- The sessions of the ends, when these are the senders of the messages to come: each message one
writes is read by the other, and in the end each has the other's DH key and what one sends the other
receives. -/
def Agrees : List Bool → (Bool → η) → Prop
  | [], t => ∀ e, H.getRemoteStatic (t e) = some (dh !e).toList
    ∧ H.intoTransportMode (t e) = some ⟨key e, key !e⟩
  | e :: es, t => ∀ p : Bytes, p.length ≤ maxFrameLen → ∃ msg t',
    H.session.writeMessage (t e) p (p.length + extraEncryptSpace) = some (msg, t' e)
      ∧ H.session.readMessage (t !e) msg = some (p, t' !e)
      ∧ msg ≠ [] ∧ msg.length ≤ p.length + extraEncryptSpace ∧ Agrees es t'

/-- Two ends that mean well. -/
structure Honest (script : Script) (party : Bool → Party η) : Prop where
  codec : H.Codec
  agrees : Agrees H dh key (script.map Prod.fst) fun e => (party e).session
  alternates : script.Alternates
  /-- Each end identifies itself at some point. -/
  identifies : ∀ e, (e, .identity) ∈ script
  signed : ∀ e, ∃ sig ∈ (party e).identity.signature, sig ≠ []
    ∧ H.verify (party e).identity.publicKey (Suite.staticKeyDomain ++ (dh e).toList) sig
  encodes : ∀ e, H.toProtobufEncoding (party e).identity.publicKey ≠ []
    ∧ H.fromProtobufEncoding (H.toProtobufEncoding (party e).identity.publicKey)
      = some (party e).identity.publicKey
  /-- Each end knows the other one, or is told. -/
  known : ∀ e, (party e).exchange.remote = some (party !e).identity.publicKey
    ∨ (party e).exchange.remote = none ∧ (party !e).exchange.sends
  legacy : ∀ e, (party e).legacy.sendLegacyHandshake →
    (party !e).legacy.recvLegacyHandshake ∧ (H.encode ((party e).payload H)).length < 256
  fits : ∀ e, (H.writePayload (party e).legacy ((party e).payload H)).length ≤ maxFrameLen

end Honest

variable {H : Suite η κ} {dh : Bool → Array32} {key : Bool → κ} {script : Script}
  {party : Bool → Party η}

section Toy

/-- A session of end `e` with this pattern before it, in which it has the other's key or will. -/
structure Keeps (dh : Bool → Array32) (e : Bool) (pattern : List (Bool × Bool)) (s : ToySession) :
    Prop where
  initiator : s.initiator = e
  remote : s.remote = some (dh !e).toList ∨ (!e, true) ∈ pattern
  pattern : s.pattern = pattern
  dh : s.dh = dh e

theorem toySuite_agrees : ∀ {pattern : List (Bool × Bool)} {t : Bool → ToySession},
    (∀ e, Keeps dh e pattern (t e)) →
      Agrees toySuite dh (fun _ => 0) (pattern.map Prod.fst) t
  | [], t, h => fun e => by
    refine ⟨(h e).remote.resolve_right List.not_mem_nil, ?_⟩
    show (if (t e).pattern = [] then _ else none) = _
    rw [(h e).pattern, if_pos rfl]
  | (w, keyed) :: pattern, t, h => by
    intro p _
    have hkeep : ∀ e, Keeps dh e pattern { t e with
        pattern := pattern
        remote := if e = !w ∧ keyed then some (dh w).toList else (t e).remote } := by
      refine fun e => ⟨(h e).initiator, ?_, rfl, (h e).dh⟩
      dsimp only
      split_ifs with he
      · rw [he.1, Bool.not_not]
        exact .inl rfl
      · refine (h e).remote.imp_right fun hmem =>
          (List.mem_cons.1 hmem).resolve_left fun heq => he ?_
        obtain ⟨rfl, rfl⟩ := Prod.mk.inj heq
        exact ⟨(Bool.not_not e).symm, rfl⟩
    refine ⟨1 :: ((if keyed then (dh w).toList else []) ++ p), _, ?_, ?_, List.cons_ne_nil _ _, ?_,
      toySuite_agrees hkeep⟩
    · have hroom : p.length + 33 ≤ p.length + extraEncryptSpace := by
        unfold extraEncryptSpace
        omega
      have hw : ¬(w = !w ∧ keyed) := fun hw => Bool.self_ne_not w hw.1
      show ToySession.writeMessage _ _ _ = _
      unfold ToySession.writeMessage
      rw [(h w).pattern]
      dsimp only
      rw [if_pos ⟨(h w).initiator.symm, hroom⟩, (h w).dh, if_neg hw]
    · show ToySession.readMessage _ _ = _
      unfold ToySession.readMessage
      rw [(h !w).pattern]
      dsimp only
      rw [if_neg (by simp [(h !w).initiator])]
      cases keyed with
      | false => simp
      | true => simp [take?_append _ (dh w).toList_length]
    · have hdh : ∀ b : Bool, (if b then (dh w).toList else []).length ≤ 32 := by
        intro b
        cases b <;> simp
      have hle := hdh keyed
      simp only [List.length_cons, List.length_append, extraEncryptSpace]
      omega

def toyParty (e : Bool) : Party ToySession where
  config := .noiseAuth
  session := { initiator := e, pattern := toyXX, dh := toyDh e }
  identity := toyIdentity e
  exchange := .mutual
  legacy := {}

theorem toyParty_honest : Honest toySuite toyDh (fun _ => 0) rt15 toyParty where
  codec := Suite.toySuite_codec
  agrees := show Agrees _ _ _ (toyXX.map Prod.fst) _ from toySuite_agrees fun e =>
    ⟨rfl, .inr (by cases e <;> decide), rfl, rfl⟩
  alternates := ⟨Bool.noConfusion, Bool.noConfusion, trivial⟩
  identifies := by decide
  signed e := ⟨_, rfl, List.cons_ne_nil _ _, decide_eq_true rfl⟩
  encodes e := ⟨List.cons_ne_nil _ _, decodeKey_encodeKey (.replicate 32 (if e then 3 else 2))⟩
  known _ := .inr ⟨rfl, rfl⟩
  legacy _ h := nomatch h
  fits := by decide +kernel

end Toy

/-- What an end has of itself and of the other one, with this part of the script before it. -/
structure Knows (party : Bool → Party η) (e : Bool) (rest : Script) (st : State η) : Prop where
  identity : st.identity = (party e).identity
  sends : st.sendIdentity = (party e).exchange.sends
  legacy : st.legacy = (party e).legacy
  remote : st.idRemotePubkey = (party e).exchange.remote
    ∨ st.idRemotePubkey = some (party !e).identity.publicKey
  told : (!e, .identity) ∉ rest → st.dhRemotePubkeySig = (party !e).identity.signature
    ∧ st.idRemotePubkey = some (party !e).identity.publicKey

theorem Knows.message {e : Bool} {rest : Script} {st : State η} (h : Knows party e rest st)
    (p : Payload) : st.message H p = (party e).state.message H p := by
  cases p with
  | empty => rfl
  | identity =>
    unfold State.message
    rw [h.identity, h.sends, h.legacy]
    rfl

/-- The payload of the other end is taken, and tells who it is. -/
theorem Knows.recv (hh : Honest H dh key script party) {e : Bool} {rest : Script} {p : Payload}
    {st : State η} (h : Knows party e ((!e, p) :: rest) st) :
    ∃ st', st.recv H ((party !e).state.message H p) p = .ok st' ∧ Knows party e rest st'
      ∧ st'.io = st.io := by
  cases p with
  | empty =>
    refine ⟨st, rfl, ⟨h.identity, h.sends, h.legacy, h.remote, fun hrest => h.told ?_⟩, rfl⟩
    simpa using hrest
  | identity =>
    obtain ⟨sig, hsig, hne, -⟩ := hh.signed !e
    obtain ⟨hnil, hdec⟩ := hh.encodes !e
    have hpayload : ((party !e).payload H).identitySig = sig := by
      rw [Party.payload, Option.mem_def.1 hsig, Option.getD_some]
    have hread : H.readPayload st.legacy ((party !e).state.message H .identity)
        = some ((party !e).payload H) := by
      have hlegacy := hh.legacy !e
      rw [Bool.not_not] at hlegacy
      show H.readPayload _ (H.writePayload (party !e).legacy ((party !e).payload H)) = _
      rw [h.legacy, Suite.readPayload_writePayload hh.codec _ _ fun hs => (hlegacy hs).2, if_pos]
      refine fun hs => ⟨(hlegacy hs).1, fun hpb => hne ?_⟩
      rw [← hpayload, hpb]
    have hremote : ∀ k ∈ st.idRemotePubkey, k = (party !e).identity.publicKey := by
      intro k hk
      rcases h.remote with hr | hr <;> rw [hr] at hk
      · rcases hh.known e with hx | ⟨hx, -⟩ <;> rw [hx] at hk <;> cases hk
        rfl
      · cases hk
        rfl
    have hany : (st.idRemotePubkey.any fun k => k ≠ (party !e).identity.publicKey) = false := by
      rcases hid : st.idRemotePubkey with _ | k
      · rfl
      · simp [hremote k hid]
    unfold State.recv State.recvIdentity
    dsimp only
    rw [hread]
    dsimp only
    rw [hpayload, if_neg hne]
    cases hsends : (party !e).exchange.sends with
    | true =>
      have hkey : ((party !e).payload H).identityKey
          = H.toProtobufEncoding (party !e).identity.publicKey := by
        rw [Party.payload, hsends, if_pos rfl]
      rw [hkey, if_neg hnil, hdec]
      dsimp only
      rw [hany, if_neg Bool.false_ne_true]
      exact ⟨_, rfl, ⟨h.identity, h.sends, h.legacy, .inr rfl, fun _ => ⟨hsig.symm, rfl⟩⟩, rfl⟩
    | false =>
      have hkey : ((party !e).payload H).identityKey = [] := by
        rw [Party.payload, hsends, if_neg Bool.false_ne_true]
      have hid : st.idRemotePubkey = some (party !e).identity.publicKey := by
        rcases h.remote with hr | hr
        · rcases hh.known e with hx | ⟨-, hx⟩
          · rw [hr, hx]
          · cases hsends.symm.trans hx
        · exact hr
      rw [hkey, if_pos rfl]
      exact ⟨_, rfl, ⟨h.identity, h.sends, h.legacy, h.remote, fun _ => ⟨hsig.symm, hid⟩⟩, rfl⟩

theorem Knows.setIo {e : Bool} {rest : Script} {st : State η} (h : Knows party e rest st)
    (io : NoiseFramed η) : Knows party e rest { st with io := io } :=
  ⟨h.identity, h.sends, h.legacy, h.remote, h.told⟩

theorem Knows.sent {e : Bool} {p : Payload} {rest : Script} {st : State η}
    (h : Knows party e ((e, p) :: rest) st) : Knows party e rest st := by
  refine ⟨h.identity, h.sends, h.legacy, h.remote, fun hrest => h.told fun hmem => ?_⟩
  rcases List.mem_cons.1 hmem with heq | hmem
  · exact Bool.not_ne_self e (Prod.mk.inj heq).1
  · exact hrest hmem

theorem publicFromBytes_toList (k : Array32) : Suite.publicFromBytes k.toList = .ok k := by
  unfold Suite.publicFromBytes
  rw [dif_pos k.toList_length]
  rfl

/-- The signature that was told is one of the key the session has. -/
theorem Knows.finish (hh : Honest H dh key script party) {e : Bool} {st : State η}
    (h : Knows party e [] st) (hdh : H.getRemoteStatic st.io.session = some (dh !e).toList)
    (hmode : H.intoTransportMode st.io.session = some ⟨key e, key !e⟩) :
    st.finish H = .ok (.identityKey (party !e).identity.publicKey,
      { io := { session := ⟨key e, key !e⟩, writeBuffer := st.io.writeBuffer } }) := by
  obtain ⟨hsig, hid⟩ := h.told List.not_mem_nil
  obtain ⟨sig, hmem, -, hv⟩ := hh.signed !e
  have hverify : H.verifyDh (party !e).identity.publicKey (dh !e) st.dhRemotePubkeySig := by
    rw [hsig, Option.mem_def.1 hmem]
    exact hv
  unfold State.finish Suite.intoTransport
  dsimp only
  rw [hdh, hmode]
  dsimp only
  rw [publicFromBytes_toList, hid]
  dsimp only
  rw [if_pos hverify]

end Upgrading

end Nyumt.Noise
