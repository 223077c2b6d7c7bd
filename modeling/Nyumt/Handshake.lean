import Nyumt.NoiseOutput
import Nyumt.Types

/-!
# The noise handshake

The handshakes of `libp2p-noise`: two or three messages over `NoiseFramed`, in one of which each end
may name its identity key and gives a signature, of the key its session is under. `Handshake` is the
future of one end, and a poll of it here goes from one of its awaits to the next; `Upgrading` has an
end on each side of a stream, which is a `NoiseOutput` once its handshake is done.
-/

namespace Nyumt.Noise

/-- `identity::PublicKey` of `libp2p`: the kind of key that nodes and users have, or another. -/
inductive IdentityKey
  | ed25519 (k : Array32)
  | other (bytes : Bytes)
  deriving DecidableEq

/-- The identity of an end, and its signature of the end's DH key. -/
structure KeypairIdentity where
  publicKey : IdentityKey
  signature : Option Bytes
  deriving DecidableEq

inductive IdentityExchange
  | mutual
  | send (remote : IdentityKey)
  | receive
  | none (remote : IdentityKey)
  deriving DecidableEq

/-- The identity that is known of the other end. -/
def IdentityExchange.remote : IdentityExchange → Option IdentityKey
  | .mutual | .receive => Option.none
  | .send remote | .none remote => some remote

def IdentityExchange.sends : IdentityExchange → Bool
  | .mutual | .send _ => true
  | .receive | .none _ => false

structure LegacyConfig where
  sendLegacyHandshake : Bool := false
  recvLegacyHandshake : Bool := false
  deriving DecidableEq

inductive RemoteIdentity
  | unknown
  | staticDhKey (dhPk : Array32)
  | identityKey (pk : IdentityKey)
  deriving DecidableEq

inductive NoiseError
  | io (e : IoError)
  | noise
  | invalidKey
  | authenticationFailed
  | invalidPayload
  deriving DecidableEq

structure NoiseHandshakePayload where
  identityKey : Bytes := []
  identitySig : Bytes := []
  data : Bytes := []
  deriving DecidableEq

/-- What a handshake has of other crates: the session of its pattern, which is a
`snow::HandshakeState`, the encodings of payloads and of identity keys, and signatures by these. -/
structure Suite (η κ : Type) where
  session : SessionState η
  getRemoteStatic : η → Option Bytes
  intoTransportMode : η → Option (TransportState κ)
  encode : NoiseHandshakePayload → Bytes
  decode : Bytes → Option NoiseHandshakePayload
  toProtobufEncoding : IdentityKey → Bytes
  fromProtobufEncoding : Bytes → Option IdentityKey
  /-- Of a key, a message and a signature. -/
  verify : IdentityKey → Bytes → Bytes → Bool

variable {η κ : Type} (H : Suite η κ)

namespace Suite

def staticKeyDomain : Bytes := "noise-libp2p-static-key:".toUTF8.data.toList

/-- `X25519Spec::verify`. -/
def verifyDh (idPk : IdentityKey) (dhPk : Array32) (sig : Option Bytes) : Bool :=
  sig.any fun s => H.verify idPk (staticKeyDomain ++ dhPk.toList) s

/-- `X25519Spec::public_from_bytes`. -/
def publicFromBytes (bytes : Bytes) : Except NoiseError Array32 :=
  if h : bytes.length = 32 then .ok ⟨bytes, h⟩ else .error .invalidKey

/-- `into_transport`. -/
def intoTransport (f : NoiseFramed η) :
    Except NoiseError (Option Array32 × NoiseOutput (TransportState κ)) :=
  let transport (dhRemotePubkey : Option Array32) :=
    match H.intoTransportMode f.session with
    | none => .error .noise
    | some s => .ok (dhRemotePubkey, { io := { session := s, writeBuffer := f.writeBuffer } })
  match H.getRemoteStatic f.session with
  | none => transport none
  | some k =>
    match publicFromBytes k with
    | .error e => .error e
    | .ok dhPk => transport (some dhPk)

/-- The bytes of a payload; a legacy handshake has their length before them. -/
def writePayload (legacy : LegacyConfig) (pb : NoiseHandshakePayload) : Bytes :=
  let msg := if legacy.sendLegacyHandshake then toBeBytes (H.encode pb).length else []
  msg ++ H.encode pb

def readPayload (legacy : LegacyConfig) (msg : Bytes) : Option NoiseHandshakePayload :=
  match H.decode msg with
  | some pb => some pb
  | none =>
    if legacy.recvLegacyHandshake ∧ 2 < msg.length ∧ fromBeBytes (msg.take 2) + 2 = msg.length then
      H.decode (msg.drop 2)
    else none

end Suite

/-- `State` of a handshake. -/
structure State (η : Type) where
  io : NoiseFramed η
  identity : KeypairIdentity
  dhRemotePubkeySig : Option Bytes := none
  idRemotePubkey : Option IdentityKey
  sendIdentity : Bool
  legacy : LegacyConfig
  deriving DecidableEq

/-- What a message is for: nothing, or to identify the end that sends it. -/
inductive Payload
  | empty
  | identity
  deriving DecidableEq

namespace State

def new (session : Except NoiseError η) (identity : KeypairIdentity) (identityX : IdentityExchange)
    (legacy : LegacyConfig) : Except NoiseError (State η) :=
  session.map fun s => {
    io := { session := s }
    identity := identity
    idRemotePubkey := identityX.remote
    sendIdentity := identityX.sends
    legacy := legacy }

/-- What `send_empty` and `send_identity` send. -/
def message (s : State η) : Payload → Bytes
  | .empty => []
  | .identity => H.writePayload s.legacy {
      identityKey := if s.sendIdentity then H.toProtobufEncoding s.identity.publicKey else []
      identitySig := s.identity.signature.getD [] }

/-- `recv_empty`, of a message that has come. -/
def recvEmpty (s : State η) (msg : Bytes) : Except NoiseError (State η) :=
  if msg = [] then .ok s else .error (.io .invalidData)

/-- `recv_identity`, of a message that has come. -/
def recvIdentity (s : State η) (msg : Bytes) : Except NoiseError (State η) :=
  match H.readPayload s.legacy msg with
  | none => .error .invalidPayload
  | some pb =>
    let sig := if pb.identitySig = [] then s.dhRemotePubkeySig else some pb.identitySig
    if pb.identityKey = [] then .ok { s with dhRemotePubkeySig := sig }
    else
      match H.fromProtobufEncoding pb.identityKey with
      | none => .error .invalidKey
      | some pk =>
        if s.idRemotePubkey.any fun k => k ≠ pk then .error .invalidKey
        else .ok { s with idRemotePubkey := some pk, dhRemotePubkeySig := sig }

def recv (s : State η) (msg : Bytes) : Payload → Except NoiseError (State η)
  | .empty => s.recvEmpty msg
  | .identity => s.recvIdentity H msg

def finish (s : State η) : Except NoiseError (RemoteIdentity × NoiseOutput (TransportState κ)) :=
  match H.intoTransport s.io with
  | .error e => .error e
  | .ok (pubkey, io) =>
    match s.idRemotePubkey, pubkey with
    | _, none => .ok (.unknown, io)
    | none, some dhPk => .ok (.staticDhKey dhPk, io)
    | some idPk, some dhPk =>
      if H.verifyDh idPk dhPk s.dhRemotePubkeySig then .ok (.identityKey idPk, io)
      else .error .invalidKey

end State

/-- An await of a handshake: `send_empty` and `send_identity`, `recv_empty` and `recv_identity`. -/
inductive Op
  | send (p : Payload)
  | recv (p : Payload)
  deriving DecidableEq

def rt1Initiator : List Op := [.send .identity, .recv .identity]

def rt1Responder : List Op := [.recv .identity, .send .identity]

def rt15Initiator : List Op := [.send .empty, .recv .identity, .send .identity]

def rt15Responder : List Op := [.recv .empty, .send .identity, .recv .identity]

/-- The upgrades there are: a `NoiseConfig`, one that is made `NoiseAuthenticated`, and `NoiseAuth`,
which asks the database for the key. -/
inductive Config
  | noiseConfig
  | noiseAuthenticated
  | noiseAuth
  deriving DecidableEq

/-- What follows a handshake; `known` are the keys that the database has. -/
def Config.andThen (known : Bytes → Bool) : Config → RemoteIdentity → Except NoiseError Unit
  | .noiseConfig, _ => .ok ()
  | .noiseAuthenticated, .identityKey _ => .ok ()
  | .noiseAuth, .identityKey (.ed25519 k) =>
    match Borsh.toVec (PublicKey.ed25519 k) with
    | some v => if known v then .ok () else .error .authenticationFailed
    | none => .error .authenticationFailed
  | _, _ => .error .authenticationFailed

/-- The future of an upgrade, at the first of the awaits to come. -/
structure Handshake (η : Type) where
  config : Config
  state : State η
  ops : List Op
  /-- The message of a `send` is with the io, which is flushed. -/
  flushing : Bool := false
  deriving DecidableEq

inductive Upgrade (η κ : Type)
  | handshake (h : Handshake η)
  | failed (e : NoiseError)
  | upgraded (remote : RemoteIdentity) (io : NoiseOutput (TransportState κ))
  deriving DecidableEq

def Upgrade.start (config : Config) (ops : List Op) (session : Except NoiseError η)
    (identity : KeypairIdentity) (identityX : IdentityExchange) (legacy : LegacyConfig) :
    Upgrade η κ :=
  match State.new session identity identityX legacy with
  | .ok state => .handshake { config := config, state := state, ops := ops }
  | .error e => .failed e

/-- What a poll is answered: by the io to reads, to writes and to a flush, and by the database. -/
structure Replies where
  read : List IoRead
  write : List IoWrite
  flush : Poll (Except IoError Unit)
  known : Bytes → Bool

/-- A poll at an await, with what is left to read and what is written, or nothing if it panics. -/
def Handshake.poll (inc : Incoming) (h : Handshake η) (a : Replies) :
    Option (Upgrade η κ × Incoming × Bytes) :=
  let set (io : NoiseFramed η) : State η := { h.state with io := io }
  match h.ops with
  | .send p :: ops =>
    if h.flushing then
      match h.state.io.pollFlush a.write a.flush with
      | (.pending, io, out) => some (.handshake { h with state := set io }, inc, out)
      | (.ready (.error e), _, out) => some (.failed (.io e), inc, out)
      | (.ready (.ok ()), io, out) =>
        some (.handshake { h with state := set io, ops := ops, flushing := false }, inc, out)
    else
      match h.state.io.pollReady a.write with
      | (.pending, io, out) => some (.handshake { h with state := set io }, inc, out)
      | (.ready (.error e), _, out) => some (.failed (.io e), inc, out)
      | (.ready (.ok ()), io, out) =>
        match io.startSend H.session (h.state.message H p) with
        | none => none
        | some (.error e, _) => some (.failed (.io e), inc, out)
        | some (.ok (), io) =>
          some (.handshake { h with state := set io, flushing := true }, inc, out)
  | .recv p :: ops =>
    match h.state.io.pollNext H.session inc a.read with
    | (.pending, inc, io) => some (.handshake { h with state := set io }, inc, [])
    | (.ready none, inc, _) => some (.failed (.io .unexpectedEof), inc, [])
    | (.ready (some (.error e)), inc, _) => some (.failed (.io e), inc, [])
    | (.ready (some (.ok msg)), inc, io) =>
      match (set io).recv H msg p with
      | .error e => some (.failed e, inc, [])
      | .ok state => some (.handshake { h with state := state, ops := ops }, inc, [])
  | [] =>
    match h.state.finish H with
    | .error e => some (.failed e, inc, [])
    | .ok (remote, io) =>
      match h.config.andThen a.known remote with
      | .error e => some (.failed e, inc, [])
      | .ok () => some (.upgraded remote io, inc, [])

/-- The two ends of a stream. -/
structure Upgrading (η κ : Type) where
  ends : Bool → Upgrade η κ
  incoming : Bool → Incoming := fun _ => {}

namespace Upgrading

variable (C : CipherState κ)

inductive Act
  | poll (e : Bool) (a : Replies)
  /-- A poll of an end that is upgraded. -/
  | transport (a : Connection.Act)

/-- An end becomes another one: it has read, and written to the other end; one that fails drops its
stream. -/
def put (s : Upgrading η κ) (e : Bool) (u : Upgrade η κ) (inc : Incoming) (out : Bytes) :
    Upgrading η κ where
  ends := Function.update s.ends e u
  incoming := Function.update (Function.update s.incoming e inc) (!e)
    ⟨(s.incoming (!e)).bytes ++ out,
      (s.incoming (!e)).closed || (match u with | .failed _ => true | _ => false)⟩

/-- A poll by one of the ends, or nothing where it panics. One that is upgraded is an end of a
connection. -/
def step (s : Upgrading η κ) : Act → Option (Upgrading η κ)
  | .poll e a =>
    match s.ends e with
    | .handshake h => do
      let (u, inc, out) ← h.poll H (s.incoming e) a
      return s.put e u inc out
    | _ => none
  | .transport a =>
    match s.ends a.by with
    | .upgraded remote io => do
      let c ← Connection.step C { ends := fun _ => io, incoming := s.incoming } a
      return {
        ends := Function.update s.ends a.by (.upgraded remote (c.ends a.by))
        incoming := c.incoming }
    | _ => none

end Upgrading

end Nyumt.Noise
