import Nyumt.Handshake

/-!
# A toy suite

A suite that handshakes can be run with by evaluation. Payloads and keys are encoded as protobuf has
them; a session keeps to a pattern, and its messages are a byte, the key of the sender where the
pattern has it there, and the payload. A signature is a zero, the key and the message, so it is good
for that message only.
-/

namespace Nyumt.Noise

open Borsh

/-- A number, seven bits a byte, in up to `more + 1` bytes. -/
def varint : ℕ → ℕ → Bytes
  | 0, n => [.ofNat n]
  | more + 1, n => if n < 128 then [.ofNat n] else .ofNat (n % 128 + 128) :: varint more (n / 128)

def readVarint : Bytes → Option (ℕ × Bytes)
  | [] => none
  | b :: bytes =>
    if b.toNat < 128 then some (b.toNat, bytes)
    else (readVarint bytes).map fun (n, rest) => (b.toNat - 128 + 128 * n, rest)

theorem readVarint_varint (rest : Bytes) : ∀ {more n : ℕ}, n ≤ more →
    readVarint (varint more n ++ rest) = some (n, rest)
  | 0, n, h => by
    obtain rfl : n = 0 := by omega
    rfl
  | more + 1, n, h => by
    unfold varint
    split_ifs with hn
    · have hb : (UInt8.ofNat n).toNat = n := by simp; omega
      simp [readVarint, hb, hn]
    · have hb : (UInt8.ofNat (n % 128 + 128)).toNat = n % 128 + 128 := by simp; omega
      have hbig : ¬n % 128 + 128 < 128 := by omega
      have hn : n % 128 + 128 - 128 + 128 * (n / 128) = n := by omega
      rw [List.cons_append, readVarint, hb, if_neg hbig, readVarint_varint rest (by omega)]
      simp only [Option.map_some, hn]

/-- A field of bytes, behind its tag and its length, which is left out when it is empty. -/
def field (tag : UInt8) (x : Bytes) : Bytes :=
  if x = [] then [] else tag :: (varint x.length x.length ++ x)

def readField (tag : UInt8) : Bytes → Option (Bytes × Bytes)
  | [] => some ([], [])
  | b :: bytes =>
    if b = tag then (readVarint bytes).bind fun (n, bytes) => take? n bytes
    else some ([], b :: bytes)

theorem readField_field {tag : UInt8} (x : Bytes) {rest : Bytes} (h : rest.head? ≠ some tag) :
    readField tag (field tag x ++ rest) = some (x, rest) := by
  unfold field
  split_ifs with hx
  · subst hx
    rcases rest with _ | ⟨b, rest⟩
    · rfl
    · have hb : b ≠ tag := fun hb => h (congrArg some hb)
      simp [readField, hb]
  · simp [readField, readVarint_varint _ le_rfl, take?_append _ rfl]

theorem head?_field {tag t : UInt8} {x rest : Bytes} (ht : tag ≠ t) (h : rest.head? ≠ some t) :
    (field tag x ++ rest).head? ≠ some t := by
  unfold field
  split_ifs
  · exact h
  · simpa using ht

def encodePayload (pb : NoiseHandshakePayload) : Bytes :=
  field 0x0a pb.identityKey ++ (field 0x12 pb.identitySig ++ (field 0x1a pb.data ++ []))

def decodePayload (bytes : Bytes) : Option NoiseHandshakePayload := do
  let (identityKey, bytes) ← readField 0x0a bytes
  let (identitySig, bytes) ← readField 0x12 bytes
  let (data, bytes) ← readField 0x1a bytes
  if bytes = [] then some ⟨identityKey, identitySig, data⟩ else none

theorem decodePayload_encodePayload (pb : NoiseHandshakePayload) :
    decodePayload (encodePayload pb) = some pb := by
  have hnil : ∀ t : UInt8, ([] : Bytes).head? ≠ some t := fun t => by simp
  have hdata := head?_field (x := pb.data) (show (0x1a : UInt8) ≠ 0x12 by decide) (hnil _)
  have hdata' := head?_field (x := pb.data) (show (0x1a : UInt8) ≠ 0x0a by decide) (hnil _)
  have hsig := head?_field (x := pb.identitySig) (show (0x12 : UInt8) ≠ 0x0a by decide) hdata'
  unfold decodePayload encodePayload
  rw [readField_field _ hsig, Option.bind_eq_bind, Option.bind_some]
  dsimp only
  rw [readField_field _ hdata, Option.bind_some]
  dsimp only
  rw [readField_field _ (hnil _), Option.bind_some]
  rfl

/-- `identity::PublicKey::to_protobuf_encoding`, of a key of the kind that nodes have. -/
def encodeKey : IdentityKey → Bytes
  | .ed25519 k => [0x08, 0x01, 0x12, 0x20] ++ k.toList
  | .other bytes => bytes

def decodeKey : Bytes → Option IdentityKey
  | 0x08 :: 0x01 :: 0x12 :: 0x20 :: bytes =>
    if h : bytes.length = 32 then some (.ed25519 ⟨bytes, h⟩) else none
  | _ => none

theorem decodeKey_encodeKey (k : Array32) :
    decodeKey (encodeKey (.ed25519 k)) = some (.ed25519 k) := by
  show (if h : k.toList.length = 32 then some (IdentityKey.ed25519 ⟨k.toList, h⟩) else none) = _
  rw [dif_pos k.toList_length]
  rfl

structure ToySession where
  initiator : Bool
  /-- The sender of each message to come, and whether its key is in it. -/
  pattern : List (Bool × Bool)
  dh : Array32
  remote : Option Bytes := none
  deriving DecidableEq

namespace ToySession

def writeMessage (s : ToySession) (payload : Bytes) (room : ℕ) : Option (Bytes × ToySession) :=
  match s.pattern with
  | (e, keyed) :: pattern =>
    if e = s.initiator ∧ payload.length + 33 ≤ room then
      some (1 :: ((if keyed then s.dh.toList else []) ++ payload), { s with pattern := pattern })
    else none
  | [] => none

def readMessage (s : ToySession) (msg : Bytes) : Option (Bytes × ToySession) :=
  match s.pattern with
  | (e, keyed) :: pattern =>
    if e = s.initiator ∨ msg.head? ≠ some 1 then none
    else if keyed then
      (take? 32 msg.tail).map fun (k, payload) =>
        (payload, { s with pattern := pattern, remote := some k })
    else some (msg.tail, { s with pattern := pattern })
  | [] => none

end ToySession

def toySuite : Suite ToySession ℕ where
  session := { readMessage := ToySession.readMessage, writeMessage := ToySession.writeMessage }
  getRemoteStatic s := s.remote
  intoTransportMode s := if s.pattern = [] then some ⟨0, 0⟩ else none
  encode := encodePayload
  decode := decodePayload
  toProtobufEncoding := encodeKey
  fromProtobufEncoding := decodeKey
  verify k msg sig := sig = 0 :: (encodeKey k ++ msg)

/-- The messages of the pattern XX. -/
def toyXX : List (Bool × Bool) := [(true, false), (false, true), (true, true)]

/-- The DH key of an end. -/
def toyDh (e : Bool) : Array32 := List.Vector.replicate 32 (if e then 1 else 0)

/-- The identity of an end, which has signed its DH key. -/
def toyIdentity (e : Bool) : KeypairIdentity :=
  let k := IdentityKey.ed25519 (List.Vector.replicate 32 (if e then 3 else 2))
  ⟨k, some (0 :: (encodeKey k ++ (Suite.staticKeyDomain ++ (toyDh e).toList)))⟩

def toyEnds : Upgrading ToySession ℕ where
  ends e := .start .noiseAuth (if e then rt15Initiator else rt15Responder)
    (.ok { initiator := e, pattern := toyXX, dh := toyDh e }) (toyIdentity e) .mutual {}

def toyReplies : Replies where
  read := [.upTo 1, .upTo 999]
  write := [.upTo 2, .upTo 999]
  flush := .ready (.ok ())
  known _ := true

/-- The initiator is upgraded, and the responder has not read its last message. -/
def toyUpgrade : List Upgrading.Act :=
  [true, true, false, false, false, true, true, true, true].map fun e => .poll e toyReplies

end Nyumt.Noise
