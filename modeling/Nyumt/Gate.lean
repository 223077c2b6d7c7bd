import Nyumt.Database

/-!
# The gate of the gossip handler

What happens to a gossipsub message before it is dispatched: its source must be a master node on
record, and a signature of its data must verify under that node's key. What is verified as the
signature is the message id, which `message_id_fn` makes from the data.
-/

namespace Nyumt

open Borsh

variable (K : Crypto)

/-- A message of gossipsub; `publisher` is the key it was signed with there. -/
structure Message where
  source : Option String
  publisher : PublicKey
  data : Bytes
  deriving DecidableEq

def hexDigit (n : ℕ) : UInt8 := .ofNat (if n < 10 then 48 + n else 55 + n)

/-- `{:X}` of the SHA-256 of the data. -/
def messageId (data : Bytes) : Bytes :=
  (K.sha256 data).toList.flatMap fun b => [hexDigit (b.toNat / 16), hexDigit (b.toNat % 16)]

/-- `inject_event` of a message: what it is decoded to if it is dispatched. -/
def receive (db : Database) (msg : Message) : Option NetData := do
  let peer ← msg.source
  let v ← db.getPeerMasterNodePk peer
  let pk ← fromSlice PublicKey v
  match pk.verifySig K msg.data (messageId K msg.data) with
  | .ok true => fromSlice NetData msg.data
  | _ => none

/-- The source is on record for a master node, and that node's key is the publisher's. -/
def Authentic (db : Database) (msg : Message) : Prop :=
  ∃ r ∈ db.nodePeerid, ∃ n ∈ db.node, msg.source = some r.peerid ∧ r.node = some n.id
    ∧ n.masterNode ∧ n.publicKey = msg.publisher.bytes

/-- No signature is the hash of what it signs. -/
def HashNoSignature : Prop := ∀ k m, K.verify k m (messageId K m) = false

end Nyumt
