import Nyumt.NodeSync

/-!
# Requests to a normal node

`handle` of `req_resp.rs` for `NodeLevel::Normal`, one request after another. The transport of a
node takes every key that a handshake proves, and the handler is given the peer id.
-/

namespace Nyumt

open Borsh

structure PeerMessage where
  peer : String
  /-- The sender's key; `none` is one of another type than Ed25519. -/
  key : Option PublicKey
  request : Bytes

/-- What the requests of peers change. -/
structure NormalNode where
  conf : NodeConfig
  localConf : Option Bytes := none
  masterNodes : List (Bytes × Option String) := []
  deriving DecidableEq

namespace NormalNode

variable (K : Crypto) (report : OID → PeerResponse)

/-- `report` answers a `GetStats`. Nothing is answered to bytes that are no request. -/
def handle (s : NormalNode) (_peer : String) (request : Bytes) : NormalNode × Option PeerResponse :=
  match fromSlice PeerRequest request with
  | none => (s, none)
  | some (.updateConfig config) =>
    ({ s with localConf := (toVec config).or s.localConf, conf := config.update K }, some .good)
  | some (.updateMasterNodeList list) => ({ s with masterNodes := masterRows list }, some .good)
  | some (.getStats oid) => (s, some (report oid))
  | some _ => (s, some .error)

/-- `inject_event`. -/
def receive (s : NormalNode) (m : PeerMessage) : NormalNode :=
  (s.handle K report m.peer m.request).1

def Listed (s : NormalNode) (m : PeerMessage) : Prop :=
  ∃ k ∈ m.key, k.bytes ∈ s.masterNodes.map Prod.fst

instance (s : NormalNode) : DecidablePred s.Listed :=
  fun m => inferInstanceAs (Decidable (∃ k ∈ m.key, _))

/-- The requests whose sender is in the list when they come in. -/
def fromMasters : NormalNode → List PeerMessage → List PeerMessage
  | _, [] => []
  | s, m :: ms =>
    if s.Listed m then m :: fromMasters (s.receive K report m) ms
    else fromMasters (s.receive K report m) ms

end NormalNode

/-- What a node that joins keeps of the requests of peers. -/
def NodeSync.normal (s : NodeSync) : NormalNode := ⟨s.conf, s.localConf, s.masterNodes⟩

end Nyumt
