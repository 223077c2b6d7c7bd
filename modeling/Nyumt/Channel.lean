import Nyumt.Updates

/-!
# The channel to the swarm

A master's tasks reach its swarm through a channel: `SwarmHandlerCall` sends a request with the
sender of a oneshot, and waits for what `swarm_event_handler` sends back. A task is the calls it
makes one after another (`Caller`), and between two of them the swarm may change in any way. What
the swarm does is `libp2p`'s.
-/

namespace Nyumt

open Borsh

/-- Of gossipsub. -/
inductive PublishError
  | duplicate | signingError | insufficientPeers | messageTooLarge | transformFailed
  deriving DecidableEq

/-- What the code takes from `libp2p`, for swarms whose state is a `σ`. -/
structure Libp2p (σ : Type) where
  /-- `send_request`, with the id of the request. -/
  sendRequest : σ → String → Bytes → σ × ℕ
  sendResponse : σ → ℕ → Bytes → σ
  isConnected : σ → String → Bool
  allMeshPeers : σ → List String
  /-- With the id of the message. -/
  publish : σ → String → Bytes → σ × Except PublishError Bytes
  disconnectPeerId : σ → String → σ × Except Unit Unit
  subscribe : σ → String → σ
  externalAddresses : σ → List String

inductive SwarmHandlerRequest
  | publish (topic : String) (data : Bytes)
  | masterPeersCount
  | disconnectPeer (peer : String)
  | subscribe (topic : String)
  | configUpdate (peer : String) (update : Bytes)
  | masterNodeListUpdate (peer : String) (update : Bytes)
  | peerPresent (peer : String)
  | address
  | request (peer : String) (req : Bytes)
  | response (channel : ℕ) (resp : Bytes)
  deriving DecidableEq

inductive SwarmHandlerResponse
  | publish (res : Except PublishError Bytes)
  | masterPeersCount (count : UInt32)
  | disconnectPeerStatus (res : Except Unit Unit)
  | configUpdate
  | masterNodeListUpdate
  | subscribe
  | peerPresent (present : Bool)
  | address (addr : String)
  | request (id : ℕ)
  | none

namespace Libp2p

variable {σ : Type} (L : Libp2p σ) (s : σ)

/-- `swarm_event_handler` for one request: the swarm after it, and what is sent on the oneshot. -/
def swarmEventHandler : SwarmHandlerRequest → σ × Option SwarmHandlerResponse
  | .request peer req =>
    let (s, id) := L.sendRequest s peer req
    (s, some (.request id))
  | .response ch resp => (L.sendResponse s ch resp, some .none)
  | .peerPresent peer => (s, some (.peerPresent (L.isConnected s peer)))
  | .masterPeersCount => (s, some (.masterPeersCount (.ofNat (L.allMeshPeers s).length)))
  | .configUpdate peer update => ((L.sendRequest s peer update).1, some .configUpdate)
  | .masterNodeListUpdate peer update =>
    ((L.sendRequest s peer update).1, some .masterNodeListUpdate)
  | .publish topic data =>
    let (s, res) := L.publish s topic data
    (s, some (.publish res))
  | .disconnectPeer peer =>
    let (s, res) := L.disconnectPeerId s peer
    (s, some (.disconnectPeerStatus res))
  | .subscribe topic => (L.subscribe s topic, some .subscribe)
  | .address =>
    match L.externalAddresses s with
    | addr :: _ => (s, some (.address addr))
    | [] => (s, none) -- the loop has no turn, and the sender is dropped

end Libp2p

/-- The panics of `SwarmHandlerCall`. -/
inductive ChannelPanic
  /-- "Fatal error with swarm channel" -/
  | fatal
  /-- "Wrong Implementation in swarm channel" -/
  | wrong
  deriving DecidableEq

/-- The methods of `SwarmHandlerCall`, each with the type of what it returns. -/
inductive SwarmHandlerCall : Type → Type
  | publish (topic : String) (data : Bytes) : SwarmHandlerCall (Except PublishError Bytes)
  | configUpdate (peer : String) (data : Bytes) : SwarmHandlerCall Unit
  | masterNodeListUpdate (peer : String) (data : Bytes) : SwarmHandlerCall Unit
  | address : SwarmHandlerCall String
  | respond (channel : ℕ) (data : Bytes) : SwarmHandlerCall Unit
  | peers : SwarmHandlerCall UInt32
  | peerPresent (peer : String) : SwarmHandlerCall Bool
  /-- The call in `get_stats`. -/
  | request (peer : String) (req : Bytes) : SwarmHandlerCall ℕ
  | disconnectFromPeer (peer : String) : SwarmHandlerCall (Except Unit Unit)
  | subscribe (topic : String) : SwarmHandlerCall Unit

namespace SwarmHandlerCall

variable {α : Type}

/-- What the method sends. -/
def req : SwarmHandlerCall α → SwarmHandlerRequest
  | .publish topic data => .publish topic data
  | .configUpdate peer data => .configUpdate peer data
  | .masterNodeListUpdate peer data => .masterNodeListUpdate peer data
  | .address => .address
  | .respond channel data => .response channel data
  | .peers => .masterPeersCount
  | .peerPresent peer => .peerPresent peer
  | .request peer req => .request peer req
  | .disconnectFromPeer peer => .disconnectPeer peer
  | .subscribe topic => .subscribe topic

/-- What it makes of the response; it panics at any other variant. -/
def res : SwarmHandlerCall α → SwarmHandlerResponse → Option α
  | .publish _ _, .publish v => some v
  | .configUpdate _ _, .configUpdate => some ()
  | .masterNodeListUpdate _ _, .masterNodeListUpdate => some ()
  | .address, .address v => some v
  | .respond _ _, .none => some ()
  | .peers, .masterPeersCount v => some v
  | .peerPresent _, .peerPresent v => some v
  | .request _ _, .request v => some v
  | .disconnectFromPeer _, .disconnectPeerStatus v => some v
  | .subscribe _, .subscribe => some ()
  | _, _ => none

variable {σ : Type} (L : Libp2p σ) (s : σ)

/-- `call` and the `match` around it, with the swarm as it is when it takes the request up; the loop
that takes them up never ends. -/
def call (m : SwarmHandlerCall α) : Except ChannelPanic α :=
  match (L.swarmEventHandler s m.req).2 with
  | none => .error .fatal
  | some r =>
    match m.res r with
    | some v => .ok v
    | none => .error .wrong

/-- One response is sent, of the variant the method matches. -/
def Answered (m : SwarmHandlerCall α) : Prop :=
  ∃ r, (L.swarmEventHandler s m.req).2 = some r ∧ (m.res r).isSome

end SwarmHandlerCall

/-- A task as far as it has to do with the swarm. -/
inductive Caller (α : Type) : Type 1
  | ret (a : α)
  | call {β : Type} (m : SwarmHandlerCall β) (k : β → Caller α)

namespace Caller

variable {α β : Type}

def bind : Caller α → (α → Caller β) → Caller β
  | .ret a, f => f a
  | .call m k, f => .call m fun v => (k v).bind f

instance : Monad Caller where
  pure := .ret
  bind := .bind

instance {α : Type} : Coe (SwarmHandlerCall α) (Caller α) := ⟨fun m => .call m .ret⟩

variable {σ : Type} (L : Libp2p σ) (swarm : ℕ → σ)

/-- The task, from its `n`-th call on: `swarm i` is the swarm that takes up the `i`-th. -/
def run : Caller α → ℕ → Except ChannelPanic α
  | .ret a, _ => .ok a
  | .call m k, n =>
    match m.call L (swarm n) with
    | .ok v => (k v).run (n + 1)
    | .error e => .error e

/-- The requests it comes to send. -/
def sends : Caller α → ℕ → List SwarmHandlerRequest
  | .ret _, _ => []
  | .call m k, n =>
    m.req :: match m.call L (swarm n) with
      | .ok v => (k v).sends (n + 1)
      | .error _ => []

def forEach (f : String → SwarmHandlerCall Unit) : List String → Caller Unit
  | [] => .ret ()
  | x :: xs => .call (f x) fun _ => forEach f xs

/-- A call for each of the nodes, if the update could be encoded. -/
def tell (f : String → Bytes → SwarmHandlerCall Unit) (nodes : List String) :
    Option Bytes → Caller Unit
  | some update => forEach (fun node => f node update) nodes
  | none => .ret ()

end Caller

section Callers

variable (K : Crypto)

/-- `get_stats`. `own` is what the node reports and signs where it is asked for itself, and `wait`
what comes of waiting for the response to a request: nothing in time, or the response. -/
def getStats (s : Subscriptions) (own : Option (Bytes × Bytes)) (wait : ℕ → Option PeerResponse)
    (peer : String) (oid : OID) : Caller Reply :=
  if s.pubkey.toPeerId K = .ok peer then
    return match own with
      | some (rep, sig) => .getStats rep sig
      | none => .status .reqError
  else do
    let present : Bool ← SwarmHandlerCall.peerPresent peer
    if present then
      let id ← SwarmHandlerCall.request peer ((toVec (PeerRequest.getStats oid)).getD [])
      return match wait id with
        | some (.getStats rep sig) => .getStats rep sig
        | some _ => .status .reqError
        | none => .status .requestTimeout
    else return .status .nodeInactive

/-- The loop over `get_master_nodes`; its own address a master asks the swarm for. -/
def listMasters (pubkey : PublicKey) : List Bytes → Caller (List MasterNode)
  | [] => return []
  | k :: ks =>
    match fromSlice PublicKey k with
    | none => listMasters pubkey ks
    | some mpk => do
      let addr ← if mpk = pubkey then do
          let addr ← SwarmHandlerCall.address
          pure (some addr)
        else pure none
      let list ← listMasters pubkey ks
      return ⟨mpk, addr⟩ :: list

/-- What `send_update` calls the swarm for, one update after another. -/
def sendUpdate (s : Subscriptions) : List Update → Caller Unit
  | [] => return
  | .masterNodeListUpdate :: us => do
    let list ← listMasters s.pubkey s.db.getMasterNodes
    Caller.tell .masterNodeListUpdate (s.nodes.entries.flatMap fun e => e.2)
      (toVec (PeerRequest.updateMasterNodeList list))
    sendUpdate s us
  | u :: us =>
    match s.notice K u with
    | none => return -- the task panics at `to_peer_id().unwrap()`, not at the channel
    | some none => sendUpdate s us
    | some (some n) => do
      Caller.tell .configUpdate (n.targets s.nodes) (n.request.bind toVec)
      sendUpdate (s.adopt K n) us

end Callers

end Nyumt
