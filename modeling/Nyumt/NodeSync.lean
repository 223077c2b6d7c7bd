import Nyumt.Updates

/-!
# A node that joins

`async_sync` on a node asks its master for the list of masters and for its config, keeps both and
then subscribes. Meanwhile blocks are committed at the master, and what they change is sent by tasks
of their own. Every read and write of what is shared is a step here, and messages arrive in any
order.
-/

namespace Nyumt

open Borsh

/-- A request task of `sync` after its `interpret_block`, up to the end of its `send_update`. -/
inductive Telling
  /-- It has not looked yet whether anybody has subscribed. -/
  | committed (us : List Update)
  | read (us : List Update)
  | tell (n : Notice) (us : List Update)
  deriving DecidableEq

/-- Where `async_sync` is, and with it the requests it waits for. -/
inductive SyncPc
  /-- The answers to `MasterNodeList` and `NodeConfig`, as far as the master has given them. -/
  | fetch (list conf : Option PeerResponse)
  | storeConf (list : List MasterNode) (conf : NodeConfig)
  | storeList (list : List MasterNode) (conf : NodeConfig)
  | setConf (conf : NodeConfig)
  /-- `HelloSubscribe` is on its way. -/
  | subscribe
  /-- The master has read the name of the node's config. -/
  | naming (name : String)
  /-- `HelloSubscribe` was answered `Good`. -/
  | subscribed
  | stopped
  deriving DecidableEq

/-- A handler of the node before its next write. -/
inductive Storing
  | localConf (conf : NodeConfig)
  | conf (conf : NodeConfig)
  | masters (list : List MasterNode)
  deriving DecidableEq

/-- A master and the node `peer`. -/
structure NodeSync where
  master : Subscriptions
  tellings : List Telling := []
  /-- What was sent to the node and has not arrived. -/
  flight : List Bytes := []
  sync : SyncPc := .fetch none none
  stores : List Storing := []
  conf : NodeConfig
  /-- The row of the node's `config` table. -/
  localConf : Option Bytes := none
  /-- The rows of the node's `node` table. -/
  masterNodes : List (Bytes × Option String) := []

namespace Subscriptions

/-- What `NodeConfig` is answered. -/
def nodeConfig (s : Subscriptions) (peer : String) : PeerResponse :=
  match (s.db.getPeerConf peer).bind (fromSlice NodeConfig) with
  | some conf => .nodeConfig conf
  | none => .error

/-- What `MasterNodeList` is answered, if its handler does not panic. The loop ends at a key that
cannot be read. -/
def masterNodeList (s : Subscriptions) : Option PeerResponse := do
  let readable := s.db.getMasterNodes.takeWhile fun k => (fromSlice PublicKey k).isSome
  let list ← listMasterNodes s.pubkey s.addr (readable.filterMap (fromSlice PublicKey))
  return if readable = s.db.getMasterNodes then .masterNodeList list else .error

end Subscriptions

/-- The rows `add_master_nodes` writes. -/
def masterRows (list : List MasterNode) : List (Bytes × Option String) :=
  list.map fun n => (n.pubkey.bytes, n.addr)

namespace NodeSync

variable (K : Crypto) (peer : String)

inductive Act
  | commit (reqs : List RequestType)
  /-- The next step of a task that tells of a block. -/
  | tell (i : ℕ)
  | other (peer : String) (subscribes : Bool)
  /-- Another address is the master's own, or none. -/
  | external (addr : Option String)
  /-- A connection comes in at the master. -/
  | incoming (addr : String)
  | answerList
  | answerConf
  /-- The next step of `async_sync`, or of the handler of its `HelloSubscribe`. -/
  | sync
  | deliver (i : ℕ)
  | store (i : ℕ)

/-- What a task comes to, if it goes on. -/
def next (m : Subscriptions) : Telling → Option Telling
  | .committed us => if m.nodes.keys = [] then none else some (.read us)
  | .read [] => none
  | .read (u :: us) =>
    match m.notice K u with
    | none => none -- the task panics
    | some none => some (.read us)
    | some (some n) => some (.tell n us)
  | .tell _ us => some (.read us)

def advance (s : NodeSync) (i : ℕ) (t : Telling) : List Telling :=
  match next K s.master t with
  | some t' => s.tellings.set i t'
  | none => s.tellings.eraseIdx i

def sentBy (s : NodeSync) : Telling → List Bytes
  | .tell n _ =>
    (n.sends s.master.nodes).filterMap fun (p, r) => if p = peer then toVec r else none
  | _ => []

def syncStep (s : NodeSync) : Option NodeSync :=
  match s.sync with
  | .fetch (some (.masterNodeList list)) (some (.nodeConfig conf)) =>
    some { s with sync := .storeConf list conf }
  | .fetch (some (.masterNodeList _)) none | .fetch none _ => none
  | .fetch _ _ => some { s with sync := .stopped }
  | .storeConf list conf =>
    match toVec conf with
    | some b => some { s with localConf := some b, sync := .storeList list conf }
    | none => some { s with sync := .stopped }
  | .storeList list conf =>
    some { s with masterNodes := masterRows list, sync := .setConf conf }
  | .setConf conf => some { s with conf := conf.update K, sync := .subscribe }
  | .subscribe =>
    match s.master.db.getPeerConfName peer with
    | some name => some { s with sync := .naming name }
    | none => some { s with sync := .stopped }
  | .naming name =>
    some { s with
      master := { s.master with
        nodes := file s.master.nodes name peer
        subscribers := s.master.subscribers ++ [peer] }
      sync := .subscribed }
  | .subscribed | .stopped => none

def step (s : NodeSync) : Act → Option NodeSync
  | .commit reqs =>
    match interpretBlock s.master.db reqs with
    | some (db, us) => some { s with
        master := { s.master with db := db }
        tellings := s.tellings ++ [.committed us] }
    | none => some s
  | .tell i => do
    let t ← s.tellings[i]?
    return { s with
      master := match t with
        | .tell n _ => s.master.adopt K n
        | _ => s.master
      tellings := s.advance K i t
      flight := s.flight ++ s.sentBy peer t }
  | .other p subscribes =>
    if p = peer then none
    else (s.master.step K (if subscribes then .subscribe p else .unsubscribe p)).map fun m =>
      { s with master := m }
  | .external addr => some { s with master := { s.master with external := addr } }
  | .incoming addr =>
    some { s with master := { s.master with addr := s.master.addr.or (some addr) } }
  | .answerList =>
    match s.sync with
    | .fetch none conf => s.master.masterNodeList.map fun list =>
        { s with sync := .fetch (some list) conf }
    | _ => none
  | .answerConf =>
    match s.sync with
    | .fetch list none => some { s with sync := .fetch list (some (s.master.nodeConfig peer)) }
    | _ => none
  | .sync => s.syncStep K peer
  | .deliver i => do
    let b ← s.flight[i]?
    let stores := match fromSlice PeerRequest b with
      | some (.updateConfig conf) => [.localConf conf]
      | some (.updateMasterNodeList list) => [.masters list]
      | _ => []
    return { s with flight := s.flight.eraseIdx i, stores := s.stores ++ stores }
  | .store i => do
    let w ← s.stores[i]?
    match w with
    | .localConf conf => return { s with
        localConf := (toVec conf).or s.localConf
        stores := s.stores.set i (.conf conf) }
    | .conf conf => return { s with conf := conf.update K, stores := s.stores.eraseIdx i }
    | .masters list => return { s with
        masterNodes := masterRows list
        stores := s.stores.eraseIdx i }

end NodeSync

end Nyumt
