import Mathlib.Data.List.AList
import Nyumt.Block
import Nyumt.Lib.Run
import Nyumt.Messages

/-!
# Updates to nodes

A node that has subscribed is filed under the name of its config, in `subscribed_nodes`. After a
block was interpreted `send_update` goes through what the block changed, and tells the nodes that
are filed where the change concerns them. `Subscriptions.step` takes requests and blocks one at a
time, each to its end.
-/

namespace Nyumt

open Borsh

structure GlobalConfig where
  master : MasterConfig
  node : NodeConfig

def GlobalConfig.update (K : Crypto) (c : GlobalConfig) : GlobalConfig :=
  ⟨c.master.update K, c.node.update K⟩

namespace Database

variable (db : Database)

/-- `select conf from node where id = (select node from node_peerid where peerid = ?)`. -/
def getPeerConfName (peerid : String) : Option String :=
  (db.node.find? fun n => some n.id = db.nodeOfPeer peerid).map NodeRow.conf

def getNodeConf (name : String) : Option ConfigRow := db.config.find? fun c => c.name = name

/-- The `node_conf` of the config that the peer's node names. -/
def getPeerConf (peerid : String) : Option Bytes := do
  let name ← db.getPeerConfName peerid
  let row ← db.getNodeConf name
  return row.nodeConf

def getMasterNodes : List Bytes := (db.node.filter (·.masterNode)).map NodeRow.publicKey

end Database

/-- The nodes that have subscribed, by the name of the config they had then. -/
abbrev SubscribedNodes := AList fun _ : String => List String

section Files

variable (nodes : SubscribedNodes)

def filed (name : String) : List String := (nodes.lookup name).getD []

def file (conf peer : String) : SubscribedNodes := nodes.insert conf (filed nodes conf ++ [peer])

def unfile (conf peer : String) : SubscribedNodes :=
  if conf ∈ nodes then nodes.insert conf ((filed nodes conf).filter (· ≠ peer)) else nodes

/-- The peer is filed somewhere. -/
def Filed (peer : String) : Prop := ∃ e ∈ nodes.entries, peer ∈ e.2

instance (peer : String) : Decidable (Filed nodes peer) :=
  inferInstanceAs (Decidable (∃ e ∈ nodes.entries, _))

end Files

/-- What `send_update` makes of an update. -/
inductive Notice
  /-- For the nodes filed under the name, and for the master itself if it has that config. -/
  | config (name : String) (master : MasterConfig) (node : NodeConfig)
  /-- The master's own config is another one now. -/
  | own (name : String) (master : MasterConfig) (node : NodeConfig)
  | change (peer : String) (node : NodeConfig)
  | masters (list : List MasterNode)
  deriving DecidableEq

namespace Notice

def request : Notice → Option PeerRequest
  | .config _ _ node | .change _ node => some (.updateConfig node)
  | .own _ _ _ => none
  | .masters list => some (.updateMasterNodeList list)

def targets (nodes : SubscribedNodes) : Notice → List String
  | .config name _ _ => filed nodes name
  | .own _ _ _ => []
  | .change peer _ => if Filed nodes peer then [peer] else []
  | .masters _ => nodes.entries.flatMap fun e => e.2

def sends (nodes : SubscribedNodes) (n : Notice) : List (String × PeerRequest) :=
  match n.request with
  | some r => if (toVec r).isSome then (n.targets nodes).map fun peer => (peer, r) else []
  | none => []

end Notice

/-- A master on a list. With its own key a master gives the address, and panics if there is none. -/
def masterNode (own : PublicKey) (addr : Option String) (mpk : PublicKey) : Option MasterNode :=
  if mpk = own then addr.map fun addr => ⟨mpk, some addr⟩ else some ⟨mpk, none⟩

def listMasterNodes (own : PublicKey) (addr : Option String) :
    List PublicKey → Option (List MasterNode)
  | [] => some []
  | mpk :: mpks => do
    let node ← masterNode own addr mpk
    let list ← listMasterNodes own addr mpks
    return node :: list

section Lists

variable {own : PublicKey} {addr : Option String}

theorem pubkey_masterNode {mpk : PublicKey} {node : MasterNode}
    (h : masterNode own addr mpk = some node) : node.pubkey = mpk := by
  unfold masterNode at h
  split_ifs at h
  · obtain ⟨_, -, rfl⟩ := Option.map_eq_some_iff.1 h
    rfl
  · exact Option.some.inj h ▸ rfl

theorem listMasterNodes_cons (mpk : PublicKey) (mpks : List PublicKey) :
    listMasterNodes own addr (mpk :: mpks) = (masterNode own addr mpk).bind fun node =>
      (listMasterNodes own addr mpks).map (node :: ·) := by
  rw [listMasterNodes]
  rcases masterNode own addr mpk with _ | node
  · rfl
  · rcases listMasterNodes own addr mpks with _ | list <;> rfl

theorem keys_listMasterNodes : ∀ {mpks : List PublicKey} {list : List MasterNode},
    listMasterNodes own addr mpks = some list → list.map MasterNode.pubkey = mpks
  | [], list, h => by
    obtain rfl := Option.some.inj h
    rfl
  | mpk :: mpks, list, h => by
    rw [listMasterNodes_cons, Option.bind_eq_some_iff] at h
    obtain ⟨node, hnode, h⟩ := h
    obtain ⟨list', hlist, rfl⟩ := Option.map_eq_some_iff.1 h
    rw [List.map_cons, pubkey_masterNode hnode, keys_listMasterNodes hlist]

/-- Only a master that lists itself needs an address. -/
theorem listMasterNodes_eq_none : ∀ mpks : List PublicKey,
    listMasterNodes own addr mpks = none ↔ addr = none ∧ own ∈ mpks
  | [] => by simp [listMasterNodes]
  | mpk :: mpks => by
    have ih := listMasterNodes_eq_none mpks
    rw [listMasterNodes_cons, List.mem_cons]
    by_cases hown : mpk = own
    · rcases addr with _ | addr
      · simp [masterNode, hown]
      · simpa [masterNode, hown] using ih
    · rw [masterNode, if_neg hown, or_iff_right (Ne.symm hown), ← ih]
      simp

end Lists

/-- What a master needs to tell its nodes. `subscribers` is a history that no step reads: the peers
whose `HelloSubscribe` was answered `Good`, without those that unsubscribed since. -/
structure Subscriptions where
  db : Database
  pubkey : PublicKey
  /-- The address at which the first connection came in. -/
  addr : Option String := none
  /-- The address the swarm gives for its own. -/
  external : Option String := none
  confName : String
  conf : GlobalConfig
  nodes : SubscribedNodes := ∅
  subscribers : List String := []

namespace Subscriptions

variable (K : Crypto) (s : Subscriptions)

/-- The list of `UpdateMasterNodeList`; a key that cannot be read is left out. -/
def masterNodes : Option (List MasterNode) :=
  listMasterNodes s.pubkey s.external (s.db.getMasterNodes.filterMap (fromSlice PublicKey))

/-- What an update comes to, if it comes to anything; `none` where `send_update` panics. -/
def notice : Update → Option (Option Notice)
  | .configUpdate name master node => some (some (.config name master node))
  | .nodeConfigChange pubkey name =>
    match s.db.getNodeConf name with
    | some row =>
      match fromSlice MasterConfig row.masterConf, fromSlice NodeConfig row.nodeConf with
      | some master, some node =>
        if s.pubkey = pubkey then some (some (.own name master node))
        else
          match pubkey.toPeerId K with
          | .ok peer => some (some (.change peer node))
          | .error _ => none
      | _, _ => some none
    | none => some none
  | .masterNodeListUpdate => s.masterNodes.map fun list => some (.masters list)
  | .none => some none

/-- What the master makes its own. -/
def adopt : Notice → Subscriptions
  | .config name master node =>
    if s.confName = name then { s with conf := GlobalConfig.update K ⟨master, node⟩ } else s
  | .own name master node =>
    { s with conf := GlobalConfig.update K ⟨master, node⟩, confName := name }
  | .change _ _ | .masters _ => s

/-- `send_update`, with what it sends for each of the updates it gets to. -/
def sendUpdate : Subscriptions → List Update → Subscriptions × List (List (String × PeerRequest))
  | s, [] => (s, [])
  | s, u :: us =>
    match s.notice K u with
    | none => (s, [])
    | some none =>
      let (s, sent) := s.sendUpdate us
      (s, [] :: sent)
    | some (some n) =>
      let (s', sent) := (s.adopt K n).sendUpdate us
      (s', n.sends s.nodes :: sent)

inductive Act
  /-- `HelloSubscribe`. -/
  | subscribe (peer : String)
  /-- `UnsubscribeDefaultNode`. -/
  | unsubscribe (peer : String)
  | block (reqs : List RequestType)

/-- After `interpret_block`: nobody is told where nobody has ever subscribed. -/
def publish (us : List Update) : Subscriptions × List (List (String × PeerRequest)) :=
  if s.nodes.keys = [] then (s, []) else s.sendUpdate K us

def step : Act → Option Subscriptions
  | .subscribe peer =>
    match s.db.getPeerConfName peer with
    | some conf =>
      some { s with nodes := file s.nodes conf peer, subscribers := s.subscribers ++ [peer] }
    | none => some s
  | .unsubscribe peer =>
    some { s with
      nodes := match s.db.getPeerConfName peer with
        | some conf => unfile s.nodes conf peer
        | none => s.nodes
      subscribers := s.subscribers.filter (· ≠ peer) }
  | .block reqs =>
    match interpretBlock s.db reqs with
    | some (db, us) => some (publish K { s with db := db } us).1
    | none => some s

variable {K s}

theorem of_notice_masters {n : Notice} (h : s.notice K .masterNodeListUpdate = some (some n)) :
    ∃ list ∈ s.masterNodes, n = .masters list := by
  obtain ⟨list, hlist, he⟩ := Option.map_eq_some_iff.1 h
  exact ⟨list, hlist, (Option.some.inj he).symm⟩

/-- What comes of a node's change of config is what the row of the new config says. -/
theorem of_notice_change {k : PublicKey} {name : String} {n : Notice}
    (h : s.notice K (.nodeConfigChange k name) = some (some n)) :
    ∃ row ∈ s.db.getNodeConf name, ∃ master ∈ fromSlice MasterConfig row.masterConf,
      ∃ node ∈ fromSlice NodeConfig row.nodeConf,
        (s.pubkey = k ∧ n = .own name master node)
          ∨ ∃ peer, k.toPeerId K = .ok peer ∧ n = .change peer node := by
  simp only [notice] at h
  split at h
  · rename_i row hrow
    split at h
    · rename_i master node hmaster hnode
      refine ⟨row, hrow, master, hmaster, node, hnode, ?_⟩
      split_ifs at h with hk
      · exact .inl ⟨hk, (Option.some.inj (Option.some.inj h)).symm⟩
      · split at h
        · rename_i peer hpeer
          exact .inr ⟨peer, hpeer, (Option.some.inj (Option.some.inj h)).symm⟩
        · cases h
    · cases h
  · cases h

end Subscriptions

end Nyumt
