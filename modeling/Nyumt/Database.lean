import Nyumt.Types
import Nyumt.Lib.Table

/-!
# The database

The tables of a master's `storage.db` and the queries the code makes of them. A column of type
`blob` holds bytes: a key or a permission list in its encoding, a block in its. Heights are
natural numbers, the code's `u64` and the column's `i64` below 2^63.
-/

namespace Nyumt

open Borsh

/-- What the code takes from its cryptography crates. -/
structure Crypto where
  /-- `Sha256::digest`. -/
  sha256 : Bytes → Digest
  /-- Whether `ed25519::PublicKey::decode` takes the bytes for a key. -/
  decode : Array32 → Bool
  /-- `PublicKey::verify`, of a key, a message and a signature. -/
  verify : Array32 → Bytes → Bytes → Bool
  /-- The text of a key's peer id. -/
  peerId : Array32 → String

/-- Why a call returned `Err`. -/
inductive Fault
  | rowNotFound
  | decodingError
  deriving DecidableEq

namespace PublicKey

/-- The key's blob. -/
def bytes : PublicKey → Bytes
  | .ed25519 k => 0 :: k.toList

@[simp] theorem toVec_eq (k : PublicKey) : toVec k = some k.bytes := by
  obtain ⟨k⟩ := k
  rfl

theorem bytes_injective : Function.Injective bytes := by
  intro k k' h
  simpa [reset] using
    reset_eq_of_toVec_eq (toVec_eq k) ((toVec_eq k').trans (congrArg some h.symm))

@[simp] theorem bytes_inj {k k' : PublicKey} : k.bytes = k'.bytes ↔ k = k' :=
  bytes_injective.eq_iff

@[simp] theorem fromSlice_bytes (k : PublicKey) : fromSlice PublicKey k.bytes = some k :=
  fromSlice_of_ser (toVec_eq k)

variable (K : Crypto)

def verifySig : PublicKey → Bytes → Bytes → Except Fault Bool
  | .ed25519 v, msg, sig => if K.decode v then .ok (K.verify v msg sig) else .error .decodingError

def toPeerId : PublicKey → Except Fault String
  | .ed25519 v => if K.decode v then .ok (K.peerId v) else .error .decodingError

end PublicKey

structure UserRow where
  id : ℕ
  name : String
  publicKey : Bytes
  permissions : Bytes
  active : Bool
  deriving DecidableEq

structure NodeRow where
  id : ℕ
  name : String
  publicKey : Bytes
  masterNode : Bool
  conf : String
  voteWeight : Option UInt32
  deriving DecidableEq

structure ConfigRow where
  name : String
  masterConf : Bytes
  nodeConf : Bytes
  deriving DecidableEq

structure OrderRow where
  id : ℕ
  data : Bytes
  hash : Bytes
  deriving DecidableEq

structure NodePeeridRow where
  node : Option ℕ
  peerid : String
  deriving DecidableEq

structure StatsRow where
  timestamp : ℤ
  node : Option ℕ
  data : Bytes
  sig : Bytes
  deriving DecidableEq

/-- The tables that orders are about. -/
structure Tables where
  users : List UserRow := []
  node : List NodeRow := []
  config : List ConfigRow := []
  deriving DecidableEq

structure Database extends Tables where
  order : List OrderRow := []
  nodePeerid : List NodePeeridRow := []
  stats : List StatsRow := []
  deriving DecidableEq

/-- `fetch_one`: the first row, and an error without one. -/
def fetchOne {α : Type} : List α → Except Fault α
  | [] => .error .rowNotFound
  | x :: _ => .ok x

/-- `select 1 ..` read by `fetch_one`: there is no way to get `false`. -/
def fetchExists {α : Type} (xs : List α) : Except Fault Bool := (fetchOne xs).map fun _ => true

@[simp] theorem fetchOne_eq_ok {α : Type} {xs : List α} {x : α} :
    fetchOne xs = .ok x ↔ xs.head? = some x := by
  cases xs <;> simp [fetchOne]

theorem fetchExists_filter {α : Type} (p : α → Bool) (xs : List α) :
    (fetchExists (xs.filter p) = .ok true ∧ ∃ x ∈ xs, p x)
      ∨ (fetchExists (xs.filter p) = .error .rowNotFound ∧ ¬ ∃ x ∈ xs, p x) := by
  rcases h : xs.filter p with _ | ⟨x, ys⟩
  · exact .inr ⟨rfl, by simpa using h⟩
  · have hx : x ∈ xs.filter p := h ▸ List.mem_cons_self
    exact .inl ⟨rfl, x, List.mem_filter.1 hx⟩

namespace Tables

variable (t : Tables)

def entityWithPubkeyExists (pubkey : Bytes) : Bool :=
  (t.users.any fun u => u.publicKey = pubkey ∧ u.active) || t.node.any fun n => n.publicKey = pubkey

def masterWithPubkeyExists (pubkey : Bytes) : Except Fault Bool :=
  fetchExists (t.node.filter fun n => n.publicKey = pubkey ∧ n.masterNode)

def configExists (name : String) : Except Fault Bool :=
  fetchExists (t.config.filter fun c => c.name = name)

def configUsed (name : String) : Except Fault Bool :=
  fetchExists (t.node.filter fun n => n.conf = name)

def getUserWithPubkey (pubkey : Bytes) : Except Fault UserRow :=
  fetchOne (t.users.filter fun u => u.publicKey = pubkey ∧ u.active)

def masterNodeCount : ℕ := t.node.countP (·.masterNode)

def multiMaster : Bool := 1 < t.masterNodeCount

end Tables

namespace Database

variable (db : Database)

def getLastBlock : Option (ℕ × Bytes) :=
  (Table.last OrderRow.id db.order).map fun r => (r.id, r.hash)

/-- `insert into order`, which fails where the height is taken. -/
def addNew (id : ℕ) (data hash : Bytes) : Option Database :=
  (Table.insert OrderRow.id ⟨id, data, hash⟩ db.order).map fun o => { db with order := o }

/-- The node recorded under a peer id; of several rows the first. -/
def nodeOfPeer (peerid : String) : Option ℕ :=
  (db.nodePeerid.find? fun r => r.peerid = peerid).bind NodePeeridRow.node

def getPeerMasterNodePk (peerid : String) : Option Bytes :=
  (db.node.find? fun n => some n.id = db.nodeOfPeer peerid ∧ n.masterNode).map NodeRow.publicKey

/-- New contents for the tables of orders. A node row that is gone takes the rows that refer to it
along (`on delete cascade`). -/
def setTables (t : Tables) : Database :=
  let gone (n : Option ℕ) : Bool :=
    n.any fun i => i ∈ db.node.map NodeRow.id ∧ i ∉ t.node.map NodeRow.id
  { db with
    toTables := t
    nodePeerid := Table.delete (fun r => gone r.node) db.nodePeerid
    stats := Table.delete (fun r => gone r.node) db.stats }

@[simp] theorem setTables_toTables (t : Tables) : (db.setTables t).toTables = t := rfl

@[simp] theorem setTables_order (t : Tables) : (db.setTables t).order = db.order := rfl

theorem addNew_eq_some {id : ℕ} {data hash : Bytes} {db' : Database}
    (h : db.addNew id data hash = some db') :
    id ∉ db.order.map OrderRow.id ∧ db' = { db with order := db.order ++ [⟨id, data, hash⟩] } := by
  obtain ⟨o, ho, rfl⟩ := Option.map_eq_some_iff.1 h
  obtain ⟨hn, rfl⟩ := Table.insert_eq_some _ ho
  exact ⟨hn, rfl⟩

theorem addNew_of_notMem {id : ℕ} (data hash : Bytes) (h : id ∉ db.order.map OrderRow.id) :
    db.addNew id data hash = some { db with order := db.order ++ [⟨id, data, hash⟩] } := by
  rw [addNew, Table.insert, if_neg h, Option.map_some]

theorem addNew_eq_none {id : ℕ} {data hash : Bytes} :
    db.addNew id data hash = none ↔ id ∈ db.order.map OrderRow.id := by
  rw [addNew, Option.map_eq_none_iff, Table.insert_eq_none]

theorem of_getLastBlock {db : Database} {id : ℕ} {hash : Bytes}
    (h : db.getLastBlock = some (id, hash)) :
    (∃ r ∈ db.order, r.id = id ∧ r.hash = hash) ∧ ∀ r ∈ db.order, r.id ≤ id := by
  obtain ⟨r, hr, he⟩ := Option.map_eq_some_iff.1 h
  simp only [Prod.mk.injEq] at he
  obtain ⟨rfl, rfl⟩ := he
  obtain ⟨hm, hle⟩ := Table.of_last _ hr
  exact ⟨⟨r, hm, rfl, rfl⟩, hle⟩

end Database

end Nyumt
