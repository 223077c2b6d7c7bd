import Nyumt.Interpret

/-!
# Building a block

The bytes a master makes of a request: what it gossips (`serializeReq`), what it writes
(`serializeBlock`), and the block a network begins with (`create`). The hash of a block covers
its body and, behind a primed hasher, the hash of the block before.
-/

namespace Nyumt

open Borsh

variable (K : Crypto)

/-- The request as it is gossiped, and the hash it is known by until it has a place. -/
def serializeReq (block : BodyData) : Option (Bytes × Digest) := do
  let bytes ← toVec block
  let hash := K.sha256 bytes
  let bytes ← toVec (NetData.block ⟨hash, bytes⟩)
  return (bytes, hash)

/-- A block's row. `vhash` is a hash found by vote, `hasher` what a hasher was fed so far. -/
def serializeBlock (block : BodyData) (vhash : Option Digest) (hasher : Option Bytes) :
    Option (Bytes × Digest) := do
  let bytes ← toVec block
  let hash := match vhash with
    | some v => v
    | none => K.sha256 (hasher.getD [] ++ bytes)
  let data ← toVec (Block.mk hash bytes)
  return (data, hash)

namespace MasterConfig

def update (c : MasterConfig) : MasterConfig := { c with hash := K.sha256 ((toVec c).getD []) }

def default : MasterConfig :=
  update K ⟨zeroHash, false, 3, 5000, 4, 2⟩

end MasterConfig

namespace NodeConfig

def update (c : NodeConfig) : NodeConfig := { c with hash := K.sha256 ((toVec c).getD []) }

def default : NodeConfig :=
  update K ⟨zeroHash, 5, ⟨[], [], [], []⟩⟩

end NodeConfig

/-- The first block: the root user, the node it is made on and the default configuration. -/
def firstBlock (nodePk pk : PublicKey) (timestamp : UInt64) : BodyData where
  req :=
    [.order (.addUser "root" pk [.root]),
      .order (.addMasterNode "controller0" nodePk),
      .order (.setConfig "default" (.default K) (.default K))]
  sign := []
  userPk := pk
  timestamp := timestamp

/-- `first::create`. A write that fails is logged and passed over. -/
def create (db : Database) (nodePk pk : PublicKey) (timestamp : UInt64) : Option Database := do
  let block := firstBlock K nodePk pk timestamp
  let (bytes, hash) ← serializeBlock K block none none
  let db := (db.addNew 0 bytes hash.toList).getD db
  return applyBlock db block.req

/-- What `first::create` leaves, made on a new database. -/
def Genesis (nodePk pk : PublicKey) (timestamp : UInt64) (db : Database) : Prop :=
  create K {} nodePk pk timestamp = some db

section Serialize

variable {K}

theorem of_serializeReq {block : BodyData} {bytes : Bytes} {hash : Digest}
    (h : serializeReq K block = some (bytes, hash)) :
    ∃ body, toVec block = some body ∧ hash = K.sha256 body
      ∧ toVec (NetData.block ⟨hash, body⟩) = some bytes := by
  simp only [serializeReq, Option.bind_eq_bind, Option.bind_eq_some_iff, Option.pure_def,
    Option.some.injEq, Prod.mk.injEq] at h
  obtain ⟨body, hb, net, hn, rfl, rfl⟩ := h
  exact ⟨body, hb, rfl, hn⟩

theorem of_serializeBlock {block : BodyData} {vhash : Option Digest} {hasher : Option Bytes}
    {data : Bytes} {hash : Digest} (h : serializeBlock K block vhash hasher = some (data, hash)) :
    ∃ body, toVec block = some body ∧ fromSlice Block data = some ⟨hash, body⟩
      ∧ hash = vhash.getD (K.sha256 (hasher.getD [] ++ body)) := by
  simp only [serializeBlock, Option.bind_eq_bind, Option.bind_eq_some_iff, Option.pure_def,
    Option.some.injEq, Prod.mk.injEq] at h
  obtain ⟨body, hb, d, hd, rfl, rfl⟩ := h
  exact ⟨body, hb, fromSlice_toVec hd, by rcases vhash with _ | v <;> rfl⟩

end Serialize

end Nyumt
