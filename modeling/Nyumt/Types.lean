import Nyumt.Lib.Borsh

/-!
# Blocks, orders and messages

The types of `nyumt-proto` and of the messages masters send each other, each with its encoding.
The `hash` of a config is skipped: it is not written, and is zero in what is read.
-/

namespace Nyumt

/-- `[u8; 32]`. -/
abbrev Array32 := List.Vector UInt8 32

/-- What SHA-256 gives. -/
abbrev Digest := Array32

inductive PublicKey
  | ed25519 (k : Array32)
  deriving DecidableEq

inductive Permission
  | root
  | monitor
  deriving DecidableEq

abbrev Permissions := List Permission

inductive CpuOID
  | total | user | nice | system | int | idle
  deriving DecidableEq

inductive MemoryOID
  | total | used
  deriving DecidableEq

inductive NetOID
  | name | mac | ipAddress | status | rxPackets | txPackets | rxBytes | txBytes | rxErrors
  | txErrors
  deriving DecidableEq

inductive StorageOID
  | name | filesystemType | free | total | totalNodes | freeNodes
  deriving DecidableEq

structure DbStruct where
  cpu : List CpuOID
  memory : List MemoryOID
  network : List NetOID
  storage : List StorageOID
  deriving DecidableEq

structure MasterConfig where
  hash : Digest
  collectDataFromMaster : Bool
  blockPushRetries : UInt8
  blockVoteTime : UInt64
  votePushRetries : UInt8
  pollTimeout : UInt64
  deriving DecidableEq

structure NodeConfig where
  hash : Digest
  reportTimeframe : UInt64
  dbStruct : DbStruct
  deriving DecidableEq

inductive Order
  | addUser (name : String) (publickey : PublicKey) (perm : Permissions)
  | addMasterNode (name : String) (publickey : PublicKey)
  | addNode (name : String) (publickey : PublicKey)
  | editUser (name : String) (publickey : PublicKey) (perm : Permissions)
  | editMasterNode (name : String) (publickey : PublicKey)
  | editNode (name : String) (publickey : PublicKey)
  | removeUser (publickey : PublicKey)
  | removeMasterNode (publickey : PublicKey)
  | removeNode (publickey : PublicKey)
  | changeNodeConfig (publickey : PublicKey) (name : String)
  | updatePublicKey (publickey newPublickey : PublicKey)
  | setConfig (name : String) (master : MasterConfig) (node : NodeConfig)
  | removeConfig (name : String)
  | updateVoteWeight (publickey : PublicKey) (weight : UInt32)
  deriving DecidableEq

inductive RequestType
  | order (o : Order)
  deriving DecidableEq

structure BodyData where
  req : List RequestType
  sign : Bytes
  userPk : PublicKey
  timestamp : UInt64
  deriving DecidableEq

structure Block where
  hash : Digest
  body : Bytes
  deriving DecidableEq

inductive RequestError
  | signatureError | longParameter | permissionError | noPermission | invalidEntity
  | duplicateEntity | configUsed | invalidConfig
  deriving DecidableEq

/-- What a block request is answered; `GetStats` answers another kind of request. -/
inductive RequestStatus
  | ok | notConfigured | syncing | pubKeyError | reqError | nodeError | dupReq | nodeInactive
  | requestTimeout | rejected
  deriving DecidableEq

structure ArchiveBlock where
  hash : Digest
  serialHash : Digest
  id : UInt64
  deriving DecidableEq

inductive Vote
  | ok
  | no
  deriving DecidableEq

inductive NetData
  | block (b : Block)
  | vote (hash : Digest) (v : Vote)
  | archiveBlock (a : ArchiveBlock)
  | serialVote (id : UInt64) (hash : Digest) (v : Vote)
  deriving DecidableEq

section Wire

open Borsh

/-- What a skipped `hash` is read as. -/
def zeroHash : Digest := List.Vector.replicate 32 0

instance : Borsh PublicKey where
  ser | .ed25519 k => variant 0 k
  de
    | 0 :: r => payload .ed25519 r
    | _ => none
  reset := id
  de_ser {x b} r h := by
    obtain ⟨k⟩ := x
    obtain ⟨p, hp, rfl⟩ := of_variant h
    exact payload_ser r hp
  ser_de {b r x} h := by
    split at h
    · obtain ⟨k, rfl, -, p, hp, rfl⟩ := of_payload h
      exact ⟨rfl, 0 :: p, by simp [variant, hp], rfl⟩
    · simp at h

/-- The variant's place in the declaration, not its discriminant. -/
instance : Borsh Permission :=
  ofVariants [.root, .monitor] (by decide) (by rintro ⟨⟩ <;> decide) (by decide)

instance : Borsh CpuOID :=
  ofVariants [.total, .user, .nice, .system, .int, .idle] (by decide) (by rintro ⟨⟩ <;> decide)
    (by decide)

instance : Borsh MemoryOID :=
  ofVariants [.total, .used] (by decide) (by rintro ⟨⟩ <;> decide) (by decide)

instance : Borsh NetOID :=
  ofVariants [.name, .mac, .ipAddress, .status, .rxPackets, .txPackets, .rxBytes, .txBytes,
    .rxErrors, .txErrors] (by decide) (by rintro ⟨⟩ <;> decide) (by decide)

instance : Borsh StorageOID :=
  ofVariants [.name, .filesystemType, .free, .total, .totalNodes, .freeNodes] (by decide)
    (by rintro ⟨⟩ <;> decide) (by decide)

instance : Borsh Vote :=
  ofVariants [.ok, .no] (by decide) (by rintro ⟨⟩ <;> decide) (by decide)

instance : Borsh DbStruct :=
  via (fun d => (d.cpu, d.memory, d.network, d.storage)) (fun (c, m, n, s) => ⟨c, m, n, s⟩)
    fun _ => rfl

instance : Borsh MasterConfig :=
  via (fun c => (c.collectDataFromMaster, c.blockPushRetries, c.blockVoteTime, c.votePushRetries,
      c.pollTimeout))
    (fun (c, r, t, v, p) => ⟨zeroHash, c, r, t, v, p⟩) fun _ => rfl

instance : Borsh NodeConfig :=
  via (fun c => (c.reportTimeframe, c.dbStruct)) (fun (t, d) => ⟨zeroHash, t, d⟩) fun _ => rfl

instance : Borsh Order where
  ser
    | .addUser n k p => variant 0 (n, k, p)
    | .addMasterNode n k => variant 1 (n, k)
    | .addNode n k => variant 2 (n, k)
    | .editUser n k p => variant 3 (n, k, p)
    | .editMasterNode n k => variant 4 (n, k)
    | .editNode n k => variant 5 (n, k)
    | .removeUser k => variant 6 k
    | .removeMasterNode k => variant 7 k
    | .removeNode k => variant 8 k
    | .changeNodeConfig k n => variant 9 (k, n)
    | .updatePublicKey k k' => variant 10 (k, k')
    | .setConfig n m c => variant 11 (n, m, c)
    | .removeConfig n => variant 12 n
    | .updateVoteWeight k w => variant 13 (k, w)
  de
    | 0 :: r => payload (fun (n, k, p) => .addUser n k p) r
    | 1 :: r => payload (fun (n, k) => .addMasterNode n k) r
    | 2 :: r => payload (fun (n, k) => .addNode n k) r
    | 3 :: r => payload (fun (n, k, p) => .editUser n k p) r
    | 4 :: r => payload (fun (n, k) => .editMasterNode n k) r
    | 5 :: r => payload (fun (n, k) => .editNode n k) r
    | 6 :: r => payload .removeUser r
    | 7 :: r => payload .removeMasterNode r
    | 8 :: r => payload .removeNode r
    | 9 :: r => payload (fun (k, n) => .changeNodeConfig k n) r
    | 10 :: r => payload (fun (k, k') => .updatePublicKey k k') r
    | 11 :: r => payload (fun (n, m, c) => .setConfig n m c) r
    | 12 :: r => payload .removeConfig r
    | 13 :: r => payload (fun (k, w) => .updateVoteWeight k w) r
    | _ => none
  reset
    | .addUser n k p => .addUser n k (reset p)
    | .editUser n k p => .editUser n k (reset p)
    | .setConfig n m c => .setConfig n (reset m) (reset c)
    | o => o
  de_ser {x b} r h := by
    cases x <;>
      · obtain ⟨p, hp, rfl⟩ := of_variant h
        exact payload_ser r hp
  ser_de {b r x} h := by
    split at h
    case h_15 => simp at h
    all_goals
      obtain ⟨y, rfl, hy, p, hp, rfl⟩ := of_payload h
      refine ⟨?_, _ :: p, by simp [variant, hp], rfl⟩
      conv_rhs => rw [← hy]
      rfl

instance : Borsh RequestType where
  ser | .order o => variant 0 o
  de
    | 0 :: r => payload .order r
    | _ => none
  reset | .order o => .order (reset o)
  de_ser {x b} r h := by
    obtain ⟨o⟩ := x
    obtain ⟨p, hp, rfl⟩ := of_variant h
    exact payload_ser r hp
  ser_de {b r x} h := by
    split at h
    · obtain ⟨o, rfl, ho, p, hp, rfl⟩ := of_payload h
      exact ⟨congrArg RequestType.order ho, 0 :: p, by simp [variant, hp], rfl⟩
    · simp at h

instance : Borsh BodyData :=
  via (fun b => (b.req, b.sign, b.userPk, b.timestamp)) (fun (r, s, k, t) => ⟨r, s, k, t⟩)
    fun _ => rfl

instance : Borsh Block :=
  via (fun b => (b.hash, b.body)) (fun (h, b) => ⟨h, b⟩) fun _ => rfl

instance : Borsh ArchiveBlock :=
  via (fun a => (a.hash, a.serialHash, a.id)) (fun (h, s, i) => ⟨h, s, i⟩) fun _ => rfl

instance : Borsh NetData where
  ser
    | .block b => variant 0 b
    | .vote h v => variant 1 (h, v)
    | .archiveBlock a => variant 2 a
    | .serialVote i h v => variant 3 (i, h, v)
  de
    | 0 :: r => payload .block r
    | 1 :: r => payload (fun (h, v) => .vote h v) r
    | 2 :: r => payload .archiveBlock r
    | 3 :: r => payload (fun (i, h, v) => .serialVote i h v) r
    | _ => none
  reset
    | .block b => .block (reset b)
    | n => n
  de_ser {x b} r h := by
    cases x <;>
      · obtain ⟨p, hp, rfl⟩ := of_variant h
        exact payload_ser r hp
  ser_de {b r x} h := by
    split at h
    case h_5 => simp at h
    all_goals
      obtain ⟨y, rfl, hy, p, hp, rfl⟩ := of_payload h
      refine ⟨?_, _ :: p, by simp [variant, hp], rfl⟩
      conv_rhs => rw [← hy]
    all_goals rfl

instance : Plain PublicKey := ⟨fun _ => rfl⟩

instance : Plain Permission := ⟨fun _ => rfl⟩

instance : Plain CpuOID := ⟨fun _ => rfl⟩

instance : Plain MemoryOID := ⟨fun _ => rfl⟩

instance : Plain NetOID := ⟨fun _ => rfl⟩

instance : Plain StorageOID := ⟨fun _ => rfl⟩

instance : Plain Vote := ⟨fun _ => rfl⟩

instance : Plain DbStruct :=
  ⟨fun ⟨c, m, n, s⟩ => by
    change DbStruct.mk (reset c) (reset m) (reset n) (reset s) = _
    simp only [reset_eq]⟩

instance : Plain Block :=
  ⟨fun ⟨h, b⟩ => by
    change Block.mk h (reset b) = _
    simp only [reset_eq]⟩

instance : Plain ArchiveBlock := ⟨fun _ => rfl⟩

instance : Plain NetData :=
  ⟨fun n => by
    cases n
    case block b => exact congrArg NetData.block (reset_eq b)
    all_goals rfl⟩

end Wire

end Nyumt
