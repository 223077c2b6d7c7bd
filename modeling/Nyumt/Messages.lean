import Nyumt.Database

/-!
# Requests of clients and nodes

What is asked over the two request-response protocols, by a client and its master and by a node and
its master, with the encodings, and what a reader makes of a frame. A version is an `f64`; it is
kept as its bits.
-/

namespace Nyumt

structure RequestBlock where
  id : UInt64
  body : Bytes
  deriving DecidableEq

/-- A row as `event_handler` sends it. -/
def OrderRow.request (r : OrderRow) : RequestBlock := ⟨.ofNat r.id, r.data⟩

structure Stat where
  id : UInt32
  data : Bytes
  sig : Bytes
  deriving DecidableEq

/-- What a client's `Hello` says it has. -/
structure SessionSettings where
  lastRequestHeight : Int64
  lastTimestamp : UInt64
  deriving DecidableEq

structure Request where
  req : List RequestType
  sign : Bytes
  deriving DecidableEq

/-- What statistics are asked for. -/
inductive OID
  | cpu (o : Option CpuOID)
  | memory (o : Option MemoryOID)
  | network (o : Option NetOID)
  | storage (o : Option StorageOID)
  | all
  deriving DecidableEq

inductive ClientRequest
  | hello (version : UInt64) (pk : PublicKey) (settings : SessionSettings)
  | block (blocks : List RequestBlock)
  | stats (stats : List Stat)
  | request (req : Request)
  | stat (stats : List Stat)
  | getStats (pk : PublicKey) (oid : OID)
  deriving DecidableEq

structure NodeReport where
  report : Bytes
  sig : Bytes
  deriving DecidableEq

structure MasterNode where
  pubkey : PublicKey
  addr : Option String
  deriving DecidableEq

inductive PeerRequest
  | hello (version : UInt64) (pk : PublicKey)
  | helloSubscribe
  | blockHeight
  | nodeConfig
  | nodeConfigHash
  | masterNodeList
  | masterNodeListHash
  | unsubscribeDefaultNode
  | updateConfig (conf : NodeConfig)
  | updateMasterNodeList (list : List MasterNode)
  | report (r : NodeReport)
  | getStats (oid : OID)
  deriving DecidableEq

/-- `RequestStatus` of `peer.rs`. -/
inductive PeerRequestStatus
  | good | bad
  deriving DecidableEq

/-- What is answered to a `PeerRequest`. A report is kept as its bytes. -/
inductive PeerResponse
  | hi (version : UInt64)
  | blockHeight (height : UInt64)
  | nodeConfig (conf : NodeConfig)
  | nodeConfigHash (hash : Digest)
  | masterNodeList (list : List MasterNode)
  | masterNodeListHash (hash : Digest)
  | report (status : PeerRequestStatus)
  | getStats (report sig : Bytes)
  | good
  | error
  deriving DecidableEq

inductive ReqStat
  | good | bad
  deriving DecidableEq

/-- What is answered through the channel of a request, `RequestStatus` with its `GetStats`. -/
inductive Reply
  | status (s : RequestStatus)
  | getStats (report sig : Bytes)
  deriving DecidableEq

inductive RequestResp
  | requestError (e : RequestError)
  | requestStatus (r : Reply)
  deriving DecidableEq

inductive ClientResponse
  | hi (version : UInt64)
  | block (status : ReqStat)
  | stats (status : ReqStat)
  | request (status : RequestResp)
  | incompatibleVersion (version : UInt64)
  | getStats (status : RequestResp)
  | error
  deriving DecidableEq

section Wire

open Borsh

instance : Borsh RequestBlock := via (fun b => (b.id, b.body)) (fun (i, b) => ⟨i, b⟩) fun _ => rfl

instance : Borsh Stat :=
  via (fun s => (s.id, s.data, s.sig)) (fun (i, d, s) => ⟨i, d, s⟩) fun _ => rfl

instance : Borsh SessionSettings :=
  via (fun s => (s.lastRequestHeight, s.lastTimestamp)) (fun (h, t) => ⟨h, t⟩) fun _ => rfl

instance : Borsh Request := via (fun r => (r.req, r.sign)) (fun (r, s) => ⟨r, s⟩) fun _ => rfl

instance : Borsh NodeReport :=
  via (fun r => (r.report, r.sig)) (fun (r, s) => ⟨r, s⟩) fun _ => rfl

instance : Borsh MasterNode :=
  via (fun n => (n.pubkey, n.addr)) (fun (k, a) => ⟨k, a⟩) fun _ => rfl

instance : Borsh OID where
  ser
    | .cpu o => variant 0 o
    | .memory o => variant 1 o
    | .network o => variant 2 o
    | .storage o => variant 3 o
    | .all => some [4]
  de
    | 0 :: r => payload .cpu r
    | 1 :: r => payload .memory r
    | 2 :: r => payload .network r
    | 3 :: r => payload .storage r
    | 4 :: r => some (.all, r)
    | _ => none
  reset
    | .cpu o => .cpu (reset o)
    | .memory o => .memory (reset o)
    | .network o => .network (reset o)
    | .storage o => .storage (reset o)
    | .all => .all
  de_ser {x b} r h := by
    cases x
    case all =>
      simp only [Option.some.injEq] at h
      subst h
      rfl
    all_goals
      obtain ⟨p, hp, rfl⟩ := of_variant h
      exact payload_ser r hp
  ser_de {b r x} h := by
    split at h
    case h_5 =>
      simp only [Option.some.injEq, Prod.mk.injEq] at h
      obtain ⟨rfl, rfl⟩ := h
      exact ⟨rfl, [4], rfl, rfl⟩
    case h_6 => simp at h
    all_goals
      obtain ⟨y, rfl, hy, p, hp, rfl⟩ := of_payload h
      refine ⟨?_, _ :: p, by simp [variant, hp], rfl⟩
      conv_rhs => rw [← hy]

instance : Borsh ClientRequest where
  ser
    | .hello v k s => variant 0 (v, k, s)
    | .block b => variant 1 b
    | .stats s => variant 2 s
    | .request r => variant 3 r
    | .stat s => variant 4 s
    | .getStats k o => variant 5 (k, o)
  de
    | 0 :: r => payload (fun (v, k, s) => .hello v k s) r
    | 1 :: r => payload .block r
    | 2 :: r => payload .stats r
    | 3 :: r => payload .request r
    | 4 :: r => payload .stat r
    | 5 :: r => payload (fun (k, o) => .getStats k o) r
    | _ => none
  reset
    | .hello v k s => .hello v k (reset s)
    | .block b => .block (reset b)
    | .stats s => .stats (reset s)
    | .request r => .request (reset r)
    | .stat s => .stat (reset s)
    | .getStats k o => .getStats k (reset o)
  de_ser {x b} r h := by
    cases x <;>
      · obtain ⟨p, hp, rfl⟩ := of_variant h
        exact payload_ser r hp
  ser_de {b r x} h := by
    split at h
    case h_7 => simp at h
    all_goals
      obtain ⟨y, rfl, hy, p, hp, rfl⟩ := of_payload h
      refine ⟨?_, _ :: p, by simp [variant, hp], rfl⟩
      conv_rhs => rw [← hy]
    all_goals rfl

instance : Borsh PeerRequest where
  ser
    | .hello v k => variant 0 (v, k)
    | .helloSubscribe => some [1]
    | .blockHeight => some [2]
    | .nodeConfig => some [3]
    | .nodeConfigHash => some [4]
    | .masterNodeList => some [5]
    | .masterNodeListHash => some [6]
    | .unsubscribeDefaultNode => some [7]
    | .updateConfig c => variant 8 c
    | .updateMasterNodeList l => variant 9 l
    | .report r => variant 10 r
    | .getStats o => variant 11 o
  de
    | 0 :: r => payload (fun (v, k) => .hello v k) r
    | 1 :: r => some (.helloSubscribe, r)
    | 2 :: r => some (.blockHeight, r)
    | 3 :: r => some (.nodeConfig, r)
    | 4 :: r => some (.nodeConfigHash, r)
    | 5 :: r => some (.masterNodeList, r)
    | 6 :: r => some (.masterNodeListHash, r)
    | 7 :: r => some (.unsubscribeDefaultNode, r)
    | 8 :: r => payload .updateConfig r
    | 9 :: r => payload .updateMasterNodeList r
    | 10 :: r => payload .report r
    | 11 :: r => payload .getStats r
    | _ => none
  reset
    | .updateConfig c => .updateConfig (reset c)
    | .updateMasterNodeList l => .updateMasterNodeList (reset l)
    | .report r => .report (reset r)
    | .getStats o => .getStats (reset o)
    | p => p
  de_ser {x b} r h := by
    cases x
    case hello | updateConfig | updateMasterNodeList | report | getStats =>
      obtain ⟨p, hp, rfl⟩ := of_variant h
      exact payload_ser r hp
    all_goals
      simp only [Option.some.injEq] at h
      subst h
      rfl
  ser_de {b r x} h := by
    split at h
    case h_13 => simp at h
    case h_1 | h_9 | h_10 | h_11 | h_12 =>
      obtain ⟨y, rfl, hy, p, hp, rfl⟩ := of_payload h
      refine ⟨?_, _ :: p, by simp [variant, hp], rfl⟩
      conv_rhs => rw [← hy]
      try rfl
    all_goals
      simp only [Option.some.injEq, Prod.mk.injEq] at h
      obtain ⟨rfl, rfl⟩ := h
      exact ⟨rfl, [_], rfl, rfl⟩

end Wire

/-- `read_length_prefixed` with a limit, and the test for an empty frame after it. -/
def readFrame (limit : ℕ) (frame : Bytes) : Option Bytes :=
  if frame.length ≤ limit ∧ frame ≠ [] then some frame else none

end Nyumt
