import Nyumt.Block
import Nyumt.Check

/-!
# Request tasks

`sync` spawns a task for every block a client asks for. A task reads the last block, has the
request voted on and then its place (`publish`, `block_order_vote`), answers, writes the row and
interprets it; other tasks run at each `await`, so every step of a task is one access to what it
shares with them (`SwarmSettings`). How long it waits for votes is not in the step.

`SwarmSettings` also keeps what was handed to gossipsub (`sent`) and, as a history of the run
that no step reads, the calls of `interpret_block` (`applied`).
-/

namespace Nyumt

open Borsh

structure TotalVote where
  ok : ℕ
  no : ℕ
  deriving DecidableEq

structure Pending where
  hash : Digest
  votes : TotalVote
  voters : ℕ
  deriving DecidableEq

structure Approved where
  height : ℕ
  hash : Digest
  votes : TotalVote
  voters : ℕ
  deriving DecidableEq

inductive NetEvent
  | newBlock (body : BodyData) (hash : Digest)
  | archiveBlock (blockInfo : ArchiveBlock)
  | vote (hash : Digest) (v : Vote) (weight : ℕ)
  | serialVote (id : UInt64) (hash : Digest) (v : Vote) (weight : ℕ)
  | pendingBlockTimeout (hash : Digest)
  | approvedBlockTimeout (height : ℕ) (hash rawHash : Digest)
  deriving DecidableEq

structure SwarmSettings where
  db : Database
  /-- The master part of the configuration. -/
  conf : MasterConfig
  pendingBlocks : List Pending := []
  approvedBlocks : List Approved := []
  channel : List NetEvent := []
  sent : List Bytes := []
  /-- The rows `interpret_block` was called for, and whether it committed. -/
  applied : List (OrderRow × Bool) := []

/-- The vote weight of every master. -/
def vote : ℕ := 1

/-- What gossipsub answers a publish. -/
inductive Publish
  | sent
  | insufficientPeers
  | failed
  deriving DecidableEq

inductive BlockPublishError
  | generalFailure | reqError | dupReq | rejected
  deriving DecidableEq

def BlockPublishError.status : BlockPublishError → RequestStatus
  | .dupReq => .dupReq
  | .rejected => .rejected
  | .generalFailure | .reqError => .reqError

/-- The variables of a task that has read the last block. -/
structure Locals where
  height : ℕ
  lastHash : Bytes
  bytes : Bytes
  hash : Digest
  deriving DecidableEq

/-- The next access of a request task. -/
inductive Pc
  | start
  | publish (l : Locals) (retry : ℕ)
  | pushPending (l : Locals)
  | readPending (l : Locals)
  | clearPending (l : Locals)
  | lastBlock (data : Block) (retry : ℕ)
  | publishArchive (data : Block) (retry height : ℕ) (hash : Digest)
  | pushApproved (data : Block) (retry height : ℕ) (hash : Digest)
  | readApproved (data : Block) (retry height : ℕ) (hash : Digest)
  | clearApproved (height : ℕ) (newBlock : Except BlockPublishError (ℕ × Digest))
  | reply (row : OrderRow)
  | insert (row : OrderRow)
  | interpret (row : OrderRow)
  | done
  deriving DecidableEq

def Pc.isDone : Pc → Bool
  | .done => true
  | _ => false

theorem Pc.isDone_iff {pc : Pc} : pc.isDone ↔ pc = .done := by
  cases pc <;> simp [isDone]

structure Task where
  body : BodyData
  pc : Pc := .start
  /-- What the client was sent. -/
  answer : Option RequestStatus := none
  /-- The row of the block that `Ok` was sent for. -/
  acked : Option OrderRow := none

namespace Task

variable (K : Crypto)

def goto (t : Task) (pc : Pc) : Task := { t with pc := pc }

/-- The answer that ends a task. -/
def finish (t : Task) (a : RequestStatus) : Task := { t with pc := .done, answer := some a }

/-- After the votes: the row to write. -/
def build (t : Task) (height : ℕ) (vhash : Option Digest) (hasher : Option Bytes) : Task :=
  match serializeBlock K t.body vhash hasher with
  | none => t.finish .nodeError
  | some (block, hash) => t.goto (.reply ⟨height, block, hash.toList⟩)

/-- `block_order_vote` up to its vote on the place. -/
def place (t : Task) (s : SwarmSettings) (data : Block) (retry : ℕ) : Task :=
  match s.db.getLastBlock with
  | none => t.finish .rejected
  | some (height, hash) =>
    t.goto (.publishArchive data retry (height + 1) (K.sha256 (hash ++ data.body)))

/-- The tally of the vote on a place. A block that nobody tallied is left as it was, which is
`ReqError`. -/
def tally (t : Task) (s : SwarmSettings) (data : Block) (retry height : ℕ) (hash : Digest) : Task :=
  match s.approvedBlocks.find? fun a => a.hash = hash with
  | none => t.goto (.clearApproved height (.error .reqError))
  | some a =>
    if a.votes.ok < a.votes.no then
      if s.conf.blockPushRetries.toNat ≤ retry then
        t.goto (.clearApproved height (.error .rejected))
      else t.goto (.lastBlock data (retry + 1))
    else t.goto (.clearApproved height (.ok (height, hash)))

/-- One step of a task; `net` is what gossipsub answers if the step publishes. -/
def step (s : SwarmSettings) (t : Task) (net : Publish) : Option (SwarmSettings × Task) :=
  match t.pc with
  | .start =>
    some (s, match s.db.getLastBlock with
      | none => t.finish .nodeError
      | some (height, lastHash) =>
        match serializeReq K t.body with
        | none => t.finish .nodeError
        | some (bytes, hash) => t.goto (.publish ⟨height + 1, lastHash, bytes, hash⟩ 0))
  | .publish l retry =>
    match net with
    | .sent => some ({ s with sent := s.sent ++ [l.bytes] }, t.goto (.pushPending l))
    | .insufficientPeers =>
      some (s, if ¬ s.db.multiMaster then t.build K l.height none (some l.lastHash)
        else if s.conf.blockPushRetries.toNat ≤ retry then t.finish .reqError
        else t.goto (.publish l (retry + 1)))
    | .failed => some (s, t.finish .reqError)
  | .pushPending l =>
    some ({ s with pendingBlocks := s.pendingBlocks ++ [⟨l.hash, ⟨vote, 0⟩, 1⟩] },
      t.goto (.readPending l))
  | .readPending l =>
    some (s, if s.pendingBlocks.any fun p => p.hash = l.hash ∧ p.votes.ok < p.votes.no then
      t.finish .rejected else t.goto (.clearPending l))
  | .clearPending l =>
    some ({ s with pendingBlocks := s.pendingBlocks.filter fun p => p.hash ≠ l.hash },
      match fromSlice NetData l.bytes with
      | some (.block data) => t.goto (.lastBlock data 0)
      | _ => t.finish .reqError)
  | .lastBlock data retry => some (s, t.place K s data retry)
  | .publishArchive data retry height hash =>
    match toVec (NetData.archiveBlock ⟨data.hash, hash, .ofNat height⟩) with
    | none => some (s, t.finish .reqError)
    | some bytes =>
      match net with
      | .sent =>
        some ({ s with sent := s.sent ++ [bytes] }, t.goto (.pushApproved data retry height hash))
      | .insufficientPeers =>
        some (s, if s.conf.blockPushRetries.toNat ≤ retry then t.finish .reqError
          else t.goto (.lastBlock data (retry + 1)))
      | .failed => some (s, t.finish .reqError)
  | .pushApproved data retry height hash =>
    some ({ s with approvedBlocks := s.approvedBlocks ++ [⟨height, hash, ⟨vote, 0⟩, 1⟩] },
      t.goto (.readApproved data retry height hash))
  | .readApproved data retry height hash => some (s, t.tally s data retry height hash)
  | .clearApproved height newBlock =>
    some ({ s with approvedBlocks := s.approvedBlocks.filter fun a => a.height ≠ height },
      match newBlock with
      | .ok (height, hash) => t.build K height (some hash) none
      | .error e => t.finish e.status)
  | .reply row =>
    some (s, { t with pc := .insert row, answer := some .ok, acked := some row })
  | .insert row =>
    match s.db.addNew row.id row.data row.hash with
    | none => some (s, t.goto .done)
    | some db => some ({ s with db := db }, t.goto (.interpret row))
  | .interpret row =>
    match interpretBlock s.db t.body.req with
    | none => some ({ s with applied := s.applied ++ [(row, false)] }, t.goto .done)
    | some (db, _) =>
      some ({ s with db := db, applied := s.applied ++ [(row, true)] }, t.goto .done)
  | .done => none

end Task

end Nyumt
