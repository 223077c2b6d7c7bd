import Mathlib.Data.List.AList
import Nyumt.Sync

/-!
# A master

What runs beside the request tasks: the task that handles network events
(`handle_incoming_data`) with its map of candidate blocks, the gossip handler that verifies and
votes, and the timers that end a vote. `Master.step` lets one of them take its next step, in any
order. How long a vote lasts, what a publish gives and when the configuration changes is up to the
action.
-/

namespace Nyumt

open Borsh

variable (K : Crypto)

section Events

/-- The blocks that may be appended, by the hash of their body, each with its bytes. -/
abbrev Candidates := AList fun _ : Digest => Bytes × BodyData

inductive HandlerPc
  | recv
  | clearPending (hash : Digest)
  | clearApproved (height : ℕ) (hash rawHash : Digest)
  | append (height : ℕ) (hash rawHash : Digest)
  | stopped
  deriving DecidableEq

structure Handler where
  candidates : Candidates := ∅
  pc : HandlerPc := .recv

def TotalVote.add (t : TotalVote) (v : Vote) (weight : ℕ) : TotalVote :=
  match v with
  | .ok => { t with ok := t.ok + weight }
  | .no => { t with no := t.no + weight }

namespace SwarmSettings

def castVote (s : SwarmSettings) (hash : Digest) (v : Vote) (weight : ℕ) : SwarmSettings :=
  { s with pendingBlocks := s.pendingBlocks.map fun p =>
      if p.hash = hash then { p with
        votes := p.votes.add v weight
        voters := p.voters + 1 }
      else p }

def castSerialVote (s : SwarmSettings) (id : UInt64) (hash : Digest) (v : Vote) (weight : ℕ) :
    SwarmSettings :=
  { s with approvedBlocks := s.approvedBlocks.map fun a =>
      if a.height = id.toNat ∧ a.hash = hash then
        { a with votes := a.votes.add v weight, voters := a.voters + 1 } else a }

def publish (s : SwarmSettings) (went : Bool) (bytes : Bytes) : SwarmSettings :=
  if went then { s with sent := s.sent ++ [bytes] } else s

/-- `no > ok` in the first tally of the hash. -/
def refused (s : SwarmSettings) (hash : Digest) : Bool :=
  (s.pendingBlocks.find? fun p => p.hash = hash).any fun p => p.votes.ok < p.votes.no

/-- `no < ok` in the first tally of the hash. -/
def quorum (s : SwarmSettings) (hash : Digest) : Bool :=
  (s.approvedBlocks.find? fun a => a.hash = hash).any fun a => a.votes.no < a.votes.ok

end SwarmSettings

namespace Handler

/-- The request to place a block: a vote for it if the block would come next here, and one
against it in any case. The timer is spawned before the votes are published. -/
def archiveBlock (s : SwarmSettings) (h : Handler) (a : ArchiveBlock) (okSent noSent : Bool) :
    SwarmSettings × Handler × List NetEvent :=
  let against (s : SwarmSettings) (timers : List NetEvent) :=
    match toVec (NetData.serialVote a.id a.hash .no) with
    | some v => (s.publish noSent v, h, timers)
    | none => (s, { h with pc := .stopped }, timers)
  match h.candidates.lookup a.hash with
  | none => against s []
  | some (body, _) =>
    match s.db.getLastBlock with
    | none => (s, h, [])
    | some (height, hash) =>
      let finhash := K.sha256 (hash ++ body)
      if finhash = a.serialHash ∧ height + 1 = a.id.toNat then
        let timers := [.approvedBlockTimeout (height + 1) finhash a.hash]
        match toVec (NetData.serialVote (.ofNat (height + 1)) finhash .ok) with
        | some v => against (s.publish okSent v) timers
        | none => (s, { h with pc := .stopped }, timers)
      else against s []

/-- What an event does at once, and the timers it spawns. -/
def event (s : SwarmSettings) (h : Handler) (e : NetEvent) (okSent noSent : Bool) :
    SwarmSettings × Handler × List NetEvent :=
  match e with
  | .vote hash v weight => (s.castVote hash v weight, h, [])
  | .serialVote id hash v weight => (s.castSerialVote id hash v weight, h, [])
  | .newBlock body hash =>
    (s, match toVec body with
      | some v => { h with candidates := h.candidates.insert hash (v, body) }
      | none => h,
      [.pendingBlockTimeout hash])
  | .archiveBlock a => archiveBlock K s h a okSent noSent
  | .pendingBlockTimeout hash =>
    (s, { candidates := if s.refused hash then h.candidates.erase hash else h.candidates
          pc := .clearPending hash }, [])
  | .approvedBlockTimeout height hash rawHash =>
    (s, if rawHash ∈ h.candidates ∧ s.quorum hash then
      { h with pc := .clearApproved height hash rawHash } else h, [])

/-- One step of `handle_incoming_data`. The filter of `approved_blocks` compares a chain hash with
the hash of a body. A block is written here without being interpreted. -/
def step (s : SwarmSettings) (h : Handler) (okSent noSent : Bool) :
    Option (SwarmSettings × Handler × List NetEvent) :=
  match h.pc with
  | .recv =>
    match s.channel with
    | [] => none
    | e :: channel => some (event K { s with channel := channel } h e okSent noSent)
  | .clearPending hash =>
    some ({ s with pendingBlocks := s.pendingBlocks.filter fun p => p.hash ≠ hash },
      { h with pc := .recv }, [])
  | .clearApproved height hash rawHash =>
    some ({ s with approvedBlocks := s.approvedBlocks.filter fun a => a.hash ≠ rawHash },
      { h with pc := .append height hash rawHash }, [])
  | .append height hash rawHash =>
    match h.candidates.lookup rawHash with
    | none => none -- only this task removes a candidate
    | some (body, _) =>
      let h : Handler := { candidates := h.candidates.erase rawHash, pc := .recv }
      match toVec (Block.mk hash body) with
      | none => some (s, h, [])
      | some block =>
        some ({ s with db := (s.db.addNew height block hash.toList).getD s.db }, h, [])
  | .stopped => none

end Handler

end Events

section Gossip

/-- The next access of the gossip handler. -/
inductive Gossip
  | idle
  | user (block : Block) (v : BodyData)
  | check (block : Block) (v : BodyData) (perm : Permissions) (c : Check)
  | accept (block : Block) (v : BodyData)
  | vote (block : Block) (v : BodyData)
  | refuse (block : Block)
  | clear (block : Block)

namespace Gossip

/-- What a message is dispatched to. A block gets a tally of its own before it is looked at. -/
def dispatch (s : SwarmSettings) : NetData → SwarmSettings × Gossip
  | .vote hash v => ({ s with channel := s.channel ++ [.vote hash v 1] }, .idle)
  | .serialVote height hash v =>
    ({ s with channel := s.channel ++ [.serialVote height hash v 1] }, .idle)
  | .archiveBlock v => ({ s with channel := s.channel ++ [.archiveBlock v] }, .idle)
  | .block block =>
    ({ s with pendingBlocks := s.pendingBlocks ++ [⟨block.hash, ⟨0, 0⟩, 0⟩] },
      if verifyHash K block.body block.hash then
        match fromSlice BodyData block.body with
        | some v => .user block v
        | none => .refuse block
      else .refuse block)

/-- One step of the handler inside a block. `votes` says which attempts to publish the vote for
it would go through, `noSent` whether the one against it would. -/
def step (s : SwarmSettings) (votes : List Bool) (noSent : Bool) :
    Gossip → Option (SwarmSettings × Gossip)
  | .idle => none
  | .user block v =>
    some (s, match s.db.permissionsOf v.userPk with
      | some perm => .check block v perm (.start K block.body v.req v.userPk v.sign)
      | none => .refuse block)
  | .check block v perm c =>
    some (s, match c with
      | .done (.ok none) => .accept block v
      | .done _ => .refuse block
      | c => .check block v perm (c.step s.db.toTables v.userPk perm))
  | .accept block v => some (s.castVote block.hash .ok 1, .vote block v)
  | .vote block v =>
    match toVec (NetData.vote block.hash .ok) with
    | some bytes =>
      if (votes.take s.conf.votePushRetries.toNat).any id then
        some ({ s with
          sent := s.sent ++ [bytes]
          channel := s.channel ++ [.newBlock v block.hash] }, .idle)
      else some (s, .refuse block)
    | none => some (s, .refuse block)
  | .refuse block =>
    some (match toVec (NetData.vote block.hash .no) with
      | some bytes => s.publish noSent bytes
      | none => s, .clear block)
  | .clear block =>
    some ({ s with pendingBlocks := s.pendingBlocks.filter fun p => p.hash ≠ block.hash }, .idle)

end Gossip

end Gossip

structure Master where
  set : SwarmSettings
  handler : Handler := {}
  gossip : Gossip := .idle
  timers : List NetEvent := []
  tasks : List Task := []

namespace Master

inductive Act
  /-- `sync` takes a request and spawns its task. -/
  | request (body : BodyData)
  | task (i : ℕ) (net : Publish)
  | handle (okSent noSent : Bool)
  | timer (i : ℕ)
  /-- The gossip handler dispatches a message. -/
  | dispatch (data : NetData)
  | gossip (votes : List Bool) (noSent : Bool)
  /-- `send_update` installs a configuration. -/
  | configure (conf : MasterConfig)

/-- What happens where there is no other master: nothing is received, no publish finds a peer. -/
def Act.Single : Act → Prop
  | .request _ | .configure _ => True
  | .task _ net => net ≠ .sent
  | .handle _ _ | .timer _ | .dispatch _ | .gossip _ _ => False

instance : DecidablePred Act.Single
  | .request _ | .configure _ => isTrue trivial
  | .task _ net => inferInstanceAs (Decidable (net ≠ .sent))
  | .handle _ _ | .timer _ | .dispatch _ | .gossip _ _ => isFalse id

def step (m : Master) : Act → Option Master
  | .request body => some { m with tasks := m.tasks ++ [{ body := body }] }
  | .task i net => do
    let t ← m.tasks[i]?
    let (s, t) ← t.step K m.set net
    return { m with set := s, tasks := m.tasks.set i t }
  | .handle okSent noSent => do
    let (s, h, timers) ← m.handler.step K m.set okSent noSent
    return { m with set := s, handler := h, timers := m.timers ++ timers }
  | .timer i => do
    let e ← m.timers[i]?
    return { m with
      set := { m.set with channel := m.set.channel ++ [e] }
      timers := m.timers.eraseIdx i }
  | .dispatch data =>
    match m.gossip with
    | .idle =>
      let (s, g) := Gossip.dispatch K m.set data
      some { m with set := s, gossip := g }
    | _ => none
  | .gossip votes noSent => do
    let (s, g) ← m.gossip.step K m.set votes noSent
    return { m with set := s, gossip := g }
  | .configure conf => some { m with set := { m.set with conf := conf } }

/-- Neither a request task nor the handler of network events nor the gossip handler is midway. -/
def idle (m : Master) : Bool :=
  (m.tasks.all fun t => match t.pc with
    | .start | .done => true
    | _ => false)
  && (m.handler.pc = .recv || m.handler.pc = .stopped)
  && match m.gossip with
    | .idle => true
    | _ => false

/-- Every task has ended. -/
def finished (m : Master) : Bool := m.tasks.all fun t => t.pc.isDone

/-- Every event has been handled, every timer has fired and every task has ended. -/
def atRest (m : Master) : Bool :=
  m.set.channel = [] && m.timers = [] && m.idle && m.finished

/-- A master that has just started on a database. -/
def init (db : Database) (conf : MasterConfig) : Master := { set := { db := db, conf := conf } }

end Master

end Nyumt
