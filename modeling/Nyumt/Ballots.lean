import Nyumt.Lib.Run
import Nyumt.Lib.Tally
import Nyumt.Master

/-!
# Ballots

Every vote that is counted is a ballot in one of two lists of tallies, `pending_blocks` for whether
a block is valid and `approved_blocks` for its place. A ballot is counted where a master proposes,
where it validates a block, and where `handle_incoming_data` takes a vote off the channel.
`Master.pendingOp` and `Master.approvedOp` say what a step does to either list. What both lists
have in common is a `Sheet`.
-/

namespace Nyumt

structure Ballot where
  /-- It is the master's own. -/
  own : Bool
  vote : Vote
  weight : ℕ
  deriving DecidableEq

def Ballot.heard (b : Ballot) : Bool := !b.own

/-- The weight of the ballots for `v`. -/
def Ballot.weightOf (v : Vote) (bs : List Ballot) : ℕ :=
  ((bs.filter fun b => b.vote = v).map Ballot.weight).sum

/-- The ballot of a master for what it proposes. -/
def Ballot.proposal : Ballot := ⟨true, .ok, Nyumt.vote⟩

def Pending.tally : Tally Pending Digest Ballot where
  key p := p.hash
  add p b := { p with votes := p.votes.add b.vote b.weight, voters := p.voters + 1 }
  key_add _ _ := rfl

def Approved.tally : Tally Approved (ℕ × Digest) Ballot where
  key a := (a.height, a.hash)
  add a b := { a with votes := a.votes.add b.vote b.weight, voters := a.voters + 1 }
  key_add _ _ := rfl

section Ops

open Tally (Op)

/-- What a step does to `pending_blocks`. -/
abbrev PendingOp := Op (Digest × List Ballot) Digest Ballot

/-- What a step does to `approved_blocks`. -/
abbrev ApprovedOp := Op ((ℕ × Digest) × List Ballot) (ℕ × Digest) Ballot

namespace Task

def pendingOp (t : Task) : PendingOp :=
  match t.pc with
  | .pushPending l => .enter (l.hash, [.proposal])
  | .clearPending l => .close (· = l.hash)
  | _ => .skip

def approvedOp (t : Task) : ApprovedOp :=
  match t.pc with
  | .pushApproved _ _ height hash => .enter ((height, hash), [.proposal])
  | .clearApproved height _ => .close (·.1 = height)
  | _ => .skip

end Task

namespace Handler

/-- The event the handler takes next. -/
def next (s : SwarmSettings) (h : Handler) : Option NetEvent :=
  match h.pc with
  | .recv => s.channel.head?
  | _ => none

def pendingOp (s : SwarmSettings) (h : Handler) : PendingOp :=
  match h.pc, h.next s with
  | .clearPending hash, _ => .close (· = hash)
  | _, some (.vote hash v weight) => .cast hash ⟨false, v, weight⟩
  | _, _ => .skip

def approvedOp (s : SwarmSettings) (h : Handler) : ApprovedOp :=
  match h.pc, h.next s with
  | .clearApproved _ _ rawHash, _ => .close (·.2 = rawHash)
  | _, some (.serialVote id hash v weight) => .cast (id.toNat, hash) ⟨false, v, weight⟩
  | _, _ => .skip

end Handler

def Gossip.pendingOp : Gossip → PendingOp
  | .accept block _ => .cast block.hash ⟨true, .ok, 1⟩
  | .clear block => .close (· = block.hash)
  | _ => .skip

namespace Master

def pendingOp (m : Master) : Act → PendingOp
  | .task i _ => (m.tasks[i]?).elim .skip Task.pendingOp
  | .handle _ _ => m.handler.pendingOp m.set
  | .dispatch (.block block) => .enter (block.hash, [])
  | .gossip _ _ => m.gossip.pendingOp
  | _ => .skip

def approvedOp (m : Master) : Act → ApprovedOp
  | .task i _ => (m.tasks[i]?).elim .skip Task.approvedOp
  | .handle _ _ => m.handler.approvedOp m.set
  | _ => .skip

end Master

/-- A list of tallies of a master: what it is, and what each step does to it. A tally is the count
of its ballots. -/
structure Sheet (K : Crypto) (ε κ : Type) [DecidableEq κ] where
  tally : Tally ε κ Ballot
  list : SwarmSettings → List ε
  op : Master → Master.Act → Op (κ × List Ballot) κ Ballot
  votes : ε → TotalVote
  start : κ → ε
  key_start : ∀ k, tally.key (start k) = k
  votes_start : ∀ k, votes (start k) = ⟨0, 0⟩
  votes_add : ∀ e b, votes (tally.add e b) = (votes e).add b.vote b.weight
  step_list : ∀ {m m' : Master} {a : Master.Act}, m.step K a = some m' → list m'.set
    = tally.apply (list m.set) ((op m a).map (Tally.Hom.counting start key_start).entry id)

end Ops

end Nyumt
