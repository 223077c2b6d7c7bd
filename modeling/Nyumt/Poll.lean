import Nyumt.Ballots

/-!
# Who voted

A vote on the channel does not say whose it is. `Poll` is a master with a record beside it that no
step of the master reads: who each event came from, and the ballots each tally has counted since it
was inserted, with the masters that cast them.
-/

namespace Nyumt

structure Cast where
  voter : PublicKey
  ballot : Ballot
  deriving DecidableEq

/-- The masters that cast `v`. -/
def Cast.voters (v : Vote) (cs : List Cast) : List PublicKey :=
  (cs.filter fun c => c.ballot.vote = v).map Cast.voter

/-- The vote weight that the node table holds for a master, and nothing for others. -/
def Tables.voteWeight (t : Tables) (k : PublicKey) : ℕ :=
  (((t.node.find? fun n => n.publicKey = k.bytes ∧ n.masterNode).bind NodeRow.voteWeight).map
    UInt32.toNat).getD 0

/-- The stored weights of the masters that cast `v`, each master taken once. -/
def Tables.weigh (t : Tables) (v : Vote) (cs : List Cast) : ℕ :=
  ((Cast.voters v cs).dedup.map t.voteWeight).sum

/-- A tally that weighs the votes it has counted as the node table says, one for each master. -/
structure Weighed (t : Tables) (votes : TotalVote) (cs : List Cast) : Prop where
  once : (cs.map Cast.voter).Nodup
  ok : votes.ok = t.weigh .ok cs
  no : votes.no = t.weigh .no cs

/-- How many events the action takes off the channel. -/
def Master.taken (m : Master) : Master.Act → ℕ
  | .handle _ _ => if (m.handler.next m.set).isSome then 1 else 0
  | _ => 0

instance (t : Tables) (votes : TotalVote) (cs : List Cast) : Decidable (Weighed t votes cs) :=
  decidable_of_iff
    ((cs.map Cast.voter).Nodup ∧ votes.ok = t.weigh .ok cs ∧ votes.no = t.weigh .no cs)
    ⟨fun h => ⟨h.1, h.2.1, h.2.2⟩, fun h => ⟨h.once, h.ok, h.no⟩⟩

structure Poll where
  master : Master
  /-- The key of the master. -/
  key : PublicKey
  /-- The channel, with who each event came from. -/
  events : List (PublicKey × NetEvent) := []
  /-- `pending_blocks`, each tally with the ballots it has counted. -/
  pending : List (Digest × List Cast) := []
  /-- `approved_blocks`, each tally with the ballots it has counted. -/
  approved : List ((ℕ × Digest) × List Cast) := []

namespace Poll

inductive Act
  /-- The gossip handler dispatches a message of another master. -/
  | dispatch (voter : PublicKey) (data : NetData)
  /-- What the master does itself. -/
  | own (a : Master.Act)

def Act.act : Act → Master.Act
  | .dispatch _ data => .dispatch data
  | .own a => a

variable (p : Poll)

/-- Who an event comes from that the action puts on the channel. -/
def origin : Act → PublicKey
  | .dispatch voter _ => voter
  | .own _ => p.key

/-- Who casts a ballot that the next step counts: the master itself, or whoever the event came from
that the handler takes. -/
def cast (b : Ballot) : Cast :=
  ⟨if b.own then p.key else (p.events.head?.map Prod.fst).getD p.key, b⟩

def entry {κ : Type} (e : κ × List Ballot) : κ × List Cast := (e.1, e.2.map p.cast)

def pendingOp (a : Act) : Tally.Op (Digest × List Cast) Digest Cast :=
  (p.master.pendingOp a.act).map p.entry p.cast

def approvedOp (a : Act) : Tally.Op ((ℕ × Digest) × List Cast) (ℕ × Digest) Cast :=
  (p.master.approvedOp a.act).map p.entry p.cast

def step (K : Crypto) (p : Poll) (a : Act) : Option Poll :=
  match a with
  | .own (.dispatch _) => none -- what is dispatched comes from another master
  | a => do
    let m ← p.master.step K a.act
    let rest := p.events.drop (p.master.taken a.act)
    return { p with
      master := m
      events := rest ++ (m.set.channel.drop rest.length).map fun e => (p.origin a, e)
      pending := Tally.board.apply p.pending (p.pendingOp a)
      approved := Tally.board.apply p.approved (p.approvedOp a) }

def init (key : PublicKey) (db : Database) (conf : MasterConfig) : Poll :=
  { master := .init db conf, key := key }

/-- Every tally weighs its votes as the node table says, one for each master. -/
def Weighed : Prop :=
  let t := p.master.set.db.toTables
  List.Forall₂ (fun q e => Nyumt.Weighed t q.votes e.2) p.master.set.pendingBlocks p.pending
    ∧ List.Forall₂ (fun a e => Nyumt.Weighed t a.votes e.2) p.master.set.approvedBlocks p.approved

instance : DecidablePred Weighed := fun _ => inferInstanceAs (Decidable (_ ∧ _))

end Poll

end Nyumt
