import Nyumt.Proofs.Ballots
import Nyumt.Toy

/-!
# Counting votes

`handle_incoming_data` adds each vote to all the tallies it is for, wherever they stand. So votes
that it handles one after another add up in each tally, and nothing else changes in the lists, in
whatever order the votes come (`Master.votes_run`).
-/

namespace Nyumt

open Tally

namespace NetEvent

def IsVote : NetEvent → Prop
  | .vote _ _ _ | .serialVote _ _ _ _ => True
  | _ => False

instance : DecidablePred IsVote
  | .vote _ _ _ | .serialVote _ _ _ _ => isTrue trivial
  | .newBlock _ _ | .archiveBlock _ | .pendingBlockTimeout _ | .approvedBlockTimeout _ _ _ =>
    isFalse id

end NetEvent

section Votes

variable (es : List NetEvent)

/-- The votes among the events on whether a block is valid. -/
def votesFor (hash : Digest) : List Ballot :=
  es.filterMap fun
    | .vote h v weight => if h = hash then some ⟨false, v, weight⟩ else none
    | _ => none

/-- Those on whether a block is to have a place. -/
def serialVotesFor (height : ℕ) (hash : Digest) : List Ballot :=
  es.filterMap fun
    | .serialVote id h v weight =>
      if id.toNat = height ∧ h = hash then some ⟨false, v, weight⟩ else none
    | _ => none

/-- With the weights of the votes for and against added. -/
def TotalVote.plus (t : TotalVote) (bs : List Ballot) : TotalVote :=
  ⟨t.ok + Ballot.weightOf .ok bs, t.no + Ballot.weightOf .no bs⟩

def Pending.count (p : Pending) : Pending :=
  let bs := votesFor es p.hash
  { p with votes := p.votes.plus bs, voters := p.voters + bs.length }

def Approved.count (a : Approved) : Approved :=
  let bs := serialVotesFor es a.height a.hash
  { a with votes := a.votes.plus bs, voters := a.voters + bs.length }

/-- With the votes counted in each tally. -/
def SwarmSettings.count (s : SwarmSettings) : SwarmSettings :=
  { s with
    pendingBlocks := s.pendingBlocks.map (Pending.count es)
    approvedBlocks := s.approvedBlocks.map (Approved.count es) }

end Votes

/-- With these events on the channel. -/
def Master.receiving (m : Master) (es : List NetEvent) : Master :=
  { m with set := { m.set with channel := es } }

section Ops

def NetEvent.pendingOp : NetEvent → Op Pending Digest Ballot
  | .vote hash v weight => .cast hash ⟨false, v, weight⟩
  | _ => .skip

def NetEvent.approvedOp : NetEvent → Op Approved (ℕ × Digest) Ballot
  | .serialVote id hash v weight => .cast (id.toNat, hash) ⟨false, v, weight⟩
  | _ => .skip

/-- What an event that is a vote does to the lists. -/
def SwarmSettings.tallied (s : SwarmSettings) (e : NetEvent) : SwarmSettings :=
  { s with
    pendingBlocks := Pending.tally.apply s.pendingBlocks e.pendingOp
    approvedBlocks := Approved.tally.apply s.approvedBlocks e.approvedOp }

theorem ballots_pendingOp (hash : Digest) (es : List NetEvent) :
    ballots hash (es.map NetEvent.pendingOp) = votesFor es hash := by
  rw [ballots, List.filterMap_map]
  refine List.filterMap_congr fun e _ => ?_
  cases e <;> rfl

theorem ballots_approvedOp (height : ℕ) (hash : Digest) (es : List NetEvent) :
    ballots (height, hash) (es.map NetEvent.approvedOp) = serialVotesFor es height hash := by
  rw [ballots, List.filterMap_map]
  refine List.filterMap_congr fun e _ => ?_
  cases e
  case serialVote id h v weight => simp [NetEvent.approvedOp, Op.ballot]
  all_goals rfl

theorem Pending.foldl_add (bs : List Ballot) (p : Pending) : bs.foldl Pending.tally.add p
    = { p with votes := p.votes.plus bs, voters := p.voters + bs.length } := by
  rw [TotalVote.plus, ← TotalVote.foldl_add]
  induction bs generalizing p with
  | nil => rfl
  | cons b bs ih =>
    rw [List.foldl_cons, ih]
    simp [Pending.tally, Nat.add_comm, Nat.add_left_comm]

theorem Approved.foldl_add (bs : List Ballot) (a : Approved) : bs.foldl Approved.tally.add a
    = { a with votes := a.votes.plus bs, voters := a.voters + bs.length } := by
  rw [TotalVote.plus, ← TotalVote.foldl_add]
  induction bs generalizing a with
  | nil => rfl
  | cons b bs ih =>
    rw [List.foldl_cons, ih]
    simp [Approved.tally, Nat.add_comm, Nat.add_left_comm]

theorem run_pendingOp (ps : List Pending) (es : List NetEvent) :
    Pending.tally.run ps (es.map NetEvent.pendingOp) = ps.map (Pending.count es) := by
  rw [run_eq_map]
  · refine List.map_congr_left fun p _ => ?_
    rw [Pending.foldl_add, show Pending.tally.key p = p.hash from rfl, ballots_pendingOp]
    rfl
  · intro o ho k
    obtain ⟨e, -, rfl⟩ := List.mem_map.1 ho
    cases e <;> exact id

theorem run_approvedOp (as : List Approved) (es : List NetEvent) :
    Approved.tally.run as (es.map NetEvent.approvedOp) = as.map (Approved.count es) := by
  rw [run_eq_map]
  · refine List.map_congr_left fun a _ => ?_
    rw [Approved.foldl_add, show Approved.tally.key a = (a.height, a.hash) from rfl,
      ballots_approvedOp]
    rfl
  · intro o ho k
    obtain ⟨e, -, rfl⟩ := List.mem_map.1 ho
    cases e <;> exact id

variable (s : SwarmSettings)

theorem count_nil : s.count [] = s := by
  simp only [SwarmSettings.count, ← run_pendingOp, ← run_approvedOp]
  rfl

/-- The first vote may be counted before the others. -/
theorem count_cons (e : NetEvent) (es : List NetEvent) :
    s.count (e :: es) = (s.tallied e).count es := by
  simp only [SwarmSettings.count, SwarmSettings.tallied, ← run_pendingOp, ← run_approvedOp]
  rfl

variable {s} {es es' : List NetEvent}

theorem count_perm (h : es.Perm es') : s.count es = s.count es' := by
  have hpending : Pending.count es = Pending.count es' := by
    funext p
    have hvotes : (votesFor es p.hash).Perm (votesFor es' p.hash) := h.filterMap _
    simp only [Pending.count, TotalVote.plus, Ballot.weightOf_perm hvotes, hvotes.length_eq]
  have happroved : Approved.count es = Approved.count es' := by
    funext a
    have hvotes : (serialVotesFor es a.height a.hash).Perm (serialVotesFor es' a.height a.hash) :=
      h.filterMap _
    simp only [Approved.count, TotalVote.plus, Ballot.weightOf_perm hvotes, hvotes.length_eq]
  simp only [SwarmSettings.count, hpending, happroved]

end Ops

section Fits

/-- A `u32` can hold them. -/
def TotalVote.Fits (t : TotalVote) (voters : ℕ) : Prop :=
  t.ok < 2 ^ 32 ∧ t.no < 2 ^ 32 ∧ voters < 2 ^ 32

def SwarmSettings.Fits (s : SwarmSettings) : Prop :=
  (∀ p ∈ s.pendingBlocks, p.votes.Fits p.voters) ∧ ∀ a ∈ s.approvedBlocks, a.votes.Fits a.voters

instance (t : TotalVote) (voters : ℕ) : Decidable (t.Fits voters) :=
  inferInstanceAs (Decidable (_ ∧ _ ∧ _))

instance (s : SwarmSettings) : Decidable s.Fits :=
  inferInstanceAs (Decidable ((∀ p ∈ s.pendingBlocks, p.votes.Fits p.voters)
    ∧ ∀ a ∈ s.approvedBlocks, a.votes.Fits a.voters))

theorem TotalVote.Fits.of_plus {t : TotalVote} {voters : ℕ} {bs : List Ballot}
    (h : (t.plus bs).Fits (voters + bs.length)) : t.Fits voters :=
  ⟨(Nat.le_add_right _ _).trans_lt h.1, (Nat.le_add_right _ _).trans_lt h.2.1,
    (Nat.le_add_right _ _).trans_lt h.2.2⟩

/-- What fits when all votes are counted fits before. -/
theorem SwarmSettings.Fits.of_count {s : SwarmSettings} {es : List NetEvent}
    (h : (s.count es).Fits) : s.Fits :=
  ⟨fun _ hp => (h.1 _ (List.mem_map_of_mem hp)).of_plus,
    fun _ ha => (h.2 _ (List.mem_map_of_mem ha)).of_plus⟩

/-- With the numbers as a `u32` has them. -/
def TotalVote.wrap (t : TotalVote) : TotalVote := ⟨t.ok % 2 ^ 32, t.no % 2 ^ 32⟩

def SwarmSettings.wrap (s : SwarmSettings) : SwarmSettings :=
  { s with
    pendingBlocks := s.pendingBlocks.map fun p =>
      { p with votes := p.votes.wrap, voters := p.voters % 2 ^ 32 }
    approvedBlocks := s.approvedBlocks.map fun a =>
      { a with votes := a.votes.wrap, voters := a.voters % 2 ^ 32 } }

theorem TotalVote.Fits.wrap_eq {t : TotalVote} {voters : ℕ} (h : t.Fits voters) :
    t.wrap = t ∧ voters % 2 ^ 32 = voters := by
  refine ⟨?_, Nat.mod_eq_of_lt h.2.2⟩
  rw [TotalVote.wrap, Nat.mod_eq_of_lt h.1, Nat.mod_eq_of_lt h.2.1]

theorem SwarmSettings.Fits.wrap_eq {s : SwarmSettings} (h : s.Fits) : s.wrap = s := by
  have hpending : s.wrap.pendingBlocks = s.pendingBlocks := by
    refine (List.map_congr_left fun p hp => ?_).trans (List.map_id _)
    rw [(h.1 p hp).wrap_eq.1, (h.1 p hp).wrap_eq.2]
    rfl
  have happroved : s.wrap.approvedBlocks = s.approvedBlocks := by
    refine (List.map_congr_left fun a ha => ?_).trans (List.map_id _)
    rw [(h.2 a ha).wrap_eq.1, (h.2 a ha).wrap_eq.2]
    rfl
  calc s.wrap = { s with
          pendingBlocks := s.wrap.pendingBlocks, approvedBlocks := s.wrap.approvedBlocks } := rfl
    _ = s := by rw [hpending, happroved]

end Fits

namespace Master

variable {K : Crypto} {m : Master}

/-- A vote that is next on the channel does to the lists what it says, and nothing else happens. -/
theorem step_vote {e : NetEvent} (hpc : m.handler.pc = .recv) (he : e.IsVote)
    (es : List NetEvent) (okSent noSent : Bool) :
    (m.receiving (e :: es)).step K (.handle okSent noSent)
      = some (receiving { m with set := m.set.tallied e } es) := by
  cases e
  case vote hash v weight =>
    simp only [step, receiving, Handler.step, hpc, Handler.event, Option.bind_eq_bind,
      Option.bind_some, Option.pure_def, List.append_nil]
    rfl
  case serialVote id hash v weight =>
    have hcast : (m.set.castSerialVote id hash v weight).approvedBlocks
        = Approved.tally.apply m.set.approvedBlocks (.cast (id.toNat, hash) ⟨false, v, weight⟩) :=
      List.map_congr_left fun a _ => by simp [Approved.tally]
    simp only [step, receiving, Handler.step, hpc, Handler.event, Option.bind_eq_bind,
      Option.bind_some, Option.pure_def, List.append_nil, SwarmSettings.tallied,
      NetEvent.approvedOp, ← hcast]
    rfl
  all_goals exact he.elim

theorem run_votes {es : List NetEvent} {as : List (Bool × Bool)} {m : Master}
    (hpc : m.handler.pc = .recv) (hvotes : ∀ e ∈ es, e.IsVote) (hlen : as.length = es.length)
    (rest : List NetEvent) :
    Run.run (step K) (m.receiving (es ++ rest)) (as.map fun a => .handle a.1 a.2)
      = some (receiving { m with set := m.set.count es } rest) := by
  induction es generalizing as m with
  | nil =>
    obtain rfl := List.eq_nil_of_length_eq_zero hlen
    rw [count_nil]
    rfl
  | cons e es ih =>
    obtain ⟨a, as, rfl⟩ := List.exists_cons_of_length_eq_add_one hlen
    have hstep := step_vote (K := K) hpc (hvotes e List.mem_cons_self) (es ++ rest) a.1 a.2
    have hrun := @ih as { m with set := m.set.tallied e } hpc
      (fun e' he' => hvotes e' (List.mem_cons_of_mem _ he')) (Nat.succ.inj hlen)
    rw [List.cons_append, List.map_cons, Run.run_cons _ hstep, hrun, count_cons]

theorem fits_receiving {es : List NetEvent} : (m.receiving es).set.Fits ↔ m.set.Fits := Iff.rfl

/-- If the numbers fit in the end, they do so all along, and the sums of the program are exact. -/
theorem fits_votes {es : List NetEvent} {as : List (Bool × Bool)} {m : Master}
    (hpc : m.handler.pc = .recv) (hvotes : ∀ e ∈ es, e.IsVote) (hlen : as.length = es.length)
    (hfits : (m.set.count es).Fits) (rest : List NetEvent) :
    Run.Throughout (step K) (fun m => m.set.Fits) (m.receiving (es ++ rest))
      (as.map fun a => .handle a.1 a.2) := by
  induction es generalizing as m with
  | nil =>
    obtain rfl := List.eq_nil_of_length_eq_zero hlen
    exact fits_receiving.2 hfits.of_count
  | cons e es ih =>
    obtain ⟨a, as, rfl⟩ := List.exists_cons_of_length_eq_add_one hlen
    have hstep := step_vote (K := K) hpc (hvotes e List.mem_cons_self) (es ++ rest) a.1 a.2
    have hrest := @ih as { m with set := m.set.tallied e } hpc
      (fun e' he' => hvotes e' (List.mem_cons_of_mem _ he')) (Nat.succ.inj hlen)
      (by rw [← count_cons]; exact hfits)
    rw [List.cons_append, List.map_cons, Run.throughout_cons hstep]
    exact ⟨fits_receiving.2 hfits.of_count, hrest⟩

variable (K) in
/-- A step in which the numbers of the tallies are kept as `u32`s, which wrap. -/
def stepU32 (m : Master) (a : Act) : Option Master :=
  (m.step K a).map fun m => { m with set := m.set.wrap }

/-- If the numbers fit in the end, it makes no difference that they are `u32`s. -/
theorem run_stepU32 {es : List NetEvent} {as : List (Bool × Bool)} (hpc : m.handler.pc = .recv)
    (hvotes : ∀ e ∈ es, e.IsVote) (hlen : as.length = es.length) (hfits : (m.set.count es).Fits)
    (rest : List NetEvent) :
    Run.run (stepU32 K) (m.receiving (es ++ rest)) (as.map fun a => .handle a.1 a.2)
      = Run.run (step K) (m.receiving (es ++ rest)) (as.map fun a => .handle a.1 a.2) := by
  refine Run.run_congr (fun m a hkeep => ?_) (fits_votes hpc hvotes hlen hfits rest)
  unfold stepU32
  rcases hstep : m.step K a with _ | m'
  · rfl
  · rw [Option.map_some, (hkeep m' hstep).wrap_eq]

/-- The votes that are handled one after another, in any order, add up in the tallies they are for:
each tally stays where it is, with its key, and gains the weights of its votes and their number. So
it is with `u32`s, if they can hold what comes out. -/
theorem votes_run (K : Crypto) {m : Master} {es es' : List NetEvent} {as : List (Bool × Bool)}
    (hpc : m.handler.pc = .recv) (hvotes : ∀ e ∈ es, e.IsVote) (hperm : es'.Perm es)
    (hlen : as.length = es.length) (rest : List NetEvent) :
    Run.run (step K) (m.receiving (es' ++ rest)) (as.map fun a => .handle a.1 a.2)
        = some (receiving { m with set := m.set.count es } rest)
      ∧ ((m.set.count es).Fits →
        Run.run (stepU32 K) (m.receiving (es' ++ rest)) (as.map fun a => .handle a.1 a.2)
          = some (receiving { m with set := m.set.count es } rest)) := by
  have hvotes' : ∀ e ∈ es', e.IsVote := fun e he => hvotes e (hperm.mem_iff.1 he)
  have hlen' : as.length = es'.length := hlen.trans hperm.length_eq.symm
  have hrun := run_votes (K := K) hpc hvotes' hlen' rest
  rw [count_perm hperm] at hrun
  refine ⟨hrun, fun hfits => ?_⟩
  rw [← count_perm hperm] at hfits
  rw [run_stepU32 hpc hvotes' hlen' hfits, hrun]

section Toy

/-- Two tallies of one block, and two of the places of another. -/
def toyTallies : Master where
  set := {
    db := {}
    conf := .default toy
    pendingBlocks := [⟨zeroHash, ⟨1, 0⟩, 1⟩, ⟨zeroHash, ⟨0, 0⟩, 0⟩]
    approvedBlocks := [⟨1, zeroHash, ⟨1, 0⟩, 1⟩, ⟨2, zeroHash, ⟨1, 0⟩, 1⟩] }

def toyVotes : List NetEvent :=
  [.vote zeroHash .ok 1, .serialVote 1 zeroHash .no 2, .vote zeroHash .no 3]

theorem votes_run_toyVotes : Run.run (stepU32 toy) (toyTallies.receiving (toyVotes.reverse ++ []))
      (List.map (fun a : Bool × Bool => .handle a.1 a.2) (List.replicate 3 (true, true)))
    = some (receiving { toyTallies with set := toyTallies.set.count toyVotes } []) :=
  (votes_run toy rfl (by decide) (List.reverse_perm _) rfl []).2 (by decide)

example : ((toyTallies.set.count toyVotes).pendingBlocks.map fun p => (p.votes, p.voters))
    = [(⟨2, 3⟩, 3), (⟨1, 3⟩, 2)] := by
  decide

end Toy

end Master

end Nyumt
