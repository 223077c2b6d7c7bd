import Nyumt.Lib.Loop
import Nyumt.Proofs.Steps
import Nyumt.Toy

/-!
# Waiting for votes

`await_votes` polls the number of connected peers and one of the two lists of tallies, until every
peer has voted or the time is up. The loop over the tallies stands inside the one that polls, and a
`break` in it leaves no other loop: the poll goes on whatever it sees (`awaited_iff`).
-/

namespace Nyumt

open Loop

structure Observation where
  peers : ℕ
  pendingBlocks : List Pending := []
  approvedBlocks : List Approved := []

namespace Observation

variable (hash : Digest) (pending : Bool) (o : Observation)

/-- A pass of the loop that polls, but for its sleep. -/
def body : Flow :=
  let connectedCount := 1 + o.peers
  if pending then
    forEach (fun p : Pending =>
      if p.hash = hash ∧ p.voters = connectedCount then .brk 0 else .next) o.pendingBlocks
  else
    forEach (fun p : Approved =>
      if p.hash = hash ∧ p.voters = connectedCount then .brk 0 else .next) o.approvedBlocks

/-- Some tally of the hash has counted every peer, and the master itself. -/
def AllVoted : Prop :=
  if pending then ∃ p ∈ o.pendingBlocks, p.hash = hash ∧ p.voters = 1 + o.peers
  else ∃ p ∈ o.approvedBlocks, p.hash = hash ∧ p.voters = 1 + o.peers

instance : Decidable (o.AllVoted hash pending) := by
  unfold AllVoted
  infer_instance

end Observation

/-- The poll at which the loop is left, if it is before the time is up; `os` is what is seen at the
polls until then. -/
def awaitVotes (hash : Digest) (pending : Bool) (os : List Observation) : Option ℕ :=
  polls (Observation.body hash pending) os

/-- The same with the event that is sent then. -/
def awaitVotesTx (hash : Digest) (approved : Option (ℕ × Digest)) (os : List Observation) :
    Option ℕ × NetEvent :=
  (awaitVotes hash approved.isNone os,
    match approved with
    | none => .pendingBlockTimeout hash
    | some (height, rawHash) => .approvedBlockTimeout height hash rawHash)

theorem Observation.body_eq_next (hash : Digest) (pending : Bool) (o : Observation) :
    o.body hash pending = .next := by
  unfold Observation.body
  cases pending <;>
    · refine forEach_eq_next fun p _ => ?_
      split_ifs
      · exact .inr rfl
      · exact .inl rfl

theorem awaitVotes_eq_none (hash : Digest) (pending : Bool) (os : List Observation) :
    awaitVotes hash pending os = none :=
  polls_eq_none_iff.2 fun o _ => o.body_eq_next hash pending

/-- The wait ends at the first poll that sees every vote, and only without one when the time is up,
if and only if no poll sees every vote. -/
theorem awaited_iff (hash : Digest) (pending : Bool) (os : List Observation) :
    awaitVotes hash pending os = os.findIdx? (·.AllVoted hash pending)
      ↔ ∀ o ∈ os, ¬ o.AllVoted hash pending := by
  rw [awaitVotes_eq_none, eq_comm, List.findIdx?_eq_none_iff]
  exact forall₂_congr fun o _ => decide_eq_false_iff_not

/-- Nobody else is connected, and the master's own vote is in. -/
theorem not_awaited : ¬ ∀ (hash : Digest) (pending : Bool) (os : List Observation),
    awaitVotes hash pending os = os.findIdx? (·.AllVoted hash pending) := by
  intro h
  exact absurd (h zeroHash true [⟨0, [⟨zeroHash, ⟨1, 0⟩, 1⟩], []⟩]) (by decide +kernel)

/-- The timers of the master's handler are such waits. -/
theorem Handler.event_timers {K : Crypto} {s : SwarmSettings} {h : Handler} {e t : NetEvent}
    {okSent noSent : Bool} (ht : t ∈ (Handler.event K s h e okSent noSent).2.2) :
    ∃ hash approved, ∀ os, (awaitVotesTx hash approved os).2 = t := by
  cases e
  case newBlock body hash =>
    obtain rfl : t = .pendingBlockTimeout hash := List.mem_singleton.1 ht
    exact ⟨hash, none, fun _ => rfl⟩
  case archiveBlock a =>
    obtain ⟨-, -, -, hnil | ⟨body, _, height, hash, -, -, hone⟩⟩ :=
      archiveBlock_cases (K := K) (s := s) (h := h) a okSent noSent
    · exact (List.not_mem_nil (hnil ▸ ht)).elim
    · obtain rfl := List.mem_singleton.1 (hone ▸ ht)
      exact ⟨K.sha256 (hash ++ body), some (height + 1, a.hash), fun _ => rfl⟩
  all_goals exact (List.not_mem_nil ht).elim

end Nyumt
