import Mathlib.Data.Fintype.Card
import Nyumt.Proofs.Ballots
import Nyumt.Toy

/-!
# Verdicts on a block

The master that proposes a block and each master that voted Ok on it weigh No against Ok by the same
rule. The proposer starts from its own Ok and hears every other vote; a voter starts from its own Ok
too, and hears every vote but that one. The proposer publishes no vote for its block, so all voters
miss an Ok that the proposer counts, and the verdicts differ where that one decides
(`Voter.verdicts_agree_iff`).
-/

namespace Nyumt

open Tally

/-- What the masters `s` vote, as it is heard. -/
def votesOf {ι : Type} (ballot : ι → Vote) (s : Finset ι) : Multiset Ballot :=
  s.val.map fun i => ⟨false, ballot i, 1⟩

/-- A run of a master over the vote on a block. It hears some votes before it has a tally of the
block, which it then opens with the ballots `first`, and the others until it comes to its verdict.
It casts the ballots `own` itself. -/
structure Hearing (K : Crypto) (hash : Digest) (first own : List Ballot) where
  start : Master
  before : List Master.Act
  closed : Master
  opening : Master.Act
  opened : Master
  during : List Master.Act
  last : Master
  run_before : Run.run (Master.step K) start before = some closed
  fresh : ∀ p ∈ closed.set.pendingBlocks, p.hash ≠ hash
  opens : closed.pendingOp opening = .enter (hash, first)
  step_opening : closed.step K opening = some opened
  run_during : Run.run (Master.step K) opened during = some last
  /-- No other tally of the block is opened, and none is closed. -/
  alone : ∀ o ∈ (pendingSheet K).ops opened during, ¬ Pending.tally.Touches hash o
  casts : (ballots hash ((pendingSheet K).ops opened during)).filter Ballot.own = own

namespace Hearing

variable {K : Crypto} {hash : Digest} {first own : List Ballot} (h : Hearing K hash first own)

/-- The votes that come before there is a tally. -/
def early : List Ballot := (pendingSheet K).heard hash h.start h.before

def late : List Ballot := (pendingSheet K).heard hash h.opened h.during

/-- How many votes `v` come before there is a tally. -/
def missed (v : Vote) : ℕ := h.early.countP fun b => b.vote = v

/-- At the end there is one tally of the block. -/
theorem ofKey_last : ∃ p, (pendingSheet K).tally.ofKey hash h.last.set.pendingBlocks = [p]
    ∧ p.votes = ⟨Ballot.weightOf .ok (first ++ own ++ h.late),
      Ballot.weightOf .no (first ++ own ++ h.late)⟩ := by
  have hclosed : (pendingSheet K).tally.ofKey hash ((pendingSheet K).list h.closed.set) = [] :=
    List.filter_eq_nil_iff.2 fun p hp => by
      rw [decide_eq_true_eq]
      exact h.fresh p hp
  have hopened := (pendingSheet K).ofKey_of_enter h.step_opening h.opens
  have hlast := (pendingSheet K).ofKey_of_run h.run_during h.alone
  rw [hopened, hclosed, List.nil_append, List.map_singleton] at hlast
  refine ⟨_, hlast, ?_⟩
  have hperm : (own ++ h.late).Perm (ballots hash ((pendingSheet K).ops h.opened h.during)) := by
    have hparts := List.filter_append_perm Ballot.own
      (ballots hash ((pendingSheet K).ops h.opened h.during))
    rwa [h.casts] at hparts
  refine ((pendingSheet K).votes_foldl_add _ _).trans ?_
  simp only [Sheet.votes_entry, ← Ballot.weightOf_perm hperm, List.append_assoc,
    Ballot.weightOf_append]

variable {ι : Type} {ballot : ι → Vote} {s : Finset ι}

/-- A master that hears each vote of `s` once has counted those that it did not miss. -/
theorem missed_add_weightOf (hs : ((h.early ++ h.late : List Ballot) : Multiset Ballot)
    = votesOf ballot s) (v : Vote) :
    h.missed v + Ballot.weightOf v h.late = (s.filter fun i => ballot i = v).card := by
  have hone : ∀ b ∈ h.early ++ h.late, b.weight = 1 := fun b hb => by
    have hm : b ∈ votesOf ballot s := hs ▸ Multiset.mem_coe.2 hb
    obtain ⟨i, -, rfl⟩ := Multiset.mem_map.1 hm
    rfl
  have hlate : Ballot.weightOf v h.late = h.late.countP fun b => b.vote = v :=
    Ballot.weightOf_of_one fun b hb => hone b (List.mem_append_right _ hb)
  have hcount := congrArg (Multiset.countP fun b => b.vote = v) hs
  rw [Multiset.coe_countP, List.countP_append, votesOf, Multiset.countP_map] at hcount
  rw [hlate, missed, hcount]
  rfl

end Hearing

section Verdicts

variable (K : Crypto) (hash : Digest)

/-- The master whose task broadcast the block, from before it inserts its tally to where it reads
it. -/
structure Proposer extends Hearing K hash [.proposal] [] where
  task : ℕ
  locals : Locals
  hash_eq : locals.hash = hash
  opening_eq : ∃ net, opening = .task task net
  reads : ∃ t ∈ last.tasks[task]?, t.pc = .readPending locals

/-- A master whose gossip handler accepts the block, from before it is dispatched to where the
timeout of the vote is handled. -/
structure Voter extends Hearing K hash [] [⟨true, .ok, 1⟩] where
  waits : last.handler.pc = .recv
  timeout : last.set.channel.head? = some (.pendingBlockTimeout hash)
  candidate : hash ∈ last.handler.candidates

variable {K hash}

/-- The task ends with `Rejected`. -/
def Proposer.Rejects (P : Proposer K hash) : Prop :=
  ∃ m, P.last.step K (.task P.task .sent) = some m ∧
    ∃ t ∈ m.tasks[P.task]?, t.pc = .done ∧ t.answer = some .rejected

/-- The timeout drops the candidate. -/
def Voter.Drops (V : Voter K hash) : Prop :=
  ∃ m, V.last.step K (.handle true true) = some m ∧ hash ∉ m.handler.candidates

theorem Proposer.rejects_iff (P : Proposer K hash) : P.Rejects ↔
    Ballot.weightOf .ok P.late + 1 < Ballot.weightOf .no P.late := by
  obtain ⟨p, hp, hv⟩ := P.ofKey_last
  have hlt : p.votes.ok < p.votes.no
      ↔ Ballot.weightOf .ok P.late + 1 < Ballot.weightOf .no P.late := by
    rw [hv]
    simp [Ballot.weightOf, Ballot.proposal, vote, Nat.add_comm 1]
  have hany : (P.last.set.pendingBlocks.any fun q =>
      q.hash = P.locals.hash ∧ q.votes.ok < q.votes.no) ↔ p.votes.ok < p.votes.no := by
    rw [List.any_eq_true, P.hash_eq]
    have hmem : ∀ q, q ∈ P.last.set.pendingBlocks ∧ q.hash = hash ↔ q = p := fun q => by
      rw [← List.mem_singleton (a := q) (b := p), ← hp]
      exact (mem_ofKey (T := (pendingSheet K).tally) (k := hash)).symm
    constructor
    · rintro ⟨q, hq, hc⟩
      obtain ⟨hh, hc⟩ := of_decide_eq_true hc
      exact (hmem q).1 ⟨hq, hh⟩ ▸ hc
    · intro hc
      obtain ⟨hq, hh⟩ := (hmem p).2 rfl
      exact ⟨p, hq, decide_eq_true ⟨hh, hc⟩⟩
  obtain ⟨t, ht, hpc⟩ := P.reads
  rw [Option.mem_def] at ht
  rw [← hlt, ← hany]
  unfold Proposer.Rejects
  simp only [Master.step, ht, Task.step, hpc, Option.bind_eq_bind, Option.bind_some,
    Option.pure_def, Option.some.injEq, exists_eq_left']
  have hget : P.task < P.last.tasks.length := (List.getElem?_eq_some_iff.1 ht).1
  simp only [List.getElem?_set_self hget, Option.mem_def, Option.some.injEq, exists_eq_left']
  split_ifs with hc
  · exact iff_of_true ⟨rfl, rfl⟩ hc
  · exact iff_of_false (fun h => by simp [Task.goto] at h) hc

theorem Voter.drops_iff (V : Voter K hash) : V.Drops ↔
    Ballot.weightOf .ok V.late + 1 < Ballot.weightOf .no V.late := by
  obtain ⟨p, hp, hv⟩ := V.ofKey_last
  have hlt : p.votes.ok < p.votes.no
      ↔ Ballot.weightOf .ok V.late + 1 < Ballot.weightOf .no V.late := by
    rw [hv]
    simp [Ballot.weightOf, Nat.add_comm 1]
  have hfind : V.last.set.pendingBlocks.find? (fun q => q.hash = hash) = some p := by
    rw [← List.head?_filter]
    exact congrArg List.head? hp
  obtain ⟨channel, hch⟩ := List.head?_eq_some_iff.1 V.timeout
  rw [← hlt]
  unfold Voter.Drops
  simp only [Master.step, Handler.step, V.waits, hch, Handler.event, SwarmSettings.refused, hfind,
    Option.any_some, Option.bind_eq_bind, Option.bind_some, Option.pure_def, Option.some.injEq,
    exists_eq_left', decide_eq_true_eq]
  split_ifs with hc
  · simp [hc]
  · simp [hc, V.candidate]

/-- The verdicts of the proposer `p` and of a master `j` that voted Ok are the same just if one
more Ok, less what either missed, does not decide. Where nobody missed a vote that is unless the
others voted No once more than Ok. -/
theorem Voter.verdicts_agree_iff {ι : Type} [Fintype ι] [DecidableEq ι] {p j : ι}
    {ballot : ι → Vote} (P : Proposer K hash) (V : Voter K hash) (hj : j ≠ p) (hok : ballot j = .ok)
    (hP : ((P.early ++ P.late : List Ballot) : Multiset Ballot)
      = votesOf ballot (Finset.univ.erase p))
    (hV : ((V.early ++ V.late : List Ballot) : Multiset Ballot)
      = votesOf ballot ((Finset.univ.erase p).erase j)) :
    let votes v := ((Finset.univ.erase p).filter fun i => ballot i = v).card
    (P.Rejects ↔ V.Drops) ↔
      (votes .ok + 1 + P.missed .no < votes .no + P.missed .ok ↔
        votes .ok + V.missed .no < votes .no + V.missed .ok) := by
  intro votes
  have hj' : ∀ v, votes v = (((Finset.univ.erase p).erase j).filter fun i => ballot i = v).card
      + if v = .ok then 1 else 0 := fun v => by
    rw [Finset.filter_erase _ j]
    split_ifs with hv
    · refine (Finset.card_erase_add_one ?_).symm
      simp [hj, hok, hv]
    · rw [Finset.erase_eq_of_notMem (by simp [hok, Ne.symm hv])]
      rfl
  have hPok : P.missed .ok + Ballot.weightOf .ok P.late = votes .ok := P.missed_add_weightOf hP _
  have hPno : P.missed .no + Ballot.weightOf .no P.late = votes .no := P.missed_add_weightOf hP _
  have hVok : V.missed .ok + Ballot.weightOf .ok V.late + 1 = votes .ok := by
    rw [V.missed_add_weightOf hV, hj', if_pos rfl]
  have hVno : V.missed .no + Ballot.weightOf .no V.late = votes .no := by
    rw [V.missed_add_weightOf hV, hj', if_neg (by decide), Nat.add_zero]
  have hp : Ballot.weightOf .ok P.late + 1 < Ballot.weightOf .no P.late
      ↔ votes .ok + 1 + P.missed .no < votes .no + P.missed .ok := by
    omega
  have hv : Ballot.weightOf .ok V.late + 1 < Ballot.weightOf .no V.late
      ↔ votes .ok + V.missed .no < votes .no + V.missed .ok := by
    omega
  rw [P.rejects_iff, V.drops_iff, hp, hv]

end Verdicts

section Toys

open Master (step)

def toyStart : Master := .init toyPair (.default toy)

/-- The votes come in and are handled one by one. -/
def hearAll (vs : List Vote) : List Master.Act :=
  vs.flatMap fun v => [.dispatch (.vote toyLocals.hash v), .handle true true]

/-- A request comes in and its block is broadcast. -/
def toyBroadcast : List Master.Act := [.request (toyBody 1 []), .task 0 .sent, .task 0 .sent]

/-- A block that was dispatched is accepted and becomes a candidate. -/
def toyAccept : List Master.Act := List.replicate 5 (.gossip [true] true) ++ [.handle true true]

theorem exists_proposer (vs : List Vote) {late : List Ballot}
    (h : (Run.run (step lax) toyStart toyBroadcast).any fun c =>
      (∃ t ∈ c.tasks[0]?, t.pc = .pushPending toyLocals)
        ∧ (∀ p ∈ c.set.pendingBlocks, p.hash ≠ toyLocals.hash)
        ∧ (pendingSheet lax).heard toyLocals.hash toyStart toyBroadcast = []
        ∧ (c.step lax (.task 0 .sent)).any fun o =>
          (Run.run (step lax) o (hearAll vs)).any (fun l =>
            ∃ t ∈ l.tasks[0]?, t.pc = .readPending toyLocals) &&
          let ops := (pendingSheet lax).ops o (hearAll vs)
          (∀ o ∈ ops, ¬ Pending.tally.Touches toyLocals.hash o)
            ∧ (ballots toyLocals.hash ops).filter Ballot.own = []
            ∧ (pendingSheet lax).heard toyLocals.hash o (hearAll vs) = late) :
    ∃ P : Proposer lax toyLocals.hash, P.early = [] ∧ P.late = late := by
  simp only [Option.any_eq_true, decide_eq_true_eq, Bool.and_eq_true] at h
  obtain ⟨c, hc, ⟨t, ht, hpc⟩, hfresh, hearly, o, ho, ⟨l, hl, hread⟩, halone, hcasts, hlate⟩ := h
  rw [Option.mem_def] at ht
  have hopens : c.pendingOp (.task 0 .sent) = .enter (toyLocals.hash, [.proposal]) := by
    simp [Master.pendingOp, ht, Task.pendingOp, hpc]
  exact ⟨⟨⟨toyStart, toyBroadcast, c, .task 0 .sent, o, hearAll vs, l, hc, hfresh, hopens, ho, hl,
    halone, hcasts⟩, 0, toyLocals, rfl, ⟨_, rfl⟩, hread⟩, hearly, hlate⟩

theorem exists_voter (vs : List Vote) {late : List Ballot}
    (h : (toyStart.step lax (.dispatch (.block toyBlock))).any fun o =>
      let as := toyAccept ++ hearAll vs ++ [.timer 0]
      (Run.run (step lax) o as).any (fun l => l.handler.pc = .recv
        ∧ l.set.channel.head? = some (.pendingBlockTimeout toyLocals.hash)
        ∧ toyLocals.hash ∈ l.handler.candidates) &&
      let ops := (pendingSheet lax).ops o as
      (∀ o ∈ ops, ¬ Pending.tally.Touches toyLocals.hash o)
        ∧ (ballots toyLocals.hash ops).filter Ballot.own = [⟨true, .ok, 1⟩]
        ∧ (pendingSheet lax).heard toyLocals.hash o as = late) :
    ∃ V : Voter lax toyLocals.hash, V.early = [] ∧ V.late = late := by
  simp only [Option.any_eq_true, decide_eq_true_eq, Bool.and_eq_true] at h
  obtain ⟨o, ho, ⟨l, hl, hpc, htimeout, hcandidate⟩, halone, hcasts, hlate⟩ := h
  have hopens : toyStart.pendingOp (.dispatch (.block toyBlock)) = .enter (toyLocals.hash, []) := by
    have hhash : toyBlock.hash = toyLocals.hash := by decide +kernel
    rw [← hhash]
    rfl
  exact ⟨⟨⟨toyStart, [], toyStart, _, o, _, l, rfl, by simp [toyStart, Master.init], hopens, ho, hl,
    halone, hcasts⟩, hpc, htimeout, hcandidate⟩, rfl, hlate⟩

/-- One other master, which votes Ok. -/
theorem Voter.verdicts_agree_iff_one : ∃ (P : Proposer lax toyLocals.hash)
    (V : Voter lax toyLocals.hash), P.late = [⟨false, .ok, 1⟩] ∧ (P.Rejects ↔ V.Drops) := by
  obtain ⟨P, hPe, hPl⟩ : ∃ P : Proposer lax toyLocals.hash,
      P.early = [] ∧ P.late = [⟨false, .ok, 1⟩] := exists_proposer [.ok] (by decide +kernel)
  obtain ⟨V, hVe, hVl⟩ : ∃ V : Voter lax toyLocals.hash, V.early = [] ∧ V.late = [] :=
    exists_voter [] (by decide +kernel)
  let ballot : Fin 2 → Vote := fun _ => .ok
  have hP : ((P.early ++ P.late : List Ballot) : Multiset Ballot)
      = votesOf ballot (Finset.univ.erase 0) := by
    rw [hPe, hPl]
    decide
  have hV : ((V.early ++ V.late : List Ballot) : Multiset Ballot)
      = votesOf ballot ((Finset.univ.erase 0).erase 1) := by
    rw [hVe, hVl]
    decide
  refine ⟨P, V, hPl, (verdicts_agree_iff P V (by decide) rfl hP hV).2 ?_⟩
  simp only [Hearing.missed, hPe, hVe]
  decide

/-- One Ok and two No: the proposer goes on, and the master that voted Ok drops the block. -/
theorem Voter.not_verdicts_agree : ¬ ∀ (hash : Digest) (P : Proposer lax hash) (V : Voter lax hash)
    (p j : Fin 4) (ballot : Fin 4 → Vote), j ≠ p → ballot j = .ok →
    ((P.early ++ P.late : List Ballot) : Multiset Ballot) = votesOf ballot (Finset.univ.erase p) →
    ((V.early ++ V.late : List Ballot) : Multiset Ballot)
      = votesOf ballot ((Finset.univ.erase p).erase j) → (P.Rejects ↔ V.Drops) := by
  intro h
  obtain ⟨P, hPe, hPl⟩ : ∃ P : Proposer lax toyLocals.hash, P.early = []
      ∧ P.late = [⟨false, .ok, 1⟩, ⟨false, .no, 1⟩, ⟨false, .no, 1⟩] :=
    exists_proposer [.ok, .no, .no] (by decide +kernel)
  obtain ⟨V, hVe, hVl⟩ : ∃ V : Voter lax toyLocals.hash, V.early = []
      ∧ V.late = [⟨false, .no, 1⟩, ⟨false, .no, 1⟩] := exists_voter [.no, .no] (by decide +kernel)
  have hiff := h _ P V 0 1 (fun i => if i < 2 then .ok else .no) (by decide) rfl
    (by rw [hPe, hPl]; decide) (by rw [hVe, hVl]; decide)
  rw [P.rejects_iff, V.drops_iff, hPl, hVl] at hiff
  exact absurd hiff (by decide)

end Toys

end Nyumt
