import Nyumt.Proofs.Ballots
import Nyumt.Toy

/-!
# Votes on a proposal

A task broadcasts a proposal, inserts a tally of it, waits and reads the tally, while
`handle_incoming_data` counts the votes. What is read has counted every vote handled since the
broadcast if and only if each of them found a tally of the proposal and no tally of it was closed
after the first of them (`Sheet.included_iff`). The tally is inserted after the broadcast, so a vote
that is handled in between may find none.
-/

namespace Nyumt

open Tally

variable {K : Crypto}

namespace Sheet

variable {ε κ : Type} [DecidableEq κ] (S : Sheet K ε κ) (k : κ)

/-- The list after a run, each tally with the ballots it has counted along the run. -/
def since (m : Master) (as : List Master.Act) : List (ε × List Ballot) :=
  S.tally.since (S.list m.set) (S.ops m as)

/-- The first tally of the list with a key of `q` is of `k`, and it has counted the votes heard. -/
def Included (q : κ → Bool) (m : Master) (as : List Master.Act) : Prop :=
  S.heard k m as = [] ∨ ∃ e, (S.since m as).find? (fun e => q (S.tally.key e.1)) = some e
    ∧ S.tally.key e.1 = k ∧ e.2.filter Ballot.heard = S.heard k m as

instance (q : κ → Bool) (m : Master) (as : List Master.Act) : Decidable (S.Included k q m as) :=
  inferInstanceAs (Decidable (S.heard k m as = [] ∨
    ∃ e ∈ (S.since m as).find? fun e => q (S.tally.key e.1),
      S.tally.key e.1 = k ∧ e.2.filter Ballot.heard = S.heard k m as))

/-- Each vote heard finds a tally of the key, and none is closed after it. -/
def Covered (m : Master) (as : List Master.Act) : Prop :=
  ∀ pre a post u, as = pre ++ a :: post → Run.run (Master.step K) m pre = some u →
    (((S.op u a).ballot k).any Ballot.heard → ∃ e ∈ S.list u.set, S.tally.key e = k) ∧
      ((S.op u a).Closes k → S.heard k m pre = [])

variable {S k} {m m' : Master} {as : List Master.Act} {q : κ → Bool}

theorem map_fst_since (h : Run.run (Master.step K) m as = some m') :
    (S.since m as).map Prod.fst = S.list m'.set :=
  Tally.map_fst_since.trans (S.run_list h)

/-- The ballots beside a tally are those its numbers count beyond what it was at first. -/
theorem votes_of_mem_since {e : ε} {bs : List Ballot} (he : (e, bs) ∈ S.since m as) :
    ∃ a, (a ∈ S.list m.set ∨ .enter a ∈ S.ops m as) ∧ S.votes e
      = ⟨(S.votes a).ok + Ballot.weightOf .ok bs, (S.votes a).no + Ballot.weightOf .no bs⟩ := by
  obtain ⟨a, ha, hc⟩ := of_mem_since he
  refine ⟨a, ha, ?_⟩
  simp only at hc
  rw [hc, S.votes_foldl_add]

theorem covered_iff (h : Run.run (Master.step K) m as = some m') : S.Covered k m as ↔
    S.tally.Covered k Ballot.heard (S.list m.set) (S.ops m as) := by
  have hobs := Run.forall_observe (f := fun m a => (S.op m a).map S.counting.entry id)
    (P := fun pre o => ((o.ballot k).any Ballot.heard →
      S.tally.ofKey k (S.tally.run (S.list m.set) pre) ≠ [])
        ∧ (o.Closes k → kept k Ballot.heard pre = [])) h
  refine Iff.trans ?_ hobs.symm
  refine forall_congr' fun pre => forall_congr' fun a => forall_congr' fun post =>
    forall_congr' fun u => forall_congr' fun _ => forall_congr' fun hu => ?_
  have hlist := S.run_list hu
  refine and_congr (imp_congr ?_ ?_) (imp_congr ?_ Iff.rfl)
  · rw [Op.ballot_map, Option.map_id_fun, id_eq]
  · rw [ops] at hlist
    rw [hlist]
    constructor
    · rintro ⟨e, he⟩
      exact List.ne_nil_of_mem (mem_ofKey.2 he)
    · exact fun hne => (List.exists_mem_of_ne_nil _ hne).imp fun e => mem_ofKey.1
  · exact (Op.closes_map _ _ _ _).symm

theorem included_iff (h : Run.run (Master.step K) m as = some m') (hq : q k) :
    S.Included k q m as ↔ S.Covered k m as ∧ (S.heard k m as = [] ∨
      ∃ e, (S.list m'.set).find? (fun e => q (S.tally.key e)) = some e ∧ S.tally.key e = k) := by
  rw [covered_iff h, ← S.run_list h]
  exact Tally.included_iff hq

theorem included_self_iff (h : Run.run (Master.step K) m as = some m') :
    S.Included k (fun k' => k' = k) m as ↔ S.Covered k m as := by
  rw [covered_iff h]
  exact Tally.included_self_iff

end Sheet

/-- What a task has others vote on: whether its block is valid, in `publish`, and the place of the
block, in `block_order_vote`. -/
inductive Proposal
  | valid (l : Locals) (retry : ℕ)
  | place (data : Block) (retry height : ℕ) (hash : Digest)

namespace Proposal

/-- Where a task broadcasts the proposal. -/
def broadcast : Proposal → Pc
  | .valid l retry => .publish l retry
  | .place data retry height hash => .publishArchive data retry height hash

/-- Where it reads the tally. -/
def read : Proposal → Pc
  | .valid l _ => .readPending l
  | .place data retry height hash => .readApproved data retry height hash

variable (K) in
/-- Task `i` has broadcast the proposal in the step to `m`, and after `as` it reads the tally. -/
structure Awaited (p : Proposal) (i : ℕ) (m : Master) (as : List Master.Act) (m' : Master) :
    Prop where
  broadcast : ∃ u : Master, u.step K (.task i .sent) = some m
    ∧ ∃ t ∈ u.tasks[i]?, t.pc = p.broadcast
  run : Run.run (Master.step K) m as = some m'
  read : ∃ t ∈ m'.tasks[i]?, t.pc = p.read

variable (K) in
/-- The tally that is read has counted every vote for the proposal that `handle_incoming_data` took
since. That of a place is looked for by the hash only. -/
def Included (p : Proposal) (m : Master) (as : List Master.Act) : Prop :=
  match p with
  | .valid l _ => (pendingSheet K).Included l.hash (· = l.hash) m as
  | .place _ _ height hash => (approvedSheet K).Included (height, hash) (·.2 = hash) m as

variable (K) in
/-- Each vote for the proposal finds a tally of it, and none is closed after it; the first tally
with the hash of a place is of its height, if there was a vote. -/
def Covered (p : Proposal) (m : Master) (as : List Master.Act) (m' : Master) : Prop :=
  match p with
  | .valid l _ => (pendingSheet K).Covered l.hash m as
  | .place _ _ height hash => (approvedSheet K).Covered (height, hash) m as
    ∧ ((approvedSheet K).heard (height, hash) m as = []
      ∨ ∃ a, m'.set.approvedBlocks.find? (fun a => a.hash = hash) = some a ∧ a.height = height)

instance (m : Master) (as : List Master.Act) : DecidablePred fun p => Included K p m as
  | .valid l _ => inferInstanceAs (Decidable ((pendingSheet K).Included l.hash (· = l.hash) m as))
  | .place _ _ height hash =>
    inferInstanceAs (Decidable ((approvedSheet K).Included (height, hash) (·.2 = hash) m as))

variable {p : Proposal} {i : ℕ} {m m' : Master} {as : List Master.Act}

/-- Every vote handled between the broadcast and the read is in the tally that is read just if each
of them finds a tally and none is closed after it. -/
theorem votes_included_iff (h : p.Awaited K i m as m') :
    p.Included K m as ↔ p.Covered K m as m' := by
  cases p with
  | valid l retry => exact Sheet.included_self_iff h.run
  | place data retry height hash =>
    have hi := Sheet.included_iff (S := approvedSheet K) (k := (height, hash))
      (q := fun k => k.2 = hash) h.run (decide_eq_true rfl)
    refine hi.trans
      (and_congr_right fun _ => or_congr_right (exists_congr fun a => and_congr_right fun ha => ?_))
    have hhash := List.find?_some ha
    have hah : a.hash = hash := of_decide_eq_true hhash
    constructor
    · exact fun hk => congrArg Prod.fst hk
    · exact fun hh => Prod.ext hh hah

/-- The first task of a second master proposes that block. -/
theorem awaited_toyLocals (as : List Master.Act) {P : Master → Bool}
    (h : (Run.run (Master.step toy) (.init toyPair (.default toy))
        [.request (toyBody 1 []), .task 0 .sent]).any fun u =>
      (∃ t ∈ u.tasks[0]?, t.pc = .publish toyLocals 0) ∧ (u.step toy (.task 0 .sent)).any fun m =>
        (Run.run (Master.step toy) m as).any (fun m' => ∃ t ∈ m'.tasks[0]?,
          t.pc = .readPending toyLocals) && P m) :
    ∃ m m', (valid toyLocals 0).Awaited toy 0 m as m' ∧ P m := by
  simp only [Option.any_eq_true, decide_eq_true_eq, Bool.and_eq_true] at h
  obtain ⟨u, -, ht, m, hm, ⟨m', hm', ht'⟩, hp⟩ := h
  exact ⟨m, m', ⟨⟨u, hm, ht⟩, hm', ht'⟩, hp⟩

/-- A vote that is handled once the tally is there. -/
theorem votes_included_iff_late :
    let as : List Master.Act :=
      [.task 0 .sent, .dispatch (.vote toyLocals.hash .no), .handle true true]
    ∃ m m', (valid toyLocals 0).Awaited toy 0 m as m' ∧ (pendingSheet toy).heard toyLocals.hash m as
        = [⟨false, .no, 1⟩] ∧ (valid toyLocals 0).Included toy m as
      ∧ (valid toyLocals 0).Covered toy m as m' := by
  intro as
  obtain ⟨m, m', ha, hp⟩ := awaited_toyLocals as (P := fun m =>
    (pendingSheet toy).heard toyLocals.hash m as = [⟨false, .no, 1⟩]
      ∧ (valid toyLocals 0).Included toy m as) (by decide +kernel)
  simp only [decide_eq_true_eq] at hp
  exact ⟨m, m', ha, hp.1, hp.2, (votes_included_iff ha).1 hp.2⟩

/-- A vote that is handled before. -/
theorem not_votes_included : ¬ ∀ (p : Proposal) (i : ℕ) (m m' : Master) (as : List Master.Act),
    p.Awaited toy i m as m' → p.Included toy m as := by
  intro h
  let as : List Master.Act :=
    [.dispatch (.vote toyLocals.hash .no), .handle true true, .task 0 .sent]
  obtain ⟨m, m', ha, hp⟩ := awaited_toyLocals as (P := fun m =>
    ¬ (valid toyLocals 0).Included toy m as) (by decide +kernel)
  simp only [decide_eq_true_eq] at hp
  exact hp (h _ _ _ _ _ ha)

end Proposal

end Nyumt
