import Mathlib.Algebra.BigOperators.Group.List.Basic
import Nyumt.Ballots
import Nyumt.Proofs.Steps

/-!
# What a step does to the tallies

The two lists of tallies change as `Master.pendingOp` and `Master.approvedOp` say
(`Master.step_tallied`), so they are sheets (`pendingSheet`, `approvedSheet`), and along a run a
sheet is what the operations of the run make of it (`Sheet.run_list`).
-/

namespace Nyumt

open Borsh Tally

variable {K : Crypto}

section Counts

theorem TotalVote.foldl_add (bs : List Ballot) (t : TotalVote) :
    bs.foldl (fun t b => t.add b.vote b.weight) t
      = ⟨t.ok + Ballot.weightOf .ok bs, t.no + Ballot.weightOf .no bs⟩ := by
  induction bs generalizing t with
  | nil => rfl
  | cons b bs ih =>
    rw [List.foldl_cons, ih]
    obtain ⟨own, v, w⟩ := b
    cases v <;> simp [TotalVote.add, Ballot.weightOf, add_assoc]

theorem Ballot.weightOf_perm {v : Vote} {bs bs' : List Ballot} (h : bs.Perm bs') :
    weightOf v bs = weightOf v bs' :=
  ((h.filter _).map _).sum_eq

theorem Ballot.weightOf_append (v : Vote) (bs bs' : List Ballot) :
    weightOf v (bs ++ bs') = weightOf v bs + weightOf v bs' := by
  simp [weightOf]

theorem Ballot.weightOf_of_one {v : Vote} {bs : List Ballot} (h : ∀ b ∈ bs, b.weight = 1) :
    weightOf v bs = bs.countP fun b => b.vote = v := by
  have hmap : (bs.filter fun b => b.vote = v).map Ballot.weight
      = (bs.filter fun b => b.vote = v).map fun _ => 1 :=
    List.map_congr_left fun b hb => h b (List.mem_filter.1 hb).1
  rw [weightOf, hmap]
  simp [List.countP_eq_length_filter]

end Counts

section Ops

/-- A tally of validity is the count of its ballots. -/
def Pending.counting : Hom (board : Tally (Digest × List Ballot) Digest Ballot) Pending.tally :=
  .counting (fun hash => ⟨hash, ⟨0, 0⟩, 0⟩) fun _ => rfl

/-- A tally of a place is the count of its ballots. -/
def Approved.counting :
    Hom (board : Tally ((ℕ × Digest) × List Ballot) (ℕ × Digest) Ballot) Approved.tally :=
  .counting (fun place => ⟨place.1, place.2, ⟨0, 0⟩, 0⟩) fun _ => rfl

/-- From `s` to `s'` the lists change as the operations say. -/
structure Tallied (s s' : SwarmSettings) (o : PendingOp) (o' : ApprovedOp) : Prop where
  pending : s'.pendingBlocks = Pending.tally.apply s.pendingBlocks (o.map Pending.counting.entry id)
  approved : s'.approvedBlocks = 
    Approved.tally.apply s.approvedBlocks (o'.map Approved.counting.entry id)

variable {s s' : SwarmSettings}

theorem Tallied.same (hp : s'.pendingBlocks = s.pendingBlocks)
    (ha : s'.approvedBlocks = s.approvedBlocks) : Tallied s s' .skip .skip := ⟨hp, ha⟩

theorem Tallied.closePending (hash : Digest) : Tallied s
    { s with pendingBlocks := s.pendingBlocks.filter fun p => p.hash ≠ hash }
    (.close (· = hash)) .skip :=
  ⟨List.filter_congr fun _ _ => decide_not, rfl⟩

end Ops

section Steps

variable {s s' : SwarmSettings}

theorem Task.step_tallied {t t' : Task} {net : Publish} (h : t.step K s net = some (s', t')) :
    Tallied s s' t.pendingOp t.approvedOp := by
  unfold step at h
  unfold pendingOp approvedOp
  cases hpc : t.pc <;> simp only [hpc] at h ⊢
  case publish =>
    rcases net with _ | _ | _ <;> simp only [Option.some.injEq, Prod.mk.injEq] at h <;>
      exact h.1 ▸ .same rfl rfl
  case pushPending =>
    simp only [Option.some.injEq, Prod.mk.injEq] at h
    exact h.1 ▸ ⟨rfl, rfl⟩
  case clearPending l =>
    simp only [Option.some.injEq, Prod.mk.injEq] at h
    exact h.1 ▸ .closePending l.hash
  case publishArchive =>
    split at h
    · simp only [Option.some.injEq, Prod.mk.injEq] at h
      exact h.1 ▸ .same rfl rfl
    · rcases net with _ | _ | _ <;> simp only [Option.some.injEq, Prod.mk.injEq] at h <;>
        exact h.1 ▸ .same rfl rfl
  case pushApproved =>
    simp only [Option.some.injEq, Prod.mk.injEq] at h
    exact h.1 ▸ ⟨rfl, rfl⟩
  case clearApproved =>
    simp only [Option.some.injEq, Prod.mk.injEq] at h
    exact h.1 ▸ ⟨rfl, List.filter_congr fun _ _ => decide_not⟩
  case insert =>
    split at h <;> simp only [Option.some.injEq, Prod.mk.injEq] at h <;> exact h.1 ▸ .same rfl rfl
  case interpret =>
    split at h <;> simp only [Option.some.injEq, Prod.mk.injEq] at h <;> exact h.1 ▸ .same rfl rfl
  case done => simp at h
  all_goals
    simp only [Option.some.injEq, Prod.mk.injEq] at h
    exact h.1 ▸ .same rfl rfl

theorem Handler.step_tallied {h h' : Handler} {timers : List NetEvent} {okSent noSent : Bool}
    (hs : h.step K s okSent noSent = some (s', h', timers)) :
    Tallied s s' (h.pendingOp s) (h.approvedOp s) := by
  cases moves hs with
  | recv cs e channel hc he =>
    simp only [pendingOp, approvedOp, next, hc]
    obtain rfl := congrArg Prod.fst he
    cases e
    case vote hash v weight => exact ⟨rfl, rfl⟩
    case serialVote id hash v weight =>
      refine ⟨rfl, List.map_congr_left fun a _ => ?_⟩
      simp [Approved.tally]
    case archiveBlock a =>
      obtain ⟨⟨sent, hr⟩, -⟩ := archiveBlock_cases (K := K) (s := { s with channel := channel })
        (h := ⟨cs, .recv⟩) a okSent noSent
      simp only [event, hr]
      exact .same rfl rfl
    all_goals exact .same rfl rfl
  | clearPending cs hash => exact .closePending hash
  | clearApproved => exact ⟨rfl, List.filter_congr fun _ _ => decide_not⟩
  | append => exact .same rfl rfl

theorem Gossip.step_tallied {g g' : Gossip} {votes : List Bool} {noSent : Bool}
    (h : g.step K s votes noSent = some (s', g')) : Tallied s s' g.pendingOp .skip := by
  cases moves h with
  | accept => exact ⟨rfl, rfl⟩
  | clear block => exact .closePending block.hash
  | user | check | vote | unsent | refuse => exact .same rfl rfl

end Steps

namespace Master

variable {m m' : Master}

theorem step_tallied {a : Act} (h : m.step K a = some m') :
    Tallied m.set m'.set (m.pendingOp a) (m.approvedOp a) := by
  cases a
  case request body =>
    obtain rfl := of_step_request h
    exact .same rfl rfl
  case configure conf =>
    obtain rfl := of_step_configure h
    exact .same rfl rfl
  case task i net =>
    obtain ⟨t, s, t', hget, hs, rfl⟩ := of_step_task h
    simp only [pendingOp, approvedOp, hget, Option.elim_some]
    exact Task.step_tallied hs
  case handle okSent noSent =>
    obtain ⟨s, hd, timers, hs, rfl⟩ := of_step_handle h
    exact Handler.step_tallied hs
  case timer i =>
    obtain ⟨e, -, rfl⟩ := of_step_timer h
    exact .same rfl rfl
  case dispatch data =>
    obtain rfl := of_step_dispatch h
    cases data <;> exact ⟨rfl, rfl⟩
  case gossip votes noSent =>
    obtain ⟨s, g, hs, rfl⟩ := of_step_gossip h
    exact Gossip.step_tallied hs

end Master

section Sheets

variable (K) in
/-- `pending_blocks`. -/
def pendingSheet : Sheet K Pending Digest where
  tally := Pending.tally
  list s := s.pendingBlocks
  op := Master.pendingOp
  votes p := p.votes
  start hash := ⟨hash, ⟨0, 0⟩, 0⟩
  key_start _ := rfl
  votes_start _ := rfl
  votes_add _ _ := rfl
  step_list h := (Master.step_tallied h).pending

variable (K) in
/-- `approved_blocks`. -/
def approvedSheet : Sheet K Approved (ℕ × Digest) where
  tally := Approved.tally
  list s := s.approvedBlocks
  op := Master.approvedOp
  votes a := a.votes
  start place := ⟨place.1, place.2, ⟨0, 0⟩, 0⟩
  key_start _ := rfl
  votes_start _ := rfl
  votes_add _ _ := rfl
  step_list h := (Master.step_tallied h).approved

namespace Sheet

variable {ε κ : Type} [DecidableEq κ] (S : Sheet K ε κ)

/-- A tally is the count of its ballots. -/
def counting : Hom (board : Tally (κ × List Ballot) κ Ballot) S.tally :=
  .counting S.start S.key_start

/-- What the steps of a run do to the list. -/
def ops : Master → List Master.Act → List (Op ε κ Ballot) :=
  Run.observe (Master.step K) fun m a => (S.op m a).map S.counting.entry id

/-- The votes for a key that `handle_incoming_data` takes along a run. -/
def heard (k : κ) (m : Master) (as : List Master.Act) : List Ballot :=
  kept k Ballot.heard (S.ops m as)

variable {m m' : Master} {as : List Master.Act}

theorem run_list (h : Run.run (Master.step K) m as = some m') :
    S.tally.run (S.list m.set) (S.ops m as) = S.list m'.set :=
  Run.foldl_observe (f := fun m a => (S.op m a).map S.counting.entry id)
    (g := fun m => S.list m.set) (fun _ _ _ hs => S.step_list hs) h

/-- The votes of a tally that has counted more ballots. -/
theorem votes_foldl_add (e : ε) (bs : List Ballot) : S.votes (bs.foldl S.tally.add e)
    = ⟨(S.votes e).ok + Ballot.weightOf .ok bs, (S.votes e).no + Ballot.weightOf .no bs⟩ := by
  rw [← TotalVote.foldl_add]
  exact (List.foldl_hom S.votes fun e b => (S.votes_add e b).symm).symm

theorem votes_entry (k : κ) (bs : List Ballot) : S.votes (S.counting.entry (k, bs))
    = ⟨Ballot.weightOf .ok bs, Ballot.weightOf .no bs⟩ := by
  simp [counting, Hom.counting, votes_foldl_add, S.votes_start]

variable {k : κ}

/-- A step that opens a tally puts it after the others of its key. -/
theorem ofKey_of_enter {a : Master.Act} {bs : List Ballot} (h : m.step K a = some m')
    (hop : S.op m a = .enter (k, bs)) : S.tally.ofKey k (S.list m'.set)
      = S.tally.ofKey k (S.list m.set) ++ [S.counting.entry (k, bs)] := by
  rw [S.step_list h, hop, Op.map, ofKey_enter]
  exact congrArg _ (if_pos (S.counting.key_entry _))

/-- While the tallies of a key stay open, they count the ballots cast for it. -/
theorem ofKey_of_run (h : Run.run (Master.step K) m as = some m')
    (halone : ∀ o ∈ S.ops m as, ¬ S.tally.Touches k o) : S.tally.ofKey k (S.list m'.set)
      = (S.tally.ofKey k (S.list m.set)).map fun e =>
        (ballots k (S.ops m as)).foldl S.tally.add e := by
  rw [← S.run_list h, ofKey_run halone]

end Sheet

end Sheets

end Nyumt
