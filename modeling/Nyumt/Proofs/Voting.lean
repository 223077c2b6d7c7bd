import Nyumt.Proofs.PeerCheck
import Nyumt.Proofs.Steps

/-!
# How a master votes

Of a block: the handler takes a tally of its own in before it looks at the block, and leaves by one
tail wherever something fails, which takes out every tally of the hash and votes against the block,
also where the block is good and only its vote would not go through (`handled_iff`).

Of a place: a vote for it is followed by one against it, and a vote against it does not name what
the proposer tallies (`placeVoted_iff`).
-/

namespace Nyumt

open Borsh

variable {K : Crypto}

theorem exists_vote (hash : Digest) (v : Vote) : ∃ b, toVec (NetData.vote hash v) = some b := by
  cases v <;> exact ⟨_, rfl⟩

theorem vote_ne {hash : Digest} {b : Bytes} (h : toVec (NetData.vote hash .ok) = some b) :
    toVec (NetData.vote hash .no) ≠ some b := by
  intro hno
  have := (fromSlice_of_ser h).symm.trans (fromSlice_of_ser hno)
  simp [reset] at this

section Block

/-- The body matches its hash and decodes, and `verify_req` has nothing against it, with the
permissions of its signer, who is active. -/
def ValidBlock (K : Crypto) (t : Tables) (block : Block) : Prop :=
  verifyHash K block.body block.hash ∧ peerVerify K t block = some (.ok none)

instance (t : Tables) (block : Block) : Decidable (ValidBlock K t block) :=
  inferInstanceAs (Decidable (_ ∧ _))

/-- What the handler of a block may do: it does not vote against a valid one, and it does not vote
for any other, of which no trace remains. -/
def Handled (K : Crypto) (block : Block) (s s' : SwarmSettings) : Prop :=
  ∃ new, s'.sent = s.sent ++ new
    ∧ (ValidBlock K s.db.toTables block → ∀ b ∈ new, toVec (NetData.vote block.hash .no) ≠ some b)
    ∧ (¬ ValidBlock K s.db.toTables block →
      (∀ b ∈ new, toVec (NetData.vote block.hash .ok) ≠ some b)
        ∧ s'.pendingBlocks = s.pendingBlocks)

variable {s s' : SwarmSettings} {block : Block} {votes : List Bool} {noSent : Bool}
  {ok no : Bytes}

/-- What is left after the tail. -/
def Refuses (block : Block) (noSent : Bool) (no : Bytes) (s s' : SwarmSettings) : Prop :=
  s'.sent = s.sent ++ (if noSent then [no] else [])
    ∧ s'.pendingBlocks = s.pendingBlocks.filter fun p => p.hash ≠ block.hash

theorem reaches_refuse (K : Crypto) (s : SwarmSettings) (votes : List Bool) (noSent : Bool)
    (hno : toVec (NetData.vote block.hash .no) = some no) :
    ∃ s', Run.Reaches (gossipAlone K (votes, noSent)) (s, .refuse block) (s', .idle)
      ∧ Refuses block noSent no s s' := by
  refine ⟨{ s with
    sent := s.sent ++ (if noSent then [no] else [])
    pendingBlocks := s.pendingBlocks.filter fun p => p.hash ≠ block.hash },
    gossipAlone_head (q := (s.publish noSent no, .clear block)) ?_
      (gossipAlone_head ?_ (.refl _)), rfl, rfl⟩
  · simp [gossipStep, Gossip.step, hno]
  · simp [gossipStep, Gossip.step]

theorem filter_castVote (hash : Digest) (v : Vote) (weight : ℕ) :
    (s.castVote hash v weight).pendingBlocks.filter (fun p => p.hash ≠ hash)
      = s.pendingBlocks.filter fun p => p.hash ≠ hash := by
  simp only [SwarmSettings.castVote]
  induction s.pendingBlocks with
  | nil => rfl
  | cons p ps ih =>
    by_cases hp : p.hash = hash <;> simp_all

/-- The handler, from where it votes for a block. -/
theorem reaches_accept (K : Crypto) (s : SwarmSettings) (v : BodyData) (votes : List Bool)
    (noSent : Bool) (hok : toVec (NetData.vote block.hash .ok) = some ok)
    (hno : toVec (NetData.vote block.hash .no) = some no) :
    ∃ s', Run.Reaches (gossipAlone K (votes, noSent)) (s, .accept block v) (s', .idle)
      ∧ if (votes.take s.conf.votePushRetries.toNat).any id then s'.sent = s.sent ++ [ok]
        else Refuses block noSent no s s' := by
  have haccept : gossipStep K (s, .accept block v) (votes, noSent)
      = some (s.castVote block.hash .ok 1, .vote block v) := rfl
  by_cases hany : (votes.take s.conf.votePushRetries.toNat).any id
  · refine ⟨{ s.castVote block.hash .ok 1 with
      sent := s.sent ++ [ok], channel := s.channel ++ [.newBlock v block.hash] },
      gossipAlone_head haccept (gossipAlone_head ?_ (.refl _)), ?_⟩
    · simp only [gossipStep, Gossip.step, hok]
      exact if_pos hany
    · rw [if_pos hany]
  · obtain ⟨s', hr, hs'⟩ := reaches_refuse K (s.castVote block.hash .ok 1) votes noSent hno
    refine ⟨s', gossipAlone_head haccept (gossipAlone_head ?_ hr), ?_⟩
    · simp only [gossipStep, Gossip.step, hok]
      exact if_neg hany
    · rw [if_neg hany]
      exact ⟨hs'.1, hs'.2.trans (filter_castVote _ _ _)⟩

/-- The block gets its tally, and is found valid or not. -/
theorem reaches_judged (K : Crypto) (s : SwarmSettings) (block : Block) (a : List Bool × Bool) :
    ∃ g, Run.Reaches (gossipAlone K a) (Gossip.dispatch K s (.block block))
        ({ s with pendingBlocks := s.pendingBlocks ++ [⟨block.hash, ⟨0, 0⟩, 0⟩] }, g)
      ∧ if ValidBlock K s.db.toTables block then ∃ v, g = .accept block v
        else g = .refuse block := by
  by_cases hh : verifyHash K block.body block.hash
  · rcases hd : fromSlice BodyData block.body with _ | v
    · refine ⟨.refuse block, by simpa [Gossip.dispatch, hh, hd] using .refl _, ?_⟩
      rw [if_neg fun hv => by simp [ValidBlock, peerVerify, hd] at hv]
    · refine ⟨_, by simpa only [Gossip.dispatch, hd, if_pos hh] using gossip_reaches hd, ?_⟩
      by_cases hp : peerVerify K s.db.toTables block = some (.ok none)
      · rw [if_pos ⟨hh, hp⟩]
        exact ⟨v, if_pos hp⟩
      · rw [if_neg fun hv => hp hv.2]
        exact if_neg hp
  · refine ⟨.refuse block, by simpa [Gossip.dispatch, hh] using .refl _, ?_⟩
    rw [if_neg fun hv => hh hv.1]

/-- The handler comes to its end: a valid block is voted for if the vote goes through, and whatever
else happens goes through the tail. -/
theorem reaches_idle (K : Crypto) (s : SwarmSettings) (votes : List Bool) (noSent : Bool)
    (hok : toVec (NetData.vote block.hash .ok) = some ok)
    (hno : toVec (NetData.vote block.hash .no) = some no) :
    ∃ s', Run.Reaches (gossipAlone K (votes, noSent))
        (Gossip.dispatch K s (.block block)) (s', .idle)
      ∧ if ValidBlock K s.db.toTables block ∧ (votes.take s.conf.votePushRetries.toNat).any id then
          s'.sent = s.sent ++ [ok]
        else Refuses block noSent no s s' := by
  obtain ⟨g, hg, hjudged⟩ := reaches_judged K s block (votes, noSent)
  set s₁ : SwarmSettings :=
    { s with pendingBlocks := s.pendingBlocks ++ [⟨block.hash, ⟨0, 0⟩, 0⟩] } with hs₁
  have hrefuses {s' : SwarmSettings} (h : Refuses block noSent no s₁ s') :
      Refuses block noSent no s s' := ⟨h.1, by simpa [hs₁] using h.2⟩
  by_cases hv : ValidBlock K s.db.toTables block
  · rw [if_pos hv] at hjudged
    obtain ⟨v, rfl⟩ := hjudged
    obtain ⟨s', hr, hs'⟩ := reaches_accept K s₁ v votes noSent hok hno
    refine ⟨s', hg.trans hr, ?_⟩
    simp only [hv, true_and]
    split_ifs at hs' ⊢
    · exact hs'
    · exact hrefuses hs'
  · rw [if_neg hv] at hjudged
    subst hjudged
    obtain ⟨s', hr, hs'⟩ := reaches_refuse K s₁ votes noSent hno
    exact ⟨s', hg.trans hr, by rw [if_neg fun h => hv h.1]; exact hrefuses hs'⟩

/-- The handler of a block, whatever the publishing gives, does not vote against a valid block and
leaves no trace of any other, if and only if a vote for a valid block goes through (or none would,
against it either), and no tally of the hash is there when the block is not valid. -/
theorem handled_iff (K : Crypto) (s : SwarmSettings) (block : Block) (votes : List Bool)
    (noSent : Bool) : ∃ s', Run.Reaches (gossipAlone K (votes, noSent))
        (Gossip.dispatch K s (.block block)) (s', .idle)
      ∧ (Handled K block s s' ↔
        (ValidBlock K s.db.toTables block →
          (votes.take s.conf.votePushRetries.toNat).any id ∨ noSent = false)
        ∧ (¬ ValidBlock K s.db.toTables block → ∀ p ∈ s.pendingBlocks, p.hash ≠ block.hash)) := by
  obtain ⟨ok, hok⟩ := exists_vote block.hash .ok
  obtain ⟨no, hno⟩ := exists_vote block.hash .no
  obtain ⟨s', hr, hs'⟩ := reaches_idle K s votes noSent hok hno
  refine ⟨s', hr, ?_⟩
  by_cases hv : ValidBlock K s.db.toTables block
  · simp only [Handled, hv, true_and, not_true, false_imp_iff, and_true, true_imp_iff] at hs' ⊢
    split_ifs at hs' with hany
    · refine iff_of_true ⟨[ok], hs', fun b hb => ?_⟩ (.inl hany)
      rw [List.mem_singleton.1 hb]
      exact vote_ne hok
    · have hnew (new : List Bytes) :
          s'.sent = s.sent ++ new ↔ (if noSent then [no] else []) = new := by
        rw [hs'.1, List.append_cancel_left_eq]
      simp only [hnew, exists_eq_left', hany]
      cases noSent <;> simp [hno]
  · simp only [Handled, hv, false_and, if_false, false_imp_iff, true_and, not_false_eq_true,
      true_imp_iff] at hs' ⊢
    rw [hs'.2, List.filter_eq_self]
    refine ⟨fun ⟨_, _, _, h⟩ p hp => of_decide_eq_true (h p hp),
      fun h => ⟨_, hs'.1, fun b hb hb' => ?_, fun p hp => decide_eq_true (h p hp)⟩⟩
    split_ifs at hb
    · rw [List.mem_singleton.1 hb] at hb'
      exact vote_ne hb' hno
    · simp at hb

/-- A master that has its own request voted on loses the tally when some other block comes in under
the same hash. -/
theorem not_handled : ¬ ∀ (K : Crypto) (s s' : SwarmSettings) (block : Block) (votes : List Bool)
    (noSent : Bool), Run.Reaches (gossipAlone K (votes, noSent))
      (Gossip.dispatch K s (.block block)) (s', .idle) → Handled K block s s' := by
  intro h
  let s : SwarmSettings :=
    { db := {}, conf := .default toy, pendingBlocks := [⟨zeroHash, ⟨1, 0⟩, 1⟩] }
  let block : Block := ⟨zeroHash, [1]⟩
  have hbad : ¬ ValidBlock toy s.db.toTables block := by decide +kernel
  obtain ⟨ok, hok⟩ := exists_vote block.hash .ok
  obtain ⟨no, hno⟩ := exists_vote block.hash .no
  obtain ⟨s', hr, hs'⟩ := reaches_idle toy s [] true hok hno
  rw [if_neg fun h => hbad h.1] at hs'
  obtain ⟨_, -, -, hkept⟩ := h toy s s' block [] true hr
  have := (hkept hbad).2.symm.trans hs'.2
  simp [s, block] at this

end Block

section Place

/-- The master holds the block, which would come next here just where it is proposed. -/
def PlaceAgrees (K : Crypto) (s : SwarmSettings) (h : Handler) (a : ArchiveBlock) : Prop :=
  ∃ c ∈ h.candidates.lookup a.hash, ∃ l ∈ s.db.getLastBlock,
    K.sha256 (l.2 ++ c.1) = a.serialHash ∧ l.1 + 1 = a.id.toNat

instance (K : Crypto) (s : SwarmSettings) (h : Handler) (a : ArchiveBlock) :
    Decidable (PlaceAgrees K s h a) :=
  inferInstanceAs (Decidable (∃ c ∈ h.candidates.lookup a.hash, ∃ l ∈ s.db.getLastBlock, _ ∧ _))

/-- The vote that is due. -/
def placeVote (K : Crypto) (s : SwarmSettings) (h : Handler) (a : ArchiveBlock) : Vote :=
  if PlaceAgrees K s h a then .ok else .no

/-- Whatever a master has in hand meanwhile: when it takes the message off its channel it counts
the vote in each tally of the place. -/
def CountedAt (K : Crypto) (b : Bytes) (id : UInt64) (hash : Digest) (v : Vote) : Prop :=
  ∃ data, fromSlice NetData b = some data ∧ ∀ m m' : Master, m.step K (.dispatch data) = some m' →
    ∃ e, m'.set.channel = m.set.channel ++ [e] ∧
      ∀ (n n' : Master) (rest : List NetEvent) (okSent noSent : Bool), n.handler.pc = .recv →
        n.set.channel = e :: rest → n.step K (.handle okSent noSent) = some n' →
          ∀ (i : ℕ) (x : Approved), n.set.approvedBlocks[i]? = some x →
            x.height = id.toNat → x.hash = hash → n'.set.approvedBlocks[i]?
              = some { x with votes := x.votes.add v 1, voters := x.voters + 1 }

/-- One vote is published, the one that is due, and the proposer counts it. -/
def PlaceVoted (K : Crypto) (s : SwarmSettings) (h : Handler) (a : ArchiveBlock)
    (okSent noSent : Bool) : Prop :=
  ∃ b, toVec (NetData.serialVote a.id a.serialHash (placeVote K s h a)) = some b
    ∧ (Handler.event K s h (.archiveBlock a) okSent noSent).1.sent = s.sent ++ [b]
    ∧ CountedAt K b a.id a.serialHash (placeVote K s h a)

variable {s : SwarmSettings} {h : Handler} {a : ArchiveBlock} {okSent noSent : Bool}

theorem exists_serialVote (id : UInt64) (hash : Digest) (v : Vote) :
    ∃ b, toVec (NetData.serialVote id hash v) = some b := by
  cases v <;> exact ⟨_, rfl⟩

theorem serialVote_inj {id id' : UInt64} {hash hash' : Digest} {v v' : Vote} {b : Bytes}
    (h : toVec (NetData.serialVote id hash v) = some b)
    (h' : toVec (NetData.serialVote id' hash' v') = some b) : id = id' ∧ hash = hash' ∧ v = v' := by
  have := (fromSlice_of_ser h).symm.trans (fromSlice_of_ser h')
  simpa [reset] using this

theorem countedAt {id : UInt64} {hash : Digest} {v : Vote} {b : Bytes}
    (hb : toVec (NetData.serialVote id hash v) = some b) : CountedAt K b id hash v := by
  refine ⟨.serialVote id hash v, fromSlice_of_ser hb, fun m m' hm => ?_⟩
  obtain rfl := Master.of_step_dispatch hm
  refine ⟨.serialVote id hash v 1, rfl, fun n n' rest okSent noSent hpc hc hn i x hx hid hh => ?_⟩
  obtain ⟨s, h, timers, hs, rfl⟩ := Master.of_step_handle hn
  simp only [Handler.step, hpc, hc, Handler.event, Option.some.injEq, Prod.mk.injEq] at hs
  obtain ⟨rfl, -, -⟩ := hs
  simp [SwarmSettings.castSerialVote, hx, hid, hh]

/-- What is published of a place: the two votes where it agrees, none where the last block cannot be
read, and the one against it otherwise. -/
theorem archiveBlock_sent {ok no : Bytes}
    (hok : toVec (NetData.serialVote a.id a.serialHash .ok) = some ok)
    (hno : toVec (NetData.serialVote a.id a.hash .no) = some no) :
    (Handler.event K s h (.archiveBlock a) okSent noSent).1.sent = s.sent ++
      if PlaceAgrees K s h a then (if okSent then [ok] else []) ++ if noSent then [no] else []
      else if a.hash ∈ h.candidates ∧ s.db.getLastBlock = none then []
      else if noSent then [no] else [] := by
  simp only [Handler.event, Handler.archiveBlock, publish_eq, hno]
  rcases hc : h.candidates.lookup a.hash with _ | ⟨body, v⟩
  · have hmem : a.hash ∉ h.candidates := AList.lookup_eq_none.1 hc
    have hag : ¬ PlaceAgrees K s h a := by simp [PlaceAgrees, hc]
    simp [hmem, hag]
  have hmem : a.hash ∈ h.candidates := AList.lookup_isSome.1 (by simp [hc])
  rcases hl : s.db.getLastBlock with _ | ⟨height, hash⟩
  · have hag : ¬ PlaceAgrees K s h a := by simp [PlaceAgrees, hl]
    simp [hmem, hag]
  have hag : PlaceAgrees K s h a ↔
      K.sha256 (hash ++ body) = a.serialHash ∧ height + 1 = a.id.toNat := by
    simp [PlaceAgrees, hc, hl]
  by_cases hnext : K.sha256 (hash ++ body) = a.serialHash ∧ height + 1 = a.id.toNat
  · simp [hag, hnext, hok]
  · simp [hag, hnext]

/-- A master publishes the vote on a place that is due, and only this one, if and only if the block
would come next and the vote against it, which follows, does not go through; or if it would not,
and the block's own hash is the one it is to have there. -/
theorem placeVoted_iff (K : Crypto) (s : SwarmSettings) (h : Handler) (a : ArchiveBlock)
    (okSent noSent : Bool) : PlaceVoted K s h a okSent noSent ↔
      (PlaceAgrees K s h a → okSent ∧ noSent = false)
      ∧ (¬ PlaceAgrees K s h a → noSent ∧ a.hash = a.serialHash
        ∧ ¬ (a.hash ∈ h.candidates ∧ s.db.getLastBlock = none)) := by
  obtain ⟨ok, hok⟩ := exists_serialVote a.id a.serialHash .ok
  obtain ⟨no, hno⟩ := exists_serialVote a.id a.hash .no
  have hvoted : PlaceVoted K s h a okSent noSent ↔ ∃ b,
      toVec (NetData.serialVote a.id a.serialHash (placeVote K s h a)) = some b
        ∧ (Handler.event K s h (.archiveBlock a) okSent noSent).1.sent = s.sent ++ [b] :=
    exists_congr fun b => and_congr_right fun hb => and_iff_left (countedAt hb)
  rw [hvoted, archiveBlock_sent hok hno]
  simp only [List.append_cancel_left_eq, placeVote]
  by_cases hag : PlaceAgrees K s h a
  · simp only [hag, if_true, hok, Option.some.injEq, exists_eq_left', not_true, false_imp_iff,
      and_true, true_imp_iff]
    have hne : no ≠ ok := fun he => by cases (serialVote_inj hok (he ▸ hno)).2.2
    cases okSent <;> cases noSent <;> simp [hne]
  · simp only [hag, if_false, false_imp_iff, not_false_eq_true, true_imp_iff, true_and]
    by_cases hunread : a.hash ∈ h.candidates ∧ s.db.getLastBlock = none
    · simp [hunread]
    · have hkey : toVec (NetData.serialVote a.id a.serialHash .no) = some no
          ↔ a.hash = a.serialHash := ⟨fun hb => (serialVote_inj hno hb).2.1, fun he => he ▸ hno⟩
      rw [if_neg hunread]
      cases noSent <;> simp [hkey, hunread]

/-- The vote against a place carries the block's own hash, so it names no tally of the proposer. -/
theorem not_placeVoted : ¬ ∀ (K : Crypto) (s : SwarmSettings) (h : Handler) (a : ArchiveBlock),
    PlaceVoted K s h a true true := by
  intro h
  let s : SwarmSettings := { db := {}, conf := .default toy }
  let a : ArchiveBlock := ⟨zeroHash, toyDigest [1], 2⟩
  have hag : ¬ PlaceAgrees toy s {} a := by decide +kernel
  obtain ⟨ok, hok⟩ := exists_serialVote a.id a.serialHash .ok
  obtain ⟨no, hno⟩ := exists_serialVote a.id a.hash .no
  obtain ⟨b, hb, hsent, -⟩ := h toy s {} a
  rw [archiveBlock_sent hok hno, if_neg hag, if_neg (by simp), List.append_cancel_left_eq] at hsent
  obtain rfl : no = b := by simpa using hsent
  exact absurd (serialVote_inj hno hb).2.1 (by decide +kernel)

end Place

end Nyumt
