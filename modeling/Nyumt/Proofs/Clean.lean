import Nyumt.Proofs.Ballots
import Nyumt.Toy

/-!
# What a call leaves in the lists of tallies

A call of `publish` inserts a tally for its block and one for every place it asks for, and others do
so meanwhile. `Marked` is a master with its tallies marked as those of one call. The call removes by
hash and by height, and on some of its ways out not at all, so it leaves the lists as it should just
where its own tallies are all it can find there (`clean_run_iff`).
-/

namespace Nyumt

open Tally

/-- A master, with what one of its tasks has inserted marked in both lists. -/
structure Marked where
  master : Master
  pending : List (Pending × Bool)
  approved : List (Approved × Bool)

namespace Pc

/-- The call has a tally for the hash, as far as it knows. -/
def Tallies (hash : Digest) : Pc → Prop
  | .readPending l | .clearPending l => l.hash = hash
  | _ => False

/-- It asks for a place. -/
def Placing : Pc → Prop
  | .lastBlock _ _ | .publishArchive _ _ _ _ | .pushApproved _ _ _ _ | .readApproved _ _ _ _
  | .clearApproved _ _ => True
  | _ => False

end Pc

/-- The call returns from here, and has removed nothing since it last inserted something. -/
def Task.Exits (s : SwarmSettings) (t : Task) (net : Publish) : Prop :=
  match t.pc with
  | .readPending l => ∃ p ∈ s.pendingBlocks, p.hash = l.hash ∧ p.votes.ok < p.votes.no
  | .lastBlock _ _ => s.db.getLastBlock = none
  | .publishArchive _ retry _ _ => net = .failed
    ∨ net = .insufficientPeers ∧ s.conf.blockPushRetries.toNat ≤ retry
  | _ => False

namespace Handler

/-- Of a block that a timeout settles no tally is left, and all others are. -/
def Settles (s s' : SwarmSettings) (h : Handler) : Prop :=
  match h.pc, h.next s with
  | .clearPending hash, _ =>
    s'.pendingBlocks = s.pendingBlocks.filter (fun p => p.hash ≠ hash)
      ∧ s'.approvedBlocks = s.approvedBlocks
  | .clearApproved _ hash _, _ =>
    s'.pendingBlocks = s.pendingBlocks
      ∧ s'.approvedBlocks = s.approvedBlocks.filter fun a => a.hash ≠ hash
  | _, some (.approvedBlockTimeout _ hash rawHash) =>
    ¬ (rawHash ∈ h.candidates ∧ s.quorum hash) → s'.pendingBlocks = s.pendingBlocks
      ∧ s'.approvedBlocks = s.approvedBlocks.filter fun a => a.hash ≠ hash
  | _, _ => True

/-- A block that is not appended has no tally for its place; one that is has the same hash there as
its body has. -/
def Tidy (s : SwarmSettings) (h : Handler) : Prop :=
  match h.pc, h.next s with
  | .clearApproved _ hash rawHash, _ => ∀ a ∈ s.approvedBlocks, a.hash = hash ↔ a.hash = rawHash
  | _, some (.approvedBlockTimeout _ hash rawHash) =>
    ¬ (rawHash ∈ h.candidates ∧ s.quorum hash) → ∀ a ∈ s.approvedBlocks, a.hash ≠ hash
  | _, _ => True

end Handler

namespace Marked

variable (K : Crypto) (i : ℕ) (o : Marked)

/-- Nothing is marked before the call begins. -/
def of (m : Master) : Marked :=
  ⟨m, m.set.pendingBlocks.map fun p => (p, false), m.set.approvedBlocks.map fun a => (a, false)⟩

def step (a : Master.Act) : Option Marked := do
  let m ← o.master.step K a
  return {
    master := m
    pending := Pending.tally.marked.apply o.pending
      (((o.master.pendingOp a).map Pending.counting.entry id).mark (a.by i))
    approved := Approved.tally.marked.apply o.approved
      (((o.master.approvedOp a).map Approved.counting.entry id).mark (a.by i)) }

/-- Nothing that the call inserted is left. -/
def Clean : Prop := (∀ e ∈ o.pending, e.2 = false) ∧ ∀ e ∈ o.approved, e.2 = false

/-- The call has returned, or has not begun to vote. -/
def Returned : Prop := ∀ t ∈ o.master.tasks[i]?, ¬ t.pc.Voting

/-- The call leaves what others have inserted, and a timeout settles what it is about. -/
def Spares (a : Master.Act) : Prop :=
  ∀ o', o.step K i a = some o' →
    (a.by i → unmarked o'.pending = unmarked o.pending ∧ unmarked o'.approved = unmarked o.approved)
      ∧ ∀ okSent noSent, a = .handle okSent noSent →
        o.master.handler.Settles o.master.set o'.master.set

/-- Where the call returns without removing anything, nothing of it is left; and what it removes is
its own, all of its own where it then returns. -/
def TidyTask (t : Task) (net : Publish) : Prop :=
  (t.Exits o.master.set net → o.Clean) ∧
    match t.pc with
    | .clearPending l => ∀ e ∈ o.pending, e.1.hash = l.hash → e.2
    | .clearApproved height _ => ∀ e ∈ o.approved, e.1.height = height ↔ e.2
    | _ => True

def Tidy : Master.Act → Prop
  | .task j net => j = i → ∀ t ∈ o.master.tasks[i]?, o.TidyTask t net
  | .handle _ _ => o.master.handler.Tidy o.master.set
  | _ => True

end Marked

section Decide

instance : DecidablePred Pc.Voting
  | .reply _ | .insert _ | .interpret _ | .done => isFalse id
  | .start | .publish _ _ | .pushPending _ | .readPending _ | .clearPending _ | .lastBlock _ _
  | .publishArchive _ _ _ _ | .pushApproved _ _ _ _ | .readApproved _ _ _ _
  | .clearApproved _ _ => isTrue trivial

instance (s : SwarmSettings) (t : Task) (net : Publish) : Decidable (t.Exits s net) := by
  unfold Task.Exits
  split <;> infer_instance

instance (s : SwarmSettings) (h : Handler) : Decidable (h.Tidy s) := by
  unfold Handler.Tidy
  split <;> infer_instance

namespace Marked

instance : DecidablePred Clean := fun _ => inferInstanceAs (Decidable (_ ∧ _))

instance (i : ℕ) : DecidablePred (Returned i) := fun o =>
  inferInstanceAs (Decidable (∀ t ∈ o.master.tasks[i]?, ¬ t.pc.Voting))

instance (o : Marked) (t : Task) (net : Publish) : Decidable (o.TidyTask t net) := by
  unfold TidyTask
  refine @instDecidableAnd _ _ inferInstance ?_
  split <;> infer_instance

instance (i : ℕ) (o : Marked) : DecidablePred (o.Tidy i)
  | .task j _ => inferInstanceAs (Decidable (j = i → ∀ t ∈ o.master.tasks[i]?, _))
  | .handle _ _ => inferInstanceAs (Decidable (o.master.handler.Tidy _))
  | .request _ | .timer _ | .dispatch _ | .gossip _ _ | .configure _ => isTrue trivial

end Marked

end Decide

section Steps

variable {K : Crypto} {s s' : SwarmSettings} {t t' : Task} {net : Publish}

theorem exists_archiveBlock (a : ArchiveBlock) :
    ∃ b, Borsh.toVec (NetData.archiveBlock a) = some b :=
  ⟨_, rfl⟩

theorem Task.tally_placing (t : Task) (s : SwarmSettings) (data : Block) (retry height : ℕ)
    (hash : Digest) : (t.tally s data retry height hash).pc.Placing := by
  unfold tally
  split
  · trivial
  · split_ifs <;> trivial

theorem Task.build_returned (t : Task) (height : ℕ) (vhash : Option Digest)
    (hasher : Option Bytes) : ¬ (t.build K height vhash hasher).pc.Voting := by
  unfold build
  split <;> exact id

/-- Where the call does not return it goes on to the tally of its block, or to a place; when it has
removed its places it has returned. -/
theorem Task.step_goes (hs : t.step K s net = some (s', t')) :
    (t.Exits s net → t'.pc = .done)
      ∧ (¬ t.Exits s net → ∀ l, t.pc = .pushPending l ∨ t.pc = .readPending l →
        t'.pc.Tallies l.hash)
      ∧ (¬ t.Exits s net → t.pc.Placing → (∀ n r, t.pc ≠ .clearApproved n r) → t'.pc.Placing)
      ∧ ∀ n r, t.pc = .clearApproved n r → ¬ t'.pc.Voting := by
  unfold Task.step at hs
  cases hpc : t.pc <;> simp only [hpc] at hs <;> simp [Exits, hpc, Pc.Placing]
  case pushPending l =>
    simp only [Option.some.injEq, Prod.mk.injEq] at hs
    exact hs.2 ▸ rfl
  case readPending l =>
    simp only [Option.some.injEq, Prod.mk.injEq] at hs
    obtain ⟨-, rfl⟩ := hs
    split_ifs with he <;> simp only [List.any_eq_true, decide_eq_true_eq] at he
    · obtain ⟨p, hp, hh, hlt⟩ := he
      exact ⟨fun _ _ _ _ => rfl, fun h => (Nat.not_le.2 hlt (h p hp hh)).elim⟩
    · exact ⟨fun p hp hh hlt => (he ⟨p, hp, hh, hlt⟩).elim, fun _ => rfl⟩
  case lastBlock data retry =>
    simp only [Option.some.injEq, Prod.mk.injEq, place] at hs
    obtain ⟨-, rfl⟩ := hs
    rcases s.db.getLastBlock with _ | ⟨height, hash⟩ <;> simp [finish, goto]
  case publishArchive data retry height hash =>
    obtain ⟨bytes, hb⟩ := exists_archiveBlock ⟨data.hash, hash, .ofNat height⟩
    simp only [hb] at hs
    rcases net with _ | _ | _ <;> simp only [Option.some.injEq, Prod.mk.injEq] at hs <;>
      obtain ⟨-, rfl⟩ := hs
    · simp [goto]
    · by_cases hr : s.conf.blockPushRetries.toNat ≤ retry <;> simp [hr, finish, goto]
    · simp [finish]
  case pushApproved =>
    simp only [Option.some.injEq, Prod.mk.injEq] at hs
    simp [← hs.2, goto]
  case readApproved data retry height hash =>
    simp only [Option.some.injEq, Prod.mk.injEq] at hs
    exact hs.2 ▸ tally_placing t s data retry height hash
  case clearApproved height newBlock =>
    simp only [Option.some.injEq, Prod.mk.injEq] at hs
    obtain ⟨-, rfl⟩ := hs
    rcases newBlock with e | ⟨height, hash⟩
    · exact id
    · exact t.build_returned height _ _

/-- What a task makes of the marked tallies. -/
def Task.markPending (t : Task) (ps : List (Pending × Bool)) : List (Pending × Bool) :=
  Pending.tally.marked.apply ps ((t.pendingOp.map Pending.counting.entry id).mark true)

def Task.markApproved (t : Task) (as : List (Approved × Bool)) : List (Approved × Bool) :=
  Approved.tally.marked.apply as ((t.approvedOp.map Approved.counting.entry id).mark true)

variable {ps : List (Pending × Bool)} {as : List (Approved × Bool)}

theorem Task.tallies_step (hs : t.step K s net = some (s', t'))
    (hexit : t.Exits s net → ∀ e ∈ ps, e.2 = false) (h : ∀ e ∈ ps, e.2 → t.pc.Tallies e.1.hash) :
    ∀ e ∈ t.markPending ps, e.2 → t'.pc.Tallies e.1.hash := by
  obtain ⟨-, hstay, -⟩ := step_goes hs
  intro e he hown
  unfold markPending pendingOp at he
  cases hpc : t.pc <;> simp only [hpc] at he h
  case pushPending l =>
    rcases of_mem_marked he with ⟨x, hx, rfl⟩ | ⟨e', he', ho, -⟩
    · obtain rfl := Op.enter.inj hx
      exact hstay (fun hx => by simp [Exits, hpc] at hx) l (.inl hpc)
    · exact (h e' he' (ho.trans hown)).elim
  case readPending l =>
    have hkey : l.hash = e.1.hash := h e he hown
    refine hkey ▸ hstay (fun hx => ?_) l (.inr hpc)
    simp [hexit hx e he] at hown
  case clearPending l =>
    obtain ⟨he, hp⟩ := mem_marked_close.1 he
    have hkey : l.hash = e.1.hash := h e he hown
    exact absurd hkey.symm (of_decide_eq_false hp)
  all_goals exact (h e he hown).elim

theorem Task.placing_step (hs : t.step K s net = some (s', t'))
    (hexit : t.Exits s net → ∀ e ∈ as, e.2 = false)
    (hclear : ∀ n r, t.pc = .clearApproved n r → ∀ e ∈ as, e.2 → e.1.height = n)
    (h : ∀ e ∈ as, e.2 → t.pc.Placing) : ∀ e ∈ t.markApproved as, e.2 → t'.pc.Placing := by
  obtain ⟨-, -, hstay, -⟩ := step_goes hs
  intro e he hown
  unfold markApproved approvedOp at he
  have hold (he : e ∈ as) (hne : ∀ n r, t.pc ≠ .clearApproved n r) : t'.pc.Placing :=
    hstay (fun hx => by simp [hexit hx e he] at hown) (h e he hown) hne
  cases hpc : t.pc <;> simp only [hpc] at he
  case pushApproved =>
    exact hstay (fun hx => by simp [Exits, hpc] at hx) (hpc ▸ trivial) fun n r => by simp [hpc]
  case clearApproved height newBlock =>
    obtain ⟨he, hp⟩ := mem_marked_close.1 he
    exact absurd (hclear height newBlock hpc e he hown) (of_decide_eq_false hp)
  all_goals exact hold he fun n r => by simp [hpc]

theorem Task.unmarked_markPending : unmarked (t.markPending ps) = unmarked ps
    ↔ ∀ l, t.pc = .clearPending l → ∀ e ∈ ps, e.1.hash = l.hash → e.2 := by
  unfold markPending pendingOp
  cases hpc : t.pc
  case pushPending l => exact iff_of_true (unmarked_enter _) fun l hl => by simp at hl
  case clearPending l =>
    refine unmarked_close.trans ⟨fun h l' hl => ?_, fun h e he hp => h l rfl e he ?_⟩
    · obtain rfl := Pc.clearPending.inj hl
      exact fun e he hk => h e he (decide_eq_true hk)
    · exact of_decide_eq_true hp
  all_goals exact iff_of_true rfl fun l hl => by simp at hl

theorem Task.unmarked_markApproved : unmarked (t.markApproved as) = unmarked as
    ↔ ∀ n r, t.pc = .clearApproved n r → ∀ e ∈ as, e.1.height = n → e.2 := by
  unfold markApproved approvedOp
  cases hpc : t.pc
  case pushApproved => exact iff_of_true (unmarked_enter _) fun n r hn => by simp at hn
  case clearApproved height newBlock =>
    refine unmarked_close.trans ⟨fun h n r hn => ?_, fun h e he hp => h height newBlock rfl e he ?_⟩
    · obtain ⟨rfl, rfl⟩ := Pc.clearApproved.inj hn
      exact fun e he hk => h e he (decide_eq_true hk)
    · exact of_decide_eq_true hp
  all_goals exact iff_of_true rfl fun n r hn => by simp at hn

theorem filter_eq_filter_iff {α : Type} {p q : α → Bool} {xs : List α} :
    xs.filter p = xs.filter q ↔ ∀ x ∈ xs, p x = q x := by
  refine ⟨fun h x hx => ?_, List.filter_congr⟩
  have hiff : x ∈ xs.filter p ↔ x ∈ xs.filter q := by rw [h]
  simp only [List.mem_filter, hx, true_and] at hiff
  exact Bool.eq_iff_iff.2 hiff

theorem Handler.settles_iff {h h' : Handler} {timers : List NetEvent} {okSent noSent : Bool}
    (hs : h.step K s okSent noSent = some (s', h', timers)) : h.Settles s s' ↔ h.Tidy s := by
  cases moves hs with
  | recv cs e channel hc he =>
    obtain rfl := congrArg Prod.fst he
    simp only [Settles, Tidy, next, hc, List.head?_cons]
    cases e
    case approvedBlockTimeout height hash rawHash =>
      refine forall_congr' fun _ => ?_
      simp only [event, true_and]
      rw [eq_comm, List.filter_eq_self]
      simp
    all_goals rfl
  | clearPending cs hash => exact iff_of_true ⟨rfl, rfl⟩ trivial
  | clearApproved cs height hash rawHash =>
    simp only [Settles, Tidy, true_and, filter_eq_filter_iff]
    refine forall₂_congr fun a _ => ?_
    rw [decide_eq_decide, not_iff_not]
    exact iff_comm
  | append => rfl

end Steps

namespace Marked

variable {K : Crypto} {i : ℕ} {o o' : Marked} {a : Master.Act}

theorem of_step (h : o.step K i a = some o') : ∃ m, o.master.step K a = some m ∧ o' = {
    master := m
    pending := Pending.tally.marked.apply o.pending
      (((o.master.pendingOp a).map Pending.counting.entry id).mark (a.by i))
    approved := Approved.tally.marked.apply o.approved
      (((o.master.approvedOp a).map Approved.counting.entry id).mark (a.by i)) } := by
  obtain ⟨m, hm, h⟩ := Option.bind_eq_some_iff.1 h
  exact ⟨m, hm, (Option.some.inj h).symm⟩

/-- The marks are kept beside the two lists, and only while the call may still need them. -/
structure Inv (i : ℕ) (o : Marked) : Prop where
  pending_eq : o.pending.map Prod.fst = o.master.set.pendingBlocks
  approved_eq : o.approved.map Prod.fst = o.master.set.approvedBlocks
  tallies : ∀ e ∈ o.pending, e.2 → ∃ t ∈ o.master.tasks[i]?, t.pc.Tallies e.1.hash
  placing : ∀ e ∈ o.approved, e.2 → ∃ t ∈ o.master.tasks[i]?, t.pc.Placing

theorem tallies_voting {pc : Pc} {hash : Digest} (h : pc.Tallies hash) : pc.Voting := by
  cases pc <;> trivial

theorem placing_voting {pc : Pc} (h : pc.Placing) : pc.Voting := by
  cases pc <;> trivial

theorem Inv.clean (hi : Inv i o) (hret : o.Returned i) : o.Clean := by
  refine ⟨fun e he => Bool.eq_false_iff.2 fun hown => ?_,
    fun e he => Bool.eq_false_iff.2 fun hown => ?_⟩
  · obtain ⟨t, ht, h⟩ := hi.tallies e he hown
    exact hret t ht (tallies_voting h)
  · obtain ⟨t, ht, h⟩ := hi.placing e he hown
    exact hret t ht (placing_voting h)

theorem Inv.step_eq (hi : Inv i o) (hs : o.step K i a = some o') :
    o'.pending.map Prod.fst = o'.master.set.pendingBlocks
      ∧ o'.approved.map Prod.fst = o'.master.set.approvedBlocks := by
  obtain ⟨m, hm, rfl⟩ := of_step hs
  have htallied := Master.step_tallied hm
  exact ⟨by rw [map_fst_marked, hi.pending_eq, htallied.pending],
    by rw [map_fst_marked, hi.approved_eq, htallied.approved]⟩

/-- What others do adds no mark, and the call stays where it is. -/
theorem Inv.other (hi : Inv i o) (hs : o.step K i a = some o') (ha : a.by i = false) :
    Inv i o' := by
  obtain ⟨hp, hap⟩ := hi.step_eq hs
  obtain ⟨m, hm, rfl⟩ := of_step hs
  refine ⟨hp, hap, fun e he hown => ?_, fun e he hown => ?_⟩
  · rcases of_mem_marked he with ⟨x, -, rfl⟩ | ⟨e', he', ho, hk⟩
    · simp [ha] at hown
    · obtain ⟨t, ht, h⟩ := hi.tallies e' he' (ho.trans hown)
      have hk : e'.1.hash = e.1.hash := hk
      exact ⟨t, Master.tasks_stay hm ha ht, hk ▸ h⟩
  · rcases of_mem_marked he with ⟨x, -, rfl⟩ | ⟨e', he', ho, -⟩
    · simp [ha] at hown
    · obtain ⟨t, ht, h⟩ := hi.placing e' he' (ho.trans hown)
      exact ⟨t, Master.tasks_stay hm ha ht, h⟩

theorem of_step_own {net : Publish} (h : o.step K i (.task i net) = some o') :
    ∃ t s t', o.master.tasks[i]? = some t ∧ t.step K o.master.set net = some (s, t') ∧ o' = {
      master := { o.master with set := s, tasks := o.master.tasks.set i t' }
      pending := t.markPending o.pending
      approved := t.markApproved o.approved } := by
  obtain ⟨m, hm, rfl⟩ := of_step h
  obtain ⟨t, s, t', hget, hs, rfl⟩ := Master.of_step_task hm
  refine ⟨t, s, t', hget, hs, ?_⟩
  simp [Master.pendingOp, Master.approvedOp, hget, Master.Act.by, Task.markPending,
    Task.markApproved]

theorem exits_skips {s : SwarmSettings} {t : Task} {net : Publish} (h : t.Exits s net) :
    t.pendingOp = .skip ∧ t.approvedOp = .skip := by
  unfold Task.Exits at h
  unfold Task.pendingOp Task.approvedOp
  cases hpc : t.pc <;> simp only [hpc] at h ⊢ <;> exact ⟨trivial, trivial⟩

theorem spares_of_by (hs : o.step K i a = some o') (ha : a.by i)
    (h : unmarked o'.pending = unmarked o.pending ∧ unmarked o'.approved = unmarked o.approved) :
    o.Spares K i a := by
  intro o'' hs'
  obtain rfl := Option.some.inj (hs.symm.trans hs')
  refine ⟨fun _ => h, ?_⟩
  rintro okSent noSent rfl
  simp [Master.Act.by] at ha

/-- A tidy step of the call spares what others inserted, and leaves nothing behind. -/
theorem keep_own {net : Publish} (hi : Inv i o) (ht : o.Tidy i (.task i net))
    (hs : o.step K i (.task i net) = some o') : o.Spares K i (.task i net) ∧ Inv i o' := by
  obtain ⟨hp, hap⟩ := hi.step_eq hs
  obtain ⟨t, s, t', hget, hstep, rfl⟩ := of_step_own hs
  obtain ⟨hexit, hclear⟩ := ht rfl t hget
  have hold : ∀ {P : Task → Prop}, (∃ t ∈ o.master.tasks[i]?, P t) → P t := by
    rintro P ⟨u, hu, h⟩
    obtain rfl := Option.some.inj (hget.symm.trans hu)
    exact h
  have hget' : (o.master.tasks.set i t')[i]? = some t' := by
    obtain ⟨hlt, -⟩ := List.getElem?_eq_some_iff.1 hget
    rw [List.getElem?_set_self hlt]
  have hown : ∀ n r, t.pc = .clearApproved n r → ∀ e ∈ o.approved, e.1.height = n ↔ e.2 := by
    intro n r hpc
    simpa only [hpc] using hclear
  refine ⟨spares_of_by hs (by simp [Master.Act.by])
    ⟨Task.unmarked_markPending.2 fun l hpc => by simpa only [hpc] using hclear,
      Task.unmarked_markApproved.2 fun n r hpc e he => (hown n r hpc e he).1⟩,
    hp, hap, fun e he h => ⟨t', hget', ?_⟩, fun e he h => ⟨t', hget', ?_⟩⟩
  · exact Task.tallies_step hstep (fun hx => (hexit hx).1)
      (fun e he h => hold (hi.tallies e he h)) e he h
  · exact Task.placing_step hstep (fun hx => (hexit hx).2)
      (fun n r hpc e he h => (hown n r hpc e he).2 h)
      (fun e he h => hold (hi.placing e he h)) e he h

theorem keep (hi : Inv i o) (ht : o.Tidy i a) (hs : o.step K i a = some o') :
    o.Spares K i a ∧ Inv i o' := by
  rcases ha : a.by i
  · refine ⟨fun o'' hs' => ⟨fun h => by simp [ha] at h, ?_⟩, hi.other hs ha⟩
    rintro okSent noSent rfl
    obtain ⟨m, hm, rfl⟩ := of_step hs'
    obtain ⟨s, hd, timers, hh, rfl⟩ := Master.of_step_handle hm
    exact (Handler.settles_iff hh).2 ht
  · cases a <;> simp only [Master.Act.by, decide_eq_true_eq, Bool.false_eq_true] at ha
    subst ha
    exact keep_own hi ht hs

/-- And one that is not tidy takes something of others away, or leaves something of the call when it
returns. -/
theorem break_ (hs : o.step K i a = some o') (hq : o.Spares K i a)
    (hp : o'.Returned i → o'.Clean) : o.Tidy i a := by
  cases a
  case handle okSent noSent =>
    obtain ⟨m, hm, rfl⟩ := of_step hs
    obtain ⟨s, hd, timers, hh, rfl⟩ := Master.of_step_handle hm
    exact (Handler.settles_iff hh).1 ((hq _ hs).2 okSent noSent rfl)
  case task j net =>
    rintro rfl u hu
    obtain ⟨hspares, -⟩ := hq o' hs
    obtain ⟨t, s, t', hget, hstep, rfl⟩ := of_step_own hs
    obtain rfl := Option.some.inj (hget.symm.trans hu)
    obtain ⟨hpend, happr⟩ := hspares (by simp [Master.Act.by])
    obtain ⟨hdone, -, -, hcleared⟩ := Task.step_goes hstep
    have hclean (hv : ¬ t'.pc.Voting) : (∀ e ∈ t.markPending o.pending, e.2 = false)
        ∧ ∀ e ∈ t.markApproved o.approved, e.2 = false := by
      refine hp fun v hv' => ?_
      obtain ⟨hlt, -⟩ := List.getElem?_eq_some_iff.1 hget
      have hv' : (o.master.tasks.set j t')[j]? = some v := hv'
      rw [List.getElem?_set_self hlt] at hv'
      exact Option.some.inj hv' ▸ hv
    refine ⟨fun hx => ?_, ?_⟩
    · have := hclean (hdone hx ▸ id)
      rwa [Task.markPending, Task.markApproved, (exits_skips hx).1, (exits_skips hx).2] at this
    · split
      · rename_i l hpc
        exact Task.unmarked_markPending.1 hpend l hpc
      · rename_i n r hpc
        refine fun e he => ⟨Task.unmarked_markApproved.1 happr n r hpc e he, fun hown => ?_⟩
        by_contra hne
        have hmem : e ∈ t.markApproved o.approved := by
          rw [Task.markApproved, Task.approvedOp, hpc]
          exact mem_marked_close.2 ⟨he, decide_eq_false hne⟩
        simp [(hclean (hcleared n r hpc)).2 e hmem] at hown
      · trivial
  all_goals trivial

theorem inv_of {m : Master} (i : ℕ) : Inv i (of m) := by
  refine ⟨by rw [of, List.map_map]; exact List.map_id _,
    by rw [of, List.map_map]; exact List.map_id _, fun e he hown => ?_, fun e he hown => ?_⟩
  · obtain ⟨p, -, rfl⟩ := List.mem_map.1 he
    simp at hown
  · obtain ⟨p, -, rfl⟩ := List.mem_map.1 he
    simp at hown

/-- Every run of the master can be followed with the marks. -/
theorem exists_run (i : ℕ) : ∀ {o : Marked} {m' : Master} {as : List Master.Act},
    Run.run (Master.step K) o.master as = some m' →
      ∃ o', Run.run (step K i) o as = some o' ∧ o'.master = m'
  | o, m', [], h => ⟨o, rfl, Option.some.inj h⟩
  | o, m', a :: as, h => by
    obtain ⟨m, hm, h⟩ := Run.of_run_cons h
    obtain ⟨o₁, ho₁, rfl⟩ : ∃ o₁, o.step K i a = some o₁ ∧ o₁.master = m := by
      simp [step, hm]
    rw [Run.run_cons as ho₁]
    exact exists_run i h

/-- Along a run in which all others go on as they like, the call removes nothing of others and has
left nothing of its own when it has returned, and the timeouts settle what they are about, if and
only if its steps and theirs are tidy. -/
theorem clean_run_iff {m m' : Master} {as : List Master.Act} (i : ℕ)
    (hr : Run.run (Master.step K) m as = some m') :
    Run.Along (step K i) (fun o a => o.Spares K i a) (.of m) as
      ∧ Run.Throughout (step K i) (fun o => o.Returned i → o.Clean) (.of m) as
      ↔ Run.Along (step K i) (fun o a => o.Tidy i a) (.of m) as := by
  obtain ⟨o', ho', -⟩ := exists_run (o := .of m) i hr
  exact Run.along_and_throughout_iff (I := Inv i) (c := fun _ _ => True)
    (fun _ hi => hi.clean) (fun _ _ _ _ ht hs hi => keep hi ht hs)
    (fun _ _ _ _ hs _ hq hp => break_ hs hq hp) Run.along_true ho' (inv_of i)

/-- A block and its place are published, and nobody votes. -/
theorem clean_run_iff_heard : ∃ m', Run.run (Master.step toy) (.init toyPair (.default toy))
      (.request (toyBody 1 []) :: Master.heard 0) = some m'
    ∧ Run.Throughout (step toy 0) (fun o => o.Returned 0 → o.Clean)
      (.of (.init toyPair (.default toy))) (.request (toyBody 1 []) :: Master.heard 0) := by
  have hrun : (Run.run (Master.step toy) (.init toyPair (.default toy))
      (.request (toyBody 1 []) :: Master.heard 0)).isSome := by decide +kernel
  obtain ⟨m', hr⟩ := Option.isSome_iff_exists.1 hrun
  exact ⟨m', hr, ((clean_run_iff 0 hr).2 (by decide +kernel)).2⟩

/-- The steps of a call whose block is voted down. -/
def votedDown : List Master.Act :=
  .request (toyBody 1 []) :: List.replicate 3 (.task 0 .sent)
    ++ List.replicate 2 (.dispatch (.vote toyLocals.hash .no))
    ++ List.replicate 2 (.handle true true) ++ [.task 0 .sent]

/-- A call that is rejected leaves its tally for ever. -/
theorem not_clean_run : ¬ ∀ (K : Crypto) (i : ℕ) (m m' : Master) (as : List Master.Act),
    Run.run (Master.step K) m as = some m' →
      Run.Along (step K i) (fun o a => o.Spares K i a) (.of m) as
        ∧ Run.Throughout (step K i) (fun o => o.Returned i → o.Clean) (.of m) as := by
  intro h
  have hrun : (Run.run (Master.step toy) (.init toyPair (.default toy)) votedDown).isSome := by
    decide +kernel
  obtain ⟨m', hr⟩ := Option.isSome_iff_exists.1 hrun
  exact absurd (h toy 0 _ m' votedDown hr).2 (by decide +kernel)

end Marked

end Nyumt
