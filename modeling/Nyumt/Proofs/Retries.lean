import Nyumt.Lib.Retry
import Nyumt.Proofs.Steps

/-!
# Tries of a task

The loops of `publish` and of `block_order_vote` each go round again with a counter, whatever made
them do so, and ask for the limit anew each time. A task that others change everything under between
two of its steps (`Task.among`) begins no more passes of either than its counter, a `u8`, has values
(`Task.retries_bounded`), so it comes to its end (`Task.exists_done`).
-/

namespace Nyumt

open Borsh

namespace Pc

/-- Its line in the text, that of `publish` and `block_order_vote` in place. -/
def line : Pc → ℕ
  | .start => 0
  | .publish _ _ => 1
  | .pushPending _ => 2
  | .readPending _ => 3
  | .clearPending _ => 4
  | .lastBlock _ _ => 5
  | .publishArchive _ _ _ _ => 6
  | .pushApproved _ _ _ _ => 7
  | .readApproved _ _ _ _ => 8
  | .clearApproved _ _ => 9
  | .reply _ => 10
  | .insert _ => 11
  | .interpret _ => 12
  | .done => 13

/-- The counter of the loop it is in. -/
def retry : Pc → Option ℕ
  | .publish _ n | .lastBlock _ n | .publishArchive _ n _ _ | .pushApproved _ n _ _
  | .readApproved _ n _ _ => some n
  | _ => none

def pos (pc : Pc) : RetryLoop.Pos := ⟨pc.line, pc.retry.getD 0⟩

/-- With its counter as a `u8` has it. -/
def wrap : Pc → Pc
  | .publish l n => .publish l (n % 2 ^ 8)
  | .lastBlock data n => .lastBlock data (n % 2 ^ 8)
  | .publishArchive data n height hash => .publishArchive data (n % 2 ^ 8) height hash
  | .pushApproved data n height hash => .pushApproved data (n % 2 ^ 8) height hash
  | .readApproved data n height hash => .readApproved data (n % 2 ^ 8) height hash
  | pc => pc

/-- How many steps are left to a task, at most. -/
def rank : Pc → ℕ
  | .start => 1288
  | .publish _ n => 255 - n + 1032
  | .pushPending _ => 1031
  | .readPending _ => 1030
  | .clearPending _ => 1029
  | .lastBlock _ n => 4 * (255 - n) + 8
  | .publishArchive _ n _ _ => 4 * (255 - n) + 7
  | .pushApproved _ n _ _ => 4 * (255 - n) + 6
  | .readApproved _ n _ _ => 4 * (255 - n) + 5
  | .clearApproved _ _ => 4
  | .reply _ => 3
  | .insert _ => 2
  | .interpret _ => 1
  | .done => 0

/-- What leads back in the text is one more try, and there is a limit that allows it. -/
def Again (pc pc' : Pc) : Prop :=
  ∀ n n', pc.retry = some n → pc'.retry = some n' → pc'.line ≤ pc.line → n' = n + 1 ∧ n < 255

/-- A pass of the loop of `publish` begins. -/
def publishes : Pc → Bool
  | .publish _ _ => true
  | _ => false

/-- A pass of the loop of `block_order_vote` begins. -/
def orders : Pc → Bool
  | .lastBlock _ _ => true
  | _ => false

end Pc

def publishLoop : RetryLoop := ⟨1, 1, 255, le_rfl⟩

def blockOrderVoteLoop : RetryLoop := ⟨5, 8, 255, by omega⟩

section Loops

variable {pc : Pc}

theorem publishes_eq : pc.publishes = decide (pc.pos.line = publishLoop.first) := by
  cases pc <;> rfl

theorem orders_eq : pc.orders = decide (pc.pos.line = blockOrderVoteLoop.first) := by
  cases pc <;> rfl

/-- A counter is that of one of the loops. -/
theorem inside_of_retry {n : ℕ} (h : pc.retry = some n) :
    publishLoop.Inside pc.pos ∨ blockOrderVoteLoop.Inside pc.pos := by
  cases pc <;> try cases h
  case publish => exact .inl ⟨le_rfl, le_rfl⟩
  case lastBlock => exact .inr ⟨le_rfl, (by omega : 5 ≤ 8)⟩
  case publishArchive => exact .inr ⟨(by omega : 5 ≤ 6), (by omega : 6 ≤ 8)⟩
  case pushApproved => exact .inr ⟨(by omega : 5 ≤ 7), (by omega : 7 ≤ 8)⟩
  case readApproved => exact .inr ⟨(by omega : 5 ≤ 8), le_rfl⟩

theorem retry_pos {n : ℕ} (h : n ∈ pc.retry) : pc.pos.retry = n := by
  rw [Pc.pos, Option.mem_def.1 h, Option.getD_some]

theorem wrap_eq (h : ∀ n ∈ pc.retry, n < 2 ^ 8) : pc.wrap = pc := by
  cases pc <;> first | rfl | simp only [Pc.wrap, Nat.mod_eq_of_lt (h _ rfl)]

theorem rank_pos (h : pc.Voting) : 0 < pc.rank := by
  cases pc <;> first | exact Nat.succ_pos _ | exact h.elim

end Loops

namespace Task

variable {K : Crypto} {s s' : SwarmSettings} {t t' : Task} {net : Publish}

theorem build_retry (t : Task) (height : ℕ) (vhash : Option Digest) (hasher : Option Bytes) :
    (t.build K height vhash hasher).pc.retry = none := by
  unfold build
  split <;> rfl

/-- What leads back in the text is one more try, below the limit of the configuration as it is
then. -/
theorem step_retry (h : t.step K s net = some (s', t')) {n n' : ℕ} (hn : t.pc.retry = some n)
    (hn' : t'.pc.retry = some n') (hback : t'.pc.line ≤ t.pc.line) :
    n' = n + 1 ∧ n < s.conf.blockPushRetries.toNat := by
  unfold step at h
  cases hpc : t.pc <;> rw [hpc] at hn hback <;> try cases hn
  all_goals simp only [hpc] at h
  case publish l =>
    rcases net with _ | _ | _ <;> simp only [Option.some.injEq, Prod.mk.injEq] at h <;>
      obtain ⟨rfl, rfl⟩ := h
    · cases hn'
    · split_ifs at hn' with hmulti hlimit
      · cases hn'
      · obtain rfl := Option.some.inj hn'
        exact ⟨rfl, not_le.1 hlimit⟩
      · rw [build_retry] at hn'
        cases hn'
    · cases hn'
  case lastBlock data =>
    simp only [Option.some.injEq, Prod.mk.injEq] at h
    obtain ⟨rfl, rfl⟩ := h
    unfold place at hn' hback
    split at hn'
    · cases hn'
    · rename_i height hash hlast
      simp only [hlast] at hback
      exact absurd hback (by omega : ¬ 6 ≤ 5)
  case publishArchive data height hash =>
    split at h
    · simp only [Option.some.injEq, Prod.mk.injEq] at h
      obtain ⟨rfl, rfl⟩ := h
      cases hn'
    · rcases net with _ | _ | _ <;> simp only [Option.some.injEq, Prod.mk.injEq] at h <;>
        obtain ⟨rfl, rfl⟩ := h
      · exact absurd hback (by omega : ¬ 7 ≤ 6)
      · split_ifs at hn' with hlimit
        · cases hn'
        · obtain rfl := Option.some.inj hn'
          exact ⟨rfl, not_le.1 hlimit⟩
      · cases hn'
  case pushApproved data height hash =>
    simp only [Option.some.injEq, Prod.mk.injEq] at h
    obtain ⟨rfl, rfl⟩ := h
    exact absurd hback (by omega : ¬ 8 ≤ 7)
  case readApproved data height hash =>
    simp only [Option.some.injEq, Prod.mk.injEq] at h
    obtain ⟨rfl, rfl⟩ := h
    unfold tally at hn'
    split at hn'
    · cases hn'
    · split_ifs at hn' with hno hlimit
      · cases hn'
      · obtain rfl := Option.some.inj hn'
        exact ⟨rfl, not_le.1 hlimit⟩
      · cases hn'

theorem step_again (h : t.step K s net = some (s', t')) : t.pc.Again t'.pc :=
  fun _ _ hn hn' hback => (step_retry h hn hn' hback).imp_right fun hlt =>
    hlt.trans_le (Nat.le_of_lt_succ s.conf.blockPushRetries.toNat_lt)

/-- A step goes on with the votes, or is one of the last. -/
theorem step_on (h : t.step K s net = some (s', t')) :
    (Moves K s t.body t.pc t'.pc ∧ t.pc.Again t'.pc)
      ∨ (10 < t'.pc.line ∧ t'.pc.rank < t.pc.rank) := by
  rcases step_cases h with hv | ⟨row, hpc, -, rfl⟩ | ⟨row, hpc, -, -, rfl⟩ |
    ⟨row, db, hpc, -, -, rfl⟩ | ⟨row, hpc, rfl, -⟩
  · rcases hv.moves with ⟨hm, -⟩ | ⟨hdone, -⟩
    · exact .inl ⟨hm, step_again h⟩
    · rw [hdone]
      exact .inr ⟨(by omega : 10 < 13), rank_pos hv.voting⟩
  · rw [hpc]
    exact .inr ⟨(by omega : 10 < 11), (by omega : 2 < 3)⟩
  · rw [hpc]
    exact .inr ⟨(by omega : 10 < 13), (by omega : 0 < 2)⟩
  · rw [hpc]
    exact .inr ⟨(by omega : 10 < 12), (by omega : 1 < 2)⟩
  · rw [hpc]
    exact .inr ⟨(by omega : 10 < 13), (by omega : 0 < 1)⟩

/-- A way on, as both loops see it: a task comes to one loop after the other, goes on in it, tries
again or is through with it. -/
theorem Moves.loops {body : BodyData} {pc pc' : Pc} (hm : Moves K s body pc pc')
    (hagain : pc.Again pc') :
    publishLoop.Goes pc.pos pc'.pos ∧ blockOrderVoteLoop.Goes pc.pos pc'.pos := by
  cases hm with
  | read => exact ⟨.enter (by omega : 0 < 1), .ahead (by omega : 0 < 5) (by omega : 1 < 5)⟩
  | retry l n n' =>
    obtain ⟨rfl, hn⟩ := hagain n n' rfl rfl le_rfl
    exact ⟨.again ⟨le_rfl, le_rfl⟩ hn, .ahead (by omega : 1 < 5) (by omega : 1 < 5)⟩
  | alone => exact ⟨.leave (by omega : 1 < 10), .leave (by omega : 8 < 10)⟩
  | published => exact ⟨.leave (by omega : 1 < 2), .ahead (by omega : 1 < 5) (by omega : 2 < 5)⟩
  | pushed => exact ⟨.leave (by omega : 1 < 3), .ahead (by omega : 2 < 5) (by omega : 3 < 5)⟩
  | counted => exact ⟨.leave (by omega : 1 < 4), .ahead (by omega : 3 < 5) (by omega : 4 < 5)⟩
  | cleared => exact ⟨.leave (by omega : 1 < 5), .enter (by omega : 4 < 5)⟩
  | place => exact ⟨.leave (by omega : 1 < 6), .on le_rfl (by omega : 5 < 6) rfl⟩
  | unheard data n n' =>
    obtain ⟨rfl, hn⟩ := hagain n n' rfl rfl (by omega : 5 ≤ 6)
    exact ⟨.leave (by omega : 1 < 5), .again ⟨(by omega : 5 ≤ 6), (by omega : 6 ≤ 8)⟩ hn⟩
  | placePublished =>
    exact ⟨.leave (by omega : 1 < 7), .on (by omega : 5 ≤ 6) (by omega : 6 < 7) rfl⟩
  | placePushed =>
    exact ⟨.leave (by omega : 1 < 8), .on (by omega : 5 ≤ 7) (by omega : 7 < 8) rfl⟩
  | again data n n' =>
    obtain ⟨rfl, hn⟩ := hagain n n' rfl rfl (by omega : 5 ≤ 8)
    exact ⟨.leave (by omega : 1 < 5), .again ⟨(by omega : 5 ≤ 8), le_rfl⟩ hn⟩
  | refused | approved => exact ⟨.leave (by omega : 1 < 9), .leave (by omega : 8 < 9)⟩
  | build => exact ⟨.leave (by omega : 1 < 10), .leave (by omega : 8 < 10)⟩

theorem Moves.rank_lt {body : BodyData} {pc pc' : Pc} (hm : Moves K s body pc pc')
    (hagain : pc.Again pc') : pc'.rank < pc.rank := by
  cases hm with
  | retry l n n' =>
    obtain ⟨rfl, hn⟩ := hagain n n' rfl rfl le_rfl
    simp only [Pc.rank]
    omega
  | unheard data n n' =>
    obtain ⟨rfl, hn⟩ := hagain n n' rfl rfl (by omega : 5 ≤ 6)
    simp only [Pc.rank]
    omega
  | again data n n' =>
    obtain ⟨rfl, hn⟩ := hagain n n' rfl rfl (by omega : 5 ≤ 8)
    simp only [Pc.rank]
    omega
  | read | alone | published | pushed | counted | cleared | place | placePublished | placePushed
  | refused | approved | build =>
    simp only [Pc.rank]
    omega

theorem step_loops (h : t.step K s net = some (s', t')) :
    publishLoop.Goes t.pc.pos t'.pc.pos ∧ blockOrderVoteLoop.Goes t.pc.pos t'.pc.pos := by
  rcases step_on h with ⟨hm, hagain⟩ | ⟨hline, -⟩
  · exact hm.loops hagain
  · exact ⟨.leave (lt_trans (by omega : 1 < 10) hline),
      .leave (lt_trans (by omega : 8 < 10) hline)⟩

theorem step_rank_lt (h : t.step K s net = some (s', t')) : t'.pc.rank < t.pc.rank := by
  rcases step_on h with ⟨hm, hagain⟩ | ⟨-, hlt⟩
  · exact hm.rank_lt hagain
  · exact hlt

/-- Only a task that is done takes no step. -/
theorem step_isSome (h : t.pc ≠ .done) : (t.step K s net).isSome := by
  unfold step
  cases hpc : t.pc with
  | done => exact absurd hpc h
  | publish l n => cases net <;> rfl
  | publishArchive data n height hash =>
    simp only
    split
    · rfl
    · cases net <;> rfl
  | insert row =>
    simp only
    split <;> rfl
  | interpret row =>
    simp only
    split <;> rfl
  | start | pushPending | readPending | clearPending | lastBlock | pushApproved | readApproved
  | clearApproved | reply => rfl

section Among

variable (K) in
/-- A step of a task, with what it shares with others as it is then, and what gossipsub answers. -/
def among (t : Task) (a : SwarmSettings × Publish) : Option Task :=
  (t.step K a.1 a.2).map Prod.snd

variable (K) in
/-- The same with a counter that is a `u8`, and wraps. -/
def amongU8 (t : Task) (a : SwarmSettings × Publish) : Option Task :=
  (t.among K a).map fun t => t.goto t.pc.wrap

variable (K) in
/-- The passes that are begun of the loop with this head. -/
def passes (head : Pc → Bool) (t : Task) (as : List (SwarmSettings × Publish)) : ℕ :=
  (Run.observe (among K) (fun t _ => t) t as).countP fun t => head t.pc

theorem of_among {a : SwarmSettings × Publish} (h : t.among K a = some t') :
    ∃ s, t.step K a.1 a.2 = some (s, t') := by
  obtain ⟨⟨s, t'⟩, hs, rfl⟩ := Option.map_eq_some_iff.1 h
  exact ⟨s, hs⟩

theorem among_loops (t : Task) (a : SwarmSettings × Publish) (t' : Task)
    (h : t.among K a = some t') :
    publishLoop.Goes t.pc.pos t'.pc.pos ∧ blockOrderVoteLoop.Goes t.pc.pos t'.pc.pos := by
  obtain ⟨s, hs⟩ := of_among h
  exact step_loops hs

theorem among_rank_lt (t : Task) (a : SwarmSettings × Publish) (t' : Task)
    (h : t.among K a = some t') : t'.pc.rank < t.pc.rank := by
  obtain ⟨s, hs⟩ := of_among h
  exact step_rank_lt hs

theorem passes_publishes_le (h : t.pc.pos.line < publishLoop.first)
    (as : List (SwarmSettings × Publish)) : passes K Pc.publishes t as ≤ 256 := by
  simp only [passes, publishes_eq]
  exact RetryLoop.passes_le (fun t => t.pc.pos) (fun t a t' h => (among_loops t a t' h).1) h as

theorem passes_orders_le (h : t.pc.pos.line < blockOrderVoteLoop.first)
    (as : List (SwarmSettings × Publish)) : passes K Pc.orders t as ≤ 256 := by
  simp only [passes, orders_eq]
  exact RetryLoop.passes_le (fun t => t.pc.pos) (fun t a t' h => (among_loops t a t' h).2) h as

/-- What is in a loop is there with a counter that a `u8` can hold. -/
theorem throughout_retry (h : t.pc.pos.retry ≤ 255) (as : List (SwarmSettings × Publish)) :
    Run.Throughout (among K) (fun t => ∀ n ∈ t.pc.retry, n < 2 ^ 8) t as := by
  have hpublish := RetryLoop.retry_le (fun t => t.pc.pos) (L := publishLoop)
    (fun t a t' h => (among_loops (K := K) t a t' h).1) (fun _ => h) as
  have horder := RetryLoop.retry_le (fun t => t.pc.pos) (L := blockOrderVoteLoop)
    (fun t a t' h => (among_loops (K := K) t a t' h).2) (fun _ => h) as
  refine (hpublish.and horder).mono fun t ⟨hp, ho⟩ n hn => ?_
  obtain rfl := retry_pos hn
  rcases inside_of_retry hn with hin | hin
  · exact Nat.lt_succ_of_le (hp hin)
  · exact Nat.lt_succ_of_le (ho hin)

/-- So it makes no difference that the counter is a `u8`. -/
theorem run_amongU8 (h : t.pc.pos.retry ≤ 255) (as : List (SwarmSettings × Publish)) :
    Run.run (amongU8 K) t as = Run.run (among K) t as := by
  refine Run.run_congr (fun t a hfits => ?_) (throughout_retry h as)
  unfold amongU8
  rcases hstep : t.among K a with _ | t'
  · rfl
  · rw [Option.map_some, wrap_eq (hfits t' hstep)]
    rfl

/-- Whatever others make of all that a task shares, before each of its steps, neither loop has more
passes than the counter has values, and the counter never overflows. -/
theorem retries_bounded (K : Crypto) (body : BodyData) (as : List (SwarmSettings × Publish)) :
    passes K Pc.publishes { body := body } as ≤ 256 ∧ passes K Pc.orders { body := body } as ≤ 256
      ∧ Run.Throughout (among K) (fun t => ∀ n ∈ t.pc.retry, n < 2 ^ 8) { body := body } as
      ∧ Run.run (amongU8 K) { body := body } as = Run.run (among K) { body := body } as := by
  refine ⟨passes_publishes_le ?_ as, passes_orders_le ?_ as, throughout_retry ?_ as,
    run_amongU8 ?_ as⟩
  · exact (by omega : 0 < 1)
  · exact (by omega : 0 < 5)
  · exact Nat.zero_le _
  · exact Nat.zero_le _

/-- A task is done after so many steps. -/
theorem exists_done {as : List (SwarmSettings × Publish)} (h : t.pc.rank < as.length) :
    ∃ pre post t', as = pre ++ post ∧ Run.run (among K) t pre = some t' ∧ t'.pc = .done := by
  obtain ⟨pre, a, post, t', rfl, hrun, hstuck⟩ := Run.exists_stuck among_rank_lt h
  refine ⟨pre, a :: post, t', rfl, hrun, by_contra fun hne => ?_⟩
  have hsome : (t'.step K a.1 a.2).isSome := step_isSome hne
  rw [Option.map_eq_none_iff.1 hstuck] at hsome
  cases hsome

theorem passes_cons {head : Pc → Bool} {a : SwarmSettings × Publish} (h : t.among K a = some t')
    (as : List (SwarmSettings × Publish)) :
    passes K head t (a :: as) = passes K head t' as + if head t.pc then 1 else 0 := by
  simp only [passes, Run.observe, h, Option.elim_some, List.countP_cons]

/-- While no other master is reached and the limit stays, a block is tried once more than the limit
allows, and dropped. -/
theorem run_unreachable {l : Locals} (hmulti : s.db.multiMaster) : ∀ {k n : ℕ} {t : Task},
    t.pc = .publish l n → n + k = s.conf.blockPushRetries.toNat →
      Run.run (among K) t (List.replicate (k + 1) (s, .insufficientPeers))
          = some (t.finish .reqError)
        ∧ passes K Pc.publishes t (List.replicate (k + 1) (s, .insufficientPeers)) = k + 1
  | 0, n, t, hpc, hlimit => by
    have hstep : t.among K (s, .insufficientPeers) = some (t.finish .reqError) := by
      simp [among, step, hpc, hmulti, ← hlimit]
    rw [List.replicate_one, Run.run_cons [] hstep, passes_cons hstep, hpc]
    exact ⟨rfl, rfl⟩
  | k + 1, n, t, hpc, hlimit => by
    have hlt : ¬ s.conf.blockPushRetries.toNat ≤ n := by omega
    have hstep : t.among K (s, .insufficientPeers) = some (t.goto (.publish l (n + 1))) := by
      simp [among, step, hpc, hmulti, hlt]
    obtain ⟨hrun, hpasses⟩ := run_unreachable hmulti (k := k) (n := n + 1)
      (t := t.goto (.publish l (n + 1))) rfl (by omega)
    rw [List.replicate_succ, Run.run_cons _ hstep, passes_cons hstep, hrun, hpasses, hpc]
    exact ⟨rfl, rfl⟩

end Among

end Task

namespace Master

variable {K : Crypto} {i : ℕ}

/-- A task of a master is a task among others. -/
theorem among_run : ∀ {m m' : Master} {as : List Act} {t : Task}, Run.run (step K) m as = some m' →
    m.tasks[i]? = some t → ∃ bs t', Run.run (Task.among K) t bs = some t'
      ∧ m'.tasks[i]? = some t' ∧ bs.length = as.countP (Act.by i)
  | m, m', [], t, hr, ht => by
    obtain rfl := Option.some.inj hr
    exact ⟨[], t, rfl, ht, rfl⟩
  | m, m', a :: as, t, hr, ht => by
    obtain ⟨u, hu, hr⟩ := Run.of_run_cons hr
    rcases hby : a.by i with _ | _
    · obtain ⟨bs, t', hrun, ht', hlen⟩ := among_run hr (tasks_stay hu hby ht)
      exact ⟨bs, t', hrun, ht', by simp [hby, hlen]⟩
    · cases a <;> simp only [Act.by, decide_eq_true_eq, Bool.false_eq_true] at hby
      case task j net =>
        obtain rfl := hby.symm
        obtain ⟨t₀, s, t₁, hget, hs, rfl⟩ := of_step_task hu
        obtain rfl : t = t₀ := Option.some.inj (ht.symm.trans hget)
        obtain ⟨hlt, -⟩ := List.getElem?_eq_some_iff.1 ht
        obtain ⟨bs, t', hrun, ht', hlen⟩ := among_run hr (t := t₁) (by simp [hlt])
        have hamong : t.among K (m.set, net) = some t₁ := by simp [Task.among, hs]
        exact ⟨(m.set, net) :: bs, t', (Run.run_cons bs hamong).trans hrun, ht', by
          simp [Act.by, hlen]⟩

/-- From its request on, a task takes so many steps at most, and its counter is a `u8` all along. -/
theorem request_run {m m' : Master} {as : List Act} {body : BodyData}
    (h : Run.run (step K) m as = some m') (ht : m.tasks[i]? = some { body := body }) :
    as.countP (Act.by i) ≤ 1288 ∧ ∃ t ∈ m'.tasks[i]?, ∀ n ∈ t.pc.retry, n < 2 ^ 8 := by
  obtain ⟨bs, t, hrun, ht', hlen⟩ := among_run h ht
  have hle := Run.length_le_of_run Task.among_rank_lt hrun
  have hretry := Task.throughout_retry (K := K) (t := { body := body }) (Nat.zero_le _) bs
  exact ⟨by rw [← hlen]; exact (Nat.le_add_right _ _).trans hle, t, ht', hretry.last hrun⟩

end Master

end Nyumt
