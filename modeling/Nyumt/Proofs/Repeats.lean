import Nyumt.Proofs.Chain
import Nyumt.Proofs.Format
import Nyumt.Serve

/-!
# Requests that are sent again

A signature covers the orders and nothing that is new each time, and no check asks whether the
request was here before. What keeps a request from being committed again is a check that finds
something against it. Where every repeat meets such a check no request is committed twice
(`once_run`).
-/

namespace Nyumt

open Borsh

/-- What its signer made of a block: the orders and the signature, and who signed. -/
def BodyData.signed (b : BodyData) : List RequestType × Bytes × PublicKey :=
  (b.req, b.sign, b.userPk)

/-- What is signed in a row. -/
def OrderRow.signed (row : OrderRow) : Option (List RequestType × Bytes × PublicKey) := do
  let block ← fromSlice Block row.data
  let body ← fromSlice BodyData block.body
  return body.signed

/-- What a task may still commit, as it will be read back. -/
def Task.underway (t : Task) : Option (List RequestType × Bytes × PublicKey) :=
  match t.pc with
  | .interpret _ | .done => none
  | _ => some t.body.clearHash.signed

namespace Server

variable {K : Crypto} {s s' : Server}

/-- No two rows carry the same orders and signature of the same signer. -/
def Once (s : Server) : Prop := (s.master.set.db.order.filterMap OrderRow.signed).Nodup

theorem not_once {i j : ℕ} {k : List RequestType × Bytes × PublicKey} (hij : i < j)
    (hi : s.master.set.db.order[i]?.bind OrderRow.signed = some k)
    (hj : s.master.set.db.order[j]?.bind OrderRow.signed = some k) : ¬ s.Once := by
  obtain ⟨x, hx, hxk⟩ := Option.bind_eq_some_iff.1 hi
  obtain ⟨y, hy, hyk⟩ := Option.bind_eq_some_iff.1 hj
  obtain ⟨hi', rfl⟩ := List.getElem?_eq_some_iff.1 hx
  obtain ⟨hj', rfl⟩ := List.getElem?_eq_some_iff.1 hy
  intro honce
  rw [Once, List.Nodup, List.pairwise_filterMap] at honce
  exact List.pairwise_iff_getElem.1 honce i j hi' hj' hij k hxk k hyk rfl

/-- What is committed or may still be. -/
def claimed (rows : List OrderRow) (tasks : List Task) :
    List (List RequestType × Bytes × PublicKey) :=
  rows.filterMap OrderRow.signed ++ tasks.filterMap Task.underway

/-- Nothing was found against the request. -/
def passed (c : Checking) : Bool :=
  match c.check with
  | .done (.ok none) => true
  | _ => false

/-- A request that passes is neither committed nor under way. -/
def Fresh (s : Server) : Act → Prop
  | .check i timestamp => ∀ c ∈ s.checks[i]?, passed c →
    (c.block timestamp).clearHash.signed ∉ claimed s.master.set.db.order s.master.tasks
  | _ => True

instance (s : Server) : DecidablePred s.Fresh
  | .check _ _ => by unfold Fresh; infer_instance
  | .hello _ _ | .enter _ | .disconnect _ | .request _ _ _ | .master _ => isTrue trivial

structure OnceInv (K : Crypto) (s : Server) : Prop where
  nodup : (claimed s.master.set.db.order s.master.tasks).Nodup
  tasks : ∀ t ∈ s.master.tasks, t.Ok K s.master.set.db.order

section Claims

variable {rows : List OrderRow} {tasks : List Task} {row : OrderRow} {t t' : Task} {i : ℕ}
  {k : List RequestType × Bytes × PublicKey}

theorem claimed_cons :
    (claimed rows (t :: tasks)).Perm (t.underway.toList ++ claimed rows tasks) := by
  unfold claimed
  rw [List.filterMap_cons]
  rcases t.underway with _ | k
  · rfl
  · exact List.perm_middle

/-- A new task claims its block. -/
theorem claimed_concat {body : BodyData} : (claimed rows (tasks ++ [{ body := body }])).Perm
    (body.clearHash.signed :: claimed rows tasks) :=
  .trans (.append_left _ (.filterMap _ (List.perm_append_singleton _ _))) claimed_cons

theorem claimed_get (ht : tasks[i]? = some t) : (claimed rows tasks).Perm
    (t.underway.toList ++ claimed rows (tasks.eraseIdx i)) := by
  obtain ⟨hlt, rfl⟩ := List.getElem?_eq_some_iff.1 ht
  refine .trans (.append_left _ (.filterMap _ ?_)) claimed_cons
  exact (List.getElem_cons_eraseIdx_perm hlt).symm

theorem claimed_set (hi : i < tasks.length) : (claimed rows (tasks.set i t)).Perm
    (t.underway.toList ++ claimed rows (tasks.eraseIdx i)) :=
  .trans (.append_left _ (.filterMap _ (List.set_perm_cons_eraseIdx hi t))) claimed_cons

/-- A task that goes on claims what it claimed, or nothing. -/
theorem nodup_set (ht : tasks[i]? = some t) (hu : t'.underway = t.underway ∨ t'.underway = none)
    (h : (claimed rows tasks).Nodup) : (claimed rows (tasks.set i t')).Nodup := by
  rw [(claimed_get ht).nodup_iff] at h
  rw [(claimed_set (List.getElem?_eq_some_iff.1 ht).1).nodup_iff]
  rcases hu with hu | hu
  · rw [hu]
    exact h
  · rw [hu]
    exact h.of_append_right

/-- What a task claimed, its row now holds. -/
theorem nodup_insert (ht : tasks[i]? = some t) (hu : t.underway = some k) (hu' : t'.underway = none)
    (hrow : row.signed = some k) (h : (claimed rows tasks).Nodup) :
    (claimed (rows ++ [row]) (tasks.set i t')).Nodup := by
  rw [(claimed_get ht).nodup_iff, hu] at h
  rw [(claimed_set (List.getElem?_eq_some_iff.1 ht).1).nodup_iff, hu', claimed,
    List.filterMap_append]
  simp only [List.filterMap_cons, hrow, List.filterMap_nil, Option.toList_none, List.nil_append,
    List.append_assoc]
  exact List.perm_middle.nodup_iff.2 h

/-- A task's row holds what the task was to commit. -/
theorem signed_of_ok (hok : t.Ok K rows) (hpc : t.pc = .insert row) :
    row.signed = some t.body.clearHash.signed := by
  unfold Task.Ok at hok
  rw [hpc] at hok
  obtain ⟨body, hash, hb, hh, -⟩ := hok
  simp [OrderRow.signed, hh.data, fromSlice_clearHash hb]

theorem underway_of_voting (hv : t.pc.Voting) : t.underway = some t.body.clearHash.signed := by
  unfold Task.underway
  cases hpc : t.pc <;> rw [hpc] at hv <;> first | rfl | exact hv.elim

end Claims

theorem onceInv_task {i : ℕ} {net : Publish} {m : Master}
    (h : s.master.step K (.task i net) = some m) (hi : OnceInv K s) :
    OnceInv K { s with master := m } := by
  have hsub : s.master.set.db.order ⊆ m.set.db.order := (Master.order_prefix_step h).subset
  obtain ⟨t, set, t', hget, hs, rfl⟩ := Master.of_step_task h
  have hok := hi.tasks t (List.mem_of_getElem? hget)
  refine ⟨?_, fun x hx => ?_⟩
  · rcases Task.step_cases hs with hv | ⟨row, hpc, rfl, rfl⟩ | ⟨row, hpc, -, rfl, rfl⟩ |
      ⟨row, db, hpc, ha, rfl, rfl⟩ | ⟨row, hpc, rfl, rfl⟩
    · rw [hv.db]
      refine nodup_set hget ?_ hi.nodup
      rw [underway_of_voting hv.voting]
      rcases hv.next with ⟨hnext | ⟨row, hnext⟩, -⟩ | ⟨hd, -⟩
      · exact .inl (by rw [underway_of_voting hnext, hv.body])
      · exact .inl (by rw [Task.underway, hnext, hv.body])
      · exact .inr (by rw [Task.underway, hd])
    · exact nodup_set hget (.inl (by rw [Task.underway, Task.underway, hpc])) hi.nodup
    · exact nodup_set hget (.inr rfl) hi.nodup
    · obtain ⟨-, rfl⟩ := Database.addNew_eq_some _ ha
      exact nodup_insert hget (by rw [Task.underway, hpc]) rfl (signed_of_ok hok hpc) hi.nodup
    · rw [applyBlock_order]
      refine nodup_set hget (.inr rfl) hi.nodup
  · rcases mem_set_cases hx with rfl | ⟨j, -, hx⟩
    · exact Task.step_ok hs hok
    · exact (hi.tasks x (List.mem_of_getElem? hx)).mono hsub

theorem onceInv_step {a : Act} (hsingle : a.Single) (hok : s.Fresh a) (h : s.step K a = some s')
    (hi : OnceInv K s) : OnceInv K s' := by
  cases moves h with
  | @accept i c timestamp hc hd =>
    refine ⟨?_, fun t ht => ?_⟩
    · have hfresh := hok c hc (by rw [passed, hd])
      exact claimed_concat.nodup_iff.2 (List.nodup_cons.2 ⟨hfresh, hi.nodup⟩)
    · rcases List.mem_append.1 ht with ht | ht
      · exact hi.tasks t ht
      · obtain rfl := List.mem_singleton.1 ht
        trivial
  | @master a m hm =>
    cases a
    case task i net => exact onceInv_task hm hi
    case request => simp [step] at h
    case configure conf =>
      obtain rfl := Master.of_step_configure hm
      exact ⟨hi.nodup, hi.tasks⟩
    all_goals exact hsingle.elim
  | login | stranger | enter | disconnect | request | ignore | refuse | query =>
    exact ⟨hi.nodup, hi.tasks⟩

theorem OnceInv.once (hi : OnceInv K s) : s.Once := hi.nodup.of_append_left

/-- On a master without peers no signed request is committed twice, if none passes its checks while
it is committed or under way. -/
theorem once_run {nodePk pk : PublicKey} {timestamp : UInt64} {db : Database} {conf : MasterConfig}
    {as : List Act} (hg : Genesis K nodePk pk timestamp db) (hsingle : ∀ a ∈ as, a.Single)
    (hok : Run.Along (step K) Fresh (init db conf) as) :
    Run.Throughout (step K) Once (init db conf) as := by
  have halong : Run.Along (step K) (fun s a => a.Single ∧ s.Fresh a) (init db conf) as :=
    (Run.along_of_forall hsingle).and hok
  have hinit : OnceInv K (init db conf) := by
    obtain ⟨-, data, body, ho, -, hd⟩ := of_genesis hg
    refine ⟨?_, by simp [init, Master.init]⟩
    simp only [init, Master.init, claimed, ho, List.filterMap_cons, List.filterMap_nil,
      List.append_nil]
    split <;> simp
  exact (Run.throughout_induction (fun s a s' ha hs hi => onceInv_step ha.1 ha.2 hs hi) halong
    hinit).mono fun s hi => hi.once

/-- The root user logs in and sends a request, which is checked and committed, and then another. -/
def oneByOne (req req' : List RequestType) : List Act :=
  let send (i : ℕ) (req : List RequestType) : List Act :=
    .request "p" req (toyBody 0 req).sign :: List.replicate 4 (.check 0 0)
      ++ (Master.alone i).map .master
  [.hello "p" (toyKey 1), .enter 0] ++ send 0 req ++ send 1 req'

/-- The root user is renamed twice. -/
theorem once_run_rename :
    let as := oneByOne (renameRoot "a").req (renameRoot "b").req
    ((Run.run (step toy) (init toyGenesis (.default toy)) as).any fun s =>
      s.master.set.db.order.length = 3)
        ∧ Run.Throughout (step toy) Once (init toyGenesis (.default toy)) as :=
  ⟨by decide +kernel, once_run genesis_toyGenesis (by decide +kernel) (by decide +kernel)⟩

/-- The root user is renamed, and the request is sent again. -/
theorem not_once_run :
    let as := oneByOne (renameRoot "a").req (renameRoot "a").req
    (∀ a ∈ as, a.Single)
      ∧ ∃ s, Run.run (step toy) (init toyGenesis (.default toy)) as = some s ∧ ¬ s.Once := by
  have hrun : (Run.run (step toy) (init toyGenesis (.default toy))
      (oneByOne (renameRoot "a").req (renameRoot "a").req)).any fun s =>
        s.master.set.db.order[1]?.bind OrderRow.signed = some (renameRoot "a").signed
          ∧ s.master.set.db.order[2]?.bind OrderRow.signed = some (renameRoot "a").signed := by
    decide +kernel
  obtain ⟨s, hs, h₁, h₂⟩ := Run.exists_of_any hrun
  exact ⟨by decide +kernel, s, hs, not_once (by decide) h₁ h₂⟩

end Server

end Nyumt
