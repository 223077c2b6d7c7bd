import Nyumt.Proofs.Replay

/-!
# What an `Ok` promises

A task answers before it inserts its row and long before it interprets it. On a master without
peers both go through, and the block is interpreted once, as long as nobody has taken the height
since the task read the last block and the block updates no public key (`acknowledged_run`).
-/

namespace Nyumt

open Borsh

variable {K : Crypto}

/-- The block is in the log under this row, and was interpreted once and with success. -/
structure Task.Settled (s : SwarmSettings) (t : Task) (row : OrderRow) : Prop where
  mem : row ∈ s.db.order
  holds : ∃ body hash, toVec t.body = some body ∧ Holds row body hash
  once : s.applied.filter (fun p => p.1 = row) = [(row, true)]

/-- The row a task has told its client of, and that it was not interpreted yet. -/
def Task.AckOk (s : SwarmSettings) (t : Task) : Prop :=
  match t.pc with
  | .insert row => t.acked = some row
  | .interpret row => t.acked = some row ∧ row ∉ s.applied.map Prod.fst
  | .done => t.answer = some .ok → ∃ row, t.acked = some row ∧ t.Settled s row
  | _ => t.answer = none

/-- The task finds its height free, and has no key to update. -/
def Task.Undisturbed (s : SwarmSettings) (t : Task) : Prop :=
  match t.pc with
  | .insert row => row.id ∉ s.db.order.map OrderRow.id
  | .interpret _ => ¬ UpdatesKey t.body.req
  | _ => True

instance (s : SwarmSettings) (t : Task) : Decidable (t.Undisturbed s) :=
  match h : t.pc with
  | .insert row =>
    decidable_of_iff (row.id ∉ s.db.order.map OrderRow.id) (by simp [Task.Undisturbed, h])
  | .interpret _ => decidable_of_iff (¬ UpdatesKey t.body.req) (by simp [Task.Undisturbed, h])
  | .start | .publish _ _ | .pushPending _ | .readPending _ | .clearPending _ | .lastBlock _ _
  | .publishArchive _ _ _ _ | .pushApproved _ _ _ _ | .readApproved _ _ _ _ | .clearApproved _ _
  | .reply _ | .done => isTrue (by simp [Task.Undisturbed, h])

namespace Master

variable {m m' : Master}

def Undisturbed (m : Master) : Act → Prop
  | .task i _ => ∀ t ∈ m.tasks[i]?, t.Undisturbed m.set
  | _ => True

instance (m : Master) : DecidablePred m.Undisturbed
  | .task i _ => inferInstanceAs (Decidable (∀ t ∈ m.tasks[i]?, t.Undisturbed m.set))
  | .request _ | .handle _ _ | .timer _ | .dispatch _ | .gossip _ _ | .configure _ => isTrue trivial

structure AckInv (K : Crypto) (m : Master) : Prop where
  chain : Chain K m.set.db.order
  tasks : ∀ t ∈ m.tasks, t.Ok K m.set.db.order ∧ t.AckOk m.set
  applied : ∀ p ∈ m.set.applied, p.1 ∈ m.set.db.order
  once : ∀ i j row, m.Interpreting i row → m.Interpreting j row → i = j

section Frame

variable {s s' : SwarmSettings} {t t' : Task} {row : OrderRow}

theorem Settled.mono (h : t.Settled s row) (ho : s.db.order ⊆ s'.db.order)
    (ha : s'.applied.filter (fun p => p.1 = row) = s.applied.filter fun p => p.1 = row) :
    t.Settled s' row :=
  ⟨ho h.mem, h.holds, ha ▸ h.once⟩

/-- A task that is told nothing has lost nothing. -/
theorem ackOk_of_eq (h : t.AckOk s) (ho : s.db.order ⊆ s'.db.order)
    (ha : s'.applied = s.applied) : t.AckOk s' := by
  unfold Task.AckOk at h ⊢
  cases hpc : t.pc <;> simp only [hpc] at h ⊢
  case interpret =>
    rw [ha]
    exact h
  case done =>
    intro hok
    obtain ⟨row, hr, hs⟩ := h hok
    exact ⟨row, hr, Settled.mono hs ho (by rw [ha])⟩
  all_goals exact h

theorem ackOk_of_voting (hv : t.pc.Voting) : t.AckOk s ↔ t.answer = none := by
  unfold Task.AckOk
  cases hpc : t.pc <;> simp only [hpc] at hv ⊢ <;> exact hv.elim

/-- While a task votes it promises nothing. -/
theorem ackOk_of_votes (hv : Task.Votes K s s' t t') (h : t.AckOk s) : t'.AckOk s' := by
  have hnone := (ackOk_of_voting hv.voting).1 h
  rcases hv.next with ⟨hv' | ⟨row, hr⟩, he⟩ | ⟨hd, a, hne, ha⟩
  · exact (ackOk_of_voting hv').2 (he.trans hnone)
  · unfold Task.AckOk
    rw [hr]
    exact he.trans hnone
  · unfold Task.AckOk
    rw [hd, ha]
    intro h
    exact (hne (Option.some.inj h)).elim

/-- What another task interprets is a row of its own. -/
theorem ackOk_of_interpret (h : t.AckOk s) (ho : s'.db.order = s.db.order) {b : Bool}
    (ha : s'.applied = s.applied ++ [(row, b)]) (hn : row ∉ s.applied.map Prod.fst)
    (ht : t.pc ≠ .interpret row) : t.AckOk s' := by
  unfold Task.AckOk at h ⊢
  cases hpc : t.pc <;> simp only [hpc] at h ht ⊢
  case interpret =>
    rw [ha, List.map_append, List.mem_append, not_or]
    exact ⟨h.1, h.2, by simpa using ht⟩
  case done =>
    intro hok
    obtain ⟨row', hr, hs⟩ := h hok
    have hne : row ≠ row' := by
      rintro rfl
      have hmem : (row, true) ∈ s.applied.filter fun p => p.1 = row := by simp [hs.once]
      exact hn (List.mem_map_of_mem (List.mem_of_mem_filter hmem))
    exact ⟨row', hr, Settled.mono hs (by rw [ho]; exact fun _ => id) (by simp [ha, hne])⟩
  all_goals exact h

end Frame

/-- The invariant after a task's step, from what the step does to that task and to the others. -/
theorem ackInv_set {i : ℕ} {t t' : Task} {s : SwarmSettings} {net : Publish} (hi : AckInv K m)
    (hget : m.tasks[i]? = some t) (hs : t.step K m.set net = some (s, t'))
    (happ : ∀ p ∈ s.applied, p.1 ∈ s.db.order) (hself : t'.AckOk s)
    (hother : ∀ j ≠ i, ∀ x, m.tasks[j]? = some x → x.AckOk s)
    (honce : ∀ row, t'.pc = .interpret row → ∀ j, ¬ m.Interpreting j row) :
    AckInv K { m with set := s, tasks := m.tasks.set i t' } := by
  have ht := (hi.tasks t (List.mem_of_getElem? hget)).1
  have hsub : m.set.db.order ⊆ s.db.order := by
    rcases Task.step_order hs with ho | ⟨row, -, -, ho⟩ <;> rw [ho]
    · exact List.Subset.refl _
    · exact List.subset_append_left _ _
  refine ⟨hi.chain.grows (Task.step_grows hs ht), fun x hx => ?_, happ, fun j j' row hj hj' => ?_⟩
  · rcases mem_set_cases hx with rfl | ⟨j, hj, hx⟩
    · exact ⟨Task.step_ok hs ht, hself⟩
    · exact ⟨((hi.tasks x (List.mem_of_getElem? hx)).1).mono hsub, hother j hj x hx⟩
  · rw [interpreting_set hget] at hj hj'
    split_ifs at hj hj' with h h'
    · rw [h, h']
    · exact (honce row hj j' hj').elim
    · exact (honce row hj' j hj).elim
    · exact hi.once j j' row hj hj'

theorem ackInv_task {i : ℕ} {net : Publish} (hok : Undisturbed m (.task i net))
    (h : m.step K (.task i net) = some m') (hi : AckInv K m) : AckInv K m' := by
  obtain ⟨t, s, t', hget, hs, rfl⟩ := of_step_task h
  obtain ⟨ht, hack⟩ := hi.tasks t (List.mem_of_getElem? hget)
  have hold : ∀ x ∈ m.tasks, x.AckOk m.set := fun x hx => (hi.tasks x hx).2
  have hok := hok t hget
  unfold Task.Undisturbed at hok
  rcases Task.step_cases hs with hv | ⟨row, hpc, rfl, rfl⟩ | ⟨row, hpc, ha, -, -⟩ |
    ⟨row, db, hpc, ha, rfl, rfl⟩ | ⟨row, hpc, rfl, rfl⟩
  · have hsub : m.set.db.order ⊆ s.db.order := by rw [hv.db]; exact List.Subset.refl _
    exact ackInv_set hi hget hs (by rw [hv.applied, hv.db]; exact hi.applied)
      (ackOk_of_votes hv hack)
      (fun j _ x hx => ackOk_of_eq (hold x (List.mem_of_getElem? hx)) hsub hv.applied)
      fun row hrow => ((hv.ne_interpret row).2 hrow).elim
  · exact ackInv_set hi hget hs hi.applied rfl (fun j _ x hx => hold x (List.mem_of_getElem? hx))
      (by simp)
  · rw [hpc] at hok
    exact (hok ((Database.addNew_eq_none _).1 ha)).elim
  · unfold Task.AckOk at hack
    rw [hpc] at hack
    obtain ⟨hn, rfl⟩ := Database.addNew_eq_some _ ha
    have hfresh : row ∉ m.set.db.order := fun hr => hn (List.mem_map_of_mem hr)
    refine ackInv_set hi hget hs
      (fun p hp => List.mem_append_left _ (hi.applied p hp)) ⟨hack, fun hr => ?_⟩
      (fun j _ x hx => ackOk_of_eq (hold x (List.mem_of_getElem? hx))
        (List.subset_append_left _ _) rfl) ?_
    · obtain ⟨p, hp, rfl⟩ := List.mem_map.1 hr
      exact hfresh (hi.applied p hp)
    · rintro row' hrow' j ⟨x, hx, hxpc⟩
      simp only [Task.goto, Pc.interpret.injEq] at hrow'
      subst hrow'
      have hxok := (hi.tasks x (List.mem_of_getElem? hx)).1
      unfold Task.Ok at hxok
      rw [hxpc] at hxok
      exact hfresh hxok.1
  · unfold Task.AckOk at hack
    unfold Task.Ok at ht
    rw [hpc] at hack ht hok
    obtain ⟨hack, hnew⟩ := hack
    obtain ⟨hrow, body, hash, hb, hh⟩ := ht
    have hsome : (interpretBlock m.set.db t.body.req).isSome = true := by
      obtain ⟨b, hb⟩ := of_toVec_body hb
      rw [interpretBlock_isSome]
      exact (execAll_isSome (of_toVec_reqs hb)).2 hok
    rw [hsome] at hs ⊢
    refine ackInv_set hi hget hs (fun p hp => ?_)
      (fun _ => ⟨row, hack, ?_, ⟨body, hash, hb, hh⟩, ?_⟩)
      (fun j hj x hx => ackOk_of_interpret (hold x (List.mem_of_getElem? hx))
        (applyBlock_order _ _) rfl hnew fun hxpc =>
          hj (hi.once j i row ⟨x, hx, hxpc⟩ ⟨t, hget, hpc⟩))
      (by simp [Task.goto])
    · change p.1 ∈ (applyBlock m.set.db t.body.req).order
      rw [applyBlock_order]
      rcases List.mem_append.1 hp with hp | hp
      · exact hi.applied p hp
      · rw [List.mem_singleton.1 hp]
        exact hrow
    · change row ∈ (applyBlock m.set.db t.body.req).order
      rwa [applyBlock_order]
    · have hnil : m.set.applied.filter (fun p => p.1 = row) = [] := by
        rw [List.filter_eq_nil_iff]
        intro p hp he
        exact hnew (of_decide_eq_true he ▸ List.mem_map_of_mem hp)
      simp [List.filter_append, hnil]

theorem ackInv_step {a : Act} (ha : a.Single) (hok : Undisturbed m a) (h : m.step K a = some m')
    (hi : AckInv K m) : AckInv K m' := by
  cases a
  case task i net => exact ackInv_task hok h hi
  case request body =>
    obtain rfl := of_step_request h
    refine ⟨hi.chain, fun t ht => ?_, hi.applied, fun i j row hj hj' => ?_⟩
    · rcases List.mem_append.1 ht with ht | ht
      · exact hi.tasks t ht
      · obtain rfl := List.mem_singleton.1 ht
        exact ⟨trivial, rfl⟩
    · exact hi.once i j row ((interpreting_append (by simp) i row).1 hj)
        ((interpreting_append (by simp) j row).1 hj')
  case configure conf =>
    obtain rfl := of_step_configure h
    refine ⟨hi.chain, fun t ht => ?_, hi.applied, hi.once⟩
    exact ⟨(hi.tasks t ht).1, ackOk_of_eq (hi.tasks t ht).2 (fun _ => id) rfl⟩
  all_goals exact ha.elim

theorem ackInv_init {nodePk pk : PublicKey} {timestamp : UInt64} {db : Database}
    (h : Genesis K nodePk pk timestamp db) (conf : MasterConfig) : AckInv K (init db conf) :=
  ⟨.genesis h, by simp [init], by simp [init], by simp [Interpreting, init]⟩

/-- On a master without peers, once all tasks have ended, a block that was answered with `Ok` is in
the log and was interpreted exactly once, if every insert found its height free and no block that
was interpreted updates a public key. -/
theorem acknowledged_run {nodePk pk : PublicKey} {timestamp : UInt64} {db : Database}
    {conf : MasterConfig} {as : List Act} (hg : Genesis K nodePk pk timestamp db)
    (h : Run.run (step K) (init db conf) as = some m) (hsingle : ∀ a ∈ as, a.Single)
    (hok : Run.Along (step K) Undisturbed (init db conf) as) (hfin : m.finished) :
    ∀ t ∈ m.tasks, t.answer = some .ok → ∃ row, t.acked = some row ∧ t.Settled m.set row := by
  have halong : Run.Along (step K) (fun s a => a.Single ∧ Undisturbed s a) (init db conf) as :=
    (Run.along_of_forall hsingle).and hok
  have hi : AckInv K m := Run.run_induction
    (fun _ _ _ ha hs hi => ackInv_step ha.1 ha.2 hs hi) halong h (ackInv_init hg conf)
  intro t ht hans
  have hack := (hi.tasks t ht).2
  have hdone := List.all_eq_true.1 hfin t ht
  rw [Pc.isDone_iff] at hdone
  unfold Task.AckOk at hack
  rw [hdone] at hack
  exact hack hans

/-- Two requests, one after the other. -/
theorem acknowledged_run_two :
    let as : List Act :=
      .request (renameRoot "a") :: alone 0 ++ .request (renameRoot "b") :: alone 1
    ∃ m, Run.run (step toy) (init toyGenesis (.default toy)) as = some m
      ∧ m.tasks.map Task.answer = [some .ok, some .ok]
      ∧ ∀ t ∈ m.tasks, t.answer = some .ok → ∃ row, t.acked = some row ∧ t.Settled m.set row := by
  intro as
  have hrun : (Run.run (step toy) (init toyGenesis (.default toy)) as).any
      fun m => m.finished ∧ m.tasks.map Task.answer = [some .ok, some .ok] := by decide +kernel
  obtain ⟨m, hm, h⟩ := Run.exists_of_any hrun
  have hok : Run.Along (step toy) Undisturbed (init toyGenesis (.default toy)) as := by
    decide +kernel
  exact ⟨m, hm, h.2, acknowledged_run genesis_toyGenesis hm (by decide +kernel) hok h.1⟩

/-- Two requests that read the same last block. -/
theorem acknowledged_lost :
    let as : List Act := [.request (renameRoot "a"), .request (renameRoot "b"),
      .task 0 .insufficientPeers] ++ alone 1 ++ List.replicate 3 (.task 0 .insufficientPeers)
    (∀ a ∈ as, a.Single) ∧ ∃ m, Run.run (step toy) (init toyGenesis (.default toy)) as = some m
      ∧ m.finished
      ∧ ∃ t ∈ m.tasks, t.answer = some .ok ∧ ∀ row ∈ t.acked, row ∉ m.set.db.order := by
  intro as
  have hrun : (Run.run (step toy) (init toyGenesis (.default toy)) as).any
      fun m => m.finished ∧ ∃ t ∈ m.tasks, t.answer = some .ok
        ∧ ∀ row ∈ t.acked, row ∉ m.set.db.order := by decide +kernel
  obtain ⟨m, hm, h⟩ := Run.exists_of_any hrun
  exact ⟨by decide +kernel, m, hm, h⟩

end Master

end Nyumt
