import Nyumt.Proofs.Agreement
import Nyumt.Serve

/-!
# Replication

One request, answered with `Ok`, and nothing lost: the new row is at the master the request was
made to and at no other (`replicated_iff`). That master works on a table nobody else writes to, so
its row has a height that is free (`Task.Told`); the others append nothing (`passive_run`).
-/

namespace Nyumt

open Borsh

variable {K : Crypto}

section Tasks

/-- The height a task is to write at is not taken. -/
def Task.Fresh (rows : List OrderRow) (t : Task) : Prop :=
  match t.pc with
  | .publish l _ | .pushPending l | .readPending l | .clearPending l =>
    l.height ∉ rows.map OrderRow.id
  | .publishArchive _ _ height _ | .pushApproved _ _ height _ | .readApproved _ _ height _ =>
    height ∉ rows.map OrderRow.id
  | .clearApproved _ newBlock => ∀ height hash, newBlock = .ok (height, hash) →
    height ∉ rows.map OrderRow.id
  | .reply row | .insert row => row.id ∉ rows.map OrderRow.id
  | .start | .lastBlock _ _ | .interpret _ | .done => True

/-- What a task that alone writes to the table has told its client, and where its row is. -/
def Task.Told (rows : List OrderRow) (s : SwarmSettings) (t : Task) : Prop :=
  match t.pc with
  | .insert row => t.acked = some row ∧ s.db.order = rows ∧ row.id ∉ rows.map OrderRow.id
  | .interpret row => t.acked = some row ∧ row ∈ s.db.order ∧ row.id ∉ rows.map OrderRow.id
  | .done => t.answer = some .ok →
    ∃ row, t.acked = some row ∧ row ∈ s.db.order ∧ row.id ∉ rows.map OrderRow.id
  | _ => t.answer = none ∧ s.db.order = rows ∧ t.Fresh rows

namespace Task

variable {s s' : SwarmSettings} {t t' : Task} {net : Publish} {rows : List OrderRow}

theorem notMem_of_getLastBlock {db : Database} {height : ℕ} {hash : Bytes}
    (h : db.getLastBlock = some (height, hash)) : height + 1 ∉ db.order.map OrderRow.id := by
  intro hmem
  obtain ⟨r, hr, hid⟩ := List.mem_map.1 hmem
  have := (Database.of_getLastBlock h).2 r hr
  omega

/-- Nobody writes to the table before the votes are over. -/
theorem moves_fresh (hm : Moves K s t.body t.pc t'.pc) (hf : t.Fresh s.db.order) :
    t'.Fresh s.db.order := by
  unfold Fresh at hf ⊢
  generalize t.pc = pc, t'.pc = pc' at hm hf
  cases hm
  case read hlast hser => exact notMem_of_getLastBlock hlast
  case place hlast => exact notMem_of_getLastBlock hlast
  case refused => exact fun _ _ he => by simp at he
  case approved height hash =>
    intro height' hash' he
    simp only [Except.ok.injEq, Prod.mk.injEq] at he
    exact he.1 ▸ hf
  case build => exact hf _ _ rfl
  all_goals first | exact hf | trivial

theorem told_of_voting (hv : t.pc.Voting) :
    t.Told rows s ↔ t.answer = none ∧ s.db.order = rows ∧ t.Fresh rows := by
  unfold Told
  cases hpc : t.pc <;> simp only [hpc] at hv ⊢ <;> exact hv.elim

theorem told_step (h : t.step K s net = some (s', t')) (ht : t.Told rows s) : t'.Told rows s' := by
  rcases step_cases h with hv | ⟨row, hpc, rfl, rfl⟩ | ⟨row, hpc, ha, rfl, rfl⟩ |
    ⟨row, db, hpc, ha, rfl, rfl⟩ | ⟨row, hpc, rfl, rfl⟩
  · obtain ⟨hans, rfl, hf⟩ := (told_of_voting hv.voting).1 ht
    rcases hv.moves with ⟨hm, he⟩ | ⟨hd, a, hne, ha⟩
    · have htold : t'.answer = none ∧ s'.db.order = s.db.order ∧ t'.Fresh s.db.order :=
        ⟨he.trans hans, by rw [hv.db], moves_fresh hm hf⟩
      rcases hm.next with hv' | ⟨row, hr⟩
      · exact (told_of_voting hv').2 htold
      · unfold Told
        rw [hr]
        exact htold
    · unfold Told
      rw [hd, ha]
      intro h
      exact (hne (Option.some.inj h)).elim
  · unfold Told at ht
    rw [hpc] at ht
    obtain ⟨-, ho, hf⟩ := ht
    unfold Fresh at hf
    rw [hpc] at hf
    exact ⟨rfl, ho, hf⟩
  · unfold Told at ht
    rw [hpc] at ht
    obtain ⟨-, rfl, hn⟩ := ht
    exact (hn ((Database.addNew_eq_none _).1 ha)).elim
  · unfold Told at ht
    rw [hpc] at ht
    obtain ⟨hack, -, hn⟩ := ht
    obtain ⟨-, rfl⟩ := Database.addNew_eq_some _ ha
    exact ⟨hack, List.mem_append_right _ List.mem_cons_self, hn⟩
  · unfold Told at ht
    rw [hpc] at ht
    obtain ⟨hack, hmem, hn⟩ := ht
    refine fun _ => ⟨row, hack, ?_, hn⟩
    change row ∈ (applyBlock s.db t.body.req).order
    rwa [applyBlock_order]

end Task

end Tasks

namespace Master

variable {m m' : Master} {rows : List OrderRow}

/-- A master that hears nothing, and that one request at most was made to. -/
structure Lone (rows : List OrderRow) (m : Master) : Prop where
  channel : m.set.channel = []
  timers : m.timers = []
  handler : m.handler.pc = .recv
  gossip : m.gossip = .idle
  one : m.tasks.length ≤ 1
  order : m.tasks = [] → m.set.db.order = rows
  told : ∀ t ∈ m.tasks, t.Told rows m.set

theorem lone_step {a : Act} (hr : ∀ body, a = .request body → m.tasks = [])
    (hd : ∀ data, a ≠ .dispatch data) (h : m.step K a = some m') (hl : Lone rows m) :
    Lone rows m' := by
  cases a
  case request body =>
    have hnil := hr body rfl
    simp only [step, hnil, List.nil_append, Option.some.injEq] at h
    subst h
    refine ⟨hl.channel, hl.timers, hl.handler, hl.gossip, le_rfl, by simp, fun t ht => ?_⟩
    obtain rfl := List.mem_singleton.1 ht
    exact ⟨rfl, hl.order hnil, trivial⟩
  case configure conf =>
    obtain rfl := of_step_configure h
    exact ⟨hl.channel, hl.timers, hl.handler, hl.gossip, hl.one, hl.order, hl.told⟩
  case task i net =>
    obtain ⟨t, s, t', hget, hs, rfl⟩ := of_step_task h
    have hlt := (List.getElem?_eq_some_iff.1 hget).1
    have hlen := hl.one
    have hset : m.tasks.set i t' = [t'] := by
      obtain ⟨x, hx⟩ := List.length_eq_one_iff.1 (by omega : m.tasks.length = 1)
      obtain rfl : i = 0 := by omega
      simp [hx]
    refine ⟨(Task.step_channel hs).trans hl.channel, hl.timers, hl.handler, hl.gossip, ?_, ?_, ?_⟩
    · simp [hset]
    · simp [hset]
    · intro x hx
      rw [hset, List.mem_singleton] at hx
      subst hx
      exact Task.told_step hs (hl.told t (List.mem_of_getElem? hget))
  case handle okSent noSent =>
    obtain ⟨s, hd, timers, hs, -⟩ := of_step_handle h
    simp [Handler.step, hl.handler, hl.channel] at hs
  case timer i =>
    obtain ⟨e, he, -⟩ := of_step_timer h
    simp [hl.timers] at he
  case dispatch data => exact (hd data rfl).elim
  case gossip votes noSent =>
    obtain ⟨s, g, hs, -⟩ := of_step_gossip h
    simp [Gossip.step, hl.gossip] at hs

theorem lone_init (db : Database) (conf : MasterConfig) : Lone db.order (init db conf) :=
  ⟨rfl, rfl, rfl, rfl, Nat.zero_le 1, fun _ => rfl, by simp [init]⟩

end Master

namespace Network

variable {ι : Type} [DecidableEq ι] {keys : ι → PublicKey} {s s' : Network ι} {p : ι}
  {rows : List OrderRow}

/-- The only master hears nothing. -/
theorem lone_step {a : Act ι} (hone : ∀ i, i = p)
    (hr : ∀ body, a = .master p (.request body) → (s.masters p).tasks = [])
    (h : s.step K keys a = some s') (hl : (s.masters p).Lone rows) : (s'.masters p).Lone rows := by
  rcases step_at h p with he | ⟨b, hb, ⟨rfl, hd⟩ | ⟨j, -, -, hne, -⟩⟩
  · rwa [he]
  · exact Master.lone_step (fun body he => hr body (he ▸ rfl)) hd hb hl
  · exact (hne (hone j).symm).elim

omit [DecidableEq ι] in
theorem not_request_of_requests {as : List (Act ι)} (h : requests as = []) {a : Act ι} (ha : a ∈ as)
    (i : ι) (body : BodyData) : a ≠ .master i (.request body) := by
  rintro rfl
  have hmem : (i, body) ∈ requests as := List.mem_filterMap.2 ⟨_, ha, rfl⟩
  simp [h] at hmem

theorem lone_run {as : List (Act ι)} (hone : ∀ i, i = p) (hreq : requests as = [])
    (h : Run.run (step K keys) s as = some s') (hl : (s.masters p).Lone rows) :
    (s'.masters p).Lone rows := by
  have halong : Run.Along (step K keys) (fun _ a => ∀ body, a ≠ .master p (.request body)) s as :=
    Run.along_of_forall fun a ha body => not_request_of_requests hreq ha p body
  exact Run.run_induction (I := fun u => (u.masters p).Lone rows)
    (fun u a u' ha hs hi => lone_step hone (fun body he => (ha body he).elim) hs hi) halong h hl

omit [DecidableEq ι] in
/-- In a run with one request nothing is requested before it or after it. -/
theorem requests_eq_singleton {as : List (Act ι)} {body : BodyData}
    (h : requests as = [(p, body)]) : ∃ as₁ as₂, as = as₁ ++ .master p (.request body) :: as₂
      ∧ requests as₁ = [] ∧ requests as₂ = [] := by
  obtain ⟨as₁, a, as₂, rfl, h₁, ha, h₂⟩ := List.filterMap_eq_cons_iff.1 h
  refine ⟨as₁, as₂, ?_, List.filterMap_eq_nil_iff.2 h₁, h₂⟩
  split at ha
  · simp only [Option.some.injEq, Prod.mk.injEq] at ha
    obtain ⟨rfl, rfl⟩ := ha
    rfl
  · simp at ha

/-- The new row of a request that was answered with `Ok`, when all is over, is at every master just
if there is one master only. -/
theorem replicated_iff {db : ι → Database} {conf : ι → MasterConfig} {as : List (Act ι)}
    {body : BodyData} {t : Task} (hrows : ∀ i, (db i).order = rows)
    (hreq : requests as = [(p, body)]) (h : Run.run (step K keys) (init db conf) as = some s)
    (hq : s.Quiet) (ht : t ∈ (s.masters p).tasks) (hok : t.answer = some .ok) :
    (∃ row, t.acked = some row ∧ row ∉ rows ∧ ∀ i, row ∈ (s.masters i).set.db.order) ↔
      ∀ i, i = p := by
  constructor
  · rintro ⟨row, -, hnew, hall⟩ i
    by_contra hi
    have hpassive := passive_run (i := i) (by simp [hreq, Ne.symm hi]) h (Master.passive_init _ _)
    have hrow := hall i
    rw [hpassive.2] at hrow
    exact hnew (hrows i ▸ hrow)
  · intro hone
    obtain ⟨as₁, as₂, rfl, h₁, h₂⟩ := requests_eq_singleton hreq
    rw [Run.run_append] at h
    obtain ⟨u, hu, h⟩ := Option.bind_eq_some_iff.1 h
    obtain ⟨v, hv, h⟩ := Run.of_run_cons h
    have hinit : ((init db conf).masters p).Lone rows := hrows p ▸ Master.lone_init (db p) (conf p)
    have hpassive := passive_run (i := p) (by simp [h₁]) hu (Master.passive_init _ _)
    have hl := lone_run hone h₂ h
      (lone_step hone (fun _ _ => hpassive.1.tasks) hv (lone_run hone h₁ hu hinit))
    have htold := hl.told t ht
    have hfin : (s.masters p).finished := by
      have hrest := hq.atRest p
      simp only [Master.atRest, Bool.and_eq_true] at hrest
      exact hrest.2
    have hdone := List.all_eq_true.1 hfin t ht
    rw [Pc.isDone_iff] at hdone
    unfold Task.Told at htold
    rw [hdone] at htold
    obtain ⟨row, hack, hmem, hn⟩ := htold hok
    exact ⟨row, hack, fun hr => hn (List.mem_map_of_mem hr), fun i => by rw [hone i]; exact hmem⟩

/-- A network of one. -/
theorem replicated_alone :
    let s₀ : Network (Fin 1) := init (fun _ => toyGenesis) fun _ => .default toy
    let as : List (Act (Fin 1)) := (.request (renameRoot "a") :: Master.alone 0).map (.master 0)
    ∃ s, Run.run (step toy fun _ => toyKey 0) s₀ as = some s ∧ ∃ t ∈ (s.masters 0).tasks,
      t.answer = some .ok ∧ ∃ row, t.acked = some row ∧ row ∉ toyGenesis.order
        ∧ ∀ i, row ∈ (s.masters i).set.db.order := by
  intro s₀ as
  have hrun : (Run.run (step toy fun _ => toyKey 0) s₀ as).any fun s =>
      s.Quiet ∧ ∃ t ∈ (s.masters 0).tasks, t.answer = some .ok := by decide +kernel
  obtain ⟨s, hs, h⟩ := Run.exists_of_any hrun
  obtain ⟨hq, t, ht, hok⟩ := h
  have hreq : requests as = [(0, renameRoot "a")] := by decide +kernel
  exact ⟨s, hs, t, ht, hok, (replicated_iff (fun _ => rfl) hreq hs hq ht hok).2
    fun i => Subsingleton.elim i 0⟩

/-- Two masters, and every message delivered. -/
theorem not_replicated_pair :
    let as : List (Act (Fin 2)) := (.request (renameRoot "a") :: Master.heard 0).map (.master 0)
      ++ [.deliver 0 0 1, .deliver 0 1 1]
    requests as = [(0, renameRoot "a")] ∧ Admitted toy toyPair.toTables (renameRoot "a")
      ∧ ∃ s, Run.run (step toy pairKeys) pair as = some s ∧ s.Quiet
        ∧ ∃ t ∈ (s.masters 0).tasks, t.answer = some .ok
          ∧ ¬ ∃ row ∈ t.acked, ∀ i, row ∈ (s.masters i).set.db.order := by
  intro as
  have hrun : (Run.run (step toy pairKeys) pair as).any fun s => s.Quiet
      ∧ ∃ t ∈ (s.masters 0).tasks, t.answer = some .ok
        ∧ ¬ ∃ row ∈ t.acked, ∀ i, row ∈ (s.masters i).set.db.order := by decide +kernel
  exact ⟨by decide +kernel, by decide +kernel, Run.exists_of_any hrun⟩

end Network

end Nyumt
