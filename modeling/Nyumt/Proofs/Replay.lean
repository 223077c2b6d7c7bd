import Nyumt.Lib.Log
import Nyumt.Proofs.Chain

/-!
# The tables and the log

A row is inserted by one step of its task and interpreted by a later one, and of two tasks that
have inserted either may come to interpret first; a row that a peer appends is not interpreted at
all. While blocks are interpreted in the order of their rows, and only tasks append, what is
pending is just what the tasks still have to interpret (`LogInv`), so a master at rest has the
tables its log makes (`logged_run`).
-/

namespace Nyumt

open Borsh

variable {K : Crypto}

namespace Master

variable {m m' : Master}

/-- The task has inserted its row and is about to interpret it. -/
def Interpreting (m : Master) (i : ℕ) (row : OrderRow) : Prop :=
  ∃ t, m.tasks[i]? = some t ∧ t.pc = .interpret row

/-- The heights still to be interpreted. -/
def pending (m : Master) : Set ℕ := {h | ∃ i row, m.Interpreting i row ∧ row.id = h}

/-- A block is interpreted before those of greater height, and the handler of network events
appends none. -/
def InOrder (m : Master) : Act → Prop
  | .task i _ => ∀ row, m.Interpreting i row → ∀ j row', m.Interpreting j row' → row.id ≤ row'.id
  | .handle _ _ => ∀ height hash rawHash, m.handler.pc = .append height hash rawHash →
    height ∈ m.set.db.order.map OrderRow.id
  | _ => True

/-- The tables are what the blocks of the log make of them one after another. -/
def Logged (m : Master) : Prop :=
  m.set.db.order.map OrderRow.id = List.range m.set.db.order.length
    ∧ m.set.db.toTables = Log.replay Tables.replayRow {} m.set.db.order

structure LogInv (K : Crypto) (m : Master) : Prop where
  ids : m.set.db.order.map OrderRow.id = List.range m.set.db.order.length
  tasks : ∀ t ∈ m.tasks, t.Ok K m.set.db.order
  replayed : Log.Replayed Tables.replayRow {} m.set.db.order m.set.db.toTables m.pending
  once : ∀ i j row row', m.Interpreting i row → m.Interpreting j row' → row.id = row'.id → i = j

section Interpreting

variable {i : ℕ} {t t' : Task} {s : SwarmSettings}

theorem interpreting_set (hi : m.tasks[i]? = some t) (j : ℕ) (row : OrderRow) :
    Interpreting { m with set := s, tasks := m.tasks.set i t' } j row ↔
      if j = i then t'.pc = .interpret row else m.Interpreting j row := by
  have hlt := (List.getElem?_eq_some_iff.1 hi).1
  simp only [Interpreting]
  split_ifs with hj
  · subst hj
    rw [List.getElem?_set_self hlt]
    simp
  · rw [List.getElem?_set_ne (Ne.symm hj)]

/-- A step into or out of `interpret` is the only one that changes what is pending. -/
theorem interpreting_set_of_not (hi : m.tasks[i]? = some t) (ht : ∀ row, t.pc ≠ .interpret row)
    (ht' : ∀ row, t'.pc ≠ .interpret row) (j : ℕ) (row : OrderRow) :
    Interpreting { m with set := s, tasks := m.tasks.set i t' } j row ↔ m.Interpreting j row := by
  rw [interpreting_set hi]
  split_ifs with hj
  · subst hj
    constructor
    · exact fun h => (ht' row h).elim
    · rintro ⟨u, hu, hpc⟩
      obtain rfl : u = t := by simpa [hu] using hi
      exact (ht row hpc).elim
  · rfl

theorem interpreting_append (ht : ∀ row, t.pc ≠ .interpret row) (j : ℕ) (row : OrderRow) :
    Interpreting { m with tasks := m.tasks ++ [t] } j row ↔ m.Interpreting j row := by
  constructor
  · rintro ⟨u, hu, hpc⟩
    rcases Nat.lt_or_ge j m.tasks.length with hj | hj
    · exact ⟨u, by rwa [List.getElem?_append_left hj] at hu, hpc⟩
    · have hmem : u ∈ [t] := List.mem_of_getElem? (by rwa [List.getElem?_append_right hj] at hu)
      rw [List.mem_singleton.1 hmem] at hpc
      exact (ht row hpc).elim
  · rintro ⟨u, hu, hpc⟩
    have hj := (List.getElem?_eq_some_iff.1 hu).1
    exact ⟨u, by rwa [List.getElem?_append_left hj], hpc⟩

theorem row_eq_of_interpreting {row row' : OrderRow} (h : m.Interpreting i row)
    (h' : m.Interpreting i row') : row = row' := by
  obtain ⟨u, hu, hpc⟩ := h
  obtain ⟨u', hu', hpc'⟩ := h'
  obtain rfl : u = u' := by simpa [hu] using hu'
  simpa [hpc] using hpc'

end Interpreting

section Invariant

theorem LogInv.mem_order (hi : LogInv K m) {i : ℕ} {row : OrderRow} (h : m.Interpreting i row) :
    row ∈ m.set.db.order := by
  obtain ⟨t, ht, hpc⟩ := h
  have hok := hi.tasks t (List.mem_of_getElem? ht)
  unfold Task.Ok at hok
  rw [hpc] at hok
  exact hok.1

theorem logInv_of_eq (hi : LogInv K m) (hdb : m'.set.db = m.set.db)
    (ht : ∀ t ∈ m'.tasks, t.Ok K m'.set.db.order)
    (hint : ∀ j row, m'.Interpreting j row ↔ m.Interpreting j row) : LogInv K m' := by
  have hp : m'.pending = m.pending := by
    ext h
    simp only [pending, Set.mem_ofPred_eq, hint]
  exact {
    ids := by rw [hdb]; exact hi.ids
    tasks := ht
    replayed := by rw [hdb, hp]; exact hi.replayed
    once := fun i j row row' h h' => hi.once i j row row' ((hint _ _).1 h) ((hint _ _).1 h') }

/-- A row goes to the end of the log, to be interpreted by the task that inserted it. -/
theorem logInv_insert (hi : LogInv K m) {i : ℕ} {row : OrderRow}
    (hlen : row.id = m.set.db.order.length) (ho : m'.set.db.order = m.set.db.order ++ [row])
    (htab : m'.set.db.toTables = m.set.db.toTables) (ht : ∀ t ∈ m'.tasks, t.Ok K m'.set.db.order)
    (hint : ∀ j row', m'.Interpreting j row' ↔ j = i ∧ row = row' ∨ m.Interpreting j row') :
    LogInv K m' := by
  have hold : ∀ {j row'}, m.Interpreting j row' → row'.id < m.set.db.order.length := fun h =>
    id_lt_length hi.ids (hi.mem_order h)
  have hp : m'.pending = insert m.set.db.order.length m.pending := by
    ext h
    simp only [pending, Set.mem_ofPred_eq, Set.mem_insert_iff, hint]
    constructor
    · rintro ⟨j, row', ⟨-, rfl⟩ | hj, rfl⟩
      · exact .inl hlen
      · exact .inr ⟨j, row', hj, rfl⟩
    · rintro (rfl | ⟨j, row', hj, rfl⟩)
      · exact ⟨i, row, .inl ⟨rfl, rfl⟩, hlen⟩
      · exact ⟨j, row', .inr hj, rfl⟩
  refine ⟨by rw [ho]; exact ids_append hi.ids hlen, ht, ?_, ?_⟩
  · rw [ho, htab, hp]
    exact hi.replayed.append row
  · intro j j' row₁ row₂ h₁ h₂ he
    rcases (hint _ _).1 h₁ with ⟨rfl, rfl⟩ | h₁ <;> rcases (hint _ _).1 h₂ with ⟨rfl, rfl⟩ | h₂
    · rfl
    · have := hold h₂
      omega
    · have := hold h₁
      omega
    · exact hi.once j j' row₁ row₂ h₁ h₂ he

/-- The first of the pending rows is interpreted. -/
theorem logInv_interpret (hi : LogInv K m) {i : ℕ} {row : OrderRow} (hrow : m.Interpreting i row)
    (hmin : ∀ j row', m.Interpreting j row' → row.id ≤ row'.id)
    (ho : m'.set.db.order = m.set.db.order)
    (htab : m'.set.db.toTables = m.set.db.toTables.replayRow row)
    (ht : ∀ t ∈ m'.tasks, t.Ok K m'.set.db.order)
    (hint : ∀ j row', m'.Interpreting j row' ↔ j ≠ i ∧ m.Interpreting j row') : LogInv K m' := by
  have hp : m'.pending = m.pending \ {row.id} := by
    ext h
    simp only [pending, Set.mem_ofPred_eq, Set.mem_sdiff, Set.mem_singleton_iff, hint]
    constructor
    · rintro ⟨j, row', ⟨hj, hj'⟩, rfl⟩
      exact ⟨⟨j, row', hj', rfl⟩, fun he => hj (hi.once j i row' row hj' hrow he)⟩
    · rintro ⟨⟨j, row', hj', rfl⟩, hne⟩
      refine ⟨j, row', ⟨?_, hj'⟩, rfl⟩
      rintro rfl
      exact hne (congrArg OrderRow.id (row_eq_of_interpreting hj' hrow))
  refine ⟨by rw [ho]; exact hi.ids, ht, ?_, ?_⟩
  · rw [ho, htab, hp]
    exact hi.replayed.apply ⟨i, row, hrow, rfl⟩
      (fun j ⟨i', row', h', hj⟩ => hj ▸ hmin i' row' h') (getElem?_id hi.ids (hi.mem_order hrow))
  · intro j j' row₁ row₂ h₁ h₂ he
    exact hi.once j j' row₁ row₂ ((hint _ _).1 h₁).2 ((hint _ _).1 h₂).2 he

theorem replayRow_of_holds {t : Tables} {row : OrderRow} {v : BodyData} {body : Bytes}
    {hash : Digest} (hb : toVec v = some body) (hh : Holds row body hash) :
    t.replayRow row = t.apply v.req := by
  have ho : row.orders = some (reset v.req) := by
    simp only [OrderRow.orders, hh.data, Option.bind_eq_bind, Option.bind_some,
      fromSlice_of_ser hb]
    rfl
  rw [Tables.replayRow, ho]
  exact apply_reset t v.req

end Invariant

theorem logInv_task {i : ℕ} {net : Publish} (hok : InOrder m (.task i net))
    (h : m.step K (.task i net) = some m') (hi : LogInv K m) : LogInv K m' := by
  have hsub := (order_prefix_step h).subset
  obtain ⟨t, s, t', hget, hs, rfl⟩ := of_step_task h
  have ht := hi.tasks t (List.mem_of_getElem? hget)
  have htasks : ∀ x ∈ m.tasks.set i t', x.Ok K s.db.order := by
    intro x hx
    rcases mem_set_cases hx with rfl | ⟨j, -, hx⟩
    · exact Task.step_ok hs ht
    · exact (hi.tasks x (List.mem_of_getElem? hx)).mono hsub
  unfold Task.Ok at ht
  rcases Task.step_cases hs with hv | ⟨row, hpc, rfl, rfl⟩ | ⟨row, hpc, -, rfl, rfl⟩ |
    ⟨row, db, hpc, ha, rfl, rfl⟩ | ⟨row, hpc, rfl, rfl⟩
  · exact logInv_of_eq hi hv.db htasks (interpreting_set_of_not hget
      (fun row => (hv.ne_interpret row).1) fun row => (hv.ne_interpret row).2)
  · exact logInv_of_eq hi rfl htasks (interpreting_set_of_not hget (by simp [hpc]) (by simp))
  · exact logInv_of_eq hi rfl htasks
      (interpreting_set_of_not hget (by simp [hpc]) (by simp [Task.goto]))
  · rw [hpc] at ht
    obtain ⟨body, hash, -, -, r, hr, hid, -⟩ := ht
    obtain ⟨hn, rfl⟩ := Database.addNew_eq_some _ ha
    refine logInv_insert (i := i) hi (id_eq_length hi.ids hn ⟨r, hr, hid⟩) rfl rfl htasks ?_
    intro j row'
    rw [interpreting_set hget]
    split_ifs with hj
    · subst hj
      have hnot : ¬ m.Interpreting j row' := by
        rintro ⟨u, hu, hupc⟩
        obtain rfl : u = t := by simpa [hu] using hget
        simp [hpc] at hupc
      simp [Task.goto, hnot]
    · simp [hj]
  · rw [hpc] at ht
    obtain ⟨-, body, hash, hb, hh⟩ := ht
    have hrow : m.Interpreting i row := ⟨t, hget, hpc⟩
    refine logInv_interpret hi hrow (hok row hrow) (applyBlock_order _ _) ?_ htasks ?_
    · rw [replayRow_of_holds hb hh]
      exact applyBlock_toTables _ _
    · intro j row'
      rw [interpreting_set hget]
      split_ifs with hj <;> simp [hj, Task.goto]

theorem logInv_step {a : Act} (hok : InOrder m a) (h : m.step K a = some m') (hi : LogInv K m) :
    LogInv K m' := by
  cases a
  case task i net => exact logInv_task hok h hi
  case request body =>
    obtain rfl := of_step_request h
    refine logInv_of_eq hi rfl (fun t ht => ?_) fun j row => ?_
    · rcases List.mem_append.1 ht with ht | ht
      · exact hi.tasks t ht
      · obtain rfl := List.mem_singleton.1 ht
        trivial
    · exact interpreting_append (by simp) j row
  case configure conf =>
    obtain rfl := of_step_configure h
    exact logInv_of_eq hi rfl hi.tasks fun _ _ => Iff.rfl
  case handle okSent noSent =>
    obtain ⟨s, hd, timers, hs, rfl⟩ := of_step_handle h
    rcases (Handler.step_cases hs).2 with hdb | ⟨height, hash, rawHash, _, _, _, hpc, -, -, ha⟩
    · exact logInv_of_eq hi hdb (by rw [hdb]; exact hi.tasks) fun _ _ => Iff.rfl
    · exact ((Database.addNew_eq_some _ ha).1 (hok height hash rawHash hpc)).elim
  case timer i =>
    obtain ⟨e, -, rfl⟩ := of_step_timer h
    exact logInv_of_eq hi rfl hi.tasks fun _ _ => Iff.rfl
  case dispatch data =>
    obtain rfl := of_step_dispatch h
    have hdb := (Gossip.dispatch_db (K := K) (s := m.set) data).1
    exact logInv_of_eq hi hdb (by rw [hdb]; exact hi.tasks) fun _ _ => Iff.rfl
  case gossip votes noSent =>
    obtain ⟨s, g, hs, rfl⟩ := of_step_gossip h
    have hdb := (Gossip.step_db hs).1
    exact logInv_of_eq hi hdb (by rw [hdb]; exact hi.tasks) fun _ _ => Iff.rfl

theorem logInv_init {nodePk pk : PublicKey} {timestamp : UInt64} {db : Database}
    (h : Genesis K nodePk pk timestamp db) (conf : MasterConfig) : LogInv K (init db conf) := by
  obtain ⟨htab, data, body, ho, hb, hd⟩ := of_genesis h
  have hlog : Log.replay Tables.replayRow {} db.order = db.toTables := by
    rw [htab, ho]
    exact (replayRow_of_holds hb ⟨hd, rfl⟩).trans
      (Tables.apply_of_execAll (execAll_firstBlock K nodePk pk timestamp))
  have hnone : (init db conf).pending = ∅ := by
    ext h
    simp [pending, Interpreting, init]
  refine ⟨(Chain.genesis h).ids, by simp [init], ?_, by simp [Interpreting, init]⟩
  rw [hnone]
  change Log.Replayed _ _ db.order db.toTables ∅
  rw [← hlog]
  exact .all _

theorem pending_of_idle (h : m.idle) : m.pending = ∅ := by
  simp only [idle, Bool.and_eq_true, List.all_eq_true] at h
  ext x
  simp only [pending, Set.mem_ofPred_eq, Set.mem_empty_iff_false, iff_false]
  rintro ⟨i, row, ⟨t, ht, hpc⟩, -⟩
  have := h.1.1 t (List.mem_of_getElem? ht)
  simp [hpc] at this

/-- A master at rest has the tables its log makes, if on the way blocks were interpreted in the
order of their rows and none was appended by the handler of network events. -/
theorem logged_run {nodePk pk : PublicKey} {timestamp : UInt64} {db : Database}
    {conf : MasterConfig} {as : List Act} (hg : Genesis K nodePk pk timestamp db)
    (h : Run.run (step K) (init db conf) as = some m)
    (hok : Run.Along (step K) InOrder (init db conf) as) (hidle : m.idle) : Logged m := by
  have hi : LogInv K m := Run.run_induction (fun _ _ _ ha hs hi => logInv_step ha hs hi) hok h
    (logInv_init hg conf)
  have hrep := hi.replayed
  rw [pending_of_idle hidle] at hrep
  exact ⟨hi.ids, hrep.eq_replay⟩

/-- One task alone has nothing to overtake. -/
theorem inOrder_of_length_le_one (h : m.tasks.length ≤ 1) (i : ℕ) (net : Publish) :
    InOrder m (.task i net) := by
  intro row hrow j row' hrow'
  have hlt : ∀ {i row}, m.Interpreting i row → i < m.tasks.length := fun ⟨_, ht, _⟩ =>
    (List.getElem?_eq_some_iff.1 ht).1
  obtain rfl : i = j := by
    have := hlt hrow
    have := hlt hrow'
    omega
  rw [row_eq_of_interpreting hrow hrow']

theorem logged_run_request :
    ∃ m, Run.run (step toy) (init toyGenesis (.default toy))
      (.request (renameRoot "a") :: alone 0) = some m
        ∧ m.idle ∧ Logged m ∧ m.set.db.users.map UserRow.name = ["a"] := by
  have hrun : (Run.run (step toy) (init toyGenesis (.default toy))
      (.request (renameRoot "a") :: alone 0)).any
        fun m => m.idle ∧ m.set.db.users.map UserRow.name = ["a"] := by decide +kernel
  obtain ⟨m, hm, hidle⟩ := Run.exists_of_any hrun
  have hsingle : Run.Along (step toy) (fun m a => m.tasks.length ≤ 1 ∧ a.Single)
      (init toyGenesis (.default toy)) (.request (renameRoot "a") :: alone 0) := by
    decide +kernel
  refine ⟨m, hm, hidle.1, logged_run genesis_toyGenesis hm (hsingle.mono ?_) hidle.1, hidle.2⟩
  rintro s (_ | ⟨i, net⟩ | _ | _ | _ | _ | _) ⟨hlen, ha⟩
  case task => exact inOrder_of_length_le_one hlen i net
  case handle => exact ha.elim
  all_goals trivial

/-- Two requests, of which the second to be inserted is the first to be interpreted. -/
theorem not_logged_two_requests :
    let as : List Act := [.request (renameRoot "a"), .request (renameRoot "b")]
      ++ List.replicate 4 (.task 0 .insufficientPeers) ++ alone 1 ++ [.task 0 .insufficientPeers]
    ∃ m, Run.run (step toy) (init toyGenesis (.default toy)) as = some m ∧ m.idle ∧ ¬ Logged m := by
  intro as
  have hrun : (Run.run (step toy) (init toyGenesis (.default toy)) as).any
      fun m => m.idle ∧ m.set.db.toTables ≠ Log.replay Tables.replayRow {} m.set.db.order := by
    decide +kernel
  obtain ⟨m, hm, h⟩ := Run.exists_of_any hrun
  exact ⟨m, hm, h.1, fun hl => h.2 hl.2⟩

end Master

end Nyumt
