import Nyumt.Proofs.Keys
import Nyumt.Proofs.Ack
import Nyumt.Serve

/-!
# What was checked when it is applied

A request is verified on one state of the tables and its block interpreted on a later one. An order
changes what is checked of another only if it adds or removes a key the other one is about
(`Order.Hinders`), or takes something from the signer's permissions (`Order.Demotes`). While no
block that is interpreted does this to a request under way, every block is still accepted when it is
interpreted (`serialisable_run`).
-/

namespace Nyumt

open Borsh

variable {K : Crypto}

section Orders

/-- The key of the entity that an order changes. -/
def Order.target : Order → Option PublicKey
  | .editUser _ k _ | .editMasterNode _ k | .editNode _ k | .removeUser k | .removeMasterNode k
  | .removeNode k | .changeNodeConfig k _ | .updatePublicKey k _ | .updateVoteWeight k _ => some k
  | .addUser _ _ _ | .addMasterNode _ _ | .addNode _ _ | .setConfig _ _ _ | .removeConfig _ => none

/-- The order takes away the entity that the other one names, or the key it is to insert. -/
def Order.Hinders (o r : Order) : Prop :=
  o.removed ≠ none ∧ o.removed = r.target ∨ o.added ≠ none ∧ o.added = r.added

instance (o r : Order) : Decidable (o.Hinders r) := by
  unfold Order.Hinders
  infer_instance

/-- The order takes something from a user with these permissions. -/
def Order.Demotes (pk : PublicKey) (perms : Permissions) : Order → Prop
  | .removeUser k => k = pk
  | .editUser _ k perm => k = pk ∧ ¬ perms ⊆ perm
  | _ => False

instance (pk : PublicKey) (perms : Permissions) : DecidablePred (Order.Demotes pk perms)
  | .removeUser k => inferInstanceAs (Decidable (k = pk))
  | .editUser _ k perm => inferInstanceAs (Decidable (k = pk ∧ ¬ perms ⊆ perm))
  | .addUser _ _ _ | .addMasterNode _ _ | .addNode _ _ | .editMasterNode _ _ | .editNode _ _
  | .removeMasterNode _ | .removeNode _ | .changeNodeConfig _ _ | .updatePublicKey _ _
  | .setConfig _ _ _ | .removeConfig _ | .updateVoteWeight _ _ => isFalse id

/-- The user has at least these permissions. -/
def Tables.Grants (t : Tables) (pk : PublicKey) (perms : Permissions) : Prop :=
  ∃ stored, t.permissionsOf pk = some stored ∧ perms ⊆ stored

variable {t t' : Tables} {o r : Order} {u : Update} {pk : PublicKey} {perms perms' : Permissions}

theorem mem_keys_exec (h : t.exec o = some (t', u)) {k : PublicKey} (hr : o.removed ≠ some k)
    (hk : k.bytes ∈ t.keys) : k.bytes ∈ t'.keys := by
  have hne : o.removed.map PublicKey.bytes ≠ some k.bytes := by
    simpa [Option.map_eq_some_iff] using hr
  have hpos := List.count_pos_iff.2 hk
  have heq := (count_keys_exec h k.bytes).2 hne
  exact List.count_pos_iff.1 (by omega)

theorem notMem_keys_exec (h : t.exec o = some (t', u)) {k : PublicKey} (ha : o.added ≠ some k)
    (hk : k.bytes ∉ t.keys) : k.bytes ∉ t'.keys := by
  have hzero : (o.added.map PublicKey.bytes).toList.count k.bytes = 0 := by
    rw [List.count_eq_zero]
    rcases hx : o.added with _ | k'
    · simp
    · simpa [hx, eq_comm] using ha
  have hle := (count_keys_exec h k.bytes).1
  rw [hzero, List.count_eq_zero.2 hk] at hle
  exact List.count_eq_zero.1 (by omega)

/-- A master node stays one until it is removed. -/
theorem master_exec (h : t.exec o = some (t', u)) {k : PublicKey} (hr : o.removed ≠ some k)
    (hm : ∃ n ∈ t.node, n.publicKey = k.bytes ∧ n.masterNode) :
    ∃ n ∈ t'.node, n.publicKey = k.bytes ∧ n.masterNode := by
  obtain ⟨n, hn, hk, hmaster⟩ := hm
  cases exec_writes h
  case addNode => exact ⟨n, List.mem_append_left _ hn, hk, hmaster⟩
  case editNode hf _ _ =>
    refine ⟨_, List.mem_map_of_mem hn, ?_⟩
    split_ifs
    · exact ⟨(hf n).1.trans hk, (hf n).2.trans hmaster⟩
    · exact ⟨hk, hmaster⟩
  case removeNode k' _ hr' =>
    have hne : k ≠ k' := fun he => hr (he ▸ hr')
    exact ⟨n, (Table.mem_delete _).2 ⟨hn, by simpa [hk] using hne⟩, hk, hmaster⟩
  all_goals exact ⟨n, hn, hk, hmaster⟩

theorem config_exec (h : t.exec o = some (t', u)) (hne : ∀ name, o ≠ .removeConfig name)
    {name : String} (hc : ∃ c ∈ t.config, c.name = name) : ∃ c ∈ t'.config, c.name = name := by
  rw [← List.mem_map] at hc ⊢
  cases exec_writes h
  case setConfig hsub => exact hsub hc
  case removeConfig name => exact (hne name rfl).elim
  all_goals exact hc

theorem grants_iff : t.Grants pk perms ↔ ∃ row stored,
    t.users.find? (fun u => u.publicKey = pk.bytes ∧ u.active) = some row
      ∧ fromSlice Permissions row.permissions = some stored ∧ perms ⊆ stored := by
  have hget : ∀ row, t.getUserWithPubkey pk.bytes = .ok row ↔
      t.users.find? (fun u => u.publicKey = pk.bytes ∧ u.active) = some row := fun row => by
    rw [Tables.getUserWithPubkey, fetchOne_eq_ok, List.head?_filter]
  constructor
  · rintro ⟨stored, hp, hsub⟩
    simp only [Tables.permissionsOf, PublicKey.toVec_eq] at hp
    split at hp
    · rename_i row hrow
      exact ⟨row, stored, (hget row).1 hrow, hp, hsub⟩
    · simp at hp
  · rintro ⟨row, stored, hrow, hp, hsub⟩
    refine ⟨stored, ?_, hsub⟩
    simp only [Tables.permissionsOf, PublicKey.toVec_eq, (hget row).2 hrow]
    exact hp

/-- A user who is not demoted keeps the permissions it has at least. -/
theorem grants_exec (h : t.exec o = some (t', u)) (hd : ¬ o.Demotes pk perms)
    (hg : t.Grants pk perms) : t'.Grants pk perms := by
  rw [grants_iff] at hg ⊢
  obtain ⟨row, stored, hrow, hp, hsub⟩ := hg
  have hown := List.find?_some hrow
  simp only [decide_eq_true_eq] at hown
  cases exec_writes h
  case addUser => exact ⟨row, stored, by rw [List.find?_append, hrow]; rfl, hp, hsub⟩
  case editUser name k perm p hser =>
    have hfind := Table.find?_update (fun u : UserRow => u.publicKey = k.bytes)
      (fun u => { u with name := name, permissions := p })
      (q := fun u => u.publicKey = pk.bytes ∧ u.active) (fun _ _ => rfl) t.users
    rw [hfind, hrow]
    by_cases hk : row.publicKey = k.bytes
    · obtain rfl : k = pk := by simpa [hk] using hown.1
      have hperm : perms ⊆ perm := by simpa [Order.Demotes] using hd
      refine ⟨{ row with name := name, permissions := p }, perm, by simp [hk], ?_, hperm⟩
      rw [fromSlice_toVec hser]
    · exact ⟨row, stored, by simp [hk], hp, hsub⟩
  case removeUser k =>
    have hk : k ≠ pk := hd
    have hfind := Table.find?_update (fun u : UserRow => u.publicKey = k.bytes)
      (fun u => { u with active := false })
      (q := fun u => u.publicKey = pk.bytes ∧ u.active) (fun u hu => ?_) t.users
    · rw [hfind, hrow]
      exact ⟨row, stored, by simp [hown.1, Ne.symm hk], hp, hsub⟩
    · simp [of_decide_eq_true hu, hk]
  all_goals exact ⟨row, stored, hrow, hp, hsub⟩

theorem entityOk_exec (h : t.exec o = some (t', u)) (hh : ¬ o.Hinders r) (he : EntityOk t r) :
    EntityOk t' r := by
  have hmem : ∀ {k}, r.target = some k → t.entityWithPubkeyExists k.bytes →
      t'.entityWithPubkeyExists k.bytes := by
    intro k hk he
    rw [entityWithPubkeyExists_iff] at he ⊢
    exact mem_keys_exec h (fun hr => hh (.inl ⟨by simp [hr], hr.trans hk.symm⟩)) he
  have hnot : ∀ {k}, r.added = some k → ¬ t.entityWithPubkeyExists k.bytes →
      ¬ t'.entityWithPubkeyExists k.bytes := by
    intro k hk he
    rw [entityWithPubkeyExists_iff] at he ⊢
    exact notMem_keys_exec h (fun ha => hh (.inr ⟨by simp [ha], ha.trans hk.symm⟩)) he
  cases r
  case addUser => exact hnot rfl he
  case addMasterNode => exact hnot rfl he
  case addNode => exact hnot rfl he
  case updateVoteWeight k w =>
    exact master_exec h (fun hr => hh (.inl ⟨by simp [hr], hr⟩)) he
  case setConfig => exact he
  case removeConfig => exact he
  all_goals exact hmem rfl he

theorem permissionOk_exec (h : t.exec o = some (t', u)) (hne : ∀ name, o ≠ .removeConfig name)
    (hp : PermissionOk t pk perms r) : PermissionOk t' pk perms r := by
  cases r
  case changeNodeConfig => exact ⟨hp.1, config_exec h hne hp.2⟩
  all_goals exact hp

theorem PermissionOk.mono (hs : perms ⊆ perms') (h : PermissionOk t pk perms r) :
    PermissionOk t pk perms' r := by
  cases r
  case addUser => exact ⟨h.1, hs h.2.1, h.2.2⟩
  case editUser => exact ⟨h.1, h.2.imp (@hs _) fun hk => ⟨hk.1, List.Subset.trans hk.2 hs⟩⟩
  case changeNodeConfig => exact ⟨hs h.1, h.2⟩
  case updateVoteWeight => exact hs h
  case removeUser => exact hs h
  case removeMasterNode => exact hs h
  case removeNode => exact hs h
  case setConfig => exact hs h
  case removeConfig => exact hs h
  all_goals exact ⟨h.1, hs h.2⟩

theorem Demotes.mono (hs : perms ⊆ perms') (h : o.Demotes pk perms) : o.Demotes pk perms' := by
  cases o
  case editUser => exact ⟨h.1, fun hp => h.2 (List.Subset.trans hs hp)⟩
  case removeUser => exact h
  all_goals exact h.elim

end Orders

section Blocks

/-- The block takes nothing from a user and hinders none of the orders, or fails as a whole. -/
def Spares (t : Tables) (reqs : List RequestType) (pk : PublicKey) (req : List RequestType) :
    Prop :=
  UpdatesKey reqs ∨ ∀ o, .order o ∈ reqs →
    (∀ stored ∈ t.permissionsOf pk, ¬ o.Demotes pk stored) ∧ ∀ r, .order r ∈ req → ¬ o.Hinders r

instance (t : Tables) (reqs : List RequestType) (pk : PublicKey) (req : List RequestType) :
    Decidable (Spares t reqs pk req) := by
  unfold Spares
  infer_instance

variable {t : Tables} {reqs req : List RequestType} {pk : PublicKey} {perms : Permissions}
  {r : Order}

theorem apply_induction {I : Tables → Prop} {b : Bytes} (hb : toVec reqs = some b)
    (hstep : UpdatesKey reqs
      ∨ ∀ o, .order o ∈ reqs → ∀ t t' u, t.exec o = some (t', u) → I t → I t')
    (hi : I t) : I (t.apply reqs) := by
  rw [Tables.apply]
  rcases hx : t.execAll reqs with _ | t'
  · exact hi
  · refine execAll_induction (hstep.resolve_left ?_) hx hi
    exact (execAll_isSome (of_toVec_reqs hb)).1 (by rw [hx]; rfl)

theorem Spares.grants {b : Bytes} (hs : Spares t reqs pk req) (hb : toVec reqs = some b)
    (hg : t.Grants pk perms) : (t.apply reqs).Grants pk perms := by
  obtain ⟨stored, hp, hsub⟩ := id hg
  refine apply_induction (I := fun t => t.Grants pk perms) hb
    (hs.imp_right fun h o ho t t' u hx hg => ?_) hg
  exact grants_exec hx (fun hd => (h o ho).1 stored hp (Demotes.mono hsub hd)) hg

theorem Spares.entityOk {b : Bytes} (hs : Spares t reqs pk req) (hb : toVec reqs = some b)
    (hr : .order r ∈ req) (he : EntityOk t r) : EntityOk (t.apply reqs) r :=
  apply_induction hb
    (hs.imp_right fun h o ho _ _ _ hx he => entityOk_exec hx ((h o ho).2 r hr) he) he

theorem Spares.accepted {b : Bytes} (hs : Spares t reqs pk req) (hb : toVec reqs = some b)
    (hne : ∀ o, .order o ∈ reqs → ∀ name, o ≠ .removeConfig name) (hr : .order r ∈ req)
    (ha : Accepted t pk perms r) : Accepted (t.apply reqs) pk perms r :=
  ⟨hs.entityOk hb hr ha.1, apply_induction (I := fun t => PermissionOk t pk perms r) hb
    (.inr fun o ho _ _ _ hx hp => permissionOk_exec hx (hne o ho) hp) ha.2⟩

theorem admitted_iff {b : BodyData} : Admitted K t b ↔ ∃ raw, toVec b.req = some raw
    ∧ b.userPk.verifySig K raw b.sign = .ok true
    ∧ ∃ perms, t.Grants b.userPk perms ∧ ∀ o, .order o ∈ b.req → Accepted t b.userPk perms o := by
  simp only [Admitted, servingVerify, Option.bind_eq_bind, Option.bind_eq_some_iff, Option.pure_def,
    Option.some.injEq, verifyReq_eq_ok_none]
  constructor
  · rintro ⟨perms, hp, raw, hb, hsig, ho⟩
    exact ⟨raw, hb, hsig, perms, ⟨perms, hp, List.Subset.refl _⟩, ho⟩
  · rintro ⟨raw, hb, hsig, perms, ⟨stored, hp, hsub⟩, ho⟩
    exact ⟨stored, hp, raw, hb, hsig, fun o h => ⟨(ho o h).1, (ho o h).2.mono hsub⟩⟩

theorem Admitted.ne_removeConfig {b : BodyData} (h : Admitted K t b) :
    ∀ o, .order o ∈ b.req → ∀ name, o ≠ .removeConfig name := by
  obtain ⟨-, -, -, perms, -, ho⟩ := admitted_iff.1 h
  rintro o h name rfl
  exact (ho _ h).1

/-- The block is still admitted after one that spares it. -/
theorem Admitted.apply {b b' : BodyData} (h : Admitted K t b) (h' : Admitted K t b')
    (hs : Spares t b'.req b.userPk b.req) : Admitted K (t.apply b'.req) b := by
  have hne := h'.ne_removeConfig
  obtain ⟨raw', hb', -⟩ := admitted_iff.1 h'
  obtain ⟨raw, hb, hsig, perms, hg, ho⟩ := admitted_iff.1 h
  exact admitted_iff.2 ⟨raw, hb, hsig, perms, hs.grants hb' hg,
    fun o hr => hs.accepted hb' hne hr (ho o hr)⟩

end Blocks

section Checks

variable {t : Tables} {c : Checking} {first : List RequestType}

/-- Nothing is against these orders of the request, and the session's permissions are up to date. -/
structure Checking.Passed (K : Crypto) (t : Tables) (c : Checking) (first : List RequestType) :
    Prop where
  sign : ∃ raw, toVec c.req = some raw ∧ c.user.pubkey.verifySig K raw c.sign = .ok true
  grants : t.Grants c.user.pubkey c.user.permissions
  orders : ∀ o, .order o ∈ first → Accepted t c.user.pubkey c.user.permissions o

/-- What a check has found so far is so. -/
def Checking.Ok (K : Crypto) (t : Tables) (c : Checking) : Prop :=
  match c.check with
  | .entity rest => ∃ first, c.req = first ++ rest ∧ c.Passed K t first
  | .permission ord rest =>
    ∃ first, c.req = first ++ .order ord :: rest ∧ c.Passed K t first ∧ EntityOk t ord
  | .done (.ok none) => c.Passed K t c.req
  | .done _ => True

namespace Checking

theorem ok_start {raw : Bytes} (hb : toVec c.req = some raw)
    (hg : t.Grants c.user.pubkey c.user.permissions)
    (hc : c.check = .start K raw c.req c.user.pubkey c.sign) : c.Ok K t := by
  unfold Ok
  rw [hc, Check.start]
  rcases hs : c.user.pubkey.verifySig K raw c.sign with e | _ | _
  · trivial
  · trivial
  · exact ⟨[], rfl, ⟨raw, hb, hs⟩, hg, by simp⟩

theorem Ok.step (h : c.Ok K t) :
    Ok K t { c with check := c.check.step t c.user.pubkey c.user.permissions } := by
  obtain ⟨user, req, sign, check⟩ := c
  unfold Ok at h ⊢
  rcases check with ⟨_ | ⟨⟨ord⟩, rest⟩⟩ | ⟨ord, rest⟩ | _ <;> simp only [Check.step] at h ⊢
  · obtain ⟨first, hreq, hp⟩ := h
    rw [List.append_nil] at hreq
    exact ⟨hp.sign, hp.grants, hreq ▸ hp.orders⟩
  · obtain ⟨first, hreq, hp⟩ := h
    rcases he : verifyEntity t ord with e | _ | e
    · trivial
    · exact ⟨first, hreq, ⟨hp.sign, hp.grants, hp.orders⟩, verifyEntity_eq_ok_none.1 he⟩
    · trivial
  · obtain ⟨first, hreq, hp, he⟩ := h
    rcases hv : verifyPermission t user.pubkey user.permissions ord with e | _ | e
    · trivial
    · refine ⟨first ++ [.order ord], by simpa using hreq, hp.sign, hp.grants, fun o ho => ?_⟩
      rcases List.mem_append.1 ho with ho | ho
      · exact hp.orders o ho
      · obtain rfl : o = ord := by simpa using ho
        exact ⟨he, verifyPermission_eq_ok_none.1 hv⟩
    · trivial
  · exact h

theorem Passed.apply {b : BodyData} (h : c.Passed K t first) (hsub : first ⊆ c.req)
    (hb : Admitted K t b) (hs : Spares t b.req c.user.pubkey c.req) :
    c.Passed K (t.apply b.req) first := by
  obtain ⟨raw, hraw, -⟩ := admitted_iff.1 hb
  exact ⟨h.sign, hs.grants hraw h.grants,
    fun o ho => hs.accepted hraw hb.ne_removeConfig (hsub ho) (h.orders o ho)⟩

theorem Ok.apply {b : BodyData} (h : c.Ok K t) (hb : Admitted K t b)
    (hs : Spares t b.req c.user.pubkey c.req) : c.Ok K (t.apply b.req) := by
  unfold Ok at h ⊢
  split at h
  · obtain ⟨first, hreq, hp⟩ := h
    exact ⟨first, hreq, hp.apply (hreq ▸ List.subset_append_left _ _) hb hs⟩
  · obtain ⟨first, hreq, hp, he⟩ := h
    obtain ⟨raw, hraw, -⟩ := admitted_iff.1 hb
    refine ⟨first, hreq, hp.apply (hreq ▸ List.subset_append_left _ _) hb hs, ?_⟩
    exact hs.entityOk hraw (by rw [hreq]; simp) he
  · exact Passed.apply h (List.Subset.refl _) hb hs
  · trivial

theorem Passed.admitted (h : c.Passed K t c.req) (timestamp : UInt64) :
    Admitted K t (c.block timestamp) := by
  obtain ⟨raw, hb, hsig⟩ := h.sign
  exact admitted_iff.2 ⟨raw, hb, hsig, _, h.grants, h.orders⟩

end Checking

end Checks

namespace Server

variable {s s' : Server}

/-- A request comes on a session whose permissions are up to date, and a block that is interpreted
spares every other request under way. -/
def Calm (s : Server) : Act → Prop
  | .request peer _ _ =>
    ∀ user ∈ s.auth.lookup peer, s.tables.Grants user.pubkey user.permissions
  | .master (.task i net) => ∀ b ∈ s.interprets (.master (.task i net)),
    (∀ c ∈ s.checks, Spares s.tables b.req c.user.pubkey c.req)
      ∧ ∀ j < s.master.tasks.length, j ≠ i → ∀ t ∈ s.master.tasks[j]?, t.pc.isDone = false →
        Spares s.tables b.req t.body.userPk t.body.req
  | _ => True

instance (t : Tables) (pk : PublicKey) (perms : Permissions) : Decidable (t.Grants pk perms) :=
  decidable_of_iff (∃ stored ∈ t.permissionsOf pk, perms ⊆ stored) Iff.rfl

instance (s : Server) (a : Act) : Decidable (Calm s a) :=
  match a with
  | .request _ _ _ => by unfold Calm; infer_instance
  | .master (.task _ _) => by unfold Calm; infer_instance
  | .hello _ _ | .enter _ | .disconnect _ | .check _ _ => isTrue trivial
  | .master (.request _) | .master (.handle _ _) | .master (.timer _) | .master (.dispatch _)
  | .master (.gossip _ _) | .master (.configure _) => isTrue trivial

structure SerialInv (K : Crypto) (s : Server) : Prop where
  checks : ∀ c ∈ s.checks, c.Ok K s.tables
  tasks : ∀ t ∈ s.master.tasks, t.pc.isDone = false → Admitted K s.tables t.body

theorem interprets_eq_some {a : Act} {b : BodyData} (h : s.interprets a = some b) :
    ∃ i net t row, a = .master (.task i net) ∧ s.master.tasks[i]? = some t ∧ t.pc = .interpret row
      ∧ t.body = b := by
  unfold interprets at h
  split at h
  · rename_i i net
    obtain ⟨t, ht, h⟩ := Option.bind_eq_some_iff.1 h
    split at h
    · rename_i row hpc
      exact ⟨i, net, t, row, rfl, ht, hpc, by simpa using h⟩
    · simp at h
  · simp at h

/-- What an action interprets is admitted. -/
theorem SerialInv.admitted (hi : SerialInv K s) {a : Act} {b : BodyData}
    (h : s.interprets a = some b) : Admitted K s.tables b := by
  obtain ⟨i, net, t, row, -, ht, hpc, rfl⟩ := interprets_eq_some h
  exact hi.tasks t (List.mem_of_getElem? ht) (by rw [hpc]; rfl)

theorem serialInv_task {i : ℕ} {net : Publish} (hok : Calm s (.master (.task i net)))
    {m : Master} (h : s.master.step K (.task i net) = some m) (hi : SerialInv K s) :
    SerialInv K { s with master := m } := by
  obtain ⟨t, set, t', hget, hs, rfl⟩ := Master.of_step_task h
  let m : Master := { s.master with set := set, tasks := s.master.tasks.set i t' }
  have hkeep : set.db.toTables = s.tables → (t'.pc.isDone = false → t.pc.isDone = false) →
      t'.body = t.body → SerialInv K { s with master := m } := by
    intro htab hdone hbody
    have htab' : tables { s with master := m } = s.tables := htab
    refine ⟨fun c hc => ?_, fun x hx hpc => ?_⟩ <;> rw [htab']
    · exact hi.checks c hc
    · rcases mem_set_cases hx with rfl | ⟨j, -, hx⟩
      · rw [hbody]
        exact hi.tasks t (List.mem_of_getElem? hget) (hdone hpc)
      · exact hi.tasks x (List.mem_of_getElem? hx) hpc
  rcases Task.step_cases hs with hv | ⟨row, hpc, rfl, rfl⟩ | ⟨row, hpc, -, rfl, rfl⟩ |
    ⟨row, db, hpc, ha, rfl, rfl⟩ | ⟨row, hpc, rfl, rfl⟩
  · refine hkeep (by rw [hv.db]; rfl) (fun _ => ?_) hv.body
    have hvoting := hv.voting
    cases hpc : t.pc <;> rw [hpc] at hvoting <;> first | rfl | exact hvoting.elim
  · exact hkeep rfl (fun _ => by rw [hpc]; rfl) rfl
  · exact hkeep rfl (fun _ => by rw [hpc]; rfl) rfl
  · obtain ⟨-, rfl⟩ := Database.addNew_eq_some _ ha
    exact hkeep rfl (fun _ => by rw [hpc]; rfl) rfl
  · have hb : s.interprets (.master (.task i net)) = some t.body := by
      simp [interprets, hget, hpc]
    obtain ⟨hchecks, htasks⟩ := hok t.body hb
    have hadm := hi.admitted hb
    have htab : ∀ s' : Server, s'.master.set.db = applyBlock s.master.set.db t.body.req →
        s'.tables = s.tables.apply t.body.req := by
      intro s' hdb
      rw [tables, hdb, applyBlock_toTables]
      rfl
    refine ⟨fun c hc => ?_, fun x hx hdone => ?_⟩ <;> rw [htab _ rfl]
    · exact (hi.checks c hc).apply hadm (hchecks c hc)
    · rcases mem_set_cases hx with rfl | ⟨j, hj, hx⟩
      · simp [Task.goto, Pc.isDone] at hdone
      · have hlt := (List.getElem?_eq_some_iff.1 hx).1
        exact (hi.tasks x (List.mem_of_getElem? hx) hdone).apply hadm (htasks j hlt hj x hx hdone)

theorem serialInv_step {a : Act} (hsingle : a.Single) (hok : Calm s a)
    (h : s.step K a = some s') (hi : SerialInv K s) : SerialInv K s' := by
  cases moves h with
  | request sign hu hv =>
    refine ⟨fun c hc => ?_, hi.tasks⟩
    rcases List.mem_append.1 hc with hc | hc
    · exact hi.checks c hc
    · obtain rfl := List.mem_singleton.1 hc
      exact Checking.ok_start hv (hok _ hu) rfl
  | accept timestamp hc hd =>
    refine ⟨fun x hx => hi.checks x (List.mem_of_mem_eraseIdx hx), fun t ht hpc => ?_⟩
    rcases List.mem_append.1 ht with ht | ht
    · exact hi.tasks t ht hpc
    · obtain rfl := List.mem_singleton.1 ht
      have hcok := hi.checks _ (List.mem_of_getElem? hc)
      unfold Checking.Ok at hcok
      rw [hd] at hcok
      exact Checking.Passed.admitted hcok timestamp
  | refuse => exact ⟨fun x hx => hi.checks x (List.mem_of_mem_eraseIdx hx), hi.tasks⟩
  | query timestamp hc =>
    refine ⟨fun x hx => ?_, hi.tasks⟩
    rcases mem_set_cases hx with rfl | ⟨j, -, hx⟩
    · exact (hi.checks _ (List.mem_of_getElem? hc)).step
    · exact hi.checks x (List.mem_of_getElem? hx)
  | @master a m hm =>
    cases a
    case task i net => exact serialInv_task hok hm hi
    case request => simp [step] at h
    case configure conf =>
      obtain rfl := Master.of_step_configure hm
      exact ⟨hi.checks, hi.tasks⟩
    all_goals exact hsingle.elim
  | login | stranger | enter | disconnect | ignore => exact ⟨hi.checks, hi.tasks⟩

/-- On a master without peers every block is accepted, with the permissions then stored for its
signer, on the tables that it is applied to, if requests come on sessions that are up to date and
every block that is interpreted spares the requests under way. -/
theorem serialisable_run {db : Database} {conf : MasterConfig} {as : List Act}
    (hsingle : ∀ a ∈ as, a.Single) (hok : Run.Along (step K) Calm (init db conf) as) :
    Run.Along (step K) (fun s a => ∀ b ∈ s.interprets a, Admitted K s.tables b)
      (init db conf) as := by
  have halong : Run.Along (step K) (fun s a => a.Single ∧ Calm s a) (init db conf) as :=
    (Run.along_of_forall hsingle).and hok
  have hinit : SerialInv K (init db conf) := ⟨by simp [init], by simp [init, Master.init]⟩
  refine (Run.along_induction (fun _ _ _ ha hs hi => serialInv_step ha.1 ha.2 hs hi) halong
    hinit).mono ?_
  intro s a h b hb
  exact h.1.admitted hb

/-- The root user logs in and sends two requests, both checked before either is applied. -/
def twoRequests (req req' : List RequestType) : List Act :=
  [.hello "p" (toyKey 1), .enter 0, .request "p" req (toyBody 0 req).sign,
    .request "p" req' (toyBody 0 req').sign]
    ++ List.replicate 8 (.check 0 0) ++ (Master.alone 0 ++ Master.alone 1).map .master

/-- Two nodes with keys of their own. -/
theorem serialisable_run_nodes :
    let as := twoRequests [.order (.addNode "n" (toyKey 2))] [.order (.addNode "m" (toyKey 3))]
    ((Run.run (step toy) (init toyGenesis (.default toy)) as).any fun s =>
      s.master.tasks.map Task.answer = [some .ok, some .ok])
        ∧ Run.Along (step toy) (fun s a => ∀ b ∈ s.interprets a, Admitted toy s.tables b)
          (init toyGenesis (.default toy)) as :=
  ⟨by decide +kernel, serialisable_run (by decide +kernel) (by decide +kernel)⟩

/-- A node and a user with one key. -/
theorem not_serialisable_run :
    let as := twoRequests [.order (.addNode "n" (toyKey 2))]
      [.order (.addUser "a" (toyKey 2) [.monitor])]
    (∀ a ∈ as, a.Single)
      ∧ ¬ Run.Along (step toy) (fun s a => ∀ b ∈ s.interprets a, Admitted toy s.tables b)
        (init toyGenesis (.default toy)) as := by
  decide +kernel

end Server

end Nyumt
