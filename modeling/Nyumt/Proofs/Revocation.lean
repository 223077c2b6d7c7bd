import Nyumt.Proofs.Serial

/-!
# Permissions that were taken away

A request is checked with the permissions its session was opened with, so what is checked is what
the user was once allowed (`screened_step`). It is what the user is allowed when the check ends as
long as nothing was taken from the user that the request needs (`upToDate_run`).
-/

namespace Nyumt

open Borsh

variable {K : Crypto}

/-- The permissions allow the order to the user `pk`. -/
def Order.Permitted (pk : PublicKey) (perms : Permissions) : Order → Prop
  | .editUser _ k perm => .root ∈ perms ∨ pk = k ∧ perm ⊆ perms
  | .updatePublicKey k _ => pk = k ∧ .root ∈ perms
  | .addUser _ _ _ | .addMasterNode _ _ | .addNode _ _ | .editMasterNode _ _ | .editNode _ _
  | .removeUser _ | .removeMasterNode _ | .removeNode _ | .changeNodeConfig _ _ | .setConfig _ _ _
  | .removeConfig _ | .updateVoteWeight _ _ => .root ∈ perms

instance (pk : PublicKey) (perms : Permissions) : DecidablePred (Order.Permitted pk perms)
  | .editUser _ k perm => inferInstanceAs (Decidable (_ ∨ pk = k ∧ perm ⊆ perms))
  | .updatePublicKey k _ => inferInstanceAs (Decidable (pk = k ∧ _))
  | .addUser _ _ _ | .addMasterNode _ _ | .addNode _ _ | .editMasterNode _ _ | .editNode _ _
  | .removeUser _ | .removeMasterNode _ | .removeNode _ | .changeNodeConfig _ _ | .setConfig _ _ _
  | .removeConfig _ | .updateVoteWeight _ _ => inferInstanceAs (Decidable (Permission.root ∈ perms))

theorem PermissionOk.permitted {t : Tables} {pk : PublicKey} {perms : Permissions} {o : Order}
    (h : PermissionOk t pk perms o) : o.Permitted pk perms := by
  cases o <;> simp only [PermissionOk] at h
  case addUser => exact h.2.1
  case editUser => exact h.2
  case updatePublicKey => exact h
  case changeNodeConfig => exact h.1
  case addMasterNode => exact h.2
  case addNode => exact h.2
  case editMasterNode => exact h.2
  case editNode => exact h.2
  all_goals exact h

theorem Order.Permitted.mono {pk : PublicKey} {perms perms' : Permissions} (hsub : perms ⊆ perms')
    {o : Order} (h : o.Permitted pk perms) : o.Permitted pk perms' := by
  cases o
  case editUser => exact h.imp (@hsub _) fun h => ⟨h.1, List.Subset.trans h.2 hsub⟩
  case updatePublicKey => exact ⟨h.1, hsub h.2⟩
  all_goals exact hsub h

/-- The orders that have still to be looked at. -/
def Check.pending : Check → List RequestType
  | .entity req => req
  | .permission ord req => .order ord :: req
  | .done _ => []

/-- Unless the check has ended, the session's permissions allow every order looked at. -/
def Checking.Screened (c : Checking) : Prop :=
  (∃ r, c.check = .done r) ∨ ∀ o, .order o ∈ c.req →
    .order o ∈ c.check.pending ∨ o.Permitted c.user.pubkey c.user.permissions

theorem Checking.screened_start {user : User} {req : List RequestType} {sign v : Bytes} :
    (⟨user, req, sign, .start K v req user.pubkey sign⟩ : Checking).Screened := by
  unfold Screened Check.start
  split
  · exact .inr fun o ho => .inl ho
  · exact .inl ⟨_, rfl⟩
  · exact .inl ⟨_, rfl⟩

theorem Checking.Screened.step {c : Checking} {t : Tables} (h : c.Screened) :
    Screened { c with check := c.check.step t c.user.pubkey c.user.permissions } := by
  obtain ⟨user, req, sign, check⟩ := c
  rcases h with ⟨r, rfl⟩ | h
  · exact .inl ⟨r, rfl⟩
  rcases check with (_ | ⟨⟨ord⟩, rest⟩) | ⟨ord, rest⟩ | r
  · exact .inl ⟨_, rfl⟩
  · unfold Screened
    simp only [Check.step]
    split
    · exact .inr h
    · exact .inl ⟨_, rfl⟩
  · unfold Screened
    simp only [Check.step]
    split
    · rename_i hp
      refine .inr fun o ho => (h o ho).elim (fun hmem => ?_) .inr
      rcases List.mem_cons.1 hmem with ho | hmem
      · obtain rfl : o = ord := by simpa using ho
        exact .inr (verifyPermission_eq_ok_none.1 hp).permitted
      · exact .inl hmem
    · exact .inl ⟨_, rfl⟩
  · exact .inl ⟨r, rfl⟩

namespace Server

variable {s s' : Server}

theorem screened_step {a : Act} (h : s.step K a = some s') (hi : ∀ c ∈ s.checks, c.Screened) :
    ∀ c ∈ s'.checks, c.Screened := by
  cases moves h with
  | request sign hu hv =>
    intro c hc
    rcases List.mem_append.1 hc with hc | hc
    · exact hi c hc
    · rw [List.mem_singleton.1 hc]
      exact Checking.screened_start
  | query timestamp hget =>
    intro c hc
    rcases mem_set_cases hc with rfl | ⟨j, -, hx⟩
    · exact (hi _ (List.mem_of_getElem? hget)).step
    · exact hi c (List.mem_of_getElem? hx)
  | accept | refuse => exact fun c hc => hi c (List.mem_of_mem_eraseIdx hc)
  | login | stranger | enter | disconnect | ignore | master => exact hi

/-- The request that `verify_req` accepts in this action: the last order has been looked at. -/
def accepts (s : Server) : Act → Option Checking
  | .check i _ => do
    let c ← s.checks[i]?
    match c.check with
    | .entity [] => some c
    | _ => none
  | _ => none

theorem of_accepts {a : Act} {c : Checking} (h : s.accepts a = some c) :
    c ∈ s.checks ∧ c.check = .entity [] := by
  unfold accepts at h
  split at h
  · obtain ⟨c', hc, h⟩ := Option.bind_eq_some_iff.1 h
    split at h
    · rename_i hcheck
      simp only [Option.some.injEq] at h
      subst h
      exact ⟨List.mem_of_getElem? hc, hcheck⟩
    · simp at h
  · simp at h

/-- A request is accepted from an active user whose stored permissions allow every order of it. -/
def Permits (s : Server) (a : Act) : Prop :=
  ∀ c ∈ s.accepts a, ∃ stored ∈ s.tables.permissionsOf c.user.pubkey,
    ∀ o, .order o ∈ c.req → o.Permitted c.user.pubkey stored

/-- When a check is about to end, the user is still active and is not denied an order that the
permissions read at the `Hello` allow. -/
def UpToDate (s : Server) (a : Act) : Prop :=
  ∀ c ∈ s.accepts a, ∃ stored ∈ s.tables.permissionsOf c.user.pubkey,
    ∀ o, .order o ∈ c.req → o.Permitted c.user.pubkey c.user.permissions →
      o.Permitted c.user.pubkey stored

theorem permits_iff {a : Act} (hi : ∀ c ∈ s.checks, c.Screened) : s.Permits a ↔ s.UpToDate a := by
  constructor
  · intro h c hc
    obtain ⟨stored, hp, ho⟩ := h c hc
    exact ⟨stored, hp, fun o hr _ => ho o hr⟩
  · intro h c hc
    obtain ⟨stored, hp, ho⟩ := h c hc
    obtain ⟨hmem, hcheck⟩ := of_accepts hc
    refine ⟨stored, hp, fun o hr => ho o hr ?_⟩
    rcases hi c hmem with ⟨r, hr'⟩ | hall
    · rw [hcheck] at hr'
      cases hr'
    · have hpend := hall o hr
      rw [hcheck] at hpend
      simpa [Check.pending] using hpend

/-- Every request that is accepted is one its signer may make at that moment if and only if nothing
that a session's user was allowed at the `Hello`, and needs for the request, was taken away. -/
theorem permits_run_iff (db : Database) (conf : MasterConfig) (as : List Act) :
    Run.Along (step K) Permits (init db conf) as ↔ Run.Along (step K) UpToDate (init db conf) as :=
  Run.along_congr (I := fun s => ∀ c ∈ s.checks, c.Screened)
    (fun _ _ _ hs hi => screened_step hs hi) (fun _ _ => permits_iff) (by simp [init])

section Demotions

/-- The user of a session, of a login or of a request that is being checked. -/
def HasUser (s : Server) (u : User) : Prop :=
  (∃ peer, s.auth.lookup peer = some u) ∨ (∃ peer, (peer, u) ∈ s.logins)
    ∨ ∃ c ∈ s.checks, c.user = u

/-- A block that is interpreted takes nothing from the user of a session. -/
def Retains (s : Server) (a : Act) : Prop :=
  ∀ b ∈ s.interprets a, ∀ o, .order o ∈ b.req → ∀ u, s.HasUser u →
    ¬ o.Demotes u.pubkey u.permissions

theorem hasUser_step {a : Act} (h : s.step K a = some s') {u : User} (hu : s'.HasUser u) :
    s.HasUser u
      ∨ (∃ peer, a = .hello peer u.pubkey)
        ∧ s.tables.permissionsOf u.pubkey = some u.permissions := by
  cases moves h with
  | login peer hp =>
    rcases hu with hu | ⟨p, hu⟩ | hu
    · exact .inl (.inl hu)
    · rcases List.mem_append.1 hu with hu | hu
      · exact .inl (.inr (.inl ⟨p, hu⟩))
      · obtain ⟨-, rfl⟩ : p = peer ∧ u = _ := by simpa using hu
        exact .inr ⟨⟨peer, rfl⟩, hp⟩
    · exact .inl (.inr (.inr hu))
  | @enter i l hl =>
    rcases hu with ⟨p, hu⟩ | ⟨p, hu⟩ | hu
    · rcases eq_or_ne p l.1 with rfl | hne
      · rw [AList.lookup_insert, Option.some.injEq] at hu
        subst hu
        exact .inl (.inr (.inl ⟨l.1, List.mem_of_getElem? hl⟩))
      · rw [AList.lookup_insert_ne hne] at hu
        exact .inl (.inl ⟨p, hu⟩)
    · exact .inl (.inr (.inl ⟨p, List.mem_of_mem_eraseIdx hu⟩))
    · exact .inl (.inr (.inr hu))
  | disconnect peer =>
    rcases hu with ⟨p, hu⟩ | hu
    · rcases eq_or_ne p peer with rfl | hne
      · simp at hu
      · rw [AList.lookup_erase_ne hne] at hu
        exact .inl (.inl ⟨p, hu⟩)
    · exact .inl (.inr hu)
  | request sign hauth hv =>
    rcases hu with hu | hu | ⟨c, hc, hu⟩
    · exact .inl (.inl hu)
    · exact .inl (.inr (.inl hu))
    · rcases List.mem_append.1 hc with hc | hc
      · exact .inl (.inr (.inr ⟨c, hc, hu⟩))
      · rw [List.mem_singleton.1 hc] at hu
        subst hu
        exact .inl (.inl ⟨_, hauth⟩)
  | query timestamp hget =>
    rcases hu with hu | hu | ⟨c, hc, hu⟩
    · exact .inl (.inl hu)
    · exact .inl (.inr (.inl hu))
    · rcases mem_set_cases hc with rfl | ⟨j, -, hx⟩
      · exact .inl (.inr (.inr ⟨_, List.mem_of_getElem? hget, hu⟩))
      · exact .inl (.inr (.inr ⟨c, List.mem_of_getElem? hx, hu⟩))
  | accept | refuse =>
    rcases hu with hu | hu | ⟨c, hc, hu⟩
    · exact .inl (.inl hu)
    · exact .inl (.inr (.inl hu))
    · exact .inl (.inr (.inr ⟨c, List.mem_of_mem_eraseIdx hc, hu⟩))
  | stranger | ignore | master => exact .inl hu

/-- The tables change only by a block that is interpreted. -/
theorem tables_step {a : Act} (h : s.step K a = some s') :
    s'.tables = s.tables ∨ ∃ b ∈ s.interprets a, s'.tables = s.tables.apply b.req := by
  cases moves h with
  | master hm =>
    rcases Master.step_db hm with hdb | ⟨row, -, hdb⟩ | ⟨i, net, t, row, rfl, hget, hpc, hdb⟩
    · exact .inl (by rw [tables, hdb]; rfl)
    · exact .inl (by rw [tables, hdb]; rfl)
    · refine .inr ⟨t.body, by simp [interprets, hget, hpc], ?_⟩
      rw [tables, hdb, applyBlock_toTables]
      rfl
  | login | stranger | enter | disconnect | request | ignore | accept | refuse | query =>
    exact .inl rfl

theorem grants_apply {t : Tables} {reqs : List RequestType} {pk : PublicKey} {perms : Permissions}
    (hd : ∀ o, .order o ∈ reqs → ¬ o.Demotes pk perms) (hg : t.Grants pk perms) :
    (t.apply reqs).Grants pk perms := by
  unfold Tables.apply
  rcases he : t.execAll reqs with _ | t'
  · exact hg
  · exact execAll_induction (I := fun t => t.Grants pk perms)
      (fun o ho _ _ _ hx hg => grants_exec hx (hd o ho) hg) he hg

/-- The users of sessions have the permissions of their sessions at least. -/
theorem granted_step {a : Act} (ha : s.Retains a) (h : s.step K a = some s')
    (hi : ∀ u, s.HasUser u → s.tables.Grants u.pubkey u.permissions) :
    ∀ u, s'.HasUser u → s'.tables.Grants u.pubkey u.permissions := by
  intro u hu
  rcases hasUser_step h hu with hu | ⟨⟨peer, rfl⟩, hp⟩
  · rcases tables_step h with ht | ⟨b, hb, ht⟩ <;> rw [ht]
    · exact hi u hu
    · exact grants_apply (fun o ho => ha b hb o ho u hu) (hi u hu)
  · rcases tables_step h with ht | ⟨b, hb, -⟩
    · exact ⟨_, by rw [ht]; exact hp, List.Subset.refl _⟩
    · simp [interprets] at hb

theorem upToDate_of_grants {a : Act}
    (hi : ∀ u, s.HasUser u → s.tables.Grants u.pubkey u.permissions) : s.UpToDate a := by
  intro c hc
  obtain ⟨stored, hp, hsub⟩ := hi c.user (.inr (.inr ⟨c, (of_accepts hc).1, rfl⟩))
  exact ⟨stored, hp, fun o _ ho => ho.mono hsub⟩

/-- Nothing is out of date while no block demotes the user of a session. -/
theorem upToDate_run {db : Database} {conf : MasterConfig} {as : List Act}
    (h : Run.Along (step K) Retains (init db conf) as) :
    Run.Along (step K) UpToDate (init db conf) as :=
  (Run.along_induction (fun _ _ _ ha hs hi => granted_step ha hs hi) h
    (by simp [HasUser, init])).mono fun _ _ h => upToDate_of_grants h.1

end Demotions

instance (s : Server) (a : Act) : Decidable (s.Permits a) := by
  unfold Permits
  infer_instance

/-- The root user removes itself and then, on the same session, adds a node. -/
def removed : List Act :=
  let first := [.order (.removeUser (toyKey 1))]
  let second := [.order (.addNode "n" (toyKey 2))]
  [.hello "p" (toyKey 1), .enter 0, .request "p" first (toyBody 0 first).sign]
    ++ List.replicate 4 (.check 0 0) ++ (Master.alone 0).map .master
    ++ .request "p" second (toyBody 0 second).sign :: List.replicate 3 (.check 0 0)

/-- A session outlives the user it is for. -/
theorem not_permits_run : ¬ ∀ as : List Act, (∀ a ∈ as, a.Single) →
    Run.Along (step toy) Permits (init toyGenesis (.default toy)) as := by
  intro h
  have hrun : ¬ Run.Along (step toy) Permits (init toyGenesis (.default toy)) removed := by
    decide +kernel
  exact hrun (h removed (by decide +kernel))

end Server

end Nyumt
