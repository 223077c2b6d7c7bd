import Nyumt.Proofs.Revocation
import Nyumt.Session

/-!
# Who a session is for

The handler of `Hello` refuses a wrong version only together with a key that is the connection's
own: with another key any version goes through, and so does another user's key with the right
version. A session is for the key of its connection and was opened with the right version as long as
every `Hello` for a user names the connection's own key (`bound_run`).
-/

namespace Nyumt

open Borsh

namespace Session

variable {K : Crypto} {s s' : Session}

theorem validPk_iff {peer : String} {pk : PublicKey} :
    validPk K peer pk ↔ pk.toPeerId K = .ok peer := by
  unfold validPk
  rcases pk.toPeerId K with e | id <;> simp

theorem of_step_connect {pk : PublicKey} (h : s.step K (.connect pk) = some s') :
    ∃ connected, s' = { s with connected := connected } := by
  simp only [step] at h
  split at h
  · split_ifs at h <;> simp only [Option.some.injEq] at h <;> exact ⟨_, h.symm⟩
  · simp only [Option.some.injEq] at h
    exact ⟨_, h.symm⟩

theorem of_step_hello {peer : String} {version : UInt64} {pk : PublicKey}
    (h : s.step K (.hello peer version pk) = some s') : s' = s
      ∨ (¬ (version ≠ protocolVersion ∧ validPk K peer pk)
        ∧ s' = { s with greetings := s.greetings ++ [⟨peer, version, pk⟩] }) := by
  simp only [step] at h
  split_ifs at h with hc hv <;> simp only [Option.some.injEq] at h
  · exact .inl h.symm
  · exact .inr ⟨hv, h.symm⟩

theorem of_step_read {i : ℕ} (h : s.step K (.read i) = some s') :
    ∃ g server, s.greetings[i]? = some g ∧ s.server.step K (.hello g.peer g.pk) = some server
      ∧ s' = { s with
        server := server
        greetings := s.greetings.eraseIdx i
        loginVersions := s.loginVersions
          ++ if (s.server.tables.permissionsOf g.pk).isSome then [g.version] else [] } := by
  obtain ⟨g, hg, h⟩ := Option.bind_eq_some_iff.1 h
  obtain ⟨server, hs, h⟩ := Option.bind_eq_some_iff.1 h
  simp only [Option.pure_def, Option.some.injEq] at h
  exact ⟨g, server, hg, hs, h.symm⟩

theorem of_step_enter {i : ℕ} (h : s.step K (.enter i) = some s') :
    ∃ l version server, s.server.logins[i]? = some l ∧ s.loginVersions[i]? = some version
      ∧ s.server.step K (.enter i) = some server
      ∧ s' = { s with
        server := server
        loginVersions := s.loginVersions.eraseIdx i
        authVersions := s.authVersions.insert l.1 version } := by
  obtain ⟨l, hl, h⟩ := Option.bind_eq_some_iff.1 h
  obtain ⟨version, hv, h⟩ := Option.bind_eq_some_iff.1 h
  obtain ⟨server, hs, h⟩ := Option.bind_eq_some_iff.1 h
  simp only [Option.pure_def, Option.some.injEq] at h
  exact ⟨l, version, server, hl, hv, hs, h.symm⟩

theorem of_step_close {peer : String} (h : s.step K (.close peer) = some s') :
    s.server.step K (.disconnect peer) = some s'.server ∧ s' = { s with
      server := { s.server with auth := s.server.auth.erase peer }
      authVersions := s.authVersions.erase peer } := by
  simp only [step] at h
  split_ifs at h
  obtain ⟨server, hs, h⟩ := Option.bind_eq_some_iff.1 h
  simp only [Option.pure_def, Option.some.injEq] at h
  subst h
  refine ⟨hs, ?_⟩
  cases Server.moves hs with
  | disconnect => rfl

theorem of_step_server {a : Server.Act} (h : s.step K (.server a) = some s') :
    s.server.step K a = some s'.server ∧ s' = { s with server := s'.server }
      ∧ s'.server.auth = s.server.auth ∧ s'.server.logins = s.server.logins := by
  have hserver : ∃ server, s.server.step K a = some server ∧ s' = { s with server := server } := by
    cases a <;> simp only [step, Option.bind_eq_bind, Option.bind_eq_some_iff, Option.pure_def,
      Option.some.injEq, reduceCtorEq] at h <;>
    · obtain ⟨server, hs, rfl⟩ := h
      exact ⟨server, hs, rfl⟩
  obtain ⟨server, hs, rfl⟩ := hserver
  refine ⟨hs, rfl, ?_⟩
  cases Server.moves hs with
  | login | stranger | enter | disconnect => simp [step] at h
  | request | ignore | accept | refuse | query | master => exact ⟨rfl, rfl⟩

/-- A step of the front is a step of the server, or leaves it alone. -/
theorem server_step {a : Act} (h : s.step K a = some s') :
    s'.server = s.server ∨ ∃ b, s.server.step K b = some s'.server := by
  cases a with
  | connect pk =>
    obtain ⟨connected, rfl⟩ := of_step_connect h
    exact .inl rfl
  | hello peer version pk =>
    obtain rfl | ⟨-, rfl⟩ := of_step_hello h
    · exact .inl rfl
    · exact .inl rfl
  | read i =>
    obtain ⟨g, server, -, hs, rfl⟩ := of_step_read h
    exact .inr ⟨_, hs⟩
  | enter i =>
    obtain ⟨l, version, server, -, -, hs, rfl⟩ := of_step_enter h
    exact .inr ⟨_, hs⟩
  | close peer => exact .inr ⟨_, (of_step_close h).1⟩
  | server a => exact .inr ⟨a, (of_step_server h).1⟩

theorem length_step {a : Act} (h : s.step K a = some s')
    (hlen : s.loginVersions.length = s.server.logins.length) :
    s'.loginVersions.length = s'.server.logins.length := by
  cases a with
  | connect pk =>
    obtain ⟨connected, rfl⟩ := of_step_connect h
    exact hlen
  | hello peer version pk =>
    obtain rfl | ⟨-, rfl⟩ := of_step_hello h
    · exact hlen
    · exact hlen
  | read i =>
    obtain ⟨g, server, -, hs, rfl⟩ := of_step_read h
    cases Server.moves hs with
    | login _ hp => simp [hp, hlen]
    | stranger _ hp => simp [hp, hlen]
  | enter i =>
    obtain ⟨l, version, server, hl, hv, hs, rfl⟩ := of_step_enter h
    cases Server.moves hs with
    | enter => simp [List.length_eraseIdx, hlen]
  | close peer =>
    obtain ⟨-, rfl⟩ := of_step_close h
    exact hlen
  | server a =>
    obtain ⟨-, hs', -, hlogins⟩ := of_step_server h
    rw [hs', hlogins]
    exact hlen

/-- The history keeps up: whatever the server can enter, the front can. -/
theorem length_loginVersions {db : Database} {conf : MasterConfig}
    (h : Run.Reaches (step K) (init db conf) s) :
    s.loginVersions.length = s.server.logins.length :=
  Run.reaches_induction (fun _ _ _ hs hlen => length_step hs hlen) h rfl

/-- Every entry is for the key of its connection, and a `Hello` of the right version made it. -/
def Bound (K : Crypto) (s : Session) : Prop :=
  ∀ peer user, s.server.auth.lookup peer = some user →
    user.pubkey.toPeerId K = .ok peer ∧ s.authVersions.lookup peer = some protocolVersion

/-- A key that is read for a `Hello` is the connection's own if it is a user's. -/
def OwnKey (K : Crypto) (s : Session) : Act → Prop
  | .read i => ∀ g ∈ s.greetings[i]?,
    (s.server.tables.permissionsOf g.pk).isSome → validPk K g.peer g.pk
  | _ => True

instance (s : Session) : DecidablePred (OwnKey K s)
  | .read i => inferInstanceAs (Decidable (∀ g ∈ s.greetings[i]?,
    (s.server.tables.permissionsOf g.pk).isSome → validPk K g.peer g.pk))
  | .connect _ | .hello _ _ _ | .enter _ | .close _ | .server _ => isTrue trivial

structure BoundInv (K : Crypto) (s : Session) : Prop where
  greetings : ∀ g ∈ s.greetings, g.pk.toPeerId K = .ok g.peer → g.version = protocolVersion
  logins : ∀ l ∈ s.server.logins, l.2.pubkey.toPeerId K = .ok l.1
  versions : ∀ v ∈ s.loginVersions, v = protocolVersion
  bound : Bound K s

theorem boundInv_step {a : Act} (ha : OwnKey K s a) (h : s.step K a = some s')
    (hi : BoundInv K s) : BoundInv K s' := by
  cases a with
  | connect pk =>
    obtain ⟨connected, rfl⟩ := of_step_connect h
    exact ⟨hi.greetings, hi.logins, hi.versions, hi.bound⟩
  | hello peer version pk =>
    obtain rfl | ⟨hv, rfl⟩ := of_step_hello h
    · exact hi
    · refine ⟨fun g hg hown => ?_, hi.logins, hi.versions, hi.bound⟩
      rcases List.mem_append.1 hg with hg | hg
      · exact hi.greetings g hg hown
      · rw [List.mem_singleton.1 hg] at hown ⊢
        by_contra hne
        exact hv ⟨hne, validPk_iff.2 hown⟩
  | read i =>
    obtain ⟨g, server, hg, hs, rfl⟩ := of_step_read h
    have hgreet := hi.greetings g (List.mem_of_getElem? hg)
    have hrest : ∀ g ∈ s.greetings.eraseIdx i, g.pk.toPeerId K = .ok g.peer →
        g.version = protocolVersion := fun g hg => hi.greetings g (List.mem_of_mem_eraseIdx hg)
    cases Server.moves hs with
    | login _ hp =>
      have hown := validPk_iff.1 (ha g hg (by rw [hp]; rfl))
      refine ⟨hrest, fun l hl => ?_, fun v hv => ?_, hi.bound⟩
      · rcases List.mem_append.1 hl with hl | hl
        · exact hi.logins l hl
        · rw [List.mem_singleton.1 hl]
          exact hown
      · rw [hp, Option.isSome_some, if_pos rfl] at hv
        rcases List.mem_append.1 hv with hv | hv
        · exact hi.versions v hv
        · rw [List.mem_singleton.1 hv]
          exact hgreet hown
    | stranger _ hp =>
      refine ⟨hrest, hi.logins, fun v hv => hi.versions v ?_, hi.bound⟩
      simpa [hp] using hv
  | enter i =>
    obtain ⟨l, version, server, hl, hv, hs, rfl⟩ := of_step_enter h
    cases Server.moves hs with
    | enter hl' =>
      obtain rfl : l = _ := Option.some.inj (hl.symm.trans hl')
      refine ⟨hi.greetings, fun l hl => hi.logins l (List.mem_of_mem_eraseIdx hl),
        fun v hv => hi.versions v (List.mem_of_mem_eraseIdx hv), fun peer user hu => ?_⟩
      rcases eq_or_ne peer l.1 with rfl | hne
      · rw [AList.lookup_insert, Option.some.injEq] at hu
        rw [AList.lookup_insert, hi.versions _ (List.mem_of_getElem? hv), ← hu]
        exact ⟨hi.logins l (List.mem_of_getElem? hl), rfl⟩
      · rw [AList.lookup_insert_ne hne] at hu ⊢
        exact hi.bound peer user hu
  | close peer =>
    obtain ⟨-, rfl⟩ := of_step_close h
    refine ⟨hi.greetings, hi.logins, hi.versions, fun p user hu => ?_⟩
    rcases eq_or_ne p peer with rfl | hne
    · rw [AList.lookup_erase] at hu
      cases hu
    · rw [AList.lookup_erase_ne hne] at hu ⊢
      exact hi.bound p user hu
  | server a =>
    obtain ⟨-, hs', hauth, hlogins⟩ := of_step_server h
    rw [hs']
    refine ⟨hi.greetings, ?_, hi.versions, ?_⟩
    · rw [hlogins]
      exact hi.logins
    · unfold Bound
      rw [hauth]
      exact hi.bound

/-- In a run in which every `Hello` for a user names the connection's own key, a session is for the
key of its connection and was made by a `Hello` of the right version. -/
theorem bound_run {db : Database} {conf : MasterConfig} {as : List Act}
    (hok : Run.Along (step K) (OwnKey K) (init db conf) as)
    (h : Run.run (step K) (init db conf) as = some s) : Bound K s :=
  (Run.run_induction (fun _ _ _ ha hs hi => boundInv_step ha hs hi) hok h
    ⟨by simp [init], by simp [init, Server.init], by simp [init],
      by simp [Bound, init, Server.init]⟩).bound

section Toy

/-- The network after the root user has added the user `toyKey 2`, who may look only. -/
def toyGuest : Database :=
  ((Run.run (Master.step toy) (.init toyGenesis (.default toy))
    (.request (toyBody 0 [.order (.addUser "guest" (toyKey 2) [.monitor])]) :: Master.alone 0)).map
      fun m => m.set.db).getD {}

/-- The peer id of `toyKey b`. -/
def toyPeer (b : UInt8) : String := ((toyKey b).toPeerId toy).toOption.getD ""

/-- The guest connects and says `Hello`, and its session is made. -/
def guestHello (version : UInt64) (pk : PublicKey) : List Act :=
  [.connect (toyKey 2), .hello (toyPeer 2) version pk, .read 0, .enter 0]

theorem bound_run_guest : ∃ s user,
    Run.run (step toy) (init toyGuest (.default toy)) (guestHello protocolVersion (toyKey 2))
      = some s
      ∧ s.server.auth.lookup (toyPeer 2) = some user ∧ Bound toy s := by
  have hrun : (Run.run (step toy) (init toyGuest (.default toy))
      (guestHello protocolVersion (toyKey 2))).any fun s =>
        (s.server.auth.lookup (toyPeer 2)).isSome := by decide +kernel
  obtain ⟨s, hs, hu⟩ := (Option.any_eq_true _ _).1 hrun
  obtain ⟨user, hu⟩ := Option.isSome_iff_exists.1 hu
  exact ⟨s, user, hs, hu, bound_run (by decide +kernel) hs⟩

/-- With a wrong version and the root user's key the guest is the root user. -/
theorem not_bound_run : ¬ ∀ as s,
    Run.run (step toy) (init toyGuest (.default toy)) as = some s → Bound toy s := by
  intro hbound
  have hrun : (Run.run (step toy) (init toyGuest (.default toy)) (guestHello 0 (toyKey 1))).any
      fun s => (s.server.auth.lookup (toyPeer 2)).any fun user =>
        user.pubkey = toyKey 1 ∧ user.permissions = [.root]
          ∧ s.authVersions.lookup (toyPeer 2) = some 0 := by decide +kernel
  obtain ⟨s, hs, hu⟩ := (Option.any_eq_true _ _).1 hrun
  obtain ⟨user, hu, huser⟩ := Run.exists_of_any hu
  have hversion := (hbound _ s hs _ user hu).2
  rw [huser.2.2] at hversion
  exact absurd hversion (by decide)

end Toy

end Session

end Nyumt
