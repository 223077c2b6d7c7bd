import Nyumt.Links
import Nyumt.Proofs.Session

/-!
# When sessions end with connections

`event_handler` makes a session after its `Hello` was answered, whether or not the connection is
still there, and the close of one connection ends a session that others of the peer still use. Where
neither happens, every session has a connection and every greeted connection a session
(`ends_run`).
-/

namespace Nyumt

namespace Links

variable {K : Crypto} {s s' : Links}

theorem of_step {a : Act} (h : s.step K a = some s') : Moves K s a s' := by
  cases a with
  | connect pk =>
    obtain ⟨session, hs, h⟩ := Option.bind_eq_some_iff.1 h
    obtain ⟨connected, rfl⟩ := Session.of_step_connect hs
    simp only [Option.pure_def, Option.some.injEq] at h
    exact h ▸ .connect connected _
  | hello i version pk =>
    obtain ⟨c, hc, h⟩ := Option.bind_eq_some_iff.1 h
    obtain ⟨session, hs, h⟩ := Option.bind_eq_some_iff.1 h
    simp only [Option.pure_def, Option.some.injEq] at h
    simp only [Session.step] at hs
    split_ifs at hs h with hconn hv <;> simp only [Option.some.injEq] at hs <;> subst hs h
    · exact .refuse i version pk
    · exact .greet version pk hc
  | close i =>
    obtain ⟨c, hc, h⟩ := Option.bind_eq_some_iff.1 h
    split_ifs at h with hopen
    obtain ⟨session, hs, h⟩ := Option.bind_eq_some_iff.1 h
    simp only [Option.pure_def, Option.some.injEq] at h
    exact h ▸ .close hc hopen hs
  | session a =>
    cases a with
    | connect | hello | close => simp [step] at h
    | read | enter | server =>
      obtain ⟨session, hs, h⟩ := Option.bind_eq_some_iff.1 h
      simp only [Option.pure_def, Option.some.injEq] at h
      subst h
      first | exact .read hs | exact .enter hs | exact .server hs

def Linked (conns : List Conn) (peer : String) : Prop := ∃ c ∈ conns, c.peer = peer ∧ c.isOpen

/-- A `Hello` was accepted on an open connection of the peer. -/
def Greeted (conns : List Conn) (peer : String) : Prop :=
  ∃ c ∈ conns, c.peer = peer ∧ c.isOpen ∧ c.greeted

/-- A handler for the peer is before its insertion. -/
def Pending (greetings : List Greeting) (logins : List (String × User)) (peer : String) : Prop :=
  (∃ g ∈ greetings, g.peer = peer) ∨ ∃ l ∈ logins, l.1 = peer

/-- Where no handler is before its insertion, the peers with a session have an open connection, and
those that were greeted on an open connection have a session. -/
def EndsWith (s : Links) : Prop :=
  s.session.greetings = [] → s.session.server.logins = [] → ∀ peer,
    (peer ∈ s.session.server.auth → Linked s.conns peer)
      ∧ (Greeted s.conns peer → peer ∈ s.session.server.auth)

/-- A session is made while its peer is connected. A connection closes when its peer was greeted on
no other, or a handler will make the session again. The user of a `Hello` is found, unless its peer
has no connection left on which it was greeted, or has a session or another handler for one. -/
def Kept (s : Links) : Act → Prop
  | .close i => ∀ c ∈ s.conns[i]?, Greeted (s.conns.eraseIdx i) c.peer →
    Pending s.session.greetings s.session.server.logins c.peer
  | .session (.enter i) => ∀ l ∈ s.session.server.logins[i]?, Linked s.conns l.1
  | .session (.read i) => ∀ g ∈ s.session.greetings[i]?,
    s.session.server.tables.permissionsOf g.pk = none → Greeted s.conns g.peer →
      g.peer ∈ s.session.server.auth
        ∨ Pending (s.session.greetings.eraseIdx i) s.session.server.logins g.peer
  | _ => True

instance (conns : List Conn) (peer : String) : Decidable (Linked conns peer) :=
  inferInstanceAs (Decidable (∃ c ∈ conns, _))

instance (conns : List Conn) (peer : String) : Decidable (Greeted conns peer) :=
  inferInstanceAs (Decidable (∃ c ∈ conns, _))

instance (greetings : List Greeting) (logins : List (String × User)) (peer : String) :
    Decidable (Pending greetings logins peer) :=
  inferInstanceAs (Decidable ((∃ g ∈ greetings, _) ∨ ∃ l ∈ logins, l.1 = peer))

instance (s : Links) : DecidablePred s.Kept
  | .close _ | .session (.enter _) | .session (.read _) => by unfold Kept; infer_instance
  | .connect _ | .hello _ _ _ | .session (.connect _) | .session (.hello _ _ _)
  | .session (.close _) | .session (.server _) => isTrue trivial

structure Inv (s : Links) : Prop where
  linked : ∀ peer ∈ s.session.server.auth, Linked s.conns peer
  greeted : ∀ peer, Greeted s.conns peer → peer ∈ s.session.server.auth
    ∨ Pending s.session.greetings s.session.server.logins peer

theorem Inv.endsWith (hi : Inv s) : s.EndsWith := by
  refine fun hg hl peer => ⟨hi.linked peer, fun h => (hi.greeted peer h).resolve_right ?_⟩
  simp [Pending, hg, hl]

section Lists

variable {conns : List Conn} {c c' : Conn} {i : ℕ} {peer : String} {greetings : List Greeting}
  {logins : List (String × User)}

theorem linked_iff (hc : conns[i]? = some c) :
    Linked conns peer ↔ (c.peer = peer ∧ c.isOpen) ∨ Linked (conns.eraseIdx i) peer := by
  simp only [Linked, Table.mem_iff_eraseIdx hc, or_and_right, exists_or, exists_eq_left]

theorem linked_set (hc : conns[i]? = some c) : Linked (conns.set i c') peer
    ↔ (c'.peer = peer ∧ c'.isOpen) ∨ Linked (conns.eraseIdx i) peer := by
  simp only [Linked, Table.mem_set_iff_eraseIdx (List.getElem?_eq_some_iff.1 hc).1, or_and_right,
    exists_or, exists_eq_left]

theorem greeted_iff (hc : conns[i]? = some c) : Greeted conns peer
    ↔ (c.peer = peer ∧ c.isOpen ∧ c.greeted) ∨ Greeted (conns.eraseIdx i) peer := by
  simp only [Greeted, Table.mem_iff_eraseIdx hc, or_and_right, exists_or, exists_eq_left]

theorem greeted_set (hc : conns[i]? = some c) : Greeted (conns.set i c') peer
    ↔ (c'.peer = peer ∧ c'.isOpen ∧ c'.greeted) ∨ Greeted (conns.eraseIdx i) peer := by
  simp only [Greeted, Table.mem_set_iff_eraseIdx (List.getElem?_eq_some_iff.1 hc).1, or_and_right,
    exists_or, exists_eq_left]

/-- A handler that has begun is before its insertion, and the others stay where they are. -/
theorem pending_iff_greeting {g : Greeting} (hg : greetings[i]? = some g) :
    Pending greetings logins peer
      ↔ g.peer = peer ∨ Pending (greetings.eraseIdx i) logins peer := by
  simp only [Pending, Table.mem_iff_eraseIdx hg, or_and_right, exists_or, exists_eq_left, or_assoc]

theorem pending_iff_login {l : String × User} (hl : logins[i]? = some l) :
    Pending greetings logins peer ↔ l.1 = peer ∨ Pending greetings (logins.eraseIdx i) peer := by
  simp only [Pending, Table.mem_iff_eraseIdx hl, or_and_right, exists_or, exists_eq_left]
  exact or_left_comm

end Lists

theorem Inv.close (hi : Inv s) {i : ℕ} {c : Conn} {session : Session}
    (hc : s.conns[i]? = some c) (hs : s.session.step K (.close c.peer) = some session)
    (hok : Greeted (s.conns.eraseIdx i) c.peer →
      Pending s.session.greetings s.session.server.logins c.peer) :
    Inv ⟨session, s.conns.set i { c with isOpen := false }⟩ := by
  obtain ⟨-, rfl⟩ := Session.of_step_close hs
  refine ⟨fun peer h => ?_, fun peer h => ?_⟩
  · obtain ⟨hne, h⟩ := AList.mem_erase.1 h
    rcases (linked_iff hc).1 (hi.linked peer h) with ⟨rfl, -⟩ | h
    · exact absurd rfl hne
    · exact (linked_set hc).2 (.inr h)
  · have hrest : Greeted (s.conns.eraseIdx i) peer := by simpa using (greeted_set hc).1 h
    by_cases hp : peer = c.peer
    · subst hp
      exact .inr (hok hrest)
    · exact (hi.greeted peer ((greeted_iff hc).2 (.inr hrest))).imp_left fun h =>
        AList.mem_erase.2 ⟨hp, h⟩

theorem Inv.read (hi : Inv s) {i : ℕ} {session : Session}
    (hs : s.session.step K (.read i) = some session) (hok : s.Kept (.session (.read i))) :
    Inv { s with session := session } := by
  obtain ⟨g, server, hg, hserver, rfl⟩ := Session.of_step_read hs
  cases Server.moves hserver with
  | login _ hp =>
    refine ⟨hi.linked, fun peer h => (hi.greeted peer h).imp_right fun h => ?_⟩
    rcases (pending_iff_greeting hg).1 h with rfl | h
    · exact .inr ⟨_, List.mem_append_right _ (List.mem_singleton.2 rfl), rfl⟩
    · exact h.imp_right fun ⟨l, hl, h⟩ => ⟨l, List.mem_append_left _ hl, h⟩
  | stranger _ hp =>
    refine ⟨hi.linked, fun peer h => ?_⟩
    rcases hi.greeted peer h with hm | hpend
    · exact .inl hm
    · rcases (pending_iff_greeting hg).1 hpend with rfl | hpend
      · exact hok g hg hp h
      · exact .inr hpend

theorem Inv.enter (hi : Inv s) {i : ℕ} {session : Session}
    (hs : s.session.step K (.enter i) = some session) (hok : s.Kept (.session (.enter i))) :
    Inv { s with session := session } := by
  obtain ⟨l, version, server, hl, -, hserver, rfl⟩ := Session.of_step_enter hs
  cases Server.moves hserver with
  | enter hl' =>
    obtain rfl : l = _ := Option.some.inj (hl.symm.trans hl')
    refine ⟨fun peer h => ?_, fun peer h => ?_⟩
    · rcases (AList.mem_insert _).1 h with rfl | h
      · exact hok l hl
      · exact hi.linked peer h
    · rcases hi.greeted peer h with h | h
      · exact .inl ((AList.mem_insert _).2 (.inr h))
      · rcases (pending_iff_login hl).1 h with rfl | h
        · exact .inl ((AList.mem_insert _).2 (.inl rfl))
        · exact .inr h

theorem Inv.step {a : Act} (hok : s.Kept a) (hs : s.step K a = some s') (hi : Inv s) : Inv s' := by
  cases of_step hs with
  | connect connected peers =>
    refine ⟨fun peer h => ?_, fun peer h => ?_⟩
    · obtain ⟨c, hc, h⟩ := hi.linked peer h
      exact ⟨c, List.mem_append_left _ hc, h⟩
    · obtain ⟨c, hc, hp, ho, hg⟩ := h
      rcases List.mem_append.1 hc with hc | hc
      · exact hi.greeted peer ⟨c, hc, hp, ho, hg⟩
      · obtain ⟨p, -, rfl⟩ := List.mem_map.1 hc
        simp at hg
  | refuse => exact hi
  | greet version pk hc =>
    refine ⟨fun peer h => ?_, fun peer h => ?_⟩
    · exact (linked_set hc).2 ((linked_iff hc).1 (hi.linked peer h))
    · rcases (greeted_set hc).1 h with ⟨rfl, -⟩ | h
      · exact .inr (.inl ⟨_, List.mem_append_right _ (List.mem_singleton.2 rfl), rfl⟩)
      · refine (hi.greeted peer ((greeted_iff hc).2 (.inr h))).imp_right (.imp_left ?_)
        exact fun ⟨g, hg, h⟩ => ⟨g, List.mem_append_left _ hg, h⟩
  | close hc _ hsession => exact hi.close hc hsession (hok _ hc)
  | read hsession => exact hi.read hsession hok
  | enter hsession => exact hi.enter hsession hok
  | server hsession =>
    obtain ⟨-, hs', hauth, hlogins⟩ := Session.of_step_server hsession
    rw [hs']
    constructor
    · rw [hauth]
      exact hi.linked
    · rw [hauth, hlogins]
      exact hi.greeted

/-- In a run in which every session is made and kept as `Kept` says, sessions end with
connections. -/
theorem ends_run {db : Database} {conf : MasterConfig} {as : List Act}
    (hok : Run.Along (step K) Kept (init db conf) as) :
    Run.Throughout (step K) EndsWith (init db conf) as := by
  refine (Run.throughout_induction (I := Inv) (fun s a s' hok hs hi => hi.step hok hs) hok
    ⟨?_, ?_⟩).mono fun s hi => hi.endsWith
  · simp [init, Session.init, Server.init]
  · simp [init, Greeted]

section Toy

/-- The guest connects and says `Hello` on its connection, and its session is made. -/
def guestSession : List Act :=
  [.connect (toyKey 2), .hello 0 protocolVersion (toyKey 2), .session (.read 0),
    .session (.enter 0)]

theorem ends_run_guest : Run.Throughout (step toy) EndsWith (init Session.toyGuest (.default toy))
    (guestSession ++ [.close 0]) :=
  ends_run (by decide +kernel)

/-- A second connection of the guest is closed: the first has a session no more. Or its only
connection is closed before the session is made: the session stays. -/
theorem not_ends_run :
    (∃ s, Run.run (step toy) (init Session.toyGuest (.default toy))
        (guestSession ++ [.connect (toyKey 2), .close 1]) = some s ∧ ¬ s.EndsWith)
      ∧ ∃ s, Run.run (step toy) (init Session.toyGuest (.default toy))
        [.connect (toyKey 2), .hello 0 protocolVersion (toyKey 2), .session (.read 0), .close 0,
          .session (.enter 0)] = some s ∧ ¬ s.EndsWith := by
  have hclose : (Run.run (step toy) (init Session.toyGuest (.default toy))
      (guestSession ++ [.connect (toyKey 2), .close 1])).any fun s =>
        s.session.greetings = [] ∧ s.session.server.logins.length = 0
          ∧ Greeted s.conns (Session.toyPeer 2)
          ∧ Session.toyPeer 2 ∉ s.session.server.auth := by decide +kernel
  have hlate : (Run.run (step toy) (init Session.toyGuest (.default toy))
      [.connect (toyKey 2), .hello 0 protocolVersion (toyKey 2), .session (.read 0), .close 0,
        .session (.enter 0)]).any fun s =>
        s.session.greetings = [] ∧ s.session.server.logins.length = 0
          ∧ ¬ Linked s.conns (Session.toyPeer 2)
          ∧ Session.toyPeer 2 ∈ s.session.server.auth := by decide +kernel
  constructor
  · obtain ⟨s, hs, hg, hl, hgreet, hauth⟩ := Run.exists_of_any hclose
    exact ⟨s, hs, fun hends =>
      hauth ((hends hg (List.length_eq_zero_iff.1 hl) _).2 hgreet)⟩
  · obtain ⟨s, hs, hg, hl, hlink, hauth⟩ := Run.exists_of_any hlate
    exact ⟨s, hs, fun hends =>
      hlink ((hends hg (List.length_eq_zero_iff.1 hl) _).1 hauth)⟩

end Toy

end Links

end Nyumt
