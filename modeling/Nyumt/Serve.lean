import Mathlib.Data.List.AList
import Nyumt.Master
import Nyumt.Validate

/-!
# Serving clients

The client side of a master (`master_serve`). A `Hello` makes a session with the permissions then in
the user's row; a request is verified, query by query, with the permissions of the session, and if
nothing is against it its block goes to `sync`. All this runs beside the master's own tasks.
-/

namespace Nyumt

open Borsh

structure User where
  pubkey : PublicKey
  permissions : Permissions

/-- A request that `verify_req` is working on. -/
structure Checking where
  user : User
  req : List RequestType
  sign : Bytes
  check : Check

/-- The block of a request that nothing was found against. -/
def Checking.block (c : Checking) (timestamp : UInt64) : BodyData :=
  ⟨c.req, c.sign, c.user.pubkey, timestamp⟩

structure Server where
  master : Master
  /-- The sessions, by the peer id of the client. -/
  auth : AList fun _ : String => User := ∅
  /-- Users that were read and are about to be sessions. -/
  logins : List (String × User) := []
  checks : List Checking := []

namespace Server

variable (K : Crypto)

inductive Act
  /-- `event_handler` reads the user; the key is the one the client names. -/
  | hello (peer : String) (pk : PublicKey)
  | enter (i : ℕ)
  | disconnect (peer : String)
  | request (peer : String) (req : List RequestType) (sign : Bytes)
  /-- The next query of a check, or its end. -/
  | check (i : ℕ) (timestamp : UInt64)
  | master (a : Master.Act)

def tables (s : Server) : Tables := s.master.set.db.toTables

def step (s : Server) : Act → Option Server
  | .hello peer pk =>
    match s.tables.permissionsOf pk with
    | some perms => some { s with logins := s.logins ++ [(peer, ⟨pk, perms⟩)] }
    | none => some s
  | .enter i => do
    let l ← s.logins[i]?
    return { s with auth := s.auth.insert l.1 l.2, logins := s.logins.eraseIdx i }
  | .disconnect peer => some { s with auth := s.auth.erase peer }
  | .request peer req sign =>
    match s.auth.lookup peer, toVec req with
    | some user, some v =>
      some { s with checks := s.checks ++ [⟨user, req, sign, .start K v req user.pubkey sign⟩] }
    | _, _ => some s
  | .check i timestamp => do
    let c ← s.checks[i]?
    match c.check with
    | .done (.ok none) =>
      let m ← s.master.step K (.request (c.block timestamp))
      return { s with master := m, checks := s.checks.eraseIdx i }
    | .done _ => return { s with checks := s.checks.eraseIdx i }
    | check =>
      let c := { c with check := check.step s.tables c.user.pubkey c.user.permissions }
      return { s with checks := s.checks.set i c }
  | .master (.request _) => none -- a block comes to `sync` from a check only
  | .master a => do
    let m ← s.master.step K a
    return { s with master := m }

/-- The client side where there is no other master. -/
def Act.Single : Act → Prop
  | .master a => a.Single
  | _ => True

instance : DecidablePred Act.Single
  | .master a => inferInstanceAs (Decidable a.Single)
  | .hello _ _ | .enter _ | .disconnect _ | .request _ _ _ | .check _ _ => isTrue trivial

/-- The block an action passes to `interpret_block`. -/
def interprets (s : Server) : Act → Option BodyData
  | .master (.task i _) => do
    let t ← s.master.tasks[i]?
    match t.pc with
    | .interpret _ => some t.body
    | _ => none
  | _ => none

def init (db : Database) (conf : MasterConfig) : Server := { master := .init db conf }

/-- What an action does to the state. -/
inductive Moves (s : Server) : Act → Server → Prop
  | login {pk : PublicKey} {perms : Permissions} (peer : String)
      (hp : s.tables.permissionsOf pk = some perms) :
      Moves s (.hello peer pk) { s with logins := s.logins ++ [(peer, ⟨pk, perms⟩)] }
  | stranger {pk : PublicKey} (peer : String) (hp : s.tables.permissionsOf pk = none) :
      Moves s (.hello peer pk) s
  | enter {i : ℕ} {l : String × User} (hl : s.logins[i]? = some l) :
      Moves s (.enter i) { s with auth := s.auth.insert l.1 l.2, logins := s.logins.eraseIdx i }
  | disconnect (peer : String) : Moves s (.disconnect peer) { s with auth := s.auth.erase peer }
  | request {peer : String} {user : User} {req : List RequestType} {v : Bytes} (sign : Bytes)
      (hu : s.auth.lookup peer = some user) (hv : toVec req = some v) :
      Moves s (.request peer req sign) { s with
        checks := s.checks ++ [⟨user, req, sign, .start K v req user.pubkey sign⟩] }
  | ignore (peer : String) (req : List RequestType) (sign : Bytes) :
      Moves s (.request peer req sign) s
  | accept {i : ℕ} {c : Checking} (timestamp : UInt64) (hc : s.checks[i]? = some c)
      (hd : c.check = .done (.ok none)) : Moves s (.check i timestamp) { s with
        master := { s.master with tasks := s.master.tasks ++ [{ body := c.block timestamp }] }
        checks := s.checks.eraseIdx i }
  | refuse {i : ℕ} (timestamp : UInt64) :
      Moves s (.check i timestamp) { s with checks := s.checks.eraseIdx i }
  | query {i : ℕ} {c : Checking} (timestamp : UInt64) (hc : s.checks[i]? = some c) :
      Moves s (.check i timestamp) { s with
        checks := s.checks.set i
          { c with check := c.check.step s.tables c.user.pubkey c.user.permissions } }
  | master {a : Master.Act} {m : Master} (hm : s.master.step K a = some m) :
      Moves s (.master a) { s with master := m }

theorem moves {K : Crypto} {s s' : Server} {a : Act} (h : s.step K a = some s') :
    Moves K s a s' := by
  cases a
  case hello peer pk =>
    simp only [step] at h
    split at h <;> simp only [Option.some.injEq] at h <;> subst h
    · exact .login peer ‹_›
    · exact .stranger peer ‹_›
  case enter i =>
    obtain ⟨l, hl, h⟩ := Option.bind_eq_some_iff.1 h
    simp only [Option.pure_def, Option.some.injEq] at h
    exact h ▸ .enter hl
  case disconnect peer =>
    simp only [step, Option.some.injEq] at h
    exact h ▸ .disconnect peer
  case request peer req sign =>
    simp only [step] at h
    split at h <;> simp only [Option.some.injEq] at h <;> subst h
    · exact .request sign ‹_› ‹_›
    · exact .ignore peer req sign
  case check i timestamp =>
    obtain ⟨c, hc, h⟩ := Option.bind_eq_some_iff.1 h
    split at h <;> simp only [Master.step, Option.bind_eq_bind, Option.bind_some, Option.pure_def,
      Option.some.injEq] at h <;> subst h
    · exact .accept timestamp hc ‹_›
    · exact .refuse timestamp
    · exact .query timestamp hc
  case master a =>
    cases a
    case request => simp [step] at h
    all_goals
      simp only [step, Option.bind_eq_bind, Option.bind_eq_some_iff, Option.pure_def,
        Option.some.injEq] at h
      obtain ⟨m, hm, rfl⟩ := h
      exact .master hm

end Server

/-- `verify_req` accepts the block with the permissions stored for its signer. -/
def Admitted (K : Crypto) (t : Tables) (b : BodyData) : Prop :=
  ((t.permissionsOf b.userPk).bind fun perms => servingVerify K t b.req b.userPk perms b.sign)
    = some (.ok none)

instance (K : Crypto) (t : Tables) (b : BodyData) : Decidable (Admitted K t b) := by
  unfold Admitted
  infer_instance

end Nyumt
