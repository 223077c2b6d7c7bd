import Nyumt.Session

/-!
# Connections and sessions

A peer may have several connections, and a session is the peer's and not the connection's: a `Hello`
through any of them makes it, and the close of any of them ends it. `Links` keeps, beside the
sessions, which connections are open and on which of them a `Hello` was accepted.
-/

namespace Nyumt

structure Conn where
  peer : String
  isOpen : Bool := true
  /-- A `Hello` on it was accepted. -/
  greeted : Bool := false
  deriving DecidableEq

structure Links where
  session : Session
  conns : List Conn := []

namespace Links

variable (K : Crypto)

inductive Act
  | connect (pk : PublicKey)
  /-- A `Hello` that came through the connection. -/
  | hello (i : ℕ) (version : UInt64) (pk : PublicKey)
  /-- `ConnectionClosed`. -/
  | close (i : ℕ)
  | session (a : Session.Act)

def step (s : Links) : Act → Option Links
  | .connect pk => do
    let session ← s.session.step K (.connect pk)
    let peers := session.connected.drop s.session.connected.length
    return { s with
      session := session
      conns := s.conns ++ peers.map fun peer => { peer := peer } }
  | .hello i version pk => do
    let c ← s.conns[i]?
    let session ← s.session.step K (.hello c.peer version pk)
    return { s with
      session := session
      conns := if version ≠ protocolVersion ∧ Session.validPk K c.peer pk then s.conns
        else s.conns.set i { c with greeted := true } }
  | .close i => do
    let c ← s.conns[i]?
    if c.isOpen then
      let session ← s.session.step K (.close c.peer)
      return { s with session := session, conns := s.conns.set i { c with isOpen := false } }
    else none
  | .session (.connect _) | .session (.hello _ _ _) | .session (.close _) => none
  | .session a => do
    let session ← s.session.step K a
    return { s with session := session }

def init (db : Database) (conf : MasterConfig) : Links := { session := .init db conf }

/-- What an action does to the state. -/
inductive Moves (s : Links) : Act → Links → Prop
  | connect {pk : PublicKey} (connected : List String) (peers : List String) :
      Moves s (.connect pk) {
        session := { s.session with connected := connected }
        conns := s.conns ++ peers.map fun peer => { peer := peer } }
  | refuse (i : ℕ) (version : UInt64) (pk : PublicKey) : Moves s (.hello i version pk) s
  | greet {i : ℕ} {c : Conn} (version : UInt64) (pk : PublicKey) (hc : s.conns[i]? = some c) :
      Moves s (.hello i version pk) {
        session := { s.session with greetings := s.session.greetings ++ [⟨c.peer, version, pk⟩] }
        conns := s.conns.set i { c with greeted := true } }
  | close {i : ℕ} {c : Conn} {session : Session} (hc : s.conns[i]? = some c) (hopen : c.isOpen)
      (hs : s.session.step K (.close c.peer) = some session) :
      Moves s (.close i) ⟨session, s.conns.set i { c with isOpen := false }⟩
  | read {i : ℕ} {session : Session} (hs : s.session.step K (.read i) = some session) :
      Moves s (.session (.read i)) { s with session := session }
  | enter {i : ℕ} {session : Session} (hs : s.session.step K (.enter i) = some session) :
      Moves s (.session (.enter i)) { s with session := session }
  | server {a : Server.Act} {session : Session} (hs : s.session.step K (.server a) = some session) :
      Moves s (.session (.server a)) { s with session := session }

end Links

end Nyumt
