import Nyumt.Serve

/-!
# Connections and greetings

Before a session there is a connection, which the noise layer accepts for the key of an active user,
and a `Hello`, in which the client names a version and a key. The handler compares the version with
its own and the key with the connection's; what it spawns is the task that `Server.Act.hello` and
`Server.Act.enter` are the steps of. `Session` keeps, as a history that no step reads, the version
behind each login and each entry.
-/

namespace Nyumt

/-- The bits of the `f64` 0.01. -/
def protocolVersion : UInt64 := 0x3F847AE147AE147B

/-- A `Hello` that was answered, whose `event_handler` has not read the user yet. -/
structure Greeting where
  peer : String
  version : UInt64
  pk : PublicKey
  deriving DecidableEq

def Tables.userWithPubkeyExists (t : Tables) (pubkey : Bytes) : Bool :=
  1 ≤ t.users.countP fun u => u.publicKey = pubkey ∧ u.active

structure Session where
  server : Server
  /-- The peers that were connected; a request may be handled after its connection has closed. -/
  connected : List String := []
  greetings : List Greeting := []
  loginVersions : List UInt64 := []
  authVersions : AList fun _ : String => UInt64 := ∅

namespace Session

variable (K : Crypto)

inductive Act
  /-- A connection, upgraded by the noise layer; the key is the one it authenticates. -/
  | connect (pk : PublicKey)
  | hello (peer : String) (version : UInt64) (pk : PublicKey)
  /-- `event_handler` reads the user. -/
  | read (i : ℕ)
  | enter (i : ℕ)
  | close (peer : String)
  | server (a : Server.Act)

/-- What the handler of `Hello` computes as `valid_pk`. -/
def validPk (peer : String) (pk : PublicKey) : Bool :=
  match pk.toPeerId K with
  | .ok id => id = peer
  | .error _ => false

def step (s : Session) : Act → Option Session
  | .connect pk =>
    match pk.toPeerId K with
    | .ok peer =>
      if s.server.tables.userWithPubkeyExists pk.bytes then
        some { s with connected := s.connected ++ [peer] }
      else some s
    | .error _ => some s
  | .hello peer version pk =>
    if peer ∈ s.connected then
      if version ≠ protocolVersion ∧ validPk K peer pk then some s
      else some { s with greetings := s.greetings ++ [⟨peer, version, pk⟩] }
    else none
  | .read i => do
    let g ← s.greetings[i]?
    let server ← s.server.step K (.hello g.peer g.pk)
    return { s with
      server := server
      greetings := s.greetings.eraseIdx i
      loginVersions := s.loginVersions
        ++ if (s.server.tables.permissionsOf g.pk).isSome then [g.version] else [] }
  | .enter i => do
    let l ← s.server.logins[i]?
    let version ← s.loginVersions[i]?
    let server ← s.server.step K (.enter i)
    return { s with
      server := server
      loginVersions := s.loginVersions.eraseIdx i
      authVersions := s.authVersions.insert l.1 version }
  | .close peer =>
    if peer ∈ s.connected then do
      let server ← s.server.step K (.disconnect peer)
      return { s with
        server := server
        authVersions := s.authVersions.erase peer }
    else none
  | .server (.hello _ _) | .server (.enter _) | .server (.disconnect _) => none
  | .server a => do
    let server ← s.server.step K a
    return { s with server := server }

def init (db : Database) (conf : MasterConfig) : Session := { server := .init db conf }

end Session

end Nyumt
