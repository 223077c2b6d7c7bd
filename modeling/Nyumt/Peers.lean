import Nyumt.Master
import Nyumt.Messages
import Nyumt.Session

/-!
# Connections from nodes

What a master does for the nodes that connect to it: a `Hello` records the peer id of the connection
for the node whose key the `Hello` names, and a report is stored for the node that is recorded under
the peer id it comes from. Each handler is a task of its own between two queries, beside the steps
of the master. The contents of a report are not looked at but for the timestamp.
-/

namespace Nyumt

open Borsh

namespace Database

variable (db : Database)

/-- `select id from node where public_key = ?`. -/
def getNodeId (pk : Bytes) : Option ℕ := (db.node.find? fun n => n.publicKey = pk).map NodeRow.id

/-- Without a node of the key the row is inserted with a `null`, which conflicts with nothing. -/
def updatePeerid (pk : Bytes) (peerid : String) : Database :=
  match db.getNodeId pk with
  | some id =>
    let edit (r : NodePeeridRow) : NodePeeridRow := { r with peerid := peerid }
    { db with
      nodePeerid := Table.upsert NodePeeridRow.node ⟨some id, peerid⟩ edit db.nodePeerid }
  | none => { db with nodePeerid := db.nodePeerid ++ [⟨none, peerid⟩] }

def getPeerPk (peerid : String) : Option Bytes :=
  (db.node.find? fun n => some n.id = db.nodeOfPeer peerid).map NodeRow.publicKey

/-- The row of a report from the node with this key. -/
def statsRow (pk : Bytes) (report : NodeReport) (timestamp : UInt64) : StatsRow :=
  ⟨timestamp.toInt64.toInt, db.getNodeId pk, report.report, report.sig⟩

/-- A report of a node and a time that are there already is not stored; a `null` is never there. -/
def storeStats (row : StatsRow) : Database :=
  if row.node ≠ none ∧ ∃ r ∈ db.stats, r.timestamp = row.timestamp ∧ r.node = row.node then db
  else { db with stats := db.stats ++ [row] }

end Database

/-- A report that is being handled; `pk` is the key that was found for its peer. -/
structure Reporting where
  peer : String
  report : NodeReport
  timestamp : UInt64
  pk : Option Bytes := none

structure Peers where
  master : Master
  /-- The peers that were connected; a request may be handled after its connection has closed. -/
  connected : List String := []
  /-- The `Hello`s of the right version whose key has not been recorded yet. -/
  hellos : List (String × PublicKey) := []
  reports : List Reporting := []

namespace Peers

variable (K : Crypto)

inductive Act
  /-- A connection, upgraded by the noise layer; the key is the one it authenticates. -/
  | connect (pk : PublicKey)
  | hello (peer : String) (version : UInt64) (pk : PublicKey)
  /-- `update_peerid` for a `Hello`. -/
  | update (i : ℕ)
  /-- A report that can be decoded, and the timestamp in it. -/
  | report (peer : String) (report : NodeReport) (timestamp : UInt64)
  /-- The next query for a report. -/
  | store (i : ℕ)
  | master (a : Master.Act)

def db (s : Peers) : Database := s.master.set.db

def setDb (s : Peers) (db : Database) : Peers :=
  { s with master := { s.master with set := { s.master.set with db := db } } }

def step (s : Peers) : Act → Option Peers
  | .connect pk =>
    match pk.toPeerId K, s.db.getNodeId pk.bytes with
    | .ok peer, some _ => some { s with connected := s.connected ++ [peer] }
    | _, _ => some s
  | .hello peer version pk =>
    if peer ∈ s.connected then
      some (if version ≠ protocolVersion then s else { s with hellos := s.hellos ++ [(peer, pk)] })
    else none
  | .update i => do
    let h ← s.hellos[i]?
    return { s.setDb (s.db.updatePeerid h.2.bytes h.1) with hellos := s.hellos.eraseIdx i }
  | .report peer report timestamp =>
    if peer ∈ s.connected then
      some { s with reports := s.reports ++ [⟨peer, report, timestamp, none⟩] }
    else none
  | .store i => do
    let r ← s.reports[i]?
    match r.pk with
    | none =>
      match s.db.getPeerPk r.peer with
      | some pk => return { s with reports := s.reports.set i { r with pk := some pk } }
      | none => return { s with reports := s.reports.eraseIdx i }
    | some pk =>
      return { s.setDb (s.db.storeStats (s.db.statsRow pk r.report r.timestamp)) with
        reports := s.reports.eraseIdx i }
  | .master a => do
    let m ← s.master.step K a
    return { s with master := m }

def init (db : Database) (conf : MasterConfig) : Peers := { master := .init db conf }

/-- What the actions come to. -/
inductive Moves (s : Peers) : Act → Peers → Prop
  | connect {pk : PublicKey} {peer : String} (hpk : pk.toPeerId K = .ok peer) :
      Moves s (.connect pk) { s with connected := s.connected ++ [peer] }
  | refused (pk : PublicKey) : Moves s (.connect pk) s
  | hello {peer : String} (pk : PublicKey) (hpeer : peer ∈ s.connected) :
      Moves s (.hello peer protocolVersion pk) { s with hellos := s.hellos ++ [(peer, pk)] }
  | version {peer : String} {version : UInt64} (pk : PublicKey) (h : version ≠ protocolVersion) :
      Moves s (.hello peer version pk) s
  | update {i : ℕ} {peer : String} {pk : PublicKey} (hget : s.hellos[i]? = some (peer, pk)) :
      Moves s (.update i) { s.setDb (s.db.updatePeerid pk.bytes peer) with
        hellos := s.hellos.eraseIdx i }
  | report {peer : String} (report : NodeReport) (timestamp : UInt64) (hpeer : peer ∈ s.connected) :
      Moves s (.report peer report timestamp)
        { s with reports := s.reports ++ [⟨peer, report, timestamp, none⟩] }
  | found {i : ℕ} {r : Reporting} {pk : Bytes} (hget : s.reports[i]? = some r) (hnone : r.pk = none)
      (hpk : s.db.getPeerPk r.peer = some pk) :
      Moves s (.store i) { s with reports := s.reports.set i { r with pk := some pk } }
  | unknown {i : ℕ} {r : Reporting} (hget : s.reports[i]? = some r) (hnone : r.pk = none)
      (hpk : s.db.getPeerPk r.peer = none) :
      Moves s (.store i) { s with reports := s.reports.eraseIdx i }
  | store {i : ℕ} {r : Reporting} {pk : Bytes} (hget : s.reports[i]? = some r)
      (hpk : r.pk = some pk) :
      Moves s (.store i) { s.setDb (s.db.storeStats (s.db.statsRow pk r.report r.timestamp)) with
        reports := s.reports.eraseIdx i }
  | master {a : Master.Act} {m : Master} (hm : s.master.step K a = some m) :
      Moves s (.master a) { s with master := m }

variable {K}

theorem of_step {s s' : Peers} {a : Act} (hs : s.step K a = some s') : Moves K s a s' := by
  cases a with
  | connect pk =>
    simp only [step] at hs
    split at hs <;> obtain rfl := Option.some.inj hs
    · rename_i hpk _
      exact .connect hpk
    · exact .refused pk
  | hello peer version pk =>
    simp only [step] at hs
    split_ifs at hs with hpeer hversion <;> obtain rfl := Option.some.inj hs
    · exact .version pk hversion
    · obtain rfl := not_not.1 hversion
      exact .hello pk hpeer
  | update i =>
    obtain ⟨⟨peer, pk⟩, hget, hs⟩ := Option.bind_eq_some_iff.1 hs
    obtain rfl := Option.some.inj hs
    exact .update hget
  | report peer report timestamp =>
    simp only [step] at hs
    split_ifs at hs with hpeer
    obtain rfl := Option.some.inj hs
    exact .report report timestamp hpeer
  | store i =>
    obtain ⟨r, hget, hs⟩ := Option.bind_eq_some_iff.1 hs
    split at hs
    · rename_i hnone
      split at hs
      · rename_i pk hpk
        obtain rfl := Option.some.inj hs
        exact .found hget hnone hpk
      · rename_i hpk
        obtain rfl := Option.some.inj hs
        exact .unknown hget hnone hpk
    · rename_i pk hpk
      obtain rfl := Option.some.inj hs
      exact .store hget hpk
  | master a =>
    obtain ⟨m, hm, hs⟩ := Option.bind_eq_some_iff.1 hs
    obtain rfl := Option.some.inj hs
    exact .master hm

end Peers

end Nyumt
