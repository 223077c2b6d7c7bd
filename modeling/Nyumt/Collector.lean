import Nyumt.NormalNode
import Nyumt.Peers

/-!
# The report loop

`collector` reports at each tick of its timer what its copy of the node's config asks for, and then
looks whether the config has another hash than the copy. It reads the config twice for that, and
others write it in between.
-/

namespace Nyumt

open Borsh

/-- What the loop has of the config, and the period of its timer in seconds. -/
structure Collecting where
  hash : Digest
  dbStruct : DbStruct
  period : UInt64
  deriving DecidableEq

inductive Collector
  | start
  /-- It waits for its timer, and reports. -/
  | tick (c : Collecting)
  | compare (c : Collecting)
  /-- The hash was another one. -/
  | reload (c : Collecting)
  | panicked
  deriving DecidableEq

namespace Collector

/-- What `time::interval` makes of a period, or `none` where it panics. -/
def interval (period : UInt64) : Option UInt64 := if period = 0 then none else some period

/-- A copy of the config, with the timer. -/
def copy (conf : NodeConfig) : Option UInt64 → Collector
  | some period => .tick ⟨conf.hash, conf.dbStruct, period⟩
  | none => .panicked

/-- The next step, with the config as it is. -/
def step (conf : NodeConfig) : Collector → Option Collector
  | .start => some (copy conf (interval conf.reportTimeframe))
  | .tick c => some (.compare c)
  | .compare c => some (if conf.hash ≠ c.hash then .reload c else .tick c)
  | .reload c =>
    some (copy conf (if conf.reportTimeframe ≠ c.period then interval conf.reportTimeframe
      else some c.period))
  | .panicked => none

/-- The step reads the config. -/
def Reads : Collector → Prop
  | .start | .compare _ | .reload _ => True
  | .tick _ | .panicked => False

instance : DecidablePred Reads
  | .start | .compare _ | .reload _ => isTrue trivial
  | .tick _ | .panicked => isFalse id

/-- The step makes a report, of these values. -/
def report : Collector → Option DbStruct
  | .tick c => some c.dbStruct
  | .start | .compare _ | .reload _ | .panicked => none

end Collector

/-- The config `serve` starts with. -/
def NodeConfig.load (K : Crypto) (localConf : Option Bytes) : NodeConfig :=
  (localConf.bind (fromSlice NodeConfig)).getD (.default K)

/-- A node's config and its collector. `lastRead` is a history that no step reads: the config as the
collector has read it since its last report. -/
structure SharedConf where
  conf : NodeConfig
  collector : Collector := .start
  lastRead : Option NodeConfig := none

namespace SharedConf

variable (K : Crypto)

inductive Act
  /-- The write for an `UpdateConfig`, in the request as it came. -/
  | updateConfig (request : Bytes)
  /-- The write of `async_sync`, with the config as it was answered. -/
  | sync (conf : Bytes)
  | collect

/-- What is written. -/
def Act.conf : Act → Option NodeConfig
  | .updateConfig request =>
    match fromSlice PeerRequest request with
    | some (.updateConfig config) => some config
    | _ => none
  | .sync conf => fromSlice NodeConfig conf
  | .collect => none

def step (s : SharedConf) : Act → Option SharedConf
  | .updateConfig request =>
    (Act.updateConfig request).conf.map fun config => { s with conf := config.update K }
  | .sync conf => (Act.sync conf).conf.map fun config => { s with conf := config.update K }
  | .collect => (s.collector.step s.conf).map fun c => { s with
      collector := c
      lastRead := if s.collector.Reads then some s.conf
        else if s.collector.report.isSome then none else s.lastRead }

def start (localConf : Option Bytes) : SharedConf := { conf := .load K localConf }

/-- What the step reports, if it does. -/
def report (s : SharedConf) : Act → Option DbStruct
  | .collect => s.collector.report
  | .updateConfig _ | .sync _ => none

end SharedConf

/-- A node with its collector, and its master. -/
structure ReportingNode where
  node : NodeSync
  collector : Collector := .start

namespace ReportingNode

variable (K : Crypto) (peer : String)

inductive Act
  /-- `interpret_block` of a block at the master. -/
  | block (b : BodyData)
  /-- The `Hello` of a node is recorded at the master. -/
  | hello (peer : String) (pk : PublicKey)
  /-- Any other step of the master and the node. -/
  | node (a : NodeSync.Act)
  | collect
  /-- The node is started again. -/
  | serve

/-- What is left of a node that is started again. -/
def served (s : NodeSync) : NodeSync :=
  { s with flight := [], sync := .fetch none none, stores := [], conf := .load K s.localConf }

def setMaster (s : ReportingNode) (db : Database) : ReportingNode :=
  { s with node := { s.node with master := { s.node.master with db := db } } }

def step (s : ReportingNode) : Act → Option ReportingNode
  | .block b => (s.node.step K peer (.commit b.req)).map fun n => { s with node := n }
  | .hello p pk => some (s.setMaster (s.node.master.db.updatePeerid pk.bytes p))
  | .node (.commit _) => none
  | .node a => (s.node.step K peer a).map fun n => { s with node := n }
  | .collect => (s.collector.step s.node.conf).map fun c => { s with collector := c }
  | .serve => some ⟨served K s.node, .start⟩

/-- A new node of a new network. -/
def start (db : Database) (pubkey : PublicKey) : ReportingNode where
  node :=
    { master := { db, pubkey, confName := "default", conf := ⟨.default K, .default K⟩ }
      conf := .load K none }

end ReportingNode

end Nyumt
