import Nyumt.Updates

/-!
# A master's own config

`conf` and `conf_name` are two locks. `serve` fills them from the tables; after that only
`send_update` writes them, in the task of a block that was committed, and between two steps of a
task any other one may take its own. A task that finds nobody filed does not call `send_update`.
-/

namespace Nyumt

open Borsh

/-- `select name, master_conf, node_conf from config where name = (select conf from node where
public_key = ?1)`. -/
def Database.loadLocalMasterNodeConf (db : Database) (publicKey : Bytes) : Option ConfigRow :=
  (db.node.find? fun n => n.publicKey = publicKey).bind fun n => db.getNodeConf n.conf

/-- Where a task is that has committed a block, with the updates it has still to go through. -/
inductive Refreshing
  /-- Before it looks whether anybody has subscribed. -/
  | committed (us : List Update)
  | read (us : List Update)
  /-- `conf_name` was the name of the update, and has been let go of. -/
  | write (master : MasterConfig) (node : NodeConfig) (us : List Update)
  /-- It has read the row of the own node's new config. -/
  | own (name : String) (master : MasterConfig) (node : NodeConfig) (us : List Update)
  /-- It has written `conf`, and holds on to it until it has written `conf_name`. -/
  | rename (name : String) (us : List Update)
  deriving DecidableEq

namespace Refreshing

variable (K : Crypto) (m : Subscriptions)

def Renames : Refreshing → Prop
  | .rename _ _ => True
  | _ => False

instance : DecidablePred Renames
  | .rename _ _ => isTrue trivial
  | .committed _ | .read _ | .write _ _ _ | .own _ _ _ _ => isFalse id

/-- Its next step takes the lock of `conf`. -/
def Locks : Refreshing → Prop
  | .write _ _ _ | .own _ _ _ _ => True
  | _ => False

instance : DecidablePred Locks
  | .write _ _ _ | .own _ _ _ _ => isTrue trivial
  | .committed _ | .read _ | .rename _ _ => isFalse id

def effect : Refreshing → Subscriptions
  | .write master node _ | .own _ master node _ =>
    { m with conf := GlobalConfig.update K ⟨master, node⟩ }
  | .rename name _ => { m with confName := name }
  | .committed _ | .read _ => m

/-- Where it is after that, unless it has ended, or panicked. -/
def next : Refreshing → Option Refreshing
  | .committed us => if m.nodes.keys = [] then none else some (.read us)
  | .read [] => none
  | .read (u :: us) =>
    match m.notice K u with
    | none => none
    | some (some (.config name master node)) =>
      if m.confName = name then some (.write master node us) else some (.read us)
    | some (some (.own name master node)) => some (.own name master node us)
    | some _ => some (.read us)
  | .write _ _ us | .rename _ us => some (.read us)
  | .own name _ _ us => some (.rename name us)

end Refreshing

/-- A master with the tasks that have committed a block. -/
structure OwnConfig where
  master : Subscriptions
  tasks : List Refreshing := []

namespace OwnConfig

variable (K : Crypto) (s : OwnConfig)

/-- What `serve` starts with: it stops where the own node has no config that can be read. -/
def start (db : Database) (pubkey : PublicKey) (external : Option String) : Option OwnConfig := do
  let row ← db.loadLocalMasterNodeConf pubkey.bytes
  let master ← fromSlice MasterConfig row.masterConf
  let node ← fromSlice NodeConfig row.nodeConf
  return { master := { db, pubkey, external, confName := row.name, conf := ⟨master, node⟩ } }

inductive Act
  /-- `interpret_block`, of one task or another. -/
  | commit (reqs : List RequestType)
  | task (i : ℕ)
  /-- Nodes subscribe or unsubscribe. -/
  | nodes (nodes : SubscribedNodes)

/-- The tasks when the `i`-th has taken its step; it goes to the end. -/
def left (i : ℕ) : List Refreshing :=
  s.tasks.eraseIdx i ++ (s.tasks[i]?.bind (Refreshing.next K s.master)).toList

def committed (db : Database) (us : List Update) : OwnConfig :=
  ⟨{ s.master with db := db }, s.tasks ++ [.committed us]⟩

def step : Act → Option OwnConfig
  | .commit reqs =>
    match interpretBlock s.master.db reqs with
    | some (db, us) => some (s.committed db us)
    | none => some s
  | .task i => s.tasks[i]?.bind fun t =>
    if t.Locks ∧ ∃ t' ∈ s.tasks, t'.Renames then none
    else some ⟨t.effect K s.master, s.left K i⟩
  | .nodes nodes => some { s with master := { s.master with nodes := nodes } }

end OwnConfig

end Nyumt
