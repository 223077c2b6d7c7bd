import Mathlib.Data.List.Sort
import Nyumt.Lib.Group
import Nyumt.Peers
import Nyumt.Stats

/-!
# Plots

What a client draws of a node's reports: `plot_data` reads the rows of a window and yields a point
for a value it finds in one, and the first part of `show` makes traces of the points. A point is its
date, its value and its name.
-/

namespace Nyumt

open Borsh

abbrev Point := String × String × Option String

namespace Database

variable (db : Database)

/-- The rows of the node with the key. -/
def nodeStats (pk : Bytes) : List StatsRow :=
  db.stats.filter fun r => r.node ≠ none ∧ r.node = db.getNodeId pk

/-- In no particular order. -/
def getNodeStatsFrom (pk : Bytes) (timestamp : UInt64) : List StatsRow :=
  (db.nodeStats pk).filter fun r => timestamp.toInt64.toInt < r.timestamp

/-- The rows of `order by timestamp desc limit ?`. -/
def newestStats (pk : Bytes) (limit : ℕ) : List StatsRow :=
  ((db.nodeStats pk).insertionSort fun r r' => r'.timestamp ≤ r.timestamp).take limit

/-- `null` is what a `null` is read as, if it can be read; it is the minimum of no rows. -/
def getMinStatsTimestampInLimit (null : Option UInt64) (pk : Bytes) (limit : ℕ) : Option UInt64 :=
  match ((db.newestStats pk limit).map StatsRow.timestamp).min? with
  | some timestamp => some (Int64.ofInt timestamp).toUInt64
  | none => null

end Database

section Data

variable (text : F32 → String)

/-- The loop over the values of one interface or device, with the value and the name found so far.
It goes by what follows the value. -/
def scan {O : Type} [DecidableEq O] (obj nameOID : O) :
    List (O × VarValue) → Option String → Option String → Option (String × Option String)
  | [], _, _ => none
  | vv :: val, var, name =>
    if vv.1 = obj then scan obj nameOID val (some (vv.2.toText text)) name
    else if vv.1 = nameOID then scan obj nameOID val var (some (vv.2.toText text))
    else match var with
      | some var => some (var, name)
      | none => scan obj nameOID val none name

/-- The first value of the object; there is no name. -/
def first {O : Type} [DecidableEq O] (obj : O) (v : List (O × VarValue)) (res : String) :
    List Point :=
  ((v.find? fun val => val.1 = obj).map fun val => (res, val.2.toText text, none)).toList

/-- A point for each interface or device whose loop ends at a value. -/
def each {O : Type} [DecidableEq O] (obj nameOID : O) (v : List (List (O × VarValue)))
    (res : String) : List Point :=
  (v.filterMap fun val => scan text obj nameOID val none none).map fun p => (res, p.1, p.2)

/-- The points of a part of a report, at the date `res`. -/
def OID.points (res : String) : OID → DataType → List Point
  | .cpu (some obj), .cpu v => first text obj v res
  | .memory (some obj), .memory v => first text obj v res
  | .network (some obj), .network v => each text obj .name v res
  | .storage (some obj), .storage v => each text obj .name v res
  | _, _ => []

/-- It names one object. -/
def OID.Unique : OID → Prop
  | .cpu o => o ≠ none
  | .memory o => o ≠ none
  | .network o => o ≠ none
  | .storage o => o ≠ none
  | .all => False

instance : DecidablePred OID.Unique
  | .cpu o | .memory o | .network o | .storage o => inferInstanceAs (Decidable (o ≠ none))
  | .all => isFalse id

variable (date : ℤ → Option String)

/-- The points of the rows, one row after another; a row that is no report is passed over. The date
of a timestamp is chrono's, which panics at one that is out of its range. -/
def plotStream (oid : OID) : List StatsRow → Option (List Point)
  | [] => some []
  | row :: rows => do
    let res ← date row.timestamp
    let points := match fromSlice Report row.data with
      | some report => report.data.flatMap (oid.points text res)
      | none => []
    let rest ← plotStream oid rows
    return points ++ rest

/-- The rows that are read; with the timestamp 0 those of a window of 50. -/
def plotRows (null : Option UInt64) (db : Database) (pk : Bytes) (timestamp : UInt64) :
    Option (List StatsRow) := do
  let timestamp ← if timestamp = 0 then db.getMinStatsTimestampInLimit null pk 50
    else some timestamp
  return db.getNodeStatsFrom pk timestamp

/-- `plot_data`; `none` is a panic. -/
def plotData (null : Option UInt64) (db : Database) (pk : PublicKey) (oid : OID)
    (timestamp : UInt64) : Option (Except String (List Point)) :=
  if oid.Unique then do
    let rows ← plotRows null db pk.bytes timestamp
    let points ← plotStream text date oid rows
    return .ok points
  else some (.error "OID must be for a unique object")

end Data

section Show

/-- A trace of a plot: its points by date and value, and its name. -/
structure Trace where
  name : Option String
  points : List (String × String)
  deriving DecidableEq

/-- The loop that puts the points into groups, those of before first; `none` is a panic. -/
def grouped : List Point → List (String × List (String × String)) →
    Option (List (String × List (String × String)))
  | [], vec => some vec
  | i :: data, vec => do
    let name ← i.2.2
    grouped data (Group.add name (i.1, i.2.1) vec)

/-- The traces `show` adds, which are taken from the end of the groups. -/
def showTraces (data : List Point) : Option (List Trace) := do
  let i ← data[0]?
  match i.2.2 with
  | none => return [⟨none, data.map fun i => (i.1, i.2.1)⟩]
  | some _ =>
    let vec ← grouped data []
    return vec.reverse.map fun val => ⟨some val.1, val.2⟩

end Show

end Nyumt
