import Mathlib.Data.List.Sort
import Nyumt.Lib.Run
import Nyumt.Messages

/-!
# What is streamed to a client

The loop of `event_handler` once the session is entered. Each poll waits for two queries, for the
last height and for whether there are new statistics, and goes by the one that answers first. Blocks
and statistics are then read from a scan and sent nine at a time. Rows are stored beside it, also
between the query of a poll and its scan. When the session ends no more steps are taken.
-/

namespace Nyumt

open Borsh

inductive Outgoing
  | blocks (rows : List OrderRow)
  | stats (rows : List StatsRow)
  deriving DecidableEq

/-- The timestamp as a `u64`. -/
def StatsRow.time (r : StatsRow) : UInt64 := (Int64.ofInt r.timestamp).toUInt64

/-- Without a node the column is `null`, which is read as zero. -/
def StatsRow.stat (r : StatsRow) : Stat := ⟨.ofNat (r.node.getD 0), r.data, r.sig⟩

def Outgoing.request : Outgoing → ClientRequest
  | .blocks rows => .block (rows.map OrderRow.request)
  | .stats rows => .stats (rows.map StatsRow.stat)

/-- Where a poll is. -/
inductive FeedPc
  | poll
  /-- The last height was read, and is past the client's. -/
  | blocks (last : ℕ)
  | stats
  deriving DecidableEq

/-- A streaming session and the tables it reads. `height` and `timestamp` are the session's
`last_request_height` and `last_timestamp`. -/
structure Feed where
  order : List OrderRow
  stats : List StatsRow
  height : ℤ
  timestamp : UInt64
  sent : List Outgoing := []
  pc : FeedPc := .poll
  deriving DecidableEq

namespace Feed

/-- The loop over a scan of blocks: the rows still to be read, the height and the blocks of the next
message. A message goes out at the height read before and at nine blocks; the height counts each
row that is read. Gives the height and the messages. -/
def sendBlocks (last : ℕ) : List OrderRow → ℤ → List OrderRow → ℤ × List Outgoing
  | [], height, _ => (height, []) -- the blocks of a message that was not sent are dropped
  | r :: rows, height, blocks =>
    let blocks := blocks ++ [r]
    if last = r.id ∨ 9 ≤ blocks.length then
      match toVec (Outgoing.blocks blocks).request with
      | some _ =>
        let (height, sent) := sendBlocks last rows (height + 1) []
        (height, .blocks blocks :: sent)
      | none => (height, [])
    else sendBlocks last rows (height + 1) blocks

/-- The loop over a scan of statistics: the rows still to be read, the statistics of the next
message, the timestamp of the last of them and the session's. Gives the session's timestamp and the
messages. -/
def sendStats : List StatsRow → List StatsRow → UInt64 → UInt64 → UInt64 × List Outgoing
  | [], stats, last, timestamp =>
    if stats = [] then (timestamp, [])
    else match toVec (Outgoing.stats stats).request with
      | some _ => (last, [.stats stats])
      | none => (timestamp, [])
  | r :: rows, stats, last, timestamp =>
    if 9 ≤ stats.length then
      match toVec (Outgoing.stats stats).request with
      | some _ =>
        let (timestamp, sent) := sendStats rows [r] r.time last
        (timestamp, .stats stats :: sent)
      | none => (timestamp, [])
    else sendStats rows (stats ++ [r]) r.time timestamp

inductive Act
  /-- A row is stored, under the id after the last. -/
  | append (row : OrderRow)
  /-- `store_stats`. -/
  | store (node : Option ℕ) (timestamp : UInt64) (data sig : Bytes)
  /-- The query for the last height answers first. -/
  | height
  | blocks
  /-- `poll_stats_ready` answers first. -/
  | ready
  /-- The scan of statistics returns these rows. -/
  | stats (rows : List StatsRow)

/-- `select id, data from order where id > ? order by id asc`. -/
def blocksFrom (s : Feed) : List OrderRow :=
  (s.order.filter fun r => s.height < r.id).insertionSort fun r r' => r.id ≤ r'.id

/-- `select .. from stats where timestamp > ?`. -/
def statsFrom (s : Feed) : List StatsRow :=
  s.stats.filter fun r => s.timestamp.toInt64.toInt < r.timestamp

/-- The row would repeat a key. A `null` repeats none. -/
def Taken (s : Feed) (node : Option ℕ) (timestamp : UInt64) : Prop :=
  node ≠ none ∧ ∃ r ∈ s.stats, r.timestamp = timestamp.toInt64.toInt ∧ r.node = node

instance (s : Feed) (node : Option ℕ) (timestamp : UInt64) : Decidable (s.Taken node timestamp) :=
  inferInstanceAs (Decidable (_ ∧ _))

def step (s : Feed) : Act → Option Feed
  | .append row =>
    if ∀ r ∈ s.order.getLast?, row.id = r.id + 1 then some { s with order := s.order ++ [row] }
    else none
  | .store node timestamp data sig =>
    let row : StatsRow := ⟨timestamp.toInt64.toInt, node, data, sig⟩
    some (if s.Taken node timestamp then s else { s with stats := s.stats ++ [row] })
  | .height =>
    match s.pc with
    | .poll =>
      match (Table.last OrderRow.id s.order).map OrderRow.id with
      | some last => some (if s.height < last then { s with pc := .blocks last } else s)
      | none => some s
    | _ => none
  | .blocks =>
    match s.pc with
    | .blocks last =>
      let (height, sent) := sendBlocks last s.blocksFrom s.height []
      some { s with height := height, sent := s.sent ++ sent, pc := .poll }
    | _ => none
  | .ready =>
    match s.pc with
    | .poll => some (if s.statsFrom ≠ [] then { s with pc := .stats } else s)
    | _ => none
  | .stats rows =>
    match s.pc with
    | .stats =>
      if rows.Perm s.statsFrom ∧ rows.Pairwise (fun r r' => r.timestamp ≤ r'.timestamp) then
        let (timestamp, sent) := sendStats rows [] 0 s.timestamp
        some { s with timestamp := timestamp, sent := s.sent ++ sent, pc := .poll }
      else none
    | _ => none

/-- A session as a client's `Hello` begins it, on the tables there are. -/
def init (order : List OrderRow) (stats : List StatsRow) (settings : SessionSettings) : Feed where
  order := order
  stats := stats
  height := settings.lastRequestHeight.toInt
  timestamp := settings.lastTimestamp

/-- What an action does to the state. -/
inductive Moves (s : Feed) : Act → Feed → Prop
  | append {row : OrderRow} (hid : ∀ r ∈ s.order.getLast?, row.id = r.id + 1) :
      Moves s (.append row) { s with order := s.order ++ [row] }
  | store {node : Option ℕ} {timestamp : UInt64} (data sig : Bytes) (h : ¬ s.Taken node timestamp) :
      Moves s (.store node timestamp data sig)
        { s with stats := s.stats ++ [⟨timestamp.toInt64.toInt, node, data, sig⟩] }
  | taken {node : Option ℕ} {timestamp : UInt64} (data sig : Bytes) (h : s.Taken node timestamp) :
      Moves s (.store node timestamp data sig) s
  | height {r : OrderRow} (hpc : s.pc = .poll) (hr : r ∈ s.order) (hlt : s.height < r.id) :
      Moves s .height { s with pc := .blocks r.id }
  | noBlocks (hpc : s.pc = .poll) : Moves s .height s
  | blocks {last : ℕ} (hpc : s.pc = .blocks last) :
      Moves s .blocks { s with
        height := (sendBlocks last s.blocksFrom s.height []).1
        sent := s.sent ++ (sendBlocks last s.blocksFrom s.height []).2
        pc := .poll }
  | ready (hpc : s.pc = .poll) (h : s.statsFrom ≠ []) : Moves s .ready { s with pc := .stats }
  | noStats (hpc : s.pc = .poll) (h : s.statsFrom = []) : Moves s .ready s
  | stats {rows : List StatsRow} (hpc : s.pc = .stats) (hperm : rows.Perm s.statsFrom)
      (hsorted : rows.Pairwise fun r r' => r.timestamp ≤ r'.timestamp) :
      Moves s (.stats rows) { s with
        timestamp := (sendStats rows [] 0 s.timestamp).1
        sent := s.sent ++ (sendStats rows [] 0 s.timestamp).2
        pc := .poll }

theorem of_step {s s' : Feed} {a : Act} (hs : s.step a = some s') : Moves s a s' := by
  cases a with
  | append row =>
    simp only [step] at hs
    split_ifs at hs with hid
    exact Option.some.inj hs ▸ .append hid
  | store node timestamp data sig =>
    obtain rfl := Option.some.inj hs
    split_ifs with h
    · exact .taken data sig h
    · exact .store data sig h
  | height =>
    simp only [step] at hs
    split at hs
    case h_2 => cases hs
    rename_i hpc
    split at hs
    · rename_i last hl
      obtain ⟨r, hr, rfl⟩ := Option.map_eq_some_iff.1 hl
      obtain rfl := Option.some.inj hs
      split_ifs with hlt
      · exact .height hpc (Table.of_last _ hr).1 hlt
      · exact .noBlocks hpc
    · exact Option.some.inj hs ▸ .noBlocks hpc
  | blocks =>
    simp only [step] at hs
    split at hs
    case h_2 => cases hs
    rename_i last hpc
    exact Option.some.inj hs ▸ .blocks hpc
  | ready =>
    simp only [step] at hs
    split at hs
    case h_2 => cases hs
    rename_i hpc
    obtain rfl := Option.some.inj hs
    split_ifs with h
    · exact .ready hpc h
    · exact .noStats hpc (not_not.1 h)
  | stats rows =>
    simp only [step] at hs
    split at hs
    case h_2 => cases hs
    rename_i hpc
    split_ifs at hs with h
    exact Option.some.inj hs ▸ .stats hpc h.1 h.2

end Feed

end Nyumt
