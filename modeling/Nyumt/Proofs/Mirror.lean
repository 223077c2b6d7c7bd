import Nyumt.Mirror
import Nyumt.Proofs.BlockFeed
import Nyumt.Proofs.Following

/-!
# A client mirrors its master

While each of them keeps to its own order (`Orderly`), a client holds the first rows of its master's
log at every moment, and with all it was sent behind it the tables these rows make; and once it was
sent the last row, it has what its master has (`mirrors_run`).
-/

namespace Nyumt

namespace Feed

variable {s s' : Feed} {a : Act}

/-- Nothing that was sent is taken back. -/
theorem sent_prefix_step (h : s.step a = some s') : s.sent <+: s'.sent := by
  cases of_step h with
  | blocks => exact List.prefix_append _ _
  | stats => exact List.prefix_append _ _
  | _ => exact List.prefix_rfl

theorem order_step (ha : ∀ row, a ≠ .append row) (h : s.step a = some s') :
    s'.order = s.order := by
  cases of_step h with
  | append => exact (ha _ rfl).elim
  | _ => rfl

theorem BlockInv.step_of_ne {h0 : ℤ} (hi : s.BlockInv h0) (ha : ∀ row, a ≠ .append row)
    (hok : s.LeavesNone a) (h : s.step a = some s') : s'.BlockInv h0 := by
  cases a
  case append row => exact (ha row rfl).elim
  case store =>
    cases of_step h with
    | store | taken => exact hi.of_eq rfl rfl rfl hi.last
  all_goals
    refine hi.step ?_ hok h
    trivial

end Feed

theorem Server.order_step {K : Crypto} {s s' : Server} {a : Server.Act}
    (h : s.step K a = some s') : s'.master.set.db.order = s.master.set.db.order
      ∨ ∃ row, s'.master.set.db.order = s.master.set.db.order ++ [row] := by
  cases moves h with
  | master hm => exact (Master.step_order hm).imp_right fun ⟨row, _, ho⟩ => ⟨row, ho⟩
  | _ => exact .inl rfl

theorem id_eq_succ {rows : List OrderRow} {row r : OrderRow}
    (h : (rows ++ [row]).map OrderRow.id = List.range (rows ++ [row]).length)
    (hr : r ∈ rows.getLast?) : row.id = r.id + 1 := by
  obtain ⟨ys, rfl⟩ := List.getLast?_eq_some_iff.1 hr
  have hrow : row.id = ys.length + 1 := id_of_getElem? h (by simp)
  have hlast : r.id = ys.length := id_of_getElem? h (by simp)
  rw [hrow, hlast]

namespace Mirror

variable {K : Crypto} {s s' : Mirror} {log : List OrderRow} {n : ℕ}

/-- Each of them keeps to its own order: the master has one request at a time where they touch each
other and interprets blocks in the order of their rows, no scan leaves rows behind, and the client
is given messages in the order they were sent and handles them one after another. -/
def Orderly (s : Mirror) : Act → Prop
  | .server a => s.server.Orderly a
  | .feed a => s.feed.LeavesNone a
  | .deliver i => i = s.received
  | .client i => s.client.InTurn (.batch i)

/-- The rows of the messages that have come. -/
def rows (s : Mirror) : List OrderRow := (s.feed.sent.take s.received).flatMap Outgoing.orderRows

/-- The client has handled all that was sent. -/
def Settled (s : Mirror) : Prop :=
  s.received = s.feed.sent.length ∧ ∀ b ∈ s.client.batches, b.done

/-- `n` is how many rows the client had when it began. -/
structure Inv (K : Crypto) (log : List OrderRow) (n : ℕ) (s : Mirror) : Prop where
  serve : s.server.ServeInv K
  order : s.feed.order = s.order
  start : n ≤ s.order.length
  blocks : s.feed.BlockInv (n - 1)
  received : s.received ≤ s.feed.sent.length
  follows : Syncing.Follows K log (n + s.rows.length) s.client

theorem order_step {a : Act} (h : s.step K a = some s') : s.order <+: s'.order := by
  cases moves h with
  | @server a v hv =>
    show s.server.master.set.db.order <+: v.master.set.db.order
    rcases Server.order_step hv with ho | ⟨row, ho⟩
    · exact ⟨[], by rw [List.append_nil, ho]⟩
    · exact ⟨[row], ho.symm⟩
  | feed | deliver | client => exact List.prefix_rfl

theorem Inv.ids (hi : Inv K log n s) : s.order.map OrderRow.id = List.range s.order.length :=
  hi.serve.log.ids

/-- What was sent goes on from what the client had. -/
theorem Inv.sent (hi : Inv K log n s) : s.order.take n ++ s.feed.sentRows
    = s.order.take (s.feed.height + 1).toNat := by
  have hids : s.order.map OrderRow.id = List.range' 0 s.order.length := by
    rw [hi.ids, List.range_eq_range']
  have hstart := hi.blocks.start
  rw [← Table.take_append_between (n := n) hids (by omega), ← hi.order]
  exact congrArg _ hi.blocks.streamed

/-- What has come are rows of the log, behind those the client had. -/
theorem Inv.split (hi : Inv K log n s) (hlog : s.order <+: log) :
    ∃ rest, log = (s.order.take n ++ s.rows)
        ++ ((s.feed.sent.drop s.received).flatMap Outgoing.orderRows ++ rest)
      ∧ (s.order.take n ++ s.rows).length = n + s.rows.length := by
  have hsent : s.feed.sentRows
      = s.rows ++ (s.feed.sent.drop s.received).flatMap Outgoing.orderRows := by
    rw [rows, ← List.flatMap_append, List.take_append_drop]
    rfl
  obtain ⟨rest, hrest⟩ := (List.take_prefix (s.feed.height + 1).toNat s.order).trans hlog
  rw [← hi.sent, hsent] at hrest
  refine ⟨rest, ?_, ?_⟩
  · rw [← hrest]
    simp only [List.append_assoc]
  · rw [List.length_append, List.length_take, min_eq_left hi.start]

theorem Inv.le (hi : Inv K log n s) (hlog : s.order <+: log) : n + s.rows.length ≤ log.length := by
  obtain ⟨rest, hsplit, hlen⟩ := hi.split hlog
  rw [hsplit, List.length_append, hlen]
  omega

/-- The next message has the next rows. -/
theorem Inv.next (hi : Inv K log n s) (hlog : s.order <+: log) {m : Outgoing}
    (hm : s.feed.sent[s.received]? = some m) :
    m.orderRows = (log.drop (n + s.rows.length)).take m.orderRows.length := by
  obtain ⟨hlt, rfl⟩ := List.getElem?_eq_some_iff.1 hm
  obtain ⟨rest, hsplit, hlen⟩ := hi.split hlog
  rw [List.drop_eq_getElem_cons hlt, List.flatMap_cons,
    List.append_assoc (s.feed.sent[s.received].orderRows)] at hsplit
  conv_rhs => rw [hsplit]
  rw [List.drop_left' hlen, List.take_left' rfl]

theorem Inv.deliver (hi : Inv K log n s) (hlog : s.order <+: log) {m : Outgoing}
    (hm : s.feed.sent[s.received]? = some m) :
    Inv K log n { s with client := m.receive s.client, received := s.received + 1 } := by
  have hrows := hi.next hlog hm
  have hlt := (List.getElem?_eq_some_iff.1 hm).1
  refine ⟨hi.serve, hi.order, hi.start, hi.blocks, hlt, ?_⟩
  have hnew : rows { s with client := m.receive s.client, received := s.received + 1 }
      = s.rows ++ m.orderRows := by
    simp only [rows]
    rw [List.take_add_one, hm, Option.toList_some, List.flatMap_append, List.flatMap_singleton]
  rw [hnew, List.length_append, ← Nat.add_assoc]
  rcases m with rows | stats
  · exact Syncing.follows_receive (hi.le hlog) hrows hi.follows
  · exact hi.follows

theorem inv_step {a : Act} (hserved : Served K log) (hlen : log.length ≤ 2 ^ 63)
    (hsmall : ∀ r ∈ log, r.Small) (ha : s.Orderly a) (h : s.step K a = some s')
    (hlog : s'.order <+: log) (hi : Inv K log n s) : Inv K log n s' := by
  have hpre := order_step h
  have hlog' := hpre.trans hlog
  cases moves h with
  | @server a v hv =>
    have hserve := Server.serveInv_step ha hv hi.serve
    refine ⟨hserve, rfl, hi.start.trans hpre.length_le, ?_, hi.received, hi.follows⟩
    have hids := hserve.log.ids
    rcases Server.order_step hv with ho | ⟨row, ho⟩
    · rw [ho]
      exact hi.blocks.of_eq hi.order.symm rfl rfl hi.blocks.last
    · rw [ho] at hids ⊢
      have hmem : row ∈ v.master.set.db.order := by simp [ho]
      have hid : ∀ r ∈ s.feed.order.getLast?, row.id = r.id + 1 := fun r hr => by
        rw [hi.order] at hr
        exact id_eq_succ hids hr
      have hblocks := hi.blocks.append (hsmall row (hlog.subset hmem)) hid
      rw [hi.order] at hblocks
      exact hblocks
  | feed hne hf =>
    have hsent := Feed.sent_prefix_step hf
    refine ⟨hi.serve, (Feed.order_step hne hf).trans hi.order, hi.start,
      hi.blocks.step_of_ne hne ha hf, hi.received.trans hsent.length_le, ?_⟩
    obtain ⟨more, hmore⟩ := hsent
    have hrows := hi.follows
    have htake : (s.feed.sent ++ more).take s.received = s.feed.sent.take s.received :=
      List.take_append_of_le_length hi.received
    rw [rows, ← htake, hmore] at hrows
    exact hrows
  | deliver hm =>
    obtain rfl : _ = s.received := ha
    exact hi.deliver hlog' hm
  | client hc =>
    exact ⟨hi.serve, hi.order, hi.start, hi.blocks, hi.received,
      Syncing.follows_batch hserved hlen (hi.le hlog') ha hc hi.follows⟩

theorem order_reaches {u : Mirror} (h : Run.Reaches (step K) u s) : u.order <+: s.order :=
  Run.reaches_induction (I := fun t => u.order <+: t.order)
    (fun _ _ _ hs hp => hp.trans (order_step hs)) h List.prefix_rfl

theorem inv_init {v : Server} {c : Client} {stats : List StatsRow} {settings : SessionSettings}
    (hv : v.ServeInv K) (hc : c.Has v.master.set.db.order n) (hn : n ≤ v.master.set.db.order.length)
    (hset : settings.lastRequestHeight.toInt = n - 1) (hlog : v.master.set.db.order <+: log)
    (hsmall : ∀ r ∈ log, r.Small) : Inv K log n (init v stats settings c) where
  serve := hv
  order := rfl
  start := hn
  blocks := by
    refine ⟨⟨0, ?_⟩, fun r hr => hsmall r (hlog.subset hr), hset.ge, .inl hset, ?_,
      by simp [init, Feed.init]⟩
    · rw [← List.range_eq_range']
      exact hv.log.ids
    · show [] = Table.between OrderRow.id (n - 1) settings.lastRequestHeight.toInt _
      rw [hset, Table.between_self]
  received := le_rfl
  follows := by
    show Syncing.Follows K log n ⟨c, []⟩
    refine .between le_rfl ⟨?_, ?_, hc.last⟩ (by simp) ?_
    · rw [hc.order, List.prefix_iff_eq_take.1 hlog, List.take_take, min_eq_left hn]
    · rw [tablesAt_mono hlog hn]
      exact hc.tables
    · rw [List.drop_eq_nil_of_le (List.length_take_le _ _)]
      rfl

/-- With all that was sent behind it the client has the rows up to the session's height. -/
theorem Inv.has (hi : Inv K s.order n s) (hs : s.Settled) :
    s.client.client.Has s.order (s.feed.height + 1).toNat := by
  have hhas := Syncing.has_of_done (hi.le List.prefix_rfl) hs.2 hi.follows
  have hrows : s.rows = s.feed.sentRows := by
    rw [rows, hs.1, List.take_length]
    rfl
  have hheight : s.feed.height + 1 ≤ s.order.length := by
    have hstart := hi.start
    rcases hi.blocks.height with hh | ⟨r, hr, hle⟩
    · omega
    · have hlt := id_lt_length hi.ids (hi.order ▸ hr)
      omega
  have hlen := congrArg List.length hi.sent
  rw [List.length_append, List.length_take, List.length_take, min_eq_left hi.start, ← hrows,
    min_eq_left (by omega)] at hlen
  rwa [hlen] at hhas

/-- A client whose master serves it from the height it has: it never holds anything but the first
rows of the master's log, once it has handled what was sent it has the rows up to the session's
height and the tables they make, and at the last height the master's own. -/
theorem mirrors_run {nodePk pk : PublicKey} {timestamp : UInt64} {db : Database}
    {conf : MasterConfig} {as₀ : List Server.Act} {as : List Act} {v : Server} {c : Client}
    {stats : List StatsRow} {settings : SessionSettings} (hg : Genesis K nodePk pk timestamp db)
    (hv : Run.run (Server.step K) (.init db conf) as₀ = some v)
    (hok₀ : Run.Along (Server.step K) Server.Orderly (.init db conf) as₀)
    (hc : c.Has v.master.set.db.order n) (hn : n ≤ v.master.set.db.order.length)
    (hset : settings.lastRequestHeight.toInt = n - 1)
    (h : Run.run (step K) (init v stats settings c) as = some s)
    (hok : Run.Along (step K) Orderly (init v stats settings c) as) (hidle : s.server.master.idle)
    (hsmall : ∀ r ∈ s.order, r.Small) (hlen : s.order.length ≤ 2 ^ 63) :
    s.client.client.db.order <+: s.order
      ∧ (s.Settled → s.client.client.Has s.order (s.feed.height + 1).toNat)
      ∧ (s.Settled → s.feed.height + 1 = s.order.length →
        s.client.client.db.order = s.order ∧ s.client.client.db.toTables = s.server.tables) := by
  have hserve₀ : v.ServeInv K := Run.run_induction
    (fun _ _ _ ha hs hi => Server.serveInv_step ha hs hi) hok₀ hv (Server.serveInv_init hg conf)
  have hserve : s.server.ServeInv K := by
    refine Run.run_induction (I := fun u : Mirror => u.server.ServeInv K)
      (fun u a u' ha hs hi => ?_)
      hok h hserve₀
    cases moves hs with
    | server hv => exact Server.serveInv_step ha hv hi
    | _ => exact hi
  obtain ⟨hserved, htab⟩ := Server.served_of_idle hserve hidle
  -- the log is what the master has in the end, and what it has on the way is the first part of it
  have halong := hok.and (Run.along_reaches h)
  have hi : Inv K s.order n s := by
    refine Run.run_induction (I := Inv K s.order n) (fun u a u' ha hs hi => ?_) halong h
      (inv_init hserve₀ hc hn hset (order_reaches ⟨as, h⟩) hsmall)
    exact inv_step hserved hlen hsmall ha.1 hs (order_reaches (ha.2 u' hs)) hi
  refine ⟨Syncing.order_prefix hi.follows, hi.has, fun hs hall => ?_⟩
  have hhas := hi.has hs
  rw [hall, Int.toNat_natCast] at hhas
  exact ⟨hhas.order.trans List.take_length, hhas.tables.trans htab.symm⟩

/-- A master with one task has no other to overtake. -/
def OneTask (s : Mirror) : Act → Prop
  | .server a => a.Single ∧ s.server.Calm a ∧ s.server.master.tasks.length ≤ 1
  | a => s.Orderly a

instance (s : Mirror) : DecidablePred s.OneTask
  | .server a => inferInstanceAs (Decidable (a.Single ∧ s.server.Calm a ∧ _ ≤ 1))
  | .feed a => inferInstanceAs (Decidable (s.feed.LeavesNone a))
  | .deliver i => inferInstanceAs (Decidable (i = s.received))
  | .client i => inferInstanceAs (Decidable (s.client.InTurn (.batch i)))

theorem orderly_of_oneTask {a : Act} (h : s.OneTask a) : s.Orderly a := by
  rcases a with a | a | i | i
  · refine ⟨h.1, h.2.1, ?_⟩
    rintro (_ | ⟨i, net⟩ | _ | _ | _ | _ | _) rfl
    case task => exact Master.inOrder_of_length_le_one h.2.2 i net
    case request | configure => trivial
    all_goals exact h.1.elim
  all_goals exact h

instance (s : Mirror) : Decidable s.Settled := inferInstanceAs (Decidable (_ ∧ _))

/-- What is sent is handled by the client's next task. -/
def catchUp (i steps : ℕ) : List Act :=
  [.feed .height, .feed .blocks, .deliver i] ++ List.replicate steps (.client i)

/-- The root user adds a node. -/
def addNode : List Server.Act :=
  let req := [.order (.addNode "n" (toyKey 2))]
  [.hello "p" (toyKey 1), .enter 0, .request "p" req (toyBody 0 req).sign]
    ++ List.replicate 4 (.check 0 0) ++ (Master.alone 0).map .master

theorem mirrors_run_addNode :
    let as := catchUp 0 4 ++ addNode.map .server ++ catchUp 1 9
    ∃ s, Run.run (step toy) (init (.init toyGenesis (.default toy)) [] ⟨-1, 0⟩ {}) as = some s
      ∧ s.order.length = 2 ∧ s.client.client.db.order = s.order
      ∧ s.client.client.db.toTables = s.server.tables := by
  intro as
  have hrun : (Run.run (step toy) (init (.init toyGenesis (.default toy)) [] ⟨-1, 0⟩ {}) as).any
      fun s => s.order.length = 2 ∧ s.Settled ∧ s.feed.height = 1 ∧ s.server.master.idle
        ∧ ∀ r ∈ s.order, r.Small := by decide +kernel
  obtain ⟨s, hs, hlen, hsettled, hheight, hidle, hsmall⟩ := Run.exists_of_any hrun
  have hok : Run.Along (step toy) OneTask
      (init (.init toyGenesis (.default toy)) [] ⟨-1, 0⟩ {}) as := by decide +kernel
  have hv : Run.run (Server.step toy) (.init toyGenesis (.default toy)) [] = some _ := rfl
  have hhas : Client.Has toyGenesis.order 0 {} := ⟨rfl, rfl, by decide⟩
  have hmirror := mirrors_run genesis_toyGenesis hv trivial hhas (Nat.zero_le _) rfl hs
    (hok.mono fun _ _ => orderly_of_oneTask) hidle hsmall (by omega)
  exact ⟨s, hs, hlen, hmirror.2.2 hsettled (by rw [hheight, hlen]; rfl)⟩

end Mirror

end Nyumt
