import Nyumt.Proofs.Peers
import Nyumt.Stats

/-!
# Acknowledged reports

A master answers `Good` to a report whatever became of the insert. The insert fails where the node
has a row of that timestamp, so of two reports of one second only the first is stored; a row that is
stored stays as long as its node does (`acked_iff`).
-/

namespace Nyumt

open Borsh

namespace Database

/-- The node stays in the table through all orders of a block. -/
def Lives (id : ℕ) (db : Database) : List RequestType → Prop
  | [] => True
  | .order o :: reqs => ∀ t u, db.toTables.exec o = some (t, u) →
    id ∈ t.node.map NodeRow.id ∧ Lives id (db.setTables t) reqs

variable {db db' : Database} {id : ℕ} {r : StatsRow}

theorem mem_stats_setTables {t : Tables} (hr : r ∈ db.stats) (hnode : r.node = some id)
    (hid : id ∈ t.node.map NodeRow.id) : r ∈ (db.setTables t).stats := by
  refine (Table.mem_delete _).2 ⟨hr, ?_⟩
  rw [hnode]
  simp only [Option.any_some, decide_eq_false_iff_not, not_and, not_not]
  exact fun _ => hid

theorem mem_stats_interpretBlock : ∀ {reqs : List RequestType} {db db' : Database}
    {us : List Update}, interpretBlock db reqs = some (db', us) → db.Lives id reqs →
    r ∈ db.stats → r.node = some id → r ∈ db'.stats
  | [], db, db', us, h, _, hr, _ => by
    simp only [interpretBlock, Option.some.injEq, Prod.mk.injEq] at h
    exact h.1 ▸ hr
  | .order o :: reqs, db, db', us, h, hlives, hr, hnode => by
    obtain ⟨t, u, us', ho, h, -⟩ := of_interpretBlock_cons h
    obtain ⟨hid, hlives⟩ := hlives t u ho
    exact mem_stats_interpretBlock h hlives (mem_stats_setTables hr hnode hid) hnode

/-- The row is there after the insert if it was before, or if nothing was of its node and time. -/
theorem mem_storeStats {row : StatsRow} : r ∈ (db.storeStats row).stats ↔ r ∈ db.stats
    ∨ (r = row ∧ (row.node = none ∨ ∀ r ∈ db.stats, r.timestamp = row.timestamp →
      r.node ≠ row.node)) := by
  unfold storeStats
  split_ifs with h
  · refine (or_iff_left ?_).symm
    rintro ⟨-, hnone | hall⟩
    · exact h.1 hnone
    · obtain ⟨r, hr, ht, hnode⟩ := h.2
      exact hall r hr ht hnode
  · rw [List.mem_append, List.mem_singleton]
    refine or_congr_right (and_iff_left ?_).symm
    by_contra! hno
    exact h hno

end Database

namespace Peers

variable (K : Crypto)

/-- The next query for a report is its insert, after which it is answered with `Good`. -/
def Acks (s : Peers) (a : Act) (id : ℕ) (r : Reporting) : Prop :=
  ∃ i pk, a = .store i ∧ s.reports[i]? = some r ∧ r.pk = some pk ∧ s.db.getNodeId pk = some id

def HasRow (s : Peers) (id : ℕ) (report : NodeReport) : Prop :=
  ∃ r ∈ s.db.stats, r.node = some id ∧ r.data = report.report ∧ r.sig = report.sig

/-- The step does not remove the node. -/
def Lives (id : ℕ) (s : Peers) : Act → Prop
  | .master (.task i _) => ∀ t row, s.master.tasks[i]? = some t → t.pc = .interpret row →
    ∀ db us, interpretBlock s.db t.body.req = some (db, us) → s.db.Lives id t.body.req
  | _ => True

/-- Whenever a report is answered with `Good`, the node has a row of just that report, in the state
after that and in each later one until the node is removed. -/
def Acked (s : Peers) (as : List Act) : Prop :=
  ∀ pre a post rest t t' u id r, as = pre ++ a :: (post ++ rest) →
    Run.run (step K) s pre = some t → t.Acks a id r → t.step K a = some t' →
    Run.run (step K) t' post = some u → Run.Along (step K) (Lives id) t' post →
    u.HasRow id r.report

/-- Where a report is inserted, the node has no row of its timestamp, or a row of just that
report. -/
def Clear (s : Peers) (a : Act) : Prop :=
  ∀ id r, s.Acks a id r →
    (∀ row ∈ s.db.stats, row.node = some id → row.timestamp ≠ r.timestamp.toInt64.toInt)
      ∨ s.HasRow id r.report

variable {K}

theorem hasRow_step {s s' : Peers} {a : Act} {id : ℕ} {report : NodeReport}
    (hlives : s.Lives id a) (h : s.step K a = some s') (hrow : s.HasRow id report) :
    s'.HasRow id report := by
  obtain ⟨r, hr, hnode, hreport⟩ := hrow
  refine ⟨r, ?_, hnode, hreport⟩
  cases of_step h with
  | connect | refused | hello | version | report | found | unknown => exact hr
  | @update i peer pk =>
    show r ∈ (s.db.updatePeerid pk.bytes peer).stats
    unfold Database.updatePeerid
    split <;> exact hr
  | store => exact Database.mem_storeStats.2 (.inl hr)
  | @master a m hm =>
    show r ∈ m.set.db.stats
    rcases Master.step_db hm with hdb | ⟨row, -, hdb⟩ | ⟨i, net, t, row, rfl, hget, hpc, hdb⟩
      <;> rw [hdb]
    · exact hr
    · exact hr
    · unfold applyBlock
      rcases hblock : interpretBlock s.master.set.db t.body.req with _ | ⟨db, us⟩
      · exact hr
      · exact Database.mem_stats_interpretBlock hblock (hlives t row hget hpc db us hblock) hr hnode

theorem Acks.step {s : Peers} {a : Act} {id : ℕ} {r : Reporting} (hack : s.Acks a id r) :
    ∃ s', s.step K a = some s' := by
  obtain ⟨i, pk, rfl, hget, hpk, -⟩ := hack
  simp only [Peers.step, hget, hpk, Option.bind_eq_bind, Option.bind_some, Option.pure_def]
  exact ⟨_, rfl⟩

/-- The report is there after its insert just when nothing stood in its way, or it was there. -/
theorem hasRow_acked {s s' : Peers} {a : Act} {id : ℕ} {r : Reporting} (hack : s.Acks a id r)
    (h : s.step K a = some s') : s'.HasRow id r.report ↔
      (∀ row ∈ s.db.stats, row.node = some id → row.timestamp ≠ r.timestamp.toInt64.toInt)
        ∨ s.HasRow id r.report := by
  obtain ⟨i, pk, rfl, hget, hpk, hid⟩ := hack
  have hstats : s'.db.stats = (s.db.storeStats (s.db.statsRow pk r.report r.timestamp)).stats := by
    simp only [step, hget, hpk, Option.bind_eq_bind, Option.bind_some, Option.pure_def,
      Option.some.injEq] at h
    subst h
    rfl
  have hnew : s.db.statsRow pk r.report r.timestamp
      = ⟨r.timestamp.toInt64.toInt, some id, r.report.report, r.report.sig⟩ := by
    rw [Database.statsRow, hid]
  rw [hnew] at hstats
  unfold HasRow
  rw [hstats]
  simp only [Database.mem_storeStats]
  constructor
  · rintro ⟨row, hrow | ⟨-, hnone | hclear⟩, hreport⟩
    · exact .inr ⟨row, hrow, hreport⟩
    · cases hnone
    · exact .inl fun row hrow hnode ht => hclear row hrow ht hnode
  · rintro (hclear | ⟨row, hrow, hreport⟩)
    · exact ⟨_, .inr ⟨rfl, .inr fun row hrow ht hnode => hclear row hrow hnode ht⟩, rfl, rfl, rfl⟩
    · exact ⟨row, .inl hrow, hreport⟩

/-- In a run each acknowledged report is stored, and stays while its node does, just when each
insert is of a new time or of a report that is there. -/
theorem acked_iff (s : Peers) (as : List Act) :
    Acked K s as ↔ Run.Along (step K) Clear s as := by
  rw [Run.along_iff]
  constructor
  · rintro h pre a post t rfl hpre id r hack
    obtain ⟨t', ht⟩ := hack.step (K := K)
    exact (hasRow_acked hack ht).1 (h pre a [] post t t' t' id r rfl hpre hack ht rfl trivial)
  · rintro h pre a post rest t t' u id r rfl hpre hack ht hpost hlives
    have hrow : t'.HasRow id r.report :=
      (hasRow_acked hack ht).2 (h pre a (post ++ rest) t rfl hpre id r hack)
    exact Run.run_induction (I := fun u => u.HasRow id r.report)
      (fun _ _ _ hok hs => hasRow_step hok hs) hlives hpost hrow

section Toy

/-- A report of no data, or of a processor of which nothing is asked. -/
def toyData (data : List DataType) : NodeReport := ⟨(toVec (⟨data, 7⟩ : Report)).getD [], []⟩

/-- The second master of `toyPair` sends two reports in one second. -/
def pairReports : List Act :=
  [.connect (toyKey 4), .hello (Session.toyPeer 4) protocolVersion (toyKey 4), .update 0,
    .report (Session.toyPeer 4) (toyData []) 7, .store 0, .store 0,
    .report (Session.toyPeer 4) (toyData [.cpu []]) 7, .store 0]

/-- The second one is answered with `Good` as well, and is not stored. -/
theorem not_acked_pairReports :
    ¬ ∀ as : List Act, Acked toy (init toyPair (.default toy)) as := by
  intro h
  have hrun : (Run.run (step toy) (init toyPair (.default toy)) pairReports).any fun t =>
      t.reports.map (fun r => (r.report.report, r.report.sig, r.pk))
          = [((toyData [.cpu []]).report, [], some (toyKey 4).bytes)]
        ∧ t.db.getNodeId (toyKey 4).bytes = some 2
        ∧ (t.step toy (.store 0)).any fun t' =>
          ∀ r ∈ t'.db.stats, r.data ≠ (toyData [.cpu []]).report := by
    decide +kernel
  obtain ⟨t, ht, hreports, hid, hstore⟩ := Run.exists_of_any hrun
  obtain ⟨t', ht', hnone⟩ := Run.exists_of_any hstore
  obtain ⟨r, hr, hreport⟩ := List.map_eq_singleton_iff.1 hreports
  simp only [Prod.mk.injEq] at hreport
  obtain ⟨hdata, -, hpk⟩ := hreport
  obtain ⟨row, hrow, -, hdata', -⟩ := h (pairReports ++ [.store 0]) pairReports (.store 0) [] [] t
    t' t' 2 r rfl ht ⟨0, (toyKey 4).bytes, rfl, by rw [hr]; rfl, hpk, hid⟩ ht' rfl trivial
  exact hnone row hrow (hdata'.trans hdata)

end Toy

end Peers

end Nyumt
