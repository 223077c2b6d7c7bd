import Nyumt.Plot
import Nyumt.Proofs.Feed
import Nyumt.Toy

/-!
# The default window

With the timestamp 0 the rows that are read are those after the oldest of the newest 50. That one is
a row of the window, and it is left out: whatever the node has stored, its plot lacks a row
(`window_iff`).
-/

namespace Nyumt.Database

variable (null : Option UInt64) (db : Database) (pk : Bytes)

/-- The newest of the rows, as many as the limit allows. -/
structure Newest (limit : ℕ) (all rows : List StatsRow) : Prop where
  subperm : rows.Subperm all
  length : rows.length = min limit all.length
  newer : ∀ r ∈ rows, ∀ r' ∈ all, r' ∉ rows → r'.timestamp ≤ r.timestamp

theorem newestStats_perm (limit : ℕ) :
    (db.newestStats pk limit ++ ((db.nodeStats pk).insertionSort fun r r' =>
      r'.timestamp ≤ r.timestamp).drop limit).Perm (db.nodeStats pk) := by
  rw [newestStats, List.take_append_drop]
  exact List.perm_insertionSort _ _

theorem length_newestStats (limit : ℕ) :
    (db.newestStats pk limit).length = min limit (db.nodeStats pk).length := by
  rw [newestStats, List.length_take, List.length_insertionSort]

/-- The rows that are not in the window are as old as each that is. -/
theorem newestStats_newer (limit : ℕ) {r r' : StatsRow} (hr : r ∈ db.newestStats pk limit)
    (hr' : r' ∈ ((db.nodeStats pk).insertionSort fun r r' =>
      r'.timestamp ≤ r.timestamp).drop limit) : r'.timestamp ≤ r.timestamp := by
  have htotal : Std.Total fun r r' : StatsRow => r'.timestamp ≤ r.timestamp :=
    ⟨fun r r' => le_total _ _⟩
  have htrans : IsTrans StatsRow fun r r' => r'.timestamp ≤ r.timestamp :=
    ⟨fun _ _ _ h h' => le_trans h' h⟩
  have hsorted := List.pairwise_insertionSort (fun r r' : StatsRow => r'.timestamp ≤ r.timestamp)
    (db.nodeStats pk)
  rw [← List.take_append_drop limit (List.insertionSort _ _), List.pairwise_append] at hsorted
  exact hsorted.2.2 r hr r' hr'

/-- The limit of the window, read as a timestamp and bound to the query, is the one it was. -/
theorem toInt_toInt64 {r : StatsRow} (h : r.InColumn) :
    (Int64.ofInt r.timestamp).toUInt64.toInt64.toInt = r.timestamp := by
  show (Int64.ofInt r.timestamp).toInt = r.timestamp
  exact Int64.toInt_ofInt_of_le h.1 h.2

/-- After a row of the window less is read than the window. -/
theorem length_getNodeStatsFrom_lt {limit : ℕ} {r : StatsRow} (hcolumn : r.InColumn)
    (hmem : r ∈ db.newestStats pk limit) :
    (db.getNodeStatsFrom pk (Int64.ofInt r.timestamp).toUInt64).length
      < (db.newestStats pk limit).length := by
  unfold getNodeStatsFrom
  rw [toInt_toInt64 hcolumn, ← ((db.newestStats_perm pk limit).filter _).length_eq,
    List.filter_append, List.length_append]
  have hrest : (((db.nodeStats pk).insertionSort fun r r' => r'.timestamp ≤ r.timestamp).drop
      limit).filter (fun r' => r.timestamp < r'.timestamp) = [] := by
    refine List.filter_eq_nil_iff.2 fun r' hr' => ?_
    have := db.newestStats_newer pk limit hmem hr'
    simpa using this
  rw [hrest, List.length_nil, Nat.add_zero, List.length_filter_lt_length_iff_exists]
  exact ⟨r, hmem, by simp⟩

/-- The window is read whole, and nothing else, only where the node has no rows, provided that the
minimum of no rows can be read. -/
theorem window_iff (h : ∀ r ∈ db.stats, r.InColumn) :
    (∃ rows, plotRows null db pk 0 = some rows ∧ Newest 50 (db.nodeStats pk) rows)
      ↔ db.nodeStats pk = [] ∧ null ≠ none := by
  have hrows : plotRows null db pk 0
      = (db.getMinStatsTimestampInLimit null pk 50).map (db.getNodeStatsFrom pk) := by
    unfold plotRows
    rw [if_pos rfl]
    cases db.getMinStatsTimestampInLimit null pk 50 <;> rfl
  rw [hrows]
  unfold getMinStatsTimestampInLimit
  rcases hmin : ((db.newestStats pk 50).map StatsRow.timestamp).min? with _ | timestamp
  · -- there is no row in the window, so there is none at all
    rw [List.min?_eq_none_iff, List.map_eq_nil_iff] at hmin
    have hlen := db.length_newestStats pk 50
    rw [hmin, List.length_nil] at hlen
    have hnil : db.nodeStats pk = [] := List.length_eq_zero_iff.1 (by omega)
    have hread (timestamp) : db.getNodeStatsFrom pk timestamp = [] := by
      rw [getNodeStatsFrom, hnil, List.filter_nil]
    rw [and_iff_right hnil, hnil]
    cases null with
    | none => simp
    | some timestamp =>
      refine iff_of_true ⟨[], by rw [Option.map_some, hread], ?_⟩ (Option.some_ne_none _)
      exact ⟨List.nil_subperm, rfl, fun _ hr => absurd hr List.not_mem_nil⟩
  · obtain ⟨r, hr, rfl⟩ := List.mem_map.1 (List.min?_eq_some_iff.1 hmin).1
    have hall : r ∈ db.nodeStats pk :=
      (db.newestStats_perm pk 50).subset (List.mem_append_left _ hr)
    have hlt := db.length_getNodeStatsFrom_lt pk (h r (List.mem_filter.1 hall).1) hr
    refine iff_of_false ?_ fun hnil => List.ne_nil_of_mem hall hnil.1
    rintro ⟨rows, hrows, hnewest⟩
    obtain rfl := Option.some.inj hrows
    rw [hnewest.length, length_newestStats] at hlt
    exact lt_irrefl _ hlt

section Witness

/-- A node that has reported nothing, in a network where another one has. -/
theorem window_toyPair :
    let db := { toyPair with stats := [5, 6].map fun timestamp =>
      ⟨timestamp, toyPair.getNodeId (toyKey 4).bytes, [], []⟩ }
    ∃ rows, plotRows (some 0) db (toyKey 0).bytes 0 = some rows
      ∧ Newest 50 (db.nodeStats (toyKey 0).bytes) rows :=
  (window_iff (some 0) _ (toyKey 0).bytes (by decide +kernel)).2 (by decide +kernel)

/-- A node's only row is not read. -/
theorem not_window_toyGenesis :
    ¬ ∀ (db : Database) (pk : Bytes), (∀ r ∈ db.stats, r.InColumn) →
      ((db.nodeStats pk).map StatsRow.timestamp).Nodup →
      ∃ rows, plotRows (some 0) db pk 0 = some rows ∧ Newest 50 (db.nodeStats pk) rows := by
  intro h
  obtain ⟨db, hcolumn, hdistinct, hnone, hlen⟩ : ∃ db : Database,
      (∀ r ∈ db.stats, r.InColumn) ∧ ((db.nodeStats (toyKey 0).bytes).map StatsRow.timestamp).Nodup
        ∧ plotRows (some 0) db (toyKey 0).bytes 0 = some []
        ∧ (db.nodeStats (toyKey 0).bytes).length = 1 :=
    ⟨{ toyGenesis with stats := [⟨5, toyGenesis.getNodeId (toyKey 0).bytes, [], []⟩] },
      by decide +kernel⟩
  obtain ⟨rows, hrows, hnewest⟩ := h db _ hcolumn hdistinct
  obtain rfl := Option.some.inj (hnone.symm.trans hrows)
  have := hnewest.length
  rw [hlen] at this
  cases this

end Witness

end Nyumt.Database
