import Nyumt.Proofs.Feed

/-!
# The statistics a client is sent

The session's timestamp is that of the last row sent, and a scan asks for those past it. A row
stored under a timestamp that is not past it is never asked for. So a client is sent all the new
rows just when each is stored past the session's timestamp (`delivers_run_iff`). Rows that name no
node may be equal, so it is counted how often a row is stored and sent.
-/

namespace Nyumt

open Borsh

def Outgoing.statsRows : Outgoing → List StatsRow
  | .blocks _ => []
  | .stats rows => rows

theorem StatsRow.toInt_time {r : StatsRow} (h : r.InColumn) :
    r.time.toInt64.toInt = r.timestamp := by
  rw [time, Int64.toInt64_toUInt64, Int64.toInt_ofInt_of_le h.1 h.2]

namespace Feed

variable {s s' : Feed} {a : Act} {r : StatsRow} {old : List StatsRow}

def sentStats (s : Feed) : List StatsRow := s.sent.flatMap Outgoing.statsRows

/-- The timestamp a scan goes from. -/
def cursor (s : Feed) : ℤ := s.timestamp.toInt64.toInt

/-- Nothing is stored. -/
def Act.IsPoll : Act → Prop
  | .append _ | .store _ _ _ _ => False
  | _ => True

theorem Act.IsPoll.small (h : a.IsPoll) : a.Small := by
  cases a <;> simp_all [IsPoll, Small]

/-- A row is stored under a timestamp past the session's. -/
def Fresh (s : Feed) : Act → Prop
  | .store node timestamp _ _ => s.Taken node timestamp ∨ s.cursor < timestamp.toInt64.toInt
  | _ => True

/-- No row is sent more often than it is stored, and each behind the `old` ones is sent as often by
the time a poll for statistics is over, whatever else goes on meanwhile. -/
def Delivers (old : List StatsRow) (s : Feed) : Prop :=
  s.sentStats.Subperm s.stats ∧ ∀ r ∈ s.stats.drop old.length, ∀ bs s', (∀ b ∈ bs, b.Small) →
    Run.run step s bs = some s' → .ready ∈ bs → s'.pc = .poll →
      s.stats.count r ≤ s'.sentStats.count r

/-- A scan returned `rows`, and `out` was sent. -/
structure Scanned (s : Feed) (rows out : List StatsRow) (s' : Feed) : Prop where
  pc : s.pc = .stats
  poll : s'.pc = .poll
  perm : rows.Perm s.statsFrom
  sorted : rows.Pairwise fun r r' => r.timestamp ≤ r'.timestamp
  stats : s'.stats = s.stats
  part : out <+: rows
  sent : s'.sentStats = s.sentStats ++ out
  timestamp : s'.timestamp = out.getLast?.elim s.timestamp StatsRow.time
  all : (∀ r ∈ s.stats, r.Ok) → out = rows

theorem flatMap_statsRows_blocks (cs : List (List OrderRow)) :
    (cs.map Outgoing.blocks).flatMap Outgoing.statsRows = [] := by
  simp [Outgoing.statsRows]

theorem flatMap_statsRows_stats (cs : List (List StatsRow)) :
    (cs.map Outgoing.stats).flatMap Outgoing.statsRows = cs.flatten := by
  rw [List.flatMap_map, ← List.flatMap_id]
  rfl

theorem mem_statsFrom : r ∈ s.statsFrom ↔ r ∈ s.stats ∧ s.cursor < r.timestamp := by
  simp [statsFrom, cursor]

theorem scanned {rows : List StatsRow} (hs : s.step (.stats rows) = some s') :
    ∃ out, Scanned s rows out s' := by
  obtain _ | _ | _ | _ | _ | _ | _ | _ | ⟨hpc, hperm, hsorted⟩ := of_step hs
  obtain ⟨cs, hcs, htime, hpre⟩ := sendStats_part rows [] 0 s.timestamp (by simp)
  refine ⟨cs.flatten, hpc, rfl, hperm, hsorted, rfl, hpre, ?_, htime, fun h => ?_⟩
  · simp only [sentStats, hcs, List.flatMap_append, flatMap_statsRows_stats]
  · have hok : ∀ x ∈ rows, x.Ok := fun x hx => h x (mem_statsFrom.1 (hperm.mem_iff.1 hx)).1
    have hsend := sendStats_eq rows [] 0 s.timestamp (by simp) fun x hx => (hok x hx).small
    rw [List.nil_append, hcs] at hsend
    rw [← flatMap_statsRows_stats, hsend, flatMap_statsRows_stats, List.flatten_chunks (by simp)]

theorem stats_cases (hs : s.step a = some s') :
    s'.stats = s.stats ∧ s'.sentStats = s.sentStats ∧ s'.timestamp = s.timestamp
        ∧ (s.pc = .stats → s'.pc = .stats)
      ∨ (∃ node timestamp data sig, a = .store node timestamp data sig ∧ ¬ s.Taken node timestamp
        ∧ s' = { s with stats := s.stats ++ [⟨timestamp.toInt64.toInt, node, data, sig⟩] })
      ∨ ∃ rows out, a = .stats rows ∧ Scanned s rows out s' := by
  cases of_step hs with
  | append | taken | noBlocks | noStats => exact .inl ⟨rfl, rfl, rfl, id⟩
  | store data sig htaken => exact .inr (.inl ⟨_, _, data, sig, rfl, htaken, rfl⟩)
  | height hpc | ready hpc => exact .inl ⟨rfl, rfl, rfl, by simp [hpc]⟩
  | @blocks last hpc =>
    obtain ⟨cs, hcs⟩ := sendBlocks_blocks last s.blocksFrom [] s.height
    refine .inl ⟨rfl, ?_, rfl, by simp [hpc]⟩
    simp only [sentStats, hcs, List.flatMap_append, flatMap_statsRows_blocks, List.append_nil]
  | @stats rows =>
    obtain ⟨out, h⟩ := scanned hs
    exact .inr (.inr ⟨rows, out, rfl, h⟩)

namespace Scanned

variable {rows out : List StatsRow}

theorem mem (h : Scanned s rows out s') (hr : r ∈ out) : r ∈ s.stats ∧ s.cursor < r.timestamp :=
  mem_statsFrom.1 (h.perm.mem_iff.1 (h.part.subset hr))

theorem count_le (h : Scanned s rows out s') (r : StatsRow) : out.count r ≤ s.stats.count r :=
  calc out.count r ≤ rows.count r := h.part.sublist.count_le r
    _ = s.statsFrom.count r := h.perm.count_eq r
    _ ≤ s.stats.count r := List.filter_sublist.count_le r

/-- A row the scan finds goes out as often as it is stored. -/
theorem count_eq (h : Scanned s rows out s') (hok : ∀ r ∈ s.stats, r.Ok)
    (hr : s.cursor < r.timestamp) : out.count r = s.stats.count r := by
  rw [h.all hok, h.perm.count_eq, statsFrom, List.count_filter]
  simpa [cursor] using hr

theorem count_eq_zero (h : Scanned s rows out s') (hr : r.timestamp ≤ s.cursor) :
    out.count r = 0 :=
  List.count_eq_zero.2 fun hm => not_lt.2 hr (h.mem hm).2

theorem count_sent (h : Scanned s rows out s') (r : StatsRow) :
    s'.sentStats.count r = s.sentStats.count r + out.count r := by
  rw [h.sent, List.count_append]

/-- The timestamp goes forward, and past nothing that was sent. -/
theorem cursor_le (h : Scanned s rows out s') (hcol : ∀ r ∈ s.stats, r.InColumn) :
    s.cursor ≤ s'.cursor ∧ ∀ r ∈ out, r.timestamp ≤ s'.cursor := by
  have htime := h.timestamp
  rcases List.eq_nil_or_concat out with rfl | ⟨init, l, rfl⟩
  · rw [List.getLast?_nil, Option.elim_none] at htime
    exact ⟨by rw [cursor, cursor, htime], by simp⟩
  · rw [List.concat_eq_append] at h htime ⊢
    have hl := h.mem (List.mem_append_right init List.mem_cons_self)
    rw [List.getLast?_concat, Option.elim_some] at htime
    have hcursor : s'.cursor = l.timestamp := by
      rw [cursor, htime, StatsRow.toInt_time (hcol l hl.1)]
    have hsorted := (List.pairwise_append.1 (h.sorted.sublist h.part.sublist)).2.2
    refine ⟨hcursor ▸ hl.2.le, List.forall_mem_append.2 ⟨fun r hr => ?_, ?_⟩⟩
    · exact hcursor ▸ hsorted r hr l List.mem_cons_self
    · exact List.forall_mem_singleton.2 hcursor.ge

end Scanned

structure StatsInv (s : Feed) : Prop where
  ok : ∀ r ∈ s.stats, r.Ok
  sent : s.sentStats.Subperm s.stats
  le : ∀ r ∈ s.sentStats, r.timestamp ≤ s.cursor

/-- The row has been sent `n` times, or a scan would find it as often. -/
def Due (n : ℕ) (r : StatsRow) (s : Feed) : Prop :=
  n ≤ s.sentStats.count r ∨ n ≤ s.stats.count r ∧ s.cursor < r.timestamp

/-- The row has been sent `n` times, or the next scan is to find it as often. -/
def Scheduled (n : ℕ) (r : StatsRow) (s : Feed) : Prop :=
  n ≤ s.sentStats.count r ∨ (n ≤ s.stats.count r ∧ s.cursor < r.timestamp) ∧ s.pc = .stats

/-- The row is not to be sent `n` times. -/
def Lost (n : ℕ) (r : StatsRow) (s : Feed) : Prop :=
  s.sentStats.count r < n ∧ r.timestamp ≤ s.cursor ∧ ∀ x ∈ s.stats, x.InColumn

instance (s : Feed) : ∀ a, Decidable (s.Fresh a)
  | .store _ _ _ _ => inferInstanceAs (Decidable (_ ∨ _))
  | .append _ | .height | .blocks | .ready | .stats _ => isTrue trivial

namespace StatsInv

theorem column (hi : StatsInv s) : ∀ r ∈ s.stats, r.InColumn := fun r hr => (hi.ok r hr).column

theorem of_eq (hi : StatsInv s) (hstats : s'.stats = s.stats) (hsent : s'.sentStats = s.sentStats)
    (htime : s'.timestamp = s.timestamp) : StatsInv s' where
  ok := hstats ▸ hi.ok
  sent := by rw [hsent, hstats]; exact hi.sent
  le := by rw [hsent, cursor, htime]; exact hi.le

/-- What a scan finds has not been sent. -/
theorem count_eq_zero (hi : StatsInv s) (hr : s.cursor < r.timestamp) : s.sentStats.count r = 0 :=
  List.count_eq_zero.2 fun hm => not_lt.2 (hi.le r hm) hr

theorem scan {rows out : List StatsRow} (hi : StatsInv s) (h : Scanned s rows out s') :
    StatsInv s' := by
  obtain ⟨hle, hout⟩ := h.cursor_le hi.column
  refine ⟨h.stats ▸ hi.ok, List.subperm_ext_iff.2 fun r _ => ?_, ?_⟩
  · rw [h.count_sent, h.stats]
    rcases lt_or_ge s.cursor r.timestamp with hr | hr
    · rw [hi.count_eq_zero hr, Nat.zero_add]
      exact h.count_le r
    · rw [h.count_eq_zero hr, Nat.add_zero]
      exact hi.sent.count_le r
  · rw [h.sent]
    exact List.forall_mem_append.2 ⟨fun r hr => (hi.le r hr).trans hle, hout⟩

theorem step (hi : StatsInv s) (ha : a.Small) (hs : s.step a = some s') : StatsInv s' := by
  rcases stats_cases hs with ⟨hstats, hsent, htime, -⟩
    | ⟨node, timestamp, data, sig, rfl, -, rfl⟩ | ⟨rows, out, rfl, h⟩
  · exact hi.of_eq hstats hsent htime
  · exact ⟨List.forall_mem_append.2 ⟨hi.ok, List.forall_mem_singleton.2 ha.row⟩,
      hi.sent.trans (List.sublist_append_left _ _).subperm, hi.le⟩
  · exact hi.scan h

/-- What each step keeps along with the invariant is kept by a run. -/
theorem run {P : Feed → Prop} {bs : List Act}
    (hP : ∀ s s' a, StatsInv s → s.step a = some s' → P s → P s') (hi : StatsInv s) (hp : P s)
    (hbs : ∀ b ∈ bs, b.Small) (hr : Run.run Feed.step s bs = some s') : StatsInv s' ∧ P s' := by
  refine Run.run_induction (I := fun s => StatsInv s ∧ P s) (fun _ _ _ hb hs h => ?_)
    (Run.along_of_forall hbs) hr ⟨hi, hp⟩
  exact ⟨h.1.step hb hs, hP _ _ _ h.1 hs h.2⟩

end StatsInv

section Due

variable {n : ℕ}

/-- A scan sends what is due. -/
theorem Due.sent {rows out : List StatsRow} (hd : Due n r s) (hi : StatsInv s)
    (h : Scanned s rows out s') : n ≤ s'.sentStats.count r := by
  rw [h.count_sent]
  rcases hd with hsent | ⟨hcount, hlt⟩
  · omega
  · rw [h.count_eq hi.ok hlt]
    omega

theorem Due.step (hd : Due n r s) (hi : StatsInv s) (hs : s.step a = some s') : Due n r s' := by
  rcases stats_cases hs with ⟨hstats, hsent, htime, -⟩ | ⟨node, timestamp, data, sig, rfl, -, rfl⟩
    | ⟨rows, out, rfl, h⟩
  · rw [Due, hstats, hsent, cursor, htime]
    exact hd
  · exact hd.imp_right fun h => ⟨h.1.trans ((List.sublist_append_left _ _).count_le r), h.2⟩
  · exact .inl (hd.sent hi h)

theorem Scheduled.due (h : Scheduled n r s) : Due n r s := h.imp_right And.left

theorem Scheduled.step (hd : Scheduled n r s) (hi : StatsInv s) (hs : s.step a = some s') :
    Scheduled n r s' := by
  rcases stats_cases hs with ⟨hstats, hsent, htime, hpc⟩ | ⟨node, timestamp, data, sig, rfl, -, rfl⟩
    | ⟨rows, out, rfl, h⟩
  · rw [Scheduled, hstats, hsent, cursor, htime]
    exact hd.imp_right fun h => ⟨h.1, hpc h.2⟩
  · refine hd.imp_right fun h => ⟨⟨?_, h.1.2⟩, h.2⟩
    exact h.1.1.trans ((List.sublist_append_left _ _).count_le r)
  · exact .inl (hd.due.sent hi h)

theorem Due.ready (hd : Due n r s) (hs : s.step .ready = some s') : Scheduled n r s' := by
  cases of_step hs with
  | ready => exact hd.imp_right fun h => ⟨h, rfl⟩
  | noStats _ hnil =>
    -- no row is past the session's timestamp, so `n` is zero or was sent
    refine .inl (hd.elim id fun ⟨hcount, hlt⟩ => ?_)
    have hnot : r ∉ s.stats := fun hm => List.ne_nil_of_mem (mem_statsFrom.2 ⟨hm, hlt⟩) hnil
    rw [List.count_eq_zero.2 hnot] at hcount
    omega

/-- What is due is sent by the time a poll for statistics is over. -/
theorem Due.delivered {bs : List Act} (hd : Due n r s) (hi : StatsInv s)
    (hbs : ∀ b ∈ bs, b.Small) (hr : Run.run Feed.step s bs = some s') (hready : .ready ∈ bs)
    (hpc : s'.pc = .poll) : n ≤ s'.sentStats.count r := by
  obtain ⟨pre, post, rfl⟩ := List.append_of_mem hready
  obtain ⟨hpre, hpost⟩ := List.forall_mem_append.1 hbs
  obtain ⟨hb, hpost⟩ := List.forall_mem_cons.1 hpost
  rw [Run.run_append] at hr
  obtain ⟨t, ht, hr⟩ := Option.bind_eq_some_iff.1 hr
  obtain ⟨u, hu, hr⟩ := Run.of_run_cons hr
  obtain ⟨hit, hdt⟩ := hi.run (P := Due n r) (fun _ _ _ hi hs hd => hd.step hi hs) hd hpre ht
  obtain ⟨-, hsent | ⟨-, hscan⟩⟩ := (hit.step hb hu).run (P := Scheduled n r)
    (fun _ _ _ hi hs hd => hd.step hi hs) (hdt.ready hu) hpost hr
  · exact hsent
  · rw [hpc] at hscan
    cases hscan

theorem Lost.step (h : Lost n r s) (hs : s.step a = some s') : Lost n r s' := by
  obtain ⟨hsent, hlate, hcol⟩ := h
  rcases stats_cases hs with ⟨hstats, hsent', htime, -⟩ | ⟨node, timestamp, data, sig, rfl, -, rfl⟩
    | ⟨rows, out, rfl, h⟩
  · rw [Lost, hsent', hstats, cursor, htime]
    exact ⟨hsent, hlate, hcol⟩
  · exact ⟨hsent, hlate, List.forall_mem_append.2
      ⟨hcol, List.forall_mem_singleton.2 (inColumn_toInt _ _ _ _)⟩⟩
  · obtain ⟨hle, -⟩ := h.cursor_le hcol
    refine ⟨?_, hlate.trans hle, h.stats ▸ hcol⟩
    rw [h.count_sent, h.count_eq_zero hlate]
    exact hsent

theorem Lost.run {bs : List Act} (h : Lost n r s) (hr : Run.run Feed.step s bs = some s') :
    Lost n r s' :=
  Run.reaches_induction (fun _ _ _ hs h => h.step hs) ⟨bs, hr⟩ h

end Due

theorem exists_scan (h : s.pc = .stats) :
    ∃ rows s', s.step (.stats rows) = some s' ∧ s'.pc = .poll := by
  have : Std.Total fun r r' : StatsRow => r.timestamp ≤ r'.timestamp := ⟨fun r r' => le_total _ _⟩
  have : IsTrans StatsRow fun r r' => r.timestamp ≤ r'.timestamp := ⟨fun _ _ _ => le_trans⟩
  refine ⟨s.statsFrom.insertionSort fun r r' => r.timestamp ≤ r'.timestamp, ?_⟩
  simp only [step, h]
  rw [if_pos ⟨List.perm_insertionSort _ _, List.pairwise_insertionSort _ _⟩]
  exact ⟨_, rfl, rfl⟩

/-- From where it stands, a session can carry a poll for statistics through. -/
theorem exists_polls_of_poll (h : s.pc = .poll) : ∃ bs s', (∀ b ∈ bs, b.IsPoll)
    ∧ Run.run step s bs = some s' ∧ .ready ∈ bs ∧ s'.pc = .poll := by
  by_cases hnil : s.statsFrom = []
  · refine ⟨[.ready], s, ?_, ?_, List.mem_cons_self, h⟩
    · exact List.forall_mem_singleton.2 trivial
    · simp [Run.run, step, h, hnil]
  · obtain ⟨rows, s', hs', hpc⟩ := exists_scan (s := { s with pc := .stats }) rfl
    refine ⟨[.ready, .stats rows], s', by simp [Act.IsPoll], ?_, List.mem_cons_self, hpc⟩
    have hready : s.step .ready = some { s with pc := .stats } := by simp [step, h, hnil]
    rw [Run.run_cons _ hready, Run.run_cons _ hs', Run.run_nil]

theorem exists_polls (s : Feed) : ∃ bs s', (∀ b ∈ bs, b.IsPoll)
    ∧ Run.run step s bs = some s' ∧ .ready ∈ bs ∧ s'.pc = .poll := by
  have h : ∃ b t, b.IsPoll ∧ (s.pc = .poll ∨ s.step b = some t ∧ t.pc = .poll) := by
    rcases hpc : s.pc with _ | last | _
    · exact ⟨.ready, s, trivial, .inl rfl⟩
    · exact ⟨.blocks, _, trivial, .inr ⟨by simp only [step, hpc]; rfl, rfl⟩⟩
    · obtain ⟨rows, t, ht, hpoll⟩ := exists_scan hpc
      exact ⟨.stats rows, t, trivial, .inr ⟨ht, hpoll⟩⟩
  obtain ⟨b, t, hb, hpc | ⟨ht, hpc⟩⟩ := h
  · exact exists_polls_of_poll hpc
  · obtain ⟨bs, s', hbs, hr, hm, hend⟩ := exists_polls_of_poll hpc
    exact ⟨b :: bs, s', List.forall_mem_cons.2 ⟨hb, hbs⟩, by rw [Run.run_cons _ ht, hr],
      List.mem_cons_of_mem _ hm, hend⟩

/-- Each new row has been sent or is due. -/
structure DeliveryInv (old : List StatsRow) (s : Feed) : Prop extends StatsInv s where
  kept : old.length ≤ s.stats.length
  due : ∀ r ∈ s.stats.drop old.length, Due (s.stats.count r) r s

theorem DeliveryInv.delivers (hi : DeliveryInv old s) : Delivers old s :=
  ⟨hi.sent, fun r hr _ _ hbs hrun hready hpc =>
    (hi.due r hr).delivered hi.toStatsInv hbs hrun hready hpc⟩

theorem DeliveryInv.of_eq (hi : DeliveryInv old s) (hi' : StatsInv s')
    (hstats : s'.stats = s.stats) (hs : s.step a = some s') : DeliveryInv old s' where
  toStatsInv := hi'
  kept := hstats ▸ hi.kept
  due r hr := by
    rw [hstats] at hr ⊢
    exact (hi.due r hr).step hi.toStatsInv hs

theorem DeliveryInv.step (hi : DeliveryInv old s) (ha : a.Small) (hok : s.Fresh a)
    (hs : s.step a = some s') : DeliveryInv old s' := by
  have hi' := hi.toStatsInv.step ha hs
  rcases stats_cases hs with ⟨hstats, -, -, -⟩ | ⟨node, timestamp, data, sig, rfl, htaken, rfl⟩
    | ⟨rows, out, rfl, h⟩
  · exact hi.of_eq hi' hstats hs
  · have hlt := hok.resolve_left htaken
    refine ⟨hi', hi.kept.trans (List.sublist_append_left _ _).length_le, fun r hr => ?_⟩
    by_cases he : r = ⟨timestamp.toInt64.toInt, node, data, sig⟩
    · subst he
      exact .inr ⟨le_rfl, hlt⟩
    · rw [List.drop_append_of_le_length hi.kept, List.mem_append, List.mem_singleton,
        or_iff_left he] at hr
      have hcount : (s.stats ++ [StatsRow.mk timestamp.toInt64.toInt node data sig]).count r
          = s.stats.count r := by
        simp [Ne.symm he]
      rw [hcount]
      exact (hi.due r hr).step hi.toStatsInv hs
  · exact hi.of_eq hi' h.stats hs

/-- A row that is stored otherwise is never sent. -/
theorem fresh_of_delivers (hi : DeliveryInv old s) (hs : s.step a = some s')
    (hd : Delivers old s') : s.Fresh a := by
  cases of_step hs with
  | taken data sig htaken => exact .inl htaken
  | @store node timestamp data sig htaken =>
    by_contra hnot
    have hlate : timestamp.toInt64.toInt ≤ s.cursor := by
      simpa [Fresh, htaken] using hnot
    generalize hrow : (⟨timestamp.toInt64.toInt, node, data, sig⟩ : StatsRow) = row at hd
    obtain ⟨bs, t, hbs, hr, hready, hpc⟩ := exists_polls { s with stats := s.stats ++ [row] }
    have hcount : (s.stats ++ [row]).count row = s.stats.count row + 1 := by simp
    have hlost : Lost ((s.stats ++ [row]).count row) row t := by
      refine Lost.run ⟨?_, hrow ▸ hlate, ?_⟩ hr
      · rw [hcount]
        exact Nat.lt_succ_of_le (hi.sent.count_le row)
      · exact List.forall_mem_append.2
          ⟨hi.column, List.forall_mem_singleton.2 (hrow ▸ inColumn_toInt _ _ _ _)⟩
    have hmem : row ∈ (s.stats ++ [row]).drop old.length := by
      rw [List.drop_append_of_le_length hi.kept]
      exact List.mem_append_right _ List.mem_cons_self
    have hsent := hd.2 row hmem bs t (fun b hb => (hbs b hb).small) hr hready hpc
    exact absurd hsent (not_le.2 hlost.1)
  | append | height | noBlocks | blocks | ready | noStats | stats => trivial

/-- Each new row is sent, and once, just when each is stored under a timestamp past the
session's. -/
theorem delivers_run_iff {order : List OrderRow} {stats : List StatsRow}
    {settings : SessionSettings} {as : List Act} (hstats : ∀ r ∈ stats, r.Ok)
    (has : ∀ a ∈ as, a.Small) (hr : Run.run step (init order stats settings) as = some s) :
    Run.Throughout step (Delivers stats) (init order stats settings) as ↔
      Run.Along step Fresh (init order stats settings) as := by
  refine Run.throughout_iff_along (I := DeliveryInv stats) (P := Delivers stats)
    (c := fun _ a => a.Small) (fun s hi => hi.delivers)
    (fun s a s' ha hok hs hi => hi.step ha hok hs)
    (fun s a s' _ hs hi hd => fresh_of_delivers hi hs hd) (Run.along_of_forall has) hr ?_
  refine ⟨⟨hstats, List.nil_subperm, List.forall_mem_nil _⟩, le_rfl, fun r hr => ?_⟩
  simp [init] at hr

def firstReport : StatsRow := ⟨5, some 1, [], []⟩

/-- The report of another node of the same second. -/
def secondReport : StatsRow := ⟨5, some 2, [], []⟩

/-- The report of a node that was removed. -/
def namelessReport : StatsRow := ⟨5, none, [], []⟩

/-- All are stored before the scan, one of them twice. -/
theorem delivers_run_iff_before :
    Run.Throughout step (Delivers []) (init [] [] ⟨0, 0⟩)
      [.store (some 1) 5 [] [], .ready, .store none 5 [] [], .store none 5 [] [],
        .stats [firstReport, namelessReport, namelessReport]] :=
  have hr : Run.run step (init [] [] ⟨0, 0⟩)
      [.store (some 1) 5 [] [], .ready, .store none 5 [] [], .store none 5 [] [],
        .stats [firstReport, namelessReport, namelessReport]]
      = some ⟨[], [firstReport, namelessReport, namelessReport], 0, 5,
        [.stats [firstReport, namelessReport, namelessReport]], .poll⟩ := by
    decide +kernel
  (delivers_run_iff (by simp) (by simp [Act.Small]) hr).2 (by decide +kernel)

/-- The second is stored after the first was sent, and is not sent whatever comes after it. -/
theorem not_delivers_run :
    ∃ s, Run.run step (init [] [] ⟨0, 0⟩) [.store (some 1) 5 [] [], .ready, .stats [firstReport],
        .store (some 2) 5 [] []] = some s
      ∧ secondReport ∈ s.stats
      ∧ ∀ bs s', Run.run step s bs = some s' → secondReport ∉ s'.sentStats := by
  refine ⟨⟨[], [firstReport, secondReport], 0, 5, [.stats [firstReport]], .poll⟩, by decide +kernel,
    by decide, fun bs s' hr => ?_⟩
  have hlost : Lost 1 secondReport s' := by
    refine Lost.run ⟨by decide, by decide, ?_⟩ hr
    simp [StatsRow.InColumn, firstReport, secondReport]
  exact List.count_eq_zero.1 (Nat.lt_one_iff.1 hlost.1)

end Feed

end Nyumt
