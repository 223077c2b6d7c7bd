import Nyumt.Proofs.Feed

/-!
# The blocks a client is sent

A poll reads the last height and then scans, and rows may be stored in between. The scan counts
every row it reads, but those past the height read before are sent only nine at a time. So
the client is sent all the rows up to its height as long as each scan finds none past that height,
or nine, or eighteen (`streamed_run_iff`).
-/

namespace Nyumt

open Borsh

def Outgoing.orderRows : Outgoing → List OrderRow
  | .blocks rows => rows
  | .stats _ => []

namespace Feed

variable {s s' : Feed} {h0 : ℤ} {last : ℕ}

def sentRows (s : Feed) : List OrderRow := s.sent.flatMap Outgoing.orderRows

/-- Sent is each row past the height the client began with, up to its height now. -/
def Streamed (h0 : ℤ) (s : Feed) : Prop :=
  s.sentRows = Table.between OrderRow.id h0 s.height s.order

def past (s : Feed) (last : ℕ) : ℕ := s.order.countP fun r => last < r.id

/-- How many ids are missing between the client's height and the first row. -/
def missing (s : Feed) : ℕ := (s.order.head?.elim 0 fun r => (r.id : ℤ) - 1 - s.height).toNat

/-- The scan finds no more rows past the height read before it than fill messages. Rows missing
before the first one are counted as if they were read. -/
def LeavesNone (s : Feed) : Act → Prop
  | .blocks => ∀ last, s.pc = .blocks last → s.past last % 9 = s.missing
  | _ => True

structure BlockInv (h0 : ℤ) (s : Feed) : Prop where
  ids : Table.Consecutive OrderRow.id s.order
  small : ∀ r ∈ s.order, r.Small
  start : h0 ≤ s.height
  height : s.height = h0 ∨ ∃ r ∈ s.order, s.height ≤ r.id
  streamed : s.Streamed h0
  last : ∀ last, s.pc = .blocks last → s.height < last ∧ ∃ r ∈ s.order, r.id = last

instance (h0 : ℤ) (s : Feed) : Decidable (s.Streamed h0) := inferInstanceAs (Decidable (_ = _))

instance (s : Feed) : DecidablePred s.LeavesNone
  | .blocks => inferInstanceAs (Decidable (∀ last, s.pc = .blocks last → _))
  | .append _ | .store _ _ _ _ | .height | .ready | .stats _ => isTrue trivial

theorem missing_eq {b : ℕ} (h : s.order.map OrderRow.id = List.range' b s.order.length)
    (hne : s.order ≠ []) : s.missing = ((b : ℤ) - 1 - s.height).toNat := by
  obtain ⟨r, rows, ho⟩ := List.exists_cons_of_ne_nil hne
  rw [ho, List.map_cons, List.length_cons, List.range'_succ, List.cons.injEq] at h
  rw [missing, ho, List.head?_cons, Option.elim_some, h.1]

theorem past_add {b : ℕ} {l : OrderRow}
    (h : s.order.map OrderRow.id = List.range' b s.order.length) (hl : l ∈ s.order) :
    l.id + s.past l.id + 1 = b + s.order.length := by
  obtain ⟨lo, hi, ho⟩ := List.append_of_mem hl
  obtain ⟨hlo, hlid, hhi⟩ := Table.range'_split (ho ▸ h)
  have hpast : s.past l.id = hi.length := by
    unfold past
    rw [ho, List.countP_append, List.countP_cons_of_neg (by simp), List.countP_eq_zero.2,
      List.countP_eq_length.2, zero_add]
    · intro r hr
      have := (Table.mem_range' hhi hr).1
      simp
      omega
    · intro r hr
      have := (Table.mem_range' hlo hr).2
      simp
      omega
  rw [hpast, ho, List.length_append, List.length_cons]
  omega

theorem flatMap_blocks (cs : List (List OrderRow)) :
    (cs.map Outgoing.blocks).flatMap Outgoing.orderRows = cs.flatten := by
  rw [List.flatMap_map, ← List.flatMap_id]
  rfl

/-- What a scan sends, and the height it leaves. -/
theorem scan (hi : BlockInv h0 s) (hpc : s.pc = .blocks last) (hs : s.step .blocks = some s') :
    s'.order = s.order ∧ s'.pc = .poll ∧ s'.height = last + s.past last - s.missing
      ∧ s'.sentRows = Table.between OrderRow.id h0 (last + (s.past last - s.past last % 9 : ℕ))
          s.order := by
  obtain ⟨b, hb⟩ := hi.ids
  obtain ⟨hlt, l, hl, rfl⟩ := hi.last last hpc
  have hmissing := missing_eq hb (List.ne_nil_of_mem hl)
  have hmem := Table.mem_range' hb hl
  have hpast := past_add hb hl
  have hsend := sendBlocks_blocksFrom hi.ids.sorted hi.small hlt ⟨l, hl, rfl⟩
  cases of_step hs with
  | blocks hpc' =>
    obtain rfl : l.id = _ := by simpa [hpc] using hpc'
    rw [hsend]
    refine ⟨rfl, rfl, ?_, ?_⟩
    · have hlen := Table.length_filter_lt s.height hb
      dsimp only
      rw [blocksFrom_eq hi.ids.sorted, hlen, hmissing]
      omega
    · change List.flatMap _ (_ ++ _) = _
      rw [List.flatMap_append, flatMap_blocks, groups, List.flatten_append,
        List.flatten_chunks (by simp), List.flatten_fulls (by simp), ← List.countP_eq_length_filter,
        Table.take_filter_lt _ hb (by omega), Table.between_append hlt.le (by omega) hi.ids.sorted,
        ← Table.between_append hi.start (by omega) hi.ids.sorted]
      exact congrArg (· ++ _) hi.streamed

/-- What a scan sends is what its new height says just when nothing is left. -/
theorem streamed_scan_iff (hi : BlockInv h0 s) (hpc : s.pc = .blocks last)
    (hs : s.step .blocks = some s') : s'.Streamed h0 ↔ s.past last % 9 = s.missing := by
  obtain ⟨b, hb⟩ := hi.ids
  obtain ⟨hlt, l, hl, rfl⟩ := hi.last last hpc
  obtain ⟨ho, -, hheight, hsent⟩ := scan hi hpc hs
  have hpast := past_add hb hl
  have hmem := (Table.mem_range' hb hl).1
  have hstart := hi.start
  rw [Streamed, hsent, ho, hheight,
    Table.between_inj hb (by omega) (by omega) (by omega) (by omega)]
  omega

namespace BlockInv

/-- A step that changes neither the rows nor what the client has of them. -/
theorem of_eq (hi : BlockInv h0 s) (ho : s'.order = s.order) (hh : s'.height = s.height)
    (hsent : s'.sentRows = s.sentRows)
    (hlast : ∀ last, s'.pc = .blocks last → s.height < last ∧ ∃ r ∈ s.order, r.id = last) :
    BlockInv h0 s' where
  ids := ho ▸ hi.ids
  small := ho ▸ hi.small
  start := hh ▸ hi.start
  height := by rw [ho, hh]; exact hi.height
  streamed := by rw [Streamed, hsent, ho, hh]; exact hi.streamed
  last := by rw [ho, hh]; exact hlast

theorem append (hi : BlockInv h0 s) {row : OrderRow} (hrow : row.Small)
    (hid : ∀ r ∈ s.order.getLast?, row.id = r.id + 1) :
    BlockInv h0 { s with order := s.order ++ [row] } where
  ids := hi.ids.append hid
  small := List.forall_mem_append.2 ⟨hi.small, List.forall_mem_singleton.2 hrow⟩
  start := hi.start
  height := hi.height.imp_right fun ⟨r, hr, hle⟩ => ⟨r, List.mem_append_left _ hr, hle⟩
  streamed := by
    refine hi.streamed.trans (Table.between_concat ?_).symm
    rcases hi.height with h | ⟨r, hr, hle⟩
    · exact .inl h.le
    · have := (List.pairwise_append.1 (hi.ids.append hid).sorted).2.2 r hr row (by simp)
      exact .inr (by omega)
  last last hpc := by
    obtain ⟨hlt, r, hr, he⟩ := hi.last last hpc
    exact ⟨hlt, r, List.mem_append_left _ hr, he⟩

theorem scan (hi : BlockInv h0 s) (hpc : s.pc = .blocks last)
    (hok : s.past last % 9 = s.missing) (hs : s.step .blocks = some s') : BlockInv h0 s' := by
  have hstreamed := (streamed_scan_iff hi hpc hs).2 hok
  obtain ⟨b, hb⟩ := hi.ids
  obtain ⟨hlt, l, hl, rfl⟩ := hi.last last hpc
  obtain ⟨ho, hpoll, hheight, -⟩ := Feed.scan hi hpc hs
  have hmod := Nat.mod_le (s.past l.id) 9
  have hstart := hi.start
  have hpast := past_add hb hl
  obtain ⟨r, hr, hid⟩ := Table.exists_mem_of_range' (i := l.id + s.past l.id) hb
    (by have := (Table.mem_range' hb hl).1; omega) (by omega)
  refine ⟨ho ▸ hi.ids, ho ▸ hi.small, by omega, .inr ⟨r, ho ▸ hr, ?_⟩, hstreamed, ?_⟩
  · rw [hheight, hid]
    push_cast
    omega
  · rw [hpoll]
    simp

theorem step (hi : BlockInv h0 s) {a : Act} (ha : a.Small) (hok : s.LeavesNone a)
    (hs : s.step a = some s') : BlockInv h0 s' := by
  cases of_step hs with
  | append hid => exact hi.append ha hid
  | store | taken => exact hi.of_eq rfl rfl rfl hi.last
  | @height r _ hr hlt =>
    refine hi.of_eq rfl rfl rfl fun last hlast => ?_
    obtain rfl : r.id = last := by simpa using hlast
    exact ⟨hlt, r, hr, rfl⟩
  | noBlocks | noStats => exact hi
  | @blocks last hpc => exact hi.scan hpc (hok last hpc) hs
  | ready => exact hi.of_eq rfl rfl rfl (by simp)
  | @stats rows =>
    refine hi.of_eq rfl rfl ?_ (by simp)
    obtain ⟨cs, hcs, -⟩ := sendStats_part rows [] 0 s.timestamp (by simp)
    have hnil : (cs.map Outgoing.stats).flatMap Outgoing.orderRows = [] := by
      simp [Outgoing.orderRows]
    simp only [sentRows, hcs, List.flatMap_append, hnil, List.append_nil]

end BlockInv

/-- At each poll the client has been sent all it should have of the blocks, just when no scan leaves
any. -/
theorem streamed_run_iff {order : List OrderRow} {stats : List StatsRow}
    {settings : SessionSettings} {as : List Act} (hids : Table.Consecutive OrderRow.id order)
    (hsmall : ∀ r ∈ order, r.Small) (has : ∀ a ∈ as, a.Small)
    (hr : Run.run step (init order stats settings) as = some s) :
    Run.Throughout step (fun s => s.pc = .poll → s.Streamed settings.lastRequestHeight.toInt)
        (init order stats settings) as ↔
      Run.Along step LeavesNone (init order stats settings) as := by
  refine Run.throughout_iff_along (I := BlockInv settings.lastRequestHeight.toInt)
    (P := fun s => s.pc = .poll → s.Streamed settings.lastRequestHeight.toInt)
    (c := fun _ a => a.Small) (fun s hi _ => hi.streamed)
    (fun s a s' ha hok hs hi => hi.step ha hok hs) ?_ (Run.along_of_forall has) hr ?_
  · intro s a s' _ hs hi hp
    cases a
    case blocks =>
      intro last hpc
      exact (streamed_scan_iff hi hpc hs).1 (hp (scan hi hpc hs).2.1)
    all_goals trivial
  · exact ⟨hids, hsmall, le_rfl, .inl rfl, (Table.between_self _ _).symm, by simp [init]⟩

def twoBlocks : List OrderRow := [⟨0, [], []⟩, ⟨1, [], []⟩]

theorem streamed_run_iff_before :
    Run.Throughout step (fun s => s.pc = .poll → s.Streamed (0 : Int64).toInt)
      (init twoBlocks [] ⟨0, 0⟩) [.append ⟨2, [], []⟩, .height, .blocks] :=
  have hr : Run.run step (init twoBlocks [] ⟨0, 0⟩) [.append ⟨2, [], []⟩, .height, .blocks]
      = some ⟨twoBlocks ++ [⟨2, [], []⟩], [], 2, 0, [.blocks [⟨1, [], []⟩, ⟨2, [], []⟩]],
        .poll⟩ := by
    decide +kernel
  (streamed_run_iff ⟨0, rfl⟩ (by decide) (by simp [Act.Small, OrderRow.Small]) hr).2
    (by decide +kernel)

/-- A row is stored between the query for the height and the scan. It is read and not sent, and the
client's height passes it. -/
theorem not_streamed_run :
    ∃ s, Run.run step (init twoBlocks [] ⟨0, 0⟩) [.height, .append ⟨2, [], []⟩, .blocks] = some s
      ∧ s.pc = .poll ∧ s.height = 2 ∧ s.sentRows = [⟨1, [], []⟩] ∧ ¬ s.Streamed 0 :=
  ⟨⟨twoBlocks ++ [⟨2, [], []⟩], [], 2, 0, [.blocks [⟨1, [], []⟩]], .poll⟩,
    by decide +kernel, rfl, rfl, rfl, by decide⟩

end Feed

end Nyumt
