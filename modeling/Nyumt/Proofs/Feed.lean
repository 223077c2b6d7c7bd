import Nyumt.Feed
import Nyumt.Lib.Chunks

/-!
# What a scan sends

Blocks go out nine at a time up to the height read before, whatever is left there with them; behind
that height a message goes out only when it is full (`sendBlocks_eq`). Statistics go out nine at a
time to the last (`sendStats_eq`).
-/

namespace Nyumt

open Borsh

/-- A row whose block can be written. SQLite keeps no blob of 2^31 bytes. -/
def OrderRow.Small (r : OrderRow) : Prop := r.data.length < 256 ^ 4

def StatsRow.Small (r : StatsRow) : Prop := r.data.length < 256 ^ 4 ∧ r.sig.length < 256 ^ 4

/-- The column is an `i64`. -/
def StatsRow.InColumn (r : StatsRow) : Prop := -2 ^ 63 ≤ r.timestamp ∧ r.timestamp < 2 ^ 63

structure StatsRow.Ok (r : StatsRow) : Prop where
  small : r.Small
  column : r.InColumn

instance (r : OrderRow) : Decidable r.Small := inferInstanceAs (Decidable (_ < _))

instance (r : StatsRow) : Decidable r.Small := inferInstanceAs (Decidable (_ ∧ _))

instance (r : StatsRow) : Decidable r.InColumn := inferInstanceAs (Decidable (_ ∧ _))

theorem inColumn_toInt (timestamp : UInt64) (node : Option ℕ) (data sig : Bytes) :
    StatsRow.InColumn ⟨timestamp.toInt64.toInt, node, data, sig⟩ :=
  ⟨Int64.le_toInt _, Int64.toInt_lt _⟩

namespace Feed

def Act.Small : Act → Prop
  | .append row => row.Small
  | .store _ _ data sig => data.length < 256 ^ 4 ∧ sig.length < 256 ^ 4
  | _ => True

theorem Act.Small.row {node : Option ℕ} {timestamp : UInt64} {data sig : Bytes}
    (h : Act.Small (.store node timestamp data sig)) :
    StatsRow.Ok ⟨timestamp.toInt64.toInt, node, data, sig⟩ := ⟨h, inColumn_toInt _ _ _ _⟩

/-- What is asked of the height read before a scan of blocks. -/
instance (s : Feed) (p : ℕ → Prop) [DecidablePred p] :
    Decidable (∀ last, s.pc = .blocks last → p last) :=
  match h : s.pc with
  | .blocks last => decidable_of_iff (p last) (by simp)
  | .poll | .stats => isTrue (by simp)

section Serialise

theorem isSome_blocks {rows : List OrderRow} (hlen : rows.length ≤ 9) (h : ∀ r ∈ rows, r.Small) :
    ∃ b, toVec (Outgoing.blocks rows).request = some b := by
  have hrows : (toVec (rows.map OrderRow.request)).isSome := by
    refine toVec_list_isSome (by rw [List.length_map]; omega) ?_
    intro x hx
    obtain ⟨r, hr, rfl⟩ := List.mem_map.1 hx
    exact toVec_prod_isSome (x := (_, _)) rfl (toVec_bytes_isSome (h r hr))
  obtain ⟨b, hb⟩ := Option.isSome_iff_exists.1 hrows
  exact ⟨1 :: b, congrArg (Option.map _) hb⟩

theorem isSome_stats {rows : List StatsRow} (hlen : rows.length ≤ 9) (h : ∀ r ∈ rows, r.Small) :
    ∃ b, toVec (Outgoing.stats rows).request = some b := by
  have hrows : (toVec (rows.map StatsRow.stat)).isSome := by
    refine toVec_list_isSome (by rw [List.length_map]; omega) ?_
    intro x hx
    obtain ⟨r, hr, rfl⟩ := List.mem_map.1 hx
    exact toVec_prod_isSome (x := (_, _, _)) rfl (toVec_prod_isSome (x := (_, _))
      (toVec_bytes_isSome (h r hr).1) (toVec_bytes_isSome (h r hr).2))
  obtain ⟨b, hb⟩ := Option.isSome_iff_exists.1 hrows
  exact ⟨2 :: b, congrArg (Option.map _) hb⟩

end Serialise

section Blocks

variable {last : ℕ}

theorem add_length_cons (height : ℤ) (r : OrderRow) (rows : List OrderRow) :
    height + 1 + rows.length = height + (r :: rows).length := by
  rw [List.length_cons]
  push_cast
  omega

/-- A message that goes out, not for the height read before, has nine blocks. -/
theorem length_of_full {blocks : List OrderRow} {r : OrderRow} (hr : r.id ≠ last)
    (hlen : blocks.length < 9) (hfull : last = r.id ∨ 9 ≤ (blocks ++ [r]).length) :
    (blocks ++ [r]).length = 9 := by
  rcases hfull with he | h9
  · exact absurd he.symm hr
  · rw [List.length_append, List.length_singleton] at h9 ⊢
    omega

/-- Behind the height read before, what does not fill a message is not sent. -/
theorem sendBlocks_of_notMem : ∀ {rows blocks : List OrderRow} (height : ℤ),
    (∀ r ∈ rows, r.id ≠ last) → (∀ r ∈ blocks ++ rows, r.Small) → blocks.length < 9 →
      sendBlocks last rows height blocks
        = (height + rows.length, ((blocks ++ rows).fulls 9).map .blocks)
  | [], blocks, height, _, _, hlen => by
    rw [List.append_nil, List.fulls_of_lt hlen]
    simp [sendBlocks]
  | r :: rows, blocks, height, hne, hs, hlen => by
    obtain ⟨hr, hrows⟩ := List.forall_mem_cons.1 hne
    rw [List.append_cons] at hs ⊢
    obtain ⟨hblocks, hsrows⟩ := List.forall_mem_append.1 hs
    have hcount := add_length_cons height r rows
    unfold sendBlocks
    dsimp only
    split_ifs with hfull
    · have h9 := length_of_full hr hlen hfull
      obtain ⟨b, hb⟩ := isSome_blocks h9.le hblocks
      rw [hb, sendBlocks_of_notMem (height + 1) hrows (by simpa using hsrows) (by simp),
        List.fulls_append (by simp) h9, hcount]
      rfl
    · rw [not_or, not_le] at hfull
      rw [sendBlocks_of_notMem (height + 1) hrows hs hfull.2, hcount]

/-- All that is before the row of the height read before is sent with it. -/
theorem sendBlocks_eq : ∀ {pre post blocks : List OrderRow} {l : OrderRow} (height : ℤ),
    (∀ r ∈ pre ++ post, r.id ≠ last) → l.id = last →
      (∀ r ∈ blocks ++ (pre ++ l :: post), r.Small) → blocks.length < 9 →
        sendBlocks last (pre ++ l :: post) height blocks
          = (height + (pre ++ l :: post).length,
            ((blocks ++ pre ++ [l]).chunks 9 ++ post.fulls 9).map .blocks)
  | [], post, blocks, l, height, hne, hl, hs, hlen => by
    rw [List.nil_append] at hne hs
    rw [List.append_cons] at hs
    obtain ⟨hblocks, hspost⟩ := List.forall_mem_append.1 hs
    have h9 : (blocks ++ [l]).length ≤ 9 := by
      rw [List.length_append, List.length_singleton]
      omega
    obtain ⟨b, hb⟩ := isSome_blocks h9 hblocks
    rw [List.nil_append, List.append_nil, List.chunks_of_le (by simp) h9]
    unfold sendBlocks
    dsimp only
    rw [if_pos (.inl hl.symm), hb, sendBlocks_of_notMem (height + 1) hne hspost (by simp)]
    simp only [List.nil_append, List.length_cons, List.singleton_append, List.map_cons,
      Nat.cast_add, Nat.cast_one]
    rw [add_assoc, add_comm (1 : ℤ)]
  | r :: pre, post, blocks, l, height, hne, hl, hs, hlen => by
    obtain ⟨hr, hrest⟩ := List.forall_mem_cons.1 hne
    rw [List.cons_append, List.append_cons] at hs
    obtain ⟨hblocks, hspost⟩ := List.forall_mem_append.1 hs
    have hcount := add_length_cons height r (pre ++ l :: post)
    rw [List.append_cons blocks, List.cons_append]
    unfold sendBlocks
    dsimp only
    split_ifs with hfull
    · have h9 := length_of_full hr hlen hfull
      obtain ⟨b, hb⟩ := isSome_blocks h9.le hblocks
      rw [hb, sendBlocks_eq (height + 1) hrest hl (by simpa using hspost) (by simp), hcount,
        List.append_assoc (blocks ++ [r]), List.chunks_append (by simp) h9]
      rfl
    · rw [not_or, not_le] at hfull
      rw [sendBlocks_eq (height + 1) hrest hl hs hfull.2, hcount]

theorem sendBlocks_blocks (last : ℕ) : ∀ (rows blocks : List OrderRow) (height : ℤ),
    ∃ cs : List (List OrderRow), (sendBlocks last rows height blocks).2 = cs.map .blocks
  | [], _, _ => ⟨[], rfl⟩
  | r :: rows, blocks, height => by
    unfold sendBlocks
    dsimp only
    split_ifs
    · split
      · obtain ⟨cs, hcs⟩ := sendBlocks_blocks last rows [] (height + 1)
        exact ⟨(blocks ++ [r]) :: cs, by rw [List.map_cons, ← hcs]⟩
      · exact ⟨[], rfl⟩
    · exact sendBlocks_blocks last rows (blocks ++ [r]) (height + 1)

end Blocks

section Scan

variable {s : Feed} {last : ℕ}

/-- The rows of a scan as they go together: by nines up to the height read before, and by nines
behind it where there are nine. -/
def groups (s : Feed) (last : ℕ) : List (List OrderRow) :=
  (Table.between OrderRow.id s.height last s.order).chunks 9
    ++ (s.order.filter fun r => last < r.id).fulls 9

theorem blocksFrom_eq (h : s.order.Pairwise fun r r' => r.id < r'.id) :
    s.blocksFrom = s.order.filter fun r => s.height < r.id :=
  ((h.filter _).imp le_of_lt).insertionSort_eq

/-- A scan reads the rows past the client's height and sends its groups. -/
theorem sendBlocks_blocksFrom (hsorted : s.order.Pairwise fun r r' => r.id < r'.id)
    (hsmall : ∀ r ∈ s.order, r.Small) (hlt : s.height < last) (hl : ∃ r ∈ s.order, r.id = last) :
    sendBlocks last s.blocksFrom s.height []
      = (s.height + s.blocksFrom.length, (s.groups last).map .blocks) := by
  obtain ⟨l, hl, rfl⟩ := hl
  obtain ⟨lo, hi, ho⟩ := List.append_of_mem hl
  have hsplit := hsorted
  rw [ho] at hsplit
  obtain ⟨-, hright, hleft⟩ := List.pairwise_append.1 hsplit
  have hlo : ∀ r ∈ lo, r.id < l.id := fun r hr => hleft r hr l List.mem_cons_self
  have hhi : ∀ r ∈ hi, l.id < r.id := (List.pairwise_cons.1 hright).1
  have hrows : s.blocksFrom = lo.filter (fun r => s.height < r.id) ++ l :: hi := by
    rw [blocksFrom_eq hsorted, ho, List.filter_append, List.filter_cons_of_pos (by simpa using hlt),
      (List.filter_eq_self (l := hi)).2]
    intro r hr
    have := hhi r hr
    simp
    omega
  have hupTo : Table.between OrderRow.id s.height l.id s.order
      = lo.filter (fun r => s.height < r.id) ++ [l] := by
    unfold Table.between
    rw [ho, List.filter_append, List.filter_cons_of_pos (by simpa using hlt),
      (List.filter_eq_nil_iff (l := hi)).2]
    · congr 1
      refine List.filter_congr fun r hr => ?_
      have := hlo r hr
      rw [decide_eq_decide]
      omega
    · intro r hr
      have := hhi r hr
      simp
      omega
  have hpast : s.order.filter (fun r => l.id < r.id) = hi := by
    rw [ho, List.filter_append, List.filter_cons_of_neg (by simp), List.filter_eq_nil_iff.2,
      List.nil_append, List.filter_eq_self.2]
    · exact fun r hr => by simpa using hhi r hr
    · exact fun r hr => by simpa using (hlo r hr).le
  have hne : ∀ r ∈ lo.filter (fun r => s.height < r.id) ++ hi, r.id ≠ l.id := by
    refine List.forall_mem_append.2 ⟨fun r hr => ?_, fun r hr => (hhi r hr).ne'⟩
    exact (hlo r (List.mem_filter.1 hr).1).ne
  have hs : ∀ r ∈ [] ++ (lo.filter (fun r => s.height < r.id) ++ l :: hi), r.Small := by
    rw [List.nil_append, ← hrows, blocksFrom_eq hsorted]
    exact fun r hr => hsmall r (List.mem_filter.1 hr).1
  rw [groups, hupTo, hpast, hrows, sendBlocks_eq s.height hne rfl hs (by simp), List.nil_append]

end Scan

section Stats

/-- A scan sends its rows by nines, the last with what is left, if each can be written. -/
theorem sendStats_eq : ∀ (rows stats : List StatsRow) (last timestamp : UInt64),
    stats.length ≤ 9 → (∀ r ∈ stats ++ rows, r.Small) →
      (sendStats rows stats last timestamp).2 = ((stats ++ rows).chunks 9).map .stats
  | [], stats, last, timestamp, hlen, hs => by
    rw [List.append_nil] at hs ⊢
    unfold sendStats
    split_ifs with hnil
    · rw [hnil, List.chunks_nil (by simp), List.map_nil]
    · obtain ⟨b, hb⟩ := isSome_stats hlen hs
      rw [hb, List.chunks_of_le hnil hlen, List.map_singleton]
  | r :: rows, stats, last, timestamp, hlen, hs => by
    unfold sendStats
    split_ifs with hfull
    · obtain ⟨hstats, hrows⟩ := List.forall_mem_append.1 hs
      obtain ⟨b, hb⟩ := isSome_stats hlen hstats
      rw [hb, List.chunks_append (by simp) (by omega), List.map_cons]
      exact congrArg (_ :: ·) (sendStats_eq rows [r] r.time last (by simp) hrows)
    · rw [List.append_cons stats r rows] at hs ⊢
      have hlen' : (stats ++ [r]).length ≤ 9 := by
        rw [List.length_append, List.length_singleton]
        omega
      exact sendStats_eq rows (stats ++ [r]) r.time timestamp hlen' hs

/-- Of a scan a first part is sent, and the timestamp is that of its last row. -/
theorem sendStats_part : ∀ (rows stats : List StatsRow) (last timestamp : UInt64),
    (∀ r ∈ stats.getLast?, r.time = last) →
      ∃ cs : List (List StatsRow), (sendStats rows stats last timestamp).2 = cs.map .stats
        ∧ (sendStats rows stats last timestamp).1 = cs.flatten.getLast?.elim timestamp StatsRow.time
        ∧ cs.flatten <+: stats ++ rows
  | [], stats, last, timestamp, hlast => by
    rw [List.append_nil]
    unfold sendStats
    split_ifs with hnil
    · exact ⟨[], rfl, rfl, List.nil_prefix⟩
    · split
      · refine ⟨[stats], rfl, ?_, by simp⟩
        rw [List.flatten_singleton, List.getLast?_eq_some_getLast hnil]
        exact (hlast _ (List.getLast?_eq_some_getLast hnil)).symm
      · exact ⟨[], rfl, rfl, List.nil_prefix⟩
  | r :: rows, stats, last, timestamp, hlast => by
    unfold sendStats
    split_ifs with hfull
    · split
      · obtain ⟨cs, hcs, htime, hpre⟩ := sendStats_part rows [r] r.time last (by simp)
        refine ⟨stats :: cs, by rw [List.map_cons, ← hcs], ?_, ?_⟩
        · rw [htime, List.flatten_cons, List.getLast?_append]
          rcases hcase : cs.flatten.getLast? with _ | l
          · have hne : stats ≠ [] := by
              rintro rfl
              simp at hfull
            rw [Option.none_or, List.getLast?_eq_some_getLast hne]
            exact (hlast _ (List.getLast?_eq_some_getLast hne)).symm
          · rfl
        · rw [List.flatten_cons]
          exact (List.prefix_append_right_inj stats).2 hpre
      · exact ⟨[], rfl, rfl, List.nil_prefix⟩
    · rw [List.append_cons stats r rows]
      exact sendStats_part rows (stats ++ [r]) r.time timestamp (by simp)

end Stats

end Feed

end Nyumt
