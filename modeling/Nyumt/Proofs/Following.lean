import Nyumt.Proofs.Served

/-!
# A client that follows a log

A client is sent the rows of a log, in messages of any size. If it handles the messages one after
another, it has at each block it takes up the rows before it and the tables they make, so the block
is verified and stored; whether it could then be interpreted or not, the client has the tables that
one row more makes (`follows_batch`).
-/

namespace Nyumt

open Borsh

variable {K : Crypto} {log : List OrderRow} {n g : ℕ} {c c' : Client} {b b' : Batch}

/-- The client has the first rows of the log, and the tables they make. -/
structure Client.Has (log : List OrderRow) (n : ℕ) (c : Client) : Prop where
  order : c.db.order = log.take n
  tables : c.db.toTables = tablesAt log n
  last : c.last < n

/-- The block is that of the next row. -/
structure Received.At (K : Crypto) (log : List OrderRow) (n : ℕ) (r : Received) : Prop where
  row : log[n]? = some ⟨r.id.toNat, r.body, r.block.hash.toList⟩
  id : r.id.toNat = n
  admitted : r.id = 0 ∨ Admitted K (tablesAt log n) r.data
  apply : tablesAt log (n + 1) = (tablesAt log n).apply r.data.req

def BlockPc.isNext : BlockPc → Bool
  | .next => true
  | _ => false

/-- Nothing is left of the message. -/
def Batch.done (b : Batch) : Bool := b.blocks.isEmpty && b.pc.isNext

/-- What a client that follows the log has while it is at its next row. -/
def BlockPc.Follows (K : Crypto) (log : List OrderRow) (n : ℕ) (c : Client) : BlockPc → Prop
  | .next => c.Has log n
  | .user r => c.Has log n ∧ r.At K log n ∧ r.id ≠ 0
  | .check r perms k => c.Has log n ∧ r.At K log n
    ∧ ∃ j, (Check.step c.db.toTables r.data.userPk perms)^[j] k = .done (.ok none)
  | .insert r => c.Has log n ∧ r.At K log n
  | .interpret r => r.At K log n ∧ c.db.order = log.take (n + 1)
    ∧ c.db.toTables = tablesAt log n ∧ c.last < n
  | .count => c.db.order = log.take (n + 1) ∧ c.db.toTables = tablesAt log (n + 1) ∧ c.last < n

theorem Served.received {row : OrderRow} (hs : Served K log) (hrow : log[n]? = some row)
    (hn : n < 2 ^ 63) : ∃ r, row.request.receive = .ok r ∧ r.At K log n := by
  obtain ⟨block, data, hb, hd, hh, ha⟩ := hs.sound n row hrow
  have hid := id_of_getElem? hs.ids hrow
  have hnat : row.request.id.toNat = n := by
    rw [OrderRow.request, UInt64.toNat_ofNat', hid]
    omega
  obtain ⟨r, hr, hm, rfl, rfl⟩ := exists_receive (m := row.request) hb hd (by rw [hnat]; exact hn)
  have hrid : r.id.toNat = n := by rw [hm, hnat]
  refine ⟨r, hr, ?_, hrid, ha.imp_left fun h0 => ?_, ?_⟩
  · rw [hrow, hrid, hm, ← hh, ← hid]
    rfl
  · rw [← UInt64.toNat_inj, hrid, ← hid, h0]
    rfl
  · have ho : row.orders = some r.data.req := by
      simp only [OrderRow.orders, hb, Option.bind_eq_bind, Option.bind_some, hd]
      rfl
    rw [tablesAt_succ hrow, Tables.replayRow, ho]

namespace Check

variable {t : Tables} {pk : PublicKey} {perms : Permissions}
  {res res' : Except Fault (Option RequestError)}

theorem of_iterate_done {j : ℕ} (h : (Check.step t pk perms)^[j] (.done res) = .done res') :
    res = res' := by
  rw [Function.iterate_fixed rfl] at h
  exact Check.done.inj h

end Check

namespace Batch

/-- The block of the next row is taken up. -/
theorem follows_next {row : OrderRow} {blocks : List RequestBlock} (hs : Served K log)
    (hrow : log[n]? = some row) (hn : n < 2 ^ 63) (hc : c.Has log n)
    (h : Batch.step K c ⟨row.request :: blocks, .next⟩ = some (c', b')) :
    c' = c ∧ b'.blocks = blocks ∧ b'.pc.isNext = false ∧ b'.pc.Follows K log n c := by
  obtain ⟨r, hr, hat⟩ := hs.received hrow hn
  have hlast : ¬ (r.id.toNat : ℤ) < c.last := by
    have := hc.last
    rw [hat.id]
    omega
  simp only [Batch.step, hr, if_neg hlast, Option.some.injEq, Prod.mk.injEq] at h
  obtain ⟨rfl, rfl⟩ := h
  refine ⟨rfl, rfl, ?_⟩
  show BlockPc.isNext (if r.id ≠ 0 then .user r else .insert r) = false
    ∧ BlockPc.Follows K log n c (if r.id ≠ 0 then .user r else .insert r)
  split_ifs with hid
  · exact ⟨rfl, hc, hat, hid⟩
  · exact ⟨rfl, hc, hat⟩

/-- A block that was taken up goes through. -/
theorem follows_step (hs : Served K log) (hb : b.pc.isNext = false) (hf : b.pc.Follows K log n c)
    (h : b.step K c = some (c', b')) : b'.blocks = b.blocks
      ∧ (b'.pc.isNext = false ∧ b'.pc.Follows K log n c' ∨ b'.pc = .next ∧ c'.Has log (n + 1)) := by
  obtain ⟨blocks, pc⟩ := b
  cases pc with
  | next => cases hb
  | user r =>
    obtain ⟨hc, hat, hid⟩ := hf
    obtain ⟨raw, hraw, perms, hp, hv⟩ : ∃ raw, toVec r.data.req = some raw ∧ ∃ perms,
        c.db.toTables.permissionsOf r.data.userPk = some perms
          ∧ verifyReq K c.db.toTables raw r.data.req r.data.userPk perms r.data.sign
            = .ok none := by
      have ha := hat.admitted.resolve_left hid
      rw [← hc.tables] at ha
      unfold Admitted servingVerify at ha
      simp only [Option.bind_eq_bind, Option.bind_eq_some_iff, Option.pure_def,
        Option.some.injEq] at ha
      obtain ⟨perms, hp, raw, hraw, hv⟩ := ha
      exact ⟨raw, hraw, perms, hp, hv⟩
    simp only [Batch.step, Client.signerPermissions_eq_ok.2 hp, hraw, Option.some.injEq,
      Prod.mk.injEq] at h
    obtain ⟨rfl, rfl⟩ := h
    obtain ⟨j, hj⟩ : ∃ j, (Check.step c.db.toTables r.data.userPk perms)^[j]
        (.start K raw r.data.req r.data.userPk r.data.sign)
          = .done (verifyReq K c.db.toTables raw r.data.req r.data.userPk perms r.data.sign) :=
      Check.iterate_start K raw r.data.req r.data.sign
    rw [hv] at hj
    exact ⟨rfl, .inl ⟨rfl, hc, hat, j, hj⟩⟩
  | check r perms k =>
    obtain ⟨hc, hat, j, hj⟩ := hf
    simp only [Batch.step, Option.some.injEq, Prod.mk.injEq] at h
    obtain ⟨rfl, rfl⟩ := h
    refine ⟨rfl, .inl ?_⟩
    rcases k with req | ⟨ord, req⟩ | res
    · rcases j with _ | j
      · cases hj
      · exact ⟨rfl, hc, hat, j, hj⟩
    · rcases j with _ | j
      · cases hj
      · exact ⟨rfl, hc, hat, j, hj⟩
    · obtain rfl := Check.of_iterate_done hj
      exact ⟨rfl, hc, hat⟩
  | insert r =>
    obtain ⟨hc, hat⟩ := hf
    have hn := (List.getElem?_eq_some_iff.1 hat.row).1
    have hnew : r.id.toNat ∉ c.db.order.map OrderRow.id := by
      rw [hc.order, List.map_take, hs.ids, hat.id]
      intro hmem
      obtain ⟨i, hi, he⟩ := List.getElem_of_mem hmem
      rw [List.getElem_take, List.getElem_range] at he
      rw [List.length_take] at hi
      omega
    simp only [Batch.step, Database.addNew_of_notMem _ _ _ hnew, Option.some.injEq,
      Prod.mk.injEq] at h
    obtain ⟨rfl, rfl⟩ := h
    refine ⟨rfl, .inl ⟨rfl, hat, ?_, hc.tables, hc.last⟩⟩
    rw [List.take_add_one, hat.row, Option.toList_some, ← hc.order]
  | interpret r =>
    obtain ⟨hat, ho, ht, hl⟩ := hf
    have htab := interpretBlock_toTables c.db r.data.req
    simp only [Batch.step] at h
    split at h
    · rename_i hnone
      simp only [Option.some.injEq, Prod.mk.injEq] at h
      obtain ⟨rfl, rfl⟩ := h
      refine ⟨rfl, .inr ⟨rfl, ho, ?_, ?_⟩⟩
      · rw [hnone, Option.map_none] at htab
        rw [hat.apply, ht, Tables.apply, ← ht, ← htab]
        rfl
      · push_cast
        omega
    · rename_i db us hsome
      simp only [Option.some.injEq, Prod.mk.injEq] at h
      obtain ⟨rfl, rfl⟩ := h
      refine ⟨rfl, .inl ⟨rfl, ?_, ?_, hl⟩⟩
      · rw [← ho]
        exact interpretBlock_order hsome
      · rw [hsome, Option.map_some] at htab
        rw [hat.apply, ← ht]
        exact (Tables.apply_of_execAll htab.symm).symm
  | count =>
    obtain ⟨ho, ht, hl⟩ := hf
    simp only [Batch.step, Option.some.injEq, Prod.mk.injEq] at h
    obtain ⟨rfl, rfl⟩ := h
    refine ⟨rfl, .inr ⟨rfl, ho, ht, ?_⟩⟩
    push_cast
    show c.last + 1 < n + 1
    omega

end Batch

namespace Syncing

variable {s s' : Syncing}

/-- A batch takes a step only when those before it are done. -/
def InTurn (s : Syncing) : Act → Prop
  | .receive _ => True
  | .batch i => ∀ b ∈ s.batches.take i, b.done

instance (s : Syncing) : DecidablePred s.InTurn
  | .receive _ => isTrue trivial
  | .batch i => inferInstanceAs (Decidable (∀ b ∈ s.batches.take i, b.done))

/-- The client follows the log, of which it was sent the first `g` rows: it is between two blocks,
or the batch whose turn it is is at one. -/
inductive Follows (K : Crypto) (log : List OrderRow) (g : ℕ) : Syncing → Prop
  | between {c : Client} {bs : List Batch} {n : ℕ} (hn : n ≤ g) (hc : c.Has log n)
      (hbs : ∀ b ∈ bs, b.pc = .next)
      (hrest : bs.flatMap Batch.blocks = ((log.take g).drop n).map OrderRow.request) :
      Follows K log g ⟨c, bs⟩
  | within {c : Client} {pre post : List Batch} {b : Batch} {n : ℕ} (hn : n < g)
      (hb : b.pc.isNext = false) (hf : b.pc.Follows K log n c) (hpre : ∀ b ∈ pre, b.done)
      (hpost : ∀ b ∈ post, b.pc = .next)
      (hrest : b.blocks ++ post.flatMap Batch.blocks
        = ((log.take g).drop (n + 1)).map OrderRow.request) :
      Follows K log g ⟨c, pre ++ b :: post⟩

theorem of_done {b : Batch} (h : b.done) : b.blocks = [] ∧ b.pc = .next := by
  obtain ⟨blocks, pc⟩ := b
  simp only [Batch.done, Bool.and_eq_true, List.isEmpty_iff] at h
  refine ⟨h.1, ?_⟩
  have hpc := h.2
  cases pc <;> first | rfl | cases hpc

theorem flatMap_done {bs : List Batch} (h : ∀ b ∈ bs, b.done) : bs.flatMap Batch.blocks = [] := by
  rw [List.flatMap_eq_nil_iff]
  exact fun b hb => (of_done (h b hb)).1

/-- A list around one of its entries. -/
theorem of_getElem?_eq_some {α : Type*} {xs : List α} {i : ℕ} {x : α} (h : xs[i]? = some x) :
    ∃ post, xs = xs.take i ++ x :: post ∧ ∀ y, xs.set i y = xs.take i ++ y :: post := by
  obtain ⟨hi, rfl⟩ := List.getElem?_eq_some_iff.1 h
  refine ⟨xs.drop (i + 1), ?_, fun y => List.set_eq_take_append_cons_drop.trans (if_pos hi)⟩
  rw [← List.drop_eq_getElem_cons hi, List.take_append_drop]

theorem follows_batch {i : ℕ} (hs : Served K log) (hlog : log.length ≤ 2 ^ 63)
    (hg : g ≤ log.length) (hturn : s.InTurn (.batch i)) (h : s.step K (.batch i) = some s')
    (hf : Follows K log g s) : Follows K log g s' := by
  obtain ⟨b, hb, h⟩ := Option.bind_eq_some_iff.1 h
  obtain ⟨⟨c', b'⟩, hstep, h⟩ := Option.bind_eq_some_iff.1 h
  simp only [Option.pure_def, Option.some.injEq] at h
  subst h
  cases hf with
  | @between c bs n hn hc hbs hrest =>
    change bs[i]? = some b at hb
    obtain ⟨post, hsplit, hset⟩ := of_getElem?_eq_some hb
    have hpre := flatMap_done hturn
    have hpost : ∀ x ∈ post, x.pc = .next := fun x hx => hbs x (by rw [hsplit]; simp [hx])
    obtain ⟨blocks, pc⟩ := b
    obtain rfl : pc = .next := hbs _ (List.mem_of_getElem? hb)
    rw [hsplit, List.flatMap_append, hpre, List.nil_append, List.flatMap_cons] at hrest
    rcases blocks with _ | ⟨m, blocks⟩
    · cases hstep
    -- the block that is taken up is that of the next row
    have hlt : n < (log.take g).length := by
      by_contra hge
      rw [List.drop_eq_nil_of_le (by omega)] at hrest
      cases hrest
    have hlen := hlt
    rw [List.length_take, min_eq_left hg] at hlen
    rw [List.drop_eq_getElem_cons hlt, List.map_cons, List.cons_append, List.cons.injEq] at hrest
    obtain ⟨rfl, hrest⟩ := hrest
    have hrow : log[n]? = some (log.take g)[n] := by
      rw [List.getElem_take, List.getElem?_eq_getElem]
    obtain ⟨rfl, hblocks, hpc, hf⟩ := Batch.follows_next hs hrow (by omega) hc hstep
    show Follows K log g ⟨c', bs.set i b'⟩
    rw [hset]
    exact .within hlen hpc hf hturn hpost (by rw [hblocks]; exact hrest)
  | @within c pre post b₀ n hn hb₀ hf hpre hpost hrest =>
    rcases lt_trichotomy i pre.length with hi | rfl | hi
    · -- this one is done
      rw [List.getElem?_append_left hi] at hb
      obtain ⟨hnil, hpc⟩ := of_done (hpre b (List.mem_of_getElem? hb))
      obtain ⟨blocks, pc⟩ := b
      obtain rfl : blocks = [] := hnil
      obtain rfl : pc = .next := hpc
      cases hstep
    · obtain rfl : b₀ = b := by simpa using hb
      obtain ⟨hblocks, hnext⟩ := Batch.follows_step hs hb₀ hf hstep
      show Follows K log g ⟨c', (pre ++ b₀ :: post).set pre.length b'⟩
      rw [List.set_append_right _ _ le_rfl, Nat.sub_self, List.set_cons_zero]
      rw [← hblocks] at hrest
      rcases hnext with ⟨hpc, hf⟩ | ⟨hpc, hc⟩
      · exact .within hn hpc hf hpre hpost hrest
      · refine .between hn hc (fun x hx => ?_) ?_
        · rcases List.mem_append.1 hx with hx | hx
          · exact (of_done (hpre x hx)).2
          · rcases List.mem_cons.1 hx with rfl | hx
            · exact hpc
            · exact hpost x hx
        · rw [List.flatMap_append, flatMap_done hpre, List.nil_append, List.flatMap_cons, hrest]
    · -- it is not its turn
      have hmem : b₀ ∈ (pre ++ b₀ :: post).take i := by
        rw [List.take_append, List.mem_append]
        refine .inr ?_
        obtain ⟨k, hk⟩ := Nat.exists_eq_add_of_lt hi
        rw [show i - pre.length = k + 1 by omega, List.take_succ_cons]
        exact List.mem_cons_self
      have hdone := (of_done (hturn b₀ hmem)).2
      rw [hdone] at hb₀
      cases hb₀

/-- The next rows come in a message. -/
theorem follows_receive {rows : List OrderRow} (hg : g ≤ log.length)
    (hrows : rows = (log.drop g).take rows.length) (hf : Follows K log g s) :
    Follows K log (g + rows.length)
      ⟨s.client, s.batches ++ [⟨rows.map OrderRow.request, .next⟩]⟩ := by
  have htake : log.take (g + rows.length) = log.take g ++ rows := by
    rw [List.take_add, ← hrows]
  have hlen : (log.take g).length = g := by rw [List.length_take, min_eq_left hg]
  cases hf with
  | @between c bs n hn hc hbs hrest =>
    refine .between (by omega) hc (List.forall_mem_append.2 ⟨hbs, by simp⟩) ?_
    rw [htake, List.drop_append_of_le_length (by omega), List.map_append, List.flatMap_append,
      hrest, List.flatMap_singleton]
  | @within c pre post b n hn hb hf hpre hpost hrest =>
    show Follows K log (g + rows.length) ⟨c, (pre ++ b :: post) ++ [_]⟩
    rw [List.append_assoc, List.cons_append]
    refine .within (by omega) hb hf hpre (List.forall_mem_append.2 ⟨hpost, by simp⟩) ?_
    rw [htake, List.drop_append_of_le_length (by omega), List.map_append, List.flatMap_append,
      ← List.append_assoc, hrest, List.flatMap_singleton]

/-- A client with nothing left to do has all it was sent. -/
theorem has_of_done (hg : g ≤ log.length) (hdone : ∀ b ∈ s.batches, b.done)
    (hf : Follows K log g s) : s.client.Has log g := by
  cases hf with
  | @between c bs n hn hc hbs hrest =>
    rw [flatMap_done hdone] at hrest
    have hnil := List.map_eq_nil_iff.1 hrest.symm
    rw [List.drop_eq_nil_iff, List.length_take, min_eq_left hg] at hnil
    rwa [le_antisymm hn hnil] at hc
  | @within c pre post b n hn hb hf hpre hpost hrest =>
    rw [(of_done (hdone b (by simp))).2] at hb
    cases hb

/-- At any moment the client has the first rows of the log. -/
theorem order_prefix (hf : Follows K log g s) : s.client.db.order <+: log := by
  cases hf with
  | between hn hc hbs hrest => exact hc.order ▸ List.take_prefix _ _
  | @within c pre post b n hn hb hf hpre hpost hrest =>
    show c.db.order <+: log
    cases hpc : b.pc <;> rw [hpc] at hf
    case next => exact hf.order ▸ List.take_prefix _ _
    case user => exact hf.1.order ▸ List.take_prefix _ _
    case check => exact hf.1.order ▸ List.take_prefix _ _
    case insert => exact hf.1.order ▸ List.take_prefix _ _
    case interpret => exact hf.2.1 ▸ List.take_prefix _ _
    case count => exact hf.1 ▸ List.take_prefix _ _

end Syncing

end Nyumt
