import Nyumt.Client
import Nyumt.Toy

/-!
# The ids a client stores

While no block past the next height is stored and no block fails after it was stored, a client's
table holds the ids from 0 on in order and the last height is the highest of them, with any number
of batches handled at once (`log_of_run`). Nothing in `handle_block` sees to it: its test is a lower
bound, and the last height is counted up instead of being set.
-/

namespace Nyumt

open Borsh

/-- Between storing a block and counting it. -/
def BlockPc.storing : BlockPc → Bool
  | .interpret _ | .count => true
  | _ => false

/-- What a step of a batch does to the client. -/
inductive BlockPc.Moves (c : Client) : BlockPc → Client → BlockPc → Prop
  | read {pc pc' : BlockPc} (h : pc.storing = false) (h' : pc'.storing = false) : Moves c pc c pc'
  | insert {r : Received} {db : Database}
      (h : c.db.addNew r.id.toNat r.body r.block.hash.toList = some db) :
      Moves c (.insert r) { c with db := db } (.interpret r)
  | interpret {r : Received} {db : Database} {us : List Update}
      (h : interpretBlock c.db r.data.req = some (db, us)) :
      Moves c (.interpret r) { c with db := db } .count
  | fail {r : Received} (h : interpretBlock c.db r.data.req = none) :
      Moves c (.interpret r) c .next
  | count : Moves c .count { c with last := c.last + 1 } .next

variable {K : Crypto}

theorem Batch.moves {c c' : Client} {b b' : Batch} (h : b.step K c = some (c', b')) :
    b.pc.Moves c c' b'.pc := by
  obtain ⟨blocks, pc⟩ := b
  cases pc with
  | next =>
    rcases blocks with _ | ⟨m, blocks⟩ <;>
      simp only [Batch.step, Option.some.injEq, Prod.mk.injEq, reduceCtorEq] at h
    obtain ⟨rfl, rfl⟩ := h
    refine .read rfl ?_
    simp only
    split
    · rfl
    · split_ifs <;> rfl
  | user r | check r perms k =>
    simp only [Batch.step, Option.some.injEq, Prod.mk.injEq] at h
    obtain ⟨rfl, rfl⟩ := h
    refine .read rfl ?_
    simp only [Batch.goto]
    split <;> rfl
  | insert r =>
    simp only [Batch.step] at h
    split at h <;> simp only [Option.some.injEq, Prod.mk.injEq] at h <;> obtain ⟨rfl, rfl⟩ := h
    · exact .read rfl rfl
    · exact .insert ‹_›
  | interpret r =>
    simp only [Batch.step] at h
    split at h <;> simp only [Option.some.injEq, Prod.mk.injEq] at h <;> obtain ⟨rfl, rfl⟩ := h
    · exact .fail ‹_›
    · exact .interpret ‹_›
  | count =>
    simp only [Batch.step, Option.some.injEq, Prod.mk.injEq] at h
    obtain ⟨rfl, rfl⟩ := h
    exact .count

/-- A block that is about to be stored is not past the next height, and one that is about to be
interpreted does not update a public key. -/
def BlockPc.InOrder (c : Client) : BlockPc → Prop
  | .insert r => r.id.toNat ≤ c.db.order.length
  | .interpret r => ¬ UpdatesKey r.data.req
  | _ => True

instance (c : Client) : DecidablePred (BlockPc.InOrder c)
  | .insert r => inferInstanceAs (Decidable (r.id.toNat ≤ c.db.order.length))
  | .interpret r => inferInstanceAs (Decidable (¬ UpdatesKey r.data.req))
  | .next | .user _ | .check _ _ _ | .count => isTrue trivial

namespace Syncing

/-- The ids stored are those from 0 on, in the order they were stored, and the last height is what a
new client would read, less the calls that have stored their block and not counted it yet. -/
structure Log (s : Syncing) : Prop where
  ids : s.client.db.order.map OrderRow.id = List.range s.client.db.order.length
  last : s.client.last + s.batches.countP (·.pc.storing) = (Client.new s.client.db).last

/-- Every step of a batch finds its block in order. -/
def InOrder (s : Syncing) : Act → Prop
  | .receive _ => True
  | .batch i => ∀ b ∈ s.batches[i]?, b.pc.InOrder s.client

instance (s : Syncing) : DecidablePred s.InOrder
  | .receive _ => isTrue trivial
  | .batch i => inferInstanceAs (Decidable (∀ b ∈ s.batches[i]?, b.pc.InOrder s.client))

theorem new_last {db : Database} (h : db.order.map OrderRow.id = List.range db.order.length) :
    (Client.new db).last = db.order.length - 1 := by
  rcases hl : db.getLastBlock with _ | ⟨id, hash⟩
  · have hnil : db.order = [] := (Table.last_eq_none _).1 (Option.map_eq_none_iff.1 hl)
    simp [Client.new, hl, hnil]
  · obtain ⟨⟨r, hr, rfl, -⟩, hmax⟩ := Database.of_getLastBlock hl
    have hlt : r.id < db.order.length := by
      rw [← List.mem_range, ← h]
      exact List.mem_map_of_mem hr
    have htop : db.order.length - 1 ∈ db.order.map OrderRow.id := by
      rw [h, List.mem_range]
      omega
    obtain ⟨top, htop, hid⟩ := List.mem_map.1 htop
    have hle := hmax top htop
    simp only [Client.new, hl, Option.map_some, Option.getD_some]
    omega

theorem log_iff {s : Syncing} :
    s.Log ↔ s.client.db.order.map OrderRow.id = List.range s.client.db.order.length
      ∧ s.client.last + s.batches.countP (·.pc.storing) = s.client.db.order.length - 1 :=
  ⟨fun h => ⟨h.ids, by rw [h.last, new_last h.ids]⟩, fun h => ⟨h.1, by rw [h.2, new_last h.1]⟩⟩

/-- A batch takes its step, and the number of those midway changes by it. -/
theorem countP_set {bs : List Batch} {i : ℕ} {b : Batch} (b' : Batch) (h : bs[i]? = some b) :
    (bs.set i b').countP (·.pc.storing) + b.pc.storing.toNat
      = bs.countP (·.pc.storing) + b'.pc.storing.toNat := by
  obtain ⟨hi, rfl⟩ := List.getElem?_eq_some_iff.1 h
  rw [List.countP_set hi]
  have hpos : bs[i].pc.storing.toNat ≤ bs.countP (·.pc.storing) := by
    rcases hs : bs[i].pc.storing
    · exact Nat.zero_le _
    · exact List.countP_pos_iff.2 ⟨bs[i], List.getElem_mem hi, hs⟩
  rcases hs : bs[i].pc.storing <;> rcases hs' : b'.pc.storing <;> rw [hs] at hpos <;>
    simp only [Bool.false_eq_true, ↓reduceIte, Bool.toNat_true, Bool.toNat_false] at hpos ⊢ <;>
    omega

/-- The next id is stored, or none. -/
theorem ids_addNew {db db' : Database} {id : ℕ} {data hash : Bytes}
    (h : db.addNew id data hash = some db')
    (hids : db.order.map OrderRow.id = List.range db.order.length) (hle : id ≤ db.order.length) :
    db'.order.map OrderRow.id = List.range db'.order.length
      ∧ db'.order.length = db.order.length + 1 := by
  obtain ⟨hn, rfl⟩ := Database.addNew_eq_some _ h
  rw [hids, List.mem_range, not_lt] at hn
  obtain rfl : id = db.order.length := le_antisymm hle hn
  simp [hids, List.range_succ]

theorem Log.step {s s' : Syncing} {a : Act} (ha : s.InOrder a) (h : s.step K a = some s')
    (hlog : s.Log) : s'.Log := by
  obtain ⟨hids, hlast⟩ := log_iff.1 hlog
  rw [log_iff]
  cases a with
  | receive blocks =>
    simp only [Syncing.step, Option.some.injEq] at h
    subst h
    exact ⟨hids, by simpa [BlockPc.storing] using hlast⟩
  | batch i =>
    obtain ⟨b, hb, h⟩ := Option.bind_eq_some_iff.1 h
    obtain ⟨⟨c, b'⟩, hs, h⟩ := Option.bind_eq_some_iff.1 h
    simp only [Option.pure_def, Option.some.injEq] at h
    subst h
    have hcount := countP_set b' hb
    have hok := ha b (by simpa using hb)
    have hmoves := Batch.moves hs
    generalize b.pc = pc at hcount hok hmoves
    generalize hpc' : b'.pc = pc' at hcount hmoves
    cases hmoves with
    | read hr hr' =>
      rw [hr, hr', Bool.toNat_false, add_zero, add_zero] at hcount
      exact ⟨hids, by rw [hcount]; exact hlast⟩
    | @insert r db hi =>
      obtain ⟨hids', hlen⟩ := ids_addNew hi hids hok
      have hmid : (s.batches.set i b').countP (·.pc.storing)
          = s.batches.countP (·.pc.storing) + 1 := hcount
      refine ⟨hids', ?_⟩
      change s.client.last + ((s.batches.set i b').countP (·.pc.storing) : ℕ)
        = (db.order.length : ℤ) - 1
      rw [hmid, hlen]
      push_cast
      omega
    | @interpret r db us hi =>
      have hmid : (s.batches.set i b').countP (·.pc.storing)
          = s.batches.countP (·.pc.storing) := Nat.add_right_cancel hcount
      have hord := interpretBlock_order hi
      exact ⟨by rw [hord]; exact hids, by rw [hmid, hord]; exact hlast⟩
    | fail hi =>
      have hsome := (Received.interpret_isSome _ s.client.db).2 hok
      rw [hi] at hsome
      simp at hsome
    | count =>
      have hmid : (s.batches.set i b').countP (·.pc.storing) + 1
          = s.batches.countP (·.pc.storing) := hcount
      refine ⟨hids, ?_⟩
      change s.client.last + 1 + ((s.batches.set i b').countP (·.pc.storing) : ℕ)
        = (s.client.db.order.length : ℤ) - 1
      rw [← hlast, ← hmid]
      push_cast
      omega

/-- However many batches are handled at once, a client that began with the ids from 0 on has them at
every moment, as long as blocks come in order and do not fail. -/
theorem log_of_run {db : Database} {as : List Act} {s : Syncing}
    (hdb : db.order.map OrderRow.id = List.range db.order.length)
    (hok : Run.Along (step K) InOrder ⟨.new db, []⟩ as)
    (h : Run.run (step K) ⟨.new db, []⟩ as = some s) : s.Log :=
  Run.run_induction (fun _ _ _ ha hs => Log.step ha hs) hok h
    ⟨hdb, by rw [List.countP_nil, Nat.cast_zero, add_zero]; rfl⟩

section Gap

/-- The rows of `toyGenesis`, as they are sent. -/
def genesisBlocks : List RequestBlock := toyGenesis.order.map OrderRow.request

/-- A block of a signed body, under any id. -/
def toyBlock (id : UInt64) (body : BodyData) : RequestBlock :=
  ⟨id, (toVec (Block.mk zeroHash ((toVec body).getD []))).getD []⟩

/-- The first block and the one after it, each handled to its end. -/
def inTurn (id : UInt64) : List Act :=
  .receive genesisBlocks :: List.replicate 4 (.batch 0)
    ++ .receive [toyBlock id (renameRoot "admin")] :: List.replicate 9 (.batch 1)

theorem log_of_run_inTurn : ∃ s, Run.run (step toy) ⟨.new {}, []⟩ (inTurn 1) = some s
    ∧ s.client.last = 1 ∧ s.Log := by
  have hrun : (Run.run (step toy) ⟨.new {}, []⟩ (inTurn 1)).any fun s => s.client.last = 1 := by
    decide +kernel
  obtain ⟨s, hs, hl⟩ := Run.exists_of_any hrun
  exact ⟨s, hs, hl, log_of_run rfl (by decide +kernel) hs⟩

/-- A block past the next height is stored, and is counted as if it were the next. -/
theorem not_log_of_run : ¬ ∀ as s, Run.run (step toy) ⟨.new {}, []⟩ as = some s → s.Log := by
  intro hlog
  have hrun : (Run.run (step toy) ⟨.new {}, []⟩ (inTurn 5)).any fun s =>
      s.client.db.order.map OrderRow.id = [0, 5] ∧ s.client.last = 1 := by decide +kernel
  obtain ⟨s, hs, hids⟩ := Run.exists_of_any hrun
  have hrange := (hlog _ s hs).ids
  have hlen : s.client.db.order.length = 2 := by
    rw [← List.length_map, hids.1]
    rfl
  rw [hids.1, hlen] at hrange
  exact absurd hrange (by decide)

end Gap

end Syncing

end Nyumt
