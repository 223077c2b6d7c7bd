import Nyumt.Proofs.Client

/-!
# What a block leaves behind

`handle_block` makes three writes: the row, the orders in a transaction of their own, and the last
height. It stops between the first two where a statement of the block fails, and the last height is
counted, not set (`handleBlock_whole_iff`).
-/

namespace Nyumt

open Borsh

variable {K : Crypto}

namespace Client

variable {c : Client} {m : RequestBlock}

/-- The row under which a block is stored. -/
def row (r : Received) : OrderRow := ⟨r.id.toNat, r.body, r.block.hash.toList⟩

/-- After `Err` nothing has changed; after `Ok` the block is stored and applied, and its height is
the last. -/
def Whole (c : Client) (m : RequestBlock) : Client × Except SyncError Unit → Prop
  | (c', .error _) =>
    c'.db.order = c.db.order ∧ c'.db.toTables = c.db.toTables ∧ c'.last = c.last
  | (c', .ok ()) => ∃ r, m.receive = .ok r ∧ row r ∈ c'.db.order
    ∧ c.db.toTables.execAll r.data.req = some c'.db.toTables ∧ c'.last = r.id.toNat

theorem Whole.order {c' : Client} {e : SyncError} (h : Whole c m (c', .error e)) :
    c'.db.order = c.db.order := h.1

/-- A block that is stored comes right after the last one and updates no public key. -/
def Fits (K : Crypto) (c : Client) (m : RequestBlock) : Prop :=
  ∀ r, m.receive = .ok r → c.last ≤ r.id.toNat → r.id = 0 ∨ Admitted K c.db.toTables r.data →
    r.id.toNat ∉ c.db.order.map OrderRow.id → ¬ UpdatesKey r.data.req ∧ r.id.toNat = c.last + 1

/-- A block that is not stored changes nothing, and one that is stored does all or nothing if it can
be interpreted and is the next. -/
theorem store_whole_iff {r : Received} (hr : m.receive = .ok r) :
    Whole c m (c.store r) ↔ (r.id.toNat ∉ c.db.order.map OrderRow.id →
      ¬ UpdatesKey r.data.req ∧ r.id.toNat = c.last + 1) := by
  unfold store
  by_cases hn : r.id.toNat ∈ c.db.order.map OrderRow.id
  · rw [(Database.addNew_eq_none c.db).2 hn]
    exact iff_of_true ⟨rfl, rfl, rfl⟩ fun h => absurd hn h
  rw [Database.addNew_of_notMem _ _ _ hn]
  simp only [hn, not_false_eq_true, forall_const]
  have hsome := r.interpret_isSome { c.db with order := c.db.order ++ [row r] }
  rcases hb : interpretBlock { c.db with order := c.db.order ++ [row r] } r.data.req with
    _ | ⟨db, us⟩ <;> rw [hb] at hsome <;> simp only [row] at hb <;> rw [hb]
  · -- the row is there, and the orders are not
    have hu : UpdatesKey r.data.req := by simpa using hsome
    refine iff_of_false (fun h => ?_) fun h => h.1 hu
    have hlen := congrArg List.length h.1
    simp at hlen
  · have hu : ¬ UpdatesKey r.data.req := by simpa using hsome
    have hexec := execAll_of_interpretBlock hb
    have horder := interpretBlock_order hb
    simp only [hu, not_false_eq_true, true_and]
    constructor
    · rintro ⟨r', hr', -, -, hlast⟩
      obtain rfl : r = r' := by simpa [hr] using hr'
      exact hlast.symm
    · intro hlast
      exact ⟨r, hr, by simp [horder, row], hexec, hlast.symm⟩

/-- `handle_block` does all or nothing, exactly where a block that it would store fits. -/
theorem handleBlock_whole_iff : Whole c m (c.handleBlock K m) ↔ Fits K c m := by
  unfold handleBlock
  rcases hr : m.receive with e | r
  · exact iff_of_true ⟨rfl, rfl, rfl⟩ fun r hr' => by simp [hr] at hr'
  have hfits : Fits K c m ↔ (c.accept K r = .ok () → r.id.toNat ∉ c.db.order.map OrderRow.id →
      ¬ UpdatesKey r.data.req ∧ r.id.toNat = c.last + 1) := by
    rw [accept_eq_ok, and_imp]
    refine ⟨fun h => h r hr, fun h r' hr' => ?_⟩
    obtain rfl : r = r' := by simpa [hr] using hr'
    exact h
  rw [hfits]
  simp only
  rcases ha : c.accept K r with e | _
  · exact iff_of_true ⟨rfl, rfl, rfl⟩ fun h => by simp at h
  · simp only [forall_const]
    exact store_whole_iff hr

section Witness

/-- The root user gives itself another key. -/
def rekeyRoot : BodyData := toyBody 0 [.order (.updatePublicKey (toyKey 1) (toyKey 2))]

/-- A server sends `body` as the block `id`. -/
def toySent (id : UInt64) (body : BodyData) : RequestBlock :=
  ⟨id, ((serializeBlock toy body none none).map Prod.fst).getD []⟩

/-- A client that has the first block. -/
def toyClient : Client := .new toyGenesis

/-- The block fails, and its row stays. -/
theorem handleBlock_rekeyRoot :
    ¬ ∀ (c : Client) (m : RequestBlock), Whole c m (c.handleBlock toy m) := by
  obtain ⟨m, herr, hlen⟩ : ∃ m, (toyClient.handleBlock toy m).2.toOption.isNone
      ∧ (toyClient.handleBlock toy m).1.db.order.length ≠ toyClient.db.order.length :=
    ⟨toySent 1 rekeyRoot, by decide +kernel⟩
  intro h
  have hw := h toyClient m
  generalize toyClient.handleBlock toy m = p at hw herr hlen
  obtain ⟨c', e | _⟩ := p
  · exact hlen (by rw [hw.order])
  · simp [Except.toOption] at herr

end Witness

end Client

end Nyumt
