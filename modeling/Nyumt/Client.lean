import Nyumt.Lib.Run
import Nyumt.Messages
import Nyumt.Serve

/-!
# A client's copy of the chain

What a client does with the blocks a server sends it (`handle_block`): a block that is not the first
is verified on the client's own tables, stored and interpreted. The server chooses the ids and the
bytes. Each message is a task of its own, so two batches of blocks may be handled at once; `Batch`
is such a task between two accesses to what they share (`Batch.step`).
-/

namespace Nyumt

open Borsh

/-- Why `handle_block` returned `Err`. -/
inductive SyncError
  | borsh
  /-- "Master node trying to overflow height" -/
  | overflow
  /-- "Master node is trying to rewrite older blocks" -/
  | rewrite
  /-- "Block {} is contradictory: {:?}" -/
  | contradictory (id : UInt64) (e : RequestError)
  | fault (e : Fault)
  /-- `add_new` failed. -/
  | stored
  /-- `interpret_block` failed. -/
  | interpret
  deriving DecidableEq

/-- A `RequestBlock` that could be decoded and whose id is an `i64`. -/
structure Received extends RequestBlock where
  block : Block
  data : BodyData
  of_block : fromSlice Block body = some block
  of_data : fromSlice BodyData block.body = some data
  id_lt : id.toNat < 2 ^ 63

def RequestBlock.receive (m : RequestBlock) : Except SyncError Received :=
  match hb : fromSlice Block m.body with
  | none => .error .borsh
  | some block =>
    match hd : fromSlice BodyData block.body with
    | none => .error .borsh
    | some data =>
      if h : m.id.toNat < 2 ^ 63 then .ok ⟨m, block, data, hb, hd, h⟩ else .error .overflow

structure Client where
  db : Database := {}
  /-- `last_height`: "Last block gotten". -/
  last : ℤ := -1

namespace Client

variable (K : Crypto)

/-- A client on the database it has kept (`Client::new`). -/
def new (db : Database) : Client := ⟨db, (db.getLastBlock.map fun b => (b.1 : ℤ)).getD (-1)⟩

/-- The permissions stored for the user who signed. -/
def signerPermissions (t : Tables) (pk : PublicKey) : Except SyncError Permissions :=
  match toVec pk with
  | none => .error .borsh
  | some serPk =>
    match t.getUserWithPubkey serPk with
    | .error e => .error (.fault e)
    | .ok user =>
      match fromSlice Permissions user.permissions with
      | none => .error .borsh
      | some perms => .ok perms

/-- The signature is over the orders, which are encoded again. -/
def verify (t : Tables) (perms : Permissions) (r : Received) : Except SyncError Unit :=
  match toVec r.data.req with
  | none => .error .borsh
  | some rawReq =>
    match verifyReq K t rawReq r.data.req r.data.userPk perms r.data.sign with
    | .ok none => .ok ()
    | .ok (some e) => .error (.contradictory r.id e)
    | .error e => .error (.fault e)

/-- Nothing is checked of a block with id 0 but that the last height is not past it. -/
def accept (c : Client) (r : Received) : Except SyncError Unit :=
  if r.id.toNat < c.last then .error .rewrite
  else if r.id ≠ 0 then
    match signerPermissions c.db.toTables r.data.userPk with
    | .error e => .error e
    | .ok perms => verify K c.db.toTables perms r
  else .ok ()

/-- The block is stored first; it stays stored if it cannot be interpreted. -/
def store (c : Client) (r : Received) : Client × Except SyncError Unit :=
  match c.db.addNew r.id.toNat r.body r.block.hash.toList with
  | none => (c, .error .stored)
  | some db =>
    match interpretBlock db r.data.req with
    | none => ({ c with db := db }, .error .interpret)
    | some (db, _) => (⟨db, c.last + 1⟩, .ok ())

def handleBlock (c : Client) (m : RequestBlock) : Client × Except SyncError Unit :=
  match m.receive with
  | .error e => (c, .error e)
  | .ok r =>
    match c.accept K r with
    | .error e => (c, .error e)
    | .ok () => c.store r

end Client

section Batches

/-- The next access of a task that handles a batch. -/
inductive BlockPc
  | next
  | user (r : Received)
  | check (r : Received) (perms : Permissions) (c : Check)
  | insert (r : Received)
  | interpret (r : Received)
  | count

/-- The task of one message, with the blocks it has still to take up. -/
structure Batch where
  blocks : List RequestBlock
  pc : BlockPc := .next

namespace Batch

variable (K : Crypto)

def goto (b : Batch) (pc : BlockPc) : Batch := { b with pc := pc }

/-- One step of the loop over a batch. A block that fails is passed over. -/
def step (c : Client) (b : Batch) : Option (Client × Batch) :=
  match b.pc with
  | .next =>
    match b.blocks with
    | [] => none
    | m :: blocks =>
      some (c, ⟨blocks, match m.receive with
        | .error _ => .next
        | .ok r =>
          if r.id.toNat < c.last then .next else if r.id ≠ 0 then .user r else .insert r⟩)
  | .user r =>
    some (c, b.goto
      (match Client.signerPermissions c.db.toTables r.data.userPk, toVec r.data.req with
      | .ok perms, some rawReq =>
        .check r perms (.start K rawReq r.data.req r.data.userPk r.data.sign)
      | _, _ => .next))
  | .check r perms k =>
    some (c, b.goto (match k with
      | .done (.ok none) => .insert r
      | .done _ => .next
      | k => .check r perms (k.step c.db.toTables r.data.userPk perms)))
  | .insert r =>
    match c.db.addNew r.id.toNat r.body r.block.hash.toList with
    | none => some (c, b.goto .next)
    | some db => some ({ c with db := db }, b.goto (.interpret r))
  | .interpret r =>
    match interpretBlock c.db r.data.req with
    | none => some (c, b.goto .next)
    | some (db, _) => some ({ c with db := db }, b.goto .count)
  | .count => some ({ c with last := c.last + 1 }, b.goto .next)

end Batch

/-- A client and the tasks of the messages it was sent. -/
structure Syncing where
  client : Client
  batches : List Batch := []

namespace Syncing

inductive Act
  | receive (blocks : List RequestBlock)
  | batch (i : ℕ)

def step (K : Crypto) (s : Syncing) : Act → Option Syncing
  | .receive blocks => some { s with batches := s.batches ++ [⟨blocks, .next⟩] }
  | .batch i => do
    let b ← s.batches[i]?
    let (c, b) ← b.step K s.client
    return ⟨c, s.batches.set i b⟩

end Syncing

end Batches

section Receive

/-- What can be decoded and has an `i64` for its id is received. -/
theorem exists_receive {m : RequestBlock} {block : Block} {data : BodyData}
    (hb : fromSlice Block m.body = some block) (hd : fromSlice BodyData block.body = some data)
    (hid : m.id.toNat < 2 ^ 63) :
    ∃ r, m.receive = .ok r ∧ r.toRequestBlock = m ∧ r.block = block ∧ r.data = data := by
  refine ⟨⟨m, block, data, hb, hd, hid⟩, ?_, rfl, rfl, rfl⟩
  unfold RequestBlock.receive
  split
  · simp_all
  · rename_i block' hb'
    obtain rfl : block = block' := by simpa [hb] using hb'
    split
    · simp_all
    · rename_i data' hd'
      obtain rfl : data = data' := by simpa [hd] using hd'
      rw [dif_pos hid]

/-- A block that was received can be interpreted unless it updates a public key. -/
theorem Received.interpret_isSome (r : Received) (db : Database) :
    (interpretBlock db r.data.req).isSome ↔ ¬ UpdatesKey r.data.req := by
  obtain ⟨b, hb⟩ := of_toVec_body (ser_of_fromSlice r.of_data)
  rw [interpretBlock_isSome]
  exact execAll_isSome (of_toVec_reqs hb)

end Receive

namespace Client

variable {K : Crypto} {c : Client}

theorem signerPermissions_eq_ok {t : Tables} {pk : PublicKey} {perms : Permissions} :
    signerPermissions t pk = .ok perms ↔ t.permissionsOf pk = some perms := by
  simp only [signerPermissions, Tables.permissionsOf, PublicKey.toVec_eq]
  rcases t.getUserWithPubkey pk.bytes with e | user
  · simp
  · rcases hp : fromSlice Permissions user.permissions with _ | perms' <;> simp [hp]

theorem verify_eq_ok {t : Tables} {perms : Permissions} {r : Received} :
    verify K t perms r = .ok ()
      ↔ servingVerify K t r.data.req r.data.userPk perms r.data.sign = some (.ok none) := by
  unfold verify servingVerify
  rcases toVec r.data.req with _ | rawReq
  · simp
  · simp only [Option.bind_eq_bind, Option.bind_some, Option.pure_def, Option.some.injEq]
    split <;> simp_all

/-- Any block but the first is admitted on the tables it is applied to. -/
theorem accept_eq_ok {r : Received} :
    c.accept K r = .ok () ↔ c.last ≤ r.id.toNat ∧ (r.id = 0 ∨ Admitted K c.db.toTables r.data) := by
  unfold accept Admitted
  split_ifs with hl hid
  · simp
    omega
  · simp only [not_lt] at hl
    simp only [hl, hid, true_and, false_or]
    rcases hp : signerPermissions c.db.toTables r.data.userPk with e | perms
    · have hnone : c.db.toTables.permissionsOf r.data.userPk = none := by
        rcases hq : c.db.toTables.permissionsOf r.data.userPk with _ | perms
        · rfl
        · simp [signerPermissions_eq_ok.2 hq] at hp
      simp [hnone]
    · rw [signerPermissions_eq_ok.1 hp]
      exact verify_eq_ok
  · simp only [not_lt] at hl
    simp only [ne_eq, not_not] at hid
    exact ⟨fun _ => ⟨hl, .inl hid⟩, fun _ => rfl⟩

end Client

end Nyumt
