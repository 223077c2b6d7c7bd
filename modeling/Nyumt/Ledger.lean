import Nyumt.Block
import Nyumt.Verify
import Nyumt.Lib.Run

/-!
# Blocks one at a time

The tables as blocks make them when each is verified on the tables it is then applied to: what a
single master does for clients that wait for each other.
-/

namespace Nyumt

open Borsh

/-- A signed request and the permissions it is verified with. -/
structure Signed where
  req : List RequestType
  sign : Bytes
  userPk : PublicKey
  perms : Permissions

/-- A block that `verify_req` accepts, applied. -/
def Tables.step (K : Crypto) (t : Tables) (b : Signed) : Option Tables := do
  let raw ← toVec b.req
  match verifyReq K t raw b.req b.userPk b.perms b.sign with
  | .ok none => some (t.apply b.req)
  | _ => none

/-- The public keys of the active users and of the nodes, one for each row. -/
def Tables.keys (t : Tables) : List Bytes :=
  (t.users.filter (·.active)).map (·.publicKey) ++ t.node.map (·.publicKey)

/-- The key a row is inserted with. -/
def Order.added : Order → Option PublicKey
  | .addUser _ k _ | .addMasterNode _ k | .addNode _ k => some k
  | _ => none

/-- The key whose rows go. -/
def Order.removed : Order → Option PublicKey
  | .removeUser k | .removeMasterNode k | .removeNode k => some k
  | _ => none

/-- The keys a block inserts rows with, in order. -/
def addedKeys (reqs : List RequestType) : List PublicKey :=
  reqs.filterMap fun | .order o => o.added

/-- What the statement of an order writes. -/
inductive Tables.Writes (t : Tables) : Order → Tables → Prop
  | addUser (name : String) (k : PublicKey) (perm : Permissions) {row : UserRow}
      (hk : row.publicKey = k.bytes) (ha : row.active) :
      Writes t (.addUser name k perm) { t with users := t.users ++ [row] }
  | addNode {o : Order} {k : PublicKey} {row : NodeRow} (hk : row.publicKey = k.bytes)
      (ha : o.added = some k) (hr : o.removed = none) :
      Writes t o { t with node := t.node ++ [row] }
  | editUser (name : String) (k : PublicKey) (perm : Permissions) {p : Bytes}
      (hp : toVec perm = some p) : Writes t (.editUser name k perm) { t with
        users := Table.update (·.publicKey = k.bytes)
          (fun u => { u with name := name, permissions := p }) t.users }
  | editNode {o : Order} {p : NodeRow → Bool} {f : NodeRow → NodeRow}
      (hf : ∀ n, (f n).publicKey = n.publicKey ∧ (f n).masterNode = n.masterNode)
      (ha : o.added = none) (hr : o.removed = none) :
      Writes t o { t with node := Table.update p f t.node }
  | removeUser (k : PublicKey) : Writes t (.removeUser k) { t with
      users := Table.update (·.publicKey = k.bytes) (fun u => { u with active := false }) t.users }
  | removeNode {o : Order} {k : PublicKey} (ha : o.added = none) (hr : o.removed = some k) :
      Writes t o { t with node := Table.delete (·.publicKey = k.bytes) t.node }
  | setConfig (name : String) (m : MasterConfig) (n : NodeConfig) {config : List ConfigRow}
      (hc : t.config.map ConfigRow.name ⊆ config.map ConfigRow.name) :
      Writes t (.setConfig name m n) { t with config := config }
  | removeConfig (name : String) :
      Writes t (.removeConfig name) { t with config := Table.delete (·.name = name) t.config }

/-- The orders of the block in a row. -/
def OrderRow.orders (row : OrderRow) : Option (List RequestType) := do
  let block ← fromSlice Block row.data
  let body ← fromSlice BodyData block.body
  return body.req

/-- A row's block interpreted. -/
def Tables.replayRow (t : Tables) (row : OrderRow) : Tables :=
  match row.orders with
  | some reqs => t.apply reqs
  | none => t

/-- The tables of the first block. -/
def genesisTables (K : Crypto) (nodePk pk : PublicKey) : Tables where
  users := [⟨1, "root", pk.bytes, (toVec [Permission.root]).getD [], true⟩]
  node := [⟨1, "controller0", nodePk.bytes, true, "default", some 1⟩]
  config := [⟨"default", (toVec (MasterConfig.default K)).getD [],
    (toVec (NodeConfig.default K)).getD []⟩]

theorem execAll_firstBlock (K : Crypto) (nodePk pk : PublicKey) (timestamp : UInt64) :
    Tables.execAll {} (firstBlock K nodePk pk timestamp).req
      = some (genesisTables K nodePk pk) := by
  obtain ⟨k⟩ := nodePk
  obtain ⟨k'⟩ := pk
  rfl

/-- What `first::create` leaves: the tables of the first block and its row. -/
theorem of_genesis {K : Crypto} {nodePk pk : PublicKey} {timestamp : UInt64} {db : Database}
    (h : Genesis K nodePk pk timestamp db) :
    db.toTables = genesisTables K nodePk pk ∧ ∃ data body,
      db.order = [⟨0, data, (K.sha256 body).toList⟩]
        ∧ toVec (firstBlock K nodePk pk timestamp) = some body
        ∧ fromSlice Block data = some ⟨K.sha256 body, body⟩ := by
  obtain ⟨⟨data, hash⟩, hs, h⟩ := Option.bind_eq_some_iff.1 h
  obtain ⟨body, hb, hd, rfl⟩ := of_serializeBlock hs
  simp only [Option.pure_def, Option.some.injEq] at h
  subst h
  refine ⟨?_, data, body, ?_, hb, hd⟩
  · rw [applyBlock_toTables]
    exact (Tables.apply_of_execAll (execAll_firstBlock K nodePk pk timestamp))
  · rw [applyBlock_order]
    rfl

section Entities

variable {t : Tables}

theorem exec_writes {t' : Tables} {o : Order} {u : Update} (h : t.exec o = some (t', u)) :
    t.Writes o t' := by
  obtain ⟨hkey, hb⟩ := bindable_of_exec h
  obtain ⟨rfl, -⟩ := of_exec h
  cases o
  case addUser => exact .addUser _ _ _ rfl rfl
  case editUser =>
    exact .editUser _ _ _ (Option.getD_of_ne_none (Option.isSome_iff_ne_none.1 hb) _).symm
  case setConfig =>
    exact .setConfig _ _ _ (Table.subset_upsert _ ConfigRow.name (by intro; rfl) _ _)
  case removeConfig => exact .removeConfig _
  case addMasterNode | addNode => exact .addNode rfl rfl rfl
  case removeUser => exact .removeUser _
  case removeMasterNode | removeNode => exact .removeNode rfl rfl
  case updatePublicKey => exact (hkey trivial).elim
  all_goals exact .editNode (fun _ => ⟨rfl, rfl⟩) rfl rfl

theorem entityWithPubkeyExists_iff {k : Bytes} : t.entityWithPubkeyExists k ↔ k ∈ t.keys := by
  simp only [Tables.entityWithPubkeyExists, Tables.keys, Bool.or_eq_true, List.any_eq_true,
    decide_eq_true_eq, List.mem_append, List.mem_map, List.mem_filter]
  constructor
  · rintro (⟨u, hu, hk, ha⟩ | ⟨n, hn, hk⟩)
    · exact .inl ⟨u, ⟨hu, ha⟩, hk⟩
    · exact .inr ⟨n, hn, hk⟩
  · rintro (⟨u, ⟨hu, ha⟩, hk⟩ | ⟨n, hn, hk⟩)
    · exact .inl ⟨u, hu, hk, ha⟩
    · exact .inr ⟨n, hn, hk⟩

theorem of_step {K : Crypto} {t' : Tables} {b : Signed} (h : t.step K b = some t') :
    t' = t.apply b.req ∧ (∃ raw, toVec b.req = some raw) ∧
      ∀ o, .order o ∈ b.req → Accepted t b.userPk b.perms o := by
  obtain ⟨raw, hr, h⟩ := Option.bind_eq_some_iff.1 h
  split at h
  · rename_i hv
    simp only [Option.some.injEq] at h
    exact ⟨h.symm, ⟨raw, hr⟩, (verifyReq_eq_ok_none.1 hv).2⟩
  · simp at h

end Entities

end Nyumt
