import Nyumt.Database

/-!
# Verifying a request

`verify_req`: the signature, then the orders one by one, each against the tables and the signer's
permissions. `verify_order` looks at the entity an order names before it looks at the name's
length and the permissions. The queries that ask for one row end in an error where there is none,
so a config that no node uses cannot be removed.
-/

namespace Nyumt

open Borsh

variable (K : Crypto)

def verifyHash (rawReq : Bytes) (hash : Digest) : Bool := K.sha256 rawReq = hash

/-- A name may have 30 bytes. -/
def longName (name : String) : Bool := 30 < name.utf8ByteSize

section Order

variable (t : Tables)

/-- The first `match` of `verify_order`: the entity or the config the order names. -/
def verifyEntity : Order → Except Fault (Option RequestError)
  | .addUser _ publickey _ | .addMasterNode _ publickey | .addNode _ publickey =>
    match toVec publickey with
    | some pk => .ok (if t.entityWithPubkeyExists pk then some .duplicateEntity else none)
    | none => .ok (some .invalidEntity)
  | .editUser _ publickey _ | .removeUser publickey | .editMasterNode _ publickey
  | .removeMasterNode publickey | .editNode _ publickey | .removeNode publickey
  | .updatePublicKey publickey _ | .changeNodeConfig publickey _ =>
    match toVec publickey with
    | some pk => .ok (if t.entityWithPubkeyExists pk then none else some .invalidEntity)
    | none => .ok (some .invalidEntity)
  | .updateVoteWeight publickey _ =>
    match toVec publickey with
    | some pk => do return if ← t.masterWithPubkeyExists pk then none else some .invalidEntity
    | none => .ok (some .invalidEntity)
  | .setConfig name _ _ => .ok (if longName name then some .longParameter else none)
  | .removeConfig name => do return if ← t.configUsed name then some .configUsed else none

/-- The second `match` of `verify_order`: the name's length and the signer's permissions. -/
def verifyPermission (userPk : PublicKey) (perms : Permissions) :
    Order → Except Fault (Option RequestError)
  | .addUser name _ perm =>
    .ok (if longName name then some .longParameter
      else if .root ∉ perms then some .permissionError
      else if perm = [] then some .noPermission else none)
  | .addMasterNode name _ | .addNode name _ | .editMasterNode name _ | .editNode name _ =>
    .ok (if longName name then some .longParameter
      else if .root ∉ perms then some .permissionError else none)
  | .editUser name publickey perm =>
    .ok (if longName name then some .longParameter
      else if userPk = publickey ∧ .root ∉ perms then
        if perm.all (· ∈ perms) then none else some .permissionError
      else if .root ∉ perms then some .permissionError else none)
  | .updatePublicKey publickey _ =>
    .ok (if userPk ≠ publickey ∨ .root ∉ perms then some .permissionError else none)
  | .updateVoteWeight _ _ | .removeUser _ | .removeMasterNode _ | .removeNode _ | .setConfig _ _ _
  | .removeConfig _ => .ok (if .root ∉ perms then some .permissionError else none)
  | .changeNodeConfig _ name =>
    if .root ∉ perms then .ok (some .permissionError)
    else do return if ← t.configExists name then none else some .invalidConfig

def verifyOrder (ord : Order) (userPk : PublicKey) (perms : Permissions) :
    Except Fault (Option RequestError) := do
  match ← verifyEntity t ord with
  | some e => return some e
  | none => verifyPermission t userPk perms ord

/-- The loop of `verify_req`, up to the first order that is refused. -/
def verifyOrders (userPk : PublicKey) (perms : Permissions) :
    List RequestType → Except Fault (Option RequestError)
  | [] => return none
  | .order ord :: req => do
    match ← verifyOrder t ord userPk perms with
    | some e => return some e
    | none => verifyOrders userPk perms req

def verifyReq (rawReq : Bytes) (req : List RequestType) (userPk : PublicKey)
    (perms : Permissions) (sig : Bytes) : Except Fault (Option RequestError) := do
  if ← userPk.verifySig K rawReq sig then
    verifyOrders t userPk perms req
  else
    return some .signatureError

end Order

section Reset

variable (t : Tables) (userPk : PublicKey) (perms : Permissions)

/-- A skipped field of an order is not looked at. -/
theorem verifyOrder_reset (o : Order) :
    verifyOrder t (reset o) userPk perms = verifyOrder t o userPk perms := by
  cases o
  case addUser n k p =>
    rw [show reset (Order.addUser n k p) = .addUser n k (reset p) from rfl, reset_eq]
  case editUser n k p =>
    rw [show reset (Order.editUser n k p) = .editUser n k (reset p) from rfl, reset_eq]
  all_goals rfl

theorem verifyOrders_reset : ∀ reqs : List RequestType,
    verifyOrders t userPk perms (reset reqs) = verifyOrders t userPk perms reqs
  | [] => rfl
  | .order o :: reqs => by
    have hcons : reset (RequestType.order o :: reqs) = .order (reset o) :: reset reqs := rfl
    rw [hcons, verifyOrders, verifyOrders, verifyOrder_reset, verifyOrders_reset reqs]

theorem verifyReq_reset (rawReq sig : Bytes) (reqs : List RequestType) :
    verifyReq K t rawReq (reset reqs) userPk perms sig
      = verifyReq K t rawReq reqs userPk perms sig := by
  rw [verifyReq, verifyReq, verifyOrders_reset]

end Reset

section Accepted

variable {K} {t : Tables} {userPk : PublicKey} {perms : Permissions}

/-- What the first `match` asks of an order it lets through. -/
def EntityOk (t : Tables) : Order → Prop
  | .addUser _ k _ | .addMasterNode _ k | .addNode _ k => ¬ t.entityWithPubkeyExists k.bytes
  | .editUser _ k _ | .removeUser k | .editMasterNode _ k | .removeMasterNode k | .editNode _ k
  | .removeNode k | .updatePublicKey k _ | .changeNodeConfig k _ => t.entityWithPubkeyExists k.bytes
  | .updateVoteWeight k _ => ∃ n ∈ t.node, n.publicKey = k.bytes ∧ n.masterNode
  | .setConfig name _ _ => ¬ longName name
  | .removeConfig _ => False

/-- What the second `match` asks of an order it lets through. -/
def PermissionOk (t : Tables) (userPk : PublicKey) (perms : Permissions) : Order → Prop
  | .addUser name _ perm => ¬ longName name ∧ .root ∈ perms ∧ perm ≠ []
  | .addMasterNode name _ | .addNode name _ | .editMasterNode name _ | .editNode name _ =>
    ¬ longName name ∧ .root ∈ perms
  | .editUser name k perm => ¬ longName name ∧ (.root ∈ perms ∨ userPk = k ∧ perm ⊆ perms)
  | .updatePublicKey k _ => userPk = k ∧ .root ∈ perms
  | .updateVoteWeight _ _ | .removeUser _ | .removeMasterNode _ | .removeNode _ | .setConfig _ _ _
  | .removeConfig _ => .root ∈ perms
  | .changeNodeConfig _ name => .root ∈ perms ∧ ∃ c ∈ t.config, c.name = name

theorem verifyEntity_eq_ok_none {o : Order} : verifyEntity t o = .ok none ↔ EntityOk t o := by
  cases o
  case removeConfig name =>
    rcases fetchExists_filter (fun n : NodeRow => n.conf = name) t.node with ⟨h, -⟩ | ⟨h, -⟩ <;>
      simp [verifyEntity, EntityOk, Tables.configUsed, h, bind, Except.bind, pure, Except.pure]
  case updateVoteWeight k w =>
    rcases fetchExists_filter (fun n : NodeRow => n.publicKey = k.bytes ∧ n.masterNode) t.node with
      ⟨h, hn⟩ | ⟨h, hn⟩ <;>
      simp only [verifyEntity, EntityOk, Tables.masterWithPubkeyExists, PublicKey.toVec_eq, h] <;>
      simpa [bind, Except.bind, pure, Except.pure] using hn
  all_goals simp [verifyEntity, EntityOk]

theorem refuse_eq_none {α : Type} {p : Prop} [Decidable p] {e : α} {r : Option α} :
    (if p then some e else r) = none ↔ ¬ p ∧ r = none := by
  split_ifs with h <;> simp [h]

theorem verifyPermission_eq_ok_none {o : Order} :
    verifyPermission t userPk perms o = .ok none ↔ PermissionOk t userPk perms o := by
  cases o
  case changeNodeConfig k name =>
    by_cases hr : Permission.root ∈ perms
    · rcases fetchExists_filter (fun c : ConfigRow => c.name = name) t.config with
        ⟨h, hc⟩ | ⟨h, hc⟩ <;>
        simp only [verifyPermission, PermissionOk, hr, Tables.configExists, h] <;>
        simpa [bind, Except.bind, pure, Except.pure] using hc
    · simp [verifyPermission, PermissionOk, hr]
  case editUser name k perm =>
    by_cases hr : Permission.root ∈ perms
    · simp [verifyPermission, PermissionOk, hr]
    · by_cases hk : userPk = k
      · simp [verifyPermission, PermissionOk, hr, hk, refuse_eq_none, List.subset_def]
      · simp [verifyPermission, PermissionOk, hr, hk, refuse_eq_none]
  all_goals
    simp only [verifyPermission, PermissionOk, Except.ok.injEq, refuse_eq_none]
    simp

/-- `verify_order` has nothing against the order. -/
def Accepted (t : Tables) (userPk : PublicKey) (perms : Permissions) (o : Order) : Prop :=
  EntityOk t o ∧ PermissionOk t userPk perms o

theorem verifyOrder_eq_ok_none {o : Order} :
    verifyOrder t o userPk perms = .ok none ↔ Accepted t userPk perms o := by
  rw [Accepted, ← verifyEntity_eq_ok_none, ← verifyPermission_eq_ok_none]
  unfold verifyOrder
  rcases verifyEntity t o with e | _ | e <;> simp [bind, Except.bind, pure, Except.pure]

theorem verifyOrders_eq_ok_none : ∀ {req : List RequestType},
    verifyOrders t userPk perms req = .ok none ↔ ∀ o, .order o ∈ req → Accepted t userPk perms o
  | [] => by simp [verifyOrders, pure, Except.pure]
  | .order ord :: req => by
    have ih : verifyOrders t userPk perms req = .ok none ↔ _ := verifyOrders_eq_ok_none
    have ho : verifyOrder t ord userPk perms = .ok none ↔ _ := verifyOrder_eq_ok_none
    simp only [List.mem_cons, RequestType.order.injEq, forall_eq_or_imp, ← ih, ← ho]
    simp only [verifyOrders]
    rcases verifyOrder t ord userPk perms with e | _ | e <;> simp [bind, Except.bind, pure,
      Except.pure]

/-- A request is accepted when its signature verifies over the bytes given and every order is. -/
theorem verifyReq_eq_ok_none {rawReq sig : Bytes} {req : List RequestType} :
    verifyReq K t rawReq req userPk perms sig = .ok none ↔
      userPk.verifySig K rawReq sig = .ok true
        ∧ ∀ o, .order o ∈ req → Accepted t userPk perms o := by
  rw [← verifyOrders_eq_ok_none]
  unfold verifyReq
  rcases userPk.verifySig K rawReq sig with e | _ | _ <;>
    simp [bind, Except.bind, pure, Except.pure]

end Accepted

end Nyumt
