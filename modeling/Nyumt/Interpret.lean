import Nyumt.Database

/-!
# Interpreting a block

`interpret_block`: the SQL of each order in turn, in one transaction. An order that fails takes
the whole block with it, so a caller that gets an error has the tables of before (`applyBlock`).
`UpdatePublicKey` names a column the schema does not have, so its statement always fails.
-/

namespace Nyumt

open Borsh

inductive Update
  | configUpdate (name : String) (master : MasterConfig) (node : NodeConfig)
  | nodeConfigChange (publickey : PublicKey) (name : String)
  | masterNodeListUpdate
  | none
  deriving DecidableEq

namespace Tables

/-- The statement of an order, or `none` where it fails. -/
def exec (t : Tables) : Order → Option (Tables × Update)
  | .addUser name publickey perm => do
    let k ← toVec publickey
    let p ← toVec perm
    return ({ t with users := t.users ++ [⟨Table.nextId UserRow.id t.users, name, k, p, true⟩] },
      .none)
  | .addMasterNode name publickey => do
    let k ← toVec publickey
    return ({ t with node := t.node
      ++ [⟨Table.nextId NodeRow.id t.node, name, k, true, "default", some 1⟩] },
      .masterNodeListUpdate)
  | .addNode name publickey => do
    let k ← toVec publickey
    return ({ t with node := t.node
      ++ [⟨Table.nextId NodeRow.id t.node, name, k, false, "default", none⟩] }, .none)
  | .editUser name publickey perm => do
    let p ← toVec perm
    let k ← toVec publickey
    let edit (u : UserRow) : UserRow := { u with name := name, permissions := p }
    return ({ t with users := Table.update (·.publicKey = k) edit t.users }, .none)
  | .editMasterNode name publickey => do
    let k ← toVec publickey
    let edit (n : NodeRow) : NodeRow := { n with name := name }
    let own (n : NodeRow) : Bool := n.publicKey = k ∧ n.masterNode
    return ({ t with node := Table.update own edit t.node }, .masterNodeListUpdate)
  | .editNode name publickey => do
    let k ← toVec publickey
    let edit (n : NodeRow) : NodeRow := { n with name := name }
    return ({ t with node := Table.update (·.publicKey = k) edit t.node }, .none)
  | .updatePublicKey _ _ => none -- no column `publickey`
  | .updateVoteWeight publickey weight => do
    let k ← toVec publickey
    let edit (n : NodeRow) : NodeRow := { n with voteWeight := some weight }
    let own (n : NodeRow) : Bool := n.publicKey = k ∧ n.masterNode
    return ({ t with node := Table.update own edit t.node }, .none)
  | .removeUser publickey => do
    let k ← toVec publickey
    let edit (u : UserRow) : UserRow := { u with active := false }
    return ({ t with users := Table.update (·.publicKey = k) edit t.users }, .none)
  | .removeMasterNode publickey => do
    let k ← toVec publickey
    return ({ t with node := Table.delete (·.publicKey = k) t.node }, .masterNodeListUpdate)
  | .removeNode publickey => do
    let k ← toVec publickey
    return ({ t with node := Table.delete (·.publicKey = k) t.node }, .none)
  | .setConfig name master node => do
    let m ← toVec master
    let c ← toVec node
    let edit (r : ConfigRow) : ConfigRow := { r with masterConf := m, nodeConf := c }
    return ({ t with config := Table.upsert ConfigRow.name ⟨name, m, c⟩ edit t.config },
      .configUpdate name master node)
  | .removeConfig name =>
    some ({ t with config := Table.delete (·.name = name) t.config }, .none)
  | .changeNodeConfig publickey name => do
    let k ← toVec publickey
    let edit (n : NodeRow) : NodeRow := { n with conf := name }
    return ({ t with node := Table.update (·.publicKey = k) edit t.node },
      .nodeConfigChange publickey name)

/-- The statements of a block's orders on the tables alone. -/
def execAll (t : Tables) : List RequestType → Option Tables
  | [] => some t
  | .order o :: reqs => (t.exec o).bind fun p => p.1.execAll reqs

/-- The tables after a block, those of before where it fails. -/
def apply (t : Tables) (reqs : List RequestType) : Tables := (t.execAll reqs).getD t

end Tables

def interpretOrder (db : Database) (order : Order) : Option (Database × Update) :=
  (db.toTables.exec order).map fun p => (db.setTables p.1, p.2)

def interpretBlock (db : Database) : List RequestType → Option (Database × List Update)
  | [] => some (db, [])
  | .order o :: reqs => do
    let (db, update) ← interpretOrder db o
    let (db, updates) ← interpretBlock db reqs
    return (db, update :: updates)

/-- The database after `interpret_block`: the transaction is rolled back if it failed. -/
def applyBlock (db : Database) (reqs : List RequestType) : Database :=
  ((interpretBlock db reqs).map Prod.fst).getD db

theorem Tables.apply_of_execAll {t t' : Tables} {reqs : List RequestType}
    (h : t.execAll reqs = some t') : t.apply reqs = t' := by
  rw [apply, h, Option.getD_some]

section Layers

theorem interpretBlock_toTables : ∀ (db : Database) (reqs : List RequestType),
    (interpretBlock db reqs).map (fun p => p.1.toTables) = db.toTables.execAll reqs
  | db, [] => rfl
  | db, .order o :: reqs => by
    simp only [interpretBlock, Tables.execAll, interpretOrder]
    rcases db.toTables.exec o with _ | ⟨t, u⟩
    · rfl
    · have ih := interpretBlock_toTables (db.setTables t) reqs
      rw [Database.setTables_toTables] at ih
      simp only [Option.map_some, Option.bind_eq_bind, Option.bind_some, ← ih]
      rcases interpretBlock (db.setTables t) reqs with _ | ⟨db', us⟩ <;> rfl

/-- A block is its first order, and then the others. -/
theorem of_interpretBlock_cons {db db' : Database} {o : Order} {reqs : List RequestType}
    {us : List Update} (h : interpretBlock db (.order o :: reqs) = some (db', us)) :
    ∃ t u us', db.toTables.exec o = some (t, u)
      ∧ interpretBlock (db.setTables t) reqs = some (db', us') ∧ us = u :: us' := by
  simp only [interpretBlock, interpretOrder, Option.bind_eq_bind, Option.bind_eq_some_iff,
    Option.map_eq_some_iff, Prod.exists, Option.pure_def, Option.some.injEq, Prod.mk.injEq] at h
  obtain ⟨_, u, ⟨t, _, ho, rfl, rfl⟩, _, us', h, rfl, rfl⟩ := h
  exact ⟨t, _, us', ho, h, rfl⟩

/-- What an order keeps of the database, with what its statement takes along, a block of such orders
keeps. -/
theorem interpretBlock_induction {I : Database → Prop} : ∀ {db db' : Database}
    {reqs : List RequestType} {us : List Update},
    (∀ (o : Order) (db : Database) (t : Tables) (u : Update), .order o ∈ reqs →
      db.toTables.exec o = some (t, u) → I db → I (db.setTables t)) →
      interpretBlock db reqs = some (db', us) → I db → I db'
  | db, db', [], us, _, h, hi => by
    simp only [interpretBlock, Option.some.injEq, Prod.mk.injEq] at h
    exact h.1 ▸ hi
  | db, db', .order o :: reqs, us, hstep, h, hi => by
    obtain ⟨t, u, us', ho, h, -⟩ := of_interpretBlock_cons h
    exact interpretBlock_induction (fun o db t u ho => hstep o db t u (List.mem_cons_of_mem _ ho)) h
      (hstep o db t u List.mem_cons_self ho hi)

theorem interpretBlock_order {db db' : Database} {reqs : List RequestType} {us : List Update}
    (h : interpretBlock db reqs = some (db', us)) : db'.order = db.order :=
  interpretBlock_induction (I := fun d => d.order = db.order)
    (fun _ d t _ _ _ hd => (d.setTables_order t).trans hd) h rfl

theorem execAll_of_interpretBlock {db db' : Database} {reqs : List RequestType} {us : List Update}
    (h : interpretBlock db reqs = some (db', us)) :
    db.toTables.execAll reqs = some db'.toTables := by
  rw [← interpretBlock_toTables, h]
  rfl

@[simp] theorem applyBlock_toTables (db : Database) (reqs : List RequestType) :
    (applyBlock db reqs).toTables = db.toTables.apply reqs := by
  rw [applyBlock, Tables.apply, ← interpretBlock_toTables]
  rcases interpretBlock db reqs with _ | p <;> rfl

@[simp] theorem applyBlock_order (db : Database) (reqs : List RequestType) :
    (applyBlock db reqs).order = db.order := by
  unfold applyBlock
  rcases h : interpretBlock db reqs with _ | ⟨db', us⟩
  · rfl
  · exact interpretBlock_order h

theorem interpretBlock_isSome (db : Database) (reqs : List RequestType) :
    (interpretBlock db reqs).isSome = (db.toTables.execAll reqs).isSome := by
  rw [← interpretBlock_toTables, Option.isSome_map]

/-- What an order keeps, a block of such orders keeps. -/
theorem execAll_induction {I : Tables → Prop} : ∀ {t t' : Tables} {reqs : List RequestType},
    (∀ o, .order o ∈ reqs → ∀ t t' u, t.exec o = some (t', u) → I t → I t') →
      t.execAll reqs = some t' → I t → I t'
  | t, t', [], _, h, hi => by
    simp only [Tables.execAll, Option.some.injEq] at h
    exact h ▸ hi
  | t, t', .order o :: reqs, hstep, h, hi => by
    obtain ⟨⟨t₁, u⟩, ho, hrest⟩ := Option.bind_eq_some_iff.1 h
    exact execAll_induction (fun o ho => hstep o (List.mem_cons_of_mem _ ho)) hrest
      (hstep o List.mem_cons_self _ _ u ho hi)

end Layers

section Reset

variable (t : Tables)

/-- A skipped field of an order does not reach the tables. -/
theorem exec_reset (o : Order) : (t.exec (reset o)).map Prod.fst = (t.exec o).map Prod.fst := by
  cases o
  case addUser n k p =>
    rw [show reset (Order.addUser n k p) = .addUser n k (reset p) from rfl, reset_eq]
  case editUser n k p =>
    rw [show reset (Order.editUser n k p) = .editUser n k (reset p) from rfl, reset_eq]
  case setConfig n m c =>
    have hc : toVec (reset c) = toVec c := by
      change toVec (c.reportTimeframe, reset c.dbStruct) = toVec (c.reportTimeframe, c.dbStruct)
      rw [reset_eq]
    have hm : toVec (reset m) = toVec m := rfl
    change (t.exec (.setConfig n (reset m) (reset c))).map Prod.fst = _
    simp only [Tables.exec, hm, hc]
    rcases toVec m with _ | m' <;> rcases toVec c with _ | c' <;> rfl
  all_goals rfl

theorem execAll_reset : ∀ (t : Tables) (reqs : List RequestType),
    t.execAll (reset reqs) = t.execAll reqs
  | t, [] => rfl
  | t, .order o :: reqs => by
    have ho : t.execAll (reset (RequestType.order o :: reqs))
        = (t.exec (reset o)).bind fun p => p.1.execAll (reset reqs) := rfl
    have h := exec_reset t o
    rw [ho, Tables.execAll]
    generalize t.exec (reset o) = x at h ⊢
    generalize t.exec o = y at h ⊢
    rcases x with _ | ⟨t', u⟩ <;> rcases y with _ | ⟨t'', u'⟩
    · rfl
    · simp at h
    · simp at h
    · obtain rfl : t' = t'' := by simpa using h
      exact execAll_reset t' reqs

/-- A block read back from its row does to the tables what it did when it was written. -/
theorem apply_reset (reqs : List RequestType) : t.apply (reset reqs) = t.apply reqs := by
  rw [Tables.apply, Tables.apply, execAll_reset]

end Reset

section Fails

/-- The one statement that fails on every table. -/
def Order.IsUpdatePublicKey : Order → Prop
  | .updatePublicKey _ _ => True
  | _ => False

instance : DecidablePred Order.IsUpdatePublicKey
  | .updatePublicKey _ _ => isTrue trivial
  | .addUser _ _ _ | .addMasterNode _ _ | .addNode _ _ | .editUser _ _ _ | .editMasterNode _ _
  | .editNode _ _ | .removeUser _ | .removeMasterNode _ | .removeNode _ | .changeNodeConfig _ _
  | .setConfig _ _ _ | .removeConfig _ | .updateVoteWeight _ _ => isFalse id

instance (p : Order → Prop) [DecidablePred p] (reqs : List RequestType) :
    Decidable (∃ o, .order o ∈ reqs ∧ p o) :=
  decidable_of_iff (∃ r ∈ reqs, match r with | .order o => p o)
    ⟨fun ⟨.order o, hr, ho⟩ => ⟨o, hr, ho⟩, fun ⟨o, hr, ho⟩ => ⟨.order o, hr, ho⟩⟩

instance (p : Order → Prop) [DecidablePred p] (reqs : List RequestType) :
    Decidable (∀ o, .order o ∈ reqs → p o) :=
  decidable_of_iff (∀ r ∈ reqs, match r with | .order o => p o)
    ⟨fun h o ho => h (.order o) ho, fun h (.order o) ho => h o ho⟩

/-- Some order of the block updates a public key. -/
def UpdatesKey (reqs : List RequestType) : Prop := ∃ o, .order o ∈ reqs ∧ o.IsUpdatePublicKey

instance : DecidablePred UpdatesKey := fun reqs =>
  inferInstanceAs (Decidable (∃ o, .order o ∈ reqs ∧ o.IsUpdatePublicKey))

/-- What the statement binds as a blob has an encoding. -/
def Order.Bindable : Order → Prop
  | .addUser _ _ perm | .editUser _ _ perm => (toVec perm).isSome
  | .setConfig _ master node => (toVec master).isSome ∧ (toVec node).isSome
  | _ => True

theorem Order.bindable_of_toVec {o : Order} {b : Bytes} (h : toVec o = some b) : o.Bindable := by
  cases o
  case addUser n k p =>
    obtain ⟨q, hq, -⟩ := of_variant h
    obtain ⟨-, ⟨a, ha⟩⟩ := toVec_prod (toVec_prod hq).2.choose_spec
    exact Option.isSome_of_eq_some ha
  case editUser n k p =>
    obtain ⟨q, hq, -⟩ := of_variant h
    obtain ⟨-, ⟨a, ha⟩⟩ := toVec_prod (toVec_prod hq).2.choose_spec
    exact Option.isSome_of_eq_some ha
  case setConfig n m c =>
    obtain ⟨q, hq, -⟩ := of_variant h
    obtain ⟨⟨a, ha⟩, ⟨a', ha'⟩⟩ := toVec_prod (toVec_prod hq).2.choose_spec
    exact ⟨Option.isSome_of_eq_some ha, Option.isSome_of_eq_some ha'⟩
  all_goals trivial

theorem exec_isSome_iff {t : Tables} {o : Order} :
    (t.exec o).isSome ↔ ¬ o.IsUpdatePublicKey ∧ o.Bindable := by
  cases o
  case addUser n k p =>
    rcases hp : toVec p with _ | a <;>
      simp [Tables.exec, Order.IsUpdatePublicKey, Order.Bindable, hp]
  case editUser n k p =>
    rcases hp : toVec p with _ | a <;>
      simp [Tables.exec, Order.IsUpdatePublicKey, Order.Bindable, hp]
  case setConfig n m c =>
    rcases hm : toVec m with _ | a <;> rcases hc : toVec c with _ | a' <;>
      simp [Tables.exec, Order.IsUpdatePublicKey, Order.Bindable, hm, hc]
  all_goals simp [Tables.exec, Order.IsUpdatePublicKey, Order.Bindable]

/-- A block is interpreted if each of its orders has a statement that can be made. -/
theorem execAll_isSome_iff : ∀ {t : Tables} {reqs : List RequestType},
    (t.execAll reqs).isSome ↔ ∀ o, .order o ∈ reqs → ¬ o.IsUpdatePublicKey ∧ o.Bindable
  | t, [] => by simp [Tables.execAll]
  | t, .order o :: reqs => by
    have ho := exec_isSome_iff (t := t) (o := o)
    rw [Tables.execAll]
    simp only [List.mem_cons, RequestType.order.injEq, forall_eq_or_imp, ← ho]
    rcases t.exec o with _ | ⟨t', u⟩
    · simp
    · simp only [Option.bind_some, Option.isSome_some, true_and]
      exact execAll_isSome_iff

/-- A block that could be written is interpreted, unless it updates a public key. -/
theorem execAll_isSome {t : Tables} {reqs : List RequestType}
    (h : ∀ o, .order o ∈ reqs → ∃ b, toVec o = some b) :
    (t.execAll reqs).isSome ↔ ¬ UpdatesKey reqs := by
  rw [execAll_isSome_iff]
  constructor
  · rintro hall ⟨o, ho, hu⟩
    exact (hall o ho).1 hu
  · intro hu o ho
    obtain ⟨b, hb⟩ := h o ho
    exact ⟨fun hk => hu ⟨o, ho, hk⟩, Order.bindable_of_toVec hb⟩

theorem of_toVec_reqs {reqs : List RequestType} {b : Bytes} (h : toVec reqs = some b) :
    ∀ o, .order o ∈ reqs → ∃ b, toVec o = some b := by
  intro o ho
  obtain ⟨a, ha⟩ := toVec_mem h _ ho
  obtain ⟨p, hp, -⟩ := of_variant ha
  exact ⟨p, hp⟩

theorem of_toVec_body {body : BodyData} {b : Bytes} (h : toVec body = some b) :
    ∃ b, toVec body.req = some b :=
  (toVec_prod h).1

end Fails

section Statements

/-- What the statement of an order makes of `users`. -/
def Order.onUsers (users : List UserRow) : Order → List UserRow
  | .addUser name k perm =>
    users ++ [⟨Table.nextId UserRow.id users, name, k.bytes, (toVec perm).getD [], true⟩]
  | .editUser name k perm => Table.update (·.publicKey = k.bytes)
    (fun u => { u with name := name, permissions := (toVec perm).getD [] }) users
  | .removeUser k =>
    Table.update (·.publicKey = k.bytes) (fun u => { u with active := false }) users
  | _ => users

def Order.onNode (node : List NodeRow) : Order → List NodeRow
  | .addMasterNode name k =>
    node ++ [⟨Table.nextId NodeRow.id node, name, k.bytes, true, "default", some 1⟩]
  | .addNode name k =>
    node ++ [⟨Table.nextId NodeRow.id node, name, k.bytes, false, "default", none⟩]
  | .editMasterNode name k => Table.update (fun n => n.publicKey = k.bytes ∧ n.masterNode)
    (fun n => { n with name := name }) node
  | .editNode name k => Table.update (·.publicKey = k.bytes) (fun n => { n with name := name }) node
  | .updateVoteWeight k weight => Table.update (fun n => n.publicKey = k.bytes ∧ n.masterNode)
    (fun n => { n with voteWeight := some weight }) node
  | .removeMasterNode k | .removeNode k => Table.delete (·.publicKey = k.bytes) node
  | .changeNodeConfig k name =>
    Table.update (·.publicKey = k.bytes) (fun n => { n with conf := name }) node
  | _ => node

def Order.onConfig (config : List ConfigRow) : Order → List ConfigRow
  | .setConfig name master node =>
    Table.upsert ConfigRow.name ⟨name, (toVec master).getD [], (toVec node).getD []⟩
      (fun r => { r with masterConf := (toVec master).getD [], nodeConf := (toVec node).getD [] })
      config
  | .removeConfig name => Table.delete (·.name = name) config
  | _ => config

/-- What an order comes to where its statement is made. -/
def Order.update : Order → Update
  | .addMasterNode _ _ | .editMasterNode _ _ | .removeMasterNode _ => .masterNodeListUpdate
  | .setConfig name master node => .configUpdate name master node
  | .changeNodeConfig k name => .nodeConfigChange k name
  | _ => .none

theorem of_exec {t t' : Tables} {o : Order} {u : Update} (h : t.exec o = some (t', u)) :
    t' = ⟨o.onUsers t.users, o.onNode t.node, o.onConfig t.config⟩ ∧ u = o.update := by
  cases o <;> simp only [Tables.exec, Option.bind_eq_bind, Option.bind_eq_some_iff,
    PublicKey.toVec_eq, Option.some.injEq, Option.pure_def, Prod.mk.injEq, reduceCtorEq] at h
  case addUser =>
    obtain ⟨_, rfl, p, hp, rfl, rfl⟩ := h
    simp only [Order.onUsers, hp, Option.getD_some]
    exact ⟨rfl, rfl⟩
  case editUser =>
    obtain ⟨p, hp, _, rfl, rfl, rfl⟩ := h
    simp only [Order.onUsers, hp, Option.getD_some]
    exact ⟨rfl, rfl⟩
  case setConfig =>
    obtain ⟨m, hm, c, hc, rfl, rfl⟩ := h
    simp only [Order.onConfig, hm, hc, Option.getD_some]
    exact ⟨rfl, rfl⟩
  case removeConfig =>
    obtain ⟨rfl, rfl⟩ := h
    exact ⟨rfl, rfl⟩
  all_goals
    obtain ⟨_, rfl, rfl, rfl⟩ := h
    exact ⟨rfl, rfl⟩

/-- The updates of a block are those of its orders. -/
theorem updates_interpretBlock : ∀ {db db' : Database} {reqs : List RequestType}
    {us : List Update}, interpretBlock db reqs = some (db', us) →
      us = reqs.map fun | .order o => o.update
  | db, db', [], us, h => by
    simp only [interpretBlock, Option.some.injEq, Prod.mk.injEq] at h
    exact h.2.symm
  | db, db', .order o :: reqs, us, h => by
    obtain ⟨t, u, us', ho, hrest, rfl⟩ := of_interpretBlock_cons h
    rw [(of_exec ho).2, updates_interpretBlock hrest, List.map_cons]

/-- A statement that is made is none that always fails, and its blobs have encodings. -/
theorem bindable_of_exec {t t' : Tables} {o : Order} {u : Update} (h : t.exec o = some (t', u)) :
    ¬ o.IsUpdatePublicKey ∧ o.Bindable :=
  exec_isSome_iff.1 (Option.isSome_of_eq_some h)

end Statements

end Nyumt
