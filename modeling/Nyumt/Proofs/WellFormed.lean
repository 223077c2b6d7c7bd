import Nyumt.Toy

/-!
# The tables stay well formed

No constraint of the schema says that a node's config exists or that a name is short. Both are
looked at when an order is verified, on tables that may be older than those it changes. They last
because a config that is there stays: `config_used` has no way to say no, so no `RemoveConfig` is
ever accepted, and a new node's config, the default, is there from the first block.
-/

namespace Nyumt

open Borsh

variable {K : Crypto}

def Tables.configs (t : Tables) : List String := t.config.map ConfigRow.name

/-- Every node has a config that is there, no name is longer than `verify_order` lets through. -/
structure WellFormed (t : Tables) : Prop where
  conf : ∀ n ∈ t.node, n.conf ∈ t.configs
  user : ∀ u ∈ t.users, u.name.utf8ByteSize ≤ 30
  node : ∀ n ∈ t.node, n.name.utf8ByteSize ≤ 30
  config : ∀ c ∈ t.config, c.name.utf8ByteSize ≤ 30
  nodeConf : ∀ n ∈ t.node, n.conf.utf8ByteSize ≤ 30

/-- A database of a master and those it had before. Each block was accepted on the database it was
interpreted on or on one before. -/
inductive History (K : Crypto) (nodePk pk : PublicKey) : Database → List Database → Prop
  | genesis {timestamp : UInt64} {db : Database} (h : Genesis K nodePk pk timestamp db) :
      History K nodePk pk db []
  | block {db old : Database} {past : List Database} {raw sig : Bytes} {req : List RequestType}
      {userPk : PublicKey} {perms : Permissions} (h : History K nodePk pk db past)
      (hold : old ∈ db :: past)
      (hv : verifyReq K old.toTables raw req userPk perms sig = .ok none) :
      History K nodePk pk (applyBlock db req) (db :: past)

namespace WellFormed

variable {t t' old : Tables}

def NodeOk (t : Tables) (n : NodeRow) : Prop :=
  n.conf ∈ t.configs ∧ n.name.utf8ByteSize ≤ 30

/-- The length of a node's config is that of the config's name. -/
theorem of_nodes (hn : ∀ n ∈ t.node, NodeOk t n) (hu : ∀ u ∈ t.users, u.name.utf8ByteSize ≤ 30)
    (hc : ∀ c ∈ t.config, c.name.utf8ByteSize ≤ 30) : WellFormed t where
  conf n h := (hn n h).1
  user := hu
  node n h := (hn n h).2
  config := hc
  nodeConf n h := by
    obtain ⟨c, hm, he⟩ := List.mem_map.1 (hn n h).1
    exact he ▸ hc c hm

theorem nodes (h : WellFormed t) : ∀ n ∈ t.node, NodeOk t n :=
  fun n hn => ⟨h.conf n hn, h.node n hn⟩

theorem of_node (h : WellFormed t) {node : List NodeRow} (hn : ∀ n ∈ node, NodeOk t n) :
    WellFormed { t with node := node } :=
  of_nodes hn h.user h.config

theorem update_node (h : WellFormed t) {p : NodeRow → Bool} {f : NodeRow → NodeRow}
    (hf : ∀ n, NodeOk t n → NodeOk t (f n)) :
    WellFormed { t with node := Table.update p f t.node } :=
  h.of_node (Table.forall_update p f hf h.nodes)

theorem add_node (h : WellFormed t) (hd : "default" ∈ t.configs) {name : String}
    (hname : ¬ longName name) (id : ℕ) (k : Bytes) (master : Bool) (weight : Option UInt32) :
    WellFormed { t with node := t.node ++ [⟨id, name, k, master, "default", weight⟩] } :=
  h.of_node (List.forall_mem_append.2 ⟨h.nodes, List.forall_mem_singleton.2
    ⟨hd, not_lt.1 (by simpa [longName] using hname)⟩⟩)

theorem delete_node (h : WellFormed t) (p : NodeRow → Bool) :
    WellFormed { t with node := Table.delete p t.node } :=
  h.of_node fun n hn => h.nodes n ((Table.mem_delete p).1 hn).1

theorem of_user (h : WellFormed t) {users : List UserRow}
    (hu : ∀ u ∈ users, u.name.utf8ByteSize ≤ 30) : WellFormed { t with users := users } :=
  of_nodes h.nodes hu h.config

/-- An order that was accepted on tables whose configs are all still there. -/
theorem exec {userPk : PublicKey} {perms : Permissions} {o : Order} {u : Update}
    (ha : Accepted old userPk perms o) (hold : old.configs ⊆ t.configs)
    (hd : "default" ∈ t.configs) (h : WellFormed t) (hx : t.exec o = some (t', u)) :
    WellFormed t' ∧ t.configs ⊆ t'.configs := by
  obtain ⟨he, hp⟩ := ha
  have hshort : ∀ {name : String}, ¬ longName name → name.utf8ByteSize ≤ 30 := fun hn =>
    not_lt.1 (by simpa [longName] using hn)
  obtain ⟨rfl, -⟩ := of_exec hx
  cases o
  case addUser name k perm =>
    exact ⟨h.of_user (List.forall_mem_append.2 ⟨h.user, List.forall_mem_singleton.2 (hshort hp.1)⟩),
      List.Subset.refl _⟩
  case editUser name k perm =>
    exact ⟨h.of_user (Table.forall_update _ _ (fun _ _ => hshort hp.1) h.user), List.Subset.refl _⟩
  case setConfig name m c =>
    have hsub := Table.subset_upsert (fun r : ConfigRow =>
      { r with masterConf := (toVec m).getD [], nodeConf := (toVec c).getD [] })
      ConfigRow.name (fun _ => rfl) ⟨name, (toVec m).getD [], (toVec c).getD []⟩ t.config
    refine ⟨of_nodes (fun n hn => (h.nodes n hn).imp_left (@hsub _)) h.user fun r hr => ?_, hsub⟩
    rcases Table.mem_upsert _ hr with rfl | ⟨hr, -⟩ | ⟨r', hr', -, rfl⟩
    · exact hshort he
    · exact h.config r hr
    · exact h.config r' hr'
  case removeConfig name => exact he.elim
  all_goals refine ⟨?_, List.Subset.refl _⟩
  case addMasterNode name k => exact h.add_node hd hp.1 _ _ _ _
  case addNode name k => exact h.add_node hd hp.1 _ _ _ _
  case editMasterNode name k => exact h.update_node fun n hn => ⟨hn.1, hshort hp.1⟩
  case editNode name k => exact h.update_node fun n hn => ⟨hn.1, hshort hp.1⟩
  case updateVoteWeight k w => exact h.update_node fun n hn => hn
  case removeMasterNode k => exact h.delete_node _
  case removeNode k => exact h.delete_node _
  case removeUser k => exact h.of_user (Table.forall_update _ _ (fun _ hu => hu) h.user)
  case changeNodeConfig k name =>
    obtain ⟨-, c, hc, rfl⟩ := hp
    exact h.update_node fun n hn => ⟨hold (List.mem_map_of_mem hc), hn.2⟩
  case updatePublicKey => exact h

/-- A block of such orders, also if it fails. -/
theorem apply {userPk : PublicKey} {perms : Permissions} {req : List RequestType}
    (ha : ∀ o, .order o ∈ req → Accepted old userPk perms o) (hold : old.configs ⊆ t.configs)
    (hd : "default" ∈ t.configs) (h : WellFormed t) :
    WellFormed (t.apply req) ∧ t.configs ⊆ (t.apply req).configs := by
  unfold Tables.apply
  rcases hx : t.execAll req with _ | t'
  · exact ⟨h, List.Subset.refl _⟩
  refine execAll_induction (I := fun t' => WellFormed t' ∧ t.configs ⊆ t'.configs)
    (fun o ho t₁ t₂ u h₁ ⟨hw, hsub⟩ => ?_) hx ⟨h, List.Subset.refl _⟩
  obtain ⟨hw', hsub'⟩ := hw.exec (ha o ho) (List.Subset.trans hold hsub) (hsub hd) h₁
  exact ⟨hw', List.Subset.trans hsub hsub'⟩

theorem genesis (nodePk pk : PublicKey) : WellFormed (genesisTables K nodePk pk) where
  conf := by simp [genesisTables, Tables.configs]
  user := by simp +decide [genesisTables]
  node := by simp +decide [genesisTables]
  config := by simp +decide [genesisTables]
  nodeConf := by simp +decide [genesisTables]

end WellFormed

namespace History

variable {nodePk pk : PublicKey} {db : Database} {past : List Database}

/-- What every database before had of configs is still there. -/
theorem inv (h : History K nodePk pk db past) : WellFormed db.toTables
    ∧ "default" ∈ db.toTables.configs
    ∧ ∀ old ∈ past, old.toTables.configs ⊆ db.toTables.configs := by
  induction h with
  | genesis h =>
    obtain ⟨hdb, -⟩ := of_genesis h
    rw [hdb]
    exact ⟨.genesis nodePk pk, List.mem_singleton_self _, by simp⟩
  | @block db old past raw sig req userPk perms h hold hv ih =>
    obtain ⟨hw, hd, hpast⟩ := ih
    have hsub : old.toTables.configs ⊆ db.toTables.configs := by
      rcases List.mem_cons.1 hold with rfl | hold
      · exact List.Subset.refl _
      · exact hpast old hold
    obtain ⟨hw', hsub'⟩ := hw.apply (verifyReq_eq_ok_none.1 hv).2 hsub hd
    rw [applyBlock_toTables]
    refine ⟨hw', hsub' hd, fun u hu => ?_⟩
    rcases List.mem_cons.1 hu with rfl | hu
    · exact hsub'
    · exact List.Subset.trans (hpast u hu) hsub'

/-- In every state of the tables that accepted blocks lead to from the first one, every node has a
config that is there and every name is short. -/
theorem wellFormed (h : History K nodePk pk db past) : WellFormed db.toTables :=
  h.inv.1

/-- A node is added by a block that was accepted before a config was set, and is given it. -/
theorem wellFormed_late :
    let set := toyRequest (toyKey 1) [.root] [.order (.setConfig "c" (.default toy) (.default toy))]
    let add := toyRequest (toyKey 1) [.root] [.order (.addNode "n" (toyKey 2))]
    let change := toyRequest (toyKey 1) [.root] [.order (.changeNodeConfig (toyKey 2) "c")]
    let db := applyBlock (applyBlock (applyBlock toyGenesis set.req) add.req) change.req
    WellFormed db.toTables ∧ db.node.map NodeRow.conf = ["default", "c"] := by
  intro set add change db
  have hset : verifyReq toy toyGenesis.toTables ((toVec set.req).getD []) set.req set.userPk
      set.perms set.sign = .ok none := by decide +kernel
  have hadd : verifyReq toy toyGenesis.toTables ((toVec add.req).getD []) add.req add.userPk
      add.perms add.sign = .ok none := by decide +kernel
  have hchange : verifyReq toy (applyBlock (applyBlock toyGenesis set.req) add.req).toTables
      ((toVec change.req).getD []) change.req change.userPk change.perms change.sign
        = .ok none := by
    decide +kernel
  have h₁ := (History.genesis genesis_toyGenesis).block List.mem_cons_self hset
  have h₂ := h₁.block (List.mem_cons_of_mem _ List.mem_cons_self) hadd
  exact ⟨(h₂.block List.mem_cons_self hchange).wellFormed, by decide +kernel⟩

end History

end Nyumt
