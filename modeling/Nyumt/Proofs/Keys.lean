import Nyumt.Ledger
import Nyumt.Toy

/-!
# Public keys

How often a key occurs among the active users and the nodes (`Tables.keys`). An order adds at most
one occurrence and takes away only those of the key it removes (`count_keys_exec`), and it names
for removal only a key that was there, for insertion only one that was not. So a block keeps the
keys distinct just if the keys it inserts are (`keys_nodup_apply`): each of its orders is verified
on the tables before the block, and a key inserted twice passes twice.
-/

namespace Nyumt

open Borsh

variable {K : Crypto} {t t' : Tables}

section Counts

theorem keys_users_append {u : UserRow} (hu : u.active) :
    ({ t with users := t.users ++ [u] } : Tables).keys.Perm (u.publicKey :: t.keys) := by
  simp only [Tables.keys, List.filter_append, List.map_append, List.filter_cons, hu, if_true,
    List.filter_nil, List.map_cons, List.map_nil, List.append_assoc, List.singleton_append]
  exact List.perm_middle

theorem keys_node_append (n : NodeRow) :
    ({ t with node := t.node ++ [n] } : Tables).keys.Perm (n.publicKey :: t.keys) := by
  simp only [Tables.keys, List.map_append, List.map_cons, List.map_nil, ← List.append_assoc]
  exact List.perm_append_comm

theorem keys_users_update {p : UserRow → Bool} {f : UserRow → UserRow}
    (ha : ∀ u, (f u).active = u.active) (hk : ∀ u, (f u).publicKey = u.publicKey) :
    ({ t with users := Table.update p f t.users } : Tables).keys = t.keys := by
  simp only [Tables.keys]
  rw [Table.filter_update p f ha, Table.map_update p f hk]

theorem keys_node_update {p : NodeRow → Bool} {f : NodeRow → NodeRow}
    (hk : ∀ n, (f n).publicKey = n.publicKey) :
    ({ t with node := Table.update p f t.node } : Tables).keys = t.keys := by
  simp only [Tables.keys]
  rw [Table.map_update p f hk]

/-- Deactivating the rows of a key leaves the others'. -/
theorem count_deactivate (k x : Bytes) : ∀ users : List UserRow,
    let f (u : UserRow) : UserRow := { u with active := false }
    (((Table.update (fun u => u.publicKey = k) f users).filter (·.active)).map
        (·.publicKey)).count x
      = if x = k then 0 else ((users.filter (·.active)).map (·.publicKey)).count x
  | [] => by simp [Table.update]
  | u :: users => by
    have ih := count_deactivate k x users
    simp only [Table.update, List.map_cons, List.filter_cons] at ih ⊢
    by_cases hk : u.publicKey = k
    · subst hk
      by_cases hx : x = u.publicKey
      · simpa [hx] using ih
      · by_cases ha : u.active <;> simpa [ha, hx, Ne.symm hx] using ih
    · by_cases ha : u.active
      · by_cases hx : x = u.publicKey
        · subst hx
          simpa [hk, ha] using ih
        · by_cases hxk : x = k <;> simpa [hk, ha, hx, hxk, Ne.symm hx] using ih
      · simpa [hk, ha] using ih

theorem count_delete (k x : Bytes) (nodes : List NodeRow) :
    ((Table.delete (fun n => n.publicKey = k) nodes).map (·.publicKey)).count x
      = if x = k then 0 else (nodes.map (·.publicKey)).count x := by
  have hmap : (Table.delete (fun n => n.publicKey = k) nodes).map (·.publicKey)
      = (nodes.map (·.publicKey)).filter fun y => y ≠ k := by
    rw [Table.delete, List.filter_map]
    exact congrArg _ (List.filter_congr fun n _ => by simp)
  rw [hmap]
  split_ifs with hx
  · exact List.count_eq_zero.2 fun h => by simp [hx] at h
  · exact List.count_filter (by simpa using hx)

end Counts

section Block

/-- What an order does to the number of rows under a key. -/
theorem count_keys_exec {o : Order} {u : Update} (h : t.exec o = some (t', u)) (x : Bytes) :
    t'.keys.count x ≤ t.keys.count x + (o.added.map PublicKey.bytes).toList.count x
      ∧ (o.removed.map PublicKey.bytes ≠ some x →
        t'.keys.count x = t.keys.count x + (o.added.map PublicKey.bytes).toList.count x) := by
  cases exec_writes h
  case addUser name k perm row hk ha =>
    have hcount := (keys_users_append (t := t) ha).count_eq x
    rw [List.count_cons, hk] at hcount
    simp only [Order.added, Option.map_some, Option.toList_some, List.count_singleton]
    omega
  case addNode k row hk ha hr =>
    have hcount := (keys_node_append (t := t) row).count_eq x
    rw [List.count_cons, hk] at hcount
    simp only [ha, Option.map_some, Option.toList_some, List.count_singleton]
    omega
  case editUser =>
    rw [keys_users_update]
    · simp [Order.added]
    · exact fun _ => rfl
    · exact fun _ => rfl
  case editNode hf ha hr =>
    rw [keys_node_update fun n => (hf n).1]
    simp [ha]
  case removeUser =>
    simp only [Tables.keys, List.count_append, count_deactivate]
    split_ifs with hx <;> simp [Order.added, Order.removed, hx]
  case removeNode ha hr =>
    simp only [Tables.keys, List.count_append, count_delete]
    split_ifs with hx <;> simp [ha, hr, hx]
  case setConfig => exact ⟨le_rfl, fun _ => rfl⟩
  case removeConfig => exact ⟨le_rfl, fun _ => rfl⟩

theorem addedKeys_cons (o : Order) (reqs : List RequestType) :
    addedKeys (.order o :: reqs) = o.added.toList ++ addedKeys reqs := by
  rcases h : o.added with _ | k <;> simp [addedKeys, h]

/-- What a block does to the number of rows under a key that it does not remove, or does not
insert. -/
theorem count_keys_execAll (x : Bytes) : ∀ {t t' : Tables} {reqs : List RequestType},
    t.execAll reqs = some t' →
      t'.keys.count x ≤ t.keys.count x + ((addedKeys reqs).map PublicKey.bytes).count x
        ∧ ((∀ o, .order o ∈ reqs → o.removed.map PublicKey.bytes ≠ some x) →
          t'.keys.count x = t.keys.count x + ((addedKeys reqs).map PublicKey.bytes).count x)
  | t, t', [], h => by
    simp only [Tables.execAll, Option.some.injEq] at h
    simp [h, addedKeys]
  | t, t', .order o :: reqs, h => by
    obtain ⟨⟨t₁, u⟩, ho, hrest⟩ := Option.bind_eq_some_iff.1 h
    obtain ⟨hle, heq⟩ := count_keys_exec ho x
    obtain ⟨hle', heq'⟩ := count_keys_execAll (t := t₁) x hrest
    have hcount : ((addedKeys (.order o :: reqs)).map PublicKey.bytes).count x
        = (o.added.map PublicKey.bytes).toList.count x
          + ((addedKeys reqs).map PublicKey.bytes).count x := by
      rw [addedKeys_cons, List.map_append, List.count_append]
      rcases o.added with _ | k <;> rfl
    rw [hcount]
    refine ⟨by omega, fun hr => ?_⟩
    have h₁ := heq (hr o List.mem_cons_self)
    have h₂ := heq' fun o' ho' => hr o' (List.mem_cons_of_mem _ ho')
    omega

theorem notMem_keys_of_added {o : Order} {k userPk : PublicKey} {perms : Permissions}
    (h : Accepted t userPk perms o) (ha : o.added = some k) : k.bytes ∉ t.keys := by
  rw [← entityWithPubkeyExists_iff]
  cases o <;> simp only [Order.added, Option.some.injEq, reduceCtorEq] at ha <;> subst ha <;>
    exact h.1

theorem mem_keys_of_removed {o : Order} {k userPk : PublicKey} {perms : Permissions}
    (h : Accepted t userPk perms o) (hr : o.removed = some k) : k.bytes ∈ t.keys := by
  rw [← entityWithPubkeyExists_iff]
  cases o <;> simp only [Order.removed, Option.some.injEq, reduceCtorEq] at hr <;> subst hr <;>
    exact h.1

theorem mem_addedKeys {reqs : List RequestType} {k : PublicKey} :
    k ∈ addedKeys reqs ↔ ∃ o, .order o ∈ reqs ∧ o.added = some k := by
  simp only [addedKeys, List.mem_filterMap]
  constructor
  · rintro ⟨⟨o⟩, ho, ha⟩
    exact ⟨o, ho, ha⟩
  · rintro ⟨o, ho, ha⟩
    exact ⟨.order o, ho, ha⟩

/-- An accepted block that is interpreted keeps the keys distinct just if it inserts none twice. -/
theorem keys_nodup_execAll {reqs : List RequestType} {userPk : PublicKey} {perms : Permissions}
    (hn : t.keys.Nodup) (ha : ∀ o, .order o ∈ reqs → Accepted t userPk perms o)
    (h : t.execAll reqs = some t') : t'.keys.Nodup ↔ (addedKeys reqs).Nodup := by
  have hfresh : ∀ x ∈ (addedKeys reqs).map PublicKey.bytes, x ∉ t.keys := by
    intro x hx
    obtain ⟨k, hk, rfl⟩ := List.mem_map.1 hx
    obtain ⟨o, ho, hok⟩ := mem_addedKeys.1 hk
    exact notMem_keys_of_added (ha o ho) hok
  -- a key that was not there is removed by no order
  have hnew : ∀ x, x ∉ t.keys →
      t'.keys.count x = ((addedKeys reqs).map PublicKey.bytes).count x := by
    intro x hx
    rw [(count_keys_execAll x h).2, List.count_eq_zero.2 hx, Nat.zero_add]
    intro o ho hr
    obtain ⟨k, hk, rfl⟩ := Option.map_eq_some_iff.1 hr
    exact hx (mem_keys_of_removed (ha o ho) hk)
  rw [← List.nodup_map_iff PublicKey.bytes_injective, List.nodup_iff_count_le_one,
    List.nodup_iff_count_le_one]
  constructor
  · intro hc x
    by_cases hx : x ∈ (addedKeys reqs).map PublicKey.bytes
    · rw [← hnew x (hfresh x hx)]
      exact hc x
    · rw [List.count_eq_zero.2 hx]
      exact Nat.zero_le 1
  · intro hc x
    by_cases hx : x ∈ t.keys
    · have hzero : ((addedKeys reqs).map PublicKey.bytes).count x = 0 :=
        List.count_eq_zero.2 fun h => hfresh x h hx
      have hle := (count_keys_execAll x h).1
      rw [hzero, Nat.add_zero] at hle
      exact hle.trans (List.nodup_iff_count_le_one.1 hn x)
    · rw [hnew x hx]
      exact hc x

theorem keys_nodup_step {b : Signed} (hn : t.keys.Nodup) (h : t.step K b = some t') :
    t'.keys.Nodup ↔ UpdatesKey b.req ∨ (addedKeys b.req).Nodup := by
  obtain ⟨rfl, ⟨raw, hr⟩, ha⟩ := of_step h
  have hs := execAll_isSome (t := t) (of_toVec_reqs hr)
  by_cases hu : UpdatesKey b.req
  · have hx : t.execAll b.req = none := by simpa [hu] using hs
    simpa [Tables.apply, hx, hu] using hn
  · obtain ⟨t₁, hx⟩ := Option.isSome_iff_exists.1 (hs.2 hu)
    rw [Tables.apply_of_execAll hx, keys_nodup_execAll hn ha hx]
    simp [hu]

end Block

section Chain

theorem keys_genesisTables {nodePk pk : PublicKey} :
    (genesisTables K nodePk pk).keys.Nodup ↔ nodePk ≠ pk := by
  simp [genesisTables, Tables.keys, eq_comm]

/-- The keys are distinct in every state of a run from `t` just if they are in `t` and no block
of the run that is interpreted inserts a key twice. -/
theorem keys_nodup_run : ∀ {t u : Tables} {blocks : List Signed},
    Run.run (Tables.step K) t blocks = some u →
      ((∀ bs v, bs <+: blocks → Run.run (Tables.step K) t bs = some v → v.keys.Nodup) ↔
        t.keys.Nodup ∧ ∀ b ∈ blocks, UpdatesKey b.req ∨ (addedKeys b.req).Nodup)
  | t, u, [], h => by
    constructor
    · exact fun hall => ⟨hall [] t (List.prefix_refl _) rfl, by simp⟩
    · rintro ⟨hn, -⟩ bs v hbs hv
      obtain rfl := List.prefix_nil.1 hbs
      simp only [Run.run_nil, Option.some.injEq] at hv
      exact hv ▸ hn
  | t, u, b :: blocks, h => by
    obtain ⟨t₁, h₁, hrest⟩ := Run.of_run_cons h
    have ih := keys_nodup_run hrest
    simp only [List.mem_cons, forall_eq_or_imp]
    constructor
    · intro hall
      have hn := hall [] t List.nil_prefix rfl
      have htail := ih.1 fun bs v hbs hv =>
        hall (b :: bs) v (List.cons_prefix_cons.2 ⟨rfl, hbs⟩) (by rw [Run.run_cons _ h₁, hv])
      exact ⟨hn, (keys_nodup_step hn h₁).1 htail.1, htail.2⟩
    · rintro ⟨hn, hb, hbs⟩ bs v hpre hv
      have htail := ih.2 ⟨(keys_nodup_step hn h₁).2 hb, hbs⟩
      rcases bs with _ | ⟨b', bs⟩
      · simp only [Run.run_nil, Option.some.injEq] at hv
        exact hv ▸ hn
      · obtain ⟨rfl, hbs'⟩ := List.cons_prefix_cons.1 hpre
        rw [Run.run_cons _ h₁] at hv
        exact htail bs v hbs' hv

/-- In a network begun by `first::create`, every state has every public key in one row just if the
root's key is not the node's and no block inserts a key twice. -/
theorem keys_unique_iff {nodePk pk : PublicKey} {timestamp : UInt64} {db : Database} {u : Tables}
    {blocks : List Signed} (hg : Genesis K nodePk pk timestamp db)
    (hrun : Run.run (Tables.step K) db.toTables blocks = some u) :
    (∀ bs v, bs <+: blocks → Run.run (Tables.step K) db.toTables bs = some v → v.keys.Nodup) ↔
      nodePk ≠ pk ∧ ∀ b ∈ blocks, UpdatesKey b.req ∨ (addedKeys b.req).Nodup := by
  rw [keys_nodup_run hrun, (of_genesis hg).1, keys_genesisTables]

/-- A user and a node with keys of their own. -/
theorem keys_unique_iff_add :
    let blocks := [toyRequest (toyKey 1) [.root]
      [.order (.addUser "a" (toyKey 2) [.monitor]), .order (.addNode "n" (toyKey 3))]]
    ∀ bs v, bs <+: blocks → Run.run (Tables.step toy) toyGenesis.toTables bs = some v →
      v.keys.Nodup :=
  (keys_unique_iff genesis_toyGenesis (Option.some_get (by decide +kernel)).symm).2
    ⟨by decide, List.forall_mem_singleton.2 (.inr (by decide))⟩

/-- One block that adds a user twice is accepted, and leaves two rows with one key. -/
theorem keys_not_unique :
    let blocks := [toyRequest (toyKey 1) [.root]
      [.order (.addUser "a" (toyKey 2) [.monitor]), .order (.addUser "b" (toyKey 2) [.monitor])]]
    ∃ u, Run.run (Tables.step toy) toyGenesis.toTables blocks = some u ∧ ¬ u.keys.Nodup := by
  have h : (Run.run (Tables.step toy) toyGenesis.toTables [toyRequest (toyKey 1) [.root]
      [.order (.addUser "a" (toyKey 2) [.monitor]),
        .order (.addUser "b" (toyKey 2) [.monitor])]]).any (fun u => ¬ u.keys.Nodup) := by
    decide +kernel
  simpa [Option.any_eq_true] using h

end Chain

end Nyumt
