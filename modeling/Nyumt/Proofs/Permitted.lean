import Nyumt.Proofs.Keys

/-!
# Every active user has a permission

A user is added with some permission, and an edit may take all of them away: what is refused as
`NoPermission` is an `AddUser` only. An accepted block does not both add a user and edit or remove
it, so what it does to the permissions of a key is what its last edit of the key says
(`activePermissions_execAll`).
-/

namespace Nyumt

open Borsh

variable {K : Crypto} {t t' : Tables}

def Permitted (t : Tables) : Prop :=
  ∀ u ∈ t.users, u.active → ∃ perm : Permissions, perm ≠ [] ∧ toVec perm = some u.permissions

instance : DecidablePred Permitted := fun t =>
  decidable_of_iff
    (∀ u ∈ t.users, u.active → (fromSlice Permissions u.permissions).any fun perm => perm ≠ [])
    (forall_congr' fun u => forall_congr' fun _ => forall_congr' fun _ => by
      rw [Option.any_eq_true]
      constructor
      · rintro ⟨perm, hp, hne⟩
        exact ⟨perm, of_decide_eq_true hne, ser_of_fromSlice hp⟩
      · rintro ⟨perm, hne, hp⟩
        exact ⟨perm, fromSlice_toVec hp, decide_eq_true hne⟩)

/-- The stored permissions of the active users of a key. -/
def Tables.activePermissions (t : Tables) (key : Bytes) : List Bytes :=
  (t.users.filter fun u => u.publicKey = key ∧ u.active).map (·.permissions)

/-- What an order does to them. -/
def Order.onPermissions (key : Bytes) (ps : List Bytes) : Order → List Bytes
  | .addUser _ k perm => if k.bytes = key then ps ++ [(toVec perm).getD []] else ps
  | .editUser _ k perm => if k.bytes = key then ps.map fun _ => (toVec perm).getD [] else ps
  | .removeUser k => if k.bytes = key then [] else ps
  | _ => ps

/-- The permissions of the last edit of a key. -/
def lastEdit (key : Bytes) (reqs : List RequestType) : Option Permissions :=
  reqs.findSomeRev? fun
    | .order (.editUser _ k perm) => if k.bytes = key then some perm else none
    | _ => none

section Effect

theorem permitted_iff : Permitted t ↔ ∀ key, ∀ p ∈ t.activePermissions key,
    ∃ perm : Permissions, perm ≠ [] ∧ toVec perm = some p := by
  simp only [Permitted, Tables.activePermissions, List.mem_map, List.mem_filter, decide_eq_true_eq]
  constructor
  · rintro h key _ ⟨u, ⟨hu, -, ha⟩, rfl⟩
    exact h u hu ha
  · exact fun h u hu ha => h u.publicKey _ ⟨u, ⟨hu, rfl, ha⟩, rfl⟩

theorem activePermissions_edit (k : PublicKey) (name : String) (p key : Bytes) :
    ({ t with
      users := Table.update (·.publicKey = k.bytes)
        (fun u => { u with name := name, permissions := p }) t.users }
      : Tables).activePermissions key
      = if k.bytes = key then (t.activePermissions key).map fun _ => p
        else t.activePermissions key := by
  have hkey : ∀ x ∈ t.users.filter fun u => u.publicKey = key ∧ u.active, x.publicKey = key :=
    fun x hx => (of_decide_eq_true (List.mem_filter.1 hx).2).1
  simp only [Tables.activePermissions]
  rw [Table.filter_update]
  · split_ifs with hk <;> rw [Table.update, List.map_map]
    · rw [List.map_map]
      refine List.map_congr_left fun x hx => ?_
      simp [hkey x hx, hk]
    · refine List.map_congr_left fun x hx => ?_
      have hne : ¬ x.publicKey = k.bytes := fun h => hk (h.symm.trans (hkey x hx))
      simp [hne]
  · exact fun _ => rfl

theorem activePermissions_deactivate (k : PublicKey) (key : Bytes) :
    ({ t with
      users := Table.update (·.publicKey = k.bytes) (fun u => { u with active := false }) t.users }
      : Tables).activePermissions key
      = if k.bytes = key then [] else t.activePermissions key := by
  simp only [Tables.activePermissions, Table.update, List.filter_map]
  split_ifs with hk
  · rw [List.map_eq_nil_iff, List.map_eq_nil_iff, List.filter_eq_nil_iff]
    intro x _
    by_cases hx : x.publicKey = k.bytes <;> simp [hx, ← hk]
  · have hfilter : t.users.filter ((fun u => u.publicKey = key ∧ u.active) ∘ fun x : UserRow =>
        if decide (x.publicKey = k.bytes) = true then { x with active := false } else x)
        = t.users.filter fun u => u.publicKey = key ∧ u.active := by
      refine List.filter_congr fun x _ => ?_
      by_cases hx : x.publicKey = k.bytes <;> simp [hx, hk]
    rw [hfilter, List.map_map]
    refine List.map_congr_left fun x _ => ?_
    by_cases h : x.publicKey = k.bytes <;> simp [h]

theorem activePermissions_exec {o : Order} {u : Update} (h : t.exec o = some (t', u))
    (key : Bytes) : t'.activePermissions key = o.onPermissions key (t.activePermissions key) := by
  obtain ⟨rfl, -⟩ := of_exec h
  cases o
  case addUser name k perm =>
    simp only [Tables.activePermissions, Order.onUsers, Order.onPermissions, List.filter_append,
      List.map_append]
    by_cases hk : k.bytes = key <;> simp [hk]
  case editUser name k perm => exact activePermissions_edit k name _ key
  case removeUser k => exact activePermissions_deactivate k key
  all_goals rfl

def blockPermissions (key : Bytes) : List Bytes → List RequestType → List Bytes
  | ps, [] => ps
  | ps, .order o :: reqs => blockPermissions key (o.onPermissions key ps) reqs

theorem activePermissions_execAll (key : Bytes) : ∀ {t t' : Tables} {reqs : List RequestType},
    t.execAll reqs = some t' →
      t'.activePermissions key = blockPermissions key (t.activePermissions key) reqs
  | t, t', [], h => by
    simp only [Tables.execAll, Option.some.injEq] at h
    exact h ▸ rfl
  | t, t', .order o :: reqs, h => by
    obtain ⟨⟨t₁, u⟩, ho, hrest⟩ := Option.bind_eq_some_iff.1 h
    rw [activePermissions_execAll key hrest, activePermissions_exec ho]
    rfl

variable {key : Bytes}

/-- Permissions are stored by an order that adds or edits the user. -/
theorem of_mem_blockPermissions {p : Bytes} : ∀ {ps : List Bytes} {reqs : List RequestType},
    p ∈ blockPermissions key ps reqs → p ∈ ps ∨ ∃ name k perm, k.bytes = key
      ∧ p = (toVec perm).getD [] ∧ (.order (.addUser name k perm) ∈ reqs
        ∨ .order (.editUser name k perm) ∈ reqs)
  | ps, [], h => .inl h
  | ps, .order o :: reqs, h => by
    rw [blockPermissions] at h
    rcases of_mem_blockPermissions h with h | ⟨name, k, perm, hk, hp, h⟩
    · cases o <;> simp only [Order.onPermissions] at h <;> try exact .inl h
      case addUser name' k' perm' _ =>
        split_ifs at h with hk
        · rcases List.mem_append.1 h with h | h
          · exact .inl h
          · exact .inr ⟨name', k', perm', hk, List.mem_singleton.1 h, .inl List.mem_cons_self⟩
        · exact .inl h
      case editUser name' k' perm' _ =>
        split_ifs at h with hk
        · obtain ⟨_, -, rfl⟩ := List.mem_map.1 h
          exact .inr ⟨name', k', perm', hk, rfl, .inr List.mem_cons_self⟩
        · exact .inl h
      case removeUser =>
        split_ifs at h
        · simp at h
        · exact .inl h
    · exact .inr ⟨name, k, perm, hk, hp,
        h.imp (List.mem_cons_of_mem _) (List.mem_cons_of_mem _)⟩

def AddsNone (key : Bytes) (reqs : List RequestType) : Prop :=
  ∀ name k perm, .order (.addUser name k perm) ∈ reqs → k.bytes ≠ key

theorem AddsNone.tail {o : Order} {reqs : List RequestType} (h : AddsNone key (.order o :: reqs)) :
    AddsNone key reqs :=
  fun name k perm hm => h name k perm (List.mem_cons_of_mem _ hm)

theorem AddsNone.head {o : Order} {reqs : List RequestType} (h : AddsNone key (.order o :: reqs)) :
    o.onPermissions key [] = [] := by
  cases o <;> simp only [Order.onPermissions] <;> try rfl
  case addUser name k perm => exact if_neg (h name k perm List.mem_cons_self)
  all_goals split_ifs <;> rfl

theorem blockPermissions_nil : ∀ {reqs : List RequestType}, AddsNone key reqs →
    blockPermissions key [] reqs = []
  | [], _ => rfl
  | .order o :: reqs, h => by
    rw [blockPermissions, h.head, blockPermissions_nil h.tail]

/-- A block that removes the key and does not add it leaves no active user with it. -/
theorem blockPermissions_removed {k : PublicKey} : ∀ {ps : List Bytes} {reqs : List RequestType},
    AddsNone k.bytes reqs → .order (.removeUser k) ∈ reqs → blockPermissions k.bytes ps reqs = []
  | ps, .order o :: reqs, h, hr => by
    rcases List.mem_cons.1 hr with hr | hr
    · obtain rfl := RequestType.order.inj hr
      rw [blockPermissions, Order.onPermissions, if_pos rfl, blockPermissions_nil h.tail]
    · rw [blockPermissions]
      exact blockPermissions_removed h.tail hr

theorem blockPermissions_edited : ∀ {ps : List Bytes} {reqs : List RequestType},
    AddsNone key reqs → (∀ k, .order (.removeUser k) ∈ reqs → k.bytes ≠ key) →
      blockPermissions key ps reqs
        = (lastEdit key reqs).elim ps fun perm => ps.map fun _ => (toVec perm).getD []
  | ps, [], _, _ => rfl
  | ps, .order o :: reqs, h, hr => by
    rw [blockPermissions, blockPermissions_edited h.tail
      fun k hk => hr k (List.mem_cons_of_mem _ hk)]
    unfold lastEdit
    rw [List.findSomeRev?]
    rcases reqs.findSomeRev? _ with _ | perm
    · cases o <;> simp only [Order.onPermissions] <;> try rfl
      case addUser name k perm => exact if_neg (h name k perm List.mem_cons_self)
      case editUser name k perm => split_ifs <;> rfl
      case removeUser k => exact if_neg (hr k List.mem_cons_self)
    · cases o <;> simp only [Order.onPermissions, Option.elim_some] <;> try rfl
      case addUser name k perm => rw [if_neg (h name k perm List.mem_cons_self)]
      case editUser name k perm' =>
        split_ifs
        · rw [List.map_map]
          rfl
        · rfl
      case removeUser k => rw [if_neg (hr k List.mem_cons_self)]

theorem of_lastEdit {reqs : List RequestType} {perm : Permissions}
    (h : lastEdit key reqs = some perm) :
    ∃ name k, k.bytes = key ∧ .order (.editUser name k perm) ∈ reqs := by
  rw [lastEdit, List.findSomeRev?_eq_findSome?_reverse] at h
  obtain ⟨⟨o⟩, hm, ho⟩ := List.exists_of_findSome?_eq_some h
  cases o <;> simp only [reduceCtorEq] at ho
  case editUser name k perm' =>
    split_ifs at ho with hk
    obtain rfl := Option.some.inj ho
    exact ⟨name, k, hk, List.mem_reverse.1 hm⟩

end Effect

section Block

/-- The block removes the users whose permissions its last edit takes away. -/
def RemovesEmptied (t : Tables) (reqs : List RequestType) : Prop :=
  ∀ u ∈ t.users, u.active → lastEdit u.publicKey reqs = some [] →
    ∃ k, k.bytes = u.publicKey ∧ .order (.removeUser k) ∈ reqs

theorem removesEmptied_of_edits {reqs : List RequestType}
    (h : ∀ name k, .order (.editUser name k []) ∉ reqs) : RemovesEmptied t reqs := by
  intro u _ _ hlast
  obtain ⟨name, k, -, hk⟩ := of_lastEdit hlast
  exact (h name k hk).elim

variable {userPk : PublicKey} {perms : Permissions} {reqs : List RequestType}

/-- A block that is let through does not add a key that is there. -/
theorem addsNone_of_accepted {key : Bytes} (ha : ∀ o, .order o ∈ reqs → Accepted t userPk perms o)
    (hk : key ∈ t.keys) : AddsNone key reqs := by
  rintro name k perm hm rfl
  exact notMem_keys_of_added (ha _ hm) rfl hk

theorem permitted_execAll (hp : Permitted t)
    (ha : ∀ o, .order o ∈ reqs → Accepted t userPk perms o) (h : t.execAll reqs = some t') :
    Permitted t' ↔ RemovesEmptied t reqs := by
  have hbind := execAll_isSome_iff.1 (Option.isSome_of_eq_some h)
  have hwritten : ∀ {perm : Permissions}, (toVec perm).isSome →
      toVec perm = some ((toVec perm).getD []) := by
    intro perm hs
    obtain ⟨p, hp⟩ := Option.isSome_iff_exists.1 hs
    rw [hp, Option.getD_some]
  rw [permitted_iff] at hp ⊢
  simp only [activePermissions_execAll _ h]
  constructor
  · intro hall u hu hua hlast
    by_contra hr
    have hmem : u.permissions ∈ t.activePermissions u.publicKey :=
      List.mem_map.2 ⟨u, List.mem_filter.2 ⟨hu, by simp [hua]⟩, rfl⟩
    have hadds : AddsNone u.publicKey reqs :=
      addsNone_of_accepted ha (List.mem_append_left _ (List.mem_map.2
        ⟨u, List.mem_filter.2 ⟨hu, hua⟩, rfl⟩))
    have hedited : blockPermissions u.publicKey (t.activePermissions u.publicKey) reqs = _ :=
      blockPermissions_edited hadds fun k hk he => hr ⟨k, he, hk⟩
    rw [hlast, Option.elim_some] at hedited
    -- the empty list is what the row holds now
    obtain ⟨perm, hne, hperm⟩ := hall u.publicKey ((toVec ([] : Permissions)).getD [])
      (hedited ▸ List.mem_map.2 ⟨_, hmem, rfl⟩)
    refine hne ?_
    simpa only [reset_eq] using reset_eq_of_toVec_eq hperm (y := ([] : Permissions)) rfl
  · intro hall key p hmem
    by_cases hkey : key ∈ t.keys
    · have hadds : AddsNone key reqs := addsNone_of_accepted ha hkey
      by_cases hr : ∃ k : PublicKey, k.bytes = key ∧ .order (.removeUser k) ∈ reqs
      · obtain ⟨k, rfl, hr⟩ := hr
        rw [blockPermissions_removed hadds hr] at hmem
        simp at hmem
      · rw [blockPermissions_edited hadds fun k hk he => hr ⟨k, he, hk⟩] at hmem
        rcases hlast : lastEdit key reqs with _ | perm <;> rw [hlast] at hmem
        · exact hp key p hmem
        · obtain ⟨q, hq, rfl⟩ := List.mem_map.1 hmem
          obtain ⟨u, hu, rfl⟩ := List.mem_map.1 hq
          have hu' := List.mem_filter.1 hu
          simp only [decide_eq_true_eq] at hu'
          obtain ⟨hut, rfl, hua⟩ := hu'
          obtain ⟨name, k, -, hedit⟩ := of_lastEdit hlast
          refine ⟨perm, ?_, hwritten (hbind _ hedit).2⟩
          rintro rfl
          exact hr (hall u hut hua hlast)
    · rcases of_mem_blockPermissions hmem with hmem | ⟨name, k, perm, rfl, rfl, hadd | hedit⟩
      · obtain ⟨u, hu, -⟩ := List.mem_map.1 hmem
        have hu' := List.mem_filter.1 hu
        simp only [decide_eq_true_eq] at hu'
        exact (hkey (List.mem_append_left _ (List.mem_map.2
          ⟨u, List.mem_filter.2 ⟨hu'.1, hu'.2.2⟩, hu'.2.1⟩))).elim
      · exact ⟨perm, (ha _ hadd).2.2.2, hwritten (hbind _ hadd).2⟩
      · exact (hkey (entityWithPubkeyExists_iff.1 (ha _ hedit).1)).elim

theorem permitted_step {b : Signed} (hp : Permitted t) (h : t.step K b = some t') :
    Permitted t' ↔ UpdatesKey b.req ∨ RemovesEmptied t b.req := by
  obtain ⟨rfl, ⟨raw, hr⟩, ha⟩ := of_step h
  have hs := execAll_isSome (t := t) (of_toVec_reqs hr)
  by_cases hu : UpdatesKey b.req
  · have hx : t.execAll b.req = none := by simpa [hu] using hs
    simpa [Tables.apply, hx, hu] using hp
  · obtain ⟨t₁, hx⟩ := Option.isSome_iff_exists.1 (hs.2 hu)
    rw [Tables.apply_of_execAll hx, permitted_execAll hp ha hx]
    simp [hu]

end Block

section Chain

/-- In a network begun by `first::create`, every active user has a permission in every state just if
each block that is interpreted removes the users whose permissions it takes away. -/
theorem permitted_run_iff {nodePk pk : PublicKey} {timestamp : UInt64} {db : Database} {u : Tables}
    {blocks : List Signed} (hg : Genesis K nodePk pk timestamp db)
    (hrun : Run.run (Tables.step K) db.toTables blocks = some u) :
    Run.Throughout (Tables.step K) Permitted db.toTables blocks ↔
      Run.Along (Tables.step K) (fun t b => UpdatesKey b.req ∨ RemovesEmptied t b.req)
        db.toTables blocks := by
  refine Run.throughout_iff_along (fun _ h => h) (fun t b t' _ ha hs hp => ?_)
    (fun t b t' _ hs hp hp' => ?_) Run.along_true hrun ?_
  · exact (permitted_step hp hs).2 ha
  · exact (permitted_step hp hs).1 hp'
  · rw [(of_genesis hg).1]
    intro u hu _
    obtain rfl := List.mem_singleton.1 hu
    exact ⟨[.root], by simp, rfl⟩

theorem permitted_run_iff_edit :
    Run.Throughout (Tables.step toy) Permitted toyGenesis.toTables
      [toyRequest (toyKey 1) [.root] [.order (.addUser "a" (toyKey 2) [.monitor])],
        toyRequest (toyKey 1) [.root] [.order (.editUser "b" (toyKey 2) [.root])]] := by
  refine (permitted_run_iff genesis_toyGenesis (Option.some_get (by decide +kernel)).symm).2 <|
    (Run.along_of_forall (p := fun b : Signed => ∀ name k, .order (.editUser name k []) ∉ b.req)
      ?_).mono fun t b h => .inr (removesEmptied_of_edits h)
  simp [toyRequest]

/-- The root user takes the permissions of a user it has just added. -/
theorem not_permitted_run :
    ∃ t, Run.run (Tables.step toy) toyGenesis.toTables
      [toyRequest (toyKey 1) [.root] [.order (.addUser "a" (toyKey 2) [.monitor])],
        toyRequest (toyKey 1) [.root] [.order (.editUser "a" (toyKey 2) [])]] = some t
      ∧ ¬ Permitted t :=
  Run.exists_of_any (by decide +kernel)

end Chain

end Nyumt
