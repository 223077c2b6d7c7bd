import Nyumt.Client
import Nyumt.Proofs.Format

/-!
# What a client takes from a server

A client that has the tables of a master has them again after the next block, whether the master
could interpret the block or not (`handleBlock_follows`). A client that starts with nothing applies
no block but the first unverified, whatever it is sent (`applied_verified`).
-/

namespace Nyumt

open Borsh

variable {K : Crypto}

/-- The row of the block `body` is appended to the database and interpreted: a block that
`verify_req` accepts on the tables it is applied to, or the first block of a network. -/
inductive Appends (K : Crypto) (db : Database) : OrderRow → BodyData → Database → Prop
  | verified {body : BodyData} {height : ℕ} {lastHash : Bytes} {vhash : Option Digest}
      {hasher : Option Bytes} {data : Bytes} {hash : Digest} {db' : Database}
      (hlast : db.getLastBlock = some (height, lastHash)) (hv : Admitted K db.toTables body)
      (hs : serializeBlock K body vhash hasher = some (data, hash))
      (hi : db.addNew (height + 1) data hash.toList = some db') :
      Appends K db ⟨height + 1, data, hash.toList⟩ body (applyBlock db' body.req)
  | first {nodePk pk : PublicKey} {timestamp : UInt64} {data : Bytes} {hash : Digest}
      {db' : Database} (ht : db.toTables = {}) (ho : db.order = [])
      (hs : serializeBlock K (firstBlock K nodePk pk timestamp) none none = some (data, hash))
      (hc : create K db nodePk pk timestamp = some db') :
      Appends K db ⟨0, data, hash.toList⟩ (firstBlock K nodePk pk timestamp) db'

/-- A request task appends: from its insert to the end of its `interpret_block`. -/
theorem appends_of_task {s s₁ s₂ : SwarmSettings} {t t₁ t₂ : Task} {net net' : Publish}
    {height : ℕ} {lastHash : Bytes} {vhash : Option Digest} {hasher : Option Bytes} {data : Bytes}
    {hash : Digest} (hpc : t.pc = .insert ⟨height + 1, data, hash.toList⟩)
    (hlast : s.db.getLastBlock = some (height, lastHash)) (hv : Admitted K s.db.toTables t.body)
    (hs : serializeBlock K t.body vhash hasher = some (data, hash))
    (h₁ : t.step K s net = some (s₁, t₁)) (h₂ : t₁.step K s₁ net' = some (s₂, t₂)) :
    Appends K s.db ⟨height + 1, data, hash.toList⟩ t.body s₂.db := by
  simp only [Task.step, hpc] at h₁
  rcases hi : s.db.addNew (height + 1) data hash.toList with _ | db
  · rw [hi] at h₁
    simp only [Option.some.injEq, Prod.mk.injEq] at h₁
    obtain ⟨-, rfl⟩ := h₁
    simp [Task.step, Task.goto] at h₂
  · rw [hi] at h₁
    simp only [Option.some.injEq, Prod.mk.injEq] at h₁
    obtain ⟨rfl, rfl⟩ := h₁
    have hdb : s₂.db = applyBlock db t.body.req := by
      simp only [Task.step, Task.goto] at h₂
      unfold applyBlock
      rcases hb : interpretBlock db t.body.req with _ | ⟨db', us⟩ <;> rw [hb] at h₂ <;>
        simp only [Option.some.injEq, Prod.mk.injEq] at h₂ <;> rw [← h₂.1] <;> rfl
    rw [hdb]
    exact .verified hlast hv hs hi

/-- What is common to both: the row is new, holds the block, and the block is applied. -/
theorem Appends.spec {db db' : Database} {row : OrderRow} {body : BodyData}
    (h : Appends K db row body db') :
    row.id ∉ db.order.map OrderRow.id ∧ db'.toTables = db.toTables.apply body.req
      ∧ db'.order = db.order ++ [row] ∧ (row.id = 0 ∨ Admitted K db.toTables body)
      ∧ ∃ b hash, toVec body = some b ∧ fromSlice Block row.data = some ⟨hash, b⟩
        ∧ row.hash = hash.toList := by
  cases h with
  | verified hlast hv hs hi =>
    obtain ⟨b, hb, hd, -⟩ := of_serializeBlock hs
    obtain ⟨hn, rfl⟩ := Database.addNew_eq_some _ hi
    exact ⟨hn, applyBlock_toTables _ _, applyBlock_order _ _, .inr hv, b, _, hb, hd, rfl⟩
  | first ht ho hs hc =>
    obtain ⟨b, hb, hd, -⟩ := of_serializeBlock hs
    have hn : 0 ∉ db.order.map OrderRow.id := by simp [ho]
    simp only [create, hs, Option.bind_eq_bind, Option.bind_some, Option.pure_def,
      Option.some.injEq, Database.addNew_of_notMem db _ _ hn, Option.getD_some] at hc
    subst hc
    exact ⟨hn, applyBlock_toTables _ _, applyBlock_order _ _, .inl rfl, b, _, hb, hd, rfl⟩

namespace Client

variable {c : Client}

/-- A block that is stored is applied to the tables, with what is left of one that fails. -/
theorem store_spec {r : Received} (h : r.id.toNat ∉ c.db.order.map OrderRow.id) :
    (c.store r).1.db.toTables = c.db.toTables.apply r.data.req
      ∧ (c.store r).1.db.order = c.db.order ++ [⟨r.id.toNat, r.body, r.block.hash.toList⟩] := by
  have happ : (c.store r).1.db = applyBlock { c.db with
      order := c.db.order ++ [⟨r.id.toNat, r.body, r.block.hash.toList⟩] } r.data.req := by
    unfold store applyBlock
    rw [Database.addNew_of_notMem _ _ _ h]
    simp only
    split <;> rename_i hb <;> rw [hb] <;> rfl
  exact ⟨by rw [happ, applyBlock_toTables], by rw [happ, applyBlock_order]⟩

/-- A signer's orders are admitted as they are read back. -/
theorem admitted_clearHash {t : Tables} {body : BodyData} {b : Bytes} (hb : toVec body = some b)
    (h : Admitted K t body) : Admitted K t body.clearHash := by
  have hreq : body.clearHash.req = reset body.req := by rw [← reset_body]; rfl
  have hserve : ∀ perms, servingVerify K t body.clearHash.req body.userPk perms body.sign
      = servingVerify K t body.req body.userPk perms body.sign := by
    intro perms
    unfold servingVerify
    rw [toVec_clearHash_req hb, hreq]
    simp only [verifyReq_reset]
  unfold Admitted at h ⊢
  rw [← h]
  exact congrArg _ (funext hserve)

/-- A client with a master's tables, sent the block the master has just appended, has the master's
tables again. The column of ids is an `i64`. -/
theorem handleBlock_follows {db db' : Database} {row : OrderRow} {body : BodyData}
    (h : Appends K db row body db') (hid : row.id < 2 ^ 63)
    (ht : c.db.toTables = db.toTables) (ho : c.db.order = db.order) (hl : c.last ≤ row.id) :
    (c.handleBlock K row.request).1.db.toTables = db'.toTables
      ∧ (c.handleBlock K row.request).1.db.order = db'.order := by
  obtain ⟨hn, htab, hord, hv, b, hash, hb, hd, hh⟩ := h.spec
  have hnat : row.request.id.toNat = row.id := by
    rw [OrderRow.request, UInt64.toNat_ofNat']
    omega
  obtain ⟨r, hr, hm, hblock, hdata⟩ :=
    exists_receive (m := row.request) hd (fromSlice_clearHash hb) (by rw [hnat]; exact hid)
  have hrid : r.id.toNat = row.id := by rw [hm, hnat]
  have hrow : (⟨r.id.toNat, r.body, r.block.hash.toList⟩ : OrderRow) = row := by
    rw [hrid, hm, hblock, ← hh]
    rfl
  have haccept : c.accept K r = .ok () := by
    rw [accept_eq_ok, hrid, hdata, ht]
    refine ⟨hl, hv.imp (fun h0 => ?_) (admitted_clearHash hb)⟩
    rw [← UInt64.toNat_inj, hrid, h0]
    rfl
  have hstore : c.handleBlock K row.request = c.store r := by
    unfold handleBlock
    rw [hr]
    simp only [haccept]
  obtain ⟨hst, hso⟩ := store_spec (c := c) (r := r) (by rw [hrid, ho]; exact hn)
  have happ : db.toTables.apply r.data.req = db.toTables.apply body.req := by
    have hreq : r.data.req = reset body.req := by rw [hdata, ← reset_body]; rfl
    rw [hreq, apply_reset]
  rw [hstore]
  exact ⟨by rw [hst, ht, happ, htab], by rw [hso, ho, hrow, hord]⟩

section Witness

/-- The client of `toyGenesis` follows its master over the first block after that one. -/
theorem handleBlock_follows_renameRoot : ∃ row db', row.id = 1
    ∧ Appends toy toyGenesis row (renameRoot "admin") db'
    ∧ ((⟨toyGenesis, 0⟩ : Client).handleBlock toy row.request).1.db.toTables = db'.toTables
    ∧ ((⟨toyGenesis, 0⟩ : Client).handleBlock toy row.request).1.db.order = db'.order := by
  have hlast : toyGenesis.getLastBlock.any fun b => b.1 = 0 := by decide +kernel
  obtain ⟨⟨height, lastHash⟩, hlast, rfl⟩ := Run.exists_of_any hlast
  have hs : (serializeBlock toy (renameRoot "admin") none none).isSome := by decide +kernel
  obtain ⟨⟨data, hash⟩, hs⟩ := Option.isSome_iff_exists.1 hs
  have hi : toyGenesis.addNew (0 + 1) data hash.toList = some _ :=
    Database.addNew_of_notMem toyGenesis data hash.toList (by decide +kernel)
  have happ := Appends.verified hlast (by decide +kernel) hs hi
  exact ⟨_, _, rfl, happ, handleBlock_follows happ (by norm_num) rfl rfl (by norm_num)⟩

end Witness

section Boundary

/-- What a client has applied: the orders of a body, on the tables they were applied to. -/
structure Applied where
  tables : Tables
  id : ℕ
  body : BodyData

/-- The signature is over the encoding of the orders and good under the key of an active user, and
`verify_order` has nothing against any of them with that user's stored permissions. -/
def Applied.Verified (K : Crypto) (a : Applied) : Prop :=
  ∃ raw user perms, toVec a.body.req = some raw
    ∧ a.body.userPk.verifySig K raw a.body.sign = .ok true
    ∧ a.tables.getUserWithPubkey a.body.userPk.bytes = .ok user
    ∧ (user ∈ a.tables.users ∧ user.publicKey = a.body.userPk.bytes ∧ user.active)
    ∧ fromSlice Permissions user.permissions = some perms
    ∧ ∀ o, .order o ∈ a.body.req → verifyOrder a.tables o a.body.userPk perms = .ok none

/-- The blocks handled one after another. -/
def handleBlocks (K : Crypto) (c : Client) (ms : List RequestBlock) : Client :=
  ms.foldl (fun c m => (c.handleBlock K m).1) c

/-- The blocks whose orders took effect: those `handle_block` returned `Ok` for. -/
def applied (K : Crypto) : Client → List RequestBlock → List Applied
  | _, [] => []
  | c, m :: ms =>
    let as := applied K (c.handleBlock K m).1 ms
    match m.receive, (c.handleBlock K m).2 with
    | .ok r, .ok () => ⟨c.db.toTables, r.id.toNat, r.data⟩ :: as
    | _, _ => as

theorem verified_of_admitted {t : Tables} {id : ℕ} {body : BodyData} (h : Admitted K t body) :
    (⟨t, id, body⟩ : Applied).Verified K := by
  obtain ⟨perms, hp, h⟩ := Option.bind_eq_some_iff.1 h
  simp only [servingVerify, Option.bind_eq_bind, Option.bind_eq_some_iff, Option.pure_def,
    Option.some.injEq, verifyReq_eq_ok_none] at h
  obtain ⟨raw, hraw, hsig, ho⟩ := h
  simp only [Tables.permissionsOf, PublicKey.toVec_eq] at hp
  rcases hu : t.getUserWithPubkey body.userPk.bytes with e | user
  · simp [hu] at hp
  · rw [hu] at hp
    have hmem : user ∈ t.users.filter fun u => u.publicKey = body.userPk.bytes ∧ u.active :=
      List.mem_of_mem_head? (fetchOne_eq_ok.1 hu)
    obtain ⟨hmem, hk⟩ := List.mem_filter.1 hmem
    simp only [decide_eq_true_eq] at hk
    exact ⟨raw, user, perms, hraw, hsig, hu, ⟨hmem, hk⟩, hp,
      fun o h => verifyOrder_eq_ok_none.2 (ho o h)⟩

/-- A block that is not applied leaves the tables as they are, even if it is stored. -/
theorem store_cases (c : Client) (r : Received) :
    ((∃ e, (c.store r).2 = .error e) ∧ (c.store r).1.db.toTables = c.db.toTables
        ∧ c.db.order <+: (c.store r).1.db.order)
      ∨ (c.store r).2 = .ok () ∧ r.id.toNat ∉ c.db.order.map OrderRow.id
        ∧ (c.store r).1.db.toTables = c.db.toTables.apply r.data.req
        ∧ (c.store r).1.db.order
          = c.db.order ++ [⟨r.id.toNat, r.body, r.block.hash.toList⟩] := by
  by_cases hn : r.id.toNat ∈ c.db.order.map OrderRow.id
  · have hstore : c.store r = (c, .error .stored) := by
      unfold store
      rw [(Database.addNew_eq_none c.db).2 hn]
    rw [hstore]
    exact .inl ⟨⟨.stored, rfl⟩, rfl, List.prefix_rfl⟩
  · have hspec := store_spec hn
    have hnew := Database.addNew_of_notMem c.db r.body r.block.hash.toList hn
    unfold store at hspec ⊢
    rw [hnew] at hspec ⊢
    simp only at hspec ⊢
    split at hspec
    · exact .inl ⟨⟨.interpret, rfl⟩, rfl, List.prefix_append _ _⟩
    · exact .inr ⟨rfl, hn, hspec⟩

/-- What one block does: nothing to the tables unless it is received, admitted, new and can be
interpreted. -/
theorem handleBlock_cases (c : Client) (m : RequestBlock) :
    ((∃ e, (c.handleBlock K m).2 = .error e) ∧ (c.handleBlock K m).1.db.toTables = c.db.toTables
        ∧ c.db.order <+: (c.handleBlock K m).1.db.order)
      ∨ ∃ r, m.receive = .ok r ∧ c.accept K r = .ok () ∧ (c.handleBlock K m).2 = .ok ()
        ∧ r.id.toNat ∉ c.db.order.map OrderRow.id
        ∧ (c.handleBlock K m).1.db.toTables = c.db.toTables.apply r.data.req
        ∧ (c.handleBlock K m).1.db.order
          = c.db.order ++ [⟨r.id.toNat, r.body, r.block.hash.toList⟩] := by
  unfold handleBlock
  rcases m.receive with e | r
  · exact .inl ⟨⟨e, rfl⟩, rfl, List.prefix_rfl⟩
  simp only
  rcases ha : c.accept K r with e | _
  · exact .inl ⟨⟨e, rfl⟩, rfl, List.prefix_rfl⟩
  · exact (store_cases c r).imp_right fun h => ⟨r, rfl, ha, h⟩

theorem applied_cons (c : Client) (m : RequestBlock) (ms : List RequestBlock) :
    (applied K c (m :: ms) = applied K (c.handleBlock K m).1 ms
        ∧ (c.handleBlock K m).1.db.toTables = c.db.toTables
        ∧ c.db.order <+: (c.handleBlock K m).1.db.order)
      ∨ ∃ r : Received, applied K c (m :: ms)
          = ⟨c.db.toTables, r.id.toNat, r.data⟩ :: applied K (c.handleBlock K m).1 ms
        ∧ (r.id = 0 ∨ Admitted K c.db.toTables r.data)
        ∧ r.id.toNat ∉ c.db.order.map OrderRow.id
        ∧ (c.handleBlock K m).1.db.toTables = c.db.toTables.apply r.data.req
        ∧ (c.handleBlock K m).1.db.order
          = c.db.order ++ [⟨r.id.toNat, r.body, r.block.hash.toList⟩] := by
  rcases handleBlock_cases (K := K) c m with ⟨⟨e, he⟩, ht, ho⟩ | ⟨r, hr, ha, hok, hn, ht, ho⟩
  · refine .inl ⟨?_, ht, ho⟩
    simp only [applied, he]
    split <;> simp_all
  · refine .inr ⟨r, ?_, (accept_eq_ok.1 ha).2, hn, ht, ho⟩
    simp only [applied, hr, hok]

/-- No id that is stored is applied, and none twice. -/
theorem applied_ids : ∀ (c : Client) (ms : List RequestBlock),
    (∀ a ∈ applied K c ms, a.id ∉ c.db.order.map OrderRow.id)
      ∧ ((applied K c ms).map Applied.id).Nodup
  | c, [] => by simp [applied]
  | c, m :: ms => by
    obtain ⟨hnew, hnodup⟩ := applied_ids (c.handleBlock K m).1 ms
    rcases applied_cons (K := K) c m ms with ⟨happ, -, ho⟩ | ⟨r, happ, -, hn, -, ho⟩
    · rw [happ]
      refine ⟨fun a ha hmem => hnew a ha ?_, hnodup⟩
      exact (ho.map OrderRow.id).subset hmem
    · rw [happ]
      rw [ho, List.map_append] at hnew
      simp only [List.mem_append, List.map_singleton, List.mem_singleton, not_or] at hnew
      constructor
      · intro a ha
        rcases List.mem_cons.1 ha with rfl | ha
        · exact hn
        · exact (hnew a ha).1
      · rw [List.map_cons, List.nodup_cons]
        refine ⟨fun hmem => ?_, hnodup⟩
        obtain ⟨a, ha, he⟩ := List.mem_map.1 hmem
        exact (hnew a ha).2 he

/-- Once a block with id 0 is stored, whatever is applied was verified. -/
theorem applied_verified_of_zero : ∀ {c : Client} (ms : List RequestBlock),
    0 ∈ c.db.order.map OrderRow.id → ∀ a ∈ applied K c ms, a.Verified K
  | c, [], _, a, ha => by simp [applied] at ha
  | c, m :: ms, h0, a, ha => by
    rcases applied_cons (K := K) c m ms with ⟨happ, -, ho⟩ | ⟨r, happ, hv, hn, -, ho⟩
    · rw [happ] at ha
      exact applied_verified_of_zero ms ((ho.map OrderRow.id).subset h0) a ha
    · rw [happ] at ha
      rcases List.mem_cons.1 ha with rfl | ha
      · have hid : r.id ≠ 0 := by
          rintro h
          rw [h] at hn
          exact hn h0
        exact verified_of_admitted (hv.resolve_left hid)
      · refine applied_verified_of_zero ms ?_ a ha
        rw [ho, List.map_append]
        exact List.mem_append_left _ h0

theorem not_admitted_of_users {t : Tables} {body : BodyData} (h : t.users = []) :
    ¬ Admitted K t body := by
  have hnone : t.permissionsOf body.userPk = none := by
    simp [Tables.permissionsOf, Tables.getUserWithPubkey, h, fetchOne]
  simp [Admitted, hnone]

/-- With no user on record the first block that is applied has id 0. -/
theorem applied_of_users : ∀ {c : Client} (ms : List RequestBlock), c.db.users = [] →
    (∀ a, (applied K c ms).head? = some a → a.id = 0)
      ∧ ∀ a ∈ (applied K c ms).tail, a.Verified K
  | c, [], _ => by simp [applied]
  | c, m :: ms, hu => by
    rcases applied_cons (K := K) c m ms with ⟨happ, ht, -⟩ | ⟨r, happ, hv, -, -, ho⟩
    · rw [happ]
      exact applied_of_users ms (by rw [ht]; exact hu)
    · have hid := hv.resolve_right (not_admitted_of_users hu)
      rw [happ]
      refine ⟨fun a ha => ?_, applied_verified_of_zero ms ?_⟩
      · simp only [List.head?_cons, Option.some.injEq] at ha
        rw [← ha, hid]
        rfl
      · rw [ho, List.map_append, hid]
        exact List.mem_append_right _ List.mem_cons_self

/-- The tables are what the applied blocks make of them. -/
theorem handleBlocks_toTables : ∀ (c : Client) (ms : List RequestBlock),
    (handleBlocks K c ms).db.toTables
      = (applied K c ms).foldl (fun t a => t.apply a.body.req) c.db.toTables
  | c, [] => rfl
  | c, m :: ms => by
    have ih := handleBlocks_toTables (c.handleBlock K m).1 ms
    have hcons : handleBlocks K c (m :: ms) = handleBlocks K (c.handleBlock K m).1 ms := rfl
    rcases applied_cons (K := K) c m ms with ⟨happ, ht, -⟩ | ⟨r, happ, -, -, ht, -⟩
    · rw [hcons, ih, happ, ht]
    · rw [hcons, ih, happ, ht, List.foldl_cons]

/-- Whatever a client that starts with nothing is sent, it applies the orders of an id once at most,
begins with id 0, and applies nothing after that unverified; and its tables come of nothing else. -/
theorem applied_verified (ms : List RequestBlock) :
    ((applied K {} ms).map Applied.id).Nodup
      ∧ (∀ a, (applied K {} ms).head? = some a → a.id = 0)
      ∧ (∀ a ∈ (applied K {} ms).tail, a.Verified K)
      ∧ (handleBlocks K {} ms).db.toTables
        = (applied K {} ms).foldl (fun t a => t.apply a.body.req) {} := by
  obtain ⟨hzero, hverified⟩ := applied_of_users (K := K) (c := {}) ms rfl
  exact ⟨(applied_ids {} ms).2, hzero, hverified, handleBlocks_toTables {} ms⟩

end Boundary

end Client

namespace Syncing

/-- Left alone with a client, the batch comes to `b'` and the client to `c'`. -/
def Alone (K : Crypto) (c : Client) (b : Batch) (c' : Client) (b' : Batch) : Prop :=
  ∃ n, Run.run (step K) ⟨c, [b]⟩ (List.replicate n (.batch 0)) = some ⟨c', [b']⟩

theorem Alone.refl (c : Client) (b : Batch) : Alone K c b c b := ⟨0, rfl⟩

theorem Alone.head {c c'' : Client} {b b'' : Batch} (c' : Client) (b' : Batch)
    (h : b.step K c = some (c', b')) (h' : Alone K c' b' c'' b'') : Alone K c b c'' b'' := by
  obtain ⟨n, hn⟩ := h'
  have hstep : step K ⟨c, [b]⟩ (.batch 0) = some ⟨c', [b']⟩ := by simp [step, h]
  exact ⟨n + 1, by rw [List.replicate_succ, Run.run_cons _ hstep, hn]⟩

/-- Where a check leads. -/
def afterCheck (r : Received) : Except Fault (Option RequestError) → BlockPc
  | .ok none => .insert r
  | _ => .next

theorem alone_check {c c' : Client} {blocks : List RequestBlock} {b' : Batch} {r : Received}
    {perms : Permissions} {res : Except Fault (Option RequestError)}
    (h : Alone K c ⟨blocks, afterCheck r res⟩ c' b') : ∀ (n : ℕ) (k : Check),
    (Check.step c.db.toTables r.data.userPk perms)^[n] k = .done res →
      Alone K c ⟨blocks, .check r perms k⟩ c' b'
  | 0, k, hk => by
    obtain rfl : k = .done res := hk
    refine Alone.head _ _ ?_ h
    rcases res with e | _ | e <;> rfl
  | n + 1, k, hk => by
    rw [Function.iterate_succ_apply] at hk
    rcases k with req | ⟨ord, req⟩ | res'
    · exact Alone.head _ _ rfl (alone_check h n _ hk)
    · exact Alone.head _ _ rfl (alone_check h n _ hk)
    · exact alone_check h n _ hk

theorem alone_store (c : Client) (blocks : List RequestBlock) (r : Received) :
    Alone K c ⟨blocks, .insert r⟩ (c.store r).1 ⟨blocks, .next⟩ := by
  unfold Client.store
  rcases hi : c.db.addNew r.id.toNat r.body r.block.hash.toList with _ | db
  · exact Alone.head _ _ (by simp [Batch.step, hi, Batch.goto]) (.refl _ _)
  · refine Alone.head { c with db := db } ⟨blocks, .interpret r⟩
      (by simp [Batch.step, hi, Batch.goto]) ?_
    simp only
    rcases hb : interpretBlock db r.data.req with _ | ⟨db', us⟩
    · exact Alone.head _ _ (by simp [Batch.step, hb, Batch.goto]) (.refl _ _)
    · refine Alone.head { c with db := db' } ⟨blocks, .count⟩
        (by simp [Batch.step, hb, Batch.goto]) ?_
      exact Alone.head _ _ rfl (.refl _ _)

theorem alone_verify {c : Client} {blocks : List RequestBlock} {r : Received}
    {perms : Permissions} {c' : Client} {b' : Batch}
    (hp : Client.signerPermissions c.db.toTables r.data.userPk = .ok perms)
    (hok : Client.verify K c.db.toTables perms r = .ok () →
      Alone K c ⟨blocks, .insert r⟩ c' b')
    (herr : ∀ e, Client.verify K c.db.toTables perms r = .error e →
      Alone K c ⟨blocks, .next⟩ c' b') :
    Alone K c ⟨blocks, .user r⟩ c' b' := by
  unfold Client.verify at hok herr
  rcases hq : toVec r.data.req with _ | rawReq
  · rw [hq] at herr
    exact Alone.head _ _ (by simp [Batch.step, hp, hq, Batch.goto]) (herr _ rfl)
  · rw [hq] at hok herr
    simp only at hok herr
    obtain ⟨n, hn⟩ : ∃ n, (Check.step c.db.toTables r.data.userPk perms)^[n]
        (.start K rawReq r.data.req r.data.userPk r.data.sign)
          = .done (verifyReq K c.db.toTables rawReq r.data.req r.data.userPk perms r.data.sign) :=
      Check.iterate_start K rawReq r.data.req r.data.sign
    refine Alone.head c
      ⟨blocks, .check r perms (.start K rawReq r.data.req r.data.userPk r.data.sign)⟩
      (by simp [Batch.step, hp, hq, Batch.goto]) (alone_check ?_ n _ hn)
    generalize verifyReq K c.db.toTables rawReq r.data.req r.data.userPk perms r.data.sign = res
      at hok herr
    rcases res with e | _ | e
    · exact herr _ rfl
    · exact hok rfl
    · exact herr _ rfl

/-- A batch that nobody comes between handles its next block as `handle_block` does. -/
theorem alone_handleBlock (c : Client) (m : RequestBlock) (blocks : List RequestBlock) :
    Alone K c ⟨m :: blocks, .next⟩ (c.handleBlock K m).1 ⟨blocks, .next⟩ := by
  unfold Client.handleBlock
  rcases hr : m.receive with e | r
  · exact Alone.head _ _ (by simp [Batch.step, hr]) (.refl _ _)
  simp only [Client.accept]
  split_ifs with hl hid
  · exact Alone.head _ _ (by simp [Batch.step, hr, hl]) (.refl _ _)
  · refine Alone.head c ⟨blocks, .user r⟩ (by simp [Batch.step, hr, hl, hid]) ?_
    rcases hp : Client.signerPermissions c.db.toTables r.data.userPk with e | perms
    · exact Alone.head _ _ (by simp [Batch.step, hp, Batch.goto]) (.refl _ _)
    · refine alone_verify hp (fun hv => ?_) fun e hv => ?_
      · simp only [hv]
        exact alone_store c blocks r
      · simp only [hv]
        exact .refl _ _
  · refine Alone.head c ⟨blocks, .insert r⟩ (by simp [Batch.step, hr, hl, hid]) ?_
    exact alone_store c blocks r

end Syncing

end Nyumt
