import Nyumt.Proofs.Agreement
import Nyumt.Proofs.Served

/-!
# What a hash commits to

A row's hash covers the hash before it, so where SHA-256 has no collisions two chains with one hash
at a height are one chain up to it (`Chain.take_eq`). So masters that once differ at a height differ
at every one from there on, whatever is delivered to them (`forked_run`), and the last hash of a
master at rest tells its tables (`eq_of_hash`). And no log holds a block that was not requested of
one of the masters (`requested_run`).
-/

namespace Nyumt

open Borsh

variable {K : Crypto}

section Chains

variable {rows rows' : List OrderRow}

/-- The bytes that the hashes of the rows are of. -/
def hashed (rows : List OrderRow) : List Bytes :=
  (List.range rows.length).filterMap fun i =>
    (rows[i]?.bind fun r => fromSlice Block r.data).map fun b => prevHash rows i ++ b.body

/-- No two of the byte strings have one hash. -/
def CollisionFree (K : Crypto) (xs : List Bytes) : Prop :=
  ∀ x ∈ xs, ∀ y ∈ xs, K.sha256 x = K.sha256 y → x = y

instance (K : Crypto) (xs : List Bytes) : Decidable (CollisionFree K xs) :=
  inferInstanceAs (Decidable (∀ x ∈ xs, _))

theorem CollisionFree.mono {xs ys : List Bytes} (h : CollisionFree K ys) (hsub : xs ⊆ ys) :
    CollisionFree K xs :=
  fun x hx y hy => h x (hsub hx) y (hsub hy)

theorem mem_hashed {i : ℕ} {row : OrderRow} {b : Block} (hrow : rows[i]? = some row)
    (hb : fromSlice Block row.data = some b) : prevHash rows i ++ b.body ∈ hashed rows := by
  refine List.mem_filterMap.2 ⟨i, List.mem_range.2 (List.getElem?_eq_some_iff.1 hrow).1, ?_⟩
  rw [hrow, Option.bind_some, hb, Option.map_some]

/-- The hash before a row is a digest, or nothing. -/
theorem Chain.length_prevHash (h : Chain K rows) {i : ℕ} (hi : i < rows.length) :
    (prevHash rows i).length = if i = 0 then 0 else 32 := by
  rcases i with _ | i
  · rfl
  · obtain ⟨b, -, hh, -⟩ := h.link i _ (List.getElem?_eq_getElem (by omega))
    rw [prevHash, List.getElem?_eq_getElem (by omega), Option.map_some, Option.getD_some, hh,
      List.Vector.toList_length, if_neg (by omega)]

/-- Rows of one hash at one height are one row, and so are the hashes before them. -/
theorem Chain.row_eq (h : Chain K rows) (h' : Chain K rows')
    (hcf : CollisionFree K (hashed rows ++ hashed rows')) {i : ℕ} {r r' : OrderRow}
    (hr : rows[i]? = some r) (hr' : rows'[i]? = some r') (he : r.hash = r'.hash) :
    r = r' ∧ prevHash rows i = prevHash rows' i := by
  obtain ⟨b, hb, hh, hx⟩ := h.link i r hr
  obtain ⟨b', hb', hh', hx'⟩ := h'.link i r' hr'
  have hhash : b.hash = b'.hash := by
    rw [hh, hh'] at he
    exact List.Vector.toList_injective he
  have hbytes : prevHash rows i ++ b.body = prevHash rows' i ++ b'.body := by
    refine hcf _ (List.mem_append_left _ (mem_hashed hr hb)) _
      (List.mem_append_right _ (mem_hashed hr' hb')) ?_
    rw [← hx, ← hx', hhash]
  have hi := (List.getElem?_eq_some_iff.1 hr).1
  have hi' := (List.getElem?_eq_some_iff.1 hr').1
  obtain ⟨hprev, hbody⟩ := List.append_inj hbytes
    ((h.length_prevHash hi).trans (h'.length_prevHash hi').symm)
  have hblock : b = b' := by
    cases b
    cases b'
    exact congrArg₂ Block.mk hhash hbody
  subst hblock
  refine ⟨?_, hprev⟩
  have hid : r.id = r'.id := (id_of_getElem? h.ids hr).trans (id_of_getElem? h'.ids hr').symm
  have hdata : r.data = r'.data :=
    Option.some.inj ((ser_of_fromSlice hb).symm.trans (ser_of_fromSlice hb'))
  cases r
  cases r'
  simp only at hid hdata he
  rw [hid, hdata, he]

/-- Two chains with one hash at a height are one chain up to it. -/
theorem Chain.take_eq (h : Chain K rows) (h' : Chain K rows')
    (hcf : CollisionFree K (hashed rows ++ hashed rows')) : ∀ (i : ℕ) (r r' : OrderRow),
      rows[i]? = some r → rows'[i]? = some r' → r.hash = r'.hash →
        rows.take (i + 1) = rows'.take (i + 1) := by
  intro i
  induction i with
  | zero =>
    intro r r' hr hr' he
    obtain ⟨rfl, -⟩ := h.row_eq h' hcf hr hr' he
    rw [List.take_add_one, List.take_add_one, hr, hr']
    rfl
  | succ i ih =>
    intro r r' hr hr' he
    obtain ⟨rfl, hprev⟩ := h.row_eq h' hcf hr hr' he
    have hi := (List.getElem?_eq_some_iff.1 hr).1
    have hi' := (List.getElem?_eq_some_iff.1 hr').1
    have hq := List.getElem?_eq_getElem (l := rows) (i := i) (by omega)
    have hq' := List.getElem?_eq_getElem (l := rows') (i := i) (by omega)
    rw [prevHash, prevHash, hq, hq'] at hprev
    rw [List.take_add_one, ih _ _ hq hq' hprev, hr, ← hr', ← List.take_add_one]

end Chains

instance (K : Crypto) (rows : List OrderRow) : Decidable (Chain K rows) :=
  decidable_of_iff (rows.map OrderRow.id = List.range rows.length
      ∧ ∀ i < rows.length, ∀ row ∈ rows[i]?, ∃ b ∈ fromSlice Block row.data,
        row.hash = b.hash.toList ∧ b.hash = K.sha256 (prevHash rows i ++ b.body))
    ⟨fun h => ⟨h.1, fun i row hrow => h.2 i (List.getElem?_eq_some_iff.1 hrow).1 row hrow⟩,
      fun h => ⟨h.ids, fun i _ row hrow => h.link i row hrow⟩⟩

section Masters

namespace Master

variable {m m' : Master}

/-- With blocks interpreted in the order of their rows, the chain needs nothing of the peers. -/
theorem chain_step {a : Act} (hok : InOrder m a) (h : m.step K a = some m') (hi : LogInv K m)
    (hc : Chain K m.set.db.order) : Chain K m'.set.db.order := by
  cases a
  case task i net =>
    obtain ⟨t, s, t', hget, hs, rfl⟩ := of_step_task h
    exact hc.grows (Task.step_grows hs (hi.tasks t (List.mem_of_getElem? hget)))
  case handle okSent noSent =>
    obtain ⟨s, hd, timers, hs, rfl⟩ := of_step_handle h
    rcases (Handler.step_cases hs).2 with hdb | ⟨height, hash, rawHash, _, _, _, hpc, -, -, ha⟩
    · show Chain K s.db.order
      rw [hdb]
      exact hc
    · exact ((Database.addNew_eq_some _ ha).1 (hok height hash rawHash hpc)).elim
  case request body =>
    obtain rfl := of_step_request h
    exact hc
  case configure conf =>
    obtain rfl := of_step_configure h
    exact hc
  case timer i =>
    obtain ⟨e, -, rfl⟩ := of_step_timer h
    exact hc
  case dispatch data =>
    obtain rfl := of_step_dispatch h
    show Chain K (Gossip.dispatch K m.set data).1.db.order
    rw [(Gossip.dispatch_db data).1]
    exact hc
  case gossip votes noSent =>
    obtain ⟨s, g, hs, rfl⟩ := of_step_gossip h
    show Chain K s.db.order
    rw [(Gossip.step_db hs).1]
    exact hc

/-- The last of the rows of a chain. -/
theorem getElem?_of_getLastBlock {db : Database} {height : ℕ} {hash : Bytes}
    (hids : db.order.map OrderRow.id = List.range db.order.length)
    (h : db.getLastBlock = some (height, hash)) :
    db.order.length = height + 1 ∧ ∃ r, db.order[height]? = some r ∧ r.hash = hash := by
  obtain ⟨⟨r, hr, rfl, rfl⟩, hmax⟩ := Database.of_getLastBlock h
  have hlt := id_lt_length hids hr
  have hlast := List.getElem?_eq_getElem (l := db.order) (i := db.order.length - 1) (by omega)
  have hid := id_of_getElem? hids hlast
  have hle := hmax db.order[db.order.length - 1] (List.getElem_mem (by omega))
  exact ⟨by omega, r, getElem?_id hids hr, rfl⟩

/-- The last hash of a master at rest tells its log and its tables: two masters with one last block,
started on whatever networks, have the same rows, users, nodes and configurations, if each
interpreted its blocks in the order of their rows. -/
theorem eq_of_lastBlock {nodePk nodePk' pk pk' : PublicKey} {timestamp timestamp' : UInt64}
    {db db' : Database} {conf conf' : MasterConfig} {as as' : List Act}
    (hg : Genesis K nodePk pk timestamp db) (hg' : Genesis K nodePk' pk' timestamp' db')
    (h : Run.run (step K) (init db conf) as = some m)
    (h' : Run.run (step K) (init db' conf') as' = some m')
    (hok : Run.Along (step K) InOrder (init db conf) as)
    (hok' : Run.Along (step K) InOrder (init db' conf') as') (hidle : m.idle) (hidle' : m'.idle)
    (hcf : CollisionFree K (hashed m.set.db.order ++ hashed m'.set.db.order))
    (hlast : m.set.db.getLastBlock = m'.set.db.getLastBlock) :
    m.set.db.order = m'.set.db.order ∧ m.set.db.toTables = m'.set.db.toTables := by
  have hchain : ∀ {nodePk pk timestamp db conf as m}, Genesis K nodePk pk timestamp db →
      Run.run (step K) (init db conf) as = some m →
      Run.Along (step K) InOrder (init db conf) as → Chain K m.set.db.order := by
    intro nodePk pk timestamp db conf as m hg h hok
    have hrun := Run.run_induction (I := fun u => LogInv K u ∧ Chain K u.set.db.order)
      (fun u a u' ha hs hi => ⟨logInv_step ha hs hi.1, chain_step ha hs hi.1 hi.2⟩) hok h
      ⟨logInv_init hg conf, Chain.genesis hg⟩
    exact hrun.2
  have hc := hchain hg h hok
  have hc' := hchain hg' h' hok'
  have horder : m.set.db.order = m'.set.db.order := by
    rcases hl : m.set.db.getLastBlock with _ | ⟨height, hash⟩
    · rw [hl] at hlast
      rw [(Table.last_eq_none _).1 (Option.map_eq_none_iff.1 hl),
        (Table.last_eq_none _).1 (Option.map_eq_none_iff.1 hlast.symm)]
    · rw [hl] at hlast
      obtain ⟨hlen, r, hr, rfl⟩ := getElem?_of_getLastBlock hc.ids hl
      obtain ⟨hlen', r', hr', he⟩ := getElem?_of_getLastBlock hc'.ids hlast.symm
      have htake := hc.take_eq hc' hcf height r r' hr hr' he.symm
      rwa [← hlen, List.take_length, hlen, ← hlen', List.take_length] at htake
  refine ⟨horder, ?_⟩
  rw [(logged_run hg h hok hidle).2, (logged_run hg' h' hok' hidle').2, horder]

theorem inOrder_of_single {a : Act} (h : m.tasks.length ≤ 1 ∧ a.Single) : InOrder m a := by
  obtain ⟨hlen, ha⟩ := h
  rcases a with _ | ⟨i, net⟩ | _ | _ | _ | _ | _
  case task => exact inOrder_of_length_le_one hlen i net
  case handle => exact ha.elim
  all_goals trivial

/-- Two masters that are made the same request, one of which is configured meanwhile. -/
theorem eq_of_lastBlock_renameRoot :
    let as : List Act := .request (renameRoot "a") :: alone 0
    let as' : List Act := .request (renameRoot "a") :: .configure (.default toy) :: alone 0
    ∃ m m', Run.run (step toy) (init toyGenesis (.default toy)) as = some m
      ∧ Run.run (step toy) (init toyGenesis (.default toy)) as' = some m'
      ∧ m.set.db.order = m'.set.db.order ∧ m.set.db.toTables = m'.set.db.toTables := by
  intro as as'
  have hrun : (Run.run (step toy) (init toyGenesis (.default toy)) as).any fun m =>
      (Run.run (step toy) (init toyGenesis (.default toy)) as').any fun m' =>
        m.idle ∧ m'.idle ∧ CollisionFree toy (hashed m.set.db.order ++ hashed m'.set.db.order)
          ∧ m.set.db.getLastBlock = m'.set.db.getLastBlock := by decide +kernel
  obtain ⟨m, hm, hrun⟩ := (Option.any_eq_true _ _).1 hrun
  obtain ⟨m', hm', hidle, hidle', hcf, hlast⟩ := Run.exists_of_any hrun
  have hok : Run.Along (step toy) (fun m a => m.tasks.length ≤ 1 ∧ a.Single)
      (init toyGenesis (.default toy)) as := by decide +kernel
  have hok' : Run.Along (step toy) (fun m a => m.tasks.length ≤ 1 ∧ a.Single)
      (init toyGenesis (.default toy)) as' := by decide +kernel
  exact ⟨m, m', hm, hm', eq_of_lastBlock genesis_toyGenesis genesis_toyGenesis hm hm'
    (hok.mono fun _ _ => inOrder_of_single) (hok'.mono fun _ _ => inOrder_of_single) hidle hidle'
    hcf hlast⟩

end Master

namespace Network

variable {ι : Type} [DecidableEq ι] {keys : ι → PublicKey} {s s' : Network ι}

/-- The blocks of the requests. -/
def bodies (as : List (Act ι)) : List Bytes := (requests as).filterMap fun x => toVec x.2

/-- A master is right about its own table, which is a chain, and what it publishes and appends are
blocks from `T`. -/
structure BodiesInv (K : Crypto) (T : Set Bytes) (rows : List OrderRow) (m : Master) : Prop where
  inv : m.Inv K T T
  sent : ∀ bytes ∈ m.set.sent, ∀ b, fromSlice NetData bytes = some (.block b) → b.body ∈ T
  chain : Chain K m.set.db.order
  rows : ∀ r ∈ m.set.db.order, r ∈ rows ∨ ∃ b ∈ T, ∃ hash, Holds r b hash

theorem bodiesInv_step {T : Set Bytes} {rows : ι → List OrderRow} {a : Act ι}
    (hcf : T.InjOn K.sha256)
    (ha : ∀ i body b, a = .master i (.request body) → toVec body = some b → b ∈ T)
    (h : s.step K keys a = some s') (hi : ∀ i, BodiesInv K T (rows i) (s.masters i)) (i : ι) :
    BodiesInv K T (rows i) (s'.masters i) := by
  rcases step_at h i with he | ⟨b, hb, hcase⟩
  · rw [he]
    exact hi i
  · have hfrom : b.From T T := by
      rcases hcase with ⟨rfl, hnot⟩ | ⟨j, bytes, data, -, rfl, hbytes, hdec⟩
      · cases b
        case request body => exact fun x hx => ha i body x rfl hx
        case dispatch data => exact (hnot data rfl).elim
        all_goals trivial
      · rintro block rfl
        exact (hi j).sent bytes hbytes block hdec
    obtain ⟨hinv, hg, hsends⟩ := Master.inv_step hcf hfrom hb (hi i).inv
    rw [Set.union_self] at hg
    refine ⟨hinv, fun bytes hbytes => ?_, (hi i).chain.grows hg, fun r hr => ?_⟩
    · exact (hsends bytes hbytes).elim ((hi i).sent bytes) id
    · obtain ho | ⟨row, body, hbody, hash, -, hh, -, ho⟩ := hg <;> rw [ho] at hr
      · exact (hi i).rows r hr
      · rcases List.mem_append.1 hr with hr | hr
        · exact (hi i).rows r hr
        · obtain rfl := List.mem_singleton.1 hr
          exact .inr ⟨body, hbody, hash, hh⟩

theorem bodiesInv_run {db : ι → Database} {conf : ι → MasterConfig} {as : List (Act ι)}
    (hc : ∀ i, Chain K (db i).order) (hcf : CollisionFree K (bodies as))
    (h : Run.run (step K keys) (init db conf) as = some s) (i : ι) :
    BodiesInv K {b | b ∈ bodies as} (db i).order (s.masters i) := by
  have halong : Run.Along (step K keys) (fun _ a => ∀ i body b,
      a = .master i (.request body) → toVec body = some b → b ∈ bodies as) (init db conf) as := by
    refine Run.along_of_forall fun a ha i body b he hb => ?_
    exact List.mem_filterMap.2 ⟨(i, body), List.mem_filterMap.2 ⟨a, ha, by rw [he]⟩, hb⟩
  refine Run.run_induction
    (I := fun u : Network ι => ∀ i, BodiesInv K {b | b ∈ bodies as} (db i).order (u.masters i))
    (fun u a u' ha hs hi => bodiesInv_step (fun x hx y hy => hcf x hx y hy) ha hs hi) halong h
    (fun i => ?_) i
  exact ⟨Master.inv_init _ _, fun _ hb => (by cases hb), hc i, fun r hr => .inl hr⟩

/-- Whatever is delivered, a log is a hash chain at any moment, and each block that was added to it
is of a request that was made to one of the masters. -/
theorem requested_run {db : ι → Database} {conf : ι → MasterConfig} {as : List (Act ι)}
    (hc : ∀ i, Chain K (db i).order) (hcf : CollisionFree K (bodies as))
    (h : Run.run (step K keys) (init db conf) as = some s) (i : ι) :
    Chain K (s.masters i).set.db.order ∧ ∀ r ∈ (s.masters i).set.db.order, r ∈ (db i).order
      ∨ ∃ x ∈ requests as, ∃ body hash, toVec x.2 = some body ∧ Holds r body hash := by
  have hi := bodiesInv_run hc hcf h i
  refine ⟨hi.chain, fun r hr => (hi.rows r hr).imp_right ?_⟩
  rintro ⟨b, hb, hash, hh⟩
  obtain ⟨x, hx, hb⟩ := List.mem_filterMap.1 hb
  exact ⟨x, hx, b, hash, hb, hh⟩

/-- A request and the vote on it, and a second one at the master that voted. -/
def oneEach (i j : ι) : List (Act ι) :=
  (.request (renameRoot "a") :: Master.heard 0).map (.master i)
    ++ .deliver i 0 j :: (.request (renameRoot "b") :: Master.heard 0).map (.master j)

theorem requested_run_oneEach : ∃ s, Run.run (step toy pairKeys) pair (oneEach 0 1) = some s
    ∧ (s.masters 1).set.db.order.length = 3 ∧ Chain toy (s.masters 1).set.db.order
    ∧ ∀ r ∈ (s.masters 1).set.db.order, r ∈ toyPair.order
      ∨ ∃ x ∈ requests (oneEach (0 : Fin 2) 1), ∃ body hash,
        toVec x.2 = some body ∧ Holds r body hash := by
  have hrun : (Run.run (step toy pairKeys) pair (oneEach 0 1)).any
      fun s => (s.masters 1).set.db.order.length = 3 := by decide +kernel
  obtain ⟨s, hs, hlen⟩ := Run.exists_of_any hrun
  have hc : Chain toy toyPair.order := by decide +kernel
  exact ⟨s, hs, hlen, requested_run (fun _ => hc) (by decide +kernel) hs 1⟩

/-- Masters that hold different hashes under one id hold different hashes under every id from there
on, for the rest of the run. -/
theorem forked_run {db : ι → Database} {conf : ι → MasterConfig} {as bs : List (Act ι)} {i j : ι}
    (hc : ∀ i, Chain K (db i).order) (h : Run.run (step K keys) (init db conf) as = some s)
    (h' : Run.run (step K keys) s bs = some s')
    (hcf : CollisionFree K (bodies (as ++ bs)
      ++ (hashed (s'.masters i).set.db.order ++ hashed (s'.masters j).set.db.order)))
    {r r' : OrderRow} (hr : r ∈ (s.masters i).set.db.order) (hr' : r' ∈ (s.masters j).set.db.order)
    (hid : r.id = r'.id) (hne : r.hash ≠ r'.hash) :
    ∀ q ∈ (s'.masters i).set.db.order, ∀ q' ∈ (s'.masters j).set.db.order,
      q.id = q'.id → r.id ≤ q.id → q.hash ≠ q'.hash := by
  have hrun : Run.run (step K keys) (init db conf) (as ++ bs) = some s' := by
    rw [Run.run_append, h, Option.bind_some, h']
  have hbodies := hcf.mono (List.subset_append_left _ _)
  have hci := (bodiesInv_run hc hbodies hrun i).chain
  have hcj := (bodiesInv_run hc hbodies hrun j).chain
  have hpre : ∀ i, (s.masters i).set.db.order <+: (s'.masters i).set.db.order := fun i => by
    obtain ⟨cs, hcs⟩ := reaches_at h' i
    exact Master.order_prefix_run hcs
  intro q hq q' hq' hqid hle he
  have htake := hci.take_eq hcj (hcf.mono (List.subset_append_right _ _)) q.id q q'
      (getElem?_id hci.ids hq)
    (hqid ▸ getElem?_id hcj.ids hq') he
  have hri := getElem?_id hci.ids ((hpre i).subset hr)
  have hrj := getElem?_id hcj.ids ((hpre j).subset hr')
  rw [← List.getElem?_take_of_lt (show r.id < q.id + 1 by omega), htake,
    List.getElem?_take_of_lt (by omega), hid, hrj] at hri
  exact hne (congrArg OrderRow.hash (Option.some.inj hri)).symm

/-- Two masters append a block each that the other one does not hear of, and then another each. -/
theorem forked_run_oneEach :
    let bs : List (Act (Fin 2)) := (.request (renameRoot "c") :: Master.heard 1).map (.master 0)
      ++ (.request (renameRoot "c") :: Master.heard 1).map (.master 1)
    ∃ s s', Run.run (step toy pairKeys) pair (oneEach 0 1) = some s
      ∧ Run.run (step toy pairKeys) s bs = some s'
      ∧ ∀ q ∈ (s'.masters 0).set.db.order, ∀ q' ∈ (s'.masters 1).set.db.order,
        q.id = q'.id → 2 ≤ q.id → q.hash ≠ q'.hash := by
  intro bs
  have hrun : (Run.run (step toy pairKeys) pair (oneEach 0 1)).any fun s =>
      (Run.run (step toy pairKeys) s bs).any fun s' =>
        CollisionFree toy (bodies (oneEach 0 1 ++ bs)
          ++ (hashed (s'.masters 0).set.db.order ++ hashed (s'.masters 1).set.db.order))
        ∧ ∃ r ∈ (s.masters 0).set.db.order, ∃ r' ∈ (s.masters 1).set.db.order,
          r.id = 2 ∧ r.id = r'.id ∧ r.hash ≠ r'.hash := by decide +kernel
  obtain ⟨s, hs, hrun⟩ := (Option.any_eq_true _ _).1 hrun
  obtain ⟨s', hs', hcf, r, hr, r', hr', h2, hid, hne⟩ := Run.exists_of_any hrun
  have hc : Chain toy toyPair.order := by decide +kernel
  refine ⟨s, s', hs, hs', fun q hq q' hq' he hle => ?_⟩
  exact forked_run (fun _ => hc) hs hs' hcf hr hr' hid hne q hq q' hq' he (h2.trans_le hle)

end Network

end Masters

end Nyumt
