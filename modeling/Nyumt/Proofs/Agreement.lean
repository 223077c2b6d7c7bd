import Nyumt.Network
import Nyumt.Proofs.Chain
import Nyumt.Proofs.Gate

/-!
# Agreement

A master appends the blocks of its own requests. To append a block of another's it would need a
tally of the block's place, and the only tallies of places are those its own tasks begin; so a
master that no request is made to appends nothing (`passive_step`). Hence masters agree as long as
all requests are made to one of them, or all are the same (`agree_run`), and two different requests
to two masters are enough for them to differ.
-/

namespace Nyumt

open Borsh

variable {K : Crypto}

namespace Gossip

variable {s s' : SwarmSettings} {g g' : Gossip} {votes : List Bool} {noSent : Bool}

theorem step_approvedBlocks (h : g.step K s votes noSent = some (s', g')) :
    s'.approvedBlocks = s.approvedBlocks := by
  cases moves h <;> rfl

theorem dispatch_approvedBlocks (data : NetData) :
    (dispatch K s data).1.approvedBlocks = s.approvedBlocks := by
  cases data <;> rfl

end Gossip

/-- The handler is not about to append a block. -/
def HandlerPc.Waits : HandlerPc → Prop
  | .clearApproved _ _ _ | .append _ _ _ => False
  | _ => True

namespace Handler

variable {s s' : SwarmSettings} {h h' : Handler} {timers : List NetEvent} {okSent noSent : Bool}

theorem event_waits {e : NetEvent} (ha : s.approvedBlocks = []) (hw : h.pc.Waits) :
    let r := event K s h e okSent noSent
    r.1.approvedBlocks = [] ∧ r.2.1.pc.Waits := by
  cases e
  case archiveBlock a =>
    obtain ⟨⟨sent, hr⟩, -, hpc, -⟩ := archiveBlock_cases (K := K) (s := s) (h := h) a okSent noSent
    refine ⟨by simp only [event, hr, ha], ?_⟩
    rcases hpc with hpc | hpc <;> simp only [event, hpc]
    · exact hw
    · trivial
  case serialVote id hash v weight => exact ⟨by simp [event, SwarmSettings.castSerialVote, ha], hw⟩
  case pendingBlockTimeout hash => exact ⟨ha, trivial⟩
  case approvedBlockTimeout height hash rawHash =>
    refine ⟨ha, ?_⟩
    have hq : ¬ (rawHash ∈ h.candidates ∧ s.quorum hash = true) := by
      simp [SwarmSettings.quorum, ha]
    simp only [event]
    rw [if_neg hq]
    exact hw
  case newBlock body hash =>
    refine ⟨ha, ?_⟩
    simp only [event]
    split <;> exact hw
  case vote => exact ⟨ha, hw⟩

/-- Without a tally of a place of its own the handler appends nothing. -/
theorem step_waits (hs : h.step K s okSent noSent = some (s', h', timers))
    (ha : s.approvedBlocks = []) (hw : h.pc.Waits) :
    s'.approvedBlocks = [] ∧ h'.pc.Waits ∧ s'.db = s.db := by
  cases moves hs with
  | recv cs e channel hc he =>
    obtain ⟨hap, hw'⟩ := event_waits (K := K) (s := { s with channel := channel })
      (h := ⟨cs, .recv⟩) (e := e) ha hw
    obtain ⟨hdb, -⟩ := event_db (K := K) (s := { s with channel := channel }) (h := ⟨cs, .recv⟩) e
    rw [he] at hap hw' hdb
    exact ⟨hap, hw', hdb⟩
  | clearPending => exact ⟨ha, trivial, rfl⟩
  | clearApproved | append => exact hw.elim

end Handler

namespace Master

variable {m m' : Master}

/-- A master that no request is made to. -/
structure Passive (m : Master) : Prop where
  tasks : m.tasks = []
  approvedBlocks : m.set.approvedBlocks = []
  handler : m.handler.pc.Waits

/-- It appends nothing, whatever its peers send. -/
theorem passive_step {a : Act} (ha : ∀ body, a ≠ .request body) (h : m.step K a = some m')
    (hp : Passive m) : Passive m' ∧ m'.set.db = m.set.db := by
  cases a
  case request body => exact (ha body rfl).elim
  case configure conf =>
    obtain rfl := of_step_configure h
    exact ⟨⟨hp.tasks, hp.approvedBlocks, hp.handler⟩, rfl⟩
  case task i net =>
    obtain ⟨t, s, t', hget, -⟩ := of_step_task h
    simp [hp.tasks] at hget
  case handle okSent noSent =>
    obtain ⟨s, hd, timers, hs, rfl⟩ := of_step_handle h
    obtain ⟨hap, hw, hdb⟩ := Handler.step_waits hs hp.approvedBlocks hp.handler
    exact ⟨⟨hp.tasks, hap, hw⟩, hdb⟩
  case timer i =>
    obtain ⟨e, -, rfl⟩ := of_step_timer h
    exact ⟨⟨hp.tasks, hp.approvedBlocks, hp.handler⟩, rfl⟩
  case dispatch data =>
    obtain rfl := of_step_dispatch h
    exact ⟨⟨hp.tasks, (Gossip.dispatch_approvedBlocks data).trans hp.approvedBlocks, hp.handler⟩,
      (Gossip.dispatch_db data).1⟩
  case gossip votes noSent =>
    obtain ⟨s, g, hs, rfl⟩ := of_step_gossip h
    exact ⟨⟨hp.tasks, (Gossip.step_approvedBlocks hs).trans hp.approvedBlocks, hp.handler⟩,
      (Gossip.step_db hs).1⟩

theorem passive_init (db : Database) (conf : MasterConfig) : Passive (init db conf) :=
  ⟨rfl, rfl, trivial⟩

end Master

namespace Network

variable {ι : Type} [DecidableEq ι] {keys : ι → PublicKey} {s s' : Network ι} {a : Act ι}

/-- What a step is to one of the masters: nothing, a step of its own, or a message of another. -/
theorem step_at (h : s.step K keys a = some s') (i : ι) :
    s'.masters i = s.masters i ∨ ∃ b, (s.masters i).step K b = some (s'.masters i)
      ∧ (a = .master i b ∧ (∀ data, b ≠ .dispatch data)
        ∨ ∃ j bytes data, i ≠ j ∧ b = .dispatch data ∧ bytes ∈ (s.masters j).set.sent
          ∧ fromSlice NetData bytes = some data) := by
  have hset : ∀ {u : Network ι} {j : ι} {m : Master}, u.masters = s.masters → i ≠ j →
      (u.set j m).masters i = s.masters i := fun hu hij => by simp [set, hij, hu]
  rcases a with ⟨j, b⟩ | ⟨j, k, j'⟩
  · have hb : ∀ data, b ≠ .dispatch data := by
      rintro data rfl
      simp [step] at h
    have hstep : ((s.masters j).step K b).map (s.set j) = some s' := by
      rw [← h, Option.map_eq_bind]
      cases b <;> first | rfl | exact (hb _ rfl).elim
    obtain ⟨m, hm, rfl⟩ := Option.map_eq_some_iff.1 hstep
    by_cases hij : i = j
    · subst hij
      exact .inr ⟨b, by simpa [set] using hm, .inl ⟨rfl, hb⟩⟩
    · exact .inl (hset rfl hij)
  · simp only [step] at h
    split_ifs at h with hne
    rw [not_or] at hne
    obtain ⟨bytes, hbytes, h⟩ := Option.bind_eq_some_iff.1 h
    split at h
    · simp only [Option.pure_def, Option.some.injEq] at h
      exact .inl (h ▸ rfl)
    · rename_i data hdata
      simp only [Option.bind_eq_bind, Option.bind_eq_some_iff, Option.pure_def,
        Option.some.injEq] at h
      obtain ⟨m, hm, rfl⟩ := h
      by_cases hij : i = j'
      · subst hij
        obtain ⟨-, -, -, -, -, -, hdec⟩ := receive_eq_some.1 hdata
        exact .inr ⟨.dispatch data, by simpa [set] using hm,
          .inr ⟨j, bytes, data, hne.1, rfl, List.mem_of_getElem? hbytes, hdec⟩⟩
      · exact .inl (hset rfl hij)

section Passive

/-- A master that no request is made to in a run holds in the end what it held at first. -/
theorem passive_run {i : ι} {as : List (Act ι)} (hreq : ∀ x ∈ requests as, x.1 ≠ i)
    (h : Run.run (step K keys) s as = some s') (hp : (s.masters i).Passive) :
    (s'.masters i).Passive ∧ (s'.masters i).set.db = (s.masters i).set.db := by
  have halong : Run.Along (step K keys)
      (fun _ a => ∀ body, a ≠ .master i (.request body)) s as := by
    refine Run.along_of_forall fun a ha body he => ?_
    refine hreq (i, body) (List.mem_filterMap.2 ⟨a, ha, ?_⟩) rfl
    rw [he]
  refine Run.run_induction
    (I := fun u => (u.masters i).Passive ∧ (u.masters i).set.db = (s.masters i).set.db)
    (fun u a u' ha hs hi => ?_) halong h ⟨hp, rfl⟩
  rcases step_at hs i with he | ⟨b, hb, hcase⟩
  · rwa [he]
  · have hnot : ∀ body, b ≠ .request body := by
      rintro body rfl
      rcases hcase with ⟨rfl, -⟩ | ⟨_, _, _, -, he, -⟩
      · exact ha body rfl
      · simp at he
    obtain ⟨hp', hdb⟩ := Master.passive_step hnot hb hi.1
    exact ⟨hp', hdb.trans hi.2⟩

end Passive

section Rows

variable {rows order order' : List OrderRow} {T : Set Bytes}

/-- The table has grown from these rows, and each row that was added follows one that is there, by
a block from `T`. -/
structure Linked (K : Crypto) (T : Set Bytes) (rows order : List OrderRow) : Prop where
  sub : rows ⊆ order
  nodup : (order.map OrderRow.id).Nodup
  link : ∀ r ∈ order, r ∈ rows ∨ r.id ∉ rows.map OrderRow.id ∧ ∃ q ∈ order, ∃ b ∈ T,
    r.id = q.id + 1 ∧ r.hash = (K.sha256 (q.hash ++ b)).toList

theorem Linked.refl (h : (rows.map OrderRow.id).Nodup) : Linked K T rows rows :=
  ⟨List.Subset.refl _, h, fun _ hr => .inl hr⟩

theorem Linked.grows (h : Linked K T rows order) (hg : Grows K T order order') :
    Linked K T rows order' := by
  obtain rfl | ⟨row, body, hb, hash, hn, hh, ⟨q, hq, hid, hhash⟩, rfl⟩ := hg
  · exact h
  · refine ⟨fun r hr => List.mem_append_left _ (h.sub hr),
      Table.nodup_append OrderRow.id hn h.nodup, fun r hr => ?_⟩
    rcases List.mem_append.1 hr with hr | hr
    · refine (h.link r hr).imp_right fun ⟨hr', q', hq', hlink⟩ => ?_
      exact ⟨hr', q', List.mem_append_left _ hq', hlink⟩
    · obtain rfl := List.mem_singleton.1 hr
      refine .inr ⟨fun hr' => hn ?_, q, List.mem_append_left _ hq, body, hb, hid, ?_⟩
      · obtain ⟨x, hx, he⟩ := List.mem_map.1 hr'
        exact he ▸ List.mem_map_of_mem (h.sub hx)
      · rw [hh.hash, hhash]

theorem eq_of_id_eq (h : (order.map OrderRow.id).Nodup) {r r' : OrderRow} (hr : r ∈ order)
    (hr' : r' ∈ order) (he : r.id = r'.id) : r = r' :=
  List.inj_on_of_nodup_map h hr hr' he

/-- Two tables that grew from the same rows by the same block have the same hashes. -/
theorem Linked.hash_eq (hT : T.Subsingleton) (h : Linked K T rows order)
    (h' : Linked K T rows order') : ∀ (n : ℕ) (r r' : OrderRow), r ∈ order → r' ∈ order' →
      r.id = n → r'.id = n → r.hash = r'.hash := by
  intro n
  induction n using Nat.strong_induction_on with
  | h n ih =>
    intro r r' hr hr' hn hn'
    have hid : r.id = r'.id := hn.trans hn'.symm
    rcases h.link r hr with hrow | ⟨hnot, q, hq, b, hb, hqid, hhash⟩ <;>
      rcases h'.link r' hr' with hrow' | ⟨hnot', q', hq', b', hb', hqid', hhash'⟩
    · rw [eq_of_id_eq h.nodup hr (h.sub hrow') hid]
    · exact (hnot' (hid ▸ List.mem_map_of_mem hrow)).elim
    · exact (hnot (hid ▸ List.mem_map_of_mem hrow')).elim
    · have hqq : q.hash = q'.hash := ih q.id (by omega) q q' hq hq' rfl (by omega)
      rw [hhash, hhash', hqq, hT hb hb']

end Rows

section Agreement

variable {T : Set Bytes} {rows : List OrderRow}

/-- Every master is right about its own table, and all blocks on the way are from `T`. -/
structure SameInv (K : Crypto) (T : Set Bytes) (rows : List OrderRow) (m : Master) : Prop where
  inv : m.Inv K T T
  sent : ∀ bytes ∈ m.set.sent, ∀ b, fromSlice NetData bytes = some (.block b) → b.body ∈ T
  linked : Linked K T rows m.set.db.order

theorem sameInv_step (hT : T.Subsingleton)
    (ha : ∀ i body b, a = .master i (.request body) → toVec body = some b → b ∈ T)
    (h : s.step K keys a = some s') (hi : ∀ i, SameInv K T rows (s.masters i)) (i : ι) :
    SameInv K T rows (s'.masters i) := by
  rcases step_at h i with he | ⟨b, hb, hcase⟩
  · rw [he]
    exact hi i
  · have hfrom : b.From T T := by
      rcases hcase with ⟨rfl, hnot⟩ | ⟨j, bytes, data, -, rfl, hbytes, hdec⟩
      · cases b
        case request body => exact fun x hx => ha i body x rfl hx
        case dispatch data => exact (hnot data rfl).elim
        all_goals trivial
      · rintro block rfl
        exact (hi j).sent bytes hbytes block hdec
    obtain ⟨hinv, hg, hsends⟩ := Master.inv_step (hT.injOn _) hfrom hb (hi i).inv
    rw [Set.union_self] at hg
    refine ⟨hinv, fun bytes hbytes => ?_, (hi i).linked.grows hg⟩
    exact (hsends bytes hbytes).elim ((hi i).sent bytes) id

/-- Either all requests are made to one master, or all are the same. -/
theorem one_master_or_one_body {xs : List (ι × BodyData)}
    (h : ∀ x ∈ xs, ∀ y ∈ xs, x.1 = y.1 ∨ x.2 = y.2) :
    (∀ x ∈ xs, ∀ y ∈ xs, x.1 = y.1) ∨ ∀ x ∈ xs, ∀ y ∈ xs, x.2 = y.2 := by
  by_contra hne
  simp only [not_or, not_forall] at hne
  obtain ⟨⟨x, hx, y, hy, hxy⟩, u, hu, v, hv, huv⟩ := hne
  have huv' : u.1 = v.1 := (h u hu v hv).resolve_right huv
  -- of `x` and `y` one is not with the master of `u` and `v`, so both have its body
  have hother : ∀ z ∈ xs, z.1 = u.1 := by
    intro z hz
    by_contra hzu
    have h₁ := (h z hz u hu).resolve_left hzu
    have h₂ := (h z hz v hv).resolve_left (huv' ▸ hzu)
    exact huv (h₁.symm.trans h₂)
  exact hxy ((hother x hx).trans (hother y hy).symm)

theorem rows_of_run {m m' : Master} (h : Run.Reaches (Master.step K) m m')
    (hn : (m.set.db.order.map OrderRow.id).Nodup) : (m'.set.db.order.map OrderRow.id).Nodup := by
  refine Run.reaches_induction (I := fun u => (u.set.db.order.map OrderRow.id).Nodup)
    (fun u a u' hs hu => ?_) h hn
  rcases Master.step_order hs with ho | ⟨row, hrow, ho⟩
  · rwa [ho]
  · rw [ho]
    exact Table.nodup_append OrderRow.id hrow hu

/-- What a run of the network is to one of the masters. -/
theorem reaches_at {as : List (Act ι)} (h : Run.run (step K keys) s as = some s') (i : ι) :
    Run.Reaches (Master.step K) (s.masters i) (s'.masters i) := by
  refine Run.reaches_induction
    (I := fun u => Run.Reaches (Master.step K) (s.masters i) (u.masters i))
    (fun u a u' hs hu => ?_) ⟨as, h⟩ (.refl _)
  rcases step_at hs i with he | ⟨b, hb, -⟩
  · rwa [he]
  · exact hu.tail hb

/-- Masters that start from one table never hold different hashes under one id, if any two requests
of the run are made to one master or are the same. -/
theorem agree_run {db : ι → Database} {conf : ι → MasterConfig} {as : List (Act ι)}
    (hrows : ∀ i, (db i).order = rows) (hids : (rows.map OrderRow.id).Nodup)
    (hreq : ∀ x ∈ requests as, ∀ y ∈ requests as, x.1 = y.1 ∨ x.2 = y.2)
    (h : Run.run (step K keys) (init db conf) as = some s) : s.Agree := by
  have hstart : ∀ i, ((init db conf).masters i).set.db.order = rows := hrows
  have hnodup : ∀ i, ((s.masters i).set.db.order.map OrderRow.id).Nodup := fun i =>
    rows_of_run (reaches_at h i) (by rw [hstart]; exact hids)
  have hsub : ∀ i, rows ⊆ (s.masters i).set.db.order := fun i => by
    obtain ⟨bs, hbs⟩ := reaches_at h i
    rw [← hstart i]
    exact (Master.order_prefix_run hbs).subset
  rcases one_master_or_one_body hreq with hone | hsame
  · intro i j r hr r' hr' hid
    -- one of the two masters has no requests, so its rows are those of the start
    have hrest : ∀ i, (∀ x ∈ requests as, x.1 ≠ i) → (s.masters i).set.db.order = rows := by
      intro i hi
      rw [(passive_run hi h (Master.passive_init _ _)).2, hstart]
    rcases eq_or_ne i j with rfl | hij
    · rw [eq_of_id_eq (hnodup i) hr hr' hid]
    · by_cases hi : ∀ x ∈ requests as, x.1 ≠ i
      · rw [hrest i hi] at hr
        rw [eq_of_id_eq (hnodup j) (hsub j hr) hr' hid]
      · simp only [not_forall, not_not] at hi
        obtain ⟨x, hx, rfl⟩ := hi
        have hj : ∀ y ∈ requests as, y.1 ≠ j := fun y hy he => hij ((hone x hx y hy).trans he)
        rw [hrest j hj] at hr'
        rw [eq_of_id_eq (hnodup x.1) hr (hsub x.1 hr') hid]
  · let T : Set Bytes := {b | ∃ x ∈ requests as, toVec x.2 = some b}
    have hT : T.Subsingleton := by
      rintro b ⟨x, hx, hb⟩ b' ⟨y, hy, hb'⟩
      rw [hsame x hx y hy, hb'] at hb
      exact (Option.some.inj hb).symm
    have halong : Run.Along (step K keys) (fun _ a => ∀ i body b,
        a = .master i (.request body) → toVec body = some b → b ∈ T) (init db conf) as := by
      refine Run.along_of_forall fun a ha i body b he hb => ?_
      exact ⟨(i, body), List.mem_filterMap.2 ⟨a, ha, by rw [he]⟩, hb⟩
    have hinit : ∀ i, SameInv K T rows ((init db conf).masters i) := fun i =>
      ⟨Master.inv_init _ _, by simp [init, Master.init], by rw [hstart]; exact .refl hids⟩
    have hinv := Run.run_induction (I := fun u => ∀ i, SameInv K T rows (u.masters i))
      (fun u a u' ha hs hi => sameInv_step hT ha hs hi) halong h hinit
    intro i j r hr r' hr' hid
    exact (hinv i).linked.hash_eq hT (hinv j).linked r.id r r' hr hr' rfl hid.symm

/-- Two masters with the tables of `toyPair`. -/
def pair : Network (Fin 2) := init (fun _ => toyPair) fun _ => .default toy

def pairKeys : Fin 2 → PublicKey := fun i => if i = 0 then toyKey 0 else toyKey 4

theorem toyPair_ids : toyPair.order.map OrderRow.id = [0, 1] := by decide +kernel

/-- Two requests to one master. -/
theorem agree_run_one :
    let as : List (Act (Fin 2)) :=
      (.request (renameRoot "a") :: Master.heard 0
        ++ .request (renameRoot "b") :: Master.heard 1).map (.master 0)
    ∃ s, Run.run (step toy pairKeys) pair as = some s ∧ s.Agree
      ∧ (s.masters 0).set.db.order.map OrderRow.id = [0, 1, 2, 3] := by
  intro as
  have hrun : (Run.run (step toy pairKeys) pair as).any
      fun s => (s.masters 0).set.db.order.map OrderRow.id = [0, 1, 2, 3] := by decide +kernel
  obtain ⟨s, hs, hids⟩ := Run.exists_of_any hrun
  exact ⟨s, hs, agree_run (fun _ => rfl) (by rw [toyPair_ids]; decide) (by decide +kernel) hs,
    hids⟩

/-- Two requests to two masters, whose votes are all lost. -/
theorem not_agree_two_masters :
    let as : List (Act (Fin 2)) :=
      (.request (renameRoot "a") :: Master.heard 0).map (.master 0)
        ++ (.request (renameRoot "b") :: Master.heard 0).map (.master 1)
    ∃ s, Run.run (step toy pairKeys) pair as = some s ∧ ¬ s.Agree := by
  intro as
  have hrun : (Run.run (step toy pairKeys) pair as).any fun s => ¬ s.Agree := by decide +kernel
  exact Run.exists_of_any hrun

end Agreement

end Network

end Nyumt
