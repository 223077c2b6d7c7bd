import Nyumt.Collector
import Nyumt.Proofs.Completeness
import Nyumt.Proofs.NodeSync

/-!
# A timer without a period

`time::interval` panics at a period of zero, and nobody keeps a config from having one:
`verify_req` looks at its name only. The node stores such a config before it uses it, so that its
collector fails again when the node is started again. Where no block sets a config like that, the
collector never fails (`ticking_run`).
-/

namespace Nyumt

open Borsh

def NodeConfig.Ticks (c : NodeConfig) : Prop := c.reportTimeframe ≠ 0

/-- The bytes are of no config without a period. -/
def TicksIn (b : Bytes) : Prop := ∀ c, fromSlice NodeConfig b = some c → c.Ticks

def PeerRequest.Ticks : PeerRequest → Prop
  | .updateConfig c => c.Ticks
  | _ => True

def Update.Ticks : Update → Prop
  | .configUpdate _ _ c => c.Ticks
  | _ => True

/-- It sets no config without a period. -/
def RequestType.Ticks : RequestType → Prop
  | .order (.setConfig _ _ c) => c.Ticks
  | _ => True

instance : DecidablePred NodeConfig.Ticks := fun c =>
  inferInstanceAs (Decidable (c.reportTimeframe ≠ 0))

instance (r : RequestType) : Decidable r.Ticks := by
  unfold RequestType.Ticks
  split <;> infer_instance

def BlockTicks (reqs : List RequestType) : Prop := ∀ r ∈ reqs, r.Ticks

def Database.Ticks (db : Database) : Prop := ∀ r ∈ db.config, TicksIn r.nodeConf

theorem ticksIn_toVec {c : NodeConfig} {b : Bytes} (h : toVec c = some b) (hc : c.Ticks) :
    TicksIn b := by
  intro c' hc'
  obtain rfl := Option.some.inj ((fromSlice_of_ser h).symm.trans hc')
  exact hc

theorem ticks_load (K : Crypto) {localConf : Option Bytes} (h : ∀ b ∈ localConf, TicksIn b) :
    (NodeConfig.load K localConf).Ticks := by
  unfold NodeConfig.load
  rcases hload : localConf.bind (fromSlice NodeConfig) with _ | c
  · exact (by decide : (5 : UInt64) ≠ 0)
  · obtain ⟨b, hb, hc⟩ := Option.bind_eq_some_iff.1 hload
    exact h b hb c hc

theorem Database.Ticks.interpretBlock {db db' : Database} {reqs : List RequestType}
    {us : List Update} (h : interpretBlock db reqs = some (db', us)) (hreqs : BlockTicks reqs)
    (hdb : db.Ticks) : db'.Ticks ∧ ∀ u ∈ us, u.Ticks := by
  constructor
  · intro r hr
    rcases configRow_execAll (execAll_of_interpretBlock h) hr with ⟨-, hr⟩ | ⟨c, hlast, hholds⟩
    · exact hdb r hr
    · obtain ⟨⟨o⟩, ho, hset⟩ := of_findSomeRev? hlast
      cases o <;> simp only [Order.setting, reduceCtorEq] at hset
      split_ifs at hset
      obtain rfl := Option.some.inj hset
      exact ticksIn_toVec hholds.2 (hreqs _ ho)
  · intro u hu
    rw [updates_interpretBlock h] at hu
    obtain ⟨⟨o⟩, ho, rfl⟩ := List.mem_map.1 hu
    cases o <;> try trivial
    case setConfig name master c => exact hreqs _ ho

namespace Subscriptions

variable {K : Crypto} {m : Subscriptions}

/-- What is sent to nodes is what a block set, or what a row says. -/
theorem ticks_notice {u : Update} {n : Notice} {r : PeerRequest} (hm : m.db.Ticks) (hu : u.Ticks)
    (h : m.notice K u = some (some n)) (hr : n.request = some r) : r.Ticks := by
  cases u with
  | configUpdate name master c =>
    obtain rfl := Option.some.inj (Option.some.inj h)
    obtain rfl := Option.some.inj hr
    exact hu
  | nodeConfigChange k name =>
    obtain ⟨row, hrow, _, -, node, hnode, ⟨-, rfl⟩ | ⟨_, -, rfl⟩⟩ := of_notice_change h
    · cases hr
    · obtain rfl := Option.some.inj hr
      exact hm row (List.mem_of_find?_eq_some hrow) node hnode
  | masterNodeListUpdate =>
    obtain ⟨list, -, rfl⟩ := of_notice_masters h
    obtain rfl := Option.some.inj hr
    trivial
  | none => cases h

theorem ticks_nodeConfig {peer : String} {c : NodeConfig} (hm : m.db.Ticks)
    (h : m.nodeConfig peer = .nodeConfig c) : c.Ticks := by
  unfold nodeConfig at h
  split at h
  · rename_i conf hconf
    obtain rfl := PeerResponse.nodeConfig.inj h
    obtain ⟨b, hb, hconf⟩ := Option.bind_eq_some_iff.1 hconf
    simp only [Database.getPeerConf, Option.bind_eq_bind, Option.bind_eq_some_iff,
      Option.pure_def, Option.some.injEq] at hb
    obtain ⟨name, -, row, hrow, rfl⟩ := hb
    exact hm row (List.mem_of_find?_eq_some hrow) conf hconf
  · cases h

end Subscriptions

namespace NodeSync

def TellTicks (t : Telling) : Prop :=
  (∀ n ∈ noticeOf t, ∀ r ∈ n.request, r.Ticks) ∧ ∀ u ∈ updates t, u.Ticks

def SyncTicks : SyncPc → Prop
  | .fetch _ (some (.nodeConfig c)) | .storeConf _ c | .storeList _ c | .setConf c => c.Ticks
  | _ => True

def StoringTicks : Storing → Prop
  | .localConf c | .conf c => c.Ticks
  | .masters _ => True

/-- No config on its way to the node, or at it, is without a period. -/
structure Ticks (s : NodeSync) : Prop where
  rows : s.master.db.Ticks
  tellings : ∀ t ∈ s.tellings, TellTicks t
  flight : ∀ b ∈ s.flight, ∀ r, fromSlice PeerRequest b = some r → r.Ticks
  sync : SyncTicks s.sync
  stores : ∀ w ∈ s.stores, StoringTicks w
  conf : s.conf.Ticks
  localConf : ∀ b ∈ s.localConf, TicksIn b

variable {K : Crypto} {peer : String} {s s' : NodeSync}

theorem Ticks.next (h : s.Ticks) {t t' : Telling} (ht : TellTicks t)
    (hnext : next K s.master t = some t') : TellTicks t' := by
  cases t with
  | committed us =>
    simp only [NodeSync.next] at hnext
    split_ifs at hnext
    obtain rfl := Option.some.inj hnext
    exact ⟨by simp [noticeOf], ht.2⟩
  | read us =>
    rcases us with _ | ⟨u, us⟩
    · cases hnext
    have hu := ht.2 u List.mem_cons_self
    have hus : ∀ u ∈ us, u.Ticks := fun u hu => ht.2 u (List.mem_cons_of_mem _ hu)
    simp only [NodeSync.next] at hnext
    split at hnext
    · cases hnext
    · obtain rfl := Option.some.inj hnext
      exact ⟨by simp [noticeOf], hus⟩
    · rename_i n hn
      obtain rfl := Option.some.inj hnext
      refine ⟨fun n' hn' r hr => ?_, hus⟩
      obtain rfl := Option.some.inj hn'
      exact Subscriptions.ticks_notice h.rows hu hn hr
  | tell n us =>
    obtain rfl := Option.some.inj hnext
    exact ⟨by simp [noticeOf], ht.2⟩

theorem Ticks.sentBy {t : Telling} (ht : TellTicks t) {b : Bytes} {r : PeerRequest}
    (hb : b ∈ s.sentBy peer t) (hr : fromSlice PeerRequest b = some r) : r.Ticks := by
  cases t with
  | committed us => cases hb
  | read us => cases hb
  | tell n us =>
    obtain ⟨⟨p, r'⟩, hmem, hser⟩ := List.mem_filterMap.1 hb
    simp only [Option.ite_none_right_eq_some] at hser
    have hticks : r'.Ticks := ht.1 n rfl r' (Notice.request_of_mem_sends hmem)
    obtain rfl := Option.some.inj ((fromSlice_of_ser hser.2).symm.trans hr)
    cases r' <;> exact hticks

theorem Ticks.commit (h : s.Ticks) {reqs : List RequestType} (hreqs : BlockTicks reqs)
    (hs : s.step K peer (.commit reqs) = some s') : s'.Ticks := by
  simp only [NodeSync.step] at hs
  split at hs <;> obtain rfl := Option.some.inj hs
  · rename_i db us hblock
    obtain ⟨hdb, hus⟩ := h.rows.interpretBlock hblock hreqs
    refine { h with rows := hdb, tellings := List.forall_mem_append.2 ⟨h.tellings, ?_⟩ }
    exact List.forall_mem_singleton.2 ⟨by simp [noticeOf], hus⟩
  · exact h

theorem Ticks.tell (h : s.Ticks) {i : ℕ} (hs : s.step K peer (.tell i) = some s') : s'.Ticks := by
  obtain ⟨t, ht, hs⟩ := Option.bind_eq_some_iff.1 hs
  obtain rfl := Option.some.inj hs
  have htell := h.tellings t (List.mem_of_getElem? ht)
  refine { h with rows := ?_, tellings := fun x hx => ?_, flight := fun b hb => ?_ }
  · cases t with
    | committed us => exact h.rows
    | read us => exact h.rows
    | tell n us =>
      obtain ⟨conf, confName, hadopt⟩ := Subscriptions.adopt_eq (K := K) (s := s.master) n
      simp only [hadopt]
      exact h.rows
  · rcases (mem_advance ht).1 hx with hnext | hx
    · exact h.next htell hnext
    · exact h.tellings x (List.mem_of_mem_eraseIdx hx)
  · rcases List.mem_append.1 hb with hb | hb
    · exact h.flight b hb
    · exact fun r hr => Ticks.sentBy htell hb hr

theorem Ticks.syncStep (h : s.Ticks) (hs : s.syncStep K peer = some s') : s'.Ticks := by
  have hsync := h.sync
  cases of_syncStep hs with
  | answered heq =>
    rw [heq] at hsync
    exact { h with sync := hsync }
  | stopped | subscribe => exact { h with sync := trivial }
  | storeConf heq hb =>
    rw [heq] at hsync
    refine { h with sync := hsync, localConf := fun b' hb' => ?_ }
    obtain rfl := Option.some.inj hb'
    exact ticksIn_toVec hb hsync
  | storeList heq =>
    rw [heq] at hsync
    exact { h with sync := hsync }
  | setConf heq =>
    rw [heq] at hsync
    exact { h with sync := trivial, conf := hsync }
  | naming => exact { h with sync := trivial }

theorem Ticks.deliver (h : s.Ticks) {i : ℕ} (hs : s.step K peer (.deliver i) = some s') :
    s'.Ticks := by
  obtain ⟨b, hb, hs⟩ := Option.bind_eq_some_iff.1 hs
  obtain rfl := Option.some.inj hs
  refine { h with
    flight := fun b' hb' => h.flight b' (List.mem_of_mem_eraseIdx hb')
    stores := List.forall_mem_append.2 ⟨h.stores, ?_⟩ }
  have hread := h.flight b (List.mem_of_getElem? hb)
  split
  · rename_i conf hconf
    exact List.forall_mem_singleton.2 (hread _ hconf)
  · exact List.forall_mem_singleton.2 trivial
  · exact fun w hw => absurd hw List.not_mem_nil

theorem Ticks.store (h : s.Ticks) {i : ℕ} (hs : s.step K peer (.store i) = some s') :
    s'.Ticks := by
  obtain ⟨w, hw, hs⟩ := Option.bind_eq_some_iff.1 hs
  have hwt := h.stores w (List.mem_of_getElem? hw)
  have hrest : ∀ x ∈ s.stores.eraseIdx i, StoringTicks x :=
    fun x hx => h.stores x (List.mem_of_mem_eraseIdx hx)
  cases w with
  | localConf c =>
    obtain rfl := Option.some.inj hs
    refine { h with stores := fun x hx => ?_, localConf := fun b hb => ?_ }
    · rcases List.mem_or_eq_of_mem_set hx with hx | rfl
      · exact h.stores x hx
      · exact hwt
    · rcases hc : toVec c with _ | b' <;> simp only [hc] at hb
      · exact h.localConf b hb
      · obtain rfl := Option.some.inj hb
        exact ticksIn_toVec hc hwt
  | conf c =>
    obtain rfl := Option.some.inj hs
    exact { h with stores := hrest, conf := hwt }
  | masters list =>
    obtain rfl := Option.some.inj hs
    exact { h with stores := hrest }

theorem Ticks.step (h : s.Ticks) {a : Act} (ha : ∀ reqs, a ≠ .commit reqs)
    (hs : s.step K peer a = some s') : s'.Ticks := by
  cases a with
  | commit reqs => exact absurd rfl (ha reqs)
  | tell i => exact h.tell hs
  | other p subscribes =>
    simp only [NodeSync.step, Option.ite_none_left_eq_some, Option.map_eq_some_iff] at hs
    obtain ⟨-, m, hm, rfl⟩ := hs
    have hdb := (Subscriptions.step_keeps hm (by cases subscribes <;> simp)).1
    exact { h with rows := by rw [hdb]; exact h.rows }
  | external | incoming => exact Option.some.inj hs ▸ { h with rows := h.rows }
  | answerList =>
    simp only [NodeSync.step] at hs
    split at hs
    case h_2 => cases hs
    rename_i conf hsync
    obtain ⟨_, -, rfl⟩ := Option.map_eq_some_iff.1 hs
    have hconf := h.sync
    rw [hsync] at hconf
    refine { h with sync := ?_ }
    rcases conf with _ | r
    · trivial
    · cases r <;> exact hconf
  | answerConf =>
    simp only [NodeSync.step] at hs
    split at hs <;> simp only [Option.some.injEq, reduceCtorEq] at hs
    subst hs
    refine { h with sync := ?_ }
    rcases hconf : s.master.nodeConfig peer <;> try trivial
    exact Subscriptions.ticks_nodeConfig h.rows hconf
  | sync => exact h.syncStep hs
  | deliver i => exact h.deliver hs
  | store i => exact h.store hs

end NodeSync

namespace ReportingNode

variable {K : Crypto} {peer : String} {s s' : ReportingNode}

/-- The block, if it is one, sets no config without a period. -/
def Ticks : Act → Prop
  | .block b => BlockTicks b.req
  | _ => True

instance : DecidablePred Ticks
  | .block b => inferInstanceAs (Decidable (∀ r ∈ b.req, _))
  | .hello _ _ | .node _ | .collect | .serve => isTrue trivial

theorem ticks_updatePeerid {db : Database} {pk : Bytes} {p : String} (h : db.Ticks) :
    (db.updatePeerid pk p).Ticks := by
  unfold Database.updatePeerid
  split <;> exact h

theorem ticks_genesis {nodePk pk : PublicKey} {timestamp : UInt64} {db : Database}
    (h : Genesis K nodePk pk timestamp db) : db.Ticks := by
  obtain ⟨⟨bytes, hash⟩, -, h⟩ := Option.bind_eq_some_iff.1 h
  obtain rfl := Option.some.inj h
  have hempty : ((({} : Database).addNew 0 bytes hash.toList).getD {}).Ticks := by
    intro r hr
    cases hr
  have hreqs : BlockTicks (firstBlock K nodePk pk timestamp).req := by
    intro r hr
    simp only [firstBlock, List.mem_cons, List.not_mem_nil, or_false] at hr
    rcases hr with rfl | rfl | rfl
    · trivial
    · trivial
    · exact (by decide : (5 : UInt64) ≠ 0)
  unfold applyBlock
  rcases hblock : interpretBlock _ (firstBlock K nodePk pk timestamp).req with _ | ⟨db, us⟩
  · exact hempty
  · exact (hempty.interpretBlock hblock hreqs).1

theorem copy_ne_panicked {conf : NodeConfig} {period : Option UInt64} (h : period ≠ none) :
    Collector.copy conf period ≠ .panicked := by
  obtain ⟨p, rfl⟩ := Option.ne_none_iff_exists'.1 h
  exact nofun

/-- With a period in the config the collector goes on. -/
theorem collector_ne_panicked {conf : NodeConfig} {c c' : Collector} (h : conf.Ticks)
    (hs : c.step conf = some c') : c' ≠ .panicked := by
  have hinterval : Collector.interval conf.reportTimeframe ≠ none := by
    rw [Collector.interval, if_neg h]
    exact Option.some_ne_none _
  cases c with
  | start =>
    obtain rfl := Option.some.inj hs
    exact copy_ne_panicked hinterval
  | tick c =>
    obtain rfl := Option.some.inj hs
    exact nofun
  | compare c =>
    obtain rfl := Option.some.inj hs
    split_ifs <;> exact nofun
  | reload c =>
    obtain rfl := Option.some.inj hs
    split_ifs
    · exact copy_ne_panicked hinterval
    · exact copy_ne_panicked (Option.some_ne_none _)
  | panicked => cases hs

structure Good (s : ReportingNode) : Prop where
  node : s.node.Ticks
  collector : s.collector ≠ .panicked

theorem good_step {a : Act} (ha : Ticks a) (hs : s.step K peer a = some s') (h : s.Good) :
    s'.Good := by
  cases a with
  | block b =>
    obtain ⟨n, hn, rfl⟩ := Option.map_eq_some_iff.1 hs
    exact ⟨h.node.commit ha hn, h.collector⟩
  | hello p pk =>
    obtain rfl := Option.some.inj hs
    exact ⟨{ h.node with rows := ticks_updatePeerid h.node.rows }, h.collector⟩
  | node a =>
    have hne : ∀ reqs, a ≠ .commit reqs := by
      rintro reqs rfl
      cases hs
    have hmap : ∃ n, s.node.step K peer a = some n ∧ { s with node := n } = s' := by
      cases a <;> first | exact absurd rfl (hne _) | exact Option.map_eq_some_iff.1 hs
    obtain ⟨n, hn, rfl⟩ := hmap
    exact ⟨h.node.step hne hn, h.collector⟩
  | collect =>
    obtain ⟨c, hc, rfl⟩ := Option.map_eq_some_iff.1 hs
    exact ⟨h.node, collector_ne_panicked h.node.conf hc⟩
  | serve =>
    obtain rfl := Option.some.inj hs
    refine ⟨{ h.node with flight := ?_, sync := trivial, stores := ?_, conf := ?_ }, nofun⟩
    · exact fun b hb => absurd hb List.not_mem_nil
    · exact fun w hw => absurd hw List.not_mem_nil
    · exact ticks_load K h.node.localConf

theorem good_start {db : Database} {pubkey : PublicKey} (h : db.Ticks) :
    (start K db pubkey).Good where
  node := {
    rows := h
    tellings := fun _ ht => absurd ht List.not_mem_nil
    flight := fun _ hb => absurd hb List.not_mem_nil
    sync := trivial
    stores := fun _ hw => absurd hw List.not_mem_nil
    conf := ticks_load K nofun
    localConf := nofun }
  collector := nofun

/-- In a new network whose blocks set no config without a period, the collector of a node never
panics, however often the node is started. -/
theorem ticking_run {nodePk pk pubkey : PublicKey} {timestamp : UInt64} {db : Database}
    {as : List Act} (hg : Genesis K nodePk pk timestamp db) (has : ∀ a ∈ as, Ticks a) :
    Run.Throughout (step K peer) (fun s => s.collector ≠ .panicked) (start K db pubkey) as := by
  have hgood : Run.Throughout (step K peer) Good (start K db pubkey) as :=
    Run.throughout_induction (fun _ _ _ ha hs h => good_step ha hs h) (Run.along_of_forall has)
      (good_start (ticks_genesis hg))
  exact hgood.mono fun _ h => h.collector

section Toy

/-- `verify_req` accepts the block when it is committed. -/
def Accepted (s : ReportingNode) : Act → Prop
  | .block b => Admitted toy s.node.master.db.toTables b
  | _ => True

instance (s : ReportingNode) : DecidablePred s.Accepted
  | .block b => inferInstanceAs (Decidable (Admitted toy s.node.master.db.toTables b))
  | .hello _ _ | .node _ | .collect | .serve => isTrue trivial

def toyStart : ReportingNode := start toy toyGenesis (toyKey 0)

/-- A node is added, connects and says `Hello`; it starts to report, and a config is set. -/
def sets (reportTimeframe : UInt64) : List Act :=
  [.block (toyBody 0 [.order (.addNode "n" (toyKey 2))]), .node (.incoming ""),
    .hello "p" (toyKey 2), .collect, .block (toyBody 1 [.order (.setConfig "default" (.default toy)
      { NodeConfig.default toy with reportTimeframe := reportTimeframe })])]

/-- It fetches its config, and reports on. -/
def fetches : List Act :=
  [.node .answerList, .node .answerConf] ++ List.replicate 4 (.node .sync)
    ++ List.replicate 3 .collect

theorem ticking_run_sets : Run.Throughout (step toy "p") (fun s => s.collector ≠ .panicked) toyStart
    (sets 7 ++ fetches) :=
  ticking_run genesis_toyGenesis (by decide +kernel)

/-- A root user sets a period of zero, and the collector panics. -/
theorem not_ticking_run : ¬ ∀ as : List Act, Run.Along (step toy "p") Accepted toyStart as →
    Run.Throughout (step toy "p") (fun s => s.collector ≠ .panicked) toyStart as := by
  intro h
  have haccepted : Run.Along (step toy "p") Accepted toyStart (sets 0 ++ fetches) := by
    decide +kernel
  have hpanics : ¬ Run.Throughout (step toy "p") (fun s => s.collector ≠ .panicked) toyStart
      (sets 0 ++ fetches) := by
    decide +kernel
  exact hpanics (h _ haccepted)

/-- When the node is started again it does so at once. -/
example : (Run.run (step toy "p") toyStart (sets 0 ++ fetches ++ [.serve, .collect])).any fun s =>
    s.collector = .panicked := by
  decide +kernel

end Toy

end ReportingNode

end Nyumt
