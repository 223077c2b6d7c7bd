import Mathlib.Data.List.TakeWhile
import Nyumt.NodeSync
import Nyumt.Proofs.Updates

/-!
# What a node that joins ends up with

What is fetched and what is pushed can miss each other: a block that is committed after the master
has answered is told to the nodes that are filed, and the node may not be yet. And of two pushes the
older may be stored last. Where whatever misses the node, or is stored although it is outdated, is
made good by something that is still on its way, the node ends up with what the master's tables say
(`joined_run`).
-/

namespace Nyumt

open Borsh

/-- What a node is to have: its config, or the keys of the masters. -/
inductive Value
  | conf (c : NodeConfig)
  | masters (keys : List Bytes)
  deriving DecidableEq

inductive Topic
  | conf
  | masters
  deriving DecidableEq

def Value.topic : Value → Topic
  | .conf _ => .conf
  | .masters _ => .masters

def masterKeys (list : List MasterNode) : List Bytes := list.map fun n => n.pubkey.bytes

namespace PeerRequest

def value : PeerRequest → Option Value
  | .updateConfig conf => some (.conf conf)
  | .updateMasterNodeList list => some (.masters (masterKeys list))
  | _ => none

end PeerRequest

/-- What a message to the node brings. -/
def messageValue (b : Bytes) : Option Value := (fromSlice PeerRequest b).bind PeerRequest.value

/-- What it brings to those it is sent to, as they read it. -/
def Notice.value : Notice → Option Value
  | .config _ _ node | .change _ node => some (.conf (reset node))
  | .own _ _ _ => none
  | .masters list => some (.masters (masterKeys list))

def Storing.value : Storing → Value
  | .localConf c | .conf c => .conf c
  | .masters list => .masters (masterKeys list)

namespace Subscriptions

variable (K : Crypto) (m : Subscriptions) (peer : String)

/-- What the node is to have, by the tables. -/
def current : Topic → Option Value
  | .conf => ((m.db.getPeerConf peer).bind (fromSlice NodeConfig)).map .conf
  | .masters => some (.masters m.db.getMasterNodes)

/-- What a node's change of config brings is what its config is when it is read, so it is known
before only of the config that the node still has then. -/
def Known : Update → Prop
  | .nodeConfigChange _ name => m.db.getPeerConfName peer = some name
  | _ => True

/-- What an update brings if the master has an address to give for its own. -/
def value (u : Update) : Option Value :=
  (notice K { m with external := some "" } u).join.bind Notice.value

/-- The update brings the value to those it is sent to. -/
def Brings (u : Update) (v : Value) : Prop := m.Known peer u ∧ m.value K u = some v

/-- What the topic is about is in `db` as it was. -/
def Untouched (db : Database) : Topic → Prop
  | .conf => db.getPeerConfName peer = m.db.getPeerConfName peer
    ∧ ∀ name ∈ m.db.getPeerConfName peer, db.getNodeConf name = m.db.getNodeConf name
  | .masters => db.getMasterNodes = m.db.getMasterNodes

end Subscriptions

namespace NodeSync

variable (K : Crypto) (peer : String)

def Has (s : NodeSync) : Value → Prop
  | .conf c => s.conf = c.update K
  | .masters keys => s.masterNodes.map Prod.fst = keys

/-- What a task has read. -/
def noticeOf : Telling → Option Notice
  | .tell n _ => some n
  | _ => none

/-- The updates a task has not read. -/
def updates : Telling → List Update
  | .committed us | .read us | .tell _ us => us

def TellBrings (m : Subscriptions) (t : Telling) (v : Value) : Prop :=
  (∃ n ∈ noticeOf t, n.value = some v) ∨ ∃ u ∈ updates t, m.Brings K peer u v

/-- What is not answered yet will be answered as it then is; on an error the node stops. -/
def AnswerFits : Option PeerResponse → Value → Prop
  | some (.nodeConfig c'), .conf c => c' = c
  | some (.masterNodeList list), .masters keys => masterKeys list = keys
  | _, _ => True

def SyncBrings : SyncPc → Value → Prop
  | .fetch _ conf, .conf c => AnswerFits conf (.conf c)
  | .fetch list _, .masters keys => AnswerFits list (.masters keys)
  | .storeConf _ conf, .conf c | .storeList _ conf, .conf c | .setConf conf, .conf c => conf = c
  | .storeConf list _, .masters keys | .storeList list _, .masters keys => masterKeys list = keys
  | _, _ => False

/-- Something that has not come to its end brings the value to the node. -/
def OnWay (s : NodeSync) (v : Value) : Prop :=
  (∃ t ∈ s.tellings, TellBrings K peer s.master t v) ∨ (∃ b ∈ s.flight, messageValue b = some v)
    ∨ (∃ w ∈ s.stores, w.value = v) ∨ SyncBrings s.sync v

def Due (s : NodeSync) : Prop := s.sync = .stopped ∨
  ∀ topic, ∀ v ∈ s.master.current peer topic, s.Has K v ∨ s.OnWay K peer v

/-- The task's step does not bring all that the task was to bring. -/
def Misses (s : NodeSync) : Telling → Prop
  | .committed _ => s.master.nodes.keys = []
  | .read (u :: _) => s.master.notice K u = none
  | .read [] => False
  | .tell n us => s.sentBy peer (.tell n us) = []

/-- What a step writes for good, and what is left on the way. -/
def writes (s : NodeSync) : Act → Option (Value × NodeSync)
  | .store i =>
    match s.stores[i]? with
    | some (.localConf _) | none => none
    | some w => some (w.value, { s with stores := s.stores.eraseIdx i })
  | .sync =>
    match s.sync with
    | .storeList list conf => some (.masters (masterKeys list), { s with sync := .setConf conf })
    | .setConf conf => some (.conf conf, { s with sync := .subscribe })
    | _ => none
  | _ => none

/-- A block that changes what the node is to have has an update that brings it, or something else
does. When a task's step misses the node, what it was to bring is outdated, or the node has it, or
something else brings it. What is stored is current, or what is current is still on its way. -/
def Keeps (s : NodeSync) : Act → Prop
  | .commit reqs => ∀ p ∈ interpretBlock s.master.db reqs, ∀ topic,
    ∀ v ∈ Subscriptions.current { s.master with db := p.1 } peer topic,
      s.master.Untouched peer p.1 topic
        ∨ (∃ u ∈ p.2, Subscriptions.Brings K { s.master with db := p.1 } peer u v)
        ∨ s.Has K v ∨ OnWay K peer { s with master := { s.master with db := p.1 } } v
  | .tell i => ∀ t ∈ s.tellings[i]?, s.Misses K peer t →
    ∀ topic, ∀ v ∈ s.master.current peer topic, TellBrings K peer s.master t v →
      s.Has K v ∨ OnWay K peer { s with tellings := s.advance K i t } v
  | a => ∀ w ∈ s.writes a, ∀ v ∈ s.master.current peer w.1.topic, w.1 = v ∨ w.2.OnWay K peer v

/-- Where `async_sync` has stopped nothing is asked of a step. -/
def Kept (s : NodeSync) (a : Act) : Prop := s.sync ≠ .stopped → s.Keeps K peer a

/-- The subscription was answered, and nothing is under way. -/
def Settled (s : NodeSync) : Prop :=
  s.sync = .subscribed ∧ s.tellings = [] ∧ s.flight = [] ∧ s.stores = []

/-- The node's config is the one assigned to it, and its list is that of the masters' keys. -/
def UpToDate (s : NodeSync) : Prop :=
  (∀ b c, s.master.db.getPeerConf peer = some b → fromSlice NodeConfig b = some c →
      s.conf = c.update K)
    ∧ s.masterNodes.map Prod.fst = s.master.db.getMasterNodes

end NodeSync

section Decide

variable (K : Crypto) (m : Subscriptions) (peer : String) (s : NodeSync)

instance (p : Topic → Prop) [DecidablePred p] : Decidable (∀ topic, p topic) :=
  decidable_of_iff (p .conf ∧ p .masters)
    ⟨fun h topic => by cases topic; exacts [h.1, h.2], fun h => ⟨h _, h _⟩⟩

instance : DecidablePred (m.Known peer)
  | .nodeConfigChange _ name => inferInstanceAs (Decidable (m.db.getPeerConfName peer = some name))
  | .configUpdate _ _ _ | .masterNodeListUpdate | .none => isTrue trivial

instance (u : Update) (v : Value) : Decidable (m.Brings K peer u v) :=
  inferInstanceAs (Decidable (_ ∧ _))

instance (db : Database) : DecidablePred (m.Untouched peer db)
  | .conf => inferInstanceAs (Decidable (_ ∧ ∀ name ∈ m.db.getPeerConfName peer, _))
  | .masters => inferInstanceAs (Decidable (db.getMasterNodes = m.db.getMasterNodes))

namespace NodeSync

instance : DecidablePred (s.Has K)
  | .conf c => inferInstanceAs (Decidable (s.conf = c.update K))
  | .masters keys => inferInstanceAs (Decidable (s.masterNodes.map Prod.fst = keys))

instance (t : Telling) (v : Value) : Decidable (TellBrings K peer m t v) :=
  inferInstanceAs (Decidable ((∃ n ∈ noticeOf t, _) ∨ ∃ u ∈ updates t, _))

instance (r : Option PeerResponse) (v : Value) : Decidable (AnswerFits r v) := by
  unfold AnswerFits
  split <;> infer_instance

instance (pc : SyncPc) (v : Value) : Decidable (SyncBrings pc v) := by
  unfold SyncBrings
  split <;> infer_instance

instance (v : Value) : Decidable (s.OnWay K peer v) :=
  inferInstanceAs (Decidable ((∃ t ∈ s.tellings, _) ∨ (∃ b ∈ s.flight, _)
    ∨ (∃ w ∈ s.stores, _) ∨ SyncBrings s.sync v))

instance : Decidable (s.Due K peer) :=
  inferInstanceAs (Decidable (_ ∨ ∀ topic, ∀ v ∈ s.master.current peer topic, _))

instance : DecidablePred (s.Misses K peer)
  | .committed _ => inferInstanceAs (Decidable (s.master.nodes.keys = []))
  | .read (u :: _) => inferInstanceAs (Decidable (s.master.notice K u = none))
  | .read [] => isFalse id
  | .tell n us => inferInstanceAs (Decidable (s.sentBy peer (.tell n us) = []))

instance : DecidablePred (s.Keeps K peer)
  | .commit _ | .tell _ | .other _ _ | .external _ | .incoming _ | .answerList | .answerConf | .sync
  | .deliver _ | .store _ => by
    unfold Keeps
    infer_instance

instance (a : Act) : Decidable (s.Kept K peer a) := inferInstanceAs (Decidable (_ → _))

instance : Decidable s.Settled := inferInstanceAs (Decidable (_ ∧ _ ∧ _ ∧ _))

end NodeSync

end Decide

section Values

instance : Plain MasterNode := ⟨fun ⟨_, addr⟩ => by cases addr <;> rfl⟩

theorem messageValue_updateConfig {c : NodeConfig} {b : Bytes}
    (h : toVec (PeerRequest.updateConfig c) = some b) :
    messageValue b = some (.conf (reset c)) := by
  rw [messageValue, fromSlice_of_ser h]
  rfl

theorem messageValue_updateMasterNodeList {list : List MasterNode} {b : Bytes}
    (h : toVec (PeerRequest.updateMasterNodeList list) = some b) :
    messageValue b = some (.masters (masterKeys list)) := by
  have hreset : reset (PeerRequest.updateMasterNodeList list)
      = .updateMasterNodeList (reset list) := rfl
  rw [messageValue, fromSlice_of_ser h, hreset, reset_eq]
  rfl

theorem Notice.request_of_mem_sends {n : Notice} {nodes : SubscribedNodes} {p : String}
    {r : PeerRequest} (h : (p, r) ∈ n.sends nodes) : n.request = some r := by
  unfold sends at h
  split at h
  · rename_i r' hr
    split_ifs at h
    · obtain ⟨_, -, he⟩ := List.mem_map.1 h
      rw [hr, (Prod.mk.inj he).2]
    · simp at h
  · simp at h

/-- A message brings what the notice it is of brings. -/
theorem Notice.messageValue_eq {n : Notice} {r : PeerRequest} {b : Bytes} (hr : n.request = some r)
    (hb : toVec r = some b) : messageValue b = n.value := by
  cases n <;> simp only [Notice.request, Option.some.injEq, reduceCtorEq] at hr
  case masters list =>
    subst hr
    exact messageValue_updateMasterNodeList hb
  all_goals
    subst hr
    exact messageValue_updateConfig hb

theorem masterKeys_listMasterNodes {own : PublicKey} {addr : Option String}
    {mpks : List PublicKey} {list : List MasterNode}
    (h : listMasterNodes own addr mpks = some list) :
    masterKeys list = mpks.map PublicKey.bytes := by
  rw [← keys_listMasterNodes h, List.map_map]
  rfl

end Values

namespace Subscriptions

variable {K : Crypto} {m : Subscriptions} {peer : String} {u : Update} {v : Value}

/-- An update comes to what it brings, unless its task panics; which address a master gives makes no
difference. -/
theorem value_of_notice {r : Option Notice} (h : m.notice K u = some r) :
    r.bind Notice.value = m.value K u := by
  cases u with
  | configUpdate | nodeConfigChange | none =>
    exact congrArg (fun n => n.join.bind Notice.value) h.symm
  | masterNodeListUpdate =>
    obtain ⟨list, hlist, rfl⟩ := Option.map_eq_some_iff.1 h
    have hsome : masterNodes { m with external := some "" } ≠ none := fun hnone => by
      simpa using (listMasterNodes_eq_none _).1 hnone
    obtain ⟨list', hlist'⟩ := Option.ne_none_iff_exists'.1 hsome
    have hkeys : masterKeys list' = masterKeys list :=
      (masterKeys_listMasterNodes hlist').trans (masterKeys_listMasterNodes hlist).symm
    simp [value, notice, hlist', Notice.value, hkeys]

theorem brings_congr {m' : Subscriptions} (hdb : m'.db = m.db) (hkey : m'.pubkey = m.pubkey) :
    m'.Brings K peer u v ↔ m.Brings K peer u v := by
  have hnotice : notice K { m' with external := some "" } u
      = notice K { m with external := some "" } u := by
    refine notice_congr ?_ ?_ ?_ u
    · exact hdb
    · exact hkey
    · rfl
  have hvalue : m'.value K u = m.value K u := congrArg (fun r => r.join.bind Notice.value) hnotice
  rw [Brings, Brings, hvalue]
  exact and_congr_left fun _ => by cases u <;> simp only [Known, hdb]

theorem current_topic {topic : Topic} (h : m.current peer topic = some v) : v.topic = topic := by
  cases topic with
  | conf =>
    obtain ⟨c, -, rfl⟩ := Option.map_eq_some_iff.1 h
    rfl
  | masters =>
    obtain rfl := Option.some.inj h
    rfl

/-- Subscribing and unsubscribing leaves the tables, and who the master is. -/
theorem step_keeps {m' : Subscriptions} {a : Act} (h : m.step K a = some m')
    (ha : ∀ reqs, a ≠ .block reqs) :
    m'.db = m.db ∧ m'.pubkey = m.pubkey := by
  cases a with
  | subscribe peer =>
    simp only [step] at h
    split at h <;>
    · obtain rfl := Option.some.inj h
      exact ⟨rfl, rfl⟩
  | unsubscribe peer =>
    obtain rfl := Option.some.inj h
    exact ⟨rfl, rfl⟩
  | block reqs => exact (ha reqs rfl).elim

/-- Where the tables are as they were, an update that is not read brings what it brought. -/
theorem Brings.untouched {db : Database} (h : m.Brings K peer u v)
    (hdb : m.Untouched peer db v.topic) : Brings K { m with db := db } peer u v := by
  obtain ⟨hname, hv⟩ := h
  obtain ⟨n, hn, hvalue⟩ := Option.bind_eq_some_iff.1 hv
  rw [Option.join_eq_some_iff] at hn
  cases u with
  | configUpdate | none => exact ⟨trivial, hv⟩
  | nodeConfigChange k name =>
    obtain ⟨_, -, _, -, node, -, ⟨-, rfl⟩ | ⟨_, -, rfl⟩⟩ := of_notice_change hn
    · cases hvalue
    · obtain rfl := Option.some.inj hvalue
      refine ⟨hdb.1.trans hname, ?_⟩
      rw [← hv]
      simp only [value, notice, hdb.2 name hname]
  | masterNodeListUpdate =>
    obtain ⟨list, -, rfl⟩ := of_notice_masters hn
    obtain rfl := Option.some.inj hvalue
    have hkeys : db.getMasterNodes = m.db.getMasterNodes := hdb
    refine ⟨trivial, ?_⟩
    rw [← hv]
    simp only [value, notice, masterNodes, hkeys]

theorem current_congr {m' : Subscriptions} (hdb : m'.db = m.db) (topic : Topic) :
    m'.current peer topic = m.current peer topic := by
  cases topic <;> simp only [current, hdb]

theorem current_untouched {db : Database} {topic : Topic} (h : m.Untouched peer db topic) :
    current { m with db := db } peer topic = m.current peer topic := by
  cases topic with
  | conf =>
    obtain ⟨hname, hrow⟩ := h
    simp only [current, Database.getPeerConf, hname]
    rcases hn : m.db.getPeerConfName peer with _ | name
    · rfl
    · simp only [Option.bind_eq_bind, Option.bind_some, hrow name hn]
  | masters => exact congrArg (fun ks => some (Value.masters ks)) h

end Subscriptions

namespace NodeSync

variable {K peer} {s s' : NodeSync}

theorem Due.upToDate (hi : s.Due K peer) (h : s.Settled) : s.UpToDate K peer := by
  obtain ⟨hsync, ht, hf, hw⟩ := h
  have hhas : ∀ topic v, s.master.current peer topic = some v → s.Has K v := by
    intro topic v hv
    refine (hi.resolve_left (by simp [hsync]) topic v hv).resolve_right fun hway => ?_
    simp [OnWay, ht, hf, hw, hsync, SyncBrings] at hway
  refine ⟨fun b c hb hc => hhas .conf (.conf c) ?_, hhas .masters _ rfl⟩
  simp [Subscriptions.current, hb, hc]

/-- What a task was to bring, its step sends or leaves for the next, if it does not miss. -/
theorem TellBrings.next {t : Telling} {v : Value} (h : TellBrings K peer s.master t v)
    (hmiss : ¬ s.Misses K peer t) :
    (∃ t', NodeSync.next K s.master t = some t' ∧ TellBrings K peer s.master t' v)
      ∨ ∃ b ∈ s.sentBy peer t, messageValue b = some v := by
  cases t with
  | committed us =>
    have hu := h.resolve_left (by simp [noticeOf])
    exact .inl ⟨.read us, if_neg hmiss, .inr hu⟩
  | read us =>
    obtain ⟨u, hu, hb⟩ := h.resolve_left (by simp [noticeOf])
    rcases us with _ | ⟨u', us⟩
    · simp [updates] at hu
    · rcases hn : s.master.notice K u' with _ | _ | n
      · exact (hmiss hn).elim
      · rcases List.mem_cons.1 hu with rfl | hu
        · rw [Subscriptions.Brings, ← Subscriptions.value_of_notice hn] at hb
          cases hb.2
        · exact .inl ⟨.read us, by simp [NodeSync.next, hn], .inr ⟨u, hu, hb⟩⟩
      · refine .inl ⟨.tell n us, by simp [NodeSync.next, hn], ?_⟩
        rcases List.mem_cons.1 hu with rfl | hu
        · exact .inl ⟨n, rfl, (Subscriptions.value_of_notice hn).trans hb.2⟩
        · exact .inr ⟨u, hu, hb⟩
  | tell n us =>
    rcases h with ⟨n', he, hv⟩ | hu
    · obtain rfl : n = n' := by simpa [noticeOf] using he
      obtain ⟨b, hb⟩ := List.exists_mem_of_ne_nil _ hmiss
      refine .inr ⟨b, hb, ?_⟩
      obtain ⟨⟨p, r⟩, hmem, hser⟩ := List.mem_filterMap.1 hb
      simp only [Option.ite_none_right_eq_some] at hser
      rw [← hv, Notice.messageValue_eq (Notice.request_of_mem_sends hmem) hser.2]
    · exact .inl ⟨.read us, rfl, .inr hu⟩

/-- What is on its way stays so, whoever has subscribed and whatever the master has for itself. -/
theorem OnWay.master {v : Value} {m : Subscriptions} (h : s.OnWay K peer v)
    (hdb : m.db = s.master.db) (hkey : m.pubkey = s.master.pubkey) :
    OnWay K peer { s with master := m } v := by
  rcases h with ⟨t, ht, hb⟩ | h
  · refine .inl ⟨t, ht, hb.imp_right fun ⟨u, hu, hb⟩ => ⟨u, hu, ?_⟩⟩
    exact (Subscriptions.brings_congr hdb hkey).2 hb
  · exact .inr h

theorem Due.master {m : Subscriptions} (hi : s.Due K peer) (hdb : m.db = s.master.db)
    (hkey : m.pubkey = s.master.pubkey) : Due K peer { s with master := m } := by
  refine hi.imp_right fun hdue topic v hv => ?_
  rw [Subscriptions.current_congr hdb] at hv
  exact (hdue topic v hv).imp_right fun h => h.master hdb hkey

theorem OnWay.send {v : Value} (bs : List Bytes) (h : s.OnWay K peer v) :
    OnWay K peer { s with flight := s.flight ++ bs } v := by
  rcases h with h | ⟨b, hb, hv⟩ | h
  · exact .inl h
  · exact .inr (.inl ⟨b, List.mem_append_left _ hb, hv⟩)
  · exact .inr (.inr h)

theorem OnWay.sync {v : Value} {pc : SyncPc} (hpc : SyncBrings s.sync v → SyncBrings pc v)
    (h : s.OnWay K peer v) : OnWay K peer { s with sync := pc } v := by
  rcases h with h | h | h | h
  · exact .inl h
  · exact .inr (.inl h)
  · exact .inr (.inr (.inl h))
  · exact .inr (.inr (.inr (hpc h)))

/-- A step of `async_sync` that writes nothing for good, if it still brings what it brought. -/
theorem Due.moves {pc : SyncPc} (hi : s.Due K peer) (hsync : s.sync ≠ .stopped)
    (hpc : ∀ topic, ∀ v ∈ s.master.current peer topic, SyncBrings s.sync v → SyncBrings pc v) :
    Due K peer { s with sync := pc } :=
  .inr fun topic v hv => (hi.resolve_left hsync topic v hv).imp_right (OnWay.sync (hpc topic v hv))

theorem mem_advance {i : ℕ} {t x : Telling} (ht : s.tellings[i]? = some t) :
    x ∈ s.advance K i t ↔ next K s.master t = some x ∨ x ∈ s.tellings.eraseIdx i := by
  unfold advance
  rcases next K s.master t with _ | t'
  · simp
  · simp only [Table.mem_set_iff_eraseIdx (List.getElem?_eq_some_iff.1 ht).1, Option.some.injEq,
      eq_comm]

theorem Due.tell (hi : s.Due K peer) {i : ℕ} (hok : s.Keeps K peer (.tell i))
    (hs : s.step K peer (.tell i) = some s') : s'.Due K peer := by
  obtain ⟨t, ht, h⟩ := Option.bind_eq_some_iff.1 hs
  obtain ⟨conf, confName, rfl⟩ : ∃ conf confName, s' = { s with
      master := { s.master with conf := conf, confName := confName }
      tellings := s.advance K i t
      flight := s.flight ++ s.sentBy peer t } := by
    simp only [Option.pure_def, Option.some.injEq] at h
    subst h
    cases t with
    | tell n us =>
      obtain ⟨conf, confName, h⟩ := Subscriptions.adopt_eq (K := K) (s := s.master) n
      exact ⟨conf, confName, by simp only [h]⟩
    | committed | read => exact ⟨_, _, rfl⟩
  have hsend : ∀ v, OnWay K peer { s with tellings := s.advance K i t } v → OnWay K peer { s with
      master := { s.master with conf := conf, confName := confName }
      tellings := s.advance K i t
      flight := s.flight ++ s.sentBy peer t } v := fun v h => (h.send _).master rfl rfl
  refine hi.imp_right fun hdue topic v hv => ?_
  rcases hdue topic v hv with h | ⟨x, hx, hb⟩ | h
  · exact .inl h
  · rcases (Table.mem_iff_eraseIdx ht).1 hx with rfl | hx
    · by_cases hmiss : s.Misses K peer x
      · exact (hok x ht hmiss topic v hv hb).imp_right (hsend v)
      · refine .inr ?_
        rcases hb.next hmiss with ⟨t', ht', hb⟩ | ⟨b, hb, hv⟩
        · exact hsend v (.inl ⟨t', (mem_advance ht).2 (.inl ht'), hb⟩)
        · exact .inr (.inl ⟨b, List.mem_append_right _ hb, hv⟩)
    · exact .inr (hsend v (.inl ⟨x, (mem_advance ht).2 (.inr hx), hb⟩))
  · exact .inr (hsend v (.inr h))

theorem Due.commit (hi : s.Due K peer) {reqs : List RequestType}
    (hok : s.Keeps K peer (.commit reqs)) (hs : s.step K peer (.commit reqs) = some s') :
    s'.Due K peer := by
  simp only [step] at hs
  split at hs <;> simp only [Option.some.injEq] at hs <;> subst hs
  · rename_i db us hblock
    refine hi.imp_right fun hdue topic v hv => ?_
    have htopic := Subscriptions.current_topic hv
    rcases hok (db, us) hblock topic v hv with hdb | ⟨u, hu, hb⟩ | hhas | ⟨t, ht, hb⟩ | hway
    · rw [Subscriptions.current_untouched hdb] at hv
      refine (hdue topic v hv).imp_right fun h => ?_
      rcases h with ⟨t, ht, hb⟩ | h
      · refine .inl ⟨t, List.mem_append_left _ ht, hb.imp_right fun ⟨u, hu, hb⟩ => ⟨u, hu, ?_⟩⟩
        exact hb.untouched (htopic ▸ hdb)
      · exact .inr h
    · exact .inr (.inl ⟨.committed us, List.mem_append_right _ (List.mem_singleton.2 rfl),
        .inr ⟨u, hu, hb⟩⟩)
    · exact .inl hhas
    · exact .inr (.inl ⟨t, List.mem_append_left _ ht, hb⟩)
    · exact .inr (.inr hway)
  · exact hi

/-- Where `MasterNodeList` is answered with a list, it is that of the keys on record. -/
theorem answerFits_masterNodeList {m : Subscriptions} {r : PeerResponse}
    (h : m.masterNodeList = some r) : AnswerFits (some r) (.masters m.db.getMasterNodes) := by
  simp only [Subscriptions.masterNodeList, Option.bind_eq_bind, Option.bind_eq_some_iff,
    Option.pure_def, Option.some.injEq] at h
  obtain ⟨list, hlist, rfl⟩ := h
  split_ifs with hread
  · have hkeys := masterKeys_listMasterNodes hlist
    rw [hread, List.map_filterMap] at hkeys
    have hsome := List.takeWhile_eq_self_iff.1 hread
    refine hkeys.trans ((List.filterMap_congr fun k hk => ?_).trans List.filterMap_some)
    obtain ⟨pk, hpk⟩ := Option.isSome_iff_exists.1 (hsome k hk)
    have hbytes : pk.bytes = k := by simpa using ser_of_fromSlice hpk
    simp [hpk, hbytes]
  · trivial

/-- What is fetched is what is current, or the node stops on it. -/
theorem Due.answerList (hi : s.Due K peer) (hs : s.step K peer .answerList = some s') :
    s'.Due K peer := by
  simp only [step] at hs
  split at hs
  case h_2 => cases hs
  rename_i conf hsync
  obtain ⟨r, hr, rfl⟩ := Option.map_eq_some_iff.1 hs
  refine hi.moves (by simp [hsync]) fun topic v hv h => ?_
  rw [hsync] at h
  cases v with
  | conf c => exact h
  | masters keys =>
    obtain rfl : topic = .masters := (Subscriptions.current_topic hv).symm
    obtain rfl : s.master.db.getMasterNodes = keys := by simpa [Subscriptions.current] using hv
    exact answerFits_masterNodeList hr

theorem Due.answerConf (hi : s.Due K peer) (hs : s.step K peer .answerConf = some s') :
    s'.Due K peer := by
  simp only [step] at hs
  split at hs <;> simp only [Option.some.injEq, reduceCtorEq] at hs
  rename_i list hsync
  subst hs
  refine hi.moves (by simp [hsync]) fun topic v hv h => ?_
  rw [hsync] at h
  cases v with
  | masters keys => exact h
  | conf c =>
    obtain rfl : topic = .conf := (Subscriptions.current_topic hv).symm
    obtain ⟨c', hc', hcc⟩ := Option.map_eq_some_iff.1 hv
    obtain rfl : c' = c := by simpa using hcc
    simp only [SyncBrings, Subscriptions.nodeConfig, hc']
    rfl

theorem Due.deliver (hi : s.Due K peer) {i : ℕ} (hs : s.step K peer (.deliver i) = some s') :
    s'.Due K peer := by
  obtain ⟨b, hb, h⟩ := Option.bind_eq_some_iff.1 hs
  simp only [Option.pure_def, Option.some.injEq] at h
  subst h
  refine hi.imp_right fun hdue topic v hv => (hdue topic v hv).imp_right fun h => ?_
  rcases h with h | ⟨b', hb', hv'⟩ | ⟨w, hw, hwv⟩ | h
  · exact .inl h
  · rcases (Table.mem_iff_eraseIdx hb).1 hb' with rfl | hb'
    · refine .inr (.inr (.inl ?_))
      obtain ⟨r, hr, hv'⟩ := Option.bind_eq_some_iff.1 hv'
      simp only [hr]
      cases r <;> simp only [PeerRequest.value, Option.some.injEq, reduceCtorEq] at hv'
      case updateConfig c => exact ⟨.localConf c, by simp, hv'⟩
      case updateMasterNodeList list => exact ⟨.masters list, by simp, hv'⟩
    · exact .inr (.inl ⟨b', hb', hv'⟩)
  · exact .inr (.inr (.inl ⟨w, List.mem_append_left _ hw, hwv⟩))
  · exact .inr (.inr (.inr h))

theorem Due.other (hi : s.Due K peer) {p : String} {subscribes : Bool}
    (hs : s.step K peer (.other p subscribes) = some s') : s'.Due K peer := by
  by_cases hp : p = peer
  · simp [NodeSync.step, hp] at hs
  · rw [NodeSync.step, if_neg hp] at hs
    obtain ⟨m, hm, rfl⟩ := Option.map_eq_some_iff.1 hs
    obtain ⟨hdb, hkey⟩ := Subscriptions.step_keeps hm (by cases subscribes <;> simp)
    exact hi.master hdb hkey

theorem masterRows_fst (list : List MasterNode) :
    (masterRows list).map Prod.fst = masterKeys list := by
  simp [masterRows, masterKeys]

theorem Has.setConf {v : Value} (conf : NodeConfig) (hv : v.topic ≠ .conf) (h : s.Has K v) :
    Has K { s with conf := conf } v := by
  cases v with
  | conf c => exact (hv rfl).elim
  | masters keys => exact h

theorem Has.setMasters {v : Value} (rows : List (Bytes × Option String)) (hv : v.topic ≠ .masters)
    (h : s.Has K v) : Has K { s with masterNodes := rows } v := by
  cases v with
  | conf c => exact h
  | masters keys => exact (hv rfl).elim

/-- What is written for good is what is current, or that is still on its way. -/
theorem Due.write (hi : s.Due K peer) {w : Value} {rest : NodeSync}
    (hsync : s.sync = .stopped → s'.sync = .stopped) (hm : s'.master = s.master)
    (hok : ∀ v ∈ s.master.current peer w.topic, w = v ∨ rest.OnWay K peer v)
    (hhas : s'.Has K w) (hkeep : ∀ v, v.topic ≠ w.topic → s.Has K v → s'.Has K v)
    (hrest : ∀ v, rest.OnWay K peer v → s'.OnWay K peer v)
    (hway : ∀ v, v.topic ≠ w.topic → s.OnWay K peer v → rest.OnWay K peer v) : s'.Due K peer := by
  refine hi.imp hsync fun hdue topic v hv => ?_
  rw [hm] at hv
  by_cases htopic : v.topic = w.topic
  · obtain rfl := Subscriptions.current_topic hv
    rcases hok v (htopic ▸ hv) with rfl | h
    · exact .inl hhas
    · exact .inr (hrest v h)
  · exact (hdue topic v hv).imp (hkeep v htopic) fun h => hrest v (hway v htopic h)

theorem Due.store (hi : s.Due K peer) {i : ℕ} (hok : s.Keeps K peer (.store i))
    (hs : s.step K peer (.store i) = some s') : s'.Due K peer := by
  obtain ⟨w, hw, h⟩ := Option.bind_eq_some_iff.1 hs
  have hway : ∀ v, v.topic ≠ w.value.topic → s.OnWay K peer v →
      OnWay K peer { s with stores := s.stores.eraseIdx i } v := by
    intro v hv h
    rcases h with h | h | ⟨x, hx, hxv⟩ | h
    · exact .inl h
    · exact .inr (.inl h)
    · rcases (Table.mem_iff_eraseIdx hw).1 hx with rfl | hx
      · exact (hv (by rw [hxv])).elim
      · exact .inr (.inr (.inl ⟨x, hx, hxv⟩))
    · exact .inr (.inr (.inr h))
  cases w with
  | localConf c =>
    obtain rfl := Option.some.inj h
    refine hi.imp_right fun hdue topic v hv => (hdue topic v hv).imp_right fun h => ?_
    rcases h with h | h | ⟨x, hx, hxv⟩ | h
    · exact .inl h
    · exact .inr (.inl h)
    · refine .inr (.inr (.inl ?_))
      have hset : ∀ y, y ∈ s.stores.set i (.conf c) ↔ y = .conf c ∨ y ∈ s.stores.eraseIdx i :=
        fun y => Table.mem_set_iff_eraseIdx (List.getElem?_eq_some_iff.1 hw).1
      rcases (Table.mem_iff_eraseIdx hw).1 hx with rfl | hx
      · exact ⟨.conf c, (hset _).2 (.inl rfl), hxv⟩
      · exact ⟨x, (hset _).2 (.inr hx), hxv⟩
    · exact .inr (.inr (.inr h))
  | conf c =>
    obtain rfl := Option.some.inj h
    have hwrites : s.writes (.store i)
        = some (.conf c, { s with stores := s.stores.eraseIdx i }) := by
      simp [writes, hw, Storing.value]
    exact hi.write id rfl (hok _ hwrites) rfl (fun _ hv => Has.setConf _ hv) (fun _ h => h) hway
  | masters list =>
    obtain rfl := Option.some.inj h
    have hwrites : s.writes (.store i)
        = some (.masters (masterKeys list), { s with stores := s.stores.eraseIdx i }) := by
      simp [writes, hw, Storing.value]
    exact hi.write id rfl (hok _ hwrites) (masterRows_fst list) (fun _ hv => Has.setMasters _ hv)
      (fun _ h => h) hway

/-- What a step of `async_sync` comes to. -/
inductive SyncStep (K : Crypto) (peer : String) (s : NodeSync) : NodeSync → Prop
  | answered {list : List MasterNode} {conf : NodeConfig}
      (h : s.sync = .fetch (some (.masterNodeList list)) (some (.nodeConfig conf))) :
      SyncStep K peer s { s with sync := .storeConf list conf }
  | stopped : SyncStep K peer s { s with sync := .stopped }
  | storeConf {list : List MasterNode} {conf : NodeConfig} {b : Bytes}
      (h : s.sync = .storeConf list conf) (hb : toVec conf = some b) :
      SyncStep K peer s { s with localConf := some b, sync := .storeList list conf }
  | storeList {list : List MasterNode} {conf : NodeConfig} (h : s.sync = .storeList list conf) :
      SyncStep K peer s { s with masterNodes := masterRows list, sync := .setConf conf }
  | setConf {conf : NodeConfig} (h : s.sync = .setConf conf) :
      SyncStep K peer s { s with conf := conf.update K, sync := .subscribe }
  | subscribe {name : String} (h : s.sync = .subscribe)
      (hname : s.master.db.getPeerConfName peer = some name) :
      SyncStep K peer s { s with sync := .naming name }
  | naming {name : String} (h : s.sync = .naming name) :
      SyncStep K peer s { s with
        master := { s.master with
          nodes := file s.master.nodes name peer
          subscribers := s.master.subscribers ++ [peer] }
        sync := .subscribed }

theorem of_syncStep (hs : s.syncStep K peer = some s') : SyncStep K peer s s' := by
  unfold syncStep at hs
  split at hs
  · rename_i hsync
    obtain rfl := Option.some.inj hs
    exact .answered hsync
  · cases hs
  · cases hs
  · obtain rfl := Option.some.inj hs
    exact .stopped
  · rename_i hsync
    split at hs <;> obtain rfl := Option.some.inj hs
    · rename_i b hb
      exact .storeConf hsync hb
    · exact .stopped
  · rename_i hsync
    obtain rfl := Option.some.inj hs
    exact .storeList hsync
  · rename_i hsync
    obtain rfl := Option.some.inj hs
    exact .setConf hsync
  · rename_i hsync
    split at hs <;> obtain rfl := Option.some.inj hs
    · rename_i name hname
      exact .subscribe hsync hname
    · exact .stopped
  · rename_i hsync
    obtain rfl := Option.some.inj hs
    exact .naming hsync
  · cases hs
  · cases hs

theorem Due.sync (hi : s.Due K peer) (hok : s.Keeps K peer .sync)
    (hs : s.step K peer .sync = some s') : s'.Due K peer := by
  cases of_syncStep hs with
  | answered hsync | storeConf hsync | subscribe hsync =>
    refine hi.moves (by simp [hsync]) fun topic v hv => ?_
    rw [hsync]
    cases v <;> exact id
  | stopped => exact .inl rfl
  | @storeList list conf hsync =>
    have hwrites : s.writes .sync
        = some (.masters (masterKeys list), { s with sync := .setConf conf }) := by
      simp [writes, hsync]
    refine hi.write (by simp [hsync]) rfl (hok _ hwrites) (masterRows_fst list)
      (fun _ hv => Has.setMasters _ hv) (fun _ h => h) fun v hv => OnWay.sync ?_
    rw [hsync]
    cases v with
    | conf c => exact id
    | masters keys => exact (hv rfl).elim
  | @setConf conf hsync =>
    have hwrites : s.writes .sync = some (.conf conf, { s with sync := .subscribe }) := by
      simp [writes, hsync]
    refine hi.write (by simp [hsync]) rfl (hok _ hwrites) rfl (fun _ hv => Has.setConf _ hv)
      (fun _ h => h) fun v hv => OnWay.sync ?_
    rw [hsync]
    cases v with
    | conf c => exact (hv rfl).elim
    | masters keys => exact id
  | naming hsync =>
    have hdue : Due K peer { s with sync := .subscribed } := by
      refine hi.moves (by simp [hsync]) fun topic v hv => ?_
      rw [hsync]
      cases v <;> exact False.elim
    exact hdue.master rfl rfl

theorem stopped_step {a : Act} (h : s.sync = .stopped) (hs : s.step K peer a = some s') :
    s'.sync = .stopped := by
  cases a with
  | commit =>
    simp only [NodeSync.step] at hs
    split at hs <;> exact Option.some.inj hs ▸ h
  | other =>
    simp only [NodeSync.step, Option.ite_none_left_eq_some, Option.map_eq_some_iff] at hs
    obtain ⟨-, m, -, rfl⟩ := hs
    exact h
  | external | incoming => exact Option.some.inj hs ▸ h
  | answerList | answerConf => simp [NodeSync.step, h] at hs
  | sync => simp [NodeSync.step, syncStep, h] at hs
  | tell | deliver =>
    obtain ⟨_, -, hs⟩ := Option.bind_eq_some_iff.1 hs
    exact Option.some.inj hs ▸ h
  | store =>
    obtain ⟨w, -, hs⟩ := Option.bind_eq_some_iff.1 hs
    cases w <;> exact Option.some.inj hs ▸ h

theorem Due.step {a : Act} (hok : s.Kept K peer a) (hs : s.step K peer a = some s')
    (hi : s.Due K peer) : s'.Due K peer := by
  by_cases hstop : s.sync = .stopped
  · exact .inl (stopped_step hstop hs)
  have hok := hok hstop
  cases a with
  | commit reqs => exact hi.commit hok hs
  | tell i => exact hi.tell hok hs
  | other p subscribes => exact hi.other hs
  | external | incoming => exact Option.some.inj hs ▸ hi.master rfl rfl
  | answerList => exact hi.answerList hs
  | answerConf => exact hi.answerConf hs
  | sync => exact hi.sync hok hs
  | deliver i => exact hi.deliver hs
  | store i => exact hi.store hok hs

/-- A node that joins ends up with what its master's tables say, in a run in which nothing that
misses it and nothing outdated that is stored is left at that. -/
theorem joined_run {as : List Act} (hinit : s.sync = .fetch none none)
    (hok : Run.Along (step K peer) (Kept K peer) s as) :
    Run.Throughout (step K peer) (fun s => s.Settled → s.UpToDate K peer) s as := by
  refine (Run.throughout_induction (I := Due K peer) (fun _ _ _ hok hs hi => Due.step hok hs hi)
    hok ?_).mono fun s hi => hi.upToDate
  refine .inr fun topic v hv => .inr (.inr (.inr (.inr ?_)))
  rw [hinit]
  cases v <;> trivial

section Toy

def toyNode : NodeSync where
  master := Subscriptions.toySubscriptions
  conf := .default toy

/-- A block that sets the node part of the default config. -/
def setDefault (reportTimeframe : UInt64) : List RequestType :=
  [.order (.setConfig "default" (.default toy)
    { NodeConfig.default toy with reportTimeframe := reportTimeframe })]

/-- The node fetches, keeps what it got and subscribes. -/
def joins : List Act :=
  [.answerList, .answerConf] ++ List.replicate 6 .sync

/-- A config is set after the node has joined, and arrives. -/
def setsAfter : List Act :=
  joins ++ .commit (setDefault 7) :: List.replicate 4 (.tell 0) ++ [.deliver 0, .store 0, .store 0]

theorem joined_run_set :
    ((Run.run (step toy "p") toyNode setsAfter).any fun s => s.Settled ∧ s.conf.reportTimeframe = 7)
      ∧ Run.Throughout (step toy "p") (fun s => s.Settled → s.UpToDate toy "p") toyNode setsAfter :=
  ⟨by decide +kernel, joined_run rfl (by decide +kernel)⟩

/-- A config that is set when the master has answered and the node has not subscribed. -/
theorem not_joined_run : ∃ s, Run.run (step toy "p") toyNode
    ([.answerList, .answerConf, .commit (setDefault 7), .tell 0] ++ List.replicate 6 .sync) = some s
      ∧ s.Settled ∧ ¬ s.UpToDate toy "p" := by
  have hrun : (Run.run (step toy "p") toyNode
      ([.answerList, .answerConf, .commit (setDefault 7), .tell 0] ++ List.replicate 6 .sync)).any
        fun s => s.Settled ∧ ((s.master.db.getPeerConf "p").bind (fromSlice NodeConfig)).any
          fun c => s.conf ≠ c.update toy := by decide +kernel
  obtain ⟨s, hs, hsettled, h⟩ := Run.exists_of_any hrun
  obtain ⟨c, hc, hne⟩ := Run.exists_of_any h
  obtain ⟨b, hb, hc⟩ := Option.bind_eq_some_iff.1 hc
  exact ⟨s, hs, hsettled, fun hup => hne (hup.1 b c hb hc)⟩

end Toy

end NodeSync

end Nyumt
