import Nyumt.OwnConfig
import Nyumt.Proofs.Completeness

/-!
# Whether a master follows its own config

What a master should hold is in its tables: the config of its own node, by name, and what the row of
that name says. Where the tables change the updates of the block say how, so that what memory lacks
is on its way in some task (`due_step`). It gets there unless a task gives it up, or another one
writes what is older over it: in a run without such steps memory is right whenever no task is left
(`follows_run`).
-/

namespace Nyumt

open Borsh

/-- The orders that set a config, or give a node another one. -/
def Order.Configures : Order → Prop
  | .setConfig _ _ _ | .changeNodeConfig _ _ => True
  | _ => False

section Tables

variable {t t' : Tables}

theorem confOf_execAll {key : Bytes} : ∀ {t t' : Tables} {reqs : List RequestType},
    (∀ o, .order o ∈ reqs → o.Configures) → t.execAll reqs = some t' →
      t'.confOf key = (t.confOf key).map (lastAssignment key reqs).getD
  | t, t', [], _, h => by
    simp only [Tables.execAll, Option.some.injEq] at h
    subst h
    exact Option.map_id'.symm
  | t, t', .order o :: reqs, ho, h => by
    obtain ⟨⟨t₁, u⟩, hx, hrest⟩ := Option.bind_eq_some_iff.1 h
    have hlast : lastAssignment key (.order o :: reqs)
        = (lastAssignment key reqs).or (o.assignment key) := findSomeRev?_cons _ _ _
    rw [confOf_execAll (fun o ho' => ho o (List.mem_cons_of_mem _ ho')) hrest, confOf_exec hx,
      hlast]
    have hc := ho o List.mem_cons_self
    cases o <;> try exact hc.elim
    case setConfig => simp only [Order.onConf, Order.assignment, Option.or_none]
    case changeNodeConfig k name =>
      simp only [Order.onConf, Order.assignment]
      split_ifs
      · rcases t.confOf key with _ | c
        · rfl
        · rcases lastAssignment key reqs with _ | n <;> rfl
      · rw [Option.or_none]

theorem find?_config_exec {o : Order} {u : Update} (h : t.exec o = some (t', u))
    (ho : o.Configures) (name : String) :
    (o.setting name = none ∧ (t'.config.find? fun r => r.name = name)
        = t.config.find? fun r => r.name = name)
      ∨ ∃ c, o.setting name = some c
        ∧ ∃ r ∈ t'.config.find? fun r => r.name = name, r.Holds c := by
  have hb := (bindable_of_exec h).2
  obtain ⟨rfl, -⟩ := of_exec h
  cases o <;> try exact ho.elim
  case setConfig n master node =>
    have hfind := Table.find?_upsert (fun r : ConfigRow =>
      { r with masterConf := (toVec master).getD [], nodeConf := (toVec node).getD [] })
      ConfigRow.name (fun _ => rfl) ⟨n, (toVec master).getD [], (toVec node).getD []⟩ name t.config
    have hholds : ∀ o : Option ConfigRow, (o.elim (⟨n, (toVec master).getD [],
        (toVec node).getD []⟩ : ConfigRow) fun r => { r with
          masterConf := (toVec master).getD [], nodeConf := (toVec node).getD [] }).Holds
        (master, node) := by
      rintro (_ | r) <;> exact holds_of_bindable hb _
    simp only [Order.onConfig, hfind]
    split_ifs with hn
    · exact .inr ⟨(master, node), if_pos hn, _, rfl, hholds _⟩
    · exact .inl ⟨if_neg hn, rfl⟩
  case changeNodeConfig => exact .inl ⟨rfl, rfl⟩

theorem find?_config_execAll {reqs : List RequestType} (name : String)
    (ho : ∀ o, .order o ∈ reqs → o.Configures) (h : t.execAll reqs = some t') :
    (lastSetting name reqs = none ∧ (t'.config.find? fun r => r.name = name)
        = t.config.find? fun r => r.name = name)
      ∨ ∃ c, lastSetting name reqs = some c
        ∧ ∃ r ∈ t'.config.find? fun r => r.name = name, r.Holds c := by
  refine execAll_setting (A := fun u => (t'.config.find? fun r => r.name = name)
    = u.config.find? fun r => r.name = name) (fun o hmem u u' _ hx hu => ?_) h rfl
  rw [hu]
  exact find?_config_exec hx (ho o hmem) name

end Tables

inductive Part
  | name
  | conf
  deriving DecidableEq

/-- What it has or may come to have for such a part. -/
inductive Own
  | name (name : String)
  | conf (master : MasterConfig) (node : NodeConfig)
  /-- What the row of this name says when it is read. -/
  | row (name : String)

def Own.part : Own → Part
  | .name _ => .name
  | .conf _ _ | .row _ => .conf

section Fits

variable (db : Database) (key : PublicKey)

/-- The config of the own node. -/
def Database.ownName : Option String := db.toTables.confOf key.bytes

def Database.ownRow : Option ConfigRow := (db.ownName key).bind db.getNodeConf

instance (r : ConfigRow) (c : MasterConfig × NodeConfig) : Decidable (r.Holds c) :=
  inferInstanceAs (Decidable (_ ∧ _))

/-- It is what the tables say. -/
def Own.Fits : Own → Prop
  | .name n | .row n => db.ownName key = some n
  | .conf master node => ∃ r ∈ db.ownRow key, r.Holds (master, node)

instance : DecidablePred (Own.Fits db key)
  | .name _ | .row _ => inferInstanceAs (Decidable (_ = _))
  | .conf _ _ => inferInstanceAs (Decidable (∃ r ∈ db.ownRow key, _))

/-- What an update has for the master. -/
def Update.own : Update → List Own
  | .configUpdate _ master node => [.conf master node]
  | .nodeConfigChange k name => if k = key then [.name name, .row name] else []
  | .masterNodeListUpdate | .none => []

def Refreshing.carries : Refreshing → List Own
  | .committed us | .read us => us.flatMap (Update.own key)
  | .write master node us => .conf master node :: us.flatMap (Update.own key)
  | .own name master node us => .name name :: .conf master node :: us.flatMap (Update.own key)
  | .rename name us => .name name :: us.flatMap (Update.own key)

/-- Some of the tasks has what the tables say. -/
def OnWay (tasks : List Refreshing) (p : Part) : Prop :=
  ∃ t ∈ tasks, ∃ v ∈ t.carries key, v.part = p ∧ v.Fits db key

instance (tasks : List Refreshing) : DecidablePred (OnWay db key tasks) := fun _ =>
  inferInstanceAs (Decidable (∃ t ∈ tasks, ∃ v ∈ t.carries key, _))

end Fits

namespace Subscriptions

variable (m : Subscriptions)

def held : Part → Own
  | .name => .name m.confName
  | .conf => .conf m.conf.master m.conf.node

def Agrees (p : Part) : Prop := (m.held p).Fits m.db m.pubkey

variable {K : Crypto} {m}

theorem of_notice_config {u : Update} {name : String} {master : MasterConfig} {node : NodeConfig}
    (h : m.notice K u = some (some (.config name master node))) :
    u = .configUpdate name master node := by
  cases u with
  | configUpdate n a b =>
    simp only [notice, Option.some.injEq, Notice.config.injEq] at h
    obtain ⟨rfl, rfl, rfl⟩ := h
    rfl
  | nodeConfigChange k n =>
    obtain ⟨_, -, _, -, _, -, ⟨-, hn⟩ | ⟨_, -, hn⟩⟩ := of_notice_change h <;> cases hn
  | masterNodeListUpdate | none => simp [notice] at h

theorem of_notice_own {u : Update} {name : String} {master : MasterConfig} {node : NodeConfig}
    (h : m.notice K u = some (some (.own name master node))) :
    u = .nodeConfigChange m.pubkey name
      ∧ ∃ r ∈ m.db.getNodeConf name, r.Holds (master, node) := by
  cases u with
  | nodeConfigChange k n =>
    obtain ⟨row, hrow, a, ha, b, hb, ⟨hk, hn⟩ | ⟨_, -, hn⟩⟩ := of_notice_change h
    · obtain ⟨rfl, rfl, rfl⟩ := Notice.own.inj hn
      exact ⟨by rw [hk], row, hrow, ser_of_fromSlice ha, ser_of_fromSlice hb⟩
    · cases hn
  | configUpdate | masterNodeListUpdate | none => simp [notice] at h

end Subscriptions

namespace Refreshing

variable (K : Crypto) (m : Subscriptions)

/-- What its next step makes the master's own. -/
def writes : Refreshing → Option Own
  | .write master node _ | .own _ master node _ => some (.conf master node)
  | .rename name _ => some (.name name)
  | .committed _ | .read _ => none

/-- What its next step gives up: nobody is filed, `conf_name` is another name, the row cannot be
read, or it panics over the key of another node. -/
def drops : Refreshing → List Own
  | .committed us => if m.nodes.keys = [] then (committed us).carries m.pubkey else []
  | .read (u :: us) =>
    match m.notice K u with
    | none => (read (u :: us)).carries m.pubkey
    | some (some (.config name _ _)) => if m.confName = name then [] else u.own m.pubkey
    | some (some (.own _ _ _)) => []
    | some _ => u.own m.pubkey
  | .read [] | .write _ _ _ | .own _ _ _ _ | .rename _ _ => []

variable {K m}

@[simp] theorem effect_db (t : Refreshing) : (t.effect K m).db = m.db := by cases t <;> rfl

@[simp] theorem effect_pubkey (t : Refreshing) : (t.effect K m).pubkey = m.pubkey := by
  cases t <;> rfl

/-- The hashes are no part of what a row holds. -/
theorem agrees_effect {t : Refreshing} {v : Own} (h : v ∈ t.writes) :
    (t.effect K m).Agrees v.part ↔ v.Fits m.db m.pubkey := by
  cases t <;> simp only [writes, Option.mem_def, Option.some.injEq, reduceCtorEq] at h <;>
    subst h <;> exact Iff.rfl

theorem agrees_effect_of_not {t : Refreshing} {p : Part} (h : ∀ v ∈ t.writes, v.part ≠ p) :
    (t.effect K m).Agrees p ↔ m.Agrees p := by
  cases t <;> cases p <;> try exact Iff.rfl
  all_goals exact (h _ rfl rfl).elim

theorem of_notice {u : Update} {n : Notice} {us : List Update} {v : Own}
    (hn : m.notice K u = some (some n)) (hv : v ∈ u.own m.pubkey) (hfit : v.Fits m.db m.pubkey) :
    ∃ w : Own, w.part = v.part ∧ w.Fits m.db m.pubkey
      ∧ (w ∈ (read (u :: us)).drops K m ∨ w ∈ (read (u :: us)).writes
        ∨ ∃ t' ∈ (read (u :: us)).next K m, w ∈ t'.carries m.pubkey) := by
  simp only [drops, next, hn]
  cases n with
  | config name master node =>
    obtain rfl := Subscriptions.of_notice_config hn
    refine ⟨v, rfl, hfit, ?_⟩
    simp only
    split_ifs
    · obtain rfl := List.mem_singleton.1 hv
      exact .inr (.inr ⟨_, rfl, List.mem_cons_self⟩)
    · exact .inl hv
  | own name master node =>
    obtain ⟨rfl, r, hr, hholds⟩ := Subscriptions.of_notice_own hn
    rw [Update.own, if_pos rfl] at hv
    rcases List.mem_cons.1 hv with rfl | hv
    · exact ⟨_, rfl, hfit, .inr (.inr ⟨_, rfl, List.mem_cons_self⟩)⟩
    obtain rfl := List.mem_singleton.1 hv
    -- the row that was read is the own node's
    have hrow : r ∈ m.db.ownRow m.pubkey := by
      have hname : m.db.ownName m.pubkey = some name := hfit
      rw [Database.ownRow, hname]
      exact hr
    exact ⟨.conf master node, rfl, ⟨r, hrow, hholds⟩,
      .inr (.inr ⟨_, rfl, List.mem_cons_of_mem _ List.mem_cons_self⟩)⟩
  | change | masters => exact ⟨v, rfl, hfit, .inl hv⟩

/-- What a task has that is right it gives up, makes the master's own, or has still. -/
theorem of_carries {t : Refreshing} {v : Own} (hv : v ∈ t.carries m.pubkey)
    (hfit : v.Fits m.db m.pubkey) : ∃ w : Own, w.part = v.part ∧ w.Fits m.db m.pubkey
      ∧ (w ∈ t.drops K m ∨ w ∈ t.writes ∨ ∃ t' ∈ t.next K m, w ∈ t'.carries m.pubkey) := by
  cases t with
  | committed us =>
    refine ⟨v, rfl, hfit, ?_⟩
    simp only [drops, next]
    split_ifs
    · exact .inl hv
    · exact .inr (.inr ⟨_, rfl, hv⟩)
  | read us =>
    rcases us with _ | ⟨u, us⟩
    · simp [carries] at hv
    rcases hn : m.notice K u with _ | _ | n
    · simp only [drops, hn]
      exact ⟨v, rfl, hfit, .inl hv⟩
    all_goals rcases List.mem_append.1 hv with hv | hv
    · simp only [drops, hn]
      exact ⟨v, rfl, hfit, .inl hv⟩
    · simp only [next, hn]
      exact ⟨v, rfl, hfit, .inr (.inr ⟨_, rfl, hv⟩)⟩
    · exact of_notice hn hv hfit
    · refine ⟨v, rfl, hfit, .inr (.inr ?_)⟩
      simp only [next, hn]
      cases n with
      | config name master node =>
        simp only
        split_ifs
        · exact ⟨_, rfl, List.mem_cons_of_mem _ hv⟩
        · exact ⟨_, rfl, hv⟩
      | own name master node =>
        exact ⟨_, rfl, List.mem_cons_of_mem _ (List.mem_cons_of_mem _ hv)⟩
      | change | masters => exact ⟨_, rfl, hv⟩
  | write master node us =>
    rcases List.mem_cons.1 hv with rfl | hv
    · exact ⟨_, rfl, hfit, .inr (.inl rfl)⟩
    · exact ⟨v, rfl, hfit, .inr (.inr ⟨_, rfl, hv⟩)⟩
  | own name master node us =>
    rcases List.mem_cons.1 hv with rfl | hv
    · exact ⟨_, rfl, hfit, .inr (.inr ⟨_, rfl, List.mem_cons_self⟩)⟩
    rcases List.mem_cons.1 hv with rfl | hv
    · exact ⟨_, rfl, hfit, .inr (.inl rfl)⟩
    · exact ⟨v, rfl, hfit, .inr (.inr ⟨_, rfl, List.mem_cons_of_mem _ hv⟩)⟩
  | rename name us =>
    rcases List.mem_cons.1 hv with rfl | hv
    · exact ⟨_, rfl, hfit, .inr (.inl rfl)⟩
    · exact ⟨v, rfl, hfit, .inr (.inr ⟨_, rfl, hv⟩)⟩

end Refreshing

namespace OwnConfig

variable {K : Crypto} {s s' : OwnConfig}

/-- `conf_name` is the config of the own node, and `conf` what the row of that name says. -/
def Follows (s : OwnConfig) : Prop :=
  s.master.db.ownName s.master.pubkey = some s.master.confName
    ∧ ∃ r ∈ s.master.db.getNodeConf s.master.confName,
      r.Holds (s.master.conf.master, s.master.conf.node)

instance : DecidablePred Follows := fun _ => inferInstanceAs (Decidable (_ ∧ ∃ r ∈ _, _))

section Alone

variable {m m' : Subscriptions}

theorem step_alone (m : Subscriptions) (t : Refreshing) :
    step K ⟨m, [t]⟩ (.task 0) = some ⟨t.effect K m, (t.next K m).toList⟩ := by
  cases t <;> rfl

/-- A task that nothing comes between does what `send_update` does. -/
theorem reaches_sendUpdate : ∀ (m : Subscriptions) (us : List Update),
    Run.Reaches (step K) ⟨m, [.read us]⟩ ⟨(m.sendUpdate K us).1, []⟩
  | m, [] => .head (step_alone m _) (.refl _)
  | m, u :: us => by
    refine .head (step_alone m _) ?_
    rw [Refreshing.next, Subscriptions.sendUpdate]
    rcases m.notice K u with _ | _ | n
    · exact .refl _
    · exact reaches_sendUpdate m us
    cases n with
    | config name master node =>
      simp only [Subscriptions.adopt]
      split_ifs
      · exact .head (step_alone _ _) (reaches_sendUpdate _ us)
      · exact reaches_sendUpdate m us
    | own name master node =>
      exact .head (step_alone _ _) (.head (step_alone _ _) (reaches_sendUpdate _ us))
    | change | masters => exact reaches_sendUpdate m us

/-- Blocks that come one at a time are those of `Subscriptions.step`. -/
theorem reaches_block {reqs : List RequestType} (h : m.step K (.block reqs) = some m') :
    Run.Reaches (step K) ⟨m, []⟩ ⟨m', []⟩ := by
  simp only [Subscriptions.step] at h
  split at h <;> simp only [Option.some.injEq] at h <;> subst h
  · rename_i db us hblock
    have hcommit : step K ⟨m, []⟩ (.commit reqs) = some ⟨{ m with db := db }, [.committed us]⟩ := by
      simp only [step, hblock]
      rfl
    refine .head hcommit (.head (step_alone _ _) ?_)
    rw [Subscriptions.publish, Refreshing.next]
    split_ifs
    · exact .refl _
    · exact reaches_sendUpdate _ us
  · exact .refl _

end Alone

/-- What a task writes is what the tables say, or a task has that still; what they say and a task
gives up is held, or a task has it still. -/
def Keeps (K : Crypto) (s : OwnConfig) : Act → Prop
  | .task i => ∀ t ∈ s.tasks[i]?,
    (∀ v ∈ t.writes, v.Fits s.master.db s.master.pubkey
      ∨ OnWay s.master.db s.master.pubkey (s.left K i) v.part)
    ∧ ∀ v ∈ t.drops K s.master, v.Fits s.master.db s.master.pubkey →
      s.master.Agrees v.part ∨ OnWay s.master.db s.master.pubkey (s.left K i) v.part
  | .commit _ | .nodes _ => True

instance (m : Subscriptions) : DecidablePred m.Agrees := fun p =>
  inferInstanceAs (Decidable ((m.held p).Fits _ _))

instance (s : OwnConfig) : DecidablePred (Keeps K s)
  | .task _ => by unfold Keeps; infer_instance
  | .commit _ | .nodes _ => isTrue trivial

/-- What the tables say is held, or on its way. -/
def Due (s : OwnConfig) : Prop := ∀ p,
  s.master.Agrees p ∨ OnWay s.master.db s.master.pubkey s.tasks p

theorem name_of_getNodeConf {db : Database} {name : String} {row : ConfigRow}
    (h : db.getNodeConf name = some row) : row.name = name := by
  rw [Database.getNodeConf] at h
  simpa using List.find?_some h

theorem due_start {db : Database} {pubkey : PublicKey} {external : Option String}
    (h : start db pubkey external = some s) : s.Due := by
  simp only [start, Database.loadLocalMasterNodeConf, Option.bind_eq_bind,
    Option.bind_eq_some_iff, Option.pure_def, Option.some.injEq] at h
  obtain ⟨row, ⟨n, hn, hrow⟩, master, hm, node, hc, rfl⟩ := h
  have hname : db.ownName pubkey = some n.conf := by
    rw [Database.ownName, Tables.confOf, hn]
    rfl
  have hconf : row.name = n.conf := name_of_getNodeConf hrow
  refine fun p => .inl ?_
  cases p with
  | name => exact hname.trans (congrArg some hconf.symm)
  | conf =>
    refine ⟨row, ?_, ser_of_fromSlice hm, ser_of_fromSlice hc⟩
    rw [Database.ownRow, hname]
    exact hrow

theorem Due.exists_name (h : s.Due) : ∃ n, s.master.db.ownName s.master.pubkey = some n := by
  rcases h .name with hagrees | ⟨_, -, v, -, hpart, hfit⟩
  · exact ⟨_, hagrees⟩
  · cases v with
    | name => exact ⟨_, hfit⟩
    | conf | row => cases hpart

theorem due_iff_follows (hs : s.tasks = []) : s.Due ↔ s.Follows := by
  have hway : ∀ p, ¬ OnWay s.master.db s.master.pubkey s.tasks p := by
    rintro p ⟨t, ht, -⟩
    rw [hs] at ht
    exact List.not_mem_nil ht
  have hrow : s.master.db.ownName s.master.pubkey = some s.master.confName →
      s.master.db.ownRow s.master.pubkey = s.master.db.getNodeConf s.master.confName := by
    intro hname
    rw [Database.ownRow, hname, Option.bind_some]
  constructor
  · intro h
    have hname : s.master.Agrees .name := (h .name).resolve_right (hway _)
    have hconf : s.master.Agrees .conf := (h .conf).resolve_right (hway _)
    obtain ⟨r, hr, hholds⟩ := hconf
    exact ⟨hname, r, hrow hname ▸ hr, hholds⟩
  · rintro ⟨hname, r, hr, hholds⟩ p
    cases p with
    | name => exact .inl hname
    | conf => exact .inl ⟨r, (hrow hname).symm ▸ hr, hholds⟩

theorem due_task {i : ℕ} (hok : s.Keeps K (.task i)) (hs : s.step K (.task i) = some s')
    (h : s.Due) : s'.Due := by
  obtain ⟨t, ht, hs⟩ := Option.bind_eq_some_iff.1 hs
  split_ifs at hs
  simp only [Option.some.injEq] at hs
  obtain ⟨hwrites, hdrops⟩ := hok t ht
  subst hs
  intro p
  simp only [Refreshing.effect_db, Refreshing.effect_pubkey]
  by_cases hp : ∃ v ∈ t.writes, v.part = p
  · obtain ⟨v, hv, rfl⟩ := hp
    exact (hwrites v hv).imp_left (Refreshing.agrees_effect hv).2
  have hp : ∀ v ∈ t.writes, v.part ≠ p := fun v hv he => hp ⟨v, hv, he⟩
  rw [Refreshing.agrees_effect_of_not hp]
  rcases h p with hagrees | ⟨t', ht', v, hv, rfl, hfit⟩
  · exact .inl hagrees
  rcases (Table.mem_iff_eraseIdx ht).1 ht' with rfl | ht'
  · obtain ⟨w, hw, hwfit, hdrop | hwrite | ⟨t', ht', hcarry⟩⟩ :=
      Refreshing.of_carries (K := K) hv hfit
    · exact hw ▸ hdrops w hdrop hwfit
    · exact (hp w hwrite hw).elim
    · refine .inr ⟨t', List.mem_append_right _ ?_, w, hcarry, hw, hwfit⟩
      rw [ht, Option.bind_some]
      exact Option.mem_toList.2 ht'
  · exact .inr ⟨t', List.mem_append_left _ ht', v, hv, rfl, hfit⟩

/-- A step that does not keep to this loses what the tables say. -/
theorem keeps_of_due {i : ℕ} (hs : s.step K (.task i) = some s') (h : s'.Due) :
    s.Keeps K (.task i) := by
  obtain ⟨t, ht, hs⟩ := Option.bind_eq_some_iff.1 hs
  split_ifs at hs
  simp only [Option.some.injEq] at hs
  subst hs
  intro t' ht'
  obtain rfl : t = t' := Option.some.inj (ht.symm.trans ht')
  have hpart : ∀ p, (t.effect K s.master).Agrees p
      ∨ OnWay s.master.db s.master.pubkey (s.left K i) p := by
    simpa only [Due, Refreshing.effect_db, Refreshing.effect_pubkey] using h
  constructor
  · exact fun v hv => (hpart v.part).imp_left (Refreshing.agrees_effect hv).1
  · intro v hv _
    have hnone : t.writes = none := by
      cases t <;> first | rfl | simp [Refreshing.drops] at hv
    refine (hpart v.part).imp_left (Refreshing.agrees_effect_of_not fun w hw => ?_).1
    simp [hnone] at hw

section Commit

variable {db : Database} {reqs : List RequestType}

/-- What an order tells the master is on its way. -/
theorem onWay_committed {o : Order} (ho : .order o ∈ reqs) {v : Own}
    (hv : v ∈ o.update.own s.master.pubkey) (hfit : v.Fits db s.master.pubkey) :
    OnWay db s.master.pubkey
      (s.committed db (reqs.map fun | .order o => o.update)).tasks v.part := by
  refine ⟨_, List.mem_append_right _ (List.mem_singleton_self _), v, ?_, rfl, hfit⟩
  exact List.mem_flatMap.2 ⟨_, List.mem_map.2 ⟨.order o, ho, rfl⟩, hv⟩

theorem Due.committed (h : s.Due) (us : List Update) {p : Part} (hp : ∀ v : Own, v.part = p →
    v.Fits s.master.db s.master.pubkey → v.Fits db s.master.pubkey) :
    (s.committed db us).master.Agrees p ∨ OnWay db s.master.pubkey (s.committed db us).tasks p := by
  rcases h p with hagrees | ⟨t, ht, v, hv, hpart, hfit⟩
  · exact .inl (hp _ (by cases p <;> rfl) hagrees)
  · exact .inr ⟨t, List.mem_append_left _ ht, v, hv, hpart, hp v hpart hfit⟩

/-- The block gives the own node the config of this name. -/
theorem due_assigned {n : String} (hname : db.ownName s.master.pubkey = some n)
    (hlast : lastAssignment s.master.pubkey.bytes reqs = some n) :
    (s.committed db (reqs.map fun | .order o => o.update)).Due := by
  obtain ⟨⟨o⟩, ho, hon⟩ := of_findSomeRev? hlast
  have hown : o.update.own s.master.pubkey = [.name n, .row n] := by
    cases o <;> simp only [Order.assignment, reduceCtorEq] at hon
    split_ifs at hon with hk
    obtain rfl := Option.some.inj hon
    exact if_pos (PublicKey.bytes_injective hk)
  intro p
  cases p with
  | name => exact .inr (onWay_committed ho (v := .name n) (by simp [hown]) hname)
  | conf => exact .inr (onWay_committed ho (v := .row n) (by simp [hown]) hname)

/-- The own node keeps its config, and the block sets that. -/
theorem due_set {n : String} {c : MasterConfig × NodeConfig} {r : ConfigRow} (h : s.Due)
    (hsame : db.ownName s.master.pubkey = s.master.db.ownName s.master.pubkey)
    (hset : lastSetting n reqs = some c) (hrow : r ∈ db.ownRow s.master.pubkey)
    (hholds : r.Holds c) : (s.committed db (reqs.map fun | .order o => o.update)).Due := by
  intro p
  cases p with
  | name =>
    refine h.committed _ fun v hv hfit => ?_
    cases v with
    | name => exact hsame.trans hfit
    | conf | row => cases hv
  | conf =>
    obtain ⟨⟨o⟩, ho, hoc⟩ := of_findSomeRev? hset
    refine .inr (onWay_committed ho (v := .conf c.1 c.2) ?_ ⟨r, hrow, hholds⟩)
    cases o <;> simp only [Order.setting, reduceCtorEq] at hoc
    split_ifs at hoc
    obtain rfl := Option.some.inj hoc
    exact List.mem_singleton_self _

theorem due_same (h : s.Due) (us : List Update)
    (hname : db.ownName s.master.pubkey = s.master.db.ownName s.master.pubkey)
    (hrow : db.ownRow s.master.pubkey = s.master.db.ownRow s.master.pubkey) :
    (s.committed db us).Due := by
  refine fun p => h.committed us fun v _ hfit => ?_
  cases v with
  | name | row => exact hname.trans hfit
  | conf =>
    obtain ⟨r, hr, hholds⟩ := hfit
    exact ⟨r, hrow ▸ hr, hholds⟩

theorem due_commit {us : List Update} (hreqs : ∀ o, .order o ∈ reqs → o.Configures)
    (hblock : interpretBlock s.master.db reqs = some (db, us)) (h : s.Due) :
    (s.committed db us).Due := by
  obtain rfl := updates_interpretBlock hblock
  have hx := execAll_of_interpretBlock hblock
  obtain ⟨n, hn⟩ := h.exists_name
  have hname : db.ownName s.master.pubkey
      = some ((lastAssignment s.master.pubkey.bytes reqs).getD n) := by
    rw [Database.ownName, confOf_execAll hreqs hx]
    exact congrArg (Option.map _) hn
  rcases hlast : lastAssignment s.master.pubkey.bytes reqs with _ | n'
  · rw [hlast, Option.getD_none] at hname
    have hrow : db.ownRow s.master.pubkey = db.getNodeConf n := by
      rw [Database.ownRow, hname, Option.bind_some]
    rcases find?_config_execAll n hreqs hx with ⟨-, hsame⟩ | ⟨c, hset, r, hr, hholds⟩
    · refine due_same h _ (hname.trans hn.symm) ?_
      rw [hrow, Database.ownRow, hn]
      exact hsame
    · exact due_set h (hname.trans hn.symm) hset (hrow ▸ hr) hholds
  · rw [hlast, Option.getD_some] at hname
    exact due_assigned hname hlast

end Commit

def Act.Configures : Act → Prop
  | .commit reqs => ∀ o, .order o ∈ reqs → o.Configures
  | .task _ | .nodes _ => True

theorem due_step {a : Act} (ha : a.Configures) (hok : s.Keeps K a) (hs : s.step K a = some s')
    (h : s.Due) : s'.Due := by
  cases a with
  | commit reqs =>
    simp only [step] at hs
    split at hs <;> simp only [Option.some.injEq] at hs <;> subst hs
    · rename_i db us hblock
      exact due_commit ha hblock h
    · exact h
  | task i => exact due_task hok hs h
  | nodes nodes =>
    simp only [step, Option.some.injEq] at hs
    subst hs
    exact h

/-- The steps that keep to this are those that lose nothing of what the tables say. -/
theorem due_run_iff {db : Database} {pubkey : PublicKey} {external : Option String} {as : List Act}
    (hstart : start db pubkey external = some s) (hblocks : ∀ a ∈ as, a.Configures)
    (hr : Run.run (step K) s as = some s') :
    Run.Throughout (step K) Due s as ↔ Run.Along (step K) (Keeps K) s as := by
  refine Run.throughout_iff_along (I := Due) (fun _ h => h)
    (fun s a s' ha hok hs h => due_step ha hok hs h) (fun s a s' _ hs _ h => ?_)
    (Run.along_of_forall hblocks) hr (due_start hstart)
  cases a with
  | task i => exact keeps_of_due hs h
  | commit | nodes => trivial

/-- A master follows its own config in a run in which no task gives up what is right, and none
writes anything else over it, unless it is there or on its way again. -/
theorem follows_run {db : Database} {pubkey : PublicKey} {external : Option String} {as : List Act}
    (hstart : start db pubkey external = some s) (hblocks : ∀ a ∈ as, a.Configures)
    (hok : Run.Along (step K) (Keeps K) s as) :
    Run.Throughout (step K) (fun u => u.tasks = [] → u.Follows) s as := by
  have hboth : Run.Along (step K) (fun s a => a.Configures ∧ s.Keeps K a) s as :=
    (Run.along_of_forall hblocks).and hok
  refine (Run.throughout_induction (I := Due) ?_ hboth (due_start hstart)).mono
    fun u h hu => (due_iff_follows hu).1 h
  exact fun s a s' hok hs h => due_step hok.1 hok.2 hs h

section Toy

def setLonger : Order :=
  .setConfig "default" { MasterConfig.default toy with blockVoteTime := 9000 } (.default toy)

/-- A node has subscribed, and the task of a block runs to its end. -/
def heardConfig : List Act :=
  .nodes (AList.singleton "default" ["p"]) :: .commit [.order setLonger]
    :: List.replicate 4 (.task 0)

theorem follows_run_heard : ∃ s, start toyGenesis (toyKey 0) "" = some s
    ∧ Run.Throughout (step toy) (fun u => u.tasks = [] → u.Follows) s heardConfig := by
  have hok : (start toyGenesis (toyKey 0) "").any fun s =>
      Run.Along (step toy) (Keeps toy) s heardConfig := by decide +kernel
  obtain ⟨s, hs, hok⟩ := Run.exists_of_any hok
  refine ⟨s, hs, follows_run hs (fun a ha => ?_) hok⟩
  simp only [heardConfig, List.replicate, List.mem_cons, List.not_mem_nil, or_false] at ha
  rcases ha with rfl | rfl | rfl | rfl | rfl | rfl <;> try exact trivial
  intro o ho
  obtain rfl : o = setLonger := by simpa using ho
  exact trivial

/-- Nobody has subscribed: the task of the block ends at once, and `conf` is the old one. -/
theorem not_follows : ∃ s u, start toyGenesis (toyKey 0) "" = some s
    ∧ Run.run (step toy) s [.commit [.order setLonger], .task 0] = some u
    ∧ u.tasks = [] ∧ ¬ u.Follows := by
  have hrun : (start toyGenesis (toyKey 0) "").any fun s =>
      (Run.run (step toy) s [.commit [.order setLonger], .task 0]).any fun u =>
        u.tasks = [] ∧ ¬ u.Follows := by decide +kernel
  obtain ⟨s, hs, hrun⟩ := (Option.any_eq_true _ _).1 hrun
  obtain ⟨u, hu, htasks, hnot⟩ := Run.exists_of_any hrun
  exact ⟨s, u, hs, hu, htasks, hnot⟩

end Toy

end OwnConfig

end Nyumt
