import Nyumt.Toy

/-!
# What a block's updates leave out

`send_update` knows of a block what `interpret_block` returned. That says of every config that is
set what it is now, and of a node's config wherever `ChangeNodeConfig` changes it. It says nothing
of a master that `RemoveNode` removes, nor of a node that is removed and added again, and has the
default config then (`complete_iff`).
-/

namespace Nyumt

open Borsh

/-- What the last `ConfigUpdate` for a name carries. -/
def lastConfig (us : List Update) (name : String) : Option (MasterConfig × NodeConfig) :=
  us.findSomeRev? fun
    | .configUpdate n master node => if n = name then some (master, node) else none
    | _ => none

def lastChange (us : List Update) (key : Bytes) : Option String :=
  us.findSomeRev? fun
    | .nodeConfigChange k name => if k.bytes = key then some name else none
    | _ => none

namespace Tables

def masterKeys (t : Tables) : List Bytes := (t.node.filter (·.masterNode)).map (·.publicKey)

def confOf (t : Tables) (key : Bytes) : Option String :=
  (t.node.find? fun n => n.publicKey = key).map (·.conf)

end Tables

/-- The updates tell all that changed from `t` to `t'`. -/
structure Complete (t t' : Tables) (us : List Update) : Prop where
  masters : ¬ (∀ key, key ∈ t.masterKeys ↔ key ∈ t'.masterKeys) → .masterNodeListUpdate ∈ us
  config : ∀ r ∈ t'.config, r ∉ t.config → ∃ master node,
    lastConfig us r.name = some (master, node)
      ∧ toVec master = some r.masterConf ∧ toVec node = some r.nodeConf
  conf : ∀ key conf conf', t.confOf key = some conf → t'.confOf key = some conf' →
    conf ≠ conf' → lastChange us key = some conf'

section Last

variable {α β γ : Type}

theorem findSomeRev?_cons (f : α → Option β) (x : α) (xs : List α) :
    (x :: xs).findSomeRev? f = (xs.findSomeRev? f).or (f x) := by
  rw [List.findSomeRev?]
  rcases xs.findSomeRev? f with _ | y <;> rfl

theorem findSomeRev?_map (f : β → Option γ) (g : α → β) : ∀ xs : List α,
    (xs.map g).findSomeRev? f = xs.findSomeRev? fun x => f (g x)
  | [] => rfl
  | x :: xs => by
    rw [List.map_cons, findSomeRev?_cons, findSomeRev?_cons, findSomeRev?_map f g xs]

theorem of_findSomeRev? {f : α → Option β} {y : β} {xs : List α}
    (h : xs.findSomeRev? f = some y) : ∃ x ∈ xs, f x = some y := by
  rw [List.findSomeRev?_eq_findSome?_reverse] at h
  obtain ⟨x, hx, hy⟩ := List.exists_of_findSome?_eq_some h
  exact ⟨x, List.mem_reverse.1 hx, hy⟩

end Last

section Masters

variable {t t' : Tables}

theorem masterKeys_exec {o : Order} {u : Update} (h : t.exec o = some (t', u))
    (ho : o.update ≠ .masterNodeListUpdate) (key : Bytes) :
    key ∈ t'.masterKeys ↔ key ∈ t.masterKeys ∧ ∀ k, o = .removeNode k → k.bytes ≠ key := by
  obtain ⟨rfl, -⟩ := of_exec h
  simp only [Tables.masterKeys]
  cases o
  case addMasterNode | editMasterNode | removeMasterNode => exact (ho rfl).elim
  case removeNode k =>
    simp only [Order.onNode, Table.delete, List.mem_map, List.mem_filter, Order.removeNode.injEq,
      forall_eq']
    constructor
    · rintro ⟨n, ⟨⟨hn, hk⟩, hm⟩, rfl⟩
      refine ⟨⟨n, ⟨hn, hm⟩, rfl⟩, fun h => ?_⟩
      simp [h] at hk
    · rintro ⟨⟨n, ⟨hn, hm⟩, rfl⟩, hne⟩
      exact ⟨n, ⟨⟨hn, by simp [Ne.symm hne]⟩, hm⟩, rfl⟩
  case editNode | updateVoteWeight | changeNodeConfig =>
    rw [Order.onNode, Table.filter_update, Table.map_update]
    · simp
    · exact fun _ => rfl
    · exact fun _ => rfl
  all_goals simp [Order.onNode]

theorem masterKeys_execAll (key : Bytes) : ∀ {t t' : Tables} {reqs : List RequestType},
    (∀ o, .order o ∈ reqs → o.update ≠ .masterNodeListUpdate) → t.execAll reqs = some t' →
      (key ∈ t'.masterKeys ↔
        key ∈ t.masterKeys ∧ ∀ k, .order (.removeNode k) ∈ reqs → k.bytes ≠ key)
  | t, t', [], _, h => by
    simp only [Tables.execAll, Option.some.injEq] at h
    simp [h]
  | t, t', .order o :: reqs, ho, h => by
    obtain ⟨⟨t₁, u⟩, hx, hrest⟩ := Option.bind_eq_some_iff.1 h
    rw [masterKeys_execAll key (fun o' ho' => ho o' (List.mem_cons_of_mem _ ho')) hrest,
      masterKeys_exec hx (ho o List.mem_cons_self) key, and_assoc, and_congr_right_iff]
    intro _
    simp only [List.mem_cons, RequestType.order.injEq]
    constructor
    · rintro ⟨h₁, h₂⟩ k (hk | hk)
      · exact h₁ k hk.symm
      · exact h₂ k hk
    · exact fun h => ⟨fun k hk => h k (.inl hk.symm), fun k hk => h k (.inr hk)⟩

end Masters

section Config

variable {t t' : Tables}

def Order.setting (name : String) : Order → Option (MasterConfig × NodeConfig)
  | .setConfig n master node => if n = name then some (master, node) else none
  | _ => none

def lastSetting (name : String) (reqs : List RequestType) : Option (MasterConfig × NodeConfig) :=
  reqs.findSomeRev? fun | .order o => o.setting name

/-- The row holds what the pair encodes to. -/
def ConfigRow.Holds (r : ConfigRow) (c : MasterConfig × NodeConfig) : Prop :=
  toVec c.1 = some r.masterConf ∧ toVec c.2 = some r.nodeConf

theorem holds_of_bindable {name : String} {master : MasterConfig} {node : NodeConfig}
    (h : (Order.setConfig name master node).Bindable) (n : String) :
    ConfigRow.Holds ⟨n, (toVec master).getD [], (toVec node).getD []⟩ (master, node) :=
  ⟨(Option.getD_of_ne_none (Option.isSome_iff_ne_none.1 h.1) []).symm,
    (Option.getD_of_ne_none (Option.isSome_iff_ne_none.1 h.2) []).symm⟩

theorem configRow_exec {o : Order} {u : Update} (h : t.exec o = some (t', u)) {r : ConfigRow}
    (hr : r ∈ t'.config) :
    (o.setting r.name = none ∧ r ∈ t.config) ∨ ∃ c, o.setting r.name = some c ∧ r.Holds c := by
  have hb := (bindable_of_exec h).2
  obtain ⟨rfl, -⟩ := of_exec h
  cases o
  case setConfig name master node =>
    rcases Table.mem_upsert _ hr with rfl | ⟨hr, hne⟩ | ⟨z, -, hz, rfl⟩
    · exact .inr ⟨(master, node), if_pos rfl, holds_of_bindable hb _⟩
    · exact .inl ⟨if_neg (Ne.symm hne), hr⟩
    · exact .inr ⟨(master, node), if_pos hz.symm, holds_of_bindable hb _⟩
  case removeConfig => exact .inl ⟨rfl, ((Table.mem_delete _).1 hr).1⟩
  all_goals exact .inl ⟨rfl, hr⟩

/-- What holds after a block held before it, unless an order sets a config; then it is the last that
does. -/
theorem execAll_setting {name : String} {A : Tables → Prop} {R : MasterConfig × NodeConfig → Prop} :
    ∀ {t t' : Tables} {reqs : List RequestType}, (∀ o, .order o ∈ reqs → ∀ t t' u,
      t.exec o = some (t', u) → A t' →
        (o.setting name = none ∧ A t) ∨ ∃ c, o.setting name = some c ∧ R c) →
      t.execAll reqs = some t' → A t' →
        (lastSetting name reqs = none ∧ A t) ∨ ∃ c, lastSetting name reqs = some c ∧ R c
  | t, t', [], _, h, ha => by
    simp only [Tables.execAll, Option.some.injEq] at h
    exact .inl ⟨rfl, h ▸ ha⟩
  | t, t', .order o :: reqs, hstep, h, ha => by
    obtain ⟨⟨t₁, u⟩, hx, hrest⟩ := Option.bind_eq_some_iff.1 h
    have hlast : lastSetting name (.order o :: reqs)
        = (lastSetting name reqs).or (o.setting name) := findSomeRev?_cons _ _ _
    rw [hlast]
    rcases execAll_setting (fun o ho => hstep o (List.mem_cons_of_mem _ ho)) hrest ha with
      ⟨hnone, ha⟩ | ⟨c, hsome, hr⟩
    · rw [hnone, Option.none_or]
      exact hstep o List.mem_cons_self _ _ u hx ha
    · exact .inr ⟨c, by rw [hsome, Option.some_or], hr⟩

/-- A row is as it was, or holds what the last order that sets it says. -/
theorem configRow_execAll {r : ConfigRow} {reqs : List RequestType}
    (h : t.execAll reqs = some t') (hr : r ∈ t'.config) :
    (lastSetting r.name reqs = none ∧ r ∈ t.config)
      ∨ ∃ c, lastSetting r.name reqs = some c ∧ r.Holds c :=
  execAll_setting (A := fun t => r ∈ t.config) (fun _ _ _ _ _ hx hr => configRow_exec hx hr) h hr

theorem lastConfig_map (reqs : List RequestType) (name : String) :
    lastConfig (reqs.map fun | .order o => o.update) name = lastSetting name reqs := by
  rw [lastConfig, findSomeRev?_map]
  refine congrArg (fun f => reqs.findSomeRev? f) (funext fun ⟨o⟩ => ?_)
  cases o <;> rfl

end Config

section Conf

variable {t t' : Tables} {key : Bytes}

theorem confOf_append (n : NodeRow) : ({ t with node := t.node ++ [n] } : Tables).confOf key
    = if n.publicKey = key then (t.confOf key).or (some n.conf) else t.confOf key := by
  simp only [Tables.confOf, List.find?_append]
  rcases t.node.find? fun n => n.publicKey = key with _ | m <;>
    by_cases hk : n.publicKey = key <;> simp [hk]

theorem confOf_update {p : NodeRow → Bool} {f : NodeRow → NodeRow}
    (hk : ∀ n, (f n).publicKey = n.publicKey) (hc : ∀ n, (f n).conf = n.conf) :
    ({ t with node := Table.update p f t.node } : Tables).confOf key = t.confOf key := by
  simp only [Tables.confOf]
  rw [Table.find?_update p f fun n _ => by simp [hk], Option.map_map]
  refine congrFun (congrArg _ (funext fun n => ?_)) _
  simp only [Function.comp_apply]
  split_ifs
  · exact hc n
  · rfl

theorem confOf_assign (k : PublicKey) (name : String) :
    ({ t with
      node := Table.update (·.publicKey = k.bytes) (fun n => { n with conf := name }) t.node }
      : Tables).confOf key
      = if k.bytes = key then (t.confOf key).map fun _ => name else t.confOf key := by
  have hfind := Table.find?_update (·.publicKey = k.bytes)
    (fun n : NodeRow => { n with conf := name }) (q := fun n => n.publicKey = key)
    (fun _ _ => rfl) t.node
  simp only [Tables.confOf, hfind]
  rcases hf : t.node.find? fun n => n.publicKey = key with _ | n <;> simp only [hf]
  · split_ifs <;> rfl
  · have hn := List.find?_some hf
    simp only [decide_eq_true_eq] at hn
    by_cases hk : k.bytes = key
    · simp [hn, hk]
    · simp [hn, hk, Ne.symm hk]

theorem confOf_delete (k : PublicKey) :
    ({ t with node := Table.delete (·.publicKey = k.bytes) t.node } : Tables).confOf key
      = if k.bytes = key then none else t.confOf key := by
  simp only [Tables.confOf, Table.delete, List.find?_filter]
  split_ifs with hk
  · rw [Option.map_eq_none_iff, List.find?_eq_none]
    intro n _
    simp [hk]
  · congr 2
    funext n
    by_cases hn : n.publicKey = key <;> simp [hn, Ne.symm hk]

/-- What an order does to the config of the node with a key. -/
def Order.onConf (key : Bytes) (conf : Option String) : Order → Option String
  | .addMasterNode _ k | .addNode _ k =>
    if k.bytes = key then conf.or (some "default") else conf
  | .removeMasterNode k | .removeNode k => if k.bytes = key then none else conf
  | .changeNodeConfig k name => if k.bytes = key then conf.map fun _ => name else conf
  | _ => conf

theorem confOf_exec {o : Order} {u : Update} (h : t.exec o = some (t', u)) :
    t'.confOf key = o.onConf key (t.confOf key) := by
  obtain ⟨rfl, -⟩ := of_exec h
  cases o
  case addMasterNode | addNode => exact confOf_append _
  case removeMasterNode | removeNode => exact confOf_delete _
  case changeNodeConfig => exact confOf_assign _ _
  case editMasterNode | editNode | updateVoteWeight =>
    exact confOf_update (fun _ => rfl) fun _ => rfl
  all_goals rfl

/-- Where a block has got to with the node of a key. -/
inductive Standing
  /-- Its config is the one it had, or the last that a `NodeConfigChange` told of. -/
  | told
  | gone
  /-- It was removed and added again, and has the default config. -/
  | anew
  deriving DecidableEq

def Order.standing (key : Bytes) (s : Standing) : Order → Standing
  | .addMasterNode _ k | .addNode _ k => if k.bytes = key ∧ s = .gone then .anew else s
  | .removeMasterNode k | .removeNode k => if k.bytes = key then .gone else s
  | .changeNodeConfig k _ => if k.bytes = key ∧ s = .anew then .told else s
  | _ => s

def standing (key : Bytes) : Standing → List RequestType → Standing
  | s, [] => s
  | s, .order o :: reqs => standing key (o.standing key s) reqs

def Order.assignment (key : Bytes) : Order → Option String
  | .changeNodeConfig k name => if k.bytes = key then some name else none
  | _ => none

/-- The config the last `ChangeNodeConfig` for a key names. -/
def lastAssignment (key : Bytes) (reqs : List RequestType) : Option String :=
  reqs.findSomeRev? fun | .order o => o.assignment key

/-- What the standing of a node says of its config, if it was `conf₀` before the block and `last` is
the last one that was assigned. -/
def Standing.Fits (conf₀ : String) (last conf : Option String) : Standing → Prop
  | .told => conf = some (last.getD conf₀)
  | .gone => conf = none
  | .anew => conf = some "default"

theorem Standing.Fits.add {conf₀ : String} {last conf : Option String} {s : Standing}
    (h : s.Fits conf₀ last conf) (k : PublicKey) :
    (if k.bytes = key ∧ s = .gone then .anew else s).Fits conf₀ last
      (if k.bytes = key then conf.or (some "default") else conf) := by
  by_cases hk : k.bytes = key
  · cases s <;> simp only [Standing.Fits] at h <;> simp [hk, h, Standing.Fits]
  · simpa [hk] using h

theorem Standing.Fits.remove {conf₀ : String} {last conf : Option String} {s : Standing}
    (h : s.Fits conf₀ last conf) (k : PublicKey) :
    (if k.bytes = key then .gone else s).Fits conf₀ last
      (if k.bytes = key then none else conf) := by
  split_ifs
  · rfl
  · exact h

theorem Standing.Fits.order {conf₀ : String} {last conf : Option String} {s : Standing}
    (h : s.Fits conf₀ last conf) (o : Order) :
    (o.standing key s).Fits conf₀ ((o.assignment key).or last) (o.onConf key conf) := by
  cases o <;> try exact h
  case addMasterNode name k => exact h.add k
  case addNode name k => exact h.add k
  case removeMasterNode k => exact h.remove k
  case removeNode k => exact h.remove k
  case changeNodeConfig k name =>
    simp only [Order.standing, Order.assignment, Order.onConf]
    by_cases hk : k.bytes = key
    · cases s <;> simp only [Standing.Fits] at h <;> simp [hk, h, Standing.Fits]
    · simpa [hk] using h

theorem Standing.Fits.block {conf₀ : String} : ∀ {reqs : List RequestType}
    {last conf : Option String} {s : Standing} {t t' : Tables}, s.Fits conf₀ last conf →
      t.confOf key = conf → t.execAll reqs = some t' →
        (Nyumt.standing key s reqs).Fits conf₀ ((lastAssignment key reqs).or last) (t'.confOf key)
  | [], last, conf, s, t, t', h, hc, hx => by
    simp only [Tables.execAll, Option.some.injEq] at hx
    exact hx ▸ hc ▸ h
  | .order o :: reqs, last, conf, s, t, t', h, hc, hx => by
    obtain ⟨⟨t₁, u⟩, ho, hrest⟩ := Option.bind_eq_some_iff.1 hx
    have hlast : lastAssignment key (.order o :: reqs)
        = (lastAssignment key reqs).or (o.assignment key) := findSomeRev?_cons _ _ _
    rw [hlast, Option.or_assoc]
    exact (h.order o).block (by rw [confOf_exec ho, hc]) hrest

theorem lastChange_map (reqs : List RequestType) :
    lastChange (reqs.map fun | .order o => o.update) key = lastAssignment key reqs := by
  rw [lastChange, findSomeRev?_map]
  refine congrArg (fun f => reqs.findSomeRev? f) (funext fun ⟨o⟩ => ?_)
  cases o <;> rfl

end Conf

section Complete

/-- Some order is about masters, or no `RemoveNode` names one. -/
def MastersTold (t : Tables) (reqs : List RequestType) : Prop :=
  (∃ o, .order o ∈ reqs ∧ o.update = .masterNodeListUpdate)
    ∨ ∀ k, .order (.removeNode k) ∈ reqs → k.bytes ∉ t.masterKeys

/-- A node that is added anew had the default config, or that is the last it was assigned. -/
def ConfsTold (t : Tables) (reqs : List RequestType) : Prop :=
  ∀ key conf, t.confOf key = some conf → standing key .told reqs = .anew →
    conf = "default" ∨ lastAssignment key reqs = some "default"

/-- The updates of a block are complete just if the block removes no master as if it were a node,
and adds no node anew whose config is another one then. -/
theorem complete_iff {db db' : Database} {reqs : List RequestType} {us : List Update}
    (h : interpretBlock db reqs = some (db', us)) : Complete db.toTables db'.toTables us ↔
      MastersTold db.toTables reqs ∧ ConfsTold db.toTables reqs := by
  obtain rfl := updates_interpretBlock h
  have hx := execAll_of_interpretBlock h
  have hmem : .masterNodeListUpdate ∈ (reqs.map fun | .order o => o.update) ↔
      ∃ o, .order o ∈ reqs ∧ o.update = .masterNodeListUpdate := by
    rw [List.mem_map]
    constructor
    · rintro ⟨⟨o⟩, ho, hu⟩
      exact ⟨o, ho, hu⟩
    · rintro ⟨o, ho, hu⟩
      exact ⟨.order o, ho, hu⟩
  have hfits : ∀ key conf, db.toTables.confOf key = some conf →
      (standing key .told reqs).Fits conf (lastAssignment key reqs) (db'.toTables.confOf key) := by
    intro key conf hc
    have hfit : (standing key .told reqs).Fits conf ((lastAssignment key reqs).or none)
        (db'.toTables.confOf key) := Standing.Fits.block (s := .told) rfl hc hx
    rwa [Option.or_none] at hfit
  constructor
  · intro hall
    constructor
    · by_contra hm
      obtain ⟨hno, k, hk, hkey⟩ : (∀ o, .order o ∈ reqs → o.update ≠ .masterNodeListUpdate)
          ∧ ∃ k, .order (.removeNode k) ∈ reqs ∧ k.bytes ∈ db.toTables.masterKeys := by
        simpa [MastersTold] using hm
      obtain ⟨o, ho, hu⟩ := hmem.1 <| hall.masters fun heq =>
        ((masterKeys_execAll k.bytes hno hx).1 ((heq k.bytes).1 hkey)).2 k hk rfl
      exact hno o ho hu
    · intro key conf hc hs
      have hfit := hfits key conf hc
      rw [hs] at hfit
      by_contra! hne
      have hlast := hall.conf key conf "default" hc hfit hne.1
      rw [lastChange_map] at hlast
      exact hne.2 hlast
  · rintro ⟨hm, hc⟩
    refine ⟨fun hne => ?_, fun r hr hnew => ?_, fun key conf conf' hk hk' hne => ?_⟩
    · rcases hm with hm | hm
      · exact hmem.2 hm
      · by_contra hno
        refine hne fun key => ?_
        rw [masterKeys_execAll key (fun o ho hu => hno (hmem.2 ⟨o, ho, hu⟩)) hx]
        exact ⟨fun h => ⟨h, fun k hk he => hm k hk (he ▸ h)⟩, fun h => h.1⟩
    · rw [lastConfig_map]
      rcases configRow_execAll hx hr with ⟨-, hr⟩ | ⟨⟨master, node⟩, hlast, hh⟩
      · exact (hnew hr).elim
      · exact ⟨master, node, hlast, hh⟩
    · rw [lastChange_map]
      have hfit := hfits key conf hk
      rw [hk'] at hfit
      rcases hs : standing key .told reqs <;> rw [hs] at hfit
      case told =>
        rcases hlast : lastAssignment key reqs with _ | name <;>
          simp only [Standing.Fits, hlast, Option.some.injEq] at hfit
        · exact (hne hfit.symm).elim
        · exact congrArg some hfit.symm
      case gone => simp [Standing.Fits] at hfit
      case anew =>
        obtain rfl := Option.some.inj hfit
        exact (hc key conf hk hs).resolve_left hne

/-- A master is removed, and another one is given another config. -/
theorem complete_iff_remove : ∃ db us, interpretBlock toyPair
    [.order (.removeMasterNode (toyKey 4)), .order (.changeNodeConfig (toyKey 0) "spare")]
      = some (db, us) ∧ Complete toyPair.toTables db.toTables us := by
  have hblock : (interpretBlock toyPair [.order (.removeMasterNode (toyKey 4)),
      .order (.changeNodeConfig (toyKey 0) "spare")]).isSome := by decide +kernel
  obtain ⟨⟨db, us⟩, h⟩ := Option.isSome_iff_exists.1 hblock
  refine ⟨db, us, h, (complete_iff h).2 ⟨.inl ⟨_, List.mem_cons_self, rfl⟩, ?_⟩⟩
  intro key conf _ hs
  simp only [standing, Order.standing] at hs
  split_ifs at hs

/-- A master is removed as if it were a node. -/
theorem not_complete_remove : ∃ db us,
    interpretBlock toyPair [.order (.removeNode (toyKey 4))] = some (db, us)
      ∧ ¬ Complete toyPair.toTables db.toTables us := by
  have hblock : (interpretBlock toyPair [.order (.removeNode (toyKey 4))]).any fun p =>
      (toyKey 4).bytes ∈ toyPair.masterKeys ∧ (toyKey 4).bytes ∉ p.1.masterKeys
        ∧ .masterNodeListUpdate ∉ p.2 := by decide +kernel
  obtain ⟨⟨db, us⟩, h, hin, hout, hus⟩ := Run.exists_of_any hblock
  exact ⟨db, us, h, fun hc => hus (hc.masters fun heq => hout ((heq _).1 hin))⟩

end Complete

end Nyumt
