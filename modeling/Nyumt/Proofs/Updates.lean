import Mathlib.Data.List.Count
import Nyumt.Toy
import Nyumt.Updates

/-!
# Whom an update of a config reaches

A node stays filed under the name its config had when it subscribed, as often as it subscribed.
Where each subscribes once and no block gives a subscriber another config, the file of a name holds
those that have the config of that name, each once, and an update of the config is sent to them
(`exact_run`).
-/

namespace Nyumt

open Borsh

section Files

variable {nodes : SubscribedNodes}

@[simp] theorem filed_empty (name : String) : filed ∅ name = [] := rfl

theorem filed_file (conf peer name : String) : filed (file nodes conf peer) name
    = if name = conf then filed nodes conf ++ [peer] else filed nodes name := by
  unfold file
  split_ifs with h
  · subst h
    rw [filed, AList.lookup_insert, Option.getD_some]
  · rw [filed, AList.lookup_insert_ne h, filed]

theorem count_unfile (conf peer name p : String) : (filed (unfile nodes conf peer) name).count p
    = if p = peer ∧ name = conf then 0 else (filed nodes name).count p := by
  have hfiled : filed (unfile nodes conf peer) name
      = if name = conf then (filed nodes conf).filter (· ≠ peer) else filed nodes name := by
    unfold unfile
    split_ifs with hm h h
    · subst h
      rw [filed, AList.lookup_insert, Option.getD_some]
    · rw [filed, AList.lookup_insert_ne h, filed]
    · subst h
      rw [filed, AList.lookup_eq_none.2 hm]
      rfl
    · rfl
  rw [hfiled]
  by_cases hname : name = conf
  · subst hname
    by_cases hp : p = peer
    · simp [hp, List.count_eq_zero]
    · rw [if_pos rfl, if_neg fun h => hp h.1, List.count_filter (by simpa using hp)]
  · rw [if_neg hname, if_neg fun h => hname h.2]

end Files

section Orders

/-- A config that was set can be sent. -/
theorem toVec_updateConfig {db db' : Database} {reqs : List RequestType} {us : List Update}
    {name : String} {master : MasterConfig} {node : NodeConfig}
    (h : interpretBlock db reqs = some (db', us)) (hu : .configUpdate name master node ∈ us) :
    (toVec (PeerRequest.updateConfig node)).isSome := by
  obtain rfl := updates_interpretBlock h
  obtain ⟨⟨o⟩, ho, hu⟩ := List.mem_map.1 hu
  have hx := Option.isSome_of_eq_some (execAll_of_interpretBlock h)
  have hb : o.Bindable := (execAll_isSome_iff.1 hx o ho).2
  have hser : toVec (PeerRequest.updateConfig node) = (toVec node).map (8 :: ·) := rfl
  cases o <;> simp only [Order.update, Update.configUpdate.injEq, reduceCtorEq] at hu
  obtain ⟨-, -, rfl⟩ := hu
  rw [hser, Option.isSome_map]
  exact hb.2

end Orders

namespace Notice

theorem count_sends {nodes : SubscribedNodes} {name : String} {master : MasterConfig}
    {node : NodeConfig} (h : (toVec (PeerRequest.updateConfig node)).isSome) (peer : String)
    (r : PeerRequest) : ((config name master node).sends nodes).count (peer, r)
      = if r = .updateConfig node then (filed nodes name).count peer else 0 := by
  have hsends : (config name master node).sends nodes
      = (filed nodes name).map fun peer => (peer, .updateConfig node) := if_pos h
  rw [hsends]
  split_ifs with hr
  · subst hr
    exact List.count_map_of_injective _ _ (fun _ _ h => (Prod.mk.inj h).1) peer
  · rw [List.count_eq_zero]
    intro hm
    obtain ⟨_, -, he⟩ := List.mem_map.1 hm
    exact hr (Prod.mk.inj he).2.symm

end Notice

namespace Subscriptions

variable {K : Crypto} {s s' : Subscriptions}

/-- `send_update` changes nothing but the master's own config. -/
theorem adopt_eq (n : Notice) : ∃ conf confName,
    s.adopt K n = { s with conf := conf, confName := confName } := by
  cases n with
  | config name master node =>
    by_cases h : s.confName = name
    · exact ⟨_, _, if_pos h⟩
    · exact ⟨_, _, if_neg h⟩
  | own | change | masters => exact ⟨_, _, rfl⟩

/-- What an update comes to is in the tables, and says who the master is. -/
theorem notice_congr (hdb : s'.db = s.db) (hkey : s'.pubkey = s.pubkey)
    (haddr : s'.external = s.external) (u : Update) : s'.notice K u = s.notice K u := by
  obtain ⟨_, _, _⟩ := s
  obtain ⟨_, _, _⟩ := s'
  subst hdb hkey haddr
  cases u <;> rfl

theorem sendUpdate_eq : ∀ (s : Subscriptions) (us : List Update), ∃ conf confName,
    (s.sendUpdate K us).1 = { s with conf := conf, confName := confName }
  | s, [] => ⟨_, _, rfl⟩
  | s, u :: us => by
    rw [sendUpdate]
    rcases s.notice K u with _ | _ | n
    · exact ⟨_, _, rfl⟩
    · exact sendUpdate_eq s us
    · obtain ⟨conf, confName, h⟩ := adopt_eq (s := s) (K := K) n
      obtain ⟨conf', confName', h'⟩ :=
        sendUpdate_eq { s with conf := conf, confName := confName } us
      simp only [h]
      exact ⟨conf', confName', h'⟩

/-- For an update that `send_update` gets to, it sends what the update comes to. -/
theorem sendUpdate_get : ∀ {s : Subscriptions} {us : List Update} {i : ℕ} {u : Update} {n : Notice},
    us[i]? = some u → (∀ v ∈ us.take i, (s.notice K v).isSome) → s.notice K u = some (some n) →
      (s.sendUpdate K us).2[i]? = some (n.sends s.nodes)
  | s, v :: us, 0, u, n, hu, _, hn => by
    obtain rfl : v = u := by simpa using hu
    rw [sendUpdate, hn]
    rfl
  | s, v :: us, i + 1, u, n, hu, hv, hn => by
    have hu : us[i]? = some u := by simpa using hu
    rw [List.take_succ_cons] at hv
    have hrest : ∀ w ∈ us.take i, (s.notice K w).isSome := fun w hw =>
      hv w (List.mem_cons_of_mem _ hw)
    rw [sendUpdate]
    rcases hnv : s.notice K v with _ | _ | m
    · simpa [hnv] using hv v List.mem_cons_self
    · exact sendUpdate_get hu hrest hn
    · obtain ⟨conf, confName, h⟩ := adopt_eq (s := s) (K := K) m
      simp only [h, List.getElem?_cons_succ]
      exact sendUpdate_get hu (fun w hw => by rw [notice_congr rfl rfl rfl]; exact hrest w hw)
        ((notice_congr rfl rfl rfl u).trans hn)

/-- What it does not send because it does not get there is nothing. -/
theorem sendUpdate_mem : ∀ {s : Subscriptions} {us : List Update} {i : ℕ} {u : Update} {n : Notice},
    us[i]? = some u → s.notice K u = some (some n) →
      (s.sendUpdate K us).2[i]? = none ∨ (s.sendUpdate K us).2[i]? = some (n.sends s.nodes)
  | s, v :: us, 0, u, n, hu, hn => .inr (sendUpdate_get hu (by simp) hn)
  | s, v :: us, i + 1, u, n, hu, hn => by
    have hu : us[i]? = some u := by simpa using hu
    rw [sendUpdate]
    rcases hnv : s.notice K v with _ | _ | m
    · exact .inl rfl
    · exact sendUpdate_mem hu hn
    · obtain ⟨conf, confName, h⟩ := adopt_eq (s := s) (K := K) m
      simp only [h, List.getElem?_cons_succ]
      exact sendUpdate_mem hu ((notice_congr rfl rfl rfl u).trans hn)

/-- The peer has subscribed and its node has the config of this name. -/
def Has (s : Subscriptions) (db : Database) (name peer : String) : Prop :=
  peer ∈ s.subscribers ∧ db.getPeerConfName peer = some name

instance (s : Subscriptions) (db : Database) (name peer : String) :
    Decidable (s.Has db name peer) :=
  inferInstanceAs (Decidable (_ ∧ _))

/-- What is sent for the updates of a block. -/
def sent (K : Crypto) (s : Subscriptions) (db : Database) (us : List Update) :
    List (List (String × PeerRequest)) :=
  (publish K { s with db := db } us).2

/-- For a config that is set, its node part is sent once to each subscriber whose node has it, and
nothing else is sent. -/
def Exact (K : Crypto) (s : Subscriptions) : Act → Prop
  | .block reqs => ∀ db us, interpretBlock s.db reqs = some (db, us) →
    ∀ (i : ℕ) name master node, us[i]? = some (.configUpdate name master node) → ∀ peer r,
      (((s.sent K db us)[i]?).getD []).count (peer, r)
        = if r = .updateConfig node ∧ s.Has db name peer then 1 else 0
  | _ => True

/-- The update is for one that has subscribed. -/
def Concerns (s : Subscriptions) (db : Database) : Update → Prop
  | .configUpdate name _ _ => ∃ peer ∈ s.subscribers, db.getPeerConfName peer = some name
  | _ => False

instance (s : Subscriptions) (db : Database) : DecidablePred (s.Concerns db)
  | .configUpdate name _ _ =>
    inferInstanceAs (Decidable (∃ peer ∈ s.subscribers, db.getPeerConfName peer = some name))
  | .nodeConfigChange _ _ | .masterNodeListUpdate | .none => isFalse id

/-- A node subscribes that has not; a block leaves each subscriber the config it has, and
`send_update` does not panic before an update that concerns one. -/
def Orderly (K : Crypto) (s : Subscriptions) : Act → Prop
  | .subscribe peer => s.db.getPeerConfName peer ≠ none → peer ∉ s.subscribers
  | .unsubscribe _ => True
  | .block reqs => ∀ p ∈ interpretBlock s.db reqs,
    (∀ peer ∈ s.subscribers, p.1.getPeerConfName peer = s.db.getPeerConfName peer)
      ∧ ∀ i < p.2.length, ∀ u ∈ p.2[i]?, s.Concerns p.1 u →
        ∀ v ∈ p.2.take i, (notice K { s with db := p.1 } v).isSome

instance (s : Subscriptions) : DecidablePred (Orderly K s)
  | .subscribe _ => by unfold Orderly; infer_instance
  | .unsubscribe _ => isTrue trivial
  | .block _ => by unfold Orderly; infer_instance

/-- The file of a name holds the subscribers that have the config of that name, each once. -/
def WellFiled (s : Subscriptions) : Prop := ∀ name peer,
  (filed s.nodes name).count peer = if s.Has s.db name peer then 1 else 0

theorem wellFiled_block (hi : s.WellFiled) {db : Database}
    (h : ∀ peer ∈ s.subscribers, db.getPeerConfName peer = s.db.getPeerConfName peer) :
    WellFiled { s with db := db } := by
  intro name peer
  rw [hi name peer]
  refine if_congr (and_congr_right fun hp => ?_) rfl rfl
  rw [← h peer hp]

theorem wellFiled_step {a : Act} (hok : s.Orderly K a) (hs : s.step K a = some s')
    (hi : s.WellFiled) : s'.WellFiled := by
  cases a with
  | subscribe peer =>
    simp only [step] at hs
    split at hs <;> simp only [Option.some.injEq] at hs <;> subst hs
    · rename_i conf hconf
      have hnew : peer ∉ s.subscribers := hok (by simp [hconf])
      intro name p
      simp only [filed_file, Has, List.mem_append, List.mem_singleton]
      split_ifs with hname h h
      · subst hname
        rcases h with ⟨hp | rfl, hp'⟩
        · have hne : p ≠ peer := fun he => hnew (he ▸ hp)
          rw [List.count_append, hi, if_pos ⟨hp, hp'⟩, List.count_singleton, if_neg]
          simpa using hne.symm
        · rw [List.count_append, hi, if_neg fun hh => hnew hh.1]
          simp
      · subst hname
        have hne : p ≠ peer := fun he => h ⟨.inr he, he ▸ hconf⟩
        rw [List.count_append, hi, if_neg fun hh => h ⟨.inl hh.1, hh.2⟩, List.count_singleton,
          if_neg]
        simpa using hne.symm
      · rw [hi, if_pos]
        refine ⟨h.1.resolve_right fun he => hname ?_, h.2⟩
        rw [he, hconf, Option.some.injEq] at h
        exact h.2.symm
      · rw [hi, if_neg fun hh => h ⟨.inl hh.1, hh.2⟩]
    · exact hi
  | unsubscribe peer =>
    simp only [step, Option.some.injEq] at hs
    subst hs
    intro name p
    have hold := hi name p
    by_cases hp : p = peer
    · subst hp
      rw [if_neg fun h => by simpa using (List.mem_filter.1 h.1).2]
      rcases hconf : s.db.getPeerConfName p with _ | conf
      · rw [hold, if_neg fun ⟨_, h⟩ => by simp [hconf] at h]
      · simp only [count_unfile, true_and]
        split_ifs with hname
        · rfl
        · rw [hold, if_neg fun h => hname (Option.some.inj (h.2.symm.trans hconf))]
    · have hhas : Has { s with subscribers := s.subscribers.filter (· ≠ peer) } s.db name p
          ↔ s.Has s.db name p := by simp [Has, hp]
      rcases s.db.getPeerConfName peer with _ | conf
      · exact hold.trans (if_congr hhas.symm rfl rfl)
      · simp only [count_unfile, hp, false_and, if_false]
        exact hold.trans (if_congr hhas.symm rfl rfl)
  | block reqs =>
    simp only [step] at hs
    split at hs <;> simp only [Option.some.injEq] at hs <;> subst hs
    · rename_i db us hblock
      have hi' := wellFiled_block hi (hok _ hblock).1
      unfold publish
      split_ifs
      · exact hi'
      · obtain ⟨conf, confName, h⟩ := sendUpdate_eq (K := K) { s with db := db } us
        rw [h]
        exact hi'
    · exact hi

/-- Where the files are right, so is what is sent. -/
theorem exact_of_wellFiled {a : Act} (hok : s.Orderly K a) (hi : s.WellFiled) : s.Exact K a := by
  cases a with
  | subscribe | unsubscribe => trivial
  | block reqs =>
    intro db us hblock i name master node hu peer r
    obtain ⟨hkeep, hreach⟩ := hok (db, us) hblock
    have hfiled : (filed s.nodes name).count peer = if s.Has db name peer then 1 else 0 :=
      wellFiled_block hi hkeep name peer
    have hser := toVec_updateConfig hblock (List.mem_of_getElem? hu)
    have hsends : ((Notice.config name master node).sends s.nodes).count (peer, r)
        = if r = .updateConfig node ∧ s.Has db name peer then 1 else 0 := by
      rw [Notice.count_sends hser, hfiled, ite_and]
    by_cases hempty : s.nodes.keys = []
    · have hnone : filed s.nodes name = [] := by
        rw [filed, AList.lookup_eq_none.2 fun h => by simp [AList.mem_keys, hempty] at h]
        rfl
      have hsent : s.sent K db us = [] := congrArg Prod.snd (if_pos hempty)
      rw [← hsends, Notice.count_sends hser, hnone, hsent]
      simp
    · have hsent : s.sent K db us = (sendUpdate K { s with db := db } us).2 :=
        congrArg Prod.snd (if_neg hempty)
      rw [hsent]
      by_cases hc : s.Concerns db (.configUpdate name master node)
      · rw [sendUpdate_get hu (hreach i (List.getElem?_eq_some_iff.1 hu).1 _ hu hc) rfl]
        exact hsends
      · rcases sendUpdate_mem (s := { s with db := db }) (K := K) hu rfl with h | h
        · rw [h, if_neg fun h => hc ⟨peer, h.2⟩]
          rfl
        · rw [h]
          exact hsends

/-- In a run in which each node subscribes once and keeps the config it has, every config that is
set is sent as it should be. -/
theorem exact_run {as : List Act} (hn : s.nodes = ∅) (hs : s.subscribers = [])
    (hok : Run.Along (step K) (Orderly K) s as) : Run.Along (step K) (Exact K) s as := by
  have hinit : s.WellFiled := fun name peer => by simp [hn, hs, Has]
  exact (Run.along_induction (fun _ _ _ hok hs hi => wellFiled_step hok hs hi) hok hinit).mono
    fun s a h => exact_of_wellFiled h.2 h.1

section Toy

/-- The master of `toyGenesis` after it has got a node, which has connected. -/
def toySubscriptions : Subscriptions where
  db := { applyBlock toyGenesis [.order (.addNode "n" (toyKey 2))] with
    nodePeerid := [⟨some 2, "p"⟩] }
  pubkey := toyKey 0
  addr := some ""
  external := some ""
  confName := "default"
  conf := ⟨.default toy, .default toy⟩

/-- A config that was not there before. -/
def setSpare : Order := .setConfig "spare" (.default toy) (.default toy)

theorem exact_run_subscribe : Run.Along (step toy) (Exact toy) toySubscriptions
    [.subscribe "p", .block [.order (.setConfig "default" (.default toy) (.default toy))]] :=
  exact_run rfl rfl (by decide +kernel)

/-- The node subscribes and is given another config. -/
def movedNode : List Act :=
  [.subscribe "p", .block [.order setSpare], .block [.order (.changeNodeConfig (toyKey 2) "spare")]]

/-- When that config is set again the node is not told. -/
theorem not_exact_run : ∃ s, Run.run (step toy) toySubscriptions movedNode = some s
    ∧ ¬ s.Exact toy (.block [.order setSpare]) := by
  have hrun : (Run.run (step toy) toySubscriptions movedNode).any fun s =>
      (interpretBlock s.db [.order setSpare]).any fun p =>
        p.2 = [.configUpdate "spare" (.default toy) (.default toy)]
          ∧ s.Has p.1 "spare" "p" ∧ s.sent toy p.1 p.2 = [[]] := by decide +kernel
  obtain ⟨s, hs, h⟩ := (Option.any_eq_true _ _).1 hrun
  obtain ⟨⟨db, us⟩, hblock, hus, hhas, hsent⟩ := Run.exists_of_any h
  refine ⟨s, hs, fun hexact => ?_⟩
  have hfirst : us[0]? = some (.configUpdate "spare" (.default toy) (.default toy)) := by
    simp at hus
    simp [hus]
  have hone := hexact db us hblock 0 "spare" (.default toy) (.default toy) hfirst "p"
    (.updateConfig (.default toy))
  rw [hsent, if_pos ⟨rfl, hhas⟩] at hone
  simp at hone

end Toy

end Subscriptions

end Nyumt
