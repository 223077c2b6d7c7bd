import Nyumt.NormalNode
import Nyumt.Toy

/-!
# Who steers a node

A node takes a config or a list of masters from whoever sends it. What the requests leave is what
the last of each kind says, so a stranger has no effect just where the last ones say what those of
the masters say (`steered_iff`).
-/

namespace Nyumt

open Borsh

namespace PeerMessage

def config (m : PeerMessage) : Option NodeConfig :=
  match fromSlice PeerRequest m.request with
  | some (.updateConfig config) => some config
  | _ => none

def list (m : PeerMessage) : Option (List MasterNode) :=
  match fromSlice PeerRequest m.request with
  | some (.updateMasterNodeList list) => some list
  | _ => none

def lastNodeConfig (ms : List PeerMessage) : Option NodeConfig := (ms.filterMap config).getLast?

def lastList (ms : List PeerMessage) : Option (List MasterNode) := (ms.filterMap list).getLast?

end PeerMessage

open PeerMessage

theorem masterRows_injective : Function.Injective masterRows := by
  refine List.map_injective_iff.2 fun n n' h => ?_
  rw [Prod.mk.injEq, PublicKey.bytes_inj] at h
  obtain ⟨k, a⟩ := n
  obtain ⟨k', a'⟩ := n'
  exact MasterNode.mk.injEq .. ▸ h

namespace NormalNode

variable (K : Crypto) (report : OID → PeerResponse) (s : NormalNode)

/-- The node after a config and a list, where there are any. -/
def settle (config : Option NodeConfig) (list : Option (List MasterNode)) : NormalNode where
  conf := (config.map (·.update K)).getD s.conf
  localConf := (config.bind toVec).or s.localConf
  masterNodes := (list.map masterRows).getD s.masterNodes

def HasConfig (config : NodeConfig) : Prop :=
  s.localConf = toVec config ∧ s.conf = config.update K

/-- The last config of `ms` is that of `ms'`, or what the node has if there is none in `ms'`; and so
is the last list. -/
def SameLast (ms ms' : List PeerMessage) : Prop :=
  (∀ c ∈ lastNodeConfig ms, (lastNodeConfig ms').elim (s.HasConfig K c) (c = ·))
    ∧ ∀ l ∈ lastList ms, (lastList ms').elim (s.masterNodes = masterRows l) (l = ·)

variable {K report s}

theorem receive_eq (m : PeerMessage) : s.receive K report m = s.settle K m.config m.list := by
  unfold receive handle PeerMessage.config PeerMessage.list
  rcases fromSlice PeerRequest m.request with _ | r
  · rfl
  · cases r <;> rfl

theorem of_config {m : PeerMessage} {c : NodeConfig} (h : m.config = some c) :
    reset c = c ∧ ∃ b, toVec c = some b := by
  unfold PeerMessage.config at h
  split at h
  · rename_i c' hm
    obtain rfl := Option.some.inj h
    obtain ⟨hr, hb⟩ := of_fromSlice hm
    obtain ⟨b, hb, -⟩ := of_variant hb
    exact ⟨PeerRequest.updateConfig.inj hr, b, hb⟩
  · simp at h

theorem of_lastNodeConfig {ms : List PeerMessage} {c : NodeConfig}
    (h : lastNodeConfig ms = some c) :
    reset c = c ∧ ∃ b, toVec c = some b := by
  obtain ⟨m, -, hm⟩ := List.mem_filterMap.1 (List.mem_of_getLast? h)
  exact of_config hm

theorem settle_settle {c c' : Option NodeConfig} (l l' : Option (List MasterNode))
    (hc : ∀ x ∈ c', (toVec x).isSome) :
    (s.settle K c l).settle K c' l' = s.settle K (c'.or c) (l'.or l) := by
  rcases c' with _ | x
  · cases l' <;> cases c <;> simp [settle]
  · obtain ⟨b, hb⟩ := Option.isSome_iff_exists.1 (hc x rfl)
    cases l' <;> simp [settle, hb]

theorem getLast?_filterMap_cons {α β : Type*} (f : α → Option β) (a : α) (as : List α) :
    ((a :: as).filterMap f).getLast? = (as.filterMap f).getLast?.or (f a) := by
  rcases hf : f a with _ | b
  · rw [List.filterMap_cons_none hf, Option.or_none]
  · rw [List.filterMap_cons_some hf, List.getLast?_cons]
    cases (as.filterMap f).getLast? <;> rfl

/-- What any requests leave is what the last of each kind says. -/
theorem foldl_receive (ms : List PeerMessage) :
    ms.foldl (receive K report) s = s.settle K (lastNodeConfig ms) (lastList ms) := by
  induction ms generalizing s with
  | nil => rfl
  | cons m ms ih =>
    have hc : ∀ c ∈ lastNodeConfig ms, (toVec c).isSome := fun c hc =>
      Option.isSome_iff_exists.2 (of_lastNodeConfig hc).2
    rw [List.foldl_cons, ih, receive_eq, settle_settle _ _ hc]
    exact congrArg₂ (s.settle K) (getLast?_filterMap_cons _ m ms).symm
      (getLast?_filterMap_cons _ m ms).symm

theorem sameConfig_iff {c c' : Option NodeConfig} (hsub : c = none → c' = none)
    (hc : ∀ x ∈ c, reset x = x ∧ ∃ b, toVec x = some b)
    (hc' : ∀ x ∈ c', reset x = x ∧ ∃ b, toVec x = some b) :
    ((c.map (·.update K)).getD s.conf = (c'.map (·.update K)).getD s.conf
        ∧ (c.bind toVec).or s.localConf = (c'.bind toVec).or s.localConf)
      ↔ ∀ x ∈ c, c'.elim (s.HasConfig K x) (x = ·) := by
  rcases c with _ | x
  · simp [hsub rfl]
  obtain ⟨hr, b, hb⟩ := hc x rfl
  simp only [Option.map_some, Option.getD_some, Option.bind_some, hb, Option.some_or,
    Option.mem_some, forall_eq']
  rcases c' with _ | y
  · simp [HasConfig, hb, and_comm, eq_comm]
  · obtain ⟨hr', b', hb'⟩ := hc' y rfl
    simp only [Option.map_some, Option.getD_some, Option.bind_some, hb', Option.some_or,
      Option.some.injEq, Option.elim_some]
    constructor
    · rintro ⟨-, rfl⟩
      rw [← hr, ← hr', reset_eq_of_toVec_eq hb hb']
    · rintro rfl
      exact ⟨rfl, Option.some.inj (hb.symm.trans hb')⟩

theorem sameList_iff {l l' : Option (List MasterNode)} (hsub : l = none → l' = none) :
    (l.map masterRows).getD s.masterNodes = (l'.map masterRows).getD s.masterNodes
      ↔ ∀ x ∈ l, l'.elim (s.masterNodes = masterRows x) (x = ·) := by
  rcases l with _ | x
  · simp [hsub rfl]
  · rcases l' with _ | y
    · simp [eq_comm]
    · simp [masterRows_injective.eq_iff]

theorem last_of_sublist {ms ms' : List PeerMessage} {α : Type} {f : PeerMessage → Option α}
    (hsub : ms'.Sublist ms) (h : (ms.filterMap f).getLast? = none) :
    (ms'.filterMap f).getLast? = none := by
  rw [List.getLast?_eq_none_iff] at h ⊢
  exact List.sublist_nil.1 (h ▸ hsub.filterMap f)

theorem fromMasters_sublist : ∀ {s : NormalNode} {ms : List PeerMessage},
    (s.fromMasters K report ms).Sublist ms
  | _, [] => .slnil
  | s, m :: ms => by
    rw [fromMasters]
    split
    · exact fromMasters_sublist.cons_cons m
    · exact fromMasters_sublist.cons m

/-- What a node's requests leave is what those of its masters leave, if and only if no stranger has
the last word on the config or on the list: the last one of each kind says what the last one of the
masters says, or what the node had. -/
theorem steered_iff (K : Crypto) (report : OID → PeerResponse) (s : NormalNode)
    (ms : List PeerMessage) :
    ms.foldl (receive K report) s = (s.fromMasters K report ms).foldl (receive K report) s
      ↔ s.SameLast K ms (s.fromMasters K report ms) := by
  have hsub : (s.fromMasters K report ms).Sublist ms := fromMasters_sublist
  rw [foldl_receive, foldl_receive, settle, settle, NormalNode.mk.injEq, ← and_assoc]
  exact and_congr
    (sameConfig_iff (last_of_sublist hsub) (fun _ => of_lastNodeConfig) fun _ => of_lastNodeConfig)
    (sameList_iff (last_of_sublist hsub))

/-- A stranger empties the list of a node's masters. -/
theorem not_steered : ¬ ∀ (K : Crypto) (report : OID → PeerResponse) (s : NormalNode)
    (ms : List PeerMessage),
    ms.foldl (receive K report) s = (s.fromMasters K report ms).foldl (receive K report) s := by
  intro h
  have := h toy (fun _ => .error) ⟨.default toy, none, [((toyKey 0).bytes, none)]⟩
    [⟨"stranger", some (toyKey 2), [9, 0, 0, 0, 0]⟩]
  exact absurd (congrArg masterNodes this) (by decide +kernel)

end NormalNode

/-- A message of the master whose writes are not interleaved with others does what the handler
does. -/
theorem NodeSync.normal_deliver {K : Crypto} {peer : String} {s : NodeSync} {i : ℕ} {b : Bytes}
    (report : OID → PeerResponse) (hb : s.flight[i]? = some b) (hstores : s.stores = []) :
    ∃ acts s', Run.run (NodeSync.step K peer) s (.deliver i :: acts) = some s' ∧ s'.stores = []
      ∧ s'.normal = (s.normal.handle K report peer b).1 := by
  rcases hr : fromSlice PeerRequest b with _ | r
  case some =>
    cases r
    case updateConfig =>
      exact ⟨[.store 0, .store 0], _, by simp [Run.run, step, hb, hr, hstores]; rfl, rfl, by
        simp [NormalNode.handle, hr, normal]⟩
    case updateMasterNodeList =>
      exact ⟨[.store 0], _, by simp [Run.run, step, hb, hr, hstores]; rfl, rfl, by
        simp [NormalNode.handle, hr, normal]⟩
    all_goals exact ⟨[], _, by simp [Run.run, step, hb, hr, hstores]; rfl, rfl, by
      simp [NormalNode.handle, hr, normal]⟩
  case none =>
    exact ⟨[], _, by simp [Run.run, step, hb, hr, hstores]; rfl, rfl, by
      simp [NormalNode.handle, hr, normal]⟩

end Nyumt
