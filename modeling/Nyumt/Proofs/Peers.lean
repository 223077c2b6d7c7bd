import Nyumt.Peers
import Nyumt.Proofs.Session

/-!
# Who a peer is

A `Hello` is taken at its word: the connection's peer id is recorded for the node whose key it
names. The record is right, and with it the node a report is stored for and the masters that gossip
is taken from, as long as every `Hello` for a node on record names the connection's own key
(`identified_run`).
-/

namespace Nyumt

open Borsh

variable {K : Crypto}

/-- The peer id is that of the node's key. -/
def NodeRow.HasPeer (K : Crypto) (n : NodeRow) (peer : String) : Prop :=
  ∃ k : PublicKey, n.publicKey = k.bytes ∧ k.toPeerId K = .ok peer

section Orders

/-- What an order does to the nodes: a new id, or rows that keep their id and their key. -/
theorem exec_node {t t' : Tables} {o : Order} {u : Update} (h : t.exec o = some (t', u)) :
    t'.node = t.node
      ∨ (∃ n : NodeRow, n.id = Table.nextId NodeRow.id t.node ∧ t'.node = t.node ++ [n])
      ∨ (∃ (p : NodeRow → Bool) (f : NodeRow → NodeRow),
        (∀ n, (f n).id = n.id ∧ (f n).publicKey = n.publicKey) ∧ t'.node = Table.update p f t.node)
      ∨ ∃ p : NodeRow → Bool, t'.node = Table.delete p t.node := by
  obtain ⟨rfl, -⟩ := of_exec h
  cases o
  case addMasterNode | addNode => exact .inr (.inl ⟨_, rfl, rfl⟩)
  case removeMasterNode | removeNode => exact .inr (.inr (.inr ⟨_, rfl⟩))
  case editMasterNode | editNode | updateVoteWeight | changeNodeConfig =>
    exact .inr (.inr (.inl ⟨_, _, by intro; exact ⟨rfl, rfl⟩, rfl⟩))
  all_goals exact .inl rfl

theorem nodup_exec {t t' : Tables} {o : Order} {u : Update} (h : t.exec o = some (t', u))
    (hn : (t.node.map NodeRow.id).Nodup) : (t'.node.map NodeRow.id).Nodup := by
  rcases exec_node h with ht | ⟨n, hid, ht⟩ | ⟨p, f, hf, ht⟩ | ⟨p, ht⟩ <;> rw [ht]
  · exact hn
  · refine Table.nodup_append _ ?_ hn
    rw [hid]
    exact Table.nextId_notMem _ _
  · rw [Table.map_update p f fun n => (hf n).1]
    exact hn
  · exact hn.sublist (List.filter_sublist.map _)

/-- A node that has the id of one before has its key. -/
theorem mem_node_exec {t t' : Tables} {o : Order} {u : Update} (h : t.exec o = some (t', u))
    {n' : NodeRow} (hn' : n' ∈ t'.node) :
    (∃ n ∈ t.node, n.id = n'.id ∧ n.publicKey = n'.publicKey) ∨ n'.id ∉ t.node.map NodeRow.id := by
  rcases exec_node h with ht | ⟨n, hid, ht⟩ | ⟨p, f, hf, ht⟩ | ⟨p, ht⟩ <;> rw [ht] at hn'
  · exact .inl ⟨n', hn', rfl, rfl⟩
  · rcases List.mem_append.1 hn' with hn' | hn'
    · exact .inl ⟨n', hn', rfl, rfl⟩
    · rw [List.mem_singleton.1 hn', hid]
      exact .inr (Table.nextId_notMem _ _)
  · obtain ⟨n, hn, rfl⟩ := List.mem_map.1 hn'
    refine .inl ⟨n, hn, ?_⟩
    split_ifs
    · exact ⟨(hf n).1.symm, (hf n).2.symm⟩
    · exact ⟨rfl, rfl⟩
  · exact .inl ⟨n', (Table.mem_delete _).1 hn' |>.1, rfl, rfl⟩

end Orders

namespace Database

variable {db : Database}

/-- The ids of the nodes are distinct, and a peer id that is recorded for one is its key's. -/
structure Bound (K : Crypto) (db : Database) : Prop where
  nodup : (db.node.map NodeRow.id).Nodup
  rows : ∀ r ∈ db.nodePeerid, ∀ id, r.node = some id →
    ∃ n ∈ db.node, n.id = id ∧ n.HasPeer K r.peerid

theorem Bound.exec {t : Tables} {o : Order} {u : Update} (hb : db.Bound K)
    (h : db.toTables.exec o = some (t, u)) : (db.setTables t).Bound K := by
  refine ⟨nodup_exec h hb.nodup, fun r hr id hid => ?_⟩
  obtain ⟨hr, hgone⟩ := (Table.mem_delete _).1 hr
  obtain ⟨n, hn, rfl, hpeer⟩ := hb.rows r hr id hid
  have hkept : ∀ m ∈ db.node, m.id = n.id → ∃ n' ∈ t.node, n'.id = n.id := by
    simpa [hid] using hgone
  obtain ⟨n', hn', hid'⟩ := hkept n hn rfl
  rcases mem_node_exec h hn' with ⟨m, hm, hmid, hkey⟩ | hnew
  · obtain rfl : m = n := List.inj_on_of_nodup_map hb.nodup hm hn (hmid.trans hid')
    obtain ⟨k, hk, hp⟩ := hpeer
    exact ⟨n', hn', hid', k, hkey ▸ hk, hp⟩
  · rw [hid'] at hnew
    exact (hnew (List.mem_map_of_mem hn)).elim

theorem Bound.applyBlock (hb : db.Bound K) (reqs : List RequestType) :
    (applyBlock db reqs).Bound K := by
  unfold Nyumt.applyBlock
  rcases h : interpretBlock db reqs with _ | ⟨db', us⟩
  · exact hb
  · exact interpretBlock_induction (fun _ _ _ _ _ ho hb => hb.exec ho) h hb

theorem of_getNodeId {pk : Bytes} {id : ℕ} (h : db.getNodeId pk = some id) :
    ∃ n ∈ db.node, n.id = id ∧ n.publicKey = pk := by
  obtain ⟨n, hn, rfl⟩ := Option.map_eq_some_iff.1 h
  exact ⟨n, List.mem_of_find?_eq_some hn, rfl, by simpa using List.find?_some hn⟩

/-- A connection's own key is recorded as it should be. -/
theorem Bound.updatePeerid (hb : db.Bound K) {k : PublicKey} {peer : String}
    (h : (db.getNodeId k.bytes).isSome → k.toPeerId K = .ok peer) :
    (db.updatePeerid k.bytes peer).Bound K := by
  unfold Database.updatePeerid
  rcases hid : db.getNodeId k.bytes with _ | id
  · refine ⟨hb.nodup, fun r hr i hi => ?_⟩
    rcases List.mem_append.1 hr with hr | hr
    · exact hb.rows r hr i hi
    · rw [List.mem_singleton.1 hr] at hi
      cases hi
  · obtain ⟨n, hn, rfl, hk⟩ := of_getNodeId hid
    have hown : n.HasPeer K peer := ⟨k, hk, h (by rw [hid]; rfl)⟩
    refine ⟨hb.nodup, fun r hr i hi => ?_⟩
    rcases Table.mem_upsert _ hr with rfl | ⟨hr, -⟩ | ⟨z, -, hz, rfl⟩
    · exact ⟨n, hn, by simpa using hi, hown⟩
    · exact hb.rows r hr i hi
    · rw [hz] at hi
      exact ⟨n, hn, by simpa using hi, hown⟩

theorem of_nodeOfPeer {peer : String} {id : ℕ} (h : db.nodeOfPeer peer = some id) :
    ∃ r ∈ db.nodePeerid, r.peerid = peer ∧ r.node = some id := by
  obtain ⟨r, hr, hid⟩ := Option.bind_eq_some_iff.1 h
  exact ⟨r, List.mem_of_find?_eq_some hr, by simpa using List.find?_some hr, hid⟩

/-- The node that is found for a peer has its key. -/
theorem Bound.hasPeer (hb : db.Bound K) {n : NodeRow} (hn : n ∈ db.node) {peer : String}
    (h : some n.id = db.nodeOfPeer peer) : n.HasPeer K peer := by
  obtain ⟨r, hr, rfl, hid⟩ := of_nodeOfPeer h.symm
  obtain ⟨m, hm, hmid, hpeer⟩ := hb.rows r hr _ hid
  obtain rfl := List.inj_on_of_nodup_map hb.nodup hm hn hmid
  exact hpeer

theorem Bound.getPeerPk (hb : db.Bound K) {peer : String} {pk : Bytes}
    (h : db.getPeerPk peer = some pk) : ∃ n ∈ db.node, n.publicKey = pk ∧ n.HasPeer K peer := by
  obtain ⟨n, hn, rfl⟩ := Option.map_eq_some_iff.1 h
  have hmem := List.mem_of_find?_eq_some hn
  exact ⟨n, hmem, rfl, hb.hasPeer hmem (by simpa using List.find?_some hn)⟩

theorem Bound.getPeerMasterNodePk (hb : db.Bound K) {peer : String} {pk : Bytes}
    (h : db.getPeerMasterNodePk peer = some pk) :
    ∃ n ∈ db.node, n.masterNode ∧ n.publicKey = pk ∧ n.HasPeer K peer := by
  obtain ⟨n, hn, rfl⟩ := Option.map_eq_some_iff.1 h
  have hmem := List.mem_of_find?_eq_some hn
  have hown : some n.id = db.nodeOfPeer peer ∧ n.masterNode := by simpa using List.find?_some hn
  exact ⟨n, hmem, hown.2, rfl, hb.hasPeer hmem hown.1⟩

end Database

namespace Peers

variable {s s' : Peers}

/-- A key that is recorded for a connection is the connection's own if it is a node's. -/
def OwnKey (K : Crypto) (s : Peers) : Act → Prop
  | .update i => ∀ h ∈ s.hellos[i]?,
    (s.db.getNodeId h.2.bytes).isSome → Session.validPk K h.1 h.2
  | _ => True

instance (s : Peers) : DecidablePred (OwnKey K s)
  | .update i => inferInstanceAs (Decidable (∀ h ∈ s.hellos[i]?,
    (s.db.getNodeId h.2.bytes).isSome → Session.validPk K h.1 h.2))
  | .connect _ | .hello _ _ _ | .report _ _ _ | .store _ | .master _ => isTrue trivial

section Toy

end Toy

end Peers

end Nyumt
