import Nyumt.Channel
import Nyumt.Toy

/-!
# What the swarm leaves unanswered

The handler sends one response of the right variant for every request but `Address`, which it drops
where the swarm knows no external address (`answers_iff`). A task panics just at such a call
(`run_ok_iff`): `get_stats` never does, and `send_update` only over a list of masters that names its
own node.
-/

namespace Nyumt

open Borsh

variable {σ α β : Type} (L : Libp2p σ) {swarm : ℕ → σ}

namespace SwarmHandlerCall

theorem answers_iff (m : SwarmHandlerCall α) (s : σ) :
    m.Answered L s ↔ (m.req = .address → L.externalAddresses s ≠ []) := by
  cases m with
  | address =>
    simp only [Answered, req, Libp2p.swarmEventHandler, forall_const]
    rcases L.externalAddresses s with _ | ⟨addr, addrs⟩
    · simp
    · exact iff_of_true ⟨_, rfl, rfl⟩ (List.cons_ne_nil _ _)
  | publish | configUpdate | masterNodeListUpdate | respond | peers | peerPresent | request
    | disconnectFromPeer | subscribe => exact iff_of_true ⟨_, rfl, rfl⟩ nofun

/-- A response of another variant is never sent. -/
theorem call_cases (m : SwarmHandlerCall α) (s : σ) :
    (m.Answered L s ∧ ∃ v, m.call L s = .ok v)
      ∨ (m.req = .address ∧ L.externalAddresses s = [] ∧ m.call L s = .error .fatal) := by
  by_cases h : m.Answered L s
  · obtain ⟨r, hr, hv⟩ := h
    obtain ⟨v, hv'⟩ := Option.isSome_iff_exists.1 hv
    exact .inl ⟨⟨r, hr, hv⟩, v, by simp only [call, hr, hv']⟩
  · rw [answers_iff, Classical.not_imp, not_not] at h
    obtain ⟨hreq, hnone⟩ := h
    exact .inr ⟨hreq, hnone, by simp only [call, hreq, Libp2p.swarmEventHandler, hnone]⟩

theorem call_address (s : σ) : address.call L s
    = (L.externalAddresses s).head?.elim (.error .fatal) .ok := by
  simp only [call, req, Libp2p.swarmEventHandler]
  rcases L.externalAddresses s with _ | ⟨addr, addrs⟩ <;> rfl

end SwarmHandlerCall

namespace Caller

/-- A task comes to its end if, and only if, the swarm has an external address whenever it is asked
for one. -/
theorem run_ok_iff : ∀ (c : Caller α) (n : ℕ), (∃ a, c.run L swarm n = .ok a)
    ↔ ∀ i, (c.sends L swarm n)[i]? = some .address → L.externalAddresses (swarm (n + i)) ≠ []
  | .ret a, n => iff_of_true ⟨a, rfl⟩ nofun
  | .call m k, n => by
    simp only [run, sends]
    rcases m.call_cases L (swarm n) with ⟨hans, v, hv⟩ | ⟨hreq, hnone, herr⟩
    · rw [SwarmHandlerCall.answers_iff] at hans
      simp only [hv]
      rw [run_ok_iff (k v) (n + 1)]
      constructor
      · rintro h (_ | i) hi
        · exact hans (by simpa using hi)
        · rw [show n + (i + 1) = n + 1 + i by omega]
          exact h i (by simpa using hi)
      · intro h i hi
        rw [show n + 1 + i = n + (i + 1) by omega]
        exact h (i + 1) (by simpa using hi)
    · simp only [herr]
      refine iff_of_false (by rintro ⟨a, ha⟩; cases ha) fun h => ?_
      exact h 0 (by simp [hreq]) hnone

/-- Whatever it is answered, it never asks for the address. -/
inductive Quiet : Caller α → Prop
  | ret (a : α) : Quiet (.ret a)
  | call {β : Type} {m : SwarmHandlerCall β} {k : β → Caller α} (hm : m.req ≠ .address)
      (hk : ∀ v, Quiet (k v)) : Quiet (.call m k)

theorem Quiet.bind {c : Caller α} {f : α → Caller β} (hc : c.Quiet) (hf : ∀ a, (f a).Quiet) :
    (c.bind f).Quiet := by
  induction hc with
  | ret a => exact hf a
  | call hm _ ih => exact .call hm fun v => ih v

theorem Quiet.run_ok {c : Caller α} (hc : c.Quiet) (n : ℕ) : ∃ a, c.run L swarm n = .ok a := by
  induction hc generalizing n with
  | ret a => exact ⟨a, rfl⟩
  | call hm _ ih =>
    rename_i m k _
    rcases m.call_cases L (swarm n) with ⟨-, v, hv⟩ | ⟨hreq, -⟩
    · simp only [run, hv]
      exact ih v (n + 1)
    · exact absurd hreq hm

theorem quiet_forEach {f : String → SwarmHandlerCall Unit} (hf : ∀ x, (f x).req ≠ .address) :
    ∀ xs : List String, (forEach f xs).Quiet
  | [] => .ret ()
  | x :: xs => .call (hf x) fun _ => quiet_forEach hf xs

theorem quiet_tell {f : String → Bytes → SwarmHandlerCall Unit}
    (hf : ∀ x update, (f x update).req ≠ .address) (nodes : List String) :
    ∀ update, (tell f nodes update).Quiet
  | some update => quiet_forEach (fun x => hf x update) nodes
  | none => .ret ()

theorem run_bind_error {c : Caller α} {e : ChannelPanic} (f : α → Caller β) {n : ℕ}
    (h : c.run L swarm n = .error e) : (c.bind f).run L swarm n = .error e := by
  induction c generalizing n with
  | ret a => cases h
  | call m k ih =>
    simp only [run] at h
    simp only [Caller.bind, run]
    rcases hm : m.call L (swarm n) with e' | v <;> simp only [hm] at h ⊢
    · exact congrArg _ (Except.error.inj h)
    · exact ih v h

theorem run_const (x : σ) : ∀ (c : Caller α) (n m : ℕ),
    c.run L (fun _ => x) n = c.run L (fun _ => x) m
  | .ret a, _, _ => rfl
  | .call f k, n, m => by
    simp only [run]
    rcases f.call L x with e | v
    · rfl
    · exact run_const x (k v) (n + 1) (m + 1)

theorem run_bind (x : σ) (f : α → Caller β) : ∀ (c : Caller α) (n : ℕ),
    (c.bind f).run L (fun _ => x) n
      = (c.run L (fun _ => x) n).bind fun a => (f a).run L (fun _ => x) n
  | .ret a, _ => rfl
  | .call g k, n => by
    simp only [Caller.bind, run]
    rcases g.call L x with e | v
    · rfl
    · simp only [run_bind x f (k v) (n + 1)]
      exact congrArg _ (funext fun a => run_const L x (f a) (n + 1) n)

end Caller

section Callers

variable {K : Crypto} {s : Subscriptions}

theorem quiet_getStats (own : Option (Bytes × Bytes)) (wait : ℕ → Option PeerResponse)
    (peer : String) (oid : OID) : (getStats K s own wait peer oid).Quiet := by
  unfold getStats
  split_ifs
  · exact .ret _
  · refine .call nofun fun present => ?_
    cases present
    · exact .ret _
    · exact .call nofun fun id => .ret _

theorem quiet_listMasters {pubkey : PublicKey} : ∀ {ks : List Bytes}, pubkey.bytes ∉ ks →
    (listMasters pubkey ks).Quiet
  | [], _ => .ret _
  | k :: ks, h => by
    have ih := quiet_listMasters fun hk => h (List.mem_cons_of_mem _ hk)
    unfold listMasters
    split
    · exact ih
    · rename_i mpk hmpk
      have hne : mpk ≠ pubkey := by
        rintro rfl
        have hk := ser_of_fromSlice hmpk
        rw [PublicKey.toVec_eq, Option.some.injEq] at hk
        exact h (hk ▸ List.mem_cons_self)
      rw [if_neg hne]
      exact ih.bind fun list => .ret _

/-- The first thing it asks for is the address. -/
theorem run_listMasters {pubkey : PublicKey} {n : ℕ} (hnone : L.externalAddresses (swarm n) = []) :
    ∀ {ks : List Bytes}, pubkey.bytes ∈ ks →
      (listMasters pubkey ks).run L swarm n = .error .fatal
  | k :: ks, h => by
    have hcall : SwarmHandlerCall.address.call L (swarm n) = .error .fatal := by
      rw [SwarmHandlerCall.call_address, hnone]
      rfl
    unfold listMasters
    split
    · rename_i hk
      rcases List.mem_cons.1 h with rfl | h
      · rw [PublicKey.fromSlice_bytes] at hk
        cases hk
      · exact run_listMasters hnone h
    · rename_i mpk hmpk
      split_ifs with hown
      · change (Caller.call SwarmHandlerCall.address _).run L swarm n = _
        simp only [Caller.run, hcall]
      · rcases List.mem_cons.1 h with rfl | h
        · rw [PublicKey.fromSlice_bytes, Option.some.injEq] at hmpk
          exact absurd hmpk.symm hown
        · change ((listMasters pubkey ks).bind _).run L swarm n = _
          exact Caller.run_bind_error L _ (run_listMasters hnone h)

/-- Of a swarm that stays as it is, a task gets the list that the master's address gives. -/
theorem run_listMasters_eq {x : σ} (own : PublicKey) (n : ℕ) : ∀ ks : List Bytes,
    (listMasters own ks).run L (fun _ => x) n
      = (listMasterNodes own (L.externalAddresses x).head?
        (ks.filterMap (fromSlice PublicKey))).elim (.error .fatal) .ok
  | [] => rfl
  | k :: ks => by
    have ih := run_listMasters_eq (x := x) own n ks
    unfold listMasters
    split
    · rename_i hk
      rw [List.filterMap_cons_none hk]
      exact ih
    · rename_i mpk hmpk
      rw [List.filterMap_cons_some hmpk]
      have hrest : ∀ node, ((listMasters own ks).bind fun list => .ret (node :: list)).run L
          (fun _ => x) n = ((listMasterNodes own (L.externalAddresses x).head?
            (ks.filterMap (fromSlice PublicKey))).map (node :: ·)).elim (.error .fatal) .ok := by
        intro node
        rw [Caller.run_bind, ih]
        rcases listMasterNodes own _ _ with _ | list <;> rfl
      rw [listMasterNodes_cons, masterNode]
      split_ifs with hown
      · change (Caller.call SwarmHandlerCall.address _).run L (fun _ => x) n = _
        have hcall := SwarmHandlerCall.call_address L x
        generalize (L.externalAddresses x).head? = addr at hcall hrest ⊢
        rcases addr with _ | addr
        · simp only [Caller.run, hcall]
          rfl
        · simp only [Caller.run, hcall]
          exact (Caller.run_const L x _ _ n).trans (hrest ⟨mpk, some addr⟩)
      · exact hrest ⟨mpk, none⟩

/-- `notice` panics over the list of masters where the task does. -/
theorem notice_masterNodeListUpdate {x : σ} (h : (L.externalAddresses x).head? = s.external)
    (n : ℕ) : s.notice K .masterNodeListUpdate = none
      ↔ (listMasters s.pubkey s.db.getMasterNodes).run L (fun _ => x) n = .error .fatal := by
  rw [run_listMasters_eq, h, Subscriptions.notice, Option.map_eq_none_iff,
    Subscriptions.masterNodes]
  rcases listMasterNodes s.pubkey s.external _ with _ | list <;> simp

theorem quiet_tell_configUpdate (nodes : List String) (update : Option Bytes) :
    (Caller.tell .configUpdate nodes update).Quiet :=
  Caller.quiet_tell (fun _ _ => by simp [SwarmHandlerCall.req]) nodes update

theorem quiet_tell_masterNodeListUpdate (nodes : List String) (update : Option Bytes) :
    (Caller.tell .masterNodeListUpdate nodes update).Quiet :=
  Caller.quiet_tell (fun _ _ => by simp [SwarmHandlerCall.req]) nodes update

/-- Only the list of masters makes it ask, and only if the master itself is on it. -/
theorem quiet_sendUpdate : ∀ {s : Subscriptions} {us : List Update},
    .masterNodeListUpdate ∉ us ∨ s.pubkey.bytes ∉ s.db.getMasterNodes → (sendUpdate K s us).Quiet
  | s, [], _ => .ret _
  | s, u :: us, h => by
    have hus : .masterNodeListUpdate ∉ us ∨ s.pubkey.bytes ∉ s.db.getMasterNodes :=
      h.imp_left fun hu hmem => hu (List.mem_cons_of_mem _ hmem)
    cases u with
    | masterNodeListUpdate =>
      have hown := h.resolve_left fun hu => hu List.mem_cons_self
      exact (quiet_listMasters hown).bind fun list =>
        (quiet_tell_masterNodeListUpdate _ _).bind fun _ => quiet_sendUpdate hus
    | configUpdate | nodeConfigChange | none =>
      unfold sendUpdate
      split
      · exact .ret _
      · exact quiet_sendUpdate hus
      · rename_i n hn
        refine (quiet_tell_configUpdate _ _).bind fun _ => quiet_sendUpdate ?_
        cases n <;> simp only [Subscriptions.adopt] <;> try split_ifs
        all_goals exact hus

/-- With its own key on record as a master's, and no external address, the task ends here: what is
left of the updates reaches no node. -/
theorem run_sendUpdate {us : List Update} {n : ℕ} (hown : s.pubkey.bytes ∈ s.db.getMasterNodes)
    (hnone : L.externalAddresses (swarm n) = []) :
    (sendUpdate K s (.masterNodeListUpdate :: us)).run L swarm n = .error .fatal :=
  Caller.run_bind_error L _ (run_listMasters L hnone hown)

end Callers

section Witness

/-- A swarm without connections, as its external addresses. -/
def toySwarm : Libp2p (List String) where
  sendRequest s _ _ := (s, 0)
  sendResponse s _ _ := s
  isConnected _ _ := false
  allMeshPeers _ := []
  publish s _ _ := (s, .error .insufficientPeers)
  disconnectPeerId s _ := (s, .error ())
  subscribe s _ := s
  externalAddresses s := s

/-- A swarm that knows no external address drops the sender. -/
theorem not_answered_toySwarm :
    ¬ ∀ (α : Type) (m : SwarmHandlerCall α) (s : List String), m.Answered toySwarm s := by
  intro h
  obtain ⟨r, hr, -⟩ := h String .address []
  cases hr

end Witness

/-- Every method is answered but `address` where the swarm has no external address, and a task
panics just where it makes such a call; `get_stats` makes none. -/
theorem channel_answers_iff :
    (∀ (α : Type) (m : SwarmHandlerCall α) (s : σ),
      m.Answered L s ↔ (m.req = .address → L.externalAddresses s ≠ []))
    ∧ (∀ (α : Type) (c : Caller α) (swarm : ℕ → σ), (∃ a, c.run L swarm 0 = .ok a)
      ↔ ∀ i, (c.sends L swarm 0)[i]? = some .address → L.externalAddresses (swarm i) ≠ [])
    ∧ ∀ (K : Crypto) (s : Subscriptions) (own : Option (Bytes × Bytes))
        (wait : ℕ → Option PeerResponse) (peer : String) (oid : OID) (swarm : ℕ → σ),
        ∃ r, (getStats K s own wait peer oid).run L swarm 0 = .ok r := by
  refine ⟨fun α m s => m.answers_iff L s, fun α c swarm => ?_, fun K s own wait peer oid swarm =>
    (quiet_getStats own wait peer oid).run_ok L 0⟩
  rw [c.run_ok_iff]
  simp only [Nat.zero_add]

end Nyumt
