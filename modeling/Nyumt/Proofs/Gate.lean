import Nyumt.Gate
import Nyumt.Toy

/-!
# Which messages are dispatched

A message passes the gate just if its id is a signature of it under the key on record for its
source (`receive_eq_some`). A hash never is one, so nothing passes (`receive_eq_none`), the messages
of the masters on record included.
-/

namespace Nyumt

open Borsh

variable {K : Crypto} {db : Database} {msg : Message}

theorem receive_eq_some {data : NetData} :
    receive K db msg = some data ↔
      ∃ peer k, msg.source = some peer
        ∧ db.getPeerMasterNodePk peer = some (PublicKey.ed25519 k).bytes
        ∧ K.decode k ∧ K.verify k msg.data (messageId K msg.data)
        ∧ fromSlice NetData msg.data = some data := by
  simp only [receive, Option.bind_eq_bind, Option.bind_eq_some_iff]
  constructor
  · rintro ⟨peer, hp, v, hv, ⟨k⟩, hk, h⟩
    have hvk : v = (PublicKey.ed25519 k).bytes := by
      simpa using (ser_of_fromSlice hk).symm.trans (PublicKey.toVec_eq _)
    subst hvk
    simp only [PublicKey.verifySig] at h
    by_cases hd : K.decode k
    · rw [if_pos hd] at h
      rcases hs : K.verify k msg.data (messageId K msg.data) with _ | _
      · simp [hs] at h
      · rw [hs] at h
        exact ⟨peer, k, hp, hv, hd, hs, h⟩
    · simp [hd] at h
  · rintro ⟨peer, k, hp, hv, hd, hs, h⟩
    refine ⟨peer, hp, _, hv, .ed25519 k, PublicKey.fromSlice_bytes _, ?_⟩
    simp only [PublicKey.verifySig, if_pos hd, hs, h]

theorem receive_eq_none (h : HashNoSignature K) : receive K db msg = none := by
  rcases hr : receive K db msg with _ | data
  · rfl
  · obtain ⟨peer, k, -, -, -, hs, -⟩ := receive_eq_some.1 hr
    simp [h k msg.data] at hs

/-- The gate is to dispatch just the messages that carry the data and are authentic; it does so
for the others. -/
theorem receive_iff_authentic {data : NetData} (h : HashNoSignature K) :
    (receive K db msg = some data ↔ toVec data = some msg.data ∧ Authentic db msg) ↔
      ¬ (toVec data = some msg.data ∧ Authentic db msg) := by
  rw [receive_eq_none h]
  simp only [reduceCtorEq, false_iff]

theorem hexDigit_ne_zero : ∀ n < 16, hexDigit n ≠ 0 := by decide

theorem zero_notMem_messageId (data : Bytes) : 0 ∉ messageId K data := by
  simp only [messageId, List.mem_flatMap, List.mem_cons, List.not_mem_nil, or_false, not_exists,
    not_and, not_or]
  intro b _
  have hb := b.toNat_lt
  exact ⟨(hexDigit_ne_zero _ (by omega)).symm, (hexDigit_ne_zero _ (by omega)).symm⟩

theorem hashNoSignature_toy : HashNoSignature toy := by
  intro k m
  refine decide_eq_false fun h => zero_notMem_messageId (K := toy) m ?_
  rw [h]
  exact List.mem_cons_self

/-- A vote by a stranger. -/
theorem receive_iff_authentic_stranger :
    let msg : Message := ⟨some "x", toyKey 2, (toVec (NetData.vote zeroHash .ok)).getD []⟩
    receive toy toyGenesis msg = some (.vote zeroHash .ok) ↔
      toVec (NetData.vote zeroHash .ok) = some msg.data ∧ Authentic toyGenesis msg := by
  refine (receive_iff_authentic hashNoSignature_toy).2 fun ⟨_, _, hr, _⟩ => ?_
  have hnone : toyGenesis.nodePeerid = [] := by decide +kernel
  simp [hnone] at hr

/-- A vote by the node itself, whose peer id is on record. -/
theorem receive_drops_authentic :
    let db : Database := { toyGenesis with nodePeerid := [⟨some 1, "x"⟩] }
    let msg : Message := ⟨some "x", toyKey 0, (toVec (NetData.vote zeroHash .ok)).getD []⟩
    toVec (NetData.vote zeroHash .ok) = some msg.data ∧ Authentic db msg
      ∧ receive toy db msg = none := by
  refine ⟨rfl, ⟨_, List.mem_cons_self,
    ⟨1, "controller0", (toyKey 0).bytes, true, "default", some 1⟩, ?_, rfl, rfl, rfl, rfl⟩,
    receive_eq_none hashNoSignature_toy⟩
  decide +kernel

end Nyumt
