import Nyumt.Toy

/-!
# A body and its bytes

A body has one encoding, and a byte string is the encoding of at most one body, up to the hashes of
the configs in it (`body_canonical`). So what a master makes of a body it has read, and what a
client makes of the orders in it, are the bytes they were made of before.
-/

namespace Nyumt

open Borsh

/-- The config as it is read back: its hash is not written. -/
def MasterConfig.clearHash (c : MasterConfig) : MasterConfig := { c with hash := zeroHash }

def NodeConfig.clearHash (c : NodeConfig) : NodeConfig := { c with hash := zeroHash }

def Order.clearHash : Order → Order
  | .setConfig name master node => .setConfig name master.clearHash node.clearHash
  | o => o

def RequestType.clearHash : RequestType → RequestType
  | .order o => .order o.clearHash

/-- The body with the hash of every config in it zero. -/
def BodyData.clearHash (x : BodyData) : BodyData := { x with req := x.req.map .clearHash }

theorem reset_order (o : Order) : reset o = o.clearHash := by
  cases o
  case addUser n k p => exact congrArg (Order.addUser n k) (reset_eq p)
  case editUser n k p => exact congrArg (Order.editUser n k) (reset_eq p)
  case setConfig n m c =>
    have hc : reset c = c.clearHash :=
      congrArg (NodeConfig.mk zeroHash c.reportTimeframe) (reset_eq c.dbStruct)
    have hm : reset m = m.clearHash := rfl
    calc reset (Order.setConfig n m c) = .setConfig n (reset m) (reset c) := rfl
      _ = .setConfig n m.clearHash c.clearHash := by rw [hm, hc]
  all_goals rfl

theorem reset_requestType : ∀ r : RequestType, reset r = r.clearHash
  | .order o => congrArg RequestType.order (reset_order o)

/-- Decoding resets the hashes and nothing else. -/
theorem reset_body (x : BodyData) : reset x = x.clearHash := by
  have hreq : reset x.req = x.req.map .clearHash :=
    List.map_congr_left fun r _ => reset_requestType r
  have hsign : reset x.sign = x.sign := reset_eq x.sign
  calc reset x = ⟨reset x.req, reset x.sign, x.userPk, x.timestamp⟩ := rfl
    _ = x.clearHash := by rw [hreq, hsign, BodyData.clearHash]

theorem fromSlice_clearHash {x : BodyData} {b : Bytes} (h : toVec x = some b) :
    fromSlice BodyData b = some x.clearHash := by
  rw [fromSlice_of_ser h, reset_body]

/-- The orders read back are written as they were. -/
theorem toVec_clearHash_req {x : BodyData} {b : Bytes} (h : toVec x = some b) :
    toVec x.clearHash.req = toVec x.req := by
  obtain ⟨r, hr⟩ := of_toVec_body h
  rw [← reset_body, hr]
  exact toVec_reset hr

/-- What the handler of network events keeps of a block is the body it was sent. -/
theorem event_newBlock_lookup (K : Crypto) {y : BodyData} {b : Bytes}
    (h : fromSlice BodyData b = some y) (s : SwarmSettings) (hd : Handler) (hash : Digest)
    (okSent noSent : Bool) :
    (hd.event K s (.newBlock y hash) okSent noSent).2.1.candidates.lookup hash = some (b, y) := by
  simp [Handler.event, ser_of_fromSlice h]

/-- The format of a body is canonical: what is written is read back with the hashes of the configs
zero, and what is read was written as it stands. So a body passed on is written, hashed and its
orders checked as they were where it comes from. -/
theorem body_canonical (K : Crypto) :
    (∀ (x : BodyData) b, toVec x = some b → fromSlice BodyData b = some x.clearHash)
      ∧ (∀ b (x : BodyData), fromSlice BodyData b = some x → toVec x = some b)
      ∧ ∀ (x : BodyData) b, toVec x = some b → ∃ y, fromSlice BodyData b = some y
        ∧ toVec y = some b ∧ toVec y.req = toVec x.req
        ∧ ∀ (s : SwarmSettings) (h : Handler) hash okSent noSent,
          (h.event K s (.newBlock y hash) okSent noSent).2.1.candidates.lookup hash
            = some (b, y) := by
  refine ⟨fun x b => fromSlice_clearHash, fun b x => ser_of_fromSlice, fun x b h => ?_⟩
  have hy := fromSlice_clearHash h
  exact ⟨x.clearHash, hy, ser_of_fromSlice hy, toVec_clearHash_req h, event_newBlock_lookup K hy⟩

/-- The root user sets a configuration whose parts carry their hashes. -/
def setToyConfig : BodyData :=
  toyBody 0 [.order (.setConfig "spare" (.default toy) (.default toy))]

theorem body_canonical_setToyConfig : setToyConfig.clearHash ≠ setToyConfig ∧
    ∃ b, toVec setToyConfig = some b ∧ fromSlice BodyData b = some setToyConfig.clearHash
      ∧ toVec setToyConfig.clearHash = some b := by
  have hsome : (toVec setToyConfig).isSome := by decide +kernel
  obtain ⟨b, hb⟩ := Option.isSome_iff_exists.1 hsome
  obtain ⟨hread, hwrite, -⟩ := body_canonical toy
  exact ⟨by decide +kernel, b, hb, hread _ b hb, hwrite b _ (hread _ b hb)⟩

end Nyumt
