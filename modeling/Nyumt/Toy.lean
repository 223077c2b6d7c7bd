import Nyumt.Ledger
import Nyumt.Master

/-!
# A toy cryptography

Functions cheap enough to run a master on by evaluation: a signature is a zero, the key and the
message, so it is good for that message only, and the hash is a polynomial in the bytes.
-/

namespace Nyumt

/-- The value of a polynomial in the bytes, one past each, modulo 2^256. -/
def toyHash (b : Bytes) : ℕ := b.foldl (fun a x => (a * 257 + x.toNat + 1) % 2 ^ 256) 0

def toyDigest (b : Bytes) : Digest :=
  let n := toyHash b
  .ofFn fun i => .ofNat (n / 256 ^ (i : ℕ) % 256)

def toy : Crypto where
  sha256 := toyDigest
  decode _ := true
  verify k msg sig := sig = 0 :: (k.toList ++ msg)
  peerId k := .ofList (k.toList.map fun b => .ofNat b.toNat)

/-- A key of 32 equal bytes. -/
def toyKey (b : UInt8) : PublicKey := .ed25519 (List.Vector.replicate 32 b)

def toySign (k : PublicKey) (msg : Bytes) : Bytes :=
  match k with
  | .ed25519 v => 0 :: (v.toList ++ msg)

/-- A request signed by the user `k`. -/
def toyRequest (k : PublicKey) (perms : Permissions) (req : List RequestType) : Signed :=
  ⟨req, toySign k ((Borsh.toVec req).getD []), k, perms⟩

/-- The network of the node `toyKey 0` and the root user `toyKey 1`. -/
def toyGenesis : Database := (create toy {} (toyKey 0) (toyKey 1) 0).getD {}

theorem genesis_toyGenesis : Genesis toy (toyKey 0) (toyKey 1) 0 toyGenesis := by
  have h : (create toy {} (toyKey 0) (toyKey 1) 0).isSome := by decide +kernel
  obtain ⟨db, hdb⟩ := Option.isSome_iff_exists.1 h
  rw [Genesis, toyGenesis, hdb, Option.getD_some]

/-- A request of the root user, by its number and orders. -/
def toyBody (timestamp : UInt64) (req : List RequestType) : BodyData :=
  ⟨req, toySign (toyKey 1) ((Borsh.toVec req).getD []), toyKey 1, timestamp⟩

/-- The root user edits its row. -/
def renameRoot (name : String) : BodyData := toyBody 0 [.order (.editUser name (toyKey 1) [.root])]

/-- The steps of a task whose master has no peers: it reads the last block, finds nobody to ask,
answers, inserts and interprets. -/
def Master.alone (i : ℕ) : List Master.Act :=
  List.replicate 5 (.task i .insufficientPeers)

/-- The steps of a task that publishes its block and then its place, and is not voted down. -/
def Master.heard (i : ℕ) : List Master.Act := List.replicate 13 (.task i .sent)

/-- The network after the root user has added a second master, the node `toyKey 4`. -/
def toyPair : Database :=
  ((Run.run (Master.step toy) (.init toyGenesis (.default toy))
    (.request (toyBody 0 [.order (.addMasterNode "controller1" (toyKey 4))]) :: Master.alone 0)).map
      fun m => m.set.db).getD {}

/-- A master of `toyPair` has read its last block for the second request of the root user. -/
def toyLocals : Locals :=
  match toyPair.getLastBlock, serializeReq toy (toyBody 1 []) with
  | some (height, lastHash), some (bytes, hash) => ⟨height + 1, lastHash, bytes, hash⟩
  | _, _ => ⟨0, [], [], toyDigest []⟩

/-- That block. -/
def toyBlock : Block :=
  match Borsh.fromSlice NetData toyLocals.bytes with
  | some (.block block) => block
  | _ => ⟨toyDigest [], []⟩

/-- Every signature is good. A peer checks that of a block over bytes that hold the signature
itself, so the toy signatures never pass there. -/
def lax : Crypto := { toy with verify _ _ _ := true }

end Nyumt
