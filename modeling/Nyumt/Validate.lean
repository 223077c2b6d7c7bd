import Nyumt.Check

/-!
# The two validations of a request

A request is verified by the master it is sent to, over the encoding of its orders, which is what
a client signs, and by every other master, over the body of the block that reaches it.
-/

namespace Nyumt

open Borsh

variable (K : Crypto) (t : Tables)

/-- `verify_req` as the serving master's handler calls it for a session's user. -/
def servingVerify (req : List RequestType) (userPk : PublicKey) (perms : Permissions)
    (sign : Bytes) : Option (Except Fault (Option RequestError)) := do
  let v ← toVec req
  return verifyReq K t v req userPk perms sign

/-- `verify_req` as the gossip handler calls it for a block. -/
def peerVerify (block : Block) : Option (Except Fault (Option RequestError)) := do
  let v ← fromSlice BodyData block.body
  let perm ← t.permissionsOf v.userPk
  return verifyReq K t block.body v.req v.userPk perm v.sign

end Nyumt
