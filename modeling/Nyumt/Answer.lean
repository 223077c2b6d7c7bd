import Nyumt.Messages
import Nyumt.Session

/-!
# Answers to clients

What a master's handler of a decoded `ClientRequest` sends on the request's channel, and what a
client makes of a response. A client's call is put under its request's id by the task that sends the
request, so the response always finds it there.
-/

namespace Nyumt

open Borsh

/-- What the handler of a request meets on its way. -/
structure Handling where
  /-- The sessions when the permissions are looked at. -/
  auth : AList fun _ : String => User := ∅
  /-- The sessions when the user is read. -/
  users : AList fun _ : String => User := ∅
  /-- The tables `verify_req` asks. -/
  tables : Tables := {}
  /-- What comes through the request channel, if it is open. -/
  reply : Option Reply := none

namespace Handling

variable (K : Crypto) (h : Handling) (peer : String)

/-- With no permission asked for, any session will do. -/
def verifyUserPermissions (permissions : List Permission) : Bool :=
  match h.auth.lookup peer with
  | some user => permissions = [] ∨ ∃ p ∈ permissions, p ∈ user.permissions
  | none => false

/-- The result of the blocking task of `ClientRequest::Request`. -/
def execute (req : Request) : RequestResp :=
  match h.users.lookup peer with
  | some user =>
    match toVec req.req with
    | some v =>
      match verifyReq K h.tables v req.req user.pubkey user.permissions req.sign with
      | .ok (some e) => .requestError e
      | .ok none => .requestStatus (h.reply.getD (.status .nodeError))
      | .error _ => .requestStatus (.status .nodeError)
    | none => .requestStatus (.status .nodeError)
  | none => .requestStatus (.status .nodeError)

/-- `handle` of `master_serve`: the responses it sends. -/
def handle : ClientRequest → List ClientResponse
  | .hello version pk _ =>
    if version ≠ protocolVersion ∧ Session.validPk K peer pk then [.error]
    else [.hi protocolVersion]
  | .request req =>
    if h.verifyUserPermissions peer [] then [.request (h.execute K peer req)]
    else [] -- nothing is sent
  | .getStats pk _ =>
    match pk.toPeerId K, h.reply with
    | .ok _, some r => [.getStats (.requestStatus r)]
    | _, _ => [.error]
  | .block _ | .stats _ | .stat _ => [.error]

end Handling

/-- A client's calls: those that wait, by the ids of their requests, and what others returned. -/
structure Waiters where
  resp : AList fun _ : ℕ => ℕ := ∅
  returned : List (ℕ × RequestResp) := []
  /-- It has asked to be disconnected. -/
  disconnecting : Bool := false

namespace Waiters

/-- `SwarmHandlerRequest::SendOrder`, for the given call. -/
def sendOrder (w : Waiters) (id call : ℕ) : Waiters := { w with resp := w.resp.insert id call }

def handleResp (w : Waiters) (id : ℕ) : ClientResponse → Waiters
  | .incompatibleVersion _ => { w with disconnecting := true }
  | .request status | .getStats status =>
    match w.resp.lookup id with
    | some call => { w with resp := w.resp.erase id, returned := w.returned ++ [(call, status)] }
    | none => w
  | _ => w

end Waiters

end Nyumt
