import Nyumt.Verify

/-!
# Verifying one query at a time

`verify_req` makes a query for an order's entity and at most one more for its permissions, and
other tasks write between them. `Check` is the call between two queries; on tables that stand
still it gives what `verifyReq` does (`Check.iterate_start`).
-/

namespace Nyumt

open Borsh

/-- `get_user_with_pubkey` and the permissions in the row it finds. -/
def Tables.permissionsOf (t : Tables) (pk : PublicKey) : Option Permissions :=
  match toVec pk with
  | some k =>
    match t.getUserWithPubkey k with
    | .ok user => fromSlice Permissions user.permissions
    | .error _ => none
  | none => none

inductive Check
  | entity (req : List RequestType)
  | permission (ord : Order) (req : List RequestType)
  | done (r : Except Fault (Option RequestError))

namespace Check

/-- The signature comes before any query. -/
def start (K : Crypto) (rawReq : Bytes) (req : List RequestType) (userPk : PublicKey)
    (sig : Bytes) : Check :=
  match userPk.verifySig K rawReq sig with
  | .ok true => .entity req
  | .ok false => .done (.ok (some .signatureError))
  | .error e => .done (.error e)

def step (t : Tables) (userPk : PublicKey) (perms : Permissions) : Check → Check
  | .entity [] => .done (.ok none)
  | .entity (.order ord :: req) =>
    match verifyEntity t ord with
    | .ok none => .permission ord req
    | r => .done r
  | .permission ord req =>
    match verifyPermission t userPk perms ord with
    | .ok none => .entity req
    | r => .done r
  | .done r => .done r

variable {t : Tables} {userPk : PublicKey} {perms : Permissions}

theorem iterate_entity : ∀ req : List RequestType,
    ∃ n, (step t userPk perms)^[n] (.entity req) = .done (verifyOrders t userPk perms req)
  | [] => ⟨1, rfl⟩
  | .order ord :: req => by
    obtain ⟨n, hn⟩ := iterate_entity req
    simp only [verifyOrders, verifyOrder]
    rcases he : verifyEntity t ord with e | _ | e
    · exact ⟨1, by simp [step, he, bind, Except.bind]⟩
    · rcases hp : verifyPermission t userPk perms ord with e | _ | e
      · exact ⟨2, by simp [step, he, hp, bind, Except.bind]⟩
      · refine ⟨n + 2, ?_⟩
        have h2 : (step t userPk perms)^[2] (.entity (.order ord :: req)) = .entity req := by
          simp [step, he, hp]
        rw [Function.iterate_add_apply, h2, hn]
        rfl
      · exact ⟨2, by simp [step, he, hp, bind, Except.bind, pure, Except.pure]⟩
    · exact ⟨1, by simp [step, he, bind, Except.bind, pure, Except.pure]⟩

/-- Query by query, on tables nobody writes to, is `verifyReq`. -/
theorem iterate_start (K : Crypto) (rawReq : Bytes) (req : List RequestType) (sig : Bytes) :
    ∃ n, (step t userPk perms)^[n] (start K rawReq req userPk sig)
      = .done (verifyReq K t rawReq req userPk perms sig) := by
  unfold start verifyReq
  rcases userPk.verifySig K rawReq sig with e | _ | _
  · exact ⟨0, rfl⟩
  · exact ⟨0, rfl⟩
  · exact iterate_entity req

end Check

end Nyumt
