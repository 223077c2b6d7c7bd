import Nyumt.Answer
import Nyumt.Toy

/-!
# Which calls of a client are answered

A `Request` of a peer without a session is answered by nothing at all. A `GetStats` for a key that
is none is answered `Error`, which the client passes by. Both leave the caller waiting; every other
request has its answer (`answered_iff`).
-/

namespace Nyumt

def ClientRequest.IsCall : ClientRequest → Prop
  | .request _ | .getStats _ _ => True
  | _ => False

namespace Handling

variable (K : Crypto) (h : Handling) (peer : String)

/-- One response is sent. Of a call it is one that makes the call return: whichever calls wait at
the client, this one returns with it and no other does. -/
def Answered (req : ClientRequest) : Prop :=
  (h.handle K peer req).length = 1 ∧ (req.IsCall → ∀ (w : Waiters) id call, ∃ status,
    ((h.handle K peer req).foldl (·.handleResp id) (w.sendOrder id call)).returned
      = w.returned ++ [(call, status)])

/-- A request to execute comes from a peer with a session, a request for statistics names a key. -/
def Answerable : ClientRequest → Prop
  | .request _ => peer ∈ h.auth
  | .getStats (.ed25519 k) _ => K.decode k
  | _ => True

variable {K h peer}

theorem verifyUserPermissions_nil : h.verifyUserPermissions peer [] ↔ peer ∈ h.auth := by
  unfold verifyUserPermissions
  rw [← AList.lookup_isSome]
  rcases h.auth.lookup peer with _ | user <;> simp

/-- A response that `handle_resp` looks for a call with. -/
theorem returned_handleResp (w : Waiters) (id call : ℕ) {r : ClientResponse} {status : RequestResp}
    (hr : r = .request status ∨ r = .getStats status) :
    ((w.sendOrder id call).handleResp id r).returned = w.returned ++ [(call, status)] := by
  rcases hr with rfl | rfl <;> simp [Waiters.handleResp, Waiters.sendOrder]

/-- A request is answered, and its call returns, just when there is a session to execute it for or a
node's key to ask about. -/
theorem answered_iff (hopen : h.reply ≠ none) (req : ClientRequest) :
    h.Answered K peer req ↔ h.Answerable K peer req := by
  obtain ⟨reply, hreply⟩ := Option.ne_none_iff_exists'.1 hopen
  cases req with
  | hello version pk settings =>
    refine iff_of_true ⟨?_, fun hc => hc.elim⟩ trivial
    simp only [handle]
    split_ifs <;> rfl
  | block | stats | stat => exact iff_of_true ⟨rfl, fun hc => hc.elim⟩ trivial
  | request req =>
    have hhandle : h.handle K peer (.request req)
        = if peer ∈ h.auth then [.request (h.execute K peer req)] else [] :=
      if_congr verifyUserPermissions_nil rfl rfl
    rw [Answered, hhandle, Answerable]
    split_ifs with hm
    · exact iff_of_true ⟨rfl, fun _ w id call => ⟨_, returned_handleResp w id call (.inl rfl)⟩⟩ hm
    · simp [hm]
  | getStats pk oid =>
    obtain ⟨k⟩ := pk
    by_cases hk : K.decode k
    · have hhandle : h.handle K peer (.getStats (.ed25519 k) oid)
          = [.getStats (.requestStatus reply)] := by simp [handle, PublicKey.toPeerId, hk, hreply]
      refine iff_of_true ?_ hk
      rw [Answered, hhandle]
      exact ⟨rfl, fun _ w id call => ⟨_, returned_handleResp w id call (.inr rfl)⟩⟩
    · have hhandle : h.handle K peer (.getStats (.ed25519 k) oid) = [.error] := by
        simp [handle, PublicKey.toPeerId, hk]
      refine iff_of_false (fun ha => ?_) hk
      rw [Answered, hhandle] at ha
      obtain ⟨status, hs⟩ := ha.2 trivial {} 0 0
      simp [Waiters.handleResp, Waiters.sendOrder] at hs

theorem answered_iff_session :
    Answered toy {
      auth := (∅ : AList fun _ : String => User).insert "peer" ⟨toyKey 1, [.root]⟩
      reply := some (.status .ok) } "peer" (.request ⟨[], []⟩) :=
  (answered_iff (by simp) _).2 ((AList.mem_insert _).2 (.inl rfl))

/-- The request is handled before `event_handler` has made the session: nothing is sent, and the
call does not return. -/
theorem not_answered :
    Handling.handle toy { reply := some (.status .ok) } "peer" (.request ⟨[], []⟩) = []
      ∧ ¬ Answered toy { reply := some (.status .ok) } "peer" (.request ⟨[], []⟩) := by
  refine ⟨rfl, fun ha => ?_⟩
  have hlen : (0 : ℕ) = 1 := ha.1
  simp at hlen

end Handling

end Nyumt
