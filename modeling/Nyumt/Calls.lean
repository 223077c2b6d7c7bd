import Mathlib.Data.List.AList
import Nyumt.Lib.Run
import Nyumt.Messages

/-!
# Calls that wait for a response

`get_stats` on a master and `async_sync` on a node. Each hands a request to the swarm task, learns
the request's id, puts the sender of a oneshot under it in `resp` and later waits for the receiver.
Responses are handled in tasks of their own. Between any two of these steps other tasks run.
-/

namespace Nyumt

inductive NodeLevel
  | master
  | normal
  deriving DecidableEq

/-- A request that was sent; its id is its place. -/
structure Sent where
  /-- The call that is to wait for the response. -/
  call : Option ℕ
  answered : Bool := false
  /-- What is in the oneshot. -/
  got : Option PeerResponse := none
  deriving DecidableEq

/-- Where a call is. `ids` are its requests whose oneshots are in `resp`. -/
inductive Call
  | send (ids : List ℕ)
  /-- The swarm task has sent the request `id`. -/
  | register (ids : List ℕ) (id : ℕ)
  /-- It waits for the response to the `n`-th of its requests. -/
  | await (ids : List ℕ) (n : ℕ)
  | subscribe
  | returned
  deriving DecidableEq

/-- A node's calls. `resp` names a oneshot after the request whose response its receiver is for. -/
structure Calls where
  requests : List Sent := []
  resp : AList fun _ : ℕ => ℕ := ∅
  calls : List Call := []

namespace NodeLevel

/-- How many responses a call waits for: that of `GetStats`; those of `MasterNodeList` and
`NodeConfig`. -/
def count : NodeLevel → ℕ
  | master => 1
  | normal => 2

/-- The responses for which `handle_response` looks into `resp`. -/
def passes : NodeLevel → PeerResponse → Bool
  | master, _ => true
  | normal, .nodeConfigHash _ | normal, .nodeConfig _ | normal, .masterNodeListHash _
  | normal, .masterNodeList _ => true
  | normal, _ => false

/-- What comes after the `n`-th response. A wrong one stops `async_sync`. -/
def next : NodeLevel → List ℕ → ℕ → PeerResponse → Call
  | normal, ids, 0, .masterNodeList _ => .await ids 1
  | normal, _, 1, .nodeConfig _ => .subscribe
  | _, _, _, _ => .returned

end NodeLevel

namespace Calls

inductive Act
  | call
  /-- The swarm task sends the call's next request. -/
  | send (i : ℕ)
  /-- `resp.write().await.insert(req_id, tx)`. -/
  | register (i : ℕ)
  /-- The call has got the response it waits for. -/
  | receive (i : ℕ)
  | timeout (i : ℕ)
  | subscribe (i : ℕ)
  /-- The node sends a request that nobody waits for. -/
  | other
  /-- `handle_response`; the response may be one that cannot be read. -/
  | respond (id : ℕ) (response : Option PeerResponse)

/-- The receiver of the request's oneshot is there. -/
def Live (s : Calls) (q : Sent) : Prop := ∃ i ∈ q.call, s.calls[i]? ≠ some .returned

instance (s : Calls) (q : Sent) : Decidable (s.Live q) := inferInstanceAs (Decidable (∃ i ∈ _, _))

/-- `v.send(response).ok()`. -/
def deliver (s : Calls) (id : ℕ) (r : PeerResponse) : Calls :=
  { s with
    requests := s.requests.modify id fun q => if s.Live q then { q with got := some r } else q }

variable (level : NodeLevel)

def step (s : Calls) : Act → Option Calls
  | .call => some { s with calls := s.calls ++ [.send []] }
  | .send i =>
    match s.calls[i]? with
    | some (.send ids) => some { s with
        requests := s.requests ++ [⟨some i, false, none⟩]
        calls := s.calls.set i (.register ids s.requests.length) }
    | _ => none
  | .register i =>
    match s.calls[i]? with
    | some (.register ids id) =>
      let ids := ids ++ [id]
      some { s with
        resp := s.resp.insert id id
        calls := s.calls.set i (if ids.length < level.count then .send ids else .await ids 0) }
    | _ => none
  | .receive i =>
    match s.calls[i]? with
    | some (.await ids n) => do
      let id ← ids[n]?
      let q ← s.requests[id]?
      let r ← q.got
      return { s with calls := s.calls.set i (level.next ids n r) }
    | _ => none
  | .timeout i =>
    match level, s.calls[i]? with
    | .master, some (.await ids n) => do
      let id ← ids[n]?
      let q ← s.requests[id]?
      if q.got = none then some { s with calls := s.calls.set i .returned } else none
    | _, _ => none
  | .subscribe i =>
    match s.calls[i]? with
    | some .subscribe => some { s with
        requests := s.requests ++ [⟨none, false, none⟩]
        calls := s.calls.set i .returned }
    | _ => none
  | .other => some { s with requests := s.requests ++ [⟨none, false, none⟩] }
  | .respond id response => do
    let q ← s.requests[id]?
    if q.answered then none
    else
      let s := { s with requests := s.requests.set id { q with answered := true } }
      match response with
      | some r =>
        if level.passes r then
          match s.resp.lookup id with
          | some v => some (deliver { s with resp := s.resp.erase id } v r)
          | none => some s
        else some s
      | none => some s

/-- What an action does to the state. -/
inductive Moves (s : Calls) : Act → Calls → Prop
  | call : Moves s .call { s with calls := s.calls ++ [.send []] }
  | send {i : ℕ} {ids : List ℕ} (hc : s.calls[i]? = some (.send ids)) :
      Moves s (.send i) { s with
        requests := s.requests ++ [⟨some i, false, none⟩]
        calls := s.calls.set i (.register ids s.requests.length) }
  | register {i id : ℕ} {ids : List ℕ} (hc : s.calls[i]? = some (.register ids id)) :
      Moves s (.register i) { s with
        resp := s.resp.insert id id
        calls := s.calls.set i (if (ids ++ [id]).length < level.count then .send (ids ++ [id])
          else .await (ids ++ [id]) 0) }
  | receive {i n id : ℕ} {ids : List ℕ} {q : Sent} {r : PeerResponse}
      (hc : s.calls[i]? = some (.await ids n)) (hid : ids[n]? = some id)
      (hq : s.requests[id]? = some q) (hr : q.got = some r) :
      Moves s (.receive i) { s with calls := s.calls.set i (level.next ids n r) }
  | timeout {i n id : ℕ} {ids : List ℕ} {q : Sent} (hc : s.calls[i]? = some (.await ids n))
      (hid : ids[n]? = some id) (hq : s.requests[id]? = some q) (hr : q.got = none) :
      Moves s (.timeout i) { s with calls := s.calls.set i .returned }
  | subscribe {i : ℕ} (hc : s.calls[i]? = some .subscribe) :
      Moves s (.subscribe i) { s with
        requests := s.requests ++ [⟨none, false, none⟩]
        calls := s.calls.set i .returned }
  | other : Moves s .other { s with requests := s.requests ++ [⟨none, false, none⟩] }
  | deliver {id v : ℕ} {q : Sent} {r : PeerResponse} (hq : s.requests[id]? = some q)
      (hans : q.answered = false) (hpass : level.passes r) (hv : s.resp.lookup id = some v) :
      Moves s (.respond id (some r)) (deliver { s with
        requests := s.requests.set id { q with answered := true }
        resp := s.resp.erase id } v r)
  | drop {id : ℕ} {q : Sent} {response : Option PeerResponse} (hq : s.requests[id]? = some q)
      (hans : q.answered = false) (h : ∀ r ∈ response, level.passes r → id ∉ s.resp) :
      Moves s (.respond id response) { s with
        requests := s.requests.set id { q with answered := true } }

theorem of_step {s s' : Calls} {a : Act} (hs : s.step level a = some s') : Moves level s a s' := by
  cases a with
  | call | other =>
    obtain rfl := Option.some.inj hs
    constructor
  | send i | register i | subscribe i =>
    simp only [step] at hs
    split at hs
    · rename_i hc
      obtain rfl := Option.some.inj hs
      constructor
      exact hc
    · cases hs
  | receive i =>
    simp only [step] at hs
    split at hs
    · rename_i hc
      obtain ⟨id, hid, hs⟩ := Option.bind_eq_some_iff.1 hs
      obtain ⟨q, hq, hs⟩ := Option.bind_eq_some_iff.1 hs
      obtain ⟨r, hr, hs⟩ := Option.bind_eq_some_iff.1 hs
      obtain rfl := Option.some.inj hs
      exact .receive hc hid hq hr
    · cases hs
  | timeout i =>
    simp only [step] at hs
    split at hs
    · rename_i hc
      obtain ⟨id, hid, hs⟩ := Option.bind_eq_some_iff.1 hs
      obtain ⟨q, hq, hs⟩ := Option.bind_eq_some_iff.1 hs
      split_ifs at hs with hr
      obtain rfl := Option.some.inj hs
      exact .timeout hc hid hq hr
    · cases hs
  | respond id response =>
    obtain ⟨q, hq, hs⟩ := Option.bind_eq_some_iff.1 hs
    split_ifs at hs with hans
    have hans : q.answered = false := by simpa using hans
    rcases response with _ | r
    · obtain rfl := Option.some.inj hs
      exact .drop hq hans fun r hr => by simp at hr
    · dsimp only at hs
      split_ifs at hs with hpass
      · split at hs
        · rename_i v hv
          exact Option.some.inj hs ▸ .deliver hq hans hpass hv
        · rename_i hv
          obtain rfl := Option.some.inj hs
          exact .drop hq hans fun _ _ _ => AList.lookup_eq_none.1 hv
      · obtain rfl := Option.some.inj hs
        exact .drop hq hans fun r' hr' hpass' => absurd (Option.some.inj hr' ▸ hpass') hpass

end Calls

end Nyumt
