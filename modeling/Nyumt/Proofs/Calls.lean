import Nyumt.Calls

/-!
# Responses and the calls they are for

A response is handed on only if it can be read and the oneshot is under its request's id by then,
and on a node only if it is one of the four that `handle_response` passes. A call that times out
leaves its oneshot behind, and so does an `async_sync` that is stopped by its first response before
the second is there. These are the only ways in which a response misses its call or a call leaves
something in `resp` (`answered_run_iff`).
-/

namespace Nyumt

namespace Calls

variable {level : NodeLevel} {s s' : Calls} {i id : ℕ} {q : Sent}

/-- The request is one that the `i`-th call waits for. -/
def Owned (s : Calls) (i id : ℕ) : Prop := ∃ q, s.requests[id]? = some q ∧ q.call = some i

/-- The response has reached the oneshot. -/
def Got (s : Calls) (id : ℕ) : Prop := ∃ q, s.requests[id]? = some q ∧ q.got ≠ none

variable (level) in
/-- A response comes to the call that sent the request, if that call has not returned, and to no
other. One that cannot be read comes to none. -/
def Meets (s : Calls) : Act → Prop
  | .respond id response => ∀ s', s.step level (.respond id response) = some s' →
    ∀ v q, s.requests[v]? = some q → ∃ q', s'.requests[v]? = some q'
      ∧ if v = id ∧ s.Live q then ∃ r ∈ response, q'.got = some r else q'.got = q.got
  | _ => True

/-- The calls that have returned have nothing in `resp`. -/
def Clean (s : Calls) : Prop :=
  ∀ i id, s.calls[i]? = some .returned → s.Owned i id → id ∉ s.resp

variable (level) in
/-- A response to a waiting call comes after the oneshot was put into `resp` and can be read and is
one that is passed on; no call times out; a call that is stopped by a response has got the
others. -/
def InTime (s : Calls) : Act → Prop
  | .respond id response => ∀ q, s.requests[id]? = some q → s.Live q →
    (∃ r ∈ response, level.passes r) ∧ id ∈ s.resp
  | .receive i => ∀ ids n id q r, s.calls[i]? = some (.await ids n) → ids[n]? = some id →
    s.requests[id]? = some q → q.got = some r → level.next ids n r = .returned →
      ∀ id', s.Owned i id' → s.Got id'
  | .timeout _ => False
  | _ => True

variable (level) in
def CallOk (s : Calls) (i : ℕ) : Call → Prop
  | .send ids => ids.length < level.count ∧ ∀ id, s.Owned i id ↔ id ∈ ids
  | .register ids id => ids.length < level.count ∧ id ∉ s.resp ∧ ¬ s.Got id
    ∧ ∀ id', s.Owned i id' ↔ id' ∈ ids ++ [id]
  | .await ids n => ids.length = level.count ∧ (∀ id, s.Owned i id ↔ id ∈ ids)
    ∧ ∀ m id, m < n → ids[m]? = some id → s.Got id
  | .subscribe | .returned => ∀ id, s.Owned i id → s.Got id

variable (level) in
structure Inv (s : Calls) : Prop where
  owner : ∀ i id, s.Owned i id → i < s.calls.length
  mapped : ∀ id v, s.resp.lookup id = some v → v = id ∧ ¬ s.Got id ∧ ∃ i, s.Owned i id
  waiting : ∀ i id, s.Owned i id →
    s.Got id ∨ id ∈ s.resp ∨ ∃ ids, s.calls[i]? = some (.register ids id)
  answered : ∀ (id : ℕ) q, s.requests[id]? = some q → q.got ≠ none → q.answered = true
  calls : ∀ i c, s.calls[i]? = some c → s.CallOk level i c

section Requests

variable {resp : AList fun _ : ℕ => ℕ} {calls : List Call}

theorem owned_append (o : Option ℕ) (i id : ℕ) :
    Owned ⟨s.requests ++ [⟨o, false, none⟩], resp, calls⟩ i id
      ↔ s.Owned i id ∨ id = s.requests.length ∧ o = some i := by
  unfold Owned
  dsimp only
  rcases lt_trichotomy id s.requests.length with h | rfl | h
  · rw [List.getElem?_append_left h]
    simp [h.ne]
  · simp
  · rw [List.getElem?_eq_none (by simp; omega), List.getElem?_eq_none (by omega)]
    simp [h.ne']

theorem got_append (o : Option ℕ) (id : ℕ) :
    Got ⟨s.requests ++ [⟨o, false, none⟩], resp, calls⟩ id ↔ s.Got id := by
  unfold Got
  dsimp only
  rcases lt_trichotomy id s.requests.length with h | rfl | h
  · rw [List.getElem?_append_left h]
  · simp
  · rw [List.getElem?_eq_none (by simp; omega), List.getElem?_eq_none (by omega)]

theorem owned_set {q' : Sent} (hq : s.requests[id]? = some q) (hcall : q'.call = q.call)
    (i id' : ℕ) :
    Owned ⟨s.requests.set id q', resp, calls⟩ i id' ↔ s.Owned i id' := by
  have hlt := (List.getElem?_eq_some_iff.1 hq).1
  unfold Owned
  dsimp only
  by_cases h : id = id'
  · subst h
    rw [List.getElem?_set_self hlt, hq]
    simp [hcall]
  · rw [List.getElem?_set_ne h]

theorem got_set {q' : Sent} (hq : s.requests[id]? = some q) (id' : ℕ) :
    Got ⟨s.requests.set id q', resp, calls⟩ id' ↔
      if id' = id then q'.got ≠ none else s.Got id' := by
  have hlt := (List.getElem?_eq_some_iff.1 hq).1
  unfold Got
  dsimp only
  by_cases h : id = id'
  · subst h
    rw [List.getElem?_set_self hlt]
    simp
  · rw [List.getElem?_set_ne h, if_neg (Ne.symm h)]

end Requests

/-- What holds of a call holds on when more responses have come. -/
theorem CallOk.mono {c : Call} (h : s.CallOk level i c)
    (howned : ∀ id, s'.Owned i id ↔ s.Owned i id) (hgot : ∀ id, s.Got id → s'.Got id)
    (hreg : ∀ ids id, c = .register ids id → id ∉ s'.resp ∧ ¬ s'.Got id) : s'.CallOk level i c := by
  cases c with
  | send ids => exact ⟨h.1, fun id => (howned id).trans (h.2 id)⟩
  | register ids id =>
    obtain ⟨hm, hg⟩ := hreg ids id rfl
    exact ⟨h.1, hm, hg, fun id' => (howned id').trans (h.2.2.2 id')⟩
  | await ids n =>
    exact ⟨h.1, fun id => (howned id).trans (h.2.1 id),
      fun m id hm hid => hgot id (h.2.2 m id hm hid)⟩
  | subscribe | returned => exact fun id hid => hgot id (h id ((howned id).1 hid))

theorem callOk_append {c : Call} (h : s.CallOk level i c) {o : Option ℕ} (ho : o ≠ some i)
    {calls : List Call} :
    CallOk level ⟨s.requests ++ [⟨o, false, none⟩], s.resp, calls⟩ i c := by
  refine h.mono (fun id => ?_) (fun id hg => (got_append o id).2 hg) fun ids id hc => ?_
  · rw [owned_append]
    simp [ho]
  · subst hc
    exact ⟨h.2.1, fun hg => h.2.2.1 ((got_append o id).1 hg)⟩

theorem owned_unique {j : ℕ} (h : s.Owned i id) (h' : s.Owned j id) : i = j := by
  obtain ⟨q, hq, hi⟩ := h
  obtain ⟨q', hq', hj⟩ := h'
  obtain rfl : q = q' := by simpa [hq] using hq'
  simpa [hi] using hj

theorem owned_lt (h : s.Owned i id) : id < s.requests.length := by
  obtain ⟨q, hq, -⟩ := h
  exact (List.getElem?_eq_some_iff.1 hq).1

namespace Inv

theorem notMem_of_got (hi : Inv level s) (h : s.Got id) : id ∉ s.resp := by
  intro hm
  obtain ⟨v, hv⟩ := Option.isSome_iff_exists.1 (AList.lookup_isSome.2 hm)
  exact (hi.mapped id v hv).2.1 h

theorem length_notMem (hi : Inv level s) : s.requests.length ∉ s.resp := by
  intro hm
  obtain ⟨v, hv⟩ := Option.isSome_iff_exists.1 (AList.lookup_isSome.2 hm)
  obtain ⟨i, ho⟩ := (hi.mapped _ v hv).2.2
  exact (owned_lt ho).false

theorem clean (hi : Inv level s) : s.Clean := fun i id hc ho =>
  hi.notMem_of_got (hi.calls i _ hc id ho)

theorem set (hi : Inv level s) {c c' : Call} (hc : s.calls[i]? = some c)
    (hreg : ∀ ids id, c ≠ .register ids id) (hok : s.CallOk level i c') :
    Inv level { s with calls := s.calls.set i c' } where
  owner j id ho := by
    rw [List.length_set]
    exact hi.owner j id ho
  mapped := hi.mapped
  waiting j id ho := by
    refine (hi.waiting j id ho).imp_right (Or.imp_right fun ⟨ids, hj⟩ => ⟨ids, ?_⟩)
    dsimp only
    rw [List.getElem?_set_ne, hj]
    rintro rfl
    exact hreg ids id (by simpa [hc] using hj)
  answered := hi.answered
  calls j d hd := by
    have hlt := (List.getElem?_eq_some_iff.1 hc).1
    by_cases h : i = j
    · subst h
      obtain rfl : c' = d := by simpa [List.getElem?_set_self hlt] using hd
      exact hok
    · exact hi.calls j d (by simpa [List.getElem?_set_ne h] using hd)

theorem answered_append (hi : Inv level s) (o : Option ℕ) (id : ℕ) (q : Sent)
    (hq : (s.requests ++ [⟨o, false, none⟩])[id]? = some q) (hg : q.got ≠ none) :
    q.answered = true := by
  rcases lt_or_ge id s.requests.length with h | h
  · exact hi.answered id q (by simpa [List.getElem?_append_left h] using hq) hg
  · obtain rfl := List.mem_singleton.1
      (List.mem_of_getElem? (by rwa [List.getElem?_append_right h] at hq))
    exact absurd rfl hg

theorem other (hi : Inv level s) :
    Inv level { s with requests := s.requests ++ [⟨none, false, none⟩] } where
  owner j id ho := hi.owner j id (by simpa [owned_append] using ho)
  mapped id v hv := by
    obtain ⟨he, hg, j, ho⟩ := hi.mapped id v hv
    exact ⟨he, fun h => hg ((got_append _ _).1 h), j, (owned_append _ _ _).2 (.inl ho)⟩
  waiting j id ho := by
    rw [got_append]
    exact hi.waiting j id (by simpa [owned_append] using ho)
  answered := hi.answered_append none
  calls j c hc := callOk_append (hi.calls j c hc) (by simp)

theorem call (hi : Inv level s) : Inv level { s with calls := s.calls ++ [.send []] } where
  owner j id ho := by
    have := hi.owner j id ho
    rw [List.length_append]
    omega
  mapped := hi.mapped
  waiting j id ho := by
    refine (hi.waiting j id ho).imp_right (Or.imp_right fun ⟨ids, hj⟩ => ⟨ids, ?_⟩)
    exact (List.getElem?_append_left (hi.owner j id ho)).trans hj
  answered := hi.answered
  calls j c hc := by
    rcases lt_or_ge j s.calls.length with h | h
    · exact hi.calls j c (by simpa [List.getElem?_append_left h] using hc)
    · obtain rfl := List.mem_singleton.1
        (List.mem_of_getElem? (by rwa [List.getElem?_append_right h] at hc))
      refine ⟨by cases level <;> decide, fun id => iff_of_false (fun ho => ?_) (by simp)⟩
      have := hi.owner j id ho
      omega

theorem send (hi : Inv level s) {ids : List ℕ} (hc : s.calls[i]? = some (.send ids)) :
    Inv level { s with
      requests := s.requests ++ [⟨some i, false, none⟩]
      calls := s.calls.set i (.register ids s.requests.length) } := by
  have hlt := (List.getElem?_eq_some_iff.1 hc).1
  obtain ⟨hcount, howned⟩ := hi.calls i _ hc
  refine ⟨fun j id ho => ?_, fun id v hv => ?_, fun j id ho => ?_, hi.answered_append (some i),
    fun j c hj => ?_⟩
  · rw [List.length_set]
    rw [owned_append] at ho
    rcases ho with ho | ⟨-, he⟩
    · exact hi.owner j id ho
    · exact Option.some.inj he ▸ hlt
  · obtain ⟨he, hg, j, ho⟩ := hi.mapped id v hv
    exact ⟨he, fun h => hg ((got_append _ _).1 h), j, (owned_append _ _ _).2 (.inl ho)⟩
  · rw [got_append]
    rw [owned_append] at ho
    rcases ho with ho | ⟨rfl, he⟩
    · refine (hi.waiting j id ho).imp_right (Or.imp_right fun ⟨ids', hj⟩ => ⟨ids', ?_⟩)
      dsimp only
      rw [List.getElem?_set_ne, hj]
      rintro rfl
      simp [hc] at hj
    · obtain rfl := Option.some.inj he
      exact .inr (.inr ⟨ids, List.getElem?_set_self hlt⟩)
  · by_cases h : i = j
    · subst h
      obtain rfl : Call.register ids s.requests.length = c := by
        simpa [List.getElem?_set_self hlt] using hj
      refine ⟨hcount, hi.length_notMem, fun hg => ?_, fun id => ?_⟩
      · obtain ⟨q, hq, -⟩ := (got_append _ _).1 hg
        exact (List.getElem?_eq_some_iff.1 hq).1.false
      · rw [owned_append, howned, List.mem_append, List.mem_singleton]
        simp
    · have hj : s.calls[j]? = some c := by simpa [List.getElem?_set_ne h] using hj
      exact callOk_append (hi.calls j c hj) (by simpa using h)

theorem register (hi : Inv level s) {ids : List ℕ} (hc : s.calls[i]? = some (.register ids id)) :
    Inv level { s with
      resp := s.resp.insert id id
      calls := s.calls.set i (if (ids ++ [id]).length < level.count then .send (ids ++ [id])
        else .await (ids ++ [id]) 0) } := by
  have hlt := (List.getElem?_eq_some_iff.1 hc).1
  obtain ⟨hcount, hm, hg, howned⟩ := hi.calls i _ hc
  have ho : s.Owned i id := (howned id).2 (by simp)
  refine ⟨fun j id' ho => ?_, fun id' v hv => ?_, fun j id' ho' => ?_, hi.answered,
    fun j c hj => ?_⟩
  · rw [List.length_set]
    exact hi.owner j id' ho
  · by_cases h : id' = id
    · subst h
      obtain rfl : id' = v := by simpa using hv
      exact ⟨rfl, hg, i, ho⟩
    · exact hi.mapped id' v (by simpa [AList.lookup_insert_ne h] using hv)
  · rcases hi.waiting j id' ho' with h | h | ⟨ids', hj⟩
    · exact .inl h
    · exact .inr (.inl ((AList.mem_insert _).2 (.inr h)))
    · by_cases h : i = j
      · subst h
        obtain ⟨-, rfl⟩ : ids = ids' ∧ id = id' := by simpa [hc] using hj
        exact .inr (.inl ((AList.mem_insert _).2 (.inl rfl)))
      · exact .inr (.inr ⟨ids', (List.getElem?_set_ne h).trans hj⟩)
  · by_cases h : i = j
    · subst h
      rw [List.getElem?_set_self hlt, Option.some.injEq] at hj
      subst hj
      split_ifs with hmore
      · exact ⟨hmore, howned⟩
      · refine ⟨?_, howned, by simp⟩
        rw [List.length_append, List.length_singleton] at hmore ⊢
        omega
    · have hj : s.calls[j]? = some c := by simpa [List.getElem?_set_ne h] using hj
      refine (hi.calls j c hj).mono (fun _ => Iff.rfl) (fun _ h => h) fun ids' id' hreg => ?_
      subst hreg
      obtain ⟨-, hm', hg', howned'⟩ := hi.calls j _ hj
      refine ⟨fun hmem => ?_, hg'⟩
      rcases (AList.mem_insert _).1 hmem with rfl | hmem
      · exact h (owned_unique ho ((howned' id').2 (by simp)))
      · exact hm' hmem

/-- A response is handled. Its request gets something only if the oneshot was in `resp`, and no
other oneshot is taken out. -/
theorem respond (hi : Inv level s) (hq : s.requests[id]? = some q) {q' : Sent}
    {resp : AList fun _ : ℕ => ℕ} (hcall : q'.call = q.call) (hans : q'.answered = true)
    (hkeep : s.Got id → q'.got ≠ none) (hnew : q'.got ≠ none → s.Got id ∨ id ∈ s.resp)
    (hsub : ∀ id' v, resp.lookup id' = some v →
      s.resp.lookup id' = some v ∧ (id' = id → q'.got = none))
    (hstay : ∀ id' ∈ s.resp, id' ∈ resp ∨ id' = id ∧ q'.got ≠ none) :
    Inv level ⟨s.requests.set id q', resp, s.calls⟩ := by
  have howned : ∀ j id', Owned ⟨s.requests.set id q', resp, s.calls⟩ j id' ↔ s.Owned j id' :=
    owned_set hq hcall
  have hgot : ∀ id', Got ⟨s.requests.set id q', resp, s.calls⟩ id' ↔
      if id' = id then q'.got ≠ none else s.Got id' := got_set hq
  have hmono : ∀ id', s.Got id' → Got ⟨s.requests.set id q', resp, s.calls⟩ id' := fun id' h => by
    rw [hgot]
    split_ifs with he
    · exact hkeep (he ▸ h)
    · exact h
  refine ⟨fun j id' ho => hi.owner j id' ((howned j id').1 ho), fun id' v hv => ?_,
    fun j id' ho => ?_, fun id' t ht hg => ?_, fun j c hj => ?_⟩
  · obtain ⟨hv, hnone⟩ := hsub id' v hv
    obtain ⟨he, hg, j, ho⟩ := hi.mapped id' v hv
    refine ⟨he, fun h => ?_, j, (howned j id').2 ho⟩
    rw [hgot] at h
    split_ifs at h with hid
    · exact h (hnone hid)
    · exact hg h
  · rcases hi.waiting j id' ((howned j id').1 ho) with hg | hm | hreg
    · exact .inl (hmono id' hg)
    · rcases hstay id' hm with hm | ⟨rfl, hg⟩
      · exact .inr (.inl hm)
      · exact .inl ((hgot id').2 (by rwa [if_pos rfl]))
    · exact .inr (.inr hreg)
  · by_cases h : id = id'
    · subst h
      rw [List.getElem?_set_self (List.getElem?_eq_some_iff.1 hq).1, Option.some.injEq] at ht
      exact ht ▸ hans
    · exact hi.answered id' t (by simpa [List.getElem?_set_ne h] using ht) hg
  · refine (hi.calls j c hj).mono (howned j) hmono fun ids id' hreg => ?_
    subst hreg
    obtain ⟨-, hm, hg, -⟩ := hi.calls j _ hj
    refine ⟨fun hmem => ?_, fun h => ?_⟩
    · obtain ⟨v, hv⟩ := Option.isSome_iff_exists.1 (AList.lookup_isSome.2 hmem)
      exact hm (AList.lookup_isSome.1 (by rw [(hsub id' v hv).1]; rfl))
    · rw [hgot] at h
      split_ifs at h with hid
      · subst hid
        exact (hnew h).elim hg hm
      · exact hg h

theorem drop (hi : Inv level s) (hq : s.requests[id]? = some q) :
    Inv level { s with requests := s.requests.set id { q with answered := true } } := by
  have hgot : s.Got id ↔ q.got ≠ none := by simp [Got, hq]
  refine hi.respond hq rfl rfl hgot.1 (fun h => .inl (hgot.2 h)) (fun id' v hv => ⟨hv, ?_⟩)
    fun id' hm => .inl hm
  rintro rfl
  exact not_not.1 fun h => (hi.mapped _ v hv).2.1 (hgot.2 h)

/-- A request in `resp` has a call that waits for it. -/
theorem live (hi : Inv level s) (hq : s.requests[id]? = some q) (hm : id ∈ s.resp) : s.Live q := by
  obtain ⟨v, hv⟩ := Option.isSome_iff_exists.1 (AList.lookup_isSome.2 hm)
  obtain ⟨-, hg, i, ho⟩ := hi.mapped id v hv
  obtain ⟨q', hq', hcall⟩ := ho
  obtain rfl : q = q' := by simpa [hq] using hq'
  exact ⟨i, hcall, fun hc => hg (hi.calls i _ hc id ⟨q, hq, hcall⟩)⟩

theorem deliver_eq (hi : Inv level s) (hq : s.requests[id]? = some q) {v : ℕ}
    (hv : s.resp.lookup id = some v) (r : PeerResponse) :
    v = id ∧ Calls.deliver { s with
        requests := s.requests.set id { q with answered := true }
        resp := s.resp.erase id } v r
      = { s with
        requests := s.requests.set id { q with answered := true, got := some r }
        resp := s.resp.erase id } := by
  obtain rfl := (hi.mapped id v hv).1
  have hm : v ∈ s.resp := AList.lookup_isSome.1 (by rw [hv]; rfl)
  obtain ⟨i, hcall, hpc⟩ := hi.live hq hm
  have hlt := (List.getElem?_eq_some_iff.1 hq).1
  refine ⟨rfl, ?_⟩
  unfold Calls.deliver
  congr 1
  refine List.ext_getElem? fun k => ?_
  rw [List.getElem?_modify]
  by_cases h : v = k
  · subst h
    dsimp only
    rw [List.getElem?_set_self hlt, List.getElem?_set_self hlt]
    simp only [if_true, Option.map_eq_map, Option.map_some]
    exact congrArg some (if_pos ⟨i, hcall, hpc⟩)
  · dsimp only
    rw [List.getElem?_set_ne h, List.getElem?_set_ne h]
    simp [h]

theorem deliver (hi : Inv level s) (hq : s.requests[id]? = some q) (hm : id ∈ s.resp)
    (r : PeerResponse) : Inv level { s with
      requests := s.requests.set id { q with answered := true, got := some r }
      resp := s.resp.erase id } := by
  refine hi.respond hq rfl rfl (fun _ => by simp) (fun _ => .inr hm) (fun id' v hv => ?_)
    fun id' hm' => ?_
  · have hne : id' ≠ id := by
      rintro rfl
      simp at hv
    exact ⟨by rwa [AList.lookup_erase_ne hne] at hv, fun h => absurd h hne⟩
  · by_cases h : id' = id
    · exact .inr ⟨h, by simp⟩
    · exact .inl (AList.mem_erase.2 ⟨h, hm'⟩)

theorem receive (hi : Inv level s) {ids : List ℕ} {n : ℕ} {r : PeerResponse}
    (hc : s.calls[i]? = some (.await ids n)) (hid : ids[n]? = some id)
    (hq : s.requests[id]? = some q) (hr : q.got = some r)
    (hok : level.next ids n r = .returned → ∀ id', s.Owned i id' → s.Got id') :
    Inv level { s with calls := s.calls.set i (level.next ids n r) } := by
  refine hi.set hc (by simp) ?_
  obtain ⟨hlen, howned, hgot⟩ := hi.calls i _ hc
  have hthis : s.Got id := ⟨q, hq, by simp [hr]⟩
  revert hok
  fun_cases NodeLevel.next level ids n r with
  | case1 ids list =>
    refine fun _ => ⟨hlen, howned, fun m id' hm hid' => ?_⟩
    obtain rfl : m = 0 := by omega
    obtain rfl : id = id' := by simpa [hid] using hid'
    exact hthis
  | case2 ids conf =>
    intro _ id' ho
    obtain ⟨m, hlt, hm⟩ := List.mem_iff_getElem.1 ((howned id').1 ho)
    have hm' : ids[m]? = some id' := by rw [List.getElem?_eq_getElem hlt, hm]
    have hle : m < 2 := hlt.trans_eq hlen
    rcases Nat.lt_or_ge m 1 with h | h
    · exact hgot m id' h hm'
    · obtain rfl : m = 1 := by omega
      obtain rfl : id = id' := by simpa [hid] using hm'
      exact hthis
  | case3 => exact fun hok => hok rfl

theorem step (hi : Inv level s) {a : Act} (hok : s.InTime level a)
    (hs : s.step level a = some s') : Inv level s' := by
  cases of_step level hs with
  | call => exact hi.call
  | send hc => exact hi.send hc
  | register hc => exact hi.register hc
  | receive hc hid hq hr => exact hi.receive hc hid hq hr (hok _ _ _ _ _ hc hid hq hr)
  | timeout => exact hok.elim
  | subscribe hc => exact hi.other.set hc (by simp) (callOk_append (hi.calls _ _ hc) (by simp))
  | other => exact hi.other
  | @deliver id v q r hq _ _ hv =>
    rw [(hi.deliver_eq hq hv r).2]
    exact hi.deliver hq (AList.lookup_isSome.1 (by rw [hv]; rfl)) r
  | drop hq => exact hi.drop hq

end Inv

/-- A response comes to its call just when it is not dropped while the call waits. -/
theorem meets_iff (hi : Inv level s) {response : Option PeerResponse}
    (hs : s.step level (.respond id response) = some s') :
    s.Meets level (.respond id response) ↔ s.InTime level (.respond id response) := by
  have hget : ∀ (t : Sent) v q', s.requests[v]? = some q' → v ≠ id →
      (s.requests.set id t)[v]? = some q' := fun t v q' hq' h => by
    rw [List.getElem?_set_ne (Ne.symm h), hq']
  cases of_step level hs with
  | @deliver _ v q r hq _ hpass hv =>
    obtain ⟨hv', heq⟩ := hi.deliver_eq hq hv r
    have hm : id ∈ s.resp := AList.lookup_isSome.1 (by rw [hv]; rfl)
    refine iff_of_true ?_ fun q' _ _ => ⟨⟨r, rfl, hpass⟩, hm⟩
    intro t ht w q' hq'
    obtain rfl := Option.some.inj (hs.symm.trans ht)
    rw [heq]
    by_cases h : w = id
    · subst h
      obtain rfl : q = q' := by simpa [hq] using hq'
      refine ⟨_, List.getElem?_set_self (List.getElem?_eq_some_iff.1 hq).1, ?_⟩
      rw [if_pos ⟨rfl, hi.live hq hm⟩]
      exact ⟨r, rfl, rfl⟩
    · exact ⟨q', hget _ w q' hq' h, by rw [if_neg fun hw => h hw.1]⟩
  | @drop _ q _ hq hans h =>
    constructor
    · intro hmeets q' hq' hlive
      obtain rfl : q = q' := by simpa [hq] using hq'
      obtain ⟨u, hu, hgot⟩ := hmeets _ hs id q hq
      rw [List.getElem?_set_self (List.getElem?_eq_some_iff.1 hq).1, Option.some.injEq] at hu
      rw [if_pos ⟨rfl, hlive⟩, ← hu] at hgot
      -- what is dropped is not in the oneshot, and nothing was before
      obtain ⟨r, -, hgot⟩ : ∃ r ∈ response, q.got = some r := hgot
      have := hi.answered id q hq (by simp [hgot])
      simp [hans] at this
    · intro htime t ht w q' hq'
      obtain rfl := Option.some.inj (hs.symm.trans ht)
      by_cases hw : w = id
      · subst hw
        obtain rfl : q = q' := by simpa [hq] using hq'
        refine ⟨_, List.getElem?_set_self (List.getElem?_eq_some_iff.1 hq).1, ?_⟩
        rw [if_neg]
        rintro ⟨-, hlive⟩
        obtain ⟨⟨r, hr, hpass⟩, hm⟩ := htime q hq hlive
        exact h r hr hpass hm
      · exact ⟨q', hget _ w q' hq' hw, by rw [if_neg fun h => hw h.1]⟩

theorem inTime_of_clean (hi : Inv level s) {a : Act} (hs : s.step level a = some s')
    (hmeets : s.Meets level a) (hclean : s'.Clean) : s.InTime level a := by
  -- what is in `resp` of a call that returns with a response missing
  have hleft : ∀ {i ids n id}, s.calls[i]? = some (.await ids n) → s.Owned i id → ¬ s.Got id →
      id ∈ s.resp := fun hc ho hg => by
    rcases hi.waiting _ _ ho with h | h | ⟨ids, h⟩
    · exact absurd h hg
    · exact h
    · simp [hc] at h
  have hlt : ∀ {i c}, s.calls[i]? = some c → i < s.calls.length := fun hc =>
    (List.getElem?_eq_some_iff.1 hc).1
  cases a with
  | respond => exact (meets_iff hi hs).1 hmeets
  | receive i =>
    intro ids n id q r hc hid hq hr hnext id' ho
    cases of_step level hs with
    | receive hc' hid' hq' hr' =>
      obtain ⟨rfl, rfl⟩ : ids = _ ∧ n = _ := by simpa [hc] using hc'
      obtain rfl : id = _ := by simpa [hid] using hid'
      obtain rfl : q = _ := by simpa [hq] using hq'
      obtain rfl : r = _ := by simpa [hr] using hr'
      rw [hnext] at hclean
      by_contra hg
      exact hclean i id' (List.getElem?_set_self (hlt hc)) ho (hleft hc ho hg)
  | timeout i =>
    cases of_step level hs with
    | @timeout i n id ids q hc hid hq hr =>
      have ho : s.Owned i id := ((hi.calls i _ hc).2.1 id).2 (List.mem_of_getElem? hid)
      have hg : ¬ s.Got id := by
        rintro ⟨q', hq', hg⟩
        obtain rfl : q = q' := by simpa [hq] using hq'
        exact hg hr
      exact hclean i id (List.getElem?_set_self (hlt hc)) ho (hleft hc ho hg)
  | call | send | register | subscribe | other => trivial

theorem inv_init : Inv level {} := by
  constructor <;> simp [Owned]

/-- Every response meets its call and no call leaves anything in `resp`, just when every response to
a call that waits can be read, is passed on and finds its oneshot there, and no call returns without
its responses. -/
theorem answered_run_iff {as : List Act} (hr : Run.run (step level) {} as = some s) :
    Run.Along (step level) (Meets level) {} as ∧ Run.Throughout (step level) Clean {} as ↔
      Run.Along (step level) (InTime level) {} as := by
  refine Run.along_and_throughout_iff (I := Inv level) (P := Clean) (Q := Meets level)
    (c := fun _ _ => True) (fun s hi => hi.clean) (fun s a s' _ hok hs hi => ⟨?_, hi.step hok hs⟩)
    (fun s a s' _ hs hi hq hp => inTime_of_clean hi hs hq hp) Run.along_true hr inv_init
  cases a with
  | respond => exact (meets_iff hi hs).2 hok
  | call | send | register | receive | timeout | subscribe | other => trivial

theorem answered_run_iff_registered :
    Run.Along (step .master) (Meets .master) {}
        [.call, .send 0, .register 0, .respond 0 (some (.getStats [] [])), .receive 0]
      ∧ Run.Throughout (step .master) Clean {}
        [.call, .send 0, .register 0, .respond 0 (some (.getStats [] [])), .receive 0] := by
  have hr : Run.run (step .master) {}
      [.call, .send 0, .register 0, .respond 0 (some (.getStats [] [])), .receive 0]
      = some ⟨[⟨some 0, true, some (.getStats [] [])⟩], ∅, [.returned]⟩ := rfl
  refine (answered_run_iff hr).2 ⟨trivial, fun _ hs => ?_⟩
  obtain rfl := Option.some.inj hs
  refine ⟨trivial, fun _ hs => ?_⟩
  obtain rfl := Option.some.inj hs
  refine ⟨trivial, fun _ hs => ?_⟩
  obtain rfl := Option.some.inj hs
  refine ⟨fun _ _ _ => ⟨⟨_, rfl, rfl⟩, (AList.mem_insert _).2 (.inl rfl)⟩, fun _ hs => ?_⟩
  obtain rfl := Option.some.inj hs
  refine ⟨fun _ _ _ _ _ _ _ _ _ _ id' ho => ?_, fun _ _ => trivial⟩
  obtain rfl : id' = 0 := by simpa [deliver] using owned_lt ho
  exact ⟨⟨some 0, true, some (.getStats [] [])⟩, rfl, by simp⟩

/-- The response comes before the oneshot is under its id: it is dropped, the call times out, and
the oneshot stays. -/
theorem not_answered_run :
    ∃ s, Run.run (step .master) {}
        [.call, .send 0, .respond 0 (some (.getStats [] [])), .register 0, .timeout 0] = some s
      ∧ s.requests = [⟨some 0, true, none⟩] ∧ s.calls = [.returned] ∧ 0 ∈ s.resp := by
  refine ⟨⟨[⟨some 0, true, none⟩], (∅ : AList fun _ : ℕ => ℕ).insert 0 0, [.returned]⟩,
    rfl, rfl, rfl, ?_⟩
  exact (AList.mem_insert _).2 (.inl rfl)

end Calls

end Nyumt
