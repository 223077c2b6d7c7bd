import Nyumt.Ledger
import Nyumt.Proofs.Steps
import Nyumt.Toy

/-!
# The chain

The `order` table of one master is a hash chain at every moment (`chain_run`). A task works on a
last block that others may have built on since; what stays true of its height and hash is that
some row in the table comes right before them (`Place`), for rows are never changed. The insert
finds its height free only if that row is still the last (`Chain.append`). An approving peer hashes
the body of a candidate and appends the candidate it has by then, which is the same body, since
both are known by one hash.
-/

namespace Nyumt

open Borsh

variable {K : Crypto}

/-- The hash of the row before the height. -/
def prevHash (rows : List OrderRow) : ℕ → Bytes
  | 0 => []
  | i + 1 => (rows[i]?.map OrderRow.hash).getD []

/-- The rows are numbered from 0, and each holds a block whose hash is its own and covers its body
and the hash before. -/
structure Chain (K : Crypto) (rows : List OrderRow) : Prop where
  ids : rows.map OrderRow.id = List.range rows.length
  link : ∀ i row, rows[i]? = some row → ∃ b : Block, fromSlice Block row.data = some b
    ∧ row.hash = b.hash.toList ∧ b.hash = K.sha256 (prevHash rows i ++ b.body)

/-- Some row comes right before a block of this body at this height with this hash. -/
def Place (K : Crypto) (rows : List OrderRow) (body : Bytes) (height : ℕ) (hash : Digest) : Prop :=
  ∃ r ∈ rows, height = r.id + 1 ∧ hash = K.sha256 (r.hash ++ body)

/-- The row holds the block of this body and hash. -/
structure Holds (row : OrderRow) (body : Bytes) (hash : Digest) : Prop where
  data : fromSlice Block row.data = some ⟨hash, body⟩
  hash : row.hash = hash.toList

section Rows

variable {rows rows' : List OrderRow}

theorem Place.mono {body : Bytes} {height : ℕ} {hash : Digest} (hs : rows ⊆ rows')
    (h : Place K rows body height hash) : Place K rows' body height hash := by
  obtain ⟨r, hr, hh, hx⟩ := h
  exact ⟨r, hs hr, hh, hx⟩

theorem place_of_getLastBlock {db : Database} {height : ℕ} {hash body : Bytes}
    (h : db.getLastBlock = some (height, hash)) :
    Place K db.order body (height + 1) (K.sha256 (hash ++ body)) := by
  obtain ⟨⟨r, hr, rfl, rfl⟩, -⟩ := Database.of_getLastBlock h
  exact ⟨r, hr, rfl, rfl⟩

theorem id_lt_length (h : rows.map OrderRow.id = List.range rows.length) {r : OrderRow}
    (hr : r ∈ rows) : r.id < rows.length := by
  have hmem := List.mem_map_of_mem (f := OrderRow.id) hr
  rw [h, List.mem_range] at hmem
  exact hmem

theorem getElem?_id (h : rows.map OrderRow.id = List.range rows.length) {r : OrderRow}
    (hr : r ∈ rows) : rows[r.id]? = some r := by
  obtain ⟨i, hi, rfl⟩ := List.getElem_of_mem hr
  have hid : (rows.map OrderRow.id)[i]? = some i := by simp [h, hi]
  rw [List.getElem?_map, List.getElem?_eq_getElem hi, Option.map_some, Option.some.injEq] at hid
  rw [hid, List.getElem?_eq_getElem hi]

/-- A height right after some row's is free only at the end. -/
theorem id_eq_length (h : rows.map OrderRow.id = List.range rows.length) {row : OrderRow}
    (hn : row.id ∉ rows.map OrderRow.id) (hp : ∃ r ∈ rows, row.id = r.id + 1) :
    row.id = rows.length := by
  obtain ⟨r, hr, hid⟩ := hp
  have hlt := id_lt_length h hr
  rw [h, List.mem_range] at hn
  omega

theorem ids_append (h : rows.map OrderRow.id = List.range rows.length) {row : OrderRow}
    (hid : row.id = rows.length) :
    (rows ++ [row]).map OrderRow.id = List.range (rows ++ [row]).length := by
  rw [List.map_append, h, List.length_append, List.length_singleton, List.range_succ, ← hid]
  rfl

theorem prevHash_append {i : ℕ} (hi : i ≤ rows.length) (row : OrderRow) :
    prevHash (rows ++ [row]) i = prevHash rows i := by
  rcases i with _ | i
  · rfl
  · simp only [prevHash]
    rw [List.getElem?_append_left (by omega)]

/-- The row of a block that has a place goes to the end of the chain, or finds its height taken. -/
theorem Chain.append (h : Chain K rows) {row : OrderRow} {body : Bytes} {hash : Digest}
    (hn : row.id ∉ rows.map OrderRow.id) (hb : Holds row body hash)
    (hp : Place K rows body row.id hash) : Chain K (rows ++ [row]) := by
  obtain ⟨r, hr, hid, hhash⟩ := hp
  have hlen := id_eq_length h.ids hn ⟨r, hr, hid⟩
  refine ⟨ids_append h.ids hlen, fun i x hx => ?_⟩
  rcases Nat.lt_or_ge i rows.length with hi | hi
  · rw [List.getElem?_append_left hi] at hx
    rw [prevHash_append hi.le]
    exact h.link i x hx
  · have hi' : i = row.id := by
      have := (List.getElem?_eq_some_iff.1 hx).1
      rw [List.length_append, List.length_singleton] at this
      omega
    subst hi'
    obtain rfl : row = x := by
      simpa [hlen] using hx
    refine ⟨⟨hash, body⟩, hb.data, hb.hash, ?_⟩
    rw [prevHash_append hlen.le, hid, prevHash, getElem?_id h.ids hr]
    exact hhash

/-- The table has grown by the row of a block from `S` that has a place, if at all. -/
def Grows (K : Crypto) (S : Set Bytes) (rows rows' : List OrderRow) : Prop :=
  rows' = rows ∨ ∃ row, ∃ body ∈ S, ∃ hash, row.id ∉ rows.map OrderRow.id ∧ Holds row body hash
    ∧ Place K rows body row.id hash ∧ rows' = rows ++ [row]

theorem Grows.mono {S T : Set Bytes} (hs : S ⊆ T) (h : Grows K S rows rows') :
    Grows K T rows rows' := by
  obtain h | ⟨row, body, hb, h⟩ := h
  · exact .inl h
  · exact .inr ⟨row, body, hs hb, h⟩

theorem Chain.grows {S : Set Bytes} (h : Chain K rows) (hg : Grows K S rows rows') :
    Chain K rows' := by
  obtain rfl | ⟨row, body, -, hash, hn, hb, hp, rfl⟩ := hg
  · exact h
  · exact h.append hn hb hp

theorem Chain.genesis {nodePk pk : PublicKey} {timestamp : UInt64} {db : Database}
    (h : Genesis K nodePk pk timestamp db) : Chain K db.order := by
  obtain ⟨-, data, body, ho, -, hd⟩ := of_genesis h
  rw [ho]
  refine ⟨rfl, fun i row hi => ?_⟩
  obtain ⟨rfl, rfl⟩ : i = 0 ∧ row = ⟨0, data, (K.sha256 body).toList⟩ := by
    rcases i with _ | i
    · simpa [eq_comm] using hi
    · simp at hi
  exact ⟨_, hd, rfl, rfl⟩

end Rows

section Messages

/-- The blocks among the messages published in between are from `S`. -/
def Sends (S : Set Bytes) (s s' : SwarmSettings) : Prop :=
  ∀ bytes ∈ s'.sent, bytes ∈ s.sent ∨ ∀ b, fromSlice NetData bytes = some (.block b) → b.body ∈ S

variable {S T : Set Bytes} {s s' s'' : SwarmSettings}

theorem Sends.of_eq (h : s'.sent = s.sent) : Sends S s s' := fun _ hb => .inl (h ▸ hb)

theorem Sends.trans (h : Sends S s s') (h' : Sends S s' s'') : Sends S s s'' := fun bytes hb =>
  (h' bytes hb).elim (h bytes) .inr

theorem Sends.mono (hs : S ⊆ T) (h : Sends S s s') : Sends T s s' := fun bytes hb =>
  (h bytes hb).imp_right fun hS b he => hs (hS b he)

theorem Sends.append {data : NetData} {v : Bytes} (hv : toVec data = some v)
    (hd : ∀ b, data = .block b → b.body ∈ S) (h : s'.sent = s.sent ++ [v]) : Sends S s s' := by
  intro bytes hb
  rw [h, List.mem_append, List.mem_singleton] at hb
  obtain hb | rfl := hb
  · exact .inl hb
  · rw [fromSlice_toVec hv]
    exact .inr fun b he => hd b (Option.some.inj he)

theorem Sends.publish {data : NetData} {v : Bytes} (hv : toVec data = some v)
    (hd : ∀ b, data ≠ .block b) (went : Bool) : Sends S s (s.publish went v) := by
  unfold SwarmSettings.publish
  split_ifs
  · exact .append hv (fun b he => (hd b he).elim) rfl
  · exact .of_eq rfl

end Messages

section Tasks

/-- What a task has worked out is right about its own body and about some row of the table. -/
def Task.Ok (K : Crypto) (rows : List OrderRow) (t : Task) : Prop :=
  match t.pc with
  | .start | .done => True
  | .publish l _ | .pushPending l | .readPending l | .clearPending l =>
    (∃ r ∈ rows, l.height = r.id + 1 ∧ l.lastHash = r.hash)
      ∧ ∃ body, toVec t.body = some body ∧ toVec (NetData.block ⟨l.hash, body⟩) = some l.bytes
  | .lastBlock data _ => toVec t.body = some data.body
  | .publishArchive data _ height hash | .pushApproved data _ height hash
  | .readApproved data _ height hash =>
    toVec t.body = some data.body ∧ Place K rows data.body height hash
  | .clearApproved _ newBlock => ∀ height hash, newBlock = .ok (height, hash) →
    ∃ body, toVec t.body = some body ∧ Place K rows body height hash
  | .reply row | .insert row => ∃ body hash, toVec t.body = some body ∧ Holds row body hash
    ∧ Place K rows body row.id hash
  | .interpret row => row ∈ rows ∧ ∃ body hash, toVec t.body = some body ∧ Holds row body hash

namespace Task

variable {rows rows' : List OrderRow} {s s' : SwarmSettings} {t t' : Task} {net : Publish}

theorem Ok.mono (hs : rows ⊆ rows') (h : t.Ok K rows) : t.Ok K rows' := by
  rcases t with ⟨body, pc, answer, acked⟩
  cases pc <;> simp only [Ok] at h ⊢
  case publish l _ | pushPending l | readPending l | clearPending l =>
    obtain ⟨⟨r, hr, hl⟩, h⟩ := h
    exact ⟨⟨r, hs hr, hl⟩, h⟩
  case lastBlock => exact h
  case publishArchive | pushApproved | readApproved => exact ⟨h.1, h.2.mono hs⟩
  case clearApproved =>
    intro height hash he
    obtain ⟨body, hb, hp⟩ := h height hash he
    exact ⟨body, hb, hp.mono hs⟩
  case reply | insert =>
    obtain ⟨body, hash, hb, hh, hp⟩ := h
    exact ⟨body, hash, hb, hh, hp.mono hs⟩
  case interpret => exact ⟨hs h.1, h.2⟩

/-- What a task works out before it answers is right about the table it reads. -/
theorem moves_ok (hm : Moves K s t.body t.pc t'.pc) (hb : t'.body = t.body)
    (hok : t.Ok K s.db.order) : t'.Ok K s.db.order := by
  obtain ⟨body, pc, answer, acked⟩ := t
  obtain ⟨body', pc', answer', acked'⟩ := t'
  obtain rfl : body' = body := hb
  unfold Ok at hok ⊢
  cases hm
  case read hlast hser =>
    obtain ⟨⟨r, hr, rfl, rfl⟩, -⟩ := Database.of_getLastBlock hlast
    obtain ⟨body, hb, -, hn⟩ := of_serializeReq hser
    exact ⟨⟨r, hr, rfl, rfl⟩, body, hb, hn⟩
  case alone hser =>
    obtain ⟨⟨r, hr, hh, hl⟩, -⟩ := hok
    obtain ⟨body, hb, hd, rfl⟩ := of_serializeBlock hser
    exact ⟨body, _, hb, ⟨hd, rfl⟩, r, hr, hh, by simp [hl]⟩
  case cleared hdec =>
    obtain ⟨-, body, hb, hn⟩ := hok
    rw [fromSlice_toVec hn] at hdec
    obtain ⟨⟩ := hdec
    exact hb
  case place hlast => exact ⟨hok, place_of_getLastBlock hlast⟩
  case unheard => exact hok.1
  case again => exact hok.1
  case refused => exact fun _ _ he => by simp at he
  case approved =>
    intro height hash he
    simp only [Except.ok.injEq, Prod.mk.injEq] at he
    obtain ⟨rfl, rfl⟩ := he
    exact ⟨_, hok⟩
  case build hser =>
    obtain ⟨body, hb, hp⟩ := hok _ _ rfl
    obtain ⟨body', hb', hd, rfl⟩ := of_serializeBlock hser
    obtain rfl : body = body' := by simpa using hb.symm.trans hb'
    exact ⟨body, _, hb, ⟨hd, rfl⟩, hp⟩
  all_goals exact hok

theorem ok_of_done (h : t.pc = .done) : t.Ok K rows := by
  unfold Ok
  rw [h]
  trivial

theorem step_ok (h : t.step K s net = some (s', t')) (hok : t.Ok K s.db.order) :
    t'.Ok K s'.db.order := by
  rcases step_cases h with hv | ⟨row, hpc, rfl, rfl⟩ | ⟨row, -, -, -, rfl⟩ |
    ⟨row, db, hpc, ha, rfl, rfl⟩ | ⟨row, -, rfl, -⟩
  · rw [hv.db]
    rcases hv.moves with ⟨hm, -⟩ | ⟨hd, -⟩
    · exact moves_ok hm hv.body hok
    · exact ok_of_done hd
  · unfold Ok at hok
    rw [hpc] at hok
    exact hok
  · exact ok_of_done rfl
  · unfold Ok at hok
    rw [hpc] at hok
    obtain ⟨body, hash, hb, hh, -⟩ := hok
    obtain ⟨-, rfl⟩ := Database.addNew_eq_some _ ha
    exact ⟨List.mem_append_right _ List.mem_cons_self, body, hash, hb, hh⟩
  · exact ok_of_done rfl

/-- A task inserts a row of its own block only. -/
theorem step_grows (h : t.step K s net = some (s', t')) (hok : t.Ok K s.db.order) :
    Grows K {b | toVec t.body = some b} s.db.order s'.db.order := by
  rcases step_order h with ho | ⟨row, hpc, hn, ho⟩
  · exact .inl ho
  · unfold Ok at hok
    rw [hpc] at hok
    obtain ⟨body, hash, hb, hh, hp⟩ := hok
    exact .inr ⟨row, body, hb, hash, hn, hh, hp, ho⟩

/-- A task publishes its own block and no other. -/
theorem step_sends (h : t.step K s net = some (s', t')) (hok : t.Ok K s.db.order) :
    Sends {b | toVec t.body = some b} s s' := by
  rcases step_cases h with hv | ⟨_, -, rfl, -⟩ | ⟨_, -, -, rfl, -⟩ | ⟨_, _, -, -, rfl, -⟩ |
    ⟨_, -, -, rfl⟩
  · unfold Ok at hok
    rcases hv.sent with he | ⟨l, n, hpc, he⟩ | ⟨a, v, hser, he⟩
    · exact .of_eq he
    · rw [hpc] at hok
      obtain ⟨-, body, hb, hnet⟩ := hok
      refine .append hnet ?_ he
      rintro b ⟨⟩
      exact hb
    · exact .append hser (by simp) he
  all_goals exact .of_eq rfl

end Task

end Tasks

section Peers

/-- A block on its way to the candidates is in `S` and known by the hash of its body, and a
candidate whose vote is over has a place. -/
def EventOk (K : Crypto) (S : Set Bytes) (rows : List OrderRow) : NetEvent → Prop
  | .newBlock body hash => ∃ b ∈ S, toVec body = some b ∧ K.sha256 b = hash
  | .approvedBlockTimeout height hash rawHash =>
    ∃ b ∈ S, K.sha256 b = rawHash ∧ Place K rows b height hash
  | _ => True

structure HandlerOk (K : Crypto) (S : Set Bytes) (rows : List OrderRow) (h : Handler) : Prop where
  candidates : ∀ hash v, h.candidates.lookup hash = some v → v.1 ∈ S ∧ K.sha256 v.1 = hash
  pc : ∀ height hash rawHash,
    h.pc = .clearApproved height hash rawHash ∨ h.pc = .append height hash rawHash →
      EventOk K S rows (.approvedBlockTimeout height hash rawHash)

def GossipOk (K : Crypto) (S : Set Bytes) : Gossip → Prop
  | .user block v | .check block v _ _ | .accept block v | .vote block v =>
    block.body ∈ S ∧ toVec v = some block.body ∧ K.sha256 block.body = block.hash
  | _ => True

variable {S : Set Bytes} {rows rows' : List OrderRow} {s s' : SwarmSettings}

theorem EventOk.mono (hs : rows ⊆ rows') : ∀ {e : NetEvent}, EventOk K S rows e →
    EventOk K S rows' e
  | .newBlock _ _, h => h
  | .approvedBlockTimeout _ _ _, ⟨b, hb, hh, hp⟩ => ⟨b, hb, hh, hp.mono hs⟩
  | .archiveBlock _, _ => trivial
  | .vote _ _ _, _ => trivial
  | .serialVote _ _ _ _, _ => trivial
  | .pendingBlockTimeout _, _ => trivial

theorem HandlerOk.mono (hs : rows ⊆ rows') {h : Handler} (hh : HandlerOk K S rows h) :
    HandlerOk K S rows' h :=
  ⟨hh.candidates, fun height hash rawHash hpc => (hh.pc height hash rawHash hpc).mono hs⟩

namespace Handler

variable {h h' : Handler} {timers : List NetEvent} {okSent noSent : Bool}

/-- A handler that waits for the next event again. -/
theorem handlerOk_of_candidates (hh : HandlerOk K S rows h) {pc : HandlerPc}
    (hpc : ∀ height hash rawHash, pc ≠ .clearApproved height hash rawHash
      ∧ pc ≠ .append height hash rawHash) : HandlerOk K S rows { h with pc := pc } :=
  ⟨hh.candidates, fun height hash rawHash h =>
    (h.elim (hpc height hash rawHash).1 (hpc height hash rawHash).2).elim⟩

theorem candidates_erase (hh : HandlerOk K S rows h) (x hash : Digest) (v : Bytes × BodyData)
    (hl : (h.candidates.erase x).lookup hash = some v) : v.1 ∈ S ∧ K.sha256 v.1 = hash := by
  by_cases hx : hash = x
  · subst hx
    simp at hl
  · rw [AList.lookup_erase_ne hx] at hl
    exact hh.candidates hash v hl

theorem event_ok {e : NetEvent} (he : EventOk K S s.db.order e) (hh : HandlerOk K S s.db.order h)
    (hpc : h.pc = .recv) :
    let r := event K s h e okSent noSent
    HandlerOk K S s.db.order r.2.1 ∧ (∀ e ∈ r.2.2, EventOk K S s.db.order e)
      ∧ r.1.channel = s.channel := by
  cases e
  case vote => exact ⟨hh, by simp [event], rfl⟩
  case serialVote => exact ⟨hh, by simp [event], rfl⟩
  case newBlock body hash =>
    obtain ⟨b, hb, hv, hx⟩ := he
    refine ⟨?_, by simp [event, EventOk], rfl⟩
    simp only [event, hv]
    refine ⟨fun x v hl => ?_, hh.pc⟩
    by_cases hxh : x = hash
    · subst hxh
      rw [AList.lookup_insert] at hl
      obtain rfl : (b, body) = v := by simpa using hl
      exact ⟨hb, hx⟩
    · rw [AList.lookup_insert_ne hxh] at hl
      exact hh.candidates x v hl
  case archiveBlock a =>
    obtain ⟨⟨sent, hr⟩, hcand, hrpc, ht⟩ :=
      archiveBlock_cases (K := K) (s := s) (h := h) a okSent noSent
    refine ⟨⟨?_, ?_⟩, ?_, by simp only [event, hr]⟩
    · simp only [event, hcand]
      exact hh.candidates
    · intro height hash rawHash h'
      rcases hrpc with hrpc | hrpc <;> simp [event, hrpc, hpc] at h'
    · intro e he
      rcases ht with ht | ⟨body, v, height, hash, hl, hlast, ht⟩ <;>
        simp only [event, ht, List.not_mem_nil, List.mem_singleton] at he
      subst he
      obtain ⟨hS, hx⟩ := hh.candidates _ _ hl
      exact ⟨body, hS, hx, place_of_getLastBlock hlast⟩
  case pendingBlockTimeout x =>
    refine ⟨⟨fun hash v hl => ?_, by simp [event]⟩, by simp [event], rfl⟩
    simp only [event] at hl
    split_ifs at hl
    · exact candidates_erase hh x hash v hl
    · exact hh.candidates hash v hl
  case approvedBlockTimeout height hash rawHash =>
    refine ⟨?_, by simp [event], rfl⟩
    simp only [event]
    split_ifs
    · refine ⟨hh.candidates, fun height' hash' rawHash' h' => ?_⟩
      simp only [HandlerPc.clearApproved.injEq, reduceCtorEq, or_false] at h'
      obtain ⟨rfl, rfl, rfl⟩ := h'
      exact he
    · exact hh

/-- A step of the handler keeps what is known of the candidates, and appends one at most. -/
theorem step_ok (hs : h.step K s okSent noSent = some (s', h', timers)) (hcf : S.InjOn K.sha256)
    (hch : ∀ e ∈ s.channel, EventOk K S s.db.order e) (hh : HandlerOk K S s.db.order h) :
    Grows K S s.db.order s'.db.order ∧ HandlerOk K S s.db.order h'
      ∧ (∀ e ∈ timers, EventOk K S s.db.order e) ∧ ∀ e ∈ s'.channel, EventOk K S s.db.order e := by
  cases moves hs with
  | recv cs e channel hc he =>
    rw [hc] at hch
    obtain ⟨hh', ht', hch'⟩ := event_ok (K := K) (S := S) (s := { s with channel := channel })
      (h := ⟨cs, .recv⟩) (e := e) (hch e List.mem_cons_self) hh rfl
    obtain ⟨hdb, -⟩ := event_db (K := K) (s := { s with channel := channel }) (h := ⟨cs, .recv⟩) e
    rw [he] at hh' ht' hch' hdb
    refine ⟨.inl (by rw [hdb]), hh', ht', fun e' he' => hch e' ?_⟩
    rw [hch'] at he'
    exact List.mem_cons_of_mem _ he'
  | clearPending cs hash =>
    exact ⟨.inl rfl, handlerOk_of_candidates hh (by simp), by simp, hch⟩
  | clearApproved cs height hash rawHash =>
    refine ⟨.inl rfl, ⟨hh.candidates, fun height' hash' rawHash' h' => ?_⟩, by simp, hch⟩
    simp only [HandlerPc.append.injEq, reduceCtorEq, false_or] at h'
    obtain ⟨rfl, rfl, rfl⟩ := h'
    exact hh.pc _ _ _ (.inl rfl)
  | append cs height hash rawHash hl hdb =>
    have hh' : HandlerOk K S s.db.order ⟨cs.erase rawHash, .recv⟩ :=
      ⟨fun hash v => candidates_erase hh rawHash hash v, by simp⟩
    refine ⟨?_, hh', by simp, hch⟩
    rcases hdb with rfl | ⟨block, hb, ha⟩
    · exact .inl rfl
    obtain ⟨b, hbS, hbx, hp⟩ := hh.pc _ _ _ (.inr rfl)
    obtain ⟨hS, hx⟩ := hh.candidates _ _ hl
    -- the candidate the place was found for may have been replaced, by one of the same hash
    obtain rfl := hcf hbS hS (hbx.trans hx.symm)
    obtain ⟨hn, rfl⟩ := Database.addNew_eq_some _ ha
    exact .inr ⟨_, b, hS, hash, hn, ⟨fromSlice_toVec hb, rfl⟩, hp, rfl⟩

theorem archiveBlock_sends (a : ArchiveBlock) :
    Sends S s (archiveBlock K s h a okSent noSent).1 := by
  simp only [archiveBlock]
  rcases h.candidates.lookup a.hash with _ | ⟨body, v⟩
  · rcases hno : toVec (NetData.serialVote a.id a.hash .no) with _ | w
    · exact .of_eq rfl
    · exact .publish hno (by simp) noSent
  rcases s.db.getLastBlock with _ | ⟨height, hash⟩
  · exact .of_eq rfl
  dsimp only
  split_ifs
  · rcases hok : toVec (NetData.serialVote (.ofNat (height + 1)) (K.sha256 (hash ++ body)) .ok)
      with _ | w
    · exact .of_eq rfl
    · have hsends : Sends S s (s.publish okSent w) := .publish hok (by simp) okSent
      rcases hno : toVec (NetData.serialVote a.id a.hash .no) with _ | w'
      · exact hsends
      · exact hsends.trans (.publish hno (by simp) noSent)
  · rcases hno : toVec (NetData.serialVote a.id a.hash .no) with _ | w
    · exact .of_eq rfl
    · exact .publish hno (by simp) noSent

/-- The handler publishes votes. -/
theorem step_sends (hs : h.step K s okSent noSent = some (s', h', timers)) : Sends S s s' := by
  cases moves hs with
  | recv cs e channel hc he =>
    have hsends :
        Sends S s (event K { s with channel := channel } ⟨cs, .recv⟩ e okSent noSent).1 := by
      cases e
      case archiveBlock a => exact archiveBlock_sends (s := { s with channel := channel }) a
      all_goals exact .of_eq rfl
    rwa [he] at hsends
  | clearPending | clearApproved | append => exact .of_eq rfl

end Handler

namespace Gossip

variable {g g' : Gossip} {votes : List Bool} {noSent : Bool}

theorem dispatch_ok {data : NetData} (hS : ∀ b, data = .block b → b.body ∈ S)
    (hch : ∀ e ∈ s.channel, EventOk K S rows e) :
    GossipOk K S (dispatch K s data).2
      ∧ ∀ e ∈ (dispatch K s data).1.channel, EventOk K S rows e := by
  cases data
  case block b =>
    refine ⟨?_, hch⟩
    simp only [dispatch]
    split_ifs with hx
    · split
      · rename_i v hv
        exact ⟨hS b rfl, ser_of_fromSlice hv, by simpa [verifyHash] using hx⟩
      · trivial
    · trivial
  all_goals
    refine ⟨trivial, fun e he => ?_⟩
    simp only [dispatch, List.mem_append, List.mem_singleton] at he
    rcases he with he | rfl
    · exact hch e he
    · trivial

theorem step_ok (h : g.step K s votes noSent = some (s', g')) (hg : GossipOk K S g)
    (hch : ∀ e ∈ s.channel, EventOk K S rows e) :
    GossipOk K S g' ∧ ∀ e ∈ s'.channel, EventOk K S rows e := by
  cases moves h with
  | user block v h' =>
    refine ⟨?_, hch⟩
    rcases h' with rfl | ⟨perm, -, rfl⟩
    · trivial
    · exact hg
  | check block v perm c h' =>
    refine ⟨?_, hch⟩
    rcases h' with rfl | ⟨-, rfl⟩ | rfl
    · trivial
    · exact hg
    · exact hg
  | accept => exact ⟨hg, hch⟩
  | vote block v hb =>
    refine ⟨trivial, fun e he => ?_⟩
    simp only [List.mem_append, List.mem_singleton] at he
    rcases he with he | rfl
    · exact hch e he
    · exact ⟨block.body, hg⟩
  | unsent | refuse | clear => exact ⟨trivial, hch⟩

theorem dispatch_sends (data : NetData) : Sends S s (dispatch K s data).1 := by
  cases data <;> exact .of_eq rfl

theorem step_sends (h : g.step K s votes noSent = some (s', g')) : Sends S s s' := by
  cases moves h with
  | vote block v hb => exact .append hb (by simp) rfl
  | refuse block h' =>
    rcases h' with rfl | ⟨bytes, hb, rfl⟩
    · exact .of_eq rfl
    · exact .append hb (by simp) rfl
  | user | check | accept | unsent | clear => exact .of_eq rfl

end Gossip

end Peers

namespace Master

/-- Every task, event and candidate is right about the table. Blocks come from `S`, requests from
`T`. -/
structure Inv (K : Crypto) (S T : Set Bytes) (m : Master) : Prop where
  tasks : ∀ t ∈ m.tasks, t.Ok K m.set.db.order ∧ ∀ b, toVec t.body = some b → b ∈ T
  channel : ∀ e ∈ m.set.channel, EventOk K S m.set.db.order e
  timers : ∀ e ∈ m.timers, EventOk K S m.set.db.order e
  handler : HandlerOk K S m.set.db.order m.handler
  gossip : GossipOk K S m.gossip

/-- A block is from `S`, a request from `T`. -/
def Act.From (S T : Set Bytes) : Act → Prop
  | .dispatch data => ∀ b, data = .block b → b.body ∈ S
  | .request body => ∀ b, toVec body = some b → b ∈ T
  | _ => True

variable {S T : Set Bytes} {m m' : Master}

/-- The gossip handler leaves the table alone. -/
theorem Inv.set_gossip {s : SwarmSettings} {g : Gossip} (hi : Inv K S T m) (hdb : s.db = m.set.db)
    (hch : ∀ e ∈ s.channel, EventOk K S m.set.db.order e) (hg : GossipOk K S g) :
    Inv K S T { m with set := s, gossip := g } where
  tasks := by rw [hdb]; exact hi.tasks
  channel := by rw [hdb]; exact hch
  timers := by rw [hdb]; exact hi.timers
  handler := by rw [hdb]; exact hi.handler
  gossip := hg

/-- A step keeps the invariant; the table grows by a block of a request or of a peer, and what is
published are blocks of requests. -/
theorem inv_step {a : Act} (hcf : S.InjOn K.sha256) (ha : a.From S T) (h : m.step K a = some m')
    (hi : Inv K S T m) :
    Inv K S T m' ∧ Grows K (T ∪ S) m.set.db.order m'.set.db.order ∧ Sends T m.set m'.set := by
  have hsub : m.set.db.order ⊆ m'.set.db.order := (order_prefix_step h).subset
  cases a
  case request body =>
    obtain rfl := of_step_request h
    refine ⟨{ hi with tasks := fun t ht => ?_ }, .inl rfl, .of_eq rfl⟩
    rcases List.mem_append.1 ht with ht | ht
    · exact hi.tasks t ht
    · obtain rfl := List.mem_singleton.1 ht
      exact ⟨trivial, ha⟩
  case configure conf =>
    obtain rfl := of_step_configure h
    exact ⟨{ hi with }, .inl rfl, .of_eq rfl⟩
  case task i net =>
    obtain ⟨t, s, t', hget, hs, rfl⟩ := of_step_task h
    obtain ⟨ht, hT⟩ := hi.tasks t (List.mem_of_getElem? hget)
    have hch := Task.step_channel hs
    refine ⟨?_, (Task.step_grows hs ht).mono fun b hb => .inl (hT b hb),
      (Task.step_sends hs ht).mono hT⟩
    exact {
      tasks := fun x hx => by
        rcases mem_set_cases hx with rfl | ⟨j, -, hx⟩
        · exact ⟨Task.step_ok hs ht, by rw [Task.step_body hs]; exact hT⟩
        · exact (hi.tasks x (List.mem_of_getElem? hx)).imp_left (.mono hsub)
      channel := fun e he => (hi.channel e (hch ▸ he)).mono hsub
      timers := fun e he => (hi.timers e he).mono hsub
      handler := hi.handler.mono hsub
      gossip := hi.gossip }
  case handle okSent noSent =>
    obtain ⟨s, hd, timers, hs, rfl⟩ := of_step_handle h
    obtain ⟨hg, hh, ht, hch⟩ := Handler.step_ok hs hcf hi.channel hi.handler
    refine ⟨?_, hg.mono Set.subset_union_right, Handler.step_sends hs⟩
    exact {
      tasks := fun t ht => (hi.tasks t ht).imp_left (.mono hsub)
      channel := fun e he => (hch e he).mono hsub
      timers := fun e he => by
        rcases List.mem_append.1 he with he | he
        · exact (hi.timers e he).mono hsub
        · exact (ht e he).mono hsub
      handler := hh.mono hsub
      gossip := hi.gossip }
  case timer i =>
    obtain ⟨e, he, rfl⟩ := of_step_timer h
    refine ⟨{ hi with channel := fun x hx => ?_, timers := fun x hx => ?_ }, .inl rfl, .of_eq rfl⟩
    · rcases List.mem_append.1 hx with hx | hx
      · exact hi.channel x hx
      · obtain rfl := List.mem_singleton.1 hx
        exact hi.timers x (List.mem_of_getElem? he)
    · exact hi.timers x (List.mem_of_mem_eraseIdx hx)
  case dispatch data =>
    obtain rfl := of_step_dispatch h
    obtain ⟨hg, hch⟩ := Gossip.dispatch_ok ha hi.channel
    have hdb := (Gossip.dispatch_db (K := K) (s := m.set) data).1
    exact ⟨hi.set_gossip hdb hch hg, .inl (by rw [hdb]), Gossip.dispatch_sends data⟩
  case gossip votes noSent =>
    obtain ⟨s, g, hs, rfl⟩ := of_step_gossip h
    obtain ⟨hg, hch⟩ := Gossip.step_ok hs hi.gossip hi.channel
    have hdb := (Gossip.step_db hs).1
    exact ⟨hi.set_gossip hdb hch hg, .inl (by rw [hdb]), Gossip.step_sends hs⟩

theorem inv_init (db : Database) (conf : MasterConfig) : Inv K S T (init db conf) where
  tasks := by simp [init]
  channel := by simp [init]
  timers := by simp [init]
  handler := ⟨by simp [init], by simp [init]⟩
  gossip := trivial

/-- The bodies of the blocks in the messages of a run. -/
def gossiped (as : List Act) : Set Bytes := {x | ∃ b, Act.dispatch (.block b) ∈ as ∧ b.body = x}

theorem chain_of_run {as : List Act} (hcf : S.InjOn K.sha256) (hS : gossiped as ⊆ S)
    (h : Run.run (step K) m as = some m') (hi : Inv K S Set.univ m) (hc : Chain K m.set.db.order) :
    Chain K m'.set.db.order := by
  have halong : Run.Along (step K) (fun _ a => a.From S Set.univ) m as := by
    refine Run.along_of_forall fun a ha => ?_
    cases a
    case dispatch data => exact fun b hb => hS ⟨b, hb ▸ ha, rfl⟩
    case request => exact fun _ _ => trivial
    all_goals trivial
  have hinv : Inv K S Set.univ m' ∧ Chain K m'.set.db.order := by
    refine Run.run_induction (I := fun m => Inv K S Set.univ m ∧ Chain K m.set.db.order)
      (fun u a u' ha hs hi => ?_) halong h ⟨hi, hc⟩
    obtain ⟨hi', hg, -⟩ := inv_step hcf ha hs hi.1
    exact ⟨hi', hi.2.grows hg⟩
  exact hinv.2

/-- At every moment of a run the `order` table is a hash chain, and what it holds it holds from
then on. -/
theorem chain_run {nodePk pk : PublicKey} {timestamp : UInt64} {db : Database}
    {conf : MasterConfig} {as bs : List Act} (hg : Genesis K nodePk pk timestamp db)
    (hcf : (gossiped (as ++ bs)).InjOn K.sha256)
    (h : Run.run (step K) (init db conf) as = some m) (h' : Run.run (step K) m bs = some m') :
    Chain K m.set.db.order ∧ m.set.db.order <+: m'.set.db.order := by
  have hsub : gossiped as ⊆ gossiped (as ++ bs) := fun x ⟨b, hb, hx⟩ =>
    ⟨b, List.mem_append_left _ hb, hx⟩
  exact ⟨chain_of_run hcf hsub h (inv_init db conf) (.genesis hg), order_prefix_run h'⟩

/-- A block from a peer, and a request that goes through. -/
theorem chain_run_request :
    let as : List Act := [.dispatch (.block ⟨zeroHash, [1]⟩), .request (toyBody 0 [])] ++ alone 0
    ∃ m, Run.run (step toy) (init toyGenesis (.default toy)) as = some m
      ∧ Chain toy m.set.db.order ∧ m.set.db.order.map OrderRow.id = [0, 1] := by
  intro as
  have hrun : (Run.run (step toy) (init toyGenesis (.default toy)) as).any
      (fun m => m.set.db.order.map OrderRow.id = [0, 1]) := by decide +kernel
  obtain ⟨m, hm, hids⟩ := Run.exists_of_any hrun
  have hcf : (gossiped (as ++ [])).InjOn toy.sha256 := by
    rintro x ⟨b, hb, rfl⟩ y ⟨b', hb', rfl⟩ -
    simp only [as, alone, List.append_nil, List.mem_cons, List.mem_append, List.mem_replicate,
      Act.dispatch.injEq, NetData.block.injEq, reduceCtorEq, and_false, List.not_mem_nil,
      or_false] at hb hb'
    rw [hb, hb']
  exact ⟨m, hm, (chain_run genesis_toyGenesis hcf hm rfl).1, hids⟩

end Master

end Nyumt
