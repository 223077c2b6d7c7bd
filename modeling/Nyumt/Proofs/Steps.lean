import Nyumt.Lib.Run
import Nyumt.Master

/-!
# What a step does

Inversion of the steps of a master, said once (`Task.Moves`, `Handler.Moves`, `Gossip.Moves`). A
task changes the database by the insert of its row and by its interpretation only
(`Task.step_cases`), the handler of network events by the append of a candidate only
(`Handler.step_cases`), and the gossip handler not at all.
-/

namespace Nyumt

open Borsh

variable {K : Crypto}

/-- An entry of an updated list is the new one, or one at another index. -/
theorem mem_set_cases {α : Type} {xs : List α} {i : ℕ} {x y : α} (h : x ∈ xs.set i y) :
    x = y ∨ ∃ j ≠ i, xs[j]? = some x := by
  obtain ⟨j, hj⟩ := List.getElem?_of_mem h
  rw [List.getElem?_set] at hj
  split_ifs at hj with hij
  · exact .inl (Option.some.inj hj).symm
  · exact .inr ⟨j, Ne.symm hij, hj⟩

section Tasks

/-- The task has not its votes yet. -/
def Pc.Voting : Pc → Prop
  | .reply _ | .insert _ | .interpret _ | .done => False
  | _ => True

/-- From where to where a task goes before it has something to answer. -/
inductive Task.Moves (K : Crypto) (s : SwarmSettings) (body : BodyData) : Pc → Pc → Prop
  | read {height : ℕ} {lastHash bytes : Bytes} {hash : Digest}
      (hlast : s.db.getLastBlock = some (height, lastHash))
      (hser : serializeReq K body = some (bytes, hash)) :
      Moves K s body .start (.publish ⟨height + 1, lastHash, bytes, hash⟩ 0)
  | retry (l : Locals) (n n' : ℕ) : Moves K s body (.publish l n) (.publish l n')
  | alone {l : Locals} {block : Bytes} {hash : Digest} (n : ℕ)
      (hser : serializeBlock K body none (some l.lastHash) = some (block, hash)) :
      Moves K s body (.publish l n) (.reply ⟨l.height, block, hash.toList⟩)
  | published (l : Locals) (n : ℕ) : Moves K s body (.publish l n) (.pushPending l)
  | pushed (l : Locals) : Moves K s body (.pushPending l) (.readPending l)
  | counted (l : Locals) : Moves K s body (.readPending l) (.clearPending l)
  | cleared {l : Locals} {data : Block} (hdec : fromSlice NetData l.bytes = some (.block data)) :
      Moves K s body (.clearPending l) (.lastBlock data 0)
  | place {height : ℕ} {hash : Bytes} (data : Block) (n : ℕ)
      (hlast : s.db.getLastBlock = some (height, hash)) : Moves K s body (.lastBlock data n)
        (.publishArchive data n (height + 1) (K.sha256 (hash ++ data.body)))
  | unheard (data : Block) (n n' height : ℕ) (hash : Digest) :
      Moves K s body (.publishArchive data n height hash) (.lastBlock data n')
  | placePublished (data : Block) (n height : ℕ) (hash : Digest) :
      Moves K s body (.publishArchive data n height hash) (.pushApproved data n height hash)
  | placePushed (data : Block) (n height : ℕ) (hash : Digest) :
      Moves K s body (.pushApproved data n height hash) (.readApproved data n height hash)
  | again (data : Block) (n n' height : ℕ) (hash : Digest) :
      Moves K s body (.readApproved data n height hash) (.lastBlock data n')
  | refused (data : Block) (n height : ℕ) (hash : Digest) (e : BlockPublishError) :
      Moves K s body (.readApproved data n height hash) (.clearApproved height (.error e))
  | approved (data : Block) (n height : ℕ) (hash : Digest) :
      Moves K s body (.readApproved data n height hash) (.clearApproved height (.ok (height, hash)))
  | build {block : Bytes} {hash hash' : Digest} (n height : ℕ)
      (hser : serializeBlock K body (some hash) none = some (block, hash')) :
      Moves K s body (.clearApproved n (.ok (height, hash))) (.reply ⟨height, block, hash'.toList⟩)

/-- What a task does to what it shares with others while it votes: tallies apart, it publishes. -/
structure Task.Shared (pc : Pc) (s s' : SwarmSettings) : Prop where
  db : s'.db = s.db
  applied : s'.applied = s.applied
  channel : s'.channel = s.channel
  sent : s'.sent = s.sent ∨ (∃ l n, pc = .publish l n ∧ s'.sent = s.sent ++ [l.bytes])
    ∨ ∃ a v, toVec (NetData.archiveBlock a) = some v ∧ s'.sent = s.sent ++ [v]

/-- A step up to the end of the votes. -/
structure Task.Votes (K : Crypto) (s s' : SwarmSettings) (t t' : Task) : Prop
    extends Task.Shared t.pc s s' where
  voting : t.pc.Voting
  body : t'.body = t.body
  acked : t'.acked = t.acked
  moves : Moves K s t.body t.pc t'.pc ∧ t'.answer = t.answer
    ∨ t'.pc = .done ∧ ∃ a ≠ RequestStatus.ok, t'.answer = some a

namespace Task

variable {s s' : SwarmSettings} {t t' : Task} {net : Publish}

theorem Moves.next {body : BodyData} {pc pc' : Pc} (h : Moves K s body pc pc') :
    pc'.Voting ∨ ∃ row, pc' = .reply row := by
  cases h
  case alone => exact .inr ⟨_, rfl⟩
  case build => exact .inr ⟨_, rfl⟩
  all_goals exact .inl trivial

theorem Votes.next (h : Votes K s s' t t') :
    (t'.pc.Voting ∨ ∃ row, t'.pc = .reply row) ∧ t'.answer = t.answer
      ∨ t'.pc = .done ∧ ∃ a ≠ RequestStatus.ok, t'.answer = some a :=
  h.moves.imp_left fun ⟨hm, he⟩ => ⟨hm.next, he⟩

/-- A voting task leads neither into `insert` nor into `interpret`. -/
theorem Votes.ne_interpret (h : Votes K s s' t t') (row : OrderRow) :
    t.pc ≠ .interpret row ∧ t'.pc ≠ .interpret row := by
  constructor
  · intro hpc
    have hvoting := h.voting
    rw [hpc] at hvoting
    exact hvoting
  · intro hpc
    rcases h.next with ⟨hv | ⟨row', hr⟩, -⟩ | ⟨hd, -⟩
    · rw [hpc] at hv
      exact hv
    · simp [hpc] at hr
    · simp [hpc] at hd

theorem Votes.goto {pc : Pc} (hv : t.pc.Voting) (hs : Shared t.pc s s')
    (hm : Moves K s t.body t.pc pc) : Votes K s s' t (t.goto pc) :=
  ⟨hs, hv, rfl, rfl, .inl ⟨hm, rfl⟩⟩

theorem Votes.finish {a : RequestStatus} (hv : t.pc.Voting) (hs : Shared t.pc s s')
    (ha : a ≠ .ok) : Votes K s s' t (t.finish a) :=
  ⟨hs, hv, rfl, rfl, .inr ⟨rfl, a, ha, rfl⟩⟩

theorem Votes.build {height : ℕ} {vhash : Option Digest} {hasher : Option Bytes}
    (hv : t.pc.Voting) (hs : Shared t.pc s s')
    (hm : ∀ block hash, serializeBlock K t.body vhash hasher = some (block, hash) →
      Moves K s t.body t.pc (.reply ⟨height, block, hash.toList⟩)) :
    Votes K s s' t (t.build K height vhash hasher) := by
  unfold Task.build
  rcases h : serializeBlock K t.body vhash hasher with _ | ⟨block, hash⟩
  · exact .finish hv hs (by decide)
  · exact .goto hv hs (hm block hash h)

theorem status_ne_ok (e : BlockPublishError) : e.status ≠ .ok := by
  cases e <;> decide

/-- Up to the end of the votes, one case for each access. -/
theorem step_votes (h : t.step K s net = some (s', t')) (hv : t.pc.Voting) : Votes K s s' t t' := by
  have hsame : Shared t.pc s s := ⟨rfl, rfl, rfl, .inl rfl⟩
  unfold step at h
  cases hpc : t.pc <;> simp only [hpc] at h
  case start =>
    simp only [Option.some.injEq, Prod.mk.injEq] at h
    obtain ⟨rfl, rfl⟩ := h
    split
    · exact .finish hv hsame (by decide)
    · rename_i height lastHash hlast
      split
      · exact .finish hv hsame (by decide)
      · rename_i bytes hash hser
        exact .goto hv hsame (hpc ▸ .read hlast hser)
  case publish l retry =>
    rcases net with _ | _ | _ <;> simp only [Option.some.injEq, Prod.mk.injEq] at h <;>
      obtain ⟨rfl, rfl⟩ := h
    · exact .goto hv ⟨rfl, rfl, rfl, .inr (.inl ⟨l, retry, hpc, rfl⟩)⟩ (hpc ▸ .published l retry)
    · split_ifs
      · exact .finish hv hsame (by decide)
      · exact .goto hv hsame (hpc ▸ .retry l retry _)
      · exact .build hv hsame fun block hash hser => hpc ▸ .alone retry hser
    · exact .finish hv hsame (by decide)
  case pushPending l =>
    simp only [Option.some.injEq, Prod.mk.injEq] at h
    obtain ⟨rfl, rfl⟩ := h
    exact .goto hv ⟨rfl, rfl, rfl, .inl rfl⟩ (hpc ▸ .pushed l)
  case readPending l =>
    simp only [Option.some.injEq, Prod.mk.injEq] at h
    obtain ⟨rfl, rfl⟩ := h
    split_ifs
    · exact .finish hv hsame (by decide)
    · exact .goto hv hsame (hpc ▸ .counted l)
  case clearPending l =>
    simp only [Option.some.injEq, Prod.mk.injEq] at h
    obtain ⟨rfl, rfl⟩ := h
    split
    · rename_i data hdec
      exact .goto hv ⟨rfl, rfl, rfl, .inl rfl⟩ (hpc ▸ .cleared hdec)
    · exact .finish hv ⟨rfl, rfl, rfl, .inl rfl⟩ (by decide)
  case lastBlock data retry =>
    simp only [Option.some.injEq, Prod.mk.injEq] at h
    obtain ⟨rfl, rfl⟩ := h
    unfold place
    split
    · exact .finish hv hsame (by decide)
    · rename_i height hash hlast
      exact .goto hv hsame (hpc ▸ .place data retry hlast)
  case publishArchive data retry height hash =>
    split at h
    · simp only [Option.some.injEq, Prod.mk.injEq] at h
      obtain ⟨rfl, rfl⟩ := h
      exact .finish hv hsame (by decide)
    · rename_i bytes hser
      rcases net with _ | _ | _ <;> simp only [Option.some.injEq, Prod.mk.injEq] at h <;>
        obtain ⟨rfl, rfl⟩ := h
      · exact .goto hv ⟨rfl, rfl, rfl, .inr (.inr ⟨_, bytes, hser, rfl⟩)⟩
          (hpc ▸ .placePublished data retry height hash)
      · split_ifs
        · exact .finish hv hsame (by decide)
        · exact .goto hv hsame (hpc ▸ .unheard data retry _ height hash)
      · exact .finish hv hsame (by decide)
  case pushApproved data retry height hash =>
    simp only [Option.some.injEq, Prod.mk.injEq] at h
    obtain ⟨rfl, rfl⟩ := h
    exact .goto hv ⟨rfl, rfl, rfl, .inl rfl⟩ (hpc ▸ .placePushed data retry height hash)
  case readApproved data retry height hash =>
    simp only [Option.some.injEq, Prod.mk.injEq] at h
    obtain ⟨rfl, rfl⟩ := h
    unfold tally
    split
    · exact .goto hv hsame (hpc ▸ .refused data retry height hash _)
    · split_ifs
      · exact .goto hv hsame (hpc ▸ .refused data retry height hash _)
      · exact .goto hv hsame (hpc ▸ .again data retry _ height hash)
      · exact .goto hv hsame (hpc ▸ .approved data retry height hash)
  case clearApproved height newBlock =>
    simp only [Option.some.injEq, Prod.mk.injEq] at h
    obtain ⟨rfl, rfl⟩ := h
    split
    · rename_i height' hash
      exact .build hv ⟨rfl, rfl, rfl, .inl rfl⟩ fun block hash' hser =>
        hpc ▸ .build height height' hser
    · exact .finish hv ⟨rfl, rfl, rfl, .inl rfl⟩ (status_ne_ok _)
  all_goals
    rw [hpc] at hv
    exact hv.elim

/-- A task votes, answers, inserts its row, finds its height taken, or interprets. -/
theorem step_cases (h : t.step K s net = some (s', t')) :
    Votes K s s' t t'
      ∨ (∃ row, t.pc = .reply row ∧ s' = s
          ∧ t' = { t with pc := .insert row, answer := some .ok, acked := some row })
      ∨ (∃ row, t.pc = .insert row ∧ s.db.addNew row.id row.data row.hash = none ∧ s' = s
          ∧ t' = t.goto .done)
      ∨ (∃ row db, t.pc = .insert row ∧ s.db.addNew row.id row.data row.hash = some db
          ∧ s' = { s with db := db } ∧ t' = t.goto (.interpret row))
      ∨ ∃ row, t.pc = .interpret row ∧ t' = t.goto .done
          ∧ s' = { s with
              db := applyBlock s.db t.body.req
              applied := s.applied ++ [(row, (interpretBlock s.db t.body.req).isSome)] } := by
  by_cases hv : t.pc.Voting
  · exact .inl (step_votes h hv)
  right
  unfold step at h
  cases hpc : t.pc <;> simp only [hpc] at h
  case reply row =>
    simp only [Option.some.injEq, Prod.mk.injEq] at h
    exact .inl ⟨row, rfl, h.1.symm, h.2.symm⟩
  case insert row =>
    rcases ha : s.db.addNew row.id row.data row.hash with _ | db <;>
      simp only [ha, Option.some.injEq, Prod.mk.injEq] at h
    · exact .inr (.inl ⟨row, rfl, ha, h.1.symm, h.2.symm⟩)
    · exact .inr (.inr (.inl ⟨row, db, rfl, ha, h.1.symm, h.2.symm⟩))
  case interpret row =>
    refine .inr (.inr (.inr ⟨row, rfl, ?_⟩))
    unfold applyBlock
    rcases hi : interpretBlock s.db t.body.req with _ | ⟨db, us⟩ <;>
      simp only [hi, Option.some.injEq, Prod.mk.injEq] at h
    · exact ⟨h.2.symm, h.1.symm⟩
    · exact ⟨h.2.symm, h.1.symm⟩
  case done => simp at h
  all_goals exact (hv (hpc ▸ trivial)).elim

theorem step_body (h : t.step K s net = some (s', t')) : t'.body = t.body := by
  rcases step_cases h with h | ⟨_, -, -, rfl⟩ | ⟨_, -, -, -, rfl⟩ | ⟨_, _, -, -, -, rfl⟩ |
    ⟨_, -, rfl, -⟩
  · exact h.body
  all_goals rfl

theorem step_channel (h : t.step K s net = some (s', t')) : s'.channel = s.channel := by
  rcases step_cases h with hv | ⟨_, -, rfl, -⟩ | ⟨_, -, -, rfl, -⟩ | ⟨_, _, -, -, rfl, -⟩ |
    ⟨_, -, -, rfl⟩
  · exact hv.channel
  all_goals rfl

/-- A task's step leaves the `order` table or puts the task's row at its end. -/
theorem step_order (h : t.step K s net = some (s', t')) :
    s'.db.order = s.db.order
      ∨ ∃ row, t.pc = .insert row ∧ row.id ∉ s.db.order.map OrderRow.id
        ∧ s'.db.order = s.db.order ++ [row] := by
  rcases step_cases h with h | ⟨_, -, rfl, -⟩ | ⟨_, -, -, rfl, -⟩ | ⟨row, db, hpc, ha, rfl, -⟩ |
    ⟨_, -, -, rfl⟩
  · exact .inl (by rw [h.db])
  · exact .inl rfl
  · exact .inl rfl
  · obtain ⟨hn, rfl⟩ := Database.addNew_eq_some _ ha
    exact .inr ⟨row, hpc, hn, rfl⟩
  · exact .inl (applyBlock_order _ _)

end Task

end Tasks

section Handlers

variable {s s' : SwarmSettings}

/-- A publish changes nothing but what was sent. -/
@[simp] theorem publish_eq (s : SwarmSettings) (went : Bool) (bytes : Bytes) :
    s.publish went bytes = { s with sent := s.sent ++ if went then [bytes] else [] } := by
  unfold SwarmSettings.publish
  split_ifs
  · rfl
  · rw [List.append_nil]

namespace Handler

variable {h h' : Handler} {timers : List NetEvent} {okSent noSent : Bool}

/-- A request to place a block publishes votes, and spawns a timer at most for a candidate that
would come next. -/
theorem archiveBlock_cases (a : ArchiveBlock) (okSent noSent : Bool) :
    let r := archiveBlock K s h a okSent noSent
    (∃ sent, r.1 = { s with sent := sent })
      ∧ r.2.1.candidates = h.candidates ∧ (r.2.1.pc = h.pc ∨ r.2.1.pc = .stopped)
      ∧ (r.2.2 = [] ∨ ∃ body v height hash, h.candidates.lookup a.hash = some (body, v)
        ∧ s.db.getLastBlock = some (height, hash)
        ∧ r.2.2 = [.approvedBlockTimeout (height + 1) (K.sha256 (hash ++ body)) a.hash]) := by
  intro r
  simp only [r, archiveBlock, publish_eq]
  rcases h.candidates.lookup a.hash with _ | ⟨body, v⟩
  · rcases toVec (NetData.serialVote a.id a.hash .no) with _ | w <;> exact ⟨⟨_, rfl⟩, by simp⟩
  rcases s.db.getLastBlock with _ | ⟨height, hash⟩
  · exact ⟨⟨_, rfl⟩, by simp⟩
  dsimp only
  by_cases hnext : K.sha256 (hash ++ body) = a.serialHash ∧ height + 1 = a.id.toNat
  · rw [if_pos hnext]
    rcases toVec (NetData.serialVote (.ofNat (height + 1)) (K.sha256 (hash ++ body)) .ok) with _ | w
    · exact ⟨⟨_, rfl⟩, by simp⟩
    · rcases toVec (NetData.serialVote a.id a.hash .no) with _ | w' <;> exact ⟨⟨_, rfl⟩, by simp⟩
  · rw [if_neg hnext]
    rcases toVec (NetData.serialVote a.id a.hash .no) with _ | w <;> exact ⟨⟨_, rfl⟩, by simp⟩

theorem event_db (e : NetEvent) :
    (event K s h e okSent noSent).1.db = s.db
      ∧ (event K s h e okSent noSent).1.applied = s.applied := by
  cases e
  case archiveBlock a =>
    obtain ⟨⟨sent, hr⟩, -⟩ := archiveBlock_cases (K := K) (s := s) (h := h) a okSent noSent
    simp only [event, hr, and_self]
  all_goals exact ⟨rfl, rfl⟩

/-- What a step of the handler does: it takes an event, or does what the last one left to do. -/
inductive Moves (K : Crypto) (okSent noSent : Bool) (s : SwarmSettings) :
    Handler → SwarmSettings → Handler → List NetEvent → Prop
  | recv (cs : Candidates) (e : NetEvent) (channel : List NetEvent) {s' : SwarmSettings}
      {h' : Handler} {timers : List NetEvent} (hc : s.channel = e :: channel)
      (he : event K { s with channel := channel } ⟨cs, .recv⟩ e okSent noSent = (s', h', timers)) :
      Moves K okSent noSent s ⟨cs, .recv⟩ s' h' timers
  | clearPending (cs : Candidates) (hash : Digest) :
      Moves K okSent noSent s ⟨cs, .clearPending hash⟩
        { s with pendingBlocks := s.pendingBlocks.filter fun p => p.hash ≠ hash } ⟨cs, .recv⟩ []
  | clearApproved (cs : Candidates) (height : ℕ) (hash rawHash : Digest) :
      Moves K okSent noSent s ⟨cs, .clearApproved height hash rawHash⟩
        { s with approvedBlocks := s.approvedBlocks.filter fun a => a.hash ≠ rawHash }
        ⟨cs, .append height hash rawHash⟩ []
  | append (cs : Candidates) (height : ℕ) (hash rawHash : Digest) {body : Bytes} {v : BodyData}
      {db : Database} (hl : cs.lookup rawHash = some (body, v))
      (hdb : db = s.db ∨ ∃ block, toVec (Block.mk hash body) = some block
        ∧ s.db.addNew height block hash.toList = some db) :
      Moves K okSent noSent s ⟨cs, .append height hash rawHash⟩ { s with db := db }
        ⟨cs.erase rawHash, .recv⟩ []

theorem moves (hs : h.step K s okSent noSent = some (s', h', timers)) :
    Moves K okSent noSent s h s' h' timers := by
  obtain ⟨cs, pc⟩ := h
  cases pc with
  | recv =>
    rcases hc : s.channel with _ | ⟨e, channel⟩ <;>
      simp only [step, hc, Option.some.injEq, reduceCtorEq] at hs
    exact .recv cs e channel hc hs
  | clearPending hash =>
    simp only [step, Option.some.injEq, Prod.mk.injEq] at hs
    obtain ⟨rfl, rfl, rfl⟩ := hs
    exact .clearPending cs hash
  | clearApproved height hash rawHash =>
    simp only [step, Option.some.injEq, Prod.mk.injEq] at hs
    obtain ⟨rfl, rfl, rfl⟩ := hs
    exact .clearApproved cs height hash rawHash
  | append height hash rawHash =>
    rcases hl : cs.lookup rawHash with _ | ⟨body, v⟩ <;>
      simp only [step, hl, reduceCtorEq] at hs
    rcases hb : toVec (Block.mk hash body) with _ | block <;>
      simp only [hb, Option.some.injEq, Prod.mk.injEq] at hs <;> obtain ⟨rfl, rfl, rfl⟩ := hs
    · exact .append cs height hash rawHash hl (.inl rfl)
    · refine .append cs height hash rawHash hl ?_
      rcases ha : s.db.addNew height block hash.toList with _ | db
      · exact .inl rfl
      · exact .inr ⟨block, hb, ha⟩
  | stopped => simp [step] at hs

/-- The handler writes to the database only to append a candidate. -/
theorem step_cases (hs : h.step K s okSent noSent = some (s', h', timers)) :
    s'.applied = s.applied ∧
      (s'.db = s.db ∨ ∃ height hash rawHash body v block, h.pc = .append height hash rawHash
        ∧ h.candidates.lookup rawHash = some (body, v) ∧ toVec (Block.mk hash body) = some block
        ∧ s.db.addNew height block hash.toList = some s'.db) := by
  cases moves hs with
  | recv cs e channel hc he =>
    obtain ⟨hdb, happ⟩ := event_db (K := K) (s := { s with channel := channel })
      (h := ⟨cs, .recv⟩) e
    rw [he] at hdb happ
    exact ⟨happ, .inl hdb⟩
  | clearPending | clearApproved => exact ⟨rfl, .inl rfl⟩
  | append cs height hash rawHash hl hdb =>
    rcases hdb with rfl | ⟨block, hb, ha⟩
    · exact ⟨rfl, .inl rfl⟩
    · exact ⟨rfl, .inr ⟨height, hash, rawHash, _, _, block, rfl, hl, hb, ha⟩⟩

end Handler

namespace Gossip

theorem dispatch_db (data : NetData) :
    (dispatch K s data).1.db = s.db ∧ (dispatch K s data).1.applied = s.applied := by
  cases data <;> exact ⟨rfl, rfl⟩

variable {g g' : Gossip} {votes : List Bool} {noSent : Bool}

/-- What a step of the gossip handler does. A block that is refused is voted against, if the vote
can be published. -/
inductive Moves (K : Crypto) (s : SwarmSettings) : Gossip → SwarmSettings → Gossip → Prop
  | user (block : Block) (v : BodyData) {g' : Gossip} (h : g' = .refuse block
      ∨ ∃ perm, s.db.permissionsOf v.userPk = some perm
        ∧ g' = .check block v perm (.start K block.body v.req v.userPk v.sign)) :
      Moves K s (.user block v) s g'
  | check (block : Block) (v : BodyData) (perm : Permissions) (c : Check) {g' : Gossip}
      (h : g' = .refuse block ∨ (c = .done (.ok none) ∧ g' = .accept block v)
        ∨ g' = .check block v perm (c.step s.db.toTables v.userPk perm)) :
      Moves K s (.check block v perm c) s g'
  | accept (block : Block) (v : BodyData) :
      Moves K s (.accept block v) (s.castVote block.hash .ok 1) (.vote block v)
  | vote (block : Block) (v : BodyData) {bytes : Bytes}
      (hb : toVec (NetData.vote block.hash .ok) = some bytes) :
      Moves K s (.vote block v) { s with
        sent := s.sent ++ [bytes]
        channel := s.channel ++ [.newBlock v block.hash] } .idle
  | unsent (block : Block) (v : BodyData) : Moves K s (.vote block v) s (.refuse block)
  | refuse (block : Block) {sent : List Bytes} (h : sent = s.sent
      ∨ ∃ bytes, toVec (NetData.vote block.hash .no) = some bytes ∧ sent = s.sent ++ [bytes]) :
      Moves K s (.refuse block) { s with sent := sent } (.clear block)
  | clear (block : Block) : Moves K s (.clear block)
      { s with pendingBlocks := s.pendingBlocks.filter fun p => p.hash ≠ block.hash } .idle

theorem moves (h : g.step K s votes noSent = some (s', g')) : Moves K s g s' g' := by
  cases g with
  | idle => simp [step] at h
  | user block v =>
    simp only [step, Option.some.injEq, Prod.mk.injEq] at h
    obtain ⟨rfl, rfl⟩ := h
    refine .user block v ?_
    rcases s.db.permissionsOf v.userPk with _ | perm
    · exact .inl rfl
    · exact .inr ⟨perm, rfl, rfl⟩
  | check block v perm c =>
    simp only [step, Option.some.injEq, Prod.mk.injEq] at h
    obtain ⟨rfl, rfl⟩ := h
    refine .check block v perm c ?_
    split
    · exact .inr (.inl ⟨rfl, rfl⟩)
    · exact .inl rfl
    · exact .inr (.inr rfl)
  | accept block v =>
    simp only [step, Option.some.injEq, Prod.mk.injEq] at h
    obtain ⟨rfl, rfl⟩ := h
    exact .accept block v
  | vote block v =>
    rcases hb : toVec (NetData.vote block.hash .ok) with _ | bytes <;> simp only [step, hb] at h
    · simp only [Option.some.injEq, Prod.mk.injEq] at h
      obtain ⟨rfl, rfl⟩ := h
      exact .unsent block v
    · split_ifs at h <;> simp only [Option.some.injEq, Prod.mk.injEq] at h <;>
        obtain ⟨rfl, rfl⟩ := h
      · exact .vote block v hb
      · exact .unsent block v
  | refuse block =>
    rcases hb : toVec (NetData.vote block.hash .no) with _ | bytes <;>
      simp only [step, hb, Option.some.injEq, Prod.mk.injEq] at h <;> obtain ⟨rfl, rfl⟩ := h
    · exact .refuse block (.inl rfl)
    · rw [publish_eq]
      refine .refuse block ?_
      cases noSent
      · exact .inl (List.append_nil _)
      · exact .inr ⟨bytes, hb, rfl⟩
  | clear block =>
    simp only [step, Option.some.injEq, Prod.mk.injEq] at h
    obtain ⟨rfl, rfl⟩ := h
    exact .clear block

theorem step_db (h : g.step K s votes noSent = some (s', g')) :
    s'.db = s.db ∧ s'.applied = s.applied := by
  cases moves h <;> exact ⟨rfl, rfl⟩

end Gossip

end Handlers

namespace Master

/-- It is a step of the `i`-th task. -/
def Act.by (i : ℕ) : Act → Bool
  | .task j _ => j = i
  | _ => false

variable {m m' : Master}

theorem of_step_request {body : BodyData} (h : m.step K (.request body) = some m') :
    m' = { m with tasks := m.tasks ++ [{ body := body }] } :=
  (Option.some.inj h).symm

theorem of_step_configure {conf : MasterConfig} (h : m.step K (.configure conf) = some m') :
    m' = { m with set := { m.set with conf := conf } } :=
  (Option.some.inj h).symm

theorem of_step_task {i : ℕ} {net : Publish} (h : m.step K (.task i net) = some m') :
    ∃ t s t', m.tasks[i]? = some t ∧ t.step K m.set net = some (s, t')
      ∧ m' = { m with set := s, tasks := m.tasks.set i t' } := by
  simp only [step, Option.bind_eq_bind, Option.bind_eq_some_iff, Option.pure_def,
    Option.some.injEq, Prod.exists] at h
  obtain ⟨t, ht, s, t', hs, rfl⟩ := h
  exact ⟨t, s, t', ht, hs, rfl⟩

theorem of_step_handle {okSent noSent : Bool} (h : m.step K (.handle okSent noSent) = some m') :
    ∃ s hd timers, m.handler.step K m.set okSent noSent = some (s, hd, timers)
      ∧ m' = { m with set := s, handler := hd, timers := m.timers ++ timers } := by
  simp only [step, Option.bind_eq_bind, Option.bind_eq_some_iff, Option.pure_def,
    Option.some.injEq, Prod.exists] at h
  obtain ⟨s, hd, timers, hs, rfl⟩ := h
  exact ⟨s, hd, timers, hs, rfl⟩

theorem of_step_timer {i : ℕ} (h : m.step K (.timer i) = some m') :
    ∃ e, m.timers[i]? = some e ∧ m' = { m with
      set := { m.set with channel := m.set.channel ++ [e] }
      timers := m.timers.eraseIdx i } := by
  simp only [step, Option.bind_eq_bind, Option.bind_eq_some_iff, Option.pure_def,
    Option.some.injEq] at h
  obtain ⟨e, he, rfl⟩ := h
  exact ⟨e, he, rfl⟩

theorem of_step_dispatch {data : NetData} (h : m.step K (.dispatch data) = some m') :
    m' = { m with
      set := (Gossip.dispatch K m.set data).1
      gossip := (Gossip.dispatch K m.set data).2 } := by
  simp only [step] at h
  split at h
  · simp only [Option.some.injEq] at h
    exact h.symm
  · simp at h

theorem of_step_gossip {votes : List Bool} {noSent : Bool}
    (h : m.step K (.gossip votes noSent) = some m') :
    ∃ s g, m.gossip.step K m.set votes noSent = some (s, g)
      ∧ m' = { m with set := s, gossip := g } := by
  simp only [step, Option.bind_eq_bind, Option.bind_eq_some_iff, Option.pure_def,
    Option.some.injEq, Prod.exists] at h
  obtain ⟨s, g, hs, rfl⟩ := h
  exact ⟨s, g, hs, rfl⟩

/-- What others do leaves a task where it is. -/
theorem tasks_stay {i : ℕ} {a : Act} (h : m.step K a = some m') (ha : a.by i = false) {t : Task}
    (ht : m.tasks[i]? = some t) : m'.tasks[i]? = some t := by
  cases a
  case request body =>
    obtain rfl := of_step_request h
    obtain ⟨hi, -⟩ := List.getElem?_eq_some_iff.1 ht
    rw [List.getElem?_append_left hi, ht]
  case configure conf =>
    obtain rfl := of_step_configure h
    exact ht
  case task j net =>
    obtain ⟨t, s, t', hget, hs, rfl⟩ := of_step_task h
    have hji : j ≠ i := of_decide_eq_false ha
    rw [List.getElem?_set_ne hji, ht]
  case handle okSent noSent =>
    obtain ⟨s, hd, timers, hs, rfl⟩ := of_step_handle h
    exact ht
  case timer j =>
    obtain ⟨e, -, rfl⟩ := of_step_timer h
    exact ht
  case dispatch data =>
    obtain rfl := of_step_dispatch h
    exact ht
  case gossip votes noSent =>
    obtain ⟨s, g, hs, rfl⟩ := of_step_gossip h
    exact ht

/-- A step leaves the database, puts a row at the end of `order`, or interprets a block. -/
theorem step_db {a : Act} (h : m.step K a = some m') :
    m'.set.db = m.set.db
      ∨ (∃ row, row.id ∉ m.set.db.order.map OrderRow.id
        ∧ m'.set.db = { m.set.db with order := m.set.db.order ++ [row] })
      ∨ ∃ i net t row, a = .task i net ∧ m.tasks[i]? = some t ∧ t.pc = .interpret row
        ∧ m'.set.db = applyBlock m.set.db t.body.req := by
  cases a
  case request body =>
    obtain rfl := of_step_request h
    exact .inl rfl
  case configure conf =>
    obtain rfl := of_step_configure h
    exact .inl rfl
  case task i net =>
    obtain ⟨t, s, t', hget, hs, rfl⟩ := of_step_task h
    rcases Task.step_cases hs with hv | ⟨_, -, rfl, -⟩ | ⟨_, -, -, rfl, -⟩ |
      ⟨row, db, -, ha, rfl, -⟩ | ⟨row, hpc, -, rfl⟩
    · exact .inl hv.db
    · exact .inl rfl
    · exact .inl rfl
    · exact .inr (.inl ⟨_, Database.addNew_eq_some _ ha⟩)
    · exact .inr (.inr ⟨i, net, t, row, rfl, hget, hpc, rfl⟩)
  case handle okSent noSent =>
    obtain ⟨s, hd, timers, hs, rfl⟩ := of_step_handle h
    rcases (Handler.step_cases hs).2 with hdb | ⟨height, hash, rawHash, body, v, block, -, -, -, ha⟩
    · exact .inl hdb
    · exact .inr (.inl ⟨⟨height, block, hash.toList⟩, Database.addNew_eq_some _ ha⟩)
  case timer i =>
    obtain ⟨e, -, rfl⟩ := of_step_timer h
    exact .inl rfl
  case dispatch data =>
    obtain rfl := of_step_dispatch h
    exact .inl (Gossip.dispatch_db data).1
  case gossip votes noSent =>
    obtain ⟨s, g, hs, rfl⟩ := of_step_gossip h
    exact .inl (Gossip.step_db hs).1

/-- The `order` table grows at its end, if at all, by a task's row or by the handler's. -/
theorem step_order {a : Act} (h : m.step K a = some m') :
    m'.set.db.order = m.set.db.order ∨ ∃ row, row.id ∉ m.set.db.order.map OrderRow.id
      ∧ m'.set.db.order = m.set.db.order ++ [row] := by
  rcases step_db h with hdb | ⟨row, hn, hdb⟩ | ⟨_, _, t, _, -, -, -, hdb⟩
  · exact .inl (by rw [hdb])
  · exact .inr ⟨row, hn, by rw [hdb]⟩
  · exact .inl (by rw [hdb, applyBlock_order])

theorem order_prefix_step {a : Act} (h : m.step K a = some m') :
    m.set.db.order <+: m'.set.db.order := by
  rcases step_order h with ho | ⟨row, -, ho⟩
  · exact ho ▸ List.prefix_refl _
  · exact ho ▸ List.prefix_append _ _

/-- No row is ever lost or changed. -/
theorem order_prefix_run {as : List Act} (h : Run.run (step K) m as = some m') :
    m.set.db.order <+: m'.set.db.order :=
  Run.reaches_induction (I := fun u => m.set.db.order <+: u.set.db.order)
    (fun _ _ _ hs hp => hp.trans (order_prefix_step hs)) ⟨as, h⟩ (List.prefix_refl _)

end Master

end Nyumt
