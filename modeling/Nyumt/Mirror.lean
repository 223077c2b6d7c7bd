import Nyumt.Client
import Nyumt.Feed
import Nyumt.Serve

/-!
# A master and a client

A master serves requests and stores blocks, the loop of `event_handler` reads them from its table
and sends them, and the client of the session handles what it is sent. Each takes its steps beside
the others. A message may come at any time after it was sent, in any order, and again.
-/

namespace Nyumt

structure Mirror where
  server : Server
  feed : Feed
  client : Syncing
  /-- How many messages have come. -/
  received : ℕ := 0

/-- Blocks are a task of the client's; statistics are no part of the log. -/
def Outgoing.receive (c : Syncing) : Outgoing → Syncing
  | .blocks rows => { c with batches := c.batches ++ [⟨rows.map OrderRow.request, .next⟩] }
  | .stats _ => c

namespace Mirror

inductive Act
  | server (a : Server.Act)
  | feed (a : Feed.Act)
  | deliver (i : ℕ)
  | client (i : ℕ)

def order (s : Mirror) : List OrderRow := s.server.master.set.db.order

def step (K : Crypto) (s : Mirror) : Act → Option Mirror
  | .server a => do
    let v ← s.server.step K a
    return { s with server := v, feed := { s.feed with order := v.master.set.db.order } }
  | .feed (.append _) => none -- the rows are the master's
  | .feed a => do
    let f ← s.feed.step a
    return { s with feed := f }
  | .deliver i => do
    let m ← s.feed.sent[i]?
    return { s with client := m.receive s.client, received := s.received + 1 }
  | .client i => do
    let c ← s.client.step K (.batch i)
    return { s with client := c }

/-- A session is entered on a master that is running already. -/
def init (v : Server) (stats : List StatsRow) (settings : SessionSettings) (c : Client) :
    Mirror where
  server := v
  feed := .init v.master.set.db.order stats settings
  client := ⟨c, []⟩

/-- What an action does to the state. -/
inductive Moves (K : Crypto) (s : Mirror) : Act → Mirror → Prop
  | server {a : Server.Act} {v : Server} (h : s.server.step K a = some v) :
      Moves K s (.server a)
        { s with server := v, feed := { s.feed with order := v.master.set.db.order } }
  | feed {a : Feed.Act} {f : Feed} (ha : ∀ row, a ≠ .append row) (h : s.feed.step a = some f) :
      Moves K s (.feed a) { s with feed := f }
  | deliver {i : ℕ} {m : Outgoing} (h : s.feed.sent[i]? = some m) :
      Moves K s (.deliver i) { s with client := m.receive s.client, received := s.received + 1 }
  | client {i : ℕ} {c : Syncing} (h : s.client.step K (.batch i) = some c) :
      Moves K s (.client i) { s with client := c }

theorem moves {K : Crypto} {s s' : Mirror} {a : Act} (h : s.step K a = some s') :
    Moves K s a s' := by
  cases a with
  | server a =>
    obtain ⟨v, hv, h⟩ := Option.bind_eq_some_iff.1 h
    simp only [Option.pure_def, Option.some.injEq] at h
    exact h ▸ .server hv
  | feed a =>
    have ha : ∀ row, a ≠ .append row := by
      rintro row rfl
      cases h
    have hstep : (s.feed.step a).map (fun f => { s with feed := f }) = some s' := by
      rw [← h, Option.map_eq_bind]
      cases a <;> first | rfl | exact (ha _ rfl).elim
    obtain ⟨f, hf, rfl⟩ := Option.map_eq_some_iff.1 hstep
    exact .feed ha hf
  | deliver i =>
    obtain ⟨m, hm, h⟩ := Option.bind_eq_some_iff.1 h
    simp only [Option.pure_def, Option.some.injEq] at h
    exact h ▸ .deliver hm
  | client i =>
    obtain ⟨c, hc, h⟩ := Option.bind_eq_some_iff.1 h
    simp only [Option.pure_def, Option.some.injEq] at h
    exact h ▸ .client hc

end Mirror

end Nyumt
