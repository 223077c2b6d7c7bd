import Nyumt.Poll
import Nyumt.Proofs.Ballots
import Nyumt.Toy

/-!
# One master, one weighted vote

A tally is the number of ballots it has counted: every ballot weighs one, whatever the node table
says, and a master's second ballot is counted like the first. So the tallies of a run weigh the
votes as the table says, one for each master, if and only if no step counts a second ballot of a
master and the stored weights of those that voted add up to their number (`weighed_run_iff`).
-/

namespace Nyumt

open Tally

variable {K : Crypto}

section Events

/-- A vote weighs one. -/
def NetEvent.Plain : NetEvent → Prop
  | .vote _ _ weight | .serialVote _ _ _ weight => weight = 1
  | _ => True

variable {s s' : SwarmSettings}

theorem Handler.step_events {h h' : Handler} {timers : List NetEvent} {okSent noSent : Bool}
    (hs : h.step K s okSent noSent = some (s', h', timers)) :
    s'.channel = s.channel.drop (if (h.next s).isSome then 1 else 0)
      ∧ ∀ e ∈ timers, e.Plain := by
  cases moves hs with
  | recv cs e channel hc he =>
    simp only [next, hc]
    obtain rfl := congrArg Prod.fst he
    obtain rfl := congrArg (fun r => r.2.2) he
    cases e
    case archiveBlock a =>
      obtain ⟨⟨sent, hr⟩, -, -, ht⟩ := archiveBlock_cases (K := K)
        (s := { s with channel := channel }) (h := ⟨cs, .recv⟩) a okSent noSent
      simp only [event, hr]
      refine ⟨rfl, fun e he => ?_⟩
      rcases ht with ht | ⟨body, v, height, hash, -, -, ht⟩ <;>
        simp only [ht, List.not_mem_nil, List.mem_singleton] at he
      exact he ▸ trivial
    all_goals
      refine ⟨rfl, fun e he => ?_⟩
      simp only [event, List.not_mem_nil, List.mem_singleton] at he
    case newBlock => exact he ▸ trivial
  | clearPending | clearApproved | append => exact ⟨rfl, by simp⟩

theorem Gossip.step_events {g g' : Gossip} {votes : List Bool} {noSent : Bool}
    (h : g.step K s votes noSent = some (s', g')) :
    ∃ new, s'.channel = s.channel ++ new ∧ ∀ e ∈ new, e.Plain := by
  cases moves h with
  | vote block v => exact ⟨[.newBlock v block.hash], rfl, by simp [NetEvent.Plain]⟩
  | user | check | accept | unsent | refuse | clear =>
    exact ⟨[], (List.append_nil _).symm, by simp⟩

/-- Every vote on the channel, and every one that may come there, weighs one. -/
def Master.Plain (m : Master) : Prop :=
  (∀ e ∈ m.set.channel, e.Plain) ∧ ∀ e ∈ m.timers, e.Plain

namespace Master

variable {m m' : Master} {a : Act}

/-- The channel loses what the handler takes, and gets votes of weight one and timeouts. -/
theorem step_events (h : m.step K a = some m') (hp : m.Plain) :
    (∃ new, m'.set.channel = m.set.channel.drop (m.taken a) ++ new ∧ ∀ e ∈ new, e.Plain)
      ∧ ∀ e ∈ m'.timers, e.Plain := by
  have hsame : m'.set.channel = m.set.channel → m.taken a = 0 →
      ∃ new, m'.set.channel = m.set.channel.drop (m.taken a) ++ new ∧ ∀ e ∈ new, e.Plain :=
    fun hc ht => ⟨[], by rw [hc, ht, List.drop_zero, List.append_nil], by simp⟩
  cases a
  case request body =>
    obtain rfl := of_step_request h
    exact ⟨hsame rfl rfl, hp.2⟩
  case configure conf =>
    obtain rfl := of_step_configure h
    exact ⟨hsame rfl rfl, hp.2⟩
  case task i net =>
    obtain ⟨t, s, t', -, hs, rfl⟩ := of_step_task h
    exact ⟨hsame (Task.step_channel hs) rfl, hp.2⟩
  case handle okSent noSent =>
    obtain ⟨s, hd, timers, hs, rfl⟩ := of_step_handle h
    obtain ⟨hc, ht⟩ := Handler.step_events hs
    refine ⟨⟨[], by rw [List.append_nil]; exact hc, by simp⟩, fun e he => ?_⟩
    exact (List.mem_append.1 he).elim (hp.2 e) (ht e)
  case timer i =>
    obtain ⟨e, he, rfl⟩ := of_step_timer h
    refine ⟨⟨[e], rfl, fun e' he' => ?_⟩, fun e' he' => hp.2 e' (List.mem_of_mem_eraseIdx he')⟩
    exact List.mem_singleton.1 he' ▸ hp.2 e (List.mem_of_getElem? he)
  case dispatch data =>
    obtain rfl := of_step_dispatch h
    refine ⟨?_, hp.2⟩
    cases data
    case block b => exact hsame rfl rfl
    all_goals exact ⟨[_], rfl, by simp [NetEvent.Plain]⟩
  case gossip votes noSent =>
    obtain ⟨s, g, hs, rfl⟩ := of_step_gossip h
    exact ⟨Gossip.step_events hs, hp.2⟩

theorem plain_step (h : m.step K a = some m') (hp : m.Plain) : m'.Plain := by
  obtain ⟨⟨new, hc, hnew⟩, ht⟩ := step_events h hp
  refine ⟨fun e he => ?_, ht⟩
  rw [hc, List.mem_append] at he
  exact he.elim (fun he => hp.1 e (List.mem_of_mem_drop he)) (hnew e)

end Master

end Events

section Entries

variable {κ : Type}

/-- Everybody whose ballot a tally has counted has cast one. -/
def Once (e : κ × List Cast) : Prop := (e.2.map Cast.voter).Nodup

/-- Every ballot that a tally has counted weighs one. -/
def WeighsOne (e : κ × List Cast) : Prop := ∀ c ∈ e.2, c.ballot.weight = 1

/-- The stored weights of the masters that cast a vote add up to their number. -/
def AddsUp (t : Tables) (e : κ × List Cast) : Prop :=
  t.weigh .ok e.2 = (Cast.voters .ok e.2).length ∧ t.weigh .no e.2 = (Cast.voters .no e.2).length

theorem once_add {e : κ × List Cast} {c : Cast} :
    Once (board.add e c) ↔ Once e ∧ c.voter ∉ e.2.map Cast.voter := by
  unfold Once board
  rw [List.map_append, List.map_singleton, ← List.concat_eq_append, List.nodup_concat, and_comm]

end Entries

section Sheets

variable {ε κ : Type} [DecidableEq κ]

/-- What is entered holds no ballot or the master's own, and what is cast weighs one. -/
def Simple : Op (κ × List Ballot) κ Ballot → Prop
  | .enter e => e.2 = [] ∨ e.2 = [.proposal]
  | .cast _ b => b.weight = 1
  | _ => True

theorem Handler.next_plain {m : Master} (hp : m.Plain) {e : NetEvent}
    (h : m.handler.next m.set = some e) : e.Plain := by
  unfold next at h
  split at h
  · exact hp.1 e (List.mem_of_head? h)
  · simp at h

theorem Task.simple (t : Task) : Simple t.pendingOp ∧ Simple t.approvedOp := by
  unfold pendingOp approvedOp
  cases t.pc
  case pushPending => exact ⟨.inr rfl, trivial⟩
  case pushApproved => exact ⟨trivial, .inr rfl⟩
  all_goals exact ⟨trivial, trivial⟩

theorem Master.simple {m : Master} (hp : m.Plain) (a : Master.Act) :
    Simple (m.pendingOp a) ∧ Simple (m.approvedOp a) := by
  cases a
  case task i net =>
    simp only [pendingOp, approvedOp]
    rcases m.tasks[i]? with _ | t
    · exact ⟨trivial, trivial⟩
    · exact t.simple
  case handle okSent noSent =>
    constructor
    · simp only [pendingOp, Handler.pendingOp]
      split
      · trivial
      · exact Handler.next_plain hp ‹_›
      · trivial
    · simp only [approvedOp, Handler.approvedOp]
      split
      · trivial
      · exact Handler.next_plain hp ‹_›
      · trivial
  case dispatch data =>
    cases data
    case block b => exact ⟨.inl rfl, trivial⟩
    all_goals exact ⟨trivial, trivial⟩
  case gossip votes noSent =>
    refine ⟨?_, trivial⟩
    simp only [pendingOp]
    cases m.gossip
    case accept => exact rfl
    all_goals trivial
  all_goals exact ⟨trivial, trivial⟩

/-- No tally that counts the ballot has one of that master. -/
def Fresh (es : List (κ × List Cast)) : Op (κ × List Cast) κ Cast → Prop
  | .cast k c => ∀ e ∈ es, e.1 = k → c.voter ∉ e.2.map Cast.voter
  | _ => True

instance (es : List (κ × List Cast)) : DecidablePred (Fresh es)
  | .cast k c => inferInstanceAs (Decidable (∀ e ∈ es, e.1 = k → c.voter ∉ e.2.map Cast.voter))
  | .enter _ | .close _ | .skip => isTrue trivial

namespace Sheet

variable (S : Sheet K ε κ)

/-- A tally is the count of the ballots it has counted. -/
def counted : Hom (board : Tally (κ × List Cast) κ Cast) S.tally where
  entry e := S.counting.entry (e.1, e.2.map Cast.ballot)
  ballot := Cast.ballot
  key_entry e := S.counting.key_entry _
  add_entry e c := (S.counting.add_entry (e.1, e.2.map Cast.ballot) c.ballot).trans <| by
    simp [board]

variable {S} {p : Poll} {es : List (κ × List Cast)} {m m' : Master} {a : Master.Act}

/-- Beside the list a step counts the ballots it counts in it. -/
theorem map_counted_step (h : m.step K a = some m') (hes : es.map S.counted.entry = S.list m.set) :
    (board.apply es ((S.op m a).map p.entry p.cast)).map S.counted.entry = S.list m'.set := by
  rw [S.counted.map_apply, hes, S.step_list h]
  congr 1
  cases S.op m a
  case enter e =>
    refine congrArg Op.enter ?_
    simp only [counted, Poll.entry, List.map_map]
    have hid : Cast.ballot ∘ p.cast = id := rfl
    rw [hid, List.map_id]
    rfl
  all_goals rfl

end Sheet

variable {p : Poll} {es : List (κ × List Cast)} {o : Op (κ × List Ballot) κ Ballot}

/-- Every tally goes on to have one ballot of each master just if no second one is counted. -/
theorem once_apply_iff (ho : Simple o) (h : ∀ e ∈ es, Once e) :
    (∀ e ∈ board.apply es (o.map p.entry p.cast), Once e) ↔ Fresh es (o.map p.entry p.cast) := by
  cases o
  case enter e =>
    refine iff_of_true (forall_apply (P := Once) h (fun e' he' => ?_) ?_) trivial
    · obtain rfl := Op.enter.inj he'
      rcases ho with ho | ho <;> simp [Poll.entry, ho, Once]
    · rintro k b ⟨⟩
  case cast k b =>
    constructor
    · intro hall e he hk
      exact (once_add.1 (of_forall_cast (P := Once) hall he hk)).2
    · intro hf
      refine forall_apply (P := Once) h (by rintro e ⟨⟩) ?_
      rintro k' c ⟨⟩ e he hk
      exact once_add.2 ⟨h e he, hf e he hk⟩
  all_goals
    exact iff_of_true (forall_apply (P := Once) h (by rintro e ⟨⟩)
      (by rintro k b ⟨⟩)) trivial

theorem one_apply (ho : Simple o) (h : ∀ e ∈ es, WeighsOne e) :
    ∀ e ∈ board.apply es (o.map p.entry p.cast), WeighsOne e := by
  refine forall_apply (P := WeighsOne) h (fun e he => ?_) fun k c hc e he _ => ?_
  · cases o <;> simp only [Op.map, Op.enter.injEq, reduceCtorEq] at he
    subst he
    rcases ho with ho | ho <;> simp [WeighsOne, Poll.entry, ho, Poll.cast, Ballot.proposal, vote]
  · cases o <;> simp only [Op.map, Op.cast.injEq, reduceCtorEq] at hc
    obtain ⟨rfl, rfl⟩ := hc
    intro c' hc'
    rcases List.mem_append.1 hc' with hc' | hc'
    · exact h e he c' hc'
    · exact List.mem_singleton.1 hc' ▸ ho

/-- A tally of ballots that weigh one is their number. -/
theorem weighed_iff {S : Sheet K ε κ} {t : Tables} {e : κ × List Cast}
    (h : WeighsOne e) : Weighed t (S.votes (S.counted.entry e)) e.2 ↔ Once e ∧ AddsUp t e := by
  have hvotes : S.votes (S.counted.entry e)
      = ⟨(Cast.voters .ok e.2).length, (Cast.voters .no e.2).length⟩ := by
    have hcount : ∀ v, Ballot.weightOf v (e.2.map Cast.ballot) = (Cast.voters v e.2).length :=
      fun v => by
        rw [Ballot.weightOf_of_one (by simpa [WeighsOne] using h), List.countP_map, Cast.voters,
          List.length_map, List.countP_eq_length_filter]
        rfl
    rw [← hcount, ← hcount]
    exact S.votes_entry _ _
  rw [hvotes]
  constructor
  · rintro ⟨honce, hok, hno⟩
    exact ⟨honce, hok.symm, hno.symm⟩
  · rintro ⟨honce, hok, hno⟩
    exact ⟨honce, hok.symm, hno.symm⟩

theorem forall_weighed_iff {S : Sheet K ε κ} {t : Tables} {es : List (κ × List Cast)}
    (h : ∀ e ∈ es, WeighsOne e) : List.Forall₂ (fun q e => Weighed t (S.votes q) e.2)
      (es.map S.counted.entry) es ↔ (∀ e ∈ es, Once e) ∧ ∀ e ∈ es, AddsUp t e := by
  rw [List.forall₂_map_left_iff, List.forall₂_same]
  constructor
  · intro hw
    have hoe := fun e he => (weighed_iff (h e he)).1 (hw e he)
    exact ⟨fun e he => (hoe e he).1, fun e he => (hoe e he).2⟩
  · rintro ⟨honce, hadd⟩ e he
    exact (weighed_iff (h e he)).2 ⟨honce e he, hadd e he⟩

end Sheets

namespace Poll

/-- The record is of the master: its channel, and tallies that are the counts of their ballots. -/
structure Recorded (K : Crypto) (p : Poll) : Prop where
  plain : p.master.Plain
  events : p.events.map Prod.snd = p.master.set.channel
  pending : p.pending.map (pendingSheet K).counted.entry = p.master.set.pendingBlocks
  approved : p.approved.map (approvedSheet K).counted.entry = p.master.set.approvedBlocks
  pendingOne : ∀ e ∈ p.pending, WeighsOne e
  approvedOne : ∀ e ∈ p.approved, WeighsOne e

/-- No tally has two ballots of one master. -/
def Once (p : Poll) : Prop := (∀ e ∈ p.pending, Nyumt.Once e) ∧ ∀ e ∈ p.approved, Nyumt.Once e

/-- In each tally the stored weights of the masters that cast a vote add up to their number. -/
def AddsUp (p : Poll) : Prop :=
  (∀ e ∈ p.pending, Nyumt.AddsUp p.master.set.db.toTables e)
    ∧ ∀ e ∈ p.approved, Nyumt.AddsUp p.master.set.db.toTables e

/-- The step counts no ballot of a master in a tally that has one of that master. -/
def Fresh (p : Poll) (a : Act) : Prop :=
  Nyumt.Fresh p.pending (p.pendingOp a) ∧ Nyumt.Fresh p.approved (p.approvedOp a)

variable {p p' : Poll} {a : Act}

theorem of_step (h : p.step K a = some p') : p.master.step K a.act = some p'.master
    ∧ p'.key = p.key ∧ p'.pending = board.apply p.pending (p.pendingOp a)
    ∧ p'.approved = board.apply p.approved (p.approvedOp a)
    ∧ p'.events = p.events.drop (p.master.taken a.act) ++ (p'.master.set.channel.drop
        (p.events.drop (p.master.taken a.act)).length).map fun e => (p.origin a, e) := by
  unfold step at h
  split at h
  · simp at h
  · simp only [Option.bind_eq_bind, Option.bind_eq_some_iff, Option.pure_def,
      Option.some.injEq] at h
    obtain ⟨m, hm, rfl⟩ := h
    exact ⟨hm, rfl, rfl, rfl, rfl⟩

/-- The record is in the way of no step. -/
theorem exists_step {m : Master} (h : p.master.step K a.act = some m)
    (ha : ∀ data, a ≠ .own (.dispatch data)) : ∃ p', p.step K a = some p' ∧ p'.master = m := by
  unfold step
  split
  · exact absurd rfl (ha _)
  · simp only [h, Option.bind_eq_bind, Option.bind_some, Option.pure_def, Option.some.injEq,
      exists_eq_left']

theorem recorded_init (key : PublicKey) (db : Database) (conf : MasterConfig) :
    Recorded K (init key db conf) := by
  refine ⟨⟨?_, ?_⟩, rfl, rfl, rfl, ?_, ?_⟩ <;> simp [init, Master.init]

theorem recorded_step (h : p.step K a = some p') (hr : Recorded K p) : Recorded K p' := by
  obtain ⟨hm, -, hpending, happroved, hevents⟩ := of_step h
  obtain ⟨⟨new, hc, -⟩, -⟩ := Master.step_events hm hr.plain
  obtain ⟨hp, ha⟩ := Master.simple hr.plain a.act
  refine ⟨Master.plain_step hm hr.plain, ?_, ?_, ?_, ?_, ?_⟩
  · have hrest : (p.events.drop (p.master.taken a.act)).map Prod.snd
        = p.master.set.channel.drop (p.master.taken a.act) := by
      rw [List.map_drop, hr.events]
    rw [hevents, hc, List.map_append, hrest, List.map_map, ← List.length_map (f := Prod.snd), hrest,
      List.drop_left]
    exact congrArg _ (List.map_id _)
  · rw [hpending]
    exact Sheet.map_counted_step hm hr.pending
  · rw [happroved]
    exact Sheet.map_counted_step hm hr.approved
  · rw [hpending]
    exact one_apply hp hr.pendingOne
  · rw [happroved]
    exact one_apply ha hr.approvedOne

theorem once_step_iff (h : p.step K a = some p') (hr : Recorded K p) (ho : p.Once) :
    p'.Once ↔ p.Fresh a := by
  obtain ⟨-, -, hpending, happroved, -⟩ := of_step h
  obtain ⟨hp, ha⟩ := Master.simple hr.plain a.act
  unfold Once
  rw [hpending, happroved]
  exact and_congr (once_apply_iff hp ho.1) (once_apply_iff ha ho.2)

theorem weighed_iff_once_addsUp (hr : Recorded K p) : p.Weighed ↔ p.Once ∧ p.AddsUp := by
  have hp := forall_weighed_iff (S := pendingSheet K) (t := p.master.set.db.toTables) hr.pendingOne
  have ha := forall_weighed_iff (S := approvedSheet K) (t := p.master.set.db.toTables)
    hr.approvedOne
  rw [hr.pending] at hp
  rw [hr.approved] at ha
  exact (and_congr hp ha).trans and_and_and_comm

theorem throughout_weighed_iff : ∀ {p p' : Poll} {as : List Act}, Recorded K p → p.Once →
    Run.run (step K) p as = some p' → (Run.Throughout (step K) Weighed p as ↔
      Run.Along (step K) Fresh p as ∧ Run.Throughout (step K) AddsUp p as)
  | p, p', [], hr, ho, _ => by
    have hw := weighed_iff_once_addsUp hr
    exact ⟨fun h => ⟨trivial, (hw.1 h).2⟩, fun h => hw.2 ⟨ho, h.2⟩⟩
  | p, p', a :: as, hr, ho, h => by
    obtain ⟨q, hq, h⟩ := Run.of_run_cons h
    have hrq := recorded_step hq hr
    have hoq := once_step_iff hq hr ho
    have hw := weighed_iff_once_addsUp hr
    rw [Run.throughout_cons hq, Run.throughout_cons hq, Run.along_cons hq]
    constructor
    · rintro ⟨hp, has⟩
      have hq' := ((weighed_iff_once_addsUp hrq).1 has.head).1
      obtain ⟨hf, he⟩ := (throughout_weighed_iff hrq hq' h).1 has
      exact ⟨⟨hoq.1 hq', hf⟩, (hw.1 hp).2, he⟩
    · rintro ⟨⟨hfp, hf⟩, hep, he⟩
      exact ⟨hw.2 ⟨ho, hep⟩, (throughout_weighed_iff hrq (hoq.2 hfp) h).2 ⟨hf, he⟩⟩

/-- All tallies of a run weigh the votes as the node table says, one for each master, just if no
step counts a second ballot of a master in a tally and in each state the stored weights of those
that voted add up to their number. -/
theorem weighed_run_iff {key : PublicKey} {db : Database} {conf : MasterConfig} {as : List Act}
    (h : Run.run (step K) (init key db conf) as = some p) :
    Run.Throughout (step K) Weighed (init key db conf) as ↔
      Run.Along (step K) Fresh (init key db conf) as
        ∧ Run.Throughout (step K) AddsUp (init key db conf) as := by
  refine throughout_weighed_iff (recorded_init key db conf) ⟨?_, ?_⟩ h <;> simp [init]

instance : DecidablePred AddsUp := fun p => inferInstanceAs (Decidable (
  (∀ e ∈ p.pending, _ ∧ _) ∧ ∀ e ∈ p.approved, _ ∧ _))

instance (p : Poll) : DecidablePred p.Fresh := fun _ => inferInstanceAs (Decidable (_ ∧ _))

/-- A master proposes a block and hears the vote of the other one. -/
theorem weighed_run_iff_pair :
    let as : List Act := .own (.request (toyBody 1 [])) :: List.replicate 3 (.own (.task 0 .sent))
      ++ [.dispatch (toyKey 4) (.vote toyLocals.hash .no), .own (.handle true true)]
    ∃ p, Run.run (step toy) (init (toyKey 0) toyPair (.default toy)) as = some p
      ∧ p.master.set.pendingBlocks.map Pending.votes = [⟨1, 1⟩]
      ∧ Run.Throughout (step toy) Weighed (init (toyKey 0) toyPair (.default toy)) as := by
  intro as
  have hrun : (Run.run (step toy) (init (toyKey 0) toyPair (.default toy)) as).any fun p =>
      p.master.set.pendingBlocks.map Pending.votes = [⟨1, 1⟩] := by decide +kernel
  obtain ⟨p, hp, hv⟩ := Run.exists_of_any hrun
  exact ⟨p, hp, hv, (weighed_run_iff hp).2 ⟨by decide +kernel, by decide +kernel⟩⟩

/-- The weight of a master is raised to 5, and its vote still weighs 1. -/
theorem not_weighed_run : ¬ ∀ (key : PublicKey) (db : Database) (conf : MasterConfig)
    (as : List Act) (p : Poll), Run.run (step toy) (init key db conf) as = some p → p.Weighed := by
  intro h
  let as : List Act :=
    .own (.request (toyBody 1 [.order (.updateVoteWeight (toyKey 0) 5)])) ::
      (Master.heard 0).map .own ++ .own (.request (toyBody 2 [])) ::
      List.replicate 3 (.own (.task 1 .sent))
  have hrun : (Run.run (step toy) (init (toyKey 0) toyPair (.default toy)) as).any
      fun p => ¬ p.Weighed := by decide +kernel
  obtain ⟨p, hp, hw⟩ := Run.exists_of_any hrun
  exact hw (h _ _ _ _ _ hp)

end Poll

end Nyumt
