import Nyumt.Proofs.Client
import Nyumt.Proofs.Replay
import Nyumt.Proofs.Serial

/-!
# What a log is served as

A client takes a row up if its block is admitted on the tables that the rows before it make
(`OrderRow.Sound`). On a master without peers this is so of each row once it was interpreted: the
block is admitted then, and while blocks are interpreted in the order of their rows the tables are
those of the rows before. So what a master at rest serves is sound from the first row to the last
(`served_of_idle`).
-/

namespace Nyumt

open Borsh

variable {K : Crypto}

/-- The tables that the first rows make. -/
def tablesAt (log : List OrderRow) (n : ℕ) : Tables := Log.replay Tables.replayRow {} (log.take n)

/-- The row holds a block, and any but the first is admitted on the tables. -/
def OrderRow.Sound (K : Crypto) (t : Tables) (row : OrderRow) : Prop :=
  ∃ block data, fromSlice Block row.data = some block ∧ fromSlice BodyData block.body = some data
    ∧ row.hash = block.hash.toList ∧ (row.id = 0 ∨ Admitted K t data)

/-- The rows are numbered, and each is sound where it is to be applied. -/
structure Served (K : Crypto) (log : List OrderRow) : Prop where
  ids : log.map OrderRow.id = List.range log.length
  sound : ∀ n (row : OrderRow), log[n]? = some row → row.Sound K (tablesAt log n)

section Rows

variable {log log' : List OrderRow} {n : ℕ} {row : OrderRow}

theorem tablesAt_mono (h : log <+: log') (hn : n ≤ log.length) :
    tablesAt log' n = tablesAt log n := by
  obtain ⟨rest, rfl⟩ := h
  rw [tablesAt, tablesAt, List.take_append_of_le_length hn]

theorem getElem?_mono (h : log <+: log') (hn : n < log.length) : log'[n]? = log[n]? := by
  obtain ⟨rest, rfl⟩ := h
  exact List.getElem?_append_left hn

theorem tablesAt_succ (h : log[n]? = some row) :
    tablesAt log (n + 1) = (tablesAt log n).replayRow row := by
  rw [tablesAt, tablesAt, List.take_add_one, h, Option.toList_some, Log.replay_append]

theorem id_of_getElem? (hids : log.map OrderRow.id = List.range log.length)
    (h : log[n]? = some row) : row.id = n := by
  have hlt := (List.getElem?_eq_some_iff.1 h).1
  have hid : (log.map OrderRow.id)[n]? = some n := by
    rw [hids, List.getElem?_range hlt]
  rw [List.getElem?_map, h] at hid
  exact Option.some.inj hid

theorem OrderRow.sound_of_holds {t : Tables} {v : BodyData} {body : Bytes} {hash : Digest}
    (hb : toVec v = some body) (hh : Holds row body hash) (ha : row.id = 0 ∨ Admitted K t v) :
    row.Sound K t :=
  ⟨⟨hash, body⟩, v.clearHash, hh.data, fromSlice_clearHash hb, hh.hash,
    ha.imp_right (Client.admitted_clearHash hb)⟩

end Rows

namespace Master

variable {m m' : Master}

/-- What was interpreted was sound. -/
def Sound (K : Crypto) (m : Master) : Prop :=
  ∀ n (row : OrderRow), m.set.db.order[n]? = some row → n ∉ m.pending →
    row.Sound K (tablesAt m.set.db.order n)

theorem Sound.of_eq (hs : m.Sound K) (ho : m'.set.db.order = m.set.db.order)
    (hint : ∀ j row, m'.Interpreting j row ↔ m.Interpreting j row) : m'.Sound K := by
  intro n row hrow hn
  have hp : m'.pending = m.pending := by
    ext h
    simp only [pending, Set.mem_ofPred_eq, hint]
  rw [ho] at hrow ⊢
  rw [hp] at hn
  exact hs n row hrow hn

/-- The row that is interpreted is the first that is pending. -/
theorem LogInv.tables_eq (hi : LogInv K m) {i : ℕ} {row : OrderRow} (hrow : m.Interpreting i row)
    (hmin : ∀ j row', m.Interpreting j row' → row.id ≤ row'.id) :
    m.set.db.toTables = tablesAt m.set.db.order row.id := by
  obtain ⟨k, hk, htab, hp⟩ := hi.replayed
  have hmem : row.id ∈ Set.Ico k m.set.db.order.length := by
    rw [← hp]
    exact ⟨i, row, hrow, rfl⟩
  obtain ⟨j, row', hrow', hid⟩ : k ∈ m.pending := by
    rw [hp]
    exact ⟨le_rfl, hmem.1.trans_lt hmem.2⟩
  have hle := hmin j row' hrow'
  rw [hid] at hle
  rw [htab, le_antisymm hle hmem.1]
  rfl

theorem sound_task {i : ℕ} {net : Publish} (hok : InOrder m (.task i net))
    (h : m.step K (.task i net) = some m') (hi : LogInv K m)
    (hadm : ∀ t ∈ m.tasks, t.pc.isDone = false → Admitted K m.set.db.toTables t.body)
    (hs : m.Sound K) : m'.Sound K := by
  have hi' := logInv_task hok h hi
  have hpre := order_prefix_step h
  obtain ⟨t, s, t', hget, hstep, rfl⟩ := of_step_task h
  intro n row hrow hn
  by_cases hold : n ∈ m.pending
  · -- it is pending no more, so it is the row that was just interpreted
    obtain ⟨j, row', hint, rfl⟩ := hold
    obtain rfl : j = i := by
      by_contra hj
      refine hn ⟨j, row', (interpreting_set hget j row').2 ?_, rfl⟩
      rwa [if_neg hj]
    have hmem := hi.mem_order hint
    have hlt := id_lt_length hi.ids hmem
    rw [getElem?_mono hpre hlt, getElem?_id hi.ids hmem, Option.some.injEq] at hrow
    subst hrow
    rw [tablesAt_mono hpre hlt.le, ← hi.tables_eq hint (hok row' hint)]
    obtain ⟨u, hu, hpc⟩ := hint
    have hu := List.mem_of_getElem? hu
    have hrow := hi.tasks u hu
    unfold Task.Ok at hrow
    rw [hpc] at hrow
    obtain ⟨-, body, hash, hb, hh⟩ := hrow
    exact OrderRow.sound_of_holds hb hh (.inr (hadm u hu (by rw [hpc]; rfl)))
  · have hlt : n < m.set.db.order.length := by
      by_contra hge
      have hn' := (List.getElem?_eq_some_iff.1 hrow).1
      rcases Task.step_cases hstep with hv | ⟨_, -, rfl, -⟩ | ⟨_, -, -, rfl, -⟩ |
        ⟨new, db, hpc, ha, rfl, rfl⟩ | ⟨_, -, -, rfl⟩
      case inr.inr.inr.inl =>
        -- the row was just appended, and its task is to interpret it
        obtain ⟨-, rfl⟩ := Database.addNew_eq_some _ ha
        have hlen : n = m.set.db.order.length := by
          simp only [List.length_append, List.length_singleton] at hn'
          omega
        obtain rfl : new = row := by simpa [hlen] using hrow
        refine hn ⟨i, new, (interpreting_set hget i new).2 ?_, id_of_getElem? hi'.ids hrow⟩
        rw [if_pos rfl]
        rfl
      case inl => exact hge (by rw [hv.db] at hn'; exact hn')
      case inr.inr.inr.inr => exact hge (by simpa [applyBlock_order] using hn')
      all_goals exact hge hn'
    rw [tablesAt_mono hpre hlt.le]
    rw [getElem?_mono hpre hlt] at hrow
    exact hs n row hrow hold

end Master

namespace Server

variable {s s' : Server}

/-- What `Calm` asks of a step, and that blocks are interpreted in the order of their rows. -/
def Orderly (s : Server) (a : Act) : Prop :=
  a.Single ∧ Calm s a ∧ ∀ b, a = .master b → s.master.InOrder b

structure ServeInv (K : Crypto) (s : Server) : Prop where
  serial : SerialInv K s
  log : Master.LogInv K s.master
  sound : s.master.Sound K

theorem serveInv_step {a : Act} (ha : s.Orderly a) (h : s.step K a = some s')
    (hi : ServeInv K s) : ServeInv K s' := by
  obtain ⟨hsingle, hcalm, horder⟩ := ha
  refine ⟨serialInv_step hsingle hcalm h hi.serial, ?_, ?_⟩ <;> cases moves h
  case refine_1.master b m hm => exact Master.logInv_step (horder b rfl) hm hi.log
  case refine_1.accept i c timestamp hc hd =>
    exact Master.logInv_step (a := .request (c.block timestamp)) trivial rfl hi.log
  case refine_2.master b m hm =>
    cases b
    case task i net =>
      refine Master.sound_task (horder _ rfl) hm hi.log (fun t ht hd => ?_) hi.sound
      exact hi.serial.tasks t ht hd
    case request => simp [step] at h
    case configure conf =>
      obtain rfl := Master.of_step_configure hm
      exact hi.sound.of_eq rfl fun _ _ => Iff.rfl
    all_goals exact hsingle.elim
  case refine_2.accept => exact hi.sound.of_eq rfl (Master.interpreting_append (by simp))
  all_goals first | exact hi.log | exact hi.sound

theorem serveInv_init {nodePk pk : PublicKey} {timestamp : UInt64} {db : Database}
    (hg : Genesis K nodePk pk timestamp db) (conf : MasterConfig) : ServeInv K (init db conf) where
  serial := ⟨by simp [init], by simp [init, Master.init]⟩
  log := Master.logInv_init hg conf
  sound := by
    obtain ⟨-, data, body, ho, hb, hd⟩ := of_genesis hg
    intro n row hrow _
    have hord : (init db conf).master.set.db.order = db.order := rfl
    rw [hord, ho] at hrow
    have hmem := List.mem_of_getElem? hrow
    obtain rfl := List.mem_singleton.1 hmem
    exact OrderRow.sound_of_holds hb ⟨hd, rfl⟩ (.inl rfl)

/-- A master at rest has a log that can be served, and the tables the log makes. -/
theorem served_of_idle (hi : ServeInv K s) (h : s.master.idle) :
    Served K s.master.set.db.order
      ∧ s.tables = tablesAt s.master.set.db.order s.master.set.db.order.length := by
  have hnone := Master.pending_of_idle h
  have hrep := hi.log.replayed
  rw [hnone] at hrep
  refine ⟨⟨hi.log.ids, fun n row hrow => hi.sound n row hrow (by simp [hnone])⟩, ?_⟩
  rw [tables, hrep.eq_replay, tablesAt, List.take_length]

end Server

end Nyumt
