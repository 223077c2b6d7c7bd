import Nyumt.Plot

/-!
# The points of a plot

A record of an interface or a device is its values, its names and what is neither (`Piece`). The
loop over a record goes by what follows the value: it ends where something else comes, and with what
it has found by then (`lead`). So a record gives its point only if something else comes behind the
value, and the name before it (`Told`), and all the points are there when all records are so
(`extracts_iff`).
-/

namespace Nyumt

open Borsh

/-- What an element of a record is to a plot of an object. -/
inductive Piece
  | value (v : VarValue)
  | name (v : VarValue)
  | other
  deriving DecidableEq

section Records

variable {O : Type} [DecidableEq O]

def piece (obj nameOID : O) (vv : O × VarValue) : Piece :=
  if vv.1 = obj then .value vv.2 else if vv.1 = nameOID then .name vv.2 else .other

/-- The interfaces or devices of a part of a report, if it is of the object's class. -/
def OID.records : OID → DataType → List (List Piece)
  | .network (some obj), .network v => v.map fun val => val.map (piece obj .name)
  | .storage (some obj), .storage v => v.map fun val => val.map (piece obj .name)
  | _, _ => []

/-- It names an object of an interface or a device, other than the name. -/
def OID.Plotted : OID → Prop
  | .network (some obj) => obj ≠ .name
  | .storage (some obj) => obj ≠ .name
  | _ => False

def HasValue (record : List Piece) : Prop := ∃ v, .value v ∈ record

def HasName (record : List Piece) : Prop := ∃ v, .name v ∈ record

instance (record : List Piece) : Decidable (HasValue record) :=
  decidable_of_iff (record.any fun p => match p with | .value _ => true | _ => false) <| by
    simp only [List.any_eq_true, HasValue]
    constructor
    · rintro ⟨p, hp, h⟩
      cases p with
      | value v => exact ⟨v, hp⟩
      | name v => cases h
      | other => cases h
    · rintro ⟨v, hv⟩
      exact ⟨_, hv, rfl⟩

/-- Something else comes behind a value, and the name, if there is one, before all that does. -/
structure Told (record : List Piece) : Prop where
  ends : ∃ pre post, record = pre ++ .other :: post ∧ HasValue pre
  name : HasName record → ∀ pre post, record = pre ++ .other :: post → HasValue pre → HasName pre

end Records

section Loop

variable (text : F32 → String)

/-- The loop, over the pieces of a record. -/
def lead : List Piece → Option String → Option String → Option (String × Option String)
  | [], _, _ => none
  | .value v :: record, _, name => lead record (some (v.toText text)) name
  | .name v :: record, var, _ => lead record var (some (v.toText text))
  | .other :: record, var, name =>
    match var with
    | some var => some (var, name)
    | none => lead record none name

theorem scan_eq_lead {O : Type} [DecidableEq O] (obj nameOID : O) :
    ∀ (val : List (O × VarValue)) (var name : Option String),
      scan text obj nameOID val var name = lead text (val.map (piece obj nameOID)) var name
  | [], _, _ => rfl
  | vv :: val, var, name => by
    have ih := scan_eq_lead obj nameOID val
    unfold scan
    rw [List.map_cons]
    by_cases hobj : vv.1 = obj
    · rw [if_pos hobj, ih, piece, if_pos hobj, lead]
    by_cases hname : vv.1 = nameOID
    · rw [if_neg hobj, if_pos hname, ih, piece, if_neg hobj, if_pos hname, lead]
    · rw [if_neg hobj, if_neg hname, piece, if_neg hobj, if_neg hname]
      cases var with
      | none => exact ih none name
      | some var => rfl

theorem hasValue_cons {p : Piece} {record : List Piece} :
    HasValue (p :: record) ↔ (∃ v, p = .value v) ∨ HasValue record := by
  simp only [HasValue, List.mem_cons, exists_or, eq_comm]

theorem hasName_cons {p : Piece} {record : List Piece} :
    HasName (p :: record) ↔ (∃ v, p = .name v) ∨ HasName record := by
  simp only [HasName, List.mem_cons, exists_or, eq_comm]

/-- What the loop ends with: it stops at the first thing behind a value, and has the last value and
the last name of before. -/
structure Leads (record : List Piece) (var name : Option String) (p : String × Option String)
    (pre : List Piece) : Prop where
  stops : ∃ post, record = pre ++ .other :: post
  value : (∃ v, .value v ∈ pre ∧ p.1 = v.toText text) ∨ (¬ HasValue pre ∧ var = some p.1)
  name : (∃ v, .name v ∈ pre ∧ p.2 = some (v.toText text)) ∨ (¬ HasName pre ∧ p.2 = name)
  first : ∀ pre' post, record = pre' ++ .other :: post → var ≠ none ∨ HasValue pre' → pre <+: pre'

/-- What the loop ends with is right; without anything, there was nothing to stop at. -/
def Ends (record : List Piece) (var name : Option String) :
    Option (String × Option String) → Prop
  | some p => ∃ pre, Leads text record var name p pre
  | none => ∀ pre post, record = pre ++ .other :: post → ¬ (var ≠ none ∨ HasValue pre)

section Cons

variable {q : Piece} {record : List Piece} {var name var' name' : Option String}

/-- Where a value was found or stands in front, one was found or stands behind `q`. -/
theorem started_cons {pre : List Piece}
    (hvar : (∃ v, q = .value v ∧ var' = some (v.toText text))
      ∨ ((∀ v, q ≠ .value v) ∧ var' = var))
    (h : var ≠ none ∨ HasValue (q :: pre)) : var' ≠ none ∨ HasValue pre := by
  rcases hvar with ⟨v, -, hv⟩ | ⟨hne, rfl⟩
  · exact .inl (by rw [hv]; exact Option.some_ne_none _)
  · refine h.imp_right fun hhas => ?_
    rcases hasValue_cons.1 hhas with ⟨v, hv⟩ | hhas
    · exact absurd hv (hne v)
    · exact hhas

theorem Leads.cons {p : String × Option String} {pre : List Piece}
    (h : Leads text record var' name' p pre)
    (hvar : (∃ v, q = .value v ∧ var' = some (v.toText text))
      ∨ ((∀ v, q ≠ .value v) ∧ var' = var))
    (hname : (∃ v, q = .name v ∧ name' = some (v.toText text))
      ∨ ((∀ v, q ≠ .name v) ∧ name' = name))
    (hq : q = .other → var = none) :
    Leads text (q :: record) var name p (q :: pre) := by
  refine ⟨?_, ?_, ?_, ?_⟩
  · obtain ⟨post, rfl⟩ := h.stops
    exact ⟨post, rfl⟩
  · rcases h.value with ⟨v, hv, hp⟩ | ⟨hnone, hp⟩
    · exact .inl ⟨v, List.mem_cons_of_mem _ hv, hp⟩
    · rcases hvar with ⟨v, rfl, hv⟩ | ⟨hne, rfl⟩
      · exact .inl ⟨v, List.mem_cons_self, Option.some.inj (hp.symm.trans hv)⟩
      · refine .inr ⟨fun hhas => ?_, hp⟩
        rcases hasValue_cons.1 hhas with ⟨v, hv⟩ | hhas
        · exact hne v hv
        · exact hnone hhas
  · rcases h.name with ⟨v, hv, hp⟩ | ⟨hnone, hp⟩
    · exact .inl ⟨v, List.mem_cons_of_mem _ hv, hp⟩
    · rcases hname with ⟨v, rfl, hv⟩ | ⟨hne, rfl⟩
      · exact .inl ⟨v, List.mem_cons_self, hp.trans hv⟩
      · refine .inr ⟨fun hhas => ?_, hp⟩
        rcases hasName_cons.1 hhas with ⟨v, hv⟩ | hhas
        · exact hne v hv
        · exact hnone hhas
  · intro pre' post hsplit hstart
    cases pre' with
    | nil =>
      -- then `q` itself would be the stop
      rw [List.nil_append, List.cons.injEq] at hsplit
      rcases hstart with hsome | ⟨v, hv⟩
      · exact absurd (hq hsplit.1) hsome
      · exact absurd hv List.not_mem_nil
    | cons q' pre' =>
      rw [List.cons_append, List.cons.injEq] at hsplit
      obtain ⟨rfl, hsplit⟩ := hsplit
      refine (List.prefix_cons_inj q).2 (h.first pre' post hsplit ?_)
      exact started_cons text hvar hstart

/-- An element in front changes only the value and the name the loop starts with. -/
theorem Ends.cons {r : Option (String × Option String)} (h : Ends text record var' name' r)
    (hvar : (∃ v, q = .value v ∧ var' = some (v.toText text))
      ∨ ((∀ v, q ≠ .value v) ∧ var' = var))
    (hname : (∃ v, q = .name v ∧ name' = some (v.toText text))
      ∨ ((∀ v, q ≠ .name v) ∧ name' = name))
    (hq : q = .other → var = none) : Ends text (q :: record) var name r := by
  cases r with
  | some p =>
    obtain ⟨pre, h⟩ := h
    exact ⟨q :: pre, h.cons text hvar hname hq⟩
  | none =>
    intro pre post hsplit hstart
    cases pre with
    | nil =>
      rw [List.nil_append, List.cons.injEq] at hsplit
      rcases hstart with hsome | ⟨v, hv⟩
      · exact hsome (hq hsplit.1)
      · exact absurd hv List.not_mem_nil
    | cons q' pre =>
      rw [List.cons_append, List.cons.injEq] at hsplit
      obtain ⟨rfl, hsplit⟩ := hsplit
      exact h pre post hsplit (started_cons text hvar hstart)

end Cons

theorem lead_spec : ∀ (record : List Piece) (var name : Option String),
    Ends text record var name (lead text record var name)
  | [], _, _ => by
    intro pre post h
    simp at h
  | .value v :: record, _, name =>
    (lead_spec record (some (v.toText text)) name).cons text (.inl ⟨v, rfl, rfl⟩)
      (.inr ⟨nofun, rfl⟩) nofun
  | .name v :: record, var, _ =>
    (lead_spec record var (some (v.toText text))).cons text (.inr ⟨nofun, rfl⟩)
      (.inl ⟨v, rfl, rfl⟩) nofun
  | .other :: record, none, name =>
    (lead_spec record none name).cons text (.inr ⟨nofun, rfl⟩) (.inr ⟨nofun, rfl⟩) fun _ => rfl
  | .other :: record, some var, name =>
    -- it stops here, with what it has found before
    ⟨[], ⟨record, rfl⟩, .inr ⟨fun ⟨_, hv⟩ => absurd hv List.not_mem_nil, rfl⟩,
      .inr ⟨fun ⟨_, hv⟩ => absurd hv List.not_mem_nil, rfl⟩, fun _ _ _ _ => List.nil_prefix⟩

/-- The point of a record is there, and tells of it. -/
structure Shows (record : Option String × List Piece) (point : Point) : Prop where
  date : record.1 = some point.1
  value : ∃ v, .value v ∈ record.2 ∧ point.2.1 = v.toText text
  name : (∃ v, .name v ∈ record.2 ∧ point.2.2 = some (v.toText text))
    ∨ (¬ HasName record.2 ∧ point.2.2 = none)

/-- The point the loop makes of a record with a date. -/
def OID.point (record : Option String × List Piece) : Option Point := do
  let res ← record.1
  let p ← lead text record.2 none none
  return (res, p.1, p.2)

theorem hasValue_of_point {record : Option String × List Piece} {point : Point}
    (h : OID.point text record = some point) : HasValue record.2 := by
  unfold OID.point at h
  have hspec := lead_spec text record.2 none none
  rcases hdate : record.1 with _ | res <;> rcases hlead : lead text record.2 none none with _ | p
    <;> rw [hdate, hlead] at h <;> try cases h
  rw [hlead] at hspec
  obtain ⟨pre, hpre⟩ := hspec
  obtain ⟨post, hpost⟩ := hpre.stops
  rcases hpre.value with ⟨v, hv, -⟩ | ⟨-, hv⟩
  · exact ⟨v, by rw [hpost]; exact List.mem_append_left _ hv⟩
  · cases hv

/-- A record with a value and a date gives its point just when it is told. -/
theorem shows_point_iff {res : String} {record : List Piece} :
    (∃ point, OID.point text (some res, record) = some point
      ∧ Shows text (some res, record) point) ↔ Told record := by
  have hspec := lead_spec text record none none
  unfold OID.point
  rcases hlead : lead text record none none with _ | p <;> rw [hlead] at hspec
  · refine iff_of_false (by rintro ⟨_, h, -⟩; cases h) fun h => ?_
    obtain ⟨pre, post, hsplit, hvalue⟩ := h.ends
    exact hspec pre post hsplit (.inr hvalue)
  obtain ⟨pre, h⟩ := hspec
  obtain ⟨post, hpost⟩ := h.stops
  have hvalue : ∃ v, .value v ∈ pre ∧ p.1 = v.toText text := by
    rcases h.value with hv | ⟨-, hv⟩
    · exact hv
    · cases hv
  constructor
  · rintro ⟨point, hpoint, hshows⟩
    obtain rfl : (res, p.1, p.2) = point := Option.some.inj hpoint
    refine ⟨⟨pre, post, hpost, hvalue.imp fun _ hv => hv.1⟩, fun hname pre' post' hsplit hhas => ?_⟩
    have hpre : pre <+: pre' := h.first pre' post' hsplit (.inr hhas)
    rcases h.name with ⟨v, hv, -⟩ | ⟨-, hnone⟩
    · exact ⟨v, hpre.subset hv⟩
    · rcases hshows.name with ⟨v, -, hv⟩ | ⟨hno, -⟩
      · exact absurd (hnone.symm.trans hv) nofun
      · exact absurd hname hno
  · intro htold
    refine ⟨_, rfl, rfl, ?_, ?_⟩
    · obtain ⟨v, hv, hp⟩ := hvalue
      exact ⟨v, by rw [hpost]; exact List.mem_append_left _ hv, hp⟩
    · rcases h.name with ⟨v, hv, hp⟩ | ⟨hno, hp⟩
      · exact .inl ⟨v, by rw [hpost]; exact List.mem_append_left _ hv, hp⟩
      · have hhas : HasValue pre := hvalue.imp fun _ hv => hv.1
        exact .inr ⟨fun hname => hno (htold.name hname pre post hpost hhas), hp⟩

end Loop

section Stream

variable (text : F32 → String) (date : ℤ → Option String)

/-- The records of the rows, with the dates of the rows. -/
def OID.dated (oid : OID) (rows : List StatsRow) : List (Option String × List Piece) :=
  rows.flatMap fun row =>
    match fromSlice Report row.data with
    | some report => (report.data.flatMap oid.records).map fun record =>
        (date row.timestamp, record)
    | none => []

theorem each_eq {O : Type} [DecidableEq O] (obj nameOID : O) (v : List (List (O × VarValue)))
    (res : String) :
    each text obj nameOID v res
      = (v.map fun val => val.map (piece obj nameOID)).filterMap fun record =>
        OID.point text (some res, record) := by
  rw [each, List.map_filterMap, List.filterMap_map]
  refine List.filterMap_congr fun val _ => ?_
  rw [scan_eq_lead, Function.comp_apply, OID.point]
  cases lead text (val.map (piece obj nameOID)) none none with
  | none => rfl
  | some p => rfl

theorem OID.points_eq {oid : OID} (h : oid.Plotted) (res : String) (i : DataType) :
    oid.points text res i
      = (oid.records i).filterMap fun record => OID.point text (some res, record) := by
  match oid, i, h with
  | .network (some obj), .network v, _ => exact each_eq text obj .name v res
  | .storage (some obj), .storage v, _ => exact each_eq text obj .name v res
  | .network (some _), .cpu _, _ | .network (some _), .memory _, _
  | .network (some _), .storage _, _ => rfl
  | .storage (some _), .cpu _, _ | .storage (some _), .memory _, _
  | .storage (some _), .network _, _ => rfl

/-- If each row has a date, the points are those of the records, in order. -/
theorem plotStream_eq {oid : OID} (h : oid.Plotted) : ∀ (rows : List StatsRow),
    (∀ row ∈ rows, date row.timestamp ≠ none) →
    plotStream text date oid rows = some ((oid.dated date rows).filterMap (OID.point text))
  | [], _ => rfl
  | row :: rows, hdate => by
    have ih := plotStream_eq h rows fun row hrow => hdate row (List.mem_cons_of_mem _ hrow)
    obtain ⟨res, hres⟩ := Option.ne_none_iff_exists'.1 (hdate row List.mem_cons_self)
    unfold plotStream
    have hcons : oid.dated date (row :: rows) = oid.dated date [row] ++ oid.dated date rows := by
      simp [OID.dated]
    rw [ih, hres, hcons, List.filterMap_append]
    simp only [Option.bind_eq_bind, Option.bind_some, Option.pure_def, Option.some.injEq]
    congr 1
    simp only [OID.dated, List.flatMap_cons, List.flatMap_nil, List.append_nil, hres]
    cases fromSlice Report row.data with
    | none => rfl
    | some report =>
      simp only [List.filterMap_map, List.filterMap_flatMap]
      refine List.flatMap_congr fun i _ => ?_
      exact OID.points_eq text h res i

theorem plotStream_ne_none {oid : OID} : ∀ {rows : List StatsRow},
    plotStream text date oid rows ≠ none → ∀ row ∈ rows, date row.timestamp ≠ none
  | row :: rows, h, row', hrow => by
    unfold plotStream at h
    rcases hres : date row.timestamp with _ | res <;> rw [hres] at h
    · exact absurd rfl h
    rcases List.mem_cons.1 hrow with rfl | hrow
    · rw [hres]
      exact Option.some_ne_none _
    · have hrest : plotStream text date oid rows ≠ none := fun hnone => h (by rw [hnone]; rfl)
      exact plotStream_ne_none hrest row' hrow

theorem OID.Plotted.unique {oid : OID} (h : oid.Plotted) : oid.Unique := by
  match oid, h with
  | .network (some _), _ => exact Option.some_ne_none _
  | .storage (some _), _ => exact Option.some_ne_none _

/-- `plot_data` yields what the stream makes of the rows that are read. -/
theorem plotData_eq {null : Option UInt64} {db : Database} {pk : PublicKey} {oid : OID}
    {timestamp : UInt64} {rows : List StatsRow} (h : oid.Plotted)
    (hrows : plotRows null db pk.bytes timestamp = some rows) :
    plotData text date null db pk oid timestamp = (plotStream text date oid rows).map .ok := by
  unfold plotData
  rw [if_pos h.unique, hrows]
  cases hpoints : plotStream text date oid rows with
  | none => simp [hpoints]
  | some points => simp [hpoints]

/-- One point is yielded for each record with a value, in order, and tells of it. -/
def Extracts (oid : OID) (rows : List StatsRow) : Prop :=
  ∃ points, plotStream text date oid rows = some points
    ∧ List.Forall₂ (Shows text)
      ((oid.dated date rows).filter fun record => HasValue record.2) points

theorem forall₂_filter_iff {α β : Type*} {R : α → β → Prop} {P : α → Prop} [DecidablePred P]
    {f : α → Option β} (hP : ∀ x y, f x = some y → P x) : ∀ (xs : List α),
    List.Forall₂ R (xs.filter fun x => P x) (xs.filterMap f)
      ↔ ∀ x ∈ xs, P x → ∃ y, f x = some y ∧ R x y
  | [] => by simp
  | x :: xs => by
    have ih := forall₂_filter_iff (R := R) hP xs
    rw [List.forall_mem_cons]
    by_cases hx : P x
    · rw [List.filter_cons_of_pos (by simpa using hx)]
      rcases hf : f x with _ | y
      · rw [List.filterMap_cons_none hf]
        refine iff_of_false (fun h => ?_) fun h => ?_
        · -- there is an element too many, for the rest yields one each at most
          have hlen := h.length_eq
          have hle : (xs.filterMap f).length ≤ (xs.filter fun x => P x).length := by
            rw [← List.countP_eq_length_filter, List.length_filterMap_eq_countP]
            refine List.countP_mono_left fun x _ hsome => ?_
            obtain ⟨y, hy⟩ := Option.isSome_iff_exists.1 hsome
            simpa using hP x y hy
          rw [List.length_cons] at hlen
          omega
        · obtain ⟨_, hnone, -⟩ := h.1 hx
          cases hnone
      · rw [List.filterMap_cons_some hf, List.forall₂_cons, ih]
        simp [hx]
    · rw [List.filter_cons_of_neg (by simpa using hx), List.filterMap_cons_none, ih]
      · simp [hx]
      · rw [Option.eq_none_iff_forall_ne_some]
        exact fun y hy => hx (hP x y hy)

theorem dated_date {oid : OID} {rows : List StatsRow} {record : Option String × List Piece}
    (h : record ∈ oid.dated date rows) : ∃ row ∈ rows, record.1 = date row.timestamp := by
  obtain ⟨row, hrow, h⟩ := List.mem_flatMap.1 h
  refine ⟨row, hrow, ?_⟩
  split at h
  · obtain ⟨_, -, rfl⟩ := List.mem_map.1 h
    rfl
  · exact absurd h List.not_mem_nil

/-- All points of an object are there if, and only if, each row has a date and each record with a
value is told. -/
theorem extracts_iff {oid : OID} (h : oid.Plotted) (rows : List StatsRow) :
    Extracts text date oid rows ↔ (∀ row ∈ rows, date row.timestamp ≠ none)
      ∧ ∀ record ∈ oid.dated date rows, HasValue record.2 → Told record.2 := by
  by_cases hdate : ∀ row ∈ rows, date row.timestamp ≠ none
  · have hpoints : Extracts text date oid rows ↔ List.Forall₂ (Shows text)
        ((oid.dated date rows).filter fun record => HasValue record.2)
        ((oid.dated date rows).filterMap (OID.point text)) := by
      simp [Extracts, plotStream_eq text date h rows hdate]
    rw [hpoints, forall₂_filter_iff fun _ _ => hasValue_of_point text, and_iff_right hdate]
    refine forall₂_congr fun record hrecord => imp_congr_right fun _ => ?_
    obtain ⟨row, hrow, hres⟩ := dated_date date hrecord
    obtain ⟨res, hsome⟩ := Option.ne_none_iff_exists'.1 (hdate row hrow)
    obtain ⟨_, record⟩ := record
    obtain rfl := hres.trans hsome
    exact shows_point_iff text
  · refine iff_of_false (fun ⟨points, hpoints, _⟩ => hdate ?_) fun h => hdate h.1
    exact plotStream_ne_none text date (by rw [hpoints]; exact Option.some_ne_none _)

end Stream

section Witness

/-- A report of one interface. -/
def toyReport (net : List (NetOID × VarValue)) : StatsRow :=
  ⟨0, some 1, (toVec (⟨[.network [net]], 0⟩ : Report)).getD [], []⟩

def toyDate : ℤ → Option String := fun _ => some "1970-01-01 00:00:00"

/-- A value that follows the name and has something else behind it is plotted. -/
theorem extracts_toyReport : Extracts (fun _ => "") toyDate (.network (some .rxBytes))
    [toyReport [(.name, .str "lo"), (.rxBytes, .number 7), (.txBytes, .number 8)]] := by
  have hplotted : (OID.network (some .rxBytes)).Plotted := by
    unfold OID.Plotted
    decide
  have hdated : (OID.network (some .rxBytes)).dated toyDate
      [toyReport [(.name, .str "lo"), (.rxBytes, .number 7), (.txBytes, .number 8)]]
        = [(toyDate 0, [.name (.str "lo"), .value (.number 7), .other])] := by
    decide +kernel
  refine (extracts_iff _ _ hplotted _).2 ⟨fun _ _ => Option.some_ne_none _, ?_⟩
  rw [hdated]
  intro record hrecord _
  obtain rfl := List.mem_singleton.1 hrecord
  exact ⟨⟨[.name (.str "lo"), .value (.number 7)], [], rfl, .number 7, by decide⟩,
    fun _ pre post hsplit hvalue => by
      rcases pre with _ | ⟨p, pre⟩
      · cases hsplit
      · obtain rfl : p = .name (.str "lo") := (List.cons.inj hsplit).1.symm
        exact ⟨_, List.mem_cons_self⟩⟩

/-- A value at the end of its record is not. -/
theorem not_extracts_toyReport : ¬ Extracts (fun _ => "") toyDate (.network (some .rxBytes))
    [toyReport [(.name, .str "lo"), (.rxBytes, .number 7)]] := by
  rintro ⟨points, hpoints, hshows⟩
  have hnone : plotStream (fun _ => "") toyDate (.network (some .rxBytes))
      [toyReport [(.name, .str "lo"), (.rxBytes, .number 7)]] = some [] := by
    decide +kernel
  have hdated : (OID.network (some .rxBytes)).dated toyDate
      [toyReport [(.name, .str "lo"), (.rxBytes, .number 7)]]
        = [(toyDate 0, [.name (.str "lo"), .value (.number 7)])] := by
    decide +kernel
  obtain rfl : [] = points := Option.some.inj (hnone.symm.trans hpoints)
  rw [hdated] at hshows
  have hlen := hshows.length_eq
  revert hlen
  decide

end Witness

end Nyumt
