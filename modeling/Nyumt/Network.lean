import Mathlib.Data.Fintype.Basic
import Nyumt.Gate
import Nyumt.Master

/-!
# A network of masters

Masters that take their steps in any order, and hand each other what they publish: a message comes
to each of the others once or, if it is lost, never, in any order and at any time, and goes through
the gate before it is dispatched. Every master signs with its own key.
-/

namespace Nyumt

open Borsh

structure Network (ι : Type) where
  masters : ι → Master
  /-- Which message, by its publisher and its place among what that one published, came to whom. -/
  delivered : List (ι × ℕ × ι) := []

namespace Network

variable {ι : Type} [DecidableEq ι] (K : Crypto) (keys : ι → PublicKey)

inductive Act (ι : Type)
  | master (i : ι) (a : Master.Act)
  | deliver (j : ι) (k : ℕ) (i : ι)

def set (s : Network ι) (i : ι) (m : Master) : Network ι :=
  { s with masters := Function.update s.masters i m }

/-- The message in which `j` publishes these bytes. -/
def message (j : ι) (bytes : Bytes) : Message :=
  ⟨((keys j).toPeerId K).toOption, keys j, bytes⟩

def step (s : Network ι) : Act ι → Option (Network ι)
  | .master _ (.dispatch _) => none -- what is dispatched comes from another master
  | .master i a => do
    let m ← (s.masters i).step K a
    return s.set i m
  | .deliver j k i =>
    if i = j ∨ (j, k, i) ∈ s.delivered then none
    else do
      let bytes ← (s.masters j).set.sent[k]?
      let s' := { s with delivered := s.delivered ++ [(j, k, i)] }
      match receive K (s.masters i).set.db (message K keys j bytes) with
      | none => return s'
      | some data => do
        let m ← (s.masters i).step K (.dispatch data)
        return s'.set i m

/-- Masters that have just started. -/
def init (db : ι → Database) (conf : ι → MasterConfig) : Network ι :=
  { masters := fun i => .init (db i) (conf i) }

/-- The requests of a run, each with the master it is made to. -/
def requests (as : List (Act ι)) : List (ι × BodyData) :=
  as.filterMap fun
    | .master i (.request body) => some (i, body)
    | _ => none

/-- Nothing was lost and nothing is left to do. -/
structure Quiet (s : Network ι) : Prop where
  delivered : ∀ i j, i ≠ j → ∀ k < (s.masters j).set.sent.length, (j, k, i) ∈ s.delivered
  atRest : ∀ i, (s.masters i).atRest

instance [Fintype ι] (s : Network ι) : Decidable s.Quiet :=
  decidable_of_iff ((∀ i j, i ≠ j → ∀ k < (s.masters j).set.sent.length, (j, k, i) ∈ s.delivered)
      ∧ ∀ i, (s.masters i).atRest)
    ⟨fun h => ⟨h.1, h.2⟩, fun h => ⟨h.delivered, h.atRest⟩⟩

/-- No two masters hold rows of one id and different hashes. -/
def Agree (s : Network ι) : Prop :=
  ∀ i j, ∀ r ∈ (s.masters i).set.db.order, ∀ r' ∈ (s.masters j).set.db.order,
    r.id = r'.id → r.hash = r'.hash

instance [Fintype ι] (s : Network ι) : Decidable s.Agree := by
  unfold Agree
  infer_instance

end Network

end Nyumt
