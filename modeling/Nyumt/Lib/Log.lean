import Mathlib.Data.Set.Insert
import Mathlib.Order.Interval.Set.Defs

/-!
# A log and the state it makes

Entries go to the end of a log at once and take effect later. While they take effect in the order
of the log, the state is that of a prefix and the entries after it are pending (`Replayed`); with
nothing pending it is that of the whole log.
-/

namespace Log

variable {σ α : Type*} (f : σ → α → σ) (s₀ : σ)

/-- The entries of the log taking effect one after another. -/
def replay (log : List α) : σ := log.foldl f s₀

/-- The entries before some position have taken effect, and those from it on are pending. -/
def Replayed (log : List α) (s : σ) (pending : Set ℕ) : Prop :=
  ∃ k ≤ log.length, s = replay f s₀ (log.take k) ∧ pending = Set.Ico k log.length

variable {f s₀} {log : List α} {s : σ} {pending : Set ℕ}

theorem replay_append (log : List α) (x : α) :
    replay f s₀ (log ++ [x]) = f (replay f s₀ log) x := by
  rw [replay, List.foldl_append]
  rfl

theorem Replayed.all (log : List α) : Replayed f s₀ log (replay f s₀ log) ∅ :=
  ⟨log.length, le_rfl, by rw [List.take_length], by ext; simp⟩

theorem Replayed.append (h : Replayed f s₀ log s pending) (x : α) :
    Replayed f s₀ (log ++ [x]) s (insert log.length pending) := by
  obtain ⟨k, hk, hs, rfl⟩ := h
  refine ⟨k, by simp; omega, by rw [List.take_append_of_le_length hk]; exact hs, ?_⟩
  ext i
  simp only [Set.mem_insert_iff, Set.mem_Ico, List.length_append, List.length_singleton]
  omega

/-- The first of the pending entries takes effect. -/
theorem Replayed.apply (h : Replayed f s₀ log s pending) {i : ℕ} {x : α} (hi : i ∈ pending)
    (hmin : ∀ j ∈ pending, i ≤ j) (hx : log[i]? = some x) :
    Replayed f s₀ log (f s x) (pending \ {i}) := by
  obtain ⟨k, hk, hs, rfl⟩ := h
  rw [Set.mem_Ico] at hi
  obtain rfl : i = k := le_antisymm (hmin k ⟨le_rfl, by omega⟩) hi.1
  refine ⟨i + 1, hi.2, ?_, ?_⟩
  · rw [List.take_add_one, hx, Option.toList_some, replay_append, hs]
  · ext j
    simp only [Set.mem_sdiff, Set.mem_Ico, Set.mem_singleton_iff]
    omega

/-- With nothing pending the state is what the log makes. -/
theorem Replayed.eq_replay (h : Replayed f s₀ log s ∅) : s = replay f s₀ log := by
  obtain ⟨k, hk, hs, he⟩ := h
  have hlen : k = log.length := by
    by_contra hne
    have hmem : k ∈ Set.Ico k log.length := ⟨le_rfl, by omega⟩
    rw [← he] at hmem
    exact hmem
  rw [hs, hlen, List.take_length]

end Log
