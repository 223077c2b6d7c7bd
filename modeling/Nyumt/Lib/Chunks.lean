import Mathlib.Algebra.Order.Ring.Nat
import Mathlib.Data.List.Basic
import Mathlib.Tactic.SplitIfs

/-!
# Lists in pieces

A list cut into pieces of `n` elements, the last one shorter if need be (`chunks`) or left out
(`fulls`). The `i`-th piece begins at the element `n * i`.
-/

universe u

namespace List

variable {α : Type u} {n : ℕ} {xs ys : List α}

/-- The first `k` pieces of at most `n` elements. -/
def pieces (n k : ℕ) (xs : List α) : List (List α) :=
  (range k).map fun i => (xs.drop (n * i)).take n

/-- The pieces of `n` elements and what is left. -/
def chunks (n : ℕ) (xs : List α) : List (List α) := pieces n ((xs.length + n - 1) / n) xs

def fulls (n : ℕ) (xs : List α) : List (List α) := pieces n (xs.length / n) xs

@[simp] theorem chunks_nil (hn : 0 < n) : chunks n ([] : List α) = [] := by
  simp [chunks, pieces, Nat.div_eq_of_lt (Nat.sub_lt hn one_pos)]

/-- A list of at most `n` elements is one piece. -/
theorem chunks_of_le (h : xs ≠ []) (hle : xs.length ≤ n) : chunks n xs = [xs] := by
  have hpos := length_pos_iff.2 h
  have hdiv : (xs.length + n - 1) / n = 1 := by
    rw [Nat.div_eq_iff (by omega)]
    omega
  simp [chunks, pieces, hdiv, take_of_length_le hle]

theorem fulls_of_lt (h : xs.length < n) : fulls n xs = [] := by
  rw [fulls, Nat.div_eq_of_lt h, pieces, range_zero, map_nil]

/-- The pieces behind the first one are those of the rest. -/
theorem pieces_append (hx : xs.length = n) (k : ℕ) :
    pieces n (k + 1) (xs ++ ys) = xs :: pieces n k ys := by
  unfold pieces
  rw [range_succ_eq_map, map_cons, map_map, Nat.mul_zero, drop_zero, take_append_of_le_length hx.ge,
    take_of_length_le hx.le]
  refine congrArg (xs :: ·) (map_congr_left fun i _ => ?_)
  rw [Function.comp_apply, Nat.mul_succ, Nat.add_comm, ← drop_drop, drop_left' hx]

theorem chunks_append (hn : 0 < n) (hx : xs.length = n) :
    chunks n (xs ++ ys) = xs :: chunks n ys := by
  have hdiv : ((xs ++ ys).length + n - 1) / n = (ys.length + n - 1) / n + 1 := by
    rw [length_append, hx, ← Nat.add_div_right _ hn]
    congr 1
    omega
  rw [chunks, hdiv, pieces_append hx, chunks]

theorem fulls_append (hn : 0 < n) (hx : xs.length = n) : fulls n (xs ++ ys) = xs :: fulls n ys := by
  have hdiv : (xs ++ ys).length / n = ys.length / n + 1 := by
    rw [length_append, hx, Nat.add_comm, Nat.add_div_right _ hn]
  rw [fulls, hdiv, pieces_append hx, fulls]

/-- What holds of the lists that are one piece or less, and of a piece in front of others. -/
theorem chunks_induction {P : List α → Prop} (hn : 0 < n) (short : ∀ xs, xs.length < n → P xs)
    (piece : ∀ xs ys, xs.length = n → P ys → P (xs ++ ys)) : ∀ xs, P xs := by
  intro xs
  induction hk : xs.length using Nat.strong_induction_on generalizing xs with
  | _ k ih =>
    by_cases hlt : xs.length < n
    · exact short xs hlt
    · rw [← take_append_drop n xs]
      have hlen : (xs.drop n).length < k := by
        rw [length_drop]
        omega
      exact piece _ _ (length_take_of_le (not_lt.1 hlt)) (ih _ hlen _ rfl)

theorem flatten_chunks (hn : 0 < n) (xs : List α) : (chunks n xs).flatten = xs := by
  induction xs using chunks_induction hn with
  | short xs hlt =>
    by_cases h : xs = []
    · rw [h, chunks_nil hn, flatten_nil]
    · rw [chunks_of_le h hlt.le, flatten_singleton]
  | piece xs ys hx ih => rw [chunks_append hn hx, flatten_cons, ih]

/-- The elements behind the last whole piece are left out. -/
theorem flatten_fulls (hn : 0 < n) (xs : List α) :
    (fulls n xs).flatten = xs.take (xs.length - xs.length % n) := by
  induction xs using chunks_induction hn with
  | short xs hlt => rw [fulls_of_lt hlt, flatten_nil, Nat.mod_eq_of_lt hlt, Nat.sub_self, take_zero]
  | piece xs ys hx ih =>
    have hmod := Nat.mod_le ys.length n
    have hlen : (xs ++ ys).length - (xs ++ ys).length % n
        = xs.length + (ys.length - ys.length % n) := by
      rw [length_append, hx, Nat.add_mod_left]
      have := Nat.mod_le ys.length n
      omega
    rw [fulls_append hn hx, flatten_cons, ih, hlen, take_length_add_append]

theorem length_of_mem_pieces {k : ℕ} {c : List α} (h : c ∈ pieces n k xs) : c.length ≤ n := by
  obtain ⟨i, -, rfl⟩ := mem_map.1 h
  exact length_take_le _ _

theorem subset_of_mem_pieces {k : ℕ} {c : List α} (h : c ∈ pieces n k xs) : c ⊆ xs := by
  obtain ⟨i, -, rfl⟩ := mem_map.1 h
  exact Subset.trans (take_subset _ _) (drop_subset _ _)

end List
