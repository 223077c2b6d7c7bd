import Mathlib.Data.List.Nodup

/-!
# Elements by their keys

Lists whose elements are told apart by a key. `add` puts an element to the ones of its key, in the
order in which the keys came (`Grouped`); of the elements of one key `List.eraseDupsBy` leaves the
first.
-/

namespace Group

variable {κ α : Type*} [DecidableEq κ]

/-- The groups with one more element: in the first group of its key, or in a new one at the end. -/
def add (k : κ) (x : α) : List (κ × List α) → List (κ × List α)
  | [] => [(k, [x])]
  | g :: gs => if g.1 = k then (g.1, g.2 ++ [x]) :: gs else g :: add k x gs

/-- The groups of the elements `xs`: one of each key, and in it the elements of that key, in
order. -/
structure Grouped (xs : List (κ × α)) (gs : List (κ × List α)) : Prop where
  nodup : (gs.map Prod.fst).Nodup
  mem : ∀ x ∈ xs, x.1 ∈ gs.map Prod.fst
  eq : ∀ g ∈ gs, g.2 = (xs.filter fun x => x.1 = g.1).map Prod.snd

theorem mem_keys_add {k k' : κ} {x : α} : ∀ {gs : List (κ × List α)},
    k' ∈ (add k x gs).map Prod.fst ↔ k' = k ∨ k' ∈ gs.map Prod.fst
  | [] => by simp [add]
  | g :: gs => by
    have ih : k' ∈ (add k x gs).map Prod.fst ↔ k' = k ∨ k' ∈ gs.map Prod.fst := mem_keys_add
    simp only [add]
    split_ifs with h
    · simp only [List.map_cons, List.mem_cons, h]
      tauto
    · simp only [List.map_cons, List.mem_cons, ih]
      tauto

theorem nodup_add {k : κ} {x : α} : ∀ {gs : List (κ × List α)}, (gs.map Prod.fst).Nodup →
    ((add k x gs).map Prod.fst).Nodup
  | [], _ => by simp [add]
  | g :: gs, h => by
    rw [List.map_cons, List.nodup_cons] at h
    simp only [add]
    split_ifs with hk
    · exact List.nodup_cons.2 h
    · rw [List.map_cons, List.nodup_cons, mem_keys_add]
      exact ⟨not_or.2 ⟨hk, h.1⟩, nodup_add h.2⟩

/-- A group is one of before with the element, if it has the key, or the new one. -/
theorem mem_add {k : κ} {x : α} {g' : κ × List α} : ∀ {gs : List (κ × List α)},
    (gs.map Prod.fst).Nodup → g' ∈ add k x gs →
      (∃ g ∈ gs, g'.1 = g.1 ∧ g'.2 = g.2 ++ if g.1 = k then [x] else [])
        ∨ (g' = (k, [x]) ∧ k ∉ gs.map Prod.fst)
  | [], _, h => .inr ⟨List.mem_singleton.1 h, List.not_mem_nil⟩
  | g :: gs, hn, h => by
    rw [List.map_cons, List.nodup_cons] at hn
    simp only [add] at h
    split_ifs at h with hk
    · rcases List.mem_cons.1 h with rfl | h
      · exact .inl ⟨g, List.mem_cons_self, rfl, by rw [if_pos hk]⟩
      · have hne : g'.1 ≠ k := fun he => hn.1 (hk ▸ he ▸ List.mem_map_of_mem h)
        exact .inl ⟨g', List.mem_cons_of_mem _ h, rfl, by rw [if_neg hne, List.append_nil]⟩
    · rcases List.mem_cons.1 h with rfl | h
      · exact .inl ⟨g', List.mem_cons_self, rfl, by rw [if_neg hk, List.append_nil]⟩
      · rcases mem_add hn.2 h with ⟨g₁, hg, h₁, h₂⟩ | ⟨rfl, hnk⟩
        · exact .inl ⟨g₁, List.mem_cons_of_mem _ hg, h₁, h₂⟩
        · refine .inr ⟨rfl, fun hmem => ?_⟩
          rcases List.mem_cons.1 hmem with he | hmem
          · exact hk he.symm
          · exact hnk hmem

theorem Grouped.nil : Grouped ([] : List (κ × α)) [] :=
  ⟨List.nodup_nil, fun _ h => absurd h List.not_mem_nil, fun _ h => absurd h List.not_mem_nil⟩

theorem Grouped.add {xs : List (κ × α)} {gs : List (κ × List α)} (h : Grouped xs gs) (k : κ)
    (x : α) : Grouped (xs ++ [(k, x)]) (Group.add k x gs) where
  nodup := nodup_add h.nodup
  mem y hy := by
    rw [mem_keys_add]
    rcases List.mem_append.1 hy with hy | hy
    · exact .inr (h.mem y hy)
    · exact .inl (by rw [List.mem_singleton.1 hy])
  eq g' hg' := by
    rw [List.filter_append, List.map_append]
    rcases mem_add h.nodup hg' with ⟨g, hg, h₁, h₂⟩ | ⟨rfl, hk⟩
    · rw [h₂, h₁, ← h.eq g hg]
      by_cases hk : g.1 = k
      · simp [hk]
      · simp [hk, Ne.symm hk]
    · have hnone : xs.filter (fun y => y.1 = k) = [] :=
        List.filter_eq_nil_iff.2 fun y hy he => hk ((of_decide_eq_true he) ▸ h.mem y hy)
      simp [hnone]

section Dedup

variable (key : α → κ)

theorem length_eraseDupsBy_le (xs : List α) :
    (xs.eraseDupsBy fun x y => key x == key y).length ≤ xs.length := by
  match xs with
  | [] => simp
  | x :: xs =>
    rw [List.eraseDupsBy_cons, List.length_cons, List.length_cons]
    have hle := List.length_filter_le (fun y => (key y == key x) = false) xs
    have ih := length_eraseDupsBy_le (xs.filter fun y => (key y == key x) = false)
    omega
termination_by xs.length
decreasing_by exact Nat.lt_succ_of_le (List.length_filter_le _ xs)

/-- Nothing is left out of a list just when no key comes twice. -/
theorem length_eraseDupsBy_eq_iff (xs : List α) :
    (xs.eraseDupsBy fun x y => key x == key y).length = xs.length ↔ (xs.map key).Nodup := by
  induction xs with
  | nil => simp
  | cons x xs ih =>
    rw [List.eraseDupsBy_cons, List.length_cons, List.length_cons, Nat.add_right_cancel_iff,
      List.map_cons, List.nodup_cons]
    have hle := length_eraseDupsBy_le key (xs.filter fun y => (key y == key x) = false)
    have hle' := List.length_filter_le (fun y => (key y == key x) = false) xs
    constructor
    · intro h
      have hall : xs.filter (fun y => (key y == key x) = false) = xs :=
        List.filter_sublist.eq_of_length (by omega)
      rw [hall] at h
      refine ⟨fun hmem => ?_, ih.1 h⟩
      obtain ⟨y, hy, he⟩ := List.mem_map.1 hmem
      have := List.filter_eq_self.1 hall y hy
      simp [he] at this
    · rintro ⟨hx, hnodup⟩
      have hall : xs.filter (fun y => (key y == key x) = false) = xs :=
        List.filter_eq_self.2 fun y hy => by
          have hne : key y ≠ key x := fun he => hx (he ▸ List.mem_map_of_mem hy)
          simp [hne]
      rw [hall]
      exact ih.2 hnodup

theorem eraseDupsBy_eq_self {xs : List α} (h : (xs.map key).Nodup) :
    (xs.eraseDupsBy fun x y => key x == key y) = xs := by
  induction xs with
  | nil => rfl
  | cons x xs ih =>
    rw [List.map_cons, List.nodup_cons] at h
    have hall : xs.filter (fun y => (key y == key x) = false) = xs :=
      List.filter_eq_self.2 fun y hy => by
        have hne : key y ≠ key x := fun he => h.1 (he ▸ List.mem_map_of_mem hy)
        simp [hne]
    rw [List.eraseDupsBy_cons, hall, ih h.2]

end Dedup

end Group
