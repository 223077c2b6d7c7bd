import Mathlib.Data.List.Basic
import Mathlib.Data.List.Forall2
import Mathlib.Data.List.Nodup
import Mathlib.Data.List.Perm.Basic
import Mathlib.Data.List.MinMax

/-!
# Tables

A table is the list of its rows in the order a scan meets them. An insert goes to the end and
fails where the primary key is taken, so the keys stay distinct (`nodup_append`). An update rewrites
rows where they stand (`update_forall₂`).
-/

namespace Table

variable {α κ : Type*}

section Statements

variable [DecidableEq κ] (key : α → κ)

/-- `insert` under a primary key. -/
def insert (x : α) (rows : List α) : Option (List α) :=
  if key x ∈ rows.map key then none else some (rows ++ [x])

/-- `insert .. on conflict(key) do update`. -/
def upsert (x : α) (f : α → α) (rows : List α) : List α :=
  if key x ∈ rows.map key then rows.map fun y => if key y = key x then f y else y else rows ++ [x]

/-- `update .. where`. -/
def update (p : α → Bool) (f : α → α) (rows : List α) : List α :=
  rows.map fun x => if p x then f x else x

/-- `delete .. where`. -/
def delete (p : α → Bool) (rows : List α) : List α :=
  rows.filter fun x => !p x

theorem insert_eq_some {x : α} {rows rows' : List α} (h : insert key x rows = some rows') :
    key x ∉ rows.map key ∧ rows' = rows ++ [x] := by
  unfold insert at h
  split_ifs at h with hx
  simp only [Option.some.injEq] at h
  exact ⟨hx, h.symm⟩

theorem insert_eq_none {x : α} {rows : List α} :
    insert key x rows = none ↔ key x ∈ rows.map key := by
  unfold insert
  split_ifs with h <;> simp [h]

omit [DecidableEq κ] in
/-- The keys stay distinct. -/
theorem nodup_append {x : α} {rows : List α} (hx : key x ∉ rows.map key)
    (hn : (rows.map key).Nodup) : ((rows ++ [x]).map key).Nodup := by
  rw [List.map_append, List.map_singleton, ← List.concat_eq_append]
  exact List.Nodup.concat hx hn

end Statements

section Rows

variable (p : α → Bool) (f : α → α)

/-- An update keeps a column its assignment keeps. -/
theorem map_update {β : Type*} {g : α → β} (hf : ∀ x, g (f x) = g x) (rows : List α) :
    (update p f rows).map g = rows.map g := by
  unfold update
  rw [List.map_map]
  refine List.map_congr_left fun x _ => ?_
  simp only [Function.comp_apply]
  split_ifs
  · exact hf x
  · rfl

theorem update_key [DecidableEq κ] (key : α → κ) (x : α) (rows : List α) :
    update (fun y => key y = key x) f rows
      = rows.map fun y => if key y = key x then f y else y := by
  simp only [update, decide_eq_true_eq]

/-- An upsert that keeps the key takes none away. -/
theorem subset_upsert [DecidableEq κ] (key : α → κ) (hf : ∀ x, key (f x) = key x) (x : α)
    (rows : List α) : rows.map key ⊆ (upsert key x f rows).map key := by
  unfold upsert
  split_ifs
  · rw [← update_key, map_update _ f hf]
    exact List.Subset.refl _
  · rw [List.map_append]
    exact List.subset_append_left _ _

theorem mem_upsert [DecidableEq κ] {key : α → κ} {x y : α} {rows : List α}
    (h : y ∈ upsert key x f rows) :
    y = x ∨ (y ∈ rows ∧ key y ≠ key x) ∨ ∃ z ∈ rows, key z = key x ∧ y = f z := by
  unfold upsert at h
  split_ifs at h with hx
  · obtain ⟨z, hz, rfl⟩ := List.mem_map.1 h
    split_ifs with hk
    · exact .inr (.inr ⟨z, hz, hk, rfl⟩)
    · exact .inr (.inl ⟨hz, hk⟩)
  · rcases List.mem_append.1 h with h | h
    · exact .inr (.inl ⟨h, fun hk => hx (hk ▸ List.mem_map_of_mem h)⟩)
    · exact .inl (List.mem_singleton.1 h)

theorem filter_update {q : α → Bool} (hf : ∀ x, q (f x) = q x) (rows : List α) :
    (update p f rows).filter q = update p f (rows.filter q) := by
  have hq : (q ∘ fun x => if p x then f x else x) = q := by
    funext x
    simp only [Function.comp_apply]
    split_ifs <;> simp [hf]
  unfold update
  rw [List.filter_map, hq]

theorem find?_update {q : α → Bool} (hf : ∀ x, p x → q (f x) = q x) (rows : List α) :
    (update p f rows).find? q = (rows.find? q).map fun x => if p x then f x else x := by
  have hq : (q ∘ fun x => if p x then f x else x) = q := by
    funext x
    simp only [Function.comp_apply]
    split_ifs with hx
    · exact hf x hx
    · rfl
  unfold update
  rw [List.find?_map, hq]

theorem find?_upsert [DecidableEq κ] (key : α → κ) (hf : ∀ x, key (f x) = key x) (x : α) (k : κ)
    (rows : List α) : (upsert key x f rows).find? (fun y => key y = k)
      = if key x = k then some ((rows.find? fun y => key y = k).elim x f)
        else rows.find? fun y => key y = k := by
  have hfind : rows.find? (fun y => key y = k) = none ↔ k ∉ rows.map key := by
    simp [List.find?_eq_none]
  unfold upsert
  split_ifs with hx hk hk
  · subst hk
    rw [← update_key, find?_update _ f fun y _ => by rw [hf]]
    rcases hz : rows.find? fun y => key y = key x with _ | z
    · exact (hfind.1 hz hx).elim
    · have hzk : key z = key x := by simpa using List.find?_some hz
      simp [hzk]
  · rw [← update_key, find?_update _ f fun y _ => by rw [hf]]
    rcases hz : rows.find? fun y => key y = k with _ | z
    · rfl
    · have hzk : key z = k := by simpa using List.find?_some hz
      simp [hzk, Ne.symm hk]
  · subst hk
    rw [List.find?_append, hfind.2 hx]
    simp
  · rw [List.find?_append, List.find?_singleton, if_neg (by simpa using hk), Option.or_none]

/-- An update leaves the rows where they are, the selected ones rewritten. -/
theorem update_forall₂ (rows : List α) :
    List.Forall₂ (fun x y => y = if p x then f x else x) rows (update p f rows) := by
  unfold update
  rw [List.forall₂_map_right_iff]
  exact List.forall₂_same.2 fun _ _ => rfl

/-- What the assignment keeps of a row, an update keeps of all. -/
theorem forall_update {P : α → Prop} {rows : List α} (hf : ∀ x, P x → P (f x))
    (h : ∀ x ∈ rows, P x) : ∀ x ∈ update p f rows, P x := by
  intro y hy
  obtain ⟨x, hx, rfl⟩ := List.mem_map.1 hy
  split_ifs
  · exact hf x (h x hx)
  · exact h x hx

/-- Rewriting rows where they stand, twice. -/
theorem forall₂_trans {R : α → α → Prop} (hR : ∀ x y z, R x y → R y z → R x z) :
    ∀ {xs ys zs : List α}, List.Forall₂ R xs ys → List.Forall₂ R ys zs → List.Forall₂ R xs zs
  | _, _, _, .nil, .nil => .nil
  | _, _, _, .cons h hs, .cons h' hs' => .cons (hR _ _ _ h h') (forall₂_trans hR hs hs')

theorem mem_delete {rows : List α} {x : α} : x ∈ delete p rows ↔ x ∈ rows ∧ p x = false := by
  simp [delete]

/-- The row at a place, and the others. -/
theorem mem_iff_eraseIdx {rows : List α} {i : ℕ} {x y : α} (hx : rows[i]? = some x) :
    y ∈ rows ↔ y = x ∨ y ∈ rows.eraseIdx i := by
  obtain ⟨hlt, rfl⟩ := List.getElem?_eq_some_iff.1 hx
  rw [← List.mem_cons]
  exact (List.getElem_cons_eraseIdx_perm hlt).mem_iff.symm

theorem mem_set_iff_eraseIdx {rows : List α} {i : ℕ} {x y : α} (hi : i < rows.length) :
    y ∈ rows.set i x ↔ y = x ∨ y ∈ rows.eraseIdx i := by
  rw [← List.mem_cons]
  exact (List.set_perm_cons_eraseIdx hi x).mem_iff

end Rows

section Ids

variable (id : α → ℕ)

/-- The id an `integer primary key` takes by itself: one past the greatest. -/
def nextId (rows : List α) : ℕ := ((rows.map id).max?.getD 0) + 1

theorem nextId_notMem (rows : List α) : nextId id rows ∉ rows.map id := by
  intro h
  unfold nextId at h
  rcases hm : (rows.map id).max? with _ | m
  · rw [List.max?_eq_none_iff] at hm
    simp [hm] at h
  · rw [hm, Option.getD_some] at h
    have hle := (List.max?_eq_some_iff.1 hm).2 _ h
    omega

/-- The row of the greatest id. -/
def last (rows : List α) : Option α :=
  (rows.map id).max?.bind fun m => rows.find? fun x => id x = m

theorem of_last {rows : List α} {x : α} (h : last id rows = some x) :
    x ∈ rows ∧ ∀ y ∈ rows, id y ≤ id x := by
  obtain ⟨m, hm, hf⟩ := Option.bind_eq_some_iff.1 h
  have hx : id x = m := by simpa using List.find?_some hf
  refine ⟨List.mem_of_find?_eq_some hf, fun y hy => ?_⟩
  rw [hx]
  exact (List.max?_eq_some_iff.1 hm).2 _ (List.mem_map_of_mem hy)

theorem last_eq_none {rows : List α} : last id rows = none ↔ rows = [] := by
  constructor
  · intro h
    by_contra hne
    obtain ⟨m, hm⟩ := Option.isSome_iff_exists.1
      (List.isSome_max?_of_ne_nil (mt List.map_eq_nil_iff.1 hne : rows.map id ≠ []))
    obtain ⟨x, hx, hxm⟩ := List.mem_map.1 (List.max?_eq_some_iff.1 hm).1
    rw [last, hm, Option.bind_some, List.find?_eq_none] at h
    exact h x hx (by simpa using hxm)
  · rintro rfl
    rfl

end Ids

section Consecutive

variable (id : α → ℕ)

/-- The ids are one after another. -/
def Consecutive (rows : List α) : Prop := ∃ b, rows.map id = List.range' b rows.length

/-- The rows with ids past `x` up to `y`. -/
def between (x y : ℤ) (rows : List α) : List α := rows.filter fun r => x < id r ∧ id r ≤ y

variable {id} {b : ℕ} {rows : List α}

theorem mem_range' {x : α} (h : rows.map id = List.range' b rows.length) (hx : x ∈ rows) :
    b ≤ id x ∧ id x < b + rows.length := by
  have hm : id x ∈ rows.map id := List.mem_map_of_mem hx
  rw [h, List.mem_range'_1] at hm
  exact hm

/-- Every id up to the last one is taken. -/
theorem exists_mem_of_range' {i : ℕ} (h : rows.map id = List.range' b rows.length) (hb : b ≤ i)
    (hi : i < b + rows.length) : ∃ x ∈ rows, id x = i := by
  have hm : i ∈ rows.map id := by
    rw [h, List.mem_range'_1]
    exact ⟨hb, hi⟩
  exact List.mem_map.1 hm

theorem Consecutive.sorted (h : Consecutive id rows) :
    rows.Pairwise fun x y => id x < id y := by
  obtain ⟨b, hb⟩ := h
  rw [← List.pairwise_map (f := id) (R := (· < ·)), hb]
  exact List.pairwise_lt_range'

theorem sorted_append {x : α} (h : rows.Pairwise fun x y => id x < id y)
    (hx : ∀ y ∈ rows.getLast?, id y < id x) : (rows ++ [x]).Pairwise fun x y => id x < id y := by
  rw [List.pairwise_append]
  refine ⟨h, List.pairwise_singleton _ _, fun z hz y hy => ?_⟩
  obtain rfl := List.mem_singleton.1 hy
  rcases List.eq_nil_or_concat rows with rfl | ⟨ys, l, rfl⟩
  · cases hz
  · rw [List.concat_eq_append] at h hz hx
    have hl := hx l (by simp)
    rcases List.mem_append.1 hz with hz | hz
    · exact ((List.pairwise_append.1 h).2.2 z hz l List.mem_cons_self).trans hl
    · exact List.mem_singleton.1 hz ▸ hl

theorem Consecutive.append {x : α} (h : Consecutive id rows)
    (hx : ∀ y ∈ rows.getLast?, id x = id y + 1) : Consecutive id (rows ++ [x]) := by
  obtain ⟨b, hb⟩ := h
  rcases List.eq_nil_or_concat rows with rfl | ⟨ys, y, rfl⟩
  · exact ⟨id x, rfl⟩
  · refine ⟨b, ?_⟩
    have hy := hx y (by simp)
    rw [List.concat_eq_append] at hb ⊢
    have hlast : id y = b + ys.length := by
      rw [List.map_append, List.length_append, List.length_singleton, List.range'_1_concat] at hb
      simpa using (List.append_inj' hb rfl).2
    have hlen : (ys ++ [y] ++ [x]).length = (ys ++ [y]).length + 1 := by simp
    rw [List.map_append, hb, hlen, List.range'_1_concat]
    simp [hy, hlast]
    omega

/-- A row splits the table: those before it have the ids below, those behind it the ids above. -/
theorem range'_split {lo hi : List α} {x : α}
    (h : (lo ++ x :: hi).map id = List.range' b (lo ++ x :: hi).length) :
    lo.map id = List.range' b lo.length ∧ id x = b + lo.length
      ∧ hi.map id = List.range' (id x + 1) hi.length := by
  rw [List.map_append, List.length_append, ← List.range'_append_1] at h
  obtain ⟨hlo, hhi⟩ := List.append_inj h (by simp)
  rw [List.map_cons, List.length_cons, List.range'_succ, List.cons.injEq] at hhi
  exact ⟨hlo, hhi.1, hhi.1 ▸ hhi.2⟩

/-- The first rows are those of the lowest ids. -/
theorem take_eq_filter : ∀ {b : ℕ} {rows : List α} (m : ℕ),
    rows.map id = List.range' b rows.length → rows.take m = rows.filter fun x => id x < b + m
  | b, [], m, _ => by simp
  | b, x :: rows, 0, h => by
    rw [List.take_zero, eq_comm, List.filter_eq_nil_iff]
    intro y hy
    have := (mem_range' h hy).1
    simp
    omega
  | b, x :: rows, m + 1, h => by
    rw [List.map_cons, List.length_cons, List.range'_succ, List.cons.injEq] at h
    rw [List.take_succ_cons, take_eq_filter m h.2, List.filter_cons_of_pos (by simp; omega)]
    congr 2
    funext y
    congr 1
    rw [eq_iff_iff]
    omega

/-- How many rows have ids past `x`. -/
theorem length_filter_lt : ∀ {b : ℕ} {rows : List α} (x : ℤ),
    rows.map id = List.range' b rows.length →
      (rows.filter fun r => x < id r).length = rows.length - (x + 1 - b).toNat
  | b, [], x, _ => by simp
  | b, r :: rows, x, h => by
    rw [List.map_cons, List.length_cons, List.range'_succ, List.cons.injEq] at h
    have ih := length_filter_lt x h.2
    rw [List.filter_cons]
    split_ifs with hr
    · rw [List.length_cons, ih, List.length_cons]
      simp at hr
      omega
    · rw [ih, List.length_cons]
      simp at hr
      omega

theorem between_self (x : ℤ) (rows : List α) : between id x x rows = [] := by
  unfold between
  rw [List.filter_eq_nil_iff]
  intro r _
  simp

/-- Rows in the order of their ids, cut at one. -/
theorem between_append {x y z : ℤ} (hxy : x ≤ y) (hyz : y ≤ z) : ∀ {rows : List α},
    rows.Pairwise (fun r s => id r < id s) →
      between id x y rows ++ between id y z rows = between id x z rows
  | [], _ => rfl
  | r :: rows, h => by
    have ih := between_append hxy hyz (List.pairwise_cons.1 h).2
    unfold between at ih ⊢
    simp only [List.filter_cons, decide_eq_true_eq]
    by_cases hy : (id r : ℤ) ≤ y
    · by_cases hx : x < id r
      · rw [if_pos ⟨hx, hy⟩, if_neg (by omega), if_pos ⟨hx, hy.trans hyz⟩, List.cons_append, ih]
      · rw [if_neg (by omega), if_neg (by omega), if_neg (by omega), ih]
    · have hnil : rows.filter (fun s => x < id s ∧ id s ≤ y) = [] := by
        rw [List.filter_eq_nil_iff]
        intro s hs
        have := (List.pairwise_cons.1 h).1 s hs
        simp
        omega
      rw [hnil, List.nil_append] at ih
      rw [hnil, if_neg (by omega), List.nil_append, ih]
      split_ifs <;> first | rfl | omega

/-- A row more, past the last one asked for. -/
theorem between_concat {x y : ℤ} {r : α} (h : y ≤ x ∨ y < id r) :
    between id x y (rows ++ [r]) = between id x y rows := by
  unfold between
  rw [List.filter_append, List.filter_singleton, decide_eq_false (by omega), cond_false,
    List.append_nil]

/-- The first `k` rows past an id. -/
theorem take_filter_lt (k : ℕ) : ∀ {b : ℕ} {rows : List α} {y : ℕ},
    rows.map id = List.range' b rows.length → b ≤ y + 1 →
      (rows.filter fun r => y < id r).take k = between id y (y + k) rows
  | b, [], y, _, _ => by simp [between]
  | b, r :: rows, y, h, hb => by
    have hrest := h
    rw [List.map_cons, List.length_cons, List.range'_succ, List.cons.injEq] at hrest
    by_cases hle : b ≤ y
    · rw [List.filter_cons_of_neg (by simp; omega), take_filter_lt k hrest.2 (by omega)]
      unfold between
      rw [List.filter_cons_of_neg (by simp; omega)]
    · have hall : (r :: rows).filter (fun r => y < id r) = r :: rows := by
        rw [List.filter_eq_self]
        intro x hx
        have := (mem_range' h hx).1
        simp
        omega
      rw [hall, take_eq_filter k h, between]
      refine List.filter_congr fun x hx => ?_
      have := (mem_range' h hx).1
      rw [decide_eq_decide]
      omega

/-- The first rows, and those behind them up to an id. -/
theorem take_append_between {n : ℕ} {y : ℤ} (h : rows.map id = List.range' 0 rows.length)
    (hn : n ≤ y + 1) : rows.take n ++ between id (n - 1) y rows = rows.take (y + 1).toNat := by
  have htake : ∀ m : ℕ, rows.take m = between id (-1) (m - 1) rows := fun m => by
    rw [take_eq_filter m h, between]
    refine List.filter_congr fun x _ => ?_
    rw [decide_eq_decide]
    omega
  rw [htake, htake, between_append (by omega) (by omega) (Consecutive.sorted ⟨0, h⟩)]
  congr 1
  omega

/-- The last id asked for can be told from the rows. -/
theorem between_inj (h : rows.map id = List.range' b rows.length) {x y z : ℤ} (hx : x < z)
    (hb : b ≤ z) (hz : z < b + rows.length) (hy : y < b + rows.length) :
    between id x z rows = between id x y rows ↔ y = z := by
  refine ⟨fun he => ?_, fun he => by rw [he]⟩
  by_contra hne
  obtain ⟨r, hr, hid⟩ := exists_mem_of_range' (i := (max y z).toNat) h (by omega) (by omega)
  have hiff : r ∈ between id x z rows ↔ r ∈ between id x y rows := by rw [he]
  simp only [between, List.mem_filter, decide_eq_true_eq, hr, true_and] at hiff
  omega

end Consecutive

end Table
