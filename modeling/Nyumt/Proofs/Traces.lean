import Nyumt.Plot

/-!
# The traces of a plot

`show` goes by its first point: it makes one trace of all points if that one has no name, and else
asks each for its name. So points with and without a name are not told apart, and the traces are the
points by their names only where there are points of one kind (`showTraces_iff`).
-/

namespace Nyumt

/-- One trace for each name, the missing name among them, and in it the points of that name, in
order. -/
structure Partitions (data : List Point) (traces : List Trace) : Prop where
  nodup : (traces.map Trace.name).Nodup
  mem : ∀ i ∈ data, i.2.2 ∈ traces.map Trace.name
  eq : ∀ t ∈ traces, t.points = (data.filter fun i => i.2.2 = t.name).map fun i => (i.1, i.2.1)

/-- The point as an element of the group of its name. -/
def named (i : Point) : Option (String × String × String) :=
  i.2.2.map fun name => (name, i.1, i.2.1)

theorem map_filter_named (name : String) : ∀ data : List Point,
    ((data.filterMap named).filter fun x => x.1 = name).map Prod.snd
      = (data.filter fun i => i.2.2 = some name).map fun i => (i.1, i.2.1)
  | [] => rfl
  | i :: data => by
    have ih := map_filter_named name data
    rcases hname : i.2.2 with _ | name'
    · rw [List.filterMap_cons_none (by rw [named, hname, Option.map_none]), ih,
        List.filter_cons_of_neg (by simp [hname])]
    · rw [List.filterMap_cons_some (by rw [named, hname, Option.map_some])]
      by_cases he : name' = name
      · rw [List.filter_cons_of_pos (by simpa using he), List.map_cons, ih,
          List.filter_cons_of_pos (by simpa [hname] using he), List.map_cons]
      · rw [List.filter_cons_of_neg (by simpa using he), ih,
          List.filter_cons_of_neg (by simpa [hname] using he)]

theorem grouped_eq_none : ∀ {data : List Point} (vec : List (String × List (String × String))),
    (∃ i ∈ data, i.2.2 = none) → grouped data vec = none
  | i :: data, vec, h => by
    unfold grouped
    rcases hname : i.2.2 with _ | name
    · rfl
    · obtain ⟨i', hi', hnone⟩ := h
      rcases List.mem_cons.1 hi' with rfl | hi'
      · exact absurd (hname.symm.trans hnone) nofun
      · exact grouped_eq_none _ ⟨i', hi', hnone⟩

/-- If each point has a name, the loop puts all of them into their groups. -/
theorem grouped_eq_some : ∀ {data : List Point} {done : List (String × String × String)}
    {vec : List (String × List (String × String))}, (∀ i ∈ data, i.2.2 ≠ none) →
    Group.Grouped done vec →
    ∃ vec', grouped data vec = some vec' ∧ Group.Grouped (done ++ data.filterMap named) vec'
  | [], done, vec, _, hvec => ⟨vec, rfl, by rwa [List.filterMap_nil, List.append_nil]⟩
  | i :: data, done, vec, h, hvec => by
    obtain ⟨name, hname⟩ := Option.ne_none_iff_exists'.1 (h i List.mem_cons_self)
    obtain ⟨vec', heq, hgrouped⟩ := grouped_eq_some
      (fun i hi => h i (List.mem_cons_of_mem _ hi)) (hvec.add name (i.1, i.2.1))
    have hi : named i = some (name, i.1, i.2.1) := by rw [named, hname, Option.map_some]
    refine ⟨vec', ?_, ?_⟩
    · unfold grouped
      rw [hname]
      exact heq
    · rw [List.filterMap_cons_some hi, List.append_cons]
      exact hgrouped

/-- The groups are the traces of points that all have a name; the order of the traces is free. -/
theorem partitions_of_grouped {data : List Point} {vec : List (String × List (String × String))}
    (h : ∀ i ∈ data, i.2.2 ≠ none) (hvec : Group.Grouped (data.filterMap named) vec) :
    Partitions data (vec.reverse.map fun val => ⟨some val.1, val.2⟩) := by
  have hnames : (vec.reverse.map fun val => (⟨some val.1, val.2⟩ : Trace)).map Trace.name
      = ((vec.map Prod.fst).map some).reverse := by
    simp
  refine ⟨?_, fun i hi => ?_, fun t ht => ?_⟩
  · rw [hnames, List.nodup_reverse]
    exact hvec.nodup.map (Option.some_injective _)
  · obtain ⟨name, hname⟩ := Option.ne_none_iff_exists'.1 (h i hi)
    have hmem : (name, i.1, i.2.1) ∈ data.filterMap named :=
      List.mem_filterMap.2 ⟨i, hi, by rw [named, hname, Option.map_some]⟩
    rw [hnames, hname, List.mem_reverse]
    exact List.mem_map_of_mem (hvec.mem _ hmem)
  · obtain ⟨val, hval, rfl⟩ := List.mem_map.1 ht
    show val.2 = _
    rw [hvec.eq val (List.mem_reverse.1 hval), map_filter_named]

/-- The traces are those of the names if, and only if, there are points, and all of them have a name
or none has. -/
theorem showTraces_iff (data : List Point) :
    (∃ traces, showTraces data = some traces ∧ Partitions data traces)
      ↔ data ≠ [] ∧ ((∀ i ∈ data, i.2.2 = none) ∨ ∀ i ∈ data, i.2.2 ≠ none) := by
  rcases data with _ | ⟨i, data⟩
  · exact iff_of_false (by rintro ⟨_, h, -⟩; cases h) fun h => h.1 rfl
  rw [and_iff_right (List.cons_ne_nil _ _)]
  rcases hname : i.2.2 with _ | name
  · have hshow : showTraces (i :: data)
        = some [⟨none, (i :: data).map fun i => (i.1, i.2.1)⟩] := by
      unfold showTraces
      simp [hname]
    rw [hshow]
    constructor
    · rintro ⟨traces, htraces, hparts⟩
      obtain rfl := Option.some.inj htraces
      exact .inl fun i' hi' => List.mem_singleton.1 (hparts.mem i' hi')
    · rintro (hnone | hsome)
      · refine ⟨_, rfl, List.nodup_singleton _, fun i' hi' => ?_, fun t ht => ?_⟩
        · exact List.mem_singleton.2 (hnone i' hi')
        · obtain rfl := List.mem_singleton.1 ht
          rw [List.filter_eq_self.2]
          simpa using hnone
      · exact absurd hname (hsome i List.mem_cons_self)
  · have hshow : showTraces (i :: data) = (grouped (i :: data) []).map fun vec =>
        vec.reverse.map fun val => ⟨some val.1, val.2⟩ := by
      unfold showTraces
      simp only [List.getElem?_cons_zero, Option.bind_eq_bind, Option.bind_some, hname]
      cases grouped (i :: data) [] <;> rfl
    rw [hshow]
    have hnot : ¬ ∀ i' ∈ i :: data, i'.2.2 = none := fun hall =>
      absurd (hname.symm.trans (hall i List.mem_cons_self)) nofun
    rw [or_iff_right hnot]
    by_cases hall : ∀ i' ∈ i :: data, i'.2.2 ≠ none
    · obtain ⟨vec, hvec, hgrouped⟩ := grouped_eq_some hall Group.Grouped.nil
      exact iff_of_true ⟨_, by rw [hvec]; rfl, partitions_of_grouped hall hgrouped⟩ hall
    · refine iff_of_false (fun ⟨traces, htraces, _⟩ => ?_) hall
      have hnone : ∃ i' ∈ i :: data, i'.2.2 = none := by
        by_contra! h
        exact hall h
      rw [grouped_eq_none [] hnone] at htraces
      cases htraces

section Witness

/-- There is nothing to look the name up in if nothing was plotted. -/
theorem not_partitions_nil :
    ¬ ∀ data : List Point, ∃ traces, showTraces data = some traces ∧ Partitions data traces := by
  intro h
  obtain ⟨_, h, -⟩ := h []
  cases h

end Witness

end Nyumt
