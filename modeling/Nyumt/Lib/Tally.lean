import Mathlib.Data.List.Induction

/-!
# Tallies

The tallies that are open, in a list. A ballot for a key is counted in every tally of that key, a
new tally goes to the end, and tallies are closed by their keys.

The tallies of one key live on their own, so while none of them is opened or closed they count
what is cast for the key (`ofKey_run`). Tallies that count alike stay alike (`Hom.map_run`): one of
numbers is the count of one that keeps its ballots, and one with a mark (`marked`) counts like one
without. The first tally of a key has counted every ballot cast for it, from some moment on, if and
only if each of them found a tally of the key and none was closed after it (`counted_iff`).
-/

/-- What a tally is of, and how it counts a ballot. -/
structure Tally (ε κ β : Type*) where
  key : ε → κ
  add : ε → β → ε
  key_add : ∀ e b, key (add e b) = key e

namespace Tally

inductive Op (ε κ β : Type*)
  | enter (e : ε)
  | cast (k : κ) (b : β)
  | close (p : κ → Bool)
  | skip

variable {ε κ β ε' β' : Type*}

/-- Tallies that keep their ballots. -/
def board : Tally (κ × List β) κ β where
  key e := e.1
  add e b := (e.1, e.2 ++ [b])
  key_add _ _ := rfl

theorem key_foldl_add {T : Tally ε κ β} (e : ε) (bs : List β) :
    T.key (bs.foldl T.add e) = T.key e := by
  induction bs generalizing e with
  | nil => rfl
  | cons b bs ih => rw [List.foldl_cons, ih, T.key_add]

namespace Op

def map (f : ε → ε') (g : β → β') : Op ε κ β → Op ε' κ β'
  | .enter e => .enter (f e)
  | .cast k b => .cast k (g b)
  | .close p => .close p
  | .skip => .skip

/-- It closes the tallies of the key. -/
def Closes (k : κ) : Op ε κ β → Prop
  | .close p => p k
  | .enter _ | .cast _ _ | .skip => False

instance (k : κ) : DecidablePred (Closes k : Op ε κ β → Prop)
  | .close p => inferInstanceAs (Decidable (p k = true))
  | .enter _ | .cast _ _ | .skip => isFalse id

theorem closes_map (f : ε → ε') (g : β → β') (k : κ) (o : Op ε κ β) :
    (o.map f g).Closes k ↔ o.Closes k := by
  cases o <;> rfl

variable [DecidableEq κ]

/-- The ballot it casts for the key. -/
def ballot (k : κ) : Op ε κ β → Option β
  | .cast k' b => if k' = k then some b else none
  | .enter _ | .close _ | .skip => none

theorem ballot_map (f : ε → ε') (g : β → β') (k : κ) (o : Op ε κ β) :
    (o.map f g).ballot k = (o.ballot k).map g := by
  cases o
  case cast k' b =>
    simp only [map, ballot]
    split_ifs <;> rfl
  all_goals rfl

end Op

variable [DecidableEq κ]

/-- The ballots cast for a key, in their order. -/
def ballots (k : κ) (ops : List (Op ε κ β)) : List β := ops.filterMap (Op.ballot k)

@[simp] theorem ballots_nil (k : κ) : ballots k ([] : List (Op ε κ β)) = [] := rfl

theorem ballots_append (k : κ) (ops ops' : List (Op ε κ β)) :
    ballots k (ops ++ ops') = ballots k ops ++ ballots k ops' := List.filterMap_append

theorem ballots_cons (k : κ) (o : Op ε κ β) (ops : List (Op ε κ β)) :
    ballots k (o :: ops) = (o.ballot k).toList ++ ballots k ops := by
  unfold ballots
  rcases h : o.ballot k with _ | b <;> simp [h]

variable (T : Tally ε κ β)

def apply (es : List ε) : Op ε κ β → List ε
  | .enter e => es ++ [e]
  | .cast k b => es.map fun e => if T.key e = k then T.add e b else e
  | .close p => es.filter fun e => !p (T.key e)
  | .skip => es

def run (es : List ε) (ops : List (Op ε κ β)) : List ε := ops.foldl T.apply es

@[simp] theorem run_nil (es : List ε) : T.run es [] = es := rfl

theorem run_cons (es : List ε) (o : Op ε κ β) (ops : List (Op ε κ β)) :
    T.run es (o :: ops) = T.run (T.apply es o) ops := rfl

theorem run_concat (es : List ε) (ops : List (Op ε κ β)) (o : Op ε κ β) :
    T.run es (ops ++ [o]) = T.apply (T.run es ops) o := by
  simp [run]

section Forall

variable {T} {es : List ε} {P : ε → Prop}

/-- What holds of the open tallies goes on to, if it holds of a new one and of one that counts. -/
theorem forall_apply {o : Op ε κ β} (h : ∀ e ∈ es, P e) (henter : ∀ e, o = .enter e → P e)
    (hcast : ∀ k b, o = .cast k b → ∀ e ∈ es, T.key e = k → P (T.add e b)) :
    ∀ e ∈ T.apply es o, P e := by
  intro e he
  cases o
  case enter a =>
    rcases List.mem_append.1 he with he | he
    · exact h e he
    · exact List.mem_singleton.1 he ▸ henter a rfl
  case cast k b =>
    obtain ⟨a, ha, rfl⟩ := List.mem_map.1 he
    split_ifs with hk
    · exact hcast k b rfl a ha hk
    · exact h a ha
  case close p => exact h e (List.mem_filter.1 he).1
  case skip => exact h e he

theorem of_forall_cast {k : κ} {b : β} (h : ∀ e ∈ T.apply es (.cast k b), P e) {e : ε}
    (he : e ∈ es) (hk : T.key e = k) : P (T.add e b) :=
  h _ (List.mem_map.2 ⟨e, he, if_pos hk⟩)

end Forall

section OfKey

/-- The tallies of a key. -/
def ofKey (k : κ) (es : List ε) : List ε := es.filter fun e => T.key e = k

variable {T} {k : κ} {es : List ε}

theorem mem_ofKey {e : ε} : e ∈ T.ofKey k es ↔ e ∈ es ∧ T.key e = k := by
  simp [ofKey]

theorem ofKey_enter (e : ε) :
    T.ofKey k (T.apply es (.enter e)) = T.ofKey k es ++ if T.key e = k then [e] else [] := by
  unfold ofKey apply
  by_cases h : T.key e = k <;> simp [h]

/-- A ballot changes no key. -/
theorem key_ite (k : κ) (e : ε) (b : β) :
    T.key (if T.key e = k then T.add e b else e) = T.key e := by
  split_ifs
  · exact T.key_add e b
  · rfl

theorem ofKey_cast (k' : κ) (b : β) : T.ofKey k (T.apply es (.cast k' b))
    = if k' = k then (T.ofKey k es).map fun e => T.add e b else T.ofKey k es := by
  have hkeys : T.ofKey k (T.apply es (.cast k' b))
      = (T.ofKey k es).map fun e => if T.key e = k' then T.add e b else e := by
    unfold ofKey apply
    rw [List.filter_map]
    congr 1
    exact List.filter_congr fun e _ => by simp [key_ite]
  rw [hkeys]
  split_ifs with h
  · exact List.map_congr_left fun e he => if_pos ((mem_ofKey.1 he).2.trans h.symm)
  · refine (List.map_congr_left fun e he => ?_).trans (List.map_id _)
    exact if_neg fun hk => h (hk.symm.trans (mem_ofKey.1 he).2)

theorem ofKey_close (p : κ → Bool) :
    T.ofKey k (T.apply es (.close p)) = if p k then [] else T.ofKey k es := by
  unfold ofKey apply
  rw [List.filter_filter]
  split_ifs with h
  · refine List.filter_eq_nil_iff.2 fun e _ => ?_
    rintro he
    simp only [Bool.and_eq_true, decide_eq_true_eq, Bool.not_eq_true'] at he
    simp [he.1, h] at he
  · refine List.filter_congr fun e _ => ?_
    by_cases hk : T.key e = k <;> simp [hk, h]

theorem ofKey_skip : T.ofKey k (T.apply es .skip) = T.ofKey k es := rfl

variable (T k) in
/-- It opens or closes a tally of the key. -/
def Touches : Op ε κ β → Prop
  | .enter e => T.key e = k
  | .close p => p k
  | .cast _ _ | .skip => False

instance : DecidablePred (T.Touches k)
  | .enter e => inferInstanceAs (Decidable (T.key e = k))
  | .close p => inferInstanceAs (Decidable (p k = true))
  | .cast _ _ | .skip => isFalse id

/-- What leaves the tallies of a key open counts its ballot in each. -/
theorem ofKey_apply {o : Op ε κ β} (h : ¬ T.Touches k o) :
    T.ofKey k (T.apply es o) = (T.ofKey k es).map fun e => (o.ballot k).elim e (T.add e) := by
  cases o
  case enter e =>
    have hk : T.key e ≠ k := h
    simp [ofKey_enter, hk, Op.ballot]
  case cast k' b =>
    rw [ofKey_cast]
    by_cases hk : k' = k <;> simp [Op.ballot, hk]
  case close p =>
    have hp : p k ≠ true := h
    simp [ofKey_close, hp, Op.ballot]
  case skip => simp [ofKey_skip, Op.ballot]

/-- While the tallies of a key stay open, each counts the ballots for the key in their order. -/
theorem ofKey_run : ∀ {ops : List (Op ε κ β)} {es : List ε}, (∀ o ∈ ops, ¬ T.Touches k o) →
    T.ofKey k (T.run es ops) = (T.ofKey k es).map fun e => (ballots k ops).foldl T.add e
  | [], es, _ => by simp
  | o :: ops, es, h => by
    rw [run_cons, ofKey_run fun o' ho' => h o' (List.mem_cons_of_mem _ ho'),
      ofKey_apply (h o List.mem_cons_self), List.map_map]
    refine List.map_congr_left fun e _ => ?_
    rw [ballots_cons]
    rcases o.ballot k with _ | b <;> rfl

end OfKey

section Casts

variable {T} {es : List ε}

theorem apply_eq_map {o : Op ε κ β} (h : ∀ k, ¬ T.Touches k o) :
    T.apply es o = es.map fun e => (o.ballot (T.key e)).elim e (T.add e) := by
  cases o
  case enter e => exact absurd rfl (h (T.key e))
  case cast k b =>
    refine List.map_congr_left fun e _ => ?_
    by_cases hk : T.key e = k
    · simp [Op.ballot, hk]
    · simp [Op.ballot, hk, Ne.symm hk]
  case close p =>
    have hopen : ∀ k, p k = false := fun k => Bool.eq_false_iff.2 (h k)
    have hall : T.apply es (.close p) = es :=
      List.filter_eq_self.2 fun e _ => by rw [hopen, Bool.not_false]
    rw [hall]
    exact (List.map_id es).symm
  case skip => exact (List.map_id es).symm

/-- While no tally is opened or closed, each stays where it is and counts what is cast for its
key. -/
theorem run_eq_map : ∀ {ops : List (Op ε κ β)} {es : List ε}, (∀ o ∈ ops, ∀ k, ¬ T.Touches k o) →
    T.run es ops = es.map fun e => (ballots (T.key e) ops).foldl T.add e
  | [], es, _ => by simp
  | o :: ops, es, h => by
    rw [run_cons, apply_eq_map (h o List.mem_cons_self),
      run_eq_map fun o' ho' => h o' (List.mem_cons_of_mem _ ho'), List.map_map]
    refine List.map_congr_left fun e _ => ?_
    rw [ballots_cons]
    rcases hb : o.ballot (T.key e) with _ | b
    · simp [hb]
    · simp [hb, T.key_add]

end Casts

section Hom

/-- Tallies of one kind seen as tallies of another that count alike. -/
structure Hom (T : Tally ε κ β) (T' : Tally ε' κ β') where
  entry : ε → ε'
  ballot : β → β'
  key_entry : ∀ e, T'.key (entry e) = T.key e
  add_entry : ∀ e b, T'.add (entry e) (ballot b) = entry (T.add e b)

variable {T} {T' : Tally ε' κ β'} (F : Hom T T')

theorem Hom.map_apply (es : List ε) (o : Op ε κ β) :
    (T.apply es o).map F.entry = T'.apply (es.map F.entry) (o.map F.entry F.ballot) := by
  cases o
  case enter e => simp [apply, Op.map]
  case cast k b =>
    simp only [apply, Op.map, List.map_map]
    refine List.map_congr_left fun e _ => ?_
    simp only [Function.comp_apply, F.key_entry]
    split_ifs
    · exact (F.add_entry e b).symm
    · rfl
  case close p =>
    simp only [apply, Op.map, List.filter_map]
    congr 1
    exact List.filter_congr fun e _ => by simp [F.key_entry]
  case skip => rfl

theorem Hom.map_run (ops : List (Op ε κ β)) (es : List ε) :
    (T.run es ops).map F.entry = T'.run (es.map F.entry) (ops.map (Op.map F.entry F.ballot)) := by
  induction ops generalizing es with
  | nil => rfl
  | cons o ops ih => rw [run_cons, ih, F.map_apply, List.map_cons, run_cons]

/-- A tally that starts from its key alone is the count of its ballots. -/
def Hom.counting (start : κ → ε) (h : ∀ k, T.key (start k) = k) :
    Hom (board : Tally _ κ β) T where
  entry e := e.2.foldl T.add (start e.1)
  ballot := id
  key_entry e := (key_foldl_add _ _).trans (h e.1)
  add_entry e b := by simp [board]

end Hom

section Since

/-- The tallies of a kind, each with the ballots it has counted from some moment on. -/
def recorded : Tally (ε × List β) κ β where
  key e := T.key e.1
  add e b := (T.add e.1 b, e.2 ++ [b])
  key_add e b := T.key_add e.1 b

/-- From a moment at which `es` are open. -/
def since (es : List ε) (ops : List (Op ε κ β)) : List (ε × List β) :=
  T.recorded.run (es.map fun e => (e, [])) (ops.map (Op.map (fun e => (e, [])) id))

variable (k : κ) (keep : β → Bool) (es : List ε) (ops : List (Op ε κ β))

/-- The ballots for a key, of those that count here. -/
def kept (ops : List (Op ε κ β)) : List β := (ballots k ops).filter keep

/-- The first tally of the key has counted them all. -/
def Counted : Prop :=
  kept k keep ops = [] ∨ ∃ e, (T.recorded.ofKey k (T.since es ops)).head? = some e
    ∧ e.2.filter keep = kept k keep ops

/-- What a reader finds who looks for the first tally with a key of `q` is one of the key, and it
has counted them all. -/
def Included (q : κ → Bool) : Prop :=
  kept k keep ops = [] ∨ ∃ e, (T.since es ops).find? (fun e => q (T.key e.1)) = some e
    ∧ T.key e.1 = k ∧ e.2.filter keep = kept k keep ops

/-- Each of them finds a tally of the key, and none is closed after it. -/
def Covered : Prop :=
  ∀ pre o post, ops = pre ++ o :: post →
    ((o.ballot k).any keep → T.ofKey k (T.run es pre) ≠ []) ∧
      (o.Closes k → kept k keep pre = [])

variable {T k keep es ops}

theorem since_concat (o : Op ε κ β) : T.since es (ops ++ [o])
    = T.recorded.apply (T.since es ops) (o.map (fun e => (e, [])) id) := by
  rw [since, List.map_append, List.map_singleton, run_concat]
  rfl

theorem map_fst_since : (T.since es ops).map Prod.fst = T.run es ops := by
  have F : ∃ F : Hom T.recorded T, F.entry = Prod.fst ∧ F.ballot = id :=
    ⟨⟨Prod.fst, id, fun _ => rfl, fun _ _ => rfl⟩, rfl, rfl⟩
  obtain ⟨F, he, hb⟩ := F
  rw [← he, since, F.map_run, he, hb, List.map_map, List.map_map]
  congr 1
  · exact List.map_id _
  · refine (List.map_congr_left fun o _ => ?_).trans (List.map_id _)
    cases o <;> rfl

theorem ofKey_run_eq : T.ofKey k (T.run es ops)
    = (T.recorded.ofKey k (T.since es ops)).map Prod.fst := by
  rw [← map_fst_since, ofKey, List.filter_map]
  rfl

theorem kept_concat (o : Op ε κ β) :
    kept k keep (ops ++ [o]) = kept k keep ops ++ (o.ballot k).toList.filter keep := by
  rw [kept, ballots_append, List.filter_append, ballots_cons, ballots_nil, List.append_nil]
  rfl

/-- Where nothing has been cast that counts, no tally has counted any. -/
theorem filter_eq_nil_of_kept {e : ε × List β} (h : kept k keep ops = [])
    (he : e ∈ T.recorded.ofKey k (T.since es ops)) : e.2.filter keep = [] := by
  induction ops using List.reverseRecOn generalizing e with
  | nil =>
    obtain ⟨a, -, rfl⟩ := List.mem_map.1 (mem_ofKey.1 he).1
    rfl
  | append_singleton ops o ih =>
    rw [kept_concat, List.append_eq_nil_iff] at h
    rw [since_concat] at he
    cases o
    case enter a =>
      rw [Op.map, ofKey_enter, List.mem_append] at he
      rcases he with he | he
      · exact ih h.1 he
      · split_ifs at he
        · rw [List.mem_singleton.1 he]
          rfl
        · simp at he
    case cast k' b =>
      rw [Op.map, ofKey_cast] at he
      split_ifs at he with hk
      · obtain ⟨a, ha, rfl⟩ := List.mem_map.1 he
        have hb : [b].filter keep = [] := by simpa [Op.ballot, hk] using h.2
        rw [recorded, List.filter_append, ih h.1 ha, id_eq, hb]
        rfl
      · exact ih h.1 he
    case close p =>
      rw [Op.map, ofKey_close] at he
      split_ifs at he
      · simp at he
      · exact ih h.1 he
    case skip => exact ih h.1 he

theorem covered_concat (o : Op ε κ β) : T.Covered k keep es (ops ++ [o]) ↔
    T.Covered k keep es ops ∧ ((o.ballot k).any keep → T.ofKey k (T.run es ops) ≠ []) ∧
      (o.Closes k → kept k keep ops = []) := by
  constructor
  · refine fun h => ⟨fun pre o' post hops => h pre o' (post ++ [o]) ?_, h ops o [] rfl⟩
    rw [hops, List.append_assoc, List.cons_append]
  · rintro ⟨h, ho⟩ pre o' post hops
    rcases List.eq_nil_or_concat post with rfl | ⟨post', x, rfl⟩
    · obtain ⟨rfl, hoo⟩ := List.append_inj' hops rfl
      rw [List.singleton_inj] at hoo
      exact hoo ▸ ho
    · rw [List.concat_eq_append, ← List.cons_append, ← List.append_assoc] at hops
      exact h pre o' post' (List.append_inj' hops rfl).1

theorem counted_concat (o : Op ε κ β) : T.Counted k keep es (ops ++ [o]) ↔
    T.Counted k keep es ops ∧ ((o.ballot k).any keep → T.ofKey k (T.run es ops) ≠ []) ∧
      (o.Closes k → kept k keep ops = []) := by
  unfold Counted
  rw [since_concat, kept_concat, ofKey_run_eq]
  -- the tallies of the key, the oldest first
  generalize hrs : T.recorded.ofKey k (T.since es ops) = rs
  cases o
  case enter a =>
    rw [Op.map, ofKey_enter, hrs]
    rcases rs with _ | ⟨e, rs⟩
    · by_cases hk : T.recorded.key (a, []) = k <;>
        simp [hk, Op.ballot, Op.Closes, eq_comm (a := ([] : List β))]
    · simp [Op.ballot, Op.Closes]
  case cast k' b =>
    rw [Op.map, ofKey_cast, hrs]
    by_cases hk : k' = k
    · have hnil : kept k keep ops = [] → ∀ e ∈ rs, e.2.filter keep = [] := fun h e he =>
        filter_eq_nil_of_kept h (hrs ▸ he)
      rcases rs with _ | ⟨e, rs⟩
      · by_cases hb : keep b <;> simp [hk, hb, Op.ballot, Op.Closes]
      · have he : kept k keep ops = [] → e.2.filter keep = [] := fun h =>
          hnil h e List.mem_cons_self
        by_cases hb : keep b <;> simp [hk, hb, Op.ballot, Op.Closes, recorded]
        intro h
        rw [he h, h]
    · simp [hk, Op.ballot, Op.Closes]
  case close p =>
    rw [Op.map, ofKey_close, hrs]
    by_cases hp : p k <;> simp [hp, Op.ballot, Op.Closes]
    exact fun h => .inl h
  case skip =>
    rw [Op.map, ofKey_skip, hrs]
    simp [Op.ballot, Op.Closes]

theorem counted_iff : T.Counted k keep es ops ↔ T.Covered k keep es ops := by
  induction ops using List.reverseRecOn with
  | nil =>
    refine iff_of_true (.inl rfl) fun pre o post h => ?_
    simp at h
  | append_singleton ops o ih => rw [counted_concat, covered_concat, ih]

variable {q : κ → Bool}

/-- If the first tally with a key of `q` is one of the key, it is the first of the key. -/
theorem head?_ofKey {e : ε} (hq : q k) (hk : T.key e = k)
    (h : es.find? (fun e => q (T.key e)) = some e) : (T.ofKey k es).head? = some e := by
  obtain ⟨-, as, bs, rfl, has⟩ := List.find?_eq_some_iff_append.1 h
  rw [ofKey, List.head?_filter]
  refine List.find?_eq_some_iff_append.2 ⟨by simp [hk], as, bs, rfl, fun a ha => ?_⟩
  have hna := has a ha
  rw [Bool.not_eq_true'] at hna ⊢
  refine decide_eq_false fun hak => ?_
  rw [hak, hq] at hna
  exact Bool.noConfusion hna

theorem included_iff (hq : q k) : T.Included k keep es ops q ↔ T.Covered k keep es ops ∧
    (kept k keep ops = [] ∨
      ∃ e, (T.run es ops).find? (fun e => q (T.key e)) = some e ∧ T.key e = k) := by
  rw [← counted_iff, ← map_fst_since, List.find?_map]
  constructor
  · rintro (h | ⟨e, he, hk, hb⟩)
    · exact ⟨.inl h, .inl h⟩
    · exact ⟨.inr ⟨e, head?_ofKey (T := T.recorded) hq hk he, hb⟩,
        .inr ⟨e.1, by rw [Option.map_eq_some_iff]; exact ⟨e, he, rfl⟩, hk⟩⟩
  · rintro ⟨h | ⟨e, he, hb⟩, h' | ⟨a, ha, hk⟩⟩
    · exact .inl h
    · exact .inl h
    · exact .inl h'
    · obtain ⟨e', he', rfl⟩ := Option.map_eq_some_iff.1 ha
      have hee := (head?_ofKey (T := T.recorded) hq hk he').symm.trans he
      obtain rfl := Option.some.inj hee
      exact .inr ⟨e', he', hk, hb⟩

/-- So it is for a reader who looks for the key itself. -/
theorem included_self_iff :
    T.Included k keep es ops (fun k' => k' = k) ↔ T.Covered k keep es ops := by
  rw [← counted_iff]
  unfold Included Counted ofKey
  rw [List.head?_filter]
  refine or_congr_right (exists_congr fun e => ?_)
  refine and_congr_right fun he => ?_
  have hk := List.find?_some he
  simp only [decide_eq_true_eq] at hk
  exact and_iff_right hk

/-- What a tally has counted from some moment on: it was open then, or opened since, and the ballots
beside it are the ones it has been given. -/
theorem of_mem_since {e : ε × List β} (he : e ∈ T.since es ops) :
    ∃ a, (a ∈ es ∨ .enter a ∈ ops) ∧ e.1 = e.2.foldl T.add a := by
  induction ops using List.reverseRecOn generalizing e with
  | nil =>
    obtain ⟨a, ha, rfl⟩ := List.mem_map.1 he
    exact ⟨a, .inl ha, rfl⟩
  | append_singleton ops o ih =>
    have hold : ∀ {e}, e ∈ T.since es ops →
        ∃ a, (a ∈ es ∨ .enter a ∈ ops ++ [o]) ∧ e.1 = e.2.foldl T.add a := fun he =>
      let ⟨a, ha, hc⟩ := ih he
      ⟨a, ha.imp_right fun h => List.mem_append_left _ h, hc⟩
    rw [since_concat] at he
    cases o
    case enter a =>
      rcases List.mem_append.1 he with he | he
      · exact hold he
      · rw [List.mem_singleton.1 he]
        exact ⟨a, .inr (by simp), rfl⟩
    case cast k' b =>
      obtain ⟨e₀, he₀, rfl⟩ := List.mem_map.1 he
      split_ifs
      · obtain ⟨a, ha, hc⟩ := hold he₀
        refine ⟨a, ha, ?_⟩
        simp [recorded, hc]
      · exact hold he₀
    case close p => exact hold (List.mem_filter.1 he).1
    case skip => exact hold he

end Since

section Marked

/-- The tallies of a kind, each with a mark that it keeps. -/
def marked : Tally (ε × Bool) κ β where
  key e := T.key e.1
  add e b := (T.add e.1 b, e.2)
  key_add e b := T.key_add e.1 b

/-- The operation, by which a new tally gets the mark `mine`. -/
def Op.mark (mine : Bool) (o : Op ε κ β) : Op (ε × Bool) κ β := o.map (fun e => (e, mine)) id

/-- The tallies without a mark. -/
def unmarked (es : List (ε × Bool)) : List (ε × Bool) := es.filter fun e => !e.2

variable {T} {mine : Bool} {es : List (ε × Bool)} {o : Op ε κ β}

theorem map_fst_marked : (T.marked.apply es (o.mark mine)).map Prod.fst
    = T.apply (es.map Prod.fst) o := by
  let F : Hom T.marked T := ⟨Prod.fst, id, fun _ => rfl, fun _ _ => rfl⟩
  have ho : (o.mark mine).map F.entry F.ballot = o := by cases o <;> rfl
  exact (F.map_apply es (o.mark mine)).trans (congrArg _ ho)

/-- What carries a mark is new, or it carried the mark and had the key before. -/
theorem of_mem_marked {e : ε × Bool} (h : e ∈ T.marked.apply es (o.mark mine)) :
    (∃ x, o = .enter x ∧ e = (x, mine)) ∨ ∃ e' ∈ es, e'.2 = e.2 ∧ T.key e'.1 = T.key e.1 := by
  cases o
  case enter x =>
    rcases List.mem_append.1 h with h | h
    · exact .inr ⟨e, h, rfl, rfl⟩
    · exact .inl ⟨x, rfl, List.mem_singleton.1 h⟩
  case cast k b =>
    obtain ⟨e', he', rfl⟩ := List.mem_map.1 h
    refine .inr ⟨e', he', ?_⟩
    split_ifs
    · exact ⟨rfl, (T.key_add _ _).symm⟩
    · exact ⟨rfl, rfl⟩
  case close p => exact .inr ⟨e, (List.mem_filter.1 h).1, rfl, rfl⟩
  case skip => exact .inr ⟨e, h, rfl, rfl⟩

theorem mem_marked_close {p : κ → Bool} {e : ε × Bool} :
    e ∈ T.marked.apply es ((.close p : Op ε κ β).mark mine) ↔ e ∈ es ∧ p (T.key e.1) = false := by
  simp [Op.mark, Op.map, apply, marked]

theorem unmarked_enter (x : ε) :
    unmarked (T.marked.apply es ((.enter x : Op ε κ β).mark true)) = unmarked es := by
  simp [unmarked, Op.mark, Op.map, apply]

/-- What is closed leaves the others alone if it closes marked tallies only. -/
theorem unmarked_close {p : κ → Bool} :
    unmarked (T.marked.apply es ((.close p : Op ε κ β).mark mine)) = unmarked es
      ↔ ∀ e ∈ es, p (T.key e.1) → e.2 := by
  simp only [unmarked, Op.mark, Op.map, apply, List.filter_filter]
  constructor
  · intro h e he hp
    by_contra hne
    have hmem : e ∈ es.filter fun e => !e.2 := List.mem_filter.2 ⟨he, by simpa using hne⟩
    rw [← h] at hmem
    have := (List.mem_filter.1 hmem).2
    simp [marked, hp] at this
  · intro h
    refine List.filter_congr fun e he => ?_
    rcases hp : p (T.marked.key e)
    · simp
    · simp [h e he hp]

end Marked

end Tally
