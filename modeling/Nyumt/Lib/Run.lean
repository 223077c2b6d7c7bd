import Mathlib.Data.List.Basic

/-!
# Runs

A system is its step function: what a state becomes by an action, or `none` where the action
cannot be taken. What every step keeps, every run keeps (`run_induction`); the rule also takes a
condition on the state and the action that each step of the run meets (`Along`).
-/

namespace Run

variable {S A : Type*} (step : S → A → Option S)

/-- The actions taken one after another. -/
def run : S → List A → Option S
  | s, [] => some s
  | s, a :: as => (step s a).bind fun s' => run s' as

/-- `ok` holds of each action the run takes and the state it is taken in. -/
def Along (ok : S → A → Prop) : S → List A → Prop
  | _, [] => True
  | s, a :: as => ok s a ∧ ∀ s', step s a = some s' → Along ok s' as

/-- `I` holds in each state the run comes to, the first and the last among them. -/
def Throughout (I : S → Prop) : S → List A → Prop
  | s, [] => I s
  | s, a :: as => I s ∧ ∀ s', step s a = some s' → Throughout I s' as

/-- What `f` says of each step the run takes. -/
def observe {O : Type*} (f : S → A → O) : S → List A → List O
  | _, [] => []
  | s, a :: as => f s a :: (step s a).elim [] fun s' => observe f s' as

/-- `s'` is reached from `s`. -/
def Reaches (s s' : S) : Prop := ∃ as, run step s as = some s'

variable {step}

@[simp] theorem run_nil (s : S) : run step s [] = some s := rfl

theorem run_cons {s s' : S} {a : A} (as : List A) (h : step s a = some s') :
    run step s (a :: as) = run step s' as := by
  simp [run, h]

theorem of_run_cons {s u : S} {a : A} {as : List A} (h : run step s (a :: as) = some u) :
    ∃ t, step s a = some t ∧ run step t as = some u :=
  Option.bind_eq_some_iff.1 h

theorem run_append : ∀ {s : S} (as bs : List A),
    run step s (as ++ bs) = (run step s as).bind fun t => run step t bs
  | s, [], bs => rfl
  | s, a :: as, bs => by
    simp only [List.cons_append, run]
    rcases step s a with _ | t
    · rfl
    · exact run_append as bs

theorem observe_append {O : Type*} {f : S → A → O} : ∀ {s t : S} {as : List A} (bs : List A),
    run step s as = some t →
      observe step f s (as ++ bs) = observe step f s as ++ observe step f t bs
  | s, t, [], bs, h => by
    simp only [run, Option.some.injEq] at h
    rw [h]
    rfl
  | s, t, a :: as, bs, h => by
    obtain ⟨u, hu, h⟩ := of_run_cons h
    simp only [List.cons_append, observe, hu, Option.elim_some]
    rw [observe_append bs h]

/-- What each step changes as `f` says of it, the run changes as `f` says of its steps. -/
theorem foldl_observe {O X : Type*} {f : S → A → O} {g : S → X} {act : X → O → X}
    (hstep : ∀ s a s', step s a = some s' → g s' = act (g s) (f s a)) :
    ∀ {s s' : S} {as : List A}, run step s as = some s' →
      (observe step f s as).foldl act (g s) = g s'
  | s, s', [], hr => by
    simp only [run, Option.some.injEq] at hr
    exact hr ▸ rfl
  | s, s', a :: as, hr => by
    obtain ⟨t, ht, hr⟩ := of_run_cons hr
    simp only [observe, ht, Option.elim_some, List.foldl_cons]
    rw [← hstep s a t ht]
    exact foldl_observe hstep hr

/-- A potential that pays for each step with `p` bounds their number. -/
theorem countP_observe_le {O : Type*} {f : S → A → O} {p : O → Bool} {φ : S → ℕ}
    (hpay : ∀ s a, (if p (f s a) then 1 else 0) + (step s a).elim 0 φ ≤ φ s) :
    ∀ (s : S) (as : List A), (observe step f s as).countP p ≤ φ s
  | s, [] => Nat.zero_le _
  | s, a :: as => by
    refine Nat.le_trans ?_ (hpay s a)
    rw [observe, List.countP_cons, Nat.add_comm]
    refine Nat.add_le_add_left ?_ _
    rcases step s a with _ | t
    · exact Nat.le_refl 0
    · exact countP_observe_le hpay t as

/-- A potential that each step takes something from bounds the length of a run. -/
theorem length_le_of_run {φ : S → ℕ} (hstep : ∀ s a s', step s a = some s' → φ s' < φ s) :
    ∀ {s s' : S} {as : List A}, run step s as = some s' → as.length + φ s' ≤ φ s
  | s, s', [], hr => by
    simp only [run, Option.some.injEq] at hr
    subst hr
    exact Nat.le_of_eq (Nat.zero_add _)
  | s, s', a :: as, hr => by
    obtain ⟨t, ht, hr⟩ := of_run_cons hr
    have hlt := hstep s a t ht
    have ih := length_le_of_run hstep hr
    rw [List.length_cons]
    omega

/-- With such a potential, a system that is given enough actions comes to where it takes none. -/
theorem exists_stuck {φ : S → ℕ} (hstep : ∀ s a s', step s a = some s' → φ s' < φ s) :
    ∀ {s : S} {as : List A}, φ s < as.length →
      ∃ pre a post t, as = pre ++ a :: post ∧ run step s pre = some t ∧ step t a = none
  | s, a :: as, hlen => by
    rcases h : step s a with _ | t
    · exact ⟨[], a, as, s, rfl, rfl, h⟩
    · have hlt := hstep s a t h
      rw [List.length_cons] at hlen
      have hrest : φ t < as.length := by omega
      obtain ⟨pre, b, post, u, rfl, hu, hb⟩ := exists_stuck hstep hrest
      exact ⟨a :: pre, b, post, u, rfl, by rw [run_cons pre h, hu], hb⟩

/-- What holds wherever the run takes a step holds wherever something is said of one. -/
theorem forall_observe {O : Type*} {f : S → A → O} : ∀ {P : List O → O → Prop} {s s' : S}
    {as : List A}, run step s as = some s' →
      ((∀ pre o post, observe step f s as = pre ++ o :: post → P pre o) ↔
        ∀ pre a post u, as = pre ++ a :: post → run step s pre = some u →
          P (observe step f s pre) (f u a))
  | P, s, s', [], _ => by
    refine iff_of_true (fun pre o post h => ?_) fun pre a post u h => ?_ <;> simp [observe] at h
  | P, s, s', a :: as, hr => by
    obtain ⟨t, ht, hr⟩ := of_run_cons hr
    have ih := forall_observe (f := f) (P := fun pre o => P (f s a :: pre) o) hr
    simp only [observe, ht, Option.elim_some]
    constructor
    · rintro h pre b post u has hu
      rcases pre with _ | ⟨c, pre⟩
      · rw [List.nil_append, List.cons.injEq] at has
        simp only [run, Option.some.injEq] at hu
        obtain ⟨rfl, rfl⟩ := has
        subst hu
        exact h [] _ _ rfl
      · rw [List.cons_append, List.cons.injEq] at has
        obtain ⟨rfl, rfl⟩ := has
        rw [run_cons pre ht] at hu
        simp only [observe, ht, Option.elim_some]
        refine ih.1 (fun pre' o post' h' => h (f s a :: pre') o post' ?_) pre b post u rfl hu
        rw [h', List.cons_append]
    · rintro h pre o post hops
      rcases pre with _ | ⟨c, pre⟩
      · rw [List.nil_append, List.cons.injEq] at hops
        exact hops.1 ▸ h [] a as s rfl rfl
      · rw [List.cons_append, List.cons.injEq] at hops
        obtain ⟨rfl, hops⟩ := hops
        refine ih.2 (fun pre' b post' u h' hu => ?_) pre o post hops
        have := h (a :: pre') b post' u (by rw [h', List.cons_append])
          (by rw [run_cons pre' ht, hu])
        simpa only [observe, ht, Option.elim_some] using this

instance decidableAlong (ok : S → A → Prop) [∀ s a, Decidable (ok s a)] : ∀ (s : S) (as : List A),
    Decidable (Along step ok s as)
  | _, [] => isTrue trivial
  | s, a :: as =>
    match h : step s a with
    | none => decidable_of_iff (ok s a) (by simp [Along, h])
    | some s' =>
      have := decidableAlong ok s' as
      decidable_of_iff (ok s a ∧ Along step ok s' as) (by simp [Along, h])

instance decidableThroughout (I : S → Prop) [∀ s, Decidable (I s)] : ∀ (s : S) (as : List A),
    Decidable (Throughout step I s as)
  | s, [] => inferInstanceAs (Decidable (I s))
  | s, a :: as =>
    match h : step s a with
    | none => decidable_of_iff (I s) (by simp [Throughout, h])
    | some s' =>
      have := decidableThroughout I s' as
      decidable_of_iff (I s ∧ Throughout step I s' as) (by simp [Throughout, h])

theorem Reaches.refl (s : S) : Reaches step s s := ⟨[], rfl⟩

theorem Reaches.trans {s t u : S} (h : Reaches step s t) (h' : Reaches step t u) :
    Reaches step s u := by
  obtain ⟨as, h⟩ := h
  obtain ⟨bs, h'⟩ := h'
  exact ⟨as ++ bs, by rw [run_append, h, Option.bind_some, h']⟩

theorem Reaches.tail {s t u : S} {a : A} (h : Reaches step s t) (ha : step t a = some u) :
    Reaches step s u := by
  obtain ⟨as, h⟩ := h
  exact ⟨as ++ [a], by rw [run_append, h]; simp [run, ha]⟩

theorem Reaches.head {s t u : S} {a : A} (ha : step s a = some t) (h : Reaches step t u) :
    Reaches step s u := by
  obtain ⟨as, h⟩ := h
  exact ⟨a :: as, by rw [run_cons as ha, h]⟩

theorem Throughout.head {I : S → Prop} {s : S} : ∀ {as : List A}, Throughout step I s as → I s
  | [], h => h
  | _ :: _, h => h.1

theorem Throughout.last {I : S → Prop} : ∀ {s s' : S} {as : List A},
    Throughout step I s as → run step s as = some s' → I s'
  | s, s', [], h, hr => by
    simp only [run, Option.some.injEq] at hr
    exact hr ▸ h
  | s, s', a :: as, h, hr => by
    obtain ⟨t, ht, hr⟩ := of_run_cons hr
    exact (h.2 t ht).last hr

/-- Two systems that agree on the steps to where an invariant holds have the same runs there. -/
theorem run_congr {step' : S → A → Option S} {I : S → Prop}
    (heq : ∀ s a, (∀ s', step s a = some s' → I s') → step' s a = step s a) :
    ∀ {s : S} {as : List A}, Throughout step I s as → run step' s as = run step s as
  | _, [], _ => rfl
  | s, a :: as, h => by
    have hs : step' s a = step s a := heq s a fun s' hs' => (h.2 s' hs').head
    rw [run, run, hs]
    rcases hstep : step s a with _ | t
    · rfl
    · exact run_congr heq (h.2 t hstep)

theorem Throughout.mono {I J : S → Prop} (h : ∀ s, I s → J s) :
    ∀ {s : S} {as : List A}, Throughout step I s as → Throughout step J s as
  | _, [], hi => h _ hi
  | _, _ :: _, hi => ⟨h _ hi.1, fun s' hs => (hi.2 s' hs).mono h⟩

theorem Throughout.and {I J : S → Prop} : ∀ {s : S} {as : List A},
    Throughout step I s as → Throughout step J s as → Throughout step (fun s => I s ∧ J s) s as
  | _, [], hi, hj => ⟨hi, hj⟩
  | _, _ :: _, hi, hj => ⟨⟨hi.1, hj.1⟩, fun s' hs => (hi.2 s' hs).and (hj.2 s' hs)⟩

theorem throughout_cons {I : S → Prop} {s t : S} {a : A} {as : List A} (ht : step s a = some t) :
    Throughout step I s (a :: as) ↔ I s ∧ Throughout step I t as :=
  and_congr_right fun _ => by simp [ht]

theorem along_cons {ok : S → A → Prop} {s t : S} {a : A} {as : List A} (ht : step s a = some t) :
    Along step ok s (a :: as) ↔ ok s a ∧ Along step ok t as :=
  and_congr_right fun _ => by simp [ht]

theorem along_true : ∀ {s : S} {as : List A}, Along step (fun _ _ => True) s as
  | _, [] => trivial
  | _, _ :: _ => ⟨trivial, fun _ _ => along_true⟩

theorem along_of_forall {p : A → Prop} : ∀ {s : S} {as : List A}, (∀ a ∈ as, p a) →
    Along step (fun _ a => p a) s as
  | _, [], _ => trivial
  | _, _ :: _, h => ⟨h _ List.mem_cons_self, fun _ _ =>
    along_of_forall fun a ha => h a (List.mem_cons_of_mem _ ha)⟩

theorem Along.mono {ok ok' : S → A → Prop} (h : ∀ s a, ok s a → ok' s a) :
    ∀ {s : S} {as : List A}, Along step ok s as → Along step ok' s as
  | _, [], _ => trivial
  | _, _ :: _, ha => ⟨h _ _ ha.1, fun s' hs => (ha.2 s' hs).mono h⟩

theorem Along.and {ok ok' : S → A → Prop} : ∀ {s : S} {as : List A},
    Along step ok s as → Along step ok' s as → Along step (fun s a => ok s a ∧ ok' s a) s as
  | _, [], _, _ => trivial
  | _, _ :: _, h, h' => ⟨⟨h.1, h'.1⟩, fun s' hs => (h.2 s' hs).and (h'.2 s' hs)⟩

theorem Along.append {ok : S → A → Prop} : ∀ {s t : S} {as bs : List A},
    Along step ok s as → run step s as = some t → Along step ok t bs → Along step ok s (as ++ bs)
  | s, t, [], bs, _, hr, hb => by
    simp only [run, Option.some.injEq] at hr
    exact hr ▸ hb
  | s, t, a :: as, bs, ha, hr, hb => by
    obtain ⟨u, hu, hr⟩ := of_run_cons hr
    refine ⟨ha.1, fun s' hs => ?_⟩
    obtain rfl : u = s' := by simpa [hu] using hs
    exact (ha.2 u hu).append hr hb

/-- Along the run is wherever it takes an action. -/
theorem along_iff {ok : S → A → Prop} : ∀ {s : S} {as : List A}, Along step ok s as ↔
    ∀ pre a post t, as = pre ++ a :: post → run step s pre = some t → ok t a
  | s, [] => iff_of_true trivial fun pre a post t h => by simp at h
  | s, a :: as => by
    constructor
    · rintro ⟨ha, h⟩ (_ | ⟨b, pre⟩) c post t heq hr
      · obtain ⟨rfl, rfl⟩ := List.cons.inj heq
        simp only [run, Option.some.injEq] at hr
        exact hr ▸ ha
      · obtain ⟨rfl, rfl⟩ := List.cons.inj heq
        obtain ⟨u, hu, hr⟩ := of_run_cons hr
        exact along_iff.1 (h u hu) pre c post t rfl hr
    · intro h
      refine ⟨h [] a as s rfl rfl, fun u hu => along_iff.2 fun pre c post t heq hr => ?_⟩
      exact h (a :: pre) c post t (by rw [heq, List.cons_append]) (by rw [run_cons pre hu, hr])

/-- Each step of a run is taken, and the end of the run is reached from where it leads. -/
theorem along_reaches : ∀ {s s' : S} {as : List A}, run step s as = some s' →
    Along step (fun t a => ∀ t', step t a = some t' → Reaches step t' s') s as
  | _, _, [], _ => trivial
  | s, s', a :: as, h => by
    obtain ⟨t, ht, hr⟩ := of_run_cons h
    refine ⟨fun t' ht' => ⟨as, ?_⟩, fun t' ht' => ?_⟩
    · rwa [← Option.some.inj (ht.symm.trans ht')]
    · rw [← Option.some.inj (ht.symm.trans ht')]
      exact along_reaches hr

/-- What each step taken under `ok` keeps, a run along `ok` keeps. -/
theorem run_induction {ok : S → A → Prop} {I : S → Prop}
    (hstep : ∀ s a s', ok s a → step s a = some s' → I s → I s') :
    ∀ {s s' : S} {as : List A}, Along step ok s as → run step s as = some s' → I s → I s'
  | s, s', [], _, hr, hi => by
    simp only [run, Option.some.injEq] at hr
    exact hr ▸ hi
  | s, s', a :: as, ha, hr, hi => by
    obtain ⟨t, ht, hr⟩ := of_run_cons hr
    exact run_induction hstep (ha.2 t ht) hr (hstep s a t ha.1 ht hi)

/-- It holds in every state on the way, too. -/
theorem throughout_induction {ok : S → A → Prop} {I : S → Prop}
    (hstep : ∀ s a s', ok s a → step s a = some s' → I s → I s') :
    ∀ {s : S} {as : List A}, Along step ok s as → I s → Throughout step I s as
  | _, [], _, hi => hi
  | s, a :: _, ha, hi =>
    ⟨hi, fun t ht => throughout_induction hstep (ha.2 t ht) (hstep s a t ha.1 ht hi)⟩

/-- Where an invariant is enough for a step to be taken and is kept by it, every run is taken. -/
theorem run_total {I : S → Prop} (hstep : ∀ s a, I s → ∃ s', step s a = some s' ∧ I s') :
    ∀ {s : S} (as : List A), I s → ∃ s', run step s as = some s' ∧ I s'
  | s, [], hi => ⟨s, rfl, hi⟩
  | s, a :: as, hi => by
    obtain ⟨t, ht, hi⟩ := hstep s a hi
    rw [run_cons as ht]
    exact run_total hstep as hi

/-- So is what each step keeps together with what has been said of the steps so far. -/
theorem observe_induction {O : Type*} (f : S → A → O) {ok : S → A → Prop} {I : S → List O → Prop}
    (hstep : ∀ s a s' os, ok s a → step s a = some s' → I s os → I s' (os ++ [f s a])) :
    ∀ {s s' : S} {as : List A} (os : List O), Along step ok s as → run step s as = some s' →
      I s os → I s' (os ++ observe step f s as)
  | s, s', [], os, _, hr, hi => by
    simp only [run, Option.some.injEq] at hr
    rw [observe, List.append_nil]
    exact hr ▸ hi
  | s, s', a :: as, os, ha, hr, hi => by
    obtain ⟨t, ht, hr⟩ := of_run_cons hr
    have ih := observe_induction f hstep _ (ha.2 t ht) hr (hstep s a t os ha.1 ht hi)
    rw [observe, ht, Option.elim_some]
    rwa [List.append_assoc] at ih

/-- An invariant that the condition keeps holds wherever the run takes a step. -/
theorem along_induction {ok : S → A → Prop} {I : S → Prop}
    (hstep : ∀ s a s', ok s a → step s a = some s' → I s → I s') :
    ∀ {s : S} {as : List A}, Along step ok s as → I s → Along step (fun s a => I s ∧ ok s a) s as
  | _, [], _, _ => trivial
  | s, a :: _, ha, hi =>
    ⟨⟨hi, ha.1⟩, fun t ht => along_induction hstep (ha.2 t ht) (hstep s a t ha.1 ht hi)⟩

/-- Two conditions that agree wherever an invariant holds hold along the same runs. -/
theorem along_congr {ok ok' : S → A → Prop} {I : S → Prop}
    (hstep : ∀ s a s', step s a = some s' → I s → I s') (h : ∀ s a, I s → (ok s a ↔ ok' s a)) :
    ∀ {s : S} {as : List A}, I s → (Along step ok s as ↔ Along step ok' s as)
  | _, [], _ => Iff.rfl
  | s, a :: _, hi => and_congr (h s a hi) <| forall_congr' fun t => forall_congr' fun ht =>
    along_congr hstep h (hstep s a t ht hi)

/-- `P` holds throughout and `Q` along the run just when each step is one that keeps the invariant,
if any other step breaks `P` or `Q`. -/
theorem along_and_throughout_iff {I P : S → Prop} {Q c ok : S → A → Prop} (hP : ∀ s, I s → P s)
    (keep : ∀ s a s', c s a → ok s a → step s a = some s' → I s → Q s a ∧ I s')
    (break_ : ∀ s a s', c s a → step s a = some s' → I s → Q s a → P s' → ok s a) :
    ∀ {s s' : S} {as : List A}, Along step c s as → run step s as = some s' → I s →
      (Along step Q s as ∧ Throughout step P s as ↔ Along step ok s as)
  | s, _, [], _, _, hi => iff_of_true ⟨trivial, hP s hi⟩ trivial
  | s, s', a :: as, hc, hr, hi => by
    obtain ⟨t, ht, hr⟩ := of_run_cons hr
    have ih := along_and_throughout_iff hP keep break_ (hc.2 t ht) hr
    rw [throughout_cons ht, along_cons ht, along_cons ht]
    constructor
    · rintro ⟨⟨hq, hqs⟩, -, h⟩
      have ha := break_ s a t hc.1 ht hi hq h.head
      exact ⟨ha, (ih (keep s a t hc.1 ha ht hi).2).1 ⟨hqs, h⟩⟩
    · rintro ⟨ha, h⟩
      obtain ⟨hq, hi'⟩ := keep s a t hc.1 ha ht hi
      obtain ⟨hqs, h⟩ := (ih hi').2 h
      exact ⟨⟨hq, hqs⟩, hP s hi, h⟩

/-- `P` is what each step along `ok` keeps and each other step breaks, among the runs along `c`. -/
theorem throughout_iff_along {I P : S → Prop} {c ok : S → A → Prop} (hP : ∀ s, I s → P s)
    (keep : ∀ s a s', c s a → ok s a → step s a = some s' → I s → I s')
    (break_ : ∀ s a s', c s a → step s a = some s' → I s → P s' → ok s a) {s s' : S} {as : List A}
    (hc : Along step c s as) (hr : run step s as = some s') (hi : I s) :
    Throughout step P s as ↔ Along step ok s as := by
  rw [← along_and_throughout_iff (Q := fun _ _ => True) hP
    (fun s a s' hc ha hs hi => ⟨trivial, keep s a s' hc ha hs hi⟩)
    (fun s a s' hc hs hi _ hp => break_ s a s' hc hs hi hp) hc hr hi]
  exact (and_iff_right along_true).symm

/-- Where each step is matched by one of another system, or by none, and what `g` says of it is what
`g'` says of that, so is a run. -/
theorem refines {T B O : Type*} {step' : T → B → Option T} {f : A → Option B} {g : S → A → List O}
    {g' : T → B → O} {R : S → T → Prop} {ok : S → A → Prop}
    (hstep : ∀ s a s' t, ok s a → step s a = some s' → R s t →
      ∃ t', run step' t (f a).toList = some t'
        ∧ g s a = observe step' g' t (f a).toList ∧ R s' t') :
    ∀ {s s' : S} {as : List A} {t : T}, Along step ok s as → run step s as = some s' → R s t →
      ∃ t', run step' t (as.filterMap f) = some t'
        ∧ (observe step g s as).flatten = observe step' g' t (as.filterMap f) ∧ R s' t'
  | s, s', [], t, _, hr, hR => by
    simp only [run, Option.some.injEq] at hr
    exact ⟨t, rfl, rfl, hr ▸ hR⟩
  | s, s', a :: as, t, ha, hr, hR => by
    obtain ⟨u, hu, hr⟩ := of_run_cons hr
    obtain ⟨t', ht', hg, hR⟩ := hstep s a u t ha.1 hu hR
    obtain ⟨t'', ht'', hgs, hR⟩ := refines hstep (ha.2 u hu) hr hR
    have hcons : (a :: as).filterMap f = (f a).toList ++ as.filterMap f := by
      rcases h : f a with _ | b <;> simp [h]
    refine ⟨t'', ?_, ?_, hR⟩
    · rw [hcons, run_append, ht', Option.bind_some, ht'']
    · rw [hcons, observe_append _ ht', observe, hu, Option.elim_some, List.flatten_cons, hg, hgs]

/-- What a run comes to, by evaluation. -/
theorem exists_of_any {o : Option S} {p : S → Prop} [DecidablePred p] (h : o.any fun s => p s) :
    ∃ s, o = some s ∧ p s := by
  obtain ⟨s, hs, hp⟩ := (Option.any_eq_true _ _).1 h
  exact ⟨s, hs, of_decide_eq_true hp⟩

theorem reaches_induction {I : S → Prop} (hstep : ∀ s a s', step s a = some s' → I s → I s')
    {s s' : S} (h : Reaches step s s') (hi : I s) : I s' := by
  obtain ⟨as, h⟩ := h
  exact run_induction (fun s a s' _ => hstep s a s') along_true h hi

end Run
