import Nyumt.Lib.Run

/-!
# Retry loops

A loop whose passes are counted: each is the one after the last, or one more try, which raises the
counter and is made only below a limit. The limit may be another one at each try, as long as none is
above a cap; then the counter stays within the cap (`retry_le`), and there is one pass more than the
cap allows tries (`passes_le`).
-/

/-- Where a program is: its line, and the counter of the loop it is in. -/
structure RetryLoop.Pos where
  line : ℕ
  retry : ℕ
  deriving DecidableEq

/-- The lines of a loop, and what no limit is above. -/
structure RetryLoop where
  first : ℕ
  last : ℕ
  cap : ℕ
  first_le_last : first ≤ last

namespace RetryLoop

variable (L : RetryLoop)

def Inside (p : Pos) : Prop := L.first ≤ p.line ∧ p.line ≤ L.last

instance : DecidablePred L.Inside := fun _ => inferInstanceAs (Decidable (_ ∧ _))

/-- From where to where a step leads. -/
inductive Goes : Pos → Pos → Prop
  | ahead {p q : Pos} (hp : p.line < L.first) (hq : q.line < L.first) : Goes p q
  | enter {p : Pos} (hp : p.line < L.first) : Goes p ⟨L.first, 0⟩
  | on {p q : Pos} (hp : L.first ≤ p.line) (hline : p.line < q.line) (h : q.retry = p.retry) :
      Goes p q
  | again {p : Pos} (hp : L.Inside p) (hcap : p.retry < L.cap) : Goes p ⟨L.first, p.retry + 1⟩
  | leave {p q : Pos} (hq : L.last < q.line) : Goes p q

/-- How many passes a program at `p` may still begin. -/
def left (p : Pos) : ℕ :=
  if p.line < L.first then L.cap + 1
  else if p.line ≤ L.last then L.cap - p.retry + (if p.line = L.first then 1 else 0)
  else 0

variable {L} {p q : Pos}

theorem left_before (h : p.line < L.first) : L.left p = L.cap + 1 := if_pos h

theorem left_first (h : p.line = L.first) : L.left p = L.cap - p.retry + 1 := by
  have hle := L.first_le_last
  rw [left, if_neg (by omega), if_pos (by omega), if_pos h]

theorem left_head (n : ℕ) : L.left ⟨L.first, n⟩ = L.cap - n + 1 := left_first rfl

theorem left_behind (h : L.first < p.line) (hle : p.line ≤ L.last) :
    L.left p = L.cap - p.retry := by
  rw [left, if_neg (by omega), if_pos hle, if_neg (by omega), Nat.add_zero]

theorem left_after (h : L.last < p.line) : L.left p = 0 := by
  have hle := L.first_le_last
  rw [left, if_neg (by omega), if_neg (by omega)]

/-- A pass that is begun was left. -/
theorem begun_le_left (p : Pos) : (if p.line = L.first then 1 else 0) ≤ L.left p := by
  split_ifs with h
  · rw [left_first h]
    exact Nat.le_add_left 1 _
  · exact Nat.zero_le _

/-- Beyond the first line of a pass, what is left is no more than before, but for that pass. -/
theorem left_on (hp : L.first ≤ p.line) (hline : p.line < q.line) (h : q.retry = p.retry) :
    (if p.line = L.first then 1 else 0) + L.left q ≤ L.left p := by
  rcases Nat.lt_or_ge L.last q.line with hq | hq
  · rw [left_after hq]
    exact begun_le_left p
  rw [left_behind (by omega) hq, h]
  split_ifs with hfirst
  · rw [left_first hfirst]
    omega
  · rw [left_behind (by omega) (by omega)]
    omega

theorem Goes.left_le (h : L.Goes p q) :
    (if p.line = L.first then 1 else 0) + L.left q ≤ L.left p := by
  cases h with
  | ahead hp hq =>
    rw [if_neg (by omega), left_before hp, left_before hq]
    omega
  | enter hp =>
    rw [if_neg (by omega), left_before hp, left_head]
    omega
  | on hp hline h => exact left_on hp hline h
  | again hp hcap =>
    rw [left_head]
    split_ifs with hfirst
    · rw [left_first hfirst]
      omega
    · obtain ⟨hge, hle⟩ := hp
      rw [left_behind (by omega) hle]
      omega
  | leave hq =>
    rw [left_after hq]
    exact begun_le_left p

theorem Goes.retry_le (h : L.Goes p q) (hp : L.Inside p → p.retry ≤ L.cap) :
    L.Inside q → q.retry ≤ L.cap := by
  rintro ⟨hfirst, hlast⟩
  cases h with
  | ahead _ hq => omega
  | enter => exact Nat.zero_le _
  | on hge hline h => exact h ▸ hp ⟨hge, by omega⟩
  | again _ hcap => exact hcap
  | leave hq => omega

section Run

variable {S A : Type*} {step : S → A → Option S} (pos : S → Pos)

/-- Before the loop and in it, the counter stays within the cap. -/
theorem retry_le (hgoes : ∀ s a s', step s a = some s' → L.Goes (pos s) (pos s')) {s : S}
    (hs : L.Inside (pos s) → (pos s).retry ≤ L.cap) (as : List A) :
    Run.Throughout step (fun s => L.Inside (pos s) → (pos s).retry ≤ L.cap) s as :=
  Run.throughout_induction (fun s a s' _ h => (hgoes s a s' h).retry_le) Run.along_true hs

/-- From before the loop on, no more passes are begun than there may be tries, and one. -/
theorem passes_le (hgoes : ∀ s a s', step s a = some s' → L.Goes (pos s) (pos s')) {s : S}
    (hs : (pos s).line < L.first) (as : List A) :
    (Run.observe step (fun s _ => s) s as).countP (fun s => (pos s).line = L.first)
      ≤ L.cap + 1 := by
  rw [← left_before hs]
  refine Run.countP_observe_le (φ := fun s => L.left (pos s)) (fun s a => ?_) s as
  simp only [decide_eq_true_eq]
  rcases h : step s a with _ | s'
  · exact begun_le_left (pos s)
  · exact (hgoes s a s' h).left_le

end Run

end RetryLoop
