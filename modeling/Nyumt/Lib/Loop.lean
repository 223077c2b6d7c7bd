import Mathlib.Data.List.Basic

/-!
# Loops that are left by a break

A pass of a loop goes on to the next one, or breaks out of the loop it is in and of so many around
it. A loop that takes a pass for each element of a list is itself a statement of the loop around it
(`forEach`), and hands on only a break that goes further than itself. `polls` is the outermost loop
over what is observed at each pass; it says at which pass it is left, if at all.
-/

universe u

namespace Loop

/-- How a pass ends; `brk n` leaves `n` loops beside its own. -/
inductive Flow
  | next
  | brk (n : ℕ)
  deriving DecidableEq

def Flow.breaks : Flow → Bool
  | .next => false
  | .brk _ => true

/-- What a loop that is left so tells the one around it. -/
def Flow.leave : Flow → Flow
  | .next | .brk 0 => .next
  | .brk (n + 1) => .brk n

variable {α : Type u} (body : α → Flow)

def forEach : List α → Flow
  | [] => .next
  | x :: xs =>
    match body x with
    | .next => forEach xs
    | .brk n => (Flow.brk n).leave

def polls : List α → Option ℕ
  | [] => none
  | x :: xs =>
    match body x with
    | .next => (polls xs).map (· + 1)
    | .brk _ => some 0

variable {body} {xs : List α}

/-- A loop ends as its first pass that breaks says. -/
theorem forEach_eq : forEach body xs = ((xs.map body).find? Flow.breaks).elim .next Flow.leave := by
  induction xs with
  | nil => rfl
  | cons x xs ih =>
    rw [forEach, List.map_cons, List.find?_cons]
    rcases body x with _ | n
    · exact ih
    · rfl

/-- A loop that only breaks out of itself is nothing to the loop around it. -/
theorem forEach_eq_next (h : ∀ x ∈ xs, body x = .next ∨ body x = .brk 0) :
    forEach body xs = .next := by
  rw [forEach_eq]
  rcases hf : (xs.map body).find? Flow.breaks with _ | f
  · rfl
  · obtain ⟨x, hx, rfl⟩ := List.mem_map.1 (List.mem_of_find?_eq_some hf)
    rcases h x hx with hb | hb <;> rw [Option.elim_some, hb] <;> rfl

theorem polls_eq : polls body xs = xs.findIdx? fun x => (body x).breaks := by
  induction xs with
  | nil => rfl
  | cons x xs ih =>
    rw [polls, List.findIdx?_cons]
    rcases hb : body x with _ | n
    · simp [ih, Flow.breaks]
    · simp [Flow.breaks]

theorem polls_eq_none_iff : polls body xs = none ↔ ∀ x ∈ xs, body x = .next := by
  rw [polls_eq, List.findIdx?_eq_none_iff]
  exact forall₂_congr fun x _ => by cases body x <;> simp [Flow.breaks]

end Loop
