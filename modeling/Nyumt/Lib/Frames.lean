import Mathlib.Data.List.Basic
import Mathlib.Tactic.SplitIfs

/-!
# Frames in a stream

A list of pieces written one after another, each behind a header of fixed width that gives its
length. What is read of such a stream at any point is some whole pieces and the beginning of the
next one, and there is one way only to see it so (`split_frames`).
-/

universe u

/-- Headers that give a length below `bound`. -/
structure Framing (α : Type u) where
  width : ℕ
  bound : ℕ
  encode : ℕ → List α
  decode : List α → ℕ
  width_pos : 0 < width
  length_encode : ∀ n, (encode n).length = width
  decode_encode : ∀ n < bound, decode (encode n) = n
  of_length : ∀ h : List α, h.length = width → decode h < bound ∧ encode (decode h) = h

namespace Framing

variable {α : Type u} (F : Framing α)

def frame (xs : List α) : List α := F.encode xs.length ++ xs

def frames (xss : List (List α)) : List α := xss.flatMap F.frame

/-- There is no whole frame at its beginning. -/
def Short (xs : List α) : Prop :=
  xs.length < F.width ∨ xs.length < F.width + F.decode (xs.take F.width)

def Fits (xss : List (List α)) : Prop := ∀ xs ∈ xss, xs.length < F.bound

/-- The pieces of the whole frames, and what is left. -/
def split (xs : List α) : List (List α) × List α :=
  if _h : F.width ≤ xs.length ∧ F.width + F.decode (xs.take F.width) ≤ xs.length then
    let n := F.decode (xs.take F.width)
    let r := split (xs.drop (F.width + n))
    ((xs.drop F.width).take n :: r.1, r.2)
  else ([], xs)
termination_by xs.length
decreasing_by
  have := F.width_pos
  simp only [List.length_drop]
  omega

variable {F}

@[simp] theorem frames_nil : F.frames [] = [] := rfl

@[simp] theorem frames_cons (xs : List α) (xss : List (List α)) :
    F.frames (xs :: xss) = F.encode xs.length ++ (xs ++ F.frames xss) := by
  simp [frames, frame]

@[simp] theorem frames_append (xss yss : List (List α)) :
    F.frames (xss ++ yss) = F.frames xss ++ F.frames yss := by
  simp [frames]

theorem Fits.nil : F.Fits [] := fun _ h => absurd h List.not_mem_nil

theorem fits_cons {xs : List α} {xss : List (List α)} :
    F.Fits (xs :: xss) ↔ xs.length < F.bound ∧ F.Fits xss :=
  List.forall_mem_cons

theorem fits_append {xss yss : List (List α)} : F.Fits (xss ++ yss) ↔ F.Fits xss ∧ F.Fits yss :=
  List.forall_mem_append

theorem frame_ne_nil (xs : List α) : F.frame xs ≠ [] := by
  intro h
  have hpos := F.width_pos
  have hlen := F.length_encode xs.length
  rw [(List.append_eq_nil_iff.1 h).1, List.length_nil] at hlen
  omega

/-- What is shorter than a frame begins no frames but one's own part. -/
theorem eq_nil_of_short {rest : List α} {xss : List (List α)} (hx : F.Fits xss)
    (hs : F.Short rest) (h : rest = F.frames xss) : rest = [] ∧ xss = [] := by
  rcases xss with _ | ⟨xs, xss⟩
  · exact ⟨h, rfl⟩
  · exfalso
    have hlen := F.length_encode xs.length
    have htake : rest.take F.width = F.encode xs.length := by
      rw [h, frames_cons, List.take_left' hlen]
    rw [Short, htake, F.decode_encode _ (fits_cons.1 hx).1, h, frames_cons, List.length_append,
      List.length_append, hlen] at hs
    omega

theorem split_of_short {xs : List α} (h : F.Short xs) : F.split xs = ([], xs) := by
  rw [split, dif_neg]
  rw [Short] at h
  omega

theorem split_cons {xs rest : List α} (h : xs.length < F.bound) :
    F.split (F.encode xs.length ++ (xs ++ rest)) = (xs :: (F.split rest).1, (F.split rest).2) := by
  have hlen := F.length_encode xs.length
  have htake : (F.encode xs.length ++ (xs ++ rest)).take F.width = F.encode xs.length :=
    List.take_left' hlen
  rw [split, htake, F.decode_encode _ h, dif_pos]
  · have hrest : (F.encode xs.length ++ (xs ++ rest)).drop (F.width + xs.length) = rest := by
      rw [← List.drop_drop, List.drop_left' hlen, List.drop_left]
    simp only [hrest, List.drop_left' hlen, List.take_left]
  · simp only [List.length_append, hlen]
    omega

theorem split_frames_append {rest : List α} : ∀ {xss : List (List α)}, F.Fits xss →
    F.split (F.frames xss ++ rest) = (xss ++ (F.split rest).1, (F.split rest).2)
  | [], _ => rfl
  | xs :: xss, hx => by
    obtain ⟨hxs, hxss⟩ := fits_cons.1 hx
    rw [frames_cons, List.append_assoc, List.append_assoc, split_cons hxs,
      split_frames_append hxss, List.cons_append]

/-- Whole frames are read back, whatever begins behind them. -/
theorem split_frames {xss : List (List α)} {rest : List α} (hx : F.Fits xss) (hs : F.Short rest) :
    F.split (F.frames xss ++ rest) = (xss, rest) := by
  rw [split_frames_append hx, split_of_short hs, List.append_nil]

/-- A stream is the frames it is split into. -/
theorem of_split (xs : List α) :
    F.frames (F.split xs).1 ++ (F.split xs).2 = xs ∧ F.Fits (F.split xs).1
      ∧ F.Short (F.split xs).2 := by
  rw [split]
  split_ifs with h
  · obtain ⟨hw, hn⟩ := h
    have hlen : (xs.take F.width).length = F.width := List.length_take_of_le hw
    obtain ⟨hbound, hhdr⟩ := F.of_length _ hlen
    obtain ⟨hrest, hfits, hshort⟩ := of_split (xs.drop (F.width + F.decode (xs.take F.width)))
    have hxs : ((xs.drop F.width).take (F.decode (xs.take F.width))).length
        = F.decode (xs.take F.width) := by
      rw [List.length_take, List.length_drop]
      omega
    refine ⟨?_, fits_cons.2 ⟨by rw [hxs]; exact hbound, hfits⟩, hshort⟩
    rw [frames_cons, hxs, hhdr, List.append_assoc, List.append_assoc, hrest, ← List.drop_drop,
      List.take_append_drop, List.take_append_drop]
  · refine ⟨rfl, .nil, ?_⟩
    show F.Short xs
    rw [Short]
    omega
termination_by xs.length
decreasing_by
  have := F.width_pos
  simp only [List.length_drop]
  omega

theorem Short.ne_frame {xs ys zs : List α} (hs : F.Short xs) (hy : ys.length < F.bound) :
    xs ≠ F.frame ys ++ zs := by
  intro h
  have hsplit := split_of_short hs
  rw [h, frame, List.append_assoc, split_cons hy, Prod.mk.injEq] at hsplit
  exact List.cons_ne_nil _ _ hsplit.1

/-- A frame is told from what is behind it. -/
theorem frame_append_inj {xs ys rest rest' : List α} (hx : xs.length < F.bound)
    (hy : ys.length < F.bound) (h : F.frame xs ++ rest = F.frame ys ++ rest') :
    xs = ys ∧ rest = rest' := by
  have hsplit := congrArg F.split h
  rw [frame, frame, List.append_assoc, List.append_assoc, split_cons hx, split_cons hy,
    Prod.mk.injEq] at hsplit
  obtain rfl := (List.cons.inj hsplit.1).1
  exact ⟨rfl, List.append_cancel_left h⟩

/-- No empty frames are before one that is not. -/
theorem eq_of_frame {k : ℕ} {xs rest rest' : List α} (hne : xs ≠ [])
    (hx : xs.length < F.bound) (h : F.frames (List.replicate k []) ++ rest = F.frame xs ++ rest') :
    rest = F.frame xs ++ rest' := by
  have hempty : F.Fits (List.replicate k []) := by
    intro ys hys
    rw [List.eq_of_mem_replicate hys]
    exact Nat.zero_lt_of_lt hx
  rcases k with _ | k
  · exact h
  · have hsplit := congrArg F.split h
    rw [split_frames_append hempty, frame, List.append_assoc, split_cons hx, Prod.mk.injEq,
      List.replicate_succ, List.cons_append, List.cons.injEq] at hsplit
    exact (hne hsplit.1.1.symm).elim

/-- What begins a stream and holds no whole frame is part of its first frame. -/
theorem Short.of_append {xs ys zs rest : List α} (hs : F.Short xs) (hy : ys.length < F.bound)
    (h : xs ++ rest = F.frame ys ++ zs) : ∃ more, F.frame ys = xs ++ more ∧ rest = more ++ zs := by
  rcases List.append_eq_append_iff.1 h with ⟨more, hframe, hrest⟩ | ⟨more, hxs, -⟩
  · exact ⟨more, hframe, hrest⟩
  · exact (hs.ne_frame hy hxs).elim

/-- Frames that begin some frames are the first of them. -/
theorem of_frames_append {xss yss : List (List α)} {rest : List α} (hx : F.Fits xss)
    (hy : F.Fits yss) (h : F.frames xss ++ rest = F.frames yss) :
    ∃ zss, yss = xss ++ zss ∧ rest = F.frames zss := by
  have hnil : F.Short [] := .inl F.width_pos
  have hsplit := split_frames hy hnil
  rw [List.append_nil, ← h, split_frames_append hx, Prod.mk.injEq] at hsplit
  refine ⟨(F.split rest).1, hsplit.1.symm, ?_⟩
  have hrest := (F.of_split rest).1
  rw [hsplit.2, List.append_nil] at hrest
  exact hrest.symm

end Framing
