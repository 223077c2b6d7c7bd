import Mathlib.Data.List.Infix
import Nyumt.Proofs.Transport

/-!
# A connection under attack

Between the ends of a connection there is a network that may bring each of them any bytes at any
time, and an io that may fail. What an end gives is then still what the other one has accepted, as
long as nothing it has read opens but what was sealed for that place (`given_prefix_of_attacked`).
-/

namespace Nyumt.Noise.Connection

open NoiseOutput Run

variable {κ : Type}

section Attack

variable (C : CipherState κ)

/-- A poll by one of the ends, or other bytes that the network has for one of them. -/
def attacked (c : Connection κ) : Act ⊕ Bool × Incoming → Option (Connection κ)
  | .inl a => c.step C a
  | .inr (e, inc) => some { c with incoming := Function.update c.incoming e inc }

/-- What passes from end `e` to the other one, under attack. -/
def attackedPasses (e : Bool) (c : Connection κ) : Act ⊕ Bool × Incoming → Passed
  | .inl a => passes C e c a
  | .inr _ => {}

def attackedPassed (e : Bool) (c : Connection κ) (as : List (Act ⊕ Bool × Incoming)) :
    List Passed :=
  observe (attacked C) (attackedPasses C e) c as

end Attack

variable {C : CipherState κ} {c c' : Connection κ} {e : Bool}

/-- What is sealed on one side, and what is opened on the other. -/
structure Seals (C : CipherState κ) (e : Bool) (k : κ) (c : Connection κ) (os : List Passed) :
    Prop where
  sealed : os.flatMap Passed.accepted = (os.flatMap Passed.sealed).flatten ++ (c.ends e).gathered
  data : (c.ends !e).io.readState.data <:+ os.flatMap Passed.read
  opened : ∃ msgs ps, Opens C k msgs ps (c.ends !e).receiver.key
    ∧ (∀ msg ∈ msgs, msg <:+: os.flatMap Passed.read)
    ∧ ps.flatten = os.flatMap Passed.given ++ (c.ends !e).receiver.rest

theorem seals_step (hg : ∀ e, (c.ends e).Gathers) {a : Act} (h : c.step C a = some c') {k : κ}
    {os : List Passed} (hs : Seals C e k c os) : Seals C e k c' (os ++ [passes C e c a]) := by
  obtain ⟨hsealed, hdata, msgs, ps, hopens, hmsgs, hps⟩ := hs
  cases step_way hg h e with
  | writes out _ _ hmoves hread hgiven hends =>
    refine ⟨?_, ?_, msgs, ps, ?_, ?_, ?_⟩
    · have happend := hmoves.sealed_append (hg e)
      simp only [List.flatMap_append, List.flatMap_singleton, List.flatten_append]
      rw [hsealed, List.append_assoc, happend, List.append_assoc]
    · simpa [hread, hends] using hdata
    · rw [hends]
      exact hopens
    · simpa [hread] using hmsgs
    · simpa [hgiven, hends] using hps
  | @reads room polls hact haccepted hnone hread hinc hreader hgiven hends =>
    obtain ⟨taken, msgs', ps', htaken, hdata', hopens', hmsgs', hrest⟩ :=
      (pollRead_reads (C := C) polls (c.incoming !e) (c.ends !e) room).opened
    rw [← hinc, hread] at htaken
    obtain rfl := List.append_cancel_right htaken
    rw [← hreader] at hdata' hopens' hrest
    have hsuf := suffix_append_right hdata (passes C e c a).read
    refine ⟨?_, ?_, msgs ++ msgs', ps ++ ps', hopens.append hopens', ?_, ?_⟩
    · simpa [haccepted, hnone, hends] using hsealed
    · simpa using hdata'.trans hsuf
    · intro msg hmsg
      rw [List.flatMap_append, List.flatMap_singleton]
      rcases List.mem_append.1 hmsg with hmsg | hmsg
      · exact (hmsgs msg hmsg).trans (List.prefix_append _ _).isInfix
      · exact (hmsgs' msg hmsg).trans hsuf.isInfix
    · rw [List.flatten_append, hps, List.append_assoc, hrest, ← hgiven]
      simp
  | neither hp hsender hr hinc =>
    have hstate : (c'.ends !e).io.readState = (c.ends !e).io.readState := congrArg Receiver.state hr
    have hgathered : (c'.ends e).gathered = (c.ends e).gathered := congrArg Sender.gathered hsender
    refine ⟨?_, ?_, msgs, ps, ?_, ?_, ?_⟩
    · simpa [hp, hgathered] using hsealed
    · simpa [hp, hstate] using hdata
    · rw [hr]
      exact hopens
    · simpa [hp] using hmsgs
    · simpa [hp, hr] using hps

theorem seals_run (key : Bool → κ) {as : List (Act ⊕ Bool × Incoming)}
    (h : run (attacked C) (start key) as = some c) (e : Bool) :
    Seals C e (key e) c (attackedPassed C e (start key) as) := by
  have hok : Along (attacked C) (fun _ _ => True) (start key) as := along_true
  have hrun := observe_induction (attackedPasses C e)
    (I := fun c os => (∀ e, (c.ends e).Gathers) ∧ Seals C e (key e) c os) ?_ [] hok h
    ⟨gathers_start key, ?_⟩
  · exact hrun.2
  · rintro c (a | ⟨e', inc⟩) c' os - hstep ⟨hg, hs⟩
    · exact ⟨gathers_step hg hstep, seals_step hg hstep hs⟩
    · simp only [attacked, Option.some.injEq] at hstep
      subst hstep
      refine ⟨hg, ?_⟩
      obtain ⟨hsealed, hdata, hopened⟩ := hs
      have hnone : attackedPasses C e c (.inr (e', inc)) = {} := rfl
      refine ⟨?_, ?_, ?_⟩ <;> simpa [hnone]
  · refine ⟨rfl, List.suffix_rfl, [], [], ?_, fun _ h => (by cases h), rfl⟩
    show Opens C (key e) [] [] (key !!e)
    rw [Bool.not_not]
    exact .nil

/-- Whatever the network brings and however the io fails, an end gives what the other one has
accepted, in that order, if no piece of what it has read opens with the key of some place to
anything but what was sealed for that place. -/
theorem given_prefix_of_attacked {next : κ → κ}
    (hnext : ∀ k msg p k', C.decrypt k msg = some (p, k') → k' = next k) (key : Bool → κ)
    {as : List (Act ⊕ Bool × Incoming)} (h : run (attacked C) (start key) as = some c) (e : Bool)
    (hsealed : ∀ j msg p k', msg <:+: (attackedPassed C e (start key) as).flatMap Passed.read →
      C.decrypt (next^[j] (key e)) msg = some (p, k') →
        ((attackedPassed C e (start key) as).flatMap Passed.sealed)[j]? = some p) :
    (attackedPassed C e (start key) as).flatMap Passed.given
      <+: (attackedPassed C e (start key) as).flatMap Passed.accepted := by
  obtain ⟨haccepted, -, msgs, ps, hopens, hmsgs, hps⟩ := seals_run key h e
  have hpre : ps <+: (attackedPassed C e (start key) as).flatMap Passed.sealed := by
    rw [List.prefix_iff_getElem?]
    intro j hj
    obtain ⟨msg, hmsg, k', hdec⟩ := hopens.of_getElem? hnext (List.getElem?_eq_getElem hj)
    exact hsealed j msg _ k' (hmsgs msg hmsg) hdec
  have hflat := List.IsPrefix.flatten hpre
  rw [hps] at hflat
  rw [haccepted]
  exact ((List.prefix_append _ _).trans hflat).trans (List.prefix_append _ _)

/-- A message behind its place, one byte for each before it, and its length. -/
def numbered (k : ℕ) (p : Bytes) : Bytes := List.replicate k 254 ++ 255 :: .ofNat p.length :: p

/-- A cipher whose key is the number of messages before, which opens those that are so numbered. -/
def numbering : CipherState ℕ where
  encrypt k p room :=
    if p.length < 256 ∧ (numbered k p).length ≤ room then some (numbered k p, k + 1) else none
  decrypt k c :=
    let p := c.drop (k + 2)
    if p.length < 256 ∧ c = numbered k p then some (p, k + 1) else none

theorem of_numbering {k k' : ℕ} {c p : Bytes} (h : numbering.decrypt k c = some (p, k')) :
    c = numbered k p ∧ k' = k + 1 := by
  simp only [numbering, Option.ite_none_right_eq_some, Option.some.injEq, Prod.mk.injEq] at h
  obtain ⟨⟨-, hc⟩, rfl, rfl⟩ := h
  exact ⟨hc, rfl⟩

/-- A frame comes and is read in part; then the network brings one of its own. -/
def forged : List (Act ⊕ Bool × Incoming) :=
  [.inl (.write false [7, 8, 9] []), .inl (.flush false ⟨[], [.upTo 2, .upTo 60], .pending⟩),
    .inl (.read true 2 [[.error], [.upTo 9]]), .inl (.read true 2 [[.upTo 9, .upTo 9]]),
    .inr (true, ⟨[0, 2, 7, 8], false⟩), .inl (.read true 9 []),
    .inl (.read true 9 [[.upTo 9, .upTo 9]])]

theorem given_prefix_of_attacked_once :
    (attackedPassed numbering false (start fun _ => 0) forged).flatMap Passed.given
      <+: (attackedPassed numbering false (start fun _ => 0) forged).flatMap Passed.accepted := by
  obtain ⟨c, h⟩ := Option.isSome_iff_exists.1
    (show (run (attacked numbering) (start fun _ => 0) forged).isSome by decide +kernel)
  refine given_prefix_of_attacked (fun k msg p k' hdec => (of_numbering hdec).2) _ h false
    fun j msg p k' hmsg hdec => ?_
  have hread : (attackedPassed numbering false (start fun _ => 0) forged).flatMap Passed.read
      = [0, 5, 255, 3, 7, 8, 9, 0, 2, 7, 8] := by decide +kernel
  rw [hread] at hmsg
  cases j with
  | zero =>
    obtain ⟨t, hpre, hsuf⟩ := List.infix_iff_prefix_suffix.1 hmsg
    have hall : ∀ t ∈ List.tails [0, 5, 255, 3, 7, 8, 9, 0, 2, 7, 8], ∀ msg ∈ t.inits,
        ∀ r ∈ numbering.decrypt 0 msg, r.1 = [7, 8, 9] := by decide +kernel
    obtain rfl := hall t ((List.mem_tails _ _).2 hsuf) msg ((List.mem_inits _ _).2 hpre) _ hdec
    decide +kernel
  | succ j =>
    -- the message would begin with a byte that was never read
    rw [Function.iterate_succ_apply'] at hdec
    have hmem : 254 ∈ msg := by
      rw [(of_numbering hdec).1]
      simp [numbered]
    exact absurd (hmsg.subset hmem) (by decide)

example : (attackedPassed numbering false (start fun _ => 0) forged).flatMap Passed.given
    = [7, 8, 9] := by
  decide +kernel

end Nyumt.Noise.Connection
