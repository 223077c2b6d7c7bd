import Mathlib.Logic.Relation
import Nyumt.Lib.Run
import Nyumt.Proofs.InFlight

/-!
# What passes through a connection

A step of a connection is for each of its ways one that writes, one that reads, or neither
(`step_way`). However the io takes and gives the bytes, what is given at one end is what was
accepted at the other, up to some byte (`given_prefix`): up to the last one where a flush was
answered and the reader waits for more (`given_of_flush`), or where the stream was closed and is
read to its end (`given_of_eof`).
-/

namespace Nyumt.Noise

/-- A session becomes this one by a message that it reads or writes. -/
def SessionState.Next {σ : Type} (S : SessionState σ) (s s' : σ) : Prop :=
  (∃ msg p, S.readMessage s msg = some (p, s'))
    ∨ ∃ p room msg, S.writeMessage s p room = some (msg, s')

namespace Connection

open NoiseOutput Relation Run

variable {κ : Type}

/-- What passes from one end to the other in a step. -/
structure Passed where
  accepted : Bytes := []
  sealed : List Bytes := []
  /-- The bytes the io below has given. -/
  read : Bytes := []
  given : Bytes := []

section Passes

variable (C : CipherState κ)

/-- What passes from end `e` to the other one. -/
def passes (e : Bool) (c : Connection κ) : Act → Passed
  | .read e' room polls =>
    if e' = !e then
      let inc := c.incoming (!e)
      let (r, inc', _) := (c.ends (!e)).pollRead C.session inc room polls
      { read := inc.bytes.take (inc.bytes.length - inc'.bytes.length), given := r.bytes }
    else {}
  | .write e' buf as =>
    if e' = e then
      { accepted := ((c.ends e).pollWrite C.session buf as).elim [] fun r => r.1.accepted buf
        sealed :=
          if (c.ends e).sendOffset = maxFrameLen then (c.ends e).sealed C.session as else [] }
    else {}
  | .flush e' a | .close e' a _ _ _ =>
    if e' = e then
      { sealed := if 0 < (c.ends e).sendOffset then (c.ends e).sealed C.session a.ready else [] }
    else {}

def passed (e : Bool) (c : Connection κ) (as : List Act) : List Passed :=
  observe (step C) (passes C e) c as

/-- All that end `e` has accepted to write. -/
def accepted (e : Bool) (c : Connection κ) (as : List Act) : Bytes :=
  (passed C e c as).flatMap Passed.accepted

/-- All that the other end has given of what comes from end `e`. -/
def given (e : Bool) (c : Connection κ) (as : List Act) : Bytes :=
  (passed C e c as).flatMap Passed.given

end Passes

/-- What an end asks its io to write. -/
def Act.asks : Act → List (List IoWrite)
  | .read _ _ _ => []
  | .write _ _ as => [as]
  | .flush _ a => [a.ready, a.write]
  | .close _ a as _ _ => [a.ready, a.write, as]

variable {C : CipherState κ} {c c' : Connection κ} {e : Bool}

section Put

variable (e : Bool) (o : NoiseOutput (TransportState κ)) (out : Bytes) (closed : Bool)

@[simp] theorem put_ends : (c.put e o out closed).ends e = o := Function.update_self _ _ _

@[simp] theorem put_ends_not : (c.put e o out closed).ends (!e) = c.ends !e :=
  Function.update_of_ne (Bool.not_ne_self e) _ _

@[simp] theorem put_incoming : (c.put e o out closed).incoming e = c.incoming e :=
  Function.update_of_ne (Bool.self_ne_not e) _ _

@[simp] theorem put_incoming_not : (c.put e o out closed).incoming (!e)
    = ⟨(c.incoming !e).bytes ++ out, (c.incoming !e).closed || closed⟩ :=
  Function.update_self _ _ _

end Put

/-- An end that does not read takes moves that write, and what it writes comes to the other end. -/
theorem step_put (hg : ∀ e, (c.ends e).Gathers) {a : Act}
    (ha : ∀ e room polls, a ≠ .read e room polls) :
    ∃ o out closed, c.step C a = some (c.put a.by o out closed)
      ∧ (c.ends a.by).Moves C.session a.asks (passes C a.by c a).accepted (passes C a.by c a).sealed
        out o
      ∧ (closed → o.Idle) := by
  cases a with
  | read e room polls => exact (ha e room polls rfl).elim
  | write e buf as =>
    obtain ⟨r, o, out, h, hmoves⟩ :=
      pollWrite_moves (S := C.session) (List.mem_singleton_self as) (hg e) buf
    refine ⟨o, out, false, ?_, ?_, fun h => by cases h⟩
    · simp [step, h, Act.by]
    · show Moves _ _ _ (passes C e c _).accepted (passes C e c _).sealed _ _
      rw [passes, if_pos rfl, h]
      exact hmoves
  | flush e a =>
    have hasks : a.ready ∈ [a.ready, a.write] ∧ a.write ∈ [a.ready, a.write] := by simp
    obtain ⟨r, o, out, h, hmoves, -⟩ := pollFlush_moves (S := C.session) hasks (hg e)
    refine ⟨o, out, false, ?_, ?_, fun h => by cases h⟩
    · simp [step, h, Act.by]
    · show Moves _ _ _ (passes C e c _).accepted (passes C e c _).sealed _ _
      rw [passes, if_pos rfl]
      exact hmoves
  | close e a as io close =>
    have hasks : a.ready ∈ [a.ready, a.write, as] ∧ a.write ∈ [a.ready, a.write, as] := by simp
    have has : as ∈ [a.ready, a.write, as] := by simp
    obtain ⟨r, o, out, h, hmoves, hidle⟩ :=
      pollClose_moves (S := C.session) hasks has (hg e) io close
    refine ⟨o, out, r == .ready (.ok ()), ?_, ?_, fun h => hidle (beq_iff_eq.1 h)⟩
    · simp [step, h, Act.by]
    · show Moves _ _ _ (passes C e c _).accepted (passes C e c _).sealed _ _
      rw [passes, if_pos rfl]
      exact hmoves

/-- What a step is for the way from end `e` to the other one: that one writes, the other one reads,
or neither. -/
inductive Way (C : CipherState κ) (e : Bool) (c : Connection κ) (a : Act) (c' : Connection κ) : Prop
  | writes (out : Bytes) (ha : ∀ e room polls, a ≠ .read e room polls) (hby : a.by = e)
      (h : (c.ends e).Moves C.session a.asks (passes C e c a).accepted (passes C e c a).sealed out
        (c'.ends e))
      (hread : (passes C e c a).read = []) (hgiven : (passes C e c a).given = [])
      (hends : c'.ends (!e) = c.ends !e)
      (hbytes : (c'.incoming !e).bytes = (c.incoming !e).bytes ++ out)
      (hmono : (c.incoming !e).closed → (c'.incoming !e).closed)
      (hclosed : (c'.incoming !e).closed → (c.incoming !e).closed ∨ (c'.ends e).Idle)
  | reads {room : ℕ} {polls : List (List IoRead)} (ha : a = .read (!e) room polls)
      (haccepted : (passes C e c a).accepted = []) (hsealed : (passes C e c a).sealed = [])
      (hread : (c.incoming !e).bytes = (passes C e c a).read ++ (c'.incoming !e).bytes)
      (hinc : c'.incoming (!e) = ((c.ends !e).pollRead C.session (c.incoming !e) room polls).2.1)
      (hreader : c'.ends (!e) = ((c.ends !e).pollRead C.session (c.incoming !e) room polls).2.2)
      (hgiven : (passes C e c a).given
        = ((c.ends !e).pollRead C.session (c.incoming !e) room polls).1.bytes)
      (hends : c'.ends e = c.ends e)
  | neither (hp : passes C e c a = {}) (hs : (c'.ends e).sender = (c.ends e).sender)
      (hr : (c'.ends !e).receiver = (c.ends !e).receiver) (hinc : (c'.incoming !e) = c.incoming !e)

theorem Act.cases_by (a : Act) : (∃ e room polls, a = .read e room polls)
    ∨ ∀ e room polls, a ≠ .read e room polls := by
  cases a with
  | read e room polls => exact .inl ⟨e, room, polls, rfl⟩
  | write | flush | close => exact .inr fun _ _ _ h => by cases h

theorem step_way (hg : ∀ e, (c.ends e).Gathers) {a : Act} (h : c.step C a = some c') (e : Bool) :
    Way C e c a c' := by
  rcases a.cases_by with ⟨e', room, polls, rfl⟩ | ha
  · have hreads := pollRead_reads (C := C) polls (c.incoming e') (c.ends e') room
    simp only [step, Option.some.injEq] at h
    subst h
    by_cases he : e' = !e
    · subst he
      obtain ⟨taken, -, -, hbytes, -⟩ := hreads.opened
      have hp : passes C e c (.read (!e) room polls) = _ := if_pos rfl
      refine .reads rfl (by rw [hp]) (by rw [hp]) ?_ ?_ ?_ (by rw [hp]) ?_
      · dsimp only
        rw [hp, Function.update_self]
        dsimp only
        rw [hbytes, List.length_append, Nat.add_sub_cancel, List.take_left]
      · exact Function.update_self _ _ _
      · exact Function.update_self _ _ _
      · exact Function.update_of_ne (Bool.self_ne_not e) _ _
    · obtain rfl : e' = e := by
        cases e <;> cases e' <;> simp_all
      refine .neither (if_neg he) ?_ ?_ ?_
      · dsimp only
        rw [Function.update_self]
        exact hreads.sender
      · dsimp only
        rw [Function.update_of_ne (Bool.not_ne_self _)]
      · exact Function.update_of_ne (Bool.not_ne_self _) _ _
  · obtain ⟨o, out, closed, hput, hmoves, hidle⟩ := step_put hg ha
    rw [hput, Option.some.injEq] at h
    subst h
    by_cases he : a.by = e
    · subst he
      refine .writes out ha rfl ?_ ?_ ?_ (put_ends_not _ _ _ _) ?_ ?_ ?_
      · rw [put_ends]
        exact hmoves
      · cases a <;> first | exact (ha _ _ _ rfl).elim | simp [passes, Act.by]
      · cases a <;> first | exact (ha _ _ _ rfl).elim | simp [passes, Act.by]
      · rw [put_incoming_not]
      · rw [put_incoming_not]
        exact fun hclosed => Bool.or_eq_true_iff.2 (.inl hclosed)
      · rw [put_incoming_not, put_ends]
        intro hclosed
        rcases Bool.or_eq_true_iff.1 hclosed with hclosed | hclosed
        · exact .inl hclosed
        · exact .inr (hidle hclosed)
    · have hother : (!a.by) = e := by
        cases e <;> cases hby : a.by <;> simp_all
      subst hother
      refine .neither ?_ ?_ ?_ ?_
      · cases a <;> first | exact (ha _ _ _ rfl).elim | simp_all [passes, Act.by]
      · rw [put_ends_not]
      · rw [Bool.not_not, put_ends]
        exact receiver_moves hmoves
      · rw [Bool.not_not, put_incoming]

theorem gathers_step (hg : ∀ e, (c.ends e).Gathers) {a : Act} (h : c.step C a = some c')
    (e : Bool) :
    (c'.ends e).Gathers := by
  cases step_way hg h e with
  | writes out ha hby h => exact h.gathers (hg e)
  | reads _ _ _ _ _ _ _ hends => exact hends ▸ hg e
  | neither _ hs =>
    have hbuf : (c'.ends e).sendBuffer = (c.ends e).sendBuffer := congrArg Sender.buffer hs
    have hoff : (c'.ends e).sendOffset = (c.ends e).sendOffset := congrArg Sender.offset hs
    rw [Gathers, hbuf, hoff]
    exact hg e

theorem gathers_start (key : Bool → κ) (e : Bool) : ((start key).ends e).Gathers :=
  ⟨.inl rfl, Nat.zero_le _⟩

section Sessions

variable {o o' : NoiseOutput (TransportState κ)}

theorem reflTransGen_of_opens : ∀ {k : κ} {msgs ps : List Bytes} {t : TransportState κ},
    Opens C t.receiving msgs ps k → ReflTransGen C.session.Next t { t with receiving := k }
  | _, _, _, _, .nil => .refl
  | _, _, _, t, @Opens.cons _ _ _ k' _ _ _ _ _ h hs => by
    have hnext : C.session.Next t { t with receiving := k' } :=
      .inl ⟨_, _, of_readMessage.2 ⟨h, rfl⟩⟩
    exact .head hnext (reflTransGen_of_opens (t := { t with receiving := k' }) hs)

theorem reflTransGen_of_moves {asks : List (List IoWrite)} {acc out : Bytes} {ps : List Bytes}
    (h : o.Moves C.session asks acc ps out o') :
    ReflTransGen C.session.Next o.io.session o'.io.session := by
  induction h with
  | refl => exact .refl
  | @write _ _ _ o' as _ _ ih =>
    rw [(pollReady_frame as o'.io).1]
    exact ih
  | send _ _ _ hs ih => exact ih.tail (.inr ⟨_, _, _, hs⟩)
  | fail _ _ ih => exact ih
  | buffer _ _ ih => exact ih

/-- The session of an end goes on from the one it was. -/
theorem session_step (hg : ∀ e, (c.ends e).Gathers) {a : Act} (h : c.step C a = some c') :
    ReflTransGen C.session.Next (c.ends a.by).io.session (c'.ends a.by).io.session := by
  rcases a.cases_by with ⟨e, room, polls, rfl⟩ | ha
  · obtain ⟨taken, msgs, ps, -, -, hopens, -, -⟩ :=
      (pollRead_reads (C := C) polls (c.incoming e) (c.ends e) room).opened
    have hsender := (pollRead_reads (C := C) polls (c.incoming e) (c.ends e) room).sender
    simp only [step, Option.some.injEq] at h
    subst h
    have hkey : ((c.ends e).pollRead C.session (c.incoming e) room polls).2.2.io.session.sending
        = (c.ends e).io.session.sending := congrArg Sender.key hsender
    show ReflTransGen _ (c.ends e).io.session (Function.update c.ends e _ e).io.session
    rw [Function.update_self]
    have hreach := reflTransGen_of_opens (t := (c.ends e).io.session) hopens
    rw [← hkey] at hreach
    exact hreach
  · obtain ⟨o, out, closed, hput, hmoves, -⟩ := step_put hg ha
    rw [hput, Option.some.injEq] at h
    subst h
    rw [put_ends]
    exact reflTransGen_of_moves hmoves

end Sessions

/-- What the io answers to an end that reads. -/
def Act.polls : Act → List (List IoRead)
  | .read _ _ polls => polls
  | .write _ _ _ | .flush _ _ | .close _ _ _ _ _ => []

/-- The io does not fail. -/
def Act.IoWorks (a : Act) : Prop := (∀ as ∈ a.polls, .error ∉ as) ∧ ∀ as ∈ a.asks, .error ∉ as

instance (a : Act) : Decidable a.IoWorks := inferInstanceAs (Decidable (_ ∧ _))

theorem carries_step (hC : C.Sound) (hg : ∀ e, (c.ends e).Gathers) {a : Act} (ha : a.IoWorks)
    (h : c.step C a = some c') {acc given : Bytes}
    (hc : Carries C (c.ends e).sender (c.incoming !e).bytes (c.ends !e).receiver acc given) :
    Carries C (c'.ends e).sender (c'.incoming !e).bytes (c'.ends !e).receiver
      (acc ++ (passes C e c a).accepted) (given ++ (passes C e c a).given) := by
  cases step_way hg h e with
  | writes out _ _ h _ hgiven hends hbytes _ =>
    rw [hgiven, List.append_nil, hends, hbytes]
    exact carries_moves hC ha.2 h (hg e) hc
  | @reads room polls hact haccepted _ _ hinc hreader hgiven hends =>
    subst hact
    rw [haccepted, List.append_nil, hgiven, hends, hinc, hreader]
    exact pollRead_carries polls _ _ room ha.1 hc
  | neither hp hs hr hinc =>
    rw [hp, hs, hr, hinc, List.append_nil, List.append_nil]
    exact hc

/-- What is given of a connection that carries it. -/
theorem carries_run (hC : C.Sound) (key : Bool → κ) {as : List Act} (has : ∀ a ∈ as, a.IoWorks)
    (h : run (step C) (start key) as = some c) (e : Bool) :
    Carries C (c.ends e).sender (c.incoming !e).bytes (c.ends !e).receiver
      (accepted C e (start key) as) (given C e (start key) as) := by
  have hok : Along (step C) (fun _ a => a.IoWorks) (start key) as := along_of_forall has
  have hrun := observe_induction (passes C e)
    (I := fun c os => (∀ e, (c.ends e).Gathers)
      ∧ Carries C (c.ends e).sender (c.incoming !e).bytes (c.ends !e).receiver
        (os.flatMap Passed.accepted) (os.flatMap Passed.given)) ?_ [] hok h
    ⟨gathers_start key, ?_⟩
  · exact hrun.2
  · rintro c a c' os ha hstep ⟨hg, hc⟩
    refine ⟨gathers_step hg hstep, ?_⟩
    have hc' := carries_step hC hg ha hstep hc
    simpa using hc'
  · refine .inl ⟨[], ⟨trivial, [], [], [], .nil, List.not_mem_nil, rfl, rfl, ?_, rfl⟩, rfl⟩
    show Opens C (key !!e) [] [] (key e)
    rw [Bool.not_not]
    exact .nil

/-- However the io takes and gives the bytes, what an end reads is what the other one has accepted,
in that order, none of it lost, twice or made up. -/
theorem given_prefix (hC : C.Sound) (key : Bool → κ) {as : List Act} (has : ∀ a ∈ as, a.IoWorks)
    (h : run (step C) (start key) as = some c) (e : Bool) :
    given C e (start key) as <+: accepted C e (start key) as := by
  have hcarries := carries_run hC key has h e
  exact Carries.in_order hcarries

/-- One end writes three bytes and is flushed, and the other one reads two of them. -/
def threeBytes : List Act :=
  [.write false [7, 8, 9] [], .flush false ⟨[], [.upTo 1, .upTo 5, .upTo 60], .ready (.ok ())⟩,
    .read true 2 [[.upTo 9, .upTo 3, .upTo 99]]]

theorem given_prefix_threeBytes :
    given tagging false (start fun _ => 0) threeBytes
      <+: accepted tagging false (start fun _ => 0) threeBytes := by
  obtain ⟨c, h⟩ := Option.isSome_iff_exists.1
    (show (run (step tagging) (start fun _ => 0) threeBytes).isSome by decide +kernel)
  exact given_prefix tagging_sound _ (by decide) h false

example : given tagging false (start fun _ => 0) threeBytes = [7, 8] := by decide +kernel

section Flushed

/-- An end with nothing left to write stays so until it is asked to write. -/
theorem idle_step (hg : ∀ e, (c.ends e).Gathers) {a : Act} (ha : ∀ buf as, a ≠ .write e buf as)
    (h : c.step C a = some c') (hidle : (c.ends e).Idle) : (c'.ends e).Idle := by
  cases step_way hg h e with
  | writes out hread hby =>
    cases a with
    | read e' room polls => exact (hread _ _ _ rfl).elim
    | write e' buf as =>
      obtain rfl : e' = e := hby
      exact (ha buf as rfl).elim
    | flush e' a =>
      obtain rfl : e' = e := hby
      simp only [step, pollFlush_idle hidle, Option.bind_eq_bind, Option.bind_some, Option.pure_def,
        Option.some.injEq] at h
      rw [← h, put_ends]
      exact hidle
    | close e' a as io close =>
      obtain rfl : e' = e := hby
      obtain ⟨r, hclose⟩ := pollClose_idle (S := C.session) hidle a as io close
      simp only [step, hclose, Option.bind_eq_bind, Option.bind_some, Option.pure_def,
        Option.some.injEq] at h
      rw [← h, put_ends]
      exact hidle
  | reads _ _ _ _ _ _ _ hends => exact hends ▸ hidle
  | neither _ hs =>
    have hstate : (c'.ends e).io.writeState = (c.ends e).io.writeState := congrArg Sender.state hs
    have hoff : (c'.ends e).sendOffset = (c.ends e).sendOffset := congrArg Sender.offset hs
    rw [Idle, hstate, hoff]
    exact hidle

theorem gathers_run {key : Bool → κ} {as : List Act} (h : run (step C) (start key) as = some c) :
    ∀ e, (c.ends e).Gathers :=
  run_induction (fun _ _ _ _ h hg => gathers_step hg h) along_true h (gathers_start key)

theorem inView_step (hg : ∀ e, (c.ends e).Gathers) {a : Act} (h : c.step C a = some c')
    (hview : ∀ e, (c.ends e).InView) (e : Bool) : (c'.ends e).InView := by
  have hway := step_way hg h (!e)
  cases hway with
  | writes _ _ _ _ _ _ hends =>
    rw [Bool.not_not] at hends
    exact hends ▸ hview e
  | @reads room polls _ _ _ _ _ hreader =>
    rw [Bool.not_not] at hreader
    rw [hreader]
    exact (pollRead_answers polls _ _ room (hview e)).1
  | neither _ _ hr =>
    rw [Bool.not_not] at hr
    have hbuf : (c'.ends e).recvBuffer = (c.ends e).recvBuffer := congrArg Receiver.buffer hr
    have hoff : (c'.ends e).recvOffset = (c.ends e).recvOffset := congrArg Receiver.offset hr
    rw [InView, hbuf, hoff]
    exact hview e

theorem inView_run {key : Bool → κ} {as : List Act} (h : run (step C) (start key) as = some c) :
    ∀ e, (c.ends e).InView := by
  have hok : Along (step C) (fun _ _ => True) (start key) as := along_true
  have hrun := run_induction
    (I := fun c : Connection κ => (∀ e, (c.ends e).Gathers) ∧ ∀ e, (c.ends e).InView)
    (fun c a c' _ h hc => ⟨gathers_step hc.1 h, inView_step hc.1 h hc.2⟩) hok h
    ⟨gathers_start key, fun _ hne => (hne rfl).elim⟩
  exact hrun.2

/-- Once a flush is answered, all that was accepted before it has left the end: a reader that has
used up what came, and waits for more, has given all of it. -/
theorem given_of_flush (hC : C.Sound) (key : Bool → κ) {pre mid : List Act} {a : Flush}
    {c₁ : Connection κ} {room : ℕ} {polls : List (List IoRead)}
    (has : ∀ b ∈ pre ++ .flush e a :: mid, b.IoWorks)
    (hpre : run (step C) (start key) pre = some c₁)
    (hflush : ((c₁.ends e).pollFlush C.session a).map Prod.fst = some (.ready (.ok ())))
    (hmid : ∀ buf as, .write e buf as ∉ mid)
    (h : run (step C) (start key) (pre ++ .flush e a :: mid) = some c)
    (hpolls : ∀ as ∈ polls, .error ∉ as)
    (hpending : ((c.ends !e).pollRead C.session (c.incoming !e) room polls).1 = .pending)
    (hall : ((c.ends !e).pollRead C.session (c.incoming !e) room polls).2.1.bytes = []) :
    given C e (start key) (pre ++ .flush e a :: mid)
      = accepted C e (start key) (pre ++ .flush e a :: mid) := by
  have hidle : (c.ends e).Idle := by
    rw [run_append, hpre, Option.bind_some] at h
    obtain ⟨c₂, hstep, hrun⟩ := of_run_cons h
    have hg := gathers_run hpre
    have hidle₂ : (c₂.ends e).Idle := by
      have hasks : a.ready ∈ [a.ready, a.write] ∧ a.write ∈ [a.ready, a.write] := by simp
      obtain ⟨r, o, out, hflush', -, ho⟩ := pollFlush_moves (S := C.session) hasks (hg e)
      rw [hflush', Option.map_some, Option.some.injEq] at hflush
      simp only [step, hflush', Option.bind_eq_bind, Option.bind_some, Option.pure_def,
        Option.some.injEq] at hstep
      rw [← hstep, put_ends]
      exact ho hflush
    have hok : Along (step C) (fun _ b => ∀ buf as, b ≠ .write e buf as) c₂ mid :=
      along_of_forall fun b hb buf as hw => hmid buf as (hw ▸ hb)
    have hkeep := run_induction
      (I := fun c : Connection κ => (∀ e, (c.ends e).Gathers) ∧ (c.ends e).Idle)
      (fun c a c' ha h hc => ⟨gathers_step hc.1 h, idle_step hc.1 ha h hc.2⟩) hok hrun
      ⟨gathers_step hg hstep, hidle₂⟩
    exact hkeep.2
  have hcarries := pollRead_carries polls _ _ room hpolls (carries_run hC key has h e)
  obtain ⟨-, hnothing, -⟩ :=
    pollRead_answers (S := C.session) polls (c.incoming !e) _ room (inView_run h !e)
  obtain ⟨hbuf, hover⟩ := hnothing hpending
  dsimp only at hcarries
  rw [hpending, hall] at hcarries
  rcases hcarries with ⟨text, htext, hacc⟩ | ⟨h, -⟩
  · have hshort := htext.1.short
    obtain ⟨-, rfl⟩ := htext.text_eq_nil (n := 0) hidle.2 hshort (List.append_nil _)
    have hrest : (NoiseOutput.receiver ((c.ends !e).pollRead C.session (c.incoming !e) room
        polls).2.2).rest = [] := by
      rw [Receiver.rest, receiver, hbuf, List.drop_nil]
    have hgathered : (c.ends e).sender.gathered = [] := by
      rw [Sender.gathered, sender, hidle.1, List.take_zero]
    rw [hacc, hrest, hgathered]
    simp [Poll.bytes]
  · exact (hover h).elim

theorem given_of_flush_threeBytes :
    let as : List Act := [.write false [7, 8, 9] []]
      ++ .flush false ⟨[], [.upTo 1, .upTo 5, .upTo 60], .ready (.ok ())⟩
      :: [.read true 2 [[.upTo 9, .upTo 3, .upTo 99]], .read true 4 []]
    given tagging false (start fun _ => 0) as = accepted tagging false (start fun _ => 0) as := by
  obtain ⟨c₁, hpre, hflush⟩ := exists_of_any (o := run (step tagging) (start fun _ => 0)
    [.write false [7, 8, 9] []])
    (p := fun c => ((c.ends false).pollFlush tagging.session
      ⟨[], [.upTo 1, .upTo 5, .upTo 60], .ready (.ok ())⟩).map Prod.fst = some (.ready (.ok ())))
    (by decide +kernel)
  obtain ⟨c, h, hpending, hall⟩ := exists_of_any (o := run (step tagging) (start fun _ => 0)
    ([.write false [7, 8, 9] []] ++ .flush false ⟨[], [.upTo 1, .upTo 5, .upTo 60], .ready (.ok ())⟩
      :: [.read true 2 [[.upTo 9, .upTo 3, .upTo 99]], .read true 4 []]))
    (p := fun c =>
      ((c.ends true).pollRead tagging.session (c.incoming true) 1 [[.upTo 9]]).1 = .pending
        ∧ ((c.ends true).pollRead tagging.session (c.incoming true) 1 [[.upTo 9]]).2.1.bytes = [])
    (by decide +kernel)
  exact given_of_flush tagging_sound _ (by decide) hpre hflush (by simp) h (by simp) hpending hall

end Flushed

section Ended

/-- Once the stream of end `e` is closed it has nothing more to write, and a reader that has seen
the end of it has all of what was accepted. -/
structure Ends (e : Bool) (c : Connection κ) (acc given : Bytes) : Prop where
  idle : (c.incoming !e).closed → (c.ends e).Idle
  whole : (c.ends !e).io.readState = .eof true →
    (c.incoming !e).closed ∧ acc = given ++ (c.ends !e).receiver.rest

/-- What end `e` is asked to write comes before its stream is closed. -/
def InTime (e : Bool) (c : Connection κ) (a : Act) : Prop :=
  ∀ buf as, a = .write e buf as → (c.incoming !e).closed = false

theorem Ends.of_read {polls : List (List IoRead)} {room : ℕ} {acc given : Bytes}
    (hpolls : ∀ as ∈ polls, .error ∉ as)
    (hc : Carries C (c.ends e).sender (c.incoming !e).bytes (c.ends !e).receiver acc given)
    (he : Ends e c acc given) :
    let r := (c.ends !e).pollRead C.session (c.incoming !e) room polls
    r.2.2.io.readState = .eof true →
      (c.incoming !e).closed ∧ acc = given ++ r.1.bytes ++ r.2.2.receiver.rest := by
  intro r hend
  rcases hc with ⟨text, htext, hacc⟩ | ⟨hover, -⟩
  · obtain ⟨hclosed, hall⟩ := pollRead_end polls _ _ room hpolls htext hend
    refine ⟨hclosed, ?_⟩
    have hidle := he.idle hclosed
    have hgathered : (c.ends e).sender.gathered = [] := by
      rw [Sender.gathered, sender, hidle.1, List.take_zero]
    rw [hacc, hgathered, List.append_nil, List.append_assoc, hall hidle.2, List.append_assoc]
  · obtain ⟨hio, hrest⟩ := pollRead_over (C := C) polls (c.incoming !e) room hover
    rw [show r.2.2.io = _ from hio] at hend
    obtain ⟨hclosed, hacc⟩ := he.whole hend
    refine ⟨hclosed, ?_⟩
    rw [hacc, hrest, List.append_assoc]

theorem ends_step (hg : ∀ e, (c.ends e).Gathers) {a : Act} (ha : a.IoWorks) (hw : InTime e c a)
    (h : c.step C a = some c') {acc given : Bytes}
    (hc : Carries C (c.ends e).sender (c.incoming !e).bytes (c.ends !e).receiver acc given)
    (he : Ends e c acc given) :
    Ends e c' (acc ++ (passes C e c a).accepted) (given ++ (passes C e c a).given) := by
  have hkeep : (c.incoming !e).closed → (c'.ends e).Idle := by
    intro hclosed
    refine idle_step hg (fun buf as hact => ?_) h (he.idle hclosed)
    rw [hw buf as hact] at hclosed
    cases hclosed
  cases step_way hg h e with
  | writes out hnot hby hmoves hread hgiven hends hbytes hmono hclosed =>
    refine ⟨fun hclosed' => (hclosed hclosed').elim hkeep id, fun hend => ?_⟩
    rw [hends] at hend
    obtain ⟨hclosed₁, hacc⟩ := he.whole hend
    refine ⟨hmono hclosed₁, ?_⟩
    have haccepted : (passes C e c a).accepted = [] := by
      cases a with
      | read e' room polls => exact (hnot _ _ _ rfl).elim
      | write e' buf as =>
        obtain rfl : e' = e := hby
        rw [hw buf as rfl] at hclosed₁
        cases hclosed₁
      | flush e' a => obtain rfl : e' = e := hby; rw [passes, if_pos rfl]
      | close e' a as io close => obtain rfl : e' = e := hby; rw [passes, if_pos rfl]
    rw [haccepted, hgiven, hends, List.append_nil, List.append_nil]
    exact hacc
  | @reads room polls hact haccepted hsealed hread hinc hreader hgiven hends =>
    subst hact
    have hreads := pollRead_reads (C := C) polls (c.incoming !e) (c.ends !e) room
    have hclosed := hreads.closed
    rw [← hinc] at hclosed
    refine ⟨fun hclosed' => hkeep (hclosed ▸ hclosed'), fun hend => ?_⟩
    rw [hclosed, haccepted, hgiven, hreader, List.append_nil]
    rw [hreader] at hend
    exact he.of_read ha.1 hc hend
  | neither hp hs hr hinc =>
    have hstate : (c'.ends !e).io.readState = (c.ends !e).io.readState := congrArg Receiver.state hr
    rw [hp, List.append_nil, List.append_nil]
    refine ⟨fun hclosed => hkeep (hinc ▸ hclosed), fun hend => ?_⟩
    rw [hr, hinc]
    exact he.whole (hstate ▸ hend)

theorem ends_of_run (hC : C.Sound) (key : Bool → κ) {as : List Act} (has : ∀ a ∈ as, a.IoWorks)
    (hw : Along (step C) (InTime e) (start key) as) (h : run (step C) (start key) as = some c) :
    Ends e c (accepted C e (start key) as) (given C e (start key) as) := by
  have hworks : Along (step C) (fun _ a => a.IoWorks) (start key) as := along_of_forall has
  have hrun := observe_induction (passes C e)
    (I := fun c os => ((∀ e, (c.ends e).Gathers)
      ∧ Carries C (c.ends e).sender (c.incoming !e).bytes (c.ends !e).receiver
        (os.flatMap Passed.accepted) (os.flatMap Passed.given))
      ∧ Ends e c (os.flatMap Passed.accepted) (os.flatMap Passed.given)) ?_ [] (hworks.and hw) h
    ⟨⟨gathers_start key, ?_⟩, ?_⟩
  · exact hrun.2
  · rintro c a c' os ⟨ha, hw⟩ hstep ⟨⟨hg, hc⟩, he⟩
    have hc' := carries_step hC hg ha hstep hc
    have he' := ends_step hg ha hw hstep hc he
    refine ⟨⟨gathers_step hg hstep, ?_⟩, ?_⟩
    · simpa using hc'
    · simpa using he'
  · have hnone : ∀ a ∈ ([] : List Act), a.IoWorks := by simp
    exact carries_run hC key hnone rfl e
  · exact ⟨fun h => (by cases h), fun h => (by cases h)⟩

/-- An end that is read to the end of the stream has given all that was accepted, if what the other
end was asked to write came before it was closed. -/
theorem given_of_eof (hC : C.Sound) (key : Bool → κ) {as : List Act} {room : ℕ}
    {polls : List (List IoRead)} (has : ∀ a ∈ as, a.IoWorks)
    (hw : Along (step C) (InTime e) (start key) as) (h : run (step C) (start key) as = some c)
    (hroom : 0 < room) (hpolls : ∀ as ∈ polls, .error ∉ as)
    (heof : ((c.ends !e).pollRead C.session (c.incoming !e) room polls).1 = .ready (.ok [])) :
    given C e (start key) as = accepted C e (start key) as := by
  obtain ⟨-, -, hend⟩ := pollRead_answers (S := C.session) polls (c.incoming !e) _ room
    (inView_run h !e)
  obtain ⟨hbuf, hstate⟩ := hend heof hroom
  obtain ⟨-, hacc⟩ :=
    (ends_of_run hC key has hw h).of_read hpolls (carries_run hC key has h e) hstate
  rw [hacc, heof, Receiver.rest, receiver, hbuf, List.drop_nil]
  simp [Poll.bytes]

theorem given_of_eof_threeBytes :
    let as : List Act := threeBytes ++ [.read true 4 [],
      .close false ⟨[], [], .ready (.ok ())⟩ [] (.ready (.ok ())) (.ready (.ok ()))]
    given tagging false (start fun _ => 0) as = accepted tagging false (start fun _ => 0) as := by
  intro as
  obtain ⟨c, h, heof⟩ := exists_of_any (o := run (step tagging) (start fun _ => 0) as)
    (p := fun c => ((c.ends true).pollRead tagging.session (c.incoming true) 1 [[.upTo 9]]).1
      = .ready (.ok []))
    (by decide +kernel)
  have hw : Along (step tagging) (InTime false) (start fun _ => 0) as := by
    refine ⟨fun _ _ _ => rfl, fun c₁ _ => ⟨fun _ _ h => (by cases h), fun c₂ _ =>
      ⟨fun _ _ h => (by cases h), fun c₃ _ => ⟨fun _ _ h => (by cases h), fun c₄ _ =>
        ⟨fun _ _ h => (by cases h), fun _ _ => trivial⟩⟩⟩⟩⟩
  exact given_of_eof tagging_sound _ (by decide) hw h Nat.one_pos (by decide) heof

end Ended

end Connection

end Nyumt.Noise
