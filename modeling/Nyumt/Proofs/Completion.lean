import Nyumt.Proofs.Upgrading

/-!
# Handshakes come to an end

A poll of an end that means well goes on in its handshake, where it does not wait for the io or for
a message (`left_poll`). And whatever the two have come to, one of them is due: it has something to
write, or what it waits for has been written (`Inv.due`). So they do not wait for each other, and
polls that are answered enough upgrade both (`completes_run`).
-/

namespace Nyumt.Noise

open Borsh Run

variable {η κ : Type} {H : Suite η κ}

/-- At most so many polls go on in the handshake. -/
def Upgrade.left : Upgrade η κ → ℕ
  | .handshake h => 2 * h.ops.length + if h.flushing then 1 else 2
  | _ => 0

/-- The poll stays at its await. -/
def Handshake.Waits (H : Suite η κ) (inc : Incoming) (h : Handshake η) (a : Replies) : Prop :=
  match h.ops with
  | .send _ :: _ =>
    if h.flushing then (h.state.io.pollFlush a.write a.flush).1 = .pending
    else (h.state.io.pollReady a.write).1 = .pending
  | .recv _ :: _ => (h.state.io.pollNext H.session inc a.read).1 = .pending
  | [] => False

theorem Handshake.left_poll {inc inc' : Incoming} {h : Handshake η} {a : Replies} {u : Upgrade η κ}
    {out : Bytes} (hp : h.poll H inc a = some (u, inc', out)) (hu : ∀ err, u ≠ .failed err)
    (hw : ¬h.Waits H inc a) : u.left < (Upgrade.handshake h : Upgrade η κ).left := by
  obtain ⟨config, state, ops, flushing⟩ := h
  have hfl : 1 ≤ if flushing then 1 else 2 := by split_ifs <;> omega
  rcases ops with _ | ⟨p | p, ops⟩ <;> unfold poll at hp <;> unfold Waits at hw <;>
    dsimp only at hp hw
  · rcases hf : state.finish H with e | ⟨remote, io⟩ <;> rw [hf] at hp <;> dsimp only at hp
    · cases hp
      exact (hu _ rfl).elim
    · rcases ha : config.andThen a.known remote with e | _ <;> rw [ha] at hp <;> cases hp
      · exact (hu _ rfl).elim
      · show 0 < 2 * 0 + if flushing then 1 else 2
        omega
  · split_ifs at hp hw with hflush
    · rcases hr : state.io.pollFlush a.write a.flush with ⟨_ | e | _, io, out⟩ <;>
        rw [hr] at hp hw <;> cases hp
      · exact (hw rfl).elim
      · exact (hu _ rfl).elim
      · show 2 * ops.length + 2 < 2 * (ops.length + 1) + if flushing then 1 else 2
        omega
    · rcases hr : state.io.pollReady a.write with ⟨_ | e | _, io, out⟩ <;>
        rw [hr] at hp hw <;> dsimp only at hp hw
      · exact (hw rfl).elim
      · cases hp
        exact (hu _ rfl).elim
      · rcases hs : io.startSend H.session (state.message H p) with _ | ⟨e | _, io'⟩ <;>
          rw [hs] at hp <;> cases hp
        · exact (hu _ rfl).elim
        · show 2 * (ops.length + 1) + 1 < 2 * (ops.length + 1) + if flushing then 1 else 2
          rw [if_neg hflush]
          omega
  · rcases hr : state.io.pollNext H.session inc a.read with ⟨_ | _ | e | msg, inc'', io⟩ <;>
      rw [hr] at hp hw <;> dsimp only at hp hw
    · exact (hw rfl).elim
    · cases hp
      exact (hu _ rfl).elim
    · cases hp
      exact (hu _ rfl).elim
    · rcases hs : State.recv H { state with io := io } msg p with e | state' <;> rw [hs] at hp <;>
        cases hp
      · exact (hu _ rfl).elim
      · show 2 * ops.length + (if flushing then 1 else 2)
          < 2 * (ops.length + 1) + if flushing then 1 else 2
        omega

namespace Upgrading

variable {C : CipherState κ} {dh : Bool → Array32} {key : Bool → κ} {script : Script}
  {party : Bool → Party η}

/-- An io that takes and gives something so many times, and a database with these keys. -/
def plenty (n : ℕ) (known : Bytes → Bool) : Replies where
  read := List.replicate n (.upTo 0)
  write := List.replicate n (.upTo 1)
  flush := .ready (.ok ())
  known := known

theorem plenty_ok (n : ℕ) (known : Bytes → Bool) : Replies.Ok (plenty n known) := by
  refine ⟨fun h => ?_, fun h => ?_, fun h => ?_, fun err h => ?_⟩
  · cases List.eq_of_mem_replicate h
  · cases List.eq_of_mem_replicate h
  · cases List.eq_of_mem_replicate h
  · cases h

/-- A message that is written is read by a poll with an answer for each byte. -/
theorem Awaits.not_pending {f : NoiseFramed η} {inc later : Incoming} {m : Bytes} {n : ℕ}
    (hne : m ≠ []) (hlt : m.length < 65536) (hn : inc.bytes.length < n)
    (h : Awaits f.readState inc later [] (some m)) :
    (f.pollNext H.session inc (List.replicate n (.upTo 0))).1 ≠ .pending := by
  intro hp
  obtain ⟨hlive, -, bytes, hbytes, hpart⟩ := h
  have herr : .error ∉ List.replicate n (IoRead.upTo 0) := fun h => by
    cases List.eq_of_mem_replicate h
  have hpend : .pending ∉ List.replicate n (IoRead.upTo 0) := fun h => by
    cases List.eq_of_mem_replicate h
  have hpolls := pollNext_polls (S := H.session) inc herr hlive
  have hdrains := (pollNext_drains hpend hp).resolve_right (by rw [List.length_replicate]; omega)
  rcases hr : f.pollNext H.session inc (List.replicate n (.upTo 0)) with ⟨r, inc', io⟩
  rw [hr] at hp hpolls hdrains
  dsimp only at hp hpolls hdrains
  subst hp
  have hframe : f.readState.part ++ inc.bytes = lengths.frame m ++ later.bytes := by
    rw [hbytes, ← List.append_assoc, ← List.append_nil bytes, hpart]
    rfl
  rw [hframe] at hpolls
  generalize io.readState = st, io.session = u at hpolls
  cases hpolls with
  | @pending k st rest hst' h =>
    obtain rfl : rest = [] := hdrains
    rw [List.append_nil] at h
    exact hst'.short.ne_frame hlt (Framing.eq_of_frame hne hlt h.symm)

section Due

variable {s : Upgrading η κ} {c : Connection κ} {t : Bool → η} {rest : Bool → Script}
  {msg : Bool → Option Bytes} {tail : Bool → Bytes} {e : Bool} {h : Handshake η}

/-- The end has something to write, or what it waits for has been written. -/
def Due (rest : Bool → Script) (msg : Bool → Option Bytes) (tail : Bool → Bytes) (e : Bool)
    (h : Handshake η) : Prop :=
  h.flushing ∨ ∀ p r, rest e = (!e, p) :: r → (msg !e).isSome ∧ tail (!e) = []

/-- While one end is in its handshake, one is due. -/
theorem Inv.due (hi : Inv H dh key party s c t rest msg tail) (hu : s.ends e = .handshake h) :
    ∃ e h, s.ends e = .handshake h ∧ Due rest msg tail e h := by
  by_cases hflush : ∃ e h, s.ends e = .handshake h ∧ h.flushing
  · obtain ⟨e, h, hu, hf⟩ := hflush
    exact ⟨e, h, hu, .inl hf⟩
  · have hplaces : ∀ e, tail e = [] ∧ (rest e ≠ [] → ∃ h, s.ends e = .handshake h) := by
      intro e
      have hplace := hi.place e
      rcases hu : s.ends e with h | err | ⟨remote, io⟩ <;> rw [hu] at hplace
      · refine ⟨?_, fun _ => ⟨h, rfl⟩⟩
        cases hplace with
        | waits _ _ _ htail => exact htail
        | flushes => exact (hflush ⟨e, _, hu, rfl⟩).elim
      · cases hplace
      · cases hplace with
        | upgraded _ hrest htail => exact ⟨htail, fun hne => (hne hrest).elim⟩
    have hstage := hi.stage
    cases hstage with
    | @quiet r hag halt =>
      rcases r with _ | ⟨⟨w, p⟩, r⟩
      · exact ⟨e, h, hu, .inr fun p r h => by cases h⟩
      · obtain ⟨h', hu'⟩ := (hplaces w).2 (List.cons_ne_nil _ _)
        refine ⟨w, h', hu', .inr fun p' r' heq => ?_⟩
        exact (Bool.self_ne_not w (Prod.mk.inj (List.cons.inj heq).1).1).elim
    | @flying _ _ w p m q hw halt hmsg hnone hne hlt hread hag =>
      obtain ⟨h', hu'⟩ := (hplaces !w).2 (by rw [hw]; exact List.cons_ne_nil _ _)
      refine ⟨!w, h', hu', .inr fun _ _ _ => ?_⟩
      rw [Bool.not_not, hmsg]
      exact ⟨rfl, (hplaces w).1⟩

/-- An end that is due does not wait. -/
theorem Inv.not_waits (hi : Inv H dh key party s c t rest msg tail) (hu : s.ends e = .handshake h)
    (hdue : Due rest msg tail e h) {n : ℕ} (hn : (s.incoming e).bytes.length < n)
    (hn' : (tail e).length < n) (known : Bytes → Bool) :
    ¬h.Waits H (s.incoming e) (plenty n known) := by
  obtain ⟨-, hfrom, -⟩ := hi.ways hu
  have hplace := hi.place e
  rw [hu] at hplace
  cases hplace with
  | @waits st hk ht hw htail =>
    have hdue := hdue.resolve_left Bool.false_ne_true
    rcases hrest : rest e with _ | ⟨⟨w, p⟩, r⟩
    · exact id
    · by_cases he : w = e
      · subst he
        rw [Script.ops_send]
        unfold Handshake.Waits
        dsimp only
        rw [if_neg Bool.false_ne_true, pollReady_ready hw]
        exact fun h => by cases h
      · obtain rfl : w = !e := Bool.eq_not.2 he
        obtain ⟨hsome, htail'⟩ := hdue p r hrest
        rcases hi.stage.receives hrest with ⟨hnone, -⟩ | ⟨m, t', hm, -, -, hne, hlt, -⟩
        · rw [hnone] at hsome
          cases hsome
        · have hawaits := hfrom.1
          rw [htail', hm] at hawaits
          rw [Script.ops_recv]
          exact hawaits.not_pending hne hlt hn
  | @flushes st p hk ht howes hworks =>
    have hpend : .pending ∉ List.replicate n (IoWrite.upTo 1) := fun h => by
      cases List.eq_of_mem_replicate h
    intro hwait
    unfold Handshake.Waits NoiseFramed.pollFlush at hwait
    dsimp only at hwait
    rw [if_pos rfl] at hwait
    rcases hr : st.io.pollReady (List.replicate n (.upTo 1)) with ⟨_ | err | _, io, out⟩ <;>
      rw [plenty, hr] at hwait <;> dsimp only at hwait
    · obtain ⟨tail', htail, -⟩ := pollReady_writes (plenty_ok n known).2.1 howes
      have hdrains := pollReady_drains hpend (by rw [hr])
      rw [plenty, hr] at htail
      rw [hr, List.length_replicate] at hdrains
      rw [htail, List.length_append] at hn'
      omega
    · cases hwait
    · cases hwait

end Due

def left (s : Upgrading η κ) : ℕ := (s.ends true).left + (s.ends false).left

theorem left_put {s : Upgrading η κ} {e : Bool} {u : Upgrade η κ} {inc : Incoming} {out : Bytes}
    (h : u.left < (s.ends e).left) : (s.put e u inc out).left < s.left := by
  have he : (s.put e u inc out).ends e = u := put_ends
  have hne : (s.put e u inc out).ends (!e) = s.ends !e := put_ends_not
  unfold left
  cases e with
  | true =>
    rw [Bool.not_true] at hne
    rw [he, hne]
    exact Nat.add_lt_add_right h _
  | false =>
    rw [Bool.not_false] at hne
    rw [he, hne]
    exact Nat.add_lt_add_left h _

theorem inv_completes (hh : Honest H dh key script party) {known : Bool → Bytes → Bool}
    (hknown : ∀ e, (party e).config.andThen (known e) (.identityKey (party !e).identity.publicKey)
      = .ok ()) {s : Upgrading η κ} {c : Connection κ} {t : Bool → η} {rest : Bool → Script}
    {msg : Bool → Option Bytes} {tail : Bool → Bytes}
    (hi : Inv H dh key party s c t rest msg tail) :
    ∃ bs s', (∀ b ∈ bs, Lets party b ∧ b.transport? = none) ∧ Run.run (step H C) s bs = some s'
      ∧ ∀ e, ∃ io, s'.ends e = .upgraded (.identityKey (party !e).identity.publicKey) io := by
  induction hn : s.left using Nat.strong_induction_on generalizing s t rest msg tail with
  | _ n ih =>
    by_cases hhand : ∃ e h, s.ends e = .handshake h
    · obtain ⟨e₀, h₀, hu₀⟩ := hhand
      obtain ⟨e, h, hu, hdue⟩ := hi.due hu₀
      obtain ⟨k, hk⟩ : ∃ k, k = (s.incoming e).bytes.length + (tail e).length + 1 := ⟨_, rfl⟩
      have hwaits := hi.not_waits hu hdue (n := k) (by omega) (by omega) (known e)
      obtain ⟨s', t', rest', msg', tail', hs, hi'⟩ :=
        inv_poll (C := C) hh (plenty_ok k (known e)) (hknown e) hi hu
      obtain ⟨h', u, inc, out, hu', hp, rfl⟩ := of_step_poll hs
      obtain rfl : h' = h := Upgrade.handshake.inj (hu'.symm.trans hu)
      have hfail : ∀ err, u ≠ .failed err := by
        rintro err rfl
        have hplace := hi'.place e
        rw [put_ends] at hplace
        cases hplace
      have hlt : (s.put e u inc out).left < n := by
        rw [← hn]
        refine left_put ?_
        rw [hu]
        exact Handshake.left_poll hp hfail hwaits
      obtain ⟨bs, s', hbs, hrun, hup⟩ := ih _ hlt hi' rfl
      refine ⟨.poll e (plenty k (known e)) :: bs, s', ?_, (run_cons bs hs).trans hrun, hup⟩
      exact List.forall_mem_cons.2 ⟨⟨⟨plenty_ok k (known e), hknown e⟩, rfl⟩, hbs⟩
    · refine ⟨[], s, (fun b hb => by cases hb), rfl, fun e => ?_⟩
      have hplace := hi.place e
      rcases hu : s.ends e with h | err | ⟨remote, io⟩ <;> rw [hu] at hplace
      · exact (hhand ⟨e, h, hu⟩).elim
      · cases hplace
      · cases hplace with
        | upgraded => exact ⟨io, rfl⟩

/-- Two ends that mean well do not deadlock: whatever they have come to, there are polls that
upgrade both. -/
theorem completes_run (hh : Honest H dh key script party) {known : Bool → Bytes → Bool}
    (hknown : ∀ e, (party e).config.andThen (known e) (.identityKey (party !e).identity.publicKey)
      = .ok ()) {s : Upgrading η κ} {as : List Act} (hok : ∀ a ∈ as, Lets party a)
    (h : Run.run (step H C) (init party script) as = some s) :
    ∃ bs s', (∀ b ∈ bs, Lets party b ∧ b.transport? = none) ∧ Run.run (step H C) s bs = some s'
      ∧ ∀ e, ∃ io, s'.ends e = .upgraded (.identityKey (party !e).identity.publicKey) io := by
  obtain ⟨c, -, -, t, rest, msg, tail, hi⟩ := inv_run hh hok h true
  exact inv_completes hh hknown hi

theorem toyParty_knows (e : Bool) : (toyParty e).config.andThen (fun _ => true)
    (.identityKey (toyParty !e).identity.publicKey) = .ok () := by
  cases e <;> rfl

theorem completes_run_toyParty : ∃ s bs s',
    Run.run (step toySuite tagging) (init toyParty rt15) (toyEarly.take 4) = some s
      ∧ Run.run (step toySuite tagging) s bs = some s'
      ∧ ∀ e, ∃ io, s'.ends e = .upgraded (.identityKey (toyIdentity !e).publicKey) io := by
  obtain ⟨s, h⟩ := Option.isSome_iff_exists.1
    (show (Run.run (step toySuite tagging) (init toyParty rt15) (toyEarly.take 4)).isSome by
      decide +kernel)
  obtain ⟨bs, s', -, hrun, hup⟩ := completes_run toyParty_honest toyParty_knows
    (fun a ha => lets_toyEarly a (List.mem_of_mem_take ha)) h
  exact ⟨s, bs, s', h, hrun, hup⟩

end Upgrading

end Nyumt.Noise
