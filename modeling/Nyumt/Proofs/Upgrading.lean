import Nyumt.Proofs.Alike
import Nyumt.Proofs.Parties

/-!
# Two ends that upgrade a stream

The messages of a pattern pass one at a time: each is read before the next one is written, by an end
that may still flush the one before. So whatever the io takes and gives, neither end fails, each
comes to know the other, and no byte of what follows the handshake is read in it: once the ends are
upgraded they are those of a connection that started with the keys of the session (`refines_run`),
and what one then reads is what the other has accepted (`relayed_run`).
-/

namespace Nyumt.Noise

open Borsh Run

namespace Upgrading

variable {η κ : Type} {H : Suite η κ} {C : CipherState κ} {dh : Bool → Array32} {key : Bool → κ}
  {script : Script} {party : Bool → Party η}

/-- A reader in a handshake: what is left of the message that is on its way, if one is, is behind
what it has read of it, and before `later`, which the other end sends once it is upgraded. -/
def Awaits (st : ReadState) (inc later : Incoming) (tail : Bytes) (msg : Option Bytes) : Prop :=
  st.Live ∧ inc.closed = later.closed ∧ ∃ bytes, inc.bytes = bytes ++ later.bytes
    ∧ st.part ++ (bytes ++ tail) = msg.elim [] lengths.frame

section Awaiting

variable {st : ReadState} {inc later : Incoming} {tail : Bytes} {msg : Option Bytes}

theorem Awaits.empty (h : Awaits st inc later tail none) : inc = later ∧ tail = [] := by
  obtain ⟨-, hclosed, bytes, hbytes, hnil⟩ := h
  obtain ⟨-, hnil⟩ := List.append_eq_nil_iff.1 hnil
  obtain ⟨rfl, rfl⟩ := List.append_eq_nil_iff.1 hnil
  obtain ⟨bs, c⟩ := inc
  obtain ⟨bs', c'⟩ := later
  exact ⟨by simp_all, rfl⟩

variable {t t' : η} {st' : ReadState} {inc' : Incoming} {r : Poll (Option (Except IoError Bytes))}

/-- While no message is on its way, the reader is pending. -/
theorem Awaits.polls_none (hp : Polls H.session t (st.part ++ inc.bytes) inc.closed r inc' st' t')
    (h : Awaits st inc {} tail none) : r = .pending ∧ t' = t ∧ Awaits st' inc' {} tail none := by
  obtain ⟨-, hclosed, bytes, hbytes, hpart⟩ := h
  obtain ⟨hst, hnil⟩ := List.append_eq_nil_iff.1 hpart
  obtain ⟨rfl, rfl⟩ := List.append_eq_nil_iff.1 hnil
  have hno : ∀ {bs rest : Bytes} {k : ℕ},
      [] ≠ lengths.frames (List.replicate k []) ++ (lengths.frame bs ++ rest) := by
    intro bs rest k h
    obtain ⟨-, h⟩ := List.append_eq_nil_iff.1 h.symm
    exact lengths.frame_ne_nil bs (List.append_eq_nil_iff.1 h).1
  have hnil : st.part ++ inc.bytes = [] := by
    rw [hst, hbytes]
    rfl
  rw [hnil] at hp
  cases hp with
  | @pending k st rest hst' h =>
    obtain ⟨-, h⟩ := List.append_eq_nil_iff.1 h.symm
    obtain ⟨hpart', rfl⟩ := List.append_eq_nil_iff.1 h
    exact ⟨rfl, rfl, hst', hclosed, [], rfl, by rw [hpart']; rfl⟩
  | frame _ _ _ h => exact (hno h).elim
  | invalid _ _ _ h => exact (hno h).elim
  | eof hshut => cases hclosed.symm.trans hshut
  | unexpectedEof hshut => cases hclosed.symm.trans hshut

/-- A message that is on its way has come whole, or the reader is pending. -/
theorem Awaits.polls_some {m : Bytes} (hne : m ≠ []) (hlt : m.length < 65536)
    (hread : (H.session.readMessage t m).isSome) (hlater : later = {} ∨ tail = [])
    (hp : Polls H.session t (st.part ++ inc.bytes) inc.closed r inc' st' t')
    (h : Awaits st inc later tail (some m)) :
    (r = .pending ∧ t' = t ∧ Awaits st' inc' later tail (some m))
      ∨ ∃ p, H.session.readMessage t m = some (p, t') ∧ r = .ready (some (.ok p))
        ∧ Awaits st' inc' later tail none := by
  obtain ⟨-, hclosed, bytes, hbytes, hpart⟩ := h
  have hpart : st.part ++ (bytes ++ tail) = lengths.frame m := hpart
  have hone : later.bytes = [] ∨ tail = [] := hlater.imp_left fun h => by rw [h]
  have hshut : inc.closed → tail = [] := by
    rcases hlater with rfl | h
    · exact fun h => by cases hclosed.symm.trans h
    · exact fun _ => h
  have hfull : (st.part ++ inc.bytes) ++ tail = lengths.frame m ++ later.bytes := by
    rw [hbytes, ← hpart]
    rcases hone with h | rfl
    · rw [h]
      simp
    · simp
  cases hp with
  | @pending k st' rest hst' h =>
    rw [h, List.append_assoc] at hfull
    have hfull := Framing.eq_of_frame hne hlt hfull
    rw [List.append_assoc] at hfull
    obtain ⟨more, hframe, hrest⟩ := hst'.short.of_append hlt hfull
    refine .inl ⟨rfl, rfl, hst', hclosed, ?_⟩
    rcases hone with h | rfl
    · rw [h, List.append_nil] at hrest
      exact ⟨rest, by rw [h, List.append_nil], by rw [hrest]; exact hframe.symm⟩
    · rw [List.append_nil] at hrest
      exact ⟨more, hrest, by rw [List.append_nil]; exact hframe.symm⟩
  | @frame k m' p rest t' hne' hlt' hs h =>
    rw [h, List.append_assoc] at hfull
    have hfull := Framing.eq_of_frame hne hlt hfull
    rw [List.append_assoc] at hfull
    obtain ⟨rfl, hrest⟩ := Framing.frame_append_inj hlt' hlt hfull
    refine .inr ⟨p, hs, rfl, trivial, hclosed, [], ?_⟩
    rcases hone with hnone | rfl
    · rw [hnone, List.append_eq_nil_iff] at hrest
      obtain ⟨rfl, rfl⟩ := hrest
      exact ⟨hnone.symm, rfl⟩
    · rw [List.append_nil] at hrest
      exact ⟨hrest, rfl⟩
  | @invalid k m' rest hne' hlt' hs h =>
    rw [h, List.append_assoc] at hfull
    have hfull := Framing.eq_of_frame hne hlt hfull
    rw [List.append_assoc] at hfull
    obtain ⟨rfl, -⟩ := Framing.frame_append_inj hlt' hlt hfull
    rw [hs] at hread
    cases hread
  | @eof k rest hshut' hrest h =>
    rw [h, hshut hshut', List.append_nil] at hfull
    have hfull := Framing.eq_of_frame hne hlt hfull
    exact (Framing.Short.ne_frame (.inl hrest) hlt hfull).elim
  | @unexpectedEof k rest hshut' hrest hshort h =>
    rw [h, hshut hshut', List.append_nil] at hfull
    have hfull := Framing.eq_of_frame hne hlt hfull
    exact (hshort.ne_frame hlt hfull).elim

/-- The reader polls on while the message has not come whole, and then has it and nothing more. -/
theorem Awaits.polls
    (hmsg : ∀ m ∈ msg, m ≠ [] ∧ m.length < 65536 ∧ (H.session.readMessage t m).isSome)
    (hlater : later = {} ∨ tail = [] ∧ msg ≠ none)
    (hp : Polls H.session t (st.part ++ inc.bytes) inc.closed r inc' st' t')
    (h : Awaits st inc later tail msg) :
    (r = .pending ∧ t' = t ∧ Awaits st' inc' later tail msg)
      ∨ ∃ m ∈ msg, ∃ p, H.session.readMessage t m = some (p, t') ∧ r = .ready (some (.ok p))
        ∧ Awaits st' inc' later tail none := by
  rcases msg with _ | m
  · -- no message is on its way, and the other end has sent nothing else
    obtain rfl : later = {} := hlater.resolve_right fun h => h.2 rfl
    exact .inl (h.polls_none hp)
  · obtain ⟨hne, hlt, hread⟩ := hmsg m rfl
    have hone : later = {} ∨ tail = [] := hlater.imp_right And.left
    exact (h.polls_some hne hlt hread hone hp).imp_right fun h => ⟨m, rfl, h⟩

end Awaiting

section Stages

variable (H dh key party)

/-- Where the two ends are: at the same place of the script, or a message that one has written is on
its way. -/
inductive Stage : (Bool → η) → (Bool → Script) → (Bool → Option Bytes) → Prop
  | quiet {t : Bool → η} {rest : Script} (hag : Agrees H dh key (rest.map Prod.fst) t)
      (halt : rest.Alternates) : Stage t (fun _ => rest) fun _ => none
  | flying {t : Bool → η} {rest : Bool → Script} {msg : Bool → Option Bytes} {w : Bool}
      {p : Payload} {m : Bytes} {q : η} (hrest : rest (!w) = (w, p) :: rest w)
      (halt : (rest !w).Alternates)
      (hmsg : msg w = some m) (hnone : msg (!w) = none) (hne : m ≠ []) (hlt : m.length < 65536)
      (hread : H.session.readMessage (t !w) m = some ((party w).state.message H p, q))
      (hag : Agrees H dh key ((rest w).map Prod.fst) (Function.update t (!w) q)) : Stage t rest msg

/-- An end with this part of the script before it, and this much still to write. -/
inductive Place (e : Bool) (rest : Script) (t : η) (tail : Bytes) : Upgrade η κ → Prop
  | waits {st : State η} (hk : Knows party e rest st) (ht : st.io.session = t)
      (hw : st.io.writeState = .ready) (htail : tail = []) :
      Place e rest t tail (.handshake ⟨(party e).config, st, rest.ops e, false⟩)
  | flushes {st : State η} (p : Payload) (hk : Knows party e rest st) (ht : st.io.session = t)
      (howes : st.io.writeState.Owes st.io.writeBuffer tail) (hworks : st.io.writeState.Works) :
      Place e rest t tail (.handshake ⟨(party e).config, st, .send p :: rest.ops e, true⟩)
  | upgraded (io : NoiseOutput (TransportState κ)) (hrest : rest = []) (htail : tail = []) :
      Place e rest t tail (.upgraded (.identityKey (party !e).identity.publicKey) io)

/-- What is between an end and the other one, which has these bytes to read, and `later` when it is
upgraded. -/
def Way (later : Incoming) (tail : Bytes) (msg : Option Bytes) (inc : Incoming) (u : Upgrade η κ) :
    Upgrade η κ → Prop
  | .handshake h => Awaits h.state.io.readState inc later tail msg
    ∧ ((∀ remote io, u ≠ .upgraded remote io) → later = {})
  | .failed _ => False
  | .upgraded _ _ => inc = later ∧ tail = [] ∧ msg = none

/-- An end that is upgraded is one of the connection, where the other is as at its start. -/
def Stands (e : Bool) (o : NoiseOutput (TransportState κ)) : Upgrade η κ → Prop
  | .handshake _ | .failed _ => o = (Connection.start key).ends e
  | .upgraded _ io => io.Alike o

structure Inv (s : Upgrading η κ) (c : Connection κ) (t : Bool → η) (rest : Bool → Script)
    (msg : Bool → Option Bytes) (tail : Bool → Bytes) : Prop where
  stage : Stage H dh key party t rest msg
  place : ∀ e, Place party e (rest e) (t e) (tail e) (s.ends e)
  way : ∀ e, Way (c.incoming !e) (tail e) (msg e) (s.incoming !e) (s.ends e) (s.ends !e)
  stands : ∀ e, Stands key e (c.ends e) (s.ends e)

end Stages

section Put

variable {s : Upgrading η κ} {e : Bool} {u : Upgrade η κ} {inc : Incoming} {out : Bytes}

@[simp] theorem put_ends_not : (s.put e u inc out).ends (!e) = s.ends !e :=
  Function.update_of_ne (Bool.not_ne_self e) _ _

@[simp] theorem put_incoming : (s.put e u inc out).incoming e = inc := by
  unfold put
  dsimp only
  rw [Function.update_of_ne (Bool.self_ne_not e), Function.update_self]

theorem put_incoming_not (hu : ∀ err, u ≠ .failed err) : (s.put e u inc out).incoming (!e)
    = ⟨(s.incoming !e).bytes ++ out, (s.incoming !e).closed⟩ := by
  unfold put
  dsimp only
  rw [Function.update_self]
  cases u with
  | failed err => exact (hu err rfl).elim
  | handshake | upgraded => rw [Bool.or_false]

end Put

/-- The invariant is kept where what the end that polls has to keep of it is. -/
theorem Inv.put {s : Upgrading η κ} {c : Connection κ} {t t' : Bool → η}
    {rest rest' : Bool → Script} {msg msg' : Bool → Option Bytes} {tail tail' : Bool → Bytes}
    {e : Bool} {u : Upgrade η κ}
    {inc : Incoming} {out : Bytes} (hi : Inv H dh key party s c t rest msg tail)
    (hstage : Stage H dh key party t' rest' msg') (ht : t' (!e) = t !e)
    (hrest : rest' (!e) = rest !e) (htail : tail' (!e) = tail !e)
    (hplace : Place party e (rest' e) (t' e) (tail' e) u)
    (hto : Way (c.incoming !e) (tail' e) (msg' e)
      ⟨(s.incoming !e).bytes ++ out, (s.incoming !e).closed⟩ u (s.ends !e))
    (hfrom : Way (c.incoming e) (tail !e) (msg' !e) inc (s.ends !e) u)
    (hstands : Stands key e (c.ends e) u) :
    Inv H dh key party (s.put e u inc out) c t' rest' msg' tail' := by
  have hu : ∀ err, u ≠ .failed err := by
    rintro err rfl
    exact hfrom
  refine ⟨hstage, (Bool.forall_bool' e).2 ⟨?_, ?_⟩, (Bool.forall_bool' e).2 ⟨?_, ?_⟩,
    (Bool.forall_bool' e).2 ⟨?_, ?_⟩⟩
  · rw [put_ends]
    exact hplace
  · rw [put_ends_not, ht, hrest, htail]
    exact hi.place !e
  · rw [put_ends, put_ends_not, put_incoming_not hu]
    exact hto
  · rw [Bool.not_not, put_ends, put_ends_not, put_incoming, htail]
    exact hfrom
  · rw [put_ends]
    exact hstands
  · rw [put_ends_not]
    exact hi.stands !e

/-- What there is both ways, for an end that is in this state. -/
theorem Inv.ways {s : Upgrading η κ} {c : Connection κ} {t : Bool → η} {rest : Bool → Script}
    {msg : Bool → Option Bytes} {tail : Bool → Bytes} {e : Bool} {u : Upgrade η κ}
    (hi : Inv H dh key party s c t rest msg tail) (hu : s.ends e = u) :
    Way (c.incoming !e) (tail e) (msg e) (s.incoming !e) u (s.ends !e)
      ∧ Way (c.incoming e) (tail !e) (msg !e) (s.incoming e) (s.ends !e) u
      ∧ Stands key e (c.ends e) u := by
  subst hu
  have hfrom := hi.way !e
  rw [Bool.not_not] at hfrom
  exact ⟨hi.way e, hfrom, hi.stands e⟩

section Stage

variable {t : Bool → η} {rest : Bool → Script} {msg : Bool → Option Bytes} {e : Bool} {p : Payload}
  {r : Script}

theorem Script.Alternates.tail {m : Bool × Payload} (h : Script.Alternates (m :: r)) :
    r.Alternates := by
  rcases r with _ | ⟨m', r⟩
  · trivial
  · exact h.2

/-- An end that has been through the script. -/
theorem Stage.done (h : Stage H dh key party t rest msg) (hrest : rest e = []) :
    (H.getRemoteStatic (t e) = some (dh !e).toList
        ∧ H.intoTransportMode (t e) = some ⟨key e, key !e⟩)
      ∧ msg (!e) = none := by
  cases h with
  | quiet hag halt =>
    subst hrest
    exact ⟨hag e, rfl⟩
  | @flying _ _ w p m t' hw halt hmsg hnone hne hlt hread hag =>
    obtain rfl : e = w := by
      by_contra he
      rw [Bool.eq_not.2 he, hw] at hrest
      cases hrest
    rw [hrest] at hag
    have hdone := hag e
    rw [Function.update_of_ne (Bool.self_ne_not e)] at hdone
    exact ⟨hdone, hnone⟩

/-- An end that is to send: the other one has read all there was. -/
theorem Stage.sends (h : Stage H dh key party t rest msg) (hrest : rest e = (e, p) :: r) :
    (rest = fun _ => (e, p) :: r) ∧ (msg = fun _ => none)
      ∧ Agrees H dh key (e :: r.map Prod.fst) t ∧ Script.Alternates ((e, p) :: r) := by
  cases h with
  | quiet hag halt =>
    subst hrest
    exact ⟨rfl, rfl, hag, halt⟩
  | @flying _ _ w p' m t' hw halt hmsg hnone hne hlt hread hag =>
    exfalso
    by_cases he : e = w
    · subst he
      rw [hw, hrest] at halt
      exact halt.1 rfl
    · rw [Bool.eq_not.2 he, hw] at hrest
      exact Bool.self_ne_not w (Prod.mk.inj (List.cons.inj hrest).1).1

/-- An end that is to receive: nothing is on its way to it, or the message. -/
theorem Stage.receives (h : Stage H dh key party t rest msg) (hrest : rest e = (!e, p) :: r) :
    (msg (!e) = none ∧ rest (!e) ≠ []) ∨ ∃ m t', msg (!e) = some m ∧ msg e = none ∧ rest (!e) = r
      ∧ m ≠ [] ∧ m.length < 65536
      ∧ H.session.readMessage (t e) m = some ((party !e).state.message H p, t')
      ∧ Agrees H dh key (r.map Prod.fst) (Function.update t e t') ∧ r.Alternates := by
  cases h with
  | quiet hag halt =>
    subst hrest
    exact .inl ⟨rfl, List.cons_ne_nil _ _⟩
  | @flying _ _ w p' m t' hw halt hmsg hnone hne hlt hread hag =>
    by_cases he : e = w
    · subst he
      exact .inl ⟨hnone, by rw [hw]; exact List.cons_ne_nil _ _⟩
    · obtain rfl : w = !e := (Bool.eq_not.2 (Ne.symm he))
      rw [Bool.not_not] at hw hnone hread hag halt
      rw [hrest] at hw halt
      obtain ⟨hp, hr⟩ := List.cons.inj hw
      obtain rfl := (Prod.mk.inj hp).2
      rw [← hr] at hag
      exact .inr ⟨m, t', hmsg, hnone, hr.symm, hne, hlt, hread, hag, Script.Alternates.tail halt⟩

end Stage

theorem Way.write {later inc : Incoming} {tail tail' out : Bytes} {msg : Option Bytes}
    {u u' v : Upgrade η κ} (hu : ∀ remote io, u ≠ .upgraded remote io) (htail : tail = out ++ tail')
    (h : Way later tail msg inc u v) : Way later tail' msg ⟨inc.bytes ++ out, inc.closed⟩ u' v := by
  subst htail
  cases v with
  | handshake h' =>
    obtain ⟨⟨hlive, hclosed, bytes, hbytes, hpart⟩, hlater⟩ := h
    obtain rfl := hlater hu
    refine ⟨⟨hlive, hclosed, bytes ++ out, ?_, ?_⟩, fun _ => rfl⟩
    · rw [hbytes]
      simp
    · rw [← hpart]
      simp
  | failed err => exact h
  | upgraded remote io =>
    obtain ⟨rfl, hnil, hmsg⟩ := h
    obtain ⟨rfl, rfl⟩ := List.append_eq_nil_iff.1 hnil
    exact ⟨by rw [List.append_nil], rfl, hmsg⟩

/-- The io does not fail, and takes something of what it takes. -/
def Replies.Ok (a : Replies) : Prop :=
  .error ∉ a.read ∧ .error ∉ a.write ∧ .upTo 0 ∉ a.write ∧ ∀ err, a.flush ≠ .ready (.error err)

/-- An end that flushes writes on, and is done with its message once that is written. -/
theorem poll_flush (config : Config) {st : State η} (p : Payload) (ops : List Op) (inc : Incoming)
    {a : Replies} {tail : Bytes} (ha : Replies.Ok a)
    (howes : st.io.writeState.Owes st.io.writeBuffer tail) (hworks : st.io.writeState.Works) :
    ∃ ws out tail', tail = out ++ tail'
      ∧ ((Handshake.poll H inc ⟨config, st, .send p :: ops, true⟩ a
            = some (.handshake ⟨config, { st with io := { st.io with writeState := ws } },
              .send p :: ops, true⟩, inc, out)
          ∧ ws.Owes st.io.writeBuffer tail' ∧ ws.Works)
        ∨ (Handshake.poll H inc ⟨config, st, .send p :: ops, true⟩ a
            = some (.handshake
              ⟨config, { st with io := { st.io with writeState := ws } }, ops, false⟩, inc, out)
          ∧ ws = .ready ∧ tail' = [])) := by
  obtain ⟨tail', htail, howes'⟩ := pollReady_writes ha.2.1 howes
  obtain ⟨hworks', herr⟩ := pollReady_works ha.2.1 ha.2.2.1 howes hworks
  obtain ⟨hframe, hready⟩ := pollReady_frame a.write st.io
  refine ⟨(st.io.pollReady a.write).2.1.writeState, _, tail', htail, ?_⟩
  unfold Handshake.poll NoiseFramed.pollFlush
  dsimp only
  rw [if_pos rfl]
  rcases hr : st.io.pollReady a.write with ⟨_ | err | _, io, out⟩ <;>
    rw [hr] at howes' hworks' herr hframe hready <;>
    dsimp only at howes' hworks' herr hframe hready ⊢
  · exact .inl ⟨by rw [hframe], howes', hworks'⟩
  · exact (herr err rfl).elim
  · have hready := hready rfl
    rw [hready] at hframe howes' hworks' ⊢
    rcases hfl : a.flush with _ | err | _
    · exact .inl ⟨by rw [hframe], howes', hworks'⟩
    · exact (ha.2.2.2 err hfl).elim
    · exact .inr ⟨by rw [hframe], rfl, howes'⟩

theorem step_poll {s : Upgrading η κ} {e : Bool} {h : Handshake η} {a : Replies} {u : Upgrade η κ}
    {inc : Incoming} {out : Bytes} (hu : s.ends e = .handshake h)
    (hp : h.poll H (s.incoming e) a = some (u, inc, out)) :
    s.step H C (.poll e a) = some (s.put e u inc out) := by
  unfold step
  dsimp only
  rw [hu]
  dsimp only
  rw [hp]
  rfl

section Poll

variable {s : Upgrading η κ} {c : Connection κ} {t : Bool → η} {rest : Bool → Script}
  {msg : Bool → Option Bytes} {tail : Bool → Bytes} {e : Bool} {a : Replies} {st : State η}

/-- The end finishes its handshake. -/
theorem inv_finish (hh : Honest H dh key script party)
    (hknown : (party e).config.andThen a.known (.identityKey (party !e).identity.publicKey)
      = .ok ())
    (hi : Inv H dh key party s c t rest msg tail)
    (hu : s.ends e = .handshake ⟨(party e).config, st, [], false⟩) (hk : Knows party e (rest e) st)
    (ht : st.io.session = t e) (htail : tail e = []) (hrest : rest e = []) :
    ∃ s', s.step H C (.poll e a) = some s' ∧ Inv H dh key party s' c t rest msg tail := by
  obtain ⟨⟨hdh, hmode⟩, hmsg⟩ := hi.stage.done hrest
  rw [hrest] at hk
  have hfinish := hk.finish hh (ht ▸ hdh) (ht ▸ hmode)
  have hp : Handshake.poll H (s.incoming e) ⟨(party e).config, st, [], false⟩ a
      = some (.upgraded (.identityKey (party !e).identity.publicKey)
        { io := { session := ⟨key e, key !e⟩, writeBuffer := st.io.writeBuffer } },
        s.incoming e, []) := by
    unfold Handshake.poll
    dsimp only
    rw [hfinish]
    dsimp only
    rw [hknown]
  obtain ⟨hto, hfrom, hstands⟩ := hi.ways hu
  rw [hmsg] at hfrom
  obtain ⟨hinc, htail'⟩ := hfrom.1.empty
  refine ⟨_, step_poll hu hp, hi.put hi.stage rfl rfl rfl (.upgraded _ hrest htail) ?_ ?_ ?_⟩
  · exact hto.write (fun _ _ h => by cases h) rfl
  · exact ⟨hinc, htail', hmsg⟩
  · rw [hstands]
    exact ⟨rfl, .inr ⟨trivial, [], rfl⟩⟩

/-- The end hands its message to the io. -/
theorem inv_send (hh : Honest H dh key script party) {p : Payload} {r : Script}
    (hi : Inv H dh key party s c t rest msg tail)
    (hu : s.ends e = .handshake ⟨(party e).config, st, .send p :: r.ops e, false⟩)
    (hk : Knows party e (rest e) st) (ht : st.io.session = t e) (hw : st.io.writeState = .ready)
    (htail : tail e = []) (hrest : rest e = (e, p) :: r) :
    ∃ s' t' rest' msg' tail', s.step H C (.poll e a) = some s'
      ∧ Inv H dh key party s' c t' rest' msg' tail' := by
  obtain ⟨hrests, hmsgs, hag, halt⟩ := hi.stage.sends hrest
  have hlen : ((party e).state.message H p).length ≤ maxFrameLen := by
    cases p with
    | empty => exact Nat.zero_le _
    | identity => exact hh.fits e
  obtain ⟨m, t', hwrite, hread, hne, hle, hag'⟩ := hag _ hlen
  have hlt : m.length < 65536 := by
    have hmax : maxFrameLen + extraEncryptSpace = 65535 := rfl
    omega
  have hstart : st.io.startSend H.session (st.message H p) = some (.ok (), { st.io with
      session := t' e
      writeBuffer := m
      writeState := .writeLen m.length (toBeBytes m.length) 0 }) := by
    unfold NoiseFramed.startSend
    rw [hk.message, if_pos ⟨hlen, hw⟩, ht, hwrite]
  have hp : Handshake.poll H (s.incoming e) ⟨(party e).config, st, .send p :: r.ops e, false⟩ a
      = some (.handshake ⟨(party e).config, { st with io := { st.io with
          session := t' e
          writeBuffer := m
          writeState := .writeLen m.length (toBeBytes m.length) 0 } }, .send p :: r.ops e, true⟩,
        s.incoming e, []) := by
    unfold Handshake.poll
    dsimp only
    rw [if_neg Bool.false_ne_true, pollReady_ready hw]
    dsimp only
    rw [hstart]
  obtain ⟨hto, hfrom, hstands⟩ := hi.ways hu
  rw [htail, hmsgs] at hto
  have hupdate : Function.update (Function.update t e (t' e)) (!e) (t' !e) = t' := by
    funext e'
    revert e'
    refine (Bool.forall_bool' e).2 ⟨?_, ?_⟩
    · rw [Function.update_of_ne (Bool.self_ne_not e), Function.update_self]
    · rw [Function.update_self]
  have hstage : Stage H dh key party (Function.update t e (t' e)) (Function.update rest e r)
      (Function.update msg e (some m)) := by
    refine .flying (w := e) (p := p) (m := m) (q := t' !e) ?_ ?_ ?_ ?_ hne hlt ?_ ?_
    · rw [Function.update_of_ne (Bool.not_ne_self e), Function.update_self, hrests]
    · rw [Function.update_of_ne (Bool.not_ne_self e), hrests]
      exact halt
    · exact Function.update_self _ _ _
    · rw [Function.update_of_ne (Bool.not_ne_self e), hmsgs]
    · rw [Function.update_of_ne (Bool.not_ne_self e)]
      exact hread
    · rw [Function.update_self, hupdate]
      exact hag'
  refine ⟨_, _, _, _, Function.update tail e (lengths.frame m), step_poll hu hp,
    hi.put hstage (Function.update_of_ne (Bool.not_ne_self e) _ _)
      (Function.update_of_ne (Bool.not_ne_self e) _ _)
      (Function.update_of_ne (Bool.not_ne_self e) _ _) ?_ ?_ ?_ hstands⟩
  · rw [Function.update_self, Function.update_self, Function.update_self]
    refine .flushes p ?_ rfl ?_ trivial
    · rw [hrest] at hk
      exact hk.sent.setIo _
    · exact ⟨rfl, List.length_pos_iff.2 hne, length_toBeBytes _, Nat.two_pos, rfl⟩
  · rw [Function.update_self, Function.update_self, List.append_nil]
    have hplace := hi.place !e
    rcases hv : s.ends !e with h' | err | ⟨remote, io⟩ <;> rw [hv] at hto hplace
    · obtain ⟨⟨hlive, hclosed, bytes, hbytes, hpart⟩, hlater⟩ := hto
      have hpart' := (List.append_eq_nil_iff.1 hpart).1
      obtain ⟨rfl, -⟩ := List.append_eq_nil_iff.1 (List.append_eq_nil_iff.1 hpart).2
      refine ⟨⟨hlive, hclosed, [], hbytes, ?_⟩, fun _ => hlater fun _ _ h => by cases h⟩
      rw [hpart']
      rfl
    · exact hto
    · cases hplace with
      | upgraded _ hnil =>
        rw [hrests] at hnil
        cases hnil
  · rw [Function.update_of_ne (Bool.not_ne_self e)]
    exact hfrom

/-- The end polls for a message, which comes whole or not yet. -/
theorem inv_recv (hh : Honest H dh key script party) (ha : Replies.Ok a) {p : Payload} {r : Script}
    (hi : Inv H dh key party s c t rest msg tail)
    (hu : s.ends e = .handshake ⟨(party e).config, st, .recv p :: r.ops e, false⟩)
    (hk : Knows party e (rest e) st) (ht : st.io.session = t e) (hw : st.io.writeState = .ready)
    (htail : tail e = []) (hrest : rest e = (!e, p) :: r) :
    ∃ s' t' rest' msg' tail', s.step H C (.poll e a) = some s'
      ∧ Inv H dh key party s' c t' rest' msg' tail' := by
  obtain ⟨hto, ⟨hawaits, hlater⟩, hstands⟩ := hi.ways hu
  have hreceives := hi.stage.receives hrest
  have hread : ∀ m ∈ msg !e, m ≠ [] ∧ m.length < 65536
      ∧ (H.session.readMessage st.io.session m).isSome := by
    intro m hm
    rcases hreceives with ⟨hnone, -⟩ | ⟨m', t', hsome, -, -, hne, hlt, hread, -⟩
    · rw [hnone] at hm
      cases hm
    · rw [hsome] at hm
      cases hm
      rw [ht, hread]
      exact ⟨hne, hlt, rfl⟩
  have hmay : c.incoming e = {} ∨ tail (!e) = [] ∧ msg (!e) ≠ none := by
    have hplace := hi.place !e
    rcases hv : s.ends !e with h' | err | ⟨remote, io⟩ <;> rw [hv] at hplace hlater
    · exact .inl (hlater fun _ _ h => by cases h)
    · exact .inl (hlater fun _ _ h => by cases h)
    · cases hplace with
      | upgraded _ hnil htail' =>
        refine .inr ⟨htail', fun hnone => ?_⟩
        rcases hreceives with ⟨-, hne⟩ | ⟨m', t', hsome, -⟩
        · exact hne hnil
        · cases hsome.symm.trans hnone
  have hpolls := pollNext_polls (S := H.session) (s.incoming e) ha.1 hawaits.1
  have hframe := (pollNext_takes (S := H.session) a.read (s.incoming e) st.io).frame
  rcases hr : st.io.pollNext H.session (s.incoming e) a.read with ⟨ans, inc, io⟩
  rw [hr] at hpolls hframe
  dsimp only at hpolls hframe
  rcases hawaits.polls hread hmay hpolls with ⟨rfl, hsame, hawaits'⟩ | ⟨m, hm, x, hx, rfl, hawaits'⟩
  · have hp : Handshake.poll H (s.incoming e) ⟨(party e).config, st, .recv p :: r.ops e, false⟩ a
        = some (.handshake ⟨(party e).config, { st with io := io }, .recv p :: r.ops e, false⟩,
          inc, []) := by
      unfold Handshake.poll
      dsimp only
      rw [hr]
    have hops : (.recv p :: r.ops e : List Op) = (rest e).ops e := by
      rw [hrest, Script.ops_recv]
    have hready : io.writeState = .ready := by rw [hframe, ← hw]
    refine ⟨_, _, _, _, _, step_poll hu hp,
      hi.put hi.stage rfl rfl rfl ?_ ?_ ⟨hawaits', hlater⟩ hstands⟩
    · rw [hops]
      exact .waits (hk.setIo io) (hsame.trans ht) hready htail
    · exact hto.write (fun _ _ h => by cases h) rfl
  · rcases hreceives with ⟨hnone, -⟩ | ⟨m', t', hsome, hnone, hrest', -, -, hread', hag, halt⟩
    · rw [hnone] at hm
      cases hm
    · rw [hsome] at hm
      cases hm
      rw [ht, hread', Option.some.injEq, Prod.mk.injEq] at hx
      obtain ⟨rfl, rfl⟩ := hx
      rw [hrest] at hk
      obtain ⟨st', hrecv, hk', hio⟩ := (hk.setIo io).recv hh
      have hp : Handshake.poll H (s.incoming e) ⟨(party e).config, st, .recv p :: r.ops e, false⟩ a
          = some (.handshake ⟨(party e).config, st', r.ops e, false⟩, inc, []) := by
        unfold Handshake.poll
        dsimp only
        rw [hr]
        dsimp only
        rw [hrecv]
      have hready : st'.io.writeState = .ready := by rw [hio, ← hw, hframe]
      have hstage : Stage H dh key party (Function.update t e io.session)
          (fun _ => r) fun _ => none :=
        .quiet hag halt
      refine ⟨_, _, _, _, tail, step_poll hu hp, hi.put hstage
        (Function.update_of_ne (Bool.not_ne_self e) _ _) hrest'.symm rfl ?_ ?_ ?_ hstands⟩
      · rw [Function.update_self]
        exact .waits hk' (congrArg NoiseFramed.session hio) hready htail
      · rw [hnone] at hto
        exact hto.write (fun _ _ h => by cases h) rfl
      · refine ⟨?_, hlater⟩
        rw [hio]
        exact hawaits'

/-- A poll of an end that is in its handshake is taken, and is what the script has for it. -/
theorem inv_poll (hh : Honest H dh key script party) (ha : Replies.Ok a)
    (hknown : (party e).config.andThen a.known (.identityKey (party !e).identity.publicKey)
      = .ok ())
    (hi : Inv H dh key party s c t rest msg tail) {h : Handshake η} (hu : s.ends e = .handshake h) :
    ∃ s' t' rest' msg' tail', s.step H C (.poll e a) = some s'
      ∧ Inv H dh key party s' c t' rest' msg' tail' := by
  have hplace := hi.place e
  rw [hu] at hplace
  cases hplace with
  | @waits st hk ht hw htail =>
    rcases hrest : rest e with _ | ⟨⟨w, p⟩, r⟩
    · rw [hrest] at hu
      obtain ⟨s', hs, hi'⟩ := inv_finish hh hknown hi hu hk ht htail hrest
      exact ⟨s', _, _, _, _, hs, hi'⟩
    · rw [hrest] at hu
      by_cases he : w = e
      · subst he
        exact inv_send hh hi (by simpa using hu) hk ht hw htail hrest
      · obtain rfl : w = !e := Bool.eq_not.2 he
        exact inv_recv hh ha hi (by simpa using hu) hk ht hw htail hrest
  | @flushes st p hk ht howes hworks =>
    obtain ⟨hto, hfrom, hstands⟩ := hi.ways hu
    obtain ⟨ws, out, tail', htail, ⟨hp, howes', hworks'⟩ | ⟨hp, rfl, rfl⟩⟩ :=
      poll_flush (H := H) (party e).config p ((rest e).ops e) (s.incoming e) ha howes hworks
    · refine ⟨_, _, _, _, Function.update tail e tail', step_poll hu hp, hi.put hi.stage rfl rfl
        (Function.update_of_ne (Bool.not_ne_self e) _ _) ?_ ?_ hfrom hstands⟩
      · rw [Function.update_self]
        exact .flushes p (hk.setIo _) ht howes' hworks'
      · rw [Function.update_self]
        exact hto.write (fun _ _ h => by cases h) htail
    · refine ⟨_, _, _, _, Function.update tail e [], step_poll hu hp, hi.put hi.stage rfl rfl
        (Function.update_of_ne (Bool.not_ne_self e) _ _) ?_ ?_ hfrom hstands⟩
      · rw [Function.update_self]
        exact .waits (hk.setIo _) ht rfl rfl
      · rw [Function.update_self]
        exact hto.write (fun _ _ h => by cases h) htail

end Poll

section Passes

variable (H C)

/-- What passes from end `e` to the other one in a poll of an end that is upgraded. -/
def passes (e : Bool) (s : Upgrading η κ) : Act → List Connection.Passed
  | .poll _ _ => []
  | .transport a =>
    match s.ends a.by with
    | .upgraded _ io => [Connection.passes C e { ends := fun _ => io, incoming := s.incoming } a]
    | _ => []

def passed (e : Bool) (s : Upgrading η κ) (as : List Act) : List Connection.Passed :=
  (observe (step H C) (passes C e) s as).flatten

/-- All that end `e` has accepted to write. -/
def accepted (e : Bool) (s : Upgrading η κ) (as : List Act) : Bytes :=
  (passed H C e s as).flatMap Connection.Passed.accepted

/-- All that the other end has given of what comes from end `e`. -/
def given (e : Bool) (s : Upgrading η κ) (as : List Act) : Bytes :=
  (passed H C e s as).flatMap Connection.Passed.given

end Passes

/-- A poll of an end that is upgraded is one in the connection. -/
theorem inv_transport {s s' : Upgrading η κ} {c : Connection κ} {t : Bool → η}
    {rest : Bool → Script} {msg : Bool → Option Bytes} {tail : Bool → Bytes} {a : Connection.Act}
    (hi : Inv H dh key party s c t rest msg tail) (hs : s.step H C (.transport a) = some s') :
    ∃ c', c.step C a = some c' ∧ (∀ e, passes C e s (.transport a) = [Connection.passes C e c a])
      ∧ Inv H dh key party s' c' t rest msg tail := by
  have hplace := hi.place a.by
  obtain ⟨remote, io, d, hu, hd, rfl⟩ := of_step_transport hs
  rw [hu] at hplace
  obtain ⟨hto, hfrom, hstands⟩ := hi.ways hu
  obtain ⟨hinc, htail, hmsg⟩ := hfrom
  obtain ⟨c', hc', hlike, hends, hin, out, closed, hout, hout'⟩ :=
    Connection.step_alike hd hstands hinc
  have hpasses : ∀ e, passes C e s (.transport a) = [Connection.passes C e c a] := by
    intro e
    rw [← Connection.passes_alike hd hstands hinc e]
    unfold passes
    dsimp only
    rw [hu]
  refine ⟨c', hc', hpasses, hi.stage, (Bool.forall_bool' a.by).2 ⟨?_, ?_⟩,
    (Bool.forall_bool' a.by).2 ⟨?_, ?_⟩, (Bool.forall_bool' a.by).2 ⟨?_, ?_⟩⟩
  · dsimp only
    rw [Function.update_self]
    cases hplace with
    | upgraded _ hrest htail => exact .upgraded _ hrest htail
  · dsimp only
    rw [Function.update_of_ne (Bool.not_ne_self _)]
    exact hi.place _
  · dsimp only
    rw [Function.update_self, Function.update_of_ne (Bool.not_ne_self _), hout, hout']
    dsimp only
    rcases hv : s.ends !a.by with h' | err | ⟨remote', io'⟩ <;> rw [hv] at hto
    · obtain ⟨⟨hlive, hclosed, bytes, hbytes, hpart⟩, -⟩ := hto
      refine ⟨⟨hlive, ?_, bytes, ?_, hpart⟩, fun hne => (hne _ _ rfl).elim⟩
      · show (_ || closed) = (_ || closed)
        rw [hclosed]
      · show _ ++ out = _
        rw [hbytes, List.append_assoc]
    · exact hto
    · obtain ⟨hinc', htail', hmsg'⟩ := hto
      rw [hinc']
      exact ⟨rfl, htail', hmsg'⟩
  · dsimp only
    rw [Bool.not_not, Function.update_self]
    exact ⟨hin, htail, hmsg⟩
  · dsimp only
    rw [Function.update_self]
    exact hlike
  · dsimp only
    rw [Function.update_of_ne (Bool.not_ne_self _), hends]
    exact hi.stands _

theorem inv_init (hh : Honest H dh key script party) :
    Inv H dh key party (init party script) (.start key) (fun e => (party e).session)
      (fun _ => script) (fun _ => none) fun _ => [] := by
  refine ⟨.quiet hh.agrees hh.alternates, fun e => ?_, fun e => ?_, fun e => rfl⟩
  · refine .waits ⟨rfl, rfl, rfl, .inl rfl, fun hnot => ?_⟩ rfl rfl rfl
    exact (hnot (hh.identifies !e)).elim
  · exact ⟨⟨trivial, rfl, [], rfl, rfl⟩, fun _ => rfl⟩

/-- The poll of a connection that an action is. -/
def Act.transport? : Act → Option Connection.Act
  | .poll _ _ => none
  | .transport a => some a

/-- What the io answers is no failure, and the database has the key of the other end. -/
def Lets (party : Bool → Party η) : Act → Prop
  | .poll e a => Replies.Ok a
    ∧ (party e).config.andThen a.known (.identityKey (party !e).identity.publicKey) = .ok ()
  | .transport _ => True

theorem inv_run (hh : Honest H dh key script party) {s : Upgrading η κ} {as : List Act}
    (hok : ∀ a ∈ as, Lets party a) (h : Run.run (step H C) (init party script) as = some s)
    (e : Bool) :
    ∃ c, Run.run (Connection.step C) (.start key) (as.filterMap Act.transport?) = some c
      ∧ passed H C e (init party script) as
        = Connection.passed C e (.start key) (as.filterMap Act.transport?)
      ∧ ∃ t rest msg tail, Inv H dh key party s c t rest msg tail := by
  refine Run.refines (R := fun u c => ∃ t rest msg tail, Inv H dh key party u c t rest msg tail)
    (fun u a u' c ha hs hi => ?_) (along_of_forall hok) h ⟨_, _, _, _, inv_init hh⟩
  obtain ⟨t, rest, msg, tail, hi⟩ := hi
  rcases a with ⟨e', a⟩ | a
  · obtain ⟨h, -, -, -, hu, -⟩ := of_step_poll hs
    obtain ⟨u'', t', rest', msg', tail', hs', hi'⟩ := inv_poll hh ha.1 ha.2 hi hu
    obtain rfl : u'' = u' := Option.some.inj (hs'.symm.trans hs)
    exact ⟨c, rfl, rfl, t', rest', msg', tail', hi'⟩
  · obtain ⟨c', hc', hpasses, hi'⟩ := inv_transport hi hs
    refine ⟨c', ?_, ?_, t, rest, msg, tail, hi'⟩
    · show (c.step C a).bind _ = some c'
      rw [hc']
      rfl
    · rw [hpasses]
      show _ = Connection.passes C e c a :: (c.step C a).elim [] _
      rw [hc']
      rfl

/-- Two ends that mean well: no handshake panics or fails, an end that is upgraded knows the other,
and the ends that are upgraded are those of a connection that started with the keys of their
sessions. -/
theorem refines_run {s : Upgrading η κ} {as : List Act} (hh : Honest H dh key script party)
    (hok : ∀ a ∈ as, Lets party a) (h : Run.run (step H C) (init party script) as = some s) :
    (∀ e err, s.ends e ≠ .failed err)
      ∧ (∀ e h a, s.ends e = .handshake h → Lets party (.poll e a) →
        (s.step H C (.poll e a)).isSome)
      ∧ ∃ c, Run.run (Connection.step C) (.start key) (as.filterMap Act.transport?) = some c
        ∧ ∀ e remote io, s.ends e = .upgraded remote io →
          remote = .identityKey (party !e).identity.publicKey ∧ io.Alike (c.ends e)
            ∧ s.incoming e = c.incoming e := by
  obtain ⟨c, hc, -, t, rest, msg, tail, hi⟩ := inv_run hh hok h true
  refine ⟨fun e err hu => ?_, fun e h a hu ha => ?_, c, hc, fun e remote io hu => ?_⟩
  · have hplace := hi.place e
    rw [hu] at hplace
    cases hplace
  · obtain ⟨s', t', rest', msg', tail', hs, -⟩ := inv_poll (C := C) hh ha.1 ha.2 hi hu
    rw [hs]
    rfl
  · obtain ⟨-, hfrom, hstands⟩ := hi.ways hu
    have hplace := hi.place e
    rw [hu] at hplace
    cases hplace with
    | upgraded => exact ⟨rfl, hstands, hfrom.1⟩

/-- The initiator writes and flushes before the responder has read the end of the handshake. -/
def toyEarly : List Act :=
  toyUpgrade ++ [.transport (.write true [7, 8, 9] []),
    .transport (.flush true ⟨[], [.upTo 2, .upTo 60], .ready (.ok ())⟩), .poll false toyReplies,
    .poll false toyReplies, .transport (.read false 9 [[.upTo 1, .upTo 999]])]

theorem lets_toyEarly : ∀ a ∈ toyEarly, Lets toyParty a := by
  have hpoll : ∀ e, Lets toyParty (.poll e toyReplies) := by
    refine fun e => ⟨⟨by decide, by decide, by decide, fun err h => by cases h⟩, ?_⟩
    cases e <;> rfl
  have htransport : ∀ a, Lets toyParty (.transport a) := fun a => trivial
  simp [toyEarly, toyUpgrade, hpoll, htransport]

theorem refines_run_toyEarly : ∃ c : Connection ℕ,
    Run.run (Connection.step tagging) (.start fun _ => 0) (toyEarly.filterMap Act.transport?)
      = some c
      ∧ ∃ io : Bool → NoiseOutput (TransportState ℕ), ∀ e, (io e).Alike (c.ends e) := by
  obtain ⟨s, h, hup⟩ := exists_of_any
    (o := Run.run (step toySuite tagging) (init toyParty rt15) toyEarly)
    (p := fun s => ∀ e, remote? (s.ends e) = some (.identityKey (toyIdentity !e).publicKey))
    (by decide +kernel)
  obtain ⟨-, -, c, hc, hends⟩ := refines_run toyParty_honest lets_toyEarly h
  choose io hio using fun e => of_remote? (hup e)
  exact ⟨c, hc, io, fun e => (hends e _ _ (hio e)).2.1⟩

/-- From the handshake on, what an end reads is what the other one has accepted, in that order. -/
theorem relayed_run (hC : C.Sound) {s : Upgrading η κ} {as : List Act}
    (hh : Honest H dh key script party) (hok : ∀ a ∈ as, Lets party a)
    (hio : ∀ a ∈ as.filterMap Act.transport?, a.IoWorks)
    (h : Run.run (step H C) (init party script) as = some s) (e : Bool) :
    given H C e (init party script) as <+: accepted H C e (init party script) as := by
  obtain ⟨c, hc, hpassed, -⟩ := inv_run hh hok h e
  have hcarries := Connection.carries_run hC key hio hc e
  unfold given accepted
  rw [hpassed]
  exact Carries.in_order hcarries

theorem relayed_run_toyEarly :
    given toySuite tagging true (init toyParty rt15) toyEarly
      <+: accepted toySuite tagging true (init toyParty rt15) toyEarly := by
  obtain ⟨s, h⟩ := Option.isSome_iff_exists.1
    (show (Run.run (step toySuite tagging) (init toyParty rt15) toyEarly).isSome by decide +kernel)
  exact relayed_run tagging_sound toyParty_honest lets_toyEarly (by decide) h true

example : given toySuite tagging true (init toyParty rt15) toyEarly = [7, 8, 9] := by decide +kernel

end Upgrading

end Nyumt.Noise
