import Nyumt.Master
import Nyumt.Toy
import Nyumt.Validate

/-!
# Does a peer accept what the serving master accepts?

The two call `verify_req` with the same orders, signer and permissions but over different bytes: a
body goes on after its orders (`toVec_body_ne`). A signature that is good for one of the two is
not good for the other, so whenever one of the masters accepts the other refuses
(`validation_agrees_iff`).
-/

namespace Nyumt

open Borsh

variable {K : Crypto}

section Bodies

/-- The body of a block is its orders and more. -/
theorem toVec_body_ne {body : BodyData} {raw bytes : Bytes} (hb : toVec body = some bytes)
    (hr : toVec body.req = some raw) : raw ≠ bytes := by
  obtain ⟨a, ha, h⟩ := Option.bind_eq_some_iff.1 hb
  obtain ⟨c, hc, h⟩ := Option.bind_eq_some_iff.1 h
  simp only [Option.pure_def, Option.some.injEq] at h
  obtain rfl : raw = a := by simpa using hr.symm.trans ha
  -- the timestamp alone has eight bytes
  obtain ⟨s, -, h₁⟩ := Option.bind_eq_some_iff.1 hc
  obtain ⟨u, hu, h₁⟩ := Option.bind_eq_some_iff.1 h₁
  obtain ⟨k, -, h₂⟩ := Option.bind_eq_some_iff.1 hu
  obtain ⟨w, hw, h₂⟩ := Option.bind_eq_some_iff.1 h₂
  simp only [Option.pure_def, Option.some.injEq] at h₁ h₂
  have hlen : w.length = 8 := by
    have hw : leBytes 8 body.timestamp.toNat = w := Option.some.inj hw
    rw [← hw, length_leBytes]
  intro he
  have := congrArg List.length (h.trans he.symm)
  rw [← h₁, ← h₂] at this
  simp only [List.length_append] at this
  omega

theorem fromSlice_body {body : BodyData} {bytes : Bytes} (h : toVec body = some bytes) :
    fromSlice BodyData bytes
      = some ⟨reset body.req, body.sign, body.userPk, body.timestamp⟩ := by
  rw [fromSlice_of_ser h]
  change some (BodyData.mk (reset body.req) (reset body.sign) (reset body.userPk)
    (reset body.timestamp)) = _
  simp only [reset_eq]

end Bodies

section Handler

variable {s : SwarmSettings} {block : Block} {v : BodyData} {perm : Permissions}

/-- The gossip handler by itself. -/
def gossipStep (K : Crypto) (p : SwarmSettings × Gossip) (a : List Bool × Bool) :
    Option (SwarmSettings × Gossip) :=
  Gossip.step K p.1 a.1 a.2 p.2

/-- And while publishing goes as `a` says. -/
def gossipAlone (K : Crypto) (a : List Bool × Bool) (p : SwarmSettings × Gossip) (_ : Unit) :
    Option (SwarmSettings × Gossip) :=
  gossipStep K p a

variable {a : List Bool × Bool}

theorem gossipAlone_head {p q r : SwarmSettings × Gossip} (h : gossipStep K p a = some q)
    (hr : Run.Reaches (gossipAlone K a) q r) : Run.Reaches (gossipAlone K a) p r :=
  Run.Reaches.head (a := ()) h hr

theorem reaches_done (r : Except Fault (Option RequestError)) :
    Run.Reaches (gossipAlone K a) (s, .check block v perm (.done r))
      (s, if r = .ok none then .accept block v else .refuse block) := by
  refine gossipAlone_head ?_ (.refl _)
  rcases r with e | _ | e <;> rfl

theorem reaches_of_iterate {r : Except Fault (Option RequestError)} : ∀ (n : ℕ) (c : Check),
    (Check.step s.db.toTables v.userPk perm)^[n] c = .done r →
      Run.Reaches (gossipAlone K a) (s, .check block v perm c)
        (s, if r = .ok none then .accept block v else .refuse block)
  | 0, c, h => by
    obtain rfl : c = .done r := h
    exact reaches_done r
  | n + 1, .done r', h => by
    have hdone : (Check.step s.db.toTables v.userPk perm)^[n + 1] (.done r') = .done r' :=
      Function.iterate_fixed rfl _
    obtain rfl : r' = r := by simpa using hdone.symm.trans h
    exact reaches_done r'
  | n + 1, .entity req, h => gossipAlone_head rfl (reaches_of_iterate n _ h)
  | n + 1, .permission o req, h => gossipAlone_head rfl (reaches_of_iterate n _ h)

/-- The gossip handler, if nobody writes to the tables meanwhile, comes to vote for a block just
if `peerVerify` has nothing against it. -/
theorem gossip_reaches (hv : fromSlice BodyData block.body = some v) :
    Run.Reaches (gossipAlone K a) (s, .user block v)
      (s, if peerVerify K s.db.toTables block = some (.ok none) then .accept block v
        else .refuse block) := by
  simp only [peerVerify, hv, Option.bind_eq_bind, Option.bind_some]
  rcases hp : s.db.permissionsOf v.userPk with _ | perm
  · have huser : gossipStep K (s, .user block v) a = some (s, .refuse block) := by
      simp [gossipStep, Gossip.step, hp]
    exact gossipAlone_head huser (.refl _)
  · have huser : gossipStep K (s, .user block v) a
        = some (s, .check block v perm (.start K block.body v.req v.userPk v.sign)) := by
      simp [gossipStep, Gossip.step, hp]
    obtain ⟨n, hn⟩ : ∃ n, (Check.step s.db.toTables v.userPk perm)^[n]
        (.start K block.body v.req v.userPk v.sign)
          = .done (verifyReq K s.db.toTables block.body v.req v.userPk perm v.sign) :=
      Check.iterate_start K block.body v.req v.sign
    simpa using gossipAlone_head huser (reaches_of_iterate n _ hn)

end Handler

section Agreement

variable {d d' : Database} {req : List RequestType} {sign raw bytes : Bytes} {pk : PublicKey}
  {timestamp : UInt64}

theorem servingVerify_eq (t : Tables) (perms : Permissions) (hr : toVec req = some raw) :
    servingVerify K t req pk perms sign = some (verifyReq K t raw req pk perms sign) := by
  simp [servingVerify, hr]

theorem peerVerify_eq (t : Tables) (hash : Digest)
    (hb : toVec (BodyData.mk req sign pk timestamp) = some bytes) :
    peerVerify K t ⟨hash, bytes⟩
      = (t.permissionsOf pk).map fun perm => verifyReq K t bytes req pk perm sign := by
  simp only [peerVerify, fromSlice_body hb, Option.bind_eq_bind, Option.bind_some, verifyReq_reset]
  rcases t.permissionsOf pk with _ | perm <;> rfl

/-- Nobody accepts the request: the key is not a key, the signer has no permissions stored, some
order is refused, or the signature is good for neither of the two byte strings. -/
def Refused (K : Crypto) (t : Tables) (req : List RequestType) (pk : PublicKey)
    (sign raw bytes : Bytes) : Prop :=
  ∀ perms, t.permissionsOf pk = some perms → (∀ o, .order o ∈ req → Accepted t pk perms o) →
    pk.verifySig K raw sign ≠ .ok true ∧ pk.verifySig K bytes sign ≠ .ok true

theorem verifySig_unique {m m' : Bytes}
    (hideal : ∀ k m m' sig, K.verify k m sig → K.verify k m' sig → m = m')
    (h : pk.verifySig K m sign = .ok true) (h' : pk.verifySig K m' sign = .ok true) : m = m' := by
  obtain ⟨k⟩ := pk
  simp only [PublicKey.verifySig] at h h'
  split_ifs at h h'
  simp only [Except.ok.injEq] at h h'
  exact hideal k m m' sign h h'

/-- A request that one master accepts from its client is never accepted by its peers, and the
other way about; they agree on it just if nobody accepts it. -/
theorem validation_agrees_iff
    (hideal : ∀ k m m' sig, K.verify k m sig → K.verify k m' sig → m = m')
    (hd : d.toTables = d'.toTables) (hr : toVec req = some raw)
    (hb : toVec (BodyData.mk req sign pk timestamp) = some bytes) :
    ((∃ perms, d.permissionsOf pk = some perms
        ∧ servingVerify K d.toTables req pk perms sign = some (.ok none)) ↔
      peerVerify K d'.toTables ⟨K.sha256 bytes, bytes⟩ = some (.ok none)) ↔
      Refused K d.toTables req pk sign raw bytes := by
  rw [← hd, peerVerify_eq _ _ hb]
  simp only [servingVerify_eq _ _ hr, Option.some.injEq, Option.map_eq_some_iff,
    verifyReq_eq_ok_none]
  have hne : raw ≠ bytes := toVec_body_ne hb hr
  constructor
  · intro hiff perms hp ho
    refine ⟨fun hs => ?_, fun hs => ?_⟩
    · obtain ⟨perms', hp', hs', -⟩ := hiff.1 ⟨perms, hp, hs, ho⟩
      exact hne (verifySig_unique hideal hs hs')
    · obtain ⟨perms', hp', hs', -⟩ := hiff.2 ⟨perms, hp, hs, ho⟩
      exact hne (verifySig_unique hideal hs' hs)
  · intro href
    constructor
    · rintro ⟨perms, hp, hs, ho⟩
      exact ((href perms hp ho).1 hs).elim
    · rintro ⟨perms, hp, hs, ho⟩
      exact ((href perms hp ho).2 hs).elim

/-- Neither master accepts what is signed over something else. -/
theorem validation_agrees_unsigned :
    (∃ perms, toyGenesis.permissionsOf (toyKey 1) = some perms
        ∧ servingVerify toy toyGenesis.toTables [.order (.addNode "n" (toyKey 2))] (toyKey 1)
          perms [] = some (.ok none)) ↔
      peerVerify toy toyGenesis.toTables
        ⟨toy.sha256
            ((toVec (BodyData.mk [.order (.addNode "n" (toyKey 2))] [] (toyKey 1) 0)).getD []),
          (toVec (BodyData.mk [.order (.addNode "n" (toyKey 2))] [] (toyKey 1) 0)).getD []⟩
        = some (.ok none) := by
  have hr : ∃ raw, toVec [RequestType.order (.addNode "n" (toyKey 2))] = some raw := ⟨_, rfl⟩
  obtain ⟨raw, hr⟩ := hr
  have hb : toVec (BodyData.mk [.order (.addNode "n" (toyKey 2))] [] (toyKey 1) 0)
    = some ((toVec (BodyData.mk [.order (.addNode "n" (toyKey 2))] [] (toyKey 1) 0)).getD []) := rfl
  refine (validation_agrees_iff (fun k m m' sig h h' => ?_) rfl hr hb).2 fun perms _ _ => ?_
  · simp only [toy, decide_eq_true_eq] at h h'
    simpa using h.symm.trans h'
  · simp [PublicKey.verifySig, toyKey, toy]

/-- The root user adds a node: the serving master accepts, a peer finds the signature wrong. -/
theorem validation_disagrees :
    let req : List RequestType := [.order (.addNode "n" (toyKey 2))]
    let sign := toySign (toyKey 1) ((toVec req).getD [])
    let body := (toVec (BodyData.mk req sign (toyKey 1) 0)).getD []
    servingVerify toy toyGenesis.toTables req (toyKey 1) [.root] sign = some (.ok none)
      ∧ toyGenesis.permissionsOf (toyKey 1) = some [.root]
      ∧ peerVerify toy toyGenesis.toTables ⟨toy.sha256 body, body⟩
        = some (.ok (some .signatureError)) := by
  decide +kernel

end Agreement

end Nyumt
