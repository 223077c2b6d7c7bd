import Nyumt.Toy

/-!
# Requests that are let through

`verify_req` and `interpret_block` go through the same orders, one in Rust and one in SQL. What is
let through and cannot be applied is an order that updates the signer's own key
(`accepted_applies_iff`).

Not every request gets a verdict. Of the queries that look for a row one takes no row for a no, the
other three for an error. The first order that no earlier order keeps from being looked at, and that
is `Unanswered`, ends the check (`verdict_iff`).
-/

namespace Nyumt

open Borsh

variable {K : Crypto} {t : Tables} {userPk : PublicKey} {perms : Permissions}

section Applies

/-- A request that is let through is applied, unless it updates the signer's key or has a list too
long to be written. -/
theorem accepted_applies_iff {db : Database} {rawReq sig : Bytes} {reqs : List RequestType}
    (h : verifyReq K db.toTables rawReq reqs userPk perms sig = .ok none) :
    (interpretBlock db reqs).isSome ↔
      (∀ k, .order (.updatePublicKey userPk k) ∉ reqs) ∧ ∀ o, .order o ∈ reqs → o.Bindable := by
  obtain ⟨-, ha⟩ := verifyReq_eq_ok_none.1 h
  rw [interpretBlock_isSome, execAll_isSome_iff]
  constructor
  · intro hall
    exact ⟨fun k hk => (hall _ hk).1 trivial, fun o ho => (hall o ho).2⟩
  · rintro ⟨hkey, hbind⟩ o ho
    refine ⟨fun hu => ?_, hbind o ho⟩
    cases o <;> try exact hu
    case updatePublicKey k k' =>
      obtain ⟨-, rfl, -⟩ := ha _ ho
      exact hkey k' ho

theorem accepted_applies_iff_rename :
    let b := toyRequest (toyKey 1) [.root] (renameRoot "r").req
    (interpretBlock toyGenesis b.req).isSome := by
  have hok : verifyReq toy toyGenesis.toTables ((toVec (renameRoot "r").req).getD [])
      (renameRoot "r").req (toyKey 1) [.root]
      (toyRequest (toyKey 1) [.root] (renameRoot "r").req).sign = .ok none := by decide +kernel
  refine (accepted_applies_iff hok).2 ⟨fun k hk => ?_, fun o ho => ?_⟩
  · simp [renameRoot, toyBody] at hk
  · simp only [renameRoot, toyBody, List.mem_singleton, RequestType.order.injEq] at ho
    subst ho
    rfl

/-- The root user updates its own key. -/
theorem not_accepted_applies :
    let b := toyRequest (toyKey 1) [.root] [.order (.updatePublicKey (toyKey 1) (toyKey 2))]
    verifyReq toy toyGenesis.toTables ((toVec b.req).getD []) b.req b.userPk b.perms b.sign
        = .ok none
      ∧ interpretBlock toyGenesis b.req = none := by
  decide +kernel

end Applies

section Verdict

/-- A query that wants a row finds none: no node has the config, no master has the key, or a config
that is not there is to be given to the key of a node or of an active user. -/
def Unanswered (t : Tables) (perms : Permissions) : Order → Prop
  | .removeConfig name => ∀ n ∈ t.node, n.conf ≠ name
  | .updateVoteWeight k _ => ∀ n ∈ t.node, n.publicKey = k.bytes → n.masterNode = false
  | .changeNodeConfig k name =>
    k.bytes ∈ t.keys ∧ .root ∈ perms ∧ ∀ c ∈ t.config, c.name ≠ name
  | _ => False

theorem verifyOrder_error_iff {o : Order} :
    (∃ e, verifyOrder t o userPk perms = .error e) ↔ Unanswered t perms o := by
  cases o
  case removeConfig name =>
    rcases fetchExists_filter (fun n : NodeRow => n.conf = name) t.node with ⟨h, hn⟩ | ⟨h, hn⟩ <;>
      simp only [verifyOrder, verifyEntity, Tables.configUsed, h, Unanswered] <;>
      simpa [bind, Except.bind, pure, Except.pure] using hn
  case updateVoteWeight k w =>
    rcases fetchExists_filter (fun n : NodeRow => n.publicKey = k.bytes ∧ n.masterNode) t.node with
      ⟨h, hn⟩ | ⟨h, hn⟩ <;>
      simp only [verifyOrder, verifyEntity, Tables.masterWithPubkeyExists, PublicKey.toVec_eq, h,
        Unanswered, verifyPermission] <;>
      simpa [bind, Except.bind, pure, Except.pure] using hn
  case changeNodeConfig k name =>
    rw [Unanswered, ← entityWithPubkeyExists_iff]
    by_cases he : t.entityWithPubkeyExists k.bytes <;> by_cases hr : Permission.root ∈ perms
    · rcases fetchExists_filter (fun c : ConfigRow => c.name = name) t.config with
        ⟨h, hc⟩ | ⟨h, hc⟩ <;>
        simp only [verifyOrder, verifyEntity, verifyPermission, PublicKey.toVec_eq, he, hr,
          Tables.configExists, h] <;>
        simpa [bind, Except.bind, pure, Except.pure] using hc
    all_goals
      simp [verifyOrder, verifyEntity, verifyPermission, he, hr, bind, Except.bind, pure,
        Except.pure]
  all_goals
    simp only [verifyOrder, verifyEntity, verifyPermission, PublicKey.toVec_eq, Unanswered,
      iff_false, not_exists, bind, Except.bind, pure, Except.pure]
    intro e
    split_ifs <;> simp

theorem verifyOrders_error_iff : ∀ {reqs : List RequestType},
    (∃ e, verifyOrders t userPk perms reqs = .error e) ↔
      ∃ pre o post, reqs = pre ++ .order o :: post
        ∧ (∀ o', .order o' ∈ pre → Accepted t userPk perms o') ∧ Unanswered t perms o
  | [] => by simp [verifyOrders, pure, Except.pure]
  | .order o :: reqs => by
    have ih : (∃ e, verifyOrders t userPk perms reqs = .error e) ↔ _ := verifyOrders_error_iff
    have herr : (∃ e, verifyOrder t o userPk perms = .error e) ↔ _ := verifyOrder_error_iff
    have hok : verifyOrder t o userPk perms = .ok none ↔ _ := verifyOrder_eq_ok_none
    have hcons : (∃ pre o' post, .order o :: reqs = pre ++ .order o' :: post
        ∧ (∀ o', .order o' ∈ pre → Accepted t userPk perms o') ∧ Unanswered t perms o') ↔
        Unanswered t perms o ∨ Accepted t userPk perms o ∧ ∃ pre o' post,
          reqs = pre ++ .order o' :: post
            ∧ (∀ o', .order o' ∈ pre → Accepted t userPk perms o') ∧ Unanswered t perms o' := by
      constructor
      · rintro ⟨_ | ⟨r, pre⟩, o', post, he, hpre, hu⟩
        · obtain ⟨⟨⟩, rfl⟩ := List.cons.inj he
          exact .inl hu
        · obtain ⟨rfl, rfl⟩ := List.cons.inj he
          exact .inr ⟨hpre o List.mem_cons_self, pre, o', post, rfl,
            fun o₁ h₁ => hpre o₁ (List.mem_cons_of_mem _ h₁), hu⟩
      · rintro (hu | ⟨ha, pre, o', post, rfl, hpre, hu⟩)
        · exact ⟨[], o, reqs, rfl, by simp, hu⟩
        · refine ⟨.order o :: pre, o', post, rfl, fun o₁ h₁ => ?_, hu⟩
          rcases List.mem_cons.1 h₁ with h₁ | h₁
          · exact RequestType.order.inj h₁ ▸ ha
          · exact hpre o₁ h₁
    rw [hcons, ← ih, ← herr, ← hok]
    simp only [verifyOrders]
    rcases verifyOrder t o userPk perms with e | _ | e <;>
      simp [bind, Except.bind, pure, Except.pure]

/-- What the verdict on an order of a root user is to be where a query finds no row. -/
inductive Prescribed (t : Tables) : Order → Option RequestError → Prop
  | removeConfig {name : String} (h : ∀ n ∈ t.node, n.conf ≠ name) :
      Prescribed t (.removeConfig name) none
  | updateVoteWeight {k : PublicKey} {weight : UInt32}
      (h : ∀ n ∈ t.node, n.publicKey = k.bytes → n.masterNode = false) :
      Prescribed t (.updateVoteWeight k weight) (some .invalidEntity)
  | changeNodeConfig {k : PublicKey} {name : String} (hk : ∃ n ∈ t.node, n.publicKey = k.bytes)
      (hc : ∀ c ∈ t.config, c.name ≠ name) :
      Prescribed t (.changeNodeConfig k name) (some .invalidConfig)

theorem Prescribed.unanswered {o : Order} {v : Option RequestError} (h : Prescribed t o v)
    (hr : .root ∈ perms) : Unanswered t perms o := by
  cases h with
  | removeConfig h => exact h
  | updateVoteWeight h => exact h
  | changeNodeConfig hk hc =>
    obtain ⟨n, hn, hk⟩ := hk
    exact ⟨List.mem_append_right _ (List.mem_map.2 ⟨n, hn, hk⟩), hr, hc⟩

variable (K t userPk perms) in
/-- A verdict on a request, the prescribed one where there is one. -/
def Judged (rawReq : Bytes) (reqs : List RequestType) (sig : Bytes) : Prop :=
  ∃ v, verifyReq K t rawReq reqs userPk perms sig = .ok v
    ∧ (userPk.verifySig K rawReq sig = .ok true → .root ∈ perms →
      ∀ o v', reqs = [.order o] → Prescribed t o v' → v = v')

/-- A request signed under a key that decodes gets its verdict just if no query is reached that
finds no row where it wants one. -/
theorem verdict_iff {k : Array32} {rawReq sig : Bytes} {reqs : List RequestType}
    (hk : K.decode k) : Judged K t (.ed25519 k) perms rawReq reqs sig ↔
      (K.verify k rawReq sig → ∀ pre o post, reqs = pre ++ .order o :: post →
        (∀ o', .order o' ∈ pre → Accepted t (.ed25519 k) perms o') → ¬ Unanswered t perms o) := by
  have hsig : (PublicKey.ed25519 k).verifySig K rawReq sig = .ok (K.verify k rawReq sig) := by
    simp [PublicKey.verifySig, hk]
  have herr : (∃ e, verifyOrders t (.ed25519 k) perms reqs = .error e) ↔ _ :=
    verifyOrders_error_iff
  unfold Judged
  rw [hsig]
  unfold verifyReq
  rw [hsig]
  rcases hv : K.verify k rawReq sig with _ | _
  · simp [bind, Except.bind, pure, Except.pure]
  · constructor
    · rintro ⟨v, hv, -⟩ - pre o post he hpre hu
      obtain ⟨e, hx⟩ := herr.2 ⟨pre, o, post, he, hpre, hu⟩
      simp [bind, Except.bind, hx] at hv
    · intro hall
      rcases hx : verifyOrders t (.ed25519 k) perms reqs with e | v
      · obtain ⟨pre, o, post, he, hpre, hu⟩ := herr.1 ⟨e, hx⟩
        exact (hall rfl pre o post he hpre hu).elim
      · refine ⟨v, by simp [bind, Except.bind], fun _ hr o v' he hp => ?_⟩
        exact (hall rfl [] o [] he (by simp) (hp.unanswered hr)).elim

theorem verdict_iff_used :
    let b := toyRequest (toyKey 1) [.root] [.order (.removeConfig "default")]
    Judged toy toyGenesis.toTables b.userPk b.perms ((toVec b.req).getD []) b.req b.sign := by
  refine (verdict_iff rfl).2 fun _ pre o post he _ hu => ?_
  rcases pre with _ | ⟨r, pre⟩
  · obtain ⟨⟨⟩, rfl⟩ := List.cons.inj he
    have hused : ∃ n ∈ toyGenesis.node, n.conf = "default" := by decide +kernel
    obtain ⟨n, hn, hc⟩ := hused
    exact hu n hn hc
  · simp [toyRequest] at he

/-- The root user wants a config removed that no node uses, gives a weight to a node that is not
there, and gives its node a config that is not there. -/
theorem not_judged :
    ([.removeConfig "spare", .updateVoteWeight (toyKey 2) 1,
      .changeNodeConfig (toyKey 0) "spare"].map fun o =>
        let b := toyRequest (toyKey 1) [.root] [.order o]
        verifyReq toy toyGenesis.toTables ((toVec b.req).getD []) b.req b.userPk b.perms b.sign)
      = List.replicate 3 (.error .rowNotFound) := by
  decide +kernel

end Verdict

end Nyumt
