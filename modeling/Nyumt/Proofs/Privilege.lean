import Nyumt.Toy
import Nyumt.Verify
import Nyumt.Interpret

/-!
# What a user who is not root can do

All that `verify_req` lets through for a signer without `Root` are edits of the signer's own row
with permissions the signer has (`of_accepted`). Each edit rewrites name and permissions of the
rows with that key, and what several of them do in turn is no more than one could.
-/

namespace Nyumt

open Borsh

variable {K : Crypto} {userPk : PublicKey} {perms : Permissions}

/-- A row under the signer's key has at most another name and permissions among the signer's; any
other row is as it was. -/
def OwnEdit (userPk : PublicKey) (perms : Permissions) (u u' : UserRow) : Prop :=
  if u.publicKey = userPk.bytes then
    u'.id = u.id ∧ u'.publicKey = u.publicKey ∧ u'.active = u.active
      ∧ (u'.permissions = u.permissions ∨ ∃ p, p ⊆ perms ∧ toVec p = some u'.permissions)
  else u' = u

/-- Nothing happened but edits of the signer's own rows. -/
structure Confined (userPk : PublicKey) (perms : Permissions) (t t' : Tables) : Prop where
  node : t'.node = t.node
  config : t'.config = t.config
  users : List.Forall₂ (OwnEdit userPk perms) t.users t'.users

namespace OwnEdit

theorem refl (u : UserRow) : OwnEdit userPk perms u u := by
  unfold OwnEdit
  split_ifs
  · exact ⟨rfl, rfl, rfl, .inl rfl⟩
  · rfl

theorem trans {u v w : UserRow} (h : OwnEdit userPk perms u v) (h' : OwnEdit userPk perms v w) :
    OwnEdit userPk perms u w := by
  unfold OwnEdit at *
  split_ifs with hu
  · rw [if_pos hu] at h
    obtain ⟨hi, hk, ha, hp⟩ := h
    rw [if_pos (hk.trans hu)] at h'
    obtain ⟨hi', hk', ha', hp'⟩ := h'
    refine ⟨hi'.trans hi, hk'.trans hk, ha'.trans ha, ?_⟩
    rcases hp' with hp' | hp'
    · rw [hp']
      exact hp
    · exact .inr hp'
  · rw [if_neg hu] at h
    subst h
    rwa [if_neg hu] at h'

end OwnEdit

namespace Confined

theorem refl (t : Tables) : Confined userPk perms t t :=
  ⟨rfl, rfl, List.forall₂_same.2 fun u _ => OwnEdit.refl u⟩

theorem trans {t t' t'' : Tables} (h : Confined userPk perms t t')
    (h' : Confined userPk perms t' t'') : Confined userPk perms t t'' :=
  ⟨h'.node.trans h.node, h'.config.trans h.config,
    Table.forall₂_trans (fun _ _ _ hu hv => hu.trans hv) h.users h'.users⟩

/-- One edit of the own row, within the own permissions. -/
theorem of_exec {t t' : Tables} {name : String} {perm : Permissions} {u : Update}
    (hp : perm ⊆ perms) (h : t.exec (.editUser name userPk perm) = some (t', u)) :
    Confined userPk perms t t' := by
  have hb : (toVec perm).isSome := (bindable_of_exec h).2
  obtain ⟨rfl, -⟩ := Nyumt.of_exec h
  refine ⟨rfl, rfl, (Table.update_forall₂ _ _ t.users).imp ?_⟩
  rintro u v rfl
  unfold OwnEdit
  by_cases hu : u.publicKey = userPk.bytes
  · rw [if_pos hu, if_pos (decide_eq_true hu)]
    exact ⟨rfl, rfl, rfl, .inr ⟨perm, hp,
      (Option.getD_of_ne_none (Option.isSome_iff_ne_none.1 hb) _).symm⟩⟩
  · rw [if_neg hu, if_neg (by simpa using hu)]

end Confined

/-- Without `Root` only edits of the own row pass. -/
theorem of_accepted {t : Tables} {o : Order} (hr : .root ∉ perms) (h : Accepted t userPk perms o) :
    ∃ name perm, o = .editUser name userPk perm ∧ perm ⊆ perms := by
  obtain ⟨-, hp⟩ := h
  cases o
  case editUser name k perm =>
    obtain ⟨-, hp⟩ := hp
    obtain ⟨rfl, hsub⟩ := hp.resolve_left hr
    exact ⟨name, perm, rfl, hsub⟩
  case setConfig => exact (hr hp).elim
  case removeConfig => exact (hr hp).elim
  case removeUser => exact (hr hp).elim
  case removeMasterNode => exact (hr hp).elim
  case removeNode => exact (hr hp).elim
  case updateVoteWeight => exact (hr hp).elim
  case changeNodeConfig => exact (hr hp.1).elim
  case addUser => exact (hr hp.2.1).elim
  all_goals exact (hr hp.2).elim

theorem confined_execAll {t t' : Tables} {reqs : List RequestType}
    (hedit : ∀ o, .order o ∈ reqs → ∃ name perm, o = .editUser name userPk perm ∧ perm ⊆ perms)
    (h : t.execAll reqs = some t') : Confined userPk perms t t' := by
  refine execAll_induction (I := Confined userPk perms t) (fun o ho t₁ t₂ u hx hc => ?_) h (.refl t)
  obtain ⟨name, perm, rfl, hp⟩ := hedit o ho
  exact hc.trans (.of_exec hp hx)

/-- No privilege escalation. What a signer without `Root` gets accepted is confined to the signer's
own rows and permissions, after the block and after each of its orders. -/
theorem verifyReq_confined {db : Database} {rawReq sig : Bytes} {reqs : List RequestType}
    (hr : .root ∉ perms)
    (hv : verifyReq K db.toTables rawReq reqs userPk perms sig = .ok none) :
    Confined userPk perms db.toTables (applyBlock db reqs).toTables
      ∧ ∀ (first : List RequestType) (db' : Database) (updates : List Update), first <+: reqs →
        interpretBlock db first = some (db', updates) →
          Confined userPk perms db.toTables db'.toTables := by
  obtain ⟨-, ho⟩ := verifyReq_eq_ok_none.1 hv
  have hedit : ∀ o, .order o ∈ reqs → ∃ name perm, o = .editUser name userPk perm ∧ perm ⊆ perms :=
    fun o h => of_accepted hr (ho o h)
  constructor
  · rw [applyBlock_toTables, Tables.apply]
    rcases hx : db.toTables.execAll reqs with _ | t
    · exact .refl _
    · exact confined_execAll hedit hx
  · intro first db' updates hf hi
    exact confined_execAll (fun o h => hedit o (hf.subset h)) (execAll_of_interpretBlock hi)

/-- A monitor who renames itself and then drops its permission. -/
theorem verifyReq_confined_monitor :
    let pk := toyKey 1
    let db : Database := { users := [⟨1, "m", pk.bytes, [1, 0, 0, 0, 1], true⟩] }
    let reqs : List RequestType :=
      [.order (.editUser "n" pk [.monitor]), .order (.editUser "n" pk [])]
    Confined pk [.monitor] db.toTables (applyBlock db reqs).toTables
      ∧ (applyBlock db reqs).users = [⟨1, "n", pk.bytes, [0, 0, 0, 0], true⟩] := by
  have hv : verifyReq toy { users := [⟨1, "m", (toyKey 1).bytes, [1, 0, 0, 0, 1], true⟩] } [7]
      [.order (.editUser "n" (toyKey 1) [.monitor]), .order (.editUser "n" (toyKey 1) [])]
      (toyKey 1) [.monitor] (toySign (toyKey 1) [7]) = .ok none := rfl
  exact ⟨(verifyReq_confined (by decide) hv).1, by decide⟩

end Nyumt
