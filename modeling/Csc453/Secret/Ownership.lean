import Csc453.Secret.Lifetime

/-!
# Csc453.Secret.Ownership — who gives the secret away

`secret_ioctl` assigns `secret_owner` for whoever holds an open descriptor: the uid is compared in
`secret_open` only, and a descriptor opened by the owner outlives a grant.  `OwnerGives` is what a
step owes (a change of owner is a grant issued by the owner), `Entitled` the condition on the
request and the state before it under which the driver keeps to it.
-/

namespace Csc453.Secret

open Transition

/-- A step that changes the owner of an owned device is an `SSGRANT` by that owner. -/
def OwnerGives (e : Step) : Prop :=
  e.pre.drv.hasOwner ≠ 0 → e.post.drv.hasOwner ≠ 0 → e.post.drv.secretOwner ≠ e.pre.drv.secretOwner →
    ∃ fd grantee p, e.label.1 = .ioctl fd .SSGRANT grantee ∧ e.pre.fds[fd]? = some p ∧
      p.uid = e.pre.drv.secretOwner

/-- An `SSGRANT` comes from the owner or names the owner again. -/
def Entitled (s : Sys) : Request → Prop
  | .ioctl fd .SSGRANT (.ok uid) =>
    ∀ p, s.fds[fd]? = some p → p.uid = s.drv.secretOwner ∨ uid = s.drv.secretOwner
  | _ => True

/-- No request but a grant changes the owner of an owned device. -/
theorem Served.secretOwner_eq {s t : Sys} {r : Request} {rep : Reply} (hs : Served s r t rep)
    (hown : s.drv.hasOwner ≠ 0) (hstill : t.drv.hasOwner ≠ 0)
    (hr : ∀ fd uid, r ≠ .ioctl fd .SSGRANT (.ok uid)) : t.drv.secretOwner = s.drv.secretOwner := by
  cases hs with
  | took _ _ _ hno => exact absurd hno hown
  | lastClose => exact absurd rfl hstill
  | granted fd uid => exact absurd rfl (hr fd uid)
  | _ => rfl

/-- A grant makes the grantee the owner, whoever holds the descriptor. -/
theorem serve_grant {s : Sys} {fd : ℕ} (hfd : fd < s.fds.length) (uid : Uid) :
    serve s (.ioctl fd .SSGRANT (.ok uid)) =
      some (⟨{ s.drv with secretOwner := uid }, s.fds⟩, { ret := OK }) := if_pos hfd

/-- What one step owes holds exactly when its request was entitled. -/
theorem ownerGives_iff {s t : Sys} {r : Request} {rep : Reply} (hI : Inv s)
    (hs : serve s r = some (t, rep)) : OwnerGives ⟨s, (r, rep), t⟩ ↔ Entitled s r := by
  by_cases hr : ∀ fd uid, r ≠ .ioctl fd .SSGRANT (.ok uid)
  · have hent : Entitled s r := by
      unfold Entitled
      split
      · next fd uid => exact absurd rfl (hr fd uid)
      · trivial
    refine iff_of_true (fun hown hstill hne => ?_) hent
    exact absurd ((served_of_serve hI hs).secretOwner_eq hown hstill hr) hne
  push Not at hr
  obtain ⟨fd, uid, rfl⟩ := hr
  have hfd : fd < s.fds.length := by
    by_contra hno
    simp [serve, hno] at hs
  rw [serve_grant hfd] at hs
  obtain ⟨rfl, rfl⟩ := Prod.mk.inj (Option.some.inj hs)
  have hown : s.drv.hasOwner ≠ 0 := hI.owned hfd
  constructor
  · intro hgives p hp
    by_cases hsame : uid = s.drv.secretOwner
    · exact Or.inr hsame
    obtain ⟨fd', grantee, p', hreq, hp', huid⟩ := hgives hown hown hsame
    obtain ⟨rfl, -, -⟩ := Request.ioctl.inj hreq
    have hpp : p = p' := Option.some.inj (hp.symm.trans hp')
    exact Or.inl (hpp ▸ huid)
  · intro hent _ _ hne
    have hp : s.fds[fd]? = some s.fds[fd] := List.getElem?_eq_getElem hfd
    exact ⟨fd, .ok uid, s.fds[fd], rfl, hp, (hent _ hp).resolve_right hne⟩

/-- **Only the owner gives the secret away**, in exactly the runs whose grants are all issued
through descriptors of the owner (or change nothing). -/
theorem owner_gives {h : List Step} {s : Sys} (hr : Run driver h s) :
    (∀ e ∈ h, OwnerGives e) ↔ ∀ e ∈ h, Entitled e.pre e.label.1 := by
  refine forall₂_congr fun e he => ?_
  obtain ⟨hpre, hs⟩ := hr.event he
  exact ownerGives_iff (reachable_inv hpre) hs

/-! ### A former owner redirects the secret -/

/-- Uid 7, which holds descriptor 0, grants the secret to `uid`. -/
def grantBy7 (owner uid : Uid) : Step :=
  let s (u : Uid) : Sys :=
    ⟨{ countOpen wBit { resetState with hasOwner := 1, secretOwner := 7 } with secretOwner := u },
      [⟨7, wBit⟩]⟩
  ⟨s owner, (.ioctl 0 .SSGRANT (.ok uid), { ret := OK }), s uid⟩

theorem owner_gives_first :
    (∀ e ∈ [grantBy7 7 8, firstOpen], OwnerGives e) ↔
      ∀ e ∈ [grantBy7 7 8, firstOpen], Entitled e.pre e.label.1 :=
  owner_gives (s := (grantBy7 7 8).post) (.step (.step (.init rfl) rfl) rfl)

/-- Uid 7 gives the secret to 8 and afterwards, over its old descriptor, to 9. -/
theorem former_owner_redirects :
    ∃ h s, Run driver h s ∧ ∃ e ∈ h, ¬ OwnerGives e := by
  refine ⟨[grantBy7 8 9, grantBy7 7 8, firstOpen], (grantBy7 8 9).post,
    .step (.step (.step (.init rfl) rfl) rfl) rfl, grantBy7 8 9, List.mem_cons_self, fun hgives => ?_⟩
  obtain ⟨fd, grantee, p, hreq, hp, huid⟩ := hgives (by decide) (by decide) (by decide)
  obtain ⟨rfl, -, -⟩ := Request.ioctl.inj hreq
  obtain rfl : (⟨7, wBit⟩ : Fd) = p := Option.some.inj hp
  exact absurd huid (by decide)

end Csc453.Secret
