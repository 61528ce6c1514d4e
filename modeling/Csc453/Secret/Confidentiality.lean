import Csc453.Secret.Lifetime

/-!
# Csc453.Secret.Confidentiality — what a secret's bytes can influence

Two runs of the driver with the same requests, up to the bytes written in one ownership lifetime,
differ in the buffer only, and only until the close that ends the lifetime
(`serve_sameButBuf`).  The buffer shows in the replies to transfers alone, and every descriptor
belongs to a uid that owned the device in the current lifetime (`fds_owned`).
-/

namespace Csc453.Secret

open Transition

/-! ### Equal up to the secret's bytes -/

/-- Equal requests, up to the bytes a transfer brings. -/
inductive SameButBytes : Request → Request → Prop
  | same (r : Request) : SameButBytes r r
  | bytes (fd opcode iovSize data data' copy) :
      SameButBytes (.transfer fd opcode iovSize data copy) (.transfer fd opcode iovSize data' copy)

/-- Equal up to the contents of the buffer. -/
def SameButBuf (s t : State) : Prop := ∃ b, t = { s with secretBuf := b }

theorem SameButBuf.refl (s : State) : SameButBuf s s := ⟨s.secretBuf, rfl⟩

theorem secretOpen_sameButBuf {s t : State} (h : SameButBuf s t) (mode : BitVec 32) (caller : Uid)
    (cred : ℤ) : SameButBuf (secretOpen mode caller cred s).1 (secretOpen mode caller cred t).1 ∧
      (secretOpen mode caller cred s).2 = (secretOpen mode caller cred t).2 := by
  obtain ⟨b, rfl⟩ := h
  unfold secretOpen
  split_ifs <;> exact ⟨⟨b, rfl⟩, rfl⟩

theorem secretClose_sameButBuf {s t : State} (h : SameButBuf s t) :
    SameButBuf (secretClose s).1 (secretClose t).1 ∧ (secretClose s).2 = (secretClose t).2 := by
  obtain ⟨b, rfl⟩ := h
  unfold secretClose
  dsimp only
  split_ifs
  all_goals first | exact ⟨⟨b, rfl⟩, rfl⟩ | exact ⟨.refl _, rfl⟩

theorem secretIoctl_sameButBuf {s t : State} (h : SameButBuf s t) (request : IoctlRequest)
    (grantee : Except Errno Uid) :
    SameButBuf (secretIoctl request grantee s).1 (secretIoctl request grantee t).1 ∧
      (secretIoctl request grantee s).2 = (secretIoctl request grantee t).2 := by
  obtain ⟨b, rfl⟩ := h
  cases request with
  | other => exact ⟨⟨b, rfl⟩, rfl⟩
  | SSGRANT => cases grantee <;> exact ⟨⟨b, rfl⟩, rfl⟩

theorem secretTransfer_sameButBuf {s t : State} (h : SameButBuf s t) (opcode : Opcode)
    (iov : UInt32) (data data' : ℕ → UInt8) (copy : Copy) :
    SameButBuf (secretTransfer opcode iov data copy s).1 (secretTransfer opcode iov data' copy t).1 := by
  obtain ⟨b, rfl⟩ := h
  cases opcode with
  | other => exact ⟨b, rfl⟩
  | DEV_GATHER_S =>
    unfold secretTransfer gather
    cases copy <;> dsimp only <;> split_ifs <;> exact ⟨b, rfl⟩
  | DEV_SCATTER_S =>
    unfold secretTransfer scatter
    cases copy <;> dsimp only <;> split_ifs <;> exact ⟨_, rfl⟩

/-- The request moves bytes between the caller and the buffer. -/
def IsTransfer : Request → Prop
  | .transfer .. => True
  | _ => False

/-- **One step of two runs**: systems that differ in the buffer only keep doing so, and only a
transfer can show the difference. -/
theorem serve_sameButBuf {s t s' t' : Sys} {r r' : Request} {rep rep' : Reply}
    (hfds : s.fds = t.fds) (hdrv : SameButBuf s.drv t.drv) (hrr : SameButBytes r r')
    (hs : serve s r = some (s', rep)) (ht : serve t r' = some (t', rep')) :
    (s'.fds = t'.fds ∧ SameButBuf s'.drv t'.drv) ∧ (¬ IsTransfer r → rep = rep') := by
  obtain ⟨d, fds⟩ := s
  obtain ⟨d', fds'⟩ := t
  dsimp only at hfds hdrv
  subst hfds
  cases hrr with
  | bytes fd opcode iov data data' copy =>
    simp only [serve] at hs ht
    split_ifs at hs ht with hfd
    obtain ⟨rfl, rfl⟩ := Prod.mk.inj (Option.some.inj hs)
    obtain ⟨rfl, rfl⟩ := Prod.mk.inj (Option.some.inj ht)
    exact ⟨⟨rfl, secretTransfer_sameButBuf hdrv opcode iov data data' copy⟩, fun hn => absurd trivial hn⟩
  | same =>
    cases r with
    | «open» caller mode cred =>
      obtain ⟨hbuf, hret⟩ := secretOpen_sameButBuf hdrv mode caller cred
      have hroom : fds.length < intMax := by
        by_contra hno
        simp [serve, hno] at hs
      simp only [serve, if_pos hroom] at hs ht
      obtain ⟨rfl, rfl⟩ := Prod.mk.inj (Option.some.inj hs)
      obtain ⟨rfl, rfl⟩ := Prod.mk.inj (Option.some.inj ht)
      dsimp only
      exact ⟨⟨by rw [hret], hbuf⟩, fun _ => by rw [hret]⟩
    | close fd =>
      obtain ⟨hbuf, hret⟩ := secretClose_sameButBuf hdrv
      simp only [serve] at hs ht
      split_ifs at hs ht with hfd
      obtain ⟨rfl, rfl⟩ := Prod.mk.inj (Option.some.inj hs)
      obtain ⟨rfl, rfl⟩ := Prod.mk.inj (Option.some.inj ht)
      exact ⟨⟨rfl, hbuf⟩, fun _ => by rw [hret]⟩
    | ioctl fd request grantee =>
      obtain ⟨hbuf, hret⟩ := secretIoctl_sameButBuf hdrv request grantee
      simp only [serve] at hs ht
      split_ifs at hs ht with hfd
      obtain ⟨rfl, rfl⟩ := Prod.mk.inj (Option.some.inj hs)
      obtain ⟨rfl, rfl⟩ := Prod.mk.inj (Option.some.inj ht)
      exact ⟨⟨rfl, hbuf⟩, fun _ => by rw [hret]⟩
    | transfer fd opcode iov data copy =>
      simp only [serve] at hs ht
      split_ifs at hs ht with hfd
      obtain ⟨rfl, rfl⟩ := Prod.mk.inj (Option.some.inj hs)
      obtain ⟨rfl, rfl⟩ := Prod.mk.inj (Option.some.inj ht)
      exact ⟨⟨rfl, secretTransfer_sameButBuf hdrv opcode iov data data copy⟩,
        fun hn => absurd trivial hn⟩

/-! ### Who holds descriptors -/

/-- `u` was the owner after the step. -/
def OwnedAfter (u : Uid) (e : Step) : Prop :=
  e.post.drv.hasOwner ≠ 0 ∧ e.post.drv.secretOwner = u

theorem Served.fds_owned {h : List Step} {s t : Sys} {r : Request} {rep : Reply}
    (hs : Served s r t rep) (hI : Inv s)
    (ih : ∀ p ∈ s.fds, ∃ e ∈ sinceOwnership h, OwnedAfter p.uid e) :
    ∀ p ∈ t.fds, ∃ e ∈ sinceOwnership (⟨s, (r, rep), t⟩ :: h), OwnedAfter p.uid e := by
  -- a descriptor that was open before the step was opened in this lifetime
  have kept : ∀ p ∈ s.fds, ∃ e ∈ sinceOwnership (⟨s, (r, rep), t⟩ :: h), OwnedAfter p.uid e := by
    intro p hp
    obtain ⟨fd, hfd, -⟩ := List.mem_iff_getElem.mp hp
    have hkept : ¬ TakesOwnership ⟨s, (r, rep), t⟩ := fun htook => hI.owned hfd htook.1
    obtain ⟨e, he, hown⟩ := ih p hp
    rw [sinceOwnership_kept hkept]
    exact ⟨e, List.mem_cons_of_mem _ he, hown⟩
  intro p hp
  cases hs with
  | took caller mode cred hno hroom =>
    rcases List.mem_append.mp hp with hp | hp
    · exact kept p hp
    · obtain rfl := List.mem_singleton.mp hp
      rw [sinceOwnership_took ⟨hno, by simp [countOpen]⟩]
      exact ⟨_, List.mem_singleton_self _, by simp [countOpen], rfl⟩
  | reopened caller mode cred hown _ _ hcaller _ =>
    rcases List.mem_append.mp hp with hp | hp
    · exact kept p hp
    · obtain rfl := List.mem_singleton.mp hp
      rw [sinceOwnership_kept fun htook => hown htook.1]
      exact ⟨_, List.mem_cons_self, hown, hcaller.symm⟩
  | lastClose => exact absurd hp List.not_mem_nil
  | close fd => exact kept p (List.mem_of_mem_eraseIdx hp)
  | _ => exact kept p hp

/-- Every open descriptor belongs to a uid that owned the device in the current lifetime. -/
theorem fds_owned {h : List Step} {s : Sys} (hr : Run driver h s) :
    ∀ p ∈ s.fds, ∃ e ∈ sinceOwnership h, OwnedAfter p.uid e := by
  refine Run.invariant (I := fun h s => ∀ p ∈ s.fds, ∃ e ∈ sinceOwnership h, OwnedAfter p.uid e)
    (fun s h0 => ?_) (fun h s l t hr ih hs => ?_) hr
  · rw [show s = ⟨resetState, []⟩ from h0]
    exact fun p hp => absurd hp List.not_mem_nil
  · have hI := reachable_inv hr.reachable
    exact (served_of_serve hI hs).fds_owned hI ih

/-! ### One ownership lifetime -/

/-- `life` (newest step first) is one ownership lifetime of a run that goes on with `later`: its
oldest step takes ownership, its newest one ends it unless the run stops before. -/
structure OwnershipLifetime (later life : List Step) : Prop where
  taken : ∃ body first, life = body ++ [first] ∧ TakesOwnership first ∧
    ∀ e ∈ body, e.pre.drv.hasOwner ≠ 0
  whole : later = [] ∨ ∃ last rest, life = last :: rest ∧ last.post.drv.hasOwner = 0

/-- The uid that issues the request. -/
def requester (e : Step) : Option Uid :=
  match e.label.1 with
  | .open caller _ _ => some caller
  | .close fd => e.pre.fds[fd]?.map Fd.uid
  | .ioctl fd _ _ => e.pre.fds[fd]?.map Fd.uid
  | .transfer fd _ _ _ _ => e.pre.fds[fd]?.map Fd.uid

/-- The step is issued by a uid that never is the owner in `life`. -/
def ByStranger (life : List Step) (e : Step) : Prop :=
  ∃ u, requester e = some u ∧ ∀ f ∈ life, ¬ OwnedAfter u f

theorem sinceOwnership_lifetime {body earlier : List Step} {first : Step}
    (hfirst : TakesOwnership first) (hbody : ∀ e ∈ body, e.pre.drv.hasOwner ≠ 0) :
    sinceOwnership (body ++ first :: earlier) = body ++ [first] := by
  induction body with
  | nil => exact sinceOwnership_took hfirst
  | cons e body ih =>
    have hkept : ¬ TakesOwnership e := fun htook => hbody e List.mem_cons_self htook.1
    rw [List.cons_append, sinceOwnership_kept hkept,
      ih fun f hf => hbody f (List.mem_cons_of_mem _ hf)]
    rfl

/-- A uid that never owns the device in a lifetime holds no descriptor in it. -/
theorem stranger_no_transfer {life earlier : List Step} {later : List Step} {s : Sys}
    (hr : Run driver (life ++ earlier) s) (hL : OwnershipLifetime later life) {e : Step}
    (he : e ∈ life) (hby : ByStranger life e) : ¬ IsTransfer e.label.1 := by
  intro htr
  obtain ⟨body, first, rfl, hfirst, hbody⟩ := hL.taken
  obtain ⟨u, hu, hnever⟩ := hby
  obtain ⟨newer, older, hsplit⟩ := List.append_of_mem he
  rw [hsplit, List.append_assoc] at hr
  obtain ⟨t, hrun⟩ := hr.older
  have hpre : Run driver (older ++ earlier) e.pre := hrun.tail.1
  -- the requester holds the descriptor it uses
  obtain ⟨p, hp, rfl⟩ : ∃ p ∈ e.pre.fds, p.uid = u := by
    unfold requester at hu
    split at hu
    · next heq => rw [heq] at htr; exact absurd htr id
    · next heq => rw [heq] at htr; exact absurd htr id
    · next heq => rw [heq] at htr; exact absurd htr id
    · obtain ⟨p, hp, hpu⟩ := Option.map_eq_some_iff.mp hu
      exact ⟨p, List.mem_of_getElem? hp, hpu⟩
  obtain ⟨f, hf, hown⟩ := fds_owned hpre p hp
  refine hnever f ?_ hown
  rw [hsplit]
  -- what happened since ownership was taken is the older part of the lifetime
  rcases List.eq_nil_or_concat older with rfl | ⟨body', last, rfl⟩
  · have hlast : e = first := by
      have := congrArg List.getLast? hsplit
      simpa using this.symm
    obtain ⟨fd, hfd, -⟩ := List.mem_iff_getElem.mp hp
    exact absurd (hlast ▸ hfirst.1) ((reachable_inv hpre.reachable).owned hfd)
  · rw [List.concat_eq_append] at hsplit hf ⊢
    have hcut : body ++ [first] = (newer ++ e :: body') ++ [last] := by
      rw [hsplit, List.append_assoc, List.cons_append]
    obtain ⟨rfl, hfl⟩ := List.append_inj' hcut rfl
    obtain rfl := List.singleton_inj.mp hfl
    rw [List.append_assoc, List.singleton_append, sinceOwnership_lifetime hfirst fun g hg =>
      hbody g (List.mem_append_right _ (List.mem_cons_of_mem _ hg))] at hf
    exact List.mem_append_right _ (List.mem_cons_of_mem _ hf)

/-! ### The two-run theorem -/

/-- The steps serve the same request. -/
def SameRequest (e f : Step) : Prop := e.label.1 = f.label.1

/-- The steps give the same reply. -/
def SameReply (e f : Step) : Prop := e.label.2 = f.label.2

/-- Equal requests in equal states are answered alike. -/
theorem serve_same (e f : Step) (hs : driver.step e.pre e.label e.post)
    (ht : driver.step f.pre f.label f.post) (hpre : e.pre = f.pre) (hreq : SameRequest e f) :
    e.post = f.post ∧ SameReply e f := by
  have hs : serve e.pre e.label.1 = some (e.post, e.label.2) := hs
  have ht : serve f.pre f.label.1 = some (f.post, f.label.2) := ht
  rw [hpre, show e.label.1 = f.label.1 from hreq, ht] at hs
  obtain ⟨hpost, hrep⟩ := Prod.mk.inj (Option.some.inj hs)
  exact ⟨hpost.symm, hrep.symm⟩

/-- An ownerless device does not remember what its buffer held. -/
theorem eq_of_ownerless {s t : Sys} (hs : Inv s) (ht : Inv t) (hfds : s.fds = t.fds)
    (hdrv : SameButBuf s.drv t.drv) (hno : s.drv.hasOwner = 0) : s = t := by
  have hno' : t.drv.hasOwner = 0 := by
    obtain ⟨b, hb⟩ := hdrv
    rw [hb]
    exact hno
  obtain ⟨d, fds⟩ := s
  obtain ⟨d', fds'⟩ := t
  have hd : d = resetState := hs.cleared hno
  have hd' : d' = resetState := ht.cleared hno'
  have hfds : fds = fds' := hfds
  rw [hd, hd', hfds]

/-- **Confidentiality of the secret**: two runs whose requests differ in the bytes written in one
ownership lifetime give the same replies outside it and, within it, to every uid that never owns
the device; the close that ends the lifetime leaves equal states. -/
theorem secret_confidential {later life earlier later' life' earlier' : List Step} {s t : Sys}
    (hr : Run driver (later ++ (life ++ earlier)) s)
    (hr' : Run driver (later' ++ (life' ++ earlier')) t) (hL : OwnershipLifetime later life)
    (hearlier : List.Forall₂ SameRequest earlier earlier')
    (hlife : List.Forall₂ (fun e f => SameButBytes e.label.1 f.label.1) life life')
    (hlater : List.Forall₂ SameRequest later later') :
    List.Forall₂ SameReply earlier earlier' ∧ List.Forall₂ SameReply later later' ∧
      List.Forall₂ (fun e f => ByStranger life e → SameReply e f) life life' ∧
      List.Forall₂ (fun e f => e.post.drv.hasOwner = 0 → e.post = f.post) life life' := by
  obtain ⟨m, hm⟩ := hr.older
  obtain ⟨m', hm'⟩ := hr'.older
  obtain ⟨m₀, hm₀⟩ := hm.older
  obtain ⟨m₀', hm₀'⟩ := hm'.older
  have hbefore : ∀ {s t : Sys}, Run driver earlier s → Run driver earlier' t →
      s = t ∧ List.Forall₂ SameReply earlier earlier' := by
    intro s t hs ht
    rw [← List.append_nil earlier] at hs
    rw [← List.append_nil earlier'] at ht
    refine Run.lockstep (fun e f _ _ hse hsf => serve_same e f hse hsf) hearlier ?_ hs ht
    rintro s t ⟨hs⟩ ⟨ht⟩
    exact (show s = _ from hs).trans (show t = _ from ht).symm
  have hduring : ∀ {s t : Sys}, Run driver (life ++ earlier) s → Run driver (life' ++ earlier') t →
      (s.fds = t.fds ∧ SameButBuf s.drv t.drv) ∧ List.Forall₂ (fun e f =>
        (¬ IsTransfer e.label.1 → SameReply e f) ∧ (e.post.drv.hasOwner = 0 → e.post = f.post))
          life life' := by
    refine Run.lockstep (R := fun s t => s.fds = t.fds ∧ SameButBuf s.drv t.drv)
      (fun e f hpre hpre' hse hsf hrel hreq => ?_) hlife (fun s t hs ht => ?_)
    · obtain ⟨hpost, hrep⟩ := serve_sameButBuf hrel.1 hrel.2 hreq hse hsf
      have hI := reachable_inv (hpre.step hse)
      have hI' := reachable_inv (hpre'.step hsf)
      exact ⟨hpost, hrep, eq_of_ownerless hI hI' hpost.1 hpost.2⟩
    · obtain ⟨rfl, -⟩ := hbefore hs ht
      exact ⟨rfl, .refl _⟩
  obtain ⟨-, hpairs⟩ := hduring hm hm'
  have hended : List.Forall₂ (fun e f => e.post.drv.hasOwner = 0 → e.post = f.post) life life' :=
    hpairs.imp fun e f h => h.2
  refine ⟨(hbefore hm₀ hm₀').2, ?_, ?_, hended⟩
  · rcases hL.whole with rfl | ⟨last, rest, rfl, hreset⟩
    · cases hlater
      exact .nil
    refine (Run.lockstep (R := Eq) (fun e f _ _ hse hsf => serve_same e f hse hsf) hlater
      (fun s t hs ht => ?_) hr hr').2
    -- both runs go on from the state the resetting close leaves
    cases hlife with
    | cons _ _ =>
      cases hended with
      | cons heq _ =>
        obtain ⟨-, -, rfl⟩ := hs.tail
        obtain ⟨-, -, rfl⟩ := ht.tail
        exact heq hreset
  · have hstrange : ∀ e ∈ life, ByStranger life e → ¬ IsTransfer e.label.1 :=
      fun e he => stranger_no_transfer hm hL he
    refine (List.forall₂_and_left _ _ |>.mpr ⟨hstrange, hpairs⟩).imp fun e f h hby => ?_
    exact h.2.1 (h.1 hby)

/-- A history from the step that took ownership to the one that ended it is a lifetime. -/
theorem OwnershipLifetime.of_ends {later life : List Step}
    (htaken : ∃ first ∈ life.getLast?, TakesOwnership first)
    (howned : ∀ e ∈ life.dropLast, e.pre.drv.hasOwner ≠ 0)
    (hended : ∃ last ∈ life.head?, last.post.drv.hasOwner = 0) : OwnershipLifetime later life := by
  obtain ⟨first, hfirst, htakes⟩ := htaken
  obtain ⟨last, hlast, hno⟩ := hended
  obtain ⟨rest, rfl⟩ := List.head?_eq_some_iff.mp hlast
  exact ⟨⟨_, first, (List.dropLast_append_getLast? first hfirst).symm, htakes, howned⟩,
    .inr ⟨last, rest, rfl, hno⟩⟩

/-- What the history of a visit shows. -/
def Visited (b : UInt8) (h : List Step) (s : Sys) : Prop :=
  (∃ first ∈ h.getLast?, TakesOwnership first) ∧ (∀ e ∈ h.dropLast, e.pre.drv.hasOwner ≠ 0) ∧
    (∃ last ∈ h.head?, last.post.drv.hasOwner = 0) ∧
    h.reverse.flatMap (·.label.2.delivered) = [b, b + 1, b + 2] ∧ s.fds.length = 0 ∧ s.drv.hasOwner = 0

instance (b : UInt8) (h : List Step) (s : Sys) : Decidable (Visited b h s) :=
  inferInstanceAs (Decidable (_ ∧ _))

theorem exists_visit {b : UInt8} (hp : ((play answered (visit b) [] ⟨resetState, []⟩).any fun r =>
    decide (Visited b r.1 r.2)) = true) :
    ∃ h, play answered (visit b) [] ⟨resetState, []⟩ = some (h, ⟨resetState, []⟩) ∧
      Visited b h ⟨resetState, []⟩ := by
  obtain ⟨h, ⟨drv, fds⟩, hplay, hv⟩ := exists_answered (visit b) (Visited b) hp
  have hI := reachable_inv (run_of_answered hplay).reachable
  obtain ⟨-, -, -, -, hnil, hno⟩ := id hv
  obtain rfl : drv = resetState := hI.cleared hno
  obtain rfl : fds = [] := List.length_eq_zero_iff.mp hnil
  exact ⟨h, hplay, hv⟩

/-- The same visit with other bytes. -/
theorem visit_sameButBytes (b c : UInt8) :
    List.Forall₂ (fun l m => SameButBytes l.1 m.1) (visit b) (visit c) :=
  .cons (.same _) <| .cons (.bytes ..) <| .cons (.same _) <| .cons (.bytes ..) <| .cons (.same _) <|
    .cons (.bytes ..) <| .cons (.same _) <| .cons (.same _) <| .cons (.bytes ..) <| .cons (.same _) .nil

theorem forall₂_of_labels {R : Request × Reply → Request × Reply → Prop}
    {ls ms : List (Request × Reply)} {h h' : List Step} {s t : Sys} (hl : List.Forall₂ R ls ms)
    (hp : play answered ls [] ⟨resetState, []⟩ = some (h, s))
    (hp' : play answered ms [] ⟨resetState, []⟩ = some (h', t)) :
    List.Forall₂ (fun e f => R e.label f.label) h h' := by
  have hlabels := play_labels hp
  have hlabels' := play_labels hp'
  rw [List.map_nil, List.append_nil] at hlabels hlabels'
  have hrev := List.rel_reverse hl
  rw [← hlabels, ← hlabels', List.forall₂_map_left_iff, List.forall₂_map_right_iff] at hrev
  exact hrev

theorem secret_confidential_visits : ∃ earlier life life' later,
    (Visited 65 earlier ⟨resetState, []⟩ ∧ Visited 1 life ⟨resetState, []⟩ ∧
      Visited 7 life' ⟨resetState, []⟩ ∧ later.reverse.flatMap (·.label.2.delivered) = [97, 98]) ∧
    List.Forall₂ SameReply earlier earlier ∧ List.Forall₂ SameReply later later ∧
      List.Forall₂ (fun e f => ByStranger life e → SameReply e f) life life' ∧
      List.Forall₂ (fun e f => e.post.drv.hasOwner = 0 → e.post = f.post) life life' := by
  obtain ⟨earlier, hpearlier, hearlier⟩ := exists_visit (b := 65) (by decide +kernel)
  obtain ⟨life, hplife, hlife⟩ := exists_visit (b := 1) (by decide +kernel)
  obtain ⟨life', hplife', hlife'⟩ := exists_visit (b := 7) (by decide +kernel)
  obtain ⟨later, t, hplater, hlater⟩ := exists_answered ((visit 97).take 6)
    (fun (h : List Step) _ => h.reverse.flatMap (·.label.2.delivered) = [97, 98]) (by decide +kernel)
  have hinit : ∀ u, driver.init u → u = ⟨resetState, []⟩ := fun _ hu => hu
  have hrun : ∀ {l : List Step}, Run driver l ⟨resetState, []⟩ →
      Run driver (later ++ (l ++ earlier)) t := fun hl =>
    ((run_of_answered hpearlier).append hinit hl).append hinit (run_of_answered hplater)
  obtain ⟨htaken, howned, hended, -⟩ := id hlife
  refine ⟨earlier, life, life', later, ⟨hearlier, hlife, hlife', hlater⟩,
    secret_confidential (hrun (run_of_answered hplife)) (hrun (run_of_answered hplife'))
      (.of_ends htaken howned hended) (List.forall₂_same.mpr fun _ _ => rfl)
      (forall₂_of_labels (visit_sameButBytes 1 7) hplife hplife')
      (List.forall₂_same.mpr fun _ _ => rfl)⟩

end Csc453.Secret
