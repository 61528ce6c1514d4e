import Csc453.Secret.Service

/-!
# Csc453.Secret.Lifetime — the lifetime of the secret

`Inv` is what every reachable state of `driver` satisfies: the cursors are ordered, `open_counter`
counts the open descriptors, and an ownerless driver is in its reset state.  `Hist` ties the state
to the history since ownership was last taken: `read_fd_opened` tells whether a read open
succeeded in it, and the only write open in it is the one that took ownership.

`SameView` is equality up to the buffer bytes behind `secret_len`, which a copy that failed half
way may have written; `answers_sameView` shows that no later request can tell the two apart.
-/

namespace Csc453.Secret

open Transition

/-! ### The state invariant -/

structure Inv (s : Sys) : Prop where
  off_nonneg : 0 ≤ s.drv.readOffset
  off_le : s.drv.readOffset ≤ s.drv.secretLen
  len_le : s.drv.secretLen ≤ secretSize
  count : s.drv.openCounter = s.fds.length
  cleared : s.drv.hasOwner = 0 → s.drv = resetState
  room : s.fds.length ≤ intMax

theorem Inv.owned {s : Sys} (h : Inv s) {fd : ℕ} (hfd : fd < s.fds.length) :
    s.drv.hasOwner ≠ 0 := by
  intro h0
  have hc := h.count
  rw [h.cleared h0] at hc
  have : (0 : ℤ) = s.fds.length := hc
  omega

theorem inv_init : Inv ⟨resetState, []⟩ :=
  ⟨le_rfl, le_rfl, by decide, rfl, fun _ => rfl, by decide⟩

theorem countOpen_counter {mode : BitVec 32} {s : State} {n : ℕ} (hn : n < intMax)
    (hc : s.openCounter = n) : (countOpen mode s).openCounter = (n + 1 : ℕ) := by
  have : intMax = 2147483647 := rfl
  show toInt (s.openCounter + 1) = _
  rw [hc, toInt_of_bounds (by omega) (by omega)]
  rfl

/-- The last close after a read open resets the state; every other close counts down. -/
theorem secretClose_cases {s : State} {n : ℕ} (hc : s.openCounter = (n + 1 : ℕ)) :
    (n = 0 ∧ s.readFdOpened ≠ 0 ∧ secretClose s = (resetState, OK)) ∨
      ((n ≠ 0 ∨ s.readFdOpened = 0) ∧ secretClose s = ({ s with openCounter := n }, OK)) := by
  have hpos : 0 < s.openCounter := by omega
  have hn : s.openCounter - 1 = n := by omega
  unfold secretClose
  simp only [if_pos hpos, hn]
  by_cases h : (n : ℤ) = 0 ∧ s.readFdOpened ≠ 0
  · exact Or.inl ⟨by omega, h.2, by rw [if_pos h]; rfl⟩
  · refine Or.inr ⟨?_, by rw [if_neg h]⟩
    by_cases hn0 : n = 0
    · exact Or.inr (not_not.mp fun hr => h ⟨by omega, hr⟩)
    · exact Or.inl hn0

/-! ### One request -/

/-- What `serve` does in a state satisfying `Inv`, request by request. -/
inductive Served (s : Sys) : Request → Sys → Reply → Prop
  | refused (caller mode cred) (e : Errno) :
      Served s (.open caller mode cred) s { ret := e }
  | took (caller mode cred) : s.drv.hasOwner = 0 → s.fds.length < intMax →
      Served s (.open caller mode cred)
        ⟨countOpen mode { s.drv with hasOwner := 1, secretOwner := caller }, s.fds ++ [⟨caller, mode⟩]⟩
        { ret := OK }
  | reopened (caller mode cred) : s.drv.hasOwner ≠ 0 → mode &&& wBit = 0 → mode &&& rBit ≠ 0 →
      caller = s.drv.secretOwner → s.fds.length < intMax →
      Served s (.open caller mode cred) ⟨countOpen mode s.drv, s.fds ++ [⟨caller, mode⟩]⟩ { ret := OK }
  | lastClose (fd) : s.fds.length = 1 → fd = 0 → s.drv.readFdOpened ≠ 0 →
      Served s (.close fd) ⟨resetState, []⟩ { ret := OK }
  | close (fd) : fd < s.fds.length → (s.fds.length ≠ 1 ∨ s.drv.readFdOpened = 0) →
      Served s (.close fd)
        ⟨{ s.drv with openCounter := (s.fds.length - 1 : ℕ) }, s.fds.eraseIdx fd⟩ { ret := OK }
  | granted (fd) (uid : Uid) : fd < s.fds.length →
      Served s (.ioctl fd .SSGRANT (.ok uid)) ⟨{ s.drv with secretOwner := uid }, s.fds⟩ { ret := OK }
  | notGranted (fd request grantee) (e : Errno) : fd < s.fds.length →
      Served s (.ioctl fd request grantee) s { ret := e }
  | noTransfer (fd opcode iovSize data copy) (reply : Reply) : fd < s.fds.length →
      Served s (.transfer fd opcode iovSize data copy) s reply
  | read (fd iovSize data) (n : ℕ) (reply : Reply) : fd < s.fds.length →
      n ≤ s.drv.secretLen - s.drv.readOffset → reply.ret = OK →
      Served s (.transfer fd .DEV_GATHER_S iovSize data .ok)
        ⟨{ s.drv with readOffset := s.drv.readOffset + n }, s.fds⟩ reply
  | wrote (fd iovSize data) (n : ℕ) (reply : Reply) : fd < s.fds.length →
      s.drv.secretLen + n ≤ secretSize → reply.ret = OK →
      Served s (.transfer fd .DEV_SCATTER_S iovSize data .ok)
        ⟨{ s.drv with
            secretBuf := s.drv.secretBuf.write s.drv.secretLen.toNat n data
            secretLen := s.drv.secretLen + n }, s.fds⟩ reply
  | torn (fd iovSize data) (e : Errno) (done n : ℕ) : fd < s.fds.length →
      Served s (.transfer fd .DEV_SCATTER_S iovSize data (.err e done))
        ⟨{ s.drv with secretBuf := s.drv.secretBuf.write s.drv.secretLen.toNat n data }, s.fds⟩
        { ret := e, iovSize := iovSize.toNat }

section

variable {s t : Sys} {rep : Reply}

/-- The result of a request is what it is computed to be. -/
theorem Served.of_some {r : Request} {t' : Sys} {rep' : Reply} (h : some (t', rep') = some (t, rep))
    (hs : Served s r t' rep') : Served s r t rep := by
  obtain ⟨rfl, rfl⟩ := Prod.mk.inj (Option.some.inj h)
  exact hs

theorem served_open {caller : Uid} {mode : BitVec 32} {cred : ℤ}
    (h : serve s (.open caller mode cred) = some (t, rep)) : Served s (.open caller mode cred) t rep := by
  simp only [serve] at h
  by_cases hroom : s.fds.length < intMax
  swap
  · simp [hroom] at h
  rw [if_pos hroom] at h
  rcases secretOpen_cases mode caller cred s.drv with ⟨e, he⟩ | ⟨hno, he⟩ | ⟨hown, hw, hr, hu, he⟩
  · simp only [he, if_neg e.2] at h
    exact .of_some h (.refused caller mode cred e)
  · simp only [he, if_true] at h
    exact .of_some h (.took caller mode cred hno hroom)
  · simp only [he, if_true] at h
    exact .of_some h (.reopened caller mode cred hown hw hr hu hroom)

theorem served_close (hI : Inv s) {fd : ℕ} (h : serve s (.close fd) = some (t, rep)) :
    Served s (.close fd) t rep := by
  simp only [serve] at h
  split_ifs at h with hfd
  obtain ⟨n, hn⟩ : ∃ n, s.fds.length = n + 1 := ⟨s.fds.length - 1, by omega⟩
  have hc : s.drv.openCounter = (n + 1 : ℕ) := by rw [hI.count, hn]
  rcases secretClose_cases hc with ⟨rfl, hrd, he⟩ | ⟨hor, he⟩
  · have hnil : s.fds.eraseIdx fd = [] := by
      rw [List.eq_nil_iff_length_eq_zero, List.length_eraseIdx, if_pos hfd, hn]
    simp only [he, hnil] at h
    exact .of_some h (.lastClose fd hn (by omega) hrd)
  · have hlen : n = s.fds.length - 1 := by omega
    simp only [he, hlen] at h
    exact .of_some h (.close fd hfd (hor.imp_left fun h => by omega))

theorem served_ioctl {fd : ℕ} {request : IoctlRequest} {grantee : Except Errno Uid}
    (h : serve s (.ioctl fd request grantee) = some (t, rep)) :
    Served s (.ioctl fd request grantee) t rep := by
  simp only [serve] at h
  split_ifs at h with hfd
  cases request with
  | other code => exact .of_some h (.notGranted fd _ grantee ⟨ENOTTY, by decide⟩ hfd)
  | SSGRANT =>
    cases grantee with
    | ok uid => exact .of_some h (.granted fd uid hfd)
    | error e => exact .of_some h (.notGranted fd _ _ e hfd)

theorem served_read (hI : Inv s) {fd : ℕ} {iov : UInt32} {data : ℕ → UInt8} {copy : Copy}
    (hfd : fd < s.fds.length)
    (h : some (⟨(gather iov.toNat copy s.drv).1, s.fds⟩, (gather iov.toNat copy s.drv).2) = some (t, rep)) :
    Served s (.transfer fd .DEV_GATHER_S iov data copy) t rep := by
  have hoff := hI.off_le
  simp only [gather_eq hI.off_nonneg hI.off_le hI.len_le] at h
  split_ifs at h with hn
  · exact .of_some h (.noTransfer fd _ iov data copy _ hfd)
  · cases copy with
    | ok => exact .of_some h (.read fd iov data _ _ hfd (by omega) rfl)
    | err e done => exact .of_some h (.noTransfer fd _ iov data _ _ hfd)

theorem served_write (hI : Inv s) {fd : ℕ} {iov : UInt32} {data : ℕ → UInt8} {copy : Copy}
    (hfd : fd < s.fds.length)
    (h : some (⟨(scatter iov.toNat data copy s.drv).1, s.fds⟩, (scatter iov.toNat data copy s.drv).2) =
      some (t, rep)) : Served s (.transfer fd .DEV_SCATTER_S iov data copy) t rep := by
  have hoff := hI.off_nonneg
  have hle := hI.off_le
  have hlen := hI.len_le
  simp only [scatter_eq hI.off_nonneg hI.off_le hI.len_le] at h
  split_ifs at h with hz hfull
  · exact .of_some h (.noTransfer fd _ iov data copy _ hfd)
  · exact .of_some h (.noTransfer fd _ iov data copy _ hfd)
  · cases copy with
    | ok => exact .of_some h (.wrote fd iov data _ _ hfd (by omega) rfl)
    | err e done => exact .of_some h (.torn fd iov data e done _ hfd)

/-- A request is served in one of these ways. -/
theorem served_of_serve {r : Request} (hI : Inv s) (h : serve s r = some (t, rep)) : Served s r t rep := by
  cases r with
  | «open» caller mode cred => exact served_open h
  | close fd => exact served_close hI h
  | ioctl fd request grantee => exact served_ioctl h
  | transfer fd opcode iov data copy =>
    simp only [serve] at h
    split_ifs at h with hfd
    cases opcode with
    | other code => exact .of_some h (.noTransfer fd _ iov data copy _ hfd)
    | DEV_GATHER_S => exact served_read hI hfd h
    | DEV_SCATTER_S => exact served_write hI hfd h

end

theorem Served.inv {s t : Sys} {r : Request} {rep : Reply} (h : Served s r t rep) (hI : Inv s) :
    Inv t := by
  cases h with
  | refused => exact hI
  | took caller mode cred hno hroom =>
    have hz := hI.cleared hno
    have hc : (countOpen mode { s.drv with hasOwner := 1, secretOwner := caller }).openCounter =
        (s.fds.length + 1 : ℕ) := countOpen_counter hroom hI.count
    refine ⟨hI.off_nonneg, hI.off_le, hI.len_le, ?_, fun h0 => ?_, ?_⟩
    · rw [hc, List.length_append, List.length_singleton]
    · exact absurd h0 (by simp [countOpen])
    · rw [List.length_append, List.length_singleton]; omega
  | reopened caller mode cred hown _ _ _ hroom =>
    have hc : (countOpen mode s.drv).openCounter = (s.fds.length + 1 : ℕ) :=
      countOpen_counter hroom hI.count
    refine ⟨hI.off_nonneg, hI.off_le, hI.len_le, ?_, fun h0 => absurd h0 hown, ?_⟩
    · rw [hc, List.length_append, List.length_singleton]
    · rw [List.length_append, List.length_singleton]; omega
  | lastClose => exact inv_init
  | close fd hfd hor =>
    have hlen : (s.fds.eraseIdx fd).length = s.fds.length - 1 := by
      rw [List.length_eraseIdx, if_pos hfd]
    refine ⟨hI.off_nonneg, hI.off_le, hI.len_le, ?_, fun h0 => absurd h0 (hI.owned hfd), ?_⟩
    · rw [hlen]
    · rw [hlen]; have := hI.room; omega
  | granted fd uid hfd =>
    exact ⟨hI.off_nonneg, hI.off_le, hI.len_le, hI.count, fun h0 => absurd h0 (hI.owned hfd), hI.room⟩
  | notGranted => exact hI
  | noTransfer => exact hI
  | read fd iov data n _ hfd hn =>
    have := hI.off_nonneg
    refine ⟨?_, ?_, hI.len_le, hI.count, fun h0 => absurd h0 (hI.owned hfd), hI.room⟩
    · show 0 ≤ s.drv.readOffset + n
      omega
    · show s.drv.readOffset + n ≤ s.drv.secretLen
      omega
  | wrote fd iov data n _ hfd hn =>
    have := hI.off_le
    refine ⟨hI.off_nonneg, ?_, hn, hI.count, fun h0 => absurd h0 (hI.owned hfd), hI.room⟩
    show s.drv.readOffset ≤ s.drv.secretLen + n
    omega
  | torn fd iov data e done n hfd =>
    exact ⟨hI.off_nonneg, hI.off_le, hI.len_le, hI.count, fun h0 => absurd h0 (hI.owned hfd), hI.room⟩

theorem reachable_inv {s : Sys} (h : Reachable driver s) : Inv s := by
  refine Reachable.invariant (fun s h0 => ?_) (fun s l t hI hs => ?_) h
  · rw [show s = ⟨resetState, []⟩ from h0]
    exact inv_init
  · exact (served_of_serve hI hs).inv hI

/-! ### The view of later requests -/

/-- Equal up to the buffer bytes behind the secret. -/
structure SameView (s t : State) : Prop where
  openCounter : s.openCounter = t.openCounter
  secretOwner : s.secretOwner = t.secretOwner
  hasOwner : s.hasOwner = t.hasOwner
  secretLen : s.secretLen = t.secretLen
  readOffset : s.readOffset = t.readOffset
  readFdOpened : s.readFdOpened = t.readFdOpened
  bytes : ∀ i : Fin secretSize, (i : ℕ) < s.secretLen → s.secretBuf i = t.secretBuf i

theorem SameView.refl (s : State) : SameView s s := ⟨rfl, rfl, rfl, rfl, rfl, rfl, fun _ _ => rfl⟩

/-- A request that returns an error leaves the view of later requests as it was. -/
theorem Served.error_sameView {s t : Sys} {r : Request} {rep : Reply} (h : Served s r t rep)
    (hI : Inv s) (he : rep.ret ≠ OK) : s.fds = t.fds ∧ SameView s.drv t.drv := by
  cases h with
  | refused => exact ⟨rfl, .refl _⟩
  | notGranted => exact ⟨rfl, .refl _⟩
  | noTransfer => exact ⟨rfl, .refl _⟩
  | torn fd iov data e done n hfd =>
    refine ⟨rfl, rfl, rfl, rfl, rfl, rfl, rfl, fun i hi => ?_⟩
    exact (Buf.write_of_lt (by have := hI.off_nonneg; have := hI.off_le; omega)).symm
  | read _ _ _ _ _ _ _ hok => exact absurd hok he
  | wrote _ _ _ _ _ _ _ hok => exact absurd hok he
  | _ => exact absurd rfl he

theorem SameView.withBuf {s t : State} (h : SameView s t) :
    ∃ b, t = { s with secretBuf := b } ∧
      ∀ i : Fin secretSize, (i : ℕ) < s.secretLen → s.secretBuf i = b i := by
  obtain ⟨a1, a2, a3, a4, a5, a6, a7⟩ := s
  obtain ⟨b1, b2, b3, b4, b5, b6, b7⟩ := t
  obtain ⟨rfl, rfl, rfl, rfl, rfl, rfl, hb⟩ := h
  exact ⟨b4, rfl, hb⟩

theorem sameView_withBuf {s : State} {b : Buf}
    (h : ∀ i : Fin secretSize, (i : ℕ) < s.secretLen → s.secretBuf i = b i) :
    SameView s { s with secretBuf := b } := ⟨rfl, rfl, rfl, rfl, rfl, rfl, h⟩

/-- Equal answers: neither request is sent, or both get the same reply and the same view. -/
inductive Alike : Option (Sys × Reply) → Option (Sys × Reply) → Prop
  | none : Alike none none
  | some {s t : Sys} {rep : Reply} : s.fds = t.fds → SameView s.drv t.drv →
      Alike (some (s, rep)) (some (t, rep))

section View

variable {s t : State} (hv : SameView s t)
include hv

theorem secretOpen_sameView (mode : BitVec 32) (caller : Uid) (cred : ℤ) :
    SameView (secretOpen mode caller cred s).1 (secretOpen mode caller cred t).1 ∧
      (secretOpen mode caller cred s).2 = (secretOpen mode caller cred t).2 := by
  obtain ⟨b, rfl, hb⟩ := hv.withBuf
  unfold secretOpen
  split_ifs <;> exact ⟨sameView_withBuf hb, rfl⟩

theorem secretClose_sameView : SameView (secretClose s).1 (secretClose t).1 := by
  obtain ⟨b, rfl, hb⟩ := hv.withBuf
  unfold secretClose
  dsimp only
  split_ifs
  all_goals first | exact sameView_withBuf hb | exact .refl _

theorem secretIoctl_sameView (request : IoctlRequest) (grantee : Except Errno Uid) :
    SameView (secretIoctl request grantee s).1 (secretIoctl request grantee t).1 ∧
      (secretIoctl request grantee s).2 = (secretIoctl request grantee t).2 := by
  obtain ⟨b, rfl, hb⟩ := hv.withBuf
  unfold secretIoctl
  cases request with
  | other => exact ⟨hv, rfl⟩
  | SSGRANT =>
    cases grantee with
    | ok => exact ⟨sameView_withBuf hb, rfl⟩
    | error => exact ⟨hv, rfl⟩

end View

section Transfer

variable {s t : State} (hv : SameView s t) (h0 : 0 ≤ s.readOffset) (h1 : s.readOffset ≤ s.secretLen)
  (h2 : s.secretLen ≤ secretSize)
include hv h0 h1 h2

/-- Only bytes in front of `secret_len` are ever delivered. -/
theorem gather_sameView (iov : UInt32) (copy : Copy) :
    SameView (gather iov.toNat copy s).1 (gather iov.toNat copy t).1 ∧
      (gather iov.toNat copy s).2 = (gather iov.toNat copy t).2 := by
  obtain ⟨b, rfl, hb⟩ := hv.withBuf
  rw [gather_eq h0 h1 h2, gather_eq (s := { s with secretBuf := b }) h0 h1 h2]
  have hget : ∀ i : ℕ, (i : ℤ) < s.secretLen → s.secretBuf.get i = b.get i := by
    intro i hi
    unfold Buf.get
    split_ifs with hs
    · exact hb ⟨i, hs⟩ hi
    · rfl
  have hout : ∀ k ≤ min (s.secretLen - s.readOffset).toNat iov.toNat,
      (List.range k).map (fun i => s.secretBuf.get (s.readOffset.toNat + i)) =
        (List.range k).map fun i => b.get (s.readOffset.toNat + i) := by
    intro k hk
    refine List.map_congr_left fun i hi => hget _ ?_
    have := List.mem_range.mp hi
    omega
  dsimp only
  split_ifs
  · exact ⟨sameView_withBuf hb, rfl⟩
  · cases copy with
    | ok => exact ⟨sameView_withBuf hb, by rw [hout _ le_rfl]⟩
    | err e done =>
      refine ⟨sameView_withBuf hb, ?_⟩
      dsimp only
      rw [hout (min done _) (min_le_right _ _)]

/-- A write covers the bytes it adds to the secret, whatever stood there. -/
theorem scatter_sameView (iov : UInt32) (data : ℕ → UInt8) (copy : Copy) :
    SameView (scatter iov.toNat data copy s).1 (scatter iov.toNat data copy t).1 ∧
      (scatter iov.toNat data copy s).2 = (scatter iov.toNat data copy t).2 := by
  obtain ⟨b, rfl, hb⟩ := hv.withBuf
  rw [scatter_eq h0 h1 h2, scatter_eq (s := { s with secretBuf := b }) h0 h1 h2]
  have hwrite : ∀ (k : ℕ) (i : Fin secretSize), (i : ℕ) < s.secretLen.toNat + k →
      s.secretBuf.write s.secretLen.toNat k data i = b.write s.secretLen.toNat k data i := by
    intro k i hi
    unfold Buf.write
    by_cases hlt : (i : ℕ) < s.secretLen.toNat
    · rw [if_neg (by omega), if_neg (by omega)]
      exact hb i (by omega)
    · rw [if_pos (by omega), if_pos (by omega)]
  dsimp only
  split_ifs
  · exact ⟨sameView_withBuf hb, rfl⟩
  · exact ⟨sameView_withBuf hb, rfl⟩
  · cases copy with
    | ok =>
      refine ⟨⟨rfl, rfl, rfl, rfl, rfl, rfl, fun i hi => hwrite _ i ?_⟩, rfl⟩
      dsimp only at hi
      omega
    | err e done =>
      refine ⟨⟨rfl, rfl, rfl, rfl, rfl, rfl, fun i hi => hwrite _ i ?_⟩, rfl⟩
      dsimp only at hi
      omega

end Transfer

/-- Systems with the same view answer every request alike. -/
theorem serve_sameView {s : Sys} {a : State} (hI : Inv s) (hv : SameView s.drv a) (r : Request) :
    Alike (serve s r) (serve ⟨a, s.fds⟩ r) := by
  cases r with
  | «open» caller mode cred =>
    obtain ⟨hview, hret⟩ := secretOpen_sameView hv mode caller cred
    simp only [serve, ← hret]
    by_cases hroom : s.fds.length < intMax
    · rw [if_pos hroom, if_pos hroom]
      exact .some rfl hview
    · rw [if_neg hroom, if_neg hroom]
      exact .none
  | close fd =>
    have hview := secretClose_sameView hv
    have hret : ∀ d, (secretClose d).2 = OK := fun d => by
      unfold secretClose
      dsimp only
      split_ifs <;> rfl
    simp only [serve, hret]
    split_ifs
    · exact .some rfl hview
    · exact .none
  | ioctl fd request grantee =>
    obtain ⟨hview, hret⟩ := secretIoctl_sameView hv request grantee
    simp only [serve]
    split_ifs
    · rw [← hret]
      exact .some rfl hview
    · exact .none
  | transfer fd opcode iov data copy =>
    have hsame : SameView (secretTransfer opcode iov data copy s.drv).1
        (secretTransfer opcode iov data copy a).1 ∧
        (secretTransfer opcode iov data copy s.drv).2 = (secretTransfer opcode iov data copy a).2 := by
      cases opcode with
      | DEV_GATHER_S => exact gather_sameView hv hI.off_nonneg hI.off_le hI.len_le iov copy
      | DEV_SCATTER_S => exact scatter_sameView hv hI.off_nonneg hI.off_le hI.len_le iov data copy
      | other => exact ⟨hv, rfl⟩
    simp only [serve]
    split_ifs
    · rw [← hsame.2]
      exact .some rfl hsame.1
    · exact .none

/-- The replies to a sequence of requests (`none` for one that is not sent). -/
def answers : Sys → List Request → List (Option Reply)
  | _, [] => []
  | s, r :: rs =>
    match serve s r with
    | some (t, rep) => some rep :: answers t rs
    | none => none :: answers s rs

/-- No sequence of requests tells two systems with the same view apart. -/
theorem answers_sameView (rs : List Request) {s : Sys} {a : State} (hI : Inv s)
    (hv : SameView s.drv a) : answers ⟨a, s.fds⟩ rs = answers s rs := by
  induction rs generalizing s a with
  | nil => rfl
  | cons r rs ih =>
    have hA := serve_sameView hI hv r
    cases hs : serve s r with
    | none =>
      rw [hs] at hA
      cases ht : serve ⟨a, s.fds⟩ r with
      | none => simp only [answers, hs, ht, ih hI hv]
      | some => rw [ht] at hA; cases hA
    | some p =>
      rw [hs] at hA
      cases ht : serve ⟨a, s.fds⟩ r with
      | none => rw [ht] at hA; cases hA
      | some q =>
        rw [ht] at hA
        obtain ⟨s', rep⟩ := p
        obtain ⟨⟨d, fds⟩, rep'⟩ := q
        cases hA with
        | some hfds hview =>
          dsimp only at hfds
          subst hfds
          simp only [answers, hs, ht, ih ((served_of_serve hI hs).inv hI) hview]

/-! ### The history since ownership was taken -/

abbrev Step := Event Sys (Request × Reply)

/-- The step made an ownerless device owned. -/
def TakesOwnership (e : Step) : Prop := e.pre.drv.hasOwner = 0 ∧ e.post.drv.hasOwner ≠ 0

instance (e : Step) : Decidable (TakesOwnership e) := inferInstanceAs (Decidable (_ ∧ _))

/-- The steps since ownership was last taken, that one included (newest first). -/
def sinceOwnership : List Step → List Step
  | [] => []
  | e :: past => if TakesOwnership e then [e] else e :: sinceOwnership past

/-- An open whose mode has the bit `bit` succeeded. -/
def Opened (bit : BitVec 32) (e : Step) : Prop :=
  ∃ caller mode cred, e.label.1 = .open caller mode cred ∧ mode &&& bit ≠ 0 ∧ e.label.2.ret = OK

def Closed (e : Step) : Prop := ∃ fd, e.label.1 = .close fd

/-- Only the oldest step since ownership was taken takes ownership. -/
theorem sinceOwnership_pairwise (h : List Step) :
    (sinceOwnership h).Pairwise fun newer _ => ¬ TakesOwnership newer := by
  induction h with
  | nil => exact .nil
  | cons e past ih =>
    unfold sinceOwnership
    split_ifs with ht
    · exact List.pairwise_singleton _ _
    · exact List.pairwise_cons.mpr ⟨fun _ _ => ht, ih⟩

/-- How the state follows from the history since ownership was taken. -/
structure Hist (h : List Step) (s : Sys) : Prop where
  reads : s.drv.hasOwner ≠ 0 →
    (s.drv.readFdOpened ≠ 0 ↔ ∃ e ∈ sinceOwnership h, Opened rBit e)
  writes : ∀ e ∈ sinceOwnership h, Opened wBit e → TakesOwnership e

theorem sinceOwnership_took {e : Step} {h : List Step} (he : TakesOwnership e) :
    sinceOwnership (e :: h) = [e] := if_pos he

theorem sinceOwnership_kept {e : Step} {h : List Step} (he : ¬ TakesOwnership e) :
    sinceOwnership (e :: h) = e :: sinceOwnership h := if_neg he

/-- Steps that are no successful open and keep owner and read flag. -/
theorem Hist.quiet {h : List Step} {s t : Sys} {r : Request} {rep : Reply} (hH : Hist h s)
    (hown : t.drv.hasOwner = s.drv.hasOwner) (hread : t.drv.readFdOpened = s.drv.readFdOpened)
    (hno : ∀ bit, ¬ Opened bit ⟨s, (r, rep), t⟩) : Hist (⟨s, (r, rep), t⟩ :: h) t := by
  have ht : ¬ TakesOwnership ⟨s, (r, rep), t⟩ := fun ht => ht.2 (hown.trans ht.1)
  refine ⟨fun h0 => ?_, fun e he hw => ?_⟩
  · rw [hread, hH.reads (hown ▸ h0), sinceOwnership_kept ht]
    simp [hno]
  · rw [sinceOwnership_kept ht] at he
    rcases List.mem_cons.mp he with rfl | he
    · exact absurd hw (hno _)
    · exact hH.writes e he hw

/-- A request other than an open is no successful open. -/
theorem not_opened {s t : Sys} {r : Request} {rep : Reply} (hr : ∀ u m c, r ≠ .open u m c)
    (bit : BitVec 32) : ¬ Opened bit ⟨s, (r, rep), t⟩ := by
  rintro ⟨u, m, c, ho, -⟩
  exact hr u m c ho

theorem Served.hist {h : List Step} {s t : Sys} {r : Request} {rep : Reply}
    (hs : Served s r t rep) (hI : Inv s) (hH : Hist h s) : Hist (⟨s, (r, rep), t⟩ :: h) t := by
  cases hs with
  | refused caller mode cred e =>
    refine hH.quiet rfl rfl fun bit hb => ?_
    obtain ⟨_, _, _, _, _, hok⟩ := hb
    exact e.2 hok
  | took caller mode cred hno hroom =>
    have hz : s.drv.readFdOpened = 0 := by rw [hI.cleared hno]; rfl
    have ht : ∀ (l : Request × Reply) (u : Sys), u.drv.hasOwner = 1 → TakesOwnership ⟨s, l, u⟩ :=
      fun l u hu => ⟨hno, by rw [hu]; decide⟩
    refine ⟨fun _ => ?_, fun e he _ => ?_⟩
    · rw [sinceOwnership_took (ht _ _ rfl)]
      simp only [List.mem_singleton, exists_eq_left]
      show (if mode &&& rBit ≠ 0 then 1 else s.drv.readFdOpened) ≠ 0 ↔ _
      rw [hz]
      constructor
      · intro hr
        refine ⟨caller, mode, cred, rfl, fun h0 => hr ?_, rfl⟩
        rw [if_neg (not_not.mpr h0)]
      · rintro ⟨_, _, _, ho, hbit, -⟩
        obtain ⟨-, rfl, -⟩ := Request.open.inj ho
        rw [if_pos hbit]
        decide
    · rw [sinceOwnership_took (ht _ _ rfl)] at he
      rw [List.mem_singleton.mp he]
      exact ht _ _ rfl
  | reopened caller mode cred hown hw hr _ hroom =>
    have ht : ∀ (l : Request × Reply) (u : Sys), ¬ TakesOwnership ⟨s, l, u⟩ :=
      fun l u ht => hown ht.1
    refine ⟨fun _ => ?_, fun e he hwe => ?_⟩
    · rw [sinceOwnership_kept (ht _ _)]
      have h1 : (countOpen mode s.drv).readFdOpened = 1 := if_pos hr
      refine ⟨fun _ => ⟨_, List.mem_cons_self, caller, mode, cred, rfl, hr, rfl⟩, fun _ => ?_⟩
      rw [h1]
      decide
    · rw [sinceOwnership_kept (ht _ _)] at he
      rcases List.mem_cons.mp he with rfl | he
      · obtain ⟨_, _, _, ho, hbit, -⟩ := hwe
        obtain ⟨-, rfl, -⟩ := Request.open.inj ho
        exact absurd hw hbit
      · exact hH.writes e he hwe
  | lastClose fd hlen _ hrd =>
    have ht : ∀ l : Request × Reply, ¬ TakesOwnership ⟨s, l, ⟨resetState, []⟩⟩ :=
      fun l ht => ht.2 rfl
    refine ⟨fun h0 => absurd rfl h0, fun e he hwe => ?_⟩
    rw [sinceOwnership_kept (ht _)] at he
    rcases List.mem_cons.mp he with rfl | he
    · exact absurd hwe (not_opened (by simp) _)
    · exact hH.writes e he hwe
  | close => exact hH.quiet rfl rfl (not_opened (by simp))
  | granted => exact hH.quiet rfl rfl (not_opened (by simp))
  | notGranted => exact hH.quiet rfl rfl (not_opened (by simp))
  | noTransfer => exact hH.quiet rfl rfl (not_opened (by simp))
  | read => exact hH.quiet rfl rfl (not_opened (by simp))
  | wrote => exact hH.quiet rfl rfl (not_opened (by simp))
  | torn => exact hH.quiet rfl rfl (not_opened (by simp))

theorem run_hist {h : List Step} {s : Sys} (hr : Run driver h s) : Hist h s := by
  refine Run.invariant (fun s h0 => ?_) (fun h s l t hr hH hs => ?_) hr
  · rw [show s = ⟨resetState, []⟩ from h0]
    exact ⟨fun h0 => absurd rfl h0, by simp [sinceOwnership]⟩
  · have hI := reachable_inv hr.reachable
    exact (served_of_serve hI hs).hist hI hH

/-- Ownership ends exactly at the close that leaves no descriptor, once one was opened for
reading. -/
theorem Served.reset_iff {h : List Step} {s t : Sys} {r : Request} {rep : Reply}
    (hs : Served s r t rep) (hI : Inv s) (hH : Hist h s) :
    (s.drv.hasOwner ≠ 0 ∧ t.drv.hasOwner = 0) ↔
      Closed ⟨s, (r, rep), t⟩ ∧ t.fds = [] ∧ ∃ e ∈ sinceOwnership h, Opened rBit e := by
  cases hs with
  | lastClose fd hlen hfd hrd =>
    have hown := hI.owned (show fd < s.fds.length by omega)
    exact ⟨fun _ => ⟨⟨fd, rfl⟩, rfl, (hH.reads hown).mp hrd⟩, fun _ => ⟨hown, rfl⟩⟩
  | close fd hfd hor =>
    have hown := hI.owned hfd
    refine ⟨fun h0 => absurd h0.2 hown, fun ⟨_, hnil, hread⟩ => ?_⟩
    have hlen : (s.fds.eraseIdx fd).length = s.fds.length - 1 := by
      rw [List.length_eraseIdx, if_pos hfd]
    rw [show s.fds.eraseIdx fd = [] from hnil, List.length_nil] at hlen
    rcases hor with hne | hz
    · exact absurd (show s.fds.length = 1 by omega) hne
    · exact absurd hz ((hH.reads hown).mpr hread)
  | took caller mode cred hno _ =>
    exact ⟨fun h0 => absurd hno h0.1, fun ⟨⟨fd, hc⟩, _⟩ => by cases hc⟩
  | reopened caller mode cred hown =>
    exact ⟨fun h0 => absurd h0.2 hown, fun ⟨⟨fd, hc⟩, _⟩ => by cases hc⟩
  | _ => exact ⟨fun h0 => absurd h0.2 h0.1, fun ⟨⟨fd, hc⟩, _⟩ => by cases hc⟩

/-! ### The lifetime theorem -/

/-- What a run of the driver with history `h` ending in `s` satisfies. -/
structure Lifetime (h : List Step) (s : Sys) : Prop where
  cursors : 0 ≤ s.drv.readOffset ∧ s.drv.readOffset ≤ s.drv.secretLen ∧ s.drv.secretLen ≤ secretSize
  count : s.drv.openCounter = s.fds.length
  cleared : s.drv.hasOwner = 0 → s.drv = resetState
  ownershipEnds : ∀ e past, h = e :: past →
    ((e.pre.drv.hasOwner ≠ 0 ∧ e.post.drv.hasOwner = 0) ↔
      Closed e ∧ e.post.fds = [] ∧ ∃ r ∈ sinceOwnership past, Opened rBit r)
  writeOpenTakes : ∀ e ∈ sinceOwnership h, Opened wBit e → TakesOwnership e
  oneWriteOpen : (sinceOwnership h).Pairwise fun newer older => ¬ (Opened wBit newer ∧ Opened wBit older)
  errorsUnseen : ∀ e ∈ h, e.label.2.ret ≠ OK → e.pre.fds = e.post.fds ∧ SameView e.pre.drv e.post.drv ∧
    ∀ rs, answers e.post rs = answers e.pre rs

/-- **The lifetime of the secret**, for every run of the driver. -/
theorem driver_lifetime {h : List Step} {s : Sys} (hr : Run driver h s) : Lifetime h s := by
  have hI := reachable_inv hr.reachable
  have hH := run_hist hr
  refine ⟨⟨hI.off_nonneg, hI.off_le, hI.len_le⟩, hI.count, hI.cleared, ?_, hH.writes, ?_, ?_⟩
  · rintro ⟨p, ⟨r, rep⟩, q⟩ past rfl
    obtain ⟨hpast, hs, -⟩ := hr.tail
    have hIp := reachable_inv hpast.reachable
    exact (served_of_serve hIp hs).reset_iff hIp (run_hist hpast)
  · refine (sinceOwnership_pairwise h).imp_of_mem fun hnew _ hnt hw => ?_
    exact hnt (hH.writes _ hnew hw.1)
  · rintro ⟨p, ⟨r, rep⟩, q⟩ he hne
    obtain ⟨hp, hs⟩ := hr.event he
    have hIp := reachable_inv hp
    obtain ⟨hfds, hview⟩ := (served_of_serve hIp hs).error_sameView hIp hne
    refine ⟨hfds, hview, fun rs => ?_⟩
    have := answers_sameView rs hIp hview
    rwa [hfds] at this

/-- Uid 7 opens the fresh device for writing. -/
def firstOpen : Step :=
  ⟨⟨resetState, []⟩, (.open 7 wBit 0, { ret := OK }),
    ⟨countOpen wBit { resetState with hasOwner := 1, secretOwner := 7 }, [⟨7, wBit⟩]⟩⟩

/-- Serve a request that is answered as its label says. -/
def answered (_ : List Step) (s : Sys) (l : Request × Reply) : Option Sys :=
  (serve s l.1).bind fun r => if r.2 = l.2 then some r.1 else none

theorem step_of_answered {past : List Step} {s t : Sys} {l : Request × Reply}
    (h : answered past s l = some t) :
    driver.step s l t := by
  obtain ⟨⟨u, rep⟩, hs, hu⟩ := Option.bind_eq_some_iff.mp h
  obtain ⟨hrep, hu⟩ := Option.ite_none_right_eq_some.mp hu
  obtain rfl := Option.some.inj hu
  obtain rfl : rep = l.2 := hrep
  exact hs

theorem run_of_answered {labels : List (Request × Reply)} {h : List Step} {s : Sys}
    (hp : play answered labels [] ⟨resetState, []⟩ = some (h, s)) : Run driver h s :=
  (Run.play (J := fun _ _ => True) (fun _ _ _ _ hs => ⟨step_of_answered hs, trivial⟩) (.init rfl)
    trivial hp).1

theorem exists_answered (labels : List (Request × Reply)) (P : List Step → Sys → Prop)
    [∀ h s, Decidable (P h s)] (hp : ((play answered labels [] ⟨resetState, []⟩).any fun r =>
      decide (P r.1 r.2)) = true) :
    ∃ h s, play answered labels [] ⟨resetState, []⟩ = some (h, s) ∧ P h s :=
  exists_play P hp

/-- Uid 7 leaves three bytes, reads them and goes, while 8 and 9 are turned away. -/
def visit (b : UInt8) : List (Request × Reply) :=
  let bytes (i : ℕ) : UInt8 := b + .ofNat i
  let full : Errno := ⟨ENOSPC, by decide⟩
  [(.open 7 wBit 0, { ret := OK }),
   (.transfer 0 .DEV_SCATTER_S 3 bytes .ok, { ret := OK }),
   (.open 8 rBit 0, { ret := EACCES }),
   (.transfer 0 .DEV_SCATTER_S 2 bytes (.err full 1), { ret := ENOSPC, iovSize := 2 }),
   (.open 7 rBit 0, { ret := OK }),
   (.transfer 1 .DEV_GATHER_S 2 bytes .ok, { ret := OK, delivered := [b, b + 1] }),
   (.open 9 wBit 0, { ret := ENOSPC }),
   (.close 0, { ret := OK }),
   (.transfer 0 .DEV_GATHER_S 9 bytes .ok, { ret := OK, iovSize := 8, delivered := [b + 2] }),
   (.close 0, { ret := OK })]

/-- A visit that ends with the secret read and cleared, and the beginning of another. -/
def visits : List (Request × Reply) := visit 65 ++ (visit 97).take 6

theorem driver_lifetime_visits : ∃ h s, play answered visits [] ⟨resetState, []⟩ = some (h, s) ∧
    ((∃ e ∈ h, e.pre.drv.hasOwner = 1 ∧ e.post.drv.hasOwner = 0) ∧
      s.fds.length = 2 ∧ s.drv.readOffset = 2 ∧ s.drv.secretLen = 3) ∧ Lifetime h s := by
  obtain ⟨h, s, hp, hends⟩ := exists_answered visits (fun (h : List Step) s =>
    (∃ e ∈ h, e.pre.drv.hasOwner = 1 ∧ e.post.drv.hasOwner = 0) ∧
      s.fds.length = 2 ∧ s.drv.readOffset = 2 ∧ s.drv.secretLen = 3) (by decide +kernel)
  exact ⟨h, s, hp, hends, driver_lifetime (run_of_answered hp)⟩

end Csc453.Secret
