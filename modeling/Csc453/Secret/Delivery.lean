import Csc453.Secret.Lifetime

/-!
# Csc453.Secret.Delivery — what is written is read, once and in order

`accepted` and `delivered` are the bytes a step moved, read off the request and its reply.  Within a
lifetime the accepted bytes are the buffer up to `secret_len`, the delivered ones its part up to
`read_offset` (`run_flow`); `Moved` says what one transfer does.  Result: `secret_delivered_once`.
-/

namespace Csc453.Secret

open Transition

/-- The bytes a successful write brought in: as many as it took off `iov_size`. -/
def accepted (e : Step) : List UInt8 :=
  match e.label.1 with
  | .transfer _ .DEV_SCATTER_S iovSize data _ =>
    if e.label.2.ret = OK then (List.range (iovSize.toNat - e.label.2.iovSize.toNat)).map data else []
  | _ => []

/-- The bytes a successful read handed out. -/
def delivered (e : Step) : List UInt8 :=
  match e.label.1 with
  | .transfer _ .DEV_GATHER_S _ _ _ => if e.label.2.ret = OK then e.label.2.delivered else []
  | _ => []

def acceptedIn (h : List Step) : List UInt8 := h.reverse.flatMap accepted

def deliveredIn (h : List Step) : List UInt8 := h.reverse.flatMap delivered

theorem acceptedIn_cons (e : Step) (h : List Step) :
    acceptedIn (e :: h) = acceptedIn h ++ accepted e := by
  simp [acceptedIn]

theorem deliveredIn_cons (e : Step) (h : List Step) :
    deliveredIn (e :: h) = deliveredIn h ++ delivered e := by
  simp [deliveredIn]

/-- The bytes in front of `secret_len`. -/
def State.secret (s : State) : List UInt8 := (List.range s.secretLen.toNat).map s.secretBuf.get

theorem State.secret_length (s : State) : s.secret.length = s.secretLen.toNat := by
  simp [State.secret]

theorem secret_congr {s t : State} (hlen : t.secretLen = s.secretLen)
    (hb : ∀ i : Fin secretSize, (i : ℕ) < s.secretLen.toNat → t.secretBuf i = s.secretBuf i) :
    t.secret = s.secret := by
  unfold State.secret
  rw [hlen]
  refine List.map_congr_left fun i hi => ?_
  unfold Buf.get
  split_ifs with hs
  · exact hb ⟨i, hs⟩ (List.mem_range.mp hi)
  · rfl

/-- A write appends to the secret. -/
theorem secret_write {s : State} {n : ℕ} (data : ℕ → UInt8) (h0 : 0 ≤ s.secretLen)
    (hn : s.secretLen.toNat + n ≤ secretSize) :
    State.secret { s with
      secretBuf := s.secretBuf.write s.secretLen.toNat n data
      secretLen := s.secretLen + n } = s.secret ++ (List.range n).map data := by
  have hlen : (s.secretLen + n).toNat = s.secretLen.toNat + n := by omega
  unfold State.secret
  dsimp only
  rw [hlen, List.range_add, List.map_append, List.map_map]
  congr 1
  · refine List.map_congr_left fun i hi => ?_
    have hi := List.mem_range.mp hi
    unfold Buf.get
    split_ifs with hs
    · exact Buf.write_of_lt hi
    · rfl
  · refine List.map_congr_left fun i hi => ?_
    have hi := List.mem_range.mp hi
    have hs : s.secretLen.toNat + i < secretSize := by omega
    show Buf.get _ (s.secretLen.toNat + i) = data i
    unfold Buf.get Buf.write
    rw [dif_pos hs, if_pos ⟨by simp, by simpa using hi⟩]
    simp

/-- The bytes a read hands out. -/
theorem secret_slice {s : State} {n : ℕ} (hn : s.readOffset.toNat + n ≤ s.secretLen.toNat) :
    (List.range n).map (fun i => s.secretBuf.get (s.readOffset.toNat + i)) =
      (s.secret.drop s.readOffset.toNat).take n := by
  refine List.ext_getElem ?_ fun i h1 h2 => ?_
  · simp [State.secret]
    omega
  · simp [State.secret]

/-! ### One transfer -/

/-- What `secret_transfer` does to an open device, with its replies. -/
inductive Moved (s : Sys) : Opcode → UInt32 → (ℕ → UInt8) → Copy → Sys → Reply → Prop
  | read (iov data) (n : ℕ) : n = min iov.toNat (s.drv.secretLen - s.drv.readOffset).toNat →
      Moved s .DEV_GATHER_S iov data .ok
        ⟨{ s.drv with readOffset := s.drv.readOffset + n }, s.fds⟩
        { ret := OK, iovSize := (iov.toNat : ℤ) - n,
          delivered := (s.drv.secret.drop s.drv.readOffset.toNat).take n }
  | wrote (iov data) (n : ℕ) : s.drv.secretLen < secretSize →
      n = min iov.toNat (secretSize - s.drv.secretLen.toNat) →
      Moved s .DEV_SCATTER_S iov data .ok
        ⟨{ s.drv with
            secretBuf := s.drv.secretBuf.write s.drv.secretLen.toNat n data
            secretLen := s.drv.secretLen + n }, s.fds⟩
        { ret := OK, iovSize := (iov.toNat : ℤ) - n }
  | full (iov data) (ret : ℤ) : s.drv.secretLen = secretSize →
      Moved s .DEV_SCATTER_S iov data .ok s { ret, iovSize := iov.toNat }
  | failed (opcode iov data e done) (b : Buf) (rep : Reply) :
      (∀ i : Fin secretSize, (i : ℕ) < s.drv.secretLen.toNat → b i = s.drv.secretBuf i) →
      rep.iovSize = iov.toNat → (rep.ret = OK → rep.delivered = []) →
      Moved s opcode iov data (.err e done) ⟨{ s.drv with secretBuf := b }, s.fds⟩ rep
  | invalid (code iov data) : Moved s (.other code) iov data .ok s { ret := EINVAL, iovSize := iov.toNat }

theorem moved_of_serve {s t : Sys} {fd : ℕ} {opcode : Opcode} {iov : UInt32} {data : ℕ → UInt8}
    {copy : Copy} {rep : Reply} (hI : Inv s)
    (h : serve s (.transfer fd opcode iov data copy) = some (t, rep)) :
    Moved s opcode iov data copy t rep := by
  obtain ⟨h0, h1, h2⟩ := And.intro hI.off_nonneg (And.intro hI.off_le hI.len_le)
  simp only [serve] at h
  split_ifs at h with hfd
  have hsame : ∀ e done (rep : Reply), rep.iovSize = iov.toNat → (rep.ret = OK → rep.delivered = []) →
      Moved s opcode iov data (.err e done) s rep :=
    fun e done rep hi hd => .failed opcode iov data e done s.drv.secretBuf rep (fun _ _ => rfl) hi hd
  cases opcode with
  | other code =>
    simp only [secretTransfer, Option.some.injEq, Prod.mk.injEq] at h
    obtain ⟨rfl, rfl⟩ := h
    cases copy with
    | ok => exact .invalid code iov data
    | err e done => exact hsame e done _ rfl fun _ => rfl
  | DEV_GATHER_S =>
    simp only [secretTransfer, gather_eq h0 h1 h2] at h
    have hread := Moved.read (s := s) iov data _ rfl
    rw [min_comm] at hread
    split_ifs at h with hn
    · simp only [Option.some.injEq, Prod.mk.injEq] at h
      obtain ⟨rfl, rfl⟩ := h
      cases copy with
      | ok => simpa [hn] using hread
      | err e done => exact hsame e done _ rfl fun _ => rfl
    · cases copy with
      | ok =>
        simp only [Option.some.injEq, Prod.mk.injEq] at h
        obtain ⟨rfl, rfl⟩ := h
        rw [secret_slice (by omega)]
        exact hread
      | err e done =>
        simp only [Option.some.injEq, Prod.mk.injEq] at h
        obtain ⟨rfl, rfl⟩ := h
        exact hsame e done _ rfl fun hok => absurd hok e.2
  | DEV_SCATTER_S =>
    simp only [secretTransfer, scatter_eq h0 h1 h2] at h
    have hwrote := fun hlt => Moved.wrote (s := s) iov data _ hlt rfl
    rw [min_comm] at hwrote
    split_ifs at h with hz hfull
    · simp only [Option.some.injEq, Prod.mk.injEq] at h
      obtain ⟨rfl, rfl⟩ := h
      cases copy with
      | ok =>
        by_cases hfull : s.drv.secretLen = secretSize
        · exact .full iov data _ hfull
        · have hw : s.drv.secretBuf.write s.drv.secretLen.toNat 0 data = s.drv.secretBuf := by
            funext i
            unfold Buf.write
            rw [if_neg (by omega)]
          simpa [hz, hw] using hwrote (by omega)
      | err e done => exact hsame e done _ rfl fun _ => rfl
    · simp only [Option.some.injEq, Prod.mk.injEq] at h
      obtain ⟨rfl, rfl⟩ := h
      cases copy with
      | ok => exact .full iov data _ hfull
      | err e done => exact hsame e done _ rfl fun _ => rfl
    · cases copy with
      | ok =>
        simp only [Option.some.injEq, Prod.mk.injEq] at h
        obtain ⟨rfl, rfl⟩ := h
        exact hwrote (by omega)
      | err e done =>
        simp only [Option.some.injEq, Prod.mk.injEq] at h
        obtain ⟨rfl, rfl⟩ := h
        refine .failed _ iov data e done _ _ (fun i hi => Buf.write_of_lt hi) rfl fun _ => rfl

theorem Moved.hasOwner {s t : Sys} {opcode : Opcode} {iov : UInt32} {data : ℕ → UInt8} {copy : Copy}
    {rep : Reply} (h : Moved s opcode iov data copy t rep) : t.drv.hasOwner = s.drv.hasOwner := by
  cases h <;> rfl

/-! ### The bytes moved since ownership was taken -/

/-- The buffer holds the accepted bytes, and the cursor stands behind the delivered ones. -/
structure Flow (h : List Step) (s : Sys) : Prop where
  accepted_eq : s.drv.hasOwner ≠ 0 → acceptedIn (sinceOwnership h) = s.drv.secret
  delivered_eq : s.drv.hasOwner ≠ 0 →
    deliveredIn (sinceOwnership h) = s.drv.secret.take s.drv.readOffset.toNat
  ordered : deliveredIn (sinceOwnership h) <+: acceptedIn (sinceOwnership h)

/-- A step that moves no byte. -/
theorem Flow.quiet {h : List Step} {s t : Sys} {r : Request} {rep : Reply} (hF : Flow h s)
    (hown : t.drv.hasOwner = s.drv.hasOwner) (hsecret : t.drv.secret = s.drv.secret)
    (hoff : t.drv.readOffset = s.drv.readOffset) (ha : accepted ⟨s, (r, rep), t⟩ = [])
    (hd : delivered ⟨s, (r, rep), t⟩ = []) : Flow (⟨s, (r, rep), t⟩ :: h) t := by
  have ht : ¬ TakesOwnership ⟨s, (r, rep), t⟩ := fun ht => ht.2 (hown.trans ht.1)
  refine ⟨fun h0 => ?_, fun h0 => ?_, ?_⟩
  · rw [sinceOwnership_kept ht, acceptedIn_cons, ha, List.append_nil, hsecret]
    exact hF.accepted_eq (hown ▸ h0)
  · rw [sinceOwnership_kept ht, deliveredIn_cons, hd, List.append_nil, hsecret, hoff]
    exact hF.delivered_eq (hown ▸ h0)
  · rw [sinceOwnership_kept ht, acceptedIn_cons, ha, deliveredIn_cons, hd, List.append_nil,
      List.append_nil]
    exact hF.ordered

theorem Flow.of_owned {h : List Step} {s : Sys} (ha : acceptedIn (sinceOwnership h) = s.drv.secret)
    (hd : deliveredIn (sinceOwnership h) = s.drv.secret.take s.drv.readOffset.toNat) : Flow h s := by
  refine ⟨fun _ => ha, fun _ => hd, ?_⟩
  rw [ha, hd]
  exact List.take_prefix _ _

theorem Moved.flow {h : List Step} {s t : Sys} {fd : ℕ} {opcode : Opcode} {iov : UInt32}
    {data : ℕ → UInt8} {copy : Copy} {rep : Reply} (hm : Moved s opcode iov data copy t rep)
    (hI : Inv s) (hown : s.drv.hasOwner ≠ 0) (hF : Flow h s) :
    Flow (⟨s, (.transfer fd opcode iov data copy, rep), t⟩ :: h) t := by
  have ht : ¬ TakesOwnership ⟨s, (.transfer fd opcode iov data copy, rep), t⟩ := fun ht => hown ht.1
  have hoff := hI.off_nonneg
  have hle := hI.off_le
  have ha := hF.accepted_eq hown
  have hd := hF.delivered_eq hown
  cases hm with
  | read _ _ n hn =>
    refine .of_owned ?_ ?_
    · rw [sinceOwnership_kept ht, acceptedIn_cons, ha]
      exact List.append_nil _
    · have hcursor : (s.drv.readOffset + n).toNat = s.drv.readOffset.toNat + n := by omega
      rw [sinceOwnership_kept ht, deliveredIn_cons, hd]
      show _ ++ List.take n (List.drop s.drv.readOffset.toNat s.drv.secret) =
        List.take (s.drv.readOffset + n).toNat s.drv.secret
      rw [hcursor, List.take_add]
  | wrote _ _ n hlt hn =>
    have hnew := secret_write (s := s.drv) (n := n) data (by omega) (by omega)
    refine .of_owned ?_ ?_
    · rw [sinceOwnership_kept ht, acceptedIn_cons, ha, hnew]
      have hcount : iov.toNat - ((iov.toNat : ℤ) - n).toNat = n := by omega
      show _ ++ (List.range (iov.toNat - ((iov.toNat : ℤ) - n).toNat)).map data = _
      rw [hcount]
    · rw [sinceOwnership_kept ht, deliveredIn_cons, hd, hnew]
      show _ ++ [] = List.take s.drv.readOffset.toNat _
      rw [List.append_nil, List.take_append_of_le_length]
      rw [State.secret_length]
      omega
  | full _ _ ret hfull =>
    refine hF.quiet rfl rfl rfl ?_ rfl
    simp [accepted]
  | failed _ _ _ e done b rep hb hiov hdel =>
    refine hF.quiet rfl (secret_congr rfl hb) rfl ?_ ?_
    · cases opcode <;> simp [accepted, hiov]
    · cases opcode <;> simp [delivered]
      exact hdel
  | invalid => exact hF.quiet rfl rfl rfl rfl rfl

theorem Served.flow {h : List Step} {s t : Sys} {r : Request} {rep : Reply} (hs : Served s r t rep)
    (hr : ∀ fd o i d c, r ≠ .transfer fd o i d c) (hI : Inv s) (hF : Flow h s) :
    Flow (⟨s, (r, rep), t⟩ :: h) t := by
  cases hs with
  | took caller mode cred hno hroom =>
    have htook : ∀ l u, u.drv.hasOwner = 1 → TakesOwnership ⟨s, l, u⟩ :=
      fun l u hu => ⟨hno, by rw [hu]; decide⟩
    have hlen : s.drv.secretLen = 0 := by rw [hI.cleared hno]; rfl
    have hnil : State.secret (countOpen mode { s.drv with hasOwner := 1, secretOwner := caller }) = [] := by
      show (List.range s.drv.secretLen.toNat).map _ = []
      rw [hlen]
      rfl
    refine .of_owned ?_ ?_
    · rw [sinceOwnership_took (htook _ _ rfl)]
      exact hnil.symm
    · rw [sinceOwnership_took (htook _ _ rfl)]
      show [] = List.take _ (State.secret (countOpen mode _))
      rw [hnil, List.take_nil]
  | lastClose fd hlen hfd hrd =>
    have ht : ∀ l, ¬ TakesOwnership ⟨s, l, ⟨resetState, []⟩⟩ := fun l ht => ht.2 rfl
    refine ⟨fun h0 => absurd rfl h0, fun h0 => absurd rfl h0, ?_⟩
    rw [sinceOwnership_kept (ht _), acceptedIn_cons, deliveredIn_cons]
    show _ ++ [] <+: _ ++ []
    rw [List.append_nil, List.append_nil]
    exact hF.ordered
  | refused => exact hF.quiet rfl rfl rfl rfl rfl
  | reopened => exact hF.quiet rfl rfl rfl rfl rfl
  | close => exact hF.quiet rfl rfl rfl rfl rfl
  | granted => exact hF.quiet rfl rfl rfl rfl rfl
  | notGranted => exact hF.quiet rfl rfl rfl rfl rfl
  | _ => exact absurd rfl (hr _ _ _ _ _)

theorem run_flow {h : List Step} {s : Sys} (hr : Run driver h s) : Flow h s := by
  refine Run.invariant (fun s h0 => ?_) (fun h s l t hr hF hs => ?_) hr
  · rw [show s = ⟨resetState, []⟩ from h0]
    exact ⟨fun h0 => absurd rfl h0, fun h0 => absurd rfl h0, List.prefix_rfl⟩
  · have hI := reachable_inv hr.reachable
    obtain ⟨r, rep⟩ := l
    have hs : serve s r = some (t, rep) := hs
    by_cases htr : ∃ fd o i d c, r = .transfer fd o i d c
    · obtain ⟨fd, o, i, d, c, rfl⟩ := htr
      have hfd : fd < s.fds.length := by
        by_contra hno
        simp [serve, hno] at hs
      exact (moved_of_serve hI hs).flow hI (hI.owned hfd) hF
    · exact (served_of_serve hI hs).flow (fun fd o i d c he => htr ⟨fd, o, i, d, c, he⟩) hI hF

/-! ### The delivery theorem -/

/-- What a run with history `h` ending in `s` has delivered, and what a transfer does next. -/
structure Delivery (h : List Step) (s : Sys) : Prop where
  ordered : deliveredIn (sinceOwnership h) <+: acceptedIn (sinceOwnership h)
  cursors : s.drv.hasOwner ≠ 0 →
    ((deliveredIn (sinceOwnership h)).length : ℤ) = s.drv.readOffset ∧
      ((acceptedIn (sinceOwnership h)).length : ℤ) = s.drv.secretLen
  writes : ∀ fd iov data t rep, serve s (.transfer fd .DEV_SCATTER_S iov data .ok) = some (t, rep) →
    s.drv.secretLen < secretSize →
    rep.ret = OK ∧ rep.iovSize = (iov.toNat : ℤ) - min (iov.toNat : ℤ) (secretSize - s.drv.secretLen) ∧
      t.drv.secretLen = s.drv.secretLen + min (iov.toNat : ℤ) (secretSize - s.drv.secretLen) ∧
      t.drv.readOffset = s.drv.readOffset
  reads : ∀ fd iov data t rep, serve s (.transfer fd .DEV_GATHER_S iov data .ok) = some (t, rep) →
    rep.ret = OK ∧
      (rep.delivered.length : ℤ) = min (iov.toNat : ℤ) (s.drv.secretLen - s.drv.readOffset) ∧
      rep.iovSize = (iov.toNat : ℤ) - rep.delivered.length ∧
      t.drv.readOffset = s.drv.readOffset + rep.delivered.length ∧ t.drv.secretLen = s.drv.secretLen
  retries : ∀ fd opcode iov data e done t rep,
    serve s (.transfer fd opcode iov data (.err e done)) = some (t, rep) →
    t.drv.readOffset = s.drv.readOffset ∧ t.drv.secretLen = s.drv.secretLen ∧
      ∀ rs, answers t rs = answers s rs

/-- **The secret is delivered once, in order and unaltered**, in every run of the driver. -/
theorem secret_delivered_once {h : List Step} {s : Sys} (hr : Run driver h s) : Delivery h s := by
  have hI := reachable_inv hr.reachable
  have hF := run_flow hr
  have hoff := hI.off_nonneg
  have hle := hI.off_le
  have hcap := hI.len_le
  refine ⟨hF.ordered, fun hown => ⟨?_, ?_⟩, fun fd iov data t rep hs hlt => ?_,
    fun fd iov data t rep hs => ?_, fun fd opcode iov data e done t rep hs => ?_⟩
  · rw [hF.delivered_eq hown, List.length_take, State.secret_length]
    omega
  · rw [hF.accepted_eq hown, State.secret_length]
    omega
  · rcases moved_of_serve hI hs with _ | ⟨_, _, n, _, hn⟩ | ⟨_, _, ret, hfull⟩
    · have hn : (n : ℤ) = min (iov.toNat : ℤ) (secretSize - s.drv.secretLen) := by omega
      rw [← hn]
      exact ⟨rfl, rfl, rfl, rfl⟩
    · omega
  · rcases moved_of_serve hI hs with ⟨_, _, n, hn⟩
    have hlen : ((s.drv.secret.drop s.drv.readOffset.toNat).take n).length = n := by
      rw [List.length_take, List.length_drop, State.secret_length]
      omega
    dsimp only
    rw [hlen]
    exact ⟨rfl, by omega, rfl, rfl, rfl⟩
  · rcases moved_of_serve hI hs with _ | _ | _ | ⟨_, _, _, _, _, b, _, hb⟩
    refine ⟨rfl, rfl, fun rs => answers_sameView rs hI (sameView_withBuf fun i hi => ?_)⟩
    exact (hb i (by omega)).symm

theorem secret_delivered_once_visits : ∃ h s, play answered visits [] ⟨resetState, []⟩ = some (h, s) ∧
    (deliveredIn (sinceOwnership h) = [97, 98] ∧ acceptedIn (sinceOwnership h) = [97, 98, 99]) ∧
      Delivery h s := by
  obtain ⟨h, s, hp, hbytes⟩ := exists_answered visits (fun (h : List Step) _ =>
    deliveredIn (sinceOwnership h) = [97, 98] ∧ acceptedIn (sinceOwnership h) = [97, 98, 99])
    (by decide +kernel)
  exact ⟨h, s, hp, hbytes, secret_delivered_once (run_of_answered hp)⟩

end Csc453.Secret
