import Csc453.Secret.Lifetime

/-!
# Csc453.Secret.LiveUpdate — saving and restoring the driver state

`sef_cb_lu_state_save` publishes the seven fields of `secret` in the data store,
`lu_state_restore` retrieves and deletes them in the new instance.  The data store itself is a
parameter (`DataStore`): `Keyed` says what its calls did when they returned `OK`.  So are the
values of `uid_t` and their conversions (`UidType`).

`restored_eq` is one update; `Updating` is a run of requests with updates in between.
-/

namespace Csc453.Secret

open Transition

/-! ### The data store -/

/-- The flags argument of the publish calls. -/
inductive PublishFlags
  | none
  | DSF_OVERWRITE
  deriving DecidableEq

/-- The data store calls of the driver, on stores of type `σ`.  Each returns its return value
first; `u32At` and `memAt` are what a store holds. -/
structure DataStore (σ : Type) where
  publishU32 (key : String) (value : ℤ) (flags : PublishFlags) : σ → ℤ × σ
  publishMem (key : String) (bytes : List UInt8) (flags : PublishFlags) : σ → ℤ × σ
  retrieveU32 (key : String) : σ → ℤ × ℤ × σ
  retrieveMem (key : String) (size : ℕ) : σ → ℤ × List UInt8 × σ
  deleteU32 (key : String) : σ → ℤ × σ
  deleteMem (key : String) : σ → ℤ × σ
  u32At : σ → String → Option ℤ
  memAt : σ → String → Option (List UInt8)

/-- The calls that return `OK` behave as a keyed store with overwrite. -/
structure DataStore.Keyed {σ : Type} (ds : DataStore σ) : Prop where
  publishU32 {key value s t} : ds.publishU32 key value .DSF_OVERWRITE s = (OK, t) →
    ds.u32At t = Function.update (ds.u32At s) key (some value) ∧ ds.memAt t = ds.memAt s
  publishMem {key bytes s t} : ds.publishMem key bytes .DSF_OVERWRITE s = (OK, t) →
    ds.u32At t = ds.u32At s ∧ ds.memAt t = Function.update (ds.memAt s) key (some bytes)
  retrieveU32 {key value s t} : ds.retrieveU32 key s = (OK, value, t) →
    ds.u32At s key = some value ∧ ds.u32At t = ds.u32At s ∧ ds.memAt t = ds.memAt s
  retrieveMem {key size bytes s t} : ds.retrieveMem key size s = (OK, bytes, t) →
    (∃ stored, ds.memAt s key = some stored ∧ bytes = stored.take size) ∧
      ds.u32At t = ds.u32At s ∧ ds.memAt t = ds.memAt s
  deleteU32 {key s t} : ds.deleteU32 key s = (OK, t) →
    ds.u32At t = Function.update (ds.u32At s) key none ∧ ds.memAt t = ds.memAt s
  deleteMem {key s t} : ds.deleteMem key s = (OK, t) →
    ds.u32At t = ds.u32At s ∧ ds.memAt t = Function.update (ds.memAt s) key none

/-- The values of the C type `uid_t` and its conversions to and from `u32_t`. -/
structure UidType where
  valid : Uid → Prop
  toU32 : Uid → ℤ
  ofU32 : ℤ → Uid

/-- Uids, `0` among them, survive the conversion to `u32_t`. -/
structure UidType.RoundTrips (U : UidType) : Prop where
  zero : U.valid 0
  ofU32_toU32 {u : Uid} : U.valid u → U.ofU32 (U.toU32 u) = u

/-! ### Save, restore, init -/

section Code

variable {σ : Type} (ds : DataStore σ) (U : UidType)

/-- Run `next` unless `call` returns an error. -/
def andThen (call next : σ → ℤ × σ) (s : σ) : ℤ × σ :=
  let (ret, s) := call s
  if ret ≠ OK then (ret, s) else next s

/-- The `SECRET_SIZE` bytes of the buffer. -/
def Buf.bytes (b : Buf) : List UInt8 := List.ofFn b

/-- The buffer after `bytes` were copied over its beginning. -/
def Buf.overlay (b : Buf) (bytes : List UInt8) : Buf := fun i => bytes[(i : ℕ)]?.getD (b i)

/-- `sef_cb_lu_state_save`. -/
def sefCbLuStateSave (secret : State) : σ → ℤ × σ :=
  andThen (ds.publishU32 "open_counter" (toUnsigned secret.openCounter) .DSF_OVERWRITE) <|
  andThen (ds.publishMem "secret_buf" secret.secretBuf.bytes .DSF_OVERWRITE) <|
  andThen (ds.publishU32 "secret_len" (toUnsigned secret.secretLen) .DSF_OVERWRITE) <|
  andThen (ds.publishU32 "read_offset" (toUnsigned secret.readOffset) .DSF_OVERWRITE) <|
  andThen (ds.publishU32 "secret_owner" (U.toU32 secret.secretOwner) .DSF_OVERWRITE) <|
  andThen (ds.publishU32 "has_owner" (toUnsigned secret.hasOwner) .DSF_OVERWRITE) <|
  andThen (ds.publishU32 "read_fd_opened" (toUnsigned secret.readFdOpened) .DSF_OVERWRITE) <|
  fun s => (OK, s)

/-- Retrieve the `u32` at `key`, store it in its field and delete the key; then go on. -/
def restoreU32 (key : String) (store : ℤ → State → State) (next : State → σ → ℤ × State × σ)
    (secret : State) (s : σ) : ℤ × State × σ :=
  let (ret, value, s) := ds.retrieveU32 key s
  if ret ≠ OK then (ret, secret, s)
  else
    let secret := store value secret
    let (ret, s) := ds.deleteU32 key s
    if ret ≠ OK then (ret, secret, s) else next secret s

/-- Retrieve the bytes at `key` into the buffer and delete the key; then go on. -/
def restoreBuf (key : String) (next : State → σ → ℤ × State × σ) (secret : State) (s : σ) :
    ℤ × State × σ :=
  let (ret, bytes, s) := ds.retrieveMem key secretSize s
  let secret := { secret with secretBuf := secret.secretBuf.overlay bytes }
  if ret ≠ OK then (ret, secret, s)
  else
    let (ret, s) := ds.deleteMem key s
    if ret ≠ OK then (ret, secret, s) else next secret s

/-- `lu_state_restore`. -/
def luStateRestore : State → σ → ℤ × State × σ :=
  restoreU32 ds "open_counter" (fun value secret => { secret with openCounter := toInt value }) <|
  restoreBuf ds "secret_buf" <|
  restoreU32 ds "secret_len" (fun value secret => { secret with secretLen := toInt value }) <|
  restoreU32 ds "read_offset" (fun value secret => { secret with readOffset := toInt value }) <|
  restoreU32 ds "secret_owner" (fun value secret => { secret with secretOwner := U.ofU32 value }) <|
  restoreU32 ds "has_owner" (fun value secret => { secret with hasOwner := toInt value }) <|
  restoreU32 ds "read_fd_opened" (fun value secret => { secret with readFdOpened := toInt value }) <|
  fun secret s => (OK, secret, s)

/-- The start types `sef_cb_init` tells apart. -/
inductive InitType
  | SEF_INIT_FRESH
  | SEF_INIT_LU
  | SEF_INIT_RESTART
  | other (code : ℤ)
  deriving DecidableEq

/-- What `sef_cb_init` leaves: its return value, whether it announced the driver, the static
state and the store. -/
structure Started (σ : Type) where
  ret : ℤ
  announced : Bool
  secret : State
  store : σ

/-- `sef_cb_init`, on the static state `secret` the instance starts with. -/
def sefCbInit (type : InitType) (secret : State) (s : σ) : Started σ :=
  match type with
  | .SEF_INIT_FRESH => ⟨OK, true, resetSecretState secret, s⟩
  | .SEF_INIT_LU =>
    let (ret, secret, s) := luStateRestore ds U secret s
    ⟨if ret ≠ OK then ret else OK, false, secret, s⟩
  | .SEF_INIT_RESTART => ⟨OK, true, resetSecretState secret, s⟩
  | .other _ => ⟨OK, true, secret, s⟩

end Code

/-! ### What a save leaves in the store -/

section Update

variable {σ : Type} {ds : DataStore σ} {U : UidType}

theorem andThen_ok {call next : σ → ℤ × σ} {s t : σ} (h : andThen call next s = (OK, t)) :
    ∃ m, call s = (OK, m) ∧ next m = (OK, t) := by
  unfold andThen at h
  rcases hc : call s with ⟨ret, m⟩
  rw [hc] at h
  dsimp only at h
  split_ifs at h with hret
  · exact absurd (congrArg Prod.fst h) hret
  · obtain rfl := not_not.mp hret
    exact ⟨m, rfl, h⟩

/-- The store holds the fields of `secret`, converted. -/
structure Saved (ds : DataStore σ) (U : UidType) (secret : State) (s : σ) : Prop where
  openCounter : ds.u32At s "open_counter" = some (toUnsigned secret.openCounter)
  secretBuf : ds.memAt s "secret_buf" = some secret.secretBuf.bytes
  secretLen : ds.u32At s "secret_len" = some (toUnsigned secret.secretLen)
  readOffset : ds.u32At s "read_offset" = some (toUnsigned secret.readOffset)
  secretOwner : ds.u32At s "secret_owner" = some (U.toU32 secret.secretOwner)
  hasOwner : ds.u32At s "has_owner" = some (toUnsigned secret.hasOwner)
  readFdOpened : ds.u32At s "read_fd_opened" = some (toUnsigned secret.readFdOpened)

/-- A save that returns `OK` left every field in the store, whatever the store held before. -/
theorem saved_of_ok (hds : ds.Keyed) {secret : State} {s t : σ}
    (h : sefCbLuStateSave ds U secret s = (OK, t)) : Saved ds U secret t := by
  obtain ⟨s₁, h₁, h⟩ := andThen_ok h
  obtain ⟨s₂, h₂, h⟩ := andThen_ok h
  obtain ⟨s₃, h₃, h⟩ := andThen_ok h
  obtain ⟨s₄, h₄, h⟩ := andThen_ok h
  obtain ⟨s₅, h₅, h⟩ := andThen_ok h
  obtain ⟨s₆, h₆, h⟩ := andThen_ok h
  obtain ⟨s₇, h₇, h⟩ := andThen_ok h
  obtain ⟨-, rfl⟩ := Prod.mk.inj h
  obtain ⟨u₁, -⟩ := hds.publishU32 h₁
  obtain ⟨u₂, m₂⟩ := hds.publishMem h₂
  obtain ⟨u₃, m₃⟩ := hds.publishU32 h₃
  obtain ⟨u₄, m₄⟩ := hds.publishU32 h₄
  obtain ⟨u₅, m₅⟩ := hds.publishU32 h₅
  obtain ⟨u₆, m₆⟩ := hds.publishU32 h₆
  obtain ⟨u₇, m₇⟩ := hds.publishU32 h₇
  have hu := u₇
  rw [u₆, u₅, u₄, u₃, u₂, u₁] at hu
  have hm := m₇
  rw [m₆, m₅, m₄, m₃, m₂] at hm
  constructor <;> simp [hu, hm]

/-! ### What a restore takes from it -/

theorem restoreU32_ok (hds : ds.Keyed) {key : String} {store : ℤ → State → State}
    {next : State → σ → ℤ × State × σ} {secret secret' : State} {s t : σ}
    (h : restoreU32 ds key store next secret s = (OK, secret', t)) :
    ∃ value m, ds.u32At s key = some value ∧ next (store value secret) m = (OK, secret', t) ∧
      ds.u32At m = Function.update (ds.u32At s) key none ∧ ds.memAt m = ds.memAt s := by
  unfold restoreU32 at h
  rcases hr : ds.retrieveU32 key s with ⟨ret, value, s₁⟩
  rw [hr] at h
  dsimp only at h
  split_ifs at h with hret hdel
  · exact absurd (congrArg Prod.fst h) hret
  · exact absurd (congrArg Prod.fst h) hdel
  obtain rfl := not_not.mp hret
  obtain ⟨hval, hu, hm⟩ := hds.retrieveU32 hr
  have hd : ds.deleteU32 key s₁ = (OK, (ds.deleteU32 key s₁).2) :=
    Prod.ext (not_not.mp hdel) rfl
  obtain ⟨hu', hm'⟩ := hds.deleteU32 hd
  exact ⟨value, _, hval, h, by rw [hu', hu], by rw [hm', hm]⟩

theorem restoreBuf_ok (hds : ds.Keyed) {key : String} {next : State → σ → ℤ × State × σ}
    {secret secret' : State} {s t : σ} (h : restoreBuf ds key next secret s = (OK, secret', t)) :
    ∃ stored m, ds.memAt s key = some stored ∧
      next { secret with secretBuf := secret.secretBuf.overlay (stored.take secretSize) } m =
        (OK, secret', t) ∧
      ds.u32At m = ds.u32At s ∧ ds.memAt m = Function.update (ds.memAt s) key none := by
  unfold restoreBuf at h
  rcases hr : ds.retrieveMem key secretSize s with ⟨ret, bytes, s₁⟩
  rw [hr] at h
  dsimp only at h
  split_ifs at h with hret hdel
  · exact absurd (congrArg Prod.fst h) hret
  · exact absurd (congrArg Prod.fst h) hdel
  obtain rfl := not_not.mp hret
  obtain ⟨⟨stored, hval, rfl⟩, hu, hm⟩ := hds.retrieveMem hr
  have hd : ds.deleteMem key s₁ = (OK, (ds.deleteMem key s₁).2) :=
    Prod.ext (not_not.mp hdel) rfl
  obtain ⟨hu', hm'⟩ := hds.deleteMem hd
  exact ⟨stored, _, hval, h, by rw [hu', hu], by rw [hm', hm]⟩

theorem Buf.overlay_bytes (b b' : Buf) : b.overlay (b'.bytes.take secretSize) = b' := by
  funext i
  have hlen : b'.bytes.take secretSize = b'.bytes :=
    List.take_of_length_le (by rw [Buf.bytes, List.length_ofFn])
  rw [Buf.overlay, hlen, Buf.bytes, List.getElem?_eq_getElem (by rw [List.length_ofFn]; exact i.isLt),
    List.getElem_ofFn]
  rfl

/-- None of the seven keys is in the store. -/
structure NoKeys (ds : DataStore σ) (s : σ) : Prop where
  openCounter : ds.u32At s "open_counter" = none
  secretBuf : ds.memAt s "secret_buf" = none
  secretLen : ds.u32At s "secret_len" = none
  readOffset : ds.u32At s "read_offset" = none
  secretOwner : ds.u32At s "secret_owner" = none
  hasOwner : ds.u32At s "has_owner" = none
  readFdOpened : ds.u32At s "read_fd_opened" = none

/-- A restore that returns `OK` gives back the saved fields, converted twice, whatever static
data it started with, and deletes the keys. -/
theorem restored_of_saved (hds : ds.Keyed) {secret static restored : State} {s t : σ}
    (hsaved : Saved ds U secret s) (h : luStateRestore ds U static s = (OK, restored, t)) :
    restored =
        { openCounter := toInt (toUnsigned secret.openCounter)
          secretOwner := U.ofU32 (U.toU32 secret.secretOwner)
          hasOwner := toInt (toUnsigned secret.hasOwner)
          secretBuf := secret.secretBuf
          secretLen := toInt (toUnsigned secret.secretLen)
          readOffset := toInt (toUnsigned secret.readOffset)
          readFdOpened := toInt (toUnsigned secret.readFdOpened) } ∧ NoKeys ds t := by
  obtain ⟨v₁, s₁, h₁, h, u₁, m₁⟩ := restoreU32_ok hds h
  obtain ⟨v₂, s₂, h₂, h, u₂, m₂⟩ := restoreBuf_ok hds h
  obtain ⟨v₃, s₃, h₃, h, u₃, m₃⟩ := restoreU32_ok hds h
  obtain ⟨v₄, s₄, h₄, h, u₄, m₄⟩ := restoreU32_ok hds h
  obtain ⟨v₅, s₅, h₅, h, u₅, m₅⟩ := restoreU32_ok hds h
  obtain ⟨v₆, s₆, h₆, h, u₆, m₆⟩ := restoreU32_ok hds h
  obtain ⟨v₇, s₇, h₇, h, u₇, m₇⟩ := restoreU32_ok hds h
  obtain ⟨-, h⟩ := Prod.mk.inj h
  obtain ⟨rfl, rfl⟩ := Prod.mk.inj h
  -- each field is read after the keys in front of it were deleted
  obtain rfl : toUnsigned secret.openCounter = v₁ := by simpa [hsaved.openCounter] using h₁
  obtain rfl : secret.secretBuf.bytes = v₂ := by simpa [m₁, hsaved.secretBuf] using h₂
  obtain rfl : toUnsigned secret.secretLen = v₃ := by
    simpa [u₂, u₁, hsaved.secretLen] using h₃
  obtain rfl : toUnsigned secret.readOffset = v₄ := by
    simpa [u₃, u₂, u₁, hsaved.readOffset] using h₄
  obtain rfl : U.toU32 secret.secretOwner = v₅ := by
    simpa [u₄, u₃, u₂, u₁, hsaved.secretOwner] using h₅
  obtain rfl : toUnsigned secret.hasOwner = v₆ := by
    simpa [u₅, u₄, u₃, u₂, u₁, hsaved.hasOwner] using h₆
  obtain rfl : toUnsigned secret.readFdOpened = v₇ := by
    simpa [u₆, u₅, u₄, u₃, u₂, u₁, hsaved.readFdOpened] using h₇
  refine ⟨?_, ?_⟩
  · rw [Buf.overlay_bytes]
  · have hu := u₇
    rw [u₆, u₅, u₄, u₃, u₂, u₁] at hu
    have hm := m₇
    rw [m₆, m₅, m₄, m₃, m₂] at hm
    constructor <;> simp [hu, hm]

/-! ### The values a driver state holds -/

/-- Every uid in the request is a value of `uid_t`. -/
def UidType.ValidRequest (U : UidType) : Request → Prop
  | .open caller _ _ => U.valid caller
  | .ioctl _ _ (.ok uid) => U.valid uid
  | _ => True

/-- The fields `Inv` does not bound: the flags are `FALSE` or `TRUE`, the owner is a `uid_t`. -/
structure Typed (U : UidType) (s : State) : Prop where
  hasOwner : s.hasOwner = 0 ∨ s.hasOwner = 1
  readFdOpened : s.readFdOpened = 0 ∨ s.readFdOpened = 1
  secretOwner : U.valid s.secretOwner

theorem typed_reset (hU : U.RoundTrips) : Typed U resetState := ⟨.inl rfl, .inl rfl, hU.zero⟩

theorem Typed.countOpen {s : State} (h : Typed U s) (mode : BitVec 32) :
    Typed U (countOpen mode s) := by
  refine ⟨h.hasOwner, ?_, h.secretOwner⟩
  show (if mode &&& rBit ≠ 0 then 1 else s.readFdOpened) = 0 ∨
    (if mode &&& rBit ≠ 0 then 1 else s.readFdOpened) = 1
  split_ifs
  · exact .inr rfl
  · exact h.readFdOpened

theorem Served.typed {s t : Sys} {r : Request} {rep : Reply} (hs : Served s r t rep)
    (hU : U.RoundTrips) (hr : U.ValidRequest r) (h : Typed U s.drv) : Typed U t.drv := by
  cases hs with
  | refused => exact h
  | took caller mode cred =>
    exact Typed.countOpen (s := { s.drv with hasOwner := 1, secretOwner := caller })
      ⟨.inr rfl, h.readFdOpened, hr⟩ mode
  | reopened _ mode => exact h.countOpen mode
  | lastClose => exact typed_reset hU
  | close => exact ⟨h.hasOwner, h.readFdOpened, h.secretOwner⟩
  | granted => exact ⟨h.hasOwner, h.readFdOpened, hr⟩
  | notGranted => exact h
  | noTransfer => exact h
  | read => exact ⟨h.hasOwner, h.readFdOpened, h.secretOwner⟩
  | wrote => exact ⟨h.hasOwner, h.readFdOpened, h.secretOwner⟩
  | torn => exact ⟨h.hasOwner, h.readFdOpened, h.secretOwner⟩

theorem toInt_toUnsigned {x : ℤ} (h0 : -2147483648 ≤ x) (h1 : x < 2147483648) :
    toInt (toUnsigned x) = x := by
  unfold toInt toUnsigned
  omega

/-- What a live update needs to know of the static state. -/
structure Sound (U : UidType) (s : State) : Prop extends Typed U s where
  off_nonneg : 0 ≤ s.readOffset
  off_le : s.readOffset ≤ s.secretLen
  len_le : s.secretLen ≤ secretSize
  counter_nonneg : 0 ≤ s.openCounter
  counter_le : s.openCounter ≤ intMax

/-- A state between requests, with its descriptors. -/
def Updatable (U : UidType) (s : Sys) : Prop := Inv s ∧ Typed U s.drv

theorem Updatable.sound {s : Sys} (h : Updatable U s) : Sound U s.drv := by
  obtain ⟨hI, hT⟩ := h
  have := hI.count
  have := hI.room
  exact ⟨hT, hI.off_nonneg, hI.off_le, hI.len_le, by omega, by omega⟩

theorem Updatable.serve {s t : Sys} {r : Request} {rep : Reply} (h : Updatable U s)
    (hU : U.RoundTrips) (hr : U.ValidRequest r) (hs : serve s r = some (t, rep)) : Updatable U t := by
  have hserved := served_of_serve h.1 hs
  exact ⟨hserved.inv h.1, hserved.typed hU hr h.2⟩

theorem updatable_of_run (hU : U.RoundTrips) {h : List Step} {s : Sys} (hr : Run driver h s)
    (hv : ∀ e ∈ h, U.ValidRequest e.label.1) : Updatable U s := by
  induction hr with
  | init h0 =>
    rw [show _ = (⟨resetState, []⟩ : Sys) from h0]
    exact ⟨inv_init, typed_reset hU⟩
  | step _ hs ih =>
    have hlast := hv _ List.mem_cons_self
    exact (ih fun e he => hv e (List.mem_cons_of_mem _ he)).serve hU hlast hs

/-! ### Live updates -/

/-- An update that succeeds: the old instance saves `s` in a store `prior`, and the new one, with
the static data `static`, restores `drv` and leaves the store `left`. -/
def Updated (ds : DataStore σ) (U : UidType) (s : State) (prior : σ) (static drv : State)
    (left : σ) : Prop :=
  ∃ kept announced, sefCbLuStateSave ds U s prior = (OK, kept) ∧
    sefCbInit ds U .SEF_INIT_LU static kept = ⟨OK, announced, drv, left⟩

theorem exists_updated {s static : State} {prior : σ}
    (hsave : (sefCbLuStateSave ds U s prior).1 = OK)
    (hinit : (sefCbInit ds U .SEF_INIT_LU static (sefCbLuStateSave ds U s prior).2).ret = OK) :
    ∃ drv left, Updated ds U s prior static drv left := by
  rcases hi : sefCbInit ds U .SEF_INIT_LU static (sefCbLuStateSave ds U s prior).2 with
    ⟨ret, announced, drv, left⟩
  rw [hi] at hinit
  obtain rfl : ret = OK := hinit
  exact ⟨drv, left, _, announced, Prod.ext hsave rfl, hi⟩

/-- **One update**: the restored state is the saved one and the keys are gone, whether or not
descriptors are open. -/
theorem Updated.restored_eq (hds : ds.Keyed) (hU : U.RoundTrips) {s : State} {prior left : σ}
    {static drv : State} (hs : Sound U s) (h : Updated ds U s prior static drv left) :
    drv = s ∧ NoKeys ds left := by
  obtain ⟨kept, announced, hsave, hinit⟩ := h
  have hlu : luStateRestore ds U static kept = (OK, drv, left) := by
    unfold sefCbInit at hinit
    rcases hr : luStateRestore ds U static kept with ⟨ret, drv', left'⟩
    rw [hr] at hinit
    obtain ⟨hret, -, rfl, rfl⟩ := Started.mk.inj hinit
    split_ifs at hret with hne
    · exact absurd hret hne
    · rw [not_not.mp hne]
  obtain ⟨rfl, hgone⟩ := restored_of_saved hds (saved_of_ok hds hsave) hlu
  refine ⟨?_, hgone⟩
  have hsz : (secretSize : ℤ) = 8192 := rfl
  have hmax : intMax = 2147483647 := rfl
  have := hs.off_nonneg
  have := hs.off_le
  have := hs.len_le
  have := hs.counter_nonneg
  have := hs.counter_le
  have howner := hs.hasOwner
  have hread := hs.readFdOpened
  rw [toInt_toUnsigned (by omega) (by omega), toInt_toUnsigned (by omega) (by omega),
    toInt_toUnsigned (by omega) (by omega), toInt_toUnsigned (by omega) (by omega),
    toInt_toUnsigned (by omega) (by omega), hU.ofU32_toU32 hs.secretOwner]

/-- What happens to a driver that is updated now and then. -/
inductive Item (σ : Type)
  | request (r : Request)
  | update (prior : σ) (static : State)

/-- The requests among the items. -/
def requests : List (Item σ) → List Request
  | [] => []
  | .request r :: items => r :: requests items
  | .update _ _ :: items => requests items

/-- The replies of a driver whose updates all succeed. -/
inductive Updating (ds : DataStore σ) (U : UidType) :
    Sys → List (Item σ) → List (Option Reply) → Prop
  | done (s) : Updating ds U s [] []
  | served {s t r rep items reps} : serve s r = some (t, rep) → Updating ds U t items reps →
      Updating ds U s (.request r :: items) (some rep :: reps)
  | notSent {s r items reps} : serve s r = none → Updating ds U s items reps →
      Updating ds U s (.request r :: items) (none :: reps)
  | updated {s prior static drv left items reps} : Updated ds U s.drv prior static drv left →
      Updating ds U ⟨drv, s.fds⟩ items reps → Updating ds U s (.update prior static :: items) reps

/-- Updates at any points of a run leave the replies as they are. -/
theorem Updating.replies_eq (hds : ds.Keyed) (hU : U.RoundTrips) {s : Sys} {items : List (Item σ)}
    {reps : List (Option Reply)} (h : Updating ds U s items reps) (hs : Updatable U s)
    (hv : ∀ r ∈ requests items, U.ValidRequest r) : reps = answers s (requests items) := by
  induction h with
  | done => rfl
  | @served s t r rep items reps hserve _ ih =>
    have hnext := hs.serve hU (hv r List.mem_cons_self) hserve
    rw [requests, answers, hserve, ih hnext fun r' hr' => hv r' (List.mem_cons_of_mem _ hr')]
  | @notSent s r items reps hserve _ ih =>
    rw [requests, answers, hserve, ih hs fun r' hr' => hv r' (List.mem_cons_of_mem _ hr')]
  | @updated s prior static drv left items reps hup _ ih =>
    obtain ⟨rfl, -⟩ := hup.restored_eq hds hU hs.sound
    exact ih hs hv

/-- **Live update is transparent** in every state the driver reaches. -/
theorem live_update_transparent (hds : ds.Keyed) (hU : U.RoundTrips) {h : List Step} {s : Sys}
    (hr : Run driver h s) (hv : ∀ e ∈ h, U.ValidRequest e.label.1) :
    (∀ prior static drv left, Updated ds U s.drv prior static drv left →
      drv = s.drv ∧ NoKeys ds left) ∧
    ∀ items reps, Updating ds U s items reps → (∀ r ∈ requests items, U.ValidRequest r) →
      reps = answers s (requests items) := by
  have hs := updatable_of_run hU hr hv
  exact ⟨fun _ _ _ _ hup => hup.restored_eq hds hU hs.sound,
    fun _ _ hrun hvalid => hrun.replies_eq hds hU hs hvalid⟩

end Update

/-! ### A store in memory -/

/-- The contents of the store: the `u32`s and the byte blocks by key. -/
structure Contents where
  u32 : String → Option ℤ
  mem : String → Option (List UInt8)

/-- The store as maps; a publish without `DSF_OVERWRITE` to a key in use fails with `EEXIST`, a
retrieve or delete of a missing key with `ESRCH`. -/
def mapStore : DataStore Contents where
  publishU32 key value flags s :=
    if flags = .none ∧ s.u32 key ≠ none then (-17, s)
    else (OK, { s with u32 := Function.update s.u32 key (some value) })
  publishMem key bytes flags s :=
    if flags = .none ∧ s.mem key ≠ none then (-17, s)
    else (OK, { s with mem := Function.update s.mem key (some bytes) })
  retrieveU32 key s :=
    match s.u32 key with
    | some value => (OK, value, s)
    | none => (-3, 0, s)
  retrieveMem key size s :=
    match s.mem key with
    | some bytes => (OK, bytes.take size, s)
    | none => (-3, [], s)
  deleteU32 key s :=
    if s.u32 key = none then (-3, s) else (OK, { s with u32 := Function.update s.u32 key none })
  deleteMem key s :=
    if s.mem key = none then (-3, s) else (OK, { s with mem := Function.update s.mem key none })
  u32At s := s.u32
  memAt s := s.mem

theorem mapStore_keyed : mapStore.Keyed where
  publishU32 h := by
    simp only [mapStore, reduceCtorEq, false_and, if_false] at h
    obtain ⟨-, rfl⟩ := Prod.mk.inj h
    exact ⟨rfl, rfl⟩
  publishMem h := by
    simp only [mapStore, reduceCtorEq, false_and, if_false] at h
    obtain ⟨-, rfl⟩ := Prod.mk.inj h
    exact ⟨rfl, rfl⟩
  retrieveU32 {key value s t} h := by
    simp only [mapStore] at h ⊢
    split at h
    · next stored hkey =>
      simp only [Prod.mk.injEq, true_and] at h
      obtain ⟨rfl, rfl⟩ := h
      exact ⟨hkey, rfl, rfl⟩
    · simp [OK] at h
  retrieveMem {key size bytes s t} h := by
    simp only [mapStore] at h ⊢
    split at h
    · next stored hkey =>
      simp only [Prod.mk.injEq, true_and] at h
      obtain ⟨rfl, rfl⟩ := h
      exact ⟨⟨stored, hkey, rfl⟩, rfl, rfl⟩
    · simp [OK] at h
  deleteU32 h := by
    simp only [mapStore] at h
    split_ifs at h
    · simp [OK] at h
    · obtain ⟨-, rfl⟩ := Prod.mk.inj h
      exact ⟨rfl, rfl⟩
  deleteMem h := by
    simp only [mapStore] at h
    split_ifs at h
    · simp [OK] at h
    · obtain ⟨-, rfl⟩ := Prod.mk.inj h
      exact ⟨rfl, rfl⟩

/-- `uid_t` as a 16-bit `short`. -/
def shortUid : UidType where
  valid u := -32768 ≤ u ∧ u < 32768
  toU32 := toUnsigned
  ofU32 v := (v + 32768) % 65536 - 32768

theorem shortUid_roundTrips : shortUid.RoundTrips where
  zero := ⟨by decide, by decide⟩
  ofU32_toU32 {u} h := by
    have hround : ∀ x : ℤ, -32768 ≤ x → x < 32768 →
        (x % 4294967296 + 32768) % 65536 - 32768 = x := by
      intro x h0 h1
      omega
    exact hround u h.1 h.2

/-- A save that failed midway left two keys. -/
def leftover : Contents where
  u32 := Function.update (fun _ => none) "open_counter" (some 5)
  mem := Function.update (fun _ => none) "secret_buf" (some [1])

/-- Such a key does not keep any state from being saved and restored. -/
theorem exists_updated_leftover (s : State) :
    ∃ drv left, Updated mapStore shortUid s leftover resetState drv left := by
  refine exists_updated rfl ?_
  simp [sefCbInit, luStateRestore, restoreU32, restoreBuf, sefCbLuStateSave, andThen, mapStore]

theorem live_update_transparent_firstOpen :
    (∃ drv left, Updated mapStore shortUid firstOpen.post.drv leftover resetState drv left) ∧
    (∀ prior static drv left, Updated mapStore shortUid firstOpen.post.drv prior static drv left →
      drv = firstOpen.post.drv ∧ NoKeys mapStore left) ∧
    ∀ items reps, Updating mapStore shortUid firstOpen.post items reps →
      (∀ r ∈ requests items, shortUid.ValidRequest r) →
      reps = answers firstOpen.post (requests items) := by
  have hrun : Run driver [firstOpen] firstOpen.post := .step (.init rfl) rfl
  refine ⟨exists_updated_leftover _,
    live_update_transparent mapStore_keyed shortUid_roundTrips hrun fun e he => ?_⟩
  rw [List.mem_singleton.mp he]
  exact ⟨by decide, by decide⟩

end Csc453.Secret
