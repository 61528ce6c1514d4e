import Csc453.Secret.Delivery
import Csc453.Secret.LiveUpdate

/-!
# Csc453.Secret.Mailbox — the driver as a mailbox

`Box` says what `/dev/Secret` is for: a box that one user owns, from which items come out in the
order they were put in, and which is emptied when the last visitor leaves after somebody looked.
`mailbox` is the device in these terms, with no buffer, cursor or machine integer in it.

`device` is the driver on its own, as the driver library runs it: the callbacks come in any order
and with any arguments, whether or not a descriptor is open, and between them the instance may
be restarted or replaced by a live update.  `mailboxOf` reads its static state as a box.
-/

namespace Csc453.Secret

open Transition

/-! ### Boxes -/

/-- A box: its owner, the items taken out and those still in it, how many are visiting it and
whether somebody came to look. -/
structure Box (υ β : Type*) where
  owner : Option υ
  gone : List β
  waiting : List β
  visits : ℕ
  looked : Bool
  deriving DecidableEq

namespace Box

variable {υ β : Type*}

/-- A box nobody owns. -/
def empty : Box υ β := ⟨none, [], [], 0, false⟩

/-- Everything put in since the box was empty. -/
def held (b : Box υ β) : List β := b.gone ++ b.waiting

/-- A user comes, the owner-to-be if there is none. -/
def enter (u : υ) (looking : Bool) (b : Box υ β) : Box υ β :=
  { b with owner := some (b.owner.getD u), visits := b.visits + 1, looked := b.looked || looking }

/-- A visitor leaves; the last one empties a box that was looked into. -/
def leave (b : Box υ β) : Box υ β :=
  if b.visits - 1 = 0 ∧ b.looked then empty else { b with visits := b.visits - 1 }

theorem leave_cases (b : Box υ β) : b.leave = empty ∨ b.leave = { b with visits := b.visits - 1 } := by
  unfold leave
  split_ifs
  · exact .inl rfl
  · exact .inr rfl

/-- An owned box changes hands. -/
def pass (u : υ) (b : Box υ β) : Box υ β := { b with owner := b.owner.map fun _ => u }

/-- The next `n` items are taken out. -/
def take (n : ℕ) (b : Box υ β) : Box υ β :=
  { b with gone := b.gone ++ b.waiting.take n, waiting := b.waiting.drop n }

/-- Items are put in behind the others. -/
def add (items : List β) (b : Box υ β) : Box υ β := { b with waiting := b.waiting ++ items }

@[simp] theorem held_take (n : ℕ) (b : Box υ β) : (b.take n).held = b.held := by
  simp [held, take]

@[simp] theorem held_add (items : List β) (b : Box υ β) : (b.add items).held = b.held ++ items := by
  simp [held, add]

end Box

/-! ### The device as a box -/

/-- What happens to an instance of the driver: a callback, with what the kernel answers, or the
instance is restarted or replaced. -/
inductive Callback
  | open (caller : Uid) (mode : BitVec 32) (cred : ℤ)
  | close
  | ioctl (request : IoctlRequest) (grantee : Except Errno Uid)
  | transfer (opcode : Opcode) (iovSize : UInt32) (data : ℕ → UInt8) (copy : Copy)
  | restart
  | update

/-- What an open asks for, if it asks for exactly one thing: to look, or to put something in. -/
def looking (mode : BitVec 32) : Option Bool :=
  if mode &&& rBit ≠ 0 then (if mode &&& wBit ≠ 0 then none else some true)
  else if mode &&& wBit ≠ 0 then some false
  else none

/-- A user asks to come in.  An owned box is full for others who put in, and closed to others
who look. -/
def Box.answerOpen (caller : Uid) (mode : BitVec 32) (cred : ℤ) (b : Box Uid UInt8) :
    Box Uid UInt8 × Reply :=
  match looking mode with
  | none => (b, { ret := EACCES })
  | some look =>
    if cred < 0 then (b, { ret := cred })
    else
      match b.owner with
      | none => (b.enter caller look, { ret := OK })
      | some u =>
        if look = false then (b, { ret := ENOSPC })
        else if caller = u then (b.enter caller look, { ret := OK })
        else (b, { ret := EACCES })

/-- The next bytes are copied out, and are gone if the copy succeeded. -/
def Box.answerRead (n : ℕ) (copy : Copy) (b : Box Uid UInt8) : Box Uid UInt8 × Reply :=
  let bytes := b.waiting.take n
  if bytes = [] then (b, { ret := OK, iovSize := n })
  else
    match copy with
    | .ok => (b.take n, { ret := OK, iovSize := n - bytes.length, delivered := bytes })
    | .err e done => (b, { ret := e, iovSize := n, delivered := bytes.take done })

/-- As many of the bytes as there is room for are put in, if the copy succeeded. -/
def Box.answerWrite (bytes : List UInt8) (copy : Copy) (b : Box Uid UInt8) : Box Uid UInt8 × Reply :=
  if bytes = [] then (b, { ret := OK, iovSize := bytes.length })
  else if b.held.length = secretSize then (b, { ret := ENOSPC, iovSize := bytes.length })
  else
    match copy with
    | .ok =>
      let fitting := bytes.take (secretSize - b.held.length)
      (b.add fitting, { ret := OK, iovSize := bytes.length - fitting.length })
    | .err e _ => (b, { ret := e, iovSize := bytes.length })

/-- A box with room for `SECRET_SIZE` bytes serves a callback. -/
def Box.serve (b : Box Uid UInt8) : Callback → Box Uid UInt8 × Reply
  | .open caller mode cred => b.answerOpen caller mode cred
  | .close => (b.leave, { ret := OK })
  | .ioctl .SSGRANT (.ok uid) => (b.pass uid, { ret := OK })
  | .ioctl .SSGRANT (.error e) => (b, { ret := e })
  | .ioctl (.other _) _ => (b, { ret := ENOTTY })
  | .transfer .DEV_GATHER_S iov _ copy => b.answerRead iov.toNat copy
  | .transfer .DEV_SCATTER_S iov data copy => b.answerWrite ((List.range iov.toNat).map data) copy
  | .transfer (.other _) iov _ _ => (b, { ret := EINVAL, iovSize := iov.toNat })
  | .restart => (.empty, { ret := OK })
  | .update => (b, { ret := OK })

/-- An open is not sent past `INT_MAX` visitors. -/
def Callback.Sent (visits : ℤ) : Callback → Prop
  | .open _ _ _ => visits < intMax
  | _ => True

/-- The boxes any callbacks lead to. -/
def mailbox : System (Box Uid UInt8) (Callback × Reply) where
  init b := b = .empty
  step b l b' := l.1.Sent b.visits ∧ b.serve l.1 = (b', l.2)

/-! ### What goes in and comes out -/

abbrev BoxStep := Event (Box Uid UInt8) (Callback × Reply)

/-- The bytes a step put in: those of the request that the reply leaves out. -/
def BoxStep.arrived (e : BoxStep) : List UInt8 :=
  match e.label.1 with
  | .transfer .DEV_SCATTER_S iov data _ =>
    (List.range ((iov.toNat : ℤ) - e.label.2.iovSize).toNat).map data
  | _ => []

/-- The bytes a step that succeeded handed out. -/
def BoxStep.departed (e : BoxStep) : List UInt8 :=
  if e.label.2.ret = OK then e.label.2.delivered else []

/-- The steps since the box was last empty. -/
def sinceEmpty : List BoxStep → List BoxStep
  | [] => []
  | e :: h => if e.post = .empty then [] else e :: sinceEmpty h

/-- The step appends to what came out and to what went in. -/
def BoxStep.Moves (e : BoxStep) : Prop :=
  e.post.gone = e.pre.gone ++ e.departed ∧ e.post.held = e.pre.held ++ e.arrived

/-- A step that is not a write and hands nothing out, and leaves the items where they are. -/
theorem BoxStep.moves_of_quiet {e : BoxStep} (hgone : e.post.gone = e.pre.gone)
    (hwaiting : e.post.waiting = e.pre.waiting) (hout : e.departed = []) (hin : e.arrived = []) :
    e.Moves := by
  unfold Moves Box.held
  rw [hgone, hwaiting, hout, hin, List.append_nil, List.append_nil]
  exact ⟨rfl, rfl⟩

theorem Box.answerOpen_moves (caller : Uid) (mode : BitVec 32) (cred : ℤ) (b : Box Uid UInt8) :
    BoxStep.Moves ⟨b, (.open caller mode cred, (b.answerOpen caller mode cred).2),
      (b.answerOpen caller mode cred).1⟩ := by
  unfold Box.answerOpen
  repeat' split
  all_goals exact BoxStep.moves_of_quiet rfl rfl (ite_self _) rfl

theorem Box.answerRead_moves (iov : UInt32) (data : ℕ → UInt8) (copy : Copy) (b : Box Uid UInt8) :
    BoxStep.Moves ⟨b, (.transfer .DEV_GATHER_S iov data copy, (b.answerRead iov.toNat copy).2),
      (b.answerRead iov.toNat copy).1⟩ := by
  unfold Box.answerRead
  dsimp only
  split
  · exact BoxStep.moves_of_quiet rfl rfl rfl rfl
  cases copy with
  | ok => exact ⟨rfl, by simp [BoxStep.arrived]⟩
  | err e done => exact BoxStep.moves_of_quiet rfl rfl (if_neg e.2) rfl

theorem Box.answerWrite_moves (iov : UInt32) (data : ℕ → UInt8) (copy : Copy) (b : Box Uid UInt8) :
    BoxStep.Moves ⟨b, (.transfer .DEV_SCATTER_S iov data copy,
        (b.answerWrite ((List.range iov.toNat).map data) copy).2),
      (b.answerWrite ((List.range iov.toNat).map data) copy).1⟩ := by
  have hlen : ((List.range iov.toNat).map data).length = iov.toNat := by simp
  have hnone : (List.range ((iov.toNat : ℤ) - iov.toNat).toNat).map data = [] := by simp
  unfold Box.answerWrite
  dsimp only
  rw [hlen]
  split
  · exact BoxStep.moves_of_quiet rfl rfl rfl hnone
  split
  · exact BoxStep.moves_of_quiet rfl rfl rfl hnone
  cases copy with
  | ok =>
    refine ⟨(List.append_nil _).symm, ?_⟩
    have hfit : ((iov.toNat : ℤ) - (iov.toNat - (((List.range iov.toNat).map data).take
        (secretSize - b.held.length)).length : ℤ)).toNat = min (secretSize - b.held.length) iov.toNat := by
      rw [List.length_take, hlen]
      omega
    show (b.add _).held = _
    rw [Box.held_add]
    show _ = b.held ++ (List.range _).map data
    rw [hfit, ← List.map_take, List.take_range]
  | err e done => exact BoxStep.moves_of_quiet rfl rfl (if_neg e.2) hnone

/-- A callback that leaves something in the box only appends to what came out and to what went in. -/
theorem Box.serve_moves {b b' : Box Uid UInt8} {c : Callback} {rep : Reply}
    (h : b.serve c = (b', rep)) : b' = .empty ∨ BoxStep.Moves ⟨b, (c, rep), b'⟩ := by
  obtain ⟨rfl, rfl⟩ := Prod.mk.inj h
  cases c with
  | «open» caller mode cred => exact .inr (Box.answerOpen_moves caller mode cred b)
  | close =>
    rcases Box.leave_cases b with hempty | hleave
    · exact .inl hempty
    · have hgone : b.leave.gone = b.gone := by rw [hleave]
      have hwaiting : b.leave.waiting = b.waiting := by rw [hleave]
      exact .inr (BoxStep.moves_of_quiet hgone hwaiting rfl rfl)
  | ioctl request grantee =>
    rcases request with _ | code
    · rcases grantee with e | uid
      · exact .inr (BoxStep.moves_of_quiet rfl rfl (if_neg e.2) rfl)
      · exact .inr (BoxStep.moves_of_quiet rfl rfl rfl rfl)
    · exact .inr (BoxStep.moves_of_quiet rfl rfl rfl rfl)
  | transfer opcode iov data copy =>
    cases opcode with
    | DEV_GATHER_S => exact .inr (Box.answerRead_moves iov data copy b)
    | DEV_SCATTER_S => exact .inr (Box.answerWrite_moves iov data copy b)
    | other code => exact .inr (BoxStep.moves_of_quiet rfl rfl rfl rfl)
  | restart => exact .inl rfl
  | update => exact .inr (BoxStep.moves_of_quiet rfl rfl rfl rfl)

/-- **In order**: what came out of a box since it was empty is the beginning of what went in. -/
theorem mailbox_in_order {h : List BoxStep} {b : Box Uid UInt8} (hr : Run mailbox h b) :
    b.gone = (sinceEmpty h).reverse.flatMap BoxStep.departed ∧
      b.held = (sinceEmpty h).reverse.flatMap BoxStep.arrived := by
  induction hr with
  | init h0 =>
    obtain rfl := h0
    exact ⟨rfl, rfl⟩
  | @step h b b' l hr hs ih =>
    unfold sinceEmpty
    by_cases hempty : b' = .empty
    · rw [if_pos hempty, hempty]
      exact ⟨rfl, rfl⟩
    · obtain ⟨hgone, hheld⟩ := (Box.serve_moves hs.2).resolve_left hempty
      rw [if_neg hempty, List.reverse_cons, List.flatMap_append, List.flatMap_append, ← ih.1, ← ih.2,
        hgone, hheld]
      simp

/-! ### The driver on its own -/

/-- Where in `secret_buf` a transfer lets the kernel copy, and how many bytes. -/
def span (opcode : Opcode) (iovSize : UInt32) (s : State) : Option (ℤ × ℤ) :=
  match opcode with
  | .DEV_GATHER_S =>
    let left := toUnsigned (toInt (s.secretLen - s.readOffset))
    let bytes := toInt (if left < iovSize.toNat then left else iovSize.toNat)
    if bytes ≤ 0 then none else some (s.readOffset, bytes)
  | .DEV_SCATTER_S =>
    let spaceRemaining := toInt (secretSize - s.secretLen)
    if iovSize.toNat = 0 ∨ spaceRemaining ≤ 0 then none
    else
      let space := toUnsigned spaceRemaining
      some (s.secretLen, toInt (if space < iovSize.toNat then space else iovSize.toNat))
  | .other _ => none

/-- The copy kept to the `n` bytes at `off` of the buffer: the others are as they were, and what
was delivered is the beginning of these. -/
structure Within (off n : ℤ) (before after : Buf) (delivered : List UInt8) : Prop where
  off_nonneg : 0 ≤ off
  pos : 0 < n
  fits : off + n ≤ secretSize
  elsewhere : ∀ i : Fin secretSize, ((i : ℕ) : ℤ) < off ∨ off + n ≤ (i : ℕ) → after i = before i
  delivered : delivered <+: (List.range n.toNat).map fun k => before.get (off.toNat + k)

/-- A transfer copied within its span; without one it copied nothing. -/
def Copied (before after : Buf) (delivered : List UInt8) : Option (ℤ × ℤ) → Prop
  | none => after = before ∧ delivered = []
  | some (off, n) => Within off n before after delivered

section Device

variable {σ : Type} (ds : DataStore σ) (U : UidType)

/-- A callback that returns an `int` only. -/
def replied (r : State × ℤ) : State × Reply := (r.1, { ret := r.2 })

/-- What the instance does in the state `s`: the state it goes to and its reply. -/
def Works (s : State) : Callback → State × Reply → Prop
  | .open caller mode cred, r => r = replied (secretOpen mode caller cred s)
  | .close, r => r = replied (secretClose s)
  | .ioctl request grantee, r => r = replied (secretIoctl request grantee s)
  | .transfer opcode iovSize data copy, r => r = secretTransfer opcode iovSize data copy s
  | .restart, r => ∃ static store announced left ret,
      sefCbInit ds U .SEF_INIT_RESTART static store = ⟨ret, announced, r.1, left⟩ ∧ r.2 = { ret }
  | .update, r => r.2 = { ret := OK } ∧ ∃ prior static left, Updated ds U s prior static r.1 left

/-- The driver under callbacks in any order, from a fresh start. -/
def device : System State (Callback × Reply) where
  init s := ∃ static store announced left,
    sefCbInit ds U .SEF_INIT_FRESH static store = ⟨OK, announced, s, left⟩
  step s l t := l.1.Sent s.openCounter ∧ Works ds U s l.1 (t, l.2)

end Device

/-- The static state as a box. -/
def mailboxOf (s : State) : Box Uid UInt8 where
  owner := if s.hasOwner = 0 then none else some s.secretOwner
  gone := s.secret.take s.readOffset.toNat
  waiting := s.secret.drop s.readOffset.toNat
  visits := s.openCounter.toNat
  looked := s.readFdOpened ≠ 0

/-- Every uid in the callback is a value of `uid_t`. -/
def UidType.ValidCallback (U : UidType) : Callback → Prop
  | .open caller _ _ => U.valid caller
  | .ioctl _ (.ok uid) => U.valid uid
  | _ => True

section Steps

variable {U : UidType} {s : State}

theorem sound_reset (hU : U.RoundTrips) : Sound U resetState :=
  ⟨typed_reset hU, le_rfl, le_rfl, by decide, le_rfl, by decide⟩

@[simp] theorem mailboxOf_reset : mailboxOf resetState = .empty := rfl

theorem held_mailboxOf (s : State) : (mailboxOf s).held = s.secret :=
  List.take_append_drop _ _

theorem length_held (s : State) : (mailboxOf s).held.length = s.secretLen.toNat := by
  rw [held_mailboxOf, State.secret_length]

/-- `secret_open` by what the mode asks for. -/
theorem secretOpen_looking (caller : Uid) (mode : BitVec 32) (cred : ℤ) (s : State) :
    secretOpen mode caller cred s =
      match looking mode with
      | none => (s, EACCES)
      | some look =>
        if cred < 0 then (s, cred)
        else if s.hasOwner = 0 then
          (countOpen mode { s with hasOwner := 1, secretOwner := caller }, OK)
        else if look = false then (s, ENOSPC)
        else if caller = s.secretOwner then (countOpen mode s, OK) else (s, EACCES) := by
  unfold secretOpen looking
  by_cases hr : mode &&& rBit = 0#32 <;> by_cases hw : mode &&& wBit = 0#32
  · simp [hr, hw]
  · simp [hr, hw]
  · simp [hr, hw]
  · simp [hr, hw]

/-- A mode that asks to look has the read bit. -/
theorem readFdOpened_countOpen {mode : BitVec 32} {look : Bool} (hlook : looking mode = some look) :
    (countOpen mode s).readFdOpened = if look then 1 else s.readFdOpened := by
  unfold looking at hlook
  unfold countOpen
  by_cases hr : mode &&& rBit = 0#32 <;> by_cases hw : mode &&& wBit = 0#32
  · simp [hr, hw] at hlook
  · simp [hr, hw] at hlook ⊢
    simp [← hlook]
  · simp [hr, hw] at hlook ⊢
    simp [← hlook]
  · simp [hr, hw] at hlook

/-- Counting a descriptor is a visit. -/
theorem mailboxOf_countOpen (hpos : 0 ≤ s.openCounter) (hroom : s.openCounter < intMax) {u : Uid}
    {mode : BitVec 32} {look : Bool} (hlook : looking mode = some look) (howned : s.hasOwner ≠ 0) :
    mailboxOf (countOpen mode s) = (mailboxOf s).enter u look := by
  have hmax : intMax = 2147483647 := rfl
  have hcount : (countOpen mode s).openCounter.toNat = s.openCounter.toNat + 1 := by
    show (toInt (s.openCounter + 1)).toNat = _
    rw [toInt_of_bounds (by omega) (by omega)]
    omega
  have hread := readFdOpened_countOpen (s := s) hlook
  have howner : (countOpen mode s).hasOwner = s.hasOwner := rfl
  unfold mailboxOf Box.enter
  simp only [hcount, hread, howner, if_neg howned, Option.getD_some]
  cases look with
  | false => simp only [Bool.or_false]; rfl
  | true => simp only [Bool.or_true]; rfl

/-- `secret_open` is a visit, or it is refused as the box refuses it. -/
theorem open_mailboxOf (hpos : 0 ≤ s.openCounter) (hroom : s.openCounter < intMax) (caller : Uid)
    (mode : BitVec 32) (cred : ℤ) :
    (mailboxOf s).answerOpen caller mode cred =
      Prod.map mailboxOf id (replied (secretOpen mode caller cred s)) := by
  rw [secretOpen_looking]
  unfold Box.answerOpen
  cases hlook : looking mode with
  | none => rfl
  | some look =>
    dsimp only
    by_cases hcred : cred < 0
    · rw [if_pos hcred, if_pos hcred]
      rfl
    rw [if_neg hcred, if_neg hcred]
    by_cases hown : s.hasOwner = 0
    · have howner : (mailboxOf s).owner = none := if_pos hown
      have hcount := mailboxOf_countOpen (s := { s with hasOwner := 1, secretOwner := caller })
        (u := caller) hpos hroom hlook one_ne_zero
      have henter : (mailboxOf { s with hasOwner := 1, secretOwner := caller }).enter caller look =
          (mailboxOf s).enter caller look := by
        unfold Box.enter
        rw [howner]
        rfl
      rw [if_pos hown, howner, ← henter, ← hcount]
      rfl
    have howner : (mailboxOf s).owner = some s.secretOwner := if_neg hown
    rw [if_neg hown, howner]
    dsimp only
    by_cases hw : look = false
    · rw [if_pos hw, if_pos hw]
      rfl
    rw [if_neg hw, if_neg hw]
    by_cases hc : caller = s.secretOwner
    · rw [if_pos hc, if_pos hc, ← mailboxOf_countOpen hpos hroom hlook hown]
      rfl
    · rw [if_neg hc, if_neg hc]
      rfl

/-- `secret_close` is a departure. -/
theorem close_mailboxOf (hpos : 0 ≤ s.openCounter) :
    ((mailboxOf s).leave, { ret := OK }) = Prod.map mailboxOf id (replied (secretClose s)) := by
  unfold secretClose
  generalize hs1 : (if 0 < s.openCounter then { s with openCounter := s.openCounter - 1 } else s) = s1
  have hbox : mailboxOf s1 = { mailboxOf s with visits := (mailboxOf s).visits - 1 } := by
    rw [← hs1]
    split_ifs with h
    · unfold mailboxOf
      rw [show (s.openCounter - 1).toNat = s.openCounter.toNat - 1 by omega]
      rfl
    · unfold mailboxOf
      rw [show s.openCounter.toNat - 1 = s.openCounter.toNat by omega]
  have hempty : (mailboxOf s).visits - 1 = 0 ∧ (mailboxOf s).looked ↔
      s1.openCounter = 0 ∧ s1.readFdOpened ≠ 0 := by
    have hvisits : (mailboxOf s).visits - 1 = s1.openCounter.toNat :=
      (congrArg Box.visits hbox).symm
    have hnonneg : 0 ≤ s1.openCounter := by
      rw [← hs1]
      split_ifs
      · show 0 ≤ s.openCounter - 1
        omega
      · exact hpos
    have hlooked : (mailboxOf s).looked = decide (s1.readFdOpened ≠ 0) :=
      (congrArg Box.looked hbox).symm
    rw [hvisits, hlooked, decide_eq_true_iff]
    exact and_congr_left' ⟨fun h => by omega, fun h => by omega⟩
  dsimp only
  unfold Box.leave
  by_cases h : s1.openCounter = 0 ∧ s1.readFdOpened ≠ 0
  · rw [if_pos h, if_pos (hempty.mpr h)]
    rfl
  · rw [if_neg h, if_neg (mt hempty.mp h), ← hbox]
    rfl

/-- `SSGRANT` hands the box on. -/
theorem ioctl_mailboxOf (request : IoctlRequest) (grantee : Except Errno Uid) :
    (mailboxOf s).serve (.ioctl request grantee) =
      Prod.map mailboxOf id (replied (secretIoctl request grantee s)) := by
  rcases request with _ | code
  · rcases grantee with e | uid
    · rfl
    · have hpass : (mailboxOf s).pass uid = mailboxOf { s with secretOwner := uid } := by
        unfold Box.pass mailboxOf
        by_cases hown : s.hasOwner = 0
        · simp only [if_pos hown, Option.map_none]
          rfl
        · simp only [if_neg hown, Option.map_some]
          rfl
      show ((mailboxOf s).pass uid, _) = _
      rw [hpass]
      rfl
  · rfl

/-- The bytes a read may take are those between the cursor and the end. -/
theorem length_waiting (s : State) :
    (mailboxOf s).waiting.length = s.secretLen.toNat - s.readOffset.toNat := by
  show (s.secret.drop s.readOffset.toNat).length = _
  rw [List.length_drop, State.secret_length]

/-- Advancing the cursor takes the bytes out. -/
theorem take_mailboxOf (h0 : 0 ≤ s.readOffset) {m n : ℕ}
    (hn : n = min m (mailboxOf s).waiting.length) :
    (mailboxOf s).take m = mailboxOf { s with readOffset := s.readOffset + n } := by
  have hoff : (s.readOffset + n).toNat = s.readOffset.toNat + n := by omega
  have htake : (s.secret.drop s.readOffset.toNat).take m = (s.secret.drop s.readOffset.toNat).take n := by
    rw [hn]
    exact List.take_eq_take_min
  have hdrop : (s.secret.drop s.readOffset.toNat).drop m = (s.secret.drop s.readOffset.toNat).drop n := by
    rw [hn]
    exact List.drop_eq_drop_min
  unfold Box.take mailboxOf
  dsimp only
  rw [htake, hdrop, hoff, ← List.take_add, List.drop_drop]
  rfl

/-- A read takes out what waits. -/
theorem read_mailboxOf (hs : Sound U s) (iov : UInt32) (copy : Copy) :
    (mailboxOf s).answerRead iov.toNat copy =
      Prod.map mailboxOf id (gather iov.toNat copy s) := by
  have h0 := hs.off_nonneg
  have h1 := hs.off_le
  rw [gather_eq h0 h1 hs.len_le]
  dsimp only
  generalize hn : min (s.secretLen - s.readOffset).toNat iov.toNat = n
  have hwait : n = min iov.toNat (mailboxOf s).waiting.length := by
    rw [length_waiting]
    omega
  have hout : ∀ k ≤ n, (List.range k).map (fun i => s.secretBuf.get (s.readOffset.toNat + i)) =
      ((mailboxOf s).waiting.take iov.toNat).take k := by
    intro k hk
    rw [secret_slice (by omega), List.take_take, show min k iov.toNat = k by omega]
    rfl
  have hlen : ((mailboxOf s).waiting.take iov.toNat).length = n := by
    rw [List.length_take]
    exact hwait.symm
  unfold Box.answerRead
  dsimp only
  by_cases hn0 : n = 0
  · rw [if_pos hn0, if_pos (List.length_eq_zero_iff.mp (hlen.trans hn0))]
    rfl
  rw [if_neg hn0, if_neg fun h => hn0 (by rw [← hlen, h]; rfl)]
  cases copy with
  | ok =>
    dsimp only
    rw [take_mailboxOf h0 hwait, hout n le_rfl, List.take_of_length_le hlen.le, hlen]
    rfl
  | err e done =>
    dsimp only
    rw [hout _ (min_le_right done n), ← hlen, ← List.take_eq_take_min]
    rfl

/-- Bytes behind the secret are not in the box. -/
theorem mailboxOf_withBuf {b : Buf}
    (hb : ∀ i : Fin secretSize, (i : ℕ) < s.secretLen.toNat → b i = s.secretBuf i) :
    mailboxOf { s with secretBuf := b } = mailboxOf s := by
  have hsecret : State.secret { s with secretBuf := b } = s.secret := secret_congr rfl hb
  unfold mailboxOf
  rw [hsecret]

/-- Appending to the secret puts bytes in. -/
theorem add_mailboxOf (hs : Sound U s) {n : ℕ} (hn : s.secretLen.toNat + n ≤ secretSize)
    (data : ℕ → UInt8) :
    (mailboxOf s).add ((List.range n).map data) = mailboxOf { s with
      secretBuf := s.secretBuf.write s.secretLen.toNat n data
      secretLen := s.secretLen + n } := by
  have h0 := hs.off_nonneg
  have h1 := hs.off_le
  have hlen := s.secret_length
  unfold Box.add mailboxOf
  dsimp only
  rw [secret_write data (h0.trans h1) hn, List.take_append_of_le_length (by omega),
    List.drop_append_of_le_length (by omega)]

/-- A write puts in what fits. -/
theorem write_mailboxOf (hs : Sound U s) (iov : UInt32) (data : ℕ → UInt8) (copy : Copy) :
    (mailboxOf s).answerWrite ((List.range iov.toNat).map data) copy =
      Prod.map mailboxOf id (scatter iov.toNat data copy s) := by
  have h0 := hs.off_nonneg
  have h1 := hs.off_le
  have h2 := hs.len_le
  have hlen : ((List.range iov.toNat).map data).length = iov.toNat := by simp
  rw [scatter_eq h0 h1 h2]
  unfold Box.answerWrite
  dsimp only
  generalize hn : min (secretSize - s.secretLen.toNat) iov.toNat = n
  rw [hlen, length_held]
  by_cases hiov : iov.toNat = 0
  · rw [if_pos hiov, if_pos (List.length_eq_zero_iff.mp (hlen.trans hiov))]
    rfl
  rw [if_neg hiov, if_neg fun h => hiov (by rw [← hlen, h]; rfl)]
  by_cases hfull : s.secretLen = secretSize
  · rw [if_pos hfull, if_pos (by omega)]
    rfl
  rw [if_neg hfull, if_neg (by omega)]
  cases copy with
  | ok =>
    have hfit : ((List.range iov.toNat).map data).take (secretSize - s.secretLen.toNat) =
        (List.range n).map data := by
      rw [← List.map_take, List.take_range, hn]
    dsimp only
    rw [hfit, add_mailboxOf hs (by omega), List.length_map, List.length_range]
    rfl
  | err e done =>
    show _ = (mailboxOf { s with secretBuf := _ }, _)
    rw [mailboxOf_withBuf fun i hi => Buf.write_of_lt hi]
    rfl

/-! ### One callback -/

theorem Sound.countOpen (hs : Sound U s) (hroom : s.openCounter < intMax) (mode : BitVec 32) :
    Sound U (countOpen mode s) := by
  have hmax : intMax = 2147483647 := rfl
  have hpos := hs.counter_nonneg
  have hcount : (Secret.countOpen mode s).openCounter = s.openCounter + 1 :=
    toInt_of_bounds (by omega) (by omega)
  exact ⟨hs.toTyped.countOpen mode, hs.off_nonneg, hs.off_le, hs.len_le, by omega, by omega⟩

theorem sound_open (hs : Sound U s) (hroom : s.openCounter < intMax) {caller : Uid}
    (hv : U.valid caller) (mode : BitVec 32) (cred : ℤ) :
    Sound U (secretOpen mode caller cred s).1 := by
  rcases secretOpen_cases mode caller cred s with ⟨e, he⟩ | ⟨-, he⟩ | ⟨-, -, -, -, he⟩
  · rw [he]
    exact hs
  · rw [he]
    refine Sound.countOpen (s := { s with hasOwner := 1, secretOwner := caller }) ?_ hroom mode
    exact ⟨⟨.inr rfl, hs.readFdOpened, hv⟩, hs.off_nonneg, hs.off_le, hs.len_le, hs.counter_nonneg,
      hs.counter_le⟩
  · rw [he]
    exact hs.countOpen hroom mode

theorem sound_close (hU : U.RoundTrips) (hs : Sound U s) : Sound U (secretClose s).1 := by
  have hpos := hs.counter_nonneg
  have hle := hs.counter_le
  have hs1 : Sound U (if 0 < s.openCounter then { s with openCounter := s.openCounter - 1 } else s) := by
    split_ifs
    · refine ⟨⟨hs.hasOwner, hs.readFdOpened, hs.secretOwner⟩, hs.off_nonneg, hs.off_le, hs.len_le, ?_, ?_⟩
      · show 0 ≤ s.openCounter - 1
        omega
      · show s.openCounter - 1 ≤ intMax
        omega
    · exact hs
  unfold secretClose
  generalize (if 0 < s.openCounter then { s with openCounter := s.openCounter - 1 } else s) = s1
    at hs1 ⊢
  dsimp only
  split_ifs
  · exact sound_reset hU
  · exact hs1

theorem sound_ioctl (hs : Sound U s) {request : IoctlRequest} {grantee : Except Errno Uid}
    (hv : ∀ uid, grantee = .ok uid → U.valid uid) : Sound U (secretIoctl request grantee s).1 := by
  rcases request with _ | code
  · rcases grantee with e | uid
    · exact hs
    · exact ⟨⟨hs.hasOwner, hs.readFdOpened, hv uid rfl⟩, hs.off_nonneg, hs.off_le, hs.len_le,
        hs.counter_nonneg, hs.counter_le⟩
  · exact hs

theorem sound_gather (hs : Sound U s) (iov : UInt32) (copy : Copy) :
    Sound U (gather iov.toNat copy s).1 := by
  have h0 := hs.off_nonneg
  have h1 := hs.off_le
  rw [gather_eq h0 h1 hs.len_le]
  dsimp only
  generalize hn : min (s.secretLen - s.readOffset).toNat iov.toNat = n
  split_ifs
  · exact hs
  cases copy with
  | ok =>
    refine ⟨⟨hs.hasOwner, hs.readFdOpened, hs.secretOwner⟩, ?_, ?_, hs.len_le, hs.counter_nonneg,
      hs.counter_le⟩
    · show 0 ≤ s.readOffset + n
      omega
    · show s.readOffset + n ≤ s.secretLen
      omega
  | err e done => exact hs

theorem sound_scatter (hs : Sound U s) (iov : UInt32) (data : ℕ → UInt8) (copy : Copy) :
    Sound U (scatter iov.toNat data copy s).1 := by
  have h0 := hs.off_nonneg
  have h1 := hs.off_le
  have h2 := hs.len_le
  rw [scatter_eq h0 h1 h2]
  dsimp only
  generalize hn : min (secretSize - s.secretLen.toNat) iov.toNat = n
  split_ifs
  · exact hs
  · exact hs
  cases copy with
  | ok =>
    refine ⟨⟨hs.hasOwner, hs.readFdOpened, hs.secretOwner⟩, h0, ?_, ?_, hs.counter_nonneg,
      hs.counter_le⟩
    · show s.readOffset ≤ s.secretLen + n
      omega
    · show s.secretLen + n ≤ secretSize
      omega
  | err e done =>
    exact ⟨⟨hs.hasOwner, hs.readFdOpened, hs.secretOwner⟩, h0, h1, h2, hs.counter_nonneg,
      hs.counter_le⟩

/-- A transfer is a read, a write or nothing. -/
theorem transfer_mailboxOf (hs : Sound U s) (opcode : Opcode) (iov : UInt32) (data : ℕ → UInt8)
    (copy : Copy) :
    Sound U (secretTransfer opcode iov data copy s).1 ∧
      (mailboxOf s).serve (.transfer opcode iov data copy) =
        Prod.map mailboxOf id (secretTransfer opcode iov data copy s) := by
  cases opcode with
  | DEV_GATHER_S => exact ⟨sound_gather hs iov copy, read_mailboxOf hs iov copy⟩
  | DEV_SCATTER_S => exact ⟨sound_scatter hs iov data copy, write_mailboxOf hs iov data copy⟩
  | other code => exact ⟨hs, rfl⟩

/-- **One callback**: the instance stays sound, and its box serves the callback with the same
reply. -/
theorem works_mailboxOf {σ : Type} {ds : DataStore σ} (hds : ds.Keyed) (hU : U.RoundTrips)
    (hs : Sound U s) {c : Callback} (hv : U.ValidCallback c) (hsent : c.Sent s.openCounter)
    {r : State × Reply} (h : Works ds U s c r) :
    Sound U r.1 ∧ (mailboxOf s).serve c = (mailboxOf r.1, r.2) := by
  cases c with
  | «open» caller mode cred =>
    obtain rfl := h
    exact ⟨sound_open hs hsent hv mode cred, open_mailboxOf hs.counter_nonneg hsent caller mode cred⟩
  | close =>
    obtain rfl := h
    exact ⟨sound_close hU hs, close_mailboxOf hs.counter_nonneg⟩
  | ioctl request grantee =>
    obtain rfl := h
    refine ⟨sound_ioctl hs ?_, ioctl_mailboxOf request grantee⟩
    rintro uid rfl
    exact hv
  | transfer opcode iov data copy =>
    obtain rfl := h
    exact transfer_mailboxOf hs opcode iov data copy
  | restart =>
    obtain ⟨static, store, announced, left, ret, hinit, hrep⟩ := h
    obtain ⟨rfl, -, hreset, -⟩ := Started.mk.inj hinit
    rw [hrep, ← hreset]
    exact ⟨sound_reset hU, rfl⟩
  | update =>
    obtain ⟨hrep, prior, static, left, hup⟩ := h
    obtain ⟨ht, -⟩ := hup.restored_eq hds hU hs
    rw [hrep, ht]
    exact ⟨hs, rfl⟩

/-- The cap of a transfer, for a length within the buffer. -/
theorem capped {a iov : ℤ} (h0 : 0 ≤ a) (h1 : a ≤ secretSize) (hiov : 0 ≤ iov) :
    toInt (if toUnsigned (toInt a) < iov then toUnsigned (toInt a) else iov) = min a iov := by
  have hsz : (secretSize : ℤ) = 8192 := rfl
  have ha : toUnsigned (toInt a) = a := by
    rw [toInt_of_bounds (by omega) (by omega), toUnsigned_of_bounds (by omega) (by omega)]
  rw [ha]
  split_ifs with hlt
  · rw [toInt_of_bounds (by omega) (by omega)]
    omega
  · rw [toInt_of_bounds (by omega) (by omega)]
    omega

/-- A read copies out of its span. -/
theorem gather_copied (hs : Sound U s) (iov : UInt32) (copy : Copy) :
    Copied s.secretBuf (gather iov.toNat copy s).1.secretBuf (gather iov.toNat copy s).2.delivered
      (span .DEV_GATHER_S iov s) := by
  have hsz : (secretSize : ℤ) = 8192 := rfl
  have h0 := hs.off_nonneg
  have h1 := hs.off_le
  have h2 := hs.len_le
  have hcap := capped (a := s.secretLen - s.readOffset) (by omega) (by omega)
    (Int.natCast_nonneg iov.toNat)
  simp only [gather, span, hcap]
  generalize hn : min (s.secretLen - s.readOffset) iov.toNat = n
  split_ifs with hpos
  · exact ⟨rfl, rfl⟩
  cases copy with
  | ok => exact ⟨h0, by omega, by omega, fun _ _ => rfl, List.prefix_rfl⟩
  | err e done =>
    refine ⟨h0, by omega, by omega, fun _ _ => rfl, List.IsPrefix.map _ ?_⟩
    rw [← List.take_range]
    exact List.take_prefix done _

/-- A write copies into its span. -/
theorem scatter_copied (hs : Sound U s) (iov : UInt32) (data : ℕ → UInt8) (copy : Copy) :
    Copied s.secretBuf (scatter iov.toNat data copy s).1.secretBuf
      (scatter iov.toNat data copy s).2.delivered (span .DEV_SCATTER_S iov s) := by
  have hsz : (secretSize : ℤ) = 8192 := rfl
  have h0 := hs.off_nonneg
  have h1 := hs.off_le
  have h2 := hs.len_le
  have hspace : toInt (secretSize - s.secretLen) = secretSize - s.secretLen :=
    toInt_of_bounds (by omega) (by omega)
  have hcap := capped (a := secretSize - s.secretLen) (by omega) (by omega)
    (Int.natCast_nonneg iov.toNat)
  simp only [scatter, span, hcap]
  rw [hspace]
  generalize hn : min ((secretSize : ℤ) - s.secretLen) iov.toNat = n
  by_cases hiov : (iov.toNat : ℤ) = 0
  · rw [if_pos hiov, if_pos (.inl (by omega))]
    exact ⟨rfl, rfl⟩
  rw [if_neg hiov]
  by_cases hroom : (secretSize : ℤ) - s.secretLen ≤ 0
  · rw [if_pos hroom, if_pos (.inr hroom)]
    exact ⟨rfl, rfl⟩
  rw [if_neg hroom, if_neg (by omega)]
  have hkeep : ∀ k : ℕ, k ≤ n.toNat → ∀ i : Fin secretSize,
      ((i : ℕ) : ℤ) < s.secretLen ∨ s.secretLen + n ≤ (i : ℕ) →
      s.secretBuf.write s.secretLen.toNat k data i = s.secretBuf i := by
    intro k hk i hi
    unfold Buf.write
    exact if_neg (by omega)
  cases copy with
  | ok => exact ⟨by omega, by omega, by omega, hkeep _ le_rfl, List.nil_prefix⟩
  | err e done =>
    exact ⟨by omega, by omega, by omega, hkeep _ (Nat.min_le_right _ _), List.nil_prefix⟩

/-- The kernel is given parts of `secret_buf` only, the span of the transfer. -/
theorem transfer_copied (hs : Sound U s) (opcode : Opcode) (iov : UInt32) (data : ℕ → UInt8)
    (copy : Copy) :
    Copied s.secretBuf (secretTransfer opcode iov data copy s).1.secretBuf
      (secretTransfer opcode iov data copy s).2.delivered (span opcode iov s) := by
  cases opcode with
  | DEV_GATHER_S => exact gather_copied hs iov copy
  | DEV_SCATTER_S => exact scatter_copied hs iov data copy
  | other code => exact ⟨rfl, rfl⟩

end Steps

/-! ### Whole lives -/

/-- The transfer of the step, if it is one, copied inside `secret_buf` only, within its span. -/
def Inside (e : Event State (Callback × Reply)) : Prop :=
  ∀ opcode iov data copy, e.label.1 = .transfer opcode iov data copy →
    Copied e.pre.secretBuf e.post.secretBuf e.label.2.delivered (span opcode iov e.pre)

section Lives

variable {σ : Type} {ds : DataStore σ} {U : UidType}

theorem device_run (hds : ds.Keyed) (hU : U.RoundTrips)
    {h : List (Event State (Callback × Reply))} {s : State} (hr : Run (device ds U) h s)
    (hv : ∀ e ∈ h, U.ValidCallback e.label.1) :
    Sound U s ∧ Run mailbox (h.map (Event.map mailboxOf)) (mailboxOf s) := by
  refine Run.map (P := fun l => U.ValidCallback l.1) ?_ ?_ hr hv
  · rintro s ⟨static, store, announced, left, hinit⟩
    obtain ⟨-, -, rfl, -⟩ := Started.mk.inj hinit
    exact ⟨sound_reset hU, rfl⟩
  · rintro s ⟨c, rep⟩ t hs hv ⟨hsent, hworks⟩
    obtain ⟨ht, hserve⟩ := works_mailboxOf hds hU hs hv hsent hworks
    have hvisits : ((mailboxOf s).visits : ℤ) = s.openCounter := Int.toNat_of_nonneg hs.counter_nonneg
    refine ⟨ht, ?_, hserve⟩
    rw [hvisits]
    exact hsent

theorem inside_of_works {s t : State} {l : Callback × Reply} (hs : Sound U s)
    (h : Works ds U s l.1 (t, l.2)) : Inside ⟨s, l, t⟩ := by
  intro opcode iov data copy hlabel
  obtain ⟨c, rep⟩ := l
  obtain rfl : c = .transfer opcode iov data copy := hlabel
  have hr : (t, rep) = secretTransfer opcode iov data copy s := h
  have hcopied := transfer_copied hs opcode iov data copy
  rw [← hr] at hcopied
  exact hcopied

/-- **The driver is a mailbox** for callbacks in any order, restarts and live updates: read as
boxes, the states of every run are a run of `mailbox` with the same replies, so that what came out
since the device was empty is the beginning of what went in; and no transfer reaches outside the
buffer. -/
theorem device_is_mailbox (hds : ds.Keyed) (hU : U.RoundTrips)
    {h : List (Event State (Callback × Reply))} {s : State} (hr : Run (device ds U) h s)
    (hv : ∀ e ∈ h, U.ValidCallback e.label.1) :
    Run mailbox (h.map (Event.map mailboxOf)) (mailboxOf s) ∧
      (sinceEmpty (h.map (Event.map mailboxOf))).reverse.flatMap BoxStep.departed <+:
        (sinceEmpty (h.map (Event.map mailboxOf))).reverse.flatMap BoxStep.arrived ∧
      ∀ e ∈ h, Inside e := by
  have hbox := (device_run hds hU hr hv).2
  refine ⟨hbox, ?_, ?_⟩
  · obtain ⟨hgone, hheld⟩ := mailbox_in_order hbox
    rw [← hgone, ← hheld]
    exact List.prefix_append _ _
  induction hr with
  | init => simp
  | step hr hs ih =>
    have hearlier := fun e he => hv e (List.mem_cons_of_mem _ he)
    intro e he
    rcases List.mem_cons.mp he with rfl | he
    · exact inside_of_works (device_run hds hU hr hearlier).1 hs.2
    · exact ih hearlier (device_run hds hU hr hearlier).2 e he

end Lives

/-- A transfer of the letters from `A` on. -/
def transferring (opcode : Opcode) (iov : UInt32) (s : State) : Event State (Callback × Reply) :=
  let letters (i : ℕ) : UInt8 := 65 + .ofNat i
  let r := secretTransfer opcode iov letters .ok s
  ⟨s, (.transfer opcode iov letters .ok, r.2), r.1⟩

theorem transferring_run {h : List (Event State (Callback × Reply))} {s : State}
    (hr : Run (device mapStore shortUid) h s) (opcode : Opcode) (iov : UInt32) :
    Run (device mapStore shortUid) (transferring opcode iov s :: h) (transferring opcode iov s).post :=
  hr.step ⟨trivial, rfl⟩

/-- Nobody has opened the device: three letters go in, two come out, the instance is updated, and
a long read gets the rest. -/
def strays : List (Event State (Callback × Reply)) :=
  let write := transferring .DEV_SCATTER_S 3 resetState
  let read := transferring .DEV_GATHER_S 2 write.post
  [transferring .DEV_GATHER_S 9 read.post, ⟨read.post, (.update, { ret := OK }), read.post⟩, read, write]

/-- A state of a run is there again after an update. -/
theorem updating_run {h : List (Event State (Callback × Reply))} {s : State}
    (hr : Run (device mapStore shortUid) h s) (hv : ∀ e ∈ h, shortUid.ValidCallback e.label.1) :
    Run (device mapStore shortUid) (⟨s, (.update, { ret := OK }), s⟩ :: h) s := by
  obtain ⟨drv, left, hup⟩ := exists_updated_leftover s
  obtain ⟨rfl, -⟩ := hup.restored_eq mapStore_keyed shortUid_roundTrips
    (device_run mapStore_keyed shortUid_roundTrips hr hv).1
  have hworks : Works mapStore shortUid drv .update (drv, { ret := OK }) := ⟨rfl, _, _, _, hup⟩
  exact hr.step ⟨trivial, hworks⟩

theorem strays_run : ∃ s, Run (device mapStore shortUid) strays s := by
  have hfresh : Run (device mapStore shortUid) [] resetState :=
    .init ⟨resetState, leftover, true, leftover, rfl⟩
  have hread := transferring_run (transferring_run hfresh .DEV_SCATTER_S 3) .DEV_GATHER_S 2
  have hupdate := updating_run hread (by simp [transferring, UidType.ValidCallback])
  exact ⟨_, transferring_run hupdate .DEV_GATHER_S 9⟩

theorem device_is_mailbox_strays : ∃ s,
    (sinceEmpty (strays.map (Event.map mailboxOf))).reverse.flatMap BoxStep.departed = [65, 66, 67] ∧
    Run mailbox (strays.map (Event.map mailboxOf)) (mailboxOf s) ∧
      (sinceEmpty (strays.map (Event.map mailboxOf))).reverse.flatMap BoxStep.departed <+:
        (sinceEmpty (strays.map (Event.map mailboxOf))).reverse.flatMap BoxStep.arrived ∧
      ∀ e ∈ strays, Inside e := by
  obtain ⟨s, hs⟩ := strays_run
  exact ⟨s, by decide +kernel, device_is_mailbox mapStore_keyed shortUid_roundTrips hs
    (by simp [strays, transferring, UidType.ValidCallback])⟩

end Csc453.Secret
