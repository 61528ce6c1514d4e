import Csc453.Lib.Transition
import Csc453.Secret.Driver

/-!
# Csc453.Secret.Service — requests, descriptors and runs of the `/dev/Secret` driver

`Sys` is the driver state together with the descriptors the file system holds open.  `serve`
answers one request; it is `none` where the file system would not send the request (a close,
ioctl or transfer on a descriptor that is not open, an open past `INT_MAX` descriptors).
`driver` is the resulting transition system, started by a fresh `sef_cb_init`.
-/

namespace Csc453.Secret

open Transition

/-- A descriptor whose open succeeded. -/
structure Fd where
  uid : Uid
  mode : BitVec 32

/-- The driver and the open descriptors. -/
structure Sys where
  drv : State
  fds : List Fd

/-- A request of some process, with what the kernel answers while it is served. -/
inductive Request
  | open (caller : Uid) (mode : BitVec 32) (cred : ℤ)
  | close (fd : ℕ)
  | ioctl (fd : ℕ) (request : IoctlRequest) (grantee : Except Errno Uid)
  | transfer (fd : ℕ) (opcode : Opcode) (iovSize : UInt32) (data : ℕ → UInt8) (copy : Copy)

/-- Serve one request. -/
def serve (s : Sys) : Request → Option (Sys × Reply)
  | .open caller mode cred =>
    if s.fds.length < intMax then
      let (drv, ret) := secretOpen mode caller cred s.drv
      some (⟨drv, if ret = OK then s.fds ++ [⟨caller, mode⟩] else s.fds⟩, { ret })
    else none
  | .close fd =>
    if fd < s.fds.length then
      let (drv, ret) := secretClose s.drv
      some (⟨drv, s.fds.eraseIdx fd⟩, { ret })
    else none
  | .ioctl fd request grantee =>
    if fd < s.fds.length then
      let (drv, ret) := secretIoctl request grantee s.drv
      some (⟨drv, s.fds⟩, { ret })
    else none
  | .transfer fd opcode iovSize data copy =>
    if fd < s.fds.length then
      let (drv, reply) := secretTransfer opcode iovSize data copy s.drv
      some (⟨drv, s.fds⟩, reply)
    else none

/-- The driver under requests of any processes, from a fresh start. -/
def driver : System Sys (Request × Reply) where
  init s := s = ⟨resetState, []⟩
  step s l t := serve s l.1 = some (t, l.2)

/-! ### What one request can do -/

/-- `secret_open` fails and changes nothing, or the device was empty and the caller took it, or
the caller is the owner and opens it for reading. -/
theorem secretOpen_cases (mode : BitVec 32) (caller : Uid) (cred : ℤ) (s : State) :
    (∃ e : Errno, secretOpen mode caller cred s = (s, e.1)) ∨
    (s.hasOwner = 0 ∧ secretOpen mode caller cred s =
      (countOpen mode { s with hasOwner := 1, secretOwner := caller }, OK)) ∨
    (s.hasOwner ≠ 0 ∧ mode &&& wBit = 0 ∧ mode &&& rBit ≠ 0 ∧ caller = s.secretOwner ∧
      secretOpen mode caller cred s = (countOpen mode s, OK)) := by
  unfold secretOpen
  by_cases hrw : mode &&& rBit ≠ 0 ∧ mode &&& wBit ≠ 0
  · exact Or.inl ⟨⟨EACCES, by decide⟩, by rw [if_pos hrw]⟩
  rw [if_neg hrw]
  by_cases hno : ¬ (mode &&& rBit ≠ 0 ∨ mode &&& wBit ≠ 0)
  · exact Or.inl ⟨⟨EACCES, by decide⟩, by rw [if_pos hno]⟩
  rw [if_neg hno]
  by_cases hcred : cred < 0
  · exact Or.inl ⟨⟨cred, by unfold OK; omega⟩, by rw [if_pos hcred]⟩
  rw [if_neg hcred]
  by_cases hown : s.hasOwner = 0
  · exact Or.inr (Or.inl ⟨hown, by rw [if_pos hown]⟩)
  rw [if_neg hown]
  by_cases hw : mode &&& wBit ≠ 0
  · exact Or.inl ⟨⟨ENOSPC, by decide⟩, by rw [if_pos hw]⟩
  rw [if_neg hw]
  by_cases hc : mode &&& rBit ≠ 0 ∧ caller ≠ s.secretOwner
  · exact Or.inl ⟨⟨EACCES, by decide⟩, by rw [if_pos hc]⟩
  rw [if_neg hc]
  have hr : mode &&& rBit ≠ 0 := (not_not.mp hno).resolve_right hw
  exact Or.inr (Or.inr ⟨hown, not_not.mp hw, hr, not_not.mp fun hne => hc ⟨hr, hne⟩, rfl⟩)

section Transfer

variable {s : State} (h0 : 0 ≤ s.readOffset) (h1 : s.readOffset ≤ s.secretLen)
  (h2 : s.secretLen ≤ secretSize)
include h0 h1 h2

/-- A read within the bounds: it moves `min (secret_len - read_offset) iov_size` bytes. -/
theorem gather_eq (iov : UInt32) (copy : Copy) :
    gather iov.toNat copy s =
      let n := min (s.secretLen - s.readOffset).toNat iov.toNat
      let out (k : ℕ) := (List.range k).map fun i => s.secretBuf.get (s.readOffset.toNat + i)
      if n = 0 then (s, { ret := OK, iovSize := iov.toNat })
      else
        match copy with
        | .ok => ({ s with readOffset := s.readOffset + n },
            { ret := OK, iovSize := (iov.toNat : ℤ) - n, delivered := out n })
        | .err e done => (s, { ret := e, iovSize := iov.toNat, delivered := out (min done n) }) := by
  have hsz : (secretSize : ℤ) = 8192 := rfl
  have hiov : iov.toNat < 4294967296 := iov.toNat_lt
  have hleft : toUnsigned (toInt (s.secretLen - s.readOffset)) = s.secretLen - s.readOffset := by
    rw [toInt_of_bounds (by omega) (by omega), toUnsigned_of_bounds (by omega) (by omega)]
  have hmin : toInt (if s.secretLen - s.readOffset < (iov.toNat : ℤ) then s.secretLen - s.readOffset
      else iov.toNat) = (min (s.secretLen - s.readOffset).toNat iov.toNat : ℕ) := by
    split_ifs with hlt
    · rw [toInt_of_bounds (by omega) (by omega)]; omega
    · rw [toInt_of_bounds (by omega) (by omega)]; omega
  simp only [gather, hleft, hmin]
  generalize hn : min (s.secretLen - s.readOffset).toNat iov.toNat = n
  by_cases hn0 : n = 0
  · rw [if_pos (by omega), if_pos hn0]
  · have hcursor := toInt_of_bounds (x := s.readOffset + n) (by omega) (by omega)
    have hrest := toUnsigned_of_bounds (x := (iov.toNat : ℤ) - n) (by omega) (by omega)
    have hpos : ¬ (n : ℤ) ≤ 0 := by omega
    cases copy <;> simp only [if_neg hn0, if_neg hpos, Int.toNat_natCast, hcursor, hrest]

/-- A write within the bounds: it takes `min (SECRET_SIZE - secret_len) iov_size` bytes. -/
theorem scatter_eq (iov : UInt32) (data : ℕ → UInt8) (copy : Copy) :
    scatter iov.toNat data copy s =
      let n := min (secretSize - s.secretLen.toNat) iov.toNat
      if iov.toNat = 0 then (s, { ret := OK, iovSize := iov.toNat })
      else if s.secretLen = secretSize then (s, { ret := ENOSPC, iovSize := iov.toNat })
      else
        match copy with
        | .ok => ({ s with
              secretBuf := s.secretBuf.write s.secretLen.toNat n data
              secretLen := s.secretLen + n },
            { ret := OK, iovSize := (iov.toNat : ℤ) - n })
        | .err e done =>
          ({ s with secretBuf := s.secretBuf.write s.secretLen.toNat (min done n) data },
            { ret := e, iovSize := iov.toNat }) := by
  have hsz : (secretSize : ℤ) = 8192 := rfl
  have hiov : iov.toNat < 4294967296 := iov.toNat_lt
  have hspace : toInt (secretSize - s.secretLen) = secretSize - s.secretLen :=
    toInt_of_bounds (by omega) (by omega)
  have hspace' : toUnsigned (secretSize - s.secretLen) = secretSize - s.secretLen :=
    toUnsigned_of_bounds (by omega) (by omega)
  have hmin : toInt (if (secretSize : ℤ) - s.secretLen < (iov.toNat : ℤ) then
      (secretSize : ℤ) - s.secretLen else iov.toNat) =
      (min (secretSize - s.secretLen.toNat) iov.toNat : ℕ) := by
    split_ifs with hlt
    · rw [toInt_of_bounds (by omega) (by omega)]; omega
    · rw [toInt_of_bounds (by omega) (by omega)]; omega
  simp only [scatter, hspace, hspace', hmin]
  generalize hn : min (secretSize - s.secretLen.toNat) iov.toNat = n
  by_cases hi : iov.toNat = 0
  · rw [if_pos (by omega), if_pos hi]
  rw [if_neg (by omega), if_neg hi]
  by_cases hfull : s.secretLen = secretSize
  · rw [if_pos (by omega), if_pos hfull]
  have hcursor := toInt_of_bounds (x := s.secretLen + n) (by omega) (by omega)
  have hrest := toUnsigned_of_bounds (x := (iov.toNat : ℤ) - n) (by omega) (by omega)
  have hroom : ¬ (secretSize : ℤ) - s.secretLen ≤ 0 := by omega
  cases copy <;> simp only [if_neg hroom, if_neg hfull, Int.toNat_natCast, hcursor, hrest]

end Transfer

end Csc453.Secret
