import Mathlib.Tactic

/-!
# Csc453.Secret.Driver — the `/dev/Secret` driver of Asgn4/secret.c

The static `struct secret_state secret` is `State`; the callbacks `secret_open`, `secret_close`,
`secret_ioctl` and `secret_transfer` are functions from the state (and what the request and the
kernel supply) to the new state and the value returned.  The kernel's parts are arguments: the
return value of `getnucred`, and the outcome of `sys_safecopyfrom` / `sys_safecopyto`
(`Copy`), which may fail after having copied any number of bytes.

`int` is 32 bits: `toInt` and `toUnsigned` are the conversions C inserts where `secret_transfer`
compares an `int` with the unsigned `iov_size`.  Debug output (`DEBUG_ENABLED` is 0) is left out.
-/

namespace Csc453.Secret

/-! ### Constants and machine integers -/

/-- `SECRET_SIZE` of secret.h. -/
def secretSize : ℕ := 8192

/-- `INT_MAX` of a 32-bit `int`. -/
def intMax : ℕ := 2147483647

/-- Return codes, negative inside the system as MINIX servers and drivers see them. -/
def OK : ℤ := 0
def EACCES : ℤ := -13
def EINVAL : ℤ := -22
def ENOTTY : ℤ := -25
def ENOSPC : ℤ := -28

/-- The open mode bits. -/
def rBit : BitVec 32 := 4#32
def wBit : BitVec 32 := 2#32

/-- The value an `int` holds after `x` was stored in it. -/
def toInt (x : ℤ) : ℤ := (x + 2147483648) % 4294967296 - 2147483648

/-- The value of an `int` expression converted to `unsigned`. -/
def toUnsigned (x : ℤ) : ℤ := x % 4294967296

theorem toInt_of_bounds {x : ℤ} (h0 : -2147483648 ≤ x) (h1 : x < 2147483648) : toInt x = x := by
  unfold toInt
  omega

theorem toUnsigned_of_bounds {x : ℤ} (h0 : 0 ≤ x) (h1 : x < 4294967296) : toUnsigned x = x :=
  Int.emod_eq_of_lt h0 h1

/-! ### State -/

/-- `uid_t`. -/
abbrev Uid := ℤ

/-- The bytes of `secret_buf`. -/
abbrev Buf := Fin secretSize → UInt8

/-- `struct secret_state`. -/
structure State where
  openCounter : ℤ
  secretOwner : Uid
  hasOwner : ℤ
  secretBuf : Buf
  secretLen : ℤ
  readOffset : ℤ
  readFdOpened : ℤ

/-- The byte at offset `i` of the buffer. -/
def Buf.get (b : Buf) (i : ℕ) : UInt8 := if h : i < secretSize then b ⟨i, h⟩ else 0

/-- The buffer after `n` bytes of `data` were copied to offset `off`. -/
def Buf.write (b : Buf) (off n : ℕ) (data : ℕ → UInt8) : Buf :=
  fun i => if off ≤ i ∧ (i : ℕ) < off + n then data (i - off) else b i

theorem Buf.write_of_lt {b : Buf} {off n : ℕ} {data : ℕ → UInt8} {i : Fin secretSize}
    (h : (i : ℕ) < off) : b.write off n data i = b i := by
  unfold Buf.write
  rw [if_neg (by omega)]

/-- The state `reset_secret_state` leaves. -/
def resetState : State where
  openCounter := 0
  secretOwner := 0
  hasOwner := 0
  secretBuf := fun _ => 0
  secretLen := 0
  readOffset := 0
  readFdOpened := 0

/-- `reset_secret_state`: every field gets its reset value. -/
def resetSecretState (_ : State) : State := resetState

/-! ### What the kernel answers -/

/-- An error code: any value but `OK`. -/
abbrev Errno := { e : ℤ // e ≠ OK }

/-- The outcome of a safecopy: everything copied, or an error after `done` bytes. -/
inductive Copy
  | ok
  | err (e : Errno) (done : ℕ)

/-- The ioctl request numbers the driver tells apart. -/
inductive IoctlRequest
  | SSGRANT
  | other (code : ℤ)
  deriving DecidableEq

/-- The transfer opcodes the driver tells apart. -/
inductive Opcode
  | DEV_GATHER_S
  | DEV_SCATTER_S
  | other (code : ℤ)
  deriving DecidableEq

/-- What a callback gives back: the return value, the `iov_size` it leaves and the bytes it
delivered to the caller. -/
structure Reply where
  ret : ℤ
  iovSize : ℤ := 0
  delivered : List UInt8 := []
  deriving DecidableEq

/-! ### The callbacks -/

/-- The end of `secret_open`: count the descriptor and remember a read open. -/
def countOpen (mode : BitVec 32) (s : State) : State :=
  { s with
    openCounter := toInt (s.openCounter + 1)
    readFdOpened := if mode &&& rBit ≠ 0 then 1 else s.readFdOpened }

/-- `secret_open`: `cred` is what `getnucred` returned, `caller` the uid it filled in. -/
def secretOpen (mode : BitVec 32) (caller : Uid) (cred : ℤ) (s : State) : State × ℤ :=
  if mode &&& rBit ≠ 0 ∧ mode &&& wBit ≠ 0 then (s, EACCES)
  else if ¬ (mode &&& rBit ≠ 0 ∨ mode &&& wBit ≠ 0) then (s, EACCES)
  else if cred < 0 then (s, cred)
  else if s.hasOwner = 0 then
    (countOpen mode { s with hasOwner := 1, secretOwner := caller }, OK)
  else if mode &&& wBit ≠ 0 then (s, ENOSPC)
  else if mode &&& rBit ≠ 0 ∧ caller ≠ s.secretOwner then (s, EACCES)
  else (countOpen mode s, OK)

/-- `secret_close`: the last close after a read open clears the secret. -/
def secretClose (s : State) : State × ℤ :=
  let s1 := if 0 < s.openCounter then { s with openCounter := s.openCounter - 1 } else s
  if s1.openCounter = 0 ∧ s1.readFdOpened ≠ 0 then (resetSecretState s1, OK) else (s1, OK)

/-- `secret_ioctl`: `SSGRANT` copies the grantee in and makes it the owner. -/
def secretIoctl (request : IoctlRequest) (grantee : Except Errno Uid) (s : State) : State × ℤ :=
  match request with
  | .other _ => (s, ENOTTY)
  | .SSGRANT =>
    match grantee with
    | .ok uid => ({ s with secretOwner := uid }, OK)
    | .error e => (s, e)

/-- The `DEV_GATHER_S` arm of `secret_transfer`: a read. -/
def gather (iovSize : ℤ) (copy : Copy) (s : State) : State × Reply :=
  let left := toUnsigned (toInt (s.secretLen - s.readOffset))
  let bytes := toInt (if left < iovSize then left else iovSize)
  let out (n : ℕ) := (List.range n).map fun k => s.secretBuf.get (s.readOffset.toNat + k)
  if bytes ≤ 0 then (s, { ret := OK, iovSize })
  else
    match copy with
    | .ok =>
      ({ s with readOffset := toInt (s.readOffset + bytes) },
        { ret := OK, iovSize := toUnsigned (iovSize - bytes), delivered := out bytes.toNat })
    | .err e done =>
      (s, { ret := e, iovSize, delivered := out (min done bytes.toNat) })

/-- The `DEV_SCATTER_S` arm of `secret_transfer`: a write.  A copy that fails on the way leaves
its first bytes behind the secret. -/
def scatter (iovSize : ℤ) (data : ℕ → UInt8) (copy : Copy) (s : State) : State × Reply :=
  if iovSize = 0 then (s, { ret := OK, iovSize })
  else
    let spaceRemaining := toInt (secretSize - s.secretLen)
    if spaceRemaining ≤ 0 then (s, { ret := ENOSPC, iovSize })
    else
      let space := toUnsigned spaceRemaining
      let bytes := toInt (if space < iovSize then space else iovSize)
      match copy with
      | .ok =>
        ({ s with
            secretBuf := s.secretBuf.write s.secretLen.toNat bytes.toNat data
            secretLen := toInt (s.secretLen + bytes) },
          { ret := OK, iovSize := toUnsigned (iovSize - bytes) })
      | .err e done =>
        ({ s with
            secretBuf := s.secretBuf.write s.secretLen.toNat (min done bytes.toNat) data },
          { ret := e, iovSize })

/-- `secret_transfer` (the seek position is ignored and only the first `iov` is used). -/
def secretTransfer (opcode : Opcode) (iovSize : UInt32) (data : ℕ → UInt8) (copy : Copy)
    (s : State) : State × Reply :=
  match opcode with
  | .DEV_GATHER_S => gather iovSize.toNat copy s
  | .DEV_SCATTER_S => scatter iovSize.toNat data copy s
  | .other _ => (s, { ret := EINVAL, iovSize := iovSize.toNat })

end Csc453.Secret
