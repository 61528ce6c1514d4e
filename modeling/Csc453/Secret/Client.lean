import Csc453.Lib.Decimal
import Csc453.Secret.Delivery

/-!
# Csc453.Secret.Client — grant_secret.c at work

`Client` is a process running `main` of grant_secret.c, as far as it got, with what it has printed;
`Client.resume` is the code after a system call returned.  `desk` lets the client and any other
processes use the device in turn.  The file system keeps the others off the client's descriptor
and holds everybody to the mode of the open; every system call may fail before it reaches the driver,
and a descriptor that a failed `close` leaves open is closed when the process is gone.

`Posting` is what holds from the client's open on for as long as the device is not emptied.
Result: `grant_secret_posts`.
-/

namespace Csc453.Secret

open Transition

/-! ### The program -/

/-- `msg`. -/
def msg : List UInt8 := "Hello, world\n".toList.map fun c => UInt8.ofNat c.toNat

/-- `strlen(msg)`. -/
def msgLen : UInt32 := 13

/-- The process: its uid, its arguments, and what C leaves open, the value `atoi` has for a numeral
too large for an `int` and the `uid_t` an `int` becomes. -/
structure Args where
  uid : Uid
  argv : List (List Char)
  overflow : List Char → ℤ
  toUid : ℤ → Uid

def Args.atoi (a : Args) (str : List Char) : ℤ :=
  let scan := Decimal.strtol (-2147483648) 2147483647 str
  if scan.erange then a.overflow str else scan.value

/-- `argc > 1 && 0 != (uid = atoi(argv[1]))`. -/
def Args.grantee (a : Args) : Option Uid :=
  match a.argv[1]? with
  | none => none
  | some arg => if 0 ≠ a.toUid (a.atoi arg) then some (a.toUid (a.atoi arg)) else none

/-- Where the process is: before one of its system calls, out of `main` with its descriptor still open,
or gone. -/
inductive Pc
  | opening
  | writing
  | granting (uid : Uid)
  | closing
  | failing
  | leaving (code : ℕ)
  | exited (code : ℕ)
  deriving DecidableEq

/-- `return code` from `main`, after a `close` that has closed the descriptor or has not. -/
def Pc.return (shut : Bool) (code : ℕ) : Pc := if shut then .exited code else .leaving code

/-- A line of output. -/
inductive Line
  | opening (fd : ℤ)
  | writing (res : ℤ)
  | changing (uid : Uid) (res : ℤ)
  | closing (res : ℤ)
  | perror (call : String)
  deriving DecidableEq

/-- The format strings of the four `printf`s. -/
def Line.text (strerror : String) : Line → String
  | .opening fd => "Opening... fd=" ++ toString fd ++ "\n"
  | .writing res => "Writing... res=" ++ toString res ++ "\n"
  | .changing uid res =>
    "Trying to change owner to " ++ toString uid ++ "...res=" ++ toString res ++ "\n"
  | .closing res => "Closing... res=" ++ toString res ++ "\n"
  | .perror call => call ++ ": " ++ strerror ++ "\n"

/-- The process; `fd` is the place of its descriptor among the open ones. -/
structure Client where
  pc : Pc
  fd : ℕ
  output : List Line

/-- `main` from the return of a system call, with the value `res`, up to the next one.  A descriptor
that was opened stands at `place`, and `shut` says whether a `close` has closed it. -/
def Client.resume (a : Args) (res : ℤ) (place : ℕ) (shut : Bool) (c : Client) : Client :=
  match c.pc with
  | .opening =>
    if res < 0 then
      { c with pc := .exited 1, output := c.output ++ [.opening res, .perror "open"] }
    else { pc := .writing, fd := place, output := c.output ++ [.opening res] }
  | .writing =>
    if res < 0 then
      { c with pc := .failing, output := c.output ++ [.writing res, .perror "write"] }
    else
      match a.grantee with
      | some uid => { c with pc := .granting uid, output := c.output ++ [.writing res] }
      | none => { c with pc := .closing, output := c.output ++ [.writing res] }
  | .granting uid =>
    if res < 0 then
      { c with pc := .closing, output := c.output ++ [.perror "ioctl", .changing uid res] }
    else { c with pc := .closing, output := c.output ++ [.changing uid res] }
  | .closing =>
    if res < 0 then
      { c with pc := .return shut 1, output := c.output ++ [.closing res, .perror "close"] }
    else { c with pc := .return shut 0, output := c.output ++ [.closing res] }
  | .failing => { c with pc := .return shut 1 }
  | .leaving code => { c with pc := .exited code }
  | .exited _ => c

/-- The request the next system call makes of the driver, the last one at the exit of the process. -/
def Client.Calls (a : Args) (c : Client) (r : Request) : Prop :=
  match c.pc with
  | .opening => ∃ cred, r = .open a.uid wBit cred
  | .writing => ∃ copy, r = .transfer c.fd .DEV_SCATTER_S msgLen (fun i => msg.getD i 0) copy
  | .granting uid => ∃ grantee, (∀ u, grantee = .ok u → u = uid) ∧ r = .ioctl c.fd .SSGRANT grantee
  | .closing => r = .close c.fd
  | .failing => r = .close c.fd
  | .leaving _ => r = .close c.fd
  | .exited _ => False

/-- What the system call returns for the driver's reply: `-1`, or the descriptor's number, the bytes
written, or `0`.  A `close` may fail although it has closed. -/
def Client.Gets (c : Client) (rep : Reply) (res : ℤ) : Prop :=
  if rep.ret ≠ OK then res = -1
  else
    match c.pc with
    | .opening => 0 ≤ res
    | .writing => res = msgLen.toNat - rep.iovSize
    | .closing | .failing => res = 0 ∨ res = -1
    | _ => res = 0

/-- The calls that may fail without the driver: all of `main`. -/
def Pc.Fallible : Pc → Prop
  | .leaving _ | .exited _ => False
  | _ => True

/-- The process has the device open. -/
def Pc.Holds : Pc → Prop
  | .opening | .exited _ => False
  | _ => True

/-! ### The client among other processes -/

/-- The descriptor a request uses. -/
def Request.fd? : Request → Option ℕ
  | .open _ _ _ => none
  | .close fd | .ioctl fd _ _ | .transfer fd _ _ _ _ => some fd

/-- A transfer goes in the direction its descriptor was opened for. -/
def InMode (s : Sys) : Request → Prop
  | .transfer fd .DEV_GATHER_S _ _ _ => ∀ p, s.fds[fd]? = some p → p.mode &&& rBit ≠ 0
  | .transfer fd .DEV_SCATTER_S _ _ _ => ∀ p, s.fds[fd]? = some p → p.mode &&& wBit ≠ 0
  | _ => True

/-- Where the descriptor at `fd` is after the request. -/
def Request.shift (fd : ℕ) : Request → ℕ
  | .close other => if other < fd then fd - 1 else fd
  | _ => fd

/-- The driver with its open descriptors, and the client. -/
structure Desk where
  sys : Sys
  client : Client

/-- What happens next: a system call of the client, with the request it made and what it returned, or
a request of another process. -/
inductive Turn
  | client (call : Option (Request × Reply)) (res : ℤ)
  | other (r : Request) (rep : Reply)

inductive Desk.Step (a : Args) : Desk → Turn → Desk → Prop
  | client {d : Desk} {t : Sys} {r : Request} {rep : Reply} {res : ℤ} :
      d.client.Calls a r → serve d.sys r = some (t, rep) → d.client.Gets rep res →
      Desk.Step a d (.client (some (r, rep)) res) ⟨t, d.client.resume a res d.sys.fds.length true⟩
  | unserved {d : Desk} : d.client.pc.Fallible →
      Desk.Step a d (.client none (-1)) ⟨d.sys, d.client.resume a (-1) d.sys.fds.length false⟩
  | other {d : Desk} {t : Sys} {r : Request} {rep : Reply} :
      (d.client.pc.Holds → r.fd? ≠ some d.client.fd) → InMode d.sys r →
      serve d.sys r = some (t, rep) →
      Desk.Step a d (.other r rep) ⟨t, { d.client with fd := r.shift d.client.fd }⟩

/-- The client starts with the device closed or open for others. -/
def desk (a : Args) : System Desk Turn where
  init d := Reachable driver d.sys ∧ d.client = ⟨.opening, 0, []⟩
  step := Desk.Step a

abbrev DeskEvent := Event Desk Turn

/-- The bytes the other processes read. -/
def handedOut (h : List DeskEvent) : List UInt8 :=
  h.reverse.flatMap fun e =>
    match e.label with
    | .other (.transfer _ .DEV_GATHER_S _ _ _) rep => if rep.ret = OK then rep.delivered else []
    | _ => []

/-- Another process gives the secret away. -/
def GrantByOther (e : DeskEvent) : Prop :=
  ∃ fd uid rep, e.label = .other (.ioctl fd .SSGRANT (.ok uid)) rep

/-! ### What the client prints -/

/-- The lines about the grant. -/
inductive GrantLines (a : Args) : List Line → Prop
  | none : a.grantee = none → GrantLines a []
  | granted (g) : a.grantee = some g → GrantLines a [.changing g 0]
  | refused (g) : a.grantee = some g → GrantLines a [.perror "ioctl", .changing g (-1)]

/-- What the client has printed where it is, once its open has succeeded. -/
inductive Transcript (a : Args) : Pc → List Line → Prop
  | writing (n) : Transcript a .writing [.opening n]
  | granting (n g) : a.grantee = some g → Transcript a (.granting g) [.opening n, .writing 13]
  | closing (n lines) : GrantLines a lines →
      Transcript a .closing (.opening n :: .writing 13 :: lines)
  | failing (n) : Transcript a .failing [.opening n, .writing (-1), .perror "write"]
  | done (n lines) : GrantLines a lines →
      Transcript a (.exited 0) (.opening n :: .writing 13 :: (lines ++ [.closing 0]))
  | unclosed (shut n lines) : GrantLines a lines →
      Transcript a (.return shut 1) (.opening n :: .writing 13 :: (lines ++ [.closing (-1), .perror "close"]))
  | failed (shut n) : Transcript a (.return shut 1) [.opening n, .writing (-1), .perror "write"]

/-- The client has written its message. -/
def Client.Wrote (c : Client) : Prop := .writing 13 ∈ c.output

instance (c : Client) : Decidable c.Wrote := inferInstanceAs (Decidable (_ ∈ _))

/-- The client has given the device to `g`. -/
def Client.Gave (c : Client) (g : Uid) : Prop := .changing g 0 ∈ c.output

/-! ### From the open on -/

/-- What holds after the client's open and the turns `later`, unless the device was emptied. -/
structure Posting (a : Args) (later : List DeskEvent) (d : Desk) : Prop where
  inv : Inv d.sys
  owned : d.sys.drv.hasOwner ≠ 0
  transcript : Transcript a d.client.pc d.client.output
  holds : d.client.pc.Holds → d.client.fd < d.sys.fds.length
  writers : ∀ i p, d.sys.fds[i]? = some p → p.mode &&& wBit ≠ 0 → d.client.pc.Holds ∧ i = d.client.fd
  secret : d.sys.drv.secret = if d.client.Wrote then msg else []
  handed : handedOut later = d.sys.drv.secret.take d.sys.drv.readOffset.toNat
  owner : (∀ e ∈ later, ¬ GrantByOther e) →
    (∀ g, d.client.Gave g → d.sys.drv.secretOwner = g) ∧
      ((∀ g, ¬ d.client.Gave g) → d.sys.drv.secretOwner = a.uid)

theorem handedOut_cons (e : DeskEvent) (h : List DeskEvent) :
    handedOut (e :: h) = handedOut h ++ handedOut [e] := by
  simp [handedOut]

/-- The client's open, when it succeeds. -/
theorem posting_open {a : Args} {d d' : Desk} {turn : Turn} (hI : Inv d.sys)
    (hs : Desk.Step a d turn d') (hpc : d.client.pc = .opening) (hout : d.client.output = [])
    (hpost : d'.client.pc = .writing) : Posting a [] d' := by
  obtain ⟨s, pc, place, output⟩ := d
  dsimp only at hI hpc hout
  subst hpc hout
  cases hs with
  | other => cases hpost
  | unserved => cases hpost
  | @client t r rep res hcalls hserve hgets =>
    obtain ⟨cred, rfl⟩ := hcalls
    have hserved := served_of_serve hI hserve
    have hI' := hserved.inv hI
    have hres : 0 ≤ res := by
      by_contra hneg
      rw [Client.resume] at hpost
      dsimp only at hpost
      rw [if_pos (by omega)] at hpost
      cases hpost
    have hresume : Client.resume a res s.fds.length true ⟨.opening, place, []⟩ =
        ⟨.writing, s.fds.length, [.opening res]⟩ := if_neg (by omega)
    dsimp only at hserve hgets ⊢
    rw [hresume]
    cases hserved with
    | refused _ _ _ e =>
      have : res = -1 := (if_pos e.2).mp hgets
      omega
    | took _ _ _ hno hroom =>
      have hfds : s.fds = [] := by
        by_contra hne
        exact hI.owned (List.length_pos_iff.mpr hne) hno
      have hdrv := hI.cleared hno
      have hsecret : State.secret
          (countOpen wBit { s.drv with hasOwner := 1, secretOwner := a.uid }) = [] := by
        rw [hdrv]
        rfl
      refine ⟨hI', one_ne_zero, .writing res, fun _ => ?_, ?_, ?_, ?_, fun _ => ⟨?_, fun _ => rfl⟩⟩
      · show s.fds.length < (s.fds ++ [_]).length
        rw [List.length_append]
        exact Nat.lt_succ_self _
      · intro i p hp _
        dsimp only at hp ⊢
        rw [hfds] at hp ⊢
        cases i with
        | zero => exact ⟨trivial, rfl⟩
        | succ i => simp at hp
      · rw [hsecret, if_neg (by simp [Client.Wrote])]
      · rw [hsecret, List.take_nil]
        rfl
      · intro g hg
        simp [Client.Gave] at hg
    | reopened _ _ _ _ hw => exact absurd hw (by decide)

/-! ### One turn -/

/-- A turn that leaves the driver's secret, cursor and owner, and the client, as they are. -/
theorem Posting.quiet {a : Args} {later : List DeskEvent} {d : Desk} (hP : Posting a later d)
    {turn : Turn} {t : Sys} {place : ℕ} (hI : Inv t) (hown : t.drv.hasOwner ≠ 0)
    (hsecret : t.drv.secret = d.sys.drv.secret) (hoff : t.drv.readOffset = d.sys.drv.readOffset)
    (howner : t.drv.secretOwner = d.sys.drv.secretOwner)
    (hholds : d.client.pc.Holds → place < t.fds.length)
    (hwriters : ∀ i p, t.fds[i]? = some p → p.mode &&& wBit ≠ 0 → d.client.pc.Holds ∧ i = place)
    {d' : Desk} (hd' : d' = ⟨t, { d.client with fd := place }⟩)
    (hquiet : handedOut [⟨d, turn, d'⟩] = []) : Posting a (⟨d, turn, d'⟩ :: later) d' := by
  subst hd'
  refine ⟨hI, hown, hP.transcript, hholds, hwriters, hsecret.trans hP.secret, ?_, fun hothers => ?_⟩
  · rw [handedOut_cons, hquiet, List.append_nil, hsecret, hoff]
    exact hP.handed
  · show (∀ g, d.client.Gave g → t.drv.secretOwner = g) ∧
      ((∀ g, ¬ d.client.Gave g) → t.drv.secretOwner = a.uid)
    rw [howner]
    exact hP.owner fun e he => hothers e (List.mem_cons_of_mem _ he)

/-- A descriptor is found at its new place after another one was closed. -/
theorem getElem?_eraseIdx_shift {fds : List Fd} {n i : ℕ} {p : Fd}
    (hi : (fds.eraseIdx n)[i]? = some p) (fd : ℕ) :
    ∃ j, fds[j]? = some p ∧ j ≠ n ∧ (j = fd → i = (Request.close n).shift fd) := by
  rw [List.getElem?_eraseIdx] at hi
  unfold Request.shift
  split_ifs at hi with hlt
  · refine ⟨i, hi, by omega, fun h => ?_⟩
    dsimp only
    rw [if_neg (by omega)]
    exact h
  · refine ⟨i + 1, hi, by omega, fun h => ?_⟩
    dsimp only
    rw [if_pos (by omega)]
    omega

/-- A transfer of another process is a read. -/
theorem Posting.transfer {a : Args} {later : List DeskEvent} {d : Desk} (hP : Posting a later d)
    {t : Sys} {fd : ℕ} {opcode : Opcode} {iov : UInt32} {data : ℕ → UInt8} {copy : Copy} {rep : Reply}
    (hfd : d.client.pc.Holds → fd ≠ d.client.fd) (hmode : InMode d.sys (.transfer fd opcode iov data copy))
    (hserve : serve d.sys (.transfer fd opcode iov data copy) = some (t, rep)) :
    Posting a (⟨d, .other (.transfer fd opcode iov data copy) rep, ⟨t, d.client⟩⟩ :: later)
      ⟨t, d.client⟩ := by
  have hI' := (served_of_serve hP.inv hserve).inv hP.inv
  have hmoved := moved_of_serve hP.inv hserve
  have hlt : fd < d.sys.fds.length := by
    by_contra hno
    simp [serve, hno] at hserve
  -- nobody else has a descriptor to write on
  have hread : opcode ≠ .DEV_SCATTER_S := by
    rintro rfl
    have hp : d.sys.fds[fd]? = some d.sys.fds[fd] := List.getElem?_eq_getElem hlt
    obtain ⟨hholds, heq⟩ := hP.writers fd _ hp (hmode _ hp)
    exact hfd hholds heq
  cases hmoved with
  | read _ _ n hn =>
    have hnonneg := hP.inv.off_nonneg
    have hoff : (d.sys.drv.readOffset + n).toNat = d.sys.drv.readOffset.toNat + n := by omega
    refine ⟨hI', hP.owned, hP.transcript, hP.holds, hP.writers, hP.secret, ?_, fun hothers =>
      hP.owner fun e he => hothers e (List.mem_cons_of_mem _ he)⟩
    rw [handedOut_cons, hP.handed]
    show _ ++ handedOut [_] = d.sys.drv.secret.take (d.sys.drv.readOffset + n).toNat
    rw [hoff, List.take_add]
    simp [handedOut]
  | wrote => exact absurd rfl hread
  | full => exact absurd rfl hread
  | failed _ _ _ e done b _ hb _ hnone =>
    refine hP.quiet hI' hP.owned (secret_congr rfl hb) rfl rfl hP.holds hP.writers rfl ?_
    cases opcode with
    | DEV_GATHER_S => simpa [handedOut] using hnone
    | _ => simp [handedOut]
  | invalid code => exact hP.quiet hI' hP.owned rfl rfl rfl hP.holds hP.writers rfl (by simp [handedOut])

/-- **A request of another process.** -/
theorem Posting.other {a : Args} {later : List DeskEvent} {d : Desk} (hP : Posting a later d)
    {t : Sys} {r : Request} {rep : Reply} (hfd : d.client.pc.Holds → r.fd? ≠ some d.client.fd)
    (hmode : InMode d.sys r) (hserve : serve d.sys r = some (t, rep)) (hlife : t.drv.hasOwner ≠ 0) :
    Posting a (⟨d, .other r rep, ⟨t, { d.client with fd := r.shift d.client.fd }⟩⟩ :: later)
      ⟨t, { d.client with fd := r.shift d.client.fd }⟩ := by
  have hserved := served_of_serve hP.inv hserve
  have hI' := hserved.inv hP.inv
  by_cases htr : ∃ fd opcode iov data copy, r = .transfer fd opcode iov data copy
  · obtain ⟨fd, opcode, iov, data, copy, rfl⟩ := htr
    refine hP.transfer (fun hholds heq => ?_) hmode hserve
    rw [heq] at hfd
    exact hfd hholds rfl
  cases hserved with
  | refused =>
    exact hP.quiet hI' hP.owned rfl rfl rfl hP.holds hP.writers rfl (by simp [handedOut])
  | took _ _ _ hno => exact absurd hno hP.owned
  | reopened caller mode cred _ hw =>
    refine hP.quiet hI' hP.owned rfl rfl rfl (fun hholds => ?_) (fun i p hp hpw => ?_) rfl
      (by simp [handedOut])
    · rw [List.length_append]
      exact Nat.lt_add_right _ (hP.holds hholds)
    · by_cases hi : i < d.sys.fds.length
      · rw [List.getElem?_append_left hi] at hp
        exact hP.writers i p hp hpw
      · rw [List.getElem?_append_right (by omega)] at hp
        have hmem := List.mem_singleton.mp (List.mem_of_getElem? hp)
        rw [hmem] at hpw
        exact absurd hw hpw
  | lastClose => exact absurd rfl hlife
  | close fd hlt =>
    have hne : d.client.pc.Holds → fd ≠ d.client.fd := fun hholds heq => hfd hholds (congrArg some heq)
    refine hP.quiet hI' hP.owned rfl rfl rfl (fun hholds => ?_) (fun i p hp hpw => ?_) rfl
      (by simp [handedOut])
    · have := hP.holds hholds
      have := hne hholds
      unfold Request.shift
      dsimp only
      rw [List.length_eraseIdx, if_pos hlt]
      split_ifs
      all_goals omega
    · obtain ⟨j, hj, -, hshift⟩ := getElem?_eraseIdx_shift hp d.client.fd
      obtain ⟨hholds, heq⟩ := hP.writers j p hj hpw
      exact ⟨hholds, hshift heq⟩
  | granted fd uid =>
    refine ⟨hI', hP.owned, hP.transcript, hP.holds, hP.writers, hP.secret, ?_, fun hothers => ?_⟩
    · exact (handedOut_cons _ _).trans ((List.append_nil _).trans hP.handed)
    · exact absurd ⟨fd, uid, _, rfl⟩ (hothers _ List.mem_cons_self)
  | notGranted =>
    exact hP.quiet hI' hP.owned rfl rfl rfl hP.holds hP.writers rfl (by simp [handedOut])
  | noTransfer => exact absurd ⟨_, _, _, _, _, rfl⟩ htr
  | read => exact absurd ⟨_, _, _, _, _, rfl⟩ htr
  | wrote => exact absurd ⟨_, _, _, _, _, rfl⟩ htr
  | torn => exact absurd ⟨_, _, _, _, _, rfl⟩ htr

/-- The client's write to an empty device takes all of the message or fails. -/
theorem serve_write {s t : Sys} {rep : Reply} (hI : Inv s) (hempty : s.drv.secret = []) {fd : ℕ}
    {data : ℕ → UInt8} {copy : Copy}
    (h : serve s (.transfer fd .DEV_SCATTER_S msgLen data copy) = some (t, rep)) :
    (rep.ret = OK ∧ rep.iovSize = 0 ∧ t.drv.secret = (List.range 13).map data ∧
        t.drv.readOffset = s.drv.readOffset ∧ t.drv.secretOwner = s.drv.secretOwner ∧ t.fds = s.fds) ∨
      (rep.ret ≠ OK ∧ t.drv.secret = [] ∧ t.drv.readOffset = s.drv.readOffset ∧
        t.drv.secretOwner = s.drv.secretOwner ∧ t.fds = s.fds) := by
  have h0 := hI.off_nonneg
  have h1 := hI.off_le
  have hlen : s.drv.secretLen = 0 := by
    have := s.drv.secret_length
    rw [hempty, List.length_nil] at this
    omega
  have hlt : fd < s.fds.length := by
    by_contra hno
    simp [serve, hno] at h
  have hfull : ¬ s.drv.secretLen = secretSize := by
    rw [hlen]
    decide
  simp only [serve, if_pos hlt, secretTransfer, scatter_eq h0 h1 hI.len_le, if_neg hfull] at h
  rw [if_neg (by decide)] at h
  have hn : min (secretSize - s.drv.secretLen.toNat) msgLen.toNat = 13 := by
    rw [hlen]
    decide
  cases copy with
  | ok =>
    obtain ⟨rfl, rfl⟩ := Prod.mk.inj (Option.some.inj h)
    refine .inl ⟨rfl, ?_, ?_, rfl, rfl, rfl⟩
    · dsimp only
      rw [hn]
      decide
    · dsimp only
      rw [hn, secret_write data (by omega) (by rw [hlen]; decide), hempty]
      rfl
  | err e done =>
    obtain ⟨rfl, rfl⟩ := Prod.mk.inj (Option.some.inj h)
    refine .inr ⟨e.2, ?_, rfl, rfl, rfl⟩
    rw [← hempty]
    exact secret_congr rfl fun i hi => Buf.write_of_lt hi

/-- After the write: the client grants, or closes. -/
theorem resume_wrote (a : Args) (n : ℤ) (fd place : ℕ) (shut : Bool) :
    ∃ pc, Client.resume a 13 place shut ⟨.writing, fd, [.opening n]⟩ =
      ⟨pc, fd, [.opening n, .writing 13]⟩ ∧ pc.Holds ∧ Transcript a pc [.opening n, .writing 13] := by
  unfold Client.resume
  dsimp only
  rw [if_neg (by decide)]
  cases hg : a.grantee with
  | none => exact ⟨.closing, rfl, trivial, .closing n [] (.none hg)⟩
  | some g => exact ⟨.granting g, rfl, trivial, .granting n g hg⟩

/-- A turn of the client hands nothing out and is no grant by another process. -/
theorem Posting.later {a : Args} {later : List DeskEvent} {d : Desk} {e : DeskEvent}
    {call : Option (Request × Reply)} {res : ℤ} (hP : Posting a later d)
    (he : e.label = .client call res) : Posting a (e :: later) d := by
  refine ⟨hP.inv, hP.owned, hP.transcript, hP.holds, hP.writers, hP.secret, ?_, fun hothers =>
    hP.owner fun f hf => hothers f (List.mem_cons_of_mem _ hf)⟩
  rw [handedOut_cons, ← hP.handed]
  simp [handedOut, he]

/-- A turn after which the client still has the device open. -/
theorem Posting.keeps {a : Args} {later : List DeskEvent} {s t : Sys} {c : Client}
    (hP : Posting a later ⟨s, c⟩) {pc : Pc} {output : List Line} (hpc : c.pc.Holds) (hI : Inv t)
    (hlife : t.drv.hasOwner ≠ 0) (hfds : t.fds = s.fds) (hpc' : pc.Holds)
    (htr : Transcript a pc output)
    (hsecret : t.drv.secret = if Client.Wrote ⟨pc, c.fd, output⟩ then msg else [])
    (hhanded : s.drv.secret.take s.drv.readOffset.toNat = t.drv.secret.take t.drv.readOffset.toNat)
    (howner : (∀ e ∈ later, ¬ GrantByOther e) →
      (∀ g, Client.Gave ⟨pc, c.fd, output⟩ g → t.drv.secretOwner = g) ∧
        ((∀ g, ¬ Client.Gave ⟨pc, c.fd, output⟩ g) → t.drv.secretOwner = a.uid)) :
    Posting a later ⟨t, pc, c.fd, output⟩ := by
  refine ⟨hI, hlife, htr, fun _ => ?_, fun i p hp hpw => ?_, hsecret, hP.handed.trans hhanded, howner⟩
  · show c.fd < t.fds.length
    rw [hfds]
    exact hP.holds hpc
  · dsimp only at hp
    rw [hfds] at hp
    exact ⟨hpc', (hP.writers i p hp hpw).2⟩

/-- The write, when it fails. -/
theorem Posting.writeFailed {a : Args} {later : List DeskEvent} {s t : Sys} {n : ℤ} {fd : ℕ}
    (hP : Posting a later ⟨s, .writing, fd, [.opening n]⟩) (hI : Inv t) (hlife : t.drv.hasOwner ≠ 0)
    (hsecret : t.drv.secret = []) (hown : t.drv.secretOwner = s.drv.secretOwner) (hfds : t.fds = s.fds)
    (place : ℕ) (shut : Bool) :
    Posting a later ⟨t, Client.resume a (-1) place shut ⟨.writing, fd, [.opening n]⟩⟩ := by
  have hempty : s.drv.secret = [] := hP.secret.trans (if_neg (by simp [Client.Wrote]))
  refine hP.keeps trivial hI hlife hfds trivial (.failing n) ?_ ?_ fun hothers => ⟨?_, ?_⟩
  · rw [hsecret, if_neg (by simp [Client.Wrote])]
  · rw [hempty, hsecret, List.take_nil, List.take_nil]
  · intro g hg
    simp [Client.Gave] at hg
  · intro _
    rw [hown]
    exact (hP.owner hothers).2 (by simp [Client.Gave])

/-- The write. -/
theorem Posting.write {a : Args} {later : List DeskEvent} {s : Sys} {n : ℤ} {fd : ℕ}
    (hP : Posting a later ⟨s, .writing, fd, [.opening n]⟩) {t : Sys} {copy : Copy} {rep : Reply}
    {res : ℤ} {data : ℕ → UInt8} (hdata : (List.range 13).map data = msg)
    (hserve : serve s (.transfer fd .DEV_SCATTER_S msgLen data copy) = some (t, rep))
    (hgets : Client.Gets ⟨.writing, fd, [.opening n]⟩ rep res) (hlife : t.drv.hasOwner ≠ 0)
    (place : ℕ) (shut : Bool) :
    Posting a later ⟨t, Client.resume a res place shut ⟨.writing, fd, [.opening n]⟩⟩ := by
  have hI' := (served_of_serve hP.inv hserve).inv hP.inv
  have hempty : s.drv.secret = [] := hP.secret.trans (if_neg (by simp [Client.Wrote]))
  rcases serve_write hP.inv hempty hserve with ⟨hret, hiov, hsecret, hoff, hown, hfds⟩ |
    ⟨hret, hsecret, -, hown, hfds⟩
  · obtain rfl : res = 13 := by
      have hgets := (if_neg (not_not.mpr hret)).mp hgets
      dsimp only at hgets
      rw [hgets, hiov]
      rfl
    obtain ⟨pc, hresume, hpc, htr⟩ := resume_wrote a n fd place shut
    rw [hresume]
    have hstart : s.drv.readOffset.toNat = 0 := by
      have h0 : 0 ≤ s.drv.readOffset := hP.inv.off_nonneg
      have h1 : s.drv.readOffset ≤ s.drv.secretLen := hP.inv.off_le
      have := s.drv.secret_length
      rw [hempty, List.length_nil] at this
      omega
    refine hP.keeps trivial hI' hlife hfds hpc htr ?_ ?_ fun hothers => ⟨?_, ?_⟩
    · rw [hsecret, hdata, if_pos (by simp [Client.Wrote])]
    · rw [hoff, hstart]
      rfl
    · intro g hg
      simp [Client.Gave] at hg
    · intro _
      rw [hown]
      exact (hP.owner hothers).2 (by simp [Client.Gave])
  · obtain rfl : res = -1 := (if_pos hret).mp hgets
    exact hP.writeFailed hI' hlife hsecret hown hfds place shut

/-- The grant, when it fails. -/
theorem Posting.grantFailed {a : Args} {later : List DeskEvent} {s : Sys} {n : ℤ} {g : Uid} {fd : ℕ}
    (hP : Posting a later ⟨s, .granting g, fd, [.opening n, .writing 13]⟩) (hg : a.grantee = some g)
    (place : ℕ) (shut : Bool) :
    Posting a later ⟨s, Client.resume a (-1) place shut ⟨.granting g, fd, [.opening n, .writing 13]⟩⟩ := by
  refine hP.keeps trivial hP.inv hP.owned rfl trivial
    (.closing n _ (.refused g hg)) ?_ rfl fun hothers => ⟨?_, ?_⟩
  · exact hP.secret.trans ((if_pos (by simp [Client.Wrote])).trans (if_pos (by simp [Client.Wrote])).symm)
  · intro g' hg'
    simp [Client.Gave] at hg'
  · intro _
    exact (hP.owner hothers).2 (by simp [Client.Gave])

/-- The grant. -/
theorem Posting.grant {a : Args} {later : List DeskEvent} {s : Sys} {n : ℤ} {g : Uid} {fd : ℕ}
    (hP : Posting a later ⟨s, .granting g, fd, [.opening n, .writing 13]⟩) (hg : a.grantee = some g)
    {t : Sys} {rep : Reply} {res : ℤ} {grantee : Except Errno Uid} (hgrantee : ∀ u, grantee = .ok u → u = g)
    (hserve : serve s (.ioctl fd .SSGRANT grantee) = some (t, rep))
    (hgets : Client.Gets ⟨.granting g, fd, [.opening n, .writing 13]⟩ rep res) (place : ℕ) (shut : Bool) :
    Posting a later ⟨t, Client.resume a res place shut ⟨.granting g, fd, [.opening n, .writing 13]⟩⟩ := by
  have hserved := served_of_serve hP.inv hserve
  have hI' := hserved.inv hP.inv
  cases hserved with
  | granted _ uid =>
    obtain rfl := hgrantee uid rfl
    obtain rfl : res = 0 := (if_neg (not_not.mpr rfl)).mp hgets
    refine hP.keeps trivial hI' hP.owned rfl trivial
      (.closing n _ (.granted uid hg)) ?_ rfl fun hothers => ⟨?_, ?_⟩
    · exact hP.secret.trans
        ((if_pos (by simp [Client.Wrote])).trans (if_pos (by simp [Client.Wrote])).symm)
    · intro g' hg'
      simpa [Client.Gave, eq_comm] using hg'
    · intro hnone
      exact absurd (by simp [Client.Gave]) (hnone uid)
  | notGranted _ _ _ e =>
    obtain rfl : res = -1 := (if_pos e.2).mp hgets
    exact hP.grantFailed hg place shut

theorem serve_close {s t : Sys} {fd : ℕ} {rep : Reply} (h : serve s (.close fd) = some (t, rep)) :
    rep.ret = OK := by
  unfold serve at h
  dsimp only at h
  obtain ⟨_, h⟩ := Option.ite_none_right_eq_some.mp h
  rw [← (Prod.mk.inj (Option.some.inj h)).2]
  unfold secretClose
  dsimp only
  split_ifs <;> rfl

/-- The close: what was printed before it says the same about the message and the grant. -/
theorem Posting.close {a : Args} {later : List DeskEvent} {s : Sys} {c : Client}
    (hP : Posting a later ⟨s, c⟩) {t : Sys} {rep : Reply} {pc : Pc} {output : List Line}
    (hserve : serve s (.close c.fd) = some (t, rep)) (hlife : t.drv.hasOwner ≠ 0)
    (htr : Transcript a pc output) (hpc : ¬ pc.Holds)
    (hwrote : Client.Wrote ⟨pc, c.fd, output⟩ ↔ c.Wrote)
    (hgave : ∀ g, Client.Gave ⟨pc, c.fd, output⟩ g ↔ c.Gave g) : Posting a later ⟨t, pc, c.fd, output⟩ := by
  have hserved := served_of_serve hP.inv hserve
  have hI' := hserved.inv hP.inv
  cases hserved with
  | lastClose => exact absurd rfl hlife
  | close =>
    refine ⟨hI', hP.owned, htr, fun hholds => absurd hholds hpc, fun i p hp hpw => ?_, ?_, hP.handed,
      fun hothers => ?_⟩
    · obtain ⟨j, hj, hne, -⟩ := getElem?_eraseIdx_shift hp c.fd
      exact absurd (hP.writers j p hj hpw).2 hne
    · refine hP.secret.trans (if_congr ?_ rfl rfl)
      exact hwrote.symm
    · simp only [hgave]
      exact hP.owner hothers

/-- A close that leaves the descriptor open: the process is to go with it. -/
theorem Posting.unclosed {a : Args} {later : List DeskEvent} {s : Sys} {c : Client}
    (hP : Posting a later ⟨s, c⟩) {output : List Line} (hpc : c.pc.Holds)
    (htr : Transcript a (.leaving 1) output) (hwrote : Client.Wrote ⟨.leaving 1, c.fd, output⟩ ↔ c.Wrote)
    (hgave : ∀ g, Client.Gave ⟨.leaving 1, c.fd, output⟩ g ↔ c.Gave g) :
    Posting a later ⟨s, .leaving 1, c.fd, output⟩ := by
  refine hP.keeps hpc hP.inv hP.owned rfl trivial htr (hP.secret.trans (if_congr ?_ rfl rfl)) rfl
    fun hothers => ?_
  · exact hwrote.symm
  · simp only [hgave]
    exact hP.owner hothers

/-- **A system call of the client.** -/
theorem Posting.client {a : Args} {later : List DeskEvent} {d : Desk} (hP : Posting a later d)
    {t : Sys} {r : Request} {rep : Reply} {res : ℤ} (hcalls : d.client.Calls a r)
    (hserve : serve d.sys r = some (t, rep)) (hgets : d.client.Gets rep res)
    (hlife : t.drv.hasOwner ≠ 0) (place : ℕ) :
    Posting a later ⟨t, d.client.resume a res place true⟩ := by
  have htr := hP.transcript
  obtain ⟨s, pc, fd, output⟩ := d
  dsimp only at hcalls hserve hgets htr ⊢
  cases htr with
  | writing n =>
    obtain ⟨copy, rfl⟩ := hcalls
    exact hP.write (by decide) hserve hgets hlife place true
  | granting n g hg =>
    obtain ⟨grantee, hgrantee, rfl⟩ := hcalls
    exact hP.grant hg hgrantee hserve hgets place true
  | closing n lines hlines =>
    obtain rfl := hcalls
    have hgets := (if_neg (not_not.mpr (serve_close hserve))).mp hgets
    dsimp only at hgets
    rcases hgets with rfl | rfl
    · exact hP.close hserve hlife (.done n lines hlines) id (by simp [Client.Wrote])
        (by simp [Client.Gave])
    · exact hP.close hserve hlife (.unclosed true n lines hlines) id (by simp [Client.Wrote])
        (by simp [Client.Gave])
  | failing n =>
    obtain rfl := hcalls
    exact hP.close hserve hlife (.failed true n) id Iff.rfl fun _ => Iff.rfl
  | done => exact hcalls.elim
  | unclosed shut n lines hlines =>
    cases shut with
    | true => exact hcalls.elim
    | false =>
      obtain rfl := hcalls
      exact hP.close hserve hlife (.unclosed true n lines hlines) id Iff.rfl fun _ => Iff.rfl
  | failed shut n =>
    cases shut with
    | true => exact hcalls.elim
    | false =>
      obtain rfl := hcalls
      exact hP.close hserve hlife (.failed true n) id Iff.rfl fun _ => Iff.rfl

/-- **A system call that fails before it reaches the driver.** -/
theorem Posting.unserved {a : Args} {later : List DeskEvent} {d : Desk} (hP : Posting a later d)
    (hpc : d.client.pc.Fallible) (place : ℕ) :
    Posting a later ⟨d.sys, d.client.resume a (-1) place false⟩ := by
  have htr := hP.transcript
  obtain ⟨s, pc, fd, output⟩ := d
  dsimp only at hpc htr ⊢
  cases htr with
  | writing n =>
    have hempty : s.drv.secret = [] := hP.secret.trans (if_neg (by simp [Client.Wrote]))
    exact hP.writeFailed hP.inv hP.owned hempty rfl rfl place false
  | granting n g hg => exact hP.grantFailed hg place false
  | closing n lines hlines =>
    exact hP.unclosed trivial (.unclosed false n lines hlines) (by simp [Client.Wrote])
      (by simp [Client.Gave])
  | failing n => exact hP.unclosed trivial (.failed false n) Iff.rfl fun _ => Iff.rfl
  | done => exact hpc.elim
  | unclosed shut => cases shut <;> exact hpc.elim
  | failed shut => cases shut <;> exact hpc.elim

/-! ### Runs -/

theorem Desk.Step.inv {a : Args} {d d' : Desk} {turn : Turn} (hs : Desk.Step a d turn d')
    (hI : Inv d.sys) : Inv d'.sys := by
  cases hs with
  | client _ hserve => exact (served_of_serve hI hserve).inv hI
  | unserved => exact hI
  | other _ _ hserve => exact (served_of_serve hI hserve).inv hI

theorem resume_ne_opening (a : Args) (res : ℤ) (place : ℕ) (shut : Bool) (c : Client) :
    (c.resume a res place shut).pc ≠ .opening := by
  have hreturn : ∀ code, Pc.return shut code ≠ .opening := fun code => by cases shut <;> simp [Pc.return]
  unfold Client.resume
  split
  · split_ifs <;> simp
  · split_ifs
    · simp
    · cases a.grantee <;> simp
  · split_ifs <;> simp
  · split_ifs <;> exact hreturn _
  · exact hreturn _
  · simp
  · next h => simp [h]

/-- A client before its open has printed nothing. -/
theorem desk_run {a : Args} {h : List DeskEvent} {d : Desk} (hr : Run (desk a) h d) :
    Inv d.sys ∧ (d.client.pc = .opening → d.client.output = []) := by
  refine Reachable.invariant (I := fun d => Inv d.sys ∧ (d.client.pc = .opening → d.client.output = []))
    ?_ ?_ hr.reachable
  · rintro d ⟨hreach, hclient⟩
    exact ⟨reachable_inv hreach, fun _ => congrArg Client.output hclient⟩
  · rintro d turn d' ⟨hI, hout⟩ hs
    refine ⟨Desk.Step.inv hs hI, ?_⟩
    cases hs with
    | client => exact fun h => absurd h (resume_ne_opening _ _ _ _ _)
    | unserved => exact fun h => absurd h (resume_ne_opening _ _ _ _ _)
    | other => exact hout

/-- `Posting` holds from the client's open on. -/
theorem desk_posting {a : Args} {later earlier : List DeskEvent} {e : DeskEvent} {d : Desk}
    (hr : Run (desk a) (later ++ e :: earlier) d) (hpre : e.pre.client.pc = .opening)
    (hpost : e.post.client.pc = .writing) (hlife : ∀ f ∈ later, f.post.sys.drv.hasOwner ≠ 0) :
    Posting a later d := by
  induction later generalizing d with
  | nil =>
    obtain ⟨hbefore, hs, rfl⟩ := hr.tail
    obtain ⟨hI, hout⟩ := desk_run hbefore
    exact posting_open hI hs hpre (hout hpre) hpost
  | cons f later ih =>
    obtain ⟨hbefore, hs, rfl⟩ := hr.tail
    have hP := ih hbefore fun f hf => hlife f (List.mem_cons_of_mem _ hf)
    have hf := hlife f List.mem_cons_self
    obtain ⟨d, turn, d'⟩ := f
    dsimp only at hs hf hP ⊢
    have hs : Desk.Step a d turn d' := hs
    cases hs with
    | client hcalls hserve hgets => exact (hP.client hcalls hserve hgets hf _).later rfl
    | unserved hpc => exact (hP.unserved hpc _).later rfl
    | other hfd hmode hserve => exact hP.other hfd hmode hserve hf

/-! ### The grantee comes -/

/-- The grantee finds the device closed, with the whole message in it and nobody else let in. -/
structure HandedOver (g : Uid) (s : Sys) : Prop where
  shut : ∀ caller mode cred, caller ≠ g ∨ mode &&& wBit ≠ 0 →
    ∃ e : Errno, serve s (.open caller mode cred) = some (s, { ret := e })
  session : ∀ (cred : ℤ) (iov : UInt32) data, 0 ≤ cred → 13 ≤ iov.toNat → ∃ t u,
    serve s (.open g rBit cred) = some (t, { ret := OK }) ∧
      serve t (.transfer 0 .DEV_GATHER_S iov data .ok) =
        some (u, { ret := OK, iovSize := (iov.toNat : ℤ) - 13, delivered := msg }) ∧
      serve u (.close 0) = some (⟨resetState, []⟩, { ret := OK })

theorem handedOver {s : Sys} {g : Uid} (hI : Inv s) (hown : s.drv.hasOwner ≠ 0)
    (howner : s.drv.secretOwner = g) (hfds : s.fds = []) (hsecret : s.drv.secret = msg)
    (hoff : s.drv.readOffset = 0) : HandedOver g s := by
  have hroom : s.fds.length < intMax := by
    rw [hfds]
    decide
  refine ⟨fun caller mode cred hstranger => ?_, fun cred iov data hcred hiov => ?_⟩
  · rcases secretOpen_cases mode caller cred s.drv with ⟨e, he⟩ | ⟨hno, -⟩ | ⟨-, hw, -, hcaller, -⟩
    · refine ⟨e, ?_⟩
      simp only [serve, if_pos hroom, he, if_neg e.2]
    · exact absurd hno hown
    · exact absurd hstranger (not_or.mpr ⟨not_not.mpr (hcaller.trans howner), not_not.mpr hw⟩)
  have hlen : s.drv.secretLen = 13 := by
    have h0 := hI.off_nonneg
    have h1 := hI.off_le
    have hmsg : msg.length = 13 := by decide
    have := s.drv.secret_length
    rw [hsecret, hmsg] at this
    omega
  have hcounter : (countOpen rBit s.drv).openCounter = (0 + 1 : ℕ) := by
    refine countOpen_counter (by decide) ?_
    rw [hI.count, hfds]
    rfl
  have hopen : secretOpen rBit g cred s.drv = (countOpen rBit s.drv, OK) := by
    unfold secretOpen
    rw [if_neg (by decide), if_neg (by decide), if_neg (by omega), if_neg hown, if_neg (by decide),
      if_neg fun h => h.2 howner.symm]
  have hgather : gather iov.toNat .ok (countOpen rBit s.drv) =
      ({ countOpen rBit s.drv with readOffset := 13 },
        { ret := OK, iovSize := (iov.toNat : ℤ) - 13, delivered := msg }) := by
    have hn : min ((countOpen rBit s.drv).secretLen - (countOpen rBit s.drv).readOffset).toNat
        iov.toNat = 13 := by
      show min (s.drv.secretLen - s.drv.readOffset).toNat iov.toNat = 13
      rw [hlen, hoff]
      omega
    have hout : (List.range 13).map (fun i => (countOpen rBit s.drv).secretBuf.get
        ((countOpen rBit s.drv).readOffset.toNat + i)) = msg := by
      rw [secret_slice (s := countOpen rBit s.drv) (n := 13) ?_]
      · show (s.drv.secret.drop s.drv.readOffset.toNat).take 13 = msg
        rw [hsecret, hoff]
        decide
      · show s.drv.readOffset.toNat + 13 ≤ s.drv.secretLen.toNat
        rw [hlen, hoff]
        decide
    have hnext : (countOpen rBit s.drv).readOffset + (13 : ℕ) = 13 := by
      show s.drv.readOffset + 13 = 13
      rw [hoff]
      rfl
    rw [gather_eq (s := countOpen rBit s.drv) hI.off_nonneg hI.off_le hI.len_le]
    dsimp only
    rw [hn, if_neg (by decide), hout, hnext]
    rfl
  refine ⟨⟨countOpen rBit s.drv, [⟨g, rBit⟩]⟩,
    ⟨{ countOpen rBit s.drv with readOffset := 13 }, [⟨g, rBit⟩]⟩, ?_, ?_, ?_⟩
  · simp only [serve, hopen, hfds]
    rfl
  · simp only [serve, secretTransfer, hgather]
    rfl
  · have hread : (countOpen rBit s.drv).readFdOpened ≠ 0 := by
      show (if rBit &&& rBit ≠ 0 then (1 : ℤ) else s.drv.readFdOpened) ≠ 0
      rw [if_pos (by decide)]
      exact one_ne_zero
    rcases secretClose_cases (s := { countOpen rBit s.drv with readOffset := 13 }) hcounter with
      ⟨-, -, hclose⟩ | ⟨hnot, -⟩
    · simp only [serve, hclose]
      rfl
    · exact absurd hnot (not_or.mpr ⟨not_not.mpr rfl, hread⟩)

/-! ### What the client is worth -/

/-- What a run owes after the client's open and the turns `later`. -/
structure Posted (a : Args) (later : List DeskEvent) (d : Desk) : Prop where
  transcript : Transcript a d.client.pc d.client.output
  exit : ∀ code, d.client.pc = .exited code →
    (code = 0 ∧ d.client.Wrote ∧ .closing 0 ∈ d.client.output) ∨
      (code = 1 ∧ (¬ d.client.Wrote ∨ .perror "close" ∈ d.client.output))
  intact : handedOut later <+: if d.client.Wrote then msg else []
  owner : (∀ e ∈ later, ¬ GrantByOther e) →
    (∀ g, d.client.Gave g → d.sys.drv.secretOwner = g) ∧
      ((∀ g, ¬ d.client.Gave g) → d.sys.drv.secretOwner = a.uid)
  handover : ∀ g, d.client.Gave g → (∀ e ∈ later, ¬ GrantByOther e) → d.sys.fds = [] →
    handedOut later = [] → HandedOver g d.sys

theorem Transcript.exit {a : Args} {c : Client} {code : ℕ} (ht : Transcript a c.pc c.output)
    (hpc : c.pc = .exited code) :
    (code = 0 ∧ c.Wrote ∧ .closing 0 ∈ c.output) ∨
      (code = 1 ∧ (¬ c.Wrote ∨ .perror "close" ∈ c.output)) := by
  unfold Client.Wrote
  generalize c.pc = pc at ht hpc
  generalize c.output = output at ht
  cases ht with
  | done =>
    cases hpc
    simp
  | unclosed shut =>
    cases shut with
    | true =>
      cases hpc
      simp
    | false => cases hpc
  | failed shut =>
    cases shut with
    | true =>
      cases hpc
      simp
    | false => cases hpc
  | _ => cases hpc

/-- Nothing is granted before the message is written. -/
theorem Transcript.wrote_of_gave {a : Args} {c : Client} {g : Uid} (ht : Transcript a c.pc c.output)
    (hg : c.Gave g) : c.Wrote := by
  unfold Client.Gave at hg
  unfold Client.Wrote
  generalize c.pc = pc at ht
  generalize c.output = output at ht hg ⊢
  cases ht <;> simp at hg ⊢

/-- **grant_secret posts its message**: from its open on and until the device is emptied, whatever
other processes do and whatever fails, the client prints one of the transcripts of the program and
exits accordingly, all that is read is its message from the beginning, the device belongs to it and
then to the grantee, and a grantee that comes to a device nobody has read gets the whole message. -/
theorem grant_secret_posts {a : Args} {later earlier : List DeskEvent} {e : DeskEvent} {d : Desk}
    (hr : Run (desk a) (later ++ e :: earlier) d) (hpre : e.pre.client.pc = .opening)
    (hpost : e.post.client.pc = .writing) (hlife : ∀ f ∈ later, f.post.sys.drv.hasOwner ≠ 0) :
    Posted a later d := by
  have hP := desk_posting hr hpre hpost hlife
  refine ⟨hP.transcript, fun _ => hP.transcript.exit, ?_, hP.owner, fun g hgave hothers hfds hnone => ?_⟩
  · rw [hP.handed, ← hP.secret]
    exact List.take_prefix _ _
  · have hsecret : d.sys.drv.secret = msg := hP.secret.trans (if_pos (hP.transcript.wrote_of_gave hgave))
    have hoff : d.sys.drv.readOffset = 0 := by
      have htake := hP.handed.symm.trans hnone
      rw [hsecret, List.take_eq_nil_iff] at htake
      have := hP.inv.off_nonneg
      have hne : msg ≠ [] := by decide
      have := htake.resolve_right hne
      omega
    exact handedOver hP.inv hP.owned ((hP.owner hothers).1 g hgave) hfds hsecret hoff

/-- Uid 7 runs `grant_secret 8`. -/
def grant8 : Args := ⟨7, ["grant_secret".toList, "8".toList], fun _ => 0, id⟩

/-- A system call that makes the request `r` and returns `res`. -/
def calling (d : Desk) (r : Request) (res : ℤ) : DeskEvent :=
  let p := (serve d.sys r).getD (d.sys, { ret := OK })
  ⟨d, .client (some (r, p.2)) res, ⟨p.1, d.client.resume grant8 res d.sys.fds.length true⟩⟩

/-- The four system calls of the run, each after those before it. -/
def opens8 : DeskEvent := calling ⟨⟨resetState, []⟩, .opening, 0, []⟩ (.open 7 wBit 0) 3

def writes8 : DeskEvent :=
  calling opens8.post (.transfer 0 .DEV_SCATTER_S msgLen (fun i => msg.getD i 0) .ok) 13

def grants8 : DeskEvent := calling writes8.post (.ioctl 0 .SSGRANT (.ok 8)) 0

def closes8 : DeskEvent := calling grants8.post (.close 0) 0

theorem grant_secret_posts_grant8 :
    closes8.post.client.pc = .exited 0 ∧ Posted grant8 [closes8, grants8, writes8] closes8.post := by
  have hopen : Run (desk grant8) [opens8] opens8.post :=
    .step (.init ⟨.init rfl, rfl⟩) (.client ⟨0, rfl⟩ rfl ((if_neg (not_not.mpr rfl)).mpr (by decide)))
  have hwrite : Run (desk grant8) [writes8, opens8] writes8.post :=
    hopen.step (.client ⟨.ok, rfl⟩ rfl ((if_neg (not_not.mpr rfl)).mpr rfl))
  have hgrant : Run (desk grant8) [grants8, writes8, opens8] grants8.post :=
    hwrite.step (.client ⟨.ok 8, fun _ hu => (Except.ok.inj hu).symm, rfl⟩ rfl
      ((if_neg (not_not.mpr rfl)).mpr rfl))
  have hclose : Run (desk grant8) ([closes8, grants8, writes8] ++ opens8 :: []) closes8.post :=
    hgrant.step (.client rfl rfl ((if_neg (not_not.mpr rfl)).mpr (.inl rfl)))
  refine ⟨rfl, grant_secret_posts hclose rfl rfl ?_⟩
  simp only [List.forall_mem_cons, List.not_mem_nil, false_implies, implies_true, and_true]
  exact ⟨by decide, by decide, by decide⟩

end Csc453.Secret
