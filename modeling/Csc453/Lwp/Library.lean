import Csc453.Lwp.Scheduler
import Csc453.Lib.Transition

/-!
# Csc453.Lwp.Library — the LWP library (Asgn2/lwp.c)

A call into the library runs until user code runs again, in the calling thread or in another one.
`swap_rfiles` saves where a thread is to go on: `Resume` names the places, and `continueAt` runs the
library code after them, which for a thread that blocked in `lwp_wait` is the second half of
`lwp_wait`.  What the system answers (`malloc`, `mmap`, `munmap`, the limits) is an `Env`; `exit` is
set once `exit(3)` is called.  Functions with a loop over a queue return `none` if it does not end.

`log` is a ghost history of the run, newest first.  The debug messages are left out.
-/

namespace Csc453.Lwp

open Function LinkedQueue Transition

abbrev Tid := Word

def NO_THREAD : Tid := 0

def FIRST_TID : Tid := 1

def DEFAULT_STACK_SIZE : Word := 8 * 1024 * 1024

def RLIM_INFINITY : Word := BitVec.allOnes 64

/-! ### Termination status (lwp.h) -/

/-- An `int` or `unsigned int`. -/
abbrev Status := BitVec 32

def TERMOFFSET : ℕ := 8

def LWP_TERM : Status := 1

def LWP_LIVE : Status := 0

def mkTermStat (a b : Status) : Status := a <<< TERMOFFSET ||| b &&& (1 <<< TERMOFFSET - 1)

def lwpTerminated (s : Status) : Bool := (s >>> TERMOFFSET) &&& LWP_TERM = LWP_TERM

def lwpTermStat (s : Status) : Status := s &&& (1 <<< TERMOFFSET - 1)

/-! ### The state -/

/-- Where a thread goes on: at `lwp_wrap` with the two arguments `lwp_create` put into `rdi` and
`rsi`, in user code, or behind the `lwp_yield` of `lwp_wait` or `lwp_exit`.  For `lwp_wait` the flag
says whether its `status` argument is not `NULL`. -/
inductive Resume
  | wrap (function argument : Word)
  | user
  | wait (status : Bool)
  | exit

/-- The fields of `context` besides the links. -/
structure Context where
  tid : Tid
  stack : Word
  stacksize : Word
  state : Resume
  status : Status
  exited : Ptr

/-- How `exit(3)` was reached: in `lwp_yield` with this status, or with `EXIT_FAILURE`. -/
inductive Exit
  | yielded (status : Status)
  | failed

/-- What the history records: a tid was assigned; a thread was admitted; `lwp_create` returned; a
thread called `lwp_exit` and woke a thread (or `NULL`); `lwp_wait` returned, called with a `status`
argument that is not `NULL` if `asked`, and stored `status` there; a stack was unmapped and a context
freed, while `curr` was the current thread. -/
inductive Event
  | assigned (tid : Tid)
  | created (t : Ptr)
  | made (tid : Tid)
  | exited (t : Ptr) (tid : Tid) (status : Status) (woken : Ptr)
  | returned (t : Ptr) (tid : Tid) (asked : Bool) (status : Option Status) (blocked : Bool)
  | unmapped (t : Ptr) (tid : Tid) (curr : Ptr)
  | freed (t : Ptr) (tid : Tid) (stack : Word) (curr : Ptr)

/-- The contexts and the plain static variables. -/
structure Core (ι : Type) where
  ctx : Ptr → Context
  used : Ptr → Bool
  currentScheduler : Option (SchedulerPtr ι)
  currThread : Ptr
  currTid : Tid
  exit : Option Exit
  log : List Event

namespace Core

variable {ι : Type}

def record (ev : Event) (c : Core ι) : Core ι := { c with log := ev :: c.log }

def setCtx (t : Ptr) (x : Context) (c : Core ι) : Core ι := { c with ctx := update c.ctx t x }

def setState (t : Ptr) (k : Resume) (c : Core ι) : Core ι := c.setCtx t { c.ctx t with state := k }

def setStatus (t : Ptr) (v : Status) (c : Core ι) : Core ι := c.setCtx t { c.ctx t with status := v }

def setExited (t x : Ptr) (c : Core ι) : Core ι := c.setCtx t { c.ctx t with exited := x }

def setCurr (t : Ptr) (c : Core ι) : Core ι := { c with currThread := t }

def exitProcess (x : Exit) (c : Core ι) : Core ι := { c with exit := some x }

/-- `malloc` returned the context `t`. -/
def malloc (t : Ptr) (c : Core ι) : Core ι := { c with used := update c.used t true }

def free (t : Ptr) (c : Core ι) : Core ι := { c with used := update c.used t false }

/-- `munmap` of the stack, if there is one, and `free` of the context. -/
def discard (t : Ptr) (c : Core ι) : Core ι :=
  let x := c.ctx t
  let c := if x.stack ≠ 0 then c.record (.unmapped t x.tid c.currThread) else c
  (c.free t).record (.freed t x.tid x.stack c.currThread)

/-- `assign_tid`; the tid is the old `curr_tid`. -/
def assignTid (c : Core ι) : Core ι :=
  { c with currTid := c.currTid + 1, log := .assigned c.currTid :: c.log }

/-- `lwp_get_scheduler`, with `RoundRobin` for `NULL`. -/
def schedulerInUse (c : Core ι) : SchedulerPtr ι := c.currentScheduler.getD .RoundRobin

def setScheduler (k : SchedulerPtr ι) (c : Core ι) : Core ι := { c with currentScheduler := some k }

/-- `NULL` is replaced by `RoundRobin`, which is not initialised again. -/
def useScheduler (c : Core ι) : Core ι := c.setScheduler c.schedulerInUse

section Fields

variable (c : Core ι) (t s x : Ptr) (k : Resume) (v : Status) (y : Context)

theorem setCtx_ctx : (c.setCtx t y).ctx s = if s = t then y else c.ctx s := update_apply ..

/-- A field that the new context has as the old one is unchanged everywhere. -/
theorem setCtx_kept {α : Type*} (get : Context → α) (h : get y = get (c.ctx t)) :
    get ((c.setCtx t y).ctx s) = get (c.ctx s) := by
  rw [setCtx_ctx]
  split_ifs with hs
  · rw [hs, h]
  · rfl

@[simp] theorem setState_exited : ((c.setState t k).ctx s).exited = (c.ctx s).exited :=
  setCtx_kept c t s _ Context.exited rfl

@[simp] theorem setState_status : ((c.setState t k).ctx s).status = (c.ctx s).status :=
  setCtx_kept c t s _ Context.status rfl

@[simp] theorem setState_tid : ((c.setState t k).ctx s).tid = (c.ctx s).tid :=
  setCtx_kept c t s _ Context.tid rfl

@[simp] theorem setState_stack : ((c.setState t k).ctx s).stack = (c.ctx s).stack :=
  setCtx_kept c t s _ Context.stack rfl

@[simp] theorem setState_state :
    ((c.setState t k).ctx s).state = if s = t then k else (c.ctx s).state := by
  rw [setState, setCtx_ctx]
  split_ifs <;> rfl

@[simp] theorem setStatus_exited : ((c.setStatus t v).ctx s).exited = (c.ctx s).exited :=
  setCtx_kept c t s _ Context.exited rfl

@[simp] theorem setStatus_status :
    ((c.setStatus t v).ctx s).status = if s = t then v else (c.ctx s).status := by
  rw [setStatus, setCtx_ctx]
  split_ifs <;> rfl

@[simp] theorem setStatus_tid : ((c.setStatus t v).ctx s).tid = (c.ctx s).tid :=
  setCtx_kept c t s _ Context.tid rfl

@[simp] theorem setStatus_state : ((c.setStatus t v).ctx s).state = (c.ctx s).state :=
  setCtx_kept c t s _ Context.state rfl

@[simp] theorem setExited_exited :
    ((c.setExited t x).ctx s).exited = if s = t then x else (c.ctx s).exited := by
  rw [setExited, setCtx_ctx]
  split_ifs <;> rfl

@[simp] theorem setExited_status : ((c.setExited t x).ctx s).status = (c.ctx s).status :=
  setCtx_kept c t s _ Context.status rfl

@[simp] theorem setExited_tid : ((c.setExited t x).ctx s).tid = (c.ctx s).tid :=
  setCtx_kept c t s _ Context.tid rfl

@[simp] theorem setExited_state : ((c.setExited t x).ctx s).state = (c.ctx s).state :=
  setCtx_kept c t s _ Context.state rfl

/-- `discard` frees the context and writes the history, nothing else. -/
theorem discard_eq : c.discard t =
    { c with used := update c.used t false, log := (c.discard t).log } := by
  unfold discard
  dsimp only
  split_ifs <;> rfl

@[simp] theorem discard_ctx : (c.discard t).ctx = c.ctx := by rw [discard_eq]

@[simp] theorem discard_used : (c.discard t).used = update c.used t false := by rw [discard_eq]

@[simp] theorem discard_exit : (c.discard t).exit = c.exit := by rw [discard_eq]

@[simp] theorem discard_currTid : (c.discard t).currTid = c.currTid := by rw [discard_eq]

@[simp] theorem discard_currThread : (c.discard t).currThread = c.currThread := by rw [discard_eq]

end Fields

end Core

/-- The state of the library.  `live` and `waiting` are threaded through `lib_one` and `lib_two` of
the contexts, `zombies` through its wrapper nodes, whose threads are `zombieThread`. -/
structure State (ι M : Type) extends Core ι where
  live : Queue Ptr
  waiting : Queue Ptr
  zombies : Queue Ptr
  zombieThread : Ptr → Ptr
  wrappers : Ptr → Bool
  sched : M

/-- A change of contexts and plain variables. -/
def State.set {ι M : Type} (s : State ι M) (f : Core ι → Core ι) : State ι M :=
  { s with toCore := f s.toCore }

/-- The answers of the system during one call. -/
structure Env where
  /-- `malloc (sizeof (context))` -/
  thread : Option Ptr
  /-- `malloc (sizeof (struct zombie))` -/
  wrapper : Option Ptr
  /-- `getrlimit (RLIMIT_STACK, ..)` -/
  rlimit : Option Word
  /-- `sysconf (_SC_PAGE_SIZE)`, `none` if negative -/
  pageSize : Option Word
  /-- `mmap` -/
  stack : Option Word
  /-- `munmap` succeeds -/
  munmap : Bool

variable {ι M : Type}

/-! ### The three queues -/

def insertLive (new : Ptr) (s : State ι M) : State ι M :=
  if new = 0 then s else { s with live := s.live.insert 0 new }

def removeLive (victim : Ptr) (s : State ι M) : Option (State ι M) :=
  if victim = 0 then some s
  else (s.live.remove 0 (· = victim) addresses).map fun q => { s with live := q }

def insertWaiting (new : Ptr) (s : State ι M) : State ι M :=
  if new = 0 then s else { s with waiting := s.waiting.insert 0 new }

def removeWaiting (victim : Ptr) (s : State ι M) : Option (State ι M) :=
  if victim = 0 then some s
  else (s.waiting.remove 0 (· = victim) addresses).map fun q => { s with waiting := q }

def insertZombie (e : Env) (new : Ptr) (s : State ι M) : State ι M :=
  if new = 0 then s
  else
    match e.wrapper with
    | none => s.set (·.exitProcess .failed)
    | some w =>
      { s with
        wrappers := update s.wrappers w true
        zombieThread := update s.zombieThread w new
        zombies := s.zombies.insert 0 w }

def findZombie (curr : Ptr) (s : State ι M) : Option Ptr :=
  s.zombies.find 0 (fun z => s.zombieThread z = curr) addresses

def removeZombie (victim : Ptr) (s : State ι M) : Option (State ι M) :=
  if victim = 0 then some s
  else (s.zombies.remove 0 (fun z => s.zombieThread z = victim) addresses).map fun q =>
    { s with zombies := q }

/-- The three walks of `tid2thread`. -/
def tid2thread (tid : Tid) (s : State ι M) : Option Ptr := do
  let liveThread ← s.live.find 0 (fun t => (s.ctx t).tid = tid) addresses
  if liveThread ≠ 0 then some liveThread
  else
    let waitingThread ← s.waiting.find 0 (fun t => (s.ctx t).tid = tid) addresses
    if waitingThread ≠ 0 then some waitingThread
    else
      let currZombie ← s.zombies.find 0 (fun z => (s.ctx (s.zombieThread z)).tid = tid) addresses
      some (if currZombie = 0 then 0 else s.zombieThread currZombie)

/-! ### Stack sizes -/

def roundUpPageSize (size pageSize : Word) : Word := (size + pageSize - 1) / pageSize * pageSize

def getStackSize (e : Env) : Word :=
  let rawStackSize :=
    match e.rlimit with
    | none => DEFAULT_STACK_SIZE
    | some cur => if cur = RLIM_INFINITY then DEFAULT_STACK_SIZE else cur
  match e.pageSize with
  | none => 0
  | some pageSize => roundUpPageSize rawStackSize pageSize

/-! ### Calls of the scheduler -/

section Calls

variable (S : SchedulerPtr ι → Scheduler M)

def schedAdmit (t : Ptr) (s : State ι M) : State ι M :=
  { s with sched := (S s.schedulerInUse).admitThread t s.sched }

def schedRemove (t : Ptr) (s : State ι M) : Option (State ι M) :=
  ((S s.schedulerInUse).remove t s.sched).map fun m => { s with sched := m }

def schedNext (s : State ι M) : Ptr × State ι M :=
  let r := (S s.schedulerInUse).next s.sched
  (r.1, { s with sched := r.2 })

def schedQlen (s : State ι M) : ℤ := (S s.schedulerInUse).qlen s.sched

/-! ### Reaping -/

/-- The tid, the status it stores, and the state; `exit` is set if `munmap` failed. -/
def reapAndRemove (e : Env) (deadThread : Ptr) (status : Bool) (s : State ι M) :
    Option (Tid × Option Status × State ι M) :=
  if deadThread = 0 then some (NO_THREAD, none, s)
  else do
    let zombieNode ← findZombie deadThread s
    if zombieNode = 0 then some (NO_THREAD, none, s)
    else
      let s ← removeZombie deadThread s
      let x := s.ctx deadThread
      if x.stack ≠ 0 ∧ e.munmap = false then
        some (NO_THREAD, none, s.set (·.exitProcess .failed))
      else
        some (x.tid, if status then some (lwpTermStat x.status) else none,
          { s.set (·.discard deadThread) with wrappers := update s.wrappers zombieNode false })

/-! ### `lwp_yield` -/

/-- `lwp_yield` without a next thread. -/
def yieldNone (e : Env) (s : State ι M) : Option (State ι M) :=
  let curr := s.ctx s.currThread
  if s.currThread = 0 then some s
  else if lwpTerminated curr.status = false then some s
  else
    let exitStatus := lwpTermStat curr.status
    if curr.stack = 0 then do
      let r ← reapAndRemove e s.currThread false s
      some ((r.2.2.set (·.setCurr 0)).set (·.exitProcess (.yielded exitStatus)))
    else some (s.set (·.exitProcess (.yielded exitStatus)))

/-- `lwp_yield` with the next thread `nextThread`: the place where control goes. -/
def switchTo (nextThread : Ptr) (k : Resume) (s : State ι M) : Resume × State ι M :=
  if s.currThread = 0 then ((s.ctx nextThread).state, s.set (·.setCurr nextThread))
  else if s.currThread = nextThread then (k, s)
  else ((s.ctx nextThread).state, s.set fun c => (c.setState c.currThread k).setCurr nextThread)

/-- `lwp_yield`, called where the thread is to go on at `k`. -/
def lwpYield (e : Env) (k : Resume) (s : State ι M) : Option (Resume × State ι M) :=
  let r := schedNext S (s.set (·.useScheduler))
  if r.1 = 0 then (yieldNone e r.2).map fun s => (k, s)
  else some (switchTo r.1 k r.2)

/-! ### `lwp_wait` -/

/-- `lwp_wait` returns `NO_THREAD`. -/
def returnNone (status blocked : Bool) (s : State ι M) : State ι M :=
  s.set fun c => c.record (.returned c.currThread NO_THREAD status none blocked)

/-- The end of `lwp_wait`: reap the thread and return to the caller. -/
def waitReap (e : Env) (threadToReap : Ptr) (status blocked : Bool) (s : State ι M) :
    Option (State ι M) := do
  let (tid, value, s) ← reapAndRemove e threadToReap status s
  if s.exit.isSome then some s
  else some (s.set fun c => c.record (.returned c.currThread tid status value blocked))

/-- `lwp_wait` of a thread whose `exited` is set. -/
def waitExited (e : Env) (status blocked : Bool) (s : State ι M) : Option (State ι M) :=
  waitReap e (s.ctx s.currThread).exited status blocked (s.set fun c => c.setExited c.currThread 0)

/-- The library code behind a saved place, up to user code; for `lwp_wait`, what follows the
`lwp_yield` of a thread that blocked. -/
def continueAt (e : Env) (k : Resume) (s : State ι M) : Option (State ι M) :=
  match k with
  | .wait status =>
    if (s.ctx s.currThread).exited ≠ 0 then waitExited e status true s
    else some (returnNone status true s)
  | _ => some s

/-- `lwp_yield` and what runs after it, unless it ended the process. -/
def yieldFrom (e : Env) (k : Resume) (s : State ι M) : Option (State ι M) := do
  let (k, s) ← lwpYield S e k s
  if s.exit.isSome then some s else continueAt e k s

def lwpWait (e : Env) (status : Bool) (s : State ι M) : Option (State ι M) :=
  let s := s.set (·.useScheduler)
  if s.currThread = 0 then some (returnNone status false s)
  else if (s.ctx s.currThread).exited ≠ 0 then waitExited e status false s
  else if s.zombies.head ≠ 0 then
    waitReap e (s.zombieThread s.zombies.head) status false s
  else if schedQlen S s ≤ 1 then some (returnNone status false s)
  else do
    let s ← schedRemove S s.currThread s
    yieldFrom S e (.wait status) (insertWaiting s.currThread s)

/-! ### Creation and termination -/

/-- The thread `t` is live, and runnable under the scheduler in use. -/
def enroll (t : Ptr) (s : State ι M) : State ι M :=
  (schedAdmit S t ((insertLive t s).set (·.useScheduler))).set (·.record (.created t))

/-- The new tid or `NO_THREAD`, and the state. -/
def lwpCreate (e : Env) (function argument : Word) (s : State ι M) : Tid × State ι M :=
  match e.thread with
  | none => (NO_THREAD, s)
  | some newThread =>
    let tid := s.currTid
    let s := (s.set (·.malloc newThread)).set (·.assignTid)
    let stackSize := getStackSize e
    if stackSize = 0 then (NO_THREAD, s.set (·.free newThread))
    else
      match e.stack with
      | none => (NO_THREAD, s.set (·.free newThread))
      | some stackBase =>
        let x : Context := ⟨tid, stackBase, stackSize, .wrap function argument, LWP_LIVE, 0⟩
        (tid, enroll S newThread (s.set (·.setCtx newThread x)))

/-- Called by the original context. -/
def lwpStart (e : Env) (s : State ι M) : Option (State ι M) :=
  match e.thread with
  | none => some (s.set (·.exitProcess .failed))
  | some newThread =>
    -- `state` keeps what `malloc` found there until the first switch
    let x : Context := ⟨s.currTid, 0, 0, (s.ctx newThread).state, LWP_LIVE, 0⟩
    let s := (s.set (·.malloc newThread)).set (·.assignTid)
    let s := enroll S newThread (s.set (·.setCtx newThread x))
    yieldFrom S e .user (s.set (·.setCurr newThread))

/-- `lwp_exit` hands the current thread to the oldest waiter, if there is one, and makes it runnable
again: the waiter or `NULL`. -/
def wakeWaiter (s : State ι M) : Option (Ptr × State ι M) :=
  let threadToWake := s.waiting.head
  if threadToWake = 0 then some (0, s)
  else do
    let s ← removeWaiting threadToWake
      (schedAdmit S threadToWake (s.set fun c => c.setExited threadToWake c.currThread))
    some (threadToWake, s)

def lwpExit (e : Env) (status : Status) (s : State ι M) : Option (State ι M) :=
  let curr := s.currThread
  if curr = 0 then some s
  else
    let s := insertZombie e curr (s.set (·.setStatus curr (mkTermStat LWP_TERM status)))
    if s.exit.isSome then some s
    else do
      let s ← schedRemove S curr (s.set (·.useScheduler))
      let s ← removeLive curr s
      let (woken, s) ← wakeWaiter S s
      yieldFrom S e .exit
        (s.set fun c => c.record (.exited curr (c.ctx curr).tid status woken))

/-! ### `lwp_set_scheduler` -/

/-- The transfer loop of `lwp_set_scheduler`, with `n` rounds to go. -/
def transfer (old new : Scheduler M) : ℕ → Ptr → M → Option M
  | 0, _, m => some m
  | n + 1, schedulerThread, m => do
    let m ← old.remove schedulerThread m
    let r := old.next (new.admitThread schedulerThread m)
    transfer old new n r.1 r.2

/-- An operation a scheduler may lack. -/
def callIfDefined (f : Option (M → M)) (m : M) : M :=
  match f with
  | some f => f m
  | none => m

def lwpSetScheduler [DecidableEq ι] (fn : Option (SchedulerPtr ι)) (s : State ι M) :
    Option (State ι M) :=
  let newScheduler := fn.getD .RoundRobin
  if s.currentScheduler = some newScheduler then some s
  else
    let m := callIfDefined (S newScheduler).init s.sched
    match s.currentScheduler with
    | none => some ({ s with sched := m }.set (·.setScheduler newScheduler))
    | some old => do
      let r := (S old).next m
      let lenOfQueue := (S old).qlen r.2
      let m ← transfer (S old) (S newScheduler) lenOfQueue.toNat r.1 r.2
      some ({ s with sched := callIfDefined (S old).shutdown m }.set (·.setScheduler newScheduler))

/-! ### The system -/

/-- What user code can do; `finish` is the return of a thread's function into `lwp_wrap`. -/
inductive Call (ι : Type)
  | create (function argument : Word)
  | start
  | yield
  | exit (status : Status)
  | finish (rval : Status)
  | wait (status : Bool)
  | setScheduler (fn : Option (SchedulerPtr ι))

def exec [DecidableEq ι] (e : Env) (c : Call ι) (s : State ι M) : Option (State ι M) :=
  match c with
  | .create f a =>
    let r := lwpCreate S e f a s
    some (r.2.set (·.record (.made r.1)))
  | .start => lwpStart S e s
  | .yield => yieldFrom S e .user s
  | .exit status => lwpExit S e status s
  | .finish rval => lwpExit S e rval s
  | .wait status => lwpWait S e status s
  | .setScheduler fn => lwpSetScheduler S fn s

/-- `malloc` returns memory that is not in use. -/
structure Fresh (e : Env) (s : State ι M) : Prop where
  thread : ∀ t, e.thread = some t → t ≠ 0 ∧ s.used t = false
  wrapper : ∀ w, e.wrapper = some w → w ≠ 0 ∧ s.wrappers w = false

/-- The static variables before `main`; `statics` are those of the schedulers. -/
structure Initial (statics : M → Prop) (s : State ι M) : Prop where
  used : ∀ t, s.used t = false
  currentScheduler : s.currentScheduler = none
  currThread : s.currThread = 0
  currTid : s.currTid = FIRST_TID
  exit : s.exit = none
  log : s.log = []
  live : s.live.head = 0 ∧ s.live.tail = 0
  waiting : s.waiting.head = 0 ∧ s.waiting.tail = 0
  zombies : s.zombies.head = 0 ∧ s.zombies.tail = 0
  wrappers : ∀ w, s.wrappers w = false
  sched : statics s.sched

/-- The library under a program that calls it in any order, `lwp_start` from the original context
only. -/
def lwp [DecidableEq ι] (statics : M → Prop) : System (State ι M) (Env × Call ι) where
  init := Initial statics
  step s l s' :=
    s.exit = none ∧ Fresh l.1 s ∧ (l.2 = .start → s.currThread = 0) ∧ exec S l.1 l.2 s = some s'

end Calls

end Csc453.Lwp
