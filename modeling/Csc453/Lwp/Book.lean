import Csc453.Lwp.Library

/-!
# Csc453.Lwp.Book — the library over lists

What the library is for: a `Book` keeps the runnable threads, the waiting ones, the live ones and
the zombies as plain lists, with no links, wrapper nodes or scheduler memory, and every operation
returns.
-/

namespace Csc453.Lwp

open Function LinkedQueue

variable {ι : Type}

structure Book (ι : Type) extends Core ι where
  live : List Ptr
  waiting : List Ptr
  zombies : List Ptr
  pool : List Ptr

namespace Book

def set (b : Book ι) (f : Core ι → Core ι) : Book ι := { b with toCore := f b.toCore }

/-- The zombie `z` is gone, with its stack and context. -/
def bury (z : Ptr) (b : Book ι) : Book ι :=
  { b.set (·.discard z) with zombies := b.zombies.erase z }

/-- The status `lwp_wait` stores for the zombie `z`. -/
def report (z : Ptr) (status : Bool) (b : Book ι) : Option Status :=
  if status then some (lwpTermStat (b.ctx z).status) else none

/-- Reap `dead` if it is a zombie. -/
def reap (e : Env) (dead : Ptr) (status : Bool) (b : Book ι) : Tid × Option Status × Book ι :=
  if dead ∈ b.zombies then
    let x := b.ctx dead
    if x.stack ≠ 0 ∧ e.munmap = false then
      (NO_THREAD, none,
        { b.set (·.exitProcess .failed) with zombies := b.zombies.erase dead })
    else (x.tid, b.report dead status, b.bury dead)
  else (NO_THREAD, none, b)

/-- No thread is runnable: go on, or end the process if the current thread has terminated. -/
def halt (e : Env) (b : Book ι) : Book ι :=
  let x := b.ctx b.currThread
  if b.currThread = 0 ∨ lwpTerminated x.status = false then b
  else
    let b := if x.stack = 0 then (b.reap e b.currThread false).2.2.set (·.setCurr 0) else b
    b.set (·.exitProcess (.yielded (lwpTermStat x.status)))

/-- The thread `t` runs; the thread it replaces goes on at `k`. -/
def switchTo (t : Ptr) (k : Resume) (b : Book ι) : Resume × Book ι :=
  if b.currThread = 0 then ((b.ctx t).state, b.set (·.setCurr t))
  else if b.currThread = t then (k, b)
  else ((b.ctx t).state, b.set fun c => (c.setState c.currThread k).setCurr t)

/-- The first runnable thread goes last and runs. -/
def yield (e : Env) (k : Resume) (b : Book ι) : Resume × Book ι :=
  match b.pool with
  | [] => (k, (b.set (·.useScheduler)).halt e)
  | t :: rest => { b.set (·.useScheduler) with pool := rest ++ [t] }.switchTo t k

def returnNone (status blocked : Bool) (b : Book ι) : Book ι :=
  b.set fun c => c.record (.returned c.currThread NO_THREAD status none blocked)

def waitReap (e : Env) (dead : Ptr) (status blocked : Bool) (b : Book ι) : Book ι :=
  let r := b.reap e dead status
  if r.2.2.exit.isSome then r.2.2
  else r.2.2.set fun c => c.record (.returned c.currThread r.1 status r.2.1 blocked)

/-- The current thread forgets the thread it was given. -/
def clear (b : Book ι) : Book ι := b.set fun c => c.setExited c.currThread 0

def waitExited (e : Env) (status blocked : Bool) (b : Book ι) : Book ι :=
  b.clear.waitReap e (b.ctx b.currThread).exited status blocked

/-- The zombie `z` is buried and its tid returned. -/
def returnBuried (z : Ptr) (status blocked : Bool) (b : Book ι) : Book ι :=
  (b.bury z).set fun c =>
    c.record (.returned c.currThread (b.ctx z).tid status (b.report z status) blocked)

def continueAt (e : Env) (k : Resume) (b : Book ι) : Book ι :=
  match k with
  | .wait status =>
    if (b.ctx b.currThread).exited ≠ 0 then b.waitExited e status true else b.returnNone status true
  | _ => b

def yieldFrom (e : Env) (k : Resume) (b : Book ι) : Book ι :=
  let r := b.yield e k
  if r.2.exit.isSome then r.2 else r.2.continueAt e r.1

/-- The current thread waits. -/
def block (b : Book ι) : Book ι :=
  { b with pool := b.pool.erase b.currThread, waiting := b.waiting ++ [b.currThread] }

def wait (e : Env) (status : Bool) (b : Book ι) : Book ι :=
  let b := b.set (·.useScheduler)
  if b.currThread = 0 then b.returnNone status false
  else if (b.ctx b.currThread).exited ≠ 0 then b.waitExited e status false
  else if b.zombies ≠ [] then b.waitReap e (b.zombies.headD 0) status false
  else if b.pool.length ≤ 1 then b.returnNone status false
  else b.block.yieldFrom e (.wait status)

/-- The new thread `t` is live and runnable. -/
def enroll (t : Ptr) (b : Book ι) : Book ι :=
  { b.set fun c => c.useScheduler.record (.created t) with
    live := b.live ++ [t]
    pool := b.pool ++ [t] }

/-- A thread `t` with the context `x` is created, and uses up a tid. -/
def spawn (t : Ptr) (x : Context) (b : Book ι) : Book ι :=
  (((b.set (·.malloc t)).set (·.assignTid)).set (·.setCtx t x)).enroll t

/-- A creation that fails after it has used up a tid. -/
def spawnFailed (t : Ptr) (b : Book ι) : Book ι :=
  ((b.set (·.malloc t)).set (·.assignTid)).set (·.free t)

def create (e : Env) (function argument : Word) (b : Book ι) : Tid × Book ι :=
  match e.thread with
  | none => (NO_THREAD, b)
  | some t =>
    if getStackSize e = 0 then (NO_THREAD, b.spawnFailed t)
    else
      match e.stack with
      | none => (NO_THREAD, b.spawnFailed t)
      | some base =>
        (b.currTid,
          b.spawn t ⟨b.currTid, base, getStackSize e, .wrap function argument, LWP_LIVE, 0⟩)

/-- `lwp_create` returns `tid`. -/
def answer (tid : Tid) (b : Book ι) : Book ι := b.set (·.record (.made tid))

def start (e : Env) (b : Book ι) : Book ι :=
  match e.thread with
  | none => b.set (·.exitProcess .failed)
  | some t =>
    ((b.spawn t ⟨b.currTid, 0, 0, (b.ctx t).state, LWP_LIVE, 0⟩).set (·.setCurr t)).yieldFrom e .user

/-- The current thread becomes a zombie. -/
def retire (status : Status) (b : Book ι) : Book ι :=
  let curr := b.currThread
  { b.set fun c => (c.setStatus curr (mkTermStat LWP_TERM status)).useScheduler with
    live := b.live.erase curr
    zombies := b.zombies ++ [curr]
    pool := b.pool.erase curr }

/-- The thread that has waited longest is given the current thread, and is runnable again. -/
def wake (b : Book ι) : Book ι :=
  match b.waiting with
  | [] => b
  | w :: rest =>
    { b.set fun c => c.setExited w c.currThread with pool := b.pool ++ [w], waiting := rest }

/-- The current thread terminates, and the first waiting thread is given it. -/
def handOver (status : Status) (b : Book ι) : Book ι :=
  (b.retire status).wake.set fun c =>
    c.record (.exited b.currThread (c.ctx b.currThread).tid status (b.waiting.headD 0))

def terminate (e : Env) (status : Status) (b : Book ι) : Book ι :=
  let curr := b.currThread
  if curr = 0 then b
  else if e.wrapper = none then
    (b.set (·.setStatus curr (mkTermStat LWP_TERM status))).set (·.exitProcess .failed)
  else (b.handOver status).yieldFrom e .exit

/-- The runnable threads stay in their order. -/
def setScheduler (fn : Option (SchedulerPtr ι)) (b : Book ι) : Book ι :=
  b.set (·.setScheduler (fn.getD .RoundRobin))

def exec (e : Env) (c : Call ι) (b : Book ι) : Book ι :=
  match c with
  | .create f a =>
    let r := b.create e f a
    r.2.answer r.1
  | .start => b.start e
  | .yield => b.yieldFrom e .user
  | .exit status => b.terminate e status
  | .finish rval => b.terminate e rval
  | .wait status => b.wait e status
  | .setScheduler fn => b.setScheduler fn

/-! ### What the operations can do -/

variable {b : Book ι} {e : Env} {t : Ptr} {status : Bool}

/-- `reap` finds no zombie, or `munmap` fails, or the zombie is buried. -/
theorem reap_cases (b : Book ι) (e : Env) (t : Ptr) (status : Bool) :
    (t ∉ b.zombies ∧ b.reap e t status = (NO_THREAD, none, b)) ∨
    (t ∈ b.zombies ∧ (b.ctx t).stack ≠ 0 ∧
      b.reap e t status = (NO_THREAD, none,
        { b.set (·.exitProcess .failed) with zombies := b.zombies.erase t })) ∨
    (t ∈ b.zombies ∧ b.reap e t status = ((b.ctx t).tid, b.report t status, b.bury t)) := by
  unfold reap
  by_cases ht : t ∈ b.zombies
  · rw [if_pos ht]
    dsimp only
    by_cases hfail : (b.ctx t).stack ≠ 0 ∧ e.munmap = false
    · rw [if_pos hfail]
      exact .inr (.inl ⟨ht, hfail.1, rfl⟩)
    · rw [if_neg hfail]
      exact .inr (.inr ⟨ht, rfl⟩)
  · rw [if_neg ht]
    exact .inl ⟨ht, rfl⟩

theorem reap_zombies (b : Book ι) (e : Env) (t : Ptr) (status : Bool) :
    (b.reap e t status).2.2.zombies = b.zombies.erase t := by
  obtain ⟨ht, h⟩ | ⟨-, -, h⟩ | ⟨-, h⟩ := reap_cases b e t status
  · exact (congrArg (·.2.2.zombies) h).trans (List.erase_of_not_mem ht).symm
  · exact congrArg (·.2.2.zombies) h
  · exact congrArg (·.2.2.zombies) h

theorem switchTo_zombies (t : Ptr) (k : Resume) : (b.switchTo t k).2.zombies = b.zombies := by
  unfold switchTo
  split_ifs <;> rfl

theorem halt_zombies (e : Env) : (b.halt e).zombies ⊆ b.zombies := by
  unfold halt
  dsimp only
  split_ifs with h1 h2
  · exact List.Subset.refl _
  · show (b.reap e b.currThread false).2.2.zombies ⊆ _
    rw [reap_zombies]
    exact List.erase_subset
  · exact List.Subset.refl _

theorem yield_zombies (e : Env) (k : Resume) : (b.yield e k).2.zombies ⊆ b.zombies := by
  unfold yield
  split
  · exact halt_zombies e
  · rw [switchTo_zombies]
    exact List.Subset.refl _

/-- `wake` finds nobody waiting, or makes the first waiting thread runnable. -/
theorem wake_cases (b : Book ι) :
    (b.waiting = [] ∧ b.wake = b) ∨
    ∃ w rest, b.waiting = w :: rest ∧
      b.wake = { b.set fun c => c.setExited w c.currThread with
        pool := b.pool ++ [w]
        waiting := rest } := by
  unfold wake
  cases hw : b.waiting with
  | nil => exact .inl ⟨rfl, rfl⟩
  | cons w rest => exact .inr ⟨w, rest, rfl, rfl⟩

theorem wake_zombies (b : Book ι) : b.wake.zombies = b.zombies := by
  unfold wake
  split <;> rfl

theorem wake_live (b : Book ι) : b.wake.live = b.live := by
  unfold wake
  split <;> rfl

theorem wake_curr (b : Book ι) : b.wake.currThread = b.currThread := by
  unfold wake
  split <;> rfl

theorem wake_exit (b : Book ι) : b.wake.exit = b.exit := by
  unfold wake
  split <;> rfl

/-- `wake` changes nothing but `exited` in a context. -/
theorem wake_ctx (b : Book ι) (t : Ptr) :
    (b.wake.ctx t).state = (b.ctx t).state ∧ (b.wake.ctx t).status = (b.ctx t).status ∧
      (b.wake.ctx t).tid = (b.ctx t).tid := by
  obtain ⟨-, hw⟩ | ⟨w, rest, -, hw⟩ := wake_cases b <;> rw [hw]
  · exact ⟨rfl, rfl, rfl⟩
  · exact ⟨Core.setExited_state .., Core.setExited_status .., Core.setExited_tid ..⟩

theorem mem_wake_pool (b : Book ι) (h : t ∈ b.wake.pool) : t ∈ b.pool ∨ t ∈ b.waiting := by
  obtain ⟨-, hw⟩ | ⟨w, rest, hq, hw⟩ := wake_cases b <;> rw [hw] at h
  · exact .inl h
  · rcases List.mem_append.mp h with h | h
    · exact .inl h
    · rw [hq, List.mem_singleton.mp h]
      exact .inr List.mem_cons_self

/-- The end of `lwp_wait` finds no zombie, or ends the process, or buries the zombie. -/
theorem waitReap_cases (b : Book ι) (e : Env) (t : Ptr) (status blocked : Bool)
    (hx : b.exit = none) :
    (t ∉ b.zombies ∧ b.waitReap e t status blocked = b.returnNone status blocked) ∨
    (t ∈ b.zombies ∧ b.waitReap e t status blocked =
      { b.set (·.exitProcess .failed) with zombies := b.zombies.erase t }) ∨
    (t ∈ b.zombies ∧ b.waitReap e t status blocked = b.returnBuried t status blocked) := by
  unfold waitReap
  obtain ⟨ht, h⟩ | ⟨ht, -, h⟩ | ⟨ht, h⟩ := reap_cases b e t status
  · refine .inl ⟨ht, ?_⟩
    rw [h]
    exact if_neg (by simp [hx])
  · refine .inr (.inl ⟨ht, ?_⟩)
    rw [h]
    exact if_pos rfl
  · refine .inr (.inr ⟨ht, ?_⟩)
    have hx' : (b.bury t).exit = none := (Core.discard_exit b.toCore t).trans hx
    rw [h]
    exact if_neg (by simp [hx'])

theorem spawn_ctx (b : Book ι) (t s : Ptr) (x : Context) :
    (b.spawn t x).ctx s = if s = t then x else b.ctx s := update_apply ..

/-- `create` fails before it has a tid or after it, or creates a thread in `lwp_wrap`. -/
theorem create_cases (b : Book ι) (e : Env) (f a : Word) :
    (e.thread = none ∧ b.create e f a = (NO_THREAD, b)) ∨
    ∃ t, e.thread = some t ∧
      (b.create e f a = (NO_THREAD, b.spawnFailed t) ∨
        ∃ base, e.stack = some base ∧ b.create e f a = (b.currTid,
          b.spawn t ⟨b.currTid, base, getStackSize e, .wrap f a, LWP_LIVE, 0⟩)) := by
  unfold create
  cases e.thread with
  | none => exact .inl ⟨rfl, rfl⟩
  | some t =>
    refine .inr ⟨t, rfl, ?_⟩
    dsimp only
    by_cases hsize : getStackSize e = 0
    · rw [if_pos hsize]
      exact .inl rfl
    · rw [if_neg hsize]
      cases e.stack with
      | none => exact .inl rfl
      | some base => exact .inr ⟨base, rfl, rfl⟩

end Book

end Csc453.Lwp
