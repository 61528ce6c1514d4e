import Csc453.Lib.Transition
import Mathlib.Tactic

/-!
# Csc453.Dine.Philosopher — the dining philosophers of Asgn3/dine.c

A table has `N` philosophers, `N` fork semaphores and the printing lock.  A philosopher is its
`philinfo` together with a program counter `Pc`, which names the semaphore call it is about to make;
`step` makes the call and runs the code up to the next one.  A call on a semaphore of value `0`
blocks.  With `fails` the call returns `-1` and the thread leaves through
`pthread_exit(THREAD_FAILURE)`, as every error branch of `philosopher` does.

The mirrored even and odd branches are one: `side i o` is the fork philosopher `i` takes `o`-th, the
right one first when `i` is even and the left one first when it is odd.  Every change of a printed
field is a printing block (`Blk`): wait for the lock, change, print, post the lock; the two blocks
that put a fork down post the fork in between.
-/

namespace Csc453.Dine

open Transition

/-- Which of the two forks. -/
inductive Side
  | left
  | right
  deriving DecidableEq

/-- Which fork grab. -/
inductive Ord
  | first
  | second
  deriving DecidableEq

/-- `CHANGING`, `EATING`, `THINKING`. -/
inductive PhilState
  | changing
  | eating
  | thinking
  deriving DecidableEq

/-- The printing blocks of `philosopher`, in source order. -/
inductive Blk
  | toChanging
  | took (o : Ord)
  | eat
  | ate
  | put (s : Side)
  | think
  | last
  deriving DecidableEq

/-- The semaphore call a philosopher is about to make. -/
inductive Pc
  | lock (b : Blk)
  | grab (o : Ord)
  | post (s : Side)
  | unlock (b : Blk)
  | done
  | failed
  deriving DecidableEq

/-- The fields of `philinfo` that change, and the program counter. -/
structure Phil where
  pc : Pc
  state : PhilState
  holdingLeft : Bool
  holdingRight : Bool
  cyclesLeft : ℕ

structure Table (N : ℕ) where
  phil : Fin N → Phil
  fork : Fin N → ℕ
  printing : ℕ

variable {N : ℕ}

/-! ### The fork assignment of `main` -/

def leftFork (i : Fin N) : Fin N := i

def rightFork (i : Fin N) : Fin N := ⟨(i + 1) % N, Nat.mod_lt _ i.pos⟩

def forkAt (i : Fin N) : Side → Fin N
  | .left => leftFork i
  | .right => rightFork i

/-- The even/odd rule: even philosophers take the right fork first. -/
def side (i : Fin N) : Ord → Side
  | .first => if (i : ℕ) % 2 = 0 then .right else .left
  | .second => if (i : ℕ) % 2 = 0 then .left else .right

/-! ### One thread -/

def Phil.holding (p : Phil) : Side → Bool
  | .left => p.holdingLeft
  | .right => p.holdingRight

def Phil.setHolding (p : Phil) (s : Side) (b : Bool) : Phil :=
  match s with
  | .left => { p with holdingLeft := b }
  | .right => { p with holdingRight := b }

/-- The head of the `while` loop: another cycle, or the last block. -/
def loopHead (p : Phil) : Phil :=
  if 0 < p.cyclesLeft then
    if p.state ≠ .changing then { p with pc := .lock .toChanging } else { p with pc := .grab .first }
  else { p with pc := .lock .last }

/-- The assignment a printing block makes. -/
def change (i : Fin N) (b : Blk) (p : Phil) : Phil :=
  match b with
  | .toChanging => { p with state := .changing }
  | .took o => p.setHolding (side i o) true
  | .eat => { p with state := .eating }
  | .ate => { p with state := .changing }
  | .put s => p.setHolding s false
  | .think => { p with state := .thinking }
  | .last => { p with state := .changing }

/-- The code after a printing block, up to the next semaphore call. -/
def resume (b : Blk) (p : Phil) : Phil :=
  match b with
  | .toChanging => { p with pc := .grab .first }
  | .took .first => { p with pc := .grab .second }
  | .took .second => { p with pc := .lock .eat }
  | .eat => { p with pc := .lock .ate }
  | .ate => { p with pc := .lock (.put .right) }
  | .put .right => { p with pc := .lock (.put .left) }
  | .put .left => { p with pc := .lock .think }
  | .think => loopHead { p with cyclesLeft := p.cyclesLeft - 1 }
  | .last => { p with pc := .done }

/-- What follows a call that succeeded. -/
def advance (i : Fin N) (p : Phil) : Phil :=
  match p.pc with
  | .lock (.put s) => { change i (.put s) p with pc := .post s }
  | .lock b => { change i b p with pc := .unlock b }
  | .grab o => { p with pc := .lock (.took o) }
  | .post s => { p with pc := .unlock (.put s) }
  | .unlock b => resume b p
  | .done => p
  | .failed => p

/-! ### The table -/

def Table.setPhil (t : Table N) (i : Fin N) (p : Phil) : Table N :=
  { t with phil := Function.update t.phil i p }

def Table.setFork (t : Table N) (k : Fin N) (v : ℕ) : Table N :=
  { t with fork := Function.update t.fork k v }

/-- The effect of the call philosopher `i` is about to make, `none` if it blocks. -/
def semCall (i : Fin N) (t : Table N) : Option (Table N) :=
  match (t.phil i).pc with
  | .lock _ => if t.printing = 0 then none else some { t with printing := t.printing - 1 }
  | .unlock _ => some { t with printing := t.printing + 1 }
  | .grab o =>
    let k := forkAt i (side i o)
    if t.fork k = 0 then none else some (t.setFork k (t.fork k - 1))
  | .post s => some (t.setFork (forkAt i s) (t.fork (forkAt i s) + 1))
  | .done => none
  | .failed => none

/-- One step of philosopher `i`. -/
def step (fails : Bool) (i : Fin N) (t : Table N) : Option (Table N) :=
  if fails then
    match (t.phil i).pc with
    | .done => none
    | .failed => none
    | _ => some (t.setPhil i { t.phil i with pc := .failed })
  else (semCall i t).map fun u => u.setPhil i (advance i (t.phil i))

/-- `main` after the initialisation loops: everybody is hungry, every fork is down. -/
def initial (N c : ℕ) : Table N where
  phil _ := loopHead ⟨.done, .changing, false, false, c⟩
  fork _ := 1
  printing := 1

/-- `N` philosophers with `c` cycles each; no semaphore call fails. -/
def dine (N c : ℕ) : System (Table N) (Fin N) where
  init t := t = initial N c
  step t i u := step false i t = some u

end Csc453.Dine
