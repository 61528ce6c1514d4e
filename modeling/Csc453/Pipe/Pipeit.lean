import Csc453.Lib.Descriptors
import Csc453.Lib.Transition

/-!
# Csc453.Pipe.Pipeit — the processes of Lab01/pipeit.c

`main` runs in three processes: the parent, the child that becomes `ls` and the child that becomes
`sort -r`.  Each is a program counter at its next system call and a descriptor table; a step is a
system call returning and the code up to the next one, so that the processes interleave at system
calls.  Every call may fail; `close` always closes.  `perror` is a system call too: it writes to whatever
is open at descriptor 2, and nobody looks whether it could.

The programs `ls` and `sort` are parameters (`World`): `ls` writes its listing to descriptor 1 and
exits 0, `sort` reads descriptor 0 up to the end of file, writes what it sorted to descriptor 1 and
exits 0.  Either may give up or be killed at any time, and does when a read or a write cannot
succeed.
-/

namespace Csc453.Pipe

open Descriptors Transition

/-- An open file: an end of the pipe, the output file or one the parent was started with. -/
inductive File
  | readEnd
  | writeEnd
  | outfile
  | inherited (k : ℕ)
  deriving DecidableEq

abbrev STDIN_FILENO : ℕ := 0
abbrev STDOUT_FILENO : ℕ := 1
abbrev STDERR_FILENO : ℕ := 2

abbrev SIGPIPE : ℕ := 13

/-- The status `wait` reports: `WIFEXITED` with a `WEXITSTATUS`, or not. -/
inductive Status
  | exited (code : ℕ)
  | signaled (sig : ℕ)
  deriving DecidableEq

/-- What the parent reports before it exits 1. -/
inductive ParentFailure
  | pipe
  | forkLs
  | wait
  | abortWait
  | signaled
  | exited (code : ℕ)
  deriving DecidableEq

/-- The argument of `perror`, or what is printed to `stderr`. -/
def ParentFailure.text : ParentFailure → String
  | .pipe => "pipe has failed"
  | .forkLs => "fork child ls has failed"
  | .wait => "wait failed"
  | .abortWait => "wait"
  | .signaled => "child did not exit normally"
  | .exited code => "child exited with status " ++ toString code

/-- The calls of the first child that may fail. -/
inductive LsFailure
  | dup2
  | execlp
  deriving DecidableEq

def LsFailure.text : LsFailure → String
  | .dup2 => "child ls dup2 has failed"
  | .execlp => "execlp has failed"

/-- The calls of the second child that may fail. -/
inductive SortFailure
  | dup2In
  | openOut
  | dup2Out (outfileFd : ℕ)
  | execlp
  deriving DecidableEq

def SortFailure.text : SortFailure → String
  | .dup2In => "child sort r dup2 pipe read end has failed"
  | .openOut => "open outfile has failed"
  | .dup2Out _ => "child sort dup2 stdout to outfile has failed"
  | .execlp => "sort -r has failed"

/-- The parent's next system call; `perror` is the report about a failure, before `exit(1)`. -/
inductive ParentPc
  | pipe
  | forkLs
  | forkSort
  | closeRead
  | closeWrite
  | wait1
  | wait2
  | abortPerror
  | abortCloseRead
  | abortCloseWrite
  | abortWait
  | perror (failure : ParentFailure)
  | exited (code : ℕ)
  deriving DecidableEq

/-- The next system call of the first child; once it has become `ls`, what is left to write. -/
inductive LsPc (β : Type)
  | closeRead
  | dup2
  | closeWrite
  | execlp
  | perror (failure : LsFailure)
  | running (todo : List β)
  | ended (status : Status)

/-- The next system call of the second child; once it has become `sort`, what it has read, and then
what is left to write. -/
inductive SortPc (β : Type)
  | closeWrite
  | dup2In
  | closeRead
  | openOut
  | dup2Out (outfileFd : ℕ)
  | closeOut (outfileFd : ℕ)
  | execlp
  | perror (failure : SortFailure)
  | reading (got : List β)
  | writing (todo : List β)
  | ended (status : Status)

/-- A child: where it is, its open files, and whether the parent has waited for it. -/
structure Child (pc : Type) where
  pc : pc
  fds : Table File
  reaped : Bool

variable {β : Type}

/-- The machine: the limit on open files, the room in a pipe, the files the parent is started with, the
old contents of the output file, the two programs, and the line that a report makes.  A file the parent
was started with takes whatever is written to it. -/
structure World (β : Type) where
  limit : ℕ
  capacity : ℕ
  inherited : Table ℕ
  old : Option (List β)
  listing : List β
  sortR : List β → List β
  line : String → β

/-- All three processes.  `r` and `w` are `pipefd[0]` and `pipefd[1]`, and `stderr` is what the code of
pipeit.c has reported to the file it was started with at descriptor 2, the first report first. -/
structure State (β : Type) where
  parent : ParentPc
  fds : Table File
  r : ℕ
  w : ℕ
  ls : Option (Child (LsPc β))
  sort : Option (Child (SortPc β))
  pipe : List β
  outfile : Option (List β)
  stderr : List String

/-- The two children. -/
inductive Who
  | ls
  | sort
  deriving DecidableEq

/-- What happens next.  `parent`, `child`: a system call of the code of pipeit.c returns, failing if
`ok` is false (`perror` does not tell, unless the write kills); `reap`, `waitFails`: `wait` returns; the
others are steps of the two programs. -/
inductive Label
  | parent (ok : Bool)
  | reap (who : Who)
  | waitFails
  | child (who : Who) (ok : Bool)
  | write (who : Who)
  | read
  | eof
  | finish (who : Who)
  | refused (who : Who) (status : Status)
  | crash (who : Who) (status : Status)
  deriving DecidableEq

/-! ### Writing -/

/-- The descriptor tables of the processes. -/
def State.tables (s : State β) : List (Table File) :=
  s.fds :: (s.ls.map Child.fds).toList ++ (s.sort.map Child.fds).toList

/-- Some process has the file open. -/
def State.Has (W : World β) (f : File) (s : State β) : Prop := ∃ t ∈ s.tables, Open W.limit t f

instance (W : World β) (f : File) (s : State β) : Decidable (s.Has W f) :=
  inferInstanceAs (Decidable (∃ t ∈ s.tables, Open W.limit t f))

/-- Write one item to an open file.  A write to the pipe waits for room, and for nothing if nobody
reads. -/
def writeTo (W : World β) (file : Option File) (b : β) (s : State β) : Option (State β) :=
  match file with
  | some .writeEnd =>
    if s.Has W .readEnd ∧ s.pipe.length < W.capacity then some { s with pipe := s.pipe ++ [b] } else none
  | some .outfile => some { s with outfile := some (s.outfile.getD [] ++ [b]) }
  | some (.inherited _) => some s
  | _ => none

/-- `perror(message)`, or `fprintf` to `stderr`, by a process with the table `fds`.  It waits for room in
a pipe that has a reader; a pipe that has none gives an error like a descriptor that is not open for
writing, and nothing is written. -/
def report (W : World β) (fds : Table File) (message : String) (s : State β) : Option (State β) :=
  match fds STDERR_FILENO with
  | some (.inherited _) => some { s with stderr := s.stderr ++ [message] }
  | some .writeEnd =>
    if s.Has W .readEnd then writeTo W (some .writeEnd) (W.line message) s else some s
  | some .outfile => writeTo W (some .outfile) (W.line message) s
  | _ => some s

/-! ### The parent -/

/-- On to the report and `exit(1)`. -/
def State.die (s : State β) (failure : ParentFailure) : State β := { s with parent := .perror failure }

/-- A system call of the parent, but for `wait`.  (When its descriptor 2 is the pipe, it has the read end
too and gets no SIGPIPE.) -/
def parentStep (W : World β) (ok : Bool) (s : State β) : Option (State β) :=
  match s.parent with
  | .pipe =>
    if ok then do
      let r ← lowest W.limit s.fds
      let w ← lowest W.limit (put r .readEnd s.fds)
      pure { s with parent := .forkLs, fds := put w .writeEnd (put r .readEnd s.fds), r, w }
    else some (s.die .pipe)
  | .forkLs =>
    if ok then some { s with parent := .forkSort, ls := some ⟨.closeRead, s.fds, false⟩ }
    else some (s.die .forkLs)
  | .forkSort =>
    if ok then some { s with parent := .closeRead, sort := some ⟨.closeWrite, s.fds, false⟩ }
    else some { s with parent := .abortPerror }
  | .closeRead => if ok then some { s with parent := .closeWrite, fds := close s.r s.fds } else none
  | .closeWrite => if ok then some { s with parent := .wait1, fds := close s.w s.fds } else none
  | .abortPerror =>
    if ok then
      (report W s.fds "fork child sort -r has failed" s).map fun s => { s with parent := .abortCloseRead }
    else none
  | .abortCloseRead =>
    if ok then some { s with parent := .abortCloseWrite, fds := close s.r s.fds } else none
  | .abortCloseWrite => if ok then some { s with parent := .abortWait, fds := close s.w s.fds } else none
  | .perror failure =>
    if ok then
      (report W s.fds failure.text s).map fun s => { s with parent := .exited 1, fds := closed }
    else none
  | _ => none

/-- The code after a `wait` of the normal path that returned `status`; `next` is where it goes on. -/
def State.waited (s : State β) (status : Status) (next : ParentPc) : State β :=
  match status with
  | .signaled _ => s.die .signaled
  | .exited code =>
    if code ≠ 0 then s.die (.exited code)
    else { s with parent := next, fds := if next = .exited 0 then closed else s.fds }

/-- The parent after `wait` returned a child that ended with `status`. -/
def State.afterWait (s : State β) (status : Status) : Option (State β) :=
  match s.parent with
  | .wait1 => some (s.waited status .wait2)
  | .wait2 => some (s.waited status (.exited 0))
  | .abortWait => some { s with parent := .exited 1, fds := closed }
  | _ => none

/-- `wait` returns a child that has ended and was not waited for. -/
def reapStep (who : Who) (s : State β) : Option (State β) :=
  match who with
  | .ls =>
    match s.ls with
    | some ⟨.ended status, fds, false⟩ =>
      State.afterWait { s with ls := some ⟨.ended status, fds, true⟩ } status
    | _ => none
  | .sort =>
    match s.sort with
    | some ⟨.ended status, fds, false⟩ =>
      State.afterWait { s with sort := some ⟨.ended status, fds, true⟩ } status
    | _ => none

/-- `wait` returns -1. -/
def waitFailsStep (s : State β) : Option (State β) :=
  match s.parent with
  | .wait1 => some (s.die .wait)
  | .wait2 => some (s.die .wait)
  | .abortWait => some (s.die .abortWait)
  | _ => none

/-! ### The children -/

/-- The first child is gone, and its files are closed. -/
def lsEnded (c : Child (LsPc β)) (status : Status) : Child (LsPc β) := ⟨.ended status, closed, c.reaped⟩

/-- The second child is gone, and its files are closed. -/
def sortEnded (c : Child (SortPc β)) (status : Status) : Child (SortPc β) :=
  ⟨.ended status, closed, c.reaped⟩

/-- On to `perror` and `exit(1)` in the first child. -/
def State.dieLs (s : State β) (c : Child (LsPc β)) (failure : LsFailure) : State β :=
  { s with ls := some { c with pc := .perror failure } }

/-- On to `perror` and `exit(1)` in the second child. -/
def State.dieSort (s : State β) (c : Child (SortPc β)) (failure : SortFailure) : State β :=
  { s with sort := some { c with pc := .perror failure } }

/-- `perror` and `exit(1)` in a child: the state after the write and the status it ends with.  If its
descriptor 2 is a pipe that nobody reads, the child may be killed. -/
def lastWords (W : World β) (ok : Bool) (fds : Table File) (message : String) (s : State β) :
    Option (State β × Status) :=
  if ok then (report W fds message s).map fun s => (s, .exited 1)
  else if fds STDERR_FILENO = some .writeEnd ∧ ¬ s.Has W .readEnd then some (s, .signaled SIGPIPE)
  else none

/-- A system call of the first child, before it is `ls`. -/
def lsStep (W : World β) (ok : Bool) (c : Child (LsPc β)) (s : State β) : Option (State β) :=
  match c.pc with
  | .closeRead =>
    if ok then some { s with ls := some { c with pc := .dup2, fds := close s.r c.fds } } else none
  | .dup2 =>
    if ok then do
      let fds ← Descriptors.dup2 W.limit s.w STDOUT_FILENO c.fds
      pure { s with ls := some { c with pc := .closeWrite, fds } }
    else some (s.dieLs c .dup2)
  | .closeWrite =>
    if ok then some { s with ls := some { c with pc := .execlp, fds := close s.w c.fds } } else none
  | .execlp =>
    if ok then some { s with ls := some { c with pc := .running W.listing } }
    else some (s.dieLs c .execlp)
  | .perror failure =>
    (lastWords W ok c.fds failure.text s).map fun r => { r.1 with ls := some (lsEnded c r.2) }
  | _ => none

/-- A system call of the second child, before it is `sort`. -/
def sortStep (W : World β) (ok : Bool) (c : Child (SortPc β)) (s : State β) : Option (State β) :=
  match c.pc with
  | .closeWrite =>
    if ok then some { s with sort := some { c with pc := .dup2In, fds := close s.w c.fds } } else none
  | .dup2In =>
    if ok then do
      let fds ← Descriptors.dup2 W.limit s.r STDIN_FILENO c.fds
      pure { s with sort := some { c with pc := .closeRead, fds } }
    else some (s.dieSort c .dup2In)
  | .closeRead =>
    if ok then some { s with sort := some { c with pc := .openOut, fds := close s.r c.fds } } else none
  | .openOut =>
    if ok then do
      let outfileFd ← lowest W.limit c.fds
      pure { s with
        sort := some { c with pc := .dup2Out outfileFd, fds := put outfileFd .outfile c.fds }
        outfile := some [] }
    else some (s.dieSort c .openOut)
  | .dup2Out outfileFd =>
    if ok then do
      let fds ← Descriptors.dup2 W.limit outfileFd STDOUT_FILENO c.fds
      pure { s with sort := some { c with pc := .closeOut outfileFd, fds } }
    else some (s.dieSort c (.dup2Out outfileFd))
  | .closeOut outfileFd =>
    if ok then some { s with sort := some { c with pc := .execlp, fds := close outfileFd c.fds } }
    else none
  | .execlp =>
    if ok then some { s with sort := some { c with pc := .reading [] } }
    else some (s.dieSort c .execlp)
  | .perror failure =>
    (lastWords W ok c.fds failure.text s).map fun r => { r.1 with sort := some (sortEnded c r.2) }
  | _ => none

def childStep (W : World β) (who : Who) (ok : Bool) (s : State β) : Option (State β) :=
  match who with
  | .ls => s.ls.bind fun c => lsStep W ok c s
  | .sort => s.sort.bind fun c => sortStep W ok c s

/-! ### The programs -/

/-- A write fails: the descriptor is not open for writing, or the pipe has no reader. -/
def WriteFails (W : World β) (file : Option File) (s : State β) : Prop :=
  match file with
  | some .writeEnd => ¬ s.Has W .readEnd
  | some .outfile | some (.inherited _) => False
  | _ => True

instance (W : World β) (file : Option File) (s : State β) : Decidable (WriteFails W file s) := by
  unfold WriteFails
  split <;> infer_instance

/-- A read fails: the descriptor is not open for reading. -/
def ReadFails (file : Option File) : Prop :=
  match file with
  | some .readEnd | some (.inherited _) => False
  | _ => True

instance (file : Option File) : Decidable (ReadFails file) := by
  unfold ReadFails
  split <;> infer_instance

/-- A read returns 0: the pipe is empty and has no writer.  (What an inherited file holds is not
modelled; `sort` never reads one.) -/
def AtEof (W : World β) (file : Option File) (s : State β) : Prop :=
  match file with
  | some .readEnd => s.pipe = [] ∧ ¬ s.Has W .writeEnd
  | some (.inherited _) => True
  | _ => False

instance (W : World β) (file : Option File) (s : State β) : Decidable (AtEof W file s) := by
  unfold AtEof
  split <;> infer_instance

/-- A program writes an item to its standard output. -/
def writeStep (W : World β) (who : Who) (s : State β) : Option (State β) :=
  match who with
  | .ls =>
    match s.ls with
    | some ⟨.running (b :: todo), fds, reaped⟩ =>
      (writeTo W (fds STDOUT_FILENO) b s).map fun s => { s with ls := some ⟨.running todo, fds, reaped⟩ }
    | _ => none
  | .sort =>
    match s.sort with
    | some ⟨.writing (b :: todo), fds, reaped⟩ =>
      (writeTo W (fds STDOUT_FILENO) b s).map fun s => { s with sort := some ⟨.writing todo, fds, reaped⟩ }
    | _ => none

/-- `sort` reads an item from the pipe. -/
def readStep (s : State β) : Option (State β) :=
  match s.sort, s.pipe with
  | some ⟨.reading got, fds, reaped⟩, b :: rest =>
    if fds STDIN_FILENO = some .readEnd then
      some { s with pipe := rest, sort := some ⟨.reading (got ++ [b]), fds, reaped⟩ }
    else none
  | _, _ => none

/-- `sort` reads the end of its input, and sorts. -/
def eofStep (W : World β) (s : State β) : Option (State β) :=
  match s.sort with
  | some ⟨.reading got, fds, reaped⟩ =>
    if AtEof W (fds STDIN_FILENO) s then
      some { s with sort := some ⟨.writing (W.sortR got), fds, reaped⟩ }
    else none
  | _ => none

/-- A program that has written everything exits 0. -/
def finishStep (who : Who) (s : State β) : Option (State β) :=
  match who with
  | .ls =>
    match s.ls with
    | some ⟨.running [], fds, reaped⟩ =>
      some { s with ls := some (lsEnded ⟨.running [], fds, reaped⟩ (.exited 0)) }
    | _ => none
  | .sort =>
    match s.sort with
    | some ⟨.writing [], fds, reaped⟩ =>
      some { s with sort := some (sortEnded ⟨.writing [], fds, reaped⟩ (.exited 0)) }
    | _ => none

/-- The program's next read or write fails. -/
def IsRefused (W : World β) (who : Who) (s : State β) : Prop :=
  match who with
  | .ls =>
    match s.ls with
    | some ⟨.running (_ :: _), fds, _⟩ => WriteFails W (fds STDOUT_FILENO) s
    | _ => False
  | .sort =>
    match s.sort with
    | some ⟨.reading _, fds, _⟩ => ReadFails (fds STDIN_FILENO)
    | some ⟨.writing (_ :: _), fds, _⟩ => WriteFails W (fds STDOUT_FILENO) s
    | _ => False

instance (W : World β) (who : Who) (s : State β) : Decidable (IsRefused W who s) := by
  unfold IsRefused
  split <;> split <;> infer_instance

/-- A program ends with a status that is not success. -/
def crashStep (who : Who) (status : Status) (s : State β) : Option (State β) :=
  if status = .exited 0 then none
  else
    match who with
    | .ls =>
      match s.ls with
      | some ⟨.running todo, fds, reaped⟩ =>
        some { s with ls := some (lsEnded ⟨.running todo, fds, reaped⟩ status) }
      | _ => none
    | .sort =>
      match s.sort with
      | some ⟨.reading got, fds, reaped⟩ =>
        some { s with sort := some (sortEnded ⟨.reading got, fds, reaped⟩ status) }
      | some ⟨.writing todo, fds, reaped⟩ =>
        some { s with sort := some (sortEnded ⟨.writing todo, fds, reaped⟩ status) }
      | _ => none

/-! ### Runs -/

/-- One step of the machine. -/
def step (W : World β) (s : State β) : Label → Option (State β)
  | .parent ok => parentStep W ok s
  | .reap who => reapStep who s
  | .waitFails => waitFailsStep s
  | .child who ok => childStep W who ok s
  | .write who => writeStep W who s
  | .read => readStep s
  | .eof => eofStep W s
  | .finish who => finishStep who s
  | .refused who status => if IsRefused W who s then crashStep who status s else none
  | .crash who status => crashStep who status s

/-- The parent at the start of `main`. -/
def initial (W : World β) : State β where
  parent := .pipe
  fds := fun i => (W.inherited i).map .inherited
  r := 0
  w := 0
  ls := none
  sort := none
  pipe := []
  outfile := W.old
  stderr := []

/-- All runs of pipeit. -/
def pipeline (W : World β) : System (State β) Label where
  init s := s = initial W
  step s l t := step W s l = some t

end Csc453.Pipe
