import Csc453.Pipe.Steps

/-!
# Csc453.Pipe.Wiring — which descriptors the two programs start with

The tables of the three processes are functions of their program counters (`World.parentFds`,
`World.lsFds`, `World.sortFds`), which makes the question which files the programs find at
descriptors 0 and 1 one about two tables.  Result: `pipeline_wired`.
-/

namespace Csc453.Pipe

open Descriptors Transition

variable {β : Type} {W : World β} {s t : State β} {l : Label}

/-! ### The tables by program counter -/

namespace World

variable (W : World β)

/-- The table the parent is started with. -/
def start : Table File := fun i => (W.inherited i).map .inherited

/-- `pipefd[0]` and `pipefd[1]`, when there is room for them. -/
def r : ℕ := (lowest W.limit W.start).getD 0

def w : ℕ := (lowest W.limit (put W.r .readEnd W.start)).getD 0

/-- `pipe` found two descriptors. -/
def Piped : Prop :=
  lowest W.limit W.start = some W.r ∧ lowest W.limit (put W.r .readEnd W.start) = some W.w

/-- The table after `pipe`, which both children get. -/
def piped : Table File := put W.w .writeEnd (put W.r .readEnd W.start)

def parentFds : ParentPc → Table File
  | .pipe | .perror .pipe => W.start
  | .forkLs | .forkSort | .closeRead | .abortPerror | .abortCloseRead | .perror .forkLs => W.piped
  | .closeWrite | .abortCloseWrite => close W.r W.piped
  | .wait1 | .wait2 | .abortWait | .perror _ => close W.w (close W.r W.piped)
  | .exited _ => closed

/-- The table after a `dup2` that succeeds. -/
def dupped (old new : ℕ) (t : Table File) : Table File := (dup2 W.limit old new t).getD closed

def lsFds : LsPc β → Table File
  | .closeRead => W.piped
  | .dup2 | .perror .dup2 => close W.r W.piped
  | .closeWrite => W.dupped W.w STDOUT_FILENO (close W.r W.piped)
  | .execlp | .perror .execlp | .running _ => close W.w (W.dupped W.w STDOUT_FILENO (close W.r W.piped))
  | .ended _ => closed

/-- The second child before its `open`. -/
def unopened : Table File := close W.r (W.dupped W.r STDIN_FILENO (close W.w W.piped))

/-- `outfile_fd`. -/
def out : ℕ := (lowest W.limit W.unopened).getD 0

def opened : Table File := put W.out .outfile W.unopened

def sortFds : SortPc β → Table File
  | .closeWrite => W.piped
  | .dup2In | .perror .dup2In => close W.w W.piped
  | .closeRead => W.dupped W.r STDIN_FILENO (close W.w W.piped)
  | .openOut | .perror .openOut => W.unopened
  | .dup2Out _ | .perror (.dup2Out _) => W.opened
  | .closeOut _ => W.dupped W.out STDOUT_FILENO W.opened
  | .execlp | .perror .execlp | .reading _ | .writing _ =>
    close W.out (W.dupped W.out STDOUT_FILENO W.opened)
  | .ended _ => closed

/-- The descriptor the second child got for the output file. -/
def OutFd : SortPc β → Prop
  | .dup2Out o | .closeOut o | .perror (.dup2Out o) => o = W.out ∧ lowest W.limit W.unopened = some o
  | .execlp | .perror .execlp | .reading _ | .writing _ => lowest W.limit W.unopened = some W.out
  | _ => True

theorem dupped_eq {old new : ℕ} {t u : Table File} (h : dup2 W.limit old new t = some u) :
    W.dupped old new t = u := by
  unfold dupped
  rw [h]
  rfl

end World

/-- Where the parent can be without a pipe. -/
def ParentPc.Early : ParentPc → Prop
  | .pipe | .perror .pipe | .exited _ => True
  | _ => False

/-- The three tables are what the program counters say. -/
structure Wiring (W : World β) (s : State β) : Prop where
  pipefd : s.parent.Early ∧ s.ls = none ∧ s.sort = none ∨ W.Piped ∧ s.r = W.r ∧ s.w = W.w
  parentFds : s.fds = W.parentFds s.parent
  lsFds : ∀ c, s.ls = some c → c.fds = W.lsFds c.pc
  sortFds : ∀ c, s.sort = some c → c.fds = W.sortFds c.pc ∧ W.OutFd c.pc

theorem wiring_initial (W : World β) : Wiring W (initial W) :=
  ⟨.inl ⟨trivial, rfl, rfl⟩, rfl, nofun, nofun⟩

theorem Wiring.piped (hI : Wiring W s) (hpc : ¬ s.parent.Early) :
    W.Piped ∧ s.r = W.r ∧ s.w = W.w :=
  hI.pipefd.resolve_left fun h => hpc h.1

theorem Wiring.piped_of_ls (hI : Wiring W s) {c : Child (LsPc β)} (hc : s.ls = some c) :
    W.Piped ∧ s.r = W.r ∧ s.w = W.w := by
  rcases hI.pipefd with ⟨-, hnone, -⟩ | h
  · rw [hc] at hnone
    cases hnone
  · exact h

theorem Wiring.piped_of_sort (hI : Wiring W s) {c : Child (SortPc β)} (hc : s.sort = some c) :
    W.Piped ∧ s.r = W.r ∧ s.w = W.w := by
  rcases hI.pipefd with ⟨-, -, hnone⟩ | h
  · rw [hc] at hnone
    cases hnone
  · exact h

/-- A step of the parent that leaves the pipe's descriptors and the children as they are. -/
theorem Wiring.withParent (hI : Wiring W s) {pc : ParentPc} {fds : Table File}
    (hpc : s.parent.Early → pc.Early) (hfds : fds = W.parentFds pc) (pipe : List β)
    (outfile : Option (List β)) (stderr : List String) :
    Wiring W { s with parent := pc, fds, pipe, outfile, stderr } :=
  ⟨hI.pipefd.imp_left fun h => ⟨hpc h.1, h.2⟩, hfds, hI.lsFds, hI.sortFds⟩

theorem Wiring.die (hI : Wiring W s) {failure : ParentFailure}
    (hpc : s.parent.Early → (ParentPc.perror failure).Early)
    (hfds : W.parentFds s.parent = W.parentFds (.perror failure)) : Wiring W (s.die failure) :=
  hI.withParent hpc (hI.parentFds.trans hfds) s.pipe s.outfile s.stderr

theorem Wiring.waits {status : Status} (hI : Wiring W s) (h : Waits s status t) : Wiring W t := by
  have hearly : s.parent = .wait1 ∨ s.parent = .wait2 ∨ s.parent = .abortWait → ¬ s.parent.Early := by
    rintro (h | h | h) <;> rw [h] <;> exact id
  cases h with
  | first hpc =>
    refine hI.withParent (fun h => absurd h (hearly (.inl hpc))) ?_ s.pipe s.outfile s.stderr
    rw [hI.parentFds, hpc]
    rfl
  | second hpc =>
    exact hI.withParent (fun h => absurd h (hearly (.inr (.inl hpc)))) rfl s.pipe s.outfile s.stderr
  | bad failure hpc hcomplains =>
    refine hI.die (fun h => absurd h (hearly (by tauto))) ?_
    rcases hpc with hpc | hpc <;> rw [hpc] <;> cases hcomplains <;> rfl
  | abort hpc =>
    exact hI.withParent (fun h => absurd h (hearly (.inr (.inr hpc)))) rfl s.pipe s.outfile s.stderr

theorem ParentMoves.wiring (h : ParentMoves W s l t) (hI : Wiring W s) : Wiring W t := by
  cases h with
  | piped r w hpc hr hw =>
    have hfds : s.fds = W.start := by rw [hI.parentFds, hpc]; rfl
    rw [hfds] at hr hw
    have hWr : W.r = r := by unfold World.r; rw [hr]; rfl
    have hWw : W.w = w := by unfold World.w; rw [hWr, hw]; rfl
    refine ⟨.inr ⟨?_, hWr.symm, hWw.symm⟩, ?_, hI.lsFds, hI.sortFds⟩
    · unfold World.Piped
      rw [hWr, hWw]
      exact ⟨hr, hw⟩
    · show put w .writeEnd (put r .readEnd s.fds) = W.piped
      rw [hfds, ← hWr, ← hWw]
      rfl
  | forkedLs hpc =>
    have hfds : s.fds = W.piped := by rw [hI.parentFds, hpc]; rfl
    refine ⟨.inr (hI.piped (by simp [hpc, ParentPc.Early])), hfds, ?_, hI.sortFds⟩
    rintro c hc
    obtain rfl := Option.some.inj hc
    exact hfds
  | forkedSort hpc =>
    have hfds : s.fds = W.piped := by rw [hI.parentFds, hpc]; rfl
    refine ⟨.inr (hI.piped (by simp [hpc, ParentPc.Early])), hfds, hI.lsFds, ?_⟩
    rintro c hc
    obtain rfl := Option.some.inj hc
    exact ⟨hfds, trivial⟩
  | aborts hpc =>
    refine hI.withParent (fun h => ?_) ?_ s.pipe s.outfile s.stderr
    · rw [hpc] at h
      exact h
    · rw [hI.parentFds, hpc]
      rfl
  | aborted message t hpc htold =>
    obtain ⟨pipe, outfile, stderr, rfl⟩ := htold.frame
    refine hI.withParent (fun h => ?_) ?_ pipe outfile stderr
    · rw [hpc] at h
      exact h
    · rw [hI.parentFds, hpc]
      rfl
  | closes pc fd hcloses =>
    have hfds := hI.parentFds
    generalize hp : s.parent = p at hcloses hfds
    cases hcloses with
    | read =>
      obtain ⟨hP, hr, hw⟩ := hI.piped (by simp [hp, ParentPc.Early])
      refine ⟨.inr ⟨hP, hr, hw⟩, ?_, hI.lsFds, hI.sortFds⟩
      rw [hfds, hr]
      rfl
    | write =>
      obtain ⟨hP, hr, hw⟩ := hI.piped (by simp [hp, ParentPc.Early])
      refine ⟨.inr ⟨hP, hr, hw⟩, ?_, hI.lsFds, hI.sortFds⟩
      rw [hfds, hw]
      rfl
    | abortRead =>
      obtain ⟨hP, hr, hw⟩ := hI.piped (by simp [hp, ParentPc.Early])
      refine ⟨.inr ⟨hP, hr, hw⟩, ?_, hI.lsFds, hI.sortFds⟩
      rw [hfds, hr]
      rfl
    | abortWrite =>
      obtain ⟨hP, hr, hw⟩ := hI.piped (by simp [hp, ParentPc.Early])
      refine ⟨.inr ⟨hP, hr, hw⟩, ?_, hI.lsFds, hI.sortFds⟩
      rw [hfds, hw]
      rfl
  | fails l failure hl hfails =>
    refine hI.die ?_ ?_ <;> generalize s.parent = p at hfails
    · cases hfails <;> exact id
    · cases hfails <;> rfl
  | exits failure t hpc htold =>
    obtain ⟨pipe, outfile, stderr, rfl⟩ := htold.frame
    have hearly : s.parent.Early → (ParentPc.exited 1).Early := fun _ => trivial
    exact hI.withParent hearly rfl pipe outfile stderr
  | reapsLs status fds t hls hwaits =>
    have hI' : Wiring W { s with ls := some ⟨.ended status, fds, true⟩ } := by
      refine ⟨.inr (hI.piped_of_ls hls), hI.parentFds, ?_, hI.sortFds⟩
      rintro c hc
      obtain rfl := Option.some.inj hc
      have hold := hI.lsFds _ hls
      exact hold
    exact hI'.waits hwaits
  | reapsSort status fds t hsort hwaits =>
    have hI' : Wiring W { s with sort := some ⟨.ended status, fds, true⟩ } := by
      refine ⟨.inr (hI.piped_of_sort hsort), hI.parentFds, hI.lsFds, ?_⟩
      rintro c hc
      obtain rfl := Option.some.inj hc
      have hold := hI.sortFds _ hsort
      exact hold
    exact hI'.waits hwaits

/-- A step of the first child, as far as the tables go. -/
theorem Wiring.withLs (hI : Wiring W s) {c c' : Child (LsPc β)} (hc : s.ls = some c)
    (hfds : c'.fds = W.lsFds c'.pc) (pipe : List β) (outfile : Option (List β)) (stderr : List String) :
    Wiring W { s with ls := some c', pipe, outfile, stderr } := by
  refine ⟨.inr (hI.piped_of_ls hc), hI.parentFds, ?_, hI.sortFds⟩
  rintro d hd
  obtain rfl := Option.some.inj hd
  exact hfds

theorem LsMoves.wiring (h : LsMoves W s l t) (hI : Wiring W s) : Wiring W t := by
  cases h with
  | code pc fds reaped pc' fds' hls hcode =>
    refine hI.withLs hls ?_ s.pipe s.outfile s.stderr
    obtain ⟨-, hr, hw⟩ := hI.piped_of_ls hls
    have hfds : fds = W.lsFds pc := hI.lsFds _ hls
    cases hcode with
    | closeRead => rw [hfds, hr]; rfl
    | dup2 _ _ hdup =>
      rw [hfds, hw] at hdup
      exact (World.dupped_eq W hdup).symm
    | closeWrite => rw [hfds, hw]; rfl
    | execlp => exact hfds
  | fails pc fds reaped failure hls hfails =>
    have hfds : fds = W.lsFds pc := hI.lsFds _ hls
    refine hI.withLs hls ?_ s.pipe s.outfile s.stderr
    cases hfails <;> exact hfds
  | exits failure fds reaped ok t status hls htold =>
    obtain ⟨pipe, outfile, stderr, rfl⟩ := htold.frame
    exact hI.withLs hls rfl pipe outfile stderr
  | writes b todo fds reaped u hls hu =>
    obtain ⟨pipe, outfile, rfl⟩ := writeTo_frame hu
    refine hI.withLs hls ?_ pipe outfile s.stderr
    have hold := hI.lsFds _ hls
    exact hold
  | ends l todo fds reaped status hls => exact hI.withLs hls rfl s.pipe s.outfile s.stderr

/-- A step of the second child, as far as the tables go. -/
theorem Wiring.withSort (hI : Wiring W s) {c c' : Child (SortPc β)} (hc : s.sort = some c)
    (hfds : c'.fds = W.sortFds c'.pc ∧ W.OutFd c'.pc) (pipe : List β) (outfile : Option (List β))
    (stderr : List String) : Wiring W { s with sort := some c', pipe, outfile, stderr } := by
  refine ⟨.inr (hI.piped_of_sort hc), hI.parentFds, hI.lsFds, ?_⟩
  rintro d hd
  obtain rfl := Option.some.inj hd
  exact hfds

theorem SortMoves.wiring (h : SortMoves W s l t) (hI : Wiring W s) : Wiring W t := by
  cases h with
  | code pc fds reaped pc' fds' hsort hcode =>
    refine hI.withSort hsort ?_ s.pipe s.outfile s.stderr
    obtain ⟨-, hr, hw⟩ := hI.piped_of_sort hsort
    obtain ⟨hfds, hout⟩ := hI.sortFds _ hsort
    dsimp only at hfds hout ⊢
    cases hcode with
    | closeWrite => rw [hfds, hw]; exact ⟨rfl, trivial⟩
    | dup2In _ _ hdup =>
      rw [hfds, hr] at hdup
      exact ⟨(World.dupped_eq W hdup).symm, trivial⟩
    | closeRead => rw [hfds, hr]; exact ⟨rfl, trivial⟩
    | dup2Out o _ _ hdup =>
      rw [hfds, hout.1] at hdup
      exact ⟨(World.dupped_eq W hdup).symm, hout⟩
    | closeOut o =>
      rw [hfds, hout.1]
      refine ⟨rfl, ?_⟩
      rw [hout.1] at hout
      exact hout.2
    | execlp => exact ⟨hfds, hout⟩
  | opens o fds reaped hsort ho =>
    refine hI.withSort hsort ?_ s.pipe _ s.stderr
    have hfds : fds = W.unopened := (hI.sortFds _ hsort).1
    rw [hfds] at ho ⊢
    have hWo : W.out = o := by unfold World.out; rw [ho]; rfl
    rw [← hWo] at ho ⊢
    exact ⟨rfl, rfl, ho⟩
  | fails pc fds reaped failure hsort hfails =>
    obtain ⟨hfds, hout⟩ := hI.sortFds _ hsort
    refine hI.withSort hsort ?_ s.pipe s.outfile s.stderr
    cases hfails <;> exact ⟨hfds, hout⟩
  | exits failure fds reaped ok t status hsort htold =>
    obtain ⟨pipe, outfile, stderr, rfl⟩ := htold.frame
    refine hI.withSort hsort ?_ pipe outfile stderr
    exact ⟨rfl, trivial⟩
  | reads b rest got fds reaped hsort =>
    refine hI.withSort hsort ?_ rest s.outfile s.stderr
    have hold := hI.sortFds _ hsort
    exact hold
  | eof got fds reaped hsort =>
    refine hI.withSort hsort ?_ s.pipe s.outfile s.stderr
    have hold := hI.sortFds _ hsort
    exact hold
  | writes b todo fds reaped u hsort hu =>
    obtain ⟨pipe, outfile, rfl⟩ := writeTo_frame hu
    refine hI.withSort hsort ?_ pipe outfile s.stderr
    have hold := hI.sortFds _ hsort
    exact hold
  | ends l pc fds reaped status hsort =>
    refine hI.withSort hsort ?_ s.pipe s.outfile s.stderr
    exact ⟨rfl, trivial⟩

/-! ### The tables of the programs -/

namespace World

variable (W : World β)

/-- The descriptors of the pipe: the two lowest that were free. -/
theorem Piped.spec {W : World β} (h : W.Piped) :
    W.r < W.w ∧ W.w < W.limit ∧ W.start W.r = none ∧ W.start W.w = none ∧
      ∀ j < W.w, j ≠ W.r → W.start j ≠ none := by
  obtain ⟨hr, hw⟩ := h
  obtain ⟨hr0, -, hbelow⟩ := lowest_eq_some.mp hr
  obtain ⟨hw0, hlt, hused⟩ := lowest_eq_some.mp hw
  have hne : W.w ≠ W.r := by
    intro heq
    rw [heq, put_self] at hw0
    cases hw0
  rw [put_of_ne hne] at hw0
  refine ⟨?_, hlt, hr0, hw0, fun j hj hjr => ?_⟩
  · by_contra hle
    exact hbelow W.w (by omega) hw0
  · have := hused j hj
    rwa [put_of_ne hjr] at this

theorem start_eq_none {i : ℕ} : W.start i = none ↔ W.inherited i = none := Option.map_eq_none_iff

variable {W}

theorem lsFds_running (h : W.Piped) (todo : List β) :
    W.lsFds (.running todo) = if W.w = 1 then W.start else put 1 .writeEnd W.start := by
  obtain ⟨hlt, hlimit, hr, hw, -⟩ := h.spec
  have hdup : dup2 W.limit W.w STDOUT_FILENO (close W.r W.piped) =
      some (if W.w = 1 then close W.r W.piped else put 1 .writeEnd (close W.r W.piped)) := by
    have hend : close W.r W.piped W.w = some .writeEnd := by
      rw [close_of_ne (by omega)]
      exact put_self _ _ _
    unfold dup2
    rw [hend]
    dsimp only
    rw [if_neg (show ¬ W.limit ≤ 1 by omega)]
    split_ifs <;> rfl
  unfold lsFds
  rw [dupped_eq W hdup]
  funext i
  split_ifs with h1
  · simp only [World.piped, close_apply, put_apply]
    split_ifs with hiw hir
    · rw [hiw, hw]
    · rw [hir, hr]
    · rfl
  · simp only [World.piped, close_apply, put_apply]
    split_ifs with hiw hi1 hi1 hir
    · omega
    · rw [hiw, hw]
    · rfl
    · rw [hir, hr]
    · rfl

/-- The second child before its `open` has the pipe at descriptor 0, unless the pipe was made there. -/
theorem unopened_eq (h : W.Piped) :
    W.unopened = if W.r = 0 then W.start else put 0 .readEnd W.start := by
  obtain ⟨hlt, hlimit, hr, hw, -⟩ := h.spec
  have hdup : dup2 W.limit W.r STDIN_FILENO (close W.w W.piped) =
      some (if W.r = 0 then close W.w W.piped else put 0 .readEnd (close W.w W.piped)) := by
    have hend : close W.w W.piped W.r = some .readEnd := by
      rw [close_of_ne (by omega)]
      exact (put_of_ne (by omega) _ _).trans (put_self _ _ _)
    unfold dup2
    rw [hend]
    dsimp only
    rw [if_neg (show ¬ W.limit ≤ 0 by omega)]
    split_ifs <;> rfl
  unfold unopened
  rw [dupped_eq W hdup]
  funext i
  split_ifs with h0
  · simp only [World.piped, close_apply, put_apply]
    split_ifs with hir hiw
    · rw [hir, hr]
    · rw [hiw, hw]
    · rfl
  · simp only [World.piped, close_apply, put_apply]
    split_ifs with hir hi0 hi0 hiw
    · omega
    · rw [hir, hr]
    · rfl
    · rw [hiw, hw]
    · rfl

/-- The output file gets the descriptor the read end had. -/
theorem out_eq (h : W.Piped) : lowest W.limit W.unopened = some W.r := by
  obtain ⟨hlt, hlimit, hr, hw, hused⟩ := h.spec
  rw [unopened_eq h, lowest_eq_some]
  split_ifs with h0
  · exact ⟨hr, by omega, fun j hj => hused j (by omega) (by omega)⟩
  · refine ⟨?_, by omega, fun j hj => ?_⟩
    · rw [put_of_ne h0]
      exact hr
    · rw [put_apply]
      split_ifs
      · simp
      · exact hused j (by omega) (by omega)

theorem out_eq_r (h : W.Piped) : W.out = W.r := by
  unfold out
  rw [out_eq h]
  rfl

/-- The table `sort` starts with. -/
def sortTable (W : World β) : Table File :=
  if W.r = 0 then put 1 .outfile W.start
  else if W.r = 1 then put 0 .readEnd W.start
  else put 1 .outfile (put 0 .readEnd W.start)

theorem sortFds_reading (h : W.Piped) (got : List β) : W.sortFds (.reading got) = W.sortTable := by
  obtain ⟨hlt, hlimit, hr, hw, -⟩ := h.spec
  have hout := out_eq_r h
  have hopened : W.opened = put W.r .outfile W.unopened := by rw [opened, hout]
  have hdup : dup2 W.limit W.out STDOUT_FILENO W.opened =
      some (if W.r = 1 then W.opened else put 1 .outfile W.opened) := by
    have hend : W.opened W.out = some .outfile := put_self _ _ _
    unfold dup2
    rw [hend, hout]
    dsimp only
    rw [if_neg (show ¬ W.limit ≤ 1 by omega)]
    split_ifs <;> rfl
  unfold sortFds sortTable
  rw [dupped_eq W hdup, hopened, unopened_eq h, hout]
  funext i
  by_cases h0 : W.r = 0
  · rw [if_pos h0, if_pos h0, if_neg (by omega)]
    simp only [close_apply, put_apply]
    split_ifs with hir hi1
    · omega
    · rw [hir, hr]
    · rfl
    · rfl
  rw [if_neg h0, if_neg h0]
  by_cases h1 : W.r = 1
  · rw [if_pos h1, if_pos h1]
    simp only [close_apply, put_apply]
    split_ifs with hir hi0
    · omega
    · rw [hir, hr]
    · rfl
    · rfl
  · rw [if_neg h1, if_neg h1]
    simp only [close_apply, put_apply]
    split_ifs with hir hi1 hi0
    · omega
    · omega
    · rw [hir, hr]
    all_goals rfl

end World

theorem reachable_wiring (h : Reachable (pipeline W) s) : Wiring W s := by
  refine Reachable.invariant (fun s h0 => ?_) (fun s l t hI hs => ?_) h
  · obtain rfl := h0
    exact wiring_initial W
  · rcases step_cases hs with hm | hm | hm
    · exact hm.wiring hI
    · exact hm.wiring hI
    · exact hm.wiring hI

/-! ### Who has what -/

/-- The second child has become `sort`. -/
def SortPc.IsProgram : SortPc β → Prop
  | .reading _ | .writing _ => True
  | _ => False

/-- The parent waits. -/
def ParentPc.Waiting : ParentPc → Prop
  | .wait1 | .wait2 | .abortWait => True
  | _ => False

/-- The programs run on the files they should, exactly if descriptors 0 and 1 were open when pipeit was
started, and nobody keeps another descriptor than those it was started with. -/
structure Plumbed (W : World β) (s : State β) : Prop where
  parent : s.parent.Waiting → s.fds = W.start
  ls : ∀ todo fds reaped, s.ls = some ⟨.running todo, fds, reaped⟩ →
    (∀ i, i ≠ STDOUT_FILENO → fds i = W.start i) ∧
      (fds STDOUT_FILENO = some .writeEnd ↔ W.inherited 0 ≠ none ∨ W.inherited 1 ≠ none)
  sort : ∀ c, s.sort = some c → c.pc.IsProgram →
    (∀ i, i ≠ STDIN_FILENO → i ≠ STDOUT_FILENO → c.fds i = W.start i) ∧
      (c.fds STDIN_FILENO = some .readEnd ∧ c.fds STDOUT_FILENO = some .outfile ↔
        W.inherited 0 ≠ none ∧ W.inherited 1 ≠ none)

namespace World

/-- A file the parent was started with is no end of the pipe and not the output file. -/
theorem start_ne {f : File} (hf : ∀ k, f ≠ .inherited k) (i : ℕ) : W.start i ≠ some f := by
  intro h
  obtain ⟨k, -, hk⟩ := Option.map_eq_some_iff.mp h
  exact hf k hk.symm

theorem r_eq_zero (h : W.Piped) : W.r = 0 ↔ W.inherited 0 = none := by
  obtain ⟨hlt, -, hr, -, hused⟩ := h.spec
  rw [← start_eq_none]
  refine ⟨fun h0 => h0 ▸ hr, fun h0 => ?_⟩
  by_contra hne
  exact hused 0 (by omega) (by omega) h0

theorem r_eq_one (h : W.Piped) : W.r = 1 ↔ W.inherited 0 ≠ none ∧ W.inherited 1 = none := by
  obtain ⟨hlt, -, hr, -, hused⟩ := h.spec
  rw [← start_eq_none, ne_eq, ← r_eq_zero h]
  refine ⟨fun h1 => ⟨by omega, h1 ▸ hr⟩, fun ⟨h0, h1⟩ => ?_⟩
  by_contra hne
  exact hused 1 (by omega) (by omega) h1

theorem w_eq_one (h : W.Piped) : W.w = 1 ↔ W.inherited 0 = none ∧ W.inherited 1 = none := by
  obtain ⟨hlt, -, hr, hw, hused⟩ := h.spec
  rw [← start_eq_none (i := 1), ← r_eq_zero h]
  refine ⟨fun h1 => ⟨by omega, h1 ▸ hw⟩, fun ⟨h0, h1⟩ => ?_⟩
  by_contra hne
  exact hused 1 (by omega) (by omega) h1

end World

theorem Wiring.parent_start (hI : Wiring W s) (hwait : s.parent.Waiting) : s.fds = W.start := by
  have hearly : ¬ s.parent.Early := by
    intro hearly
    cases hpc : s.parent <;> rw [hpc] at hwait hearly <;> first | exact hwait | exact hearly
  obtain ⟨hlt, -, hr, hw, -⟩ := (hI.piped hearly).1.spec
  have hfds : s.fds = close W.w (close W.r W.piped) := by
    rw [hI.parentFds]
    cases hpc : s.parent <;> first | rfl | (rw [hpc] at hwait; exact hwait.elim)
  rw [hfds]
  funext i
  simp only [World.piped, close_apply, put_apply]
  split_ifs with hiw hir
  · rw [hiw, hw]
  · rw [hir, hr]
  · rfl

/-- **The pipeline is plumbed** in every reachable state. -/
theorem pipeline_wired (h : Reachable (pipeline W) s) : Plumbed W s := by
  have hI := reachable_wiring h
  refine ⟨hI.parent_start, fun todo fds reaped hls => ?_, fun c hsort hprog => ?_⟩
  · obtain ⟨hP, -, -⟩ := hI.piped_of_ls hls
    have hfds : fds = _ := (hI.lsFds _ hls).trans (World.lsFds_running hP todo)
    have hstart := World.start_ne (W := W) (f := .writeEnd) nofun 1
    rw [← not_and_or, ← World.w_eq_one hP, hfds]
    split_ifs with hw
    · exact ⟨fun _ _ => rfl, iff_of_false hstart (not_not.mpr hw)⟩
    · exact ⟨fun i hi => put_of_ne hi _ _, iff_of_true (put_self _ _ _) hw⟩
  · obtain ⟨hP, -, -⟩ := hI.piped_of_sort hsort
    have hfds : c.fds = W.sortTable := by
      rw [(hI.sortFds c hsort).1]
      obtain ⟨pc, fds, reaped⟩ := c
      cases pc with
      | reading got => exact World.sortFds_reading hP got
      | writing todo => exact World.sortFds_reading hP []
      | _ => exact hprog.elim
    have h0 := World.r_eq_zero hP
    have h1 := World.r_eq_one hP
    have hread := World.start_ne (W := W) (f := .readEnd) nofun 0
    have hout := World.start_ne (W := W) (f := .outfile) nofun 1
    rw [hfds]
    unfold World.sortTable
    split_ifs with hr0 hr1
    · refine ⟨fun i _ hi => put_of_ne hi _ _, iff_of_false (fun h => ?_) fun h => h.1 (h0.mp hr0)⟩
      rw [put_of_ne (by decide)] at h
      exact hread h.1
    · refine ⟨fun i hi _ => put_of_ne hi _ _, iff_of_false (fun h => ?_) fun h => h.2 (h1.mp hr1).2⟩
      have hclosed := h.2
      rw [put_of_ne (by decide)] at hclosed
      exact hout hclosed
    · refine ⟨fun i hi0 hi1 => ?_, iff_of_true ⟨?_, put_self _ _ _⟩ ⟨?_, ?_⟩⟩
      · rw [put_of_ne hi1, put_of_ne hi0]
      · rw [put_of_ne (by decide)]
        exact put_self _ _ _
      · exact fun hnone => hr0 (h0.mpr hnone)
      · exact fun hnone => hr1 (h1.mpr ⟨fun h => hr0 (h0.mpr h), hnone⟩)

/-- Two files to list, standard input, output and error open. -/
def shell : World ℕ where
  limit := 16
  capacity := 1
  inherited := fun i => if i < 3 then some i else none
  old := none
  listing := [1, 2]
  sortR := List.reverse
  line := String.length

/-- The calls up to both `execlp`s. -/
def startup : List Label :=
  List.replicate 3 (.parent true) ++ List.replicate 4 (.child .ls true) ++
    List.replicate 7 (.child .sort true)

theorem pipeline_wired_startup : ∃ s, after shell startup = some s ∧ Plumbed shell s :=
  have hafter : ∃ s, after shell startup = some s := ⟨_, rfl⟩
  hafter.imp fun _ hs => ⟨hs, pipeline_wired (reachable_after hs)⟩

end Csc453.Pipe
