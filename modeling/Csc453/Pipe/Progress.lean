import Csc453.Pipe.Output

/-!
# Csc453.Pipe.Progress — pipeit ends

Every step lowers `State.rank`: the parent's remaining calls, two for each item `ls` has to write, one
for each item in the pipe and what `sort` has left, where `World.sorted` bounds what it will write.  And
until everything is over some step can be taken that is no accident (`exists_step`): what keeps a
reader waiting is a writer that can move.  Results: `pipeline_terminates`, `pipeline_completes`.
-/

namespace Csc453.Pipe

open Descriptors Transition

variable {β : Type} {W : World β} {s t : State β} {l : Label}

/-! ### The measure -/

def ParentPc.rank : ParentPc → ℕ
  | .pipe => 8
  | .forkLs => 7
  | .forkSort => 6
  | .closeRead => 5
  | .closeWrite => 4
  | .wait1 => 3
  | .wait2 => 2
  | .abortPerror => 5
  | .abortCloseRead => 4
  | .abortCloseWrite => 3
  | .abortWait => 2
  | .perror _ => 1
  | .exited _ => 0

/-- What the first child has left to do: an item it writes still has to be read. -/
def lsRank (W : World β) : Option (LsPc β) → ℕ
  | none | some .closeRead => 2 * W.listing.length + 5
  | some .dup2 => 2 * W.listing.length + 4
  | some .closeWrite => 2 * W.listing.length + 3
  | some .execlp => 2 * W.listing.length + 2
  | some (.perror _) => 1
  | some (.running todo) => 2 * todo.length + 1
  | some (.ended _) => 0

/-- The most that `sort` writes for a beginning of the listing. -/
def World.sorted (W : World β) : ℕ :=
  (Finset.range (W.listing.length + 1)).sup fun n => (W.sortR (W.listing.take n)).length

def sortRank (W : World β) : Option (SortPc β) → ℕ
  | none | some .closeWrite => W.sorted + 9
  | some .dup2In => W.sorted + 8
  | some .closeRead => W.sorted + 7
  | some .openOut => W.sorted + 6
  | some (.dup2Out _) => W.sorted + 5
  | some (.closeOut _) => W.sorted + 4
  | some .execlp => W.sorted + 3
  | some (.perror _) => 1
  | some (.reading _) => W.sorted + 2
  | some (.writing todo) => todo.length + 1
  | some (.ended _) => 0

def State.rank (W : World β) (s : State β) : ℕ :=
  s.parent.rank + lsRank W s.lsPc + s.pipe.length + sortRank W s.sortPc

theorem length_le_sorted {got : List β} (h : got <+: W.listing) : (W.sortR got).length ≤ W.sorted := by
  have hmem : got.length ∈ Finset.range (W.listing.length + 1) := by
    rw [Finset.mem_range]
    have := h.length_le
    omega
  have hle := Finset.le_sup (f := fun n => (W.sortR (W.listing.take n)).length) hmem
  rwa [← List.prefix_iff_eq_take.mp h] at hle

theorem Waits.rank_lt {status : Status} (h : Waits s status t) :
    t.parent.rank < s.parent.rank ∧ t.lsPc = s.lsPc ∧ t.pipe = s.pipe ∧ t.sortPc = s.sortPc := by
  cases h with
  | first hpc => exact ⟨by simp [hpc, ParentPc.rank], rfl, rfl, rfl⟩
  | second hpc => exact ⟨by simp [hpc, ParentPc.rank], rfl, rfl, rfl⟩
  | bad failure hpc =>
    refine ⟨?_, rfl, rfl, rfl⟩
    show 1 < s.parent.rank
    rcases hpc with hpc | hpc <;> simp [hpc, ParentPc.rank]
  | abort hpc => exact ⟨by simp [hpc, ParentPc.rank], rfl, rfl, rfl⟩

/-- A step of the parent takes it further, and leaves the rest as it is. -/
theorem ParentMoves.rank_lt (h : ParentMoves W s l t) (hwired : Wiring W s) (hT : Tracked s)
    (hw : W.w ≠ STDERR_FILENO) :
    t.parent.rank < s.parent.rank ∧ lsRank W t.lsPc = lsRank W s.lsPc ∧ t.pipe = s.pipe ∧
      sortRank W t.sortPc = sortRank W s.sortPc := by
  have hdry := (hwired.parent_outside hw).1
  unfold Tracked at hT
  cases h with
  | piped r w hpc => exact ⟨by simp [hpc, ParentPc.rank], rfl, rfl, rfl⟩
  | forkedLs hpc =>
    rw [hpc] at hT
    refine ⟨by simp [hpc, ParentPc.rank], ?_, rfl, rfl⟩
    unfold State.lsPc
    rw [hT.1]
    rfl
  | forkedSort hpc =>
    rw [hpc] at hT
    refine ⟨by simp [hpc, ParentPc.rank], rfl, rfl, ?_⟩
    unfold State.sortPc
    rw [hT.2]
    rfl
  | aborts hpc => exact ⟨by simp [hpc, ParentPc.rank], rfl, rfl, rfl⟩
  | closes pc fd hcloses =>
    refine ⟨?_, rfl, rfl, rfl⟩
    generalize s.parent = p at hcloses
    cases hcloses <;> simp [ParentPc.rank]
  | fails l failure hl hfails =>
    refine ⟨?_, rfl, rfl, rfl⟩
    show 1 < s.parent.rank
    generalize s.parent = p at hfails
    cases hfails <;> simp [ParentPc.rank]
  | aborted message u hpc htold =>
    obtain ⟨outfile, stderr, rfl⟩ := htold.dry hdry
    exact ⟨by simp [hpc, ParentPc.rank], rfl, rfl, rfl⟩
  | exits failure u hpc htold =>
    obtain ⟨outfile, stderr, rfl⟩ := htold.dry hdry
    exact ⟨by simp [hpc, ParentPc.rank], rfl, rfl, rfl⟩
  | reapsLs status fds t hls hwaits =>
    obtain ⟨hlt, hlsPc, hpipe, hsortPc⟩ := hwaits.rank_lt
    refine ⟨hlt, ?_, hpipe, by rw [hsortPc]; rfl⟩
    rw [hlsPc, lsPc_of hls]
    rfl
  | reapsSort status fds t hsort hwaits =>
    obtain ⟨hlt, hlsPc, hpipe, hsortPc⟩ := hwaits.rank_lt
    refine ⟨hlt, by rw [hlsPc]; rfl, hpipe, ?_⟩
    rw [hsortPc, sortPc_of hsort]
    rfl

theorem lsRank_pos {pc : LsPc β} (halive : pc.Alive) : 0 < lsRank W (some pc) := by
  cases pc <;> first | exact Nat.succ_pos _ | exact halive.elim

theorem sortRank_pos {pc : SortPc β} (halive : pc.Alive) : 0 < sortRank W (some pc) := by
  cases pc <;> first | exact Nat.succ_pos _ | exact halive.elim

/-- An item goes from `ls` to the pipe at most. -/
theorem LsMoves.rank_lt (h : LsMoves W s l t) (hwired : Wiring W s) (hw : W.w ≠ STDERR_FILENO) :
    t.parent = s.parent ∧ lsRank W t.lsPc + t.pipe.length < lsRank W s.lsPc + s.pipe.length ∧
      t.sortPc = s.sortPc := by
  cases h with
  | code pc fds reaped pc' fds' hls hcode =>
    refine ⟨rfl, ?_, rfl⟩
    rw [lsPc_of hls]
    refine Nat.add_lt_add_right (m := lsRank W (some pc)) ?_ _
    cases hcode <;> exact Nat.lt_succ_self _
  | fails pc fds reaped failure hls hfails =>
    refine ⟨rfl, ?_, rfl⟩
    rw [lsPc_of hls]
    refine Nat.add_lt_add_right (n := 1) (m := lsRank W (some pc)) ?_ _
    cases hfails <;> exact Nat.succ_lt_succ (Nat.succ_pos _)
  | exits failure fds reaped ok u status hls htold =>
    obtain ⟨outfile, stderr, rfl⟩ := htold.dry (hwired.ls_outside hw hls).1
    refine ⟨rfl, ?_, rfl⟩
    rw [lsPc_of hls]
    exact Nat.add_lt_add_right (n := 0) Nat.one_pos _
  | writes b todo fds reaped u hls hu =>
    have hfd := hwired.ls_stdout hls
    unfold writeTo at hu
    rw [hfd] at hu
    split_ifs at hu
    obtain rfl := Option.some.inj hu
    refine ⟨rfl, ?_, rfl⟩
    rw [lsPc_of hls]
    show 2 * todo.length + 1 + (s.pipe ++ [b]).length < 2 * (todo.length + 1) + 1 + s.pipe.length
    rw [List.length_append, List.length_singleton]
    omega
  | ends l todo fds reaped status hls =>
    refine ⟨rfl, ?_, rfl⟩
    rw [lsPc_of hls]
    have halive : (LsPc.running todo).Alive := trivial
    exact Nat.add_lt_add_right (lsRank_pos halive) _

/-- An item goes from the pipe to `sort`; what it writes was counted before. -/
theorem SortMoves.rank_lt (h : SortMoves W s l t) (hwired : Wiring W s) (hT : Tracked s)
    (hI : Flow W s) (hw : W.w ≠ STDERR_FILENO) :
    t.parent = s.parent ∧ t.lsPc = s.lsPc ∧
      t.pipe.length + sortRank W t.sortPc < s.pipe.length + sortRank W s.sortPc := by
  cases h with
  | code pc fds reaped pc' fds' hsort hcode =>
    refine ⟨rfl, rfl, ?_⟩
    rw [sortPc_of hsort]
    refine Nat.add_lt_add_left (m := sortRank W (some pc)) ?_ _
    cases hcode <;> exact Nat.lt_succ_self _
  | opens o fds reaped hsort =>
    refine ⟨rfl, rfl, ?_⟩
    rw [sortPc_of hsort]
    exact Nat.lt_succ_self _
  | fails pc fds reaped failure hsort hfails =>
    refine ⟨rfl, rfl, ?_⟩
    rw [sortPc_of hsort]
    refine Nat.add_lt_add_left (n := 1) (m := sortRank W (some pc)) ?_ _
    cases hfails <;> exact Nat.succ_lt_succ (Nat.succ_pos _)
  | exits failure fds reaped ok u status hsort htold =>
    have hdry := hwired.sort_lacks (f := .writeEnd) (by simp) (by simp) (.inr hw) (.inl (by simp)) hsort
    obtain ⟨outfile, stderr, rfl⟩ := htold.dry hdry
    refine ⟨rfl, rfl, ?_⟩
    rw [sortPc_of hsort]
    exact Nat.lt_succ_self _
  | reads b rest got fds reaped hsort hpipe =>
    refine ⟨rfl, rfl, ?_⟩
    rw [sortPc_of hsort, hpipe]
    exact Nat.add_lt_add_right (Nat.lt_succ_self _) _
  | eof got fds reaped hsort heof =>
    refine ⟨rfl, rfl, ?_⟩
    have hle := length_le_sorted (wrote_of_eof hwired hT hI hsort heof).1
    rw [sortPc_of hsort]
    show s.pipe.length + ((W.sortR got).length + 1) < s.pipe.length + (W.sorted + 2)
    omega
  | writes b todo fds reaped u hsort hu =>
    have hfd : fds STDOUT_FILENO = _ := hwired.sort_stdout hsort trivial
    unfold writeTo at hu
    rw [hfd] at hu
    have h1 : W.r ≠ 1 := by
      intro h1
      rw [if_pos h1] at hu
      cases hu
    rw [if_neg h1] at hu
    obtain rfl := Option.some.inj hu
    refine ⟨rfl, rfl, ?_⟩
    rw [sortPc_of hsort]
    exact Nat.lt_succ_self _
  | ends l pc fds reaped status hsort hends =>
    refine ⟨rfl, rfl, ?_⟩
    rw [sortPc_of hsort]
    refine Nat.add_lt_add_left (n := 0) (sortRank_pos ?_) _
    rcases hends with ⟨⟨got, rfl⟩, -⟩ | ⟨todo, rfl, -⟩ <;> trivial

theorem step_rank_lt (hw : W.w ≠ STDERR_FILENO) (h : Reachable (pipeline W) s)
    (hs : step W s l = some t) : t.rank W < s.rank W := by
  have hwired := reachable_wiring h
  have hT := reachable_tracked h
  unfold State.rank
  rcases step_cases hs with hm | hm | hm
  · obtain ⟨hparent, hls, hpipe, hsort⟩ := hm.rank_lt hwired hT hw
    rw [hls, hpipe, hsort]
    omega
  · obtain ⟨hparent, hls, hsort⟩ := hm.rank_lt hwired hw
    rw [hparent, hsort]
    omega
  · obtain ⟨hparent, hls, hsort⟩ := hm.rank_lt hwired hT (reachable_flow h (.inr hw)) hw
    rw [hparent, hls]
    omega

/-! ### Something can be done -/

/-- What nobody can count on: a crash, or a `wait` that fails. -/
def Label.Accident : Label → Prop
  | .waitFails | .crash _ _ => True
  | _ => False

/-- The step can be taken. -/
def Enabled (W : World β) (s : State β) (l : Label) : Prop := ∃ t, step W s l = some t

/-- The processes have all ended. -/
structure Over (s : State β) : Prop where
  parent : ∃ code, s.parent = .exited code
  ls : ∀ c, s.ls = some c → ¬ c.pc.Alive
  sort : ∀ c, s.sort = some c → ¬ c.pc.Alive

/-- The parent does nothing until a child ends. -/
def ParentPc.Idle : ParentPc → Prop
  | .wait1 | .wait2 | .abortWait | .exited _ => True
  | _ => False

theorem Wiring.parent_closed (hI : Wiring W s) (hidle : s.parent.Idle) {f : File}
    (hf : ∀ k, f ≠ .inherited k) : ¬ Open W.limit s.fds f := by
  rintro ⟨i, -, hi⟩
  cases hpc : s.parent with
  | exited code =>
    rw [hI.parentFds, hpc] at hi
    cases hi
  | wait1 | wait2 | abortWait =>
    rw [hI.parent_start (by rw [hpc]; trivial)] at hi
    exact World.start_ne hf i hi
  | _ =>
    rw [hpc] at hidle
    exact hidle.elim

/-- While the parent is idle the ends of the pipe are open in the children only. -/
theorem State.Has.cases {f : File} (h : s.Has W f) (hparent : ¬ Open W.limit s.fds f) :
    (∃ c, s.ls = some c ∧ Open W.limit c.fds f) ∨ ∃ c, s.sort = some c ∧ Open W.limit c.fds f := by
  obtain ⟨t, ht, hopen⟩ := h
  simp only [State.tables, List.cons_append, List.mem_cons, List.mem_append, Option.mem_toList,
    Option.map_eq_some_iff] at ht
  rcases ht with rfl | ⟨c, hc, rfl⟩ | ⟨c, hc, rfl⟩
  · exact absurd hopen hparent
  · exact .inl ⟨c, hc, hopen⟩
  · exact .inr ⟨c, hc, hopen⟩

theorem Wiring.ls_no_reader (hI : Wiring W s) {todo : List β} {fds : Table File} {reaped : Bool}
    (hls : s.ls = some ⟨.running todo, fds, reaped⟩) : ¬ Open W.limit fds .readEnd := by
  rintro ⟨i, -, hi⟩
  obtain ⟨hP, -, -⟩ := hI.piped_of_ls hls
  have hfds : fds = _ := (hI.lsFds _ hls).trans (World.lsFds_running hP todo)
  have hstart := World.start_ne (W := W) (f := .readEnd) nofun i
  rw [hfds] at hi
  split_ifs at hi
  · exact hstart hi
  · rw [put_apply] at hi
    split_ifs at hi
    · cases hi
    · exact hstart hi

theorem Wiring.sort_no_writer (hI : Wiring W s) {c : Child (SortPc β)} (hsort : s.sort = some c)
    (hprog : c.pc.IsProgram) : ¬ Open W.limit c.fds .writeEnd := by
  rintro ⟨i, -, hi⟩
  have hstart := World.start_ne (W := W) (f := .writeEnd) nofun i
  rw [hI.sort_fds hsort hprog] at hi
  unfold World.sortTable at hi
  split_ifs at hi <;> simp only [put_apply] at hi <;> split_ifs at hi <;>
    first | exact hstart hi | cases hi

theorem ls_speaks {fds : Table File} {reaped : Bool} {failure : LsFailure}
    (hls : s.ls = some ⟨.perror failure, fds, reaped⟩) (hdry : Lacks .writeEnd fds) :
    Enabled W s (.child .ls true) := by
  obtain ⟨t, ht⟩ := exists_report (W := W) hdry failure.text s
  refine Option.isSome_iff_exists.mp ?_
  show (s.ls.bind fun c => lsStep W true c s).isSome
  simp [hls, lsStep, lastWords, ht]

theorem sort_speaks {fds : Table File} {reaped : Bool} {failure : SortFailure}
    (hsort : s.sort = some ⟨.perror failure, fds, reaped⟩) (hdry : Lacks .writeEnd fds) :
    Enabled W s (.child .sort true) := by
  obtain ⟨t, ht⟩ := exists_report (W := W) hdry failure.text s
  refine Option.isSome_iff_exists.mp ?_
  show (s.sort.bind fun c => sortStep W true c s).isSome
  simp [hsort, sortStep, lastWords, ht]

/-- `sort` can do something, unless it reads from an empty pipe that has a writer. -/
theorem sort_enabled (hwired : Wiring W s) (hquiet : Clean s ∨ W.w ≠ STDERR_FILENO)
    {c : Child (SortPc β)} (hsort : s.sort = some c) (halive : c.pc.Alive)
    (hpipe : c.pc.IsProgram → s.pipe ≠ [] ∨ ¬ s.Has W .writeEnd) :
    ∃ l : Label, ¬ l.Accident ∧ Enabled W s l := by
  have hspeaks : ∀ failure, c.pc = .perror failure → Enabled W s (.child .sort true) := by
    intro failure hpc
    obtain ⟨pc, fds, reaped⟩ := c
    obtain rfl : pc = .perror failure := hpc
    have hw := hquiet.resolve_left fun h => h.sort _ hsort trivial
    exact sort_speaks hsort (hwired.sort_lacks (by simp) (by simp) (.inr hw) (.inl (by simp)) hsort)
  have hin : c.pc.IsProgram → c.fds STDIN_FILENO = _ := hwired.sort_stdin hsort
  have hout : c.pc.IsProgram → c.fds STDOUT_FILENO = _ := hwired.sort_stdout hsort
  obtain ⟨parent, pfds, r, w, ls, sort, pipe, outfile, stderr⟩ := s
  obtain ⟨pc, fds, reaped⟩ := c
  dsimp only at hsort hin hout hpipe hspeaks
  subst hsort
  cases pc with
  | closeWrite => exact ⟨.child .sort true, id, _, rfl⟩
  | dup2In => exact ⟨.child .sort false, id, _, rfl⟩
  | closeRead => exact ⟨.child .sort true, id, _, rfl⟩
  | openOut => exact ⟨.child .sort false, id, _, rfl⟩
  | dup2Out o => exact ⟨.child .sort false, id, _, rfl⟩
  | closeOut o => exact ⟨.child .sort true, id, _, rfl⟩
  | execlp => exact ⟨.child .sort true, id, _, rfl⟩
  | perror failure => exact ⟨.child .sort true, id, hspeaks failure rfl⟩
  | reading got =>
    replace hin := hin trivial
    split_ifs at hin with h0
    · refine ⟨.refused .sort (.exited 1), id, _, if_pos ?_⟩
      show ReadFails (fds STDIN_FILENO)
      rw [hin]
      trivial
    · cases pipe with
      | cons b rest => exact ⟨.read, id, _, if_pos hin⟩
      | nil =>
        refine ⟨.eof, id, _, if_pos ?_⟩
        rw [hin]
        exact ⟨rfl, (hpipe trivial).resolve_left fun h => h rfl⟩
  | writing todo =>
    replace hout := hout trivial
    cases todo with
    | nil => exact ⟨.finish .sort, id, _, rfl⟩
    | cons b todo =>
      split_ifs at hout with h1
      · refine ⟨.refused .sort (.exited 1), id, _, if_pos ?_⟩
        show WriteFails W (fds STDOUT_FILENO) _
        rw [hout]
        trivial
      · refine ⟨.write .sort, id, Option.isSome_iff_exists.mp ?_⟩
        show (Option.map _ (writeTo W (fds STDOUT_FILENO) b _)).isSome
        rw [hout]
        rfl
  | ended status => exact halive.elim

/-- `ls` can do something, or `sort` can: a full pipe has a reader. -/
theorem ls_enabled (hcap : 0 < W.capacity) (hwired : Wiring W s)
    (hquiet : Clean s ∨ W.w ≠ STDERR_FILENO) (hidle : s.parent.Idle) {c : Child (LsPc β)}
    (hls : s.ls = some c) (halive : c.pc.Alive) : ∃ l : Label, ¬ l.Accident ∧ Enabled W s l := by
  obtain ⟨pc, fds, reaped⟩ := c
  have hspeaks : ∀ failure, pc = .perror failure → Enabled W s (.child .ls true) := by
    rintro failure rfl
    have hw := hquiet.resolve_left fun h => h.ls _ hls trivial
    exact ls_speaks hls (hwired.ls_outside hw hls).1
  -- A full pipe has something in it, and its reader is `sort`.
  have hfull : ∀ todo, pc = .running todo → s.Has W .readEnd → ¬ s.pipe.length < W.capacity →
      ∃ l : Label, ¬ l.Accident ∧ Enabled W s l := by
    rintro todo rfl hreader hfull
    rcases hreader.cases (hwired.parent_closed hidle nofun) with ⟨d, hd, hopen⟩ | ⟨d, hsort, hopen⟩
    · obtain rfl := Option.some.inj (hls.symm.trans hd)
      exact absurd hopen (hwired.ls_no_reader hls)
    · refine sort_enabled hwired hquiet hsort ?_ fun _ => .inl fun hpipe => hfull (by rw [hpipe]; exact hcap)
      cases hpc : d.pc with
      | ended status =>
        have hfds := (hwired.sortFds d hsort).1
        rw [hpc] at hfds
        rw [hfds] at hopen
        exact absurd hopen (not_open_closed _ _)
      | _ => trivial
  have hout : ∀ todo, pc = .running todo →
      fds STDOUT_FILENO = if W.w = 1 then none else some .writeEnd := by
    rintro todo rfl
    exact hwired.ls_stdout hls
  obtain ⟨parent, pfds, r, w, ls, sort, pipe, outfile, stderr⟩ := s
  dsimp only at hls
  subst hls
  cases pc with
  | closeRead => exact ⟨.child .ls true, id, _, rfl⟩
  | dup2 => exact ⟨.child .ls false, id, _, rfl⟩
  | closeWrite => exact ⟨.child .ls true, id, _, rfl⟩
  | execlp => exact ⟨.child .ls true, id, _, rfl⟩
  | perror failure => exact ⟨.child .ls true, id, hspeaks failure rfl⟩
  | running todo =>
    replace hout := hout todo rfl
    cases todo with
    | nil => exact ⟨.finish .ls, id, _, rfl⟩
    | cons b todo =>
      split_ifs at hout with h1
      · refine ⟨.refused .ls (.exited 1), id, _, if_pos ?_⟩
        show WriteFails W (fds STDOUT_FILENO) _
        rw [hout]
        trivial
      · by_cases hreader : State.Has W .readEnd
          ⟨parent, pfds, r, w, some ⟨.running (b :: todo), fds, reaped⟩, sort, pipe, outfile, stderr⟩
        · by_cases hroom : pipe.length < W.capacity
          · refine ⟨.write .ls, id, Option.isSome_iff_exists.mp ?_⟩
            show (Option.map _ (writeTo W (fds STDOUT_FILENO) b _)).isSome
            rw [hout, Option.isSome_map]
            unfold writeTo
            dsimp only
            rw [if_pos ⟨hreader, hroom⟩]
            rfl
          · exact hfull _ rfl hreader hroom
        · refine ⟨.refused .ls (.exited 1), id, _, if_pos ?_⟩
          show WriteFails W (fds STDOUT_FILENO) _
          rw [hout]
          exact hreader
  | ended status => exact halive.elim

theorem child_enabled (hcap : 0 < W.capacity) (hwired : Wiring W s)
    (hquiet : Clean s ∨ W.w ≠ STDERR_FILENO) (hidle : s.parent.Idle)
    (halive : (∃ c, s.ls = some c ∧ c.pc.Alive) ∨ ∃ c, s.sort = some c ∧ c.pc.Alive) :
    ∃ l : Label, ¬ l.Accident ∧ Enabled W s l := by
  rcases halive with ⟨c, hls, hc⟩ | ⟨c, hsort, hc⟩
  · exact ls_enabled hcap hwired hquiet hidle hls hc
  by_cases hpipe : c.pc.IsProgram → s.pipe ≠ [] ∨ ¬ s.Has W .writeEnd
  · exact sort_enabled hwired hquiet hsort hc hpipe
  -- An empty pipe has a writer, which is `ls`.
  obtain ⟨hprog, hpipe⟩ := not_forall.mp hpipe
  have hwriter : s.Has W .writeEnd := by
    by_contra hno
    exact hpipe (.inr hno)
  rcases hwriter.cases (hwired.parent_closed hidle nofun) with ⟨d, hls, hopen⟩ | ⟨d, hd, hopen⟩
  · refine ls_enabled hcap hwired hquiet hidle hls ?_
    cases hpc : d.pc with
    | ended status =>
      have hfds := hwired.lsFds d hls
      rw [hpc] at hfds
      rw [hfds] at hopen
      exact absurd hopen (not_open_closed _ _)
    | _ => trivial
  · obtain rfl := Option.some.inj (hsort.symm.trans hd)
    exact absurd hopen (hwired.sort_no_writer hsort hprog)

theorem exists_afterWait (hwait : s.parent.Waiting) (status : Status) :
    ∃ t, s.afterWait status = some t := by
  unfold State.afterWait
  cases hpc : s.parent with
  | wait1 | wait2 | abortWait => exact ⟨_, rfl⟩
  | _ =>
    rw [hpc] at hwait
    exact hwait.elim

theorem reap_ls_enabled {c : Child (LsPc β)} (hls : s.ls = some c) (hended : ¬ c.pc.Alive)
    (hreaped : c.reaped = false) (hwait : s.parent.Waiting) : Enabled W s (.reap .ls) := by
  obtain ⟨pc, fds, reaped⟩ := c
  dsimp only at hreaped hended
  subst hreaped
  cases pc with
  | ended status =>
    obtain ⟨t, ht⟩ := exists_afterWait (s := { s with ls := some ⟨.ended status, fds, true⟩ }) hwait status
    refine ⟨t, ?_⟩
    show reapStep .ls s = some t
    unfold reapStep
    rw [hls]
    exact ht
  | _ => exact absurd trivial hended

theorem reap_sort_enabled {c : Child (SortPc β)} (hsort : s.sort = some c) (hended : ¬ c.pc.Alive)
    (hreaped : c.reaped = false) (hwait : s.parent.Waiting) : Enabled W s (.reap .sort) := by
  obtain ⟨pc, fds, reaped⟩ := c
  dsimp only at hreaped hended
  subst hreaped
  cases pc with
  | ended status =>
    obtain ⟨t, ht⟩ := exists_afterWait (s := { s with sort := some ⟨.ended status, fds, true⟩ }) hwait status
    refine ⟨t, ?_⟩
    show reapStep .sort s = some t
    unfold reapStep
    rw [hsort]
    exact ht
  | _ => exact absurd trivial hended

/-- A parent that is not idle has a system call to make, and no call but a `wait` blocks. -/
theorem parent_enabled (hwired : Wiring W s) (hquiet : Clean s ∨ W.w ≠ STDERR_FILENO)
    (hidle : ¬ s.parent.Idle) : ∃ l : Label, ¬ l.Accident ∧ Enabled W s l := by
  have hspeaks : ∀ message (next : State β → State β), s.parent.Failed →
      ∃ t, (report W s.fds message s).map next = some t := by
    intro message next hfailed
    have hw := hquiet.resolve_left fun h => h.parent hfailed
    obtain ⟨t, ht⟩ := exists_report (hwired.parent_outside hw).1 message s
    exact ⟨next t, by rw [ht]; rfl⟩
  obtain ⟨parent, pfds, r, w, ls, sort, pipe, outfile, stderr⟩ := s
  cases parent with
  | pipe => exact ⟨.parent false, id, _, rfl⟩
  | forkLs => exact ⟨.parent false, id, _, rfl⟩
  | forkSort => exact ⟨.parent false, id, _, rfl⟩
  | closeRead => exact ⟨.parent true, id, _, rfl⟩
  | closeWrite => exact ⟨.parent true, id, _, rfl⟩
  | abortPerror => exact ⟨.parent true, id, hspeaks _ _ trivial⟩
  | perror failure => exact ⟨.parent true, id, hspeaks _ _ trivial⟩
  | abortCloseRead => exact ⟨.parent true, id, _, rfl⟩
  | abortCloseWrite => exact ⟨.parent true, id, _, rfl⟩
  | _ => exact absurd trivial hidle

/-- **No deadlock**: until everything is over, something can be done, if no report waits for room in the
pipe. -/
theorem exists_step (hcap : 0 < W.capacity) (h : Reachable (pipeline W) s)
    (hquiet : Clean s ∨ W.w ≠ STDERR_FILENO) (hover : ¬ Over s) :
    ∃ l : Label, ¬ l.Accident ∧ Enabled W s l := by
  have hwired := reachable_wiring h
  have hT := reachable_tracked h
  by_cases hidle : s.parent.Idle
  · by_cases halive : (∃ c, s.ls = some c ∧ c.pc.Alive) ∨ ∃ c, s.sort = some c ∧ c.pc.Alive
    · exact child_enabled hcap hwired hquiet hidle halive
    -- Nobody is left but the parent, which waits.
    simp only [not_or, not_exists, not_and] at halive
    obtain ⟨hls, hsort⟩ := halive
    have hreapLs : Unwaited s.ls → s.parent.Waiting → ∃ l : Label, ¬ l.Accident ∧ Enabled W s l :=
      fun ⟨c, hc, hreaped⟩ hwait => ⟨.reap .ls, id, reap_ls_enabled hc (hls c hc) hreaped hwait⟩
    have hreapSort : Unwaited s.sort → s.parent.Waiting → ∃ l : Label, ¬ l.Accident ∧ Enabled W s l :=
      fun ⟨c, hc, hreaped⟩ hwait => ⟨.reap .sort, id, reap_sort_enabled hc (hsort c hc) hreaped hwait⟩
    unfold Tracked at hT
    cases hpc : s.parent with
    | wait1 =>
      rw [hpc] at hT hreapLs
      exact hreapLs hT.1 trivial
    | wait2 =>
      rw [hpc] at hT hreapLs hreapSort
      rcases hT with ⟨-, hsort⟩ | ⟨hls, -⟩
      · exact hreapSort hsort trivial
      · exact hreapLs hls trivial
    | abortWait =>
      rw [hpc] at hT hreapLs
      exact hreapLs hT.1 trivial
    | exited code => exact absurd ⟨⟨code, hpc⟩, hls, hsort⟩ hover
    | _ =>
      rw [hpc] at hidle
      exact hidle.elim
  · exact parent_enabled hwired hquiet hidle

/-- **pipeit ends**: unless it is started with descriptor 2 and just one of 0 and 1 closed, a run has a
bounded number of steps, whatever fails, and until all processes have ended it can go on without an
accident. -/
theorem pipeline_terminates (hcap : 0 < W.capacity)
    (hstderr : W.inherited STDERR_FILENO ≠ none ∨
      (W.inherited STDIN_FILENO = none ↔ W.inherited STDOUT_FILENO = none))
    {h : List (Event (State β) Label)} (hr : Run (pipeline W) h s) :
    h.length ≤ 2 * W.listing.length + W.sorted + 22 ∧
      (¬ Over s → ∃ l : Label, ¬ l.Accident ∧ Enabled W s l) := by
  have hw := World.w_ne_stderr hstderr
  refine ⟨?_, exists_step hcap hr.reachable (.inr hw)⟩
  have hlength : h.length + s.rank W ≤ 2 * W.listing.length + W.sorted + 22 := by
    refine hr.length_add_le ?_ fun s l t h hs => step_rank_lt hw h hs
    rintro s rfl
    show 8 + (2 * W.listing.length + 5) + 0 + (W.sorted + 9) ≤ _
    omega
  omega

/-- The second `fork` fails after `ls` has filled the pipe. -/
def noSort : List Label :=
  [.parent true, .parent true] ++ List.replicate 4 (.child .ls true) ++
    [.write .ls, .parent false, .parent true]

theorem pipeline_terminates_session :
    (∃ h s, Run (pipeline shell) h s ∧ h.map Event.label = (startup ++ session).reverse ∧
      h.length ≤ 28 ∧ (¬ Over s → ∃ l : Label, ¬ l.Accident ∧ Enabled shell s l)) ∧
    ∃ h s, Run (pipeline shell) h s ∧ h.map Event.label = noSort.reverse ∧
      s.stderr = ["fork child sort -r has failed"] ∧
      h.length ≤ 28 ∧ (¬ Over s → ∃ l : Label, ¬ l.Accident ∧ Enabled shell s l) := by
  have hdone : ∃ s, after shell (startup ++ session) = some s := ⟨_, rfl⟩
  have haborts : ∃ s, after shell noSort = some s ∧ s.stderr = ["fork child sort -r has failed"] :=
    ⟨_, rfl, rfl⟩
  obtain ⟨s, hs⟩ := hdone
  obtain ⟨h, hr, hlabels⟩ := run_after hs
  obtain ⟨t, ht, hstderr⟩ := haborts
  obtain ⟨h', hr', hlabels'⟩ := run_after ht
  exact ⟨⟨h, s, hr, hlabels, pipeline_terminates Nat.one_pos (.inl (by decide)) hr⟩,
    h', t, hr', hlabels', hstderr, pipeline_terminates Nat.one_pos (.inl (by decide)) hr'⟩

/-- Only standard input is open, and the pipe takes the place of standard error. -/
def loneStdin : World ℕ := { shell with inherited := fun i => if i = 0 then some 0 else none }

/-- There the parent can wait for ever to report the failure of the second `fork`. -/
example : ∃ s, after loneStdin noSort.dropLast = some s ∧ s.parent = .abortPerror ∧
    ∀ l : Label, ¬ l.Accident → step loneStdin s l = none := by
  refine ⟨_, rfl, rfl, fun l hl => ?_⟩
  cases l with
  | parent ok => cases ok <;> rfl
  | reap who => cases who <;> rfl
  | child who ok => cases who <;> cases ok <;> rfl
  | write who => cases who <;> rfl
  | read => rfl
  | eof => rfl
  | finish who => cases who <;> rfl
  | refused who status => cases who <;> rfl
  | waitFails | crash => exact absurd trivial hl

/-! ### Runs in which nothing fails -/

/-- While `ls` runs the pipe has a reader. -/
theorem Clean.has_reader (hI : Clean s) (h : Reachable (pipeline W) s) (hr : W.r ≠ 0) {todo : List β}
    {fds : Table File} {reaped : Bool} (hls : s.ls = some ⟨.running todo, fds, reaped⟩) :
    s.Has W .readEnd := by
  have hwired := reachable_wiring h
  have hT := reachable_tracked h
  have hout := (reachable_flow h (.inl hI)).output
  cases hsort : s.sort with
  | none =>
    -- `sort` is forked right after `ls`, and the parent has the end until then.
    obtain ⟨hP, -, -⟩ := hwired.piped_of_ls hls
    obtain ⟨hlt, hlimit, -⟩ := hP.spec
    refine ⟨s.fds, by simp [State.tables], W.r, by omega, ?_⟩
    have hfork : s.parent = .forkSort := by
      have hfailed := hI.parent
      unfold Tracked at hT
      rw [hls, hsort] at hT
      have hUnwaited : ¬ Unwaited (none : Option (Child (SortPc β))) := by
        rintro ⟨c, hc, -⟩
        cases hc
      have hPassed : ¬ SortPassed (none : Option (Child (SortPc β))) := by
        rintro ⟨fds, hc⟩
        cases hc
      cases hpc : s.parent with rw [hpc] at hT hfailed
      | pipe | forkLs => cases hT.1
      | closeRead | closeWrite | wait1 => exact absurd hT.2 hUnwaited
      | wait2 =>
        rcases hT with ⟨-, hsort⟩ | ⟨-, hsort⟩
        · exact absurd hsort hUnwaited
        · exact absurd hsort hPassed
      | abortPerror | abortCloseRead | abortCloseWrite | abortWait | perror =>
        exact absurd trivial hfailed
      | exited code =>
        cases code with
        | zero => exact absurd hT.2 hPassed
        | succ n => exact absurd trivial hfailed
    rw [hwired.parentFds, hfork]
    show W.piped W.r = _
    unfold World.piped
    rw [put_of_ne (by omega)]
    exact put_self _ _ _
  | some c =>
    refine ⟨c.fds, by simp [State.tables, hsort], hwired.sort_holds hsort ?_ hr⟩
    cases hpc : c.pc with
    | ended status =>
      -- `sort` exited 0, so that `ls` was gone.
      have hok : status = .exited 0 := by
        have hfailed := hI.sort c hsort
        rw [hpc] at hfailed
        exact not_not.mp hfailed
      rw [sortPc_of hsort, lsPc_of hls, hpc] at hout
      obtain ⟨g, ⟨-, status', hgone, -⟩, -⟩ := hout.2 hok
      cases hgone
    | _ => trivial

/-- With descriptors 0 and 1 taken from the start no read or write fails. -/
theorem Clean.not_refused (hI : Clean s) (h : Reachable (pipeline W) s) (hr0 : W.r ≠ 0) (hr1 : W.r ≠ 1)
    (hw : W.w ≠ 1) (who : Who) : ¬ IsRefused W who s := by
  have hwired := reachable_wiring h
  unfold IsRefused
  split
  · split
    · next hls =>
      unfold WriteFails
      rw [hwired.ls_stdout hls, if_neg hw]
      exact not_not.mpr (hI.has_reader h hr0 hls)
    · exact id
  · split
    · next fds _ hsort =>
      have hfd : fds STDIN_FILENO = _ := hwired.sort_stdin hsort trivial
      unfold ReadFails
      rw [hfd, if_neg hr0]
      exact id
    · next fds _ hsort =>
      have hfd : fds STDOUT_FILENO = _ := hwired.sort_stdout hsort trivial
      unfold WriteFails
      rw [hfd, if_neg hr1]
      exact id
    · exact id

/-! A call that has failed could have succeeded. -/

theorem good_parent (hwired : Wiring W s) (hP : W.Piped) (h : parentStep W false s = some t) :
    Enabled W s (.parent true) := by
  refine Option.isSome_iff_exists.mp ?_
  show (parentStep W true s).isSome
  cases hpc : s.parent with
  | pipe =>
    have hfds : s.fds = W.start := by rw [hwired.parentFds, hpc]; rfl
    obtain ⟨hr, hw⟩ := hP
    simp [parentStep, hpc, hfds, hr, hw]
  | forkLs | forkSort => simp [parentStep, hpc]
  | _ => simp [parentStep, hpc] at h

theorem good_ls (hwired : Wiring W s) {c : Child (LsPc β)} (hls : s.ls = some c)
    (hok : ¬ c.pc.Failed) (h : lsStep W false c s = some t) : Enabled W s (.child .ls true) := by
  refine Option.isSome_iff_exists.mp ?_
  show (s.ls.bind fun c => lsStep W true c s).isSome
  rw [hls]
  show (lsStep W true c s).isSome
  obtain ⟨hP, -, hw⟩ := hwired.piped_of_ls hls
  obtain ⟨hlt, hlimit, -⟩ := hP.spec
  have hfds := hwired.lsFds c hls
  cases hpc : c.pc with
  | dup2 =>
    rw [hpc] at hfds
    have hend : c.fds s.w ≠ none := by
      rw [hfds, hw]
      show close W.r W.piped W.w ≠ none
      rw [close_of_ne (by omega), World.piped, put_self]
      exact Option.some_ne_none _
    obtain ⟨u, hu⟩ := exists_dup2 hend (show STDOUT_FILENO < W.limit from (by omega : 1 < W.limit))
    simp [lsStep, hpc, hu]
  | execlp => simp [lsStep, hpc]
  | perror failure =>
    rw [hpc] at hok
    exact absurd trivial hok
  | _ => simp [lsStep, hpc] at h

theorem good_sort (hwired : Wiring W s) {c : Child (SortPc β)} (hsort : s.sort = some c)
    (hok : ¬ c.pc.Failed) (h : sortStep W false c s = some t) : Enabled W s (.child .sort true) := by
  refine Option.isSome_iff_exists.mp ?_
  show (s.sort.bind fun c => sortStep W true c s).isSome
  rw [hsort]
  show (sortStep W true c s).isSome
  obtain ⟨hP, hr, -⟩ := hwired.piped_of_sort hsort
  obtain ⟨hlt, hlimit, -⟩ := hP.spec
  obtain ⟨hfds, hout⟩ := hwired.sortFds c hsort
  cases hpc : c.pc with
  | dup2In =>
    rw [hpc] at hfds
    have hend : c.fds s.r ≠ none := by
      rw [hfds, hr]
      show close W.w W.piped W.r ≠ none
      rw [close_of_ne (by omega), World.piped, put_of_ne (by omega), put_self]
      exact Option.some_ne_none _
    obtain ⟨u, hu⟩ := exists_dup2 hend (show STDIN_FILENO < W.limit from (by omega : 0 < W.limit))
    simp [sortStep, hpc, hu]
  | openOut =>
    rw [hpc] at hfds
    have hlowest : lowest W.limit c.fds = some W.r := by
      rw [hfds]
      exact World.out_eq hP
    simp [sortStep, hpc, hlowest]
  | dup2Out o =>
    rw [hpc] at hfds hout
    have hend : c.fds o ≠ none := by
      rw [hfds, hout.1]
      show W.opened W.out ≠ none
      rw [World.opened, put_self]
      exact Option.some_ne_none _
    obtain ⟨u, hu⟩ := exists_dup2 hend (show STDOUT_FILENO < W.limit from (by omega : 1 < W.limit))
    simp [sortStep, hpc, hu]
  | execlp => simp [sortStep, hpc]
  | perror failure =>
    rw [hpc] at hok
    exact absurd trivial hok
  | _ => simp [sortStep, hpc] at h

theorem good_enabled (hwired : Wiring W s) (hP : W.Piped) (hclean : Clean s) (haccident : ¬ l.Accident)
    (hrefused : ∀ who, ¬ IsRefused W who s) (henabled : Enabled W s l) :
    ∃ l : Label, l.Good ∧ Enabled W s l := by
  obtain ⟨t, ht⟩ := henabled
  cases l with
  | parent ok =>
    cases ok with
    | true => exact ⟨.parent true, rfl, t, ht⟩
    | false => exact ⟨.parent true, rfl, good_parent hwired hP ht⟩
  | child who ok =>
    cases ok with
    | true => exact ⟨.child who true, rfl, t, ht⟩
    | false =>
      refine ⟨.child who true, rfl, ?_⟩
      cases who with
      | ls =>
        obtain ⟨c, hc, hstep⟩ := Option.bind_eq_some_iff.mp ht
        exact good_ls hwired hc (hclean.ls c hc) hstep
      | sort =>
        obtain ⟨c, hc, hstep⟩ := Option.bind_eq_some_iff.mp ht
        exact good_sort hwired hc (hclean.sort c hc) hstep
  | refused who status =>
    simp only [step] at ht
    rw [if_neg (hrefused who)] at ht
    cases ht
  | waitFails | crash => exact absurd trivial haccident
  | reap who => exact ⟨.reap who, trivial, t, ht⟩
  | write who => exact ⟨.write who, trivial, t, ht⟩
  | read => exact ⟨.read, trivial, t, ht⟩
  | eof => exact ⟨.eof, trivial, t, ht⟩
  | finish who => exact ⟨.finish who, trivial, t, ht⟩

/-- `pipe` finds two free descriptors. -/
theorem piped_of_free {i j : ℕ} (hij : i < j) (hj : j < W.limit) (hi0 : W.inherited i = none)
    (hj0 : W.inherited j = none) : W.Piped := by
  obtain ⟨r, hr⟩ := exists_lowest (by omega : i < W.limit) (W.start_eq_none.mpr hi0)
  have hWr : W.r = r := by
    unfold World.r
    rw [hr]
    rfl
  obtain ⟨k, hk, hfree⟩ : ∃ k, k < W.limit ∧ put r File.readEnd W.start k = none := by
    by_cases hir : i = r
    · refine ⟨j, hj, ?_⟩
      rw [put_of_ne (by omega)]
      exact W.start_eq_none.mpr hj0
    · refine ⟨i, by omega, ?_⟩
      rw [put_of_ne hir]
      exact W.start_eq_none.mpr hi0
  obtain ⟨w, hw⟩ := exists_lowest hk hfree
  have hWw : W.w = w := by
    unfold World.w
    rw [hWr, hw]
    rfl
  unfold World.Piped
  rw [hWr, hWw]
  exact ⟨hr, hw⟩

/-- **pipeit does its work**: started with descriptors 0 and 1 open and two more free, a run in which
nothing fails goes on until the parent has exited 0 with the sorted listing in the output file. -/
theorem pipeline_completes (hcap : 0 < W.capacity) (h0 : W.inherited 0 ≠ none) (h1 : W.inherited 1 ≠ none)
    (hfree : ∃ i j, i < j ∧ j < W.limit ∧ W.inherited i = none ∧ W.inherited j = none)
    {h : List (Event (State β) Label)} (hr : Run (pipeline W) h s) (hgood : ∀ e ∈ h, e.label.Good) :
    (Over s → s.parent = .exited 0 ∧ s.outfile = some (W.sortR W.listing)) ∧
      (¬ Over s → ∃ l : Label, l.Good ∧ Enabled W s l) := by
  have hclean := clean_of_good hr hgood
  obtain ⟨i, j, hij, hj, hi0, hj0⟩ := hfree
  have hP := piped_of_free hij hj hi0 hj0
  refine ⟨fun hover => ?_, fun hover => ?_⟩
  · obtain ⟨code, hpc⟩ := hover.parent
    cases code with
    | zero => exact ⟨hpc, (delivered hr.reachable hpc).1⟩
    | succ n =>
      refine absurd ?_ hclean.parent
      rw [hpc]
      trivial
  · obtain ⟨l, haccident, henabled⟩ := exists_step hcap hr.reachable (.inl hclean) hover
    refine good_enabled (reachable_wiring hr.reachable) hP hclean haccident ?_ henabled
    have hr0 : W.r ≠ 0 := fun h => h0 ((World.r_eq_zero hP).mp h)
    have hr1 : W.r ≠ 1 := fun h => h1 ((World.r_eq_one hP).mp h).2
    have hw1 : W.w ≠ 1 := fun h => h1 ((World.w_eq_one hP).mp h).2
    exact hclean.not_refused hr.reachable hr0 hr1 hw1

theorem pipeline_completes_session :
    ∃ h s, Run (pipeline shell) h s ∧ h.map Event.label = (startup ++ session).reverse ∧
      (Over s → s.parent = .exited 0 ∧ s.outfile = some [2, 1]) ∧
      (¬ Over s → ∃ l : Label, l.Good ∧ Enabled shell s l) :=
  have hafter : ∃ s, after shell (startup ++ session) = some s := ⟨_, rfl⟩
  have ⟨s, hs⟩ := hafter
  have ⟨h, hr, hlabels⟩ := run_after hs
  have hall : ∀ l ∈ (startup ++ session).reverse, l.Good := by decide
  ⟨h, s, hr, hlabels, pipeline_completes Nat.one_pos (by decide) (by decide)
    ⟨3, 4, by decide, by decide, rfl, rfl⟩ hr fun e he => hall _ (hlabels ▸ List.mem_map_of_mem he)⟩

end Csc453.Pipe
