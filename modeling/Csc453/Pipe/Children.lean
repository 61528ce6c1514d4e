import Csc453.Pipe.Wiring

/-!
# Csc453.Pipe.Children — the children and the ends of the pipe they hold

`Tracked` says which children there are at each program counter of the parent, and which of them it has
waited for (`reachable_tracked`), and `Clean` that nothing has failed.  From the wiring: what the two
programs find at descriptors 0 and 1, that a child that has not ended holds its end of the pipe
(`Wiring.ls_holds`, `Wiring.sort_holds`), and what a report may reach at descriptor 2.
-/

namespace Csc453.Pipe

open Descriptors Transition

variable {β : Type} {W : World β} {s t : State β} {l : Label}

/-! ### The children -/

/-- There is a child, and the parent has not waited for it. -/
def Unwaited {pc : Type} (o : Option (Child pc)) : Prop := ∃ c, o = some c ∧ c.reaped = false

/-- The parent has waited for the child, and it had exited 0. -/
def LsPassed (o : Option (Child (LsPc β))) : Prop := ∃ fds, o = some ⟨.ended (.exited 0), fds, true⟩

def SortPassed (o : Option (Child (SortPc β))) : Prop := ∃ fds, o = some ⟨.ended (.exited 0), fds, true⟩

/-- The children there are, by the parent's program counter. -/
def Tracked (s : State β) : Prop :=
  match s.parent with
  | .pipe | .forkLs => s.ls = none ∧ s.sort = none
  | .forkSort | .abortPerror | .abortCloseRead | .abortCloseWrite | .abortWait =>
    Unwaited s.ls ∧ s.sort = none
  | .closeRead | .closeWrite | .wait1 => Unwaited s.ls ∧ Unwaited s.sort
  | .wait2 => LsPassed s.ls ∧ Unwaited s.sort ∨ Unwaited s.ls ∧ SortPassed s.sort
  | .exited 0 => LsPassed s.ls ∧ SortPassed s.sort
  | .perror _ => s.ls = none → s.sort = none
  | .exited (code + 1) => code = 0 ∧ (s.ls = none → s.sort = none)

theorem Tracked.sort_none (hI : Tracked s) (h : s.ls = none) : s.sort = none := by
  unfold Tracked at hI
  have hUnwaited : ¬ Unwaited s.ls := fun ⟨c, hc, _⟩ => nomatch h.symm.trans hc
  have hPassed : ¬ LsPassed s.ls := fun ⟨c, hc⟩ => nomatch h.symm.trans hc
  split at hI
  all_goals grind

theorem Waits.tracked {status : Status} (h : Waits s status t) (hnone : s.ls = none → s.sort = none)
    (h1 : s.parent = .wait1 → status = .exited 0 →
      LsPassed s.ls ∧ Unwaited s.sort ∨ Unwaited s.ls ∧ SortPassed s.sort)
    (h2 : s.parent = .wait2 → status = .exited 0 → LsPassed s.ls ∧ SortPassed s.sort) : Tracked t := by
  cases h with
  | first hpc hst => exact h1 hpc hst
  | second hpc hst => exact h2 hpc hst
  | bad => exact hnone
  | abort => exact ⟨rfl, hnone⟩

theorem ParentMoves.tracked (h : ParentMoves W s l t) (hI : Tracked s) : Tracked t := by
  have hnone := hI.sort_none
  unfold Tracked at hI
  cases h with
  | piped r w hpc =>
    rw [hpc] at hI
    exact hI
  | forkedLs hpc =>
    rw [hpc] at hI
    exact ⟨⟨_, rfl, rfl⟩, hI.2⟩
  | forkedSort hpc =>
    rw [hpc] at hI
    exact ⟨hI.1, _, rfl, rfl⟩
  | aborts hpc =>
    rw [hpc] at hI
    exact hI
  | closes pc fd hcloses =>
    generalize hp : s.parent = p at hcloses hI
    cases hcloses <;> exact hI
  | fails => exact hnone
  | aborted message t hpc htold =>
    obtain ⟨pipe, outfile, stderr, rfl⟩ := htold.frame
    rw [hpc] at hI
    exact hI
  | exits failure t hpc htold =>
    obtain ⟨pipe, outfile, stderr, rfl⟩ := htold.frame
    exact ⟨rfl, hnone⟩
  | reapsLs status fds t hls hwaits =>
    refine hwaits.tracked nofun (fun hpc hst => ?_) fun hpc hst => ?_
    · rw [show s.parent = .wait1 from hpc] at hI
      exact .inl ⟨⟨fds, by rw [hst]⟩, hI.2⟩
    · rw [show s.parent = .wait2 from hpc] at hI
      rcases hI with ⟨⟨fds', hls'⟩, -⟩ | ⟨-, hsort⟩
      · cases hls.symm.trans hls'
      · exact ⟨⟨fds, by rw [hst]⟩, hsort⟩
  | reapsSort status fds t hsort hwaits =>
    refine hwaits.tracked ?_ (fun hpc hst => ?_) fun hpc hst => ?_
    · intro hls
      cases hsort.symm.trans (hnone hls)
    · rw [show s.parent = .wait1 from hpc] at hI
      exact .inr ⟨hI.1, fds, by rw [hst]⟩
    · rw [show s.parent = .wait2 from hpc] at hI
      rcases hI with ⟨hls, -⟩ | ⟨-, fds', hsort'⟩
      · exact ⟨hls, fds, by rw [hst]⟩
      · cases hsort.symm.trans hsort'

/-- The child has not ended. -/
def LsPc.Alive : LsPc β → Prop
  | .ended _ => False
  | _ => True

def SortPc.Alive : SortPc β → Prop
  | .ended _ => False
  | _ => True

/-- The child reports a failure, or has not succeeded. -/
def LsPc.Failed : LsPc β → Prop
  | .perror _ => True
  | .ended status => status ≠ .exited 0
  | _ => False

def SortPc.Failed : SortPc β → Prop
  | .perror _ => True
  | .ended status => status ≠ .exited 0
  | _ => False

/-- A step of the first child, as far as the parent sees it. -/
theorem LsMoves.seen (h : LsMoves W s l t) :
    ∃ c c', s.ls = some c ∧ c.pc.Alive ∧ t.ls = some c' ∧ c'.reaped = c.reaped ∧
      t.parent = s.parent ∧ t.sort = s.sort ∧ (c'.pc.Failed ↔ c.pc.Failed ∨ ¬ l.Good) := by
  cases h with
  | code pc fds reaped pc' fds' hls hcode =>
    refine ⟨_, _, hls, ?_, rfl, rfl, rfl, rfl, ?_⟩
    · cases hcode <;> trivial
    · cases hcode <;> simp [LsPc.Failed, Label.Good]
  | fails pc fds reaped failure hls hfails =>
    refine ⟨_, _, hls, ?_, rfl, rfl, rfl, rfl, ?_⟩
    · cases hfails <;> trivial
    · simp [LsPc.Failed, Label.Good]
  | exits failure fds reaped ok t status hls htold hstatus =>
    obtain ⟨pipe, outfile, stderr, rfl⟩ := htold.frame
    exact ⟨_, _, hls, trivial, rfl, rfl, rfl, rfl, by simp [LsPc.Failed, hstatus]⟩
  | writes b todo fds reaped u hls hu =>
    obtain ⟨pipe, outfile, rfl⟩ := writeTo_frame hu
    exact ⟨_, _, hls, trivial, rfl, rfl, rfl, rfl, by simp [LsPc.Failed, Label.Good]⟩
  | ends l todo fds reaped status hls hst hgood =>
    exact ⟨_, _, hls, trivial, rfl, rfl, rfl, rfl, by simp [LsPc.Failed, hgood]⟩

/-- A step of the second child, as far as the parent sees it. -/
theorem SortMoves.seen (h : SortMoves W s l t) :
    ∃ c c', s.sort = some c ∧ c.pc.Alive ∧ t.sort = some c' ∧ c'.reaped = c.reaped ∧
      t.parent = s.parent ∧ t.ls = s.ls ∧ (c'.pc.Failed ↔ c.pc.Failed ∨ ¬ l.Good) := by
  cases h with
  | code pc fds reaped pc' fds' hsort hcode =>
    refine ⟨_, _, hsort, ?_, rfl, rfl, rfl, rfl, ?_⟩
    · cases hcode <;> trivial
    · cases hcode <;> simp [SortPc.Failed, Label.Good]
  | opens o fds reaped hsort =>
    exact ⟨_, _, hsort, trivial, rfl, rfl, rfl, rfl, by simp [SortPc.Failed, Label.Good]⟩
  | fails pc fds reaped failure hsort hfails =>
    refine ⟨_, _, hsort, ?_, rfl, rfl, rfl, rfl, ?_⟩
    · cases hfails <;> trivial
    · simp [SortPc.Failed, Label.Good]
  | exits failure fds reaped ok t status hsort htold hstatus =>
    obtain ⟨pipe, outfile, stderr, rfl⟩ := htold.frame
    exact ⟨_, _, hsort, trivial, rfl, rfl, rfl, rfl, by simp [SortPc.Failed, hstatus]⟩
  | reads b rest got fds reaped hsort =>
    exact ⟨_, _, hsort, trivial, rfl, rfl, rfl, rfl, by simp [SortPc.Failed, Label.Good]⟩
  | eof got fds reaped hsort =>
    exact ⟨_, _, hsort, trivial, rfl, rfl, rfl, rfl, by simp [SortPc.Failed, Label.Good]⟩
  | writes b todo fds reaped u hsort hu =>
    obtain ⟨pipe, outfile, rfl⟩ := writeTo_frame hu
    exact ⟨_, _, hsort, trivial, rfl, rfl, rfl, rfl, by simp [SortPc.Failed, Label.Good]⟩
  | ends l pc fds reaped status hsort hpc hgood =>
    refine ⟨_, _, hsort, ?_, rfl, rfl, rfl, rfl, ?_⟩
    · rcases hpc with ⟨⟨got, rfl⟩, -⟩ | ⟨todo, rfl, -⟩ <;> trivial
    · rcases hpc with ⟨⟨got, rfl⟩, -⟩ | ⟨todo, rfl, -⟩ <;> simp [SortPc.Failed, hgood]

theorem LsMoves.tracked (h : LsMoves W s l t) (hI : Tracked s) : Tracked t := by
  obtain ⟨c, c', hc, halive, hc', hreaped, hparent, hsort, -⟩ := h.seen
  have hUnwaited : Unwaited s.ls → Unwaited t.ls := by
    rintro ⟨d, hd, hr⟩
    obtain rfl := Option.some.inj (hc.symm.trans hd)
    exact ⟨c', hc', hreaped.trans hr⟩
  have hPassed : ¬ LsPassed s.ls := by
    rintro ⟨fds, hd⟩
    obtain rfl := Option.some.inj (hc.symm.trans hd)
    exact halive
  have hsome : s.ls ≠ none := by simp [hc]
  have hsome' : t.ls ≠ none := by simp [hc']
  unfold Tracked at hI ⊢
  rw [hparent, hsort]
  split at hI
  all_goals grind

theorem SortMoves.tracked (h : SortMoves W s l t) (hI : Tracked s) : Tracked t := by
  obtain ⟨c, c', hc, halive, hc', hreaped, hparent, hls, -⟩ := h.seen
  have hnone := hI.sort_none
  have hUnwaited : Unwaited s.sort → Unwaited t.sort := by
    rintro ⟨d, hd, hr⟩
    obtain rfl := Option.some.inj (hc.symm.trans hd)
    exact ⟨c', hc', hreaped.trans hr⟩
  have hPassed : ¬ SortPassed s.sort := by
    rintro ⟨fds, hd⟩
    obtain rfl := Option.some.inj (hc.symm.trans hd)
    exact halive
  have hsome : s.sort ≠ none := by simp [hc]
  unfold Tracked at hI ⊢
  rw [hparent, hls]
  split at hI
  all_goals grind

theorem reachable_tracked (h : Reachable (pipeline W) s) : Tracked s := by
  refine Reachable.invariant (fun s h0 => ?_) (fun s l t hI hs => ?_) h
  · obtain rfl := h0
    exact ⟨rfl, rfl⟩
  · rcases step_cases hs with hm | hm | hm
    · exact hm.tracked hI
    · exact hm.tracked hI
    · exact hm.tracked hI

/-! ### Whether something has failed -/

/-- The parent has a failure to report, or has reported one. -/
def ParentPc.Failed : ParentPc → Prop
  | .abortPerror | .abortCloseRead | .abortCloseWrite | .abortWait | .perror _ | .exited (_ + 1) => True
  | _ => False

/-- Nothing has failed. -/
structure Clean (s : State β) : Prop where
  parent : ¬ s.parent.Failed
  ls : ∀ c, s.ls = some c → ¬ c.pc.Failed
  sort : ∀ c, s.sort = some c → ¬ c.pc.Failed

theorem clean_iff : Clean s ↔ ¬ s.parent.Failed ∧ (∀ c, s.ls = some c → ¬ c.pc.Failed) ∧
    ∀ c, s.sort = some c → ¬ c.pc.Failed :=
  ⟨fun h => ⟨h.parent, h.ls, h.sort⟩, fun h => ⟨h.1, h.2.1, h.2.2⟩⟩

theorem Waits.clean_iff {status : Status} (h : Waits s status t) (hst : Clean s → status = .exited 0) :
    Clean t ↔ Clean s := by
  cases h with
  | first hpc => simp [Pipe.clean_iff, hpc, ParentPc.Failed]
  | second hpc => simp [Pipe.clean_iff, hpc, ParentPc.Failed]
  | bad failure hpc hcomplains =>
    refine iff_of_false (fun h => h.parent trivial) fun h => ?_
    have hok := hst h
    subst hok
    cases hcomplains with
    | exited _ hne => exact hne rfl
  | abort hpc => exact iff_of_false (fun h => h.parent trivial) fun h => h.parent (hpc ▸ trivial)

theorem ParentMoves.clean_iff (h : ParentMoves W s l t) (hT : Tracked s) :
    Clean t ↔ Clean s ∧ l.Good := by
  unfold Tracked at hT
  cases h with
  | piped r w hpc => simp [Pipe.clean_iff, hpc, ParentPc.Failed, Label.Good]
  | forkedLs hpc =>
    rw [hpc] at hT
    simp [Pipe.clean_iff, hpc, hT, ParentPc.Failed, LsPc.Failed, Label.Good]
  | forkedSort hpc =>
    rw [hpc] at hT
    simp [Pipe.clean_iff, hpc, hT, ParentPc.Failed, SortPc.Failed, Label.Good]
  | closes pc fd hcloses =>
    have hkept : pc.Failed ↔ s.parent.Failed := by
      generalize s.parent = p at hcloses
      cases hcloses <;> exact Iff.rfl
    simp [Pipe.clean_iff, hkept, Label.Good]
  | aborts => exact iff_of_false (fun h => h.parent trivial) fun h => Bool.false_ne_true h.2
  | fails l failure hl => exact iff_of_false (fun h => h.parent trivial) fun h => hl h.2
  | aborted message t hpc =>
    exact iff_of_false (fun h => h.parent trivial) fun h => h.1.parent (hpc ▸ trivial)
  | exits failure t hpc =>
    exact iff_of_false (fun h => h.parent trivial) fun h => h.1.parent (hpc ▸ trivial)
  | reapsLs status fds t hls hwaits =>
    have hkept : Clean { s with ls := some ⟨.ended status, fds, true⟩ } ↔ Clean s := by
      simp [Pipe.clean_iff, hls]
    rw [hwaits.clean_iff fun h => not_not.mp (h.ls _ rfl), hkept]
    exact (and_iff_left trivial).symm
  | reapsSort status fds t hsort hwaits =>
    have hkept : Clean { s with sort := some ⟨.ended status, fds, true⟩ } ↔ Clean s := by
      simp [Pipe.clean_iff, hsort]
    rw [hwaits.clean_iff fun h => not_not.mp (h.sort _ rfl), hkept]
    exact (and_iff_left trivial).symm

/-- **Nothing has failed** after a step exactly if nothing had and the step is good. -/
theorem step_clean_iff (hT : Tracked s) (h : step W s l = some t) : Clean t ↔ Clean s ∧ l.Good := by
  rcases step_cases h with hm | hm | hm
  · exact hm.clean_iff hT
  · obtain ⟨c, c', hc, -, hc', -, hparent, hsort, hfailed⟩ := hm.seen
    simp only [clean_iff, hc, hc', hparent, hsort, Option.some.injEq, forall_eq', hfailed]
    tauto
  · obtain ⟨c, c', hc, -, hc', -, hparent, hls, hfailed⟩ := hm.seen
    simp only [clean_iff, hc, hc', hparent, hls, Option.some.injEq, forall_eq', hfailed]
    tauto

theorem clean_of_good {h : List (Event (State β) Label)} (hr : Run (pipeline W) h s)
    (hgood : ∀ e ∈ h, e.label.Good) : Clean s := by
  induction hr with
  | init h0 =>
    obtain rfl := h0
    exact ⟨id, nofun, nofun⟩
  | @step h s t l hr hs ih =>
    have hlast : l.Good := hgood ⟨s, l, t⟩ List.mem_cons_self
    have hclean := ih fun e he => hgood e (List.mem_cons_of_mem _ he)
    exact (step_clean_iff (reachable_tracked hr.reachable) hs).mpr ⟨hclean, hlast⟩

/-! ### What the programs find at descriptors 0 and 1 -/

theorem Wiring.ls_stdout (hI : Wiring W s) {todo : List β} {fds : Table File} {reaped : Bool}
    (hls : s.ls = some ⟨.running todo, fds, reaped⟩) :
    fds STDOUT_FILENO = if W.w = 1 then none else some .writeEnd := by
  obtain ⟨hP, -, -⟩ := hI.piped_of_ls hls
  have hfds : fds = _ := (hI.lsFds _ hls).trans (World.lsFds_running hP todo)
  obtain ⟨-, -, -, hw, -⟩ := hP.spec
  rw [hfds]
  split_ifs with h1
  · rwa [h1] at hw
  · exact put_self _ _ _

theorem Wiring.sort_fds (hI : Wiring W s) {c : Child (SortPc β)} (hsort : s.sort = some c)
    (hprog : c.pc.IsProgram) : c.fds = W.sortTable := by
  obtain ⟨hP, -, -⟩ := hI.piped_of_sort hsort
  rw [(hI.sortFds c hsort).1]
  obtain ⟨pc, fds, reaped⟩ := c
  cases pc with
  | reading got => exact World.sortFds_reading hP got
  | writing todo => exact World.sortFds_reading hP []
  | _ => exact hprog.elim

theorem Wiring.sort_stdin (hI : Wiring W s) {c : Child (SortPc β)} (hsort : s.sort = some c)
    (hprog : c.pc.IsProgram) : c.fds STDIN_FILENO = if W.r = 0 then none else some .readEnd := by
  obtain ⟨hP, -, -⟩ := hI.piped_of_sort hsort
  obtain ⟨-, -, hr, -, -⟩ := hP.spec
  rw [hI.sort_fds hsort hprog]
  unfold World.sortTable
  split_ifs with h0 h1
  · rw [put_of_ne (by decide), STDIN_FILENO, ← h0]
    exact hr
  · exact put_self _ _ _
  · rw [put_of_ne (by decide)]
    exact put_self _ _ _

theorem Wiring.sort_stdout (hI : Wiring W s) {c : Child (SortPc β)} (hsort : s.sort = some c)
    (hprog : c.pc.IsProgram) : c.fds STDOUT_FILENO = if W.r = 1 then none else some .outfile := by
  obtain ⟨hP, -, -⟩ := hI.piped_of_sort hsort
  obtain ⟨-, -, hr, -, -⟩ := hP.spec
  rw [hI.sort_fds hsort hprog]
  unfold World.sortTable
  split_ifs with h0 _ h1
  · omega
  · exact put_self _ _ _
  · rw [put_of_ne (by decide), STDOUT_FILENO, ← h1]
    exact hr
  · exact put_self _ _ _

/-- Until it ends, the first child has the pipe open for writing, unless that is descriptor 1. -/
theorem Wiring.ls_holds (hI : Wiring W s) {c : Child (LsPc β)} (hls : s.ls = some c) (halive : c.pc.Alive)
    (hne : W.w ≠ 1) : Open W.limit c.fds .writeEnd := by
  obtain ⟨hP, -, -⟩ := hI.piped_of_ls hls
  obtain ⟨hlt, hlimit, -⟩ := hP.spec
  have hpiped : W.piped W.w = some .writeEnd := put_self _ _ _
  have hclosed : close W.r W.piped W.w = some .writeEnd := by rwa [close_of_ne (by omega)]
  have hrunning : W.lsFds (.running ([] : List β)) STDOUT_FILENO = some .writeEnd := by
    rw [World.lsFds_running hP, if_neg hne]
    exact put_self _ _ _
  rw [hI.lsFds c hls]
  cases hpc : c.pc with
  | closeRead => exact ⟨W.w, hlimit, hpiped⟩
  | dup2 => exact ⟨W.w, hlimit, hclosed⟩
  | perror failure =>
    cases failure with
    | dup2 => exact ⟨W.w, hlimit, hclosed⟩
    | execlp => exact ⟨STDOUT_FILENO, by show 1 < W.limit; omega, hrunning⟩
  | closeWrite =>
    refine ⟨STDOUT_FILENO, by show 1 < W.limit; omega, ?_⟩
    have hkept : close W.w (W.dupped W.w STDOUT_FILENO (close W.r W.piped)) STDOUT_FILENO =
        some .writeEnd := hrunning
    rwa [close_of_ne (Ne.symm hne)] at hkept
  | execlp => exact ⟨STDOUT_FILENO, by show 1 < W.limit; omega, hrunning⟩
  | running todo => exact ⟨STDOUT_FILENO, by show 1 < W.limit; omega, hrunning⟩
  | ended status =>
    rw [hpc] at halive
    exact halive.elim

/-- Until it ends, the second child has the pipe open for reading, unless that is descriptor 0. -/
theorem Wiring.sort_holds (hI : Wiring W s) {c : Child (SortPc β)} (hsort : s.sort = some c)
    (halive : c.pc.Alive) (hne : W.r ≠ 0) : Open W.limit c.fds .readEnd := by
  obtain ⟨hP, -, -⟩ := hI.piped_of_sort hsort
  obtain ⟨hlt, hlimit, -⟩ := hP.spec
  have hpiped : W.piped W.r = some .readEnd := by
    unfold World.piped
    rw [put_of_ne (by omega)]
    exact put_self _ _ _
  have hclosed : close W.w W.piped W.r = some .readEnd := by rwa [close_of_ne (by omega)]
  have hunopened : W.unopened STDIN_FILENO = some .readEnd := by
    rw [World.unopened_eq hP, if_neg hne]
    exact put_self _ _ _
  have hdupped : W.dupped W.r STDIN_FILENO (close W.w W.piped) STDIN_FILENO = some .readEnd := by
    have hkept : close W.r (W.dupped W.r STDIN_FILENO (close W.w W.piped)) STDIN_FILENO =
        some .readEnd := hunopened
    rwa [close_of_ne (Ne.symm hne)] at hkept
  have hopened : W.opened STDIN_FILENO = some .readEnd := by
    unfold World.opened
    rwa [World.out_eq_r hP, put_of_ne (Ne.symm hne)]
  have hprogram : W.sortFds (.reading ([] : List β)) STDIN_FILENO = some .readEnd := by
    rw [World.sortFds_reading hP]
    unfold World.sortTable
    rw [if_neg hne]
    split_ifs
    · exact put_self _ _ _
    · rw [put_of_ne (by decide)]
      exact put_self _ _ _
  have hlimit0 : STDIN_FILENO < W.limit := by
    show 0 < W.limit
    omega
  rw [(hI.sortFds c hsort).1]
  cases hpc : c.pc with
  | closeWrite => exact ⟨W.r, by omega, hpiped⟩
  | dup2In => exact ⟨W.r, by omega, hclosed⟩
  | closeRead => exact ⟨STDIN_FILENO, hlimit0, hdupped⟩
  | openOut => exact ⟨STDIN_FILENO, hlimit0, hunopened⟩
  | dup2Out o => exact ⟨STDIN_FILENO, hlimit0, hopened⟩
  | closeOut o =>
    refine ⟨STDIN_FILENO, hlimit0, ?_⟩
    have hkept : close W.out (W.dupped W.out STDOUT_FILENO W.opened) STDIN_FILENO = some .readEnd :=
      hprogram
    rw [close_of_ne] at hkept
    · exact hkept
    · rw [World.out_eq_r hP]
      exact Ne.symm hne
  | execlp => exact ⟨STDIN_FILENO, hlimit0, hprogram⟩
  | perror failure =>
    cases failure with
    | dup2In => exact ⟨W.r, by omega, hclosed⟩
    | openOut => exact ⟨STDIN_FILENO, hlimit0, hunopened⟩
    | dup2Out o => exact ⟨STDIN_FILENO, hlimit0, hopened⟩
    | execlp => exact ⟨STDIN_FILENO, hlimit0, hprogram⟩
  | reading got => exact ⟨STDIN_FILENO, hlimit0, hprogram⟩
  | writing todo => exact ⟨STDIN_FILENO, hlimit0, hprogram⟩
  | ended status =>
    rw [hpc] at halive
    exact halive.elim

/-! ### What a report may reach -/

/-- The file is not open at descriptor 2. -/
def Lacks (f : File) (t : Table File) : Prop := t STDERR_FILENO ≠ some f

section Lacks

variable {f g : File} {u : Table File} {i : ℕ}

theorem lacks_closed : Lacks f closed := (Option.some_ne_none f).symm

theorem Lacks.close (h : Lacks f u) (i : ℕ) : Lacks f (close i u) := by
  unfold Lacks
  rw [close_apply]
  split_ifs
  · exact lacks_closed
  · exact h

theorem Lacks.put (h : Lacks f u) (hfile : g ≠ f ∨ i ≠ STDERR_FILENO) : Lacks f (put i g u) := by
  unfold Lacks
  rw [put_apply]
  split_ifs with hi
  · intro heq
    exact hfile.elim (fun hne => hne (Option.some.inj heq)) fun hne => hne hi.symm
  · exact h

theorem Lacks.dupped (h : Lacks f u) (old : ℕ) {new : ℕ} (hnew : new ≠ STDERR_FILENO) :
    Lacks f (W.dupped old new u) := by
  unfold World.dupped dup2
  split
  · exact lacks_closed
  · split_ifs
    · exact lacks_closed
    · exact h
    · exact h.put (.inr hnew)

theorem lacks_start (hf : ∀ k, f ≠ .inherited k) : Lacks f W.start := World.start_ne hf _

/-- The only file of the pipeline that the parent can find there is an end of the pipe. -/
theorem lacks_piped (hf : ∀ k, f ≠ .inherited k) (hread : f ≠ .readEnd)
    (hwrite : f ≠ .writeEnd ∨ W.w ≠ STDERR_FILENO) : Lacks f W.piped :=
  ((lacks_start hf).put (.inl hread.symm)).put (hwrite.imp_left Ne.symm)

variable (hf : ∀ k, f ≠ .inherited k) (hread : f ≠ .readEnd)
  (hwrite : f ≠ .writeEnd ∨ W.w ≠ STDERR_FILENO)
include hf hread hwrite

theorem Wiring.parent_lacks (hI : Wiring W s) : Lacks f s.fds := by
  have hstart : Lacks f W.start := lacks_start hf
  have hpiped : Lacks f W.piped := lacks_piped hf hread hwrite
  rw [hI.parentFds]
  cases s.parent with
  | pipe => exact hstart
  | forkLs | forkSort | closeRead | abortPerror | abortCloseRead => exact hpiped
  | closeWrite | abortCloseWrite => exact hpiped.close _
  | wait1 | wait2 | abortWait => exact (hpiped.close _).close _
  | perror failure =>
    cases failure with
    | pipe => exact hstart
    | forkLs => exact hpiped
    | _ => exact (hpiped.close _).close _
  | exited code => exact lacks_closed

theorem Wiring.ls_lacks (hI : Wiring W s) {c : Child (LsPc β)} (hls : s.ls = some c) :
    Lacks f c.fds := by
  have hpiped : Lacks f W.piped := lacks_piped hf hread hwrite
  have hclosed := hpiped.close W.r
  have hdupped : Lacks f (W.dupped W.w STDOUT_FILENO (close W.r W.piped)) :=
    hclosed.dupped _ (by decide)
  rw [hI.lsFds c hls]
  cases c.pc with
  | closeRead => exact hpiped
  | dup2 => exact hclosed
  | closeWrite => exact hdupped
  | execlp | running => exact hdupped.close _
  | perror failure =>
    cases failure with
    | dup2 => exact hclosed
    | execlp => exact hdupped.close _
  | ended => exact lacks_closed

theorem Wiring.sort_lacks (hI : Wiring W s) (hout : f ≠ .outfile ∨ W.out ≠ STDERR_FILENO)
    {c : Child (SortPc β)} (hsort : s.sort = some c) : Lacks f c.fds := by
  have hpiped : Lacks f W.piped := lacks_piped hf hread hwrite
  have hclosed := hpiped.close W.w
  have hdupped : Lacks f (W.dupped W.r STDIN_FILENO (close W.w W.piped)) :=
    hclosed.dupped _ (by decide)
  have hunopened : Lacks f W.unopened := hdupped.close _
  have hopened : Lacks f W.opened := hunopened.put (hout.imp_left Ne.symm)
  have hboth : Lacks f (W.dupped W.out STDOUT_FILENO W.opened) := hopened.dupped _ (by decide)
  rw [(hI.sortFds c hsort).1]
  cases c.pc with
  | closeWrite => exact hpiped
  | dup2In => exact hclosed
  | closeRead => exact hdupped
  | openOut => exact hunopened
  | dup2Out => exact hopened
  | closeOut => exact hboth
  | execlp | reading | writing => exact hboth.close _
  | perror failure =>
    cases failure with
    | dup2In => exact hclosed
    | openOut => exact hunopened
    | dup2Out => exact hopened
    | execlp => exact hboth.close _
  | ended => exact lacks_closed

end Lacks

/-- Where the write end of the pipe is not: descriptor 2, unless that and just one of 0 and 1 was
closed. -/
theorem World.w_ne_stderr (h : W.inherited STDERR_FILENO ≠ none ∨
    (W.inherited STDIN_FILENO = none ↔ W.inherited STDOUT_FILENO = none)) : W.w ≠ STDERR_FILENO := by
  intro hw2
  have hw : lowest W.limit (put W.r .readEnd W.start) = some STDERR_FILENO := by
    unfold World.w at hw2
    generalize lowest W.limit (put W.r .readEnd W.start) = o at hw2
    cases o with
    | none => cases hw2
    | some i => exact congrArg some hw2
  obtain ⟨hfree, hlimit, -⟩ := lowest_eq_some.mp hw
  have hne : STDERR_FILENO ≠ W.r := by
    intro heq
    rw [← heq, put_self] at hfree
    cases hfree
  rw [put_of_ne hne] at hfree
  obtain ⟨r, hr⟩ := exists_lowest hlimit hfree
  have hP : W.Piped := by
    refine ⟨?_, hw.trans (congrArg some hw2.symm)⟩
    unfold World.r
    rw [hr]
    rfl
  obtain ⟨hlt, -, hr0, -, hused⟩ := hP.spec
  rw [hw2] at hlt hused
  have hbelow : ∀ j < 2, j ≠ W.r → W.inherited j ≠ none := fun j hj hjr hnone =>
    hused j hj hjr (W.start_eq_none.mpr hnone)
  have hread := W.start_eq_none.mp hr0
  rcases h with hopen | hboth
  · exact hopen (W.start_eq_none.mp hfree)
  by_cases h0 : W.r = 0
  · rw [h0] at hread
    exact hbelow 1 (by omega) (by omega) (hboth.mp hread)
  · have h1 : W.r = 1 := by
      have : W.r < 2 := hlt
      omega
    rw [h1] at hread
    exact hbelow 0 (by omega) (by omega) (hboth.mpr hread)

theorem Wiring.parent_outside (hI : Wiring W s) (hw : W.w ≠ STDERR_FILENO) :
    Lacks .writeEnd s.fds ∧ Lacks .outfile s.fds :=
  ⟨hI.parent_lacks (by simp) (by simp) (.inr hw), hI.parent_lacks (by simp) (by simp) (.inl (by simp))⟩

theorem Wiring.ls_outside (hI : Wiring W s) (hw : W.w ≠ STDERR_FILENO) {c : Child (LsPc β)}
    (hls : s.ls = some c) : Lacks .writeEnd c.fds ∧ Lacks .outfile c.fds :=
  ⟨hI.ls_lacks (by simp) (by simp) (.inr hw) hls, hI.ls_lacks (by simp) (by simp) (.inl (by simp)) hls⟩

theorem Wiring.sort_outside (hI : Wiring W s) (hopen : W.inherited STDERR_FILENO ≠ none)
    {c : Child (SortPc β)} (hsort : s.sort = some c) : Lacks .writeEnd c.fds ∧ Lacks .outfile c.fds := by
  obtain ⟨hP, -, -⟩ := hI.piped_of_sort hsort
  have hout : W.out ≠ STDERR_FILENO := by
    rw [World.out_eq_r hP]
    intro hr
    exact hopen (W.start_eq_none.mp (hr ▸ hP.spec.2.2.1))
  have hw := World.w_ne_stderr (.inl hopen)
  exact ⟨hI.sort_lacks (by simp) (by simp) (.inr hw) (.inr hout) hsort,
    hI.sort_lacks (by simp) (by simp) (.inl (by simp)) (.inr hout) hsort⟩

/-- Until it exits, the parent has descriptor 2 as it was started with, if that was open. -/
theorem Wiring.parent_stderr (hI : Wiring W s) {k : ℕ} (hopen : W.inherited STDERR_FILENO = some k)
    (hpc : ∀ code, s.parent ≠ .exited code) : s.fds STDERR_FILENO = some (.inherited k) := by
  have hstart : W.start STDERR_FILENO = some (.inherited k) := by
    unfold World.start
    rw [hopen]
    rfl
  by_cases hearly : s.parent.Early
  · rw [hI.parentFds]
    cases h : s.parent with
    | pipe => exact hstart
    | perror failure =>
      cases failure with
      | pipe => exact hstart
      | _ =>
        rw [h] at hearly
        exact hearly.elim
    | exited code => exact absurd h (hpc code)
    | _ =>
      rw [h] at hearly
      exact hearly.elim
  obtain ⟨-, -, hr, hw, -⟩ := (hI.piped hearly).1.spec
  have hne : ∀ {i}, W.start i = none → STDERR_FILENO ≠ i := by
    rintro _ hi rfl
    cases hi.symm.trans hstart
  have hpiped : W.piped STDERR_FILENO = some (.inherited k) := by
    unfold World.piped
    rw [put_of_ne (hne hw), put_of_ne (hne hr), hstart]
  have hclosed : Descriptors.close W.r W.piped STDERR_FILENO = some (.inherited k) := by
    rw [close_of_ne (hne hr), hpiped]
  have hboth : Descriptors.close W.w (Descriptors.close W.r W.piped) STDERR_FILENO =
      some (.inherited k) := by
    rw [close_of_ne (hne hw), hclosed]
  rw [hI.parentFds]
  cases h : s.parent with
  | pipe => exact hstart
  | forkLs | forkSort | closeRead | abortPerror | abortCloseRead => exact hpiped
  | closeWrite | abortCloseWrite => exact hclosed
  | wait1 | wait2 | abortWait => exact hboth
  | perror failure =>
    cases failure with
    | pipe => exact hstart
    | forkLs => exact hpiped
    | _ => exact hboth
  | exited code => exact absurd h (hpc code)

/-- A report that reaches neither the pipe nor the output file. -/
theorem Told.outside {fds : Table File} {message : String} (h : Told W fds message s t)
    (hpipe : Lacks .writeEnd fds) (hout : Lacks .outfile fds) : ∃ stderr, t = { s with stderr } := by
  cases h with
  | unheard => exact ⟨_, rfl⟩
  | heard => exact ⟨_, rfl⟩
  | piped hfd => exact absurd hfd hpipe
  | filed hfd => exact absurd hfd hout

theorem Told.dry {fds : Table File} {message : String} (h : Told W fds message s t)
    (hpipe : Lacks .writeEnd fds) : ∃ outfile stderr, t = { s with outfile, stderr } := by
  cases h with
  | piped hfd => exact absurd hfd hpipe
  | _ => exact ⟨_, _, rfl⟩

theorem exists_report {fds : Table File} (hpipe : Lacks .writeEnd fds) (message : String)
    (s : State β) : ∃ t, report W fds message s = some t := by
  unfold report
  split
  · exact ⟨_, rfl⟩
  · next hfd => exact absurd hfd hpipe
  · exact ⟨_, rfl⟩
  · exact ⟨_, rfl⟩

/-- A report to a descriptor 2 that pipeit was started with. -/
theorem Told.heard_of {fds : Table File} {message : String} {k : ℕ} (h : Told W fds message s t)
    (hfd : fds STDERR_FILENO = some (.inherited k)) : t.stderr ≠ [] := by
  cases h with
  | unheard hnone => exact absurd hfd (hnone k)
  | heard => simp
  | piped hpipe => cases hpipe.symm.trans hfd
  | filed hout => cases hout.symm.trans hfd

end Csc453.Pipe
