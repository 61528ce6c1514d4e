import Csc453.Pipe.Pipeit

/-!
# Csc453.Pipe.Steps — what a step of pipeit can do

`ParentMoves`, `LsMoves` and `SortMoves` say once what the parent and the two children can do in a
step, for any outcome of the system call (`step_cases`); the invariants are proved from them.  `Told`
is what becomes of a report.
-/

namespace Csc453.Pipe

open Descriptors Transition

variable {β : Type} {W : World β} {s t : State β} {l : Label}

/-- A step in which nothing fails. -/
def Label.Good : Label → Prop
  | .parent ok | .child _ ok => ok = true
  | .waitFails | .refused _ _ | .crash _ _ => False
  | _ => True

instance : DecidablePred Label.Good := fun l => by
  unfold Label.Good
  split <;> infer_instance

/-! ### What a step can do -/

/-- What becomes of a report by a process with the table `fds`. -/
inductive Told (W : World β) (fds : Table File) (message : String) (s : State β) : State β → Prop
  | unheard : (∀ k, fds STDERR_FILENO ≠ some (.inherited k)) → Told W fds message s s
  | heard (k) : fds STDERR_FILENO = some (.inherited k) →
      Told W fds message s { s with stderr := s.stderr ++ [message] }
  | piped : fds STDERR_FILENO = some .writeEnd →
      Told W fds message s { s with pipe := s.pipe ++ [W.line message] }
  | filed : fds STDERR_FILENO = some .outfile →
      Told W fds message s { s with outfile := some (s.outfile.getD [] ++ [W.line message]) }

/-- The `close` calls of the parent. -/
inductive Closes (s : State β) : ParentPc → ParentPc → ℕ → Prop
  | read : Closes s .closeRead .closeWrite s.r
  | write : Closes s .closeWrite .wait1 s.w
  | abortRead : Closes s .abortCloseRead .abortCloseWrite s.r
  | abortWrite : Closes s .abortCloseWrite .abortWait s.w

/-- The calls of the parent that may fail, but for the second `fork`, and what it reports then. -/
inductive Fails : ParentPc → ParentFailure → Prop
  | pipe : Fails .pipe .pipe
  | forkLs : Fails .forkLs .forkLs
  | wait1 : Fails .wait1 .wait
  | wait2 : Fails .wait2 .wait
  | abortWait : Fails .abortWait .abortWait

/-- What the parent reports of a status. -/
inductive Complains : Status → ParentFailure → Prop
  | signaled (sig) : Complains (.signaled sig) .signaled
  | exited (code) : code ≠ 0 → Complains (.exited code) (.exited code)

/-- What the parent does with the status of a child. -/
inductive Waits (s : State β) (status : Status) : State β → Prop
  | first : s.parent = .wait1 → status = .exited 0 → Waits s status { s with parent := .wait2 }
  | second : s.parent = .wait2 → status = .exited 0 →
      Waits s status { s with parent := .exited 0, fds := closed }
  | bad (failure) : s.parent = .wait1 ∨ s.parent = .wait2 → Complains status failure →
      Waits s status (s.die failure)
  | abort : s.parent = .abortWait → Waits s status { s with parent := .exited 1, fds := closed }

/-- What the parent can do. -/
inductive ParentMoves (W : World β) (s : State β) : Label → State β → Prop
  | piped (r w) : s.parent = .pipe → lowest W.limit s.fds = some r →
      lowest W.limit (put r .readEnd s.fds) = some w →
      ParentMoves W s (.parent true)
        { s with parent := .forkLs, fds := put w .writeEnd (put r .readEnd s.fds), r, w }
  | forkedLs : s.parent = .forkLs →
      ParentMoves W s (.parent true)
        { s with parent := .forkSort, ls := some ⟨.closeRead, s.fds, false⟩ }
  | forkedSort : s.parent = .forkSort →
      ParentMoves W s (.parent true)
        { s with parent := .closeRead, sort := some ⟨.closeWrite, s.fds, false⟩ }
  | closes (pc fd) : Closes s s.parent pc fd →
      ParentMoves W s (.parent true) { s with parent := pc, fds := close fd s.fds }
  | aborts : s.parent = .forkSort → ParentMoves W s (.parent false) { s with parent := .abortPerror }
  | fails (l failure) : ¬ l.Good → Fails s.parent failure → ParentMoves W s l (s.die failure)
  | aborted (message t) : s.parent = .abortPerror → Told W s.fds message s t →
      ParentMoves W s (.parent true) { t with parent := .abortCloseRead }
  | exits (failure t) : s.parent = .perror failure → Told W s.fds failure.text s t →
      ParentMoves W s (.parent true) { t with parent := .exited 1, fds := closed }
  | reapsLs (status fds t) : s.ls = some ⟨.ended status, fds, false⟩ →
      Waits { s with ls := some ⟨.ended status, fds, true⟩ } status t → ParentMoves W s (.reap .ls) t
  | reapsSort (status fds t) : s.sort = some ⟨.ended status, fds, false⟩ →
      Waits { s with sort := some ⟨.ended status, fds, true⟩ } status t →
      ParentMoves W s (.reap .sort) t

/-- The calls of the first child that succeed. -/
inductive LsCode (W : World β) (s : State β) : LsPc β → Table File → LsPc β → Table File → Prop
  | closeRead (fds) : LsCode W s .closeRead fds .dup2 (close s.r fds)
  | dup2 (fds fds') : dup2 W.limit s.w STDOUT_FILENO fds = some fds' →
      LsCode W s .dup2 fds .closeWrite fds'
  | closeWrite (fds) : LsCode W s .closeWrite fds .execlp (close s.w fds)
  | execlp (fds) : LsCode W s .execlp fds (.running W.listing) fds

/-- The call of the first child that failed. -/
inductive LsFails : LsPc β → LsFailure → Prop
  | dup2 : LsFails .dup2 .dup2
  | execlp : LsFails .execlp .execlp

/-- What the first child can do. -/
inductive LsMoves (W : World β) (s : State β) : Label → State β → Prop
  | code (pc fds reaped pc' fds') : s.ls = some ⟨pc, fds, reaped⟩ → LsCode W s pc fds pc' fds' →
      LsMoves W s (.child .ls true) { s with ls := some ⟨pc', fds', reaped⟩ }
  | fails (pc fds reaped failure) : s.ls = some ⟨pc, fds, reaped⟩ → LsFails pc failure →
      LsMoves W s (.child .ls false) { s with ls := some ⟨.perror failure, fds, reaped⟩ }
  | exits (failure fds reaped ok t status) : s.ls = some ⟨.perror failure, fds, reaped⟩ →
      Told W fds failure.text s t → status ≠ .exited 0 →
      LsMoves W s (.child .ls ok) { t with ls := some ⟨.ended status, closed, reaped⟩ }
  | writes (b todo fds reaped t) : s.ls = some ⟨.running (b :: todo), fds, reaped⟩ →
      writeTo W (fds STDOUT_FILENO) b s = some t →
      LsMoves W s (.write .ls) { t with ls := some ⟨.running todo, fds, reaped⟩ }
  | ends (l todo fds reaped status) : s.ls = some ⟨.running todo, fds, reaped⟩ →
      (status = .exited 0 → todo = []) → (l.Good ↔ status = .exited 0) →
      LsMoves W s l { s with ls := some ⟨.ended status, closed, reaped⟩ }

/-- The calls of the second child that succeed, but for the `open`. -/
inductive SortCode (W : World β) (s : State β) : SortPc β → Table File → SortPc β → Table File → Prop
  | closeWrite (fds) : SortCode W s .closeWrite fds .dup2In (close s.w fds)
  | dup2In (fds fds') : dup2 W.limit s.r STDIN_FILENO fds = some fds' →
      SortCode W s .dup2In fds .closeRead fds'
  | closeRead (fds) : SortCode W s .closeRead fds .openOut (close s.r fds)
  | dup2Out (o fds fds') : dup2 W.limit o STDOUT_FILENO fds = some fds' →
      SortCode W s (.dup2Out o) fds (.closeOut o) fds'
  | closeOut (o fds) : SortCode W s (.closeOut o) fds .execlp (close o fds)
  | execlp (fds) : SortCode W s .execlp fds (.reading []) fds

/-- The call of the second child that failed. -/
inductive SortFails : SortPc β → SortFailure → Prop
  | dup2In : SortFails .dup2In .dup2In
  | openOut : SortFails .openOut .openOut
  | dup2Out (o) : SortFails (.dup2Out o) (.dup2Out o)
  | execlp : SortFails .execlp .execlp

/-- What the second child can do. -/
inductive SortMoves (W : World β) (s : State β) : Label → State β → Prop
  | code (pc fds reaped pc' fds') : s.sort = some ⟨pc, fds, reaped⟩ → SortCode W s pc fds pc' fds' →
      SortMoves W s (.child .sort true) { s with sort := some ⟨pc', fds', reaped⟩ }
  | opens (o fds reaped) : s.sort = some ⟨.openOut, fds, reaped⟩ → lowest W.limit fds = some o →
      SortMoves W s (.child .sort true)
        { s with sort := some ⟨.dup2Out o, put o .outfile fds, reaped⟩, outfile := some [] }
  | fails (pc fds reaped failure) : s.sort = some ⟨pc, fds, reaped⟩ → SortFails pc failure →
      SortMoves W s (.child .sort false) { s with sort := some ⟨.perror failure, fds, reaped⟩ }
  | exits (failure fds reaped ok t status) : s.sort = some ⟨.perror failure, fds, reaped⟩ →
      Told W fds failure.text s t → status ≠ .exited 0 →
      SortMoves W s (.child .sort ok) { t with sort := some ⟨.ended status, closed, reaped⟩ }
  | reads (b rest got fds reaped) : s.sort = some ⟨.reading got, fds, reaped⟩ → s.pipe = b :: rest →
      fds STDIN_FILENO = some .readEnd →
      SortMoves W s .read { s with pipe := rest, sort := some ⟨.reading (got ++ [b]), fds, reaped⟩ }
  | eof (got fds reaped) : s.sort = some ⟨.reading got, fds, reaped⟩ → AtEof W (fds STDIN_FILENO) s →
      SortMoves W s .eof { s with sort := some ⟨.writing (W.sortR got), fds, reaped⟩ }
  | writes (b todo fds reaped t) : s.sort = some ⟨.writing (b :: todo), fds, reaped⟩ →
      writeTo W (fds STDOUT_FILENO) b s = some t →
      SortMoves W s (.write .sort) { t with sort := some ⟨.writing todo, fds, reaped⟩ }
  | ends (l pc fds reaped status) : s.sort = some ⟨pc, fds, reaped⟩ →
      ((∃ got, pc = .reading got) ∧ status ≠ .exited 0 ∨
        ∃ todo, pc = .writing todo ∧ (status = .exited 0 → todo = [])) →
      (l.Good ↔ status = .exited 0) →
      SortMoves W s l { s with sort := some ⟨.ended status, closed, reaped⟩ }

theorem told_of_report {fds : Table File} {message : String} (h : report W fds message s = some t) :
    Told W fds message s t := by
  unfold report at h
  split at h
  · next k hfd =>
    obtain rfl := Option.some.inj h
    exact .heard k hfd
  · next hfd =>
    unfold writeTo at h
    dsimp only at h
    split_ifs at h
    · obtain rfl := Option.some.inj h
      exact .piped hfd
    · obtain rfl := Option.some.inj h
      exact .unheard (by simp [hfd])
  · next hfd =>
    obtain rfl := Option.some.inj h
    exact .filed hfd
  · next hfd _ _ =>
    obtain rfl := Option.some.inj h
    exact .unheard hfd

/-- A child that has reported, or was killed for it, has not succeeded. -/
theorem told_of_lastWords {ok : Bool} {fds : Table File} {message : String} {r : State β × Status}
    (h : lastWords W ok fds message s = some r) : Told W fds message s r.1 ∧ r.2 ≠ .exited 0 := by
  unfold lastWords at h
  split_ifs at h with hok hkilled
  · obtain ⟨t, ht, rfl⟩ := Option.map_eq_some_iff.mp h
    exact ⟨told_of_report ht, by simp⟩
  · obtain rfl := Option.some.inj h
    exact ⟨.unheard (by simp [hkilled.1]), by simp⟩

/-- A report changes the pipe, the output file or the standard error only. -/
theorem Told.frame {fds : Table File} {message : String} (h : Told W fds message s t) :
    ∃ pipe outfile stderr, t = { s with pipe, outfile, stderr } := by
  cases h <;> exact ⟨_, _, _, rfl⟩

theorem parentStep_moves {ok : Bool} (h : parentStep W ok s = some t) :
    ParentMoves W s (.parent ok) t := by
  unfold parentStep at h
  split at h
  · next hpc =>
    cases ok with
    | true =>
      simp only [if_true, Option.pure_def, Option.bind_eq_bind, Option.bind_eq_some_iff,
        Option.some.injEq] at h
      obtain ⟨r, hr, w, hw, rfl⟩ := h
      exact .piped r w hpc hr hw
    | false =>
      obtain rfl := Option.some.inj h
      exact .fails _ _ (by simp [Label.Good]) (hpc ▸ .pipe)
  · next hpc =>
    cases ok with
    | true =>
      obtain rfl := Option.some.inj h
      exact .forkedLs hpc
    | false =>
      obtain rfl := Option.some.inj h
      exact .fails _ _ (by simp [Label.Good]) (hpc ▸ .forkLs)
  · next hpc =>
    cases ok with
    | true =>
      obtain rfl := Option.some.inj h
      exact .forkedSort hpc
    | false =>
      obtain rfl := Option.some.inj h
      exact .aborts hpc
  · next hpc =>
    split_ifs at h with hok
    obtain rfl := Option.some.inj h
    obtain rfl := hok
    exact .closes _ _ (hpc ▸ .read)
  · next hpc =>
    split_ifs at h with hok
    obtain rfl := Option.some.inj h
    obtain rfl := hok
    exact .closes _ _ (hpc ▸ .write)
  · next hpc =>
    split_ifs at h with hok
    obtain ⟨u, hu, rfl⟩ := Option.map_eq_some_iff.mp h
    obtain rfl := hok
    exact .aborted _ u hpc (told_of_report hu)
  · next hpc =>
    split_ifs at h with hok
    obtain rfl := Option.some.inj h
    obtain rfl := hok
    exact .closes _ _ (hpc ▸ .abortRead)
  · next hpc =>
    split_ifs at h with hok
    obtain rfl := Option.some.inj h
    obtain rfl := hok
    exact .closes _ _ (hpc ▸ .abortWrite)
  · next failure hpc =>
    split_ifs at h with hok
    obtain ⟨u, hu, rfl⟩ := Option.map_eq_some_iff.mp h
    obtain rfl := hok
    exact .exits failure u hpc (told_of_report hu)
  · cases h

theorem waits_of_afterWait {status : Status} (h : s.afterWait status = some t) : Waits s status t := by
  have hwaited : ∀ next, s.parent = .wait1 ∧ next = .wait2 ∨ s.parent = .wait2 ∧ next = .exited 0 →
      Waits s status (s.waited status next) := by
    intro next hpc
    have hbad : s.parent = .wait1 ∨ s.parent = .wait2 := hpc.imp And.left And.left
    unfold State.waited
    split
    · exact .bad _ hbad (.signaled _)
    · next code =>
      split_ifs with hcode hnext
      · exact .bad _ hbad (.exited code hcode)
      · rcases hpc with ⟨hpc, rfl⟩ | ⟨hpc, rfl⟩
        · cases hnext
        · exact .second hpc (by rw [not_not.mp hcode])
      · rcases hpc with ⟨hpc, rfl⟩ | ⟨hpc, rfl⟩
        · exact .first hpc (by rw [not_not.mp hcode])
        · exact absurd rfl hnext
  unfold State.afterWait at h
  split at h
  · next hpc =>
    obtain rfl := Option.some.inj h
    exact hwaited _ (.inl ⟨hpc, rfl⟩)
  · next hpc =>
    obtain rfl := Option.some.inj h
    exact hwaited _ (.inr ⟨hpc, rfl⟩)
  · next hpc =>
    obtain rfl := Option.some.inj h
    exact .abort hpc
  · cases h

theorem reapStep_moves {who : Who} (h : reapStep who s = some t) : ParentMoves W s (.reap who) t := by
  unfold reapStep at h
  split at h
  · split at h
    · next hls => exact .reapsLs _ _ _ hls (waits_of_afterWait h)
    · cases h
  · split at h
    · next hsort => exact .reapsSort _ _ _ hsort (waits_of_afterWait h)
    · cases h

theorem waitFailsStep_moves (h : waitFailsStep s = some t) : ParentMoves W s .waitFails t := by
  unfold waitFailsStep at h
  split at h
  · next hpc =>
    obtain rfl := Option.some.inj h
    exact .fails _ _ id (hpc ▸ .wait1)
  · next hpc =>
    obtain rfl := Option.some.inj h
    exact .fails _ _ id (hpc ▸ .wait2)
  · next hpc =>
    obtain rfl := Option.some.inj h
    exact .fails _ _ id (hpc ▸ .abortWait)
  · cases h

theorem lsStep_moves {ok : Bool} {c : Child (LsPc β)} (hc : s.ls = some c)
    (h : lsStep W ok c s = some t) : LsMoves W s (.child .ls ok) t := by
  obtain ⟨pc, fds, reaped⟩ := c
  cases pc with
  | closeRead =>
    cases ok with
    | true =>
      obtain rfl := Option.some.inj h
      exact .code _ _ _ _ _ hc (.closeRead fds)
    | false => cases h
  | dup2 =>
    cases ok with
    | true =>
      simp only [lsStep, if_true, Option.pure_def, Option.bind_eq_bind, Option.bind_eq_some_iff,
        Option.some.injEq] at h
      obtain ⟨fds', hdup, rfl⟩ := h
      exact .code _ _ _ _ _ hc (.dup2 fds fds' hdup)
    | false =>
      obtain rfl := Option.some.inj h
      exact .fails _ _ _ _ hc .dup2
  | closeWrite =>
    cases ok with
    | true =>
      obtain rfl := Option.some.inj h
      exact .code _ _ _ _ _ hc (.closeWrite fds)
    | false => cases h
  | execlp =>
    cases ok with
    | true =>
      obtain rfl := Option.some.inj h
      exact .code _ _ _ _ _ hc (.execlp fds)
    | false =>
      obtain rfl := Option.some.inj h
      exact .fails _ _ _ _ hc .execlp
  | perror failure =>
    obtain ⟨r, hr, rfl⟩ := Option.map_eq_some_iff.mp h
    obtain ⟨htold, hstatus⟩ := told_of_lastWords hr
    exact .exits _ _ _ _ _ _ hc htold hstatus
  | running todo => cases h
  | ended status => cases h

theorem sortStep_moves {ok : Bool} {c : Child (SortPc β)} (hc : s.sort = some c)
    (h : sortStep W ok c s = some t) : SortMoves W s (.child .sort ok) t := by
  obtain ⟨pc, fds, reaped⟩ := c
  cases pc with
  | closeWrite =>
    cases ok with
    | true =>
      obtain rfl := Option.some.inj h
      exact .code _ _ _ _ _ hc (.closeWrite fds)
    | false => cases h
  | dup2In =>
    cases ok with
    | true =>
      simp only [sortStep, if_true, Option.pure_def, Option.bind_eq_bind, Option.bind_eq_some_iff,
        Option.some.injEq] at h
      obtain ⟨fds', hdup, rfl⟩ := h
      exact .code _ _ _ _ _ hc (.dup2In fds fds' hdup)
    | false =>
      obtain rfl := Option.some.inj h
      exact .fails _ _ _ _ hc .dup2In
  | closeRead =>
    cases ok with
    | true =>
      obtain rfl := Option.some.inj h
      exact .code _ _ _ _ _ hc (.closeRead fds)
    | false => cases h
  | openOut =>
    cases ok with
    | true =>
      simp only [sortStep, if_true, Option.pure_def, Option.bind_eq_bind, Option.bind_eq_some_iff,
        Option.some.injEq] at h
      obtain ⟨o, ho, rfl⟩ := h
      exact .opens o fds reaped hc ho
    | false =>
      obtain rfl := Option.some.inj h
      exact .fails _ _ _ _ hc .openOut
  | dup2Out o =>
    cases ok with
    | true =>
      simp only [sortStep, if_true, Option.pure_def, Option.bind_eq_bind, Option.bind_eq_some_iff,
        Option.some.injEq] at h
      obtain ⟨fds', hdup, rfl⟩ := h
      exact .code _ _ _ _ _ hc (.dup2Out o fds fds' hdup)
    | false =>
      obtain rfl := Option.some.inj h
      exact .fails _ _ _ _ hc (.dup2Out o)
  | closeOut o =>
    cases ok with
    | true =>
      obtain rfl := Option.some.inj h
      exact .code _ _ _ _ _ hc (.closeOut o fds)
    | false => cases h
  | execlp =>
    cases ok with
    | true =>
      obtain rfl := Option.some.inj h
      exact .code _ _ _ _ _ hc (.execlp fds)
    | false =>
      obtain rfl := Option.some.inj h
      exact .fails _ _ _ _ hc .execlp
  | perror failure =>
    obtain ⟨r, hr, rfl⟩ := Option.map_eq_some_iff.mp h
    obtain ⟨htold, hstatus⟩ := told_of_lastWords hr
    exact .exits _ _ _ _ _ _ hc htold hstatus
  | reading got => cases h
  | writing todo => cases h
  | ended status => cases h

/-- The steps of the two programs. -/
theorem writeStep_moves {who : Who} (h : writeStep W who s = some t) :
    LsMoves W s (.write who) t ∨ SortMoves W s (.write who) t := by
  unfold writeStep at h
  split at h
  · split at h
    · next hls =>
      obtain ⟨u, hu, rfl⟩ := Option.map_eq_some_iff.mp h
      exact .inl (.writes _ _ _ _ u hls hu)
    · cases h
  · split at h
    · next hsort =>
      obtain ⟨u, hu, rfl⟩ := Option.map_eq_some_iff.mp h
      exact .inr (.writes _ _ _ _ u hsort hu)
    · cases h

theorem crashStep_moves {who : Who} {status : Status} (hl : ¬ l.Good)
    (h : crashStep who status s = some t) : LsMoves W s l t ∨ SortMoves W s l t := by
  unfold crashStep at h
  split_ifs at h with hok
  have hgood : l.Good ↔ status = .exited 0 := iff_of_false hl hok
  split at h
  · split at h
    · next hls =>
      obtain rfl := Option.some.inj h
      exact .inl (.ends _ _ _ _ _ hls (fun hst => absurd hst hok) hgood)
    · cases h
  · split at h
    · next hsort =>
      obtain rfl := Option.some.inj h
      exact .inr (.ends _ _ _ _ _ hsort (.inl ⟨⟨_, rfl⟩, hok⟩) hgood)
    · next hsort =>
      obtain rfl := Option.some.inj h
      exact .inr (.ends _ _ _ _ _ hsort (.inr ⟨_, rfl, fun hst => absurd hst hok⟩) hgood)
    · cases h

theorem finishStep_moves {who : Who} (h : finishStep who s = some t) :
    LsMoves W s (.finish who) t ∨ SortMoves W s (.finish who) t := by
  have hgood : (Label.finish who).Good ↔ Status.exited 0 = .exited 0 := iff_of_true trivial rfl
  unfold finishStep at h
  split at h
  · split at h
    · next hls =>
      obtain rfl := Option.some.inj h
      exact .inl (.ends _ _ _ _ _ hls (fun _ => rfl) hgood)
    · cases h
  · split at h
    · next hsort =>
      obtain rfl := Option.some.inj h
      exact .inr (.ends _ _ _ _ _ hsort (.inr ⟨_, rfl, fun _ => rfl⟩) hgood)
    · cases h

theorem readStep_moves (h : readStep s = some t) : SortMoves W s .read t := by
  unfold readStep at h
  split at h
  · next hsort hpipe =>
    split_ifs at h with hfd
    obtain rfl := Option.some.inj h
    exact .reads _ _ _ _ _ hsort hpipe hfd
  · cases h

theorem eofStep_moves (h : eofStep W s = some t) : SortMoves W s .eof t := by
  unfold eofStep at h
  split at h
  · next hsort =>
    split_ifs at h with heof
    obtain rfl := Option.some.inj h
    exact .eof _ _ _ hsort heof
  · cases h

/-- **What a step can do.** -/
theorem step_cases (h : step W s l = some t) :
    ParentMoves W s l t ∨ LsMoves W s l t ∨ SortMoves W s l t := by
  cases l with
  | parent ok => exact .inl (parentStep_moves h)
  | reap who => exact .inl (reapStep_moves h)
  | waitFails => exact .inl (waitFailsStep_moves h)
  | child who ok =>
    cases who with
    | ls =>
      obtain ⟨c, hc, h⟩ := Option.bind_eq_some_iff.mp h
      exact .inr (.inl (lsStep_moves hc h))
    | sort =>
      obtain ⟨c, hc, h⟩ := Option.bind_eq_some_iff.mp h
      exact .inr (.inr (sortStep_moves hc h))
  | write who => exact .inr (writeStep_moves h)
  | read => exact .inr (.inr (readStep_moves h))
  | eof => exact .inr (.inr (eofStep_moves h))
  | finish who => exact .inr (finishStep_moves h)
  | refused who status =>
    simp only [step] at h
    split_ifs at h
    exact .inr (crashStep_moves id h)
  | crash who status => exact .inr (crashStep_moves id h)

/-- A write changes the pipe or the output file only. -/
theorem writeTo_frame {file : Option File} {b : β} (h : writeTo W file b s = some t) :
    ∃ pipe outfile, t = { s with pipe, outfile } := by
  unfold writeTo at h
  split at h
  · split_ifs at h
    exact ⟨_, _, (Option.some.inj h).symm⟩
  · exact ⟨_, _, (Option.some.inj h).symm⟩
  · exact ⟨_, _, (Option.some.inj h).symm⟩
  · cases h

/-! ### Replaying steps -/

/-- The state after the steps, if they can be taken. -/
def after (W : World β) (labels : List Label) : Option (State β) := labels.foldlM (step W) (initial W)

theorem run_of_foldlM {labels : List Label} {h : List (Event (State β) Label)}
    (hr : Run (pipeline W) h s) (hs : labels.foldlM (step W) s = some t) :
    ∃ newer, Run (pipeline W) (newer ++ h) t ∧ newer.map Event.label = labels.reverse := by
  induction labels generalizing s h with
  | nil =>
    obtain rfl := Option.some.inj hs
    exact ⟨[], hr, rfl⟩
  | cons l labels ih =>
    rw [List.foldlM_cons, Option.bind_eq_bind, Option.bind_eq_some_iff] at hs
    obtain ⟨u, hu, hs⟩ := hs
    have hstep : (pipeline W).step s l u := hu
    obtain ⟨newer, hrun, hlabels⟩ := ih (hr.step hstep) hs
    refine ⟨newer ++ [⟨s, l, u⟩], ?_, ?_⟩
    · rwa [List.append_assoc]
    · rw [List.map_append, hlabels, List.reverse_cons]
      rfl

theorem run_after {labels : List Label} (h : after W labels = some s) :
    ∃ hist, Run (pipeline W) hist s ∧ hist.map Event.label = labels.reverse := by
  obtain ⟨hist, hr, hlabels⟩ := run_of_foldlM (.init rfl) h
  rw [List.append_nil] at hr
  exact ⟨hist, hr, hlabels⟩

theorem reachable_after {labels : List Label} (h : after W labels = some s) :
    Reachable (pipeline W) s := by
  obtain ⟨hist, hr, -⟩ := run_after h
  exact hr.reachable

end Csc453.Pipe
