import Csc453.Pipe.Children

/-!
# Csc453.Pipe.Output — what a run of pipeit leaves in outfile

`Flow` says where the listing is: what `sort` has read, what is in the pipe and what `ls` still has to
write make up the listing (`stream`), and the output file holds what `sort` has written so far
(`output`), as long as no report gets into the pipe.  With what was reported (`reachable_silent`,
`reachable_reported`) it gives the meaning of the exit status: `pipeline_output`.
-/

namespace Csc453.Pipe

open Descriptors Transition

variable {β : Type} {W : World β} {s t : State β} {l : Label}

/-! ### The listing -/

def State.lsPc (s : State β) : Option (LsPc β) := s.ls.map Child.pc

def State.sortPc (s : State β) : Option (SortPc β) := s.sort.map Child.pc

theorem lsPc_of {c : Child (LsPc β)} (hc : s.ls = some c) : s.lsPc = some c.pc := by
  unfold State.lsPc
  rw [hc]
  rfl

theorem sortPc_of {c : Child (SortPc β)} (hc : s.sort = some c) : s.sortPc = some c.pc := by
  unfold State.sortPc
  rw [hc]
  rfl

/-- What `sort` has read, as long as it reads. -/
def taken : Option (SortPc β) → Option (List β)
  | some (.reading got) => some got
  | some (.perror _) | some (.writing _) | some (.ended _) => none
  | _ => some []

/-- `ls` has `rest` still to write; an `ls` that failed may have had anything left. -/
def LeftBy (W : World β) (rest : List β) : Option (LsPc β) → Prop
  | some (.running todo) => rest = todo
  | some (.ended status) => status = .exited 0 → rest = []
  | _ => rest = W.listing

/-- `ls` is gone and wrote `g`, which is the listing if `ls` did not fail. -/
def Wrote (W : World β) (g : List β) (pc : Option (LsPc β)) : Prop :=
  g <+: W.listing ∧ ∃ status, pc = some (.ended status) ∧ (status = .exited 0 → g = W.listing)

/-- The output file is as it was, or holds a beginning of what a beginning of the listing is sorted to. -/
def Partial (W : World β) (outfile : Option (List β)) : Prop :=
  outfile = W.old ∨ ∃ g out, g <+: W.listing ∧ out <+: W.sortR g ∧ outfile = some out

/-- What the output file holds, by the program counter of the second child.  A report that goes there
is the last thing in it. -/
def Holds (W : World β) (outfile : Option (List β)) (ls : Option (LsPc β)) :
    Option (SortPc β) → Prop
  | some (.dup2Out _) | some (.closeOut _) | some .execlp | some (.reading _)
  | some (.perror (.dup2Out _)) | some (.perror .execlp) => outfile = some []
  | some (.writing todo) => ∃ g out, Wrote W g ls ∧ outfile = some out ∧ out ++ todo = W.sortR g
  | some (.ended status) =>
    (W.inherited STDERR_FILENO ≠ none → Partial W outfile) ∧
      (status = .exited 0 → ∃ g, Wrote W g ls ∧ outfile = some (W.sortR g))
  | _ => outfile = W.old

/-- Where the listing is. -/
structure Flow (W : World β) (s : State β) : Prop where
  stream : ∀ got, taken s.sortPc = some got →
    ∃ rest, LeftBy W rest s.lsPc ∧ got ++ s.pipe ++ rest = W.listing
  output : Holds W s.outfile s.lsPc s.sortPc

theorem flow_initial (W : World β) : Flow W (initial W) where
  stream got hgot := by
    obtain rfl := Option.some.inj hgot
    exact ⟨W.listing, rfl, rfl⟩
  output := rfl

theorem Flow.congr (hI : Flow W s) (hls : t.lsPc = s.lsPc) (hsort : t.sortPc = s.sortPc)
    (hpipe : t.pipe = s.pipe) (hout : t.outfile = s.outfile) : Flow W t := by
  constructor
  · rw [hls, hsort, hpipe]
    exact hI.stream
  · rw [hls, hsort, hout]
    exact hI.output

theorem Waits.flow {status : Status} (h : Waits s status t) (hI : Flow W s) : Flow W t := by
  cases h <;> exact hI.congr rfl rfl rfl rfl

theorem ParentMoves.flow (h : ParentMoves W s l t) (hwired : Wiring W s) (hT : Tracked s)
    (hquiet : Clean t ∨ W.w ≠ STDERR_FILENO) (hI : Flow W s) : Flow W t := by
  have htold : ∀ {message : String} {u : State β}, Told W s.fds message s u → W.w ≠ STDERR_FILENO →
      Flow W u := by
    rintro message u h hw
    obtain ⟨hpipe, hout⟩ := hwired.parent_outside hw
    obtain ⟨stderr, rfl⟩ := h.outside hpipe hout
    exact hI.congr rfl rfl rfl rfl
  cases h with
  | piped r w hpc => exact hI.congr rfl rfl rfl rfl
  | forkedLs hpc =>
    unfold Tracked at hT
    rw [hpc] at hT
    obtain ⟨hstream, hout⟩ := hI
    unfold State.lsPc State.sortPc at hstream hout
    rw [hT.1, hT.2] at hstream hout
    constructor
    · show ∀ got, taken (s.sort.map Child.pc) = some got → _
      rw [hT.2]
      exact hstream
    · show Holds W s.outfile _ (s.sort.map Child.pc)
      rw [hT.2]
      exact hout
  | forkedSort hpc =>
    unfold Tracked at hT
    rw [hpc] at hT
    obtain ⟨hstream, hout⟩ := hI
    unfold State.sortPc at hstream hout
    rw [hT.2] at hstream hout
    exact ⟨hstream, hout⟩
  | aborts hpc => exact hI.congr rfl rfl rfl rfl
  | closes pc fd hcloses => exact hI.congr rfl rfl rfl rfl
  | fails => exact hI.congr rfl rfl rfl rfl
  | aborted message u hpc hu =>
    refine (htold hu (hquiet.resolve_left fun h => h.parent trivial)).congr rfl rfl rfl rfl
  | exits failure u hpc hu =>
    refine (htold hu (hquiet.resolve_left fun h => h.parent trivial)).congr rfl rfl rfl rfl
  | reapsLs status fds t hls hwaits =>
    refine hwaits.flow (hI.congr ?_ rfl rfl rfl)
    unfold State.lsPc
    rw [hls]
    rfl
  | reapsSort status fds t hsort hwaits =>
    refine hwaits.flow (hI.congr rfl ?_ rfl rfl)
    unfold State.sortPc
    rw [hsort]
    rfl

/-- While `ls` is there, the output file does not depend on it. -/
theorem Holds.of_alive {outfile : Option (List β)} {pc : LsPc β} {sort : Option (SortPc β)}
    (h : Holds W outfile (some pc) sort) (halive : pc.Alive) (ls : Option (LsPc β)) :
    Holds W outfile ls sort := by
  have hWrote : ∀ g, ¬ Wrote W g (some pc) := by
    rintro g ⟨-, status, hpc, -⟩
    obtain rfl := Option.some.inj hpc
    exact halive
  unfold Holds at h ⊢
  split at h
  all_goals grind

/-- A step of the first child that writes `out` to the pipe. -/
theorem Flow.withLs (hI : Flow W s) {c c' : Child (LsPc β)} (hc : s.ls = some c) (halive : c.pc.Alive)
    (out : List β) (stderr : List String)
    (hrest : ∀ rest, LeftBy W rest (some c.pc) → ∃ rest', LeftBy W rest' (some c'.pc) ∧ rest = out ++ rest') :
    Flow W { s with ls := some c', pipe := s.pipe ++ out, stderr } := by
  obtain ⟨hstream, hout⟩ := hI
  rw [lsPc_of hc] at hstream hout
  refine ⟨fun got hgot => ?_, hout.of_alive halive _⟩
  obtain ⟨rest, hleft, hlisting⟩ := hstream got hgot
  obtain ⟨rest', hleft', rfl⟩ := hrest rest hleft
  refine ⟨rest', hleft', ?_⟩
  rw [← hlisting]
  simp

theorem LsMoves.flow (h : LsMoves W s l t) (hwired : Wiring W s)
    (hquiet : Clean t ∨ W.w ≠ STDERR_FILENO) (hI : Flow W s) : Flow W t := by
  have hkept : ∀ (c c' : Child (LsPc β)) (stderr : List String), s.ls = some c → c.pc.Alive →
      (∀ rest, LeftBy W rest (some c.pc) → LeftBy W rest (some c'.pc)) →
      Flow W { s with ls := some c', stderr } := by
    intro c c' stderr hc halive hleft
    have hI' : Flow W { s with ls := some c', pipe := s.pipe ++ [], stderr } :=
      hI.withLs hc halive [] stderr fun rest h => ⟨rest, hleft rest h, rfl⟩
    rwa [List.append_nil] at hI'
  cases h with
  | code pc fds reaped pc' fds' hls hcode =>
    refine hkept _ _ s.stderr hls ?_ fun rest hleft => ?_
    · cases hcode <;> trivial
    · cases hcode <;> exact hleft
  | fails pc fds reaped failure hls hfails =>
    refine hkept _ _ s.stderr hls ?_ fun rest hleft => ?_
    · cases hfails <;> trivial
    · cases hfails <;> exact hleft
  | exits failure fds reaped ok u status hls htold hstatus =>
    have hw := hquiet.resolve_left fun h => h.ls _ rfl hstatus
    obtain ⟨hpipe, hout⟩ := hwired.ls_outside hw hls
    obtain ⟨stderr, rfl⟩ := htold.outside hpipe hout
    exact hkept _ _ stderr hls trivial fun rest _ hok => absurd hok hstatus
  | writes b todo fds reaped u hls hu =>
    have hfd := hwired.ls_stdout hls
    unfold writeTo at hu
    rw [hfd] at hu
    split_ifs at hu
    obtain rfl := Option.some.inj hu
    refine hI.withLs hls trivial [b] s.stderr fun rest hleft => ⟨todo, rfl, ?_⟩
    exact hleft
  | ends l todo fds reaped status hls hst =>
    refine hkept _ _ s.stderr hls trivial fun rest hleft hok => ?_
    rw [show rest = todo from hleft]
    exact hst hok

/-- A step of the second child, as far as the listing goes. -/
theorem Flow.withSort {c : Child (SortPc β)} {outfile : Option (List β)} {pipe : List β}
    {stderr : List String}
    (hstream : ∀ got, taken (some c.pc) = some got →
      ∃ rest, LeftBy W rest s.lsPc ∧ got ++ pipe ++ rest = W.listing)
    (hout : Holds W outfile s.lsPc (some c.pc)) :
    Flow W { s with sort := some c, pipe, outfile, stderr } := ⟨hstream, hout⟩

/-- At the end of file `ls` is gone, and `sort` has read what it wrote. -/
theorem wrote_of_eof {got : List β} {fds : Table File} {reaped : Bool} (hwired : Wiring W s)
    (hT : Tracked s) (hI : Flow W s) (hsort : s.sort = some ⟨.reading got, fds, reaped⟩)
    (heof : AtEof W (fds STDIN_FILENO) s) : Wrote W got s.lsPc := by
  have hfd : fds STDIN_FILENO = _ := hwired.sort_stdin hsort trivial
  rw [hfd] at heof
  have hr : W.r ≠ 0 := by
    intro h0
    rw [if_pos h0] at heof
    exact heof
  rw [if_neg hr] at heof
  obtain ⟨hpipe, hwriter⟩ := heof
  obtain ⟨rest, hleft, hlisting⟩ := hI.stream got (by rw [sortPc_of hsort]; rfl)
  rw [hpipe, List.append_nil] at hlisting
  obtain ⟨c, hls⟩ : ∃ c, s.ls = some c := by
    refine Option.ne_none_iff_exists'.mp fun hnone => ?_
    cases hsort.symm.trans (hT.sort_none hnone)
  have hgone : ¬ c.pc.Alive := by
    intro halive
    obtain ⟨hP, -⟩ := hwired.piped_of_ls hls
    obtain ⟨hlt, -⟩ := hP.spec
    refine hwriter ⟨c.fds, ?_, hwired.ls_holds hls halive (by omega)⟩
    simp [State.tables, hls]
  rw [lsPc_of hls] at hleft ⊢
  refine ⟨⟨rest, hlisting⟩, ?_⟩
  cases hended : c.pc with
  | ended status =>
    refine ⟨status, rfl, fun hok => ?_⟩
    rw [hended] at hleft
    rw [← hlisting, hleft hok, List.append_nil]
  | _ =>
    rw [hended] at hgone
    exact absurd trivial hgone

theorem SortMoves.flow (h : SortMoves W s l t) (hwired : Wiring W s) (hT : Tracked s)
    (hI : Flow W s) : Flow W t := by
  obtain ⟨hstream, hout⟩ := id hI
  cases h with
  | code pc fds reaped pc' fds' hsort hcode =>
    rw [sortPc_of hsort] at hstream hout
    refine Flow.withSort ?_ ?_
    · cases hcode <;> exact hstream
    · cases hcode <;> exact hout
  | opens o fds reaped hsort =>
    rw [sortPc_of hsort] at hstream hout
    exact Flow.withSort hstream rfl
  | fails pc fds reaped failure hsort hfails =>
    rw [sortPc_of hsort] at hout
    refine Flow.withSort nofun ?_
    cases hfails <;> exact hout
  | exits failure fds reaped ok u status hsort htold hstatus =>
    rw [sortPc_of hsort] at hout
    obtain ⟨pipe, outfile, stderr, rfl⟩ := id htold.frame
    refine Flow.withSort nofun ⟨fun hopen => ?_, fun hok => absurd hok hstatus⟩
    obtain ⟨hp, ho⟩ := hwired.sort_outside hopen hsort
    obtain ⟨stderr', heq⟩ := htold.outside hp ho
    obtain rfl : outfile = s.outfile := congrArg State.outfile heq
    cases failure with
    | dup2In | openOut => exact .inl hout
    | dup2Out | execlp => exact .inr ⟨[], [], List.nil_prefix, List.nil_prefix, hout⟩
  | reads b rest got fds reaped hsort hpipe =>
    rw [sortPc_of hsort] at hstream hout
    refine Flow.withSort (fun got' hgot => ?_) hout
    obtain rfl := Option.some.inj hgot
    obtain ⟨left, hleft, hlisting⟩ := hstream got rfl
    refine ⟨left, hleft, ?_⟩
    rw [← hlisting, hpipe]
    simp
  | eof got fds reaped hsort heof =>
    have hwrote := wrote_of_eof hwired hT hI hsort heof
    rw [sortPc_of hsort] at hout
    exact Flow.withSort nofun ⟨got, [], hwrote, hout, rfl⟩
  | writes b todo fds reaped u hsort hu =>
    rw [sortPc_of hsort] at hout
    obtain ⟨g, out, hwrote, hfile, hsorted⟩ := hout
    have hfd : fds STDOUT_FILENO = _ := hwired.sort_stdout hsort trivial
    unfold writeTo at hu
    rw [hfd] at hu
    have h1 : W.r ≠ 1 := by
      intro h1
      rw [if_pos h1] at hu
      cases hu
    rw [if_neg h1] at hu
    obtain rfl := Option.some.inj hu
    refine Flow.withSort nofun ⟨g, out ++ [b], hwrote, ?_, ?_⟩
    · show some (s.outfile.getD [] ++ [b]) = _
      rw [hfile]
      rfl
    · simpa using hsorted
  | ends l pc fds reaped status hsort hends =>
    rw [sortPc_of hsort] at hout
    refine Flow.withSort nofun ?_
    rcases hends with ⟨⟨got, rfl⟩, hbad⟩ | ⟨todo, rfl, hdone⟩
    · exact ⟨fun _ => .inr ⟨[], [], List.nil_prefix, List.nil_prefix, hout⟩, fun h => absurd h hbad⟩
    · obtain ⟨g, out, hwrote, hfile, hsorted⟩ := hout
      refine ⟨fun _ => .inr ⟨g, out, hwrote.1, ⟨todo, hsorted⟩, hfile⟩, fun hok => ⟨g, hwrote, ?_⟩⟩
      rw [hdone hok, List.append_nil] at hsorted
      rw [hfile, hsorted]

/-- The listing is where it should be as long as nothing has failed, or if the write end of the pipe is
nobody's standard error. -/
theorem reachable_flow (h : Reachable (pipeline W) s) (hquiet : Clean s ∨ W.w ≠ STDERR_FILENO) :
    Flow W s := by
  obtain ⟨hist, hr⟩ := h
  refine Run.invariant (I := fun _ s => Clean s ∨ W.w ≠ STDERR_FILENO → Flow W s)
    (fun s h0 _ => ?_) (fun hist s l t hr hI hs hquiet => ?_) hr hquiet
  · obtain rfl := h0
    exact flow_initial W
  · have hwired := reachable_wiring hr.reachable
    have hT := reachable_tracked hr.reachable
    have hflow := hI (hquiet.imp_left fun hclean => ((step_clean_iff hT hs).mp hclean).1)
    rcases step_cases hs with hm | hm | hm
    · exact hm.flow hwired hT hquiet hflow
    · exact hm.flow hwired hquiet hflow
    · exact hm.flow hwired hT hflow

/-! ### What was reported -/

theorem Told.stderr {fds : Table File} {message : String} (h : Told W fds message s t) :
    ∃ more, t.stderr = s.stderr ++ more := by
  cases h with
  | heard => exact ⟨_, rfl⟩
  | _ => exact ⟨[], (List.append_nil _).symm⟩

theorem Waits.stderr {status : Status} (h : Waits s status t) : t.stderr = s.stderr := by
  cases h <;> rfl

theorem stderr_kept (h : t.stderr = s.stderr) :
    ∃ more, t.stderr = s.stderr ++ more ∧ (Clean t → more = []) :=
  ⟨[], by rw [h, List.append_nil], fun _ => rfl⟩

/-- What the parent reports in a step: nothing as long as nothing fails. -/
theorem ParentMoves.stderr (h : ParentMoves W s l t) :
    ∃ more, t.stderr = s.stderr ++ more ∧ (Clean t → more = []) := by
  cases h with
  | aborted message u hpc htold =>
    obtain ⟨more, hmore⟩ := htold.stderr
    exact ⟨more, hmore, fun h => absurd trivial h.parent⟩
  | exits failure u hpc htold =>
    obtain ⟨more, hmore⟩ := htold.stderr
    exact ⟨more, hmore, fun h => absurd trivial h.parent⟩
  | reapsLs status fds t hls hwaits => exact stderr_kept hwaits.stderr
  | reapsSort status fds t hsort hwaits => exact stderr_kept hwaits.stderr
  | _ => exact stderr_kept rfl

theorem LsMoves.stderr (h : LsMoves W s l t) :
    ∃ more, t.stderr = s.stderr ++ more ∧ (Clean t → more = []) := by
  cases h with
  | exits failure fds reaped ok u status hls htold hstatus =>
    obtain ⟨more, hmore⟩ := htold.stderr
    exact ⟨more, hmore, fun h => absurd hstatus (h.ls _ rfl)⟩
  | writes b todo fds reaped u hls hu =>
    obtain ⟨pipe, outfile, rfl⟩ := writeTo_frame hu
    exact stderr_kept rfl
  | _ => exact stderr_kept rfl

theorem SortMoves.stderr (h : SortMoves W s l t) :
    ∃ more, t.stderr = s.stderr ++ more ∧ (Clean t → more = []) := by
  cases h with
  | exits failure fds reaped ok u status hsort htold hstatus =>
    obtain ⟨more, hmore⟩ := htold.stderr
    exact ⟨more, hmore, fun h => absurd hstatus (h.sort _ rfl)⟩
  | writes b todo fds reaped u hsort hu =>
    obtain ⟨pipe, outfile, rfl⟩ := writeTo_frame hu
    exact stderr_kept rfl
  | _ => exact stderr_kept rfl

theorem step_stderr (h : step W s l = some t) :
    ∃ more, t.stderr = s.stderr ++ more ∧ (Clean t → more = []) := by
  rcases step_cases h with hm | hm | hm
  · exact hm.stderr
  · exact hm.stderr
  · exact hm.stderr

/-- Nothing is reported as long as nothing has failed. -/
theorem reachable_silent (h : Reachable (pipeline W) s) (hclean : Clean s) : s.stderr = [] := by
  obtain ⟨hist, hr⟩ := h
  refine Run.invariant (I := fun _ s => Clean s → s.stderr = []) (fun s h0 _ => ?_)
    (fun hist s l t hr hI hs hclean => ?_) hr hclean
  · obtain rfl := h0
    rfl
  · obtain ⟨more, hstderr, hmore⟩ := step_stderr hs
    have hbefore := ((step_clean_iff (reachable_tracked hr.reachable) hs).mp hclean).1
    rw [hstderr, hI hbefore, hmore hclean]
    rfl

/-- The parent has reported a failure. -/
def ParentPc.Reported : ParentPc → Prop
  | .abortCloseRead | .abortCloseWrite | .abortWait | .exited (_ + 1) => True
  | _ => False

/-- A parent that has reported was heard, if descriptor 2 was open at the start. -/
theorem reachable_reported (hopen : W.inherited STDERR_FILENO ≠ none) (h : Reachable (pipeline W) s)
    (hpc : s.parent.Reported) : s.stderr ≠ [] := by
  obtain ⟨k, hk⟩ := Option.ne_none_iff_exists'.mp hopen
  obtain ⟨hist, hr⟩ := h
  refine Run.invariant (I := fun _ s => s.parent.Reported → s.stderr ≠ []) (fun s h0 hpc => ?_)
    (fun hist s l t hr hI hs hpc => ?_) hr hpc
  · obtain rfl := h0
    exact hpc.elim
  obtain ⟨more, hstderr, -⟩ := step_stderr hs
  have hkept : s.parent.Reported → t.stderr ≠ [] := fun h => by
    rw [hstderr]
    exact List.append_ne_nil_of_left_ne_nil (hI h) more
  have hwaits : ∀ {status : Status} {u : State β}, u.parent = s.parent → Waits u status t →
      t.stderr ≠ [] := by
    rintro status u hu hwaits
    cases hwaits with
    | abort habort => exact hkept (by rw [← hu, habort]; trivial)
    | _ => exact hpc.elim
  have hwired := reachable_wiring hr.reachable
  rcases step_cases hs with hm | hm | hm
  · cases hm with
    | closes pc fd hcloses =>
      refine hkept ?_
      generalize s.parent = p at hcloses
      cases hcloses <;> exact hpc
    | aborted message u habort htold =>
      exact htold.heard_of (hwired.parent_stderr hk (by simp [habort]))
    | exits failure u hperror htold =>
      exact htold.heard_of (hwired.parent_stderr hk (by simp [hperror]))
    | reapsLs status fds t hls hw => exact hwaits (by rfl) hw
    | reapsSort status fds t hsort hw => exact hwaits (by rfl) hw
    | _ => exact hpc.elim
  · obtain ⟨_, _, -, -, -, -, hparent, -⟩ := hm.seen
    exact hkept (hparent ▸ hpc)
  · obtain ⟨_, _, -, -, -, -, hparent, -⟩ := hm.seen
    exact hkept (hparent ▸ hpc)

/-! ### The exit status -/

/-- What the exit status says: after 0 the output file holds the whole listing, sorted, and nothing was
reported; the only other status is 1.  If descriptor 2 was open when pipeit was started, something was
reported before that, and whatever happens the output file is as it was or holds a beginning of what a
beginning of the listing is sorted to. -/
structure Delivers (W : World β) (s : State β) : Prop where
  success : s.parent = .exited 0 → s.outfile = some (W.sortR W.listing) ∧ s.stderr = []
  failure : ∀ code, s.parent = .exited code → code ≠ 0 → code = 1
  reported : W.inherited STDERR_FILENO ≠ none → ∀ code, s.parent = .exited code → code ≠ 0 → s.stderr ≠ []
  outfile : W.inherited STDERR_FILENO ≠ none → Partial W s.outfile

theorem delivered (h : Reachable (pipeline W) s) (hpc : s.parent = .exited 0) :
    s.outfile = some (W.sortR W.listing) ∧ s.stderr = [] := by
  have hT := reachable_tracked h
  unfold Tracked at hT
  rw [hpc] at hT
  obtain ⟨⟨fds, hls⟩, fds', hsort⟩ := hT
  have hclean : Clean s := by
    rw [clean_iff, hpc, hls, hsort]
    simp [ParentPc.Failed, LsPc.Failed, SortPc.Failed]
  have hout := (reachable_flow h (.inl hclean)).output
  rw [lsPc_of hls, sortPc_of hsort] at hout
  obtain ⟨-, hdone⟩ := hout
  obtain ⟨g, ⟨-, status, hstatus, hall⟩, hfile⟩ := hdone rfl
  obtain rfl : Status.exited 0 = status := by simpa using hstatus
  exact ⟨by rw [hfile, hall rfl], reachable_silent h hclean⟩

/-- **The exit status is the truth** in every reachable state. -/
theorem pipeline_output (h : Reachable (pipeline W) s) : Delivers W s := by
  refine ⟨delivered h, fun code hpc hne => ?_, fun hopen code hpc hne => ?_, fun hopen => ?_⟩
  · have hT := reachable_tracked h
    obtain ⟨n, rfl⟩ := Nat.exists_eq_succ_of_ne_zero hne
    unfold Tracked at hT
    rw [hpc] at hT
    exact congrArg (· + 1) hT.1
  · obtain ⟨n, rfl⟩ := Nat.exists_eq_succ_of_ne_zero hne
    exact reachable_reported hopen h (by rw [hpc]; trivial)
  · have hout := (reachable_flow h (.inr (World.w_ne_stderr (.inl hopen)))).output
    have hempty : s.outfile = some [] → Partial W s.outfile := fun h =>
      .inr ⟨[], [], List.nil_prefix, List.nil_prefix, h⟩
    unfold Holds at hout
    split at hout
    all_goals try exact hempty hout
    · obtain ⟨g, out, hwrote, hfile, hsorted⟩ := hout
      exact .inr ⟨g, out, hwrote.1, ⟨_, hsorted⟩, hfile⟩
    · exact hout.1 hopen
    · exact .inl hout

/-- The rest of a session after `startup`. -/
def session : List Label :=
  [.parent true, .parent true, .write .ls, .read, .write .ls, .finish .ls, .reap .ls, .read, .eof,
    .write .sort, .write .sort, .finish .sort, .reap .sort]

/-- A session in which `ls` gives up after one item. -/
def crashed : List Label :=
  [.parent true, .parent true, .write .ls, .crash .ls (.exited 2), .reap .ls, .parent true]

theorem pipeline_output_session :
    (∃ s, after shell (startup ++ session) = some s ∧ s.parent = .exited 0 ∧
      s.outfile = some [2, 1] ∧ Delivers shell s) ∧
    ∃ s, after shell (startup ++ crashed) = some s ∧ s.parent = .exited 1 ∧
      s.stderr = ["child exited with status 2"] ∧ Delivers shell s := by
  have hdone : ∃ s, after shell (startup ++ session) = some s ∧ s.parent = .exited 0 ∧
      s.outfile = some [2, 1] := ⟨_, rfl, rfl, rfl⟩
  have hcrashed : ∃ s, after shell (startup ++ crashed) = some s ∧ s.parent = .exited 1 ∧
      s.stderr = ["child exited with status 2"] := ⟨_, rfl, rfl, by decide +kernel⟩
  obtain ⟨s, hs, hpc, hout⟩ := hdone
  obtain ⟨t, ht, hpc', hstderr⟩ := hcrashed
  exact ⟨⟨s, hs, hpc, hout, pipeline_output (reachable_after hs)⟩,
    t, ht, hpc', hstderr, pipeline_output (reachable_after ht)⟩

end Csc453.Pipe
