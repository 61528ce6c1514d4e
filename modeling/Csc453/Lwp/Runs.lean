import Csc453.Lwp.Refine
import Csc453.Lwp.Reaping
import Csc453.Lwp.Wakeup

/-!
# Csc453.Lwp.Runs — the library over whole runs

Every state of a run represents a book in user mode, or the process has ended (`run_book`).  So what
every call keeps (`Book.Kept`) holds in every run, and no call fails to return (`exec_returns`).
-/

namespace Csc453.Lwp

open Function LinkedQueue Transition

variable {ι M : Type} [DecidableEq ι] {S : SchedulerPtr ι → Scheduler M}
  {Rep : SchedulerPtr ι → M → List Ptr → Prop} {statics : M → Prop} {s : State ι M} {b : Book ι}
  {e : Env} {c : Call ι}

/-- A call does what the book says. -/
theorem Rel.exec (hS : Pools S Rep) (h : Rel S Rep s b) (hu : b.UserMode) (hf : Fresh e s) :
    ∃ s', exec S e c s = some s' ∧ Rel S Rep s' (b.exec e c) := by
  have h0 : 0 ∉ b.pool := fun hm => hu.inv.ne_zero (hu.inv.pool_live hm) rfl
  have hz : 0 ∉ b.zombies := fun hm => hu.inv.zombie_ne_zero hm rfl
  have hnew : ∀ t, e.thread = some t → t ∉ b.live ∧ t ∉ b.pool ∧ t ≠ 0 := by
    intro t ht
    obtain ⟨ht0, hfree⟩ := hf.thread t ht
    have hlive : t ∉ b.live := fun hm => by
      have := hu.inv.used t (List.mem_append_left _ hm)
      rw [← h.core, hfree] at this
      cases this
    exact ⟨hlive, fun hm => hlive (hu.inv.pool_live hm), ht0⟩
  have hexit : ∀ status, ∃ s', Lwp.lwpExit S e status s = some s' ∧
      Rel S Rep s' (b.terminate e status) := fun status =>
    h.lwpExit hS e status hu.running h0 hz hu.curr (fun w hw hp => hu.inv.ne_of_pool_waiting hp hw rfl) hf.wrapper
  cases c with
  | create f a =>
    obtain ⟨htid, hrel⟩ := h.lwpCreate hS e f a hnew
    refine ⟨_, rfl, ?_⟩
    rw [htid]
    exact hrel.set (·.record (.made _)) fun _ => rfl
  | start => exact h.lwpStart hS e h0 hz hnew
  | yield => exact h.yieldFrom hS e .user h0 hz
  | exit status => exact hexit status
  | finish rval => exact hexit rval
  | wait status =>
    refine h.lwpWait hS e status h0 hz hu.curr fun hw => ?_
    exact hu.inv.ne_of_pool_waiting (hu.curr (hu.inv.ne_zero (hu.inv.waiting_live hw))) hw rfl
  | setScheduler fn =>
    exact h.lwpSetScheduler hS fn (List.nodup_append.mp hu.inv.pool_waiting).1 h0

/-! ### Runs -/

/-- The pools of the schedulers that have no `init`, or are used without it, are empty. -/
def EmptyPools (S : SchedulerPtr ι → Scheduler M) (Rep : SchedulerPtr ι → M → List Ptr → Prop)
    (m : M) : Prop := Rep .RoundRobin m [] ∧ ∀ k, (S k).init = none → Rep k m []

/-- The book before `main`. -/
def Book.initial (c : Core ι) : Book ι := ⟨c, [], [], [], []⟩

theorem rep_of_null {q : Queue Ptr} (h : q.head = 0 ∧ q.tail = 0) : q.Rep 0 [] :=
  ⟨h.1, h.2, List.nodup_nil⟩

omit [DecidableEq ι] in
theorem Initial.rel (h : Initial statics s)
    (hst : ∀ m, statics m → EmptyPools S Rep m) :
    Rel S Rep s (Book.initial s.toCore) where
  core := rfl
  live := rep_of_null h.live
  waiting := rep_of_null h.waiting
  zombies := ⟨[], rep_of_null h.zombies, rfl, nofun⟩
  pool := by
    have hin : s.schedulerInUse = .RoundRobin := by rw [Core.schedulerInUse, h.currentScheduler]; rfl
    rw [hin]
    exact (hst _ h.sched).1
  empty _ := rfl
  idle k _ hk := (hst _ h.sched).2 k hk

omit [DecidableEq ι] in
theorem Initial.userMode (h : Initial statics s) : (Book.initial s.toCore).UserMode where
  inv := ⟨List.nodup_nil, nofun, .refl _, nofun, nofun, fun hn => absurd rfl hn, nofun, nofun, nofun⟩
  curr hn := absurd h.currThread hn
  started _ := rfl
  running := h.exit

omit [DecidableEq ι] in
theorem Initial.recorded (h : Initial statics s) : (Book.initial s.toCore).Recorded := fun _ => by
  show [] = unexited s.log ∧ [] = unreaped s.log
  rw [h.log]
  exact ⟨rfl, rfl⟩

omit [DecidableEq ι] in
theorem Initial.inOrder (h : Initial statics s) : (Book.initial s.toCore).InOrder := by
  have hlog : (Book.initial s.toCore).log = [] := h.log
  intro _
  refine ⟨?_, fun _ => ?_⟩
  · rw [hlog]
    exact ⟨trivial, nofun, List.nodup_nil, List.nodup_nil, List.nodup_nil, List.nodup_nil, nofun⟩
  · have htids : (Book.initial s.toCore).tids = [] := by
      show [] ++ ([] ++ tidsOf _ s.log) = []
      rw [h.log]
      rfl
    refine ⟨?_, ?_, ?_, nofun, ?_, ?_, ?_⟩ <;> try rw [hlog]
    · exact h.currTid
    · rw [htids]
      exact nofun
    · rw [htids]
      exact List.nodup_nil
    all_goals exact List.nil_subset _

omit [DecidableEq ι] in
theorem Initial.handedOver (h : Initial statics s) : (Book.initial s.toCore).HandedOver := by
  have hlog : (Book.initial s.toCore).log = [] := h.log
  refine ⟨?_, fun _ => ⟨nofun, nofun, nofun, nofun⟩⟩
  rw [hlog]
  trivial

/-- What every call keeps holds of the books of a run, if `G` holds before each `lwp_wait`. -/
theorem run_book {G P : Book ι → Prop} (hS : Pools S Rep)
    (hst : ∀ m, statics m → EmptyPools S Rep m)
    (hP : Book.Kept G P) (h0 : ∀ s, Initial statics s → P (Book.initial s.toCore))
    {hist : List (Transition.Event (State ι M) (Env × Call ι))} (hr : Run (lwp S statics) hist s)
    (hG : ∀ ev ∈ hist, ∀ status, ev.label.2 = .wait status → ∀ b, Rel S Rep ev.pre b → P b →
      b.UserMode → G (b.set (·.useScheduler))) :
    ∃ b, Rel S Rep s b ∧ (b.exit = none → b.UserMode) ∧ P b := by
  induction hr with
  | init hi => exact ⟨_, Initial.rel hi hst, fun _ => Initial.userMode hi, h0 _ hi⟩
  | @step hist s s' l hr hs ih =>
    obtain ⟨b, hrel, huser, hPb⟩ := ih fun ev hev => hG ev (List.mem_cons_of_mem _ hev)
    obtain ⟨hx, hf, hstart, hexec⟩ := hs
    have hu := huser (hrel.exit_eq.symm.trans hx)
    obtain ⟨s'', hexec', hrel'⟩ := hrel.exec (c := l.2) hS hu hf
    obtain rfl : s'' = s' := Option.some.inj (hexec'.symm.trans hexec)
    have hfresh : ∀ t, l.1.thread = some t → t ≠ 0 ∧ b.used t = false := by
      rw [← hrel.core]
      exact hf.thread
    have hcurr : l.2 = .start → b.currThread = 0 := fun hl => hrel.curr_eq.symm.trans (hstart hl)
    refine ⟨_, hrel', fun hx' => (hu.exec hfresh hcurr).resolve_left (not_not.mpr hx'), ?_⟩
    exact hP.exec hPb hu hfresh hcurr fun status hl =>
      hG _ List.mem_cons_self status hl b hrel hPb hu

theorem reachable_book {P : Book ι → Prop} (hS : Pools S Rep)
    (hst : ∀ m, statics m → EmptyPools S Rep m)
    (hP : Book.Kept (fun _ => True) P) (h0 : ∀ s, Initial statics s → P (Book.initial s.toCore))
    (hr : Reachable (lwp S statics) s) :
    ∃ b, Rel S Rep s b ∧ (b.exit = none → b.UserMode) ∧ P b := by
  obtain ⟨hist, hr⟩ := hr
  exact run_book hS hst hP h0 hr fun _ _ _ _ _ _ _ _ => trivial

/-- Every call returns, or ends the process. -/
theorem exec_returns (hS : Pools S Rep)
    (hst : ∀ m, statics m → EmptyPools S Rep m)
    (hr : Reachable (lwp S statics) s) (hx : s.exit = none) (hf : Fresh e s) :
    ∃ s', exec S e c s = some s' := by
  obtain ⟨b, hrel, huser, -⟩ := reachable_book hS hst Book.recorded_kept
    (fun _ hi => hi.recorded) hr
  obtain ⟨s', hs', -⟩ := hrel.exec (c := c) hS (huser (hrel.exit_eq.symm.trans hx)) hf
  exact ⟨s', hs'⟩

/-! ### Computing runs -/

/-- The program may make this call, and the system may answer so. -/
def admissible (l : Env × Call ι) (s : State ι M) : Bool :=
  s.exit.isNone && l.1.thread.all (fun t => t ≠ 0 && !s.used t) &&
    l.1.wrapper.all (fun w => w ≠ 0 && !s.wrappers w) &&
    match l.2 with
    | .start => s.currThread = 0
    | _ => true

/-- The state after the calls, if each is admissible and passes `ok`. -/
def replay (S : SchedulerPtr ι → Scheduler M) (ok : State ι M → Env × Call ι → Bool) :
    List (Env × Call ι) → State ι M → Option (State ι M)
  | [], s => some s
  | l :: ls, s => if admissible l s && ok s l then exec S l.1 l.2 s >>= replay S ok ls else none

theorem step_of_admissible {l : Env × Call ι} {s' : State ι M} (h : admissible l s = true)
    (hs : exec S l.1 l.2 s = some s') : (lwp S statics).step s l s' := by
  simp only [admissible, Bool.and_eq_true, Option.all_eq_true, Option.isNone_iff_eq_none,
    decide_eq_true_eq, Bool.not_eq_true'] at h
  obtain ⟨⟨⟨hx, ht⟩, hw⟩, hc⟩ := h
  refine ⟨hx, ⟨ht, hw⟩, fun hl => ?_, hs⟩
  rw [hl] at hc
  exact of_decide_eq_true hc

theorem replay_run {ok : State ι M → Env × Call ι → Bool} {ls : List (Env × Call ι)}
    {hist : List (Transition.Event (State ι M) (Env × Call ι))} {s' : State ι M}
    (h : replay S ok ls s = some s') (hr : Run (lwp S statics) hist s)
    (hok : ∀ ev ∈ hist, ok ev.pre ev.label = true) :
    ∃ hist, Run (lwp S statics) hist s' ∧ ∀ ev ∈ hist, ok ev.pre ev.label = true := by
  induction ls generalizing s hist with
  | nil =>
    obtain rfl := Option.some.inj h
    exact ⟨hist, hr, hok⟩
  | cons l ls ih =>
    unfold replay at h
    split_ifs at h with hl
    obtain ⟨hadm, hokl⟩ := Bool.and_eq_true_iff.mp hl
    obtain ⟨s₁, hs₁, hrest⟩ := Option.bind_eq_some_iff.mp h
    refine ih hrest (.step hr (step_of_admissible hadm hs₁)) fun ev hev => ?_
    rcases List.mem_cons.mp hev with rfl | hev
    · exact hokl
    · exact hok ev hev

theorem replay_reachable {ls : List (Env × Call ι)} {s' : State ι M}
    (h : replay S (fun _ _ => true) ls s = some s') (hi : Initial statics s) :
    Reachable (lwp S statics) s' := by
  obtain ⟨hist, hr, -⟩ := replay_run h (.init hi) fun _ hm => absurd hm List.not_mem_nil
  exact ⟨hist, hr⟩

/-- Zeroed memory. -/
def State.zeroed (sched : M) : State ι M where
  ctx _ := ⟨0, 0, 0, .user, 0, 0⟩
  used _ := false
  currentScheduler := none
  currThread := 0
  currTid := FIRST_TID
  exit := none
  log := []
  live := ⟨fun _ => 0, 0, 0⟩
  waiting := ⟨fun _ => 0, 0, 0⟩
  zombies := ⟨fun _ => 0, 0, 0⟩
  zombieThread _ := 0
  wrappers _ := false
  sched := sched

omit [DecidableEq ι] in
theorem State.zeroed_initial {m : M} (hm : statics m) :
    Initial statics (State.zeroed m : State ι M) where
  used _ := rfl
  currentScheduler := rfl
  currThread := rfl
  currTid := rfl
  exit := rfl
  log := rfl
  live := ⟨rfl, rfl⟩
  waiting := ⟨rfl, rfl⟩
  zombies := ⟨rfl, rfl⟩
  wrappers _ := rfl
  sched := hm

/-- A system that grants everything: `malloc` returns `t` and `w`. -/
def Env.granting (t w : Ptr) : Env := ⟨some t, some w, some 4096, some 4096, some 0x7000, true⟩

/-! ### The bookkeeping -/

/-- The zombie queue holds the threads `Z`. -/
def ZombieQueue (s : State ι M) (Z : List Ptr) : Prop :=
  ∃ nodes, s.zombies.Rep 0 nodes ∧ nodes.map s.zombieThread = Z

/-- The queues of the library and the pool of the scheduler in use hold the threads `L`, `W`, `Z` and
`Q`. -/
structure Holds (Rep : SchedulerPtr ι → M → List Ptr → Prop) (s : State ι M)
    (L W Z Q : List Ptr) : Prop where
  live : s.live.Rep 0 L
  waiting : s.waiting.Rep 0 W
  zombies : ZombieQueue s Z
  pool : Rep s.schedulerInUse s.sched Q

omit [DecidableEq ι] in
theorem Rel.holds (h : Rel S Rep s b) : Holds Rep s b.live b.waiting b.zombies b.pool := by
  obtain ⟨nodes, hrep, hmap, -⟩ := h.zombies
  exact ⟨h.live, h.waiting, ⟨nodes, hrep, hmap⟩, h.pool⟩

section Schedulers

variable {σ : Type} {other : ι → Scheduler (Links × σ)} {R : ι → Links × σ → List Ptr → Prop}

/-- The static variables of scheduler.c are zero, and the pools that nobody initialises are empty. -/
def Statics (other : ι → Scheduler (Links × σ)) (R : ι → Links × σ → List Ptr → Prop)
    (m : SchedMem ι σ) : Prop :=
  m.rr = ⟨0, 0, 0⟩ ∧ ∀ i, (other i).init = none → R i (m.getPool i) []

omit [DecidableEq ι] in
theorem Statics.rr_rep {m : SchedMem ι σ} (h : m.rr = ⟨0, 0, 0⟩) :
    PoolRep R .RoundRobin m [] := by
  show RR.Rep (m.links, m.rr) []
  rw [h]
  exact RR.Rep.init (m.links, m.rr)

theorem Statics.empty {m : SchedMem ι σ} (h : Statics other R m) :
    EmptyPools (published other) (PoolRep R) m := by
  refine ⟨rr_rep h.1, fun k hk => ?_⟩
  cases k with
  | RoundRobin => exact rr_rep h.1
  | other i => exact h.2 i (Option.map_eq_none_iff.mp hk)

/-- Whenever user code runs, under schedulers that are FIFO pools, the live queue holds the threads
created and not exited, the zombie queue those exited and not freed; a live thread is either in the
pool or waiting, and the current one is in the pool. -/
theorem bookkeeping {s : State ι (SchedMem ι σ)} (hother : ∀ i, FifoScheduler (other i) (R i))
    (hr : Reachable (lwp (published other) (Statics other R)) s) (hx : s.exit = none) :
    ∃ L W Z Q, Holds (PoolRep R) s L W Z Q ∧
      L = unexited s.log ∧ L.Nodup ∧ Z = unreaped s.log ∧ Z.Nodup ∧
      L.Perm (Q ++ W) ∧ (∀ t ∈ L, t ∈ Q ∧ t ∉ W ∨ t ∈ W ∧ t ∉ Q) ∧
      (∀ z ∈ Z, z ∉ L ∧ z ∉ W ∧ z ∉ Q) ∧
      schedQlen (published other) s = (L.filter (· ∉ W)).length ∧
      (s.currThread ≠ 0 → s.currThread ∈ L ∧ s.currThread ∈ Q) := by
  have hS := published_pools hother
  obtain ⟨b, hrel, huser, hrec⟩ := reachable_book hS (fun _ hm => hm.empty) Book.recorded_kept
    (fun _ hi => hi.recorded) hr
  have hbx := hrel.exit_eq.symm.trans hx
  have hu := huser hbx
  obtain ⟨hl, hz⟩ := hrec hbx
  have hlog : s.log = b.log := by rw [hrel.core]
  obtain ⟨hndl, hndz, hdis⟩ := List.nodup_append.mp hu.inv.nodup
  have hpw := hu.inv.pool_waiting
  have hexcl : ∀ t, t ∈ b.pool → t ∉ b.waiting := fun t hp hw =>
    hu.inv.ne_of_pool_waiting hp hw rfl
  refine ⟨b.live, b.waiting, b.zombies, b.pool, hrel.holds, hlog ▸ hl, hndl, hlog ▸ hz, hndz,
    hu.inv.perm, fun t ht => ?_, fun z hzm => ?_, ?_, fun hc => ?_⟩
  · rcases List.mem_append.mp (hu.inv.perm.subset ht) with hp | hw
    · exact .inl ⟨hp, hexcl t hp⟩
    · exact .inr ⟨hw, fun hp => hexcl t hp hw⟩
  · have hnl : z ∉ b.live := fun hm => hdis z hm z hzm rfl
    exact ⟨hnl, fun hw => hnl (hu.inv.waiting_live hw), fun hp => hnl (hu.inv.pool_live hp)⟩
  · refine (hS _).qlen hrel.pool |>.trans (congrArg _ ?_)
    have hfilter : ((b.pool ++ b.waiting).filter (· ∉ b.waiting)) = b.pool := by
      rw [List.filter_append, List.filter_eq_self.mpr, List.filter_eq_nil_iff.mpr, List.append_nil]
      · simp
      · exact fun t ht => decide_eq_true (hexcl t ht)
    rw [← (hu.inv.perm.filter _).length_eq.symm, hfilter]
  · rw [hrel.curr_eq] at hc ⊢
    exact ⟨hu.inv.pool_live (hu.curr hc), hu.curr hc⟩

/-- Four threads: the first two wait, and the third exits with 7 and wakes the first one. -/
def twoWait : List (Env × Call ι) :=
  [(.granting 16 8, .create 1 2), (.granting 32 8, .create 1 2), (.granting 48 8, .create 1 2),
    (.granting 64 8, .start), (.granting 80 8, .wait true), (.granting 80 8, .wait false),
    (.granting 80 8, .exit 7)]

/-- A second round robin scheduler takes over from the first one while a thread waits and another one
is a zombie. -/
theorem bookkeeping_two : ∃ s : State Unit (SchedMem Unit RR),
    s.currentScheduler = some (.other ()) ∧ s.currThread = 64 ∧ s.waiting.head = 32 ∧
      ∃ L W Z Q, Holds (PoolRep fun _ : Unit => RR.Rep) s L W Z Q ∧ L = [16, 32, 64] ∧ Z = [48] ∧
        L.Perm (Q ++ W) ∧ (∀ z ∈ Z, z ∉ L ∧ z ∉ W ∧ z ∉ Q) ∧
        schedQlen (published fun _ : Unit => roundRobin) s = (L.filter (· ∉ W)).length ∧
        (s.currThread ≠ 0 → s.currThread ∈ L ∧ s.currThread ∈ Q) := by
  have hreplay : (replay (published fun _ : Unit => roundRobin) (fun _ _ => true)
        (twoWait ++ [(.granting 80 24, .setScheduler (some (.other ())))])
        (State.zeroed ⟨⟨fun _ => 0, fun _ => 0⟩, ⟨0, 0, 0⟩, fun _ => ⟨0, 0, 0⟩⟩)).any (fun s =>
          s.currentScheduler = some (.other ()) ∧ s.currThread = 64 ∧ s.waiting.head = 32 ∧
            unexited s.log = [16, 32, 64] ∧ unreaped s.log = [48] ∧ s.exit.isNone) = true := by
    decide +kernel
  obtain ⟨s, hs, hfields⟩ := (Option.any_eq_true _ _).mp hreplay
  simp only [decide_eq_true_eq, Option.isNone_iff_eq_none] at hfields
  obtain ⟨hsched, hcurr, hw, hlive, hdead, hx⟩ := hfields
  have hstatics : Statics (fun _ : Unit => roundRobin) (fun _ => RR.Rep)
      ⟨⟨fun _ => 0, fun _ => 0⟩, ⟨0, 0, 0⟩, fun _ => ⟨0, 0, 0⟩⟩ := ⟨rfl, nofun⟩
  have hr := replay_reachable hs (State.zeroed_initial hstatics)
  obtain ⟨L, W, Z, Q, hh, hl, -, hz, -, hperm, -, hout, hq, hc⟩ :=
    bookkeeping (fun _ => roundRobin_fifo) hr hx
  exact ⟨s, hsched, hcurr, hw, L, W, Z, Q, hh, hl.trans hlive, hz.trans hdead, hperm, hout, hq, hc⟩

end Schedulers

/-! ### Woken waiters -/

/-- Some thread was given the first thread of the zombie queue. -/
def Steals (s : State ι M) : Prop :=
  s.zombies.head ≠ 0 ∧ ∃ t ∈ unexited s.log, (s.ctx t).exited = s.zombieThread s.zombies.head

/-- Whatever a thread was given is in the zombie queue, and was given to that thread alone; an
`lwp_wait` that blocked returned the tid of the thread that woke it, with its status for a caller that
wants it. -/
structure WaitersServed (s : State ι M) : Prop where
  zombie : s.exit = none → ∃ Z, ZombieQueue s Z ∧
    ∀ t ∈ unexited s.log ++ unreaped s.log, (s.ctx t).exited ≠ 0 →
      (s.ctx t).exited ∈ Z ∧ (s.ctx t).exited ∈ unreaped s.log
  unique : s.exit = none → ∀ t ∈ unexited s.log ++ unreaped s.log,
    ∀ u ∈ unexited s.log ++ unreaped s.log,
      (s.ctx t).exited ≠ 0 → (s.ctx t).exited = (s.ctx u).exited → t = u
  delivered : ∀ later t tid asked value earlier,
    s.log = later ++ .returned t tid asked value true :: earlier → tid ≠ NO_THREAD ∧
      ∃ x status, wokenBy t earlier = some (x, tid, status) ∧ Stored asked status value

omit [DecidableEq ι] in
/-- No `lwp_wait` steals: seen in the book. -/
theorem Rel.served (h : Rel S Rep s b) (hrec : b.Recorded) (hu : b.UserMode) (hno : ¬ Steals s) :
    (b.set (·.useScheduler)).Served := by
  intro t ht hz
  have hz : b.zombies.head? = some (b.exitedAt t) := hz
  obtain ⟨hnil, hhead⟩ := h.zombies_head
  have hne : s.zombies.head ≠ 0 := fun h0 => by simp only [hnil.mp h0, List.head?_nil, reduceCtorEq] at hz
  refine hno ⟨hne, t, ?_, ?_⟩
  · rw [h.core, ← (hrec hu.running).1]
    exact ht
  · rw [hhead hne, List.headD_eq_head?_getD, hz, h.ctx_eq]
    rfl

theorem wokenBy_mem {t x : Ptr} {tid : Tid} {status : Status} {log : List Event}
    (h : wokenBy t log = some (x, tid, status)) : tid ∈ tidsOf Event.exitedTid log := by
  induction log with
  | nil => cases h
  | cons ev log ih =>
    cases ev with
    | exited y tid' status' woken =>
      unfold wokenBy at h
      split_ifs at h
      · obtain ⟨-, rfl, -⟩ := Prod.mk.inj (Option.some.inj h) |>.imp id Prod.mk.inj
        exact List.mem_cons_self
      · exact List.mem_cons_of_mem _ (ih h)
    | _ => exact tidsOf_subset_cons _ _ log (ih h)

omit [DecidableEq ι] in
theorem Rel.waitersServed (h : Rel S Rep s b) (hrec : b.Recorded) (hand : b.HandedOver)
    (ha : Audited s.log s.exit) : WaitersServed s := by
  obtain ⟨hdel, hhand⟩ := hand
  have hlog : s.log = b.log := by rw [h.core]
  have hthreads : s.exit = none → b.Handed ∧ b.zombies = unreaped s.log ∧
      ∀ t ∈ unexited s.log ++ unreaped s.log, (s.ctx t).exited ≠ 0 → t ∈ b.live := by
    intro hx
    have hbx := h.exit_eq.symm.trans hx
    obtain ⟨hl, hz⟩ := hrec hbx
    rw [hlog, h.ctx_eq]
    refine ⟨hhand hbx, hz, fun t ht hne => ?_⟩
    rw [← hl, ← hz] at ht
    exact (List.mem_append.mp ht).resolve_right fun hm => hne ((hhand hbx).settled t hm)
  refine ⟨fun hx => ?_, fun hx t ht u hu hne he => ?_, fun later t tid asked value earlier hl => ?_⟩
  · obtain ⟨hh, hz, hmem⟩ := hthreads hx
    refine ⟨b.zombies, h.holds.zombies, fun t ht hne => ?_⟩
    have hlive := hmem t ht hne
    rw [← hz, and_self]
    rw [h.ctx_eq] at hne ⊢
    exact hh.zombie t hlive hne
  · obtain ⟨hh, -, hmem⟩ := hthreads hx
    have ht' := hmem t ht hne
    have hu' := hmem u hu (he ▸ hne)
    rw [h.ctx_eq] at hne he
    exact hh.unique t ht' u hu' hne he
  · obtain ⟨x, status, hw, hv⟩ := throughout_iff.mp (hlog ▸ hdel) later _ earlier hl
    refine ⟨fun h0 => ha.nonzero ?_, x, status, hw, hv⟩
    rw [hl, tidsOf, List.filterMap_append]
    exact List.mem_append_right _ (tidsOf_subset_cons _ _ earlier (h0 ▸ wokenBy_mem hw))

/-! ### Round robin -/

def rrSchedulers : SchedulerPtr Empty → Scheduler (SchedMem Empty Unit) := published Empty.elim

/-- The library in a process whose only scheduler is `RoundRobin`. -/
def rrLwp : System (State Empty (SchedMem Empty Unit)) (Env × Call Empty) :=
  lwp rrSchedulers (Statics Empty.elim Empty.elim)

/-- The pool of the scheduler in use. -/
abbrev RRPool : SchedulerPtr Empty → SchedMem Empty Unit → List Ptr → Prop := PoolRep Empty.elim

theorem rr_pools : Pools rrSchedulers RRPool := published_pools fun i => i.elim

variable {s : State Empty (SchedMem Empty Unit)}

theorem rr_book {P : Book Empty → Prop} (hP : Book.Kept (fun _ => True) P)
    (h0 : ∀ s, Initial (Statics (σ := Unit) Empty.elim Empty.elim) s → P (Book.initial s.toCore))
    (hr : Reachable rrLwp s) :
    ∃ b, Rel rrSchedulers RRPool s b ∧ (b.exit = none → b.UserMode) ∧ P b :=
  reachable_book rr_pools (fun _ hm => hm.empty) hP h0 hr

/-- The memory of the round robin scheduler before `main`. -/
def rrZero : SchedMem Empty Unit := ⟨⟨fun _ => 0, fun _ => 0⟩, ⟨0, 0, 0⟩, fun i => i.elim⟩

theorem rrZero_initial :
    Initial (Statics Empty.elim Empty.elim) (State.zeroed rrZero : State Empty (SchedMem Empty Unit)) :=
  State.zeroed_initial ⟨rfl, fun i => i.elim⟩

theorem three_lt_addresses : 3 < addresses := length_lt_addresses (L := [1, 2, 3]) (by decide) (by decide)

/-- Three threads: the first waits, the second exits with 7, the third runs. -/
def waitAndExit : List (Env × Call Empty) :=
  [(.granting 16 8, .create 1 2), (.granting 32 8, .create 1 2), (.granting 48 8, .start),
    (.granting 64 8, .wait true), (.granting 64 8, .exit 7)]

/-- While a thread waits, another one is runnable, and every zombie was given to a thread that was
woken in `lwp_wait` and has not run since.  When `lwp_yield` ends the process, no thread is left,
and the exit code is the last status modulo 256. -/
theorem no_lost_wakeup (hr : Reachable rrLwp s) :
    (s.exit = none → ∃ L W Z Q, Holds RRPool s L W Z Q ∧ (W ≠ [] → Q ≠ [] ∧
      ∀ z ∈ Z, ∃ t ∈ Q, (s.ctx t).exited = z ∧ t ≠ s.currThread ∧ (s.ctx t).state.InWait)) ∧
    ∀ code, s.exit = some (.yielded code) → (∃ Z, Holds RRPool s [] [] Z []) ∧
      ∃ status, lastExit s.log = some status ∧ code.toInt = status.toInt % 256 := by
  obtain ⟨b, hrel, huser, hended⟩ := rr_book Book.ended_kept
    (fun _ hi => Book.ended_of_running hi.exit) hr
  refine ⟨fun hx => ⟨_, _, _, _, hrel.holds, fun hw => ?_⟩, fun code hcode => ?_⟩
  · have hu := huser (hrel.exit_eq.symm.trans hx)
    refine ⟨fun hp => hw (hu.started (hu.idle hp)), fun z hz => ?_⟩
    obtain ⟨t, ht, htz⟩ := hu.inv.served hw z hz
    have hparked := ((hu.inv.woken t (hu.inv.pool_live ht)).mp (htz ▸ hu.inv.zombie_ne_zero hz)).2
    have hne : t ≠ b.currThread := fun he => Book.not_parked_curr b (he ▸ hparked)
    rw [hrel.ctx_eq, hrel.curr_eq]
    exact ⟨t, ht, htz, hne, (Book.parked_of_ne hne .user).mp hparked⟩
  · obtain ⟨hl, hw, hp, status, hlast, hmod⟩ := hended code (hrel.exit_eq.symm.trans hcode)
    have hh := hrel.holds
    rw [hl, hw, hp] at hh
    rw [hrel.core]
    exact ⟨⟨_, hh⟩, status, hlast, hmod⟩

/-- A thread waits while the zombie is meant for another one; a program with one thread exits
with -1. -/
theorem no_lost_wakeup_three : (∃ s, Reachable rrLwp s ∧ s.waiting.head = 32 ∧
      s.zombieThread s.zombies.head = 48 ∧
      ∃ L W Z Q, Holds RRPool s L W Z Q ∧ (W ≠ [] → Q ≠ [] ∧
        ∀ z ∈ Z, ∃ t ∈ Q, (s.ctx t).exited = z ∧ t ≠ s.currThread ∧ (s.ctx t).state.InWait)) ∧
    ∃ s, Reachable rrLwp s ∧ s.exit = some (.yielded 255) ∧ ∃ Z, Holds RRPool s [] [] Z [] := by
  refine ⟨?_, ?_⟩
  · obtain ⟨s, hs, hw, hz, hx⟩ : ∃ s, replay rrSchedulers (fun _ _ => true) twoWait
        (State.zeroed rrZero) = some s ∧ s.waiting.head = 32 ∧
        s.zombieThread s.zombies.head = 48 ∧ s.exit = none := ⟨_, rfl, rfl, rfl, rfl⟩
    have hr : Reachable rrLwp s := replay_reachable hs rrZero_initial
    exact ⟨s, hr, hw, hz, (no_lost_wakeup hr).1 hx⟩
  · obtain ⟨s, hs, hx⟩ : ∃ s, replay rrSchedulers (fun _ _ => true)
        [(.granting 16 8, .start), (.granting 32 8, .exit (-1))] (State.zeroed rrZero) = some s ∧
        s.exit = some (.yielded 255) := ⟨_, rfl, rfl⟩
    have hr : Reachable rrLwp s := replay_reachable hs rrZero_initial
    exact ⟨s, hr, hx, ((no_lost_wakeup hr).2 255 hx).1⟩

/-- If fewer than 2^64 tids are assigned, no thread is reaped twice, or before it exited, or with
another thread's status. -/
theorem reaped_once {s : State Empty (SchedMem Empty Unit)} (hr : Reachable rrLwp s)
    (htids : issued s.log < addresses) : Audited s.log s.exit := by
  obtain ⟨b, hrel, -, hord⟩ := rr_book Book.inOrder_kept (fun _ hi => hi.inOrder) hr
  rw [hrel.core] at htids ⊢
  exact (hord htids).1

/-- The first thread reaps the second one, which exited with 7. -/
theorem reaped_once_three : ∃ s, Reachable rrLwp s ∧ Audited s.log s.exit ∧
    s.log.head? = some (.returned 16 2 true (some 7) true) := by
  obtain ⟨s, hs, hissued, hlog⟩ : ∃ s, replay rrSchedulers (fun _ _ => true)
      (waitAndExit ++ [(.granting 64 24, .yield)]) (State.zeroed rrZero) = some s ∧
      issued s.log = 3 ∧ s.log.head? = some (.returned 16 2 true (some 7) true) := ⟨_, rfl, rfl, rfl⟩
  have hr : Reachable rrLwp s := replay_reachable hs rrZero_initial
  exact ⟨s, hr, reaped_once hr (hissued ▸ three_lt_addresses), hlog⟩

/-- In every run in which no `lwp_wait` is called while the first zombie is meant for a waiter. -/
theorem waiters_served {s : State Empty (SchedMem Empty Unit)}
    {hist : List (Transition.Event (State Empty (SchedMem Empty Unit)) (Env × Call Empty))}
    (hr : Run rrLwp hist s)
    (hserve : ∀ ev ∈ hist, ∀ status, ev.label.2 = .wait status → ¬ Steals ev.pre)
    (htids : issued s.log < addresses) : WaitersServed s := by
  obtain ⟨b, hrel, -, ⟨hrec, hord⟩, hhand⟩ := run_book rr_pools (fun _ hm => hm.empty)
    (((Book.recorded_kept.and Book.inOrder_kept).mono fun _ _ => trivial).and Book.handedOver_kept)
    (fun s hi => ⟨⟨hi.recorded, hi.inOrder⟩, hi.handedOver⟩) hr
    fun ev hev status hl b hrel hP hu => hrel.served hP.1.1 hu (hserve ev hev status hl)
  refine hrel.waitersServed hrec hhand ?_
  rw [hrel.core] at htids ⊢
  exact (hord htids).1

/-- The third thread waits before the first one resumes, and reaps the zombie. -/
theorem waiter_robbed : ∃ hist, ∃ s : State Empty (SchedMem Empty Unit), Run rrLwp hist s ∧
    issued s.log < addresses ∧ ¬ WaitersServed s := by
  obtain ⟨s, hs, hissued, hlog⟩ : ∃ s, replay rrSchedulers (fun _ _ => true)
      (waitAndExit ++ [(.granting 64 24, .wait true), (.granting 64 24, .yield)])
      (State.zeroed rrZero) = some s ∧ issued s.log = 3 ∧
      s.log.head? = some (.returned 16 NO_THREAD true none true) := ⟨_, rfl, rfl, rfl⟩
  obtain ⟨hist, hr⟩ := replay_reachable hs rrZero_initial
  refine ⟨hist, s, hr, ?_, fun hw => ?_⟩
  · rw [hissued]
    exact three_lt_addresses
  · obtain ⟨earlier, hl⟩ := List.head?_eq_some_iff.mp hlog
    exact (hw.delivered [] 16 NO_THREAD true none earlier hl).1 rfl

/-- No zombie is left when a thread waits. -/
theorem waiters_served_three : ∃ s : State Empty (SchedMem Empty Unit), WaitersServed s ∧
    s.log.head? = some (.returned 16 2 true (some 7) true) := by
  obtain ⟨s, hs, hissued, hlog⟩ : ∃ s, replay rrSchedulers
      (fun s l => match l.2 with
        | .wait _ => s.zombies.head = 0
        | _ => true)
      (waitAndExit ++ [(.granting 64 24, .yield)]) (State.zeroed rrZero) = some s ∧
      issued s.log = 3 ∧ s.log.head? = some (.returned 16 2 true (some 7) true) := ⟨_, rfl, rfl, rfl⟩
  obtain ⟨hist, hr, hok⟩ := replay_run hs (.init rrZero_initial) fun _ hm => absurd hm List.not_mem_nil
  refine ⟨s, waiters_served hr (fun ev hev status hl hsteal => hsteal.1 ?_)
    (hissued ▸ three_lt_addresses), hlog⟩
  have := hok ev hev
  rw [hl] at this
  exact of_decide_eq_true this

end Csc453.Lwp
