import Csc453.Dine.Shares

/-!
# Csc453.Dine.Failure — main, and semaphore calls that fail

`main` creates the threads in order and joins them in order; a thread that ended with
`THREAD_FAILURE` makes it exit when it is joined.  A philosopher whose semaphore call fails ends with
everything it has taken.  A fork is `Lost` when it is down and nobody alive is going to post it, or
when a living philosopher takes it first and can never get its second one; a philosopher is `Caught`
when it is on its way to something lost.  As long as everybody caught has a failed philosopher below
it in the order of the joins (`Reported`), `main` gets to see a failure.
-/

namespace Csc453.Dine

open Transition

variable {N c : ℕ} {i : Fin N} {t u : Table N}

/-! ### main -/

/-- Where `main` is: creating or joining thread `i`, or over. -/
inductive Main
  | creating (i : ℕ)
  | joining (i : ℕ)
  | returned
  | exited

structure Program (N : ℕ) where
  table : Table N
  main : Main

inductive Thread (N : ℕ)
  | main
  | phil (i : Fin N)

/-- The next call of `main`: a failing one makes it exit, `pthread_join` waits for the thread to end,
and after the joins the semaphores are destroyed. -/
def mainStep (fails : Bool) (s : Program N) : Option Main :=
  match s.main with
  | .creating i =>
    if i < N then some (if fails then .exited else .creating (i + 1)) else some (.joining 0)
  | .joining i =>
    if h : i < N then
      if fails then some .exited
      else
        match (s.table.phil ⟨i, h⟩).pc with
        | .done => some (.joining (i + 1))
        | .failed => some .exited
        | _ => none
    else some (if fails then .exited else .returned)
  | .returned => none
  | .exited => none

/-- What a call of `main` can lead to. -/
inductive MainStepped (s : Program N) : Main → Prop
  | exits : (∃ k, s.main = .creating k ∨ s.main = .joining k) → MainStepped s .exited
  | created {k : ℕ} : s.main = .creating k → k < N → MainStepped s (.creating (k + 1))
  | joins {k : ℕ} : s.main = .creating k → N ≤ k → MainStepped s (.joining 0)
  | joined {k : ℕ} : s.main = .joining k → (hk : k < N) → (s.table.phil ⟨k, hk⟩).pc = .done →
      MainStepped s (.joining (k + 1))
  | returns {k : ℕ} : s.main = .joining k → N ≤ k → MainStepped s .returned

theorem mainStep_cases {fails : Bool} {s : Program N} {m : Main} (h : mainStep fails s = some m) :
    MainStepped s m := by
  unfold mainStep at h
  rcases hm : s.main with k | k | _ | _ <;> rw [hm] at h <;> dsimp only at h
  · split_ifs at h with hk hf <;> obtain rfl := Option.some.inj h
    · exact .exits ⟨k, Or.inl hm⟩
    · exact .created hm hk
    · exact .joins hm (Nat.le_of_not_lt hk)
  · split_ifs at h with hk hf hf
    · obtain rfl := Option.some.inj h
      exact .exits ⟨k, Or.inr hm⟩
    · rcases hpc : (s.table.phil ⟨k, hk⟩).pc with _ | _ | _ | _ | _ | _ <;> rw [hpc] at h <;>
        dsimp only at h
      case done =>
        obtain rfl := Option.some.inj h
        exact .joined hm hk hpc
      case failed =>
        obtain rfl := Option.some.inj h
        exact .exits ⟨k, Or.inr hm⟩
      all_goals cases h
    · obtain rfl := Option.some.inj h
      exact .exits ⟨k, Or.inr hm⟩
    · obtain rfl := Option.some.inj h
      exact .returns hm (Nat.le_of_not_lt hk)
  · cases h
  · cases h

/-- The thread has been created and the process has not ended. -/
def Main.runs (i : Fin N) : Main → Bool
  | .creating k => (i : ℕ) < k
  | .joining _ => true
  | .returned => false
  | .exited => false

def Program.step (fails : Bool) (who : Thread N) (s : Program N) : Option (Program N) :=
  match who with
  | .main => (mainStep fails s).map fun m => { s with main := m }
  | .phil i =>
    if s.main.runs i then (Dine.step fails i s.table).map fun t => { s with table := t } else none

/-- `main` and its philosophers; any call may fail. -/
def program (N c : ℕ) : System (Program N) (Bool × Thread N) where
  init s := s = ⟨initial N c, .creating 0⟩
  step s l s' := s.step l.1 l.2 = some s'

/-- Somebody can go on without a failing call. -/
def Program.CanStep (s : Program N) : Prop := ∃ who s', s.step false who = some s'

/-! ### What a failure leaves behind -/

def Phil.Live (p : Phil) : Prop := p.pc ≠ .done ∧ p.pc ≠ .failed

/-- The philosopher still has to wait on its fork `o`. -/
def Phil.StillTakes (p : Phil) (o : Ord) : Prop := p.Live ∧ 0 < timesLeft (.grab o) p

/-- Nobody alive will post the fork before it is waited on again. -/
inductive Lost (t : Table N) : Fin N → Prop
  | dropped {k : Fin N} : t.fork k = 0 → (∀ a, ¬ Dine.Holds t k a) → Lost t k
  | blocked (j : Fin N) : (t.phil j).StillTakes .second → Lost t (forkAt j (side j .second)) →
      Lost t (forkAt j (side j .first))

/-- The printing lock is taken and nobody alive is inside. -/
def LockLost (t : Table N) : Prop := t.printing = 0 ∧ ∀ j, ¬ inside (t.phil j).pc

/-- Philosopher `j` has something lost ahead. -/
def Caught (t : Table N) (j : Fin N) : Prop :=
  (t.phil j).Live ∧ (LockLost t ∨ ∃ o, (t.phil j).StillTakes o ∧ Lost t (forkAt j (side j o)))

/-- Everybody caught is joined after a philosopher that failed. -/
def Reported (t : Table N) : Prop := ∀ j, Caught t j → ∃ k < j, (t.phil k).pc = .failed

/-- Philosopher `i` leaves with what it has taken. -/
def leave (i : Fin N) (t : Table N) : Table N := t.setPhil i { t.phil i with pc := .failed }

/-- A call of philosopher `i` may fail here. -/
def Tolerated (t : Table N) (i : Fin N) : Prop := Reported (leave i t)

/-- Whoever has not failed is in step with its program counter and its cycles. -/
def Sane (t : Table N) : Prop :=
  ∀ j, (t.phil j).pc ≠ .failed → PhilOk j (t.phil j) ∧ Paced (t.phil j)

/-! ### Nobody stuck -/

theorem Sane.stillTakes (hs : Sane t) {j : Fin N} {o : Ord} (hg : (t.phil j).pc = .grab o) :
    (t.phil j).StillTakes o := by
  have hne : (t.phil j).pc ≠ .failed := by simp [hg]
  have h3 : 3 ≤ callsLeft (t.phil j).pc := by
    rw [hg]
    cases o <;> decide
  refine ⟨⟨by simp [hg], hne⟩, ?_⟩
  unfold timesLeft
  rw [if_pos (by rw [hg])]
  exact (hs j hne).2.busy h3

section Stuck

variable (hstuck : ∀ j u, step false j t ≠ some u)
include hstuck

/-- Forks are taken in ascending rank, so that every fork waited for is lost. -/
theorem lost_of_stuck (hN : 2 ≤ N) (hs : Sane t) (hlock : t.printing ≠ 0) (k : Fin N)
    (h0 : t.fork k = 0) : Lost t k := by
  have key : ∀ n k, 2 - forkRank k = n → t.fork k = 0 → Lost t k := by
    intro n
    induction n using Nat.strong_induction_on with
    | _ n ih =>
      intro k hk h0
      by_cases hheld : ∃ a, Holds t k a
      · -- the holder waits for a fork of higher rank
        obtain ⟨⟨j, s⟩, rfl, ho⟩ := hheld
        dsimp only at ho hk h0 ⊢
        obtain ⟨hpc, rfl, h0'⟩ := second_of_stuck hstuck hlock ho
        have hlt := forkRank_side hN j
        have hle := forkRank_le (forkAt j (side j .second))
        exact .blocked j (hs.stillTakes hpc) (ih _ (by omega) _ rfl h0')
      · exact .dropped h0 fun a ha => hheld ⟨a, ha⟩
  exact key _ k rfl h0

/-- Whoever is alive at such a table is caught. -/
theorem caught_of_stuck (hN : 2 ≤ N) (hs : Sane t) {j : Fin N} (hj : (t.phil j).Live) : Caught t j := by
  refine ⟨hj, ?_⟩
  by_cases hlock : t.printing = 0
  · exact Or.inl ⟨hlock, not_inside_of_stuck hstuck⟩
  · rcases blocked_cases (hstuck j) with hd | hf | ⟨h0, _⟩ | ⟨o, hg, h0⟩
    · exact absurd hd hj.1
    · exact absurd hf hj.2
    · exact absurd h0 hlock
    · exact Or.inr ⟨o, hs.stillTakes hg, lost_of_stuck hstuck hN hs hlock _ h0⟩

end Stuck

/-! ### One step of a philosopher -/

section Step

variable (h : Stepped i t u) (hs : Sane t)
include h

theorem Stepped.live {j : Fin N} (hj : (u.phil j).Live) : (t.phil j).Live := by
  by_cases hji : j = i
  · subst hji
    exact h.moved.2
  · rwa [h.phil_of_ne hji] at hj

include hs in
theorem Stepped.sane : Sane u := by
  intro j hj
  by_cases hji : j = i
  · subst hji
    obtain ⟨hok, hp⟩ := hs j h.moved.2.2
    rw [h.phil_self]
    exact ⟨advance_ok hok, hp.advance hok h.moved.2.1⟩
  · rw [h.phil_of_ne hji] at hj ⊢
    exact hs j hj

include hs in
theorem Stepped.stillTakes {j : Fin N} {o : Ord} (hj : (u.phil j).StillTakes o) :
    (t.phil j).StillTakes o := by
  obtain ⟨hlive, htimes⟩ := hj
  refine ⟨h.live hlive, ?_⟩
  by_cases hji : j = i
  · subst hji
    obtain ⟨hok, hp⟩ := hs j h.moved.2.2
    have hadv := timesLeft_advance (x := .grab o) hok hp h.moved.2.1 (by cases o <;> decide)
      (by cases o <;> decide)
    rw [h.phil_self] at htimes
    omega
  · rwa [h.phil_of_ne hji] at htimes

/-- A fork that is down with nobody to post it already was. -/
theorem Stepped.dropped {k : Fin N} (h0 : u.fork k = 0) (hno : ∀ a, ¬ Holds u k a) :
    t.fork k = 0 ∧ ∀ a, ¬ Holds t k a := by
  cases h with
  | lock b hpc _ => exact ⟨h0, fun a ha => hno a ((holds_congr (owns_lock hpc) a).mpr ha)⟩
  | unlock b hpc => exact ⟨h0, fun a ha => hno a ((holds_congr (owns_unlock hpc) a).mpr ha)⟩
  | grab o k' hpc hk' _ =>
    have hkk : k ≠ k' := by
      rintro rfl
      exact hno (i, side i o) (holds_setPhil_self.mpr ⟨hk', (owns_grab hpc _).mpr (Or.inl rfl)⟩)
    refine ⟨?_, fun ⟨j, s⟩ ha => hno (j, s) ?_⟩
    · rwa [← Function.update_of_ne hkk (t.fork k' - 1) t.fork]
    · by_cases hj : j = i
      · subst hj
        exact holds_setPhil_self.mpr ⟨ha.1, (owns_grab hpc _).mpr (Or.inr ha.2)⟩
      · exact (holds_setPhil_of_ne hj).mpr ha
  | post s' k' hpc hk' =>
    have hkk : k ≠ k' := by
      rintro rfl
      have hself : t.fork k + 1 = 0 := by
        rwa [← Function.update_self k (t.fork k + 1) t.fork]
      omega
    refine ⟨?_, fun ⟨j, s⟩ ha => hno (j, s) ?_⟩
    · rwa [← Function.update_of_ne hkk (t.fork k' + 1) t.fork]
    · by_cases hj : j = i
      · subst hj
        refine holds_setPhil_self.mpr ⟨ha.1, (owns_post hpc _).mpr ⟨?_, ha.2⟩⟩
        rintro rfl
        exact hkk (ha.1.symm.trans hk')
      · exact (holds_setPhil_of_ne hj).mpr ha

theorem Stepped.lockLost (hl : LockLost u) : LockLost t := by
  obtain ⟨h0, hno⟩ := hl
  have hself := hno i
  rw [h.phil_self] at hself
  cases h with
  | lock b hpc _ => exact absurd (inside_lock hpc) hself
  | unlock b hpc => exact absurd h0 (Nat.succ_ne_zero _)
  | grab o k hpc hk _ =>
    refine ⟨h0, fun j hj => ?_⟩
    by_cases hji : j = i
    · subst hji
      exact (hpc ▸ hj : inside (.grab o))
    · exact hno j (by rwa [setPhil_of_ne _ _ hji])
  | post s k hpc _ =>
    exact absurd (inside_post hpc) hself

include hs in
theorem Stepped.lost {k : Fin N} (hk : Lost u k) : Lost t k := by
  induction hk with
  | dropped h0 hno =>
    obtain ⟨h0', hno'⟩ := h.dropped h0 hno
    exact .dropped h0' hno'
  | blocked j htakes _ ih => exact .blocked j (h.stillTakes hs htakes) ih

/-- No call that succeeds catches anybody. -/
theorem Stepped.reported (hs : Sane t) (hr : Reported t) : Reported u := by
  rintro j ⟨hlive, hlost⟩
  have hcaught : Caught t j := by
    refine ⟨h.live hlive, hlost.imp h.lockLost ?_⟩
    rintro ⟨o, htakes, hk⟩
    exact ⟨o, h.stillTakes hs htakes, h.lost hs hk⟩
  obtain ⟨k, hkj, hk⟩ := hr j hcaught
  refine ⟨k, hkj, ?_⟩
  rw [h.phil_of_ne]
  · exact hk
  · rintro rfl
    exact h.moved.2.2 hk

end Step

/-! ### A philosopher that leaves -/

theorem step_fails {t u : Table N} (h : Dine.step true i t = some u) :
    u = leave i t ∧ (t.phil i).Live := by
  unfold Dine.step at h
  rw [if_pos rfl] at h
  rcases hpc : (t.phil i).pc with b | o | s | b | _ | _ <;> rw [hpc] at h <;> dsimp only at h
  case done => cases h
  case failed => cases h
  all_goals exact ⟨(Option.some.inj h).symm, by simp [hpc], by simp [hpc]⟩

theorem leave_self (i : Fin N) (t : Table N) : ((leave i t).phil i).pc = .failed := by
  unfold leave
  rw [setPhil_self]

theorem leave_of_ne {j : Fin N} (hj : j ≠ i) : (leave i t).phil j = t.phil j := setPhil_of_ne t _ hj

theorem Sane.leave (hs : Sane t) : Sane (leave i t) := by
  intro j hj
  by_cases hji : j = i
  · subst hji
    exact absurd (leave_self j t) hj
  · rw [leave_of_ne hji] at hj ⊢
    exact hs j hj

/-- A philosopher that holds nothing catches nobody by leaving. -/
theorem Reported.leave (hr : Reported t) (hin : ¬ inside (t.phil i).pc)
    (hown : ∀ s, ¬ owns i s (t.phil i).pc) : Tolerated t i := by
  have hlive : ∀ j, ((Dine.leave i t).phil j).Live → j ≠ i := by
    rintro j hj rfl
    exact hj.2 (leave_self j t)
  have htakes : ∀ j o, ((Dine.leave i t).phil j).StillTakes o → (t.phil j).StillTakes o := by
    intro j o hj
    rwa [leave_of_ne (hlive j hj.1)] at hj
  have hlost : ∀ k, Lost (Dine.leave i t) k → Lost t k := by
    intro k hk
    induction hk with
    | dropped h0 hno =>
      refine .dropped h0 fun ⟨j, s⟩ ha => ?_
      by_cases hji : j = i
      · subst hji
        exact hown s ha.2
      · exact hno (j, s) ((holds_setPhil_of_ne hji).mpr ha)
    | blocked j hj _ ih => exact .blocked j (htakes j _ hj) ih
  rintro j ⟨hj, hcaught⟩
  have hji := hlive j hj
  obtain ⟨k, hkj, hk⟩ : ∃ k < j, (t.phil k).pc = .failed := by
    refine hr j ⟨leave_of_ne hji ▸ hj, hcaught.imp ?_ ?_⟩
    · rintro ⟨h0, hno⟩
      refine ⟨h0, fun k hk => ?_⟩
      by_cases hki : k = i
      · exact hin (hki ▸ hk)
      · exact hno k (by rwa [leave_of_ne hki])
    · rintro ⟨o, ho, hk⟩
      exact ⟨o, htakes j o ho, hlost _ hk⟩
  refine ⟨k, hkj, ?_⟩
  by_cases hki : k = i
  · rw [hki]
    exact leave_self i t
  · rw [leave_of_ne hki]
    exact hk

/-- `main` joins the first philosopher first, so that nobody is caught unreported. -/
theorem tolerated_first (h0 : (i : ℕ) = 0) : Tolerated t i := by
  rintro j ⟨hj, -⟩
  have hji : j ≠ i := by
    rintro rfl
    exact hj.2 (leave_self j t)
  have hne : (j : ℕ) ≠ i := fun h => hji (Fin.ext h)
  exact ⟨i, Fin.lt_def.mpr (by omega), leave_self i t⟩

/-! ### Runs of the program -/

theorem sane_initial (hc : 1 ≤ c) : Sane (initial N c) := by
  intro j _
  refine ⟨(inv_initial hc).phil j, ?_⟩
  rw [initial_phil hc]
  exact ⟨fun _ => hc, fun h => absurd h (show ¬ 20 < 3 by decide)⟩

theorem reported_initial (N c : ℕ) : Reported (initial N c) := by
  have hno : ∀ k, ¬ Lost (initial N c) k := by
    intro k hk
    induction hk with
    | dropped h0 _ => exact absurd h0 Nat.one_ne_zero
    | blocked _ _ _ ih => exact ih
  rintro j ⟨_, ⟨h0, _⟩ | ⟨o, _, hk⟩⟩
  · exact absurd h0 Nat.one_ne_zero
  · exact absurd hk (hno _)

/-- Every thread joined so far has returned, and a failure is still to be seen by `main`. -/
structure Program.Ok (s : Program N) : Prop where
  sane : Sane s.table
  reported : Reported s.table
  joined : ∀ m, s.main = .joining m → ∀ k : Fin N, (k : ℕ) < m → (s.table.phil k).pc = .done
  returned : s.main = .returned → ∀ k, (s.table.phil k).pc = .done

theorem Program.Ok.mainStep {s : Program N} {fails : Bool} {m : Main} (hok : s.Ok)
    (h : Dine.mainStep fails s = some m) : Program.Ok { s with main := m } := by
  refine ⟨hok.sane, hok.reported, fun k hk i hi => ?_, fun hret i => ?_⟩
  · cases mainStep_cases h with
    | exits => cases hk
    | created => cases hk
    | joins =>
      obtain rfl := Main.joining.inj hk
      exact absurd hi (Nat.not_lt_zero _)
    | @joined j hm hj hdone =>
      obtain rfl := Main.joining.inj hk
      by_cases hij : (i : ℕ) = j
      · obtain rfl : i = ⟨j, hj⟩ := Fin.ext hij
        exact hdone
      · exact hok.joined j hm i (by omega)
    | returns => cases hk
  · cases mainStep_cases h with
    | @returns j hm hj => exact hok.joined j hm i (by omega)
    | _ => cases hret

/-- A philosopher's step keeps `Ok` if its failure, if it fails, is tolerated. -/
theorem Program.Ok.philStep {s : Program N} {fails : Bool} {u : Table N} (hok : s.Ok)
    (h : Dine.step fails i s.table = some u) (htol : fails = true → Tolerated s.table i) :
    Program.Ok { s with table := u } := by
  cases fails with
  | false =>
    have hst := step_cases h
    have hdone : ∀ k, (s.table.phil k).pc = .done → (u.phil k).pc = .done := by
      intro k hk
      rw [hst.phil_of_ne]
      · exact hk
      · rintro rfl
        exact hst.moved.2.1 hk
    exact ⟨hst.sane hok.sane, hst.reported hok.sane hok.reported,
      fun m hm k hk => hdone k (hok.joined m hm k hk), fun hm k => hdone k (hok.returned hm k)⟩
  | true =>
    obtain ⟨rfl, hlive⟩ := step_fails h
    have hdone : ∀ k, (s.table.phil k).pc = .done → ((leave i s.table).phil k).pc = .done := by
      intro k hk
      rw [leave_of_ne]
      · exact hk
      · rintro rfl
        exact hlive.1 hk
    exact ⟨hok.sane.leave, htol rfl, fun m hm k hk => hdone k (hok.joined m hm k hk),
      fun hm k => hdone k (hok.returned hm k)⟩

theorem run_ok (hc : 1 ≤ c) {hist : List (Event (Program N) (Bool × Thread N))} {s : Program N}
    (hr : Run (program N c) hist s)
    (htol : ∀ ev ∈ hist, ∀ i, ev.label = (true, .phil i) → Tolerated ev.pre.table i) : s.Ok := by
  induction hr with
  | @init s h0 =>
    obtain rfl : s = ⟨initial N c, .creating 0⟩ := h0
    exact ⟨sane_initial hc, reported_initial N c, nofun, nofun⟩
  | @step hist s s' l hr hs ih =>
    have hok := ih fun ev hev => htol ev (List.mem_cons_of_mem _ hev)
    obtain ⟨fails, who⟩ := l
    have hs' : s.step fails who = some s' := hs
    cases who with
    | main =>
      obtain ⟨m, hm, rfl⟩ := Option.map_eq_some_iff.mp hs'
      exact hok.mainStep hm
    | phil i =>
      unfold Program.step at hs'
      dsimp only at hs'
      split_ifs at hs' with hruns
      obtain ⟨u, hu, rfl⟩ := Option.map_eq_some_iff.mp hs'
      refine hok.philStep hu fun hf => htol _ List.mem_cons_self i ?_
      rw [hf]

theorem Program.Ok.canStep (hN : 2 ≤ N) {s : Program N} (hok : s.Ok) (hret : s.main ≠ .returned)
    (hexit : s.main ≠ .exited) : s.CanStep := by
  by_contra hno
  have hmain : Dine.mainStep false s = none := by
    by_contra hm
    obtain ⟨m, hm⟩ := Option.ne_none_iff_exists'.mp hm
    exact hno ⟨.main, { s with main := m }, by simp [Program.step, hm]⟩
  unfold Dine.mainStep at hmain
  rcases hm : s.main with j | j | _ | _ <;> rw [hm] at hmain <;> dsimp only at hmain
  · split_ifs at hmain
  · split_ifs at hmain with hj
    -- `main` waits for thread `j`, which is then alive and caught
    have hlive : (s.table.phil ⟨j, hj⟩).Live := by
      refine ⟨fun hd => ?_, fun hf => ?_⟩
      · rw [hd] at hmain
        cases hmain
      · rw [hf] at hmain
        cases hmain
    have hstuck : ∀ k u, Dine.step false k s.table ≠ some u := by
      intro k u hu
      exact hno ⟨.phil k, { s with table := u }, by simp [Program.step, hm, Main.runs, hu]⟩
    obtain ⟨k, hk, hf⟩ := hok.reported _ (caught_of_stuck hstuck hN hok.sane hlive)
    rw [hok.joined j hm k hk] at hf
    cases hf
  · exact hret hm
  · exact hexit hm

/-! ### Every run ends -/

theorem Phil.Live.callsLeft_pos {p : Phil} (hp : p.Live) : 0 < callsLeft p.pc := by
  by_contra h0
  have hzero : callsLeft p.pc = 0 := by omega
  have hpc := callAt_callsLeft hp.2
  rw [hzero] at hpc
  exact hp.1 hpc.symm

theorem step_work {fails : Bool} (h : Dine.step fails i t = some u) : tableWork u < tableWork t := by
  cases fails with
  | false => exact (step_cases h).work_lt
  | true =>
    obtain ⟨rfl, hlive⟩ := step_fails h
    have hpos := hlive.callsLeft_pos
    refine tableWork_lt rfl ?_
    show 0 + 20 * (t.phil i).cyclesLeft < callsLeft (t.phil i).pc + 20 * (t.phil i).cyclesLeft
    omega

/-- The calls `main` has left. -/
def mainWork (N : ℕ) : Main → ℕ
  | .creating i => N - i + (N + 2)
  | .joining i => N - i + 1
  | .returned => 0
  | .exited => 0

theorem mainStep_work {fails : Bool} {s : Program N} {m : Main} (h : mainStep fails s = some m) :
    mainWork N m < mainWork N s.main := by
  cases mainStep_cases h with
  | exits hm => rcases hm with ⟨j, hm | hm⟩ <;> rw [hm] <;> exact Nat.succ_pos _
  | created hm hk =>
    rw [hm]
    simp only [mainWork]
    omega
  | joins hm hk =>
    rw [hm]
    simp only [mainWork]
    omega
  | joined hm hk =>
    rw [hm]
    simp only [mainWork]
    omega
  | returns hm => rw [hm]; exact Nat.succ_pos _

theorem run_length_le {hist : List (Event (Program N) (Bool × Thread N))} {s : Program N}
    (hr : Run (program N c) hist s) : hist.length ≤ N * (22 + 20 * c) + (2 * N + 2) := by
  have hle := Run.length_add_le (μ := fun s : Program N => tableWork s.table + mainWork N s.main)
    (B := N * (22 + 20 * c) + (2 * N + 2)) (fun s h0 => ?_) (fun s l s' _ hs => ?_) hr
  · omega
  · obtain rfl : s = ⟨initial N c, .creating 0⟩ := h0
    have htable := tableWork_initial N c
    simp only [mainWork]
    omega
  · obtain ⟨fails, who⟩ := l
    have hs' : s.step fails who = some s' := hs
    cases who with
    | main =>
      obtain ⟨m, hm, rfl⟩ := Option.map_eq_some_iff.mp hs'
      exact Nat.add_lt_add_left (mainStep_work hm) _
    | phil i =>
      unfold Program.step at hs'
      dsimp only at hs'
      split_ifs at hs'
      obtain ⟨u, hu, rfl⟩ := Option.map_eq_some_iff.mp hs'
      exact Nat.add_lt_add_right (step_work hu) _

/-! ### Failures that are seen -/

/-- `main` or a philosopher can go on until `main` is over, which takes a bounded number of steps, and
`main` returns only if nobody failed. -/
structure Answered (c : ℕ) (hist : List (Event (Program N) (Bool × Thread N))) (s : Program N) : Prop where
  live : s.main ≠ .returned → s.main ≠ .exited → s.CanStep
  bounded : hist.length ≤ N * (22 + 20 * c) + (2 * N + 2)
  seen : s.main = .returned → ∀ i, (s.table.phil i).pc = .done

/-- **A failing call does not hang the program** in a run in which every failure is tolerated. -/
theorem failure_answered (hN : 2 ≤ N) (hc : 1 ≤ c)
    {hist : List (Event (Program N) (Bool × Thread N))} {s : Program N} (hr : Run (program N c) hist s)
    (htol : ∀ ev ∈ hist, ∀ i, ev.label = (true, .phil i) → Tolerated ev.pre.table i) :
    Answered c hist s :=
  ⟨(run_ok hc hr htol).canStep hN, run_length_le hr, (run_ok hc hr htol).returned⟩

/-- The steps of `main` and the philosophers, in this order. -/
def replay : List (Bool × Thread N) → Program N → Option (Program N)
  | [], s => some s
  | l :: ls, s => s.step l.1 l.2 >>= replay ls

theorem replay_run {ls : List (Bool × Thread N)} {hist : List (Event (Program N) (Bool × Thread N))}
    {s s' : Program N} (hr : Run (program N c) hist s) (h : replay ls s = some s') :
    ∃ hist', Run (program N c) hist' s' := by
  induction ls generalizing hist s with
  | nil =>
    obtain rfl := Option.some.inj h
    exact ⟨hist, hr⟩
  | cons l ls ih =>
    obtain ⟨s₁, hs₁, h'⟩ := Option.bind_eq_some_iff.mp h
    have hstep : (program N c).step s l s₁ := hs₁
    exact ih (hr.step hstep) h'

/-- Philosopher 1 fails holding its first fork, which philosopher 0 needs too. -/
theorem failure_hangs : ¬ ∀ (N c : ℕ) (hist : List (Event (Program N) (Bool × Thread N)))
    (s : Program N), 2 ≤ N → 1 ≤ c → Run (program N c) hist s → s.main ≠ .returned →
    s.main ≠ .exited → s.CanStep := by
  intro hall
  obtain ⟨s, hs, hmain, hstuck⟩ : ∃ s, replay [(false, .main), (false, .main), (false, .main),
      (false, .phil 1), (true, .phil 1)] (⟨initial 2 1, .creating 0⟩ : Program 2) = some s ∧
      s.main = .joining 0 ∧ (s.step false .main).isNone ∧ (s.step false (.phil 0)).isNone ∧
      (s.step false (.phil 1)).isNone := ⟨_, rfl, rfl, rfl, rfl, rfl⟩
  obtain ⟨hist, hr⟩ := replay_run (c := 1) (.init rfl) hs
  obtain ⟨who, s', hw⟩ := hall 2 1 hist s (by decide) (by decide) hr (by simp [hmain]) (by simp [hmain])
  have hnone : (s.step false who).isNone := by
    rcases who with _ | i
    · exact hstuck.1
    · fin_cases i
      · exact hstuck.2.1
      · exact hstuck.2.2
  rw [hw] at hnone
  cases hnone

/-- Philosopher 1 fails before it takes a fork. -/
theorem failure_answered_two : ∃ hist, ∃ s : Program 2, Answered 1 hist s ∧
    (s.table.phil 1).pc = .failed := by
  have hr₂ : Run (program 2 1) [⟨⟨initial 2 1, .creating 1⟩, (false, .main), ⟨initial 2 1, .creating 2⟩⟩,
      ⟨⟨initial 2 1, .creating 0⟩, (false, .main), ⟨initial 2 1, .creating 1⟩⟩]
      (⟨initial 2 1, .creating 2⟩ : Program 2) :=
    .step (.step (.init rfl) rfl) rfl
  have hs : (program 2 1).step ⟨initial 2 1, .creating 2⟩ (true, .phil 1)
      ⟨leave 1 (initial 2 1), .creating 2⟩ := rfl
  refine ⟨_, _, failure_answered (by decide) (by decide) (hr₂.step hs) ?_, leave_self 1 _⟩
  intro ev hev i hl
  simp only [List.mem_cons, List.not_mem_nil, or_false] at hev
  rcases hev with rfl | rfl | rfl
  · obtain rfl : (1 : Fin 2) = i := Thread.phil.inj (Prod.mk.inj hl).2
    exact (reported_initial 2 1).leave id fun _ => id
  · cases (Prod.mk.inj hl).1
  · cases (Prod.mk.inj hl).1

end Csc453.Dine
