import Csc453.Dine.Invariant

/-!
# Csc453.Dine.Progress — no deadlock, and every run ends

The even/odd rule is an ordered acquisition: with `forkRank` the first fork of every philosopher is
ranked below the second one, odd forks below even ones and, at a table of odd size, the last fork
above them all.  When nobody can step the printing lock is free, so that only the forks block and
`not_blocked_of_ordered` applies.  `work` counts the semaphore calls a philosopher has left.
-/

namespace Csc453.Dine

open Transition Semaphore

variable {N : ℕ}

/-! ### The order of the forks -/

def forkRank (k : Fin N) : ℕ :=
  if (k : ℕ) % 2 = 1 then 0 else if (k : ℕ) + 1 = N then 2 else 1

theorem forkRank_le (k : Fin N) : forkRank k ≤ 2 := by
  unfold forkRank
  split_ifs <;> omega

theorem forkRank_odd {k : Fin N} (h : (k : ℕ) % 2 = 1) : forkRank k = 0 := if_pos h

theorem forkRank_even {k : Fin N} (h : (k : ℕ) % 2 = 0) :
    forkRank k = if (k : ℕ) + 1 = N then 2 else 1 := if_neg (by omega)

theorem rightFork_val (i : Fin N) :
    ((i : ℕ) + 1 = N ∧ (rightFork i : ℕ) = 0) ∨
      ((i : ℕ) + 1 ≠ N ∧ (rightFork i : ℕ) = (i : ℕ) + 1) := by
  have hi := i.isLt
  by_cases hlast : (i : ℕ) + 1 = N
  · refine Or.inl ⟨hlast, ?_⟩
    show ((i : ℕ) + 1) % N = 0
    rw [hlast, Nat.mod_self]
  · exact Or.inr ⟨hlast, Nat.mod_eq_of_lt (by omega)⟩

theorem forkRank_right (hN : 2 ≤ N) (i : Fin N) :
    (i : ℕ) % 2 = 0 ∧ forkRank (rightFork i) < forkRank (leftFork i) ∨
      (i : ℕ) % 2 = 1 ∧ forkRank (leftFork i) < forkRank (rightFork i) := by
  unfold leftFork
  rcases Nat.mod_two_eq_zero_or_one (i : ℕ) with hpar | hpar
  · refine Or.inl ⟨hpar, ?_⟩
    rw [forkRank_even hpar]
    rcases rightFork_val i with ⟨hlast, hr⟩ | ⟨hlast, hr⟩
    · -- at a table of odd size the even philosophers `N - 1` and `0` are neighbours
      rw [if_pos hlast, forkRank_even (by omega), if_neg (by omega)]
      omega
    · rw [if_neg hlast, forkRank_odd (by omega)]
      omega
  · refine Or.inr ⟨hpar, ?_⟩
    rw [forkRank_odd hpar]
    rcases rightFork_val i with ⟨_, hr⟩ | ⟨_, hr⟩
    · rw [forkRank_even (by omega)]
      split_ifs <;> omega
    · rw [forkRank_even (by omega)]
      split_ifs <;> omega

/-- Every philosopher takes its forks in ascending rank. -/
theorem forkRank_side (hN : 2 ≤ N) (i : Fin N) :
    forkRank (forkAt i (side i .first)) < forkRank (forkAt i (side i .second)) := by
  unfold side
  rcases forkRank_right hN i with ⟨hpar, hlt⟩ | ⟨hpar, hlt⟩
  · rw [if_pos hpar, if_pos hpar]
    exact hlt
  · rw [if_neg (by omega), if_neg (by omega)]
    exact hlt

/-! ### Nobody stuck -/

/-- Why philosopher `i` cannot step. -/
theorem blocked_cases {i : Fin N} {t : Table N} (h : ∀ u, step false i t ≠ some u) :
    (t.phil i).pc = .done ∨ (t.phil i).pc = .failed ∨
      (t.printing = 0 ∧ ∃ b, (t.phil i).pc = .lock b) ∨
      ∃ o, (t.phil i).pc = .grab o ∧ t.fork (forkAt i (side i o)) = 0 := by
  have hnone : semCall i t = none := by
    rcases hs : semCall i t with _ | v
    · rfl
    · exact absurd (by simp [step, hs]) (h (v.setPhil i (advance i (t.phil i))))
  unfold semCall at hnone
  rcases hpc : (t.phil i).pc with b | o | s | b | _ | _ <;> rw [hpc] at hnone <;> dsimp only at hnone
  · by_cases h0 : t.printing = 0
    · exact Or.inr (Or.inr (Or.inl ⟨h0, b, rfl⟩))
    · rw [if_neg h0] at hnone
      cases hnone
  · by_cases h0 : t.fork (forkAt i (side i o)) = 0
    · exact Or.inr (Or.inr (Or.inr ⟨o, rfl, h0⟩))
    · rw [if_neg h0] at hnone
      cases hnone
  · cases hnone
  · cases hnone
  · exact Or.inl rfl
  · exact Or.inr (Or.inl rfl)

section Stuck

variable {t : Table N} (hstuck : ∀ j u, step false j t ≠ some u)
include hstuck

/-- Whoever is inside the printing lock can step. -/
theorem not_inside_of_stuck (j : Fin N) : ¬ inside (t.phil j).pc := by
  intro hj
  rcases blocked_cases (hstuck j) with hd | hf | ⟨_, b, hb⟩ | ⟨o, ho, _⟩
  · exact (hd ▸ hj : inside .done)
  · exact (hf ▸ hj : inside .failed)
  · exact (hb ▸ hj : inside (.lock b))
  · exact (ho ▸ hj : inside (.grab o))

/-- At a table where nobody can step and the lock is free, who holds a fork waits for its second. -/
theorem second_of_stuck (hlock : t.printing ≠ 0) {j : Fin N} {s : Side} (ho : owns j s (t.phil j).pc) :
    (t.phil j).pc = .grab .second ∧ s = side j .first ∧ t.fork (forkAt j (side j .second)) = 0 := by
  rcases blocked_cases (hstuck j) with hd | hf | ⟨h0, _⟩ | ⟨o, hg, h0⟩
  · exact ((hd ▸ ho : owns j s .done)).elim
  · exact ((hf ▸ ho : owns j s .failed)).elim
  · exact absurd h0 hlock
  · cases o with
    | first => exact ((hg ▸ ho : owns j s (.grab .first))).elim
    | second => exact ⟨hg, (hg ▸ ho : owns j s (.grab .second)), h0⟩

end Stuck

/-- At a table where nobody can step, everybody has returned. -/
theorem Inv.done_of_stuck (hN : 2 ≤ N) {t : Table N} (hI : Inv t)
    (h : ∀ i u, step false i t ≠ some u) (i : Fin N) : (t.phil i).pc = .done := by
  -- nobody is inside the printing lock, so it is free
  have hfree : t.printing ≠ 0 := by
    intro h0
    obtain ⟨j, hj⟩ := hI.printing.exists_holder h0
    exact not_inside_of_stuck h j hj
  have hgrab : ∀ j, (t.phil j).pc = .done ∨
      ∃ o, (t.phil j).pc = .grab o ∧ t.fork (forkAt j (side j o)) = 0 := by
    intro j
    rcases blocked_cases (h j) with hd | hf | ⟨h0, _⟩ | hg
    · exact Or.inl hd
    · exact absurd hf (hI.phil j).alive
    · exact absurd h0 hfree
    · exact Or.inr hg
  -- so the only waits are for forks, and a fork's holder is on its second grab
  rcases hgrab i with hd | ⟨o, hg, _⟩
  · exact hd
  · refine (not_blocked_of_ordered (W := fun j k => ∃ o, (t.phil j).pc = .grab o ∧
      forkAt j (side j o) = k) (H := fun j k => ∃ s, Holds t k (j, s)) forkRank 2 forkRank_le
      ?_ ?_ i (forkAt i (side i o)) ⟨o, hg, rfl⟩).elim
    · rintro j k m ⟨s, hk, hs⟩ ⟨o', hpc, hm⟩
      obtain ⟨hpc', rfl, -⟩ := second_of_stuck (j := j) (s := s) h hfree hs
      rw [hpc'] at hpc
      obtain rfl := Pc.grab.inj hpc
      rw [← hk, ← hm]
      exact forkRank_side hN j
    · rintro j k ⟨o', hpc, hk⟩
      rcases hgrab j with hd | ⟨o'', hpc'', h0⟩
      · rw [hd] at hpc
        cases hpc
      · rw [hpc] at hpc''
        obtain rfl := Pc.grab.inj hpc''
        rw [hk] at h0
        obtain ⟨⟨b, s⟩, hb⟩ := (hI.fork k).exists_holder h0
        exact ⟨b, _, ⟨s, hb⟩, .second, (second_of_stuck (s := s) h hfree hb.2).1, rfl⟩

/-! ### Every run ends -/

/-- Semaphore calls left in the current cycle and the last block. -/
def callsLeft : Pc → ℕ
  | .lock .toChanging => 22
  | .unlock .toChanging => 21
  | .grab .first => 20
  | .lock (.took .first) => 19
  | .unlock (.took .first) => 18
  | .grab .second => 17
  | .lock (.took .second) => 16
  | .unlock (.took .second) => 15
  | .lock .eat => 14
  | .unlock .eat => 13
  | .lock .ate => 12
  | .unlock .ate => 11
  | .lock (.put .right) => 10
  | .post .right => 9
  | .unlock (.put .right) => 8
  | .lock (.put .left) => 7
  | .post .left => 6
  | .unlock (.put .left) => 5
  | .lock .think => 4
  | .unlock .think => 3
  | .lock .last => 2
  | .unlock .last => 1
  | .done => 0
  | .failed => 0

/-- A bound on the semaphore calls a philosopher has left. -/
def work (p : Phil) : ℕ := callsLeft p.pc + 20 * p.cyclesLeft

@[simp] theorem setHolding_cyclesLeft (p : Phil) (s : Side) (b : Bool) :
    (p.setHolding s b).cyclesLeft = p.cyclesLeft := by
  cases s <;> rfl

theorem change_cyclesLeft (i : Fin N) (b : Blk) (p : Phil) :
    (change i b p).cyclesLeft = p.cyclesLeft := by
  cases b <;> simp [change]

theorem work_loopHead (p : Phil) : work (loopHead p) ≤ 22 + 20 * p.cyclesLeft ∧
    (p.cyclesLeft = 0 → work (loopHead p) = 2) := by
  rcases loopHead_pc p with ⟨hc, _, h⟩ | ⟨hc, _, h⟩ | ⟨hc, h⟩ <;> rw [h] <;>
    simp only [work, callsLeft] <;> omega

/-- One call less is left, with the same cycles, except at the end of a cycle, where the loop head
follows. -/
theorem advance_cases (i : Fin N) {p : Phil} (hd : p.pc ≠ .done) (hf : p.pc ≠ .failed) :
    (p.pc = .unlock .think ∧ advance i p = loopHead { p with cyclesLeft := p.cyclesLeft - 1 }) ∨
      (p.pc ≠ .unlock .think ∧ callsLeft (advance i p).pc + 1 = callsLeft p.pc ∧
        (advance i p).cyclesLeft = p.cyclesLeft) := by
  unfold advance
  rcases hpc : p.pc with b | o | s | b | _ | _
  · have hcyc := change_cyclesLeft i b p
    refine Or.inr ⟨nofun, ?_, ?_⟩
    · cases b with
      | took o => cases o <;> rfl
      | put s => cases s <;> rfl
      | _ => rfl
    · cases b <;> exact hcyc
  · refine Or.inr ⟨nofun, ?_, rfl⟩
    cases o <;> rfl
  · refine Or.inr ⟨nofun, ?_, rfl⟩
    cases s <;> rfl
  · cases b with
    | took o =>
      refine Or.inr ⟨nofun, ?_⟩
      cases o <;> exact ⟨rfl, rfl⟩
    | put s =>
      refine Or.inr ⟨nofun, ?_⟩
      cases s <;> exact ⟨rfl, rfl⟩
    | think => exact Or.inl ⟨rfl, rfl⟩
    | _ => exact Or.inr ⟨nofun, rfl, rfl⟩
  · exact absurd hpc hd
  · exact absurd hpc hf

theorem work_advance {i : Fin N} {p : Phil} (hd : p.pc ≠ .done) (hf : p.pc ≠ .failed) :
    work (advance i p) < work p := by
  rcases advance_cases i hd hf with ⟨hpc, hadv⟩ | ⟨-, hcalls, hcyc⟩
  · -- the only jump back: a cycle is used up
    obtain ⟨hle, hzero⟩ := work_loopHead { p with cyclesLeft := p.cyclesLeft - 1 }
    have hp : work p = 3 + 20 * p.cyclesLeft := by simp [work, callsLeft, hpc]
    rw [hadv]
    dsimp only at hle hzero
    by_cases hc : p.cyclesLeft - 1 = 0
    · rw [hzero hc]
      omega
    · omega
  · unfold work
    omega

/-- A step moves one philosopher, who had not returned. -/
theorem Stepped.moved {i : Fin N} {t u : Table N} (h : Stepped i t u) :
    u.phil = Function.update t.phil i (advance i (t.phil i)) ∧ (t.phil i).pc ≠ .done ∧
      (t.phil i).pc ≠ .failed := by
  cases h with
  | lock b hpc _ => exact ⟨rfl, by simp [hpc], by simp [hpc]⟩
  | unlock b hpc => exact ⟨rfl, by simp [hpc], by simp [hpc]⟩
  | grab o k hpc _ _ => exact ⟨rfl, by simp [hpc], by simp [hpc]⟩
  | post s k hpc _ => exact ⟨rfl, by simp [hpc], by simp [hpc]⟩

section Moved

variable {i j : Fin N} {t u : Table N} (h : Stepped i t u)
include h

theorem Stepped.phil_self : u.phil i = advance i (t.phil i) := by
  rw [h.moved.1, Function.update_self]

theorem Stepped.phil_of_ne (hj : j ≠ i) : u.phil j = t.phil j := by
  rw [h.moved.1, Function.update_of_ne hj]

end Moved

def tableWork (t : Table N) : ℕ := ∑ i, work (t.phil i)

theorem tableWork_lt {i : Fin N} {t u : Table N} {p : Phil} (hu : u.phil = Function.update t.phil i p)
    (hp : work p < work (t.phil i)) : tableWork u < tableWork t := by
  refine Finset.sum_lt_sum (fun j _ => ?_) ⟨i, Finset.mem_univ i, ?_⟩
  · rw [hu]
    by_cases hj : j = i
    · subst hj
      rw [Function.update_self]
      exact hp.le
    · rw [Function.update_of_ne hj]
  · rw [hu, Function.update_self]
    exact hp

theorem Stepped.work_lt {i : Fin N} {t u : Table N} (h : Stepped i t u) :
    tableWork u < tableWork t := by
  obtain ⟨hu, hd, hf⟩ := h.moved
  exact tableWork_lt hu (work_advance hd hf)

theorem tableWork_initial (N c : ℕ) : tableWork (initial N c) ≤ N * (22 + 20 * c) := by
  calc tableWork (initial N c)
      ≤ ∑ _i : Fin N, (22 + 20 * c) := Finset.sum_le_sum fun i _ => (work_loopHead _).1
    _ = N * (22 + 20 * c) := by simp

/-- What "no deadlock" says of a table of `N` philosophers with `c` cycles each. -/
structure Progresses (N c : ℕ) : Prop where
  live : ∀ t, Reachable (dine N c) t → (∃ i, (t.phil i).pc ≠ .done) → ∃ i u, (dine N c).step t i u
  bounded : ∀ h t, Run (dine N c) h t → h.length ≤ N * (22 + 20 * c)
  finite : ∀ f : ℕ → Table N, (dine N c).init (f 0) → ¬ ∀ n, ∃ i, (dine N c).step (f n) i (f (n + 1))
  returned : ∀ h t, Run (dine N c) h t → (∀ i u, ¬ (dine N c).step t i u) → ∀ i, (t.phil i).pc = .done

/-- **No philosopher deadlock**: somebody can step until all have returned, and every run is
finite. -/
theorem no_deadlock {N c : ℕ} (hN : 2 ≤ N) (hc : 1 ≤ c) : Progresses N c where
  live t ht := by
    rintro ⟨i, hi⟩
    by_contra hstuck
    push Not at hstuck
    exact hi ((reachable_inv hc ht).done_of_stuck hN hstuck i)
  bounded h t hr := by
    have hle := Run.length_add_le (μ := tableWork) (B := N * (22 + 20 * c))
      (fun s hs => by rw [show s = initial N c from hs]; exact tableWork_initial N c)
      (fun s i u _ hs => (step_cases hs).work_lt) hr
    omega
  finite f h0 := not_forever (μ := tableWork) (fun s i u _ hs => (step_cases hs).work_lt) f h0
  returned h t hr hstuck := (reachable_inv hc hr.reachable).done_of_stuck hN hstuck

theorem no_deadlock_five : Progresses 5 1 := no_deadlock (by decide) (by decide)

end Csc453.Dine
