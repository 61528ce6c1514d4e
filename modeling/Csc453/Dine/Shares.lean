import Csc453.Dine.Progress

/-!
# Csc453.Dine.Shares — what a run of the philosophers amounts to

`calls i x` counts how often philosopher `i` has made the call at `x`, and `timesLeft x` how often it
still will: every call inside the cycle is made once per cycle, so the two add up to `c`
(`calls_add_timesLeft`).  `forkOps k` lists the waits and posts on fork `k`; the semaphore is `0`
exactly when the newest one is a wait (`Alternating`).
-/

namespace Csc453.Dine

open Transition Semaphore

variable {N c : ℕ} {i : Fin N} {t : Table N} {hist : List (Event (Table N) (Fin N))}

/-! ### Calls made and calls left -/

/-- How often philosopher `i` has made the call at `x`. -/
def calls (i : Fin N) (x : Pc) (hist : List (Event (Table N) (Fin N))) : ℕ :=
  hist.countP fun ev => ev.label = i ∧ (ev.pre.phil i).pc = x

/-- How often philosopher `i` has entered `EATING`. -/
def entries (i : Fin N) (hist : List (Event (Table N) (Fin N))) : ℕ :=
  hist.countP fun ev => (ev.pre.phil i).state ≠ .eating ∧ (ev.post.phil i).state = .eating

/-- How often the call at `x`, inside the cycle, is still to be made. -/
def timesLeft (x : Pc) (p : Phil) : ℕ :=
  if callsLeft x ≤ callsLeft p.pc then p.cyclesLeft else p.cyclesLeft - 1

/-- The cycle that is under way is counted in `cycles_left`. -/
structure Paced (p : Phil) : Prop where
  busy : 3 ≤ callsLeft p.pc → 0 < p.cyclesLeft
  spent : callsLeft p.pc < 3 → p.cyclesLeft = 0

/-- The call that has `n` calls left, itself included. -/
def callAt : ℕ → Pc
  | 22 => .lock .toChanging
  | 21 => .unlock .toChanging
  | 20 => .grab .first
  | 19 => .lock (.took .first)
  | 18 => .unlock (.took .first)
  | 17 => .grab .second
  | 16 => .lock (.took .second)
  | 15 => .unlock (.took .second)
  | 14 => .lock .eat
  | 13 => .unlock .eat
  | 12 => .lock .ate
  | 11 => .unlock .ate
  | 10 => .lock (.put .right)
  | 9 => .post .right
  | 8 => .unlock (.put .right)
  | 7 => .lock (.put .left)
  | 6 => .post .left
  | 5 => .unlock (.put .left)
  | 4 => .lock .think
  | 3 => .unlock .think
  | 2 => .lock .last
  | 1 => .unlock .last
  | _ => .done

theorem callAt_callsLeft {x : Pc} (hx : x ≠ .failed) : callAt (callsLeft x) = x := by
  rcases x with b | o | s | b | _ | _
  · cases b with
    | took o => cases o <;> rfl
    | put s => cases s <;> rfl
    | _ => rfl
  · cases o <;> rfl
  · cases s <;> rfl
  · cases b with
    | took o => cases o <;> rfl
    | put s => cases s <;> rfl
    | _ => rfl
  · rfl
  · exact absurd rfl hx

theorem callsLeft_inj {x y : Pc} (hx : x ≠ .failed) (hy : y ≠ .failed) (h : callsLeft x = callsLeft y) :
    x = y := by
  rw [← callAt_callsLeft hx, ← callAt_callsLeft hy, h]

/-- A philosopher at the end of a cycle is `THINKING`, so another cycle starts with the change. -/
theorem PhilOk.end_of_cycle {p : Phil} (hok : PhilOk i p) (hpc : p.pc = .unlock .think) :
    (1 < p.cyclesLeft ∧ callsLeft (loopHead { p with cyclesLeft := p.cyclesLeft - 1 }).pc = 22) ∨
      (p.cyclesLeft ≤ 1 ∧ callsLeft (loopHead { p with cyclesLeft := p.cyclesLeft - 1 }).pc = 2) := by
  have hth : p.state = .thinking := by rw [hok.state, hpc]; rfl
  rcases loopHead_pc { p with cyclesLeft := p.cyclesLeft - 1 } with ⟨hc, _, h⟩ | ⟨_, hst, _⟩ | ⟨hc, h⟩
  · refine Or.inl ⟨?_, by rw [h]; rfl⟩
    dsimp only at hc
    omega
  · dsimp only at hst
    rw [hth] at hst
    cases hst
  · refine Or.inr ⟨?_, by rw [h]; rfl⟩
    dsimp only at hc
    omega

theorem loopHead_cyclesLeft (p : Phil) : (loopHead p).cyclesLeft = p.cyclesLeft := by
  rcases loopHead_pc p with ⟨_, _, h⟩ | ⟨_, _, h⟩ | ⟨_, h⟩ <;> rw [h]

section

variable {p : Phil} (hok : PhilOk i p) (hp : Paced p) (hd : p.pc ≠ .done)
include hok hp hd

theorem Paced.advance : Paced (advance i p) := by
  rcases advance_cases i hd hok.alive with ⟨hpc, hadv⟩ | ⟨hpc, hcalls, hcyc⟩
  · have hcyc := loopHead_cyclesLeft { p with cyclesLeft := p.cyclesLeft - 1 }
    rw [hadv]
    rcases hok.end_of_cycle hpc with ⟨hc, h22⟩ | ⟨hc, h2⟩
    · refine ⟨fun _ => ?_, fun h => absurd h (by omega)⟩
      rw [hcyc]
      exact Nat.sub_pos_of_lt hc
    · refine ⟨fun h => absurd h (by omega), fun _ => ?_⟩
      rw [hcyc]
      exact Nat.sub_eq_zero_of_le hc
  · have h3 : callsLeft p.pc ≠ 3 := fun h => hpc (callsLeft_inj hok.alive (by simp) h)
    refine ⟨fun h => ?_, fun h => ?_⟩
    · rw [hcyc]
      exact hp.busy (by omega)
    · rw [hcyc]
      exact hp.spent (by omega)

/-- A call inside the cycle is one time less to be made exactly when it is made. -/
theorem timesLeft_advance {x : Pc} (hx3 : 3 ≤ callsLeft x) (hx20 : callsLeft x ≤ 20) :
    timesLeft x (Dine.advance i p) + (if p.pc = x then 1 else 0) = timesLeft x p := by
  have hxf : x ≠ .failed := by
    rintro rfl
    exact absurd hx3 (by decide)
  have hat : p.pc = x ↔ callsLeft p.pc = callsLeft x :=
    ⟨fun h => by rw [h], fun h => callsLeft_inj hok.alive hxf h⟩
  have hbusy := hp.busy
  unfold timesLeft
  simp only [hat]
  rcases advance_cases i hd hok.alive with ⟨hpc, hadv⟩ | ⟨-, hcalls, hcyc⟩
  · have h3 : callsLeft p.pc = 3 := by rw [hpc]; rfl
    have hcyc := loopHead_cyclesLeft { p with cyclesLeft := p.cyclesLeft - 1 }
    dsimp only at hcyc
    rw [hadv, hcyc, h3]
    rcases hok.end_of_cycle hpc with ⟨hc, h22⟩ | ⟨hc, h2⟩
    · rw [h22]
      split_ifs <;> omega
    · rw [h2]
      split_ifs <;> omega
  · rw [hcyc]
    split_ifs <;> omega

end

/-! ### Over a run -/

/-- Calls made and calls left add up. -/
theorem calls_add_timesLeft (hc : 1 ≤ c) (hr : Run (dine N c) hist t) :
    Paced (t.phil i) ∧ ∀ x, 3 ≤ callsLeft x → callsLeft x ≤ 20 →
      calls i x hist + timesLeft x (t.phil i) = c := by
  induction hr with
  | @init t h0 =>
    obtain rfl : t = initial N c := h0
    rw [initial_phil hc]
    refine ⟨⟨fun _ => hc, fun h => absurd h (show ¬ 20 < 3 by decide)⟩, fun x _ hx => ?_⟩
    have htimes : timesLeft x ⟨.grab .first, .changing, false, false, c⟩ = c := if_pos hx
    rw [htimes]
    exact Nat.zero_add c
  | @step hist t u j hr hs ih =>
    obtain ⟨hp, hcount⟩ := ih
    have hst := step_cases hs
    have hok := (reachable_inv hc hr.reachable).phil i
    by_cases hj : j = i
    · subst hj
      rw [hst.phil_self]
      refine ⟨hp.advance hok hst.moved.2.1, fun x h3 h20 => ?_⟩
      have htimes := timesLeft_advance hok hp hst.moved.2.1 h3 h20
      have hx := hcount x h3 h20
      unfold calls at hx ⊢
      rw [List.countP_cons]
      simp only [true_and, decide_eq_true_eq]
      omega
    · rw [hst.phil_of_ne (Ne.symm hj)]
      refine ⟨hp, fun x h3 h20 => ?_⟩
      have hx := hcount x h3 h20
      unfold calls at hx ⊢
      rw [List.countP_cons_of_neg (by simp [hj])]
      exact hx

/-- When philosopher `i` has returned, it has made every call inside the cycle `c` times. -/
theorem calls_done (hc : 1 ≤ c) (hr : Run (dine N c) hist t) (hdone : (t.phil i).pc = .done) {x : Pc}
    (h3 : 3 ≤ callsLeft x) (h20 : callsLeft x ≤ 20) :
    (t.phil i).cyclesLeft = 0 ∧ calls i x hist = c := by
  obtain ⟨hp, hcount⟩ := calls_add_timesLeft (i := i) hc hr
  have hzero : (t.phil i).cyclesLeft = 0 := hp.spent (by rw [hdone]; decide)
  have htimes : timesLeft x (t.phil i) = 0 := by
    unfold timesLeft
    rw [hzero]
    split_ifs <;> rfl
  have hx := hcount x h3 h20
  exact ⟨hzero, by omega⟩

/-- The only way into `EATING` is the printing block for it. -/
theorem eats_iff {p : Phil} (hok : PhilOk i p) :
    (p.state ≠ .eating ∧ (advance i p).state = .eating) ↔ p.pc = .lock .eat := by
  have hstate := (advance_ok hok).state
  rw [hok.state, hstate]
  unfold advance
  rcases hpc : p.pc with b | o | s | b | _ | _
  · cases b with
    | took o => cases o <;> simp [stateAt]
    | put s => cases s <;> simp [stateAt]
    | _ => simp [stateAt]
  · cases o <;> simp [stateAt]
  · cases s <;> simp [stateAt]
  · cases b with
    | took o => cases o <;> simp [stateAt, resume]
    | put s => cases s <;> simp [stateAt, resume]
    | think =>
      rcases loopHead_pc { p with cyclesLeft := p.cyclesLeft - 1 } with ⟨_, _, h⟩ | ⟨_, _, h⟩ | ⟨_, h⟩ <;>
        simp [stateAt, resume, h]
    | _ => simp [stateAt, resume]
  · simp [hpc, stateAt]
  · exact absurd hpc hok.alive

theorem entries_eq_calls (hc : 1 ≤ c) (hr : Run (dine N c) hist t) :
    entries i hist = calls i (.lock .eat) hist := by
  refine List.countP_congr fun ev hev => ?_
  obtain ⟨hpre, hs⟩ := hr.event hev
  have hst := step_cases hs
  have hok := (reachable_inv hc hpre).phil i
  simp only [decide_eq_true_eq]
  by_cases hi : ev.label = i
  · rw [hi] at hst ⊢
    rw [hst.phil_self, eats_iff hok]
    exact (and_iff_right rfl).symm
  · rw [hst.phil_of_ne (Ne.symm hi)]
    exact ⟨fun h => absurd h.2 h.1, fun h => absurd h.1 hi⟩

/-! ### The calls on one fork -/

inductive ForkOp
  | wait
  | post
  deriving DecidableEq

/-- The operation on fork `k` of the call at `pc`. -/
def forkOp (k i : Fin N) : Pc → Option ForkOp
  | .grab o => if forkAt i (side i o) = k then some .wait else none
  | .post s => if forkAt i s = k then some .post else none
  | _ => none

/-- The waits on fork `k` that got through and the posts, with who made them, newest first. -/
def forkOps (k : Fin N) (hist : List (Event (Table N) (Fin N))) : List (Fin N × ForkOp) :=
  hist.filterMap fun ev => (forkOp k ev.label (ev.pre.phil ev.label).pc).map fun op => (ev.label, op)

theorem rightFork_inj {i j : Fin N} (h : rightFork i = rightFork j) : i = j := by
  have hv := congrArg Fin.val h
  have hi := i.isLt
  have hj := j.isLt
  rcases rightFork_val i with ⟨_, h1⟩ | ⟨_, h1⟩ <;> rcases rightFork_val j with ⟨_, h2⟩ | ⟨_, h2⟩ <;>
    ext <;> omega

theorem forkAt_inj (hN : 2 ≤ N) {s s' : Side} (h : forkAt i s = forkAt i s') : s = s' := by
  have hne : rightFork i ≠ i := rightNeighbour_ne hN i
  cases s <;> cases s'
  · rfl
  · exact absurd h.symm hne
  · exact absurd h hne
  · rfl

theorem side_inj {o o' : Ord} (h : side i o = side i o') : o = o' := by
  cases o <;> cases o'
  · rfl
  · exact absurd h (side_ne i)
  · exact absurd h.symm (side_ne i)
  · rfl

theorem forkOp_wait (hN : 2 ≤ N) (o : Ord) (pc : Pc) :
    forkOp (forkAt i (side i o)) i pc = some .wait ↔ pc = .grab o := by
  rcases pc with b | o' | s | b | _ | _ <;> simp only [forkOp, reduceCtorEq, Pc.grab.injEq]
  · refine ⟨fun h => ?_, fun h => if_pos (by rw [h])⟩
    split_ifs at h with hk
    exact side_inj (forkAt_inj hN hk)
  · split_ifs <;> simp

theorem forkOp_post (hN : 2 ≤ N) (s : Side) (pc : Pc) :
    forkOp (forkAt i s) i pc = some .post ↔ pc = .post s := by
  rcases pc with b | o | s' | b | _ | _ <;> simp only [forkOp, reduceCtorEq, Pc.post.injEq]
  · split_ifs <;> simp
  · refine ⟨fun h => ?_, fun h => if_pos (by rw [h])⟩
    split_ifs at h with hk
    exact forkAt_inj hN hk

theorem forkOp_foreign {k : Fin N} (hk : ∀ s, forkAt i s ≠ k) (pc : Pc) : forkOp k i pc = none := by
  rcases pc with b | o | s | b | _ | _
  · rfl
  · exact if_neg (hk _)
  · exact if_neg (hk s)
  · rfl
  · rfl
  · rfl

theorem forkOps_cons (k : Fin N) (ev : Event (Table N) (Fin N)) (hist : List (Event (Table N) (Fin N))) :
    (forkOps k (ev :: hist)).map Prod.snd =
      (forkOp k ev.label (ev.pre.phil ev.label).pc).toList ++ (forkOps k hist).map Prod.snd := by
  unfold forkOps
  rw [List.filterMap_cons]
  rcases forkOp k ev.label (ev.pre.phil ev.label).pc with _ | op <;> rfl

theorem count_forkOps (k i : Fin N) (op : ForkOp) (hist : List (Event (Table N) (Fin N))) :
    (forkOps k hist).count (i, op) =
      hist.countP fun ev => ev.label = i ∧ forkOp k i (ev.pre.phil i).pc = some op := by
  unfold forkOps
  rw [List.count, List.countP_filterMap]
  refine List.countP_congr fun ev _ => ?_
  by_cases hi : ev.label = i
  · rw [hi]
    rcases forkOp k i (ev.pre.phil i).pc with _ | op' <;> simp
  · rcases forkOp k ev.label (ev.pre.phil ev.label).pc with _ | op' <;> simp [hi]

theorem count_eq_calls {k : Fin N} {op : ForkOp} {x : Pc} (h : ∀ pc, forkOp k i pc = some op ↔ pc = x) :
    (forkOps k hist).count (i, op) = calls i x hist := by
  rw [count_forkOps]
  refine List.countP_congr fun ev _ => ?_
  simp only [h, decide_eq_true_eq]

/-! ### Waits and posts alternate -/

/-- `m` times a wait and then a post, newest first. -/
def rounds (m : ℕ) : List ForkOp := (List.replicate m [ForkOp.post, .wait]).flatten

theorem rounds_succ (m : ℕ) : rounds (m + 1) = .post :: .wait :: rounds m := rfl

theorem count_rounds (op : ForkOp) (m : ℕ) : (rounds m).count op = m := by
  induction m with
  | zero => rfl
  | succ m ih =>
    rw [rounds_succ]
    cases op <;> simp [ih]

/-- The operations on a fork alternate, beginning with a wait, and the fork is taken when the newest
one is a wait. -/
def Alternating (v : ℕ) (ops : List ForkOp) : Prop :=
  ∃ m, (v = 1 ∧ ops = rounds m) ∨ (v = 0 ∧ ops = .wait :: rounds m)

theorem forkOps_alternating (hc : 1 ≤ c) (hr : Run (dine N c) hist t) (k : Fin N) :
    Alternating (t.fork k) ((forkOps k hist).map Prod.snd) := by
  induction hr with
  | @init t h0 =>
    obtain rfl : t = initial N c := h0
    exact ⟨0, Or.inl ⟨rfl, rfl⟩⟩
  | @step hist t u j hr hs ih =>
    obtain ⟨m, hm⟩ := ih
    have hI := reachable_inv hc hr.reachable
    rw [forkOps_cons]
    cases step_cases hs with
    | lock b hpc _ =>
      rw [hpc]
      exact ⟨m, hm⟩
    | unlock b hpc =>
      rw [hpc]
      exact ⟨m, hm⟩
    | grab o k' hpc hk h0 =>
      rw [hpc]
      dsimp only [forkOp, Table.setPhil, Table.setFork]
      by_cases hkk : k = k'
      · subst hkk
        obtain ⟨h1, hops⟩ := hm.resolve_right fun h => h0 h.1
        rw [if_pos hk, Function.update_self, hops]
        exact ⟨m, Or.inr ⟨by omega, rfl⟩⟩
      · rw [if_neg fun h => hkk (h.symm.trans hk), Function.update_of_ne hkk]
        exact ⟨m, hm⟩
    | post s k' hpc hk =>
      rw [hpc]
      dsimp only [forkOp, Table.setPhil, Table.setFork]
      by_cases hkk : k = k'
      · subst hkk
        have hheld : t.fork k = 0 := (hI.fork k).held (a := (j, s)) ⟨hk, owns_of_post hpc⟩
        obtain ⟨-, hops⟩ := hm.resolve_left fun h => absurd h.1 (by omega)
        rw [if_pos hk, Function.update_self, hops]
        exact ⟨m + 1, Or.inl ⟨by omega, rfl⟩⟩
      · rw [if_neg fun h => hkk (h.symm.trans hk), Function.update_of_ne hkk]
        exact ⟨m, hm⟩

/-! ### Two neighbours a fork -/

theorem exists_rightFork (hN : 2 ≤ N) (k : Fin N) : ∃ l, rightFork l = k ∧ l ≠ k := by
  have hk := k.isLt
  by_cases h0 : (k : ℕ) = 0
  · have hlt : N - 1 < N := by omega
    refine ⟨⟨N - 1, hlt⟩, ?_, fun h => ?_⟩
    · rcases rightFork_val (⟨N - 1, hlt⟩ : Fin N) with ⟨_, hv⟩ | ⟨hne, _⟩
      · exact Fin.ext (hv.trans h0.symm)
      · dsimp only at hne
        omega
    · have := congrArg Fin.val h
      dsimp only at this
      omega
  · have hlt : (k : ℕ) - 1 < N := by omega
    refine ⟨⟨(k : ℕ) - 1, hlt⟩, ?_, fun h => ?_⟩
    · rcases rightFork_val (⟨(k : ℕ) - 1, hlt⟩ : Fin N) with ⟨hlast, _⟩ | ⟨_, hv⟩
      · dsimp only at hlast
        omega
      · dsimp only at hv
        exact Fin.ext (by omega)
    · have := congrArg Fin.val h
      dsimp only at this
      omega

theorem count_snd (L : List (Fin N × ForkOp)) (op : ForkOp) :
    (L.map Prod.snd).count op = ∑ j, L.count (j, op) := by
  induction L with
  | nil => simp
  | cons a L ih =>
    obtain ⟨i, op'⟩ := a
    rw [List.map_cons, List.count_cons, ih]
    simp only [List.count_cons, Finset.sum_add_distrib, add_right_inj, beq_iff_eq, Prod.mk.injEq]
    by_cases hop : op' = op
    · simp [hop]
    · simp [hop]

/-- If each neighbour of a fork makes `c` operations of a kind on it, there are `2 * c`. -/
theorem count_fork (hN : 2 ≤ N) {op : ForkOp}
    (hcount : ∀ i s, (forkOps (forkAt i s) hist).count (i, op) = c) (k : Fin N) :
    ((forkOps k hist).map Prod.snd).count op = 2 * c := by
  obtain ⟨l, hl, hlk⟩ := exists_rightFork hN k
  have hk : (forkOps k hist).count (k, op) = c := hcount k .left
  have hl' : (forkOps k hist).count (l, op) = c := by
    rw [← hl]
    exact hcount l .right
  have hother : ∀ j, j ∉ ({k, l} : Finset (Fin N)) → (forkOps k hist).count (j, op) = 0 := by
    intro j hj
    rw [count_forkOps, List.countP_eq_zero]
    intro ev _
    have hforeign : ∀ s, forkAt j s ≠ k := by
      intro s hs
      cases s with
      | left => exact hj (by simp [show j = k from hs])
      | right => exact hj (by simp [rightFork_inj (hs.trans hl.symm)])
    simp [forkOp_foreign hforeign]
  rw [count_snd, ← Finset.sum_subset (Finset.subset_univ {k, l}) fun j _ hj => hother j hj,
    Finset.sum_pair (Ne.symm hlk), hk, hl']
  omega

/-! ### The shares -/

/-- What a run in which all philosophers return amounts to, for `c` cycles. -/
structure Shared (c : ℕ) (hist : List (Event (Table N) (Fin N))) (t : Table N) : Prop where
  ate : ∀ i, entries i hist = c
  waited : ∀ i s, (forkOps (forkAt i s) hist).count (i, .wait) = c
  posted : ∀ i s, (forkOps (forkAt i s) hist).count (i, .post) = c
  twice : ∀ k op, ((forkOps k hist).map Prod.snd).count op = 2 * c
  alternating : ∀ k, ((forkOps k hist).map Prod.snd).reverse =
    (List.replicate (2 * c) [ForkOp.wait, .post]).flatten
  returned : ∀ i, t.phil i = ⟨.done, .changing, false, false, 0⟩
  free : (∀ k, t.fork k = 1) ∧ t.printing = 1

theorem PhilOk.returned {p : Phil} (hok : PhilOk i p) (hdone : p.pc = .done) (hzero : p.cyclesLeft = 0) :
    p = ⟨.done, .changing, false, false, 0⟩ := by
  have hleft := hok.holding .left
  have hright := hok.holding .right
  have hstate := hok.state
  obtain ⟨pc, state, holdingLeft, holdingRight, cyclesLeft⟩ := p
  dsimp only at hdone hzero
  subst hdone hzero
  simp only [flag, iff_false, Bool.not_eq_true] at hleft hright
  obtain rfl : holdingLeft = false := hleft
  obtain rfl : holdingRight = false := hright
  obtain rfl : state = .changing := hstate
  rfl

/-- **Every philosopher eats its share and everything is put back.** -/
theorem shares_eaten (hN : 2 ≤ N) (hc : 1 ≤ c) (hr : Run (dine N c) hist t)
    (hdone : ∀ i, (t.phil i).pc = .done) : Shared c hist t := by
  have hI := reachable_inv hc hr.reachable
  have hcalls : ∀ i x, 3 ≤ callsLeft x → callsLeft x ≤ 20 → calls i x hist = c :=
    fun i x h3 h20 => (calls_done hc hr (hdone i) h3 h20).2
  have hwait : ∀ i s, (forkOps (forkAt i s) hist).count (i, .wait) = c := by
    intro i s
    obtain ⟨o, rfl⟩ : ∃ o, s = side i o := (side_cases i s).elim (⟨_, ·⟩) (⟨_, ·⟩)
    rw [count_eq_calls (forkOp_wait hN o)]
    cases o <;> exact hcalls i _ (by decide) (by decide)
  have hpost : ∀ i s, (forkOps (forkAt i s) hist).count (i, .post) = c := by
    intro i s
    rw [count_eq_calls (forkOp_post hN s)]
    cases s <;> exact hcalls i _ (by decide) (by decide)
  have htwice : ∀ k op, ((forkOps k hist).map Prod.snd).count op = 2 * c := by
    intro k op
    cases op
    · exact count_fork hN hwait k
    · exact count_fork hN hpost k
  have hfork : ∀ k, t.fork k = 1 := fun k => by
    refine (hI.fork k).free_iff.mpr fun a ha => ?_
    exact (hdone a.1 ▸ ha.2 : owns a.1 a.2 .done)
  refine ⟨fun i => ?_, hwait, hpost, htwice, fun k => ?_, fun i => ?_, hfork, ?_⟩
  · rw [entries_eq_calls hc hr]
    exact hcalls i _ (by decide) (by decide)
  · obtain ⟨m, ⟨-, hops⟩ | ⟨h0, -⟩⟩ := forkOps_alternating hc hr k
    · have hm := htwice k .wait
      rw [hops, count_rounds] at hm
      rw [hops, hm]
      unfold rounds
      simp [List.reverse_flatten]
    · exact absurd h0 (by rw [hfork k]; decide)
  · obtain ⟨hzero, -⟩ := calls_done (x := .lock .eat) hc hr (hdone i) (by decide) (by decide)
    exact (hI.phil i).returned (hdone i) hzero
  · refine hI.printing.free_iff.mpr fun i hi => ?_
    exact (hdone i ▸ hi : inside .done)

/-- Every run can go on until all philosophers have returned. -/
theorem exists_returned (hN : 2 ≤ N) (hc : 1 ≤ c) : ∃ hist t, Run (dine N c) hist t ∧
    ∀ i, (t.phil i).pc = .done := by
  have key : ∀ n hist t, Run (dine N c) hist t → tableWork t = n → ∃ hist t, Run (dine N c) hist t ∧
      ∀ i, (t.phil i).pc = .done := by
    intro n
    induction n using Nat.strong_induction_on with
    | _ n ih =>
      intro hist t hr hn
      by_cases hstep : ∃ i u, step false i t = some u
      · obtain ⟨i, u, hs⟩ := hstep
        have hr' : Run (dine N c) (⟨t, i, u⟩ :: hist) u := .step hr hs
        exact ih _ (hn ▸ (step_cases hs).work_lt) _ u hr' rfl
      · exact ⟨hist, t, hr, (reachable_inv hc hr.reachable).done_of_stuck hN
          fun i u hs => hstep ⟨i, u, hs⟩⟩
  exact key _ [] (initial N c) (.init rfl) rfl

theorem shares_eaten_five : ∃ hist t, Run (dine 5 3) hist t ∧ Shared 3 hist t := by
  obtain ⟨hist, t, hr, hdone⟩ := exists_returned (N := 5) (c := 3) (by decide) (by decide)
  exact ⟨hist, t, hr, shares_eaten (by decide) (by decide) hr hdone⟩

end Csc453.Dine
