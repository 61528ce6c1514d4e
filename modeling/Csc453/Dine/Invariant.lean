import Csc453.Dine.Philosopher
import Csc453.Lib.Semaphore

/-!
# Csc453.Dine.Invariant — program counters against semaphores and flags

`owns i s pc`: at `pc` philosopher `i` is between its wait on fork `s` and its post of it.
`flag i s pc` and `stateAt pc` are the values the printed fields have at `pc`.  The invariant `Inv`
says that they do have them, and that every fork and the printing lock is a `Semaphore.Binary`
whose holders are given by the program counters.
-/

namespace Csc453.Dine

open Transition Semaphore

variable {N : ℕ}

/-! ### What a program counter stands for -/

/-- Between the wait on fork `s` and its post. -/
def owns (i : Fin N) (s : Side) : Pc → Prop
  | .lock (.took .first) | .unlock (.took .first) | .grab .second => s = side i .first
  | .lock (.took .second) | .unlock (.took .second) | .lock .eat | .unlock .eat | .lock .ate
  | .unlock .ate | .lock (.put .right) | .post .right => True
  | .unlock (.put .right) | .lock (.put .left) | .post .left => s = .left
  | _ => False

/-- The holding flag of fork `s`. -/
def flag (i : Fin N) (s : Side) : Pc → Prop
  | .unlock (.took .first) | .grab .second | .lock (.took .second) => s = side i .first
  | .unlock (.took .second) | .lock .eat | .unlock .eat | .lock .ate | .unlock .ate
  | .lock (.put .right) => True
  | .post .right | .unlock (.put .right) | .lock (.put .left) => s = .left
  | _ => False

def stateAt : Pc → PhilState
  | .unlock .eat | .lock .ate => .eating
  | .unlock .think | .lock .toChanging | .lock .last => .thinking
  | _ => .changing

/-- Holding the printing lock. -/
def inside : Pc → Prop
  | .post _ | .unlock _ => True
  | _ => False

theorem flag_owns {i : Fin N} {s : Side} {pc : Pc} (h : flag i s pc) : owns i s pc := by
  rcases pc with b | o | s' | b | _ | _
  · cases b with
    | took o => cases o <;> trivial
    | put s' => cases s' <;> exact h
    | _ => exact h
  · cases o <;> exact h
  · cases s' <;> trivial
  · cases b with
    | took o => cases o <;> exact h
    | put s' => cases s' <;> exact h
    | _ => exact h
  · exact h
  · exact h

/-- The printed fields agree with the program counter. -/
structure PhilOk (i : Fin N) (p : Phil) : Prop where
  state : p.state = stateAt p.pc
  holding : ∀ s, p.holding s = true ↔ flag i s p.pc
  alive : p.pc ≠ .failed

theorem side_cases (i : Fin N) (s : Side) : s = side i .first ∨ s = side i .second := by
  unfold side
  cases s <;> split_ifs <;> simp

theorem side_ne (i : Fin N) : side i .first ≠ side i .second := by
  unfold side
  split_ifs <;> simp

theorem holding_setHolding (p : Phil) (s s' : Side) (b : Bool) :
    (p.setHolding s b).holding s' = if s' = s then b else p.holding s' := by
  cases s <;> cases s' <;> rfl

@[simp] theorem setHolding_state (p : Phil) (s : Side) (b : Bool) : (p.setHolding s b).state = p.state := by
  cases s <;> rfl

theorem loopHead_pc (p : Phil) :
    (0 < p.cyclesLeft ∧ p.state ≠ .changing ∧ loopHead p = { p with pc := .lock .toChanging }) ∨
      (0 < p.cyclesLeft ∧ p.state = .changing ∧ loopHead p = { p with pc := .grab .first }) ∨
      (p.cyclesLeft = 0 ∧ loopHead p = { p with pc := .lock .last }) := by
  unfold loopHead
  by_cases hc : 0 < p.cyclesLeft
  · rw [if_pos hc]
    by_cases hs : p.state = .changing
    · exact Or.inr (Or.inl ⟨hc, hs, by rw [if_neg (not_not.mpr hs)]⟩)
    · exact Or.inl ⟨hc, hs, by rw [if_pos hs]⟩
  · exact Or.inr (Or.inr ⟨by omega, by rw [if_neg hc]⟩)

/-! ### One thread -/

section Advance

variable {i : Fin N} {p : Phil} (hp : PhilOk i p)

theorem owns_lock {b : Blk} (hpc : p.pc = .lock b) (s : Side) :
    owns i s (advance i p).pc ↔ owns i s p.pc := by
  unfold advance
  rw [hpc]
  cases b with
  | took o => cases o <;> rfl
  | put s' => cases s' <;> rfl
  | _ => rfl

theorem inside_lock {b : Blk} (hpc : p.pc = .lock b) : inside (advance i p).pc := by
  unfold advance
  rw [hpc]
  cases b <;> trivial

theorem owns_unlock {b : Blk} (hpc : p.pc = .unlock b) (s : Side) :
    owns i s (advance i p).pc ↔ owns i s p.pc := by
  unfold advance
  rw [hpc]
  cases b with
  | took o => cases o <;> rfl
  | put s' => cases s' <;> rfl
  | think =>
    show owns i s (loopHead { p with cyclesLeft := p.cyclesLeft - 1 }).pc ↔ False
    rcases loopHead_pc { p with cyclesLeft := p.cyclesLeft - 1 } with ⟨_, _, h⟩ | ⟨_, _, h⟩ | ⟨_, h⟩ <;>
      rw [h] <;> rfl
  | _ => rfl

theorem inside_unlock {b : Blk} (hpc : p.pc = .unlock b) : ¬ inside (advance i p).pc := by
  unfold advance
  rw [hpc]
  cases b with
  | took o => cases o <;> exact id
  | put s' => cases s' <;> exact id
  | think =>
    show ¬ inside (loopHead { p with cyclesLeft := p.cyclesLeft - 1 }).pc
    rcases loopHead_pc { p with cyclesLeft := p.cyclesLeft - 1 } with ⟨_, _, h⟩ | ⟨_, _, h⟩ | ⟨_, h⟩ <;>
      rw [h] <;> exact id
  | _ => exact id

theorem owns_grab {o : Ord} (hpc : p.pc = .grab o) (s : Side) :
    owns i s (advance i p).pc ↔ (s = side i o ∨ owns i s p.pc) := by
  unfold advance
  rw [hpc]
  cases o with
  | first => exact (or_iff_left id).symm
  | second => exact ⟨fun _ => (side_cases i s).symm, fun _ => trivial⟩

theorem owns_post {s : Side} (hpc : p.pc = .post s) (s' : Side) :
    owns i s' (advance i p).pc ↔ (s' ≠ s ∧ owns i s' p.pc) := by
  unfold advance
  rw [hpc]
  cases s <;> cases s' <;> simp [owns]

theorem owns_of_post {s : Side} (hpc : p.pc = .post s) : owns i s p.pc := by
  rw [hpc]
  cases s <;> trivial

theorem inside_grab {o : Ord} (hpc : p.pc = .grab o) : ¬ inside (advance i p).pc := by
  unfold advance
  rw [hpc]
  exact id

theorem inside_post {s : Side} (hpc : p.pc = .post s) : inside (advance i p).pc := by
  unfold advance
  rw [hpc]
  trivial

include hp in
/-- The code between two semaphore calls keeps the printed fields in step. -/
theorem advance_ok : PhilOk i (advance i p) := by
  obtain ⟨hst, hhold, halive⟩ := hp
  unfold advance
  rcases hpc : p.pc with b | o | s | b | _ | _
  · -- the assignment of a printing block
    rw [hpc] at hst hhold
    cases b with
    | took o =>
      refine ⟨?_, fun s => ?_, by simp⟩
      · show (p.setHolding (side i o) true).state = stateAt (.unlock (.took o))
        rw [setHolding_state]
        cases o <;> exact hst
      · show (p.setHolding (side i o) true).holding s = true ↔ _
        rw [holding_setHolding]
        have hs := hhold s
        cases o with
        | first => simp_all [flag]
        | second =>
          refine ⟨fun _ => trivial, fun _ => ?_⟩
          rcases side_cases i s with h | h
          · rw [hs.mpr h, ite_self]
          · rw [if_pos h]
    | put s' =>
      refine ⟨?_, fun s => ?_, by simp⟩
      · cases s' <;> exact hst
      · show (p.setHolding s' false).holding s = true ↔ _
        rw [holding_setHolding]
        have := hhold s
        cases s' <;> cases s <;> simp_all [flag]
    | _ => exact ⟨rfl, fun s => hhold s, by simp⟩
  · rw [hpc] at hst hhold
    cases o <;> exact ⟨hst, fun s => hhold s, by simp⟩
  · rw [hpc] at hst hhold
    cases s <;> exact ⟨hst, fun s => hhold s, by simp⟩
  · rw [hpc] at hst hhold
    cases b with
    | took o => cases o <;> exact ⟨hst, fun s => hhold s, by simp [resume]⟩
    | put s' => cases s' <;> exact ⟨hst, fun s => hhold s, by simp [resume]⟩
    | think =>
      -- `THINKING` at the loop head: the change block, or the last one
      show PhilOk i (loopHead { p with cyclesLeft := p.cyclesLeft - 1 })
      have hth : p.state = .thinking := hst
      rcases loopHead_pc { p with cyclesLeft := p.cyclesLeft - 1 } with ⟨_, _, h⟩ | ⟨_, hch, _⟩ | ⟨_, h⟩
      · rw [h]
        exact ⟨hth, fun s => hhold s, by simp⟩
      · rw [hth] at hch
        cases hch
      · rw [h]
        exact ⟨hth, fun s => hhold s, by simp⟩
    | _ => exact ⟨hst, fun s => hhold s, by simp [resume]⟩
  · exact ⟨hst, hhold, by simp [hpc]⟩
  · exact absurd hpc halive

end Advance

/-! ### The table -/

/-- Philosopher `a.1` is between its wait on fork `k` and its post, taking `k` as its side `a.2`. -/
def Holds (t : Table N) (k : Fin N) (a : Fin N × Side) : Prop :=
  forkAt a.1 a.2 = k ∧ owns a.1 a.2 (t.phil a.1).pc

structure Inv (t : Table N) : Prop where
  phil : ∀ i, PhilOk i (t.phil i)
  printing : Binary t.printing fun i => inside (t.phil i).pc
  fork : ∀ k, Binary (t.fork k) (Holds t k)

/-- What a step of philosopher `i` does: its own code advances, and one semaphore changes. -/
inductive Stepped (i : Fin N) (t : Table N) : Table N → Prop
  | lock (b) : (t.phil i).pc = .lock b → t.printing ≠ 0 →
      Stepped i t (({ t with printing := t.printing - 1 } : Table N).setPhil i (advance i (t.phil i)))
  | unlock (b) : (t.phil i).pc = .unlock b →
      Stepped i t (({ t with printing := t.printing + 1 } : Table N).setPhil i (advance i (t.phil i)))
  | grab (o k) : (t.phil i).pc = .grab o → forkAt i (side i o) = k → t.fork k ≠ 0 →
      Stepped i t ((t.setFork k (t.fork k - 1)).setPhil i (advance i (t.phil i)))
  | post (s k) : (t.phil i).pc = .post s → forkAt i s = k →
      Stepped i t ((t.setFork k (t.fork k + 1)).setPhil i (advance i (t.phil i)))

theorem step_cases {i : Fin N} {t u : Table N} (h : step false i t = some u) : Stepped i t u := by
  simp only [step, Bool.false_eq_true, if_false, Option.map_eq_some_iff] at h
  obtain ⟨v, hv, rfl⟩ := h
  unfold semCall at hv
  rcases hpc : (t.phil i).pc with b | o | s | b | _ | _ <;> rw [hpc] at hv <;> dsimp only at hv
  · split_ifs at hv with h0
    obtain rfl := Option.some.inj hv
    exact .lock b hpc h0
  · split_ifs at hv with h0
    obtain rfl := Option.some.inj hv
    exact .grab o _ hpc rfl h0
  · obtain rfl := Option.some.inj hv
    exact .post s _ hpc rfl
  · obtain rfl := Option.some.inj hv
    exact .unlock b hpc
  · cases hv
  · cases hv

@[simp] theorem setPhil_self (t : Table N) (i : Fin N) (p : Phil) : (t.setPhil i p).phil i = p :=
  Function.update_self ..

theorem setPhil_of_ne (t : Table N) {i j : Fin N} (p : Phil) (h : j ≠ i) :
    (t.setPhil i p).phil j = t.phil j := Function.update_of_ne h ..

/-- Holding is unchanged for everybody but the philosopher that moved. -/
theorem holds_setPhil_of_ne {t : Table N} {i k : Fin N} {p : Phil} {a : Fin N × Side}
    (h : a.1 ≠ i) : Holds (t.setPhil i p) k a ↔ Holds t k a := by
  unfold Holds
  rw [setPhil_of_ne t p h]

theorem holds_setPhil_self {t : Table N} {i k : Fin N} {p : Phil} {s : Side} :
    Holds (t.setPhil i p) k (i, s) ↔ forkAt i s = k ∧ owns i s p.pc := by
  unfold Holds
  rw [setPhil_self]

/-- A move that leaves what the philosopher owns leaves every holder. -/
theorem holds_congr {t : Table N} {i k : Fin N} {p : Phil}
    (h : ∀ s, owns i s p.pc ↔ owns i s (t.phil i).pc) (a : Fin N × Side) :
    Holds (t.setPhil i p) k a ↔ Holds t k a := by
  obtain ⟨j, s⟩ := a
  by_cases hj : j = i
  · subst hj
    rw [holds_setPhil_self, h s]
    rfl
  · exact holds_setPhil_of_ne hj

/-- A move that does not pass the printing lock leaves who is inside. -/
theorem inside_congr {t : Table N} {i : Fin N} {p : Phil}
    (h : inside p.pc ↔ inside (t.phil i).pc) (j : Fin N) :
    inside ((t.setPhil i p).phil j).pc ↔ inside (t.phil j).pc := by
  by_cases hj : j = i
  · subst hj
    rw [setPhil_self]
    exact h
  · rw [setPhil_of_ne t p hj]

theorem philOk_step {t u : Table N} {i : Fin N} (hI : Inv t)
    (hu : u.phil = Function.update t.phil i (advance i (t.phil i))) (j : Fin N) : PhilOk j (u.phil j) := by
  rw [hu]
  by_cases hj : j = i
  · subst hj
    rw [Function.update_self]
    exact advance_ok (hI.phil j)
  · rw [Function.update_of_ne hj]
    exact hI.phil j

theorem Stepped.inv {i : Fin N} {t u : Table N} (h : Stepped i t u) (hI : Inv t) :
    Inv u := by
  cases h with
  | lock b hpc h0 =>
    refine ⟨philOk_step hI rfl, ?_, fun k => ?_⟩
    · refine hI.printing.acquire h0 (a := i) ?_ fun j hj => ?_
      · rw [setPhil_self]; exact inside_lock hpc
      · rw [setPhil_of_ne _ _ hj]
    · exact (hI.fork k).congr (holds_congr (owns_lock hpc))
  | unlock b hpc =>
    refine ⟨philOk_step hI rfl, ?_, fun k => ?_⟩
    · refine hI.printing.release (a := i) (by rw [hpc]; trivial) ?_ fun j hj => ?_
      · rw [setPhil_self]; exact inside_unlock hpc
      · rw [setPhil_of_ne _ _ hj]
    · exact (hI.fork k).congr (holds_congr (owns_unlock hpc))
  | grab o k hpc hk h0 =>
    have hout : inside (advance i (t.phil i)).pc ↔ inside (t.phil i).pc :=
      iff_of_false (inside_grab hpc) (by rw [hpc]; exact id)
    refine ⟨philOk_step hI rfl, hI.printing.congr (inside_congr hout), fun k' => ?_⟩
    · by_cases hkk : k' = k
      · subst hkk
        show Binary (Function.update t.fork k' (t.fork k' - 1) k') _
        rw [Function.update_self]
        refine (hI.fork k').acquire h0 (a := (i, side i o)) ?_ fun ⟨j, s⟩ hne => ?_
        · exact holds_setPhil_self.mpr ⟨hk, (owns_grab hpc _).mpr (Or.inl rfl)⟩
        · by_cases hj : j = i
          · subst hj
            rw [holds_setPhil_self, owns_grab hpc]
            have hs : s ≠ side j o := fun hs => hne (by rw [hs])
            simp [Holds, hs]
          · rw [holds_setPhil_of_ne hj]; rfl
      · show Binary (Function.update t.fork k (t.fork k - 1) k') _
        rw [Function.update_of_ne hkk]
        refine (hI.fork k').congr fun ⟨j, s⟩ => ?_
        by_cases hj : j = i
        · subst hj
          rw [holds_setPhil_self, owns_grab hpc]
          refine and_congr_right fun hf => ⟨fun h => h.resolve_left ?_, Or.inr⟩
          rintro rfl
          exact hkk (hf.symm.trans hk)
        · rw [holds_setPhil_of_ne hj]; rfl
  | post s k hpc hk =>
    have hin : inside (advance i (t.phil i)).pc ↔ inside (t.phil i).pc :=
      iff_of_true (inside_post hpc) (by rw [hpc]; trivial)
    refine ⟨philOk_step hI rfl, hI.printing.congr (inside_congr hin), fun k' => ?_⟩
    · by_cases hkk : k' = k
      · subst hkk
        show Binary (Function.update t.fork k' (t.fork k' + 1) k') _
        rw [Function.update_self]
        refine (hI.fork k').release (a := (i, s)) ⟨hk, owns_of_post hpc⟩ ?_ fun ⟨j, s'⟩ hne => ?_
        · rw [holds_setPhil_self, owns_post hpc]
          exact fun h => h.2.1 rfl
        · by_cases hj : j = i
          · subst hj
            rw [holds_setPhil_self, owns_post hpc]
            have hs : s' ≠ s := fun hs => hne (by rw [hs])
            simp [Holds, hs]
          · rw [holds_setPhil_of_ne hj]; rfl
      · show Binary (Function.update t.fork k (t.fork k + 1) k') _
        rw [Function.update_of_ne hkk]
        refine (hI.fork k').congr fun ⟨j, s'⟩ => ?_
        by_cases hj : j = i
        · subst hj
          rw [holds_setPhil_self, owns_post hpc]
          refine and_congr_right fun hf => ⟨fun h => h.2, fun h => ⟨?_, h⟩⟩
          rintro rfl
          exact hkk (hf.symm.trans hk)
        · rw [holds_setPhil_of_ne hj]; rfl

/-- Everybody starts at the first fork. -/
theorem initial_phil {c : ℕ} (hc : 1 ≤ c) (i : Fin N) :
    (initial N c).phil i = ⟨.grab .first, .changing, false, false, c⟩ := by
  show loopHead _ = _
  unfold loopHead
  rw [if_pos (show 0 < c from hc)]
  rfl

theorem inv_initial {c : ℕ} (hc : 1 ≤ c) : Inv (initial N c) := by
  refine ⟨fun i => ?_, .free fun i => ?_, fun k => .free fun a => ?_⟩
  · rw [initial_phil hc]
    exact ⟨rfl, fun s => by cases s <;> simp [Phil.holding, flag], by simp⟩
  · rw [initial_phil hc]
    exact id
  · unfold Holds
    rw [initial_phil hc]
    exact fun h => h.2

theorem reachable_inv {c : ℕ} (hc : 1 ≤ c) {t : Table N} (h : Reachable (dine N c) t) : Inv t := by
  refine Reachable.invariant (fun t h0 => ?_) (fun t i u hI hs => ?_) h
  · rw [show t = initial N c from h0]
    exact inv_initial hc
  · exact (step_cases hs).inv hI

/-! ### Fork mutual exclusion -/

/-- The philosopher on the right of `i`, who shares `i`'s right fork. -/
def rightNeighbour (i : Fin N) : Fin N := ⟨(i + 1) % N, (rightFork i).isLt⟩

theorem rightNeighbour_ne (hN : 2 ≤ N) (i : Fin N) : rightNeighbour i ≠ i := by
  intro he
  have hi := i.isLt
  have hv : ((i : ℕ) + 1) % N = i := congrArg Fin.val he
  by_cases hlast : (i : ℕ) + 1 = N
  · rw [hlast, Nat.mod_self] at hv
    omega
  · rw [Nat.mod_eq_of_lt (by omega)] at hv
    omega

/-- Who may hold what at a table. -/
structure ForksExclusive (t : Table N) : Prop where
  semaphores : (∀ k, t.fork k = 0 ∨ t.fork k = 1) ∧ (t.printing = 0 ∨ t.printing = 1)
  free_iff : ∀ k, t.fork k = 1 ↔ ∀ i s, forkAt i s = k → ¬ owns i s (t.phil i).pc
  flag_unique : ∀ i s j s', forkAt i s = forkAt j s' → (t.phil i).holding s = true →
    (t.phil j).holding s' = true → i = j
  flag_taken : ∀ i s, (t.phil i).holding s = true → t.fork (forkAt i s) = 0
  eating : ∀ i, (t.phil i).state = .eating →
    (t.phil i).holdingLeft = true ∧ (t.phil i).holdingRight = true
  thinking : ∀ i, (t.phil i).state = .thinking →
    (t.phil i).holdingLeft = false ∧ (t.phil i).holdingRight = false
  neighbours : ∀ i, ¬ ((t.phil i).state = .eating ∧ (t.phil (rightNeighbour i)).state = .eating)

theorem PhilOk.eating {i : Fin N} {p : Phil} (h : PhilOk i p) (he : p.state = .eating) (s : Side) :
    p.holding s = true := by
  rw [h.holding]
  have hs := h.state
  rw [he] at hs
  rcases hpc : p.pc with b | o | s' | b | _ | _ <;> rw [hpc] at hs
  · cases b <;> trivial
  · exact absurd hs (by simp [stateAt])
  · exact absurd hs (by simp [stateAt])
  · cases b <;> trivial
  · exact absurd hs (by simp [stateAt])
  · exact absurd hs (by simp [stateAt])

theorem PhilOk.thinking {i : Fin N} {p : Phil} (h : PhilOk i p) (ht : p.state = .thinking) (s : Side) :
    p.holding s = false := by
  rw [← Bool.not_eq_true, h.holding]
  have hs := h.state
  rw [ht] at hs
  rcases hpc : p.pc with b | o | s' | b | _ | _ <;> rw [hpc] at hs
  · cases b <;> first | exact id | exact absurd hs (by simp [stateAt])
  · exact absurd hs (by simp [stateAt])
  · exact absurd hs (by simp [stateAt])
  · cases b <;> first | exact id | exact absurd hs (by simp [stateAt])
  · exact id
  · exact id

theorem Inv.exclusive (hN : 2 ≤ N) {t : Table N} (hI : Inv t) : ForksExclusive t := by
  have hholds : ∀ i s, (t.phil i).holding s = true → Holds t (forkAt i s) (i, s) :=
    fun i s h => ⟨rfl, flag_owns (((hI.phil i).holding s).mp h)⟩
  have hunique : ∀ i s j s', forkAt i s = forkAt j s' → (t.phil i).holding s = true →
      (t.phil j).holding s' = true → i = j := by
    intro i s j s' hk hi hj
    have h1 := hholds i s hi
    rw [hk] at h1
    exact congrArg Prod.fst ((hI.fork _).unique _ _ h1 (hholds j s' hj))
  refine ⟨⟨fun k => ?_, ?_⟩, fun k => ?_, hunique, fun i s h => ?_, fun i h => ?_, fun i h => ?_, ?_⟩
  · have := (hI.fork k).le_one
    omega
  · have := hI.printing.le_one
    omega
  · refine (hI.fork k).free_iff.trans ⟨fun h i s hk ho => h (i, s) ⟨hk, ho⟩, fun h a ha => ?_⟩
    exact h a.1 a.2 ha.1 ha.2
  · exact (hI.fork _).held (hholds i s h)
  · exact ⟨(hI.phil i).eating h .left, (hI.phil i).eating h .right⟩
  · exact ⟨(hI.phil i).thinking h .left, (hI.phil i).thinking h .right⟩
  · rintro i ⟨he, hn⟩
    refine rightNeighbour_ne hN i (hunique i .right (rightNeighbour i) .left rfl ?_ ?_).symm
    · exact (hI.phil i).eating he .right
    · exact (hI.phil _).eating hn .left

/-- **Fork mutual exclusion**, in every state the philosophers can reach. -/
theorem forks_exclusive {c : ℕ} (hN : 2 ≤ N) (hc : 1 ≤ c) {t : Table N}
    (h : Reachable (dine N c) t) : ForksExclusive t :=
  (reachable_inv hc h).exclusive hN

/-- Philosopher 0 eats, and 3 has its first fork in hand and has just taken its second one. -/
theorem forks_exclusive_five : ∃ t : Table 5, (t.phil 0).state = .eating ∧
    (t.phil 3).pc = .lock (.took .second) ∧ (t.phil 3).holdingLeft = true ∧ t.fork 4 = 0 ∧
    ForksExclusive t := by
  obtain ⟨hist, t, ht, h0, h3, hleft, hfork⟩ : ∃ hist t, play (fun _ t i => step false i t)
      ([0, 0, 0, 0, 0, 0, 0, 0, 3, 3, 3, 3] : List (Fin 5)) [] (initial 5 1) = some (hist, t) ∧
      (t.phil 0).state = .eating ∧ (t.phil 3).pc = .lock (.took .second) ∧
      (t.phil 3).holdingLeft = true ∧ t.fork 4 = 0 := ⟨_, _, rfl, rfl, rfl, rfl, rfl⟩
  have ⟨hr, _⟩ := Run.play (S := dine 5 1) (J := fun _ _ => True) (fun _ _ _ _ h => ⟨h, trivial⟩)
    (.init rfl) trivial ht
  exact ⟨t, h0, h3, hleft, hfork, forks_exclusive (by decide) (by decide) hr.reachable⟩

end Csc453.Dine
