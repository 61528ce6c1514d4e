import Csc453.Dine.Progress

/-!
# Csc453.Dine.Status — the status table on the screen

`Screen` is a table together with what `print_status_change` adds: the loop index of every thread
and the output, which all threads share.  A thread at `unlock b` is inside the print of block `b`:
it reads the philosophers one by one, ends the line, and only then posts the lock, so that steps of
other threads come between any two reads.

`PrintInv` says what the unfinished line and the newest row are, by whoever is inside the lock;
`owed` counts the rows a philosopher has yet to finish.
-/

namespace Csc453.Dine

open Transition Semaphore

variable {N : ℕ}

/-! ### One column of a row -/

/-- The fields `print_status_change` reads of one philosopher. -/
structure Cell where
  state : PhilState
  holdingLeft : Bool
  holdingRight : Bool
  deriving DecidableEq

def Phil.cell (p : Phil) : Cell := ⟨p.state, p.holdingLeft, p.holdingRight⟩

/-- `FIRST_PRINTABLE` and `PRINTABLE_COUNT`: the codes from `'!'` to `'~'`. -/
def firstPrintable : ℕ := 33
def printableCount : ℕ := 94

/-- `wrapped_label`. -/
def wrappedLabel (start : Char) (index : ℕ) : Char :=
  let startOffset := start.toNat - firstPrintable
  let unwrappedOffset := startOffset + index
  let wrappedOffset := unwrappedOffset % printableCount
  Char.ofNat (firstPrintable + wrappedOffset)

/-- `forks_held`, slot by slot: `none` is the dash the slot is reset to, `some` the label written
over it. -/
def forksHeld (i : Fin N) (c : Cell) : Fin N → Option Char :=
  let reset : Fin N → Option Char := fun _ => none
  let left :=
    if c.holdingLeft then
      Function.update reset (leftFork i) (some (wrappedLabel '0' (leftFork i)))
    else reset
  if c.holdingRight then
    Function.update left (rightFork i) (some (wrappedLabel '0' (rightFork i)))
  else left

/-- The column as text: the prefix, the fork string and the state. -/
def columnText (i : Fin N) (c : Cell) : String :=
  "| " ++ String.ofList (List.ofFn fun k => (forksHeld i c k).getD '-') ++
    match c.state with
    | .eating => " Eat   "
    | .thinking => " Think "
    | .changing => "       "

/-- The row that shows the table as it is. -/
def statusRow (t : Table N) : List Cell := List.ofFn fun i => (t.phil i).cell

/-- The row shows fork `k` in the column of philosopher `i`. -/
def Shows (row : List Cell) (i k : Fin N) : Prop :=
  ∃ c, row[(i : ℕ)]? = some c ∧ forksHeld i c k ≠ none

/-! ### Printing -/

/-- The table and the screen.  `index i` is the loop variable of thread `i` in
`print_status_change`, past `N` once its line is ended. -/
structure Screen (N : ℕ) where
  table : Table N
  index : Fin N → ℕ
  line : List Cell
  rows : List (List Cell)

/-- The next semaphore call of thread `i`, which enters its next print with the index at `0`. -/
def Screen.call (i : Fin N) (s : Screen N) : Option (Screen N) :=
  (step false i s.table).map fun t => { s with table := t, index := Function.update s.index i 0 }

/-- One step of thread `i`: a philosopher read and printed, the end of the line, or the next
semaphore call. -/
def Screen.step (i : Fin N) (s : Screen N) : Option (Screen N) :=
  match (s.table.phil i).pc with
  | .unlock _ =>
    if h : s.index i < N then
      some { s with
        index := Function.update s.index i (s.index i + 1)
        line := s.line ++ [(s.table.phil ⟨s.index i, h⟩).cell] }
    else if s.index i = N then
      some { s with
        index := Function.update s.index i (s.index i + 1)
        line := []
        rows := s.line :: s.rows }
    else s.call i
  | _ => s.call i

/-- `main` after it printed the initial row. -/
def Screen.initial (N c : ℕ) : Screen N where
  table := Dine.initial N c
  index _ := 0
  line := []
  rows := [statusRow (Dine.initial N c)]

/-- `N` philosophers with `c` cycles each and their output. -/
def printing (N c : ℕ) : System (Screen N) (Fin N) where
  init s := s = Screen.initial N c
  step s i u := s.step i = some u

/-! ### What the row shows -/

theorem update_ne_none {f : Fin N → Option Char} {m k : Fin N} {a : Char} :
    Function.update f m (some a) k ≠ none ↔ k = m ∨ f k ≠ none := by
  rw [Function.update_apply]
  split_ifs with h <;> simp [h]

theorem forksHeld_ne_none {i k : Fin N} {c : Cell} :
    forksHeld i c k ≠ none ↔
      (c.holdingLeft = true ∧ k = leftFork i) ∨ (c.holdingRight = true ∧ k = rightFork i) := by
  unfold forksHeld
  split_ifs with hr hl hl
  · rw [update_ne_none, update_ne_none]
    simp [hl, hr, or_comm]
  · rw [update_ne_none]
    simp [hl, hr]
  · rw [update_ne_none]
    simp [hl, hr]
  · simp [hl, hr]

theorem statusRow_get (t : Table N) (i : Fin N) :
    (statusRow t)[(i : ℕ)]? = some (t.phil i).cell := by
  unfold statusRow
  rw [List.getElem?_ofFn, dif_pos i.isLt]

theorem statusRow_length (t : Table N) : (statusRow t).length = N := List.length_ofFn

theorem shows_statusRow {t : Table N} {i k : Fin N} :
    Shows (statusRow t) i k ↔ ∃ s, (t.phil i).holding s = true ∧ forkAt i s = k := by
  unfold Shows
  simp only [statusRow_get, Option.some.injEq, exists_eq_left', forksHeld_ne_none]
  constructor
  · rintro (⟨h, rfl⟩ | ⟨h, rfl⟩)
    · exact ⟨.left, h, rfl⟩
    · exact ⟨.right, h, rfl⟩
  · rintro ⟨s, h, rfl⟩
    cases s
    · exact .inl ⟨h, rfl⟩
    · exact .inr ⟨h, rfl⟩

/-! ### What one block changes -/

/-- The cells differ in one field. -/
def OneField (c d : Cell) : Prop :=
  (c.state ≠ d.state ∧ c.holdingLeft = d.holdingLeft ∧ c.holdingRight = d.holdingRight) ∨
    (c.state = d.state ∧ c.holdingLeft ≠ d.holdingLeft ∧ c.holdingRight = d.holdingRight) ∨
    (c.state = d.state ∧ c.holdingLeft = d.holdingLeft ∧ c.holdingRight ≠ d.holdingRight)

/-- The rows differ in the column of philosopher `i`, and there in one field. -/
def OneChange (i : Fin N) (row row' : List Cell) : Prop :=
  (∀ j : Fin N, j ≠ i → row[(j : ℕ)]? = row'[(j : ℕ)]?) ∧
    ∃ c d, row[(i : ℕ)]? = some c ∧ row'[(i : ℕ)]? = some d ∧ OneField c d

theorem oneField_setHolding {p : Phil} {s : Side} {b : Bool} (h : p.holding s = !b) :
    OneField (p.setHolding s b).cell p.cell := by
  have hb : b ≠ !b := by cases b <;> decide
  cases s with
  | left => exact .inr (.inl ⟨rfl, (show b ≠ p.holdingLeft by rw [show p.holdingLeft = !b from h]; exact hb), rfl⟩)
  | right => exact .inr (.inr ⟨rfl, rfl, (show b ≠ p.holdingRight by rw [show p.holdingRight = !b from h]; exact hb)⟩)

/-- **Every printing block makes exactly one visible change.** -/
theorem oneField_change {i : Fin N} {p : Phil} {b : Blk} (hp : PhilOk i p) (hpc : p.pc = .lock b) :
    OneField (change i b p).cell p.cell := by
  have hst := hp.state
  have hhold := hp.holding
  rw [hpc] at hst hhold
  cases b with
  | took o =>
    refine oneField_setHolding (b := true) ?_
    rw [Bool.not_true, ← Bool.not_eq_true, hhold]
    cases o with
    | first => exact id
    | second => exact (side_ne i).symm
  | put s =>
    refine oneField_setHolding (b := false) ?_
    rw [Bool.not_false, hhold]
    cases s <;> trivial
  | _ => exact .inl ⟨by simp [change, Phil.cell, hst, stateAt], rfl, rfl⟩

theorem advance_cell_lock {i : Fin N} {p : Phil} {b : Blk} (hpc : p.pc = .lock b) :
    (advance i p).cell = (change i b p).cell := by
  unfold advance
  rw [hpc]
  cases b <;> rfl

/-- Between printing blocks no printed field changes. -/
theorem advance_cell {i : Fin N} {p : Phil} (hpc : ∀ b, p.pc ≠ .lock b) :
    (advance i p).cell = p.cell := by
  unfold advance
  rcases h : p.pc with b | o | s | b | _ | _
  · exact absurd h (hpc b)
  · rfl
  · rfl
  · cases b with
    | took o => cases o <;> rfl
    | put s => cases s <;> rfl
    | think =>
      show (loopHead { p with cyclesLeft := p.cyclesLeft - 1 }).cell = p.cell
      rcases loopHead_pc { p with cyclesLeft := p.cyclesLeft - 1 } with ⟨_, _, h⟩ | ⟨_, _, h⟩ | ⟨_, h⟩ <;>
        rw [h] <;> rfl
    | _ => rfl
  · rfl
  · rfl

theorem Stepped.statusRow_eq {i : Fin N} {t u : Table N} (h : Stepped i t u)
    (hpc : ∀ b, (t.phil i).pc ≠ .lock b) : statusRow u = statusRow t := by
  refine congrArg List.ofFn (funext fun j => ?_)
  by_cases hj : j = i
  · subst hj
    rw [h.phil_self, advance_cell hpc]
  · rw [h.phil_of_ne hj]

theorem Stepped.oneChange {i : Fin N} {t u : Table N} {b : Blk} (h : Stepped i t u) (hI : Inv t)
    (hpc : (t.phil i).pc = .lock b) : OneChange i (statusRow u) (statusRow t) := by
  refine ⟨fun j hj => ?_, _, _, statusRow_get u i, statusRow_get t i, ?_⟩
  · rw [statusRow_get, statusRow_get, h.phil_of_ne hj]
  · rw [h.phil_self, advance_cell_lock hpc]
    exact oneField_change (hI.phil i) hpc

/-! ### One step of the screen -/

/-- What a step of thread `i` does. -/
inductive Screen.Stepped (i : Fin N) (s : Screen N) : Screen N → Prop
  | read (b) (h : s.index i < N) : (s.table.phil i).pc = .unlock b → Screen.Stepped i s
      { s with
        index := Function.update s.index i (s.index i + 1)
        line := s.line ++ [(s.table.phil ⟨s.index i, h⟩).cell] }
  | newline (b) : (s.table.phil i).pc = .unlock b → s.index i = N → Screen.Stepped i s
      { s with
        index := Function.update s.index i (s.index i + 1)
        line := []
        rows := s.line :: s.rows }
  | call (t) : Dine.Stepped i s.table t → (∀ b, (s.table.phil i).pc = .unlock b → N < s.index i) →
      Screen.Stepped i s { s with table := t, index := Function.update s.index i 0 }

theorem Screen.call_cases {i : Fin N} {s u : Screen N} (h : s.call i = some u)
    (hidx : ∀ b, (s.table.phil i).pc = .unlock b → N < s.index i) : Screen.Stepped i s u := by
  obtain ⟨t, ht, rfl⟩ := Option.map_eq_some_iff.mp h
  exact .call t (Dine.step_cases ht) hidx

theorem Screen.step_cases {i : Fin N} {s u : Screen N} (h : s.step i = some u) :
    Screen.Stepped i s u := by
  unfold Screen.step at h
  split at h
  · next b hpc =>
    split_ifs at h with hlt heq
    · obtain rfl := Option.some.inj h
      exact .read b hlt hpc
    · obtain rfl := Option.some.inj h
      exact .newline b hpc heq
    · exact call_cases h fun _ _ => by omega
  · next hpc => exact call_cases h fun b hb => absurd hb (hpc b)

/-! ### The unfinished line and the newest row -/

/-- No line is begun, and the newest row shows the table as it is. -/
def Current (s : Screen N) : Prop := s.line = [] ∧ ∃ rows, s.rows = statusRow s.table :: rows

/-- The line holds the first `n` columns of the row that shows the table, and the newest row is one
change of philosopher `i` behind. -/
def Writing (s : Screen N) (i : Fin N) (n : ℕ) : Prop :=
  s.line = (statusRow s.table).take n ∧
    ∃ row rows, s.rows = row :: rows ∧ OneChange i (statusRow s.table) row

structure PrintInv (s : Screen N) : Prop where
  table : Inv s.table
  index : ∀ i, (∀ b, (s.table.phil i).pc ≠ .unlock b) → s.index i = 0
  writing : ∀ i, inside (s.table.phil i).pc → s.index i ≤ N → Writing s i (s.index i)
  written : ∀ i, inside (s.table.phil i).pc → N < s.index i → Current s
  quiet : (∀ i, ¬ inside (s.table.phil i).pc) → Current s
  chain : s.rows.IsChain fun newer older => ∃ i : Fin N, OneChange i newer older

theorem PrintInv.alone {s : Screen N} (hP : PrintInv s) {i j : Fin N}
    (hi : inside (s.table.phil i).pc) (hj : inside (s.table.phil j).pc) : j = i :=
  hP.table.printing.unique j i hj hi

theorem printInv_initial {c : ℕ} (hc : 1 ≤ c) : PrintInv (Screen.initial N c) where
  table := inv_initial hc
  index _ _ := rfl
  writing i hi _ := by
    have hfree := (inv_initial (N := N) hc).printing.free_iff.mp rfl
    exact absurd hi (hfree i)
  written _ _ h := absurd h (Nat.not_lt_zero _)
  quiet _ := ⟨rfl, [], rfl⟩
  chain := .singleton _

section Step

variable {s : Screen N} {i : Fin N} (hP : PrintInv s)
include hP

/-- Reading one more philosopher. -/
theorem PrintInv.read {b : Blk} (h : s.index i < N) (hpc : (s.table.phil i).pc = .unlock b) :
    PrintInv { s with
      index := Function.update s.index i (s.index i + 1)
      line := s.line ++ [(s.table.phil ⟨s.index i, h⟩).cell] } := by
  have hin : inside (s.table.phil i).pc := by rw [hpc]; trivial
  refine ⟨hP.table, fun j hj => ?_, fun j hj _ => ?_, fun j hj hlt => ?_, fun hno => ?_, hP.chain⟩
  · have hji : j ≠ i := by
      rintro rfl
      exact hj b hpc
    exact (Function.update_of_ne hji ..).trans (hP.index j hj)
  · obtain rfl := hP.alone hin hj
    obtain ⟨hline, hrow⟩ := hP.writing j hin h.le
    refine ⟨?_, hrow⟩
    show s.line ++ _ = (statusRow s.table).take (Function.update s.index j (s.index j + 1) j)
    rw [Function.update_self, List.take_add_one, ← hline, statusRow_get s.table ⟨s.index j, h⟩]
    rfl
  · obtain rfl := hP.alone hin hj
    dsimp only at hlt
    rw [Function.update_self] at hlt
    omega
  · exact absurd hin (hno i)

/-- Ending the line. -/
theorem PrintInv.newline {b : Blk} (hpc : (s.table.phil i).pc = .unlock b) (heq : s.index i = N) :
    PrintInv { s with
      index := Function.update s.index i (s.index i + 1)
      line := []
      rows := s.line :: s.rows } := by
  have hin : inside (s.table.phil i).pc := by rw [hpc]; trivial
  obtain ⟨hline, row, rows, hrows, hone⟩ := hP.writing i hin heq.le
  rw [heq, List.take_of_length_le (statusRow_length _).le] at hline
  have hcur : Current { s with
      index := Function.update s.index i (s.index i + 1)
      line := []
      rows := s.line :: s.rows } := ⟨rfl, s.rows, congrArg (· :: s.rows) hline⟩
  refine ⟨hP.table, fun j hj => ?_, fun j hj hle => ?_, fun _ _ _ => hcur, fun _ => hcur, ?_⟩
  · have hji : j ≠ i := by
      rintro rfl
      exact hj b hpc
    exact (Function.update_of_ne hji ..).trans (hP.index j hj)
  · obtain rfl := hP.alone hin hj
    dsimp only at hle
    rw [Function.update_self] at hle
    omega
  · have hchain := hP.chain
    rw [hrows] at hchain
    show List.IsChain _ (s.line :: s.rows)
    rw [hrows, hline]
    exact .cons_cons ⟨i, hone⟩ hchain

/-- The next semaphore call. -/
theorem PrintInv.call {t : Table N} (h : Dine.Stepped i s.table t)
    (hidx : ∀ b, (s.table.phil i).pc = .unlock b → N < s.index i) :
    PrintInv { s with table := t, index := Function.update s.index i 0 } := by
  have hI' := h.inv hP.table
  have hself := h.phil_self
  have hother : ∀ j, j ≠ i → t.phil j = s.table.phil j := fun _ => h.phil_of_ne
  have hindex : ∀ j, (∀ b, (t.phil j).pc ≠ .unlock b) → Function.update s.index i 0 j = 0 := by
    intro j hj
    by_cases hji : j = i
    · rw [hji, Function.update_self]
    · rw [Function.update_of_ne hji]
      rw [hother j hji] at hj
      exact hP.index j hj
  by_cases hlock : ∃ b, (s.table.phil i).pc = .lock b
  · -- the wait on the lock got through, so that nobody was printing
    obtain ⟨b, hpc⟩ := hlock
    have hin : inside (t.phil i).pc := by
      rw [hself]
      exact inside_lock hpc
    have hout : ∀ j, ¬ inside (s.table.phil j).pc := by
      intro j hj
      by_cases hji : j = i
      · rw [hji, hpc] at hj
        exact hj
      · rw [← hother j hji] at hj
        exact hji (hI'.printing.unique j i hj hin)
    obtain ⟨hline, rows, hrows⟩ := hP.quiet hout
    refine ⟨hI', hindex, fun j hj _ => ?_, fun j hj hlt => ?_, fun hno => absurd hin (hno i), hP.chain⟩
    · obtain rfl := hI'.printing.unique j i hj hin
      refine ⟨?_, _, _, hrows, h.oneChange hP.table hpc⟩
      show s.line = (statusRow t).take (Function.update s.index j 0 j)
      rw [Function.update_self, List.take_zero, hline]
    · obtain rfl := hI'.printing.unique j i hj hin
      dsimp only at hlt
      rw [Function.update_self] at hlt
      exact absurd hlt (Nat.not_lt_zero _)
  · push Not at hlock
    have hrow : statusRow t = statusRow s.table := h.statusRow_eq hlock
    have hcur : Current s → Current { s with table := t, index := Function.update s.index i 0 } := by
      rintro ⟨hline, rows, hrows⟩
      exact ⟨hline, rows, by rw [hrow]; exact hrows⟩
    by_cases hunlock : ∃ b, (s.table.phil i).pc = .unlock b
    · -- the lock is posted once the row is on the screen
      obtain ⟨b, hpc⟩ := hunlock
      have hin : inside (s.table.phil i).pc := by rw [hpc]; trivial
      have hc := hcur (hP.written i hin (hidx b hpc))
      have hout : ∀ j, ¬ inside (t.phil j).pc := by
        intro j hj
        by_cases hji : j = i
        · rw [hji, hself] at hj
          exact inside_unlock hpc hj
        · rw [hother j hji] at hj
          exact hji (hP.alone hin hj)
      exact ⟨hI', hindex, fun j hj => absurd hj (hout j), fun j hj => absurd hj (hout j),
        fun _ => hc, hP.chain⟩
    · push Not at hunlock
      have hzero : Function.update s.index i 0 = s.index := by
        rw [← hP.index i hunlock, Function.update_eq_self]
      have hinside : ∀ j, inside (t.phil j).pc ↔ inside (s.table.phil j).pc := by
        intro j
        by_cases hji : j = i
        · rw [hji, hself]
          unfold advance
          rcases hpc : (s.table.phil i).pc with b | o | s' | b | _ | _
          · exact absurd hpc (hlock b)
          · rfl
          · rfl
          · exact absurd hpc (hunlock b)
          · rw [hpc]
          · rw [hpc]
        · rw [hother j hji]
      refine ⟨hI', hindex, fun j hj hle => ?_, fun j hj hlt => ?_, fun hno => ?_, hP.chain⟩
      · rw [hinside j] at hj
        dsimp only at hle ⊢
        rw [hzero] at hle ⊢
        obtain ⟨hline, hlast⟩ := hP.writing j hj hle
        exact ⟨by rw [hrow]; exact hline, by rw [hrow]; exact hlast⟩
      · rw [hinside j] at hj
        dsimp only at hlt
        rw [hzero] at hlt
        exact hcur (hP.written j hj hlt)
      · exact hcur (hP.quiet fun j hj => hno j ((hinside j).mpr hj))

end Step

theorem Screen.Stepped.printInv {i : Fin N} {s u : Screen N} (h : Screen.Stepped i s u)
    (hP : PrintInv s) : PrintInv u := by
  cases h with
  | read b hlt hpc => exact hP.read hlt hpc
  | newline b hpc heq => exact hP.newline hpc heq
  | call t ht hidx => exact hP.call ht hidx

theorem reachable_printInv {c : ℕ} (hc : 1 ≤ c) {s : Screen N} (h : Reachable (printing N c) s) :
    PrintInv s := by
  refine Reachable.invariant (fun s h0 => ?_) (fun s i u hP hs => ?_) h
  · rw [show s = Screen.initial N c from h0]
    exact printInv_initial hc
  · exact (Screen.step_cases hs).printInv hP

/-! ### Counting rows -/

/-- The printing blocks still to be entered in the current cycle and up to the next one. -/
def blocksLeft : Pc → ℕ
  | .lock .toChanging => 9
  | .unlock .toChanging | .grab .first | .lock (.took .first) => 8
  | .unlock (.took .first) | .grab .second | .lock (.took .second) => 7
  | .unlock (.took .second) | .lock .eat => 6
  | .unlock .eat | .lock .ate => 5
  | .unlock .ate | .lock (.put .right) => 4
  | .post .right | .unlock (.put .right) | .lock (.put .left) => 3
  | .post .left | .unlock (.put .left) | .lock .think => 2
  | .unlock .think | .lock .last => 1
  | .unlock .last | .done | .failed => 0

/-- The printing blocks of the cycles after the current one. -/
def laterBlocks (p : Phil) : ℕ :=
  match p.pc with
  | .lock .last | .unlock .last | .done | .failed => 0
  | _ => 8 * (p.cyclesLeft - 1)

/-- The printing blocks philosopher `p` still enters. -/
def blocksDue (p : Phil) : ℕ := blocksLeft p.pc + laterBlocks p

theorem blocksDue_lock {i : Fin N} {p : Phil} {b : Blk} (hpc : p.pc = .lock b) :
    blocksDue (advance i p) + 1 = blocksDue p := by
  have hcyc : ∀ b, (change i b p).cyclesLeft = p.cyclesLeft := fun b => change_cyclesLeft i b p
  unfold advance
  rw [hpc]
  cases b with
  | took o => cases o <;> simp [blocksDue, blocksLeft, laterBlocks, hpc, hcyc] <;> omega
  | put s => cases s <;> simp [blocksDue, blocksLeft, laterBlocks, hpc, hcyc] <;> omega
  | last => simp [blocksDue, blocksLeft, laterBlocks, hpc]
  | _ =>
    simp [blocksDue, blocksLeft, laterBlocks, hpc, hcyc]
    omega

theorem blocksDue_advance {i : Fin N} {p : Phil} (hp : PhilOk i p) (hpc : ∀ b, p.pc ≠ .lock b) :
    blocksDue (advance i p) = blocksDue p := by
  have hst := hp.state
  unfold advance
  rcases h : p.pc with b | o | s | b | _ | _
  · exact absurd h (hpc b)
  · cases o <;> simp [blocksDue, blocksLeft, laterBlocks, h]
  · cases s <;> simp [blocksDue, blocksLeft, laterBlocks, h]
  · cases b with
    | took o => cases o <;> simp [resume, blocksDue, blocksLeft, laterBlocks, h]
    | put s => cases s <;> simp [resume, blocksDue, blocksLeft, laterBlocks, h]
    | think =>
      -- a cycle is used up: eight blocks more, or the last one
      show blocksDue (loopHead { p with cyclesLeft := p.cyclesLeft - 1 }) = blocksDue p
      rw [h] at hst
      rcases loopHead_pc { p with cyclesLeft := p.cyclesLeft - 1 } with
        ⟨hc, _, hl⟩ | ⟨_, hch, _⟩ | ⟨hc, hl⟩
      · rw [hl]
        simp only [blocksDue, blocksLeft, laterBlocks, h] at hc ⊢
        omega
      · rw [show p.state = .changing from hch] at hst
        cases hst
      · rw [hl]
        simp only [blocksDue, blocksLeft, laterBlocks, h] at hc ⊢
        omega
    | _ => simp [resume, blocksDue, blocksLeft, laterBlocks, h]
  · rfl
  · rfl

instance : DecidablePred inside
  | .post _ => isTrue trivial
  | .unlock _ => isTrue trivial
  | .lock _ => isFalse id
  | .grab _ => isFalse id
  | .done => isFalse id
  | .failed => isFalse id

/-- The rows philosopher `i` has yet to finish, the one it is printing included. -/
def owed (s : Screen N) (i : Fin N) : ℕ :=
  blocksDue (s.table.phil i) + if inside (s.table.phil i).pc ∧ s.index i ≤ N then 1 else 0

def rowsOwed (s : Screen N) : ℕ := ∑ i, owed s i

theorem owed_congr {s u : Screen N} {j : Fin N} (hphil : u.table.phil j = s.table.phil j)
    (hindex : u.index j = s.index j) : owed u j = owed s j := by
  unfold owed
  rw [hphil, hindex]

/-- A semaphore call finishes no row. -/
theorem owed_call {s : Screen N} {i : Fin N} {t : Table N} (hP : PrintInv s)
    (h : Dine.Stepped i s.table t)
    (hidx : ∀ b, (s.table.phil i).pc = .unlock b → N < s.index i) :
    owed { s with table := t, index := Function.update s.index i 0 } i = owed s i := by
  have hself := h.phil_self
  have hzero : ∀ p : Prop, (p ∧ Function.update s.index i 0 i ≤ N) ↔ p := by
    intro p
    rw [Function.update_self]
    exact and_iff_left (Nat.zero_le N)
  unfold owed
  simp only [hself, hzero]
  rcases hpc : (s.table.phil i).pc with b | o | s' | b | _ | _
  · have hb := blocksDue_lock (i := i) hpc
    rw [if_pos (inside_lock hpc), if_neg fun hin => hin.1]
    omega
  · have hb := blocksDue_advance (hP.table.phil i) fun b hb => by rw [hpc] at hb; cases hb
    rw [if_neg (inside_grab hpc), if_neg fun hin => hin.1, hb]
  · have hb := blocksDue_advance (hP.table.phil i) fun b hb => by rw [hpc] at hb; cases hb
    have hindex := hP.index i fun b hb => by rw [hpc] at hb; cases hb
    rw [if_pos (inside_post hpc), if_pos ⟨trivial, by omega⟩, hb]
  · have hb := blocksDue_advance (hP.table.phil i) fun b hb => by rw [hpc] at hb; cases hb
    have hgt := hidx b hpc
    rw [if_neg (inside_unlock hpc), if_neg fun hin => by omega, hb]
  · exact absurd hpc h.moved.2.1
  · exact absurd hpc h.moved.2.2

/-- A step either ends a line or leaves the rows owed. -/
theorem Screen.Stepped.owed {i : Fin N} {s u : Screen N} (h : Screen.Stepped i s u)
    (hP : PrintInv s) : u.rows.length + rowsOwed u = s.rows.length + rowsOwed s := by
  cases h with
  | read b hlt hpc =>
    have hin : inside (s.table.phil i).pc := by rw [hpc]; trivial
    refine congrArg (s.rows.length + ·) (Finset.sum_congr rfl fun j _ => ?_)
    by_cases hj : j = i
    · subst hj
      unfold Dine.owed
      rw [if_pos, if_pos]
      · exact ⟨hin, hlt.le⟩
      · exact ⟨hin, (Function.update_self j _ s.index).trans_le hlt⟩
    · exact owed_congr rfl (Function.update_of_ne hj ..)
  | newline b hpc heq =>
    have hin : inside (s.table.phil i).pc := by rw [hpc]; trivial
    have hsum : rowsOwed s = ∑ j, (Dine.owed { s with
        index := Function.update s.index i (s.index i + 1)
        line := []
        rows := s.line :: s.rows } j + if j = i then 1 else 0) := by
      refine Finset.sum_congr rfl fun j _ => ?_
      by_cases hj : j = i
      · subst hj
        unfold Dine.owed
        rw [if_pos ⟨hin, heq.le⟩, if_neg, if_pos rfl]
        rintro ⟨-, hle⟩
        have hnext := (Function.update_self j (s.index j + 1) s.index).symm.trans_le hle
        omega
      · rw [if_neg hj]
        exact owed_congr rfl (Function.update_of_ne hj _ s.index).symm
    rw [hsum, Finset.sum_add_distrib, Finset.sum_ite_eq' Finset.univ i, if_pos (Finset.mem_univ i)]
    show s.rows.length + 1 + rowsOwed _ = s.rows.length + (rowsOwed _ + 1)
    omega
  | call t ht hidx =>
    refine congrArg (s.rows.length + ·) (Finset.sum_congr rfl fun j _ => ?_)
    by_cases hj : j = i
    · subst hj
      exact owed_call hP ht hidx
    · refine owed_congr ?_ (Function.update_of_ne hj ..)
      show t.phil j = s.table.phil j
      rw [ht.phil_of_ne hj]

theorem rowsOwed_initial {c : ℕ} (hc : 1 ≤ c) : rowsOwed (Screen.initial N c) = N * (8 * c) := by
  have heach : ∀ i, owed (Screen.initial N c) i = 8 * c := by
    intro i
    have hpc : (Screen.initial N c).table.phil i = ⟨.grab .first, .changing, false, false, c⟩ :=
      initial_phil hc i
    unfold owed
    rw [hpc, if_neg fun hin => hin.1]
    simp only [blocksDue, blocksLeft, laterBlocks]
    omega
  unfold rowsOwed
  rw [Finset.sum_congr rfl fun i _ => heach i]
  simp

theorem rowsOwed_done {s : Screen N} (hdone : ∀ i, (s.table.phil i).pc = .done) : rowsOwed s = 0 := by
  refine Finset.sum_eq_zero fun i _ => ?_
  simp [owed, blocksDue, laterBlocks, blocksLeft, inside, hdone i]

/-! ### The status table -/

/-- No fork is shown twice, who eats shows both forks and who thinks shows none. -/
structure RowOk (N : ℕ) (row : List Cell) : Prop where
  forksOnce : ∀ i j k : Fin N, Shows row i k → Shows row j k → i = j
  eating : ∀ (i : Fin N) (d : Cell), row[(i : ℕ)]? = some d → d.state = .eating →
    Shows row i (leftFork i) ∧ Shows row i (rightFork i)
  thinking : ∀ (i : Fin N) (d : Cell), row[(i : ℕ)]? = some d → d.state = .thinking →
    ∀ k, ¬ Shows row i k

/-- What the rows printed in a run with history `h` ending in `s` satisfy (rows newest first). -/
structure StatusRows (c : ℕ) (h : List (Event (Screen N) (Fin N))) (s : Screen N) : Prop where
  first : s.rows.getLast? = some (statusRow (initial N c))
  snapshot : ∀ e ∈ h, e.post.rows = e.pre.rows ∨ e.post.rows = statusRow e.post.table :: e.pre.rows
  rowOk : ∀ row ∈ s.rows, RowOk N row
  oneChange : s.rows.IsChain fun newer older => ∃ i : Fin N, OneChange i newer older
  complete : (∀ i, (s.table.phil i).pc = .done) → s.rows.length = 8 * c * N + 1

/-- A row that a screen prints is the table at that instant. -/
theorem Screen.Stepped.snapshot {i : Fin N} {s u : Screen N} (h : Screen.Stepped i s u)
    (hP : PrintInv s) : u.rows = s.rows ∨ u.rows = statusRow u.table :: s.rows := by
  cases h with
  | read => exact .inl rfl
  | newline b hpc heq =>
    have hin : inside (s.table.phil i).pc := by rw [hpc]; trivial
    have hline := (hP.writing i hin heq.le).1
    rw [heq, List.take_of_length_le (statusRow_length _).le] at hline
    exact .inr (congrArg (· :: s.rows) hline)
  | call => exact .inl rfl

theorem Inv.rowOk (hN : 2 ≤ N) {t : Table N} (hI : Inv t) : RowOk N (statusRow t) := by
  have hF := hI.exclusive hN
  refine ⟨fun i j k hi hj => ?_, fun i d hd he => ?_, fun i d hd hth k hk => ?_⟩
  · obtain ⟨s, hs, hk⟩ := shows_statusRow.mp hi
    obtain ⟨s', hs', hk'⟩ := shows_statusRow.mp hj
    exact hF.flag_unique i s j s' (hk.trans hk'.symm) hs hs'
  · rw [statusRow_get] at hd
    obtain rfl := Option.some.inj hd
    exact ⟨shows_statusRow.mpr ⟨.left, (hI.phil i).eating he .left, rfl⟩,
      shows_statusRow.mpr ⟨.right, (hI.phil i).eating he .right, rfl⟩⟩
  · rw [statusRow_get] at hd
    obtain rfl := Option.some.inj hd
    obtain ⟨s, hs, -⟩ := shows_statusRow.mp hk
    rw [(hI.phil i).thinking hth s] at hs
    cases hs

theorem run_rowOk {c : ℕ} (hN : 2 ≤ N) (hc : 1 ≤ c) {s : Screen N}
    (h : Reachable (printing N c) s) :
    s.rows.getLast? = some (statusRow (initial N c)) ∧ (∀ row ∈ s.rows, RowOk N row) ∧
      s.rows.length + rowsOwed s = 8 * c * N + 1 := by
  have key : PrintInv s ∧ s.rows.getLast? = some (statusRow (initial N c)) ∧
      (∀ row ∈ s.rows, RowOk N row) ∧ s.rows.length + rowsOwed s = 8 * c * N + 1 := by
    refine Reachable.invariant (I := fun s => PrintInv s ∧
      s.rows.getLast? = some (statusRow (initial N c)) ∧ (∀ row ∈ s.rows, RowOk N row) ∧
      s.rows.length + rowsOwed s = 8 * c * N + 1) (fun s h0 => ?_) (fun s i u hs hstep => ?_) h
    · rw [show s = Screen.initial N c from h0]
      refine ⟨printInv_initial hc, rfl, fun row hrow => ?_, ?_⟩
      · rw [List.mem_singleton.mp hrow]
        exact (inv_initial hc).rowOk hN
      · rw [rowsOwed_initial hc]
        show 1 + N * (8 * c) = 8 * c * N + 1
        rw [Nat.add_comm, Nat.mul_comm]
    · obtain ⟨hP, hlast, hrows, hcount⟩ := hs
      have hst := Screen.step_cases hstep
      refine ⟨hst.printInv hP, ?_, ?_, (hst.owed hP).trans hcount⟩
      · rcases hst.snapshot hP with h | h
        · rw [h]
          exact hlast
        · rw [h, List.getLast?_cons, hlast]
          rfl
      · rcases hst.snapshot hP with h | h
        · rw [h]
          exact hrows
        · rw [h]
          intro row hrow
          rcases List.mem_cons.mp hrow with rfl | hrow
          · exact (hst.printInv hP).table.rowOk hN
          · exact hrows row hrow
  exact key.2

/-- **The status table**: every row is a snapshot, consecutive rows differ in one field, and a
complete run prints `8 * c * N` rows after the initial one. -/
theorem status_rows {c : ℕ} (hN : 2 ≤ N) (hc : 1 ≤ c) {h : List (Event (Screen N) (Fin N))}
    {s : Screen N} (hr : Run (printing N c) h s) : StatusRows c h s := by
  have hP := reachable_printInv hc hr.reachable
  obtain ⟨hfirst, hrows, hcount⟩ := run_rowOk hN hc hr.reachable
  refine ⟨hfirst, fun e he => ?_, hrows, hP.chain, fun hdone => ?_⟩
  · obtain ⟨hpre, hs⟩ := hr.event he
    exact (Screen.step_cases hs).snapshot (reachable_printInv hc hpre)
  · have hzero := rowsOwed_done hdone
    omega

/-- Two philosophers with one cycle, until philosopher 0 has printed its first row. -/
theorem status_rows_two :
    ∃ h s, s.rows.length = 2 ∧ StatusRows (N := 2) 1 h s := by
  have hr : ∃ h s, Run (printing 2 1) h s ∧ s.rows.length = 2 := by
    refine ⟨_, _, .step (l := 0) (.step (l := 0) (.step (l := 0) (.step (l := 0)
      (.step (l := 0) (.init rfl) rfl) rfl) rfl) rfl) rfl, rfl⟩
  obtain ⟨h, s, hr, hrows⟩ := hr
  exact ⟨h, s, hrows, status_rows (by decide) (by decide) hr⟩

/-- A screen where no thread can step belongs to a complete run. -/
theorem printing_complete {c : ℕ} (hN : 2 ≤ N) (hc : 1 ≤ c) {s : Screen N}
    (h : Reachable (printing N c) s) (hstuck : ∀ i u, s.step i ≠ some u) (i : Fin N) :
    (s.table.phil i).pc = .done := by
  refine (reachable_printInv hc h).table.done_of_stuck hN (fun i t ht => ?_) i
  have hcall : s.call i ≠ none := by
    unfold Screen.call
    rw [ht]
    exact fun h => Option.some_ne_none _ h
  obtain ⟨u, hu⟩ := Option.ne_none_iff_exists'.mp hcall
  unfold Screen.step at hstuck
  have hi := hstuck i
  split at hi
  · split_ifs at hi with hlt heq
    · exact hi _ rfl
    · exact hi _ rfl
    · exact hi u hu
  · exact hi u hu

end Csc453.Dine
