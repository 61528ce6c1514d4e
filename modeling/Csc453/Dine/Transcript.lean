import Csc453.Dine.Table
import Csc453.Dine.Failure

/-!
# Csc453.Dine.Transcript — everything dine prints

`Session` is the program as it runs when no call fails: `main` creates and joins the threads, the
threads print into one output.  `Session.transcript` is the text that the screen stands for, and the
output is this text in every reachable state (`reachable_transcript`).  Result: `session_transcript`.
-/

namespace Csc453.Dine

open Transition

variable {N c : ℕ}

/-- The screen, where `main` is, and what was written to `stdout`. -/
structure Session (N : ℕ) where
  screen : Screen N
  main : Main
  out : List Char

/-- What thread `i` writes with its next step. -/
def printed (i : Fin N) (s : Screen N) : List Char :=
  match (s.table.phil i).pc with
  | .unlock _ =>
    if h : s.index i < N then (columnText ⟨s.index i, h⟩ (s.table.phil ⟨s.index i, h⟩).cell).toList
    else if s.index i = N then ['|', '\n']
    else []
  | _ => []

/-- What `main` writes when it gets to `m`: the border after the last join. -/
def mainPrinted (N : ℕ) : Main → List Char
  | .returned => printTableBorder N
  | _ => []

def Session.step (who : Thread N) (s : Session N) : Option (Session N) :=
  match who with
  | .main =>
    (mainStep false ⟨s.screen.table, s.main⟩).map fun m =>
      { s with main := m, out := s.out ++ mainPrinted N m }
  | .phil i =>
    if s.main.runs i then
      (s.screen.step i).map fun u => { s with screen := u, out := s.out ++ printed i s.screen }
    else none

/-- `main` before it creates the first thread: the header and the initial row are printed. -/
def Session.initial (N c : ℕ) : Session N where
  screen := Screen.initial N c
  main := .creating 0
  out := printTableHeader N ++ rowText N (statusRow (Dine.initial N c))

/-- `dine` with `N` philosophers and `c` cycles. -/
def session (N c : ℕ) : System (Session N) (Thread N) where
  init s := s = Session.initial N c
  step s who t := s.step who = some t

/-! ### The text on the screen -/

/-- The rows, the oldest first, and the unfinished row. -/
def Screen.text (s : Screen N) : List Char :=
  (s.rows.reverse.map (rowText N)).flatten ++ lineText N s.line

/-- The header, the screen, and the border at the end. -/
def Session.transcript (s : Session N) : List Char :=
  printTableHeader N ++ s.screen.text ++ mainPrinted N s.main

theorem lineText_snoc {line : List Cell} {k : ℕ} (hk : k < N) (hlen : line.length = k) (c : Cell) :
    lineText N (line ++ [c]) = lineText N line ++ (columnText ⟨k, hk⟩ c).toList := by
  have hzip : (List.finRange N).zipWith (fun i c => (columnText i c).toList) (line ++ [c]) =
      (List.finRange N).zipWith (fun i c => (columnText i c).toList) line ++
        [(columnText ⟨k, hk⟩ c).toList] := by
    refine List.ext_getElem ?_ fun i hi hi' => ?_
    · simp
      omega
    · simp only [List.length_zipWith, List.length_finRange, List.length_append, List.length_singleton] at hi
      rw [List.getElem_zipWith, List.getElem_finRange]
      by_cases hik : i < k
      · rw [List.getElem_append_left (by omega), List.getElem_append_left (by simp; omega),
          List.getElem_zipWith, List.getElem_finRange]
      · obtain rfl : i = k := by omega
        rw [List.getElem_append_right (by omega), List.getElem_append_right (by simp; omega)]
        simp
  unfold lineText
  rw [hzip, List.flatten_append]
  simp

theorem Screen.Stepped.text {i : Fin N} {s u : Screen N} (h : Screen.Stepped i s u) (hP : PrintInv s) :
    u.text = s.text ++ printed i s := by
  cases h with
  | read b hlt hpc =>
    have hin : inside (s.table.phil i).pc := by rw [hpc]; trivial
    have hlen : s.line.length = s.index i := by
      rw [(hP.writing i hin hlt.le).1, List.length_take, statusRow_length]
      exact min_eq_left hlt.le
    unfold printed Screen.text
    rw [hpc]
    dsimp only
    rw [dif_pos hlt, lineText_snoc hlt hlen, List.append_assoc]
  | newline b hpc heq =>
    unfold printed Screen.text rowText
    rw [hpc]
    dsimp only
    rw [dif_neg (by omega), if_pos heq, List.reverse_cons, List.map_append, List.flatten_append]
    simp [lineText]
  | call t ht hidx =>
    have hnone : printed i s = [] := by
      unfold printed
      split
      · next b hpc =>
        have hgt := hidx b hpc
        rw [dif_neg (by omega), if_neg (by omega)]
      · rfl
    rw [hnone, List.append_nil]
    rfl

/-- The joined threads are done. -/
def Joined (s : Session N) : Prop :=
  match s.main with
  | .creating _ => True
  | .joining k => ∀ i : Fin N, (i : ℕ) < k → (s.screen.table.phil i).pc = .done
  | .returned => ∀ i : Fin N, (s.screen.table.phil i).pc = .done
  | .exited => False

/-- The invariant of a session. -/
structure SessionInv (c : ℕ) (s : Session N) : Prop where
  screen : Reachable (printing N c) s.screen
  joined : Joined s
  out : s.out = s.transcript

theorem sessionInv_initial (N c : ℕ) : SessionInv c (Session.initial N c) where
  screen := .init rfl
  joined := trivial
  out := by
    unfold Session.transcript Screen.text Session.initial Screen.initial mainPrinted lineText
    simp

theorem mainStep_ne_exited {s : Program N} {m : Main} (h : mainStep false s = some m)
    (halive : ∀ i, (s.table.phil i).pc ≠ .failed) : m ≠ .exited := by
  rintro rfl
  unfold mainStep at h
  cases hm : s.main with
  | creating k =>
    rw [hm] at h
    simp only [Bool.false_eq_true, if_false] at h
    split_ifs at h <;> cases h
  | joining k =>
    rw [hm] at h
    simp only [Bool.false_eq_true, if_false] at h
    split_ifs at h with hk
    · split at h
      · cases h
      · next hfailed => exact halive _ hfailed
      · cases h
    · cases h
  | returned =>
    rw [hm] at h
    cases h
  | exited =>
    rw [hm] at h
    cases h

/-- `main` goes on, and joins only threads that are done. -/
theorem SessionInv.mainStep {s : Session N} {m : Main} (hc : 1 ≤ c) (hI : SessionInv c s)
    (h : mainStep false ⟨s.screen.table, s.main⟩ = some m) :
    SessionInv c { s with main := m, out := s.out ++ mainPrinted N m } := by
  have halive : ∀ i, (s.screen.table.phil i).pc ≠ .failed := fun i =>
    ((reachable_printInv hc hI.screen).table.phil i).alive
  have hne := mainStep_ne_exited h halive
  have hjoined := hI.joined
  have hout : mainPrinted N s.main = [] → s.out ++ mainPrinted N m =
      printTableHeader N ++ s.screen.text ++ mainPrinted N m := by
    intro hnone
    rw [hI.out, Session.transcript, hnone, List.append_nil]
  unfold Joined at hjoined
  cases mainStep_cases h with
  | exits => exact absurd rfl hne
  | created hm =>
    rw [show s.main = _ from hm] at hout
    exact ⟨hI.screen, trivial, hout rfl⟩
  | joins hm =>
    rw [show s.main = _ from hm] at hout
    exact ⟨hI.screen, fun i hi => absurd hi (Nat.not_lt_zero _), hout rfl⟩
  | joined hm hk hdone =>
    rw [show s.main = _ from hm] at hjoined hout
    refine ⟨hI.screen, fun i hi => ?_, hout rfl⟩
    rcases Nat.lt_succ_iff_lt_or_eq.mp hi with hlt | heq
    · exact hjoined i hlt
    · rw [show i = ⟨_, hk⟩ from Fin.ext heq]
      exact hdone
  | returns hm hk =>
    rw [show s.main = _ from hm] at hjoined hout
    exact ⟨hI.screen, fun i => hjoined i (by omega), hout rfl⟩

/-- A thread prints its part of the transcript, and leaves the threads that are done as they are. -/
theorem SessionInv.philStep {s : Session N} {i : Fin N} {u : Screen N} (hc : 1 ≤ c)
    (hI : SessionInv c s) (hruns : s.main.runs i = true) (h : s.screen.step i = some u) :
    SessionInv c { s with screen := u, out := s.out ++ printed i s.screen } := by
  have hst := Screen.step_cases h
  have hstep : (printing N c).step s.screen i u := h
  have hdone : ∀ j, (s.screen.table.phil j).pc = .done → (u.table.phil j).pc = .done := by
    intro j hj
    cases hst with
    | read | newline => exact hj
    | call t ht =>
      have hji : j ≠ i := by
        rintro rfl
        exact ht.moved.2.1 hj
      show (t.phil j).pc = _
      rw [ht.phil_of_ne hji]
      exact hj
  have hjoined := hI.joined
  have hout := hI.out
  unfold Joined at hjoined
  unfold Session.transcript at hout
  refine ⟨hI.screen.step hstep, ?_, ?_⟩
  · unfold Joined
    dsimp only
    cases hm : s.main with
    | creating k => trivial
    | joining k =>
      rw [hm] at hjoined
      exact fun j hj => hdone j (hjoined j hj)
    | returned | exited =>
      rw [hm] at hruns
      cases hruns
  · show s.out ++ printed i s.screen = printTableHeader N ++ u.text ++ mainPrinted N s.main
    have hquiet : mainPrinted N s.main = [] := by
      cases hm : s.main with
      | creating | joining => rfl
      | returned | exited =>
        rw [hm] at hruns
        cases hruns
    rw [hout, hst.text (reachable_printInv hc hI.screen), hquiet]
    simp

theorem reachable_sessionInv (hc : 1 ≤ c) {s : Session N} (h : Reachable (session N c) s) :
    SessionInv c s := by
  refine Reachable.invariant (fun s h0 => ?_) (fun s who t hI hs => ?_) h
  · rw [show s = Session.initial N c from h0]
    exact sessionInv_initial N c
  · cases who with
    | main =>
      obtain ⟨m, hm, rfl⟩ := Option.map_eq_some_iff.mp hs
      exact hI.mainStep hc hm
    | phil i =>
      have hphil : (if s.main.runs i then _ else none) = some t := hs
      split_ifs at hphil with hruns
      obtain ⟨u, hu, rfl⟩ := Option.map_eq_some_iff.mp hphil
      exact hI.philStep hc hruns hu

/-! ### The steps of a session -/

theorem sum_update_add (f : Fin N → ℕ) (i : Fin N) (v : ℕ) :
    ∑ j, Function.update f i v j + f i = ∑ j, f j + v := by
  have hnew := Finset.add_sum_erase Finset.univ (Function.update f i v) (Finset.mem_univ i)
  have hold := Finset.add_sum_erase Finset.univ f (Finset.mem_univ i)
  have hrest : ∑ j ∈ Finset.univ.erase i, Function.update f i v j = ∑ j ∈ Finset.univ.erase i, f j :=
    Finset.sum_congr rfl fun j hj => Function.update_of_ne (Finset.ne_of_mem_erase hj) ..
  rw [Function.update_self] at hnew
  omega

/-- What is left to print of the rows the threads are in. -/
def columnsLeft (s : Screen N) : ℕ := ∑ i, (N + 1 - s.index i)

theorem columnsLeft_update (s : Screen N) (i : Fin N) (v : ℕ) :
    ∑ j, (N + 1 - Function.update s.index i v j) + (N + 1 - s.index i) = columnsLeft s + (N + 1 - v) := by
  rw [columnsLeft, ← sum_update_add (fun j => N + 1 - s.index j) i]
  refine congrArg (· + (N + 1 - s.index i)) (Finset.sum_congr rfl fun j _ => ?_)
  by_cases hj : j = i
  · rw [hj, Function.update_self, Function.update_self]
  · rw [Function.update_of_ne hj, Function.update_of_ne hj]

def screenWork (s : Screen N) : ℕ := (N + 2) * tableWork s.table + columnsLeft s

/-- A semaphore call is worth a whole row of columns. -/
theorem Screen.Stepped.work_lt {i : Fin N} {s u : Screen N} (h : Screen.Stepped i s u) :
    screenWork u < screenWork s := by
  have hsum := columnsLeft_update s i
  cases h with
  | read b hlt hpc =>
    have hcols := hsum (s.index i + 1)
    show (N + 2) * tableWork s.table + ∑ j, (N + 1 - Function.update s.index i (s.index i + 1) j) < _
    unfold screenWork
    omega
  | newline b hpc heq =>
    have hcols := hsum (s.index i + 1)
    show (N + 2) * tableWork s.table + ∑ j, (N + 1 - Function.update s.index i (s.index i + 1) j) < _
    unfold screenWork
    omega
  | call t ht hidx =>
    have hcols := hsum 0
    have hwork := Nat.mul_le_mul_left (N + 2) (Nat.succ_le_of_lt ht.work_lt)
    rw [Nat.mul_succ] at hwork
    show (N + 2) * tableWork t + ∑ j, (N + 1 - Function.update s.index i 0 j) < _
    unfold screenWork
    omega

/-- The steps a session has left, at most. -/
def Session.work (s : Session N) : ℕ := screenWork s.screen + mainWork N s.main

theorem session_work_lt {s t : Session N} {who : Thread N} (h : s.step who = some t) : t.work < s.work := by
  cases who with
  | main =>
    obtain ⟨m, hm, rfl⟩ := Option.map_eq_some_iff.mp h
    exact Nat.add_lt_add_left (mainStep_work hm) _
  | phil i =>
    have hphil : (if s.main.runs i then _ else none) = some t := h
    split_ifs at hphil
    obtain ⟨u, hu, rfl⟩ := Option.map_eq_some_iff.mp hphil
    exact Nat.add_lt_add_right (Screen.step_cases hu).work_lt _

theorem session_work_initial (N c : ℕ) :
    (Session.initial N c).work ≤ (N + 2) * (N * (22 + 20 * c)) + N * (N + 1) + (2 * N + 2) := by
  have htable := Nat.mul_le_mul_left (N + 2) (tableWork_initial N c)
  have hcols : columnsLeft (Screen.initial N c) = N * (N + 1) := by
    simp [columnsLeft, Screen.initial]
  show (N + 2) * tableWork (Dine.initial N c) + columnsLeft (Screen.initial N c) + (N - 0 + (N + 2)) ≤ _
  omega

/-! ### The transcript -/

/-- Every row has a column for each philosopher. -/
theorem rows_length (hc : 1 ≤ c) {s : Screen N} (h : Reachable (printing N c) s) :
    ∀ row ∈ s.rows, row.length = N := by
  obtain ⟨hist, hr⟩ := h
  refine Run.invariant (I := fun _ s => ∀ row ∈ s.rows, row.length = N) (fun s h0 => ?_)
    (fun hist s i u hr hI hs => ?_) hr
  · rw [show s = Screen.initial N c from h0]
    intro row hrow
    rw [List.mem_singleton.mp hrow]
    exact statusRow_length _
  · rcases (Screen.step_cases hs).snapshot (reachable_printInv hc hr.reachable) with h | h <;> rw [h]
    · exact hI
    · intro row hrow
      rcases List.mem_cons.mp hrow with rfl | hrow
      · exact statusRow_length _
      · exact hI row hrow

/-- What `dine` prints: at any time the header, the finished rows in order and the row being printed,
each row from the first column on and never two mixed; in the end a table of `8 * c * N + 5` lines of
equal width.  And it gets there, in a bounded number of steps. -/
structure Transcribed (c : ℕ) (hist : List (Event (Session N) (Thread N))) (s : Session N) : Prop where
  output : s.out = s.transcript
  screen : Reachable (printing N c) s.screen
  complete : s.main = .returned → ∃ lines : List (List Char), s.out = lines.flatten ∧
    lines.length = 8 * c * N + 5 ∧ ∀ l ∈ lines, Line N l
  ends : (∀ who t, s.step who ≠ some t) → s.main = .returned
  bounded : hist.length ≤ (N + 2) * (N * (22 + 20 * c)) + N * (N + 1) + (2 * N + 2)

/-- Once `main` has returned the table is complete. -/
theorem SessionInv.complete (hN : 2 ≤ N) (hc : 1 ≤ c) {s : Session N} (hI : SessionInv c s)
    (hret : s.main = .returned) : ∃ lines : List (List Char), s.out = lines.flatten ∧
      lines.length = 8 * c * N + 5 ∧ ∀ l ∈ lines, Line N l := by
  have hdone : ∀ i, (s.screen.table.phil i).pc = .done := by
    have hjoined := hI.joined
    unfold Joined at hjoined
    rw [hret] at hjoined
    exact hjoined
  obtain ⟨-, -, hcount⟩ := run_rowOk hN hc hI.screen
  rw [rowsOwed_done hdone] at hcount
  have hline : s.screen.line = [] := by
    refine ((reachable_printInv hc hI.screen).quiet fun i => ?_).1
    rw [hdone i]
    exact id
  refine ⟨[printTableBorder N, printPhilLabels N, printTableBorder N] ++
    s.screen.rows.reverse.map (rowText N) ++ [printTableBorder N], ?_, ?_, ?_⟩
  · rw [hI.out, Session.transcript, Screen.text, hline, hret]
    simp [printTableHeader, lineText, mainPrinted]
  · simp only [List.length_append, List.length_map, List.length_reverse, List.length_cons,
      List.length_nil]
    omega
  · intro l hl
    simp only [List.mem_append, List.mem_cons, List.mem_map, List.mem_reverse, List.not_mem_nil,
      or_false] at hl
    rcases hl with ((rfl | rfl | rfl) | ⟨row, hrow, rfl⟩) | rfl
    · exact printTableBorder_line N
    · exact printPhilLabels_line N
    · exact printTableBorder_line N
    · exact rowText_line (rows_length hc hI.screen row hrow)
    · exact printTableBorder_line N

/-- Until `main` has returned somebody can go on. -/
theorem SessionInv.returned_of_stuck (hN : 2 ≤ N) (hc : 1 ≤ c) {s : Session N} (hI : SessionInv c s)
    (hstuck : ∀ who t, s.step who ≠ some t) : s.main = .returned := by
  have hjoined := hI.joined
  unfold Joined at hjoined
  have hmain : ∀ m, Dine.mainStep false ⟨s.screen.table, s.main⟩ ≠ some m := by
    intro m hm
    refine hstuck .main { s with main := m, out := s.out ++ mainPrinted N m } ?_
    show Option.map _ _ = _
    rw [hm]
    rfl
  unfold Dine.mainStep at hmain
  cases hm : s.main with
  | creating k =>
    rw [hm] at hmain
    simp only [Bool.false_eq_true, if_false] at hmain
    split_ifs at hmain
    · exact absurd rfl (hmain _)
    · exact absurd rfl (hmain _)
  | joining k =>
    rw [hm] at hmain
    simp only [Bool.false_eq_true, if_false] at hmain
    split_ifs at hmain with hk
    · have hdone : (s.screen.table.phil ⟨k, hk⟩).pc = .done := by
        refine printing_complete hN hc hI.screen (fun i u hu => ?_) ⟨k, hk⟩
        refine hstuck (.phil i) { s with screen := u, out := s.out ++ printed i s.screen } ?_
        have hruns : s.main.runs i = true := by rw [hm]; rfl
        show (if s.main.runs i then _ else none) = _
        rw [if_pos hruns, hu]
        rfl
      rw [hdone] at hmain
      exact absurd rfl (hmain _)
    · exact absurd rfl (hmain _)
  | returned => rfl
  | exited =>
    rw [hm] at hjoined
    exact hjoined.elim

/-- **The transcript** of every run. -/
theorem session_transcript (hN : 2 ≤ N) (hc : 1 ≤ c) {hist : List (Event (Session N) (Thread N))}
    {s : Session N} (hr : Run (session N c) hist s) : Transcribed c hist s := by
  have hI := reachable_sessionInv hc hr.reachable
  refine ⟨hI.out, hI.screen, hI.complete hN hc, hI.returned_of_stuck hN hc, ?_⟩
  refine le_of_add_le_left (b := s.work) (hr.length_add_le (fun s h0 => ?_) fun s who t _ hs => ?_)
  · rw [show s = Session.initial N c from h0]
    exact session_work_initial N c
  · exact session_work_lt hs

/-- Two philosophers with one cycle, to the end. -/
theorem session_transcript_two : ∃ hist, ∃ s : Session 2, s.main = .returned ∧ Transcribed 1 hist s :=
  have hstep : ∀ (s : Session 2) who t, Reachable (session 2 1) s → (session 2 1).step s who t →
      t.work < s.work := fun _ _ _ _ hs => session_work_lt hs
  have ⟨_, s, hr, hend⟩ := Run.exists_end hstep (.init rfl)
  have hall := session_transcript (by decide) (by decide) hr
  ⟨_, s, hall.ends hend, hall⟩

end Csc453.Dine
