import Csc453.Dine.Status
import Csc453.Lib.Decimal

/-!
# Csc453.Dine.Table — the text of the status table, and the command line

The functions of dine.c that print the table, as the text they write, and the check of the cycle
count in `main`.  Every line is equally wide (`rowText_width`, `printTableBorder_eq`).  Results:
`row_legible`, that a row can be read back exactly for tables of at most 91 philosophers (fork 91
has the label `-`), and `cycles_accepted`.
-/

namespace Csc453.Dine

open Decimal

variable {N : ℕ}

/-! ### The text -/

/-- `change_str`. -/
def changeStr : List Char := "       ".toList

/-- `header_border_len` of `main` and `label_len` of `print_phil_labels`: the leading space, a slot for
each fork, the state and the null byte. -/
def columnLen (N : ℕ) : ℕ := 1 + N + changeStr.length + 1

/-- `build_table_border`. -/
def buildTableBorder (N : ℕ) : List Char := List.replicate (columnLen N - 1) '='

/-- `print_table_border`. -/
def printTableBorder (N : ℕ) : List Char :=
  (List.replicate N ('|' :: buildTableBorder N)).flatten ++ ['|', '\n']

/-- The label of philosopher `i`, in the middle of its column. -/
def philLabel (N i : ℕ) : List Char :=
  (List.replicate (columnLen N - 1) ' ').set (columnLen N / 2 - 1) (wrappedLabel 'A' i)

/-- `print_phil_labels`. -/
def printPhilLabels (N : ℕ) : List Char :=
  ((List.range N).map fun i => '|' :: philLabel N i).flatten ++ ['|', '\n']

/-- `print_table_header`. -/
def printTableHeader (N : ℕ) : List Char := printTableBorder N ++ printPhilLabels N ++ printTableBorder N

/-- The columns of the first philosophers. -/
def lineText (N : ℕ) (line : List Cell) : List Char :=
  ((List.finRange N).zipWith (fun i c => (columnText i c).toList) line).flatten

/-- `print_status_change`. -/
def rowText (N : ℕ) (row : List Cell) : List Char := lineText N row ++ ['|', '\n']

/-! ### Widths -/

theorem wrappedLabel_toNat (start : Char) (index : ℕ) :
    (wrappedLabel start index).toNat = 33 + (start.toNat - 33 + index) % 94 := by
  have hlt := Nat.mod_lt (start.toNat - 33 + index) (show 0 < 94 by decide)
  have hvalid : (33 + (start.toNat - 33 + index) % 94).isValidChar := .inl (by omega)
  show (Char.ofNat (33 + (start.toNat - 33 + index) % 94)).toNat = _
  unfold Char.ofNat
  rw [dif_pos hvalid]
  rfl

/-- A label can be seen. -/
theorem wrappedLabel_ne_newline (start : Char) (index : ℕ) : wrappedLabel start index ≠ '\n' := by
  intro h
  have hn := wrappedLabel_toNat start index
  rw [h] at hn
  have h10 : '\n'.toNat = 10 := rfl
  omega

theorem columnLen_eq (N : ℕ) : columnLen N - 1 = N + 8 := by
  have hlen : changeStr.length = 7 := rfl
  unfold columnLen
  omega

theorem flatten_length {L : List (List Char)} {w : ℕ} (h : ∀ l ∈ L, l.length = w) :
    L.flatten.length = L.length * w := by
  rw [List.length_flatten, List.eq_replicate_of_mem (a := w) (l := L.map List.length)]
  · simp
  · intro n hn
    obtain ⟨l, hl, rfl⟩ := List.mem_map.mp hn
    exact h l hl

/-- The width of the table: `| `, the forks and the state for each philosopher, and the last border. -/
def tableWidth (N : ℕ) : ℕ := N * (N + 9) + 1

/-- A line of the table. -/
def Line (N : ℕ) (text : List Char) : Prop :=
  ∃ l, text = l ++ ['\n'] ∧ l.length = tableWidth N ∧ '\n' ∉ l

theorem line_of_columns {L : List (List Char)} (hL : L.length = N)
    (h : ∀ l ∈ L, l.length = N + 9 ∧ '\n' ∉ l) : Line N (L.flatten ++ ['|', '\n']) := by
  refine ⟨L.flatten ++ ['|'], by simp, ?_, ?_⟩
  · rw [List.length_append, flatten_length fun l hl => (h l hl).1, hL]
    rfl
  · simp only [List.mem_append, List.mem_flatten, List.mem_singleton, not_or, not_exists, not_and]
    exact ⟨fun l hl => (h l hl).2, by decide⟩

theorem printTableBorder_line (N : ℕ) : Line N (printTableBorder N) := by
  refine line_of_columns (List.length_replicate ..) fun l hl => ?_
  obtain rfl := List.eq_of_mem_replicate hl
  unfold buildTableBorder
  rw [columnLen_eq]
  refine ⟨by simp, ?_⟩
  simp [List.mem_replicate]

theorem printPhilLabels_line (N : ℕ) : Line N (printPhilLabels N) := by
  refine line_of_columns (by simp) fun l hl => ?_
  obtain ⟨i, -, rfl⟩ := List.mem_map.mp hl
  unfold philLabel
  rw [columnLen_eq]
  refine ⟨by simp, ?_⟩
  intro hmem
  rcases List.mem_cons.mp hmem with h | hmem
  · exact absurd h (by decide)
  · rcases List.mem_or_eq_of_mem_set hmem with h | h
    · exact absurd (List.eq_of_mem_replicate h) (by decide)
    · exact wrappedLabel_ne_newline _ _ h.symm

/-- The text of the state. -/
def stateText : PhilState → List Char
  | .eating => " Eat   ".toList
  | .thinking => " Think ".toList
  | .changing => "       ".toList

/-- The text of the forks. -/
def forksText (i : Fin N) (c : Cell) : List Char := List.ofFn fun k => (forksHeld i c k).getD '-'

theorem columnText_toList (i : Fin N) (c : Cell) :
    (columnText i c).toList = ['|', ' '] ++ forksText i c ++ stateText c.state := by
  simp only [columnText, String.toList_append, String.toList_ofList]
  cases h : c.state <;> rfl

/-- The slot of fork `k` is its label if the philosopher holds it. -/
theorem forksHeld_eq (i : Fin N) (c : Cell) (k : Fin N) :
    forksHeld i c k =
      if c.holdingLeft = true ∧ k = leftFork i ∨ c.holdingRight = true ∧ k = rightFork i then
        some (wrappedLabel '0' k)
      else none := by
  unfold forksHeld
  cases c.holdingLeft <;> cases c.holdingRight <;> simp [Function.update_apply] <;> grind

theorem forksHeld_ne_newline (i : Fin N) (c : Cell) (k : Fin N) : (forksHeld i c k).getD '-' ≠ '\n' := by
  rw [forksHeld_eq]
  split_ifs
  · exact wrappedLabel_ne_newline _ _
  · decide

theorem columnText_width (i : Fin N) (c : Cell) :
    (columnText i c).toList.length = N + 9 ∧ '\n' ∉ (columnText i c).toList := by
  rw [columnText_toList]
  constructor
  · have hstate : (stateText c.state).length = 7 := by cases c.state <;> rfl
    have hforks : (forksText i c).length = N := List.length_ofFn
    simp only [List.length_append, hstate, hforks]
    simp only [List.length_cons, List.length_nil]
    omega
  · simp only [List.mem_append, not_or]
    refine ⟨⟨by decide, fun h => ?_⟩, ?_⟩
    · obtain ⟨k, hk⟩ := List.mem_ofFn.mp h
      exact forksHeld_ne_newline i c k hk
    · cases c.state <;> decide

theorem rowText_line {row : List Cell} (h : row.length = N) : Line N (rowText N row) := by
  refine line_of_columns (by simp [h]) fun l hl => ?_
  obtain ⟨i, hi, rfl⟩ := List.getElem_of_mem hl
  rw [List.getElem_zipWith]
  exact columnText_width _ _

/-! ### Reading a row back -/

theorem stateText_inj {a b : PhilState} (h : stateText a = stateText b) : a = b := by
  cases a <;> cases b <;> first | rfl | exact absurd h (by decide)

/-- The label of fork 91 is the dash, and of no fork before it. -/
theorem label_eq_dash {k : ℕ} (h : k ≤ 91) : wrappedLabel '0' k = '-' ↔ k = 91 := by
  have hn := wrappedLabel_toNat '0' k
  have h0 : '0'.toNat = 48 := rfl
  have hdash : '-'.toNat = 45 := rfl
  constructor
  · intro heq
    rw [heq] at hn
    omega
  · rintro rfl
    decide

theorem columnText_inj (hN : 2 ≤ N) (h91 : N ≤ 91) {i : Fin N} {c d : Cell}
    (h : (columnText i c).toList = (columnText i d).toList) : c = d := by
  rw [columnText_toList, columnText_toList] at h
  have hlen : (['|', ' '] ++ forksText i c).length = (['|', ' '] ++ forksText i d).length := by
    simp [forksText]
  obtain ⟨hforks, hstate⟩ := List.append_inj h hlen
  have hslot := congrFun (List.ofFn_injective (List.append_cancel_left hforks))
  have hheld : ∀ (c : Cell) (k : Fin N), (forksHeld i c k).getD '-' ≠ '-' ↔
      c.holdingLeft = true ∧ k = leftFork i ∨ c.holdingRight = true ∧ k = rightFork i := by
    intro c k
    rw [forksHeld_eq]
    split_ifs with hk
    · refine iff_of_true (fun hdash => ?_) hk
      have hk91 := (label_eq_dash (by omega)).mp hdash
      omega
    · exact iff_of_false (fun hdash => hdash rfl) hk
  have hne : leftFork i ≠ rightFork i := (rightNeighbour_ne hN i).symm
  have hleft : ∀ c, (forksHeld i c (leftFork i)).getD '-' ≠ '-' ↔ c.holdingLeft = true := by
    intro c
    rw [hheld]
    simp [hne]
  have hright : ∀ c, (forksHeld i c (rightFork i)).getD '-' ≠ '-' ↔ c.holdingRight = true := by
    intro c
    rw [hheld]
    simp [hne.symm]
  have hl : c.holdingLeft = d.holdingLeft := by
    rw [Bool.eq_iff_iff, ← hleft c, ← hleft d, hslot]
  have hr : c.holdingRight = d.holdingRight := by
    rw [Bool.eq_iff_iff, ← hright c, ← hright d, hslot]
  cases c
  cases d
  rw [Cell.mk.injEq]
  exact ⟨stateText_inj hstate, hl, hr⟩

/-- A philosopher that holds fork 91 looks like one that does not. -/
theorem columnText_91 {i : Fin N} (h : (i : ℕ) = 91) :
    columnText i ⟨.changing, true, false⟩ = columnText i ⟨.changing, false, false⟩ := by
  refine String.toList_injective ?_
  rw [columnText_toList, columnText_toList]
  have hforks : forksText i ⟨.changing, true, false⟩ = forksText i ⟨.changing, false, false⟩ := by
    refine congrArg List.ofFn (funext fun k => ?_)
    rw [forksHeld_eq, forksHeld_eq]
    simp only [true_and, false_and, or_false, Bool.false_eq_true, if_false, Option.getD_none]
    split_ifs with hk
    · have hk91 : (k : ℕ) = 91 := by rw [hk]; exact h
      exact (label_eq_dash hk91.le).mpr hk91
    · rfl
  rw [hforks]

/-- **A row can be read back**, the state and both hands of every philosopher, exactly if there is no
fork 91. -/
theorem row_legible (hN : 2 ≤ N) :
    (∀ row row' : List Cell, row.length = N → row'.length = N → rowText N row = rowText N row' →
      row = row') ↔ N ≤ 91 := by
  constructor
  · intro hinj
    by_contra hlt
    let idle : Cell := ⟨.changing, false, false⟩
    have heq := hinj (List.replicate N idle) ((List.replicate N idle).set 91 ⟨.changing, true, false⟩)
      (by simp) (by simp) ?_
    · have hget := congrArg (·[91]?) heq
      simp [show 91 < N by omega, idle] at hget
    · refine congrArg (fun L => List.flatten L ++ ['|', '\n']) (List.ext_getElem (by simp) ?_)
      intro i hi hi'
      simp only [List.getElem_zipWith, List.getElem_replicate, List.getElem_set]
      split_ifs with h91
      · rw [columnText_91]
        simp [← h91]
      · rfl
  · intro h91 row row' hrow hrow' heq
    have hwidth : ∀ row : List Cell,
        ∀ l ∈ (List.finRange N).zipWith (fun i c => (columnText i c).toList) row, l.length = N + 9 := by
      intro row l hl
      obtain ⟨i, hi, rfl⟩ := List.getElem_of_mem hl
      rw [List.getElem_zipWith]
      exact (columnText_width _ _).1
    have hlengths : ∀ row : List Cell, row.length = N →
        ((List.finRange N).zipWith (fun i c => (columnText i c).toList) row).map List.length =
          List.replicate N (N + 9) := by
      intro row hrow
      refine List.eq_replicate_iff.mpr ⟨by simp [hrow], fun n hn => ?_⟩
      obtain ⟨l, hl, rfl⟩ := List.mem_map.mp hn
      exact hwidth row l hl
    have hcolumns := List.eq_iff_flatten_eq.mpr
      ⟨List.append_cancel_right heq, (hlengths row hrow).trans (hlengths row' hrow').symm⟩
    refine List.ext_getElem (hrow.trans hrow'.symm) fun i hi hi' => ?_
    have hcell := List.getElem_of_eq hcolumns (i := i) (by simp; omega)
    rw [List.getElem_zipWith, List.getElem_zipWith] at hcell
    exact columnText_inj hN h91 hcell

theorem row_legible_five :
    2 ≤ 5 ∧ ((∀ row row' : List Cell, row.length = 5 → row'.length = 5 → rowText 5 row = rowText 5 row' →
      row = row') ↔ 5 ≤ 91) := ⟨by decide, row_legible (by decide)⟩

/-! ### The command line -/

/-- The range of `long`, and `INT_MAX`. -/
def longMin : ℤ := -2 ^ 63
def longMax : ℤ := 2 ^ 63 - 1
def intMax : ℤ := 2 ^ 31 - 1

/-- `DEFAULT_CYCLES`. -/
def defaultCycles : ℕ := 1

/-- The test on what `strtol` gave back. -/
def Rejected (scan : Scan) : Prop :=
  scan.erange = true ∨ scan.rest ≠ [] ∨ scan.value ≤ 0 ∨ intMax < scan.value

instance : DecidablePred Rejected := fun scan =>
  inferInstanceAs (Decidable (scan.erange = true ∨ scan.rest ≠ [] ∨ scan.value ≤ 0 ∨ intMax < scan.value))

/-- The checks of `main` on `argv`: the cycle count, or what is written to `stderr` before
`EXIT_FAILURE`. -/
def cyclesOf (argv : List (List Char)) : Except (List Char) ℕ :=
  let program := argv.headD []
  if 2 < argv.length then .error ("usage: ".toList ++ program ++ " [cycles]\n".toList)
  else
    match argv[1]? with
    | some arg =>
      let scan := strtol longMin longMax arg
      if Rejected scan then .error ("Usage: ".toList ++ program ++ " [positive integer]\n".toList)
      else .ok scan.value.toNat
    | none => .ok defaultCycles

theorem not_rejected_clamp {value : ℤ} {rest : List Char} :
    ¬ Rejected (clamp longMin longMax value rest) ↔ rest = [] ∧ 1 ≤ value ∧ value ≤ intMax := by
  unfold Rejected clamp longMin longMax intMax
  split_ifs with hhi hlo
  · simp
    omega
  · simp
    omega
  · simp
    omega

theorem value_clamp {value : ℤ} {rest : List Char} (h : 1 ≤ value ∧ value ≤ intMax) :
    (clamp longMin longMax value rest).value = value := by
  unfold longMin longMax
  unfold intMax at h
  unfold clamp
  rw [if_neg (by omega), if_neg (by omega)]

theorem cyclesOf_eq (program arg : List Char) (c : ℕ) :
    cyclesOf [program, arg] = .ok c ↔
      ¬ Rejected (strtol longMin longMax arg) ∧ (strtol longMin longMax arg).value.toNat = c := by
  show (if Rejected (strtol longMin longMax arg) then _ else _) = _ ↔ _
  split_ifs with h
  · exact iff_of_false nofun fun h' => h'.1 h
  · rw [Except.ok.injEq]
    exact (and_iff_right h).symm

/-- **The cycle counts `main` accepts**: with an argument, a numeral from 1 to `INT_MAX`, with blanks and
a plus sign in front but nothing behind. -/
theorem cycles_accepted {program arg : List Char} {c : ℕ} :
    cyclesOf [program, arg] = .ok c ↔
      ∃ spaces sg digits, arg = spaces ++ (Sign.text sg ++ digits) ∧ (∀ a ∈ spaces, isSpace a = true) ∧
        (∀ a ∈ digits, a.isDigit = true) ∧ digits ≠ [] ∧ sg ≠ .minus ∧ Nat.ofDigitChars 10 digits 0 = c ∧
        1 ≤ c ∧ c ≤ intMax := by
  rw [cyclesOf_eq]
  constructor
  · rintro ⟨haccepted, hvalue⟩
    rcases strtol_cases longMin longMax arg with h | ⟨spaces, sg, digits, rest, harg, hs, hd, hne, -, h⟩
    · rw [h] at haccepted
      exact absurd (.inr (.inr (.inl le_rfl))) haccepted
    · rw [h] at haccepted hvalue
      obtain ⟨rfl, hrange⟩ := not_rejected_clamp.mp haccepted
      rw [value_clamp hrange] at hvalue
      rw [List.append_nil] at harg
      refine ⟨spaces, sg, digits, harg, hs, hd, hne, ?_⟩
      cases sg with
      | minus =>
        have hneg : -(Nat.ofDigitChars 10 digits 0 : ℤ) ≤ 0 := by omega
        exact absurd hrange.1 (by show ¬ 1 ≤ -(Nat.ofDigitChars 10 digits 0 : ℤ); omega)
      | none | plus =>
        have heq : Nat.ofDigitChars 10 digits 0 = c := hvalue
        have hlo : (1 : ℤ) ≤ (Nat.ofDigitChars 10 digits 0 : ℕ) := hrange.1
        have hhi : ((Nat.ofDigitChars 10 digits 0 : ℕ) : ℤ) ≤ intMax := hrange.2
        rw [heq] at hlo hhi
        exact ⟨nofun, heq, by omega, hhi⟩
  · rintro ⟨spaces, sg, digits, rfl, hs, hd, hne, hsg, rfl, hlo, hhi⟩
    have hread : strtol longMin longMax (spaces ++ (sg.text ++ (digits ++ []))) = _ :=
      strtol_numeral sg hs hd hne nofun
    rw [List.append_nil] at hread
    have hvalue : sg.apply (Nat.ofDigitChars 10 digits 0) = (Nat.ofDigitChars 10 digits 0 : ℕ) := by
      cases sg with
      | minus => exact absurd rfl hsg
      | none | plus => rfl
    rw [hvalue] at hread
    rw [hread, not_rejected_clamp, value_clamp ⟨by omega, hhi⟩]
    exact ⟨⟨rfl, by omega, hhi⟩, Int.toNat_natCast _⟩

end Csc453.Dine
