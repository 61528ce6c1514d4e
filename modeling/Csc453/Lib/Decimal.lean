import Mathlib.Tactic
import Mathlib.Data.List.TakeWhile

/-!
# Decimal numerals as `strtol` reads them

A numeral is white space, a sign and decimal digits (`Sign.text`); `strtol` reads one from the
front of a text and clamps its value to the range of the result type.  `strtol_numeral` is what it
makes of a numeral with something else behind it, `strtol_cases` that there is nothing else it
reads.
-/

namespace Decimal

/-- `isspace` in the C locale: blank, tab, newline, vertical tab, form feed and return. -/
def isSpace (c : Char) : Bool := c.toNat = 32 ∨ 9 ≤ c.toNat ∧ c.toNat ≤ 13

/-- What `strtol` gives back: the value, the text from `*endptr` on, and whether `errno` was set
to `ERANGE`. -/
structure Scan where
  value : ℤ
  rest : List Char
  erange : Bool
  deriving DecidableEq

inductive Sign
  | none
  | plus
  | minus
  deriving DecidableEq

def Sign.text : Sign → List Char
  | .none => []
  | .plus => ['+']
  | .minus => ['-']

def Sign.apply (n : ℕ) : Sign → ℤ
  | .minus => -n
  | _ => n

/-- The sign in front of a text, and the text behind it. -/
def sign : List Char → Sign × List Char
  | '+' :: r => (.plus, r)
  | '-' :: r => (.minus, r)
  | r => (.none, r)

/-- A value outside the range becomes the nearest bound. -/
def clamp (lo hi value : ℤ) (rest : List Char) : Scan :=
  if hi < value then ⟨hi, rest, true⟩
  else if value < lo then ⟨lo, rest, true⟩
  else ⟨value, rest, false⟩

/-- `strtol` with base 10, for results between `lo` and `hi`; without digits nothing is read. -/
def strtol (lo hi : ℤ) (str : List Char) : Scan :=
  let (sg, body) := sign (str.dropWhile isSpace)
  let digits := body.takeWhile Char.isDigit
  if digits = [] then ⟨0, str, false⟩
  else clamp lo hi (sg.apply (Nat.ofDigitChars 10 digits 0)) (body.dropWhile Char.isDigit)

/-- The text does not go on with a digit. -/
def NoDigit (rest : List Char) : Prop := ∀ c ∈ rest.head?, c.isDigit = false

theorem isSpace_of_isDigit {c : Char} (h : c.isDigit = true) : isSpace c = false := by
  have hd := Char.isDigit_iff_toNat.mp h
  have h0 : '0'.toNat = 48 := rfl
  unfold isSpace
  rw [decide_eq_false_iff_not]
  omega

theorem takeWhile_digits {digits rest : List Char} (hd : ∀ c ∈ digits, c.isDigit = true)
    (hr : NoDigit rest) : (digits ++ rest).takeWhile Char.isDigit = digits := by
  rw [List.takeWhile_append_of_pos hd]
  cases rest with
  | nil => simp
  | cons c rest =>
    have hc : c.isDigit = false := hr c rfl
    simp [hc]

theorem dropWhile_digits {digits rest : List Char} (hd : ∀ c ∈ digits, c.isDigit = true)
    (hr : NoDigit rest) : (digits ++ rest).dropWhile Char.isDigit = rest := by
  rw [List.dropWhile_append_of_pos hd]
  cases rest with
  | nil => rfl
  | cons c rest =>
    have hc : c.isDigit = false := hr c rfl
    simp [hc]

/-- A sign in front of digits is read as this sign. -/
theorem sign_text (sg : Sign) {digits : List Char} (hd : ∀ c ∈ digits, c.isDigit = true)
    (hne : digits ≠ []) (rest : List Char) : sign (sg.text ++ (digits ++ rest)) = (sg, digits ++ rest) := by
  cases sg with
  | plus => rfl
  | minus => rfl
  | none =>
    obtain ⟨c, ds, rfl⟩ := List.exists_cons_of_ne_nil hne
    have hc := hd c List.mem_cons_self
    show sign (c :: (ds ++ rest)) = _
    unfold sign
    split
    · next heq =>
      obtain ⟨rfl, -⟩ := List.cons.inj heq
      exact absurd hc (by decide)
    · next heq =>
      obtain ⟨rfl, -⟩ := List.cons.inj heq
      exact absurd hc (by decide)
    · rfl

theorem dropWhile_spaces (sg : Sign) {spaces digits : List Char} (hs : ∀ c ∈ spaces, isSpace c = true)
    (hd : ∀ c ∈ digits, c.isDigit = true) (hne : digits ≠ []) (rest : List Char) :
    (spaces ++ (sg.text ++ (digits ++ rest))).dropWhile isSpace = sg.text ++ (digits ++ rest) := by
  rw [List.dropWhile_append_of_pos hs]
  cases sg with
  | plus => rfl
  | minus => rfl
  | none =>
    obtain ⟨c, ds, rfl⟩ := List.exists_cons_of_ne_nil hne
    have hc := isSpace_of_isDigit (hd c List.mem_cons_self)
    show (c :: (ds ++ rest)).dropWhile isSpace = _
    rw [List.dropWhile_cons, if_neg (by simp [hc])]
    rfl

/-- `strtol` reads a numeral, whatever follows it. -/
theorem strtol_numeral {lo hi : ℤ} (sg : Sign) {spaces digits rest : List Char}
    (hs : ∀ c ∈ spaces, isSpace c = true) (hd : ∀ c ∈ digits, c.isDigit = true) (hne : digits ≠ [])
    (hr : NoDigit rest) :
    strtol lo hi (spaces ++ (sg.text ++ (digits ++ rest))) =
      clamp lo hi (sg.apply (Nat.ofDigitChars 10 digits 0)) rest := by
  unfold strtol
  rw [dropWhile_spaces sg hs hd hne, sign_text sg hd hne]
  dsimp only
  rw [takeWhile_digits hd hr, dropWhile_digits hd hr, if_neg hne]

/-- A text is its sign and what follows. -/
theorem text_sign (str : List Char) : (sign str).1.text ++ (sign str).2 = str := by
  unfold sign
  split <;> rfl

/-- `strtol` reads nothing, or the text begins with a numeral. -/
theorem strtol_cases (lo hi : ℤ) (str : List Char) :
    strtol lo hi str = ⟨0, str, false⟩ ∨
      ∃ spaces sg digits rest, str = spaces ++ (Sign.text sg ++ (digits ++ rest)) ∧
        (∀ c ∈ spaces, isSpace c = true) ∧ (∀ c ∈ digits, c.isDigit = true) ∧ digits ≠ [] ∧
        NoDigit rest ∧ strtol lo hi str = clamp lo hi (sg.apply (Nat.ofDigitChars 10 digits 0)) rest := by
  by_cases hne : (sign (str.dropWhile isSpace)).2.takeWhile Char.isDigit = []
  · exact .inl (if_pos hne)
  have htext : str = str.takeWhile isSpace ++ ((sign (str.dropWhile isSpace)).1.text ++
      ((sign (str.dropWhile isSpace)).2.takeWhile Char.isDigit ++
        (sign (str.dropWhile isSpace)).2.dropWhile Char.isDigit)) := by
    rw [List.takeWhile_append_dropWhile, text_sign, List.takeWhile_append_dropWhile]
  refine .inr ⟨_, _, _, _, htext, fun c hc => List.mem_takeWhile_imp hc,
    fun c hc => List.mem_takeWhile_imp hc, hne, ?_, if_neg hne⟩
  intro c hc
  have := List.head?_dropWhile_not Char.isDigit (sign (str.dropWhile isSpace)).2
  rw [hc] at this
  simpa using this

end Decimal
