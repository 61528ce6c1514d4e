import Mathlib.Tactic

/-!
# Descriptor tables

A process numbers its open files: `Table φ` gives the file at each descriptor.  `lowest` is the
descriptor the next `open` gets, below the limit on open files; `put`, `close` and `dup2` change the
table at one place, so a table is known from the last change at each place (`put_of_ne`,
`close_of_ne`).
-/

namespace Descriptors

/-- The file open at each descriptor. -/
abbrev Table (φ : Type*) := ℕ → Option φ

variable {φ : Type*}

/-- The lowest descriptor below `limit` that is not in use. -/
def lowest (limit : ℕ) (t : Table φ) : Option ℕ := (List.range limit).find? fun i => (t i).isNone

def put (i : ℕ) (f : φ) (t : Table φ) : Table φ := Function.update t i (some f)

def close (i : ℕ) (t : Table φ) : Table φ := Function.update t i none

/-- `dup2(old, new)`: it fails if `old` is not open or `new` is past the limit; what was open at
`new` is closed, except that nothing happens if the two are equal. -/
def dup2 (limit old new : ℕ) (t : Table φ) : Option (Table φ) :=
  match t old with
  | none => none
  | some f => if limit ≤ new then none else if old = new then some t else some (put new f t)

/-- What an exiting process leaves open. -/
def closed : Table φ := fun _ => none

/-- A file is open somewhere below the limit. -/
def Open (limit : ℕ) (t : Table φ) (f : φ) : Prop := ∃ i, i < limit ∧ t i = some f

instance [DecidableEq φ] (limit : ℕ) (t : Table φ) (f : φ) : Decidable (Open limit t f) :=
  inferInstanceAs (Decidable (∃ i, i < limit ∧ t i = some f))

@[simp] theorem put_self (i : ℕ) (f : φ) (t : Table φ) : put i f t i = some f :=
  Function.update_self ..

theorem put_of_ne {i j : ℕ} (h : j ≠ i) (f : φ) (t : Table φ) : put i f t j = t j :=
  Function.update_of_ne h ..

@[simp] theorem close_self (i : ℕ) (t : Table φ) : close i t i = none := Function.update_self ..

theorem close_of_ne {i j : ℕ} (h : j ≠ i) (t : Table φ) : close i t j = t j :=
  Function.update_of_ne h ..

theorem put_apply (i j : ℕ) (f : φ) (t : Table φ) : put i f t j = if j = i then some f else t j :=
  Function.update_apply ..

theorem close_apply (i j : ℕ) (t : Table φ) : close i t j = if j = i then none else t j :=
  Function.update_apply ..

/-- The lowest free descriptor is free, and those below it are in use. -/
theorem lowest_eq_some {limit i : ℕ} {t : Table φ} :
    lowest limit t = some i ↔ t i = none ∧ i < limit ∧ ∀ j < i, t j ≠ none := by
  unfold lowest
  rw [List.find?_range_eq_some]
  simp [Option.isNone_iff_eq_none, Option.isSome_iff_ne_none]

theorem exists_lowest {limit i : ℕ} {t : Table φ} (hi : i < limit) (h : t i = none) :
    ∃ j, lowest limit t = some j := by
  refine Option.isSome_iff_exists.mp (List.find?_isSome.mpr ⟨i, List.mem_range.mpr hi, ?_⟩)
  rw [h]
  rfl

theorem exists_dup2 {limit old new : ℕ} {t : Table φ} (hold : t old ≠ none) (hnew : new < limit) :
    ∃ u, dup2 limit old new t = some u := by
  obtain ⟨f, hf⟩ := Option.ne_none_iff_exists'.mp hold
  unfold dup2
  rw [hf]
  dsimp only
  rw [if_neg (by omega)]
  split_ifs
  · exact ⟨t, rfl⟩
  · exact ⟨put new f t, rfl⟩

theorem not_open_closed (limit : ℕ) (f : φ) : ¬ Open limit closed f := fun ⟨_, _, h⟩ => nomatch h

end Descriptors
