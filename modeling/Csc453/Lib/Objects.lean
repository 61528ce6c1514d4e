import Mathlib.Data.List.Perm.Basic

/-!
# Object stores

What a dynamic store is for, without memory: a list of objects, each a base address and its cells, a
cell being `none` until something has been written to it.  `put`, `drop`, `resize` and `write` are
what the owners of the objects do; `Object.Reads` says what a read of an address must give, which a
write and a change of size keep (`Object.reads_write`, `resize_cell`), and `drop_spec` says which
object goes.
-/

namespace Objects

variable {α : Type*}

/-- An object: where it starts, and its cells. -/
structure Object (α : Type*) where
  base : ℕ
  cells : List (Option α)
  deriving DecidableEq

namespace Object

/-- The address lies in the object. -/
def Has (o : Object α) (x : ℕ) : Prop := o.base ≤ x ∧ x < o.base + o.cells.length

instance (o : Object α) (x : ℕ) : Decidable (o.Has x) := instDecidableAnd

/-- A read of `x` gives `v`. -/
def Reads (o : Object α) (x : ℕ) (v : α) : Prop := o.base ≤ x ∧ o.cells[x - o.base]? = some (some v)

theorem Reads.has {o : Object α} {x : ℕ} {v : α} (h : o.Reads x v) : o.Has x := by
  have hlt := (List.getElem?_eq_some_iff.mp h.2).1
  have hle := h.1
  exact ⟨hle, by omega⟩

/-- The cell at `x` overwritten, if it is one of the object's. -/
def write (x : ℕ) (v : α) (o : Object α) : Object α :=
  if o.Has x then { o with cells := o.cells.set (x - o.base) (some v) } else o

@[simp] theorem write_base (x : ℕ) (v : α) (o : Object α) : (o.write x v).base = o.base := by
  unfold write
  split_ifs <;> rfl

@[simp] theorem write_length (x : ℕ) (v : α) (o : Object α) :
    (o.write x v).cells.length = o.cells.length := by
  unfold write
  split_ifs
  · exact List.length_set
  · rfl

theorem write_has {x y : ℕ} {v : α} {o : Object α} : (o.write x v).Has y ↔ o.Has y := by
  unfold Has
  rw [write_base, write_length]

/-- The last value written is read. -/
theorem reads_write {x y : ℕ} {v w : α} {o : Object α} (h : (o.write x v).Reads y w) :
    (y = x ∧ w = v) ∨ (y ≠ x ∧ o.Reads y w) := by
  have hy : o.Has y := write_has.mp h.has
  obtain ⟨hle, hcell⟩ := h
  rw [write_base] at hle hcell
  unfold write at hcell
  by_cases hx : o.Has x
  · rw [if_pos hx] at hcell
    dsimp only at hcell
    by_cases hxy : y = x
    · subst hxy
      rw [List.getElem?_set_self (by unfold Has at hx; omega)] at hcell
      exact Or.inl ⟨rfl, (Option.some.inj (Option.some.inj hcell)).symm⟩
    · rw [List.getElem?_set_ne (by unfold Has at hx; omega)] at hcell
      exact Or.inr ⟨hxy, hle, hcell⟩
  · rw [if_neg hx] at hcell
    exact Or.inr ⟨fun he => hx (he ▸ hy), hle, hcell⟩

end Object

abbrev Store (α : Type*) := List (Object α)

/-- The object around an address. -/
def holder (S : Store α) (x : ℕ) : Option (Object α) := S.find? fun o => o.Has x

def put (p : ℕ) (cells : List (Option α)) (S : Store α) : Store α := ⟨p, cells⟩ :: S

/-- The object around `x` goes. -/
def drop (x : ℕ) (S : Store α) : Store α := S.eraseP fun o => o.Has x

/-- The cells cut or padded to `n`. -/
def resize (n : ℕ) (cells : List (Option α)) : List (Option α) :=
  (cells ++ List.replicate n none).take n

def write (x : ℕ) (v : α) (S : Store α) : Store α := S.map (Object.write x v)

variable {S : Store α} {x n : ℕ} {v : α} {o : Object α} {cells : List (Option α)}

/-! ### Which object goes -/

theorem drop_spec (ho : o ∈ S) (hx : o.Has x) :
    ∃ d ∈ S, d.Has x ∧ holder S x = some d ∧ S.Perm (d :: drop x S) := by
  induction S with
  | nil => exact absurd ho List.not_mem_nil
  | cons a S ih =>
    unfold holder drop at ih ⊢
    by_cases ha : a.Has x
    · refine ⟨a, List.mem_cons_self, ha, List.find?_cons_of_pos (by simpa using ha), ?_⟩
      rw [List.eraseP_cons_of_pos (by simpa using ha)]
    · have hoS : o ∈ S := (List.mem_cons.mp ho).resolve_left fun he => ha (he ▸ hx)
      obtain ⟨d, hd, hdx, hfind, hperm⟩ := ih hoS
      refine ⟨d, List.mem_cons_of_mem _ hd, hdx, ?_, ?_⟩
      · rw [List.find?_cons_of_neg (by simpa using ha), hfind]
      · rw [List.eraseP_cons_of_neg (by simpa using ha)]
        exact (hperm.cons a).trans (List.Perm.swap d a _)

/-- No object is around `x`. -/
theorem drop_none (h : ∀ o ∈ S, ¬ o.Has x) : drop x S = S ∧ holder S x = none :=
  ⟨List.eraseP_of_forall_not (by simpa using h), List.find?_eq_none.mpr (by simpa using h)⟩

theorem mem_of_mem_drop (h : o ∈ drop x S) : o ∈ S := List.mem_of_mem_eraseP h

/-! ### What may be read -/

theorem length_resize (n : ℕ) (cells : List (Option α)) : (resize n cells).length = n := by
  unfold resize
  rw [List.length_take, List.length_append, List.length_replicate]
  omega

/-- A cell of the resized object that can be read was there before. -/
theorem resize_cell {i : ℕ} (h : (resize n cells)[i]? = some (some v)) :
    i < n ∧ cells[i]? = some (some v) := by
  have hi : i < n := by
    have := (List.getElem?_eq_some_iff.mp h).1
    rwa [length_resize] at this
  refine ⟨hi, ?_⟩
  unfold resize at h
  rw [List.getElem?_take_of_lt hi] at h
  by_cases hlt : i < cells.length
  · rwa [List.getElem?_append_left hlt] at h
  · rw [List.getElem?_append_right (Nat.le_of_not_lt hlt)] at h
    have := List.eq_of_mem_replicate (List.mem_of_getElem? h)
    cases this

/-- A fresh cell cannot be read. -/
theorem replicate_none_cell {i : ℕ} : (List.replicate n (none : Option α))[i]? ≠ some (some v) := by
  intro h
  have := List.eq_of_mem_replicate (List.mem_of_getElem? h)
  cases this

@[simp] theorem bases_write : (write x v S).map Object.base = S.map Object.base := by
  unfold write
  rw [List.map_map]
  exact List.map_congr_left fun o _ => Object.write_base x v o

end Objects
