import Mathlib.Tactic

/-!
# Byte memories

A memory is a total map from addresses to bytes.  `load` and `store` read and write little-endian
words of any width, `fill` and `copy` are `memset` and `memcpy`.  Every operation has two lemmas:
what it does inside its range (`load_store`, `fill_inside`, `copy_inside`) and that it does nothing
outside (`store_outside`, `fill_outside`, `copy_outside`).
-/

namespace Bytes

/-- A byte at every address. -/
abbrev Mem := ℕ → UInt8

/-- The little-endian word of `k` bytes at `a`. -/
def load (m : Mem) : ℕ → ℕ → ℕ
  | _, 0 => 0
  | a, k + 1 => (m a).toNat + 256 * load m (a + 1) k

def store (m : Mem) (a k v : ℕ) : Mem :=
  fun x => if a ≤ x ∧ x < a + k then UInt8.ofNat (v / 256 ^ (x - a)) else m x

def fill (m : Mem) (a n : ℕ) (b : UInt8) : Mem :=
  fun x => if a ≤ x ∧ x < a + n then b else m x

def copy (m : Mem) (dst src n : ℕ) : Mem :=
  fun x => if dst ≤ x ∧ x < dst + n then m (src + (x - dst)) else m x

variable {m m' : Mem} {a k v n x : ℕ}

theorem load_congr (h : ∀ x, a ≤ x → x < a + k → m' x = m x) : load m' a k = load m a k := by
  induction k generalizing a with
  | zero => rfl
  | succ k ih =>
    show (m' a).toNat + 256 * load m' (a + 1) k = (m a).toNat + 256 * load m (a + 1) k
    rw [h a le_rfl (by omega), ih fun x h1 h2 => h x (by omega) (by omega)]

theorem load_lt (m : Mem) (a k : ℕ) : load m a k < 256 ^ k := by
  induction k generalizing a with
  | zero => exact Nat.one_pos
  | succ k ih =>
    have h1 := ih (a + 1)
    have h2 : (m a).toNat < 256 := (m a).toNat_lt
    show (m a).toNat + 256 * load m (a + 1) k < 256 ^ (k + 1)
    rw [pow_succ]
    omega

/-- Bytes that are the digits of `v` load as `v`. -/
theorem load_digits (h : ∀ i, i < k → m (a + i) = UInt8.ofNat (v / 256 ^ i)) :
    load m a k = v % 256 ^ k := by
  induction k generalizing a v with
  | zero => simp [load, Nat.mod_one]
  | succ k ih =>
    have hhead : (m a).toNat = v % 256 := by
      have := h 0 (by omega)
      simp only [Nat.add_zero, pow_zero, Nat.div_one] at this
      rw [this]
      exact UInt8.toNat_ofNat
    have htail : load m (a + 1) k = v / 256 % 256 ^ k := by
      refine ih fun i hi => ?_
      rw [show a + 1 + i = a + (i + 1) by omega, h (i + 1) (by omega), Nat.div_div_eq_div_mul,
        pow_succ']
    show (m a).toNat + 256 * load m (a + 1) k = _
    rw [hhead, htail, pow_succ', Nat.mod_mul]

theorem load_store (m : Mem) (a k v : ℕ) : load (store m a k v) a k = v % 256 ^ k := by
  refine load_digits fun i hi => ?_
  rw [store, if_pos ⟨by omega, by omega⟩, show a + i - a = i by omega]

theorem store_outside (h : x < a ∨ a + k ≤ x) : store m a k v x = m x := if_neg (by omega)

theorem fill_inside {b : UInt8} (h1 : a ≤ x) (h2 : x < a + n) : fill m a n b x = b := if_pos ⟨h1, h2⟩

theorem fill_outside {b : UInt8} (h : x < a ∨ a + n ≤ x) : fill m a n b x = m x := if_neg (by omega)

theorem copy_inside {d s : ℕ} (h1 : d ≤ x) (h2 : x < d + n) : copy m d s n x = m (s + (x - d)) :=
  if_pos ⟨h1, h2⟩

theorem copy_outside {d s : ℕ} (h : x < d ∨ d + n ≤ x) : copy m d s n x = m x := if_neg (by omega)

end Bytes
