import Mathlib.Tactic

/-!
# Binary semaphores and ordered acquisition

`Binary v P`: a semaphore of value `v` used as a lock, where `P a` says that agent `a` is between
its wait and its post.  The value is at most `1`, it is `1` exactly when nobody is inside, and at
most one agent is.  `Binary.acquire`, `Binary.release` and `Binary.congr` are the three ways a step
of a system can touch it.

`not_blocked_of_ordered` is the ordered-resource argument against deadlock: if whoever is blocked on
a lock finds it held by somebody who is blocked too, and everybody waits only for locks ranked above
those it holds, then nobody is blocked.
-/

namespace Semaphore

variable {A : Type*}

/-- A semaphore of value `v` whose holders are the agents satisfying `P`. -/
structure Binary (v : ℕ) (P : A → Prop) : Prop where
  le_one : v ≤ 1
  free_iff : v = 1 ↔ ∀ a, ¬ P a
  unique : ∀ a b, P a → P b → a = b

namespace Binary

variable {v : ℕ} {P Q : A → Prop}

/-- A free semaphore. -/
theorem free (h : ∀ a, ¬ P a) : Binary 1 P :=
  ⟨le_rfl, ⟨fun _ => h, fun _ => rfl⟩, fun a _ ha => absurd ha (h a)⟩

theorem held (hb : Binary v P) {a : A} (ha : P a) : v = 0 := by
  have h1 : v ≠ 1 := fun h => hb.free_iff.mp h a ha
  have := hb.le_one
  omega

theorem exists_holder (hb : Binary v P) (hv : v = 0) : ∃ a, P a := by
  by_contra h
  have := hb.free_iff.mpr fun a ha => h ⟨a, ha⟩
  omega

/-- A wait that gets through: `a` is the new holder. -/
theorem acquire (hb : Binary v P) (hv : v ≠ 0) {a : A} (ha : Q a)
    (hQ : ∀ b, b ≠ a → (Q b ↔ P b)) : Binary (v - 1) Q := by
  have h1 : v = 1 := by have := hb.le_one; omega
  have hno := hb.free_iff.mp h1
  have honly : ∀ b, Q b → b = a := fun b hb' => by
    by_contra hne
    exact hno b ((hQ b hne).mp hb')
  refine ⟨by omega, ⟨fun h => by omega, fun h => absurd ha (h a)⟩, fun b c hb' hc => ?_⟩
  rw [honly b hb', honly c hc]

/-- A post by the holder `a`. -/
theorem release (hb : Binary v P) {a : A} (ha : P a) (hna : ¬ Q a)
    (hQ : ∀ b, b ≠ a → (Q b ↔ P b)) : Binary (v + 1) Q := by
  rw [hb.held ha]
  refine free fun b hb' => ?_
  by_cases hba : b = a
  · exact hna (hba ▸ hb')
  · exact hba (hb.unique b a ((hQ b hba).mp hb') ha)

/-- A step that neither waits nor posts. -/
theorem congr (hb : Binary v P) (hQ : ∀ b, Q b ↔ P b) : Binary v Q := by
  refine ⟨hb.le_one, hb.free_iff.trans ?_, fun a b ha hb' => ?_⟩
  · exact forall_congr' fun a => not_congr (hQ a).symm
  · exact hb.unique a b ((hQ a).mp ha) ((hQ b).mp hb')

end Binary

/-- **Ordered acquisition excludes deadlock.**  `W a l`: `a` is blocked on `l`; `H a l`:
`a` holds `l`. -/
theorem not_blocked_of_ordered {L : Type*} {W H : A → L → Prop} (rank : L → ℕ) (B : ℕ)
    (hB : ∀ l, rank l ≤ B) (horder : ∀ a l m, H a l → W a m → rank l < rank m)
    (hheld : ∀ a l, W a l → ∃ b m, H b l ∧ W b m) (a : A) (l : L) : ¬ W a l := by
  -- the holder of what `a` waits for waits for something ranked higher
  have key : ∀ k a l, B - rank l = k → ¬ W a l := by
    intro k
    induction k using Nat.strong_induction_on with
    | _ k ih =>
      intro a l hk hw
      obtain ⟨b, m, hbl, hbm⟩ := hheld a l hw
      have h1 := horder b l m hbl hbm
      have h2 := hB m
      exact ih (B - rank m) (by omega) b m rfl hbm
  exact key _ a l rfl

end Semaphore
