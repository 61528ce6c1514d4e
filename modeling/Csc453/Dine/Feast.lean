import Csc453.Dine.Shares

/-!
# Csc453.Dine.Feast — who can eat at the same time

No two neighbours eat together, and this is the only restriction: any philosophers no two of whom are
neighbours can be served one after the other from the start (`serve`), since the forks of the next one
are still on the table.  Result: `who_can_eat`.
-/

namespace Csc453.Dine

open Transition

variable {N c : ℕ} {i : Fin N} {t : Table N}

/-! ### Serving one philosopher -/

/-- A fork that is on the table can be taken. -/
theorem grab_block (h : Reachable (dine N c) t) {o : Ord} (hpc : (t.phil i).pc = .grab o)
    (hfork : t.fork (forkAt i (side i o)) = 1) :
    ∃ u, Reachable (dine N c) u ∧ u.phil = Function.update t.phil i (advance i (t.phil i)) ∧
      u.fork = Function.update t.fork (forkAt i (side i o)) 0 ∧ u.printing = t.printing := by
  have hstep : (dine N c).step t i ((t.setFork (forkAt i (side i o)) 0).setPhil i (advance i (t.phil i))) := by
    show (semCall i t).map _ = _
    unfold semCall
    rw [hpc]
    dsimp only
    rw [hfork, if_neg (by decide)]
    rfl
  exact ⟨_, h.step hstep, rfl, rfl, rfl⟩

theorem advance_unlock {p : Phil} {b : Blk} (h : p.pc = .unlock b) : advance i p = resume b p := by
  unfold advance
  rw [h]

/-- A printing block that does not post a fork goes through if nobody prints. -/
theorem print_block (h : Reachable (dine N c) t) {b : Blk} (hpc : (t.phil i).pc = .lock b)
    (hb : (advance i (t.phil i)).pc = .unlock b) (hprinting : t.printing = 1) :
    ∃ u, Reachable (dine N c) u ∧
      u.phil = Function.update t.phil i (resume b (advance i (t.phil i))) ∧ u.fork = t.fork ∧
      u.printing = 1 := by
  have hlock : (dine N c).step t i ({ t with printing := 0 }.setPhil i (advance i (t.phil i))) := by
    show (semCall i t).map _ = _
    unfold semCall
    rw [hpc]
    dsimp only
    rw [hprinting, if_neg (by decide)]
    rfl
  have hself : ({ t with printing := 0 }.setPhil i (advance i (t.phil i))).phil i = advance i (t.phil i) :=
    Function.update_self ..
  have hunlock : (dine N c).step ({ t with printing := 0 }.setPhil i (advance i (t.phil i))) i
      ({ t with printing := 1 }.setPhil i (resume b (advance i (t.phil i)))) := by
    show (semCall i _).map _ = _
    unfold semCall
    rw [hself, hb]
    show some _ = some _
    rw [advance_unlock hb]
    unfold Table.setPhil
    simp only [Function.update_idem]
  exact ⟨_, (h.step hlock).step hunlock, rfl, rfl, rfl⟩

/-- **Serving a philosopher**: a hungry one whose forks are on the table can be brought to eat, while
nobody else moves. -/
theorem serve (hN : 2 ≤ N) (h : Reachable (dine N c) t) {n : ℕ}
    (hi : t.phil i = ⟨.grab .first, .changing, false, false, n⟩) (hforks : ∀ s, t.fork (forkAt i s) = 1)
    (hprinting : t.printing = 1) :
    ∃ u, Reachable (dine N c) u ∧ (u.phil i).state = .eating ∧ (∀ j, j ≠ i → u.phil j = t.phil j) ∧
      (∀ k, (∀ s, k ≠ forkAt i s) → u.fork k = t.fork k) ∧ u.printing = 1 := by
  obtain ⟨t1, h1, hp1, hf1, hl1⟩ := grab_block h (i := i) (o := .first) (by rw [hi]) (hforks _)
  have hi1 := congrFun hp1 i
  rw [Function.update_self, hi] at hi1
  obtain ⟨t2, h2, hp2, hf2, hl2⟩ := print_block h1 (i := i) (b := .took .first) (by rw [hi1]; rfl)
    (by rw [hi1]; rfl) (hl1.trans hprinting)
  have hi2 := congrFun hp2 i
  rw [Function.update_self, hi1] at hi2
  have hsecond : t2.fork (forkAt i (side i .second)) = 1 := by
    rw [hf2, hf1, Function.update_of_ne]
    · exact hforks _
    · exact fun heq => side_ne i (forkAt_inj hN heq).symm
  obtain ⟨t3, h3, hp3, hf3, hl3⟩ := grab_block h2 (i := i) (o := .second) (by rw [hi2]; rfl) hsecond
  have hi3 := congrFun hp3 i
  rw [Function.update_self, hi2] at hi3
  obtain ⟨t4, h4, hp4, hf4, hl4⟩ := print_block h3 (i := i) (b := .took .second) (by rw [hi3]; rfl)
    (by rw [hi3]; rfl) (hl3.trans hl2)
  have hi4 := congrFun hp4 i
  rw [Function.update_self, hi3] at hi4
  obtain ⟨t5, h5, hp5, hf5, hl5⟩ := print_block h4 (i := i) (b := .eat) (by rw [hi4]; rfl)
    (by rw [hi4]; rfl) hl4
  have hi5 := congrFun hp5 i
  rw [Function.update_self, hi4] at hi5
  refine ⟨t5, h5, ?_, fun j hj => ?_, fun k hk => ?_, hl5⟩
  · rw [hi5]
    rfl
  · rw [hp5, Function.update_of_ne hj, hp4, Function.update_of_ne hj, hp3, Function.update_of_ne hj, hp2,
      Function.update_of_ne hj, hp1, Function.update_of_ne hj]
  · rw [hf5, hf4, hf3, Function.update_of_ne (hk _), hf2, hf1, Function.update_of_ne (hk _)]

/-! ### Serving many -/

/-- No two of the philosophers are neighbours. -/
def Apart (E : Finset (Fin N)) : Prop := ∀ i ∈ E, rightNeighbour i ∉ E

/-- The philosophers of `E` eat, and the others have not begun. -/
structure Served (E : Finset (Fin N)) (c : ℕ) (t : Table N) : Prop where
  eating : ∀ i ∈ E, (t.phil i).state = .eating
  hungry : ∀ i ∉ E, t.phil i = ⟨.grab .first, .changing, false, false, c⟩
  fork : ∀ k, (∀ i ∈ E, ∀ s, k ≠ forkAt i s) → t.fork k = 1
  printing : t.printing = 1

/-- Philosophers that share a fork are neighbours. -/
theorem forkAt_eq {i j : Fin N} {s s' : Side} (hne : i ≠ j) (h : forkAt i s = forkAt j s') :
    j = rightNeighbour i ∨ i = rightNeighbour j := by
  cases s <;> cases s'
  · exact absurd h hne
  · exact .inr h
  · exact .inl h.symm
  · exact absurd (rightFork_inj h) hne

theorem exists_served (hN : 2 ≤ N) (hc : 1 ≤ c) (E : Finset (Fin N)) (hE : Apart E) :
    ∃ t, Reachable (dine N c) t ∧ Served E c t := by
  induction E using Finset.induction_on with
  | empty =>
    exact ⟨initial N c, .init rfl, nofun, fun i _ => initial_phil hc i, fun _ _ => rfl, rfl⟩
  | insert i E hi ih =>
    obtain ⟨t, ht, hserved⟩ := ih fun j hj hmem =>
      hE j (Finset.mem_insert_of_mem hj) (Finset.mem_insert_of_mem hmem)
    have hfree : ∀ s, t.fork (forkAt i s) = 1 := by
      refine fun s => hserved.fork _ fun j hj s' heq => ?_
      have hne : i ≠ j := fun h => hi (h ▸ hj)
      rcases forkAt_eq hne heq with h | h
      · exact hE i (Finset.mem_insert_self ..) (h ▸ Finset.mem_insert_of_mem hj)
      · exact hE j (Finset.mem_insert_of_mem hj) (h ▸ Finset.mem_insert_self ..)
    obtain ⟨u, hu, heats, hother, hfork, hprinting⟩ :=
      serve hN ht (hserved.hungry i hi) hfree hserved.printing
    refine ⟨u, hu, fun j hj => ?_, fun j hj => ?_, fun k hk => ?_, hprinting⟩
    · rcases Finset.mem_insert.mp hj with rfl | hj
      · exact heats
      · rw [hother j fun h => hi (h ▸ hj)]
        exact hserved.eating j hj
    · rw [Finset.mem_insert, not_or] at hj
      rw [hother j hj.1]
      exact hserved.hungry j hj.2
    · rw [hfork k fun s => hk i (Finset.mem_insert_self ..) s]
      exact hserved.fork k fun j hj s => hk j (Finset.mem_insert_of_mem hj) s

/-! ### How many -/

/-- The philosophers that eat. -/
def eaters (t : Table N) : Finset (Fin N) := Finset.univ.filter fun i => (t.phil i).state = .eating

theorem mem_eaters {i : Fin N} : i ∈ eaters t ↔ (t.phil i).state = .eating := by simp [eaters]

theorem Apart.card_le {E : Finset (Fin N)} (hE : Apart E) : E.card ≤ N / 2 := by
  have hdisjoint : Disjoint E (E.image rightNeighbour) := by
    rw [Finset.disjoint_left]
    intro i hi hmem
    obtain ⟨j, hj, rfl⟩ := Finset.mem_image.mp hmem
    exact hE j hj hi
  have hinj : Function.Injective (rightNeighbour (N := N)) := fun i j h => rightFork_inj h
  have hcard := Finset.card_le_univ (E ∪ E.image rightNeighbour)
  rw [Finset.card_union_of_disjoint hdisjoint, Finset.card_image_of_injective E hinj, Fintype.card_fin] at hcard
  omega

/-- Every other philosopher, from the first on, but for the last one of an odd table. -/
def everyOther (N : ℕ) : Finset (Fin N) :=
  Finset.univ.filter fun i : Fin N => (i : ℕ) % 2 = 0 ∧ (i : ℕ) + 1 < N

theorem apart_everyOther (N : ℕ) : Apart (everyOther N) := by
  intro i hi hmem
  simp only [everyOther, Finset.mem_filter, Finset.mem_univ, true_and] at hi hmem
  have hval : ((rightNeighbour i : Fin N) : ℕ) = i + 1 := Nat.mod_eq_of_lt hi.2
  rw [hval] at hmem
  omega

theorem card_everyOther (N : ℕ) : (everyOther N).card = N / 2 := by
  refine le_antisymm (apart_everyOther N).card_le ?_
  have hinj : Function.Injective fun k : Fin (N / 2) => (⟨2 * k, by omega⟩ : Fin N) := by
    intro k l h
    ext
    have hval : 2 * (k : ℕ) = 2 * l := congrArg Fin.val h
    omega
  have himage : (Finset.univ.image fun k : Fin (N / 2) => (⟨2 * k, by omega⟩ : Fin N)) ⊆ everyOther N := by
    intro i hi
    obtain ⟨k, -, rfl⟩ := Finset.mem_image.mp hi
    simp only [everyOther, Finset.mem_filter, Finset.mem_univ, true_and]
    omega
  have hle := Finset.card_le_card himage
  rwa [Finset.card_image_of_injective _ hinj, Finset.card_univ, Fintype.card_fin] at hle

theorem apart_eaters (hN : 2 ≤ N) (hc : 1 ≤ c) (h : Reachable (dine N c) t) : Apart (eaters t) := by
  intro i hi hmem
  exact ((reachable_inv hc h).exclusive hN).neighbours i ⟨mem_eaters.mp hi, mem_eaters.mp hmem⟩

theorem exists_eaters (hN : 2 ≤ N) (hc : 1 ≤ c) {E : Finset (Fin N)} (hE : Apart E) :
    ∃ t, Reachable (dine N c) t ∧ eaters t = E := by
  obtain ⟨t, ht, hserved⟩ := exists_served hN hc E hE
  refine ⟨t, ht, ?_⟩
  ext i
  rw [mem_eaters]
  refine ⟨fun he => ?_, hserved.eating i⟩
  by_contra hi
  rw [hserved.hungry i hi] at he
  cases he

/-- Exactly the sets of philosophers without neighbours are the eaters of some state, and at most half
of the table eats, which happens. -/
structure Feasts (N c : ℕ) : Prop where
  exactly : ∀ E : Finset (Fin N), (∃ t, Reachable (dine N c) t ∧ eaters t = E) ↔ Apart E
  most : IsGreatest {n | ∃ t, Reachable (dine N c) t ∧ (eaters t).card = n} (N / 2)

/-- **Who can eat at the same time.** -/
theorem who_can_eat (hN : 2 ≤ N) (hc : 1 ≤ c) : Feasts N c where
  exactly E := by
    constructor
    · rintro ⟨t, ht, rfl⟩
      exact apart_eaters hN hc ht
    · exact exists_eaters hN hc
  most := by
    constructor
    · obtain ⟨t, ht, heaters⟩ := exists_eaters hN hc (apart_everyOther N)
      exact ⟨t, ht, by rw [heaters, card_everyOther]⟩
    · rintro n ⟨t, ht, rfl⟩
      exact (apart_eaters hN hc ht).card_le

theorem who_can_eat_five : Feasts 5 1 := who_can_eat (by decide) (by decide)

end Csc453.Dine
