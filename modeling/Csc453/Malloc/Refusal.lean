import Csc453.Malloc.Runs

/-!
# Csc453.Malloc.Refusal — requests that fail

A request that returns `NULL` was denied by `sbrk` and wrote nothing; at most the padding has been
obtained, and only while the list is empty.  The rest of the allocator reads only memory and list
head (`Alike`), so the same request made again does on the heap after the failure what it does on the
heap before it (`Agree`).
-/

namespace Csc453.Malloc

open Bytes Coalesce Transition

variable {A : Abi}

/-! ### Heaps that differ only for the system -/

/-- The same memory and list. -/
structure Alike (h k : Heap) : Prop where
  mem : k.mem = h.mem
  head : k.heapHead = h.heapHead

/-- Both return the same pointer and leave the same memory and list; with a pointer, also the same
break. -/
def Agree (x y : Option (ℕ × Heap)) : Prop :=
  ∃ p h k, x = some (p, h) ∧ y = some (p, k) ∧ Alike h k ∧ (p ≠ 0 → k.brk = h.brk)

section

variable {h k : Heap}

theorem Alike.of_mem (m : Mem) (ha : Alike h k) : Alike { h with mem := m } { k with mem := m } :=
  ⟨rfl, ha.head⟩

theorem mergeFreeNodes_alike (ha : Alike h k) :
    mergeFreeNodes A k = (mergeFreeNodes A h).map fun h' => { k with mem := h'.mem } := by
  unfold mergeFreeNodes
  rw [ha.mem, ha.head, Option.map_map]
  rfl

theorem splitblock_alike (curr requested : ℕ) (ha : Alike h k) :
    splitblock A curr requested k =
      (splitblock A curr requested h).map fun x => (x.1, { k with mem := x.2.mem }) := by
  unfold splitblock
  dsimp only
  rw [ha.mem]
  split_ifs with hmin
  · rw [mergeFreeNodes_alike (ha.of_mem _), Option.map_map, Option.map_map]
    rfl
  · rw [Option.map_some, ← ha.mem]

theorem useBlock_alike (curr requested : ℕ) (ha : Alike h k) :
    useBlock A curr requested k =
      (useBlock A curr requested h).map fun x => (x.1, { k with mem := x.2.mem }) := by
  unfold useBlock
  rw [ha.mem]
  exact splitblock_alike curr requested (ha.of_mem _)

theorem chainBlock_alike (prev curr cap : ℕ) (ha : Alike h k) :
    Alike (chainBlock A prev curr cap h) (chainBlock A prev curr cap k) := by
  unfold chainBlock
  dsimp only
  rw [ha.mem]
  split_ifs
  · exact ⟨rfl, rfl⟩
  · exact ⟨rfl, ha.head⟩

theorem free_alike (p : ℕ) (ha : Alike h k) :
    free A p k = (free A p h).map fun h' => { k with mem := h'.mem } := by
  have hsame : some k = (some h).map fun h' => { k with mem := h'.mem } := by
    rw [Option.map_some, ← ha.mem]
  have hfind : findblock A p k = findblock A p h := by
    unfold findblock
    rw [ha.mem, ha.head]
  unfold free
  rw [hfind]
  split_ifs with h0
  · exact hsame
  · rcases findblock A p h with _ | curr
    · rfl
    · dsimp only
      rw [ha.mem]
      split_ifs
      · exact hsame
      · exact hsame
      · exact mergeFreeNodes_alike (ha.of_mem _)

/-- A call that only writes memory agrees on alike heaps. -/
theorem Agree.of_map {p : ℕ} {h' : Heap} {f : Heap → Option (ℕ × Heap)}
    (hf : ∀ k, Alike h k → f k = (f h).map fun x => (x.1, { k with mem := x.2.mem }))
    (hs : f h = some (p, h')) (ha : Alike h k) (hb : k.brk = h.brk) : Agree (f h) (f k) := by
  have hk : f k = some (p, { k with mem := h'.mem }) := by rw [hf k ha, hs, Option.map_some]
  have hh : f h = some (p, { h with mem := h'.mem }) :=
    (hf h ⟨rfl, rfl⟩).trans (by rw [hs, Option.map_some])
  exact ⟨p, _, _, hh, hk, ⟨rfl, ha.head⟩, fun _ => hb⟩

theorem free_brk {p : ℕ} {h' : Heap} (hf : free A p h = some h') : h' = { h with mem := h'.mem } := by
  have hself := free_alike (A := A) p (h := h) (k := h) ⟨rfl, rfl⟩
  rw [hf] at hself
  exact Option.some.inj hself

end

/-! ### malloc again -/

section

variable {g : Grants} {n : ℕ} {h k : Heap} {L : List Block}

theorem Untouched.alike {h' : Heap} (hu : Untouched A h h') : Alike h h' := ⟨hu.mem, hu.head⟩

/-- The padding is asked for once. -/
theorem padded_brk (hc : Carries A h L) (hlt : k.brk < A.space)
    (hb : k.brk = h.brk ∨ k.brk = h.brk + paddingAt A h.brk) :
    k.brk + paddingAt A k.brk = h.brk + paddingAt A h.brk := by
  rcases hb with hb | hb
  · rw [hb]
  · have hal := (paddingAt_spec hc.brk_pos hc.brk_lt).2.1 (hb ▸ hlt)
    rw [(paddingAt_spec (by have := hc.brk_pos; omega) hlt).2.2 (hb ▸ hal), hb, Nat.add_zero]

theorem appendGranted_again (size : ℕ) (hc : Carries A h L) (hlt : k.brk < A.space)
    (hb : k.brk = h.brk ∨ k.brk = h.brk + paddingAt A h.brk) :
    AppendGranted A g size k.brk ↔ AppendGranted A g size h.brk := by
  have hS := A.space_facts
  have hpos := hc.brk_pos
  have hsum := padded_brk hc hlt hb
  have hpad : ∀ b, 0 < b → b < A.space → (Granted A g.padding (paddingAt A b) b ↔
      g.padding = true ∧ b + paddingAt A b < A.space) := fun b h0 hlt => by
    have := (paddingAt_spec h0 hlt).1
    exact granted_iff (by unfold Abi.ptrdiffMax; omega) h0
  unfold AppendGranted
  rw [hpad _ (by omega) hlt, hpad _ hpos hc.brk_lt, hsum]

theorem Alike.carries (ha : Alike h k) (hc : Carries A h L) (hle : h.brk ≤ k.brk)
    (hlt : k.brk < A.space) : Carries A k L := by
  have hpos := hc.brk_pos
  refine ⟨?_, hc.spaced.weaken le_rfl hle, hc.separated, by omega, hlt⟩
  rw [ha.mem, ha.head]
  exact hc.chain

/-- A request that found nothing on the list, made again after the padding has been obtained. -/
theorem malloc_again (hq : g.query = true) (hc : Carries A h L) (h0 : 0 < n) (hn : n + 15 < A.space)
    (hsize : A.headerSize + A.roundUp16 n ≤ A.ptrdiffMax) (hno : ∀ b ∈ L, ¬ Fits (A.roundUp16 n) b)
    (ha : Alike h k) (hlt : k.brk < A.space)
    (hb : k.brk = h.brk ∨ k.brk = h.brk + paddingAt A h.brk) :
    Agree (malloc A g n h) (malloc A g n k) := by
  have hS := A.space_facts
  have hH := A.header_facts
  have hadd : A.add A.headerSize (A.roundUp16 n) = A.headerSize + A.roundUp16 n :=
    Abi.add_eq (by unfold Abi.ptrdiffMax at hsize; omega)
  obtain ⟨hr16, -, -, -⟩ := roundUp16_facts h0 hn
  have hck := ha.carries hc (by rcases hb with hb | hb <;> omega) hlt
  have hagain := appendGranted_again (g := g) (A.headerSize + A.roundUp16 n) hc hlt hb
  by_cases hg : AppendGranted A g (A.headerSize + A.roundUp16 n) h.brk
  · obtain ⟨p, h', hm, -, -⟩ := malloc_grown hq hc h0 hn hsize hno hg
    have hsum := padded_brk hc hlt hb
    rw [malloc_append g hc h0 hno, hadd, appendBlock_eq _ hq hc.brk_pos hc.brk_lt hg hsize (by omega)] at hm ⊢
    rw [malloc_append g hck h0 hno, hadd,
      appendBlock_eq _ hq hck.brk_pos hlt (hagain.mpr hg) hsize (by omega), hsum]
    refine Agree.of_map (fun k hk => useBlock_alike _ _ hk) hm
      (chainBlock_alike _ _ _ (h := h.extended A _) ⟨ha.mem, ha.head⟩) ?_
    rw [(chainBlock_keeps _ _ _ _).1, (chainBlock_keeps _ _ _ _).1]
    show k.brk + paddingAt A k.brk + _ = h.brk + paddingAt A h.brk + _
    rw [hsum]
  · obtain ⟨h', hm, hu, -⟩ := malloc_refused hq hc h0 hno (hadd ▸ hg)
    obtain ⟨k', hmk, huk, -⟩ := malloc_refused hq hck h0 hno (hadd ▸ fun hgk => hg (hagain.mp hgk))
    refine ⟨0, h', k', hm, hmk, ⟨?_, ?_⟩, fun hp => absurd rfl hp⟩
    · rw [huk.mem, hu.mem, ha.mem]
    · rw [huk.head, hu.head, ha.head]

end

/-! ### realloc of a block -/

section

variable {g : Grants} {ptr n : ℕ} {h h' : Heap} {L₁ L₂ : List Block} {b : Block}

theorem splitblock_fst {curr requested p : ℕ} (hs : splitblock A curr requested h = some (p, h')) :
    p = A.add curr A.headerSize := by
  unfold splitblock at hs
  dsimp only at hs
  split_ifs at hs
  · obtain ⟨_, _, hp⟩ := Option.map_eq_some_iff.mp hs
    exact (Prod.mk.inj hp).1.symm
  · exact (Prod.mk.inj (Option.some.inj hs)).1.symm

/-- A block that is resized where it is, is returned. -/
theorem splitblock_ne_zero {k : Heap} {r : ℕ} (hc : Carries A h (L₁ ++ b :: L₂)) :
    splitblock A b.addr r k ≠ some (0, h') := by
  intro hs
  have hadd := hc.spaced.add_header hc.brk_lt (b := b) (by simp)
  exact payload_ne_zero b ((splitblock_fst hs).trans hadd).symm

theorem chunk_le_ptrdiffMax (hsize : A.headerSize + A.roundUp16 n ≤ A.ptrdiffMax) :
    chunk (A.roundUp16 n - b.cap) ≤ A.ptrdiffMax := by
  have hS := A.space_facts
  unfold chunk CHUNK_SIZE
  unfold Abi.ptrdiffMax at *
  split_ifs <;> omega

/-- When `realloc` of a pointer into a block returns `NULL`, the block is the last one and `sbrk` did
not let it grow, or `malloc` found no room for the copy. -/
theorem realloc_null (hq : g.query = true) (hc : Carries A h (L₁ ++ b :: L₂)) (hx : b.InPayload A ptr)
    (h0 : 0 < n) (hn : n + 15 < A.space) (hsize : A.headerSize + A.roundUp16 n ≤ A.ptrdiffMax)
    (hr : realloc A g ptr n h = some (0, h')) :
    (b.cap < A.roundUp16 n ∧ ∀ c L₃, L₂ = c :: L₃ → ¬ (c.free ∧ A.roundUp16 n ≤ (b.join A c).cap) ∧
      ∀ f ∈ L₁ ++ b :: L₂, ¬ Fits (A.roundUp16 n) f) ∧ Untouched A h h' ∧ Denied h h' := by
  obtain ⟨-, -, -, hrs⟩ := roundUp16_facts h0 hn
  rw [realloc_inside hc hx h0] at hr
  split_ifs at hr with hsame hshrink
  · exact absurd (Prod.mk.inj (Option.some.inj hr)).1 (payload_ne_zero b)
  · exact absurd hr (splitblock_ne_zero hc)
  have hcap : b.cap < A.roundUp16 n := by omega
  rcases L₂ with _ | ⟨c, L₃⟩
  · refine ⟨⟨hcap, nofun⟩, ?_⟩
    dsimp only at hr
    by_cases hg : Granted A g.grow (chunk (A.roundUp16 n - b.cap)) h.brk
    · rw [(growLast_granted hc hrs hcap (chunk_le_ptrdiffMax hsize) hg).1] at hr
      exact absurd hr (splitblock_ne_zero hc)
    · obtain ⟨h₁, hgrow, hu, hd, -⟩ := growLast_refused hc hrs hcap hg
      obtain rfl := (Prod.mk.inj (Option.some.inj (hgrow.symm.trans hr))).2
      exact ⟨hu, hd⟩
  · dsimp only at hr
    split_ifs at hr with habs
    · exact absurd hr (splitblock_ne_zero hc)
    unfold moveBlock at hr
    rcases hm : malloc A g n h with _ | ⟨p, h₁⟩ <;> rw [hm] at hr
    · cases hr
    dsimp only at hr
    split_ifs at hr with hp
    · obtain rfl := (Prod.mk.inj (Option.some.inj hr)).2
      subst hp
      obtain ⟨hno, hu, hd⟩ := malloc_null hq hc h0 hn hsize hm
      refine ⟨⟨hcap, fun c' L' hL => ?_⟩, hu, hd⟩
      obtain ⟨rfl, rfl⟩ := List.cons.inj hL
      exact ⟨habs, hno⟩
    · obtain ⟨_, _, hpair⟩ := Option.map_eq_some_iff.mp hr
      exact absurd (Prod.mk.inj hpair).1 hp

/-- The failed `realloc` made again. -/
theorem realloc_again {k : Heap} (hq : g.query = true) (hc : Carries A h (L₁ ++ b :: L₂))
    (hx : b.InPayload A ptr) (h0 : 0 < n) (hn : n + 15 < A.space)
    (hsize : A.headerSize + A.roundUp16 n ≤ A.ptrdiffMax) (hcap : b.cap < A.roundUp16 n)
    (hmove : ∀ c L₃, L₂ = c :: L₃ → ¬ (c.free ∧ A.roundUp16 n ≤ (b.join A c).cap) ∧
      ∀ f ∈ L₁ ++ b :: L₂, ¬ Fits (A.roundUp16 n) f)
    (ha : Alike h k) (hb : k.brk = h.brk) : Agree (realloc A g ptr n h) (realloc A g ptr n k) := by
  obtain ⟨-, -, -, hrs⟩ := roundUp16_facts h0 hn
  have hlt : k.brk < A.space := hb ▸ hc.brk_lt
  have hck := ha.carries hc hb.ge hlt
  rw [realloc_inside hc hx h0, realloc_inside hck hx h0, if_neg (by omega), if_neg (by omega),
    if_neg (by omega), if_neg (by omega)]
  rcases L₂ with _ | ⟨c, L₃⟩
  · dsimp only
    by_cases hg : Granted A g.grow (chunk (A.roundUp16 n - b.cap)) h.brk
    · have hsz := chunk_le_ptrdiffMax (b := b) hsize
      obtain ⟨p, h', hs, -⟩ := growLast_outcome ptr hc h0 hn hcap (Or.inl hsz)
      rw [(growLast_granted hc hrs hcap hsz hg).1] at hs ⊢
      rw [(growLast_granted hck hrs hcap hsz (hb.symm ▸ hg)).1]
      refine Agree.of_map (fun k hk => splitblock_alike _ _ hk) hs ⟨?_, ha.head⟩ ?_
      · unfold Heap.regrown
        rw [ha.mem]
      · show k.brk + _ = h.brk + _
        rw [hb]
    · obtain ⟨h', hs, hu, -⟩ := growLast_refused hc hrs hcap hg
      obtain ⟨k', hsk, huk, -⟩ := growLast_refused hck hrs hcap (hb.symm ▸ hg)
      refine ⟨0, h', k', hs, hsk, ⟨?_, ?_⟩, fun hp => absurd rfl hp⟩
      · rw [huk.mem, hu.mem, ha.mem]
      · rw [huk.head, hu.head, ha.head]
  · obtain ⟨habs, hno⟩ := hmove c L₃ rfl
    dsimp only
    rw [if_neg habs, if_neg habs]
    obtain ⟨p, h₁, k₁, hm, hmk, ha₁, hb₁⟩ := malloc_again hq hc h0 hn hsize hno ha hlt (Or.inl hb)
    obtain ⟨q, h', hmv, -⟩ := moveBlock_outcome ptr hq hc h0 hcap habs
      (Or.inl ⟨hn, Or.inr hsize⟩)
    unfold moveBlock at hmv ⊢
    rw [hm] at hmv ⊢
    rw [hmk]
    dsimp only at hmv ⊢
    by_cases hp : p = 0
    · rw [if_pos hp, if_pos hp]
      exact ⟨0, h₁, k₁, rfl, rfl, ha₁, fun h => absurd rfl h⟩
    · rw [if_neg hp] at hmv ⊢
      rw [if_neg hp]
      obtain ⟨h₂, hfr, -⟩ := Option.map_eq_some_iff.mp hmv
      rw [hfr, ha₁.mem, free_alike ptr (ha₁.of_mem _), hfr]
      have hkeep := free_brk hfr
      refine ⟨p, h₂, _, rfl, rfl, ⟨rfl, ?_⟩, fun _ => ?_⟩
      · rw [hkeep]
        exact ha₁.head
      · rw [hkeep]
        exact hb₁ hp

end

/-! ### Out of memory -/

/-- The call `c` that returned `NULL` did no harm: `sbrk` had failed, the list and all bytes are as
before, a block passed to `realloc` can be freed, and the call made again answers as on the heap
before, with a block unless `sbrk` fails again. -/
structure Harmless (A : Abi) (h h' : Heap) (c : Call) : Prop where
  denied : Denied h h'
  list : ∃ L, Chain A h.mem h.heapHead L ∧ Chain A h'.mem h'.heapHead L
  alike : Alike h h'
  padding : h'.brk = h.brk ∨ h'.brk = h.brk + paddingAt A h.brk
  freeable : c.arg ≠ 0 → ∃ L₁ b L₂ h'', Chain A h'.mem h'.heapHead (L₁ ++ b :: L₂) ∧ ¬ b.free ∧
    b.InPayload A c.arg ∧ free A c.arg h' = some h'' ∧
    Chain A h''.mem h''.heapHead (Malloc.merged A (L₁ ++ { b with free := true } :: L₂))
  retry : ∀ g : Grants, g.query = true → Agree (exec A g c h) (exec A g c h') ∧
    ∀ h'', exec A g c h' = some (0, h'') → Denied h' h''

/-- What `malloc` and `calloc`, which has no product to refuse, need of the sizes. -/
theorem Call.SizeOk.facts {c : Call} (hc : c.SizeOk A) :
    c.bytes + 15 < A.space ∧ A.headerSize + A.roundUp16 c.bytes ≤ A.ptrdiffMax := by
  refine ⟨hc.lt_space, ?_⟩
  rw [Abi.roundUp16_eq hc.lt_space]
  exact hc

theorem calloc_agree {g : Grants} {k n : ℕ} {h h' : Heap} (hn : k * n < A.space)
    (ha : Agree (malloc A g (k * n) h) (malloc A g (k * n) h')) :
    Agree (calloc A g k n h) (calloc A g k n h') := by
  obtain ⟨p, h₁, k₁, hm, hmk, ha₁, hb₁⟩ := ha
  rw [calloc_eq g h hn, calloc_eq g h' hn, hm, hmk]
  dsimp only
  split_ifs with hp
  · exact ⟨0, h₁, k₁, rfl, rfl, ha₁, fun h => absurd rfl h⟩
  · rw [ha₁.mem]
    exact ⟨p, _, _, rfl, rfl, ha₁.of_mem _, hb₁⟩

/-- A failed `malloc`, and the same again. -/
theorem malloc_fails {g : Grants} {n : ℕ} {h h' : Heap} {T : Layout A} (hg : g.query = true)
    (hT : Holds h T) (h0 : 0 < n) (hc : Call.SizeOk A (.malloc n)) (hm : malloc A g n h = some (0, h')) :
    Untouched A h h' ∧ Denied h h' ∧
      ∀ g' : Grants, g'.query = true → Agree (malloc A g' n h) (malloc A g' n h') := by
  obtain ⟨hn, hsize⟩ := hc.facts
  obtain ⟨hno, hu, hd⟩ := malloc_null hg hT.carries h0 hn hsize hm
  exact ⟨hu, hd, fun g' hg' => malloc_again hg' hT.carries h0 hn hsize hno hu.alike hu.brk_lt hu.brk⟩

theorem exec_fails {g : Grants} {c : Call} {h h' : Heap} {T : Layout A} (hg : g.query = true)
    (hT : Holds h T) (hd : Demands A h c) (hc : c.SizeOk A) (hx : exec A g c h = some (0, h')) :
    Untouched A h h' ∧ Denied h h' ∧
      ∀ g' : Grants, g'.query = true → Agree (exec A g' c h) (exec A g' c h') := by
  cases c with
  | malloc n => exact malloc_fails hg hT hd hc hx
  | free p => exact hd.elim
  | calloc k n =>
    have hn : k * n < A.space := by
      have hlt : k * n + 15 < A.space := hc.lt_space
      omega
    have hm : malloc A g (k * n) h = some (0, h') := by
      have hx' : calloc A g k n h = some (0, h') := hx
      rw [calloc_eq g h hn] at hx'
      rcases hm : malloc A g (k * n) h with _ | ⟨p, h₁⟩ <;> rw [hm] at hx'
      · cases hx'
      dsimp only at hx'
      split_ifs at hx' with hp
      · rw [hp, (Prod.mk.inj (Option.some.inj hx')).2]
      · exact absurd (Prod.mk.inj (Option.some.inj hx')).1 hp
    obtain ⟨hu, hd, hagain⟩ := malloc_fails hg hT (Nat.mul_pos hd.1 hd.2) hc hm
    exact ⟨hu, hd, fun g' hg' => calloc_agree hn (hagain g' hg')⟩
  | realloc p n =>
    obtain ⟨h0, hp⟩ := hd
    by_cases hp0 : p = 0
    · subst hp0
      have hnull : ∀ (g : Grants) (h : Heap), exec A g (.realloc 0 n) h = malloc A g n h := by
        intro g h
        unfold exec realloc
        exact if_pos rfl
      simp only [hnull] at hx ⊢
      exact malloc_fails hg hT h0 hc hx
    · obtain ⟨L, hL, b, hb, -, hbx⟩ := hp.resolve_left hp0
      obtain rfl := Chain.unique hL hT.chain
      obtain ⟨hn, hsize⟩ := hc.facts
      obtain ⟨L₁, L₂, hL₁⟩ := List.append_of_mem hb
      have hcar := hT.carries
      have hpad := hT.padding (List.ne_nil_of_mem hb)
      rw [hL₁] at hcar
      obtain ⟨⟨hcap, hmove⟩, hu, hd⟩ := realloc_null hg hcar hbx h0 hn hsize hx
      refine ⟨hu, hd, fun g' hg' => ?_⟩
      have hbrk : h'.brk = h.brk := by
        rcases hu.brk with hbrk | hbrk
        · exact hbrk
        · rw [hbrk, hpad, Nat.add_zero]
      exact realloc_again hg' hcar hbx h0 hn hsize hcap hmove hu.alike hbrk

/-- **Out of memory leaves the heap alone.**  In a run whose sizes are bounded and whose queries
`sbrk(0)` are answered, every such request that returns `NULL` was harmless. -/
theorem out_of_memory {hist : List (Event Heap Label)} {h h' : Heap} (hr : Run (allocator A) hist h)
    (hs : ∀ e ∈ hist, SizesOk A e.label) (hq : ∀ e ∈ hist, Queried A e.pre e.label) {c : Call} {g : Grants}
    (hd : Demands A h c) (hc : c.SizeOk A) (hg : g.query = true)
    (hx : exec A g c h = some (0, h')) : Harmless A h h' c := by
  obtain ⟨T, hT⟩ := run_holds_of_sizes hr hs hq
  obtain ⟨hu, hden, hagain⟩ := exec_fails hg hT hd hc hx
  have hT' := (hu.refused hT).holds
  refine ⟨hden, ⟨T.blocks, hT.chain, hT'.chain⟩, hu.alike, hu.brk, fun harg => ?_, fun g' hg' =>
    ⟨hagain g' hg', fun h'' hx' => ?_⟩⟩
  · obtain ⟨L, hL, b, hb, hbf, hbx⟩ : Live A h c.arg := by
      cases c with
      | free p => exact hd.elim
      | realloc p n => exact hd.2.resolve_left harg
      | _ => exact absurd rfl harg
    obtain rfl := Chain.unique hL hT.chain
    obtain ⟨L₁, L₂, hL₁⟩ := List.append_of_mem hb
    have hcar := hT'.carries
    rw [hL₁] at hcar
    obtain ⟨m', hfr, hre⟩ := free_used hcar hbf hbx
    exact ⟨L₁, b, L₂, _, hcar.chain, hbf, hbx, hfr, hre.chain⟩
  · have hd' : Demands A h' c := by
      cases c with
      | realloc p n =>
        refine ⟨hd.1, hd.2.imp_right ?_⟩
        rintro ⟨L, hL, hlive⟩
        obtain rfl := Chain.unique hL hT.chain
        exact ⟨T.blocks, hT'.chain, hlive⟩
      | _ => exact hd
    exact (exec_fails hg' hT' hd' hc hx').2.1

/-- The first `malloc` is refused after the padding. -/
theorem out_of_memory_first : ∃ h, exec abi64 { allGranted with block := false } (.malloc 1)
    { freshHeap with brk := 4097 } = some (0, h) ∧ Harmless abi64 { freshHeap with brk := 4097 } h (.malloc 1) ∧
      h.brk = 4112 := by
  obtain ⟨h, hx, hbrk⟩ : ∃ h, exec abi64 { allGranted with block := false } (.malloc 1)
      { freshHeap with brk := 4097 } = some (0, h) ∧ h.brk = 4112 := ⟨_, rfl, by decide +kernel⟩
  exact ⟨h, hx, out_of_memory (.init ⟨rfl, by decide, by decide⟩) nofun nofun Nat.one_pos
    malloc_one_sizeOk rfl hx, hbrk⟩

end Csc453.Malloc
