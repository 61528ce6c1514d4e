import Csc453.Malloc.Runs

/-!
# Csc453.Malloc.Laws — what undoes what

`malloc_free_inverse`: freeing what `malloc` returned gives the old list back, or the old list with
the new chunk appended.  `frees_commute`: the list after a set of blocks has been freed does not
depend on the order.  `shrink_grow_identity`: a block shrunk by `realloc` and grown back leaves the
list as it was.  All three rest on `free_merged`: marking a block free and merging may be done
before or after the list is merged.
-/

namespace Csc453.Malloc

open Bytes Coalesce Transition

variable {A : Abi}

/-! ### Merging in parts -/

theorem merged_append_congr {M N : List Block} (h : merged A M = merged A N) (L : List Block) :
    merged A (L ++ M) = merged A (L ++ N) := coalesce_append_congr h L

theorem merged_append_of_not {b : Block} (hb : ¬ b.free) (L M : List Block) :
    merged A (L ++ b :: M) = merged A L ++ b :: merged A M := coalesce_append_of_not hb L M

theorem merged_of_separated {L : List Block} (h : NoAdjacentFree L) : merged A L = L :=
  coalesce_of_separated h

theorem merged_around (L M : List Block) (b : Block) :
    merged A (merged A L ++ b :: merged A M) = merged A (L ++ b :: M) := by
  have hM : merged A (b :: merged A M) = merged A (b :: M) := coalesce_append_coalesce [b] M
  rw [merged_append_congr hM (merged A L)]
  exact coalesce_coalesce_append (coalescing A) L (b :: M)

/-- **free** of a block of a list that has been merged since: the mark may as well have been made
before. -/
theorem free_merged {x : ℕ} {h : Heap} {L M : List Block} {b : Block}
    (hc : Carries A h (merged A (L ++ b :: M))) (hbf : ¬ b.free) (hx : b.InPayload A x) :
    ∃ m', free A x h = some { h with mem := m' } ∧
      Carries A { h with mem := m' } (merged A (L ++ { b with free := true } :: M)) := by
  rw [merged_append_of_not hbf] at hc
  obtain ⟨m', hm', hre⟩ := free_used hc hbf hx
  have hc' := hre.carries
  rw [merged_around] at hc'
  exact ⟨m', hm', hc'⟩

/-- A block and what was split off from it merge to the block. -/
theorem splitList_merged {f : Block} {r : ℕ} (hf : f.free) (hr : r ≤ f.cap) :
    ∃ u N, used A f r = u :: N ∧ ¬ u.free ∧ u.addr = f.addr ∧ r ≤ u.cap ∧
      ∀ M, merged A ({ u with free := true } :: (N ++ M)) = merged A (f :: M) := by
  obtain ⟨a, c, _⟩ := f
  obtain rfl : _ = true := hf
  unfold used
  by_cases hmin : A.headerSize + MINIMUM_PAYLOAD_SIZE ≤ c - r
  · rw [splitList_of_le (b := ⟨a, c, false⟩) hmin]
    refine ⟨_, _, rfl, by simp, rfl, le_rfl, fun M => ?_⟩
    rw [List.singleton_append, merged_cons_free (by rfl) (by rfl)]
    have hcap : r + (A.headerSize + (c - r - A.headerSize)) = c := by
      dsimp only at hr
      omega
    unfold Block.join
    dsimp only
    rw [hcap]
  · rw [splitList_of_lt (b := ⟨a, c, false⟩) (not_le.mp hmin)]
    exact ⟨_, _, rfl, by simp, rfl, hr, fun M => rfl⟩

/-! ### free undoes malloc -/

/-- `h` has a block with payload `p`, and freeing it through any pointer into the payload leads to
`Q`. -/
def FreedTo (A : Abi) (h : Heap) (p : ℕ) (Q : Heap → Prop) : Prop :=
  ∃ K, Chain A h.mem h.heapHead K ∧ ∃ u ∈ K, p = u.payload A ∧
    ∀ k < u.cap, ∃ h', free A (p + k) h = some h' ∧ Q h'

/-- The list with the free block `f` appended, merged into the last block if that one is free. -/
def appendFree (A : Abi) (f : Block) : List Block → List Block
  | [] => [f]
  | [z] => if z.free then [z.join A f] else [z, f]
  | b :: c :: L => b :: appendFree A f (c :: L)

theorem appendFree_head (f c : Block) (L : List Block) :
    ∃ d N, appendFree A f (c :: L) = d :: N ∧ d.free = c.free := by
  rcases L with _ | ⟨d, L⟩
  · by_cases hc : c.free
    · exact ⟨c.join A f, [], if_pos hc, rfl⟩
    · exact ⟨c, [f], if_neg hc, rfl⟩
  · exact ⟨c, _, rfl, rfl⟩

theorem merged_append_free {f : Block} (hf : f.free) {L : List Block} (hL : NoAdjacentFree L) :
    merged A (L ++ [f]) = appendFree A f L := by
  induction L with
  | nil => rfl
  | cons b L ih =>
    rcases L with _ | ⟨c, L⟩
    · by_cases hb : b.free
      · show merged A [b, f] = if b.free then _ else _
        rw [if_pos hb, merged_cons_free hb hf]
        rfl
      · show merged A [b, f] = if b.free then _ else _
        rw [if_neg hb, merged_cons_used hb]
        rfl
    · unfold NoAdjacentFree Separated at hL ih
      rw [List.isChain_cons_cons] at hL
      obtain ⟨d, N, hd, hdc⟩ := appendFree_head (A := A) f c L
      show push Block.free (Block.join A) b (merged A (c :: L ++ [f])) = b :: appendFree A f (c :: L)
      rw [ih hL.2, hd]
      refine if_neg ?_
      rw [hdc]
      exact hL.1

/-- Freeing a block that was split off `f`, in a list merged since. -/
theorem freedTo_of_used {h : Heap} {L M : List Block} {f : Block} {r : ℕ}
    (hc : Carries A h (merged A (L ++ (used A f r ++ M)))) (hf : f.free) (hr : r ≤ f.cap) :
    FreedTo A h (f.payload A) fun h' => Carries A h' (merged A (L ++ f :: M)) := by
  obtain ⟨u, N, hu, huf, hua, _, hmer⟩ := splitList_merged (A := A) hf hr
  rw [hu, List.cons_append] at hc
  refine ⟨_, hc.chain, u, (mem_merged_of_used huf).mpr (by simp), payload_congr hua.symm, fun k hk => ?_⟩
  have hx : u.InPayload A (f.payload A + k) := by
    unfold Block.InPayload Block.fin Block.payload
    omega
  obtain ⟨m', hm', hc'⟩ := free_merged hc huf hx
  rw [merged_append_congr (hmer M) L] at hc'
  exact ⟨_, hm', hc'⟩

theorem FreedTo.mono {h : Heap} {p : ℕ} {P Q : Heap → Prop} (hf : FreedTo A h p P)
    (hPQ : ∀ h', P h' → Q h') : FreedTo A h p Q := by
  obtain ⟨K, hK, u, hu, hpu, hall⟩ := hf
  refine ⟨K, hK, u, hu, hpu, fun k hk => ?_⟩
  obtain ⟨h', hfr, hP⟩ := hall k hk
  exact ⟨h', hfr, hPQ h' hP⟩

/-- `p` is the payload of the lowest block of `L` that is free and has room for `n` bytes. -/
def LowestFit (A : Abi) (n : ℕ) (L : List Block) (p : ℕ) : Prop :=
  ∃ f ∈ L, Fits (A.roundUp16 n) f ∧ p = f.payload A ∧ ∀ c ∈ L, Fits (A.roundUp16 n) c → f.addr ≤ c.addr

theorem LowestFit.unique {n p q : ℕ} {L : List Block} (hp : LowestFit A n L p) (hq : LowestFit A n L q) :
    p = q := by
  obtain ⟨f, hf, hff, rfl, hfmin⟩ := hp
  obtain ⟨f', hf', hff', rfl, hfmin'⟩ := hq
  exact payload_congr (le_antisymm (hfmin f' hf' hff') (hfmin' f hf hff))

/-- What `malloc (n)` with result `p` does to the list `L`, and how `free` undoes it. -/
structure MallocLaw (A : Abi) (n : ℕ) (h h' : Heap) (L : List Block) (p : ℕ) : Prop where
  sbrk_only : h'.sbrks ≠ h.sbrks → ∀ b ∈ L, ¬ Fits (A.roundUp16 n) b
  reused : (∃ b ∈ L, Fits (A.roundUp16 n) b) → LowestFit A n L p ∧
    FreedTo A h' p fun h'' => Chain A h''.mem h''.heapHead L ∧
      ∀ g : Grants, ∃ h₃, malloc A g n h'' = some (p, h₃)
  grown : (∀ b ∈ L, ¬ Fits (A.roundUp16 n) b) → p ≠ 0 →
    (newBlock A n h.brk).fin A = h'.brk ∧
    FreedTo A h' p fun h'' => Chain A h''.mem h''.heapHead (appendFree A (newBlock A n h.brk) L)

/-- First fit takes the lowest block that fits. -/
theorem lowestFit_of_first {n : ℕ} {h : Heap} {L₁ L₂ : List Block} {f : Block}
    (hc : Carries A h (L₁ ++ f :: L₂)) (hf : Fits (A.roundUp16 n) f)
    (hno : ∀ c ∈ L₁, ¬ Fits (A.roundUp16 n) c) : LowestFit A n (L₁ ++ f :: L₂) (f.payload A) := by
  refine ⟨f, by simp, hf, rfl, fun c hc' hcf => ?_⟩
  rcases List.mem_append.mp hc' with hc' | hc'
  · exact absurd hcf (hno c hc')
  · rcases List.mem_cons.mp hc' with rfl | hc'
    · exact le_rfl
    · have hle := (hc.spaced.mid.2.1.bounds hc').1
      unfold Block.fin at hle
      omega

theorem MallocOutcome.lowestFit {n p : ℕ} {h h' : Heap} {L : List Block} (hc : Carries A h L)
    (ho : MallocOutcome A n h L p h') (hfit : ∃ b ∈ L, Fits (A.roundUp16 n) b) : LowestFit A n L p := by
  obtain ⟨b, hb, hbf⟩ := hfit
  cases ho with
  | refused hno => exact absurd hbf (hno b hb)
  | reused _ hL hf hno =>
    subst hL
    exact lowestFit_of_first hc hf hno
  | grown _ hno => exact absurd hbf (hno b hb)

theorem MallocOutcome.law {n p : ℕ} {h h' : Heap} {L : List Block} (hc : Carries A h L) (h0 : 0 < n)
    (hn : n + 15 < A.space) (ho : MallocOutcome A n h L p h') : MallocLaw A n h h' L p := by
  refine ⟨fun hsb => ?_, fun hfit => ⟨ho.lowestFit hc hfit, ?_⟩, fun hno hp => ?_⟩
  · cases ho with
    | refused hno => exact hno
    | reused => exact absurd rfl hsb
    | grown _ hno => exact hno
  · have hlow := ho.lowestFit hc hfit
    obtain ⟨b, hb, hbf⟩ := hfit
    cases ho with
    | refused hno => exact absurd hbf (hno b hb)
    | grown _ hno => exact absurd hbf (hno b hb)
    | @reused L₁ L₂ f m' _ hL hf hno hre =>
      refine (freedTo_of_used hre.carries hf.1 hf.2).mono fun h'' hc'' => ?_
      rw [← hL, merged_of_separated hc.separated] at hc''
      refine ⟨hc''.chain, fun g => ?_⟩
      have hfit : ∃ b ∈ L, Fits (A.roundUp16 n) b := ⟨b, hb, hbf⟩
      obtain ⟨q, h₃, hm, ho'⟩ := malloc_outcome (g := g) (Or.inl hfit) hc'' h0 (Or.inl ⟨hn, Or.inl hfit⟩)
      rw [hlow.unique (ho'.lowestFit hc'' hfit)]
      exact ⟨h₃, hm⟩
  · cases ho with
    | refused => exact absurd rfl hp
    | reused _ hL hf => exact absurd hf (hno _ (by rw [hL]; simp))
    | grown _ _ hbrk _ _ hre =>
      have hle := le_chunk (A.headerSize + A.roundUp16 n)
      refine ⟨?_, (freedTo_of_used hre.carries rfl (newBlock_cap n h.brk)).mono fun h'' hc'' => ?_⟩
      · rw [hbrk]
        unfold newBlock chunkBlock Block.fin
        dsimp only
        omega
      · rw [merged_append_free (f := newBlock A n h.brk) rfl hc.separated] at hc''
        exact hc''.chain

/-- **free undoes malloc**, and `malloc` grows the heap only when no free block fits. -/
theorem malloc_free_inverse {hist : List (Event Heap Label)} {h : Heap} (hr : Run (allocator A) hist h)
    (hs : ∀ e ∈ hist, SizesOk A e.label) (hq : ∀ e ∈ hist, Queried A e.pre e.label) {n : ℕ} {g : Grants}
    (h0 : 0 < n) (hn : Call.SizeOk A (.malloc n)) (hg : g.query = true) :
    ∃ L p h', Chain A h.mem h.heapHead L ∧ malloc A g n h = some (p, h') ∧ MallocLaw A n h h' L p := by
  obtain ⟨T, hT⟩ := run_holds_of_sizes hr hs hq
  obtain ⟨p, h', hm, ho⟩ := malloc_outcome (Or.inr hg) hT.carries h0 (.of_size hn)
  exact ⟨T.blocks, p, h', hT.chain, hm, ho.law hT.carries h0 hn.lt_space⟩

/-- The request goes into the hole. -/
theorem malloc_free_inverse_busy : ∃ hist h h', Busy hist h ∧
    malloc abi64 allGranted 150 h = some (4272, h') ∧ MallocLaw abi64 150 h h' busyBlocks 4272 := by
  obtain ⟨hist, h, hb, hx⟩ := exists_busy
    (fun h => (malloc abi64 allGranted 150 h).map Prod.fst = some 4272) (by decide +kernel)
  have hsz : Call.SizeOk abi64 (.malloc 150) := by decide +kernel
  obtain ⟨L, p, h', hL, hm, hlaw⟩ := malloc_free_inverse hb.run hb.sizes hb.queried (g := allGranted)
    (show 0 < 150 by decide) hsz rfl
  obtain rfl := Chain.unique hL hb.chain
  rw [hm] at hx
  obtain rfl : p = 4272 := Option.some.inj hx
  exact ⟨hist, h, h', hb, hm, hlaw⟩

/-! ### Frees commute -/

/-- Free the pointers, in order. -/
def frees (A : Abi) : List ℕ → Heap → Option Heap
  | [], h => some h
  | p :: P, h => (free A p h).bind (frees A P)

/-- The blocks of `S` marked free. -/
def markFree (S : Finset Block) (L : List Block) : List Block :=
  L.map fun b => if b ∈ S then { b with free := true } else b

theorem markFree_empty (L : List Block) : markFree ∅ L = L := by
  unfold markFree
  simp

/-- Marking one block and then others that are used. -/
theorem markFree_insert {S : Finset Block} {L M : List Block} {b : Block} (hn : (L ++ b :: M).Nodup)
    (hS : ∀ c ∈ S, ¬ c.free) :
    markFree S (L ++ { b with free := true } :: M) = markFree (insert b S) (L ++ b :: M) := by
  have hb : ({ b with free := true } : Block) ∉ S := fun h => hS _ h rfl
  have hother : ∀ c, c ≠ b → (c ∈ insert b S ↔ c ∈ S) := fun c hc => by
    rw [Finset.mem_insert]
    exact or_iff_right hc
  rw [List.nodup_append, List.nodup_cons] at hn
  unfold markFree
  rw [List.map_append, List.map_append, List.map_cons, List.map_cons, if_neg hb,
    if_pos (Finset.mem_insert_self b S)]
  refine congrArg₂ _ (List.map_congr_left fun c hc => ?_)
    (congrArg _ (List.map_congr_left fun c hc => ?_))
  · rw [if_congr (hother c (hn.2.2 c hc b List.mem_cons_self)) rfl rfl]
  · rw [if_congr (hother c fun he => hn.2.1.1 (he ▸ hc)) rfl rfl]

/-- The used blocks `B` of a list, freed one after the other, in a list merged since. -/
theorem frees_merged {B : List Block} {P : List ℕ} (hBP : List.Forall₂ (fun b p => b.InPayload A p) B P) :
    ∀ {h : Heap} {L : List Block}, Carries A h (merged A L) → Spaced A 0 L h.brk → B.Nodup →
      (∀ b ∈ B, b ∈ L ∧ ¬ b.free) →
      ∃ m', frees A P h = some { h with mem := m' } ∧
        Carries A { h with mem := m' } (merged A (markFree B.toFinset L)) := by
  induction hBP with
  | nil =>
    intro h L hc _ _ _
    rw [List.toFinset_nil, markFree_empty]
    exact ⟨h.mem, rfl, hc⟩
  | @cons b p B P hx _ ih =>
    intro h L hc hs hB hmem
    obtain ⟨hbL, hbf⟩ := hmem b List.mem_cons_self
    obtain ⟨L₁, L₂, rfl⟩ := List.append_of_mem hbL
    obtain ⟨m₁, hm₁, hc₁⟩ := free_merged hc hbf hx
    rw [List.nodup_cons] at hB
    have hmem' : ∀ c ∈ B, c ∈ L₁ ++ { b with free := true } :: L₂ ∧ ¬ c.free := by
      intro c hcB
      obtain ⟨hcL, hcf⟩ := hmem c (List.mem_cons_of_mem _ hcB)
      have hne : c ≠ b := fun he => hB.1 (he ▸ hcB)
      exact ⟨mem_splice hcL hne [{ b with free := true }], hcf⟩
    obtain ⟨m', hm', hc'⟩ := ih hc₁ (hs.setFree true) hB.2 hmem'
    rw [markFree_insert hs.nodup fun c hc => (hmem' c (List.mem_toFinset.mp hc)).2,
      ← List.toFinset_cons] at hc'
    refine ⟨m', ?_, hc'⟩
    show (free A p h).bind (frees A P) = _
    rw [hm₁]
    exact hm'

/-- A tiling without used blocks merges to one block. -/
theorem Tiles.merged_of_free {lo hi : ℕ} {L : List Block} (h : Tiles A lo L hi) (hL : L ≠ [])
    (hf : ∀ b ∈ L, b.free) : Malloc.merged A L = [⟨lo, hi - lo - A.headerSize, true⟩] := by
  obtain ⟨a, ha, haf⟩ := coalesce_of_all (coalescing A) hL hf
  have ht := h.merged
  rw [show Malloc.merged A L = [a] from ha] at ht ⊢
  obtain ⟨⟨haddr, _⟩, hfin⟩ := ht
  have hfin : a.addr + A.headerSize + a.cap = hi := hfin
  obtain ⟨addr, cap, fr⟩ := a
  obtain rfl : fr = true := haf
  dsimp only at haddr hfin
  rw [haddr, show cap = hi - lo - A.headerSize by omega]

theorem Holds.head {h : Heap} {T : Layout A} (hh : Holds h T) (hT : T.blocks ≠ []) : h.heapHead = T.lo := by
  have hc := hh.chain
  have ht := T.tiles
  obtain ⟨b, L, hL⟩ := List.exists_cons_of_ne_nil hT
  rw [hL] at hc ht
  exact (Seg.head hc).trans ht.1.1

theorem markFree_tiles {lo hi : ℕ} {L : List Block} (S : Finset Block) (h : Tiles A lo L hi) :
    Tiles A lo (markFree S L) hi := by
  induction L generalizing lo with
  | nil => exact h
  | cons b L ih =>
    have hb : ∀ c : Block, c = b ∨ c = { b with free := true } →
        Tiles A lo (c :: markFree S L) hi := by
      rintro c (rfl | rfl) <;> exact ⟨h.1, ih h.2⟩
    show Tiles A lo ((if b ∈ S then { b with free := true } else b) :: markFree S L) hi
    by_cases hbS : b ∈ S
    · rw [if_pos hbS]
      exact hb _ (Or.inr rfl)
    · rw [if_neg hbS]
      exact hb _ (Or.inl rfl)

theorem free_of_mem_markFree {S : Finset Block} {L : List Block} (hS : ∀ b ∈ L, ¬ b.free → b ∈ S) :
    ∀ c ∈ markFree S L, c.free := by
  intro c hc
  obtain ⟨b, hb, rfl⟩ := List.mem_map.mp hc
  by_cases hbS : b ∈ S
  · rw [if_pos hbS]
  · rw [if_neg hbS]
    exact of_not_not fun hbf => hbS (hS b hb hbf)

/-- The heap `h` with the blocks `S` of its list `L` freed: whatever enumeration `B` of `S` and
whatever pointers `P` into their payloads, the list is the merge of `L` with `S` marked free. -/
structure FreesCommute (A : Abi) (h : Heap) (L : List Block) (S : Finset Block) : Prop where
  result : ∀ (B : List Block) (P : List ℕ), B.Nodup → B.toFinset = S →
    List.Forall₂ (fun b p => b.InPayload A p) B P →
    ∃ m', frees A P h = some { h with mem := m' } ∧ Chain A m' h.heapHead (merged A (markFree S L))
  all : L ≠ [] → (∀ b ∈ L, ¬ b.free → b ∈ S) →
    merged A (markFree S L) = [⟨h.heapHead, h.brk - h.heapHead - A.headerSize, true⟩]

/-- **Frees commute.** -/
theorem frees_commute {hist : List (Event Heap Label)} {h : Heap} (hr : Run (allocator A) hist h)
    (hs : ∀ e ∈ hist, SizesOk A e.label) (hq : ∀ e ∈ hist, Queried A e.pre e.label) :
    ∃ L, Chain A h.mem h.heapHead L ∧
      ∀ S : Finset Block, (∀ b ∈ S, b ∈ L ∧ ¬ b.free) → FreesCommute A h L S := by
  obtain ⟨T, hT⟩ := run_holds_of_sizes hr hs hq
  have hc := hT.carries
  refine ⟨T.blocks, hT.chain, fun S hS => ⟨fun B P hB hBS hBP => ?_, fun hne hall => ?_⟩⟩
  · subst hBS
    have hmer : Carries A h (merged A T.blocks) := by
      rw [merged_of_separated hc.separated]
      exact hc
    obtain ⟨m', hm', hc'⟩ := frees_merged hBP hmer hc.spaced hB fun b hb => hS b (List.mem_toFinset.mpr hb)
    exact ⟨_, hm', hc'.chain⟩
  · have ht := markFree_tiles S (hT.tiles hne)
    rw [← hT.head hne] at ht
    refine ht.merged_of_free (fun he => hne ?_) (free_of_mem_markFree hall)
    exact List.map_eq_nil_iff.mp he

/-- The two used blocks, with a hole between them, freed in either order. -/
theorem frees_commute_busy : ∃ hist h m₁ m₂, Busy hist h ∧
    frees abi64 [4128, 4512] h = some { h with mem := m₁ } ∧
    frees abi64 [4512, 4128] h = some { h with mem := m₂ } ∧
    Chain abi64 m₁ h.heapHead [⟨4096, 65504, true⟩] ∧ Chain abi64 m₂ h.heapHead [⟨4096, 65504, true⟩] := by
  obtain ⟨hist, h, hb, hhead, hbrk⟩ := exists_busy (fun h => h.heapHead = 4096 ∧ h.brk = 69632)
    (by decide +kernel)
  obtain ⟨L, hL, hall⟩ := frees_commute hb.run hb.sizes hb.queried
  obtain rfl := Chain.unique hL hb.chain
  have hx : Block.InPayload abi64 ⟨4096, 112, false⟩ 4128 := by decide +kernel
  have hy : Block.InPayload abi64 ⟨4480, 304, false⟩ 4512 := by decide +kernel
  have hcomm := hall {⟨4096, 112, false⟩, ⟨4480, 304, false⟩} (by decide)
  have hone := hcomm.all (by decide) (by decide)
  rw [hhead, hbrk, abi64_headerSize] at hone
  obtain ⟨m₁, h₁, hc₁⟩ := hcomm.result _ _ (by decide) rfl (.cons hx (.cons hy .nil))
  obtain ⟨m₂, h₂, hc₂⟩ := hcomm.result _ _ (by decide) (by decide) (.cons hy (.cons hx .nil))
  rw [hone] at hc₁ hc₂
  exact ⟨hist, h, m₁, m₂, hb, h₁, h₂, hc₁, hc₂⟩

/-! ### Shrinking and growing back -/

/-- The free block that a split of `b` leaves. -/
def leftover (A : Abi) (b : Block) (r : ℕ) : Block :=
  ⟨b.addr + A.headerSize + r, b.cap - r - A.headerSize, true⟩

theorem leftover_join {b : Block} {r : ℕ} (hmin : A.headerSize + MINIMUM_PAYLOAD_SIZE ≤ b.cap - r) :
    Block.join A { b with cap := r } (leftover A b r) = b := by
  unfold MINIMUM_PAYLOAD_SIZE at hmin
  unfold Block.join leftover
  dsimp only
  rw [show r + (A.headerSize + (b.cap - r - A.headerSize)) = b.cap by omega]

theorem splitList_self (b : Block) : splitList A b b.cap = [b] :=
  splitList_of_lt (by unfold MINIMUM_PAYLOAD_SIZE; omega)

/-- A block that swallowed the free block `d` behind it splits into the two again. -/
theorem splitList_join {b d : Block} (hd : d.free) (haddr : d.addr = b.fin A) (hmin : 16 ≤ d.cap) :
    splitList A (b.join A d) b.cap = [b, d] := by
  have hcap : (b.join A d).cap - b.cap = A.headerSize + d.cap := by
    unfold Block.join
    dsimp only
    omega
  rw [splitList_of_le (by rw [hcap]; unfold MINIMUM_PAYLOAD_SIZE; omega), hcap]
  obtain ⟨da, dc, df⟩ := d
  obtain rfl : df = true := hd
  dsimp only at haddr
  rw [haddr, show A.headerSize + dc - A.headerSize = dc by omega]
  rfl

/-- What a split of `b` leaves, merged with what follows `b`, gives back both. -/
theorem regrow_list {lo hi r : ℕ} {b : Block} {M : List Block} (ht : Tiles A lo (b :: M) hi)
    (hn : NoAdjacentFree M) (hmin : A.headerSize + MINIMUM_PAYLOAD_SIZE ≤ b.cap - r) :
    ∃ c N, merged A (leftover A b r :: M) = c :: N ∧ c.free ∧
      b.cap ≤ (Block.join A { b with cap := r } c).cap ∧
      splitList A (Block.join A { b with cap := r } c) b.cap ++ N = b :: M := by
  have hjoin := leftover_join hmin
  have hfree : (leftover A b r).free := rfl
  rcases M with _ | ⟨d, M⟩
  · refine ⟨leftover A b r, [], rfl, hfree, ?_, ?_⟩
    · rw [hjoin]
    · rw [hjoin, splitList_self]
      rfl
  by_cases hd : d.free
  · -- the leftover swallows the free block behind it, and the regrown block is split where `d` was
    have hsep : NoAdjacentFree ((leftover A b r).join A d :: M) := by
      unfold NoAdjacentFree Separated at hn ⊢
      rw [List.isChain_cons] at hn ⊢
      exact ⟨fun e he h => hn.1 e he ⟨hd, h.2⟩, hn.2⟩
    obtain ⟨hdaddr, _, _, hdmin⟩ := ht.2.1
    have hjoin₂ : Block.join A { b with cap := r } ((leftover A b r).join A d) = b.join A d := by
      rw [← (coalescing A).assoc, hjoin]
    refine ⟨(leftover A b r).join A d, M, ?_, hfree, ?_, ?_⟩
    · rw [merged_cons_free hfree hd, merged_of_separated hsep]
    · rw [hjoin₂]
      exact Nat.le_add_right _ _
    · rw [hjoin₂, splitList_join hd hdaddr hdmin]
      rfl
  · refine ⟨leftover A b r, d :: M, ?_, hfree, ?_, ?_⟩
    · rw [merged_skip hd, merged_of_separated (List.isChain_cons.mp hn).2]
    · rw [hjoin]
    · rw [hjoin, splitList_self]
      rfl

/-- A capacity is its own rounding. -/
theorem Carries.roundUp16_cap {h : Heap} {L : List Block} {b : Block} (hc : Carries A h L) (hb : b ∈ L) :
    A.roundUp16 b.cap = b.cap ∧ 0 < b.cap ∧ b.cap + 15 < A.space := by
  have hH := A.header_facts
  obtain ⟨_, hfin, _, hcap, hmin⟩ := hc.spaced.bounds hb
  have hlt := hc.brk_lt
  unfold Block.fin at hfin
  have hsp : b.cap + 15 < A.space := by omega
  refine ⟨?_, by omega, hsp⟩
  rw [Abi.roundUp16_eq hsp]
  omega

/-- `realloc` of a block to the capacity it has. -/
theorem realloc_same {g : Grants} {x : ℕ} {h : Heap} {L M : List Block} {b : Block}
    (hc : Carries A h (L ++ b :: M)) (hx : b.InPayload A x) :
    realloc A g x b.cap h = some (b.payload A, h) := by
  obtain ⟨hr, h0, hn⟩ := hc.roundUp16_cap (b := b) (by simp)
  have hroom : HasRoom A b.cap b M := Or.inl hr.le
  obtain ⟨p, h', hre, ho⟩ := realloc_outcome (g := g) (Or.inl hroom) hc hx h0 (hroom.blockOk hn)
  rw [hre]
  cases ho with
  | same => rfl
  | shrunk hlt | grown _ hlt | growRefused _ hlt | absorbed _ hlt | moveRefused _ hlt | moved _ hlt => omega

/-- `realloc` of a block into the free block behind it. -/
theorem realloc_absorb {g : Grants} {x n : ℕ} {h : Heap} {L M : List Block} {b c : Block}
    (hc : Carries A h (L ++ b :: c :: M)) (hx : b.InPayload A x) (h0 : 0 < n)
    (hn : n + 15 < A.space) (hcap : b.cap < A.roundUp16 n) (hcf : c.free)
    (hroom : A.roundUp16 n ≤ (b.join A c).cap) :
    ∃ m', realloc A g x n h = some (b.payload A, { h with mem := m' }) ∧
      Carries A { h with mem := m' } (merged A (L ++ (splitList A (b.join A c) (A.roundUp16 n) ++ M))) := by
  have hnext : HasRoom A n b (c :: M) := Or.inr ⟨c, M, rfl, hcf, hroom⟩
  obtain ⟨p, h', hre, ho⟩ := realloc_outcome (g := g) (Or.inl hnext) hc hx h0 (hnext.blockOk hn)
  rw [hre]
  cases ho with
  | same heq => omega
  | shrunk hlt => omega
  | grown hnil | growRefused hnil => cases hnil
  | absorbed hL _ _ _ hw =>
    obtain ⟨rfl, rfl⟩ := List.cons.inj hL
    exact ⟨_, rfl, hw.carries⟩
  | moveRefused hL _ hno | moved hL _ hno =>
    obtain ⟨rfl, rfl⟩ := List.cons.inj hL
    exact absurd ⟨hcf, hroom⟩ hno

/-- Both results of shrinking the block `b` to `n` bytes and growing it back are its payload, there is
no `sbrk` call and the list is `L` again. -/
def Restored (A : Abi) (g₁ g₂ : Grants) (n : ℕ) (h : Heap) (L : List Block) (b : Block) : Prop :=
  ∃ h₁ h₂, realloc A g₁ (b.payload A) n h = some (b.payload A, h₁) ∧
    realloc A g₂ (b.payload A) b.cap h₁ = some (b.payload A, h₂) ∧ h₁.sbrks = h.sbrks ∧
    h₂.sbrks = h₁.sbrks ∧ Chain A h₂.mem h₂.heapHead L

theorem Holds.restored {g₁ g₂ : Grants} {n : ℕ} {h : Heap} {T : Layout A} {b : Block} (hh : Holds h T)
    (hb : b ∈ T.blocks) (hbf : ¬ b.free) (h0 : 0 < n) (hn : n ≤ b.cap) :
    Restored A g₁ g₂ n h T.blocks b := by
  obtain ⟨hr, _, hsp⟩ := hh.carries.roundUp16_cap hb
  have hcap16 := (T.tiles.bounds hb).2.2.2.1
  have hmin := (T.tiles.bounds hb).2.2.2.2
  have hnsp : n + 15 < A.space := by omega
  obtain ⟨hr16, hr0, hnr, _⟩ := roundUp16_facts h0 hnsp
  have hrb : A.roundUp16 n ≤ b.cap := by
    rw [Abi.roundUp16_eq hnsp]
    omega
  have hx : b.InPayload A (b.payload A) := by
    unfold Block.InPayload Block.fin Block.payload
    omega
  obtain ⟨L, M, hL⟩ := List.append_of_mem hb
  have hc := hh.carries
  have ht := hh.tiles (by rw [hL]; simp)
  unfold Restored
  rw [hL] at hc ht ⊢
  have hroom : HasRoom A n b M := Or.inl hrb
  obtain ⟨p, h₁, hre, ho⟩ := realloc_outcome (g := g₁) (Or.inl hroom) hc hx h0 (hroom.blockOk hnsp)
  cases ho with
  | same => exact ⟨h, h, hre, realloc_same hc hx, rfl, rfl, hc.chain⟩
  | @shrunk m₁ hlt hw =>
    have hc₁ := hw.carries
    by_cases hmin' : A.headerSize + MINIMUM_PAYLOAD_SIZE ≤ b.cap - A.roundUp16 n
    · -- `b` was split; the leftover is free and gives the room back
      have hsplit : splitList A b (A.roundUp16 n) ++ M =
          { b with cap := A.roundUp16 n } :: leftover A b (A.roundUp16 n) :: M := by
        rw [splitList_of_le hmin']
        rfl
      obtain ⟨c, N, hmer, hcf, hroom, hback⟩ :=
        regrow_list (ht.split.choose_spec.2) hc.separated.parts.2.2 hmin'
      rw [hsplit, merged_append_of_not (b := { b with cap := A.roundUp16 n }) hbf, hmer,
        merged_of_separated hc.separated.parts.1] at hc₁
      have hx₁ : Block.InPayload A { b with cap := A.roundUp16 n } (b.payload A) := by
        unfold Block.InPayload Block.fin Block.payload
        dsimp only
        omega
      obtain ⟨m₂, hre₂, hc₂⟩ := realloc_absorb (g := g₂) (n := b.cap) hc₁ hx₁ (by omega) hsp (by rw [hr]; exact hlt)
        hcf (by rw [hr]; exact hroom)
      rw [hr, hback, merged_of_separated hc.separated] at hc₂
      exact ⟨_, _, hre, hre₂, rfl, rfl, hc₂.chain⟩
    · rw [splitList_of_lt (not_le.mp hmin'), List.singleton_append, merged_of_separated hc.separated] at hc₁
      exact ⟨_, _, hre, realloc_same hc₁ hx, rfl, rfl, hc₁.chain⟩
  | grown _ hlt | growRefused _ hlt | absorbed _ hlt | moveRefused _ hlt | moved _ hlt => omega

/-- **Shrinking and growing back is the identity.** -/
theorem shrink_grow_identity {hist : List (Event Heap Label)} {h : Heap} (hr : Run (allocator A) hist h)
    (hs : ∀ e ∈ hist, SizesOk A e.label) (hq : ∀ e ∈ hist, Queried A e.pre e.label) :
    ∃ L, Chain A h.mem h.heapHead L ∧ ∀ b ∈ L, ¬ b.free → ∀ n, 0 < n → n ≤ b.cap →
      ∀ g₁ g₂ : Grants, Restored A g₁ g₂ n h L b := by
  obtain ⟨T, hT⟩ := run_holds_of_sizes hr hs hq
  exact ⟨T.blocks, hT.chain, fun b hb hbf n h0 hn g₁ g₂ => hT.restored hb hbf h0 hn⟩

/-- The first block is split, what is left of it joins the hole behind it, and both come back. -/
theorem shrink_grow_identity_busy : ∃ hist h h₁ h₂, Busy hist h ∧
    realloc abi64 allGranted 4128 1 h = some (4128, h₁) ∧
    Chain abi64 h₁.mem h₁.heapHead
      [⟨4096, 16, false⟩, ⟨4144, 304, true⟩, ⟨4480, 304, false⟩, ⟨4816, 64784, true⟩] ∧
    realloc abi64 allGranted 4128 112 h₁ = some (4128, h₂) ∧
    Chain abi64 h₂.mem h₂.heapHead busyBlocks := by
  obtain ⟨hist, h, hb, hsplit⟩ := exists_busy
    (fun h => ((realloc abi64 allGranted 4128 1 h).bind fun r => r.2.blocks abi64) =
      some [⟨4096, 16, false⟩, ⟨4144, 304, true⟩, ⟨4480, 304, false⟩, ⟨4816, 64784, true⟩])
    (by decide +kernel)
  obtain ⟨L, hL, hall⟩ := shrink_grow_identity hb.run hb.sizes hb.queried
  obtain rfl := Chain.unique hL hb.chain
  obtain ⟨h₁, h₂, hre₁, hre₂, _, _, hc⟩ := hall ⟨4096, 112, false⟩ (by decide) (by decide) 1 (by decide)
    (by decide) allGranted allGranted
  have hp : Block.payload abi64 ⟨4096, 112, false⟩ = 4128 := by decide +kernel
  rw [hp] at hre₁ hre₂
  rw [hre₁, Option.bind_some] at hsplit
  exact ⟨hist, h, h₁, h₂, hb, hre₁, h₁.blocks_chain hsplit, hre₂, hc⟩

end Csc453.Malloc
