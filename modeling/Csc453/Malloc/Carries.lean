import Csc453.Malloc.Merge

/-!
# Csc453.Malloc.Carries — heaps that carry a block list, and the edits of one header

`Carries h L`: the chain of `h` visits `L`, the blocks are spaced below the break and no two
neighbours are free.  Nothing is said about gaps: other users of `sbrk` may have moved the break.
An operation changes a heap by writing into the headers of one list `M`, whose merge is the new
list: `Rewritten h h' M`.
-/

namespace Csc453.Malloc

open Bytes Coalesce

variable {A : Abi}

/-- The heap `h` carries the list `L`. -/
structure Carries (A : Abi) (h : Heap) (L : List Block) : Prop where
  chain : Chain A h.mem h.heapHead L
  spaced : Spaced A 0 L h.brk
  separated : NoAdjacentFree L
  brk_pos : 0 < h.brk
  brk_lt : h.brk < A.space

/-- `h'` comes from `h` by writing headers of `M` only, and carries the merge of `M`. -/
structure Rewritten (A : Abi) (h h' : Heap) (M : List Block) : Prop where
  chain : Chain A h'.mem h'.heapHead (merged A M)
  only : OnlyHeaders A M h.mem h'.mem
  spaced : Spaced A 0 M h'.brk
  brk_pos : 0 < h'.brk
  brk_lt : h'.brk < A.space

theorem Rewritten.carries {h h' : Heap} {M : List Block} (hr : Rewritten A h h' M) :
    Carries A h' (merged A M) :=
  ⟨hr.chain, hr.spaced.merged, separated_coalesce M, hr.brk_pos, hr.brk_lt⟩

/-- Earlier writes into headers at addresses of `M` change nothing. -/
theorem Rewritten.after {h₀ h h' : Heap} {K M : List Block} (hr : Rewritten A h h' M)
    (hfr : OnlyHeaders A K h₀.mem h.mem) (hs : ∀ b ∈ K, ∃ c ∈ M, c.addr = b.addr) :
    Rewritten A h₀ h' M :=
  ⟨hr.chain, (hfr.mono hs).trans hr.only, hr.spaced, hr.brk_pos, hr.brk_lt⟩

theorem mem_merged_of_used {b : Block} {M : List Block} (hb : ¬ b.free) :
    b ∈ merged A M ↔ b ∈ M := mem_coalesce_of_not (coalescing A) hb

/-- Payload bytes of the blocks of `M` are untouched. -/
theorem Rewritten.payload_same {h h' : Heap} {M : List Block} {x : ℕ} (hr : Rewritten A h h' M)
    {b : Block} (hb : b ∈ M) (hx : b.InPayload A x) : h'.mem x = h.mem x :=
  hr.only x fun c hc => (hr.spaced.payload hb hx c hc).1

/-- Bytes outside the headers do not matter. -/
theorem Carries.write {h : Heap} {L : List Block} {m : Mem} (hc : Carries A h L)
    (hm : ∀ b ∈ L, ∀ x, b.InHeader A x → m x = h.mem x) : Carries A { h with mem := m } L :=
  ⟨hc.chain.congr fun b hb x h1 h2 => hm b hb x ⟨h1, h2⟩, hc.spaced, hc.separated, hc.brk_pos, hc.brk_lt⟩

theorem payload_ne_zero (b : Block) : b.payload A ≠ 0 := by
  have := A.header_facts
  unfold Block.payload
  omega

theorem not_inPayload_zero (b : Block) : ¬ b.InPayload A 0 := by
  have := payload_ne_zero (A := A) b
  unfold Block.InPayload
  omega

theorem noAdjacentFree_used {L₁ L₂ : List Block} {u : Block} (h₁ : NoAdjacentFree L₁)
    (h₂ : NoAdjacentFree L₂) (hu : ¬ u.free) : NoAdjacentFree (L₁ ++ u :: L₂) := by
  unfold NoAdjacentFree Separated at *
  refine List.isChain_append.mpr ⟨h₁, List.isChain_cons.mpr ⟨fun c _ hc => hu hc.1, h₂⟩, ?_⟩
  intro b _ c hc hbc
  obtain rfl : u = c := by simpa using hc
  exact hu hbc.2

theorem NoAdjacentFree.parts {L₁ L₂ : List Block} {b : Block} (h : NoAdjacentFree (L₁ ++ b :: L₂)) :
    NoAdjacentFree L₁ ∧ NoAdjacentFree (b :: L₂) ∧ NoAdjacentFree L₂ := by
  unfold NoAdjacentFree Separated at *
  have h' := List.isChain_append.mp h
  exact ⟨h'.1, h'.2.1, (List.isChain_cons.mp h'.2.1).2⟩

theorem NoAdjacentFree.setCap {L₁ L₂ : List Block} {b : Block} {v : ℕ}
    (h : NoAdjacentFree (L₁ ++ b :: L₂)) : NoAdjacentFree (L₁ ++ { b with cap := v } :: L₂) := by
  have hmap : ∀ L : List Block, NoAdjacentFree L ↔
      (L.map Block.free).IsChain fun x y => ¬ (x = true ∧ y = true) := fun L => by
    rw [List.isChain_map]
    rfl
  rw [hmap] at h ⊢
  simpa using h

/-! ### One header changed -/

/-- A write into the header of `b` that keeps its link. -/
theorem Chain.edit {m m' : Mem} {p : ℕ} {L₁ L₂ : List Block} {b b' : Block}
    (hc : Chain A m p (L₁ ++ b :: L₂)) (hap : Apart A (L₁ ++ b :: L₂)) (hfr : OnlyHeaders A [b] m m')
    (hb : Header A m' b.addr b')
    (hnext : A.nextBlockHeader m' b.addr = A.nextBlockHeader m b.addr) :
    Chain A m' p (L₁ ++ b' :: L₂) := by
  obtain ⟨h1, hne, _, h2⟩ := hc.mid
  rw [Apart, List.pairwise_append, List.pairwise_cons] at hap
  refine (h1.congr fun c hc => hfr.sameHeader fun d hd => ?_).append ⟨hne, hb, ?_⟩
  · rw [List.mem_singleton.mp hd]
    exact (hap.2.2 c hc b List.mem_cons_self).symm
  · rw [hnext]
    refine h2.congr fun c hc => hfr.sameHeader fun d hd => ?_
    rw [List.mem_singleton.mp hd]
    exact hap.2.1.1 c hc

theorem onlyHeaders_setFree {m : Mem} {b : Block} {f : Bool} :
    OnlyHeaders A [b] m (A.setFree m b.addr f) := by
  intro x hx
  have := hx b List.mem_cons_self
  unfold Block.InHeader at this
  exact setFree_outside (by omega)

theorem onlyHeaders_setCapacity {m : Mem} {b : Block} {v : ℕ} :
    OnlyHeaders A [b] m (A.setCapacity m b.addr v) := by
  intro x hx
  have := hx b List.mem_cons_self
  unfold Block.InHeader at this
  exact setCapacity_outside (by omega)

theorem Chain.setFree {m : Mem} {p : ℕ} {L₁ L₂ : List Block} {b : Block} (f : Bool)
    (hc : Chain A m p (L₁ ++ b :: L₂)) (hap : Apart A (L₁ ++ b :: L₂)) :
    Chain A (A.setFree m b.addr f) p (L₁ ++ { b with free := f } :: L₂) := by
  obtain ⟨_, _, hb, _⟩ := hc.mid
  refine hc.edit hap onlyHeaders_setFree ⟨rfl, ?_, isFree_setFree⟩ next_setFree
  rw [capacity_setFree]
  exact hb.cap

theorem Chain.setCapacity {m : Mem} {p v : ℕ} {L₁ L₂ : List Block} {b : Block}
    (hc : Chain A m p (L₁ ++ b :: L₂)) (hap : Apart A (L₁ ++ b :: L₂)) (hv : v < A.space) :
    Chain A (A.setCapacity m b.addr v) p (L₁ ++ { b with cap := v } :: L₂) := by
  obtain ⟨_, _, hb, _⟩ := hc.mid
  refine hc.edit hap onlyHeaders_setCapacity ⟨rfl, capacity_setCapacity hv, ?_⟩ next_setCapacity
  rw [isFree_setCapacity]
  exact hb.free

/-! ### Splitting -/

theorem mem_splitList (A : Abi) (b : Block) (r : ℕ) :
    ∃ u ∈ splitList A b r, u.addr = b.addr ∧ u.free = b.free ∧ (r ≤ b.cap → r ≤ u.cap) := by
  unfold splitList
  by_cases hmin : A.headerSize + MINIMUM_PAYLOAD_SIZE ≤ b.cap - r
  · rw [if_pos hmin]
    exact ⟨_, List.mem_cons_self, rfl, rfl, fun _ => le_rfl⟩
  · rw [if_neg hmin]
    exact ⟨b, List.mem_cons_self, rfl, rfl, id⟩

/-- An edit of the header of `b`, which becomes `c`, then a split of `c`; `k` is the heap before the
edit. -/
theorem split_rewritten {k h : Heap} {L M : List Block} {b c : Block} {r : ℕ}
    (hc : Chain A h.mem h.heapHead (L ++ c :: M)) (hs : Spaced A 0 (L ++ c :: M) h.brk)
    (hn : NoAdjacentFree (L ++ c :: M)) (h0 : 0 < h.brk) (hlt : h.brk < A.space)
    (hfr : OnlyHeaders A [b] k.mem h.mem) (ha : c.addr = b.addr) (hr16 : r % 16 = 0) (hr : 16 ≤ r)
    (hrc : r ≤ c.cap) :
    ∃ m', splitblock A b.addr r h = some (b.payload A, { h with mem := m' }) ∧
      Rewritten A k { h with mem := m' } (L ++ (splitList A c r ++ M)) := by
  obtain ⟨m', hm', hch, hfr'⟩ := splitblock_spec hc hs hn hlt hr16 hr hrc
  have hre : Rewritten A h { h with mem := m' } (L ++ (splitList A c r ++ M)) :=
    ⟨hch, hfr', hs.splitAt hr16 hr, h0, hlt⟩
  refine ⟨m', ?_, hre.after hfr fun d hd => ?_⟩
  · rw [← ha, hm']
    unfold Block.payload
    rw [ha]
  · obtain ⟨u, hu, hua, _⟩ := mem_splitList A c r
    rw [List.mem_singleton.mp hd, ← ha]
    exact ⟨u, List.mem_append_right _ (List.mem_append_left _ hu), hua⟩

/-- What `malloc` makes of the block it chose. -/
def used (A : Abi) (b : Block) (requested : ℕ) : List Block := splitList A { b with free := false } requested

/-- The used block, and the free one split off from it, if any. -/
theorem used_cons (A : Abi) (f : Block) (r : ℕ) :
    ∃ u N, used A f r = u :: N ∧ ¬ u.free ∧ (N = [] ∨ ∃ l, N = [l]) := by
  unfold used
  by_cases hmin : A.headerSize + MINIMUM_PAYLOAD_SIZE ≤ f.cap - r
  · rw [splitList_of_le (b := { f with free := false }) hmin]
    exact ⟨_, _, rfl, by simp, Or.inr ⟨_, rfl⟩⟩
  · rw [splitList_of_lt (b := { f with free := false }) (not_le.mp hmin)]
    exact ⟨_, _, rfl, by simp, Or.inl rfl⟩

/-- A free block put to use leaves no two free neighbours, if none follows it. -/
theorem noAdjacentFree_useBlock {L M : List Block} (f : Block) (r : ℕ) (hL : NoAdjacentFree L)
    (hM : NoAdjacentFree M) (hhead : ∀ c ∈ M.head?, ¬ c.free) : NoAdjacentFree (L ++ (used A f r ++ M)) := by
  obtain ⟨u, N, hu, huf, hN⟩ := used_cons A f r
  rw [hu, List.cons_append]
  refine noAdjacentFree_used hL ?_ huf
  rcases hN with rfl | ⟨l, rfl⟩
  · exact hM
  · exact List.isChain_cons.mpr ⟨fun c hc h => hhead c hc h.2, hM⟩

theorem useBlock_spec {h : Heap} {L M : List Block} {f : Block} {r : ℕ}
    (hc : Chain A h.mem h.heapHead (L ++ f :: M)) (hs : Spaced A 0 (L ++ f :: M) h.brk)
    (hL : NoAdjacentFree L) (hM : NoAdjacentFree M) (h0 : 0 < h.brk) (hlt : h.brk < A.space)
    (hr16 : r % 16 = 0) (hr : 16 ≤ r) (hrf : r ≤ f.cap) :
    ∃ m', useBlock A f.addr r h = some (f.payload A, { h with mem := m' }) ∧
      Rewritten A h { h with mem := m' } (L ++ (used A f r ++ M)) :=
  split_rewritten (h := { h with mem := A.setFree h.mem f.addr false }) (hc.setFree false hs.apart)
    (hs.setFree false) (noAdjacentFree_used hL hM (by simp)) h0 hlt onlyHeaders_setFree rfl hr16 hr hrf

end Csc453.Malloc
