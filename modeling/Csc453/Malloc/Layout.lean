import Csc453.Malloc.Resize

/-!
# Csc453.Malloc.Layout — well-formed heaps, and what malloc and free do to them

A `Layout` is a tiling without adjacent free blocks; `Holds h T` says that the heap `h` carries the
layout `T` and that it ends at the program break, as it does when nobody else moves the break.  A
request changes a heap by writing into the headers of one list `M`, whose merge is the new layout:
`Reshaped h h' M lo`.  `free_spec` says which `M` it is for `free`; the chunk that `malloc` appends
continues the tiling (`Holds.append_newBlock`).
-/

namespace Csc453.Malloc

open Bytes Coalesce

variable {A : Abi}

/-- A block list that tiles a range of addresses, no two consecutive blocks free. -/
structure Layout (A : Abi) where
  blocks : List Block
  lo : ℕ
  hi : ℕ
  tiles : Tiles A lo blocks hi
  separated : NoAdjacentFree blocks

namespace Layout

def empty (A : Abi) : Layout A := ⟨[], 0, 0, rfl, List.isChain_nil⟩

/-- The layout a tiling merges to. -/
def ofTiles {lo hi : ℕ} {M : List Block} (h : Tiles A lo M hi) : Layout A :=
  ⟨merged A M, lo, hi, h.merged, separated_coalesce M⟩

end Layout

/-- The heap `h` carries the layout `T`. -/
structure Holds (h : Heap) (T : Layout A) : Prop where
  chain : Chain A h.mem h.heapHead T.blocks
  top_le : T.hi ≤ h.brk
  top : T.blocks ≠ [] → T.hi = h.brk
  brk_pos : 0 < h.brk
  brk_lt : h.brk < A.space

/-- `h'` comes from `h` by writing headers of `M` only, and carries the merge of `M`. -/
structure Reshaped (A : Abi) (h h' : Heap) (M : List Block) (lo : ℕ) : Prop where
  chain : Chain A h'.mem h'.heapHead (merged A M)
  only : OnlyHeaders A M h.mem h'.mem
  tiles : Tiles A lo M h'.brk
  brk_pos : 0 < h'.brk
  brk_lt : h'.brk < A.space

theorem Reshaped.holds {h h' : Heap} {M : List Block} {lo : ℕ} (hr : Reshaped A h h' M lo) :
    Holds h' (Layout.ofTiles hr.tiles) :=
  ⟨hr.chain, le_rfl, fun _ => rfl, hr.brk_pos, hr.brk_lt⟩

theorem Rewritten.reshaped {h h' : Heap} {M : List Block} {lo : ℕ} (hr : Rewritten A h h' M)
    (ht : Tiles A lo M h'.brk) : Reshaped A h h' M lo :=
  ⟨hr.chain, hr.only, ht, hr.brk_pos, hr.brk_lt⟩

/-- Payload bytes of the blocks of `M` are untouched. -/
theorem Reshaped.payload_same {h h' : Heap} {M : List Block} {lo x : ℕ} (hr : Reshaped A h h' M lo)
    {b : Block} (hb : b ∈ M) (hx : b.InPayload A x) : h'.mem x = h.mem x :=
  hr.only x fun c hc => (hr.tiles.payload hb hx c hc).1

namespace Holds

variable {h h' : Heap} {T : Layout A}

theorem carries (hh : Holds h T) : Carries A h T.blocks :=
  ⟨hh.chain, T.tiles.spaced.weaken (Nat.zero_le _) hh.top_le, T.separated, hh.brk_pos, hh.brk_lt⟩

/-- The tiling reaches up to the break. -/
theorem tiles (hh : Holds h T) (hT : T.blocks ≠ []) : Tiles A T.lo T.blocks h.brk := by
  rw [← hh.top hT]
  exact T.tiles

end Holds

/-- A refused request leaves memory and list alone; at most the padding has been obtained. -/
structure Refused (h h' : Heap) (T : Layout A) : Prop where
  mem : h'.mem = h.mem
  head : h'.heapHead = h.heapHead
  brk_le : h.brk ≤ h'.brk
  holds : Holds h' T

theorem Tiles.hi_aligned {lo hi : ℕ} {L : List Block} (h : Tiles A lo L hi) (hL : L ≠ []) :
    hi % 16 = 0 := by
  have hH := A.header_facts
  induction L generalizing lo with
  | nil => exact absurd rfl hL
  | cons b L ih =>
    obtain ⟨⟨hb, h16, hcap, _⟩, ht⟩ := h
    rcases L with _ | ⟨c, L⟩
    · have hfin : b.addr + A.headerSize + b.cap = hi := ht
      omega
    · exact ih ht (by simp)

theorem Holds.padding {h : Heap} {T : Layout A} (hh : Holds h T) (hT : T.blocks ≠ []) :
    paddingAt A h.brk = 0 :=
  (paddingAt_spec hh.brk_pos hh.brk_lt).2.2 ((hh.tiles hT).hi_aligned hT)

/-- The heap after the padding still carries the layout: there is none, unless the heap is empty. -/
theorem Untouched.refused {h h' : Heap} {T : Layout A} (hu : Untouched A h h') (hh : Holds h T) :
    Refused h h' T := by
  have hpos := hh.brk_pos
  have htop := hh.top_le
  have hle : h.brk ≤ h'.brk := by rcases hu.brk with hb | hb <;> omega
  refine ⟨hu.mem, hu.head, hle, ?_, by omega, fun hT => ?_, by omega, hu.brk_lt⟩
  · rw [hu.mem, hu.head]
    exact hh.chain
  · have hpad := hh.padding hT
    have htop := hh.top hT
    rcases hu.brk with hb | hb <;> omega

/-! ### malloc -/

/-- The new chunk continues the tiling. -/
theorem Holds.append_newBlock {h : Heap} {T : Layout A} {n hi : ℕ} (hh : Holds h T)
    (hs : Spaced A 0 (T.blocks ++ [newBlock A n h.brk]) hi)
    (hhi : hi = h.brk + paddingAt A h.brk + chunk (A.headerSize + A.roundUp16 n)) :
    ∃ lo, Tiles A lo (T.blocks ++ [newBlock A n h.brk]) hi := by
  obtain ⟨_, _, h16, hcap, hmin⟩ := hs.bounds (b := newBlock A n h.brk) (by simp)
  have hle := le_chunk (A.headerSize + A.roundUp16 n)
  have hnew : Tiles A (newBlock A n h.brk).addr [newBlock A n h.brk] hi := by
    refine ⟨⟨rfl, h16, hcap, hmin⟩, ?_⟩
    show h.brk + paddingAt A h.brk + A.headerSize + (chunk (A.headerSize + A.roundUp16 n) - A.headerSize) = hi
    omega
  by_cases hT : T.blocks = []
  · rw [hT]
    exact ⟨_, hnew⟩
  · have haddr : (newBlock A n h.brk).addr = h.brk := by
      show h.brk + paddingAt A h.brk = h.brk
      rw [hh.padding hT, Nat.add_zero]
    rw [haddr] at hnew
    exact ⟨_, (hh.tiles hT).append hnew⟩

/-! ### free -/

/-- **free** does nothing, or frees the used block around the pointer. -/
theorem free_spec (ptr : ℕ) {h : Heap} {T : Layout A} (hh : Holds h T) :
    ((∀ b ∈ T.blocks, b.InPayload A ptr → b.free) ∧ free A ptr h = some h) ∨
    ∃ L₁ b L₂ m', T.blocks = L₁ ++ b :: L₂ ∧ ¬ b.free ∧ b.InPayload A ptr ∧
      free A ptr h = some { h with mem := m' } ∧
      Reshaped A h { h with mem := m' } (L₁ ++ { b with free := true } :: L₂) T.lo := by
  by_cases hused : ∃ b ∈ T.blocks, b.InPayload A ptr ∧ ¬ b.free
  · obtain ⟨b, hb, hx, hbf⟩ := hused
    obtain ⟨L₁, L₂, hL⟩ := List.append_of_mem hb
    have hc := hh.carries
    have ht := hh.tiles (by rw [hL]; simp)
    rw [hL] at hc ht
    obtain ⟨m', hm', hre⟩ := free_used hc hbf hx
    exact Or.inr ⟨L₁, b, L₂, m', hL, hbf, hx, hm', hre.reshaped (ht.setFree true)⟩
  · have hno : ∀ b ∈ T.blocks, b.InPayload A ptr → b.free := by
      intro b hb hx
      by_contra hbf
      exact hused ⟨b, hb, hx, hbf⟩
    exact Or.inl ⟨hno, free_noop hh.carries hno⟩

end Csc453.Malloc
