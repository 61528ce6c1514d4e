import Csc453.Malloc.Runs

/-!
# Csc453.Malloc.Find — findblock names exactly the block around a pointer

`free` and `realloc` act on the block `findblock` names, for whatever address the caller passes.  On
a tiled heap every address between its ends is in one header or one payload (`Tiles.covers`), so the
search is exact in both directions: `FindsExactly`, for every address and every reachable heap
(`findblock_exact`).
-/

namespace Csc453.Malloc

open Transition

variable {A : Abi}

/-! ### Where an address can lie -/

/-- An address between the ends of a tiling is in a header or in a payload. -/
theorem Tiles.covers {lo hi x : ℕ} {L : List Block} (h : Tiles A lo L hi) (hlo : lo ≤ x) (hhi : x < hi) :
    ∃ b ∈ L, b.InHeader A x ∨ b.InPayload A x := by
  induction L generalizing lo with
  | nil =>
    have hlh : lo = hi := h
    omega
  | cons b L ih =>
    obtain ⟨⟨hb, -⟩, hL⟩ := h
    by_cases hx : b.fin A ≤ x
    · obtain ⟨c, hc, hcx⟩ := ih hL hx
      exact ⟨c, List.mem_cons_of_mem _ hc, hcx⟩
    · refine ⟨b, List.mem_cons_self, ?_⟩
      unfold Block.InHeader Block.InPayload Block.payload
      unfold Block.fin at hx ⊢
      omega

/-- Once a payload starts above `x`, no block from there on has `x` in its payload. -/
theorem Spaced.stop {lo hi x : ℕ} {L₁ L₂ : List Block} {b : Block} (h : Spaced A lo (L₁ ++ b :: L₂) hi)
    (hx : x < b.payload A) : ∀ c ∈ b :: L₂, ¬ c.InPayload A x := by
  intro c hc hcx
  have hle := hcx.1
  rcases List.mem_cons.mp hc with rfl | hc
  · omega
  · have hfin := (h.mid.2.1.bounds hc).1
    unfold Block.payload at hx hle
    unfold Block.fin at hfin
    omega

/-- The address is `NULL`, in a header, below every block or at or past the end of every block. -/
def OffPayload (A : Abi) (L : List Block) (x : ℕ) : Prop :=
  x = 0 ∨ (∃ b ∈ L, b.InHeader A x) ∨ (∀ b ∈ L, x < b.addr) ∨ ∀ b ∈ L, b.fin A ≤ x

/-- In a tiling these are the addresses outside every payload. -/
theorem Tiles.offPayload_iff {lo hi x : ℕ} {L : List Block} (h : Tiles A lo L hi) :
    OffPayload A L x ↔ ∀ b ∈ L, ¬ b.InPayload A x := by
  constructor
  · rintro (rfl | ⟨c, hc, hcx⟩ | hlt | hge) b hb hx
    · exact not_inPayload_zero b hx
    · exact (h.payload hb hx c hc).1 hcx
    · have hlow := hlt b hb
      have hstart := hx.1
      unfold Block.payload at hstart
      omega
    · have hfin := hge b hb
      have hend := hx.2
      omega
  · intro hno
    by_cases hlo : x < lo
    · exact Or.inr (Or.inr (Or.inl fun b hb => hlo.trans_le (h.bounds hb).1))
    by_cases hhi : hi ≤ x
    · exact Or.inr (Or.inr (Or.inr fun b hb => (h.bounds hb).2.1.trans hhi))
    obtain ⟨b, hb, hbx⟩ := h.covers (Nat.le_of_not_lt hlo) (Nat.lt_of_not_le hhi)
    exact Or.inr (Or.inl ⟨b, hb, hbx.resolve_right (hno b hb)⟩)

/-! ### findblock -/

/-- What `findblock (x)` does on a heap tiled by `L`. -/
structure FindsExactly (A : Abi) (h : Heap) (L : List Block) (x : ℕ) : Prop where
  tiling : Tiling A h L
  returns : findblock A x h = some 0 ∨ ∃ b ∈ L, b.addr ≠ 0 ∧ findblock A x h = some b.addr
  found : ∀ b ∈ L, findblock A x h = some b.addr ↔ b.InPayload A x
  unique : ∀ b ∈ L, ∀ c ∈ L, b.InPayload A x → c.InPayload A x → b = c
  null : findblock A x h = some 0 ↔ OffPayload A L x
  stop : ∀ L₁ b L₂, L = L₁ ++ b :: L₂ → x < b.payload A → ∀ c ∈ b :: L₂, ¬ c.InPayload A x

theorem Chain.addr_ne_zero {m : Bytes.Mem} {p : ℕ} {L : List Block} {b : Block} (h : Chain A m p L)
    (hb : b ∈ L) : b.addr ≠ 0 := by
  obtain ⟨L₁, L₂, rfl⟩ := List.append_of_mem hb
  exact h.mid.2.1

/-- The search answers with the block around the address, and with that only. -/
theorem Carries.findblock_iff {h : Heap} {L : List Block} {b : Block} {x : ℕ} (hc : Carries A h L)
    (hb : b ∈ L) : findblock A x h = some b.addr ↔ b.InPayload A x := by
  refine ⟨fun hf => ?_, findblock_inside hc hb⟩
  have hne := Chain.addr_ne_zero hc.chain hb
  rcases findblock_spec (x := x) hc.chain hc.spaced hc.brk_lt with ⟨c, hcL, hcx, hfc⟩ | ⟨-, hf0⟩
  · have haddr : b.addr = c.addr := Option.some.inj (hf.symm.trans hfc)
    rwa [hc.spaced.eq_of_payload hb hcL (payload_congr haddr)]
  · exact absurd (Option.some.inj (hf.symm.trans hf0)) hne

/-- It answers `NULL` for the addresses outside every payload, and for those only. -/
theorem Carries.findblock_null_iff {h : Heap} {L : List Block} {x : ℕ} (hc : Carries A h L) :
    findblock A x h = some 0 ↔ ∀ b ∈ L, ¬ b.InPayload A x := by
  refine ⟨fun hf b hb hx => ?_, findblock_outside hc⟩
  have hfb := findblock_inside hc hb hx
  exact Chain.addr_ne_zero hc.chain hb (Option.some.inj (hfb.symm.trans hf))

theorem Holds.findsExactly {h : Heap} {T : Layout A} (hh : Holds h T) (x : ℕ) :
    FindsExactly A h T.blocks x where
  tiling := hh.tiling
  returns := by
    by_cases hin : ∃ b ∈ T.blocks, b.InPayload A x
    · obtain ⟨b, hb, hx⟩ := hin
      exact Or.inr ⟨b, hb, Chain.addr_ne_zero hh.chain hb, findblock_inside hh.carries hb hx⟩
    · exact Or.inl (findblock_outside hh.carries fun b hb hx => hin ⟨b, hb, hx⟩)
  found _ hb := hh.carries.findblock_iff hb
  unique _ hb _ hc := T.tiles.spaced.eq_of_inPayload hb hc
  null := hh.carries.findblock_null_iff.trans T.tiles.offPayload_iff.symm
  stop L₁ b L₂ hL hx := by
    have hs := T.tiles.spaced
    rw [hL] at hs
    exact hs.stop hx

/-- **findblock is exact**, for every address and every heap reached by requests of bounded size. -/
theorem findblock_exact {hist : List (Event Heap Label)} {h : Heap} (hr : Run (allocator A) hist h)
    (hs : ∀ e ∈ hist, SizesOk A e.label) (hq : ∀ e ∈ hist, Queried A e.pre e.label) :
    ∃ L, ∀ x, FindsExactly A h L x := by
  obtain ⟨T, hT⟩ := run_holds_of_sizes hr hs hq
  exact ⟨T.blocks, hT.findsExactly⟩

theorem findblock_exact_busy : ∃ hist h, Busy hist h ∧ ∀ x, FindsExactly abi64 h busyBlocks x := by
  obtain ⟨hist, h, hb, _⟩ := exists_busy (fun _ => True) (by decide +kernel)
  obtain ⟨L, hL⟩ := findblock_exact hb.run hb.sizes hb.queried
  obtain rfl := Chain.unique (hL 0).tiling.chain hb.chain
  exact ⟨hist, h, hb, hL⟩

end Csc453.Malloc
