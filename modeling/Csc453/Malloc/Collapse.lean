import Csc453.Malloc.Merge

/-!
# Csc453.Malloc.Collapse — merge_free_nodes on an arbitrary block list

`merge_free_nodes_collapses_runs`: on any finite list of blocks of this size, reachable or not, the
loop terminates and leaves one free block for each maximal run of free blocks, and a second call
leaves memory as it is.  `mergeLoop_separated` is the second call: without two neighbouring free
blocks no iteration writes.
-/

namespace Csc453.Malloc

open Bytes Coalesce

variable {A : Abi} {m : Mem}

/-- The block a run of free blocks becomes: at the first address, with the capacities and one header
for each block absorbed. -/
def collapse (A : Abi) : List Block → Block
  | [] => ⟨0, 0, true⟩
  | b :: R => { b with cap := ((b :: R).map Block.cap).sum + R.length * A.headerSize }

theorem collapse_singleton (b : Block) : collapse A [b] = b := by
  simp [collapse]

theorem collapse_cons_cons (b c : Block) (R : List Block) :
    collapse A (b :: c :: R) = b.join A (collapse A (c :: R)) := by
  simp only [collapse, Block.join, List.map_cons, List.sum_cons, List.length_cons, Block.mk.injEq]
  refine ⟨trivial, ?_, trivial⟩
  rw [Nat.succ_mul]
  omega

/-- The merged list, run by run. -/
theorem merged_eq_collapse (L : List Block) : merged A L = (runs Block.free L).map (collapse A) :=
  coalesce_eq_map_runs (coalescing A) collapse_singleton collapse_cons_cons L

/-! ### What the merge keeps -/

theorem span_push (b : Block) (L : List Block) :
    span A (push Block.free (Block.join A) b L) = span A (b :: L) := by
  exact push_keeps (P := fun M => span A M = span A (b :: L)) (fun c M _ _ h => (span_join _ c M).trans h) rfl

theorem span_merged (L : List Block) : span A (merged A L) = span A L := by
  induction L with
  | nil => rfl
  | cons b L ih =>
    show span A (push Block.free (Block.join A) b (merged A L)) = _
    rw [span_push, span_cons, ih, span_cons]

theorem used_push (b : Block) (L : List Block) :
    (push Block.free (Block.join A) b L).filter (fun c => !c.free) =
      (b :: L).filter fun c => !c.free := by
  refine push_keeps (P := fun M : List Block => M.filter (fun c => !c.free) = _)
    (fun c M hb hc h => ?_) rfl
  rw [← h]
  simp [Block.join, hb, hc]

/-- The used blocks stay, unchanged and in order. -/
theorem used_merged (L : List Block) :
    (merged A L).filter (fun c => !c.free) = L.filter fun c => !c.free := by
  induction L with
  | nil => rfl
  | cons b L ih =>
    show (push Block.free (Block.join A) b (merged A L)).filter _ = _
    rw [used_push, List.filter_cons, ih, List.filter_cons]

/-! ### The second call -/

/-- Without two neighbouring free blocks the loop writes nothing, outside a run and in a run of one. -/
theorem mergeLoop_separated (L : List Block) :
    (∀ fuel curr, L.length < fuel → Chain A m curr L → NoAdjacentFree L →
      mergeLoop A fuel 0 curr m = some m) ∧
    (∀ fuel (f : Block), L.length < fuel → f.free → Chain A m f.addr (f :: L) →
      NoAdjacentFree (f :: L) → mergeLoop A fuel f.addr (A.nextBlockHeader m f.addr) m = some m) := by
  induction L with
  | nil =>
    refine ⟨fun fuel curr hfuel hc _ => ?_, fun fuel f hfuel _ hc _ => ?_⟩
    · obtain ⟨k, rfl⟩ := Nat.exists_eq_add_of_lt hfuel
      rw [mergeLoop, if_pos (show curr = 0 from hc)]
    · obtain ⟨k, rfl⟩ := Nat.exists_eq_add_of_lt hfuel
      rw [mergeLoop, if_pos (show A.nextBlockHeader m f.addr = 0 from hc.2.2)]
  | cons b L ih =>
    obtain ⟨ihOut, ihIn⟩ := ih
    have step : ∀ fuel first, L.length < fuel → (first = 0 ∨ ¬ b.free) → Chain A m b.addr (b :: L) →
        NoAdjacentFree (b :: L) → mergeLoop A (fuel + 1) first b.addr m = some m := by
      intro fuel first hfuel hor hc hn
      obtain ⟨hne, hb, hL⟩ := hc
      rw [mergeLoop, if_neg hne]
      by_cases hfree : b.free
      · have h0 : first = 0 := hor.resolve_right fun h => h hfree
        rw [if_pos ⟨h0, by rw [hb.free, hfree]⟩]
        exact ihIn fuel b hfuel hfree ⟨hne, hb, hL⟩ hn
      · have hused : ¬ A.isFree m b.addr = true := by rw [hb.free]; exact hfree
        rw [if_neg fun h => hused h.2, if_neg fun h => hused h.2]
        exact ihOut fuel _ hfuel hL (List.IsChain.tail hn)
    refine ⟨fun fuel curr hfuel hc hn => ?_, fun fuel f hfuel hf hc hn => ?_⟩
    · obtain ⟨k, rfl⟩ : ∃ k, fuel = k + 1 := ⟨fuel - 1, by omega⟩
      rw [List.length_cons] at hfuel
      have hcurr : curr = b.addr := hc.head
      subst hcurr
      exact step k 0 (by omega) (Or.inl rfl) hc hn
    · obtain ⟨k, rfl⟩ : ∃ k, fuel = k + 1 := ⟨fuel - 1, by omega⟩
      rw [List.length_cons] at hfuel
      have hcb : Chain A m (A.nextBlockHeader m f.addr) (b :: L) := hc.2.2
      have hcurr : A.nextBlockHeader m f.addr = b.addr := hcb.head
      rw [hcurr] at hcb ⊢
      have hn' : ¬ (f.free ∧ b.free) ∧ NoAdjacentFree (b :: L) := List.isChain_cons_cons.mp hn
      exact step k f.addr (by omega) (Or.inr fun hb => hn'.1 ⟨hf, hb⟩) hcb hn'.2

theorem mergeFreeNodes_separated {h : Heap} {L : List Block} (hc : Chain A h.mem h.heapHead L)
    (hn : NoAdjacentFree L) (hsp : span A L < A.space) : mergeFreeNodes A h = some h := by
  have hlen := length_le_span (A := A) L
  rw [mergeFreeNodes, (mergeLoop_separated L).1 A.space h.heapHead (by omega) hc hn]
  rfl

/-- **merge_free_nodes** is run collapsing, on every finite list of blocks. -/
theorem merge_free_nodes_collapses_runs {h : Heap} {L : List Block}
    (hc : Chain A h.mem h.heapHead L) (hap : Apart A L) (hsp : span A L < A.space) :
    ∃ m', mergeFreeNodes A h = some { h with mem := m' } ∧
      Chain A m' h.heapHead ((runs Block.free L).map (collapse A)) ∧
      OnlyHeaders A L h.mem m' ∧
      ((runs Block.free L).map (collapse A)).filter (fun b => !b.free) = L.filter (fun b => !b.free) ∧
      span A ((runs Block.free L).map (collapse A)) = span A L ∧
      mergeFreeNodes A { h with mem := m' } = some { h with mem := m' } := by
  obtain ⟨m', hm', hc', hfr⟩ := mergeFreeNodes_spec hc hap hsp
  have hn : NoAdjacentFree (merged A L) := separated_coalesce L
  have hsp' : span A (merged A L) < A.space := by
    rw [span_merged]
    exact hsp
  have hsecond := mergeFreeNodes_separated (h := { h with mem := m' }) hc' hn hsp'
  rw [← merged_eq_collapse]
  exact ⟨m', hm', hc', hfr, used_merged L, span_merged L, hsecond⟩

/-- Two free blocks before a used one. -/
def threeBlocks : List Block := [⟨64, 16, true⟩, ⟨112, 48, true⟩, ⟨192, 16, false⟩]

/-- Memory in which the blocks of a list are chained. -/
def headersOf (A : Abi) : List Block → Mem
  | [] => fun _ => 0
  | b :: L =>
    let m := A.setFree (A.setCapacity (headersOf A L) b.addr b.cap) b.addr b.free
    A.setNext m b.addr (match L with | [] => 0 | c :: _ => c.addr)

theorem threeBlocks_chain : Chain abi64 (headersOf abi64 threeBlocks) 64 threeBlocks := by
  refine ⟨by decide, ⟨rfl, by decide +kernel, by decide +kernel⟩, by decide +kernel,
    ⟨by decide +kernel, by decide +kernel, by decide +kernel⟩, by decide +kernel,
    ⟨by decide +kernel, by decide +kernel, by decide +kernel⟩, ?_⟩
  show abi64.nextBlockHeader (headersOf abi64 threeBlocks) _ = 0
  decide +kernel

theorem merge_free_nodes_three :
    ∃ m', mergeFreeNodes abi64 ⟨headersOf abi64 threeBlocks, 64, 240, 0, []⟩ =
        some ⟨m', 64, 240, 0, []⟩ ∧
      Chain abi64 m' 64 [⟨64, 96, true⟩, ⟨192, 16, false⟩] := by
  obtain ⟨m', hm', hc, _⟩ := merge_free_nodes_collapses_runs
    (h := ⟨headersOf abi64 threeBlocks, 64, 240, 0, []⟩) threeBlocks_chain
    (by unfold Apart ApartAt; decide +kernel) (by decide +kernel)
  exact ⟨m', hm', hc⟩

end Csc453.Malloc
