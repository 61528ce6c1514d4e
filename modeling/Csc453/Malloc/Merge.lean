import Csc453.Malloc.Tilings

/-!
# Csc453.Malloc.Merge — merge_free_nodes, splitblock and the walks, on lists

`mergeLoop_spec`: on any finite list of blocks that fits the machine, the loop terminates, leaves
the merged list, and writes into headers only.  `splitblock_spec` and the two walks (`firstFit_spec`,
`findblock_spec`) are read off the list in the same way.
-/

namespace Csc453.Malloc

open Bytes Coalesce

variable {A : Abi} {m m' : Mem}

theorem merged_cons_free {f b : Block} (hf : f.free) (hb : b.free) (L : List Block) :
    merged A (f :: b :: L) = merged A (f.join A b :: L) := coalesce_join (coalescing A) hf hb L

theorem merged_cons_used {b : Block} (hb : ¬ b.free) (L : List Block) :
    merged A (b :: L) = b :: merged A L := coalesce_of_not hb L

theorem merged_skip {f b : Block} (hb : ¬ b.free) (L : List Block) :
    merged A (f :: b :: L) = f :: b :: merged A L := coalesce_skip hb L

theorem Apart.tail {b : Block} {L : List Block} (h : Apart A (b :: L)) :
    Apart A L ∧ ∀ c ∈ L, ApartAt A b.addr c.addr := by
  rw [Apart, List.pairwise_cons] at h
  exact ⟨h.2, h.1⟩

theorem ApartAt.symm {a b : ℕ} (h : ApartAt A a b) : ApartAt A b a := Or.symm h

theorem span_cons (b : Block) (L : List Block) : span A (b :: L) = A.headerSize + b.cap + span A L := rfl

theorem span_join (f b : Block) (L : List Block) : span A (f.join A b :: L) = span A (f :: b :: L) := by
  simp only [span_cons, Block.join]
  omega

theorem Apart.join {f b : Block} {L : List Block} (h : Apart A (f :: b :: L)) : Apart A (f.join A b :: L) :=
  List.pairwise_cons.mpr ⟨fun c hc => h.tail.2 c (List.mem_cons_of_mem _ hc), h.tail.1.tail.1⟩

/-- A header that has not changed, in front of a list that may have. -/
theorem Seg.cons_same {b : Block} {L : List Block} {q : ℕ} (hne : b.addr ≠ 0) (hb : Header A m b.addr b)
    (hs : SameHeader A m m' b.addr) (hL : Seg A m' (A.nextBlockHeader m b.addr) L q) :
    Seg A m' b.addr (b :: L) q := by
  refine ⟨hne, hb.congr hs, ?_⟩
  rw [hs.next]
  exact hL

/-- Absorbing the block after `f` into `f`, as `merge_free_nodes` and `realloc` do it. -/
theorem absorb_spec {f b : Block} {L : List Block} {q : ℕ} (h : Seg A m f.addr (f :: b :: L) q)
    (hap : Apart A (f :: b :: L)) (hsp : span A (f :: b :: L) < A.space) :
    Seg A (absorb A m f.addr b.addr) f.addr (f.join A b :: L) q ∧
      OnlyHeaders A [f] m (absorb A m f.addr b.addr) := by
  obtain ⟨hne, hf, h2⟩ := h
  obtain ⟨hneb, hb, hL⟩ := h2
  have hbaddr := hb.addr
  rw [hbaddr] at hb hL
  rw [span_cons, span_cons] at hsp
  obtain ⟨hapL, hapf⟩ := hap.tail
  have hfb : ApartAt A f.addr b.addr := hapf b List.mem_cons_self
  have hsum : A.add (A.payloadCapacity m f.addr) (A.add A.headerSize (A.payloadCapacity m b.addr)) =
      (f.join A b).cap := by
    rw [hf.cap, hb.cap, Abi.add_eq (show A.headerSize + b.cap < A.space by omega),
      Abi.add_eq (by omega)]
    rfl
  unfold absorb
  rw [hsum]
  have hcap : (f.join A b).cap < A.space := by
    simp only [Block.join]
    omega
  have hnext : A.nextBlockHeader (A.setCapacity m f.addr (f.join A b).cap) b.addr =
      A.nextBlockHeader m b.addr := (sameHeader_setCapacity hfb).next
  dsimp only
  rw [hnext]
  refine ⟨⟨hne, ⟨rfl, ?_, ?_⟩, ?_⟩, fun x hx => ?_⟩
  · rw [capacity_setNext, capacity_setCapacity hcap]
  · rw [isFree_setNext, isFree_setCapacity]
    exact hf.free
  · rw [next_setNext (next_lt m b.addr)]
    refine hL.congr fun c hc => ?_
    have hfc : ApartAt A f.addr c.addr := hapf c (List.mem_cons_of_mem _ hc)
    exact (sameHeader_setCapacity hfc).trans (sameHeader_setNext hfc)
  · have hxf := hx f List.mem_cons_self
    unfold Block.InHeader at hxf
    rw [setNext_outside (by omega), setCapacity_outside (by omega)]

/-- The two states of the loop: outside a run of free blocks, and in the run that starts at `f`. -/
theorem mergeLoop_spec (L : List Block) :
    (∀ fuel curr m, L.length < fuel → Chain A m curr L → Apart A L → span A L < A.space →
      ∃ m', mergeLoop A fuel 0 curr m = some m' ∧ Chain A m' curr (merged A L) ∧ OnlyHeaders A L m m') ∧
    (∀ fuel (f : Block) m, L.length < fuel → f.free → Chain A m f.addr (f :: L) → Apart A (f :: L) →
      span A (f :: L) < A.space →
      ∃ m', mergeLoop A fuel f.addr (A.nextBlockHeader m f.addr) m = some m' ∧
        Chain A m' f.addr (merged A (f :: L)) ∧ OnlyHeaders A (f :: L) m m') := by
  induction L with
  | nil =>
    refine ⟨fun fuel curr m hfuel hc _ _ => ?_, fun fuel f m hfuel _ hc _ _ => ?_⟩
    · obtain ⟨k, rfl⟩ := Nat.exists_eq_add_of_lt hfuel
      refine ⟨m, ?_, hc, .refl _⟩
      rw [mergeLoop, if_pos (show curr = 0 from hc)]
    · obtain ⟨k, rfl⟩ := Nat.exists_eq_add_of_lt hfuel
      refine ⟨m, ?_, hc, .refl _⟩
      rw [mergeLoop, if_pos (show A.nextBlockHeader m f.addr = 0 from hc.2.2)]
  | cons b L ih =>
    obtain ⟨ihOut, ihIn⟩ := ih
    refine ⟨fun fuel curr m hfuel hc hap hsp => ?_, fun fuel f m hfuel hf hc hap hsp => ?_⟩
    · obtain ⟨k, rfl⟩ : ∃ k, fuel = k + 1 := ⟨fuel - 1, by omega⟩
      have hk : L.length < k := by
        rw [List.length_cons] at hfuel
        omega
      have hcurr : curr = b.addr := hc.head
      subst hcurr
      obtain ⟨hne, hb, hL⟩ := hc
      by_cases hfree : b.free
      · rw [mergeLoop, if_neg hne, if_pos ⟨rfl, by rw [hb.free, hfree]⟩]
        exact ihIn k b m hk hfree ⟨hne, hb, hL⟩ hap hsp
      · have hused : ¬ A.isFree m b.addr = true := by rw [hb.free]; exact hfree
        rw [mergeLoop, if_neg hne, if_neg fun h => hused h.2, if_neg fun h => hused h.2]
        rw [span_cons] at hsp
        obtain ⟨m', hm', hc', hfr⟩ := ihOut k _ m hk hL hap.tail.1 (by omega)
        have hsame : SameHeader A m m' b.addr := hfr.sameHeader fun c hc => (hap.tail.2 c hc).symm
        refine ⟨m', hm', ?_, hfr.mono fun c hc => ⟨c, List.mem_cons_of_mem _ hc, rfl⟩⟩
        rw [merged_cons_used hfree]
        exact Seg.cons_same hne hb hsame hc'
    · obtain ⟨k, rfl⟩ : ∃ k, fuel = k + 1 := ⟨fuel - 1, by omega⟩
      have hk : L.length < k := by
        rw [List.length_cons] at hfuel
        omega
      obtain ⟨hnef, hhf, hbL⟩ := hc
      have hcurr : A.nextBlockHeader m f.addr = b.addr := hbL.head
      rw [hcurr] at hbL ⊢
      obtain ⟨hneb, hhb, hL⟩ := hbL
      by_cases hfree : b.free
      · -- the run goes on: swallow `b` and look at the block after it
        have hseg : Seg A m f.addr (f :: b :: L) 0 := ⟨hnef, hhf, by rw [hcurr]; exact ⟨hneb, hhb, hL⟩⟩
        obtain ⟨hc₂, hfr₂⟩ := absorb_spec hseg hap hsp
        rw [mergeLoop, if_neg hneb, if_neg fun h => hnef h.1, if_pos ⟨hnef, by rw [hhb.free, hfree]⟩]
        have hsp' : span A (f.join A b :: L) < A.space := by
          rw [span_join]
          exact hsp
        obtain ⟨m', hm', hc', hfr⟩ := ihIn k (f.join A b) _ hk hf hc₂ hap.join hsp'
        refine ⟨m', hm', ?_, ?_⟩
        · rw [merged_cons_free hf hfree]
          exact hc'
        · refine (hfr₂.mono fun c hc => ?_).trans (hfr.mono fun c hc => ?_)
          · exact ⟨f, List.mem_cons_self, by rw [List.mem_singleton.mp hc]⟩
          · rcases List.mem_cons.mp hc with rfl | hc
            · exact ⟨f, List.mem_cons_self, rfl⟩
            · exact ⟨c, List.mem_cons_of_mem _ (List.mem_cons_of_mem _ hc), rfl⟩
      · have hused : ¬ A.isFree m b.addr = true := by rw [hhb.free]; exact hfree
        rw [mergeLoop, if_neg hneb, if_neg fun h => hnef h.1, if_neg fun h => hused h.2]
        rw [span_cons, span_cons] at hsp
        obtain ⟨m', hm', hc', hfr⟩ := ihOut k _ m hk hL hap.tail.1.tail.1 (by omega)
        have hsame : ∀ c : Block, c ∈ [f, b] → SameHeader A m m' c.addr := by
          intro c hc
          refine hfr.sameHeader fun d hd => ?_
          rcases List.mem_pair.mp hc with rfl | rfl
          · exact (hap.tail.2 d (List.mem_cons_of_mem _ hd)).symm
          · exact (hap.tail.1.tail.2 d hd).symm
        have hsf := hsame f List.mem_cons_self
        have hsb := hsame b (by simp)
        refine ⟨m', hm', ?_, hfr.mono fun c hc =>
          ⟨c, List.mem_cons_of_mem _ (List.mem_cons_of_mem _ hc), rfl⟩⟩
        rw [merged_skip hfree]
        refine Seg.cons_same hnef hhf hsf ?_
        rw [hcurr]
        exact Seg.cons_same hneb hhb hsb hc'

theorem length_le_span (L : List Block) : L.length ≤ span A L := by
  have := A.header_facts
  induction L with
  | nil => exact Nat.zero_le _
  | cons b L ih =>
    rw [span_cons, List.length_cons]
    omega

/-- **merge_free_nodes** terminates and leaves the merged list. -/
theorem mergeFreeNodes_spec {h : Heap} {L : List Block} (hc : Chain A h.mem h.heapHead L)
    (hap : Apart A L) (hsp : span A L < A.space) :
    ∃ m', mergeFreeNodes A h = some { h with mem := m' } ∧ Chain A m' h.heapHead (merged A L) ∧
      OnlyHeaders A L h.mem m' := by
  have hlen := length_le_span (A := A) L
  obtain ⟨m', hm', hc', hfr⟩ := (mergeLoop_spec L).1 A.space h.heapHead h.mem (by omega) hc hap hsp
  exact ⟨m', by rw [mergeFreeNodes, hm']; rfl, hc', hfr⟩

/-! ### splitblock -/

/-- What a split leaves of a block. -/
def splitList (A : Abi) (b : Block) (requested : ℕ) : List Block :=
  if A.headerSize + MINIMUM_PAYLOAD_SIZE ≤ b.cap - requested then
    [{ b with cap := requested },
      ⟨b.addr + A.headerSize + requested, b.cap - requested - A.headerSize, true⟩]
  else [b]

theorem splitList_of_le {b : Block} {r : ℕ} (h : A.headerSize + MINIMUM_PAYLOAD_SIZE ≤ b.cap - r) :
    splitList A b r = [{ b with cap := r },
      ⟨b.addr + A.headerSize + r, b.cap - r - A.headerSize, true⟩] := if_pos h

theorem splitList_of_lt {b : Block} {r : ℕ} (h : b.cap - r < A.headerSize + MINIMUM_PAYLOAD_SIZE) :
    splitList A b r = [b] := if_neg (by omega)

/-- A split cuts the range of the block in two. -/
theorem splitList_tiles {b : Block} {r : ℕ} (h16 : b.addr % 16 = 0) (hcap : b.cap % 16 = 0)
    (hmin : 16 ≤ b.cap) (hr16 : r % 16 = 0) (hr : 16 ≤ r) :
    Tiles A b.addr (splitList A b r) (b.fin A) := by
  have hH := A.header_facts
  by_cases hfit : A.headerSize + MINIMUM_PAYLOAD_SIZE ≤ b.cap - r
  · rw [splitList_of_le hfit]
    unfold MINIMUM_PAYLOAD_SIZE at hfit
    refine ⟨⟨rfl, h16, hr16, hr⟩, ⟨rfl, ?_, ?_, ?_⟩, ?_⟩
    · show (b.addr + A.headerSize + r) % 16 = 0
      omega
    · show (b.cap - r - A.headerSize) % 16 = 0
      omega
    · show 16 ≤ b.cap - r - A.headerSize
      omega
    · show b.addr + A.headerSize + r + A.headerSize + (b.cap - r - A.headerSize) = b.fin A
      unfold Block.fin
      omega
  · rw [splitList_of_lt (by omega)]
    exact ⟨⟨rfl, h16, hcap, hmin⟩, rfl⟩

theorem Tiles.splitAt {lo hi r : ℕ} {b : Block} {L M : List Block} (h : Tiles A lo (L ++ b :: M) hi)
    (hr16 : r % 16 = 0) (hr : 16 ≤ r) : Tiles A lo (L ++ (splitList A b r ++ M)) hi := by
  obtain ⟨h1, h2, h16, hcap, hmin⟩ := h.mid
  exact h1.append ((splitList_tiles h16 hcap hmin hr16 hr).append h2)

theorem Spaced.splitAt {lo hi r : ℕ} {b : Block} {L M : List Block} (h : Spaced A lo (L ++ b :: M) hi)
    (hr16 : r % 16 = 0) (hr : 16 ≤ r) : Spaced A lo (L ++ (splitList A b r ++ M)) hi := by
  obtain ⟨h1, h2, h16, hcap, hmin⟩ := h.mid
  exact h1.append ((splitList_tiles h16 hcap hmin hr16 hr).spaced.append h2)

/-- The five stores of a split. -/
theorem writeSplit_spec {b : Block} {L : List Block} {q r : ℕ} (h : Seg A m b.addr (b :: L) q)
    (hfin : b.fin A < A.space) (hmin : A.headerSize + MINIMUM_PAYLOAD_SIZE ≤ b.cap - r)
    (hL : ∀ c ∈ L, b.fin A ≤ c.addr) :
    Seg A (writeSplit A b.addr r (b.cap - r) m) b.addr (splitList A b r ++ L) q ∧
      OnlyHeaders A (splitList A b r) m (writeSplit A b.addr r (b.cap - r) m) := by
  obtain ⟨hne, hb, hseg⟩ := h
  have hH := A.header_facts
  unfold MINIMUM_PAYLOAD_SIZE at hmin
  unfold Block.fin at hfin hL
  have hl : A.add (A.add b.addr A.headerSize) r = b.addr + A.headerSize + r := by
    rw [Abi.add_eq (a := b.addr) (by omega), Abi.add_eq (by omega)]
  have hv : A.sub (b.cap - r) A.headerSize = b.cap - r - A.headerSize :=
    Abi.sub_eq (by omega) (by omega)
  rw [splitList_of_le (by unfold MINIMUM_PAYLOAD_SIZE; exact hmin)]
  unfold writeSplit
  rw [hl, hv]
  dsimp only
  generalize hlo : b.addr + A.headerSize + r = l
  generalize hm₁ : A.setCapacity m b.addr r = m₁
  generalize hm₂ : A.setCapacity m₁ l (b.cap - r - A.headerSize) = m₂
  generalize hm₃ : A.setFree m₂ l true = m₃
  generalize hm₄ : A.setNext m₃ l (A.nextBlockHeader m₃ b.addr) = m₄
  have hbl : ApartAt A b.addr l := Or.inl (by omega)
  -- the stores into the leftover header leave the header of `b`, and the other way round
  have hb₁₃ : SameHeader A m₁ m₃ b.addr := by
    subst hm₃ hm₂
    exact (sameHeader_setCapacity hbl.symm).trans (sameHeader_setFree hbl.symm)
  have hb₁₄ : SameHeader A m₁ m₄ b.addr := by
    subst hm₄
    exact hb₁₃.trans (sameHeader_setNext hbl.symm)
  have hl₅ : SameHeader A m₄ (A.setNext m₄ b.addr l) l := sameHeader_setNext hbl
  have hnext : A.nextBlockHeader m₃ b.addr = A.nextBlockHeader m b.addr := by
    rw [hb₁₃.next, ← hm₁, next_setCapacity]
  have houter : ∀ x, ¬ (b.addr ≤ x ∧ x < b.addr + A.headerSize) → ¬ (l ≤ x ∧ x < l + A.headerSize) →
      A.setNext m₄ b.addr l x = m x := by
    intro x h1 h2
    rw [setNext_outside (by omega), ← hm₄, setNext_outside (by omega), ← hm₃,
      setFree_outside (by omega), ← hm₂, setCapacity_outside (by omega), ← hm₁,
      setCapacity_outside (by omega)]
  refine ⟨⟨hne, ⟨rfl, ?_, ?_⟩, ?_⟩, fun x hx => ?_⟩
  · show _ = r
    rw [capacity_setNext, hb₁₄.capacity, ← hm₁, capacity_setCapacity (by omega)]
  · rw [isFree_setNext, hb₁₄.free, ← hm₁, isFree_setCapacity]
    exact hb.free
  · rw [next_setNext (by omega)]
    refine ⟨by omega, ⟨rfl, ?_, ?_⟩, ?_⟩
    · show _ = b.cap - r - A.headerSize
      rw [hl₅.capacity, ← hm₄, capacity_setNext, ← hm₃, capacity_setFree, ← hm₂,
        capacity_setCapacity (by omega)]
    · rw [hl₅.free, ← hm₄, isFree_setNext, ← hm₃, isFree_setFree]
    · have hlast : A.nextBlockHeader (A.setNext m₄ b.addr l) l = A.nextBlockHeader m b.addr := by
        rw [hl₅.next, ← hm₄, next_setNext (next_lt _ _), hnext]
      rw [hlast]
      refine hseg.congr fun c hc x h1 h2 => ?_
      have := hL c hc
      exact houter x (by omega) (by omega)
  · have h1 := hx _ List.mem_cons_self
    have h2 := hx _ (List.mem_cons_of_mem _ List.mem_cons_self)
    exact houter x h1 h2

/-- **splitblock** returns the payload and leaves the split list, merged. -/
theorem splitblock_spec {h : Heap} {L₁ L₂ : List Block} {b : Block} {lo hi r : ℕ}
    (hc : Chain A h.mem h.heapHead (L₁ ++ b :: L₂)) (ht : Spaced A lo (L₁ ++ b :: L₂) hi)
    (hn : NoAdjacentFree (L₁ ++ b :: L₂)) (hhi : hi < A.space) (hr16 : r % 16 = 0) (hr : 16 ≤ r)
    (hrb : r ≤ b.cap) :
    ∃ m', splitblock A b.addr r h = some (b.payload A, { h with mem := m' }) ∧
      Chain A m' h.heapHead (merged A (L₁ ++ (splitList A b r ++ L₂))) ∧
      OnlyHeaders A (L₁ ++ (splitList A b r ++ L₂)) h.mem m' := by
  have ht' := ht.splitAt hr16 hr
  have hbnd := ht.bounds (b := b) (by simp)
  have hH := A.header_facts
  have hS := A.space_facts
  have hbfin : b.addr + A.headerSize + b.cap ≤ hi := hbnd.2.1
  obtain ⟨hcL₁, hcb⟩ := hc.mid
  have hcap : A.payloadCapacity h.mem b.addr = b.cap := hcb.2.1.cap
  have hpay : A.add b.addr A.headerSize = b.payload A := Abi.add_eq (by omega)
  have hminb : minimumBlockSize A = A.headerSize + MINIMUM_PAYLOAD_SIZE := by
    unfold minimumBlockSize MINIMUM_PAYLOAD_SIZE
    exact Abi.add_eq (by omega)
  unfold splitblock
  rw [hcap, Abi.sub_eq hrb (by omega), hpay, hminb]
  dsimp only
  by_cases hmin : A.headerSize + MINIMUM_PAYLOAD_SIZE ≤ b.cap - r
  · rw [if_pos hmin]
    have hL₂ : ∀ c ∈ L₂, b.fin A ≤ c.addr := fun c hc => (ht.mid.2.1.bounds hc).1
    obtain ⟨hw, hwf⟩ := writeSplit_spec hcb (by unfold Block.fin; omega) hmin hL₂
    have hap : Apart A (L₁ ++ (splitList A b r ++ L₂)) := ht'.apart
    have hL₁ : ∀ c ∈ L₁, SameHeader A h.mem (writeSplit A b.addr r (b.cap - r) h.mem) c.addr := by
      intro c hc
      refine hwf.sameHeader fun d hd => ?_
      exact ((List.pairwise_append.mp hap).2.2 c hc d (List.mem_append_left _ hd)).symm
    have hchain : Chain A (writeSplit A b.addr r (b.cap - r) h.mem) h.heapHead
        (L₁ ++ (splitList A b r ++ L₂)) := (hcL₁.congr hL₁).append hw
    have hspan := ht'.add_span_le
    obtain ⟨m', hm', hc', hfr⟩ := mergeFreeNodes_spec
      (h := { h with mem := writeSplit A b.addr r (b.cap - r) h.mem }) hchain hap (by omega)
    refine ⟨m', by rw [hm']; rfl, hc', ?_⟩
    refine (hwf.mono fun c hc => ⟨c, ?_, rfl⟩).trans hfr
    exact List.mem_append_right _ (List.mem_append_left _ hc)
  · rw [if_neg hmin]
    have hM : L₁ ++ (splitList A b r ++ L₂) = L₁ ++ b :: L₂ := by
      rw [splitList_of_lt (by omega)]
      rfl
    refine ⟨h.mem, rfl, ?_, .refl _⟩
    rw [hM, show merged A (L₁ ++ b :: L₂) = L₁ ++ b :: L₂ from coalesce_of_separated hn]
    exact hc

/-! ### The walks -/

/-- The address of the last block, `prev` if there is none. -/
def lastAddr (prev : ℕ) : List Block → ℕ
  | [] => prev
  | b :: L => lastAddr b.addr L

/-- A free block with room for `r` bytes. -/
def Fits (r : ℕ) (b : Block) : Prop := b.free = true ∧ r ≤ b.cap

instance (r : ℕ) (b : Block) : Decidable (Fits r b) := instDecidableAnd

/-- The first-fit walk stops at the first block that fits, or at the end. -/
theorem firstFit_spec {r : ℕ} {L : List Block} {fuel prev curr : ℕ} (hfuel : L.length < fuel)
    (hc : Chain A m curr L) :
    (∃ L₁ b L₂ prev', L = L₁ ++ b :: L₂ ∧ Fits r b ∧ (∀ c ∈ L₁, ¬ Fits r c) ∧
      firstFit A m r fuel prev curr = some (prev', b.addr)) ∨
    ((∀ c ∈ L, ¬ Fits r c) ∧ firstFit A m r fuel prev curr = some (lastAddr prev L, 0)) := by
  induction L generalizing fuel prev curr with
  | nil =>
    obtain ⟨k, rfl⟩ : ∃ k, fuel = k + 1 := ⟨fuel - 1, by simp at hfuel; omega⟩
    have h0 : curr = 0 := hc
    refine Or.inr ⟨by simp, ?_⟩
    rw [firstFit, if_pos h0, h0]
    rfl
  | cons b L ih =>
    rw [List.length_cons] at hfuel
    obtain ⟨k, rfl⟩ : ∃ k, fuel = k + 1 := ⟨fuel - 1, by omega⟩
    obtain ⟨hne, hb, hL⟩ := hc
    have hiff : (A.isFree m curr = true ∧ r ≤ A.payloadCapacity m curr) ↔ Fits r b := by
      rw [hb.free, hb.cap]
      exact Iff.rfl
    by_cases hfit : Fits r b
    · refine Or.inl ⟨[], b, L, prev, rfl, hfit, by simp, ?_⟩
      rw [firstFit, if_neg hne, if_pos (hiff.mpr hfit), hb.addr]
    · have hstep : firstFit A m r (k + 1) prev curr = firstFit A m r k curr (A.nextBlockHeader m curr) := by
        rw [firstFit, if_neg hne, if_neg fun h => hfit (hiff.mp h)]
      rw [hstep]
      have hk : L.length < k := by omega
      rcases @ih k curr _ hk hL with ⟨L₁, c, L₂, prev', rfl, hc, hno, heq⟩ | ⟨hno, heq⟩
      · refine Or.inl ⟨b :: L₁, c, L₂, prev', rfl, hc, fun d hd => ?_, heq⟩
        rcases List.mem_cons.mp hd with rfl | hd
        · exact hfit
        · exact hno d hd
      · refine Or.inr ⟨fun d hd => ?_, ?_⟩
        · rcases List.mem_cons.mp hd with rfl | hd
          · exact hfit
          · exact hno d hd
        · rw [heq, hb.addr]
          rfl

/-- The early stop of `findblock` misses nothing: past the first payload above `ptr` there is no
block that contains it. -/
theorem findLoop_spec {x lo hi : ℕ} {L : List Block} {fuel curr : ℕ} (hfuel : L.length < fuel)
    (hc : Chain A m curr L) (ht : Spaced A lo L hi) (hhi : hi < A.space) :
    (∃ b ∈ L, b.InPayload A x ∧ findLoop A m x fuel curr = some b.addr) ∨
    ((∀ b ∈ L, ¬ b.InPayload A x) ∧ findLoop A m x fuel curr = some 0) := by
  induction L generalizing fuel curr lo with
  | nil =>
    obtain ⟨k, rfl⟩ : ∃ k, fuel = k + 1 := ⟨fuel - 1, by simp at hfuel; omega⟩
    refine Or.inr ⟨by simp, ?_⟩
    rw [findLoop, if_pos (show curr = 0 from hc)]
  | cons b L ih =>
    rw [List.length_cons] at hfuel
    obtain ⟨k, rfl⟩ : ∃ k, fuel = k + 1 := ⟨fuel - 1, by omega⟩
    obtain ⟨hne, hb, hL⟩ := hc
    have hbaddr := hb.addr
    subst hbaddr
    have hle := ht.2.le
    have hbeg := ht.add_header hhi List.mem_cons_self
    have hfin : A.add (b.payload A) (A.payloadCapacity m b.addr) = b.fin A := by
      rw [hb.cap]
      exact Abi.add_eq (by unfold Block.payload; unfold Block.fin at hle; omega)
    rw [findLoop, if_neg hne]
    dsimp only
    rw [hbeg, hfin]
    by_cases hin : b.payload A ≤ x ∧ x < b.fin A
    · rw [if_pos hin]
      exact Or.inl ⟨b, List.mem_cons_self, hin, rfl⟩
    · rw [if_neg hin]
      by_cases hstop : x < b.payload A
      · rw [if_pos hstop]
        refine Or.inr ⟨fun c hc hx => ?_, rfl⟩
        rcases List.mem_cons.mp hc with rfl | hc
        · exact hin hx
        · have := (ht.2.bounds hc).1
          unfold Block.InPayload at hx
          unfold Block.payload at hx hstop
          unfold Block.fin at this
          omega
      · rw [if_neg hstop]
        have hk : L.length < k := by omega
        rcases ih hk hL ht.2 with ⟨c, hc, hx, heq⟩ | ⟨hno, heq⟩
        · exact Or.inl ⟨c, List.mem_cons_of_mem _ hc, hx, heq⟩
        · refine Or.inr ⟨fun c hc => ?_, heq⟩
          rcases List.mem_cons.mp hc with rfl | hc
          · exact hin
          · exact hno c hc

theorem findblock_spec {h : Heap} {x lo hi : ℕ} {L : List Block} (hc : Chain A h.mem h.heapHead L)
    (ht : Spaced A lo L hi) (hhi : hi < A.space) :
    (∃ b ∈ L, b.InPayload A x ∧ findblock A x h = some b.addr) ∨
    ((∀ b ∈ L, ¬ b.InPayload A x) ∧ findblock A x h = some 0) := by
  have hlen := length_le_span (A := A) L
  have hspan := ht.add_span_le
  unfold findblock
  by_cases h0 : x = 0
  · rw [if_pos h0]
    refine Or.inr ⟨fun b hb hx => ?_, rfl⟩
    have := A.header_facts
    unfold Block.InPayload Block.payload at hx
    omega
  · rw [if_neg h0]
    exact findLoop_spec (by omega) hc ht hhi

end Csc453.Malloc
