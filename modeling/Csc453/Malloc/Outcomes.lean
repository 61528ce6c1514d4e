import Csc453.Malloc.Carries

/-!
# Csc453.Malloc.Outcomes — everything malloc, free and realloc can do to a list

`MallocOutcome`: refused by `sbrk`, served from the first free block that fits, or served from a
chunk appended at the aligned break.  `free_used` and `free_noop` are the two cases of `free`,
`ReallocOutcome` the cases of `realloc` for the block around the pointer.  Each says what list is
left, whether the break moved and what was asked of `sbrk`.
-/

namespace Csc453.Malloc

open Bytes Coalesce

variable {A : Abi}

/-! ### sbrk -/

theorem granted_iff {g : Bool} {incr brk : ℕ} (hi : incr ≤ A.ptrdiffMax) (hb : 0 < brk) :
    Granted A g incr brk ↔ g = true ∧ brk + incr < A.space := by
  unfold Granted
  rw [Abi.signed_eq hi]
  refine and_congr_right fun _ => ⟨fun h => by omega, fun h => by omega⟩

theorem sbrk_granted {g : Bool} {incr hd b e : ℕ} {m : Mem} {s : List SbrkCall}
    (hi : incr ≤ A.ptrdiffMax) (hg : Granted A g incr b) :
    sbrk A g incr ⟨m, hd, b, e, s⟩ = (b, ⟨m, hd, b + incr, e, ⟨incr, some b⟩ :: s⟩) := by
  unfold sbrk
  rw [if_pos hg, Abi.signed_eq hi]
  rfl

theorem sbrk_refused {g : Bool} {incr hd b e : ℕ} {m : Mem} {s : List SbrkCall}
    (hg : ¬ Granted A g incr b) :
    sbrk A g incr ⟨m, hd, b, e, s⟩ = (A.sizeMax, ⟨m, hd, b, ENOMEM, ⟨A.signed incr, none⟩ :: s⟩) :=
  if_neg hg

/-- The `sbrk` calls since `h` all asked for a non-negative increment. -/
def SbrksUp (h h' : Heap) : Prop := ∃ calls, h'.sbrks = calls ++ h.sbrks ∧ ∀ c ∈ calls, 0 ≤ c.increment

theorem SbrksUp.of_eq {h h' : Heap} (he : h'.sbrks = h.sbrks) : SbrksUp h h' := ⟨[], he, by simp⟩

/-- One of the `sbrk` calls since `h` failed. -/
def Denied (h h' : Heap) : Prop := ∃ calls, h'.sbrks = calls ++ h.sbrks ∧ ∃ c ∈ calls, c.result = none

/-- The chunk `malloc` asks for. -/
def chunk (used : ℕ) : ℕ := if used < CHUNK_SIZE then CHUNK_SIZE else used

theorem le_chunk (n : ℕ) : n ≤ chunk n := by
  unfold chunk
  split_ifs <;> omega

theorem chunk_facts {n : ℕ} (h16 : n % 16 = 0) (hn : n ≤ A.ptrdiffMax) :
    chunk n ≤ A.ptrdiffMax ∧ chunk n % 16 = 0 ∧ 65536 ≤ chunk n := by
  have hS := A.space_facts
  unfold chunk CHUNK_SIZE Abi.ptrdiffMax at *
  split_ifs <;> omega

/-- The padding `malloc` asks for. -/
def paddingAt (A : Abi) (brk : ℕ) : ℕ := A.sub (A.roundUp16 brk) brk

/-- The system grants both the padding and the block. -/
def AppendGranted (A : Abi) (g : Grants) (used brk : ℕ) : Prop :=
  Granted A g.padding (paddingAt A brk) brk ∧ Granted A g.block (chunk used) (brk + paddingAt A brk)

theorem paddingAt_spec {brk : ℕ} (h0 : 0 < brk) (h : brk < A.space) :
    paddingAt A brk ≤ 15 ∧ (brk + paddingAt A brk < A.space → (brk + paddingAt A brk) % 16 = 0) ∧
      (brk % 16 = 0 → paddingAt A brk = 0) := by
  have hS := A.space_facts
  unfold paddingAt
  by_cases hw : brk + 15 < A.space
  · rw [Abi.roundUp16_eq hw, Abi.sub_eq (by omega) (by omega)]
    omega
  · -- the rounding wraps to `0`, and the padding would take the break to the end of the space
    have hru : A.roundUp16 brk = 0 := by
      unfold Abi.roundUp16 Abi.add
      rw [show brk + 15 = brk + 15 - A.space + A.space by omega, Nat.add_mod_right,
        Nat.mod_eq_of_lt (by omega)]
      omega
    have hsub : A.sub 0 brk = A.space - brk := by
      unfold Abi.sub
      rw [Nat.zero_add, Nat.mod_eq_of_lt (by omega)]
    rw [hru, hsub]
    omega

/-- A request that failed: memory and list are as before, at most the padding has been obtained. -/
structure Untouched (A : Abi) (h h' : Heap) : Prop where
  mem : h'.mem = h.mem
  head : h'.heapHead = h.heapHead
  brk : h'.brk = h.brk ∨ h'.brk = h.brk + paddingAt A h.brk
  brk_lt : h'.brk < A.space
  sbrks : ∃ calls, h'.sbrks = calls ++ h.sbrks

theorem Untouched.carries {h h' : Heap} {L : List Block} (hu : Untouched A h h') (hc : Carries A h L) :
    Carries A h' L := by
  have hle : h.brk ≤ h'.brk := by rcases hu.brk with hb | hb <;> omega
  have hpos := hc.brk_pos
  refine ⟨?_, hc.spaced.weaken le_rfl hle, hc.separated, by omega, hu.brk_lt⟩
  rw [hu.mem, hu.head]
  exact hc.chain

/-! ### The chunk appended by malloc -/

/-- The free block `malloc` puts into a new chunk. -/
def chunkBlock (A : Abi) (brk size : ℕ) : Block :=
  ⟨brk + paddingAt A brk, chunk size - A.headerSize, true⟩

theorem lastAddr_append (p : ℕ) (L : List Block) (z : Block) : lastAddr p (L ++ [z]) = z.addr := by
  induction L generalizing p with
  | nil => rfl
  | cons b L ih => exact ih b.addr

/-- The header of the new block, after the three field stores. -/
theorem newHeader (m : Mem) (base : ℕ) {cap : ℕ} (hcap : cap < A.space) :
    Header A (A.setNext (A.setFree (A.setCapacity m base cap) base true) base 0) base ⟨base, cap, true⟩ ∧
      A.nextBlockHeader (A.setNext (A.setFree (A.setCapacity m base cap) base true) base 0) base = 0 ∧
      ∀ x, x < base ∨ base + A.headerSize ≤ x →
        A.setNext (A.setFree (A.setCapacity m base cap) base true) base 0 x = m x := by
  have hS := A.space_facts
  refine ⟨⟨rfl, ?_, ?_⟩, next_setNext (by omega), fun x hx => ?_⟩
  · rw [capacity_setNext, capacity_setFree, capacity_setCapacity hcap]
  · rw [isFree_setNext, isFree_setFree]
  · rw [setNext_outside hx, setFree_outside hx, setCapacity_outside hx]

/-- Appending a block behind the last one, or as the first. -/
theorem chainBlock_spec {h : Heap} {base lo hi : ℕ} (cap : ℕ) {L : List Block}
    (hc : Chain A h.mem h.heapHead L) (hs : Spaced A lo L hi) (hb : hi ≤ base) (h0 : base ≠ 0)
    (hbase : base < A.space) (hcap : cap < A.space) :
    Chain A (chainBlock A (lastAddr 0 L) base cap h).mem (chainBlock A (lastAddr 0 L) base cap h).heapHead
        (L ++ [⟨base, cap, true⟩]) ∧
      OnlyHeaders A (L ++ [⟨base, cap, true⟩]) h.mem (chainBlock A (lastAddr 0 L) base cap h).mem := by
  unfold chainBlock
  dsimp only
  obtain ⟨hh, hnx, hout⟩ := newHeader h.mem base hcap
  generalize A.setNext (A.setFree (A.setCapacity h.mem base cap) base true) base 0 = m₃ at hh hnx hout ⊢
  rcases List.eq_nil_or_concat L with rfl | ⟨L', z, hL⟩
  · show Chain A m₃ base [⟨base, cap, true⟩] ∧ OnlyHeaders A [⟨base, cap, true⟩] h.mem m₃
    refine ⟨⟨h0, hh, hnx⟩, fun x hx => hout x ?_⟩
    have := hx _ List.mem_cons_self
    unfold Block.InHeader at this
    dsimp only at this
    omega
  · rw [List.concat_eq_append] at hL
    subst hL
    obtain ⟨h1, hzne, hz, hznx⟩ := hc.mid
    have hfin : ∀ c ∈ L' ++ [z], c.addr + A.headerSize ≤ base := fun c hc => by
      have := (hs.bounds hc).2.1
      unfold Block.fin at this
      omega
    have hzb : ApartAt A z.addr base := Or.inl (hfin z (by simp))
    have hsame₃ : ∀ c ∈ L' ++ [z], SameHeader A h.mem m₃ c.addr := fun c hc x h1 h2 => by
      have := hfin c hc
      exact hout x (by omega)
    rw [lastAddr_append, if_neg hzne]
    dsimp only
    have hap := hs.apart
    rw [Apart, List.pairwise_append] at hap
    refine ⟨?_, fun x hx => ?_⟩
    · rw [List.append_assoc]
      refine (h1.congr fun c hc => ?_).append ⟨hzne, ?_, ?_⟩
      · refine (hsame₃ c (List.mem_append_left _ hc)).trans (sameHeader_setNext ?_)
        exact (hap.2.2 c hc z List.mem_cons_self).symm
      · have hz₃ := hsame₃ z (by simp)
        refine ⟨rfl, ?_, ?_⟩
        · rw [capacity_setNext, hz₃.capacity, hz.cap]
        · rw [isFree_setNext, hz₃.free, hz.free]
      · rw [next_setNext hbase]
        refine ⟨h0, hh.congr (sameHeader_setNext hzb), ?_⟩
        rw [(sameHeader_setNext (m := m₃) (v := base) hzb).next]
        exact hnx
    · have hxz := hx z (by simp)
      have hxb := hx ⟨base, cap, true⟩ (by simp)
      unfold Block.InHeader at hxz hxb
      dsimp only at hxb
      rw [setNext_outside (by omega), hout x (by omega)]

theorem appendBlock_refused {g : Grants} (prev : ℕ) {size : ℕ} {h : Heap} (hq : g.query = true)
    (h0 : 0 < h.brk) (hlt : h.brk < A.space) (hng : ¬ AppendGranted A g size h.brk) :
    ∃ h', appendBlock A g prev size h = (none, h') ∧ Untouched A h h' ∧ Denied h h' := by
  have hS := A.space_facts
  obtain ⟨hpad15, hal, hal0⟩ := paddingAt_spec h0 hlt
  have hpm : paddingAt A h.brk ≤ A.ptrdiffMax := by unfold Abi.ptrdiffMax; omega
  have hquery : Granted A g.query 0 h.brk := (granted_iff (Nat.zero_le _) h0).mpr ⟨hq, hlt⟩
  obtain ⟨m, hd, brk, e, s⟩ := h
  dsimp only at *
  unfold appendBlock
  rw [sbrk_granted (Nat.zero_le _) hquery]
  dsimp only [Nat.add_zero]
  rw [show A.sub (A.roundUp16 brk) brk = paddingAt A brk from rfl]
  by_cases hgp : Granted A g.padding (paddingAt A brk) brk
  · have hlt' : brk + paddingAt A brk < A.space := ((granted_iff hpm h0).mp hgp).2
    have hne : brk ≠ A.sizeMax := by
      have := hal hlt'
      unfold Abi.sizeMax
      omega
    have hgb : ¬ Granted A g.block (chunk size) (brk + paddingAt A brk) := fun hb => hng ⟨hgp, hb⟩
    rw [sbrk_granted hpm hgp]
    dsimp only
    rw [if_neg hne, show (if size < CHUNK_SIZE then CHUNK_SIZE else size) = chunk size from rfl,
      sbrk_refused hgb]
    dsimp only
    rw [if_pos rfl]
    exact ⟨_, rfl, ⟨rfl, rfl, Or.inr rfl, hlt', [_, _, _], rfl⟩, [_, _, _], rfl, _, List.mem_cons_self, rfl⟩
  · rw [sbrk_refused hgp]
    dsimp only
    rw [if_pos rfl]
    exact ⟨_, rfl, ⟨rfl, rfl, Or.inl rfl, hlt, [_, _], rfl⟩, [_, _], rfl, _, List.mem_cons_self, rfl⟩

/-- The heap after the query, the padding and the block have been granted. -/
def Heap.extended (A : Abi) (size : ℕ) (h : Heap) : Heap :=
  { h with brk := h.brk + paddingAt A h.brk + chunk size,
           sbrks := ⟨chunk size, some (h.brk + paddingAt A h.brk)⟩ :: ⟨paddingAt A h.brk, some h.brk⟩ ::
             ⟨0, some h.brk⟩ :: h.sbrks }

/-- What granted padding and block mean for the break. -/
theorem AppendGranted.facts {g : Grants} {size brk : ℕ} (hg : AppendGranted A g size brk) (h0 : 0 < brk)
    (hlt : brk < A.space) (hs : size ≤ A.ptrdiffMax) (hs16 : size % 16 = 0) :
    paddingAt A brk ≤ A.ptrdiffMax ∧ (brk + paddingAt A brk) % 16 = 0 ∧
      brk + paddingAt A brk + chunk size < A.space := by
  have hS := A.space_facts
  obtain ⟨hpad15, hal, -⟩ := paddingAt_spec h0 hlt
  have hpm : paddingAt A brk ≤ A.ptrdiffMax := by unfold Abi.ptrdiffMax; omega
  have hlt := ((granted_iff hpm h0).mp hg.1).2
  exact ⟨hpm, hal hlt, ((granted_iff (chunk_facts hs16 hs).1 (by omega)).mp hg.2).2⟩

theorem appendBlock_eq {g : Grants} (prev : ℕ) {size : ℕ} {h : Heap} (hq : g.query = true)
    (h0 : 0 < h.brk) (hlt : h.brk < A.space) (hg : AppendGranted A g size h.brk)
    (hs : size ≤ A.ptrdiffMax) (hs16 : size % 16 = 0) :
    appendBlock A g prev size h = (some (h.brk + paddingAt A h.brk),
      chainBlock A prev (h.brk + paddingAt A h.brk) (chunk size - A.headerSize) (h.extended A size)) := by
  have hS := A.space_facts
  have hH := A.header_facts
  obtain ⟨hpm, hal, hlt'⟩ := hg.facts h0 hlt hs hs16
  have hcm := chunk_facts hs16 hs
  have hquery : Granted A g.query 0 h.brk := (granted_iff (Nat.zero_le _) h0).mpr ⟨hq, hlt⟩
  have hne : h.brk ≠ A.sizeMax := by
    unfold Abi.sizeMax
    omega
  have hne' : h.brk + paddingAt A h.brk ≠ A.sizeMax := by
    unfold Abi.sizeMax
    omega
  have hcap : A.sub (chunk size) A.headerSize = chunk size - A.headerSize :=
    Abi.sub_eq (by omega) (by unfold Abi.ptrdiffMax at hcm; omega)
  obtain ⟨m, hd, brk, e, s⟩ := h
  dsimp only at *
  unfold appendBlock
  rw [sbrk_granted (Nat.zero_le _) hquery]
  dsimp only [Nat.add_zero]
  rw [show A.sub (A.roundUp16 brk) brk = paddingAt A brk from rfl, sbrk_granted hpm hg.1]
  dsimp only
  rw [if_neg hne, show (if size < CHUNK_SIZE then CHUNK_SIZE else size) = chunk size from rfl,
    sbrk_granted hcm.1 hg.2]
  dsimp only
  rw [if_neg hne', hcap]
  rfl

theorem chainBlock_keeps (prev curr cap : ℕ) (h : Heap) :
    (chainBlock A prev curr cap h).brk = h.brk ∧ (chainBlock A prev curr cap h).sbrks = h.sbrks := by
  unfold chainBlock
  dsimp only
  split_ifs <;> exact ⟨rfl, rfl⟩

theorem appendBlock_granted {g : Grants} {size : ℕ} {h : Heap} {L : List Block} (hq : g.query = true)
    (hc : Carries A h L) (hg : AppendGranted A g size h.brk) (hs : size ≤ A.ptrdiffMax)
    (hs16 : size % 16 = 0) :
    ∃ h', appendBlock A g (lastAddr 0 L) size h = (some (chunkBlock A h.brk size).addr, h') ∧
      h'.brk = h.brk + paddingAt A h.brk + chunk size ∧ h'.brk < A.space ∧
      Chain A h'.mem h'.heapHead (L ++ [chunkBlock A h.brk size]) ∧
      Spaced A 0 (L ++ [chunkBlock A h.brk size]) h'.brk ∧
      OnlyHeaders A (L ++ [chunkBlock A h.brk size]) h.mem h'.mem ∧
      h'.sbrks = ⟨chunk size, some (h.brk + paddingAt A h.brk)⟩ :: ⟨paddingAt A h.brk, some h.brk⟩ ::
        ⟨0, some h.brk⟩ :: h.sbrks := by
  have hH := A.header_facts
  have hpos := hc.brk_pos
  have hcm := chunk_facts hs16 hs
  obtain ⟨-, hal, hlt⟩ := hg.facts hpos hc.brk_lt hs hs16
  obtain ⟨hch, hfr⟩ := chainBlock_spec (h := h.extended A size) (chunk size - A.headerSize) hc.chain
    hc.spaced (Nat.le_add_right _ (paddingAt A h.brk)) (by omega) (by omega) (by omega)
  obtain ⟨hbrk, hsb⟩ := chainBlock_keeps (A := A) (lastAddr 0 L) (h.brk + paddingAt A h.brk)
    (chunk size - A.headerSize) (h.extended A size)
  refine ⟨_, appendBlock_eq _ hq hpos hc.brk_lt hg hs hs16, hbrk, by rw [hbrk]; exact hlt, hch, ?_, hfr,
    hsb⟩
  rw [hbrk]
  refine hc.spaced.append ⟨⟨Nat.le_add_right _ _, hal, ?_, ?_⟩, ?_⟩
  · show (chunk size - A.headerSize) % 16 = 0
    omega
  · show 16 ≤ chunk size - A.headerSize
    omega
  · show h.brk + paddingAt A h.brk + A.headerSize + (chunk size - A.headerSize) ≤
      h.brk + paddingAt A h.brk + chunk size
    omega

/-! ### malloc -/

theorem roundUp16_facts {n : ℕ} (h0 : 0 < n) (h : n + 15 < A.space) :
    A.roundUp16 n % 16 = 0 ∧ 16 ≤ A.roundUp16 n ∧ n ≤ A.roundUp16 n ∧ A.roundUp16 n < A.space := by
  rw [Abi.roundUp16_eq h]
  omega

/-- `malloc (n)` gets by without a wrapped size: the rounding does not wrap and a free block fits or
the block to append is at most `PTRDIFF_MAX` long.  Or nothing fits and `sbrk` refuses. -/
def MallocOk (A : Abi) (g : Grants) (n : ℕ) (L : List Block) (brk : ℕ) : Prop :=
  (n + 15 < A.space ∧ ((∃ b ∈ L, Fits (A.roundUp16 n) b) ∨
    A.headerSize + A.roundUp16 n ≤ A.ptrdiffMax)) ∨
  ((∀ b ∈ L, ¬ Fits (A.roundUp16 n) b) ∧
    ¬ AppendGranted A g (A.add A.headerSize (A.roundUp16 n)) brk)

/-- The chunk block of a request for `n` bytes. -/
def newBlock (A : Abi) (n brk : ℕ) : Block := chunkBlock A brk (A.headerSize + A.roundUp16 n)

theorem newBlock_cap (n brk : ℕ) : A.roundUp16 n ≤ (newBlock A n brk).cap := by
  have := le_chunk (A.headerSize + A.roundUp16 n)
  unfold newBlock chunkBlock
  dsimp only
  omega

/-- The outcomes of `malloc (n)`, `n > 0`, on a heap that carries `L`. -/
inductive MallocOutcome (A : Abi) (n : ℕ) (h : Heap) (L : List Block) : ℕ → Heap → Prop
  | refused {h' : Heap} : (∀ b ∈ L, ¬ Fits (A.roundUp16 n) b) → Untouched A h h' →
      MallocOutcome A n h L 0 h'
  | reused {L₁ L₂ : List Block} {f : Block} {m' : Mem} : n + 15 < A.space →
      L = L₁ ++ f :: L₂ → Fits (A.roundUp16 n) f → (∀ c ∈ L₁, ¬ Fits (A.roundUp16 n) c) →
      Rewritten A h { h with mem := m' } (L₁ ++ (used A f (A.roundUp16 n) ++ L₂)) →
      MallocOutcome A n h L (f.payload A) { h with mem := m' }
  | grown {h' : Heap} : n + 15 < A.space → (∀ b ∈ L, ¬ Fits (A.roundUp16 n) b) →
      h'.brk = h.brk + paddingAt A h.brk + chunk (A.headerSize + A.roundUp16 n) →
      h'.sbrks = ⟨chunk (A.headerSize + A.roundUp16 n), some (h.brk + paddingAt A h.brk)⟩ ::
        ⟨paddingAt A h.brk, some h.brk⟩ :: ⟨0, some h.brk⟩ :: h.sbrks →
      Spaced A 0 (L ++ [newBlock A n h.brk]) h'.brk →
      Rewritten A h h' (L ++ (used A (newBlock A n h.brk) (A.roundUp16 n) ++ [])) →
      MallocOutcome A n h L ((newBlock A n h.brk).payload A) h'

/-- The search of `malloc`: the first block that fits, or the last block of the list. -/
theorem malloc_search {r : ℕ} {h : Heap} {L : List Block} (hc : Carries A h L) :
    (∃ L₁ f L₂ prev, L = L₁ ++ f :: L₂ ∧ Fits r f ∧ (∀ c ∈ L₁, ¬ Fits r c) ∧
      firstFit A h.mem r A.space 0 h.heapHead = some (prev, f.addr)) ∨
    ((∀ c ∈ L, ¬ Fits r c) ∧ firstFit A h.mem r A.space 0 h.heapHead = some (lastAddr 0 L, 0)) := by
  have hlen := length_le_span (A := A) L
  have hspan := hc.spaced.add_span_le
  have hlt := hc.brk_lt
  exact firstFit_spec (by omega) hc.chain

/-- With no room on the list `malloc` appends a block. -/
theorem malloc_append (g : Grants) {n : ℕ} {h : Heap} {L : List Block} (hc : Carries A h L) (h0 : 0 < n)
    (hno : ∀ b ∈ L, ¬ Fits (A.roundUp16 n) b) :
    malloc A g n h = match appendBlock A g (lastAddr 0 L) (A.add A.headerSize (A.roundUp16 n)) h with
      | (none, h') => some (0, h')
      | (some new, h') => useBlock A new (A.roundUp16 n) h' := by
  rcases malloc_search (r := A.roundUp16 n) hc with ⟨L₁, f, L₂, _, hL, hfit, _⟩ | ⟨_, hff⟩
  · exact absurd hfit (hno f (by rw [hL]; simp))
  · unfold malloc
    rw [if_neg (by omega)]
    dsimp only
    rw [hff]
    exact if_pos rfl

/-- With no room on the list and `sbrk` refusing, `malloc` fails. -/
theorem malloc_refused {g : Grants} {n : ℕ} {h : Heap} {L : List Block} (hq : g.query = true)
    (hc : Carries A h L) (h0 : 0 < n) (hno : ∀ b ∈ L, ¬ Fits (A.roundUp16 n) b)
    (hng : ¬ AppendGranted A g (A.add A.headerSize (A.roundUp16 n)) h.brk) :
    ∃ h', malloc A g n h = some (0, h') ∧ Untouched A h h' ∧ Denied h h' := by
  obtain ⟨h', happ, hun⟩ := appendBlock_refused (lastAddr 0 L) hq hc.brk_pos hc.brk_lt hng
  refine ⟨h', ?_, hun⟩
  rw [malloc_append g hc h0 hno, happ]

/-- Served from the first free block that fits. -/
theorem malloc_reused (g : Grants) {n : ℕ} {h : Heap} {L : List Block} (hc : Carries A h L) (h0 : 0 < n)
    (hn : n + 15 < A.space) (hfit : ∃ b ∈ L, Fits (A.roundUp16 n) b) :
    ∃ p h', malloc A g n h = some (p, h') ∧ p ≠ 0 ∧ MallocOutcome A n h L p h' := by
  obtain ⟨hr16, hr, _, _⟩ := roundUp16_facts h0 hn
  rcases malloc_search (r := A.roundUp16 n) hc with ⟨L₁, f, L₂, prev, hL, hf, hno, hff⟩ | ⟨hno, _⟩
  · have hch := hc.chain
    have hs := hc.spaced
    have hn' := hc.separated
    rw [hL] at hch hs hn'
    obtain ⟨m', hm', hre⟩ := useBlock_spec hch hs hn'.parts.1 hn'.parts.2.2 hc.brk_pos hc.brk_lt hr16 hr
      hf.2
    refine ⟨_, _, ?_, payload_ne_zero f, .reused hn hL hf hno hre⟩
    unfold malloc
    rw [if_neg (by omega)]
    dsimp only
    rw [hff]
    dsimp only
    rw [if_neg hch.mid.2.1, hm']
  · obtain ⟨b, hb, hf⟩ := hfit
    exact absurd hf (hno b hb)

/-- Served from a new chunk. -/
theorem malloc_grown {g : Grants} {n : ℕ} {h : Heap} {L : List Block} (hq : g.query = true)
    (hc : Carries A h L) (h0 : 0 < n) (hn : n + 15 < A.space)
    (hsize : A.headerSize + A.roundUp16 n ≤ A.ptrdiffMax) (hno : ∀ b ∈ L, ¬ Fits (A.roundUp16 n) b)
    (hg : AppendGranted A g (A.headerSize + A.roundUp16 n) h.brk) :
    ∃ p h', malloc A g n h = some (p, h') ∧ p ≠ 0 ∧ MallocOutcome A n h L p h' := by
  have hS := A.space_facts
  have hH := A.header_facts
  obtain ⟨hr16, hr, _, _⟩ := roundUp16_facts h0 hn
  obtain ⟨h₁, happ, hbrk, hlt₁, hch, hs, hfr, hsb⟩ := appendBlock_granted hq hc hg hsize (by omega)
  have hpos : 0 < h₁.brk := by
    have := hc.brk_pos
    omega
  obtain ⟨m', hm', hre⟩ := useBlock_spec (M := []) hch hs hc.separated List.isChain_nil hpos hlt₁
    hr16 hr (newBlock_cap n h.brk)
  refine ⟨_, { h₁ with mem := m' }, ?_, payload_ne_zero _, .grown hn hno hbrk hsb hs (hre.after hfr ?_)⟩
  · rw [malloc_append g hc h0 hno, Abi.add_eq (by unfold Abi.ptrdiffMax at hsize; omega), happ]
    exact hm'
  -- the appended header is the one of the used block
  · intro c hc
    rcases List.mem_append.mp hc with hc | hc
    · exact ⟨c, List.mem_append_left _ hc, rfl⟩
    · obtain ⟨u, hu, hua, _⟩ := mem_splitList A { newBlock A n h.brk with free := false } (A.roundUp16 n)
      rw [List.mem_singleton.mp hc]
      exact ⟨u, List.mem_append_right _ (List.mem_append_left _ hu), hua⟩

/-- **malloc** returns, in one of its three ways.  It asks for the break only when no block fits. -/
theorem malloc_outcome {g : Grants} {n : ℕ} {h : Heap} {L : List Block}
    (hq : (∃ b ∈ L, Fits (A.roundUp16 n) b) ∨ g.query = true) (hc : Carries A h L) (h0 : 0 < n)
    (hok : MallocOk A g n L h.brk) :
    ∃ p h', malloc A g n h = some (p, h') ∧ MallocOutcome A n h L p h' := by
  have hS := A.space_facts
  by_cases hfit : ∃ b ∈ L, Fits (A.roundUp16 n) b
  · have hn : n + 15 < A.space := by
      obtain ⟨b, hb, hf⟩ := hfit
      rcases hok with ⟨hn, _⟩ | ⟨hnone, _⟩
      · exact hn
      · exact absurd hf (hnone b hb)
    obtain ⟨p, h', hm, -, ho⟩ := malloc_reused g hc h0 hn hfit
    exact ⟨p, h', hm, ho⟩
  have hno : ∀ b ∈ L, ¬ Fits (A.roundUp16 n) b := fun b hb hf => hfit ⟨b, hb, hf⟩
  have hq : g.query = true := hq.resolve_left hfit
  by_cases hg : AppendGranted A g (A.add A.headerSize (A.roundUp16 n)) h.brk
  · obtain ⟨hn, hsize⟩ : n + 15 < A.space ∧ A.headerSize + A.roundUp16 n ≤ A.ptrdiffMax := by
      rcases hok with ⟨hn, hfit' | hsize⟩ | ⟨_, hng⟩
      · exact absurd hfit' hfit
      · exact ⟨hn, hsize⟩
      · exact absurd hg hng
    rw [Abi.add_eq (by unfold Abi.ptrdiffMax at hsize; omega)] at hg
    obtain ⟨p, h', hm, -, ho⟩ := malloc_grown hq hc h0 hn hsize hno hg
    exact ⟨p, h', hm, ho⟩
  · obtain ⟨h', hm, hun, -⟩ := malloc_refused hq hc h0 hno hg
    exact ⟨0, h', hm, .refused hno hun⟩

/-- When `malloc` returns `NULL`, nothing fitted and `sbrk` failed. -/
theorem malloc_null {g : Grants} {n : ℕ} {h h' : Heap} {L : List Block} (hq : g.query = true)
    (hc : Carries A h L) (h0 : 0 < n) (hn : n + 15 < A.space)
    (hsize : A.headerSize + A.roundUp16 n ≤ A.ptrdiffMax) (hm : malloc A g n h = some (0, h')) :
    (∀ b ∈ L, ¬ Fits (A.roundUp16 n) b) ∧ Untouched A h h' ∧ Denied h h' := by
  have hS := A.space_facts
  by_cases hfit : ∃ b ∈ L, Fits (A.roundUp16 n) b
  · obtain ⟨p, h₁, hm₁, hp, -⟩ := malloc_reused g hc h0 hn hfit
    exact absurd (Prod.mk.inj (Option.some.inj (hm₁.symm.trans hm))).1 hp
  have hno : ∀ b ∈ L, ¬ Fits (A.roundUp16 n) b := fun b hb hf => hfit ⟨b, hb, hf⟩
  refine ⟨hno, ?_⟩
  by_cases hg : AppendGranted A g (A.headerSize + A.roundUp16 n) h.brk
  · obtain ⟨p, h₁, hm₁, hp, -⟩ := malloc_grown hq hc h0 hn hsize hno hg
    exact absurd (Prod.mk.inj (Option.some.inj (hm₁.symm.trans hm))).1 hp
  · rw [← Abi.add_eq (A := A) (by unfold Abi.ptrdiffMax at hsize; omega)] at hg
    obtain ⟨h₁, hm₁, hun⟩ := malloc_refused hq hc h0 hno hg
    obtain rfl := (Prod.mk.inj (Option.some.inj (hm₁.symm.trans hm))).2
    exact hun

end Csc453.Malloc
