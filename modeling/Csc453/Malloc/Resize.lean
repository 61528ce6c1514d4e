import Csc453.Malloc.Outcomes

/-!
# Csc453.Malloc.Resize — everything free and realloc can do to a list

`free` marks the used block around the pointer and merges (`free_used`), or does nothing
(`free_noop`).  `ReallocOutcome` lists the branches of `realloc` for the block `b` around the
pointer, between the blocks `L₁` before it and `L₂` after it.
-/

namespace Csc453.Malloc

open Bytes Coalesce

variable {A : Abi}

/-! ### free -/

/-- `findblock` finds the block around the pointer, whatever its list. -/
theorem findblock_inside {h : Heap} {L : List Block} {b : Block} {x : ℕ} (hc : Carries A h L)
    (hb : b ∈ L) (hx : b.InPayload A x) : findblock A x h = some b.addr := by
  rcases findblock_spec (x := x) hc.chain hc.spaced hc.brk_lt with ⟨c, hcL, hxc, hfb⟩ | ⟨hno, _⟩
  · rw [hfb, hc.spaced.eq_of_inPayload hcL hb hxc hx]
  · exact absurd hx (hno b hb)

theorem findblock_outside {h : Heap} {L : List Block} {x : ℕ} (hc : Carries A h L)
    (hno : ∀ b ∈ L, ¬ b.InPayload A x) : findblock A x h = some 0 := by
  rcases findblock_spec (x := x) hc.chain hc.spaced hc.brk_lt with ⟨c, hcL, hxc, _⟩ | ⟨_, hfb⟩
  · exact absurd hxc (hno c hcL)
  · exact hfb

theorem inPayload_ne_zero {b : Block} {x : ℕ} (hx : b.InPayload A x) : x ≠ 0 := by
  rintro rfl
  exact not_inPayload_zero b hx

/-- **free** of a pointer into a used block marks it and merges. -/
theorem free_used {ptr : ℕ} {h : Heap} {L₁ L₂ : List Block} {b : Block}
    (hc : Carries A h (L₁ ++ b :: L₂)) (hbf : ¬ b.free) (hx : b.InPayload A ptr) :
    ∃ m', free A ptr h = some { h with mem := m' } ∧
      Rewritten A h { h with mem := m' } (L₁ ++ { b with free := true } :: L₂) := by
  obtain ⟨_, hbne, hhb, _⟩ := hc.chain.mid
  unfold free
  rw [if_neg (inPayload_ne_zero hx), findblock_inside hc (by simp) hx]
  dsimp only
  rw [if_neg hbne, hhb.free, if_neg hbf]
  have hs := hc.spaced.setFree true
  have hspan := hs.add_span_le
  have hlt := hc.brk_lt
  obtain ⟨m', hm', hch, hfr⟩ := mergeFreeNodes_spec
    (h := { h with mem := A.setFree h.mem b.addr true }) (hc.chain.setFree true hc.spaced.apart) hs.apart
    (by omega)
  refine ⟨m', hm', hch, ?_, hs, hc.brk_pos, hlt⟩
  refine (onlyHeaders_setFree.mono fun c hc => ⟨{ b with free := true }, by simp, ?_⟩).trans hfr
  rw [List.mem_singleton.mp hc]

/-- **free** of any other pointer does nothing. -/
theorem free_noop {ptr : ℕ} {h : Heap} {L : List Block} (hc : Carries A h L)
    (hno : ∀ b ∈ L, b.InPayload A ptr → b.free) : free A ptr h = some h := by
  unfold free
  by_cases h0 : ptr = 0
  · exact if_pos h0
  rw [if_neg h0]
  by_cases hin : ∃ b ∈ L, b.InPayload A ptr
  · obtain ⟨b, hb, hx⟩ := hin
    obtain ⟨L₁, L₂, rfl⟩ := List.append_of_mem hb
    obtain ⟨_, hbne, hhb, _⟩ := hc.chain.mid
    rw [findblock_inside hc hb hx]
    dsimp only
    rw [if_neg hbne, hhb.free, if_pos (hno b hb hx)]
  · rw [findblock_outside hc fun b hb hx => hin ⟨b, hb, hx⟩]
    dsimp only
    rw [if_pos rfl]

theorem free_returns (ptr : ℕ) {h : Heap} {L : List Block} (hc : Carries A h L) :
    ∃ h', free A ptr h = some h' := by
  by_cases hused : ∃ b ∈ L, b.InPayload A ptr ∧ ¬ b.free
  · obtain ⟨b, hb, hx, hbf⟩ := hused
    obtain ⟨L₁, L₂, rfl⟩ := List.append_of_mem hb
    obtain ⟨m', hm', _⟩ := free_used hc hbf hx
    exact ⟨_, hm'⟩
  · refine ⟨h, free_noop hc fun b hb hx => ?_⟩
    by_contra hbf
    exact hused ⟨b, hb, hx, hbf⟩

/-! ### What the caller of malloc gets -/

/-- `h'` carries `L'`, on which every used block of `L` is kept with its bytes, and `p` is `NULL` or
the payload of a used block with room for `n` bytes, away from every block that could not be taken. -/
structure Handed (A : Abi) (n : ℕ) (h h' : Heap) (L L' : List Block) (p : ℕ) : Prop where
  carries : Carries A h' L'
  kept : ∀ b ∈ L, ¬ b.free → b ∈ L' ∧ ∀ x, b.InPayload A x → h'.mem x = h.mem x
  given : p ≠ 0 → ∃ u ∈ L', ¬ u.free ∧ p = u.payload A ∧ (n ≤ A.roundUp16 n ∧ A.roundUp16 n ≤ u.cap) ∧
    ∀ b ∈ L, ¬ Fits (A.roundUp16 n) b → b.addr ≠ u.addr ∧ ∀ x, b.InPayload A x → ¬ u.InPayload A x

theorem Rewritten.handed {n : ℕ} {h h' : Heap} {L M : List Block} {u : Block} (hr : Rewritten A h h' M)
    (hu : u ∈ M) (huf : ¬ u.free) (hn : n + 15 < A.space) (hcap : A.roundUp16 n ≤ u.cap)
    (hM : ∀ b ∈ L, ¬ Fits (A.roundUp16 n) b → b ∈ M ∧ b.addr ≠ u.addr) :
    Handed A n h h' L (merged A M) (u.payload A) where
  carries := hr.carries
  kept b hb hbf := by
    have hbM := (hM b hb fun hfit => hbf hfit.1).1
    exact ⟨(mem_merged_of_used hbf).mpr hbM, fun _ => hr.payload_same hbM⟩
  given _ := by
    refine ⟨u, (mem_merged_of_used huf).mpr hu, huf, rfl, ⟨?_, hcap⟩, fun b hb hbf => ?_⟩
    · rw [Abi.roundUp16_eq hn]
      omega
    · obtain ⟨hbM, hne⟩ := hM b hb hbf
      exact ⟨hne, fun x hx hxu => hne (by rw [hr.spaced.eq_of_inPayload hbM hu hx hxu])⟩

/-- Writing into the new payload changes no header. -/
theorem Handed.write {n p k : ℕ} {h h' : Heap} {L L' : List Block} {m : Mem} (hd : Handed A n h h' L L' p)
    (hp : p ≠ 0) (hk : k ≤ A.roundUp16 n) (hm : ∀ x, x < p ∨ p + k ≤ x → m x = h'.mem x) :
    Carries A { h' with mem := m } L' := by
  obtain ⟨u, hu, _, hpu, ⟨_, hur⟩, _⟩ := hd.given hp
  refine hd.carries.write fun d hd' x hxd => hm x ?_
  by_contra hin
  have hxu : u.InPayload A x := by
    unfold Block.InPayload Block.fin
    unfold Block.payload at hpu ⊢
    omega
  exact (hd.carries.spaced.payload hu hxu d hd').1 hxd

theorem payload_congr {b c : Block} (h : b.addr = c.addr) : b.payload A = c.payload A := by
  unfold Block.payload
  rw [h]

theorem MallocOutcome.handed {n p : ℕ} {h h' : Heap} {L : List Block} (hc : Carries A h L)
    (ho : MallocOutcome A n h L p h') : ∃ L', Handed A n h h' L L' p := by
  cases ho with
  | refused _ hu =>
    exact ⟨L, hu.carries hc, fun b hb _ => ⟨hb, fun _ _ => by rw [hu.mem]⟩, fun h => absurd rfl h⟩
  | @reused L₁ L₂ f m' hn hL hfit _ hre =>
    obtain ⟨u, hu, hua, huf, hur⟩ := mem_splitList A { f with free := false } (A.roundUp16 n)
    rw [payload_congr (A := A) (b := f) (c := u) hua.symm]
    refine ⟨_, hre.handed (u := u) ?_ (by rw [huf]; simp) hn (hur hfit.2) fun b hb hbf => ?_⟩
    · exact List.mem_append_right _ (List.mem_append_left _ hu)
    · have hne : b ≠ f := fun he => hbf (he ▸ hfit)
      refine ⟨?_, fun hba => hne ?_⟩
      · rw [hL] at hb
        exact mem_splice hb hne _
      · exact hc.spaced.eq_of_payload hb (by rw [hL]; simp) (payload_congr (hba.trans hua))
  | grown hn _ _ _ _ hre =>
    obtain ⟨u, hu, hua, huf, hur⟩ :=
      mem_splitList A { newBlock A n h.brk with free := false } (A.roundUp16 n)
    rw [payload_congr (A := A) (b := newBlock A n h.brk) (c := u) hua.symm]
    refine ⟨_, hre.handed (u := u) ?_ (by rw [huf]; simp) hn (hur (newBlock_cap n h.brk))
      fun b hb _ => ?_⟩
    · exact List.mem_append_right _ (List.mem_append_left _ hu)
    · -- the chunk starts at or above the old break
      refine ⟨List.mem_append_left _ hb, ?_⟩
      have hH := A.header_facts
      have hfin := (hc.spaced.bounds hb).2.1
      have hua' : u.addr = h.brk + paddingAt A h.brk := hua
      unfold Block.fin at hfin
      omega

/-! ### realloc -/

/-- The cases of `realloc` in which no size wraps, for the block `b` around the pointer: it fits
already, `sbrk` is asked for at most `PTRDIFF_MAX` (or refuses), the next block is free and makes
enough room, or `malloc` can answer. -/
def BlockOk (A : Abi) (g : Grants) (n : ℕ) (L₁ : List Block) (b : Block) (L₂ : List Block) (brk : ℕ) :
    Prop :=
  n + 15 < A.space ∧
    (A.roundUp16 n ≤ b.cap ∨
      (L₂ = [] ∧ (chunk (A.roundUp16 n - b.cap) ≤ A.ptrdiffMax ∨
        ¬ Granted A g.grow (chunk (A.roundUp16 n - b.cap)) brk)) ∨
      (∃ c M, L₂ = c :: M ∧ c.free = true ∧ A.roundUp16 n ≤ b.cap + (A.headerSize + c.cap)) ∨
      (L₂ ≠ [] ∧ MallocOk A g n (L₁ ++ b :: L₂) brk))

/-- The same for a pointer, whichever block it points into. -/
def ReallocOk (A : Abi) (g : Grants) (ptr n : ℕ) (L : List Block) (brk : ℕ) : Prop :=
  ∀ L₁ b L₂, L = L₁ ++ b :: L₂ → b.InPayload A ptr → BlockOk A g n L₁ b L₂ brk

theorem ReallocOk.block {g : Grants} {ptr n brk : ℕ} {L₁ L₂ : List Block} {b : Block}
    (h : ReallocOk A g ptr n (L₁ ++ b :: L₂) brk) (hx : b.InPayload A ptr) : BlockOk A g n L₁ b L₂ brk :=
  h L₁ b L₂ rfl hx

/-- The block, or the block with the free one behind it, has room for `n` bytes. -/
def HasRoom (A : Abi) (n : ℕ) (b : Block) (L₂ : List Block) : Prop :=
  A.roundUp16 n ≤ b.cap ∨
    ∃ c M, L₂ = c :: M ∧ c.free = true ∧ A.roundUp16 n ≤ b.cap + (A.headerSize + c.cap)

theorem HasRoom.blockOk {g : Grants} {n brk : ℕ} {L₁ L₂ : List Block} {b : Block}
    (h : HasRoom A n b L₂) (hn : n + 15 < A.space) : BlockOk A g n L₁ b L₂ brk :=
  ⟨hn, h.imp_right fun hnext => Or.inr (Or.inl hnext)⟩

/-- The last block after `sbrk` has given it more room. -/
def grownBlock (A : Abi) (b : Block) (n : ℕ) : Block :=
  { b with cap := b.cap + chunk (A.roundUp16 n - b.cap) }

theorem grownBlock_cap (b : Block) (n : ℕ) : A.roundUp16 n ≤ (grownBlock A b n).cap := by
  have := le_chunk (A.roundUp16 n - b.cap)
  unfold grownBlock
  dsimp only
  omega

/-- The outcomes of `realloc (ptr, n)`, `n > 0`, for a pointer into the block `b` of the list
`L₁ ++ b :: L₂`. -/
inductive ReallocOutcome (A : Abi) (g : Grants) (ptr n : ℕ) (h : Heap) (L₁ : List Block) (b : Block)
    (L₂ : List Block) : ℕ → Heap → Prop
  | same : b.cap = A.roundUp16 n → ReallocOutcome A g ptr n h L₁ b L₂ (b.payload A) h
  | shrunk {m' : Mem} : A.roundUp16 n < b.cap →
      Rewritten A h { h with mem := m' } (L₁ ++ (splitList A b (A.roundUp16 n) ++ L₂)) →
      ReallocOutcome A g ptr n h L₁ b L₂ (b.payload A) { h with mem := m' }
  | grown {h' : Heap} : L₂ = [] → b.cap < A.roundUp16 n →
      Granted A g.grow (chunk (A.roundUp16 n - b.cap)) h.brk →
      h'.brk = h.brk + chunk (A.roundUp16 n - b.cap) →
      h'.sbrks = ⟨chunk (A.roundUp16 n - b.cap), some h.brk⟩ :: h.sbrks →
      Rewritten A h h' (L₁ ++ (splitList A (grownBlock A b n) (A.roundUp16 n) ++ [])) →
      ReallocOutcome A g ptr n h L₁ b L₂ (b.payload A) h'
  | growRefused {h' : Heap} : L₂ = [] → b.cap < A.roundUp16 n → Untouched A h h' →
      ReallocOutcome A g ptr n h L₁ b L₂ 0 h'
  | absorbed {c : Block} {L₃ : List Block} {m' : Mem} : L₂ = c :: L₃ → b.cap < A.roundUp16 n → c.free →
      A.roundUp16 n ≤ (b.join A c).cap →
      Rewritten A h { h with mem := m' } (L₁ ++ (splitList A (b.join A c) (A.roundUp16 n) ++ L₃)) →
      ReallocOutcome A g ptr n h L₁ b L₂ (b.payload A) { h with mem := m' }
  | moveRefused {c : Block} {L₃ : List Block} {h' : Heap} : L₂ = c :: L₃ → b.cap < A.roundUp16 n →
      ¬ (c.free ∧ A.roundUp16 n ≤ (b.join A c).cap) → MallocOutcome A n h (L₁ ++ b :: L₂) 0 h' →
      ReallocOutcome A g ptr n h L₁ b L₂ 0 h'
  | moved {c : Block} {L₃ : List Block} {p : ℕ} {h₁ h' : Heap} : L₂ = c :: L₃ → b.cap < A.roundUp16 n →
      ¬ (c.free ∧ A.roundUp16 n ≤ (b.join A c).cap) → malloc A g n h = some (p, h₁) → p ≠ 0 →
      MallocOutcome A n h (L₁ ++ b :: L₂) p h₁ →
      free A ptr { h₁ with mem := copy h₁.mem p (b.payload A) b.cap } = some h' →
      ReallocOutcome A g ptr n h L₁ b L₂ p h'

/-- The heap after the last block `b` has been given more room. -/
def Heap.regrown (A : Abi) (b : Block) (n : ℕ) (h : Heap) : Heap :=
  { h with mem := A.setCapacity h.mem b.addr (grownBlock A b n).cap,
           brk := h.brk + chunk (A.roundUp16 n - b.cap),
           sbrks := ⟨chunk (A.roundUp16 n - b.cap), some h.brk⟩ :: h.sbrks }

section

variable {g : Grants} {n : ℕ} {h : Heap} {L₁ : List Block} {b : Block}

theorem growLast_granted (hc : Carries A h (L₁ ++ [b])) (hrs : A.roundUp16 n < A.space)
    (hcap : b.cap < A.roundUp16 n) (hsz : chunk (A.roundUp16 n - b.cap) ≤ A.ptrdiffMax)
    (hg : Granted A g.grow (chunk (A.roundUp16 n - b.cap)) h.brk) :
    growLast A g b.addr (A.roundUp16 n) h = splitblock A b.addr (A.roundUp16 n) (h.regrown A b n) ∧
      h.brk + chunk (A.roundUp16 n - b.cap) < A.space := by
  have hS := A.space_facts
  have hchunk := le_chunk (A.roundUp16 n - b.cap)
  have hlt := ((granted_iff hsz hc.brk_pos).mp hg).2
  have hfin := (hc.spaced.bounds (b := b) (by simp)).2.1
  have hbcap := hc.chain.mid.2.2.1.cap
  refine ⟨?_, hlt⟩
  obtain ⟨m, hd, brk, e, s⟩ := h
  dsimp only at *
  unfold Block.fin at hfin
  unfold growLast
  dsimp only
  rw [hbcap, Abi.sub_eq hcap.le hrs, show (if A.roundUp16 n - b.cap < CHUNK_SIZE then CHUNK_SIZE else
    A.roundUp16 n - b.cap) = chunk (A.roundUp16 n - b.cap) from rfl, sbrk_granted hsz hg]
  dsimp only
  rw [if_neg (by unfold Abi.sizeMax; omega), Abi.add_eq (by omega)]
  rfl

theorem growLast_refused (hc : Carries A h (L₁ ++ [b])) (hrs : A.roundUp16 n < A.space)
    (hcap : b.cap < A.roundUp16 n) (hng : ¬ Granted A g.grow (chunk (A.roundUp16 n - b.cap)) h.brk) :
    ∃ h', growLast A g b.addr (A.roundUp16 n) h = some (0, h') ∧ Untouched A h h' ∧ Denied h h' ∧
      h'.brk = h.brk := by
  have hbcap := hc.chain.mid.2.2.1.cap
  have hlt := hc.brk_lt
  obtain ⟨m, hd, brk, e, s⟩ := h
  unfold growLast
  dsimp only at *
  rw [hbcap, Abi.sub_eq hcap.le hrs, show (if A.roundUp16 n - b.cap < CHUNK_SIZE then CHUNK_SIZE else
    A.roundUp16 n - b.cap) = chunk (A.roundUp16 n - b.cap) from rfl, sbrk_refused hng]
  dsimp only
  rw [if_pos rfl]
  exact ⟨_, rfl, ⟨rfl, rfl, Or.inl rfl, hlt, [_], rfl⟩, ⟨[_], rfl, _, List.mem_cons_self, rfl⟩, rfl⟩

/-- `realloc` on the last block. -/
theorem growLast_outcome (ptr : ℕ) (hc : Carries A h (L₁ ++ [b])) (h0 : 0 < n) (hn : n + 15 < A.space)
    (hcap : b.cap < A.roundUp16 n)
    (hok : chunk (A.roundUp16 n - b.cap) ≤ A.ptrdiffMax ∨
      ¬ Granted A g.grow (chunk (A.roundUp16 n - b.cap)) h.brk) :
    ∃ p h', growLast A g b.addr (A.roundUp16 n) h = some (p, h') ∧
      ReallocOutcome A g ptr n h L₁ b [] p h' := by
  obtain ⟨hr16, hr, hnr, hrs⟩ := roundUp16_facts h0 hn
  by_cases hg : Granted A g.grow (chunk (A.roundUp16 n - b.cap)) h.brk
  · obtain ⟨_, hfin, _, hb16, _⟩ := hc.spaced.bounds (b := b) (by simp)
    have hsz := hok.resolve_right fun hng => hng hg
    obtain ⟨hgrow, hlt⟩ := growLast_granted hc hrs hcap hsz hg
    have hcs : chunk (A.roundUp16 n - b.cap) % 16 = 0 := by
      unfold chunk CHUNK_SIZE
      split_ifs <;> omega
    have hcaplt : (grownBlock A b n).cap < A.space := by
      unfold Block.fin at hfin
      show b.cap + chunk (A.roundUp16 n - b.cap) < A.space
      omega
    have hpos : 0 < h.brk + chunk (A.roundUp16 n - b.cap) := by
      have := hc.brk_pos
      omega
    obtain ⟨m', hm', hre⟩ := split_rewritten (k := h) (h := h.regrown A b n) (c := grownBlock A b n)
      (hc.chain.setCapacity hc.spaced.apart hcaplt) (hc.spaced.setLast hcs) hc.separated.setCap hpos hlt
      onlyHeaders_setCapacity rfl hr16 hr (grownBlock_cap b n)
    exact ⟨_, _, hgrow.trans hm', .grown rfl hcap hg rfl rfl hre⟩
  · obtain ⟨h', hgrow, hu, -⟩ := growLast_refused hc hrs hcap hg
    exact ⟨0, h', hgrow, .growRefused rfl hcap hu⟩

end

/-- `realloc` swallowing the free block that follows. -/
theorem absorbNext_outcome {g : Grants} {ptr n : ℕ} {h : Heap} {L₁ L₃ : List Block} {b c : Block}
    (hc : Carries A h (L₁ ++ b :: c :: L₃)) (h0 : 0 < n) (hn : n + 15 < A.space)
    (hcap : b.cap < A.roundUp16 n) (hcf : c.free) (hroom : A.roundUp16 n ≤ (b.join A c).cap) :
    ∃ p h', absorbNext A b.addr c.addr (A.roundUp16 n) h = some (p, h') ∧
      ReallocOutcome A g ptr n h L₁ b (c :: L₃) p h' := by
  obtain ⟨hr16, hr, hnr, _⟩ := roundUp16_facts h0 hn
  have hspan := hc.spaced.add_span_le
  have hlt := hc.brk_lt
  have hs := hc.separated
  obtain ⟨hc₁, hcb⟩ := hc.chain.mid
  have hap := hc.spaced.apart
  rw [Apart, List.pairwise_append] at hap
  have hspan' : span A (b :: c :: L₃) < A.space := by
    unfold span at hspan ⊢
    rw [List.map_append, List.sum_append] at hspan
    omega
  obtain ⟨habs, hfr⟩ := absorb_spec hcb hap.2.1 hspan'
  have hc' : Chain A (absorb A h.mem b.addr c.addr) h.heapHead (L₁ ++ b.join A c :: L₃) := by
    refine (hc₁.congr fun d hd => hfr.sameHeader fun e he => ?_).append habs
    rw [List.mem_singleton.mp he]
    exact (hap.2.2 d hd b List.mem_cons_self).symm
  have hsp' : Spaced A 0 (L₁ ++ b.join A c :: L₃) h.brk := by
    obtain ⟨mid, h1, h2⟩ := hc.spaced.split
    exact h1.append h2.join
  -- the next block is free, so `b` is used
  have hbf : ¬ b.free := fun hbf => (List.isChain_cons_cons.mp hs.parts.2.1).1 ⟨hbf, hcf⟩
  have hs' : NoAdjacentFree (L₁ ++ b.join A c :: L₃) :=
    noAdjacentFree_used hs.parts.1 (List.isChain_cons.mp hs.parts.2.2).2 hbf
  obtain ⟨m', hm', hre⟩ := split_rewritten (k := h) (h := { h with mem := absorb A h.mem b.addr c.addr })
    hc' hsp' hs' hc.brk_pos hlt hfr rfl hr16 hr hroom
  exact ⟨_, _, hm', .absorbed rfl hcap hcf hroom hre⟩

/-- `realloc` by `malloc`, copy and `free`. -/
theorem moveBlock_outcome {g : Grants} (ptr : ℕ) {n : ℕ} {h : Heap} {L₁ L₃ : List Block} {b c : Block}
    (hq : g.query = true) (hc : Carries A h (L₁ ++ b :: c :: L₃)) (h0 : 0 < n)
    (hcap : b.cap < A.roundUp16 n) (hno : ¬ (c.free ∧ A.roundUp16 n ≤ (b.join A c).cap))
    (hok : MallocOk A g n (L₁ ++ b :: c :: L₃) h.brk) :
    ∃ p h', moveBlock A g ptr b.addr b.cap n h = some (p, h') ∧
      ReallocOutcome A g ptr n h L₁ b (c :: L₃) p h' := by
  obtain ⟨p, h₁, hm, ho⟩ := malloc_outcome (Or.inr hq) hc h0 hok
  unfold moveBlock
  rw [hm]
  dsimp only
  by_cases hp : p = 0
  · rw [if_pos hp]
    subst hp
    exact ⟨0, h₁, rfl, .moveRefused rfl hcap hno ho⟩
  · rw [if_neg hp]
    obtain ⟨L', hd⟩ := ho.handed hc
    have hlt := hc.brk_lt
    have hadd := hc.spaced.add_header hlt (b := b) (by simp)
    have hc₂ := hd.write (m := copy h₁.mem p (b.payload A) b.cap) hp hcap.le fun x hx => copy_outside hx
    obtain ⟨h', hfr⟩ := free_returns ptr hc₂
    rw [hadd, hfr]
    exact ⟨p, h', rfl, .moved rfl hcap hno hm hp ho hfr⟩

/-- **realloc** of a pointer outside every block fails. -/
theorem realloc_outside {g : Grants} {ptr n : ℕ} {h : Heap} {L : List Block} (hc : Carries A h L)
    (hptr : ptr ≠ 0) (h0 : 0 < n) (hno : ∀ b ∈ L, ¬ b.InPayload A ptr) :
    realloc A g ptr n h = some (0, h) := by
  unfold realloc
  rw [if_neg hptr, if_neg (by omega), findblock_outside hc hno]
  rfl

/-- The branches of `realloc` for a pointer into the block `b`, read off the list. -/
theorem realloc_inside {g : Grants} {ptr n : ℕ} {h : Heap} {L₁ L₂ : List Block} {b : Block}
    (hc : Carries A h (L₁ ++ b :: L₂)) (hx : b.InPayload A ptr) (h0 : 0 < n) :
    realloc A g ptr n h =
      if b.cap = A.roundUp16 n then some (b.payload A, h)
      else if A.roundUp16 n < b.cap then splitblock A b.addr (A.roundUp16 n) h
      else match L₂ with
        | [] => growLast A g b.addr (A.roundUp16 n) h
        | c :: _ =>
          if c.free = true ∧ A.roundUp16 n ≤ (b.join A c).cap then
            absorbNext A b.addr c.addr (A.roundUp16 n) h
          else moveBlock A g ptr b.addr b.cap n h := by
  obtain ⟨hbne, hhb, hnext⟩ := hc.chain.mid.2
  have hlt := hc.brk_lt
  have hadd := hc.spaced.add_header hlt (b := b) (by simp)
  unfold realloc
  rw [if_neg (inPayload_ne_zero hx), if_neg (by omega), findblock_inside hc (by simp) hx]
  dsimp only
  rw [if_neg hbne, hhb.cap, hadd]
  refine if_congr Iff.rfl rfl (if_congr Iff.rfl rfl ?_)
  rcases L₂ with _ | ⟨c, L₃⟩
  · exact if_pos hnext
  · obtain ⟨hcne, hhc, _⟩ := hnext
    have hcaddr := hhc.addr
    have hspan := hc.spaced.add_span_le
    have hjoin : A.add b.cap (A.add A.headerSize (A.payloadCapacity h.mem c.addr)) = (b.join A c).cap := by
      unfold span at hspan
      rw [List.map_append, List.sum_append, List.map_cons, List.sum_cons, List.map_cons, List.sum_cons] at hspan
      rw [← hcaddr, hhc.cap, Abi.add_eq (show A.headerSize + c.cap < A.space by omega)]
      exact Abi.add_eq (by omega)
    rw [hcaddr] at hcne hhc ⊢
    rw [if_neg hcne, hhc.free, hjoin]
    exact if_congr ⟨fun h => h.2, fun h => ⟨hcne, h⟩⟩ rfl rfl

/-- **realloc** of a pointer into the block `b` returns, in one of its branches.  With room on the
spot it does not ask for the break. -/
theorem realloc_outcome {g : Grants} {ptr n : ℕ} {h : Heap} {L₁ L₂ : List Block} {b : Block}
    (hq : HasRoom A n b L₂ ∨ g.query = true) (hc : Carries A h (L₁ ++ b :: L₂)) (hx : b.InPayload A ptr)
    (h0 : 0 < n) (hok : BlockOk A g n L₁ b L₂ h.brk) :
    ∃ p h', realloc A g ptr n h = some (p, h') ∧ ReallocOutcome A g ptr n h L₁ b L₂ p h' := by
  obtain ⟨hn, hcases⟩ := hok
  obtain ⟨hr16, hr, -, -⟩ := roundUp16_facts h0 hn
  rw [realloc_inside hc hx h0]
  by_cases hsame : b.cap = A.roundUp16 n
  · rw [if_pos hsame]
    exact ⟨_, h, rfl, .same hsame⟩
  rw [if_neg hsame]
  by_cases hshrink : A.roundUp16 n < b.cap
  · rw [if_pos hshrink]
    obtain ⟨m', hm', hre⟩ := split_rewritten (k := h) (b := b) hc.chain hc.spaced hc.separated hc.brk_pos
      hc.brk_lt (.refl _) rfl hr16 hr hshrink.le
    exact ⟨_, _, hm', .shrunk hshrink hre⟩
  rw [if_neg hshrink]
  have hcap : b.cap < A.roundUp16 n := by omega
  rcases L₂ with _ | ⟨c, L₃⟩
  · refine growLast_outcome ptr hc h0 hn hcap ?_
    rcases hcases with h1 | ⟨_, h2⟩ | ⟨_, _, h3, _⟩ | ⟨h4, _⟩
    · omega
    · exact h2
    · cases h3
    · exact absurd rfl h4
  · dsimp only
    by_cases habs : c.free = true ∧ A.roundUp16 n ≤ (b.join A c).cap
    · rw [if_pos habs]
      exact absorbNext_outcome hc h0 hn hcap habs.1 habs.2
    · rw [if_neg habs]
      have hroom : ¬ HasRoom A n b (c :: L₃) := by
        rintro (h1 | ⟨_, _, h3, h3f, h3r⟩)
        · omega
        · obtain ⟨rfl, rfl⟩ := List.cons.inj h3
          exact habs ⟨h3f, h3r⟩
      refine moveBlock_outcome ptr (hq.resolve_left hroom) hc h0 hcap habs ?_
      rcases hcases with h1 | ⟨h2, _⟩ | h3 | ⟨_, h4⟩
      · exact absurd (Or.inl h1) hroom
      · cases h2
      · exact absurd (Or.inr h3) hroom
      · exact h4

end Csc453.Malloc
