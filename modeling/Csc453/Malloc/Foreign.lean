import Csc453.Malloc.Runs

/-!
# Csc453.Malloc.Foreign — sharing the program break with other code

Between calls of the allocator other code of the process raises the break by any amount and writes
to memory that is not the allocator's.  `Own h x`: the byte `x` lies in a region that one of the
allocator's own `sbrk` calls returned.  Every byte of every block is `Own` as long as no call joins
two blocks, or a block and fresh memory, with a gap between them (`heap_inside`).
-/

namespace Csc453.Malloc

open Bytes Coalesce Transition

variable {A : Abi}

/-- The byte lies in a region returned by a successful `sbrk` call of the allocator. -/
def Own (h : Heap) (x : ℕ) : Prop :=
  ∃ s ∈ h.sbrks, ∃ base, s.result = some base ∧ base ≤ x ∧ (x : ℤ) < base + s.increment

/-- The bytes of the blocks of `L`, headers and payloads, satisfy `P`. -/
def Within (A : Abi) (P : ℕ → Prop) (L : List Block) : Prop :=
  ∀ b ∈ L, ∀ x, b.addr ≤ x → x < b.fin A → P x

/-- Every byte of every block on the list is the allocator's own. -/
def Inside (A : Abi) (h : Heap) : Prop :=
  ∃ L, Chain A h.mem h.heapHead L ∧ Within A (Own h) L

inductive SharedLabel
  | call (c : Call) (g : Grants) (p : ℕ)
  | write (x : ℕ) (v : UInt8)
  | raise (k : ℕ)
  | foreignWrite (x : ℕ) (v : UInt8)

/-- The allocator with its callers, and other code that moves the break up and writes to memory that
is not the allocator's own. -/
def shared (A : Abi) : System Heap SharedLabel where
  init h := h.heapHead = 0 ∧ 0 < h.brk ∧ h.brk < A.space ∧ h.sbrks = []
  step h l h' :=
    match l with
    | .call c g p => c.Words A ∧ exec A g c h = some (p, h')
    | .write x v => Live A h x ∧ h' = { h with mem := Function.update h.mem x v }
    | .raise k => h.brk + k < A.space ∧ h' = { h with brk := h.brk + k }
    | .foreignWrite x v => ¬ Own h x ∧ h' = { h with mem := Function.update h.mem x v }

/-! ### Steps that bridge no gap -/

/-- The free blocks around `b` touch it. -/
def Touches (A : Abi) (L₁ : List Block) (b : Block) (L₂ : List Block) : Prop :=
  (∀ a ∈ L₁.getLast?, a.free → a.fin A = b.addr) ∧ (∀ c ∈ L₂.head?, c.free → b.fin A = c.addr)

instance (L₁ : List Block) (b : Block) (L₂ : List Block) : Decidable (Touches A L₁ b L₂) := instDecidableAnd

/-- The list after the first block that fits has been put to use. -/
def takeFirst (A : Abi) (r : ℕ) : List Block → List Block
  | [] => []
  | b :: L => if Fits r b then used A b r ++ L else b :: takeFirst A r L

/-- `realloc` of the block `b` to `n` bytes joins nothing across a gap: not the leftover of a shrunk
block and the free block behind it, not the last block and fresh memory, not the block and the free
one it absorbs, and not a block freed after a move and its neighbours. -/
structure ResizeTouches (A : Abi) (g : Grants) (n brk : ℕ) (L₁ : List Block) (b : Block)
    (L₂ : List Block) : Prop where
  shrink : A.headerSize + MINIMUM_PAYLOAD_SIZE ≤ b.cap - A.roundUp16 n → ¬ b.free →
    ∀ c ∈ L₂.head?, c.free → b.fin A = c.addr
  grow : b.cap < A.roundUp16 n → L₂ = [] → Granted A g.grow (chunk (A.roundUp16 n - b.cap)) brk →
    b.fin A = brk
  absorb : b.cap < A.roundUp16 n → ∀ c ∈ L₂.head?, c.free → A.roundUp16 n ≤ (b.join A c).cap →
    b.fin A = c.addr
  move : b.cap < A.roundUp16 n → ¬ b.free →
    (∃ c ∈ L₂.head?, ¬ (c.free ∧ A.roundUp16 n ≤ (b.join A c).cap)) →
    (∃ f ∈ L₁ ++ b :: L₂, Fits (A.roundUp16 n) f) ∨
      AppendGranted A g (A.add A.headerSize (A.roundUp16 n)) brk →
    Touches A (takeFirst A (A.roundUp16 n) L₁) b L₂

/-- The step joins nothing across a gap. -/
def NoBridge (A : Abi) (h : Heap) : SharedLabel → Prop
  | .call (.free p) _ _ => ∀ L₁ b L₂, Chain A h.mem h.heapHead (L₁ ++ b :: L₂) → b.InPayload A p →
      ¬ b.free → Touches A L₁ b L₂
  | .call (.realloc p n) g _ => ∀ L₁ b L₂, Chain A h.mem h.heapHead (L₁ ++ b :: L₂) →
      b.InPayload A p → if n = 0 then ¬ b.free → Touches A L₁ b L₂ else ResizeTouches A g n h.brk L₁ b L₂
  | _ => True

/-! ### Coverage -/

/-- Two free neighbours touch. -/
def Flush (A : Abi) (M : List Block) : Prop :=
  M.IsChain fun b c => b.free → c.free → b.fin A = c.addr

theorem NoAdjacentFree.flush {M : List Block} (h : NoAdjacentFree M) : Flush A M :=
  h.imp fun _ _ hbc hb hc => absurd ⟨hb, hc⟩ hbc

theorem Within.mono {P Q : ℕ → Prop} {L : List Block} (h : Within A P L) (hPQ : ∀ x, P x → Q x) :
    Within A Q L := fun b hb x h1 h2 => hPQ x (h b hb x h1 h2)

theorem within_append {P : ℕ → Prop} {L M : List Block} :
    Within A P (L ++ M) ↔ Within A P L ∧ Within A P M := List.forall_mem_append

theorem within_cons {P : ℕ → Prop} {b : Block} {L : List Block} :
    Within A P (b :: L) ↔ (∀ x, b.addr ≤ x → x < b.fin A → P x) ∧ Within A P L := List.forall_mem_cons

/-- The parts of a block lie in the block. -/
theorem within_splitList {P : ℕ → Prop} {b : Block} {r : ℕ} (hb : ∀ x, b.addr ≤ x → x < b.fin A → P x) :
    Within A P (splitList A b r) := by
  by_cases hmin : A.headerSize + MINIMUM_PAYLOAD_SIZE ≤ b.cap - r
  · unfold MINIMUM_PAYLOAD_SIZE at hmin
    rw [splitList_of_le hmin]
    intro c hc x h1 h2
    refine hb x ?_ ?_
    · rcases List.mem_pair.mp hc with rfl | rfl
      · exact h1
      · dsimp only at h1
        omega
    · unfold Block.fin at h2 ⊢
      rcases List.mem_pair.mp hc with rfl | rfl <;> dsimp only at h2 <;> omega
  · rw [splitList_of_lt (not_le.mp hmin)]
    intro c hc
    rw [List.mem_singleton.mp hc]
    exact hb

theorem merged_head (c : Block) (M : List Block) :
    ∃ d N, merged A (c :: M) = d :: N ∧ d.addr = c.addr ∧ d.free = c.free := by
  show ∃ d N, push Block.free (Block.join A) c (merged A M) = d :: N ∧ _
  rcases merged A M with _ | ⟨e, N⟩
  · exact ⟨c, [], rfl, rfl, rfl⟩
  · by_cases hce : c.free ∧ e.free
    · exact ⟨c.join A e, N, push_cons hce.1 hce.2 N, rfl, rfl⟩
    · exact ⟨c, e :: N, if_neg hce, rfl, rfl⟩

/-- Merging blocks that touch covers nothing new. -/
theorem Within.merged {P : ℕ → Prop} {M : List Block} (h : Within A P M) (hM : Flush A M) :
    Within A P (merged A M) := by
  induction M with
  | nil => exact h
  | cons a M ih =>
    obtain ⟨ha, hM'⟩ := within_cons.mp h
    have ih := ih hM' (List.isChain_cons.mp hM).2
    show Within A P (push Block.free (Block.join A) a (Malloc.merged A M))
    rcases M with _ | ⟨c, M⟩
    · exact h
    · obtain ⟨d, N, hd, hda, hdf⟩ := merged_head (A := A) c M
      rw [hd] at ih ⊢
      by_cases hac : a.free ∧ d.free
      · rw [push_cons hac.1 hac.2]
        obtain ⟨hdP, hN⟩ := within_cons.mp ih
        have htouch : a.fin A = d.addr := by
          rw [hda]
          exact (List.isChain_cons_cons.mp hM).1 hac.1 (hdf ▸ hac.2)
        refine within_cons.mpr ⟨fun x h1 h2 => ?_, hN⟩
        by_cases hx : x < a.fin A
        · exact ha x h1 hx
        · refine hdP x (by omega) ?_
          unfold Block.fin Block.join at *
          dsimp only at h2
          omega
      · rw [push, if_neg hac]
        exact within_cons.mpr ⟨ha, ih⟩

/-! ### Sheltered heaps -/

/-- `h` carries `L`, and every byte of `L` is the allocator's own. -/
structure Sheltered (A : Abi) (h : Heap) (L : List Block) : Prop where
  carries : Carries A h L
  within : Within A (Own h) L

theorem Own.mono {h h' : Heap} {x : ℕ} (hs : ∃ calls, h'.sbrks = calls ++ h.sbrks) (hx : Own h x) :
    Own h' x := by
  obtain ⟨calls, hs⟩ := hs
  obtain ⟨s, hmem, base, hr, h1, h2⟩ := hx
  exact ⟨s, by rw [hs]; exact List.mem_append_right _ hmem, base, hr, h1, h2⟩

/-- The region of the last `sbrk` call. -/
theorem own_of_sbrk {h : Heap} {k base x : ℕ} {s : List SbrkCall}
    (hs : h.sbrks = ⟨k, some base⟩ :: s) (h1 : base ≤ x) (h2 : x < base + k) : Own h x :=
  ⟨_, by rw [hs]; exact List.mem_cons_self, base, rfl, h1, by dsimp only; omega⟩

theorem Sheltered.write {h : Heap} {L : List Block} {m : Mem} (hs : Sheltered A h L)
    (hm : ∀ b ∈ L, ∀ x, b.InHeader A x → m x = h.mem x) : Sheltered A { h with mem := m } L :=
  ⟨hs.carries.write hm, hs.within⟩

theorem Rewritten.sheltered {h h' : Heap} {M : List Block} (hr : Rewritten A h h' M) (hM : Flush A M)
    (hw : Within A (Own h') M) : Sheltered A h' (merged A M) := ⟨hr.carries, hw.merged hM⟩

/-- A list without free neighbours is left as it is. -/
theorem Rewritten.sheltered_self {h h' : Heap} {M : List Block} (hr : Rewritten A h h' M)
    (hM : NoAdjacentFree M) (hw : Within A (Own h') M) : Sheltered A h' M := by
  have hs := hr.sheltered hM.flush hw
  rwa [show merged A M = M from coalesce_of_separated hM] at hs

theorem Untouched.sheltered {h h' : Heap} {L : List Block} (hu : Untouched A h h')
    (hs : Sheltered A h L) : Sheltered A h' L :=
  ⟨hu.carries hs.carries, hs.within.mono fun _ => Own.mono hu.sbrks⟩

/-! ### malloc and calloc -/

theorem takeFirst_of_none {r : ℕ} {L : List Block} (hno : ∀ c ∈ L, ¬ Fits r c) : takeFirst A r L = L := by
  induction L with
  | nil => rfl
  | cons b L ih =>
    rw [takeFirst, if_neg (hno b List.mem_cons_self), ih fun c hc => hno c (List.mem_cons_of_mem _ hc)]

theorem takeFirst_of_first {r : ℕ} {L M : List Block} {f : Block} (hf : Fits r f)
    (hno : ∀ c ∈ L, ¬ Fits r c) : takeFirst A r (L ++ f :: M) = L ++ (used A f r ++ M) := by
  induction L with
  | nil => exact if_pos hf
  | cons b L ih =>
    rw [List.cons_append, takeFirst, if_neg (hno b List.mem_cons_self),
      ih fun c hc => hno c (List.mem_cons_of_mem _ hc)]
    rfl

/-- A block that does not fit stays, and what follows it is free only if it was before. -/
theorem takeFirst_mid {r : ℕ} {b : Block} (hb : ¬ Fits r b) (L₁ L₂ : List Block) :
    ∃ K, takeFirst A r (L₁ ++ b :: L₂) = takeFirst A r L₁ ++ b :: K ∧
      ∀ c ∈ K.head?, c.free → c ∈ L₂.head? := by
  induction L₁ with
  | nil =>
    refine ⟨takeFirst A r L₂, if_neg hb, fun c hc hcf => ?_⟩
    rcases L₂ with _ | ⟨d, L₂⟩
    · exact hc
    · by_cases hd : Fits r d
      · obtain ⟨u, N, hu, huf, _⟩ := used_cons A d r
        rw [takeFirst, if_pos hd, hu] at hc
        obtain rfl : u = c := by simpa using hc
        exact absurd hcf huf
      · rw [takeFirst, if_neg hd] at hc
        exact hc
  | cons a L₁ ih =>
    by_cases ha : Fits r a
    · refine ⟨L₂, ?_, fun c hc _ => hc⟩
      rw [List.cons_append, takeFirst, if_pos ha, takeFirst, if_pos ha, List.append_assoc]
    · obtain ⟨K, hK, hhead⟩ := ih
      refine ⟨K, ?_, hhead⟩
      rw [List.cons_append, takeFirst, if_neg ha, hK, takeFirst, if_neg ha]
      rfl

/-- The list `M` keeps the block `b` of `L₁ ++ b :: L₂`, with the blocks of `takeFirst` before it. -/
def Placed (A : Abi) (r : ℕ) (L M : List Block) : Prop :=
  ∀ L₁ b L₂, L = L₁ ++ b :: L₂ → ¬ Fits r b →
    ∃ K, M = takeFirst A r L₁ ++ b :: K ∧ ∀ c ∈ K.head?, c.free → c ∈ L₂.head?

theorem MallocOutcome.sheltered {n p : ℕ} {h h' : Heap} {L : List Block} (hs : Sheltered A h L)
    (ho : MallocOutcome A n h L p h') : ∃ M, Sheltered A h' M ∧ Placed A (A.roundUp16 n) L M := by
  have hsep := hs.carries.separated
  cases ho with
  | refused hno hu =>
    refine ⟨L, hu.sheltered hs, ?_⟩
    rintro L₁ b L₂ rfl _
    rw [takeFirst_of_none fun c hc => hno c (List.mem_append_left _ hc)]
    exact ⟨L₂, rfl, fun c hc _ => hc⟩
  | @reused L₁ L₂ f m' _ hL hf hno hre =>
    subst hL
    obtain ⟨hw₁, hw⟩ := within_append.mp hs.within
    obtain ⟨hwf, hw₂⟩ := within_cons.mp hw
    refine ⟨_, hre.sheltered_self ?_ (within_append.mpr ⟨hw₁, within_append.mpr
      ⟨within_splitList (b := { f with free := false }) hwf, hw₂⟩⟩), ?_⟩
    · refine noAdjacentFree_useBlock f _ hsep.parts.1 hsep.parts.2.2 fun c hc hcf => ?_
      exact (List.isChain_cons.mp hsep.parts.2.1).1 c hc ⟨hf.1, hcf⟩
    · rintro K₁ b K₂ hK hb
      rw [← takeFirst_of_first hf hno, hK]
      exact takeFirst_mid hb K₁ K₂
  | grown _ hno hbrk hsb _ hre =>
    have hown : ∀ x, Own h x → Own h' x := fun _ => Own.mono ⟨[_, _, _], hsb⟩
    have hle := le_chunk (A.headerSize + A.roundUp16 n)
    refine ⟨_, hre.sheltered_self (noAdjacentFree_useBlock _ _ hsep List.isChain_nil (by simp))
      (within_append.mpr ⟨hs.within.mono hown, ?_⟩), ?_⟩
    · rw [List.append_nil]
      refine within_splitList (b := { newBlock A n h.brk with free := false }) fun x h1 h2 => ?_
      unfold Block.fin newBlock chunkBlock at h2
      dsimp only at h2
      exact own_of_sbrk hsb h1 (by omega)
    · rintro L₁ b L₂ rfl _
      obtain ⟨u, N, hu, huf, _⟩ := used_cons A (newBlock A n h.brk) (A.roundUp16 n)
      rw [takeFirst_of_none fun c hc => hno c (List.mem_append_left _ hc), List.append_assoc,
        List.cons_append]
      refine ⟨_, rfl, fun c hc hcf => ?_⟩
      rcases L₂ with _ | ⟨d, L₂⟩
      · rw [hu] at hc
        obtain rfl : u = c := by simpa using hc
        exact absurd hcf huf
      · exact hc

/-- Writing into the payload just handed out. -/
theorem Sheltered.handed_write {n p k : ℕ} {h h' : Heap} {L M : List Block} {m : Mem}
    (hs : Sheltered A h L) (hs' : Sheltered A h' M) (ho : MallocOutcome A n h L p h') (hp : p ≠ 0)
    (hk : k ≤ A.roundUp16 n) (hm : ∀ x, x < p ∨ p + k ≤ x → m x = h'.mem x) :
    Sheltered A { h' with mem := m } M := by
  obtain ⟨L', hd⟩ := ho.handed hs.carries
  obtain rfl := Chain.unique hs'.carries.chain hd.carries.chain
  exact ⟨hd.write hp hk hm, hs'.within⟩

/-! ### free -/

theorem flush_append {L M : List Block} (hL : Flush A L) (hM : Flush A M)
    (hj : ∀ a ∈ L.getLast?, ∀ c ∈ M.head?, a.free → c.free → a.fin A = c.addr) : Flush A (L ++ M) :=
  List.isChain_append.mpr ⟨hL, hM, hj⟩

theorem free_sheltered {x : ℕ} {h h' : Heap} {L : List Block} (hs : Sheltered A h L)
    (hfr : free A x h = some h')
    (ht : ∀ L₁ b L₂, L = L₁ ++ b :: L₂ → b.InPayload A x → ¬ b.free → Touches A L₁ b L₂) :
    ∃ L', Sheltered A h' L' := by
  by_cases hused : ∃ b ∈ L, b.InPayload A x ∧ ¬ b.free
  · obtain ⟨b, hb, hx, hbf⟩ := hused
    obtain ⟨L₁, L₂, rfl⟩ := List.append_of_mem hb
    obtain ⟨h1, h2⟩ := ht L₁ b L₂ rfl hx hbf
    obtain ⟨m', hm', hre⟩ := free_used hs.carries hbf hx
    obtain rfl := Option.some.inj (hfr.symm.trans hm')
    obtain ⟨hn₁, _, hn₂⟩ := hs.carries.separated.parts
    refine ⟨_, hre.sheltered (flush_append hn₁.flush ?_ fun a ha c hc haf _ => ?_) ?_⟩
    · exact List.isChain_cons.mpr ⟨fun c hc _ hcf => h2 c hc hcf, hn₂.flush⟩
    · obtain rfl : { b with free := true } = c := by simpa using hc
      exact h1 a ha haf
    · obtain ⟨hw₁, hw⟩ := within_append.mp hs.within
      obtain ⟨hwb, hw₂⟩ := within_cons.mp hw
      exact within_append.mpr ⟨hw₁, within_cons.mpr ⟨hwb, hw₂⟩⟩
  · have hno : ∀ b ∈ L, b.InPayload A x → b.free := fun b hb hx => by
      by_contra hbf
      exact hused ⟨b, hb, hx, hbf⟩
    obtain rfl := Option.some.inj (hfr.symm.trans (free_noop hs.carries hno))
    exact ⟨L, hs⟩

/-! ### realloc -/

/-- The list around a block that has been split: free neighbours touch if the block, or what is split
off, touches the free block behind it. -/
theorem flush_splitList {L M : List Block} {b : Block} {r : ℕ} (hL : NoAdjacentFree L)
    (hM : NoAdjacentFree M) (hj : ∀ a ∈ L.getLast?, ¬ (a.free ∧ b.free))
    (ht : b.free ∨ A.headerSize + MINIMUM_PAYLOAD_SIZE ≤ b.cap - r →
      ∀ c ∈ M.head?, c.free → b.fin A = c.addr) : Flush A (L ++ (splitList A b r ++ M)) := by
  by_cases hmin : A.headerSize + MINIMUM_PAYLOAD_SIZE ≤ b.cap - r
  · rw [splitList_of_le hmin]
    unfold MINIMUM_PAYLOAD_SIZE at hmin
    refine flush_append hL.flush (List.isChain_cons_cons.mpr ⟨fun _ _ => rfl,
      List.isChain_cons.mpr ⟨fun c hc _ hcf => ?_, hM.flush⟩⟩) fun a ha c hc haf hcf => ?_
    · have hfin := ht (Or.inr hmin) c hc hcf
      unfold Block.fin at hfin ⊢
      dsimp only
      omega
    · obtain rfl : { b with cap := r } = c := by simpa using hc
      exact absurd ⟨haf, hcf⟩ (hj a ha)
  · rw [splitList_of_lt (not_le.mp hmin)]
    refine flush_append hL.flush (List.isChain_cons.mpr ⟨fun c hc hbf hcf => ht (Or.inl hbf) c hc hcf,
      hM.flush⟩) fun a ha c hc haf hcf => ?_
    obtain rfl : b = c := by simpa using hc
    exact absurd ⟨haf, hcf⟩ (hj a ha)

theorem NoAdjacentFree.around {L M : List Block} {b : Block} (h : NoAdjacentFree (L ++ b :: M)) :
    (∀ a ∈ L.getLast?, ¬ (a.free ∧ b.free)) ∧ ∀ c ∈ M.head?, ¬ (b.free ∧ c.free) := by
  have h' := List.isChain_append.mp h
  exact ⟨fun a ha => h'.2.2 a ha b (by simp), (List.isChain_cons.mp h'.2.1).1⟩

/-- A move: the old block is freed where `malloc` has left it. -/
theorem moved_sheltered {ptr n p : ℕ} {h h₁ h' : Heap} {L₁ L₂ : List Block} {b : Block}
    (hs : Sheltered A h (L₁ ++ b :: L₂)) (hx : b.InPayload A ptr) (hcap : b.cap < A.roundUp16 n)
    (hp : p ≠ 0) (ho : MallocOutcome A n h (L₁ ++ b :: L₂) p h₁)
    (hfr : free A ptr { h₁ with mem := copy h₁.mem p (b.payload A) b.cap } = some h')
    (ht : ¬ b.free → Touches A (takeFirst A (A.roundUp16 n) L₁) b L₂) : ∃ L', Sheltered A h' L' := by
  obtain ⟨M, hM, hplaced⟩ := ho.sheltered hs
  obtain ⟨K, rfl, hhead⟩ := hplaced L₁ b L₂ rfl fun hfit => by
    have := hfit.2
    omega
  have hs₂ := hs.handed_write hM ho hp hcap.le (m := copy h₁.mem p (b.payload A) b.cap)
    fun x hx => copy_outside hx
  refine free_sheltered hs₂ hfr fun N₁ d N₂ hN hxd hdf => ?_
  obtain ⟨rfl, rfl, rfl⟩ := hs₂.carries.spaced.split_unique hN hx hxd
  obtain ⟨h1, h2⟩ := ht hdf
  exact ⟨h1, fun c hc hcf => h2 c (hhead c hc hcf) hcf⟩

theorem ReallocOutcome.sheltered {g : Grants} {ptr n p : ℕ} {h h' : Heap} {L₁ L₂ : List Block} {b : Block}
    (hs : Sheltered A h (L₁ ++ b :: L₂)) (hq : g.query = true) (hx : b.InPayload A ptr) (h0 : 0 < n)
    (ht : ResizeTouches A g n h.brk L₁ b L₂) (ho : ReallocOutcome A g ptr n h L₁ b L₂ p h') :
    ∃ L', Sheltered A h' L' := by
  have hsep := hs.carries.separated
  obtain ⟨hn₁, _, hn₂⟩ := hsep.parts
  obtain ⟨hbefore, hafter⟩ := hsep.around
  obtain ⟨hw₁, hw⟩ := within_append.mp hs.within
  obtain ⟨hwb, hw₂⟩ := within_cons.mp hw
  cases ho with
  | same => exact ⟨_, hs⟩
  | shrunk _ hre =>
    refine ⟨_, hre.sheltered (flush_splitList hn₁ hn₂ hbefore fun hor c hc hcf => ?_)
      (within_append.mpr ⟨hw₁, within_append.mpr ⟨within_splitList hwb, hw₂⟩⟩)⟩
    by_cases hbf : b.free
    · exact absurd ⟨hbf, hcf⟩ (hafter c hc)
    · exact ht.shrink (hor.resolve_left hbf) hbf c hc hcf
  | grown hnil hcap hg _ hsb hre =>
    subst hnil
    have hfin := ht.grow hcap rfl hg
    have hown : ∀ x, Own h x → Own h' x := fun _ => Own.mono ⟨[_], hsb⟩
    refine ⟨_, hre.sheltered (flush_splitList hn₁ List.isChain_nil hbefore fun _ c hc => by simp at hc)
      (within_append.mpr ⟨hw₁.mono hown, within_append.mpr ⟨within_splitList fun x h1 h2 => ?_,
        fun c hc => by simp at hc⟩⟩)⟩
    -- the bytes of the block, then the fresh ones behind it
    by_cases hxb : x < b.fin A
    · exact hown x (hwb x h1 hxb)
    · refine own_of_sbrk hsb (by omega) ?_
      unfold Block.fin grownBlock at *
      dsimp only at h2
      omega
  | growRefused _ _ hu => exact ⟨_, hu.sheltered hs⟩
  | @absorbed c L₃ m' hL hcap hcf hroom hre =>
    subst hL
    have htouch := ht.absorb hcap c rfl hcf hroom
    have hbf : ¬ b.free := fun hbf => hafter c rfl ⟨hbf, hcf⟩
    obtain ⟨hwc, hw₃⟩ := within_cons.mp hw₂
    have hn₃ := List.isChain_cons.mp hn₂
    refine ⟨_, hre.sheltered (flush_splitList hn₁ hn₃.2 hbefore fun _ d hd hdf => ?_)
      (within_append.mpr ⟨hw₁, within_append.mpr ⟨within_splitList fun x h1 h2 => ?_, hw₃⟩⟩)⟩
    · exact absurd ⟨hcf, hdf⟩ (hn₃.1 d hd)
    · by_cases hxb : x < b.fin A
      · exact hwb x h1 hxb
      · refine hwc x (by omega) ?_
        unfold Block.fin Block.join at *
        dsimp only at h2
        omega
  | moveRefused _ _ _ ho =>
    obtain ⟨M, hM, _⟩ := ho.sheltered hs
    exact ⟨M, hM⟩
  | @moved c L₃ _ h₁ _ hL hcap hno hm hp ho hfr =>
    refine moved_sheltered hs hx hcap hp ho hfr fun hbf => ?_
    refine ht.move hcap hbf ⟨c, by rw [hL]; rfl, hno⟩ ?_
    -- `malloc` answered, so a block fits or `sbrk` grants
    by_contra hnone
    rw [not_or] at hnone
    obtain ⟨h'', hm', _⟩ := malloc_refused hq hs.carries h0 (fun f hf hfit => hnone.1 ⟨f, hf, hfit⟩) hnone.2
    exact hp (Prod.mk.inj (Option.some.inj (hm.symm.trans hm'))).1

/-! ### Runs -/

/-- Sizes are bounded, and a query `sbrk(0)` is answered. -/
def Bounded (A : Abi) (h : Heap) : SharedLabel → Prop
  | .call c g p => c.SizeOk A ∧ Queried A h (.call c g p)
  | _ => True

theorem malloc_sheltered {g : Grants} {n p : ℕ} {h h' : Heap} {L : List Block} (hs : Sheltered A h L)
    (hq : g.query = true) (hn : A.headerSize + (n + 15) / 16 * 16 ≤ A.ptrdiffMax)
    (hm : malloc A g n h = some (p, h')) : ∃ L', Sheltered A h' L' := by
  rcases Nat.eq_zero_or_pos n with rfl | h0
  · obtain ⟨_, rfl⟩ := Prod.mk.inj (Option.some.inj ((malloc_zero g h).symm.trans hm))
    exact ⟨L, hs⟩
  · obtain ⟨p', h'', hm', ho⟩ := malloc_outcome (Or.inr hq) hs.carries h0 (.of_size hn)
    obtain ⟨_, rfl⟩ := Prod.mk.inj (Option.some.inj (hm.symm.trans hm'))
    obtain ⟨M, hM, _⟩ := ho.sheltered hs
    exact ⟨M, hM⟩

theorem calloc_sheltered {g : Grants} {k n p : ℕ} {h h' : Heap} {L : List Block} (hs : Sheltered A h L)
    (hq : g.query = true) (hn : A.headerSize + (k * n + 15) / 16 * 16 ≤ A.ptrdiffMax)
    (hm : calloc A g k n h = some (p, h')) : ∃ L', Sheltered A h' L' := by
  have hS := A.space_facts
  rw [calloc_eq g h (by unfold Abi.ptrdiffMax at hn; omega)] at hm
  rcases Nat.eq_zero_or_pos (k * n) with hz | h0
  · rw [hz, malloc_zero] at hm
    obtain ⟨_, rfl⟩ := Prod.mk.inj (Option.some.inj hm)
    exact ⟨L, hs⟩
  obtain ⟨q, h₁, hm₁, ho⟩ := malloc_outcome (Or.inr hq) hs.carries h0 (.of_size hn)
  obtain ⟨M, hM, _⟩ := ho.sheltered hs
  rw [hm₁] at hm
  dsimp only at hm
  by_cases hp : q = 0
  · rw [if_pos hp] at hm
    obtain ⟨_, rfl⟩ := Prod.mk.inj (Option.some.inj hm)
    exact ⟨M, hM⟩
  · rw [if_neg hp] at hm
    obtain ⟨_, rfl⟩ := Prod.mk.inj (Option.some.inj hm)
    obtain ⟨_, _, hnr, _⟩ := roundUp16_facts (A := A) h0 (by unfold Abi.ptrdiffMax at hn; omega)
    exact ⟨M, hs.handed_write hM ho hp hnr fun x hx => fill_outside hx⟩

theorem realloc_sheltered {g : Grants} {ptr n p : ℕ} {h h' : Heap} {L : List Block} (hs : Sheltered A h L)
    (hq : g.query = true) (hn : A.headerSize + (n + 15) / 16 * 16 ≤ A.ptrdiffMax)
    (ht : NoBridge A h (.call (.realloc ptr n) g p)) (hm : realloc A g ptr n h = some (p, h')) :
    ∃ L', Sheltered A h' L' := by
  by_cases hptr : ptr = 0
  · subst hptr
    exact malloc_sheltered hs hq hn hm
  have ht : ∀ L₁ b L₂, L = L₁ ++ b :: L₂ → b.InPayload A ptr →
      if n = 0 then ¬ b.free → Touches A L₁ b L₂ else ResizeTouches A g n h.brk L₁ b L₂ := by
    rintro L₁ b L₂ rfl hx
    exact ht L₁ b L₂ hs.carries.chain hx
  rcases Nat.eq_zero_or_pos n with rfl | h0
  · unfold realloc at hm
    rw [if_neg hptr, if_pos rfl] at hm
    obtain ⟨h'', hfr, heq⟩ := Option.map_eq_some_iff.mp hm
    obtain ⟨_, rfl⟩ := Prod.mk.inj heq
    refine free_sheltered hs hfr fun L₁ b L₂ hL hx hbf => ?_
    have htouch := ht L₁ b L₂ hL hx
    rw [if_pos rfl] at htouch
    exact htouch hbf
  · by_cases hin : ∃ b ∈ L, b.InPayload A ptr
    · obtain ⟨b, hb, hx⟩ := hin
      obtain ⟨L₁, L₂, rfl⟩ := List.append_of_mem hb
      have htouch := ht L₁ b L₂ rfl hx
      rw [if_neg (by omega)] at htouch
      obtain ⟨p', h'', hm', ho⟩ := realloc_outcome (Or.inr hq) hs.carries hx h0 ((ReallocOk.of_size hn).block hx)
      obtain ⟨rfl, rfl⟩ := Prod.mk.inj (Option.some.inj (hm.symm.trans hm'))
      exact ho.sheltered hs hq hx h0 htouch
    · have hm' := realloc_outside (g := g) hs.carries hptr h0 fun b hb hx => hin ⟨b, hb, hx⟩
      obtain ⟨_, rfl⟩ := Prod.mk.inj (Option.some.inj (hm.symm.trans hm'))
      exact ⟨L, hs⟩

theorem exec_sheltered {g : Grants} {c : Call} {p : ℕ} {h h' : Heap} {L : List Block}
    (hs : Sheltered A h L) (hq : g.query = true) (hsz : c.SizeOk A) (ht : NoBridge A h (.call c g p))
    (hx : exec A g c h = some (p, h')) : ∃ L', Sheltered A h' L' := by
  cases c with
  | malloc n => exact malloc_sheltered hs hq hsz hx
  | calloc k n => exact calloc_sheltered hs hq hsz hx
  | realloc ptr n => exact realloc_sheltered hs hq hsz ht hx
  | free ptr =>
    obtain ⟨h'', hfr, heq⟩ := Option.map_eq_some_iff.mp hx
    obtain ⟨_, rfl⟩ := Prod.mk.inj heq
    refine free_sheltered hs hfr ?_
    rintro L₁ b L₂ rfl hbx hbf
    exact ht L₁ b L₂ hs.carries.chain hbx hbf

/-- What bridges no gap bridges none with the query answered. -/
theorem NoBridge.query {g : Grants} {c : Call} {p : ℕ} {h : Heap} (ht : NoBridge A h (.call c g p)) :
    NoBridge A h (.call c { g with query := true } p) := by
  cases c with
  | realloc ptr n =>
    intro L₁ b L₂ hL hx
    have htouch := ht L₁ b L₂ hL hx
    by_cases hn : n = 0
    · rw [if_pos hn] at htouch ⊢
      exact htouch
    · rw [if_neg hn] at htouch ⊢
      exact ⟨htouch.shrink, htouch.grow, htouch.absorb, htouch.move⟩
  | _ => exact ht

/-- One step of anybody. -/
theorem shared_sheltered {h h' : Heap} {l : SharedLabel} {L : List Block} (hs : Sheltered A h L)
    (hstep : (shared A).step h l h') (hb : Bounded A h l) (ht : NoBridge A h l) :
    ∃ L', Sheltered A h' L' := by
  cases l with
  | call c g p =>
    obtain ⟨_, hx⟩ := hstep
    obtain ⟨hsz, hq⟩ := hb
    rw [hq.exec_eq hs.carries] at hx
    exact exec_sheltered hs rfl hsz ht.query hx
  | write x v =>
    obtain ⟨⟨K, hK, b, hbK, _, hbx⟩, rfl⟩ := hstep
    obtain rfl := Chain.unique hK hs.carries.chain
    refine ⟨K, hs.write fun c hc y hy => Function.update_of_ne ?_ ..⟩
    rintro rfl
    exact (hs.carries.spaced.payload hbK hbx c hc).1 hy
  | raise k =>
    obtain ⟨hlt, rfl⟩ := hstep
    have hpos := hs.carries.brk_pos
    exact ⟨L, ⟨hs.carries.chain, hs.carries.spaced.weaken le_rfl (Nat.le_add_right _ _), hs.carries.separated,
      Nat.lt_of_lt_of_le hpos (Nat.le_add_right _ _), hlt⟩, hs.within⟩
  | foreignWrite x v =>
    obtain ⟨hx, rfl⟩ := hstep
    refine ⟨L, hs.write fun c hc y hy => Function.update_of_ne ?_ ..⟩
    rintro rfl
    refine hx (hs.within c hc _ hy.1 ?_)
    have := hy.2
    unfold Block.fin
    omega

/-- **The heap stays inside its own memory** in every run whose calls bridge no gap. -/
theorem heap_inside {hist : List (Event Heap SharedLabel)} {h : Heap} (hr : Run (shared A) hist h)
    (hb : ∀ e ∈ hist, Bounded A e.pre e.label) (ht : ∀ e ∈ hist, NoBridge A e.pre e.label) : Inside A h := by
  have hr' := hr.restrict (P := fun h l => Bounded A h l ∧ NoBridge A h l) fun e he => ⟨hb e he, ht e he⟩
  obtain ⟨L, hs⟩ : ∃ L, Sheltered A h L := by
    refine hr'.reachable.invariant (I := fun h => ∃ L, Sheltered A h L) (fun h hi => ?_) ?_
    · exact ⟨[], ⟨hi.1, Nat.zero_le _, List.isChain_nil, hi.2.1, hi.2.2.1⟩, fun b hb => by simp at hb⟩
    · rintro h l h' ⟨L, hs⟩ ⟨hstep, hb, ht⟩
      exact shared_sheltered hs hstep hb ht
  exact ⟨L, hs.carries.chain, hs.within⟩

theorem forall_split_nil {P : List Block → Block → List Block → Prop} :
    ∀ L₁ b L₂, L₁ ++ b :: L₂ = [] → P L₁ b L₂ := by
  intro L₁ b L₂ h
  simp at h

theorem forall_split_cons {P : List Block → Block → List Block → Prop} {a : Block} {L : List Block} :
    (∀ L₁ b L₂, L₁ ++ b :: L₂ = a :: L → P L₁ b L₂) ↔
      P [] a L ∧ ∀ L₁ b L₂, L₁ ++ b :: L₂ = L → P (a :: L₁) b L₂ := by
  refine ⟨fun h => ⟨h [] a L rfl, fun L₁ b L₂ hL => h (a :: L₁) b L₂ (by rw [← hL]; rfl)⟩, ?_⟩
  rintro ⟨hhead, htail⟩ L₁ b L₂ h
  cases L₁ with
  | nil =>
    obtain ⟨rfl, rfl⟩ := List.cons.inj h
    exact hhead
  | cons c L₁ =>
    obtain ⟨rfl, hL⟩ := List.cons.inj h
    exact htail L₁ b L₂ hL

theorem shared_call {hist : List (Event Heap SharedLabel)} {h h' : Heap} {c : Call} {g : Grants} {p : ℕ}
    (hr : Run (shared A) hist h) (hx : exec A g c h = some (p, h')) (hw : c.Words A) :
    Run (shared A) (⟨h, .call c g p, h'⟩ :: hist) h' := by
  have hstep : (shared A).step h (.call c g p) h' := ⟨hw, hx⟩
  exact .step hr hstep

theorem shared_first {c : Call} {g : Grants} {p : ℕ} {h : Heap}
    (hx : exec abi64 g c freshHeap = some (p, h)) (hw : c.Words abi64) :
    Run (shared abi64) [⟨freshHeap, .call c g p, h⟩] h :=
  shared_call (.init ⟨rfl, by decide, by decide, rfl⟩) hx hw

theorem shared_raise {hist : List (Event Heap SharedLabel)} {h : Heap} {k : ℕ}
    (hr : Run (shared A) hist h) (hk : h.brk + k < A.space) :
    Run (shared A) (⟨h, .raise k, { h with brk := h.brk + k }⟩ :: hist) { h with brk := h.brk + k } := by
  have hstep : (shared A).step h (.raise k) { h with brk := h.brk + k } := ⟨hk, rfl⟩
  exact .step hr hstep

/-- A full chunk, and one with two blocks behind a gap of 48 bytes. -/
def secondChunk : List Block :=
  [⟨4096, 65504, false⟩, ⟨69680, 112, false⟩, ⟨69824, 112, false⟩, ⟨69968, 65216, true⟩]

/-- A chunk of the allocator, then 48 bytes of somebody else; behind them a second chunk with two
blocks, of which the second one is freed and joins the free rest of the chunk. -/
theorem heap_inside_raised : ∃ h₁ h₂ h₃ h₄,
    exec abi64 allGranted (.malloc 65504) freshHeap = some (4128, h₁) ∧
    exec abi64 allGranted (.malloc 100) { h₁ with brk := h₁.brk + 48 } = some (69712, h₂) ∧
    exec abi64 allGranted (.malloc 100) h₂ = some (69856, h₃) ∧
    exec abi64 allGranted (.free 69856) h₃ = some (0, h₄) ∧ Inside abi64 h₄ := by
  obtain ⟨h₁, hx₁, hbrk, h₂, hx₂, h₃, hx₃, hL, h₄, hx₄⟩ :
      ∃ h₁, exec abi64 allGranted (.malloc 65504) freshHeap = some (4128, h₁) ∧ h₁.brk = 69632 ∧
        ∃ h₂, exec abi64 allGranted (.malloc 100) { h₁ with brk := h₁.brk + 48 } = some (69712, h₂) ∧
          ∃ h₃, exec abi64 allGranted (.malloc 100) h₂ = some (69856, h₃) ∧
            h₃.blocks abi64 = some secondChunk ∧
            ∃ h₄, exec abi64 allGranted (.free 69856) h₃ = some (0, h₄) :=
    ⟨_, rfl, rfl, _, rfl, _, rfl, rfl, _, rfl⟩
  have hraise : h₁.brk + 48 < abi64.space := by
    rw [hbrk]
    decide +kernel
  have hrun₁ := shared_raise (shared_first hx₁ (by decide +kernel)) hraise
  have hrun₃ := shared_call (shared_call hrun₁ hx₂ (by decide +kernel)) hx₃ (by decide +kernel)
  have hclear : NoBridge abi64 h₃ (.call (.free 69856) allGranted 0) := by
    intro L₁ b L₂ hc
    refine (forall_split_cons.mpr ⟨?_, forall_split_cons.mpr ⟨?_, forall_split_cons.mpr
      ⟨?_, forall_split_cons.mpr ⟨?_, forall_split_nil⟩⟩⟩⟩ :
        ∀ L₁ b L₂, L₁ ++ b :: L₂ = secondChunk → b.InPayload abi64 69856 → ¬ b.free →
          Touches abi64 L₁ b L₂) L₁ b L₂ (Chain.unique hc (h₃.blocks_chain hL)) <;> decide +kernel
  have hbounded : ∀ (h : Heap) (c : Call) (p : ℕ), c.SizeOk abi64 →
      Bounded abi64 h (.call c allGranted p) := fun h c p hc => ⟨hc, fun _ _ _ => rfl⟩
  refine ⟨h₁, h₂, h₃, h₄, hx₁, hx₂, hx₃, hx₄, heap_inside (shared_call hrun₃ hx₄ (by decide +kernel))
    ?_ ?_⟩
  · simp only [List.forall_mem_cons]
    exact ⟨hbounded _ _ _ (by decide +kernel), hbounded _ _ _ (by decide +kernel),
      hbounded _ _ _ (by decide +kernel), trivial, hbounded _ _ _ (by decide +kernel), nofun⟩
  · simp only [List.forall_mem_cons]
    exact ⟨hclear, trivial, trivial, trivial, trivial, nofun⟩

/-- The last block is grown past 16 bytes that somebody else has taken in between. -/
theorem heap_inside_bridged : ¬ ∀ (hist : List (Event Heap SharedLabel)) (h : Heap),
    Run (shared abi64) hist h → (∀ e ∈ hist, Bounded abi64 e.pre e.label) → Inside abi64 h := by
  intro hall
  obtain ⟨h₁, hx₁, hbrk, h₂, hx₂, hhd, hcap, hsb⟩ :
      ∃ h₁, exec abi64 allGranted (.malloc 65504) freshHeap = some (4128, h₁) ∧ h₁.brk = 69632 ∧
        ∃ h₂, exec abi64 allGranted (.realloc 4128 65520) { h₁ with brk := h₁.brk + 16 } = some (4128, h₂) ∧
          h₂.heapHead = 4096 ∧ abi64.payloadCapacity h₂.mem 4096 = 65520 ∧
          h₂.sbrks = [⟨65536, some 69648⟩, ⟨65536, some 4096⟩, ⟨0, some 4096⟩, ⟨0, some 4096⟩] :=
    ⟨_, rfl, rfl, _, rfl, rfl, rfl, rfl⟩
  have hraise : h₁.brk + 16 < abi64.space := by
    rw [hbrk]
    decide +kernel
  have hstep : (shared abi64).step { h₁ with brk := h₁.brk + 16 } (.call (.realloc 4128 65520) allGranted 4128) h₂ :=
    ⟨show 4128 < abi64.space ∧ 65520 < abi64.space by decide +kernel, hx₂⟩
  have hrun := Run.step (shared_raise (shared_first hx₁ (show 65504 < abi64.space by decide +kernel)) hraise) hstep
  have hsize : ∀ n, n ≤ 65520 → abi64.headerSize + (n + 15) / 16 * 16 ≤ abi64.ptrdiffMax := by
    intro n hn
    have h32 := abi64_headerSize
    have hmax : abi64.ptrdiffMax = 9223372036854775807 := by decide +kernel
    omega
  obtain ⟨L, hL, hin⟩ := hall _ h₂ hrun (List.forall_mem_cons.mpr ⟨⟨hsize 65520 le_rfl, fun _ _ _ => rfl⟩,
    List.forall_mem_cons.mpr ⟨trivial, List.forall_mem_cons.mpr ⟨⟨hsize 65504 (by decide), fun _ _ _ => rfl⟩, nofun⟩⟩⟩)
  rcases L with _ | ⟨b, L⟩
  · exact absurd (hhd.symm.trans hL) (by decide)
  have haddr : b.addr = 4096 := (Seg.head hL).symm.trans hhd
  have hbcap := (hL.header_of_mem List.mem_cons_self).cap
  rw [haddr, hcap] at hbcap
  -- the byte at the old break
  obtain ⟨s, hs, base, hres, h1, h2⟩ := hin b List.mem_cons_self 69632 (by omega) (by
    have h32 := abi64_headerSize
    unfold Block.fin
    omega)
  rw [hsb] at hs
  simp only [List.mem_cons, List.not_mem_nil, or_false] at hs
  rcases hs with rfl | rfl | rfl | rfl <;> cases hres <;> dsimp only at h2 <;> omega

end Csc453.Malloc
