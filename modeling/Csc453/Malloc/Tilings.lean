import Csc453.Malloc.Blocks

/-!
# Csc453.Malloc.Tilings — where the blocks of a list lie

`Apart` says that no two headers overlap.  `Spaced lo L hi`: the blocks lie in ascending order
between `lo` and `hi`, aligned, with gaps or without; `Tiles lo L hi`: they cover the addresses from
`lo` to `hi` without gaps.  A tiling is spaced, and everything about disjointness is proved of
spaced lists.
-/

namespace Csc453.Malloc

open Bytes Coalesce

variable {A : Abi} {m m' : Mem}

/-- The members of a list stay when one other member is replaced by `N`. -/
theorem mem_splice {L M : List Block} {b c : Block} (hc : c ∈ L ++ b :: M) (hne : c ≠ b)
    (N : List Block) : c ∈ L ++ (N ++ M) := by
  rcases List.mem_append.mp hc with hc | hc
  · exact List.mem_append_left _ hc
  · rcases List.mem_cons.mp hc with rfl | hc
    · exact absurd rfl hne
    · exact List.mem_append_right _ (List.mem_append_right _ hc)

/-! ### Disjoint headers -/

/-- No two headers overlap. -/
def Apart (A : Abi) (L : List Block) : Prop := L.Pairwise fun b c => ApartAt A b.addr c.addr

/-- `m'` has the bytes of `m` outside the headers of `L`. -/
def OnlyHeaders (A : Abi) (L : List Block) (m m' : Mem) : Prop :=
  ∀ x, (∀ b ∈ L, ¬ b.InHeader A x) → m' x = m x

theorem OnlyHeaders.refl (L : List Block) : OnlyHeaders A L m m := fun _ _ => rfl

theorem OnlyHeaders.trans {m'' : Mem} {L : List Block} (h : OnlyHeaders A L m m')
    (h' : OnlyHeaders A L m' m'') : OnlyHeaders A L m m'' :=
  fun x hx => (h' x hx).trans (h x hx)

theorem OnlyHeaders.mono {L M : List Block} (h : OnlyHeaders A L m m')
    (hs : ∀ b ∈ L, ∃ c ∈ M, c.addr = b.addr) : OnlyHeaders A M m m' := by
  refine fun x hx => h x fun b hb hxb => ?_
  obtain ⟨c, hc, hcb⟩ := hs b hb
  refine hx c hc ?_
  unfold Block.InHeader at hxb ⊢
  rwa [hcb]

/-- A header apart from all of `L` is untouched. -/
theorem OnlyHeaders.sameHeader {L : List Block} {c : ℕ} (h : OnlyHeaders A L m m')
    (hc : ∀ b ∈ L, ApartAt A b.addr c) : SameHeader A m m' c := by
  refine fun x h1 h2 => h x fun b hb hx => ?_
  have := hc b hb
  unfold ApartAt at this
  unfold Block.InHeader at hx
  omega

/-- The bytes the blocks of `L` take. -/
def span (A : Abi) (L : List Block) : ℕ := (L.map fun b => A.headerSize + b.cap).sum

/-! ### Spaced lists -/

/-- The blocks lie between `lo` and `hi` in ascending order, 16-byte aligned. -/
def Spaced (A : Abi) : ℕ → List Block → ℕ → Prop
  | lo, [], hi => lo ≤ hi
  | lo, b :: L, hi =>
    (lo ≤ b.addr ∧ b.addr % 16 = 0 ∧ b.cap % 16 = 0 ∧ 16 ≤ b.cap) ∧ Spaced A (b.fin A) L hi

namespace Spaced

variable {lo k hi : ℕ} {L M L₁ L₂ : List Block} {b c : Block}

theorem add_span_le (h : Spaced A lo L hi) : lo + span A L ≤ hi := by
  induction L generalizing lo with
  | nil => exact h
  | cons b L ih =>
    have := ih h.2
    have hb := h.1.1
    unfold Block.fin at this
    unfold span at this ⊢
    rw [List.map_cons, List.sum_cons]
    omega

theorem le (h : Spaced A lo L hi) : lo ≤ hi := by
  have := h.add_span_le
  omega

theorem weaken {lo' hi' : ℕ} (h : Spaced A lo L hi) (hlo : lo' ≤ lo) (hhi : hi ≤ hi') :
    Spaced A lo' L hi' := by
  induction L generalizing lo lo' with
  | nil =>
    have hle : lo ≤ hi := h
    exact (hlo.trans hle).trans hhi
  | cons b L ih => exact ⟨⟨hlo.trans h.1.1, h.1.2⟩, ih h.2 le_rfl⟩

theorem append (h : Spaced A lo L k) (h' : Spaced A k M hi) : Spaced A lo (L ++ M) hi := by
  induction L generalizing lo with
  | nil => exact h'.weaken h le_rfl
  | cons b L ih => exact ⟨h.1, ih h.2⟩

theorem split (h : Spaced A lo (L ++ M) hi) : ∃ mid, Spaced A lo L mid ∧ Spaced A mid M hi := by
  induction L generalizing lo with
  | nil => exact ⟨lo, le_rfl, h⟩
  | cons b L ih =>
    obtain ⟨mid, h1, h2⟩ := ih h.2
    exact ⟨mid, ⟨h.1, h1⟩, h2⟩

theorem mid (h : Spaced A lo (L ++ b :: M) hi) :
    Spaced A lo L b.addr ∧ Spaced A (b.fin A) M hi ∧ b.addr % 16 = 0 ∧ b.cap % 16 = 0 ∧ 16 ≤ b.cap := by
  obtain ⟨mid, h1, ⟨hb, h16, hc16, hcap⟩, h2⟩ := h.split
  exact ⟨h1.weaken le_rfl hb, h2, h16, hc16, hcap⟩

/-- Every block lies between the ends. -/
theorem bounds (h : Spaced A lo L hi) (hb : b ∈ L) :
    lo ≤ b.addr ∧ b.fin A ≤ hi ∧ b.addr % 16 = 0 ∧ b.cap % 16 = 0 ∧ 16 ≤ b.cap := by
  obtain ⟨L1, L2, rfl⟩ := List.append_of_mem hb
  obtain ⟨h1, h2, h16, hc16, hcap⟩ := h.mid
  exact ⟨h1.le, h2.le, h16, hc16, hcap⟩

/-- Stepping over a header does not wrap. -/
theorem add_header (h : Spaced A lo L hi) (hhi : hi < A.space) (hb : b ∈ L) :
    A.add b.addr A.headerSize = b.payload A := by
  have hfin := (h.bounds hb).2.1
  unfold Block.fin at hfin
  exact Abi.add_eq (by omega)

/-- Of two blocks, one ends before the other starts. -/
theorem disjoint (h : Spaced A lo L hi) : L.Pairwise fun b c => b.fin A ≤ c.addr := by
  induction L generalizing lo with
  | nil => exact List.Pairwise.nil
  | cons b L ih => exact List.pairwise_cons.mpr ⟨fun c hc => (h.2.bounds hc).1, ih h.2⟩

theorem apart (h : Spaced A lo L hi) : Apart A L :=
  h.disjoint.imp fun hbc => Or.inl (by unfold Block.fin at hbc; omega)

theorem ends (h : Spaced A lo L hi) (hb : b ∈ L) (hc : c ∈ L) :
    b = c ∨ b.fin A ≤ c.addr ∨ c.fin A ≤ b.addr := by
  obtain ⟨L1, L2, rfl⟩ := List.append_of_mem hb
  have hd := h.disjoint
  rw [List.pairwise_append, List.pairwise_cons] at hd
  rcases List.mem_append.mp hc with hc | hc
  · exact Or.inr (Or.inr (hd.2.2 c hc b List.mem_cons_self))
  · rcases List.mem_cons.mp hc with rfl | hc
    · exact Or.inl rfl
    · exact Or.inr (Or.inl (hd.2.1.1 c hc))

/-- No payload meets a header, and payloads of different blocks are disjoint. -/
theorem payload {x : ℕ} (h : Spaced A lo L hi) (hb : b ∈ L) (hx : b.InPayload A x) :
    ∀ c ∈ L, ¬ c.InHeader A x ∧ (c ≠ b → ¬ c.InPayload A x) := by
  intro c hc
  unfold Block.InPayload Block.payload at hx
  have hends := h.ends hb hc
  unfold Block.InHeader Block.InPayload Block.payload
  unfold Block.fin at hx hends ⊢
  rcases hends with rfl | hends
  · exact ⟨by omega, fun hne => absurd rfl hne⟩
  · exact ⟨by omega, fun _ => by omega⟩

/-- Blocks are told apart by their payloads. -/
theorem eq_of_payload (h : Spaced A lo L hi) (hb : b ∈ L) (hc : c ∈ L)
    (he : b.payload A = c.payload A) : b = c := by
  have hH := A.header_facts
  unfold Block.payload at he
  rcases h.ends hb hc with rfl | h | h
  · rfl
  · unfold Block.fin at h
    omega
  · unfold Block.fin at h
    omega

/-- The block around an address is unique. -/
theorem eq_of_inPayload {x : ℕ} (h : Spaced A lo L hi) (hb : b ∈ L) (hc : c ∈ L)
    (hxb : b.InPayload A x) (hxc : c.InPayload A x) : b = c := by
  by_contra hne
  exact (h.payload hc hxc b hb).2 hne hxb

theorem nodup (h : Spaced A lo L hi) : L.Nodup := by
  refine h.disjoint.imp fun {b c} hbc he => ?_
  have hH := A.header_facts
  rw [he] at hbc
  unfold Block.fin at hbc
  omega

/-- An address is in the payload of one block at one place of the list. -/
theorem split_unique {x : ℕ} {M₁ M₂ : List Block} (h : Spaced A lo (L₁ ++ b :: L₂) hi)
    (he : L₁ ++ b :: L₂ = M₁ ++ c :: M₂) (hxb : b.InPayload A x) (hxc : c.InPayload A x) :
    L₁ = M₁ ∧ b = c ∧ L₂ = M₂ := by
  have hn := h.nodup
  obtain rfl : b = c := h.eq_of_inPayload (by simp) (by rw [he]; simp) hxb hxc
  rw [List.nodup_append, List.nodup_cons] at hn
  exact (List.append_cons_inj_of_notMem (fun hmem => hn.2.2 b hmem b List.mem_cons_self rfl) hn.2.1.1).mp he

/-- Changing a flag keeps the places. -/
theorem setFree (f : Bool) (h : Spaced A lo (L₁ ++ b :: L₂) hi) :
    Spaced A lo (L₁ ++ { b with free := f } :: L₂) hi := by
  obtain ⟨mid, h1, h2⟩ := h.split
  exact h1.append h2

/-- The last block, grown into room above the list. -/
theorem setLast {g : ℕ} (h : Spaced A lo (L ++ [b]) hi) (hg : g % 16 = 0) :
    Spaced A lo (L ++ [{ b with cap := b.cap + g }]) (hi + g) := by
  obtain ⟨mid, h1, ⟨hb, h16, hcap, hmin⟩, hhi⟩ := h.split
  refine h1.append ⟨⟨hb, h16, ?_, ?_⟩, ?_⟩
  · show (b.cap + g) % 16 = 0
    omega
  · show 16 ≤ b.cap + g
    omega
  · show b.addr + A.headerSize + (b.cap + g) ≤ hi + g
    have hfin : b.addr + A.headerSize + b.cap ≤ hi := hhi
    omega

/-- A block that swallows the next one ends where that one did, or below. -/
theorem join (h : Spaced A lo (b :: c :: L) hi) : Spaced A lo (b.join A c :: L) hi := by
  obtain ⟨⟨hb, hlo, hcap, h16⟩, ⟨hc, _, hcap', _⟩, hL⟩ := h
  have hH := A.header_facts
  have hfin : (b.join A c).fin A ≤ c.fin A := by
    unfold Block.fin at hc ⊢
    simp only [Block.join]
    omega
  refine ⟨⟨hb, hlo, ?_, ?_⟩, hL.weaken hfin le_rfl⟩
  · show (b.cap + (A.headerSize + c.cap)) % 16 = 0
    omega
  · show 16 ≤ b.cap + (A.headerSize + c.cap)
    omega

/-- Merging keeps a list spaced. -/
theorem merged (h : Spaced A lo L hi) : Spaced A lo (merged A L) hi := by
  induction L generalizing lo with
  | nil => exact h
  | cons b L ih =>
    have hb : Spaced A lo (b :: Malloc.merged A L) hi := ⟨h.1, ih h.2⟩
    exact push_keeps (P := fun M => Spaced A lo M hi) (fun _ _ _ _ hj => join hj) hb

end Spaced

/-! ### Tilings -/

/-- The blocks cover `lo` to `hi` without gaps, 16-byte aligned. -/
def Tiles (A : Abi) : ℕ → List Block → ℕ → Prop
  | lo, [], hi => lo = hi
  | lo, b :: L, hi =>
    (b.addr = lo ∧ lo % 16 = 0 ∧ b.cap % 16 = 0 ∧ 16 ≤ b.cap) ∧ Tiles A (b.fin A) L hi

theorem Tiles.spaced {lo hi : ℕ} {L : List Block} (h : Tiles A lo L hi) : Spaced A lo L hi := by
  induction L generalizing lo with
  | nil =>
    have hlh : lo = hi := h
    exact hlh.le
  | cons b L ih =>
    obtain ⟨⟨hb, h16, hcap, hmin⟩, hL⟩ := h
    exact ⟨⟨hb.ge, hb ▸ h16, hcap, hmin⟩, ih hL⟩

theorem Tiles.append {lo mid hi : ℕ} {L M : List Block} (h : Tiles A lo L mid) (h' : Tiles A mid M hi) :
    Tiles A lo (L ++ M) hi := by
  induction L generalizing lo with
  | nil =>
    have hlm : lo = mid := h
    rw [hlm]
    exact h'
  | cons b L ih => exact ⟨h.1, ih h.2⟩

theorem Tiles.split {lo hi : ℕ} {L M : List Block} (h : Tiles A lo (L ++ M) hi) :
    ∃ mid, Tiles A lo L mid ∧ Tiles A mid M hi := by
  induction L generalizing lo with
  | nil => exact ⟨lo, rfl, h⟩
  | cons b L ih =>
    obtain ⟨mid, h1, h2⟩ := ih h.2
    exact ⟨mid, ⟨h.1, h1⟩, h2⟩

theorem Tiles.mid {lo hi : ℕ} {L M : List Block} {b : Block} (h : Tiles A lo (L ++ b :: M) hi) :
    Tiles A lo L b.addr ∧ Tiles A (b.fin A) M hi ∧ b.addr % 16 = 0 ∧ b.cap % 16 = 0 ∧ 16 ≤ b.cap := by
  obtain ⟨mid, h1, ⟨hb, h16, hc16, hcap⟩, h2⟩ := h.split
  rw [← hb] at h1 h16
  exact ⟨h1, h2, h16, hc16, hcap⟩

theorem Tiles.bounds {lo hi : ℕ} {L : List Block} (h : Tiles A lo L hi) {b : Block} (hb : b ∈ L) :
    lo ≤ b.addr ∧ b.fin A ≤ hi ∧ b.addr % 16 = 0 ∧ b.cap % 16 = 0 ∧ 16 ≤ b.cap := h.spaced.bounds hb

theorem Tiles.disjoint {lo hi : ℕ} {L : List Block} (h : Tiles A lo L hi) :
    L.Pairwise fun b c => b.fin A ≤ c.addr := h.spaced.disjoint

theorem Tiles.payload {lo hi x : ℕ} {L : List Block} (h : Tiles A lo L hi) {b : Block} (hb : b ∈ L)
    (hx : b.InPayload A x) : ∀ c ∈ L, ¬ c.InHeader A x ∧ (c ≠ b → ¬ c.InPayload A x) :=
  h.spaced.payload hb hx

/-- A block that swallows the next one takes its place. -/
theorem Tiles.join {lo hi : ℕ} {b c : Block} {L : List Block} (h : Tiles A lo (b :: c :: L) hi) :
    Tiles A lo (b.join A c :: L) hi := by
  obtain ⟨⟨hb, hlo, hcap, h16⟩, ⟨hc, _, hcap', _⟩, hL⟩ := h
  have hH := A.header_facts
  have hfin : (b.join A c).fin A = c.fin A := by
    unfold Block.fin at hc ⊢
    simp only [Block.join]
    omega
  refine ⟨⟨hb, hlo, ?_, ?_⟩, hfin ▸ hL⟩
  · show (b.cap + (A.headerSize + c.cap)) % 16 = 0
    omega
  · show 16 ≤ b.cap + (A.headerSize + c.cap)
    omega

/-- Merging keeps a tiling. -/
theorem Tiles.merged {lo hi : ℕ} {L : List Block} (h : Tiles A lo L hi) : Tiles A lo (merged A L) hi := by
  induction L generalizing lo with
  | nil => exact h
  | cons b L ih =>
    have hb : Tiles A lo (b :: Malloc.merged A L) hi := ⟨h.1, ih h.2⟩
    exact push_keeps (P := fun M => Tiles A lo M hi) (fun _ _ _ _ hj => Tiles.join hj) hb

/-- Changing flags keeps a tiling. -/
theorem Tiles.setFree {lo hi : ℕ} {L₁ L₂ : List Block} {b : Block} (f : Bool)
    (h : Tiles A lo (L₁ ++ b :: L₂) hi) : Tiles A lo (L₁ ++ { b with free := f } :: L₂) hi := by
  obtain ⟨mid, h1, h2⟩ := h.split
  exact h1.append h2

theorem Tiles.setLast {lo hi g : ℕ} {L : List Block} {b : Block} (h : Tiles A lo (L ++ [b]) hi)
    (hg : g % 16 = 0) : Tiles A lo (L ++ [{ b with cap := b.cap + g }]) (hi + g) := by
  obtain ⟨mid, h1, ⟨hb, h16, hcap, hmin⟩, hhi⟩ := h.split
  refine h1.append ⟨⟨hb, h16, ?_, ?_⟩, ?_⟩
  · show (b.cap + g) % 16 = 0
    omega
  · show 16 ≤ b.cap + g
    omega
  · show b.addr + A.headerSize + (b.cap + g) = hi + g
    have hfin : b.addr + A.headerSize + b.cap = hi := hhi
    omega

end Csc453.Malloc
