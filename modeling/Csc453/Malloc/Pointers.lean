import Csc453.Malloc.Runs

/-!
# Csc453.Malloc.Pointers — what realloc returns, for live and for stale pointers

`realloc_keeps_data`: a block in use keeps its bytes, wherever `realloc` puts it.  `returned_used`:
the block returned by a request is in use, except when `realloc` is given a pointer into a free block
that it resizes in place.
-/

namespace Csc453.Malloc

open Bytes Coalesce Transition

variable {A : Abi}

/-! ### The data -/

/-- A free block of a tiling lies inside a free block of the merged list. -/
theorem Tiles.covered_merged {lo hi : ℕ} {M : List Block} (h : Tiles A lo M hi) {f : Block} (hf : f ∈ M)
    (hff : f.free) : ∃ d ∈ Malloc.merged A M, d.free ∧ d.addr ≤ f.addr ∧ f.fin A ≤ d.fin A := by
  induction M generalizing lo with
  | nil => exact absurd hf (by simp)
  | cons a M ih =>
    have hN := h.2.merged
    have ih := fun hfM => ih h.2 hfM
    show ∃ d ∈ push Block.free (Block.join A) a (Malloc.merged A M), _
    rcases hM : Malloc.merged A M with _ | ⟨c, N⟩
    · rw [hM] at ih
      rcases List.mem_cons.mp hf with rfl | hf
      · exact ⟨f, List.mem_cons_self, hff, le_rfl, le_rfl⟩
      · obtain ⟨d, hd, _⟩ := ih hf
        exact absurd hd (by simp)
    · rw [hM] at ih hN
      have hca : c.addr = a.addr + A.headerSize + a.cap := hN.1.1
      by_cases hac : a.free ∧ c.free
      · rw [push_cons hac.1 hac.2]
        have hfin : (a.join A c).fin A = c.fin A := by
          unfold Block.fin Block.join
          dsimp only
          omega
        rcases List.mem_cons.mp hf with rfl | hf
        · refine ⟨_, List.mem_cons_self, hff, le_rfl, ?_⟩
          rw [hfin]
          unfold Block.fin
          omega
        · obtain ⟨d, hd, hdf, hda, hdfin⟩ := ih hf
          rcases List.mem_cons.mp hd with rfl | hd
          · refine ⟨_, List.mem_cons_self, hac.1, ?_, hfin ▸ hdfin⟩
            show a.addr ≤ f.addr
            omega
          · exact ⟨d, List.mem_cons_of_mem _ hd, hdf, hda, hdfin⟩
      · rw [push, if_neg hac]
        rcases List.mem_cons.mp hf with rfl | hf
        · exact ⟨f, List.mem_cons_self, hff, le_rfl, le_rfl⟩
        · obtain ⟨d, hd, hdr⟩ := ih hf
          exact ⟨d, List.mem_cons_of_mem _ hd, hdr⟩

/-- `realloc` of the used block `b` of `L` to `n` bytes returned `q`. -/
structure DataKept (A : Abi) (n : ℕ) (h h' : Heap) (L L' : List Block) (b : Block) (q : ℕ) : Prop where
  after : Chain A h'.mem h'.heapHead L'
  given : ∃ u ∈ L', ¬ u.free ∧ q = u.payload A ∧ n ≤ u.cap
  data : ∀ i < min b.cap n, h'.mem (q + i) = h.mem (b.payload A + i)
  others : ∀ c ∈ L, ¬ c.free → c ≠ b → c ∈ L' ∧ ∀ x, c.InPayload A x → h'.mem x = h.mem x
  released : q ≠ b.payload A → ∃ f ∈ L', f.free ∧ f.addr ≤ b.addr ∧ b.fin A ≤ f.fin A

/-- In place the bytes are not touched. -/
theorem Rewritten.data {h h' : Heap} {L M : List Block} {b c : Block} {n i : ℕ}
    (hr : Rewritten A h h' (L ++ (splitList A c (A.roundUp16 n) ++ M))) (ha : c.addr = b.addr)
    (hn : n ≤ A.roundUp16 n) (hc : A.roundUp16 n ≤ c.cap) (hi : i < n) :
    h'.mem (b.payload A + i) = h.mem (b.payload A + i) := by
  obtain ⟨u, hu, hua, _, hur⟩ := mem_splitList A c (A.roundUp16 n)
  refine hr.payload_same (b := u) (List.mem_append_right _ (List.mem_append_left _ hu)) ?_
  have := hur hc
  unfold Block.InPayload Block.fin Block.payload
  omega

/-- A move copies the whole old payload, and its block is free afterwards. -/
theorem MallocOutcome.moved_data {ptr n p : ℕ} {h h₁ h' : Heap} {T : Layout A} {b : Block}
    (hh : Holds h T) (hb : b ∈ T.blocks) (hbf : ¬ b.free) (hx : b.InPayload A ptr) (h0 : 0 < n)
    (hn : n + 15 < A.space) (hcap : b.cap < A.roundUp16 n) (hp : p ≠ 0)
    (ho : MallocOutcome A n h T.blocks p h₁)
    (hfr : free A ptr { h₁ with mem := copy h₁.mem p (b.payload A) b.cap } = some h') :
    (∀ i < b.cap, h'.mem (p + i) = h.mem (b.payload A + i)) ∧
      ∃ L', Chain A h'.mem h'.heapHead L' ∧ ∃ f ∈ L', f.free ∧ f.addr ≤ b.addr ∧ b.fin A ≤ f.fin A := by
  obtain ⟨T₁, hs, hs₂⟩ := ho.copied hh hb h0 hn hcap hp
  obtain ⟨hb₁, hsame⟩ := hs.kept b hb hbf (not_inPayload_zero b)
  obtain ⟨u, hu, _, hpu, hnr, hru⟩ := hs.given hp
  have hub : u ≠ b := fun he => hs.fresh b hb hbf (not_inPayload_zero b) (by rw [hpu, he])
  rcases free_spec ptr hs₂.holds with ⟨hall, _⟩ | ⟨K₁, d, K₂, m', hK, _, hxd, hfr', hre⟩
  · exact absurd (hall b hb₁ hx) hbf
  obtain rfl := Option.some.inj (hfr.symm.trans hfr')
  obtain rfl : d = b := T₁.tiles.spaced.eq_of_inPayload (by rw [hK]; simp) hb₁ hxd hx
  refine ⟨fun i hi => ?_, _, hre.chain, hre.tiles.covered_merged (f := { d with free := true }) (by simp) rfl⟩
  have huM : u ∈ K₁ ++ { d with free := true } :: K₂ := by
    rw [hK] at hu
    exact mem_splice hu hub [{ d with free := true }]
  have hxu : u.InPayload A (p + i) := by
    unfold Block.InPayload Block.fin
    unfold Block.payload at hpu ⊢
    omega
  have hxd' : d.InPayload A (d.payload A + i) := by
    unfold Block.InPayload Block.fin Block.payload
    omega
  rw [hre.payload_same huM hxu, ← hsame _ hxd']
  show copy h₁.mem p (d.payload A) d.cap (p + i) = _
  rw [copy_inside (by omega) (by omega), Nat.add_sub_cancel_left]

theorem ReallocOutcome.dataKept {g : Grants} {ptr n q : ℕ} {h h' : Heap} {T : Layout A}
    {L₁ L₂ : List Block} {b : Block} (hh : Holds h T) (hL : T.blocks = L₁ ++ b :: L₂) (hbf : ¬ b.free)
    (hx : b.InPayload A ptr) (h0 : 0 < n) (hn : n + 15 < A.space) (hq : q ≠ 0)
    (ho : ReallocOutcome A g ptr n h L₁ b L₂ q h') : ∃ L', DataKept A n h h' T.blocks L' b q := by
  have hb : b ∈ T.blocks := by rw [hL]; simp
  obtain ⟨_, _, hnr, _⟩ := roundUp16_facts h0 hn
  obtain ⟨T', _, hserved⟩ := ho.realloced hh hL hx h0 hn
  have hs := hserved fun c hc hxc => by rw [T.tiles.spaced.eq_of_inPayload hc hb hxc hx]; exact hbf
  obtain ⟨u, hu, huf, hqu, hun, hur⟩ := hs.given hq
  have hothers : ∀ c ∈ T.blocks, ¬ c.free → c ≠ b →
      c ∈ T'.blocks ∧ ∀ x, c.InPayload A x → h'.mem x = h.mem x := fun c hc hcf hne =>
    hs.kept c hc hcf fun hxc => hne (T.tiles.spaced.eq_of_inPayload hc hb hxc hx)
  have hinPlace : (∀ i < n, h'.mem (b.payload A + i) = h.mem (b.payload A + i)) → q = b.payload A →
      ∃ L', DataKept A n h h' T.blocks L' b q := by
    rintro hdata rfl
    exact ⟨T'.blocks, hs.holds.chain, ⟨u, hu, huf, hqu, by omega⟩,
      fun i hi => hdata i (lt_min_iff.mp hi).2, hothers, fun h => absurd rfl h⟩
  cases ho with
  | same => exact hinPlace (fun _ _ => rfl) rfl
  | shrunk hlt hre => exact hinPlace (fun i hi => hre.data rfl hnr hlt.le hi) rfl
  | grown _ _ _ _ _ hre => exact hinPlace (fun i hi => hre.data rfl hnr (grownBlock_cap b n) hi) rfl
  | growRefused => exact absurd rfl hq
  | absorbed _ _ _ hroom hre => exact hinPlace (fun i hi => hre.data rfl hnr hroom hi) rfl
  | moveRefused => exact absurd rfl hq
  | moved _ hcap _ _ hp ho hfr =>
    rw [← hL] at ho
    obtain ⟨hdata, L', hL', hcover⟩ := ho.moved_data hh hb hbf hx h0 hn hcap hp hfr
    obtain rfl := Chain.unique hL' hs.holds.chain
    exact ⟨T'.blocks, hL', ⟨u, hu, huf, hqu, by omega⟩, fun i hi => hdata i (lt_min_iff.mp hi).1, hothers,
      fun _ => hcover⟩

/-- **realloc keeps the data.** -/
theorem realloc_keeps_data {hist : List (Event Heap Label)} {h h' : Heap} (hr : Run (allocator A) hist h)
    (hs : ∀ e ∈ hist, SizesOk A e.label) (hq : ∀ e ∈ hist, Queried A e.pre e.label) {g : Grants} {p q n : ℕ}
    (hg : g.query = true) (h0 : 0 < n) (hn : Call.SizeOk A (.realloc p n)) {L : List Block}
    (hL : Chain A h.mem h.heapHead L) {b : Block} (hb : b ∈ L) (hbf : ¬ b.free) (hx : b.InPayload A p)
    (hre : realloc A g p n h = some (q, h')) (hq0 : q ≠ 0) : ∃ L', DataKept A n h h' L L' b q := by
  obtain ⟨T, hT⟩ := run_holds_of_sizes hr hs hq
  obtain rfl := Chain.unique hL hT.chain
  obtain ⟨L₁, L₂, hsplit⟩ := List.append_of_mem hb
  have hc := hT.carries
  rw [hsplit] at hc
  obtain ⟨q', h'', hre', ho⟩ := realloc_outcome (Or.inr hg) hc hx h0 ((ReallocOk.of_size hn).block hx)
  obtain ⟨rfl, rfl⟩ := Prod.mk.inj (Option.some.inj (hre.symm.trans hre'))
  exact ho.dataKept hT hsplit hbf hx h0 hn.lt_space hq0

/-- The first block, with the byte written into it, moves behind all the others. -/
theorem realloc_keeps_data_busy : ∃ hist h h' L', Busy hist h ∧ h.mem 4128 = 7 ∧
    realloc abi64 allGranted 4128 1000 h = some (4848, h') ∧
    DataKept abi64 1000 h h' busyBlocks L' ⟨4096, 112, false⟩ 4848 := by
  obtain ⟨hist, h, hb, hbyte, hx⟩ := exists_busy
    (fun h => h.mem 4128 = 7 ∧ (realloc abi64 allGranted 4128 1000 h).map Prod.fst = some 4848)
    (by decide +kernel)
  obtain ⟨⟨_, h'⟩, hre, rfl⟩ := Option.map_eq_some_iff.mp hx
  have hn : Call.SizeOk abi64 (.realloc 4128 1000) := by decide +kernel
  have hin : Block.InPayload abi64 ⟨4096, 112, false⟩ 4128 := by decide +kernel
  obtain ⟨L', hk⟩ := realloc_keeps_data hb.run hb.sizes hb.queried (g := allGranted) rfl (by decide) hn
    hb.chain (by decide) (by decide) hin hre (by decide)
  exact ⟨hist, h, h', L', hb, hbyte, hre, hk⟩

/-! ### Stale pointers -/

/-- The block whose payload starts at `p` is in use. -/
def ReturnsUsed (A : Abi) (h : Heap) (p : ℕ) : Prop :=
  ∃ L, Chain A h.mem h.heapHead L ∧ ∃ u ∈ L, p = u.payload A ∧ ¬ u.free

/-- `realloc` of a pointer into a free block that has the room already, or is the last one. -/
def ResizesFree (A : Abi) (h : Heap) : Call → Prop
  | .realloc p n => ∃ L₁ b L₂, Chain A h.mem h.heapHead (L₁ ++ b :: L₂) ∧ b.InPayload A p ∧ b.free ∧
      (A.roundUp16 n ≤ b.cap ∨ L₂ = [])
  | _ => False

/-- A free block resized in place is returned free. -/
theorem Rewritten.not_returnsUsed {h h' : Heap} {L M : List Block} {b c : Block} {r : ℕ}
    (hr : Rewritten A h h' (L ++ (splitList A c r ++ M))) (ha : c.addr = b.addr) (hf : c.free) :
    ¬ ReturnsUsed A h' (b.payload A) := by
  rintro ⟨K, hK, u, hu, hpu, huf⟩
  obtain rfl := Chain.unique hK hr.chain
  rw [mem_merged_of_used huf] at hu
  obtain ⟨v, hv, hva, hvf, _⟩ := mem_splitList A c r
  have hvM : v ∈ L ++ (splitList A c r ++ M) := List.mem_append_right _ (List.mem_append_left _ hv)
  refine huf ?_
  rw [hr.spaced.eq_of_payload hu hvM (hpu.symm.trans (payload_congr (hva.trans ha).symm)), hvf]
  exact hf

theorem ReallocOutcome.returns_free {g : Grants} {ptr n p : ℕ} {h h' : Heap} {L₁ L₂ : List Block}
    {b : Block} (hc : Carries A h (L₁ ++ b :: L₂)) (hbf : b.free) (hp : p ≠ 0)
    (hin : A.roundUp16 n ≤ b.cap ∨ L₂ = []) (ho : ReallocOutcome A g ptr n h L₁ b L₂ p h') :
    ¬ ReturnsUsed A h' p := by
  cases ho with
  | same =>
    rintro ⟨K, hK, u, hu, hpu, huf⟩
    obtain rfl := Chain.unique hK hc.chain
    refine huf ?_
    rw [hc.spaced.eq_of_payload hu (c := b) (by simp) hpu.symm]
    exact hbf
  | shrunk _ hre => exact hre.not_returnsUsed rfl hbf
  | grown _ _ _ _ _ hre => exact hre.not_returnsUsed rfl hbf
  | growRefused => exact absurd rfl hp
  | absorbed hL hcap | moveRefused hL hcap | moved hL hcap =>
    rcases hin with hin | hin
    · omega
    · exact absurd (hL.symm.trans hin) (by simp)

/-- A move returns a block in use, whatever the pointer. -/
theorem MallocOutcome.moved_returnsUsed {ptr n p : ℕ} {h h₁ h' : Heap} {T : Layout A} {b : Block}
    (hh : Holds h T) (hb : b ∈ T.blocks) (hx : b.InPayload A ptr) (h0 : 0 < n)
    (hn : n + 15 < A.space) (hcap : b.cap < A.roundUp16 n) (hp : p ≠ 0)
    (ho : MallocOutcome A n h T.blocks p h₁)
    (hfr : free A ptr { h₁ with mem := copy h₁.mem p (b.payload A) b.cap } = some h') :
    ReturnsUsed A h' p := by
  obtain ⟨T₁, hs, hs₂⟩ := ho.copied hh hb h0 hn hcap hp
  obtain ⟨L', hd⟩ := ho.handed hh.carries
  obtain rfl := Chain.unique hd.carries.chain hs.holds.chain
  obtain ⟨u, hu, huf, hpu, _, haway⟩ := hd.given hp
  have hux : ¬ u.InPayload A ptr := (haway b hb fun hfit => by have := hfit.2; omega).2 ptr hx
  obtain ⟨h₃, T₃, hfr₃, hh₃, _, hk₃⟩ := free_kept ptr hs₂.holds
  obtain rfl := Option.some.inj (hfr.symm.trans hfr₃)
  exact ⟨T₃.blocks, hh₃.chain, u, (hk₃ u hu huf hux).1, hpu, huf⟩

theorem ReallocOutcome.returnsUsed_iff {g : Grants} {ptr n p : ℕ} {h h' : Heap} {T : Layout A}
    {L₁ L₂ : List Block} {b : Block} (hh : Holds h T) (hL : T.blocks = L₁ ++ b :: L₂)
    (hx : b.InPayload A ptr) (h0 : 0 < n) (hn : n + 15 < A.space) (hp : p ≠ 0)
    (ho : ReallocOutcome A g ptr n h L₁ b L₂ p h') :
    ReturnsUsed A h' p ↔ ¬ (b.free ∧ (A.roundUp16 n ≤ b.cap ∨ L₂ = [])) := by
  have hb : b ∈ T.blocks := by rw [hL]; simp
  have hc := hh.carries
  rw [hL] at hc
  refine ⟨fun hu hstale => ho.returns_free hc hstale.1 hp hstale.2 hu, fun hnot => ?_⟩
  by_cases hbf : b.free
  · -- neither in place nor next to a free block: the request has been moved
    cases ho with
    | same heq => exact absurd ⟨hbf, Or.inl heq.ge⟩ hnot
    | shrunk hlt => exact absurd ⟨hbf, Or.inl hlt.le⟩ hnot
    | grown hnil => exact absurd ⟨hbf, Or.inr hnil⟩ hnot
    | growRefused => exact absurd rfl hp
    | absorbed hL₂ _ hcf =>
      subst hL₂
      exact absurd ⟨hbf, hcf⟩ (List.isChain_cons_cons.mp hc.separated.parts.2.1).1
    | moveRefused => exact absurd rfl hp
    | moved _ hcap _ _ _ ho hfr =>
      rw [← hL] at ho
      exact ho.moved_returnsUsed hh hb hx h0 hn hcap hp hfr
  · obtain ⟨T', _, hserved⟩ := ho.realloced hh hL hx h0 hn
    have hs := hserved fun c hc hxc => by rw [T.tiles.spaced.eq_of_inPayload hc hb hxc hx]; exact hbf
    obtain ⟨u, hu, huf, hpu, _⟩ := hs.given hp
    exact ⟨T'.blocks, hs.holds.chain, u, hu, hpu, huf⟩

/-- **The block returned is in use**, exactly when the call does not resize a free block in place. -/
theorem returned_used {hist : List (Event Heap Label)} {h h' : Heap} (hr : Run (allocator A) hist h)
    (hs : ∀ e ∈ hist, SizesOk A e.label) (hq : ∀ e ∈ hist, Queried A e.pre e.label) {c : Call} {g : Grants}
    {p : ℕ} (hc : c.SizeOk A) (h0 : 0 < c.bytes) (hg : g.query = true)
    (hx : exec A g c h = some (p, h')) (hp : p ≠ 0) :
    ReturnsUsed A h' p ↔ ¬ ResizesFree A h c := by
  obtain ⟨T, hT⟩ := run_holds_of_sizes hr hs hq
  have hnull : c.arg = 0 → ReturnsUsed A h' p := by
    intro harg
    obtain ⟨p', h'', T', hx', hcall⟩ := exec_spec hg hT (hc.serviceable h g)
    obtain ⟨rfl, rfl⟩ := Prod.mk.inj (Option.some.inj (hx.symm.trans hx'))
    have hsv := hcall.served h0 fun b _ hbx => by
      rw [harg] at hbx
      exact absurd hbx (not_inPayload_zero b)
    obtain ⟨u, hu, huf, hpu, _⟩ := hsv.given hp
    exact ⟨T'.blocks, hcall.holds.chain, u, hu, hpu, huf⟩
  cases c with
  | malloc n => exact iff_of_true (hnull rfl) id
  | calloc k n => exact iff_of_true (hnull rfl) id
  | free ptr => exact absurd h0 (lt_irrefl 0)
  | realloc ptr n =>
    by_cases hin : ∃ b ∈ T.blocks, b.InPayload A ptr
    · obtain ⟨b, hb, hbx⟩ := hin
      obtain ⟨L₁, L₂, hL⟩ := List.append_of_mem hb
      have hcar := hT.carries
      rw [hL] at hcar
      obtain ⟨p', h'', hre, ho⟩ := realloc_outcome (Or.inr hg) hcar hbx h0 ((ReallocOk.of_size hc).block hbx)
      obtain ⟨rfl, rfl⟩ := Prod.mk.inj (Option.some.inj (hx.symm.trans hre))
      rw [ho.returnsUsed_iff hT hL hbx h0 hc.lt_space hp]
      refine not_congr ⟨fun hst => ⟨L₁, b, L₂, hcar.chain, hbx, hst⟩, ?_⟩
      rintro ⟨K₁, d, K₂, hK, hdx, hst⟩
      obtain ⟨rfl, rfl, rfl⟩ := hcar.spaced.split_unique (Chain.unique hcar.chain hK) hbx hdx
      exact hst
    · -- the pointer is outside: the call fails, or it is `malloc`
      by_cases hptr : ptr = 0
      · refine iff_of_true (hnull hptr) ?_
        rintro ⟨K₁, d, K₂, hK, hdx, _⟩
        exact hin ⟨d, by rw [Chain.unique hT.chain hK]; simp, hdx⟩
      · have hx' := realloc_outside (g := g) hT.carries hptr h0 fun b hb hbx => hin ⟨b, hb, hbx⟩
        have := (Prod.mk.inj (Option.some.inj (hx.symm.trans hx'))).1
        exact absurd this hp

/-- The pointer is stale, but its block is too small and the request moves. -/
theorem returned_used_busy : ∃ hist h h', Busy hist h ∧
    realloc abi64 allGranted 4272 300 h = some (4848, h') ∧
    (ReturnsUsed abi64 h' 4848 ↔ ¬ ResizesFree abi64 h (.realloc 4272 300)) := by
  obtain ⟨hist, h, hb, hx⟩ := exists_busy
    (fun h => (realloc abi64 allGranted 4272 300 h).map Prod.fst = some 4848) (by decide +kernel)
  obtain ⟨⟨_, h'⟩, hre, rfl⟩ := Option.map_eq_some_iff.mp hx
  have hn : Call.SizeOk abi64 (.realloc 4272 300) := by decide +kernel
  exact ⟨hist, h, h', hb, hre, returned_used hb.run hb.sizes hb.queried hn (show 0 < 300 by decide) rfl hre
    (by decide)⟩

/-- `p = malloc (1); free (p); realloc (p, 1)` returns `p`, still free. -/
theorem stale_realloc_free : ¬ ∀ (hist : List (Event Heap Label)) (h h' : Heap) (c : Call) (g : Grants)
    (p : ℕ), Run (allocator abi64) hist h → (∀ e ∈ hist, SizesOk abi64 e.label) →
    (∀ e ∈ hist, Queried abi64 e.pre e.label) → c.SizeOk abi64 → 0 < c.bytes → g.query = true →
    exec abi64 g c h = some (p, h') → p ≠ 0 → ReturnsUsed abi64 h' p := by
  intro hall
  obtain ⟨hist, h, hp, hx⟩ : ∃ hist h, play (fun _ => replay abi64)
      [.call (.malloc 1) allGranted 4128, .call (.free 4128) allGranted 0] [] freshHeap = some (hist, h) ∧
      ((exec abi64 allGranted (.realloc 4128 1) h).map fun r => (r.1, abi64.isFree r.2.mem 4096)) =
        some (4128, true) :=
    exists_play (fun _ (h : Heap) => ((exec abi64 allGranted (.realloc 4128 1) h).map
      fun r => (r.1, abi64.isFree r.2.mem 4096)) = some (4128, true)) (by decide +kernel)
  obtain ⟨⟨p, h'⟩, hx, hpair⟩ := Option.map_eq_some_iff.mp hx
  obtain ⟨rfl, hfree⟩ := Prod.mk.inj hpair
  obtain ⟨hr, ho⟩ := replay_run hp
  obtain ⟨L, hL, u, hu, hpu, huf⟩ := hall hist h h' (.realloc 4128 1) allGranted 4128 hr
    (fun e he => (ho e he).sizes) (fun e he => (ho e he).queried) (by decide +kernel)
    (show 0 < 1 by decide) rfl hx (by decide)
  have haddr := addr_of_first hpu
  have hhead := (hL.header_of_mem hu).free
  rw [haddr, hfree] at hhead
  exact huf hhead.symm

end Csc453.Malloc
