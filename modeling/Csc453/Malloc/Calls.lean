import Csc453.Malloc.Layout

/-!
# Csc453.Malloc.Calls — what a caller gets

`Answered`: after a request the heap carries a layout, the break has not gone down, and `NULL` means
that nothing changed.  `Served` adds what a caller who passes `NULL` or a pointer into a used block
may rely on: a non-`NULL` result is the payload of a used block with room for `n` bytes, and every
other used block stays, with its bytes.  `calloc_served` and `realloc_spec` go through `malloc`,
`splitblock` and `free` by their specifications.
-/

namespace Csc453.Malloc

open Bytes Coalesce

variable {A : Abi}

/-- The heap after a request that returned `p`. -/
structure Answered (h h' : Heap) (T T' : Layout A) (p : ℕ) : Prop where
  holds : Holds h' T'
  brk_le : h.brk ≤ h'.brk
  null : p = 0 → Refused h h' T ∧ T' = T

/-- Used blocks of `T` away from `arg` stay, with their bytes. -/
def Kept (h h' : Heap) (T T' : Layout A) (arg : ℕ) : Prop :=
  ∀ b ∈ T.blocks, ¬ b.free → ¬ b.InPayload A arg →
    b ∈ T'.blocks ∧ ∀ x, b.InPayload A x → h'.mem x = h.mem x

/-- A request for `n` bytes with pointer argument `arg` that returned `p`. -/
structure Served (h h' : Heap) (T T' : Layout A) (p arg n : ℕ) : Prop extends Answered h h' T T' p where
  given : p ≠ 0 → ∃ u ∈ T'.blocks, ¬ u.free ∧ p = u.payload A ∧ n ≤ A.roundUp16 n ∧ A.roundUp16 n ≤ u.cap
  sbrks : p ≠ 0 → SbrksUp h h'
  kept : Kept h h' T T' arg
  fresh : ∀ b ∈ T.blocks, ¬ b.free → ¬ b.InPayload A arg → p ≠ b.payload A

theorem Answered.unchanged {h : Heap} {T : Layout A} (hh : Holds h T) (p : ℕ) : Answered h h T T p :=
  ⟨hh, le_rfl, fun _ => ⟨⟨rfl, rfl, le_rfl, hh⟩, rfl⟩⟩

theorem Kept.refl (h : Heap) (T : Layout A) (arg : ℕ) : Kept h h T T arg :=
  fun _ hb _ _ => ⟨hb, fun _ _ => rfl⟩

theorem Refused.served {h h' : Heap} {T : Layout A} (hr : Refused h h' T) (arg n : ℕ) :
    Served h h' T T 0 arg n where
  holds := hr.holds
  brk_le := hr.brk_le
  null _ := ⟨hr, rfl⟩
  given h := absurd rfl h
  sbrks h := absurd rfl h
  kept _ hb _ _ := ⟨hb, fun _ _ => by rw [hr.mem]⟩
  fresh b _ _ _ := (payload_ne_zero b).symm

theorem Reshaped.answered {h h' : Heap} {T : Layout A} {M : List Block} {lo p : ℕ}
    (hr : Reshaped A h h' M lo) (hle : h.brk ≤ h'.brk) (hp : p ≠ 0) :
    Answered h h' T (Layout.ofTiles hr.tiles) p :=
  ⟨hr.holds, hle, fun h => absurd h hp⟩

theorem Reshaped.kept {h h' : Heap} {T : Layout A} {M : List Block} {lo arg : ℕ}
    (hr : Reshaped A h h' M lo)
    (hM : ∀ b ∈ T.blocks, ¬ b.free → ¬ b.InPayload A arg → b ∈ M) :
    Kept h h' T (Layout.ofTiles hr.tiles) arg := fun b hb hf hx =>
  ⟨(mem_merged_of_used hf).mpr (hM b hb hf hx), fun _ => hr.payload_same (hM b hb hf hx)⟩

/-- A reshaped heap serves the used block `u` of its list. -/
theorem Reshaped.served {h h' : Heap} {T : Layout A} {M : List Block} {lo arg n : ℕ} {u : Block}
    (hr : Reshaped A h h' M lo) (hle : h.brk ≤ h'.brk) (hsb : SbrksUp h h') (hu : u ∈ M) (huf : ¬ u.free)
    (hn : n ≤ A.roundUp16 n) (hcap : A.roundUp16 n ≤ u.cap)
    (hM : ∀ b ∈ T.blocks, ¬ b.free → ¬ b.InPayload A arg → b ∈ M ∧ b.addr ≠ u.addr) :
    Served h h' T (Layout.ofTiles hr.tiles) (u.payload A) arg n where
  toAnswered := hr.answered hle (payload_ne_zero u)
  given _ := ⟨u, (mem_merged_of_used huf).mpr hu, huf, rfl, hn, hcap⟩
  sbrks _ := hsb
  kept := hr.kept fun b hb hf hx => (hM b hb hf hx).1
  fresh b hb hf hx := by
    have := (hM b hb hf hx).2
    unfold Block.payload
    omega

/-! ### malloc -/

theorem MallocOutcome.answered {n p : ℕ} {h h' : Heap} {T : Layout A} (hh : Holds h T) (h0 : 0 < n)
    (ho : MallocOutcome A n h T.blocks p h') :
    ∃ T', Answered h h' T T' p ∧ (p ≠ 0 → SbrksUp h h') := by
  cases ho with
  | refused _ hu => exact ⟨T, ((hu.refused hh).served 0 0).toAnswered, fun h => absurd rfl h⟩
  | @reused L₁ L₂ f m' hn hL _ _ hre =>
    obtain ⟨hr16, hr, _, _⟩ := roundUp16_facts h0 hn
    have ht := hh.tiles (by rw [hL]; simp)
    rw [hL] at ht
    have hre' := hre.reshaped ((ht.setFree false).splitAt hr16 hr)
    exact ⟨_, hre'.answered le_rfl (payload_ne_zero _), fun _ => .of_eq rfl⟩
  | grown hn _ hbrk hsb hs hre =>
    obtain ⟨hr16, hr, _, _⟩ := roundUp16_facts h0 hn
    obtain ⟨lo, ht⟩ := hh.append_newBlock hs hbrk
    have hre' := hre.reshaped ((ht.setFree false).splitAt hr16 hr)
    exact ⟨_, hre'.answered (by omega) (payload_ne_zero _), fun _ => ⟨[_, _, _], hsb, by simp⟩⟩

theorem MallocOutcome.served {n p : ℕ} {h h' : Heap} {T : Layout A} (hh : Holds h T) (h0 : 0 < n)
    (ho : MallocOutcome A n h T.blocks p h') : ∃ T', Served h h' T T' p 0 n := by
  obtain ⟨L', hd⟩ := ho.handed hh.carries
  obtain ⟨T', ha, hsb⟩ := ho.answered hh h0
  obtain rfl := Chain.unique hd.carries.chain ha.holds.chain
  refine ⟨T', ha, fun hp => ?_, hsb, fun b hb hbf _ => hd.kept b hb hbf, fun b hb hbf _ he => ?_⟩
  · obtain ⟨u, hu, huf, hpu, hcap, _⟩ := hd.given hp
    exact ⟨u, hu, huf, hpu, hcap⟩
  · obtain ⟨u, _, _, hpu, _, hne⟩ := hd.given (by rw [he]; exact payload_ne_zero b)
    have haddr := (hne b hb fun hfit => hbf hfit.1).1
    unfold Block.payload at hpu he
    omega

theorem malloc_served {g : Grants} {n : ℕ} {h : Heap} {T : Layout A} (hq : g.query = true)
    (hh : Holds h T) (hok : 0 < n → MallocOk A g n T.blocks h.brk) :
    ∃ p h' T', malloc A g n h = some (p, h') ∧ Served h h' T T' p 0 n := by
  rcases Nat.eq_zero_or_pos n with rfl | h0
  · exact ⟨0, h, T, if_pos rfl, Refused.served ⟨rfl, rfl, le_rfl, hh⟩ 0 0⟩
  · obtain ⟨p, h', hm, ho⟩ := malloc_outcome (Or.inr hq) hh.carries h0 (hok h0)
    obtain ⟨T', hs⟩ := ho.served hh h0
    exact ⟨p, h', T', hm, hs⟩

/-! ### Writes into the new payload -/

/-- Writing into the returned payload keeps the layout and everybody's bytes. -/
theorem Served.write {h h' : Heap} {T T' : Layout A} {p arg n : ℕ} {m : Mem}
    (hs : Served h h' T T' p arg n) (hp : p ≠ 0) (hm : ∀ x, x < p ∨ p + n ≤ x → m x = h'.mem x) :
    Served h { h' with mem := m } T T' p arg n := by
  obtain ⟨u, hu, huf, hpu, hn, hcap⟩ := hs.given hp
  have hout : ∀ b ∈ T'.blocks, ∀ x, (b.InHeader A x ∨ b ≠ u ∧ b.InPayload A x) → m x = h'.mem x := by
    intro b hb x hx
    refine hm x ?_
    by_contra hin
    have hxu : u.InPayload A x := by
      unfold Block.InPayload Block.fin
      unfold Block.payload at hpu ⊢
      omega
    have := T'.tiles.payload hu hxu b hb
    rcases hx with hx | ⟨hne, hx⟩
    · exact this.1 hx
    · exact this.2 hne hx
  refine ⟨⟨⟨?_, hs.holds.top_le, hs.holds.top, hs.holds.brk_pos, hs.holds.brk_lt⟩, hs.brk_le,
    fun h => absurd h hp⟩, hs.given, hs.sbrks, fun b hb hf hx => ?_, hs.fresh⟩
  · exact hs.holds.chain.congr fun b hb x h1 h2 => hout b hb x (Or.inl ⟨h1, h2⟩)
  · obtain ⟨hb', hsame⟩ := hs.kept b hb hf hx
    refine ⟨hb', fun x hxb => (hout b hb' x (Or.inr ⟨?_, hxb⟩)).trans (hsame x hxb)⟩
    rintro rfl
    exact hs.fresh b hb hf hx hpu

/-! ### calloc -/

/-- With a product that wraps, `calloc` refuses. -/
theorem calloc_wrapped (g : Grants) {k n : ℕ} (h : Heap) (hn : A.space ≤ k * n) :
    calloc A g k n h = some (0, { h with errno := ENOMEM }) := by
  have hS := A.space_facts
  have hover : n ≠ 0 ∧ A.sizeMax / n < k := by
    have hn0 : n ≠ 0 := by
      rintro rfl
      omega
    refine ⟨hn0, (Nat.div_lt_iff_lt_mul (Nat.pos_of_ne_zero hn0)).mpr ?_⟩
    unfold Abi.sizeMax
    omega
  unfold calloc
  rw [if_pos hover]

/-- Otherwise it is `malloc` with the payload cleared. -/
theorem calloc_eq (g : Grants) {k n : ℕ} (h : Heap) (hn : k * n < A.space) :
    calloc A g k n h = match malloc A g (k * n) h with
      | none => none
      | some (p, h') =>
        if p = 0 then some (0, h') else some (p, { h' with mem := fill h'.mem p (k * n) 0 }) := by
  have hover : ¬ (n ≠ 0 ∧ A.sizeMax / n < k) := by
    rintro ⟨h0, hlt⟩
    have := (Nat.div_lt_iff_lt_mul (Nat.pos_of_ne_zero h0)).mp hlt
    unfold Abi.sizeMax at this
    omega
  have htotal : A.mul k n = k * n := Nat.mod_eq_of_lt hn
  unfold calloc
  rw [if_neg hover]
  rcases hm : malloc A g (k * n) h with _ | ⟨p, h'⟩
  · simp only [htotal, hm]
  · simp only [htotal, hm]

/-- **calloc**: a refused product, or `malloc` with the payload cleared. -/
theorem calloc_served {g : Grants} {k n : ℕ} {h : Heap} {T : Layout A} (hq : g.query = true)
    (hh : Holds h T)
    (hok : k * n < A.space → 0 < k * n → MallocOk A g (k * n) T.blocks h.brk) :
    ∃ p h' T', calloc A g k n h = some (p, h') ∧ Served h h' T T' p 0 (k * n) ∧
      (p ≠ 0 → ∀ x, p ≤ x → x < p + k * n → h'.mem x = 0) := by
  by_cases hprod : k * n < A.space
  · rw [calloc_eq g h hprod]
    obtain ⟨p, h', T', hm, hs⟩ := malloc_served hq hh (hok hprod)
    rw [hm]
    dsimp only
    by_cases hp : p = 0
    · rw [if_pos hp]
      subst hp
      exact ⟨0, h', T', rfl, hs, fun h => absurd rfl h⟩
    · rw [if_neg hp]
      exact ⟨p, _, T', rfl, hs.write hp fun x hx => fill_outside hx,
        fun _ x h1 h2 => fill_inside h1 h2⟩
  · have hh' : Holds { h with errno := ENOMEM } T := ⟨hh.chain, hh.top_le, hh.top, hh.brk_pos, hh.brk_lt⟩
    have href : Refused h { h with errno := ENOMEM } T := ⟨rfl, rfl, le_rfl, hh'⟩
    exact ⟨0, _, T, calloc_wrapped g h (not_lt.mp hprod), href.served 0 _, fun h => absurd rfl h⟩

/-! ### free -/

theorem free_kept (ptr : ℕ) {h : Heap} {T : Layout A} (hh : Holds h T) :
    ∃ h' T', free A ptr h = some h' ∧ Holds h' T' ∧ (h'.brk = h.brk ∧ h'.sbrks = h.sbrks) ∧
      Kept h h' T T' ptr := by
  rcases free_spec ptr hh with ⟨_, hfr⟩ | ⟨L₁, b, L₂, m', hL, hbf, hx, hfr, hre⟩
  · exact ⟨h, T, hfr, hh, ⟨rfl, rfl⟩, Kept.refl h T ptr⟩
  · refine ⟨_, _, hfr, hre.holds, ⟨rfl, rfl⟩, hre.kept fun c hc _ hcx => ?_⟩
    rw [hL] at hc
    exact mem_splice hc (fun he => hcx (he ▸ hx)) [{ b with free := true }]

/-! ### realloc -/

/-- What `realloc` promises: always `Answered`, and `Served` for a pointer into a used block. -/
def Realloced (h h' : Heap) (T T' : Layout A) (p ptr n : ℕ) : Prop :=
  Answered h h' T T' p ∧ ((∀ b ∈ T.blocks, b.InPayload A ptr → ¬ b.free) → Served h h' T T' p ptr n)

/-- The outcome of reshaping the block `b` in place to `b'`, split to the request. -/
theorem realloced_inPlace {h h' : Heap} {T : Layout A} {L₁ L₂ M : List Block} {b : Block} (b' : Block)
    {lo ptr n : ℕ} (hL : T.blocks = L₁ ++ b :: L₂) (hx : b.InPayload A ptr)
    (ha : b'.addr = b.addr) (hf : b'.free = b.free) (hn : n ≤ A.roundUp16 n)
    (hcap : A.roundUp16 n ≤ b'.cap) (hM : ∀ c ∈ L₂, ¬ c.free → c ∈ M)
    (hre : Reshaped A h h' (L₁ ++ (splitList A b' (A.roundUp16 n) ++ M)) lo) (hle : h.brk ≤ h'.brk)
    (hsb : SbrksUp h h') :
    Realloced h h' T (Layout.ofTiles hre.tiles) (b.payload A) ptr n := by
  obtain ⟨u, hu, hua, huf, hur⟩ := mem_splitList A b' (A.roundUp16 n)
  have hb : b ∈ T.blocks := by rw [hL]; simp
  have hpay : b.payload A = u.payload A := by
    unfold Block.payload
    rw [hua, ha]
  rw [hpay]
  refine ⟨hre.answered hle (payload_ne_zero u), fun hused => ?_⟩
  refine hre.served hle hsb ?_ (by rw [huf, hf]; exact hused b hb hx) hn (hur hcap)
    fun c hc hcf hcx => ?_
  · exact List.mem_append_right _ (List.mem_append_left _ hu)
  · have hne : c ≠ b := fun he => hcx (he ▸ hx)
    refine ⟨?_, fun hca => hne ?_⟩
    · rw [hL] at hc
      rcases List.mem_append.mp (mem_splice hc hne []) with hc | hc
      · exact List.mem_append_left _ hc
      · exact List.mem_append_right _ (List.mem_append_right _ (hM c hc hcf))
    · refine T.tiles.spaced.eq_of_payload hc hb ?_
      unfold Block.payload
      rw [hca, hua, ha]

/-- `malloc` for a block that is too small, and the copy of its payload. -/
theorem MallocOutcome.copied {n p : ℕ} {h h₁ : Heap} {T : Layout A} {b : Block} (hh : Holds h T)
    (hb : b ∈ T.blocks) (h0 : 0 < n) (hn : n + 15 < A.space) (hcap : b.cap < A.roundUp16 n) (hp : p ≠ 0)
    (ho : MallocOutcome A n h T.blocks p h₁) :
    ∃ T₁, Served h h₁ T T₁ p 0 n ∧
      Served h { h₁ with mem := copy h₁.mem p (b.payload A) b.cap } T T₁ p 0 n := by
  obtain ⟨T₁, hs⟩ := ho.served hh h0
  -- the old capacity is below the request, both being multiples of 16
  have hcn : b.cap ≤ n := by
    obtain ⟨hr16, _, _, _⟩ := roundUp16_facts h0 hn
    have hb16 := (T.tiles.bounds hb).2.2.2.1
    rw [Abi.roundUp16_eq hn] at hcap hr16
    omega
  exact ⟨T₁, hs, hs.write hp fun x hx => copy_outside (by omega)⟩

/-- A move: `malloc`, copy, `free`. -/
theorem MallocOutcome.moved {ptr n p : ℕ} {h h₁ h' : Heap} {T : Layout A} {b : Block} (hh : Holds h T)
    (hb : b ∈ T.blocks) (hx : b.InPayload A ptr) (h0 : 0 < n) (hn : n + 15 < A.space)
    (hcap : b.cap < A.roundUp16 n) (hp : p ≠ 0) (ho : MallocOutcome A n h T.blocks p h₁)
    (hfr : free A ptr { h₁ with mem := copy h₁.mem p (b.payload A) b.cap } = some h') :
    ∃ T', Realloced h h' T T' p ptr n := by
  obtain ⟨T₁, hs, hs₂⟩ := ho.copied hh hb h0 hn hcap hp
  obtain ⟨h₃, T₃, hfr₃, hh₃, ⟨hbrk, hsb⟩, hk₃⟩ := free_kept ptr hs₂.holds
  obtain rfl := Option.some.inj (hfr.symm.trans hfr₃)
  refine ⟨T₃, ⟨hh₃, ?_, fun h => absurd h hp⟩, fun hused => ?_⟩
  · rw [hbrk]
    exact hs.brk_le
  have hbf := hused b hb hx
  obtain ⟨u, hu, huf, hpu, hun⟩ := hs.given hp
  have hb₁ := (hs.kept b hb hbf (not_inPayload_zero b)).1
  have hux : ¬ u.InPayload A ptr := fun hux => by
    have hbu := T₁.tiles.spaced.eq_of_inPayload hb₁ hu hx hux
    exact hs.fresh b hb hbf (not_inPayload_zero b) (hpu.trans (by rw [hbu]))
  refine ⟨⟨hh₃, ?_, fun h => absurd h hp⟩, fun _ => ?_, fun _ => ?_, fun c hc hcf hcx => ?_,
    fun c hc hcf _ => ?_⟩
  · rw [hbrk]
    exact hs.brk_le
  · exact ⟨u, (hk₃ u hu huf hux).1, huf, hpu, hun⟩
  · unfold SbrksUp
    rw [hsb]
    exact hs.sbrks hp
  · obtain ⟨hc₂, hsame₂⟩ := hs₂.kept c hc hcf (not_inPayload_zero c)
    obtain ⟨hc₃, hsame₃⟩ := hk₃ c hc₂ hcf hcx
    exact ⟨hc₃, fun x hxc => (hsame₃ x hxc).trans (hsame₂ x hxc)⟩
  · exact hs.fresh c hc hcf (not_inPayload_zero c)

/-- Every branch of `realloc` keeps its promise. -/
theorem ReallocOutcome.realloced {g : Grants} {ptr n p : ℕ} {h h' : Heap} {T : Layout A}
    {L₁ L₂ : List Block} {b : Block} (hh : Holds h T) (hL : T.blocks = L₁ ++ b :: L₂)
    (hx : b.InPayload A ptr) (h0 : 0 < n) (hn : n + 15 < A.space)
    (ho : ReallocOutcome A g ptr n h L₁ b L₂ p h') : ∃ T', Realloced h h' T T' p ptr n := by
  obtain ⟨hr16, hr, hnr, _⟩ := roundUp16_facts h0 hn
  have hb : b ∈ T.blocks := by rw [hL]; simp
  have ht := hh.tiles (by rw [hL]; simp)
  rw [hL] at ht
  cases ho with
  | same hsame =>
    refine ⟨T, .unchanged hh _, fun hused => ⟨.unchanged hh _, fun _ => ?_, fun _ => .of_eq rfl,
      Kept.refl h T ptr, fun c hc _ hcx he => ?_⟩⟩
    · exact ⟨b, hb, hused b hb hx, rfl, hnr, hsame.ge⟩
    · exact hcx (T.tiles.spaced.eq_of_payload hb hc he ▸ hx)
  | shrunk hlt hre =>
    exact ⟨_, realloced_inPlace b hL hx rfl rfl hnr hlt.le (fun _ hc _ => hc)
      (hre.reshaped (ht.splitAt hr16 hr)) le_rfl (.of_eq rfl)⟩
  | grown hL₂ hcap _ hbrk hsb hre =>
    subst hL₂
    have hcs : chunk (A.roundUp16 n - b.cap) % 16 = 0 := by
      have hb16 := ht.mid.2.2.2.1
      unfold chunk CHUNK_SIZE
      split_ifs <;> omega
    have ht' := (ht.setLast hcs).splitAt (M := []) hr16 hr
    rw [← hbrk] at ht'
    exact ⟨_, realloced_inPlace (grownBlock A b n) hL hx rfl rfl hnr (grownBlock_cap b n) (by simp)
      (hre.reshaped ht') (by omega) ⟨[_], hsb, by simp⟩⟩
  | growRefused _ _ hu =>
    have hr := (hu.refused hh).served ptr n
    exact ⟨T, hr.toAnswered, fun _ => hr⟩
  | @absorbed c L₃ m' hL₂ hcap hcf hroom hre =>
    subst hL₂
    have ht' : Tiles A T.lo (L₁ ++ b.join A c :: L₃) h.brk := by
      obtain ⟨mid, h1, h2⟩ := ht.split
      exact h1.append h2.join
    refine ⟨_, realloced_inPlace (b.join A c) hL hx rfl rfl hnr hroom (fun d hd hdf => ?_)
      (hre.reshaped (ht'.splitAt hr16 hr)) le_rfl (.of_eq rfl)⟩
    rcases List.mem_cons.mp hd with rfl | hd
    · exact absurd hcf hdf
    · exact hd
  | moveRefused _ _ _ ho =>
    rw [← hL] at ho
    obtain ⟨T', hs⟩ := ho.served hh h0
    obtain ⟨href, rfl⟩ := hs.null rfl
    exact ⟨T', hs.toAnswered, fun _ => href.served ptr n⟩
  | moved _ hcap _ _ hp ho hfr =>
    rw [← hL] at ho
    exact ho.moved hh hb hx h0 hn hcap hp hfr

/-- **realloc** returns, in place or by a move. -/
theorem realloc_spec {g : Grants} {ptr n : ℕ} {h : Heap} {T : Layout A} (hq : g.query = true)
    (hh : Holds h T) (hptr : ptr ≠ 0) (h0 : 0 < n) (hok : ReallocOk A g ptr n T.blocks h.brk) :
    ∃ p h' T', realloc A g ptr n h = some (p, h') ∧ Realloced h h' T T' p ptr n := by
  by_cases hin : ∃ b ∈ T.blocks, b.InPayload A ptr
  · obtain ⟨b, hb, hx⟩ := hin
    obtain ⟨L₁, L₂, hL⟩ := List.append_of_mem hb
    have hc := hh.carries
    rw [hL] at hc hok
    obtain ⟨p, h', hr, ho⟩ := realloc_outcome (Or.inr hq) hc hx h0 (hok.block hx)
    obtain ⟨T', hT'⟩ := ho.realloced hh hL hx h0 (hok.block hx).1
    exact ⟨p, h', T', hr, hT'⟩
  · have href : Refused h h T := ⟨rfl, rfl, le_rfl, hh⟩
    refine ⟨0, h, T, realloc_outside hh.carries hptr h0 fun b hb hx => hin ⟨b, hb, hx⟩, ?_⟩
    exact ⟨.unchanged hh 0, fun _ => href.served ptr n⟩

end Csc453.Malloc
