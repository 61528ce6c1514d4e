import Csc453.Malloc.Calls
import Csc453.Lib.Transition

/-!
# Csc453.Malloc.Runs — the allocator over whole runs

A run starts from the empty heap and takes calls with arbitrary arguments, each `sbrk` call site of
each call granted or refused by the system, and writes by the callers into live payloads.  The
conditions on a step are `SizeOk` (header plus rounded size within `PTRDIFF_MAX`), `Serviceable`
(no size wraps, or `sbrk` refuses), `Disciplined` (which pointers callers pass) and `Queried` (a call
that asks `sbrk(0)` for the break is answered).  Every reachable heap carries a layout (`run_holds`),
which is the tiling of `heap_tiled`, the frame of `payload_owned` and the sizes of `no_short_block`.
`replay` computes runs that meet the conditions.
-/

namespace Csc453.Malloc

open Bytes Coalesce Transition

inductive Call
  | malloc (n : ℕ)
  | free (p : ℕ)
  | calloc (k n : ℕ)
  | realloc (p n : ℕ)

namespace Call

/-- The pointer argument. -/
def arg : Call → ℕ
  | .free p => p
  | .realloc p _ => p
  | _ => 0

/-- The bytes asked for. -/
def bytes : Call → ℕ
  | .malloc n => n
  | .free _ => 0
  | .calloc k n => k * n
  | .realloc _ n => n

/-- The arguments are machine words. -/
def Words (A : Abi) : Call → Prop
  | .malloc n => n < A.space
  | .free p => p < A.space
  | .calloc k n => k < A.space ∧ n < A.space
  | .realloc p n => p < A.space ∧ n < A.space

/-- Header plus rounded size neither wraps nor exceeds `PTRDIFF_MAX`. -/
def SizeOk (A : Abi) (c : Call) : Prop :=
  A.headerSize + (c.bytes + 15) / 16 * 16 ≤ A.ptrdiffMax

end Call

/-- What happens to the heap: a call with the system's grants and its result, or a byte written. -/
inductive Label
  | call (c : Call) (g : Grants) (p : ℕ)
  | write (x : ℕ) (v : UInt8)

/-- One call; `free` returns nothing, here `0`. -/
def exec (A : Abi) (g : Grants) : Call → Heap → Option (ℕ × Heap)
  | .malloc n, h => malloc A g n h
  | .free p, h => (free A p h).map fun h' => (0, h')
  | .calloc k n, h => calloc A g k n h
  | .realloc p n, h => realloc A g p n h

/-- The address is in the payload of a used block. -/
def Live (A : Abi) (h : Heap) (x : ℕ) : Prop :=
  ∃ L, Chain A h.mem h.heapHead L ∧ ∃ b ∈ L, ¬ b.free ∧ b.InPayload A x

def allocator (A : Abi) : System Heap Label where
  init h := h.heapHead = 0 ∧ 0 < h.brk ∧ h.brk < A.space
  step h l h' :=
    match l with
    | .call c g p => c.Words A ∧ exec A g c h = some (p, h')
    | .write x v => Live A h x ∧ h' = { h with mem := Function.update h.mem x v }

/-! ### Conditions on steps -/

/-- The call asks `sbrk(0)` for the break: it gets to `malloc`, from `realloc` when the block around
the pointer has no room and is not the last, and no free block fits. -/
def AsksBreak (A : Abi) (L : List Block) : Call → Prop
  | .malloc n => 0 < n ∧ ∀ b ∈ L, ¬ Fits (A.roundUp16 n) b
  | .free _ => False
  | .calloc k n => (k * n < A.space ∧ 0 < k * n) ∧ ∀ b ∈ L, ¬ Fits (A.roundUp16 (k * n)) b
  | .realloc p n => 0 < n ∧ (∀ b ∈ L, ¬ Fits (A.roundUp16 n) b) ∧
      (p = 0 ∨ ∃ L₁ b c L₂, L = L₁ ++ b :: c :: L₂ ∧ b.InPayload A p ∧ ¬ HasRoom A n b (c :: L₂))

/-- The system answers the query `sbrk(0)`, if the call makes it. -/
def Queried (A : Abi) (h : Heap) : Label → Prop
  | .call c g _ => ∀ L, Chain A h.mem h.heapHead L → AsksBreak A L c → g.query = true
  | .write _ _ => True

def SizesOk (A : Abi) : Label → Prop
  | .call c _ _ => c.SizeOk A
  | .write _ _ => True

/-- The pointer argument is `NULL`, outside every block, or in a live payload. -/
def Disciplined (A : Abi) (h : Heap) : Label → Prop
  | .call c _ _ => c.arg = 0 ∨ Live A h c.arg ∨
      ∀ L, Chain A h.mem h.heapHead L → ∀ b ∈ L, ¬ (b.addr ≤ c.arg ∧ c.arg < b.fin A)
  | .write _ _ => True

/-- No size of the call wraps, and `sbrk` is asked for a positive increment; or `sbrk` refuses. -/
def Serviceable (A : Abi) (h : Heap) (g : Grants) (c : Call) : Prop :=
  ∀ L, Chain A h.mem h.heapHead L →
    match c with
    | .malloc n => 0 < n → MallocOk A g n L h.brk
    | .free _ => True
    | .calloc k n => k * n < A.space → 0 < k * n → MallocOk A g (k * n) L h.brk
    | .realloc p n => 0 < n → if p = 0 then MallocOk A g n L h.brk else ReallocOk A g p n L h.brk

def StepServiceable (A : Abi) (h : Heap) : Label → Prop
  | .call c g _ => Serviceable A h g c
  | .write _ _ => True

variable {A : Abi}

theorem MallocOk.of_size {g : Grants} {n brk : ℕ} {L : List Block}
    (h : A.headerSize + (n + 15) / 16 * 16 ≤ A.ptrdiffMax) : MallocOk A g n L brk := by
  have hS := A.space_facts
  have hlt : n + 15 < A.space := by
    unfold Abi.ptrdiffMax at h
    omega
  refine Or.inl ⟨hlt, Or.inr ?_⟩
  rw [Abi.roundUp16_eq hlt]
  exact h

theorem ReallocOk.of_size {g : Grants} {p n brk : ℕ} {L : List Block}
    (h : A.headerSize + (n + 15) / 16 * 16 ≤ A.ptrdiffMax) : ReallocOk A g p n L brk := by
  have hS := A.space_facts
  have hlt : n + 15 < A.space := by
    unfold Abi.ptrdiffMax at h
    omega
  intro L₁ b L₂ _ _
  refine ⟨hlt, ?_⟩
  by_cases hL₂ : L₂ = []
  · refine Or.inr (Or.inl ⟨hL₂, Or.inl ?_⟩)
    rw [Abi.roundUp16_eq hlt]
    unfold chunk CHUNK_SIZE
    unfold Abi.ptrdiffMax at *
    split_ifs <;> omega
  · exact Or.inr (Or.inr (Or.inr ⟨hL₂, .of_size h⟩))

theorem Call.SizeOk.lt_space {c : Call} (h : c.SizeOk A) : c.bytes + 15 < A.space := by
  have hS := A.space_facts
  unfold Call.SizeOk Abi.ptrdiffMax at h
  omega

/-- Bounded sizes are serviceable, whatever the heap. -/
theorem Call.SizeOk.serviceable {c : Call} (hc : c.SizeOk A) (h : Heap) (g : Grants) :
    Serviceable A h g c := by
  intro L _
  cases c with
  | malloc n => exact fun _ => .of_size hc
  | free p => trivial
  | calloc k n => exact fun _ _ => .of_size hc
  | realloc p n =>
    intro _
    by_cases hp : p = 0
    · rw [if_pos hp]
      exact .of_size hc
    · rw [if_neg hp]
      exact .of_size hc

theorem SizesOk.serviceable {l : Label} (hl : SizesOk A l) (h : Heap) : StepServiceable A h l := by
  cases l with
  | call c g p => exact Call.SizeOk.serviceable hl h g
  | write x v => trivial

/-! ### One call -/

theorem malloc_zero (g : Grants) (h : Heap) : malloc A g 0 h = some (0, h) := if_pos rfl

/-- What any call does to a heap with a layout: it returns, the new heap has a layout, other
people's blocks are kept, and an allocating call is `Served` or at least `Answered`. -/
structure Called (A : Abi) (h h' : Heap) (T T' : Layout A) (c : Call) (p : ℕ) : Prop where
  holds : Holds h' T'
  kept : (∀ b ∈ T.blocks, b.InPayload A c.arg → ¬ b.free) → Kept h h' T T' c.arg
  served : 0 < c.bytes → (∀ b ∈ T.blocks, b.InPayload A c.arg → ¬ b.free) →
    Served h h' T T' p c.arg c.bytes
  cleared : ∀ k n, c = .calloc k n → p ≠ 0 → ∀ x, p ≤ x → x < p + k * n → h'.mem x = 0
  noBytes : c.bytes = 0 → p = 0

theorem exec_spec {g : Grants} {c : Call} {h : Heap} {T : Layout A} (hq : g.query = true)
    (hh : Holds h T) (hs : Serviceable A h g c) :
    ∃ p h' T', exec A g c h = some (p, h') ∧ Called A h h' T T' c p := by
  have hs := hs T.blocks hh.chain
  cases c with
  | malloc n =>
    rcases Nat.eq_zero_or_pos n with rfl | h0
    · refine ⟨0, h, T, malloc_zero g h, hh, fun _ => Kept.refl h T 0, fun h => absurd h (lt_irrefl 0),
        nofun, fun _ => rfl⟩
    · obtain ⟨p, h', T', hm, hsv⟩ := malloc_served hq hh hs
      exact ⟨p, h', T', hm, hsv.holds, fun _ => hsv.kept, fun _ _ => hsv, nofun, fun h => by
        simp only [Call.bytes] at h
        omega⟩
  | free p =>
    obtain ⟨h', T', hf, hh', _, hk⟩ := free_kept p hh
    exact ⟨0, h', T', by simp [exec, hf], hh', fun _ => hk, fun h => absurd h (lt_irrefl 0), nofun,
      fun _ => rfl⟩
  | calloc k n =>
    obtain ⟨p, h', T', hc, hsv, hz⟩ := calloc_served hq hh hs
    refine ⟨p, h', T', hc, hsv.holds, fun _ => hsv.kept, fun _ _ => hsv, ?_, fun hb => ?_⟩
    · rintro _ _ ⟨⟩
      exact hz
    · -- a zero product is answered by `malloc (0)`
      have hkn : k * n = 0 := hb
      have hlt : k * n < A.space := by
        have := A.space_facts
        omega
      rw [calloc_eq g h hlt, hkn, malloc_zero] at hc
      exact (Prod.mk.inj (Option.some.inj hc)).1.symm
  | realloc p n =>
    by_cases hp : p = 0
    · subst hp
      rcases Nat.eq_zero_or_pos n with rfl | h0
      · refine ⟨0, h, T, rfl, hh, fun _ => Kept.refl h T 0, fun h => absurd h (lt_irrefl 0), nofun,
          fun _ => rfl⟩
      · obtain ⟨p, h', T', hm, hsv⟩ := malloc_served hq hh (fun h0 => by simpa using hs h0)
        refine ⟨p, h', T', ?_, hsv.holds, fun _ => hsv.kept, fun _ _ => hsv, nofun, fun h => ?_⟩
        · simp only [exec, realloc]
          exact hm
        · simp only [Call.bytes] at h
          omega
    · rcases Nat.eq_zero_or_pos n with rfl | h0
      · obtain ⟨h', T', hf, hh', _, hk⟩ := free_kept p hh
        refine ⟨0, h', T', ?_, hh', fun _ => hk, fun h => absurd h (lt_irrefl 0), nofun, fun _ => rfl⟩
        show realloc A g p 0 h = some (0, h')
        unfold realloc
        rw [if_neg hp, if_pos rfl, hf]
        rfl
      · have hok := hs h0
        rw [if_neg hp] at hok
        obtain ⟨q, h', T', hr, ha, hsv⟩ := realloc_spec hq hh hp h0 hok
        refine ⟨q, h', T', hr, ha.holds, fun hd => (hsv hd).kept, fun _ hd => hsv hd, nofun, fun h => ?_⟩
        simp only [Call.bytes] at h
        omega

/-- With a free block that fits, `malloc` makes no `sbrk` call. -/
theorem malloc_grants (g g' : Grants) {n : ℕ} {h : Heap} {L : List Block} (hc : Carries A h L)
    (hfit : ∃ b ∈ L, Fits (A.roundUp16 n) b) : malloc A g n h = malloc A g' n h := by
  rcases malloc_search (r := A.roundUp16 n) hc with ⟨L₁, f, L₂, prev, hL, _, _, hff⟩ | ⟨hno, _⟩
  · have hch := hc.chain
    rw [hL] at hch
    simp only [malloc, hff, if_neg hch.mid.2.1]
  · obtain ⟨b, hb, hf⟩ := hfit
    exact absurd hf (hno b hb)

theorem malloc_query (g : Grants) {n : ℕ} {h : Heap} {L : List Block} (hc : Carries A h L)
    (hno : ¬ (0 < n ∧ ∀ b ∈ L, ¬ Fits (A.roundUp16 n) b)) :
    malloc A g n h = malloc A { g with query := true } n h := by
  rcases Nat.eq_zero_or_pos n with rfl | h0
  · rw [malloc_zero, malloc_zero]
  · refine malloc_grants _ _ hc ?_
    by_contra hfit
    exact hno ⟨h0, fun b hb hf => hfit ⟨b, hb, hf⟩⟩

/-- A call that does not ask for the break does what it does with an answered query. -/
theorem exec_query (g : Grants) {c : Call} {h : Heap} {L : List Block} (hc : Carries A h L)
    (hno : ¬ AsksBreak A L c) : exec A g c h = exec A { g with query := true } c h := by
  cases c with
  | malloc n => exact malloc_query g hc hno
  | free p => rfl
  | calloc k n =>
    show calloc A g k n h = calloc A _ k n h
    by_cases hprod : k * n < A.space
    · rw [calloc_eq _ _ hprod, calloc_eq _ _ hprod, malloc_query g hc fun h => hno ⟨⟨hprod, h.1⟩, h.2⟩]
    · rw [calloc_wrapped _ _ (not_lt.mp hprod), calloc_wrapped _ _ (not_lt.mp hprod)]
  | realloc p n =>
    show realloc A g p n h = realloc A _ p n h
    by_cases hp : p = 0
    · unfold realloc
      rw [if_pos hp, if_pos hp]
      exact malloc_query g hc fun h => hno ⟨h.1, h.2, Or.inl hp⟩
    rcases Nat.eq_zero_or_pos n with rfl | h0
    · rfl
    by_cases hin : ∃ b ∈ L, b.InPayload A p
    · obtain ⟨b, hb, hx⟩ := hin
      obtain ⟨L₁, L₂, rfl⟩ := List.append_of_mem hb
      rw [realloc_inside hc hx h0, realloc_inside hc hx h0]
      rcases L₂ with _ | ⟨c, L₃⟩
      · rfl
      dsimp only
      split_ifs with hsame hshrink habs
      · rfl
      · rfl
      · rfl
      -- neither the block nor the next one has room: `malloc` answers from the list
      · unfold moveBlock
        rw [malloc_query g hc fun h => hno ⟨h0, h.2, Or.inr ⟨L₁, b, c, L₃, rfl, hx, ?_⟩⟩]
        rintro (hroom | ⟨_, _, hcons, hf, hroom⟩)
        · omega
        · obtain ⟨rfl, rfl⟩ := List.cons.inj hcons
          exact habs ⟨hf, hroom⟩
    · have hout : ∀ b ∈ L, ¬ b.InPayload A p := fun b hb hx => hin ⟨b, hb, hx⟩
      rw [realloc_outside hc hp h0 hout, realloc_outside hc hp h0 hout]

theorem Queried.exec_eq {g : Grants} {c : Call} {p : ℕ} {h : Heap} {L : List Block}
    (hq : Queried A h (.call c g p)) (hc : Carries A h L) :
    exec A g c h = exec A { g with query := true } c h := by
  by_cases hask : AsksBreak A L c
  · rw [← hq L hc.chain hask]
  · exact exec_query g hc hask

/-- `exec_spec` with the query answered where it is made. -/
theorem call_spec {g : Grants} {c : Call} {p : ℕ} {h : Heap} {T : Layout A}
    (hq : Queried A h (.call c g p)) (hh : Holds h T) (hs : Serviceable A h g c) :
    ∃ p h' T', exec A g c h = some (p, h') ∧ Called A h h' T T' c p := by
  rw [hq.exec_eq hh.carries]
  exact exec_spec rfl hh hs

/-! ### Runs -/

theorem Holds.write {h : Heap} {T : Layout A} {x : ℕ} {v : UInt8} (hh : Holds h T) (hx : Live A h x) :
    Holds { h with mem := Function.update h.mem x v } T := by
  obtain ⟨L, hL, b, hb, _, hbx⟩ := hx
  obtain rfl := Chain.unique hL hh.chain
  refine ⟨hh.chain.congr fun c hc y h1 h2 => ?_, hh.top_le, hh.top, hh.brk_pos, hh.brk_lt⟩
  refine Function.update_of_ne ?_ ..
  rintro rfl
  exact (T.tiles.payload hb hbx c hc).1 ⟨h1, h2⟩

theorem step_holds {h h' : Heap} {T : Layout A} {l : Label} (hh : Holds h T)
    (hstep : (allocator A).step h l h') (hs : StepServiceable A h l) (hq : Queried A h l) :
    ∃ T' : Layout A, Holds h' T' := by
  cases l with
  | call c g p =>
    obtain ⟨p', h'', T', hx, hcall⟩ := call_spec hq hh hs
    obtain ⟨_, rfl⟩ := Prod.mk.inj (Option.some.inj (hx.symm.trans hstep.2))
    exact ⟨T', hcall.holds⟩
  | write x v =>
    obtain ⟨hx, rfl⟩ := hstep
    exact ⟨T, hh.write hx⟩

/-- **Every reachable heap carries a layout**, in runs whose calls are serviceable. -/
theorem run_holds {hist : List (Event Heap Label)} {h : Heap} (hr : Run (allocator A) hist h)
    (hs : ∀ e ∈ hist, StepServiceable A e.pre e.label) (hq : ∀ e ∈ hist, Queried A e.pre e.label) :
    ∃ T : Layout A, Holds h T := by
  have hr' := hr.restrict (P := fun h l => StepServiceable A h l ∧ Queried A h l) fun e he => ⟨hs e he, hq e he⟩
  refine hr'.reachable.invariant (I := fun h => ∃ T : Layout A, Holds h T) (fun h hi => ?_) ?_
  · exact ⟨.empty A, hi.1, Nat.zero_le _, fun h => absurd rfl h, hi.2.1, hi.2.2⟩
  · rintro h l h' ⟨T, hT⟩ ⟨hstep, hs, hq⟩
    exact step_holds hT hstep hs hq

/-- Bounded sizes are enough. -/
theorem run_holds_of_sizes {hist : List (Event Heap Label)} {h : Heap} (hr : Run (allocator A) hist h)
    (hs : ∀ e ∈ hist, SizesOk A e.label) (hq : ∀ e ∈ hist, Queried A e.pre e.label) :
    ∃ T : Layout A, Holds h T :=
  run_holds hr (fun e he => (hs e he).serviceable e.pre) hq

/-! ### Computed runs -/

instance (b : Block) (x : ℕ) : Decidable (b.InPayload A x) := instDecidableAnd

instance : (c : Call) → Decidable (c.Words A)
  | .malloc n => inferInstanceAs (Decidable (n < A.space))
  | .free p => inferInstanceAs (Decidable (p < A.space))
  | .calloc k n => inferInstanceAs (Decidable (k < A.space ∧ n < A.space))
  | .realloc p n => inferInstanceAs (Decidable (p < A.space ∧ n < A.space))

instance (c : Call) : Decidable (c.SizeOk A) := Nat.decLe _ _

/-- The list of the heap, read off the memory. -/
def Heap.blocks (A : Abi) (h : Heap) : Option (List Block) := readBlocks A h.mem A.space h.heapHead

theorem Heap.blocks_chain {h : Heap} {L : List Block} (hL : h.blocks A = some L) :
    Chain A h.mem h.heapHead L := readBlocks_chain hL

/-- The address is in the payload of a used block. -/
def liveAt (A : Abi) (h : Heap) (x : ℕ) : Bool :=
  (h.blocks A).any fun L => L.any fun b => !b.free && decide (b.InPayload A x)

theorem live_of_liveAt {h : Heap} {x : ℕ} (hx : liveAt A h x = true) : Live A h x := by
  obtain ⟨L, hL, hany⟩ := (Option.any_eq_true ..).mp hx
  obtain ⟨b, hb, hbx⟩ := List.any_eq_true.mp hany
  simp only [Bool.and_eq_true, Bool.not_eq_true', decide_eq_true_eq] at hbx
  exact ⟨L, h.blocks_chain hL, b, hb, by simp [hbx.1], hbx.2⟩

/-- One step, provided that the call has the result the label says, a bounded size, an answered query
and a pointer that is `NULL` or live. -/
def replay (A : Abi) (h : Heap) : Label → Option Heap
  | .call c g p =>
    if c.Words A ∧ c.SizeOk A ∧ g.query = true ∧ (c.arg = 0 ∨ liveAt A h c.arg = true) then
      (exec A g c h).bind fun r => if r.1 = p then some r.2 else none
    else none
  | .write x v =>
    if liveAt A h x = true then some { h with mem := Function.update h.mem x v } else none

/-- A step that meets the conditions on steps. -/
structure Orderly (A : Abi) (e : Event Heap Label) : Prop where
  sizes : SizesOk A e.label
  queried : Queried A e.pre e.label
  disciplined : Disciplined A e.pre e.label

theorem replay_step {h h' : Heap} {l : Label} (hr : replay A h l = some h') :
    (allocator A).step h l h' ∧ Orderly A ⟨h, l, h'⟩ := by
  unfold replay at hr
  cases l with
  | call c g p =>
    obtain ⟨⟨hw, hsz, hq, harg⟩, hr⟩ := Option.ite_none_right_eq_some.mp hr
    obtain ⟨⟨q, k⟩, hx, hr⟩ := Option.bind_eq_some_iff.mp hr
    obtain ⟨rfl, hk⟩ := Option.ite_none_right_eq_some.mp hr
    obtain rfl := Option.some.inj hk
    exact ⟨⟨hw, hx⟩, hsz, fun _ _ _ => hq, harg.imp_right fun hl => Or.inl (live_of_liveAt hl)⟩
  | write x v =>
    obtain ⟨hx, hr⟩ := Option.ite_none_right_eq_some.mp hr
    exact ⟨⟨live_of_liveAt hx, (Option.some.inj hr).symm⟩, trivial, trivial, trivial⟩

/-- The heap before the first call, with the break at a page boundary. -/
def freshHeap : Heap := ⟨fun _ => 0, 0, 4096, 0, []⟩

theorem replay_run {labels : List Label} {hist : List (Event Heap Label)} {h : Heap}
    (hp : play (fun _ => replay abi64) labels [] freshHeap = some (hist, h)) :
    Run (allocator abi64) hist h ∧ ∀ e ∈ hist, Orderly abi64 e := by
  obtain ⟨hr, ho⟩ := Run.play (S := allocator abi64) (J := fun _ e => Orderly abi64 e)
    (fun _ _ _ _ => replay_step) (.init ⟨rfl, by decide, by decide⟩) trivial hp
  exact ⟨hr, throughout_forall.mp ho⟩

/-- Three payloads, a byte written into the first one, and the second one freed. -/
def busy : List Label :=
  [.call (.malloc 100) allGranted 4128, .call (.malloc 200) allGranted 4272,
    .call (.malloc 300) allGranted 4512, .write 4128 7, .call (.free 4272) allGranted 0]

def busyBlocks : List Block :=
  [⟨4096, 112, false⟩, ⟨4240, 208, true⟩, ⟨4480, 304, false⟩, ⟨4816, 64784, true⟩]

/-- The history `hist` and the heap `h` of these five steps. -/
def Busy (hist : List (Event Heap Label)) (h : Heap) : Prop :=
  play (fun _ => replay abi64) busy [] freshHeap = some (hist, h)

theorem exists_busy (P : Heap → Prop) [DecidablePred P]
    (hP : ((play (fun _ => replay abi64) busy [] freshHeap).any fun r => decide (P r.2)) = true) :
    ∃ hist h, Busy hist h ∧ P h := exists_play (fun _ h => P h) hP

namespace Busy

variable {hist : List (Event Heap Label)} {h : Heap}

theorem run (hb : Busy hist h) : Run (allocator abi64) hist h := (replay_run hb).1

theorem sizes (hb : Busy hist h) : ∀ e ∈ hist, SizesOk abi64 e.label :=
  fun e he => ((replay_run hb).2 e he).sizes

theorem queried (hb : Busy hist h) : ∀ e ∈ hist, Queried abi64 e.pre e.label :=
  fun e he => ((replay_run hb).2 e he).queried

theorem disciplined (hb : Busy hist h) : ∀ e ∈ hist, Disciplined abi64 e.pre e.label :=
  fun e he => ((replay_run hb).2 e he).disciplined

theorem chain (hb : Busy hist h) : Chain abi64 h.mem h.heapHead busyBlocks := by
  obtain ⟨_, _, hb', hL⟩ := exists_busy (fun h => h.blocks abi64 = some busyBlocks) (by decide +kernel)
  obtain ⟨rfl, rfl⟩ := Prod.mk.inj (Option.some.inj (hb.symm.trans hb'))
  exact h.blocks_chain hL

end Busy

/-! ### The heap is tiled -/

/-- The block list `L` tiles the heap: ascending, aligned, gapless up to the break, merged. -/
structure Tiling (A : Abi) (h : Heap) (L : List Block) : Prop where
  chain : Chain A h.mem h.heapHead L
  ascending : L.Pairwise fun b c => b.addr < c.addr
  aligned : ∀ b ∈ L, b.addr % 16 = 0 ∧ b.cap % 16 = 0 ∧ 16 ≤ b.cap
  gapless : L.IsChain fun b c => b.fin A = c.addr
  last : ∀ b ∈ L.getLast?, b.fin A = h.brk
  merged : L.IsChain fun b c => ¬ (b.free ∧ c.free)

theorem Tiles.gapless {lo hi : ℕ} {L : List Block} (h : Tiles A lo L hi) :
    (L.IsChain fun b c => b.fin A = c.addr) ∧ ∀ b ∈ L.getLast?, b.fin A = hi := by
  induction L generalizing lo with
  | nil => exact ⟨List.isChain_nil, by simp⟩
  | cons b L ih =>
    obtain ⟨h1, h2⟩ := ih h.2
    rcases L with _ | ⟨c, L⟩
    · refine ⟨List.isChain_singleton b, fun d hd => ?_⟩
      obtain rfl : b = d := by simpa using hd
      exact h.2
    · exact ⟨List.isChain_cons_cons.mpr ⟨h.2.1.1.symm, h1⟩, by simpa using h2⟩

theorem Holds.tiling {h : Heap} {T : Layout A} (hh : Holds h T) : Tiling A h T.blocks where
  chain := hh.chain
  ascending := T.tiles.disjoint.imp fun {b c} hbc => by
    have := A.header_facts
    unfold Block.fin at hbc
    omega
  aligned b hb := (T.tiles.bounds hb).2.2
  gapless := T.tiles.gapless.1
  last b hb := by
    have hne : T.blocks ≠ [] := by
      rintro he
      simp [he] at hb
    rw [← hh.top hne]
    exact T.tiles.gapless.2 b hb
  merged := T.separated

/-- One more call. -/
theorem run_call {hist : List (Event Heap Label)} {h h' : Heap} {c : Call} {g : Grants} {p : ℕ}
    (hr : Run (allocator A) hist h) (hx : exec A g c h = some (p, h')) (hw : c.Words A) :
    Run (allocator A) (⟨h, .call c g p, h'⟩ :: hist) h' := by
  have hstep : (allocator A).step h (.call c g p) h' := ⟨hw, hx⟩
  exact .step hr hstep

theorem run_first {c : Call} {g : Grants} {p : ℕ} {h : Heap}
    (hx : exec abi64 g c freshHeap = some (p, h)) (hw : c.Words abi64) :
    Run (allocator abi64) [⟨freshHeap, .call c g p, h⟩] h :=
  run_call (.init ⟨rfl, by decide, by decide⟩) hx hw

theorem malloc_one_sizeOk : Call.SizeOk abi64 (.malloc 1) := by decide +kernel

theorem sizesOk_first {p : ℕ} {h : Heap} {g : Grants} :
    ∀ e ∈ [(⟨freshHeap, .call (.malloc 1) g p, h⟩ : Event Heap Label)], SizesOk abi64 e.label := by
  intro e he
  obtain rfl := List.mem_singleton.mp he
  exact malloc_one_sizeOk

/-- **Heap tiling.**  In a run whose sizes are bounded and whose `sbrk(0)` queries are answered the
heap is always tiled, and every such call returns. -/
theorem heap_tiled {hist : List (Event Heap Label)} {h : Heap} (hr : Run (allocator A) hist h)
    (hs : ∀ e ∈ hist, SizesOk A e.label) (hq : ∀ e ∈ hist, Queried A e.pre e.label) :
    (∃ L, Tiling A h L) ∧
      ∀ c g, c.SizeOk A → g.query = true → ∃ p h', exec A g c h = some (p, h') := by
  obtain ⟨T, hT⟩ := run_holds_of_sizes hr hs hq
  refine ⟨⟨T.blocks, hT.tiling⟩, fun c g hc hg => ?_⟩
  obtain ⟨p, h', _, hx, _⟩ := exec_spec hg hT (hc.serviceable h g)
  exact ⟨p, h', hx⟩

theorem heap_tiled_busy : ∃ hist h, Busy hist h ∧ Tiling abi64 h busyBlocks := by
  obtain ⟨hist, h, hb, _⟩ := exists_busy (fun _ => True) (by decide +kernel)
  obtain ⟨⟨L, hL⟩, _⟩ := heap_tiled hb.run hb.sizes hb.queried
  obtain rfl := Chain.unique hL.chain hb.chain
  exact ⟨hist, h, hb, hL⟩

/-- When `sbrk(0)` fails, its `-1` is taken for the break and the first block is misaligned. -/
theorem heap_tiled_query_fails : ¬ ∀ (hist : List (Event Heap Label)) (h : Heap),
    Run (allocator abi64) hist h → (∀ e ∈ hist, SizesOk abi64 e.label) → ∃ L, Tiling abi64 h L := by
  intro hall
  obtain ⟨h, hx, hhd⟩ : ∃ h, exec abi64 { allGranted with query := false } (.malloc 1) freshHeap =
      some (4129, h) ∧ h.heapHead = 4097 := ⟨_, rfl, rfl⟩
  obtain ⟨L, hL⟩ := hall _ h (run_first hx (show 1 < abi64.space by decide +kernel)) sizesOk_first
  have hc := hL.chain
  rw [hhd] at hc
  rcases L with _ | ⟨b, L⟩
  · exact absurd hc (by decide : ¬ (4097 : ℕ) = 0)
  · have hb := (hL.aligned b List.mem_cons_self).1
    rw [← Seg.head hc] at hb
    exact absurd hb (by decide)

/-! ### Payloads are owned -/

/-- What the call `c` that returned `p` means to its callers: a fresh payload, and nobody else's
bytes touched. -/
structure Owned (A : Abi) (h h' : Heap) (c : Call) (p : ℕ) (L L' : List Block) : Prop where
  before : Chain A h.mem h.heapHead L
  after : Chain A h'.mem h'.heapHead L'
  given : p ≠ 0 → p % 16 = 0 ∧ ∃ u ∈ L', ¬ u.free ∧ p = u.payload A ∧ c.bytes ≤ u.cap ∧
    ∀ x, u.InPayload A x → ∀ b ∈ L', ¬ b.InHeader A x ∧ (b ≠ u → ¬ b.InPayload A x)
  others : ∀ b ∈ L, ¬ b.free → ¬ b.InPayload A c.arg →
    b ∈ L' ∧ b.payload A ≠ p ∧ ∀ x, b.InPayload A x → h'.mem x = h.mem x
  cleared : ∀ k n, c = .calloc k n → p ≠ 0 → ∀ x, p ≤ x → x < p + k * n → h'.mem x = 0

theorem Called.owned {h h' : Heap} {T T' : Layout A} {c : Call} {p : ℕ} (hh : Holds h T)
    (hc : Called A h h' T T' c p) (hd : ∀ b ∈ T.blocks, b.InPayload A c.arg → ¬ b.free) :
    Owned A h h' c p T.blocks T'.blocks where
  before := hh.chain
  after := hc.holds.chain
  given hp := by
    have hpos : 0 < c.bytes := Nat.pos_of_ne_zero fun h0 => hp (hc.noBytes h0)
    obtain ⟨u, hu, huf, hpu, h1, h2⟩ := (hc.served hpos hd).given hp
    have hH := A.header_facts
    have hal := (T'.tiles.bounds hu).2.2.1
    refine ⟨?_, u, hu, huf, hpu, h1.trans h2, fun x hx b hb => T'.tiles.payload hu hx b hb⟩
    rw [hpu]
    unfold Block.payload
    omega
  others b hb hf hx := by
    obtain ⟨hb', hsame⟩ := hc.kept hd b hb hf hx
    refine ⟨hb', ?_, hsame⟩
    rcases Nat.eq_zero_or_pos c.bytes with h0 | hpos
    · rw [hc.noBytes h0]
      exact payload_ne_zero b
    · exact ((hc.served hpos hd).fresh b hb hf hx).symm
  cleared := hc.cleared

theorem Disciplined.used {h : Heap} {T : Layout A} {c : Call} {g : Grants} {p : ℕ} (hh : Holds h T)
    (hd : Disciplined A h (.call c g p)) : ∀ b ∈ T.blocks, b.InPayload A c.arg → ¬ b.free := by
  intro b hb hx
  rcases hd with h0 | ⟨L, hL, d, hd, hdf, hdx⟩ | hout
  · rw [h0] at hx
    exact absurd hx (not_inPayload_zero b)
  · obtain rfl := Chain.unique hL hh.chain
    rw [T.tiles.spaced.eq_of_inPayload hb hd hx hdx]
    exact hdf
  · refine absurd ⟨?_, hx.2⟩ (hout T.blocks hh.chain b hb)
    have := hx.1
    unfold Block.payload at this
    omega

/-- **Payload ownership and frame**, for every call of a run of disciplined callers. -/
theorem payload_owned {hist : List (Event Heap Label)} {h h' : Heap} {c : Call} {g : Grants} {p : ℕ}
    (hr : Run (allocator A) (⟨h, .call c g p, h'⟩ :: hist) h')
    (hs : ∀ e ∈ ⟨h, .call c g p, h'⟩ :: hist, SizesOk A e.label)
    (hd : ∀ e ∈ ⟨h, .call c g p, h'⟩ :: hist, Disciplined A e.pre e.label)
    (hq : ∀ e ∈ ⟨h, .call c g p, h'⟩ :: hist, Queried A e.pre e.label) :
    ∃ L L', Owned A h h' c p L L' := by
  obtain ⟨hr', hstep, _⟩ := hr.tail
  obtain ⟨T, hT⟩ := run_holds_of_sizes hr' (fun e he => hs e (List.mem_cons_of_mem _ he))
    fun e he => hq e (List.mem_cons_of_mem _ he)
  have hsz : c.SizeOk A := hs _ List.mem_cons_self
  obtain ⟨p', h'', T', hx, hc⟩ := call_spec (hq _ List.mem_cons_self) hT (hsz.serviceable h g)
  obtain ⟨rfl, rfl⟩ := Prod.mk.inj (Option.some.inj (hx.symm.trans hstep.2))
  exact ⟨T.blocks, T'.blocks, hc.owned hT (Disciplined.used hT (hd _ List.mem_cons_self))⟩

/-- A request that goes into the hole, between two used blocks. -/
theorem payload_owned_busy : ∃ hist h h' L', Busy hist h ∧
    exec abi64 allGranted (.malloc 150) h = some (4272, h') ∧
    Owned abi64 h h' (.malloc 150) 4272 busyBlocks L' := by
  obtain ⟨hist, h, hb, hx⟩ := exists_busy
    (fun h => (exec abi64 allGranted (.malloc 150) h).map Prod.fst = some 4272) (by decide +kernel)
  obtain ⟨⟨_, h'⟩, hx, rfl⟩ := Option.map_eq_some_iff.mp hx
  have hw : Call.Words abi64 (.malloc 150) := by decide +kernel
  have hsz : Call.SizeOk abi64 (.malloc 150) := by decide +kernel
  obtain ⟨L, L', ho⟩ := payload_owned (run_call hb.run hx hw) (List.forall_mem_cons.mpr ⟨hsz, hb.sizes⟩)
    (List.forall_mem_cons.mpr ⟨Or.inl rfl, hb.disciplined⟩)
    (List.forall_mem_cons.mpr ⟨fun _ _ _ => rfl, hb.queried⟩)
  obtain rfl := Chain.unique ho.before hb.chain
  exact ⟨hist, h, h', L', hb, hx, ho⟩

/-! ### No size makes a short block -/

/-- An allocating request: a positive size, and for `realloc` `NULL` or a live pointer. -/
def Demands (A : Abi) (h : Heap) : Call → Prop
  | .malloc n => 0 < n
  | .free _ => False
  | .calloc k n => 0 < k ∧ 0 < n
  | .realloc p n => 0 < n ∧ (p = 0 ∨ Live A h p)

/-- A request that did no harm: the break is not lowered, `NULL` means nothing changed, and anything
else is a used block of at least the size asked for, with no wrapped size on the way. -/
structure Sound (A : Abi) (h h' : Heap) (c : Call) (p : ℕ) : Prop where
  brk_le : h.brk ≤ h'.brk
  null : p = 0 → ∃ L, Chain A h.mem h.heapHead L ∧ Chain A h'.mem h'.heapHead L ∧
    ∀ b ∈ L, ¬ b.free → ∀ x, b.InPayload A x → h'.mem x = h.mem x
  block : p ≠ 0 → ∃ L, Chain A h'.mem h'.heapHead L ∧ ∃ u ∈ L, ¬ u.free ∧ p = u.payload A ∧
    c.bytes ≤ A.roundUp16 c.bytes ∧ A.roundUp16 c.bytes ≤ u.cap ∧ u.fin A < A.space
  sbrks : p ≠ 0 → SbrksUp h h'

/-- **No short block**: in a run of serviceable requests, every serviceable request returns and is
sound. -/
theorem no_short_block {hist : List (Event Heap Label)} {h : Heap} {c : Call} {g : Grants}
    (hr : Run (allocator A) hist h) (hs : ∀ e ∈ hist, StepServiceable A e.pre e.label)
    (hq : ∀ e ∈ hist, Queried A e.pre e.label) (hd : Demands A h c) (hc : Serviceable A h g c)
    (hg : g.query = true) : ∃ p h', exec A g c h = some (p, h') ∧ Sound A h h' c p := by
  obtain ⟨T, hT⟩ := run_holds hr hs hq
  obtain ⟨p, h', T', hx, hcall⟩ := exec_spec hg hT hc
  have hpos : 0 < c.bytes := by
    cases c with
    | malloc n => exact hd
    | free p => exact hd.elim
    | calloc k n => exact Nat.mul_pos hd.1 hd.2
    | realloc p n => exact hd.1
  have hused : ∀ b ∈ T.blocks, b.InPayload A c.arg → ¬ b.free := by
    refine Disciplined.used (g := g) (p := p) hT ?_
    cases c with
    | free p => exact hd.elim
    | realloc p n => exact hd.2.imp id Or.inl
    | _ => exact Or.inl rfl
  have hsv := hcall.served hpos hused
  refine ⟨p, h', hx, hsv.brk_le, fun hp => ?_, fun hp => ?_, hsv.sbrks⟩
  · obtain ⟨href, _⟩ := hsv.null hp
    refine ⟨T.blocks, hT.chain, href.holds.chain, fun _ _ _ _ _ => ?_⟩
    rw [href.mem]
  · obtain ⟨u, hu, huf, hpu, h1, h2⟩ := hsv.given hp
    refine ⟨T'.blocks, hcall.holds.chain, u, hu, huf, hpu, h1, h2, ?_⟩
    have := (T'.tiles.bounds hu).2.1
    have := hcall.holds.top_le
    have := hcall.holds.brk_lt
    omega

/-- A request that moves the first block behind all the others. -/
theorem no_short_block_busy : ∃ hist h h', Busy hist h ∧
    exec abi64 allGranted (.realloc 4128 1000) h = some (4848, h') ∧
    Sound abi64 h h' (.realloc 4128 1000) 4848 := by
  obtain ⟨hist, h, hb, hx, hlive⟩ := exists_busy
    (fun h => (exec abi64 allGranted (.realloc 4128 1000) h).map Prod.fst = some 4848 ∧
      liveAt abi64 h 4128 = true) (by decide +kernel)
  obtain ⟨⟨_, h'⟩, hx, rfl⟩ := Option.map_eq_some_iff.mp hx
  have hsz : Call.SizeOk abi64 (.realloc 4128 1000) := by decide +kernel
  have hd : Demands abi64 h (.realloc 4128 1000) := ⟨by decide, Or.inr (live_of_liveAt hlive)⟩
  obtain ⟨p, k, hx', hs⟩ := no_short_block hb.run (fun e he => (hb.sizes e he).serviceable e.pre)
    hb.queried hd (hsz.serviceable h allGranted) rfl
  obtain ⟨rfl, rfl⟩ := Prod.mk.inj (Option.some.inj (hx.symm.trans hx'))
  exact ⟨hist, h, h', hb, hx, hs⟩

theorem Seg.header_of_mem {m : Mem} {p q : ℕ} {L : List Block} (h : Seg A m p L q) {b : Block}
    (hb : b ∈ L) : Header A m b.addr b := by
  obtain ⟨L₁, L₂, rfl⟩ := List.append_of_mem hb
  exact h.mid.2.2.1

theorem abi64_headerSize : abi64.headerSize = 32 := by decide +kernel

/-- The first payload of a heap that starts at the fresh break. -/
theorem addr_of_first {u : Block} (h : 4128 = u.payload abi64) : u.addr = 4096 := by
  have h32 := abi64_headerSize
  unfold Block.payload at h
  omega

/-- `malloc (SIZE_MAX)`: the rounded size is `0`, and a block without room is returned. -/
theorem no_short_block_sizeMax : ¬ ∀ (hist : List (Event Heap Label)) (h : Heap) (c : Call)
    (g : Grants) (p : ℕ) (h' : Heap), Run (allocator abi64) hist h → c.Words abi64 →
    Demands abi64 h c → g.query = true → exec abi64 g c h = some (p, h') → Sound abi64 h h' c p := by
  intro hall
  obtain ⟨h', hx, hcap⟩ : ∃ h', exec abi64 allGranted (.malloc 18446744073709551615) freshHeap =
      some (4128, h') ∧ abi64.payloadCapacity h'.mem 4096 = 0 := ⟨_, rfl, rfl⟩
  have hs := hall [] freshHeap (.malloc 18446744073709551615) allGranted 4128 h'
    (.init ⟨rfl, by decide, by decide⟩)
    (show 18446744073709551615 < abi64.space by decide +kernel)
    (show 0 < 18446744073709551615 by decide) rfl hx
  obtain ⟨L, hL, u, hu, _, hpu, h1, h2, _⟩ := hs.block (by decide)
  have haddr := addr_of_first hpu
  have hucap := (hL.header_of_mem hu).cap
  rw [haddr, hcap] at hucap
  have hbytes : Call.bytes (.malloc 18446744073709551615) = 18446744073709551615 := rfl
  omega

end Csc453.Malloc
