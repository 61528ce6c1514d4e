import Csc453.Malloc.Narrated

/-!
# Csc453.Malloc.Narration — the functions with output run in step with the silent ones

`Said`: the heap a function with output leaves is the one that `Csc453.Malloc.Allocator` computes,
`suppress_debug` is as before, and so many reports have been written among other messages.  Each
function has one lemma of this form; inside another call nothing is said, and at the top a call writes
one report (`exec_said`).
-/

namespace Csc453.Malloc

open Bytes Transition

variable {A : Abi} {d : Bool}

/-! ### What is said -/

/-- A message that is shorter than the buffer. -/
def Message.Fits (A : Abi) : Message → Prop
  | .report r => r.ptr < A.space ∧ r.newPtr < A.space ∧ r.nmemb < A.space ∧ r.size < A.space ∧
      r.resultSize < A.space
  | .custom msg => msg.length ≤ 255

/-- From `s` to `s'` the heap has become `h'`, and the reports `rs` have been written, among messages
that fit. -/
structure Said (A : Abi) (d : Bool) (s s' : Session) (h' : Heap) (rs : List Report) : Prop where
  heap : s'.heap = h'
  suppress : s'.suppressDebug = s.suppressDebug
  out : ∃ msgs : List Message, s'.out = msgs ++ s.out ∧ msgs.filterMap Message.report? = rs ∧
    ∀ m ∈ msgs, m.Fits A
  silent : Quiet d s → s'.out = s.out

variable {s s' s'' : Session} {h' h'' : Heap} {rs : List Report}

namespace Said

theorem refl (s : Session) : Said A d s s s.heap [] :=
  ⟨rfl, rfl, ⟨[], rfl, rfl, nofun⟩, fun _ => rfl⟩

theorem quiet_iff (hs : Said A d s s' h' rs) : Quiet d s' ↔ Quiet d s := by
  unfold Quiet
  rw [hs.suppress]

theorem append {rs' : List Report} (hs : Said A d s s' h' rs) (hs' : Said A d s' s'' h'' rs') :
    Said A d s s'' h'' (rs' ++ rs) := by
  obtain ⟨msgs, ho, hr, hf⟩ := hs.out
  obtain ⟨msgs', ho', hr', hf'⟩ := hs'.out
  refine ⟨hs'.heap, hs'.suppress.trans hs.suppress, ⟨msgs' ++ msgs, ?_, ?_, ?_⟩, fun hq => ?_⟩
  · rw [ho', ho, List.append_assoc]
  · rw [List.filterMap_append, hr, hr']
  · exact List.forall_mem_append.mpr ⟨hf', hf⟩
  · rw [hs'.silent (hs.quiet_iff.mpr hq), hs.silent hq]

theorem trans (hs : Said A d s s' h' []) (hs' : Said A d s' s'' h'' rs) :
    Said A d s s'' h'' rs := by
  have h := hs.append hs'
  rwa [List.append_nil] at h

theorem after (hs : Said A d s s' h' rs) (hs' : Said A d s' s'' h'' []) :
    Said A d s s'' h'' rs := hs.append hs'

theorem withHeap (hs : Said A d s s' h' rs) (h : Heap) : Said A d s (s'.withHeap h) h rs :=
  ⟨rfl, hs.suppress, hs.out, hs.silent⟩

theorem withMem (hs : Said A d s s' h' rs) (m : Mem) :
    Said A d s (s'.withMem m) { h' with mem := m } rs := by
  refine ⟨?_, hs.suppress, hs.out, hs.silent⟩
  rw [← hs.heap]
  rfl

end Said

@[simp] theorem printCustomDebugMsg_heap (msg : String) (s : Session) :
    (Narrated.printCustomDebugMsg d msg s).heap = s.heap := by
  unfold Narrated.printCustomDebugMsg
  split_ifs <;> rfl

theorem said_custom (msg : String) (h : msg.length ≤ 255) (s : Session) :
    Said A d s (Narrated.printCustomDebugMsg d msg s) s.heap [] := by
  unfold Narrated.printCustomDebugMsg
  by_cases hq : Quiet d s
  · rw [if_pos hq]
    exact .refl s
  · rw [if_neg hq]
    exact ⟨rfl, rfl, ⟨[.custom msg], rfl, rfl, List.forall_mem_singleton.mpr h⟩, fun h => absurd h hq⟩

theorem Said.custom (hs : Said A d s s' h' rs) (msg : String) (h : msg.length ≤ 255) :
    Said A d s (Narrated.printCustomDebugMsg d msg s') h' rs :=
  hs.heap ▸ hs.after (said_custom msg h s')

/-! ### Walks over the list -/

theorem firstFit_said {r fuel prev curr : ℕ} {res : ℕ × ℕ}
    (hm : firstFit A s.heap.mem r fuel prev curr = some res) :
    ∃ s', Narrated.firstFit A d r fuel prev curr s = some (res.1, res.2, s') ∧
      Said A d s s' s.heap [] := by
  induction fuel generalizing prev curr with
  | zero => simp [firstFit] at hm
  | succ fuel ih =>
    unfold firstFit at hm
    unfold Narrated.firstFit
    by_cases hc : curr = 0
    · rw [if_pos hc] at hm ⊢
      rw [← Option.some.inj hm]
      exact ⟨s, rfl, .refl s⟩
    rw [if_neg hc] at hm ⊢
    by_cases hfit : A.isFree s.heap.mem curr = true ∧ r ≤ A.payloadCapacity s.heap.mem curr
    · rw [if_pos hfit] at hm ⊢
      rw [← Option.some.inj hm]
      exact ⟨_, rfl, said_custom _ (by decide) s⟩
    · rw [if_neg hfit] at hm ⊢
      exact ih hm

theorem findLoop_said {x fuel curr b : ℕ} (hm : findLoop A s.heap.mem x fuel curr = some b) :
    ∃ s', Narrated.findLoop A d x fuel curr s = some (b, s') ∧ Said A d s s' s.heap [] := by
  induction fuel generalizing curr with
  | zero => simp [findLoop] at hm
  | succ fuel ih =>
    unfold findLoop at hm
    unfold Narrated.findLoop
    dsimp only at hm ⊢
    split_ifs at hm ⊢
    · obtain rfl := Option.some.inj hm
      exact ⟨_, rfl, said_custom _ (by decide) s⟩
    · obtain rfl := Option.some.inj hm
      exact ⟨_, rfl, said_custom _ (by decide) s⟩
    · obtain rfl := Option.some.inj hm
      exact ⟨_, rfl, said_custom _ (by decide) s⟩
    · exact ih hm

theorem findblock_said {x b : ℕ} (hm : findblock A x s.heap = some b) :
    ∃ s', Narrated.findblock A d x s = some (b, s') ∧ Said A d s s' s.heap [] := by
  unfold findblock at hm
  unfold Narrated.findblock
  have h₁ := said_custom (A := A) (d := d) "finding block\n" (by decide) s
  dsimp only
  by_cases hx : x = 0
  · rw [if_pos hx] at hm ⊢
    obtain rfl := Option.some.inj hm
    exact ⟨_, rfl, h₁.custom _ (by decide)⟩
  · rw [if_neg hx] at hm ⊢
    rw [← h₁.heap] at hm
    obtain ⟨s', hs', hsaid⟩ := findLoop_said (d := d) hm
    rw [h₁.heap] at hsaid
    exact ⟨s', hs', h₁.trans hsaid⟩

theorem mergeLoop_said {fuel ff curr : ℕ} {m' : Mem}
    (hm : mergeLoop A fuel ff curr s.heap.mem = some m') :
    ∃ s', Narrated.mergeLoop A d fuel ff curr s = some s' ∧
      Said A d s s' { s.heap with mem := m' } [] := by
  induction fuel generalizing ff curr s with
  | zero => simp [mergeLoop] at hm
  | succ fuel ih =>
    unfold mergeLoop at hm
    unfold Narrated.mergeLoop
    dsimp only at hm ⊢
    by_cases h0 : curr = 0
    · rw [if_pos h0] at hm ⊢
      obtain rfl := Option.some.inj hm
      exact ⟨s, rfl, .refl s⟩
    rw [if_neg h0] at hm ⊢
    by_cases h1 : ff = 0 ∧ A.isFree s.heap.mem curr = true
    · rw [if_pos h1] at hm ⊢
      exact ih hm
    rw [if_neg h1] at hm ⊢
    by_cases h2 : ff ≠ 0 ∧ A.isFree s.heap.mem curr = true
    · rw [if_pos h2] at hm ⊢
      have h₁ := ((Said.refl (A := A) (d := d) s).withMem (absorb A s.heap.mem ff curr)).custom
        "merged free nodes\n" (by decide)
      have hmem : (Narrated.printCustomDebugMsg d "merged free nodes\n"
          (s.withMem (absorb A s.heap.mem ff curr))).heap.mem = absorb A s.heap.mem ff curr := by
        rw [h₁.heap]
      rw [← hmem] at hm
      obtain ⟨s', hs', hsaid⟩ := ih hm
      rw [h₁.heap] at hsaid
      exact ⟨s', hs', h₁.trans hsaid⟩
    · rw [if_neg h2] at hm ⊢
      exact ih hm

theorem mergeFreeNodes_said (hm : mergeFreeNodes A s.heap = some h') :
    ∃ s', Narrated.mergeFreeNodes A d s = some s' ∧ Said A d s s' h' [] := by
  have h₁ := said_custom (A := A) (d := d) "attempting to merge free nodes\n" (by decide) s
  obtain ⟨m', hloop, rfl⟩ := Option.map_eq_some_iff.mp hm
  rw [← h₁.heap] at hloop
  obtain ⟨s', hs', hsaid⟩ := mergeLoop_said (d := d) hloop
  rw [h₁.heap] at hsaid
  exact ⟨s', hs', h₁.trans hsaid⟩

theorem splitblock_said {curr r p : ℕ} (hm : splitblock A curr r s.heap = some (p, h')) :
    ∃ s', Narrated.splitblock A d curr r s = some (p, s') ∧ Said A d s s' h' [] := by
  have h₁ := said_custom (A := A) (d := d) "attempting to split block\n" (by decide) s
  unfold splitblock at hm
  unfold Narrated.splitblock
  dsimp only at hm ⊢
  rw [printCustomDebugMsg_heap]
  split_ifs at hm ⊢
  · obtain ⟨k, hmerge, hk⟩ := Option.map_eq_some_iff.mp hm
    obtain ⟨rfl, rfl⟩ := Prod.mk.inj hk
    have h₂ := (h₁.withMem (writeSplit A curr r (A.sub (A.payloadCapacity s.heap.mem curr) r)
      s.heap.mem)).custom "successfully split block\n" (by decide)
    rw [← h₂.heap] at hmerge
    obtain ⟨s', hs', hsaid⟩ := mergeFreeNodes_said (d := d) hmerge
    rw [hs']
    exact ⟨s', rfl, h₂.trans hsaid⟩
  · obtain ⟨rfl, rfl⟩ := Prod.mk.inj (Option.some.inj hm)
    exact ⟨_, rfl, h₁⟩

/-! ### Reports -/

/-- The capacity `print_debug_msg` finds for a pointer. -/
def foundCapacity (A : Abi) (p : ℕ) (h : Heap) : ℕ :=
  match findblock A p h with
  | some curr => if curr ≠ 0 then A.payloadCapacity h.mem curr else 0
  | none => 0

/-- The reports of one call of `print_debug_msg`. -/
def told (A : Abi) (d : Bool) (s : Session) (id : DebugId) (ptr p nmemb size : ℕ) (h : Heap) :
    List Report :=
  if Quiet d s then [] else [⟨id, ptr, p, nmemb, size, foundCapacity A p h⟩]

theorem Said.told_eq (hs : Said A d s s' h' rs) (id : DebugId) (ptr p nmemb size : ℕ) (h : Heap) :
    told A d s' id ptr p nmemb size h = told A d s id ptr p nmemb size h := by
  unfold told
  simp only [hs.quiet_iff]

/-- When something is written, the search for the result returns, and every number is a word. -/
def Reportable (A : Abi) (d : Bool) (s : Session) (ptr p nmemb size : ℕ) (h : Heap) : Prop :=
  ¬ Quiet d s → (∃ b, findblock A p h = some b) ∧ ptr < A.space ∧ p < A.space ∧ nmemb < A.space ∧
    size < A.space

theorem Reportable.of_quiet {ptr p nmemb size : ℕ} {h : Heap} (hq : Quiet d s) :
    Reportable A d s ptr p nmemb size h := fun hn => absurd hq hn

theorem Said.reportable (hs : Said A d s s' h' rs) {ptr p nmemb size : ℕ} {h : Heap}
    (hr : Reportable A d s ptr p nmemb size h) : Reportable A d s' ptr p nmemb size h :=
  fun hq => hr fun h => hq (hs.quiet_iff.mpr h)

/-- `NULL` is searched for without the list. -/
theorem Reportable.null {ptr p nmemb size : ℕ} {h : Heap} (hr : Reportable A d s ptr p nmemb size h)
    (k : Heap) : Reportable A d s ptr 0 nmemb size k := by
  intro hq
  obtain ⟨-, h1, h2, h3⟩ := hr hq
  have := A.space_facts
  exact ⟨⟨0, if_pos rfl⟩, h1, by omega, h3⟩

theorem printDebugMsg_said (id : DebugId) {ptr p nmemb size : ℕ}
    (hr : Reportable A d s ptr p nmemb size s.heap) :
    ∃ s', Narrated.printDebugMsg A d id ptr p nmemb size s = some s' ∧
      Said A d s s' s.heap (told A d s id ptr p nmemb size s.heap) := by
  unfold Narrated.printDebugMsg told
  by_cases hq : Quiet d s
  · rw [if_pos hq, if_pos hq]
    exact ⟨s, rfl, .refl s⟩
  rw [if_neg hq, if_neg hq]
  obtain ⟨⟨b, hb⟩, hptr, hp, hnm, hsz⟩ := hr hq
  obtain ⟨s₁, hs₁, hsaid⟩ := findblock_said (d := d) (s := { s with suppressDebug := true }) hb
  rw [hs₁]
  have hcap : foundCapacity A p s.heap = if b ≠ 0 then A.payloadCapacity s.heap.mem b else 0 := by
    unfold foundCapacity
    rw [hb]
  have hout : s₁.out = s.out := hsaid.silent (Or.inl rfl)
  have hheap : s₁.heap = s.heap := hsaid.heap
  refine ⟨_, rfl, hheap, rfl, ⟨[_], by rw [hout]; rfl, ?_, List.forall_mem_singleton.mpr ?_⟩,
    fun h => absurd h hq⟩
  · rw [hcap, ← hheap]
    rfl
  · refine ⟨hptr, hp, hnm, hsz, ?_⟩
    have hS := A.space_facts
    show (if b ≠ 0 then A.payloadCapacity s₁.heap.mem b else 0) < A.space
    split_ifs
    · exact load_lt ..
    · omega

/-- A report after something else. -/
theorem Said.report (hs : Said A d s s' h' []) (id : DebugId) {ptr p nmemb size : ℕ}
    (hr : Reportable A d s ptr p nmemb size h') :
    ∃ s'', Narrated.printDebugMsg A d id ptr p nmemb size s' = some s'' ∧
      Said A d s s'' h' (told A d s id ptr p nmemb size h') := by
  obtain ⟨s'', hp, hsaid⟩ := printDebugMsg_said id (hs.reportable (hs.heap.symm ▸ hr))
  rw [hs.told_eq, hs.heap] at hsaid
  exact ⟨s'', hp, hs.trans hsaid⟩

/-! ### malloc -/

theorem appendBlock_said {g : Grants} {prev used size : ℕ} {res : Option ℕ}
    (hr : Reportable A d s 0 0 0 size s.heap) (hm : appendBlock A g prev used s.heap = (res, h')) :
    ∃ s', Narrated.appendBlock A d g prev used size s = some (res, s') ∧
      Said A d s s' h' (if res = none then told A d s .MALLOC_ID 0 0 0 size h' else []) := by
  have h₁ := said_custom (A := A) (d := d) "MALLOC: no block big enough, calling sbrk\n" (by decide) s
  unfold appendBlock at hm
  unfold Narrated.appendBlock
  dsimp only at hm ⊢
  rw [printCustomDebugMsg_heap]
  generalize (if used < CHUNK_SIZE then CHUNK_SIZE else used) = block at hm ⊢
  generalize sbrk A g.query 0 s.heap = query at hm ⊢
  generalize sbrk A g.padding (A.sub (A.roundUp16 query.1) query.1) query.2 = top at hm ⊢
  by_cases htop : top.1 = A.sizeMax
  · rw [if_pos htop] at hm ⊢
    obtain ⟨rfl, rfl⟩ := Prod.mk.inj hm
    obtain ⟨s₂, hs₂, hsaid⟩ := (h₁.withHeap { top.2 with errno := ENOMEM }).report .MALLOC_ID (hr.null _)
    rw [hs₂, if_pos rfl]
    exact ⟨_, rfl, hsaid.custom _ (by decide)⟩
  rw [if_neg htop] at hm ⊢
  generalize sbrk A g.block block top.2 = new at hm ⊢
  by_cases hnew : new.1 = A.sizeMax
  · rw [if_pos hnew] at hm ⊢
    obtain ⟨rfl, rfl⟩ := Prod.mk.inj hm
    obtain ⟨s₂, hs₂, hsaid⟩ := (h₁.withHeap { new.2 with errno := ENOMEM }).report .MALLOC_ID (hr.null _)
    rw [hs₂, if_pos rfl]
    exact ⟨_, rfl, hsaid.custom _ (by decide)⟩
  · rw [if_neg hnew] at hm ⊢
    obtain ⟨rfl, rfl⟩ := Prod.mk.inj hm
    have h₂ := (h₁.withHeap new.2).custom "MALLOC: sbrk succeeded\n" (by decide)
    rw [if_neg nofun, printCustomDebugMsg_heap]
    exact ⟨_, rfl, h₂.withHeap _⟩

theorem useBlock_said {curr r size p : ℕ} (hm : useBlock A curr r s.heap = some (p, h'))
    (hr : Reportable A d s 0 p 0 size h') :
    ∃ s', Narrated.useBlock A d curr r size s = some (p, s') ∧
      Said A d s s' h' (told A d s .MALLOC_ID 0 p 0 size h') := by
  have h₁ := (Said.refl (A := A) (d := d) s).withMem (A.setFree s.heap.mem curr false)
  obtain ⟨s₂, hs₂, hsaid⟩ := splitblock_said (d := d)
    (s := s.withMem (A.setFree s.heap.mem curr false)) hm
  obtain ⟨s₃, hs₃, htold⟩ := (h₁.trans hsaid).report .MALLOC_ID hr
  unfold Narrated.useBlock
  rw [hs₂]
  dsimp only
  rw [hs₃]
  exact ⟨_, rfl, htold.custom _ (by decide)⟩

theorem malloc_said {g : Grants} {size p : ℕ} (hm : malloc A g size s.heap = some (p, h'))
    (hr : Reportable A d s 0 p 0 size h') :
    ∃ s', Narrated.malloc A d g size s = some (p, s') ∧
      Said A d s s' h' (told A d s .MALLOC_ID 0 p 0 size h') := by
  unfold malloc at hm
  unfold Narrated.malloc
  by_cases h0 : size = 0
  · rw [if_pos h0] at hm ⊢
    obtain ⟨rfl, rfl⟩ := Prod.mk.inj (Option.some.inj hm)
    obtain ⟨s₁, hs₁, htold⟩ := (Said.refl (A := A) (d := d) s).report .MALLOC_ID hr
    rw [hs₁]
    exact ⟨_, rfl, htold.custom _ (by decide)⟩
  rw [if_neg h0] at hm ⊢
  dsimp only at hm ⊢
  rcases hff : firstFit A s.heap.mem (A.roundUp16 size) A.space 0 s.heap.heapHead with _ | ⟨prev, curr⟩
  · rw [hff] at hm
    cases hm
  rw [hff] at hm
  obtain ⟨s₁, hs₁, h₁⟩ := firstFit_said (d := d) hff
  rw [hs₁]
  dsimp only at hm ⊢
  by_cases hc : curr = 0
  · rw [if_pos hc] at hm ⊢
    rcases happ : appendBlock A g prev (A.add A.headerSize (A.roundUp16 size)) s.heap with ⟨res, k⟩
    rw [happ] at hm
    rw [← h₁.heap] at happ
    obtain ⟨s₂, hs₂, h₂⟩ := appendBlock_said (h₁.reportable (hr.null _)) happ
    rw [hs₂]
    rcases res with _ | new
    · obtain ⟨rfl, rfl⟩ := Prod.mk.inj (Option.some.inj hm)
      rw [if_pos rfl, h₁.told_eq] at h₂
      exact ⟨s₂, rfl, h₁.trans h₂⟩
    · rw [if_neg (by simp)] at h₂
      dsimp only at hm ⊢
      rw [← h₂.heap] at hm
      obtain ⟨s₃, hs₃, h₃⟩ := useBlock_said hm ((h₁.trans h₂).reportable hr)
      rw [(h₁.trans h₂).told_eq] at h₃
      exact ⟨s₃, hs₃, (h₁.trans h₂).trans h₃⟩
  · rw [if_neg hc] at hm ⊢
    rw [← h₁.heap] at hm
    obtain ⟨s₃, hs₃, h₃⟩ := useBlock_said hm (h₁.reportable hr)
    rw [h₁.told_eq] at h₃
    exact ⟨s₃, hs₃, h₁.trans h₃⟩

/-! ### free, calloc and realloc -/

theorem free_said {ptr : ℕ} (hm : free A ptr s.heap = some h')
    (hr : ∀ k, Reportable A d s ptr 0 0 0 k) :
    ∃ s', Narrated.free A d ptr s = some s' ∧
      Said A d s s' h' (told A d s .FREE_ID ptr 0 0 0 h') := by
  unfold free at hm
  unfold Narrated.free
  by_cases h0 : ptr = 0
  · rw [if_pos h0] at hm ⊢
    obtain rfl := Option.some.inj hm
    exact (said_custom _ (by decide) s).report .FREE_ID (hr _)
  rw [if_neg h0] at hm ⊢
  rcases hfb : findblock A ptr s.heap with _ | curr
  · rw [hfb] at hm
    cases hm
  rw [hfb] at hm
  obtain ⟨s₁, hs₁, h₁⟩ := findblock_said (d := d) hfb
  rw [hs₁]
  dsimp only at hm ⊢
  rw [h₁.heap]
  by_cases hc : curr = 0
  · rw [if_pos hc] at hm ⊢
    obtain rfl := Option.some.inj hm
    exact (h₁.custom _ (by decide)).report .FREE_ID (hr _)
  rw [if_neg hc] at hm ⊢
  by_cases hf : A.isFree s.heap.mem curr = true
  · rw [if_pos hf] at hm ⊢
    obtain rfl := Option.some.inj hm
    exact (h₁.custom _ (by decide)).report .FREE_ID (hr _)
  · rw [if_neg hf] at hm ⊢
    have h₂ := h₁.withMem (A.setFree s.heap.mem curr true)
    rw [← h₂.heap] at hm
    obtain ⟨s₃, hs₃, h₃⟩ := mergeFreeNodes_said (d := d) hm
    rw [hs₃]
    exact ((h₂.trans h₃).custom _ (by decide)).report .FREE_ID (hr _)

/-- What ran suppressed said nothing. -/
theorem Said.quieted (hs : s.suppressDebug = false)
    (h : Said A d { s with suppressDebug := true } s' h' rs) :
    Said A d s { s' with suppressDebug := false } h' [] :=
  ⟨h.heap, hs.symm, ⟨[], h.silent (Or.inl rfl), rfl, nofun⟩, fun _ => h.silent (Or.inl rfl)⟩

theorem quietMalloc_said {g : Grants} {size p : ℕ} (hs : s.suppressDebug = false)
    (hm : malloc A g size s.heap = some (p, h')) :
    ∃ s', Narrated.quietMalloc A d g size s = some (p, s') ∧ Said A d s s' h' [] := by
  obtain ⟨s₁, hs₁, h₁⟩ := malloc_said (d := d) (s := { s with suppressDebug := true }) hm
    (.of_quiet (Or.inl rfl))
  unfold Narrated.quietMalloc
  rw [hs₁]
  exact ⟨_, rfl, h₁.quieted hs⟩

theorem quietFree_said {ptr : ℕ} (hs : s.suppressDebug = false) (hm : free A ptr s.heap = some h') :
    ∃ s', Narrated.quietFree A d ptr s = some s' ∧ Said A d s s' h' [] := by
  obtain ⟨s₁, hs₁, h₁⟩ := free_said (d := d) (s := { s with suppressDebug := true }) hm
    fun _ => .of_quiet (Or.inl rfl)
  unfold Narrated.quietFree
  rw [hs₁]
  exact ⟨_, rfl, h₁.quieted hs⟩

theorem calloc_said {g : Grants} {k n p : ℕ} (hs : s.suppressDebug = false)
    (hm : calloc A g k n s.heap = some (p, h')) (hr : Reportable A d s 0 p k n h') :
    ∃ s', Narrated.calloc A d g k n s = some (p, s') ∧
      Said A d s s' h' (told A d s .CALLOC_ID 0 p k n h') := by
  unfold calloc at hm
  unfold Narrated.calloc
  by_cases hover : n ≠ 0 ∧ A.sizeMax / n < k
  · rw [if_pos hover] at hm ⊢
    obtain ⟨rfl, rfl⟩ := Prod.mk.inj (Option.some.inj hm)
    have h₁ := (Said.refl (A := A) (d := d) s).withHeap { s.heap with errno := ENOMEM }
    obtain ⟨s₂, hs₂, h₂⟩ := (h₁.custom "CALLOC: overflow\n" (by decide)).report .CALLOC_ID hr
    rw [hs₂]
    exact ⟨s₂, rfl, h₂⟩
  rw [if_neg hover] at hm ⊢
  dsimp only at hm ⊢
  rcases hmal : malloc A g (A.mul k n) s.heap with _ | ⟨q, h₁⟩
  · rw [hmal] at hm
    cases hm
  rw [hmal] at hm
  obtain ⟨s₁, hs₁, h₁⟩ := quietMalloc_said (d := d) hs hmal
  rw [hs₁]
  dsimp only at hm ⊢
  by_cases hq : q = 0
  · rw [if_pos hq] at hm ⊢
    obtain ⟨rfl, rfl⟩ := Prod.mk.inj (Option.some.inj hm)
    subst hq
    obtain ⟨s₂, hs₂, h₂⟩ := (h₁.custom "CALLOC: malloc failed\n" (by decide)).report .CALLOC_ID hr
    rw [hs₂]
    exact ⟨s₂, rfl, h₂⟩
  · rw [if_neg hq] at hm ⊢
    obtain ⟨rfl, rfl⟩ := Prod.mk.inj (Option.some.inj hm)
    rw [h₁.heap]
    obtain ⟨s₂, hs₂, h₂⟩ := ((h₁.withMem (fill _ q (A.mul k n) 0)).custom
      "CALLOC: calloc succeeded\n" (by decide)).report .CALLOC_ID hr
    rw [hs₂]
    exact ⟨s₂, rfl, h₂⟩

/-- The end of the branches of `realloc` that split the block. -/
theorem splitblock_reported {curr r ptr p size : ℕ} (h₁ : Said A d s s' h'' [])
    (hm : splitblock A curr r h'' = some (p, h')) (hr : Reportable A d s ptr p 0 size h') :
    ∃ t, (match Narrated.splitblock A d curr r s' with
        | none => none
        | some (q, s₂) => (Narrated.printDebugMsg A d .REALLOC_ID ptr q 0 size s₂).map
            fun s₃ => (q, s₃)) = some (p, t) ∧
      Said A d s t h' (told A d s .REALLOC_ID ptr p 0 size h') := by
  rw [← h₁.heap] at hm
  obtain ⟨s₂, hs₂, h₂⟩ := splitblock_said (d := d) hm
  obtain ⟨s₃, hs₃, h₃⟩ := (h₁.trans h₂).report .REALLOC_ID hr
  rw [hs₂]
  dsimp only
  rw [hs₃]
  exact ⟨s₃, rfl, h₃⟩

theorem growLast_said {g : Grants} {ptr curr r p size : ℕ}
    (hm : growLast A g curr r s.heap = some (p, h')) (hr : Reportable A d s ptr p 0 size h') :
    ∃ s', Narrated.growLast A d g ptr curr r size s = some (p, s') ∧
      Said A d s s' h' (told A d s .REALLOC_ID ptr p 0 size h') := by
  have h₁ := said_custom (A := A) (d := d) "REALLOC: at the end of heap, calling sbrk\n" (by decide) s
  unfold growLast at hm
  unfold Narrated.growLast
  dsimp only at hm ⊢
  rw [printCustomDebugMsg_heap]
  generalize (if A.sub r (A.payloadCapacity s.heap.mem curr) < CHUNK_SIZE then CHUNK_SIZE
    else A.sub r (A.payloadCapacity s.heap.mem curr)) = block at hm ⊢
  generalize sbrk A g.grow block s.heap = new at hm ⊢
  by_cases hnew : new.1 = A.sizeMax
  · rw [if_pos hnew] at hm ⊢
    obtain ⟨rfl, rfl⟩ := Prod.mk.inj (Option.some.inj hm)
    obtain ⟨s₂, hs₂, h₂⟩ := ((h₁.withHeap { new.2 with errno := ENOMEM }).custom
      "REALLOC: sbrk failed\n" (by decide)).report .REALLOC_ID hr
    rw [hs₂]
    exact ⟨s₂, rfl, h₂⟩
  · rw [if_neg hnew] at hm ⊢
    have h₂ := (h₁.withHeap new.2).custom "REALLOC: sbrk succeeded\n" (by decide)
    rw [h₂.heap]
    exact splitblock_reported (h₂.withMem _) hm hr

theorem absorbNext_said {ptr curr next r p size : ℕ}
    (hm : absorbNext A curr next r s.heap = some (p, h')) (hr : Reportable A d s ptr p 0 size h') :
    ∃ s', Narrated.absorbNext A d ptr curr next r size s = some (p, s') ∧
      Said A d s s' h' (told A d s .REALLOC_ID ptr p 0 size h') := by
  have h₁ := said_custom (A := A) (d := d) "REALLOC: expanding in place\n" (by decide) s
  unfold Narrated.absorbNext
  dsimp only
  rw [h₁.heap]
  exact splitblock_reported (h₁.withMem _) hm hr

theorem moveBlock_said {g : Grants} {ptr curr cap p size : ℕ} (hs : s.suppressDebug = false)
    (hm : moveBlock A g ptr curr cap size s.heap = some (p, h'))
    (hr : Reportable A d s ptr p 0 size h') :
    ∃ s', Narrated.moveBlock A d g ptr curr cap size s = some (p, s') ∧
      Said A d s s' h' (told A d s .REALLOC_ID ptr p 0 size h') := by
  have h₁ := said_custom (A := A) (d := d) "REALLOC: copying, calling malloc\n" (by decide) s
  unfold moveBlock at hm
  unfold Narrated.moveBlock
  rcases hmal : malloc A g size s.heap with _ | ⟨q, k⟩
  · rw [hmal] at hm
    cases hm
  rw [hmal] at hm
  rw [← h₁.heap] at hmal
  obtain ⟨s₂, hs₂, h₂⟩ := quietMalloc_said (d := d) (h₁.suppress.trans hs) hmal
  rw [hs₂]
  dsimp only at hm ⊢
  by_cases hq : q = 0
  · rw [if_pos hq] at hm ⊢
    obtain ⟨rfl, rfl⟩ := Prod.mk.inj (Option.some.inj hm)
    subst hq
    obtain ⟨s₃, hs₃, h₃⟩ := ((h₁.trans h₂).custom "REALLOC: malloc failed\n" (by decide)).report
      .REALLOC_ID hr
    rw [hs₃]
    exact ⟨s₃, rfl, h₃⟩
  · rw [if_neg hq] at hm ⊢
    obtain ⟨h₂', hfree, hpair⟩ := Option.map_eq_some_iff.mp hm
    obtain ⟨rfl, rfl⟩ := Prod.mk.inj hpair
    have h₃ := (((h₁.trans h₂).withMem (copy k.mem q (A.add curr A.headerSize) cap))).custom
      "REALLOC: copied bytes\n" (by decide)
    rw [← h₃.heap] at hfree
    obtain ⟨s₄, hs₄, h₄⟩ := quietFree_said (d := d) (h₃.suppress.trans hs) hfree
    obtain ⟨s₅, hs₅, h₅⟩ := (h₃.trans h₄).report .REALLOC_ID hr
    rw [h₂.heap, hs₄]
    dsimp only
    rw [hs₅]
    exact ⟨s₅, rfl, h₅⟩

theorem realloc_said {g : Grants} {ptr size p : ℕ} (hs : s.suppressDebug = false)
    (hm : realloc A g ptr size s.heap = some (p, h')) (hr : Reportable A d s ptr p 0 size h') :
    ∃ s', Narrated.realloc A d g ptr size s = some (p, s') ∧
      Said A d s s' h' (told A d s .REALLOC_ID ptr p 0 size h') := by
  unfold realloc at hm
  unfold Narrated.realloc
  by_cases hptr : ptr = 0
  · rw [if_pos hptr] at hm ⊢
    obtain ⟨s₁, hs₁, h₁⟩ := quietMalloc_said (d := d) hs hm
    obtain ⟨s₂, hs₂, h₂⟩ := (h₁.custom "REALLOC: ptr is NULL, calling malloc\n" (by decide)).report .REALLOC_ID hr
    rw [hs₁]
    dsimp only
    rw [hs₂]
    exact ⟨s₂, rfl, h₂⟩
  rw [if_neg hptr] at hm ⊢
  by_cases hsize : size = 0
  · rw [if_pos hsize] at hm ⊢
    obtain ⟨k, hfree, hpair⟩ := Option.map_eq_some_iff.mp hm
    obtain ⟨rfl, rfl⟩ := Prod.mk.inj hpair
    obtain ⟨s₁, hs₁, h₁⟩ := quietFree_said (d := d) hs hfree
    obtain ⟨s₂, hs₂, h₂⟩ := (h₁.custom "REALLOC: size is 0, calling free\n" (by decide)).report .REALLOC_ID hr
    rw [hs₁]
    dsimp only
    rw [hs₂]
    exact ⟨s₂, rfl, h₂⟩
  rw [if_neg hsize] at hm ⊢
  rcases hfb : findblock A ptr s.heap with _ | curr
  · rw [hfb] at hm
    cases hm
  rw [hfb] at hm
  obtain ⟨s₁, hs₁, h₁⟩ := findblock_said (d := d) hfb
  rw [hs₁]
  dsimp only at hm ⊢
  by_cases hc : curr = 0
  · rw [if_pos hc] at hm ⊢
    obtain ⟨rfl, rfl⟩ := Prod.mk.inj (Option.some.inj hm)
    subst hc
    obtain ⟨s₂, hs₂, h₂⟩ := (h₁.custom "REALLOC: block not found\n" (by decide)).report
      .REALLOC_ID hr
    rw [hs₂]
    exact ⟨s₂, rfl, h₂⟩
  rw [if_neg hc] at hm ⊢
  have h₂ := h₁.custom "REALLOC: block found\n" (by decide)
  generalize Narrated.printCustomDebugMsg d "REALLOC: block found\n" s₁ = s₂ at h₂ ⊢
  rw [h₂.heap]
  by_cases hsame : A.payloadCapacity s.heap.mem curr = A.roundUp16 size
  · rw [if_pos hsame] at hm ⊢
    obtain ⟨rfl, rfl⟩ := Prod.mk.inj (Option.some.inj hm)
    obtain ⟨s₃, hs₃, h₃⟩ := (h₂.custom "REALLOC: size didn't change, returning payload ptr\n" (by decide)).report .REALLOC_ID hr
    rw [hs₃]
    exact ⟨s₃, rfl, h₃⟩
  rw [if_neg hsame] at hm ⊢
  by_cases hlt : A.roundUp16 size < A.payloadCapacity s.heap.mem curr
  · rw [if_pos hlt] at hm ⊢
    exact splitblock_reported (h₂.custom _ (by decide)) hm hr
  rw [if_neg hlt] at hm ⊢
  by_cases hnext : A.nextBlockHeader s.heap.mem curr = 0
  · rw [if_pos hnext] at hm ⊢
    rw [← h₂.heap] at hm
    obtain ⟨s₃, hs₃, h₃⟩ := growLast_said hm (h₂.reportable hr)
    rw [h₂.told_eq] at h₃
    exact ⟨s₃, hs₃, h₂.trans h₃⟩
  rw [if_neg hnext] at hm ⊢
  have h₃ := h₂.custom "REALLOC: attempting to expand in place\n" (by decide)
  have hr₃ := h₃.reportable hr
  rw [h₃.heap]
  by_cases hroom : A.nextBlockHeader s.heap.mem curr ≠ 0 ∧
      A.isFree s.heap.mem (A.nextBlockHeader s.heap.mem curr) = true ∧
      A.roundUp16 size ≤ A.add (A.payloadCapacity s.heap.mem curr)
        (A.add A.headerSize (A.payloadCapacity s.heap.mem (A.nextBlockHeader s.heap.mem curr)))
  · rw [if_pos hroom] at hm ⊢
    rw [← h₃.heap] at hm
    obtain ⟨s₄, hs₄, h₄⟩ := absorbNext_said hm hr₃
    rw [h₃.told_eq] at h₄
    exact ⟨s₄, by rw [← hs₄, h₃.heap], h₃.trans h₄⟩
  · rw [if_neg hroom] at hm ⊢
    rw [← h₃.heap] at hm
    obtain ⟨s₄, hs₄, h₄⟩ := moveBlock_said (h₃.suppress.trans hs) hm hr₃
    rw [h₃.told_eq] at h₄
    exact ⟨s₄, by rw [← hs₄, h₃.heap], h₃.trans h₄⟩

/-! ### One call -/

namespace Call

def id : Call → DebugId
  | .malloc _ => .MALLOC_ID
  | .free _ => .FREE_ID
  | .calloc .. => .CALLOC_ID
  | .realloc .. => .REALLOC_ID

def nmemb : Call → ℕ
  | .calloc k _ => k
  | _ => 0

def size : Call → ℕ
  | .malloc n => n
  | .free _ => 0
  | .calloc _ n => n
  | .realloc _ n => n

end Call

/-- **Every call runs in step with the silent one** and writes one report, unless nothing is written. -/
theorem exec_said {g : Grants} {c : Call} {p : ℕ} (hs : s.suppressDebug = false)
    (hx : exec A g c s.heap = some (p, h')) (hr : Reportable A d s c.arg p c.nmemb c.size h') :
    ∃ s', Narrated.exec A d g c s = some (p, s') ∧
      Said A d s s' h' (told A d s c.id c.arg p c.nmemb c.size h') := by
  cases c with
  | malloc n => exact malloc_said hx hr
  | calloc k n => exact calloc_said hs hx hr
  | realloc q n => exact realloc_said hs hx hr
  | free q =>
    obtain ⟨k, hfree, hpair⟩ := Option.map_eq_some_iff.mp hx
    obtain ⟨rfl, rfl⟩ := Prod.mk.inj hpair
    obtain ⟨s₁, hs₁, h₁⟩ := free_said (d := d) hfree fun k => hr.null k
    refine ⟨s₁, ?_, h₁⟩
    show (Narrated.free A d q s).map (fun s₁ => (0, s₁)) = _
    rw [hs₁]
    rfl

end Csc453.Malloc
