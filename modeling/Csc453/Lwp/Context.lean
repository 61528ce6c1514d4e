import Csc453.Lib.X86
import Csc453.Lwp.Library

/-!
# Csc453.Lwp.Context — contexts in machine words (Asgn2/magic64.S, Asgn2/lwp.h, Asgn2/lwp.c)

The other modules of the library say where a thread goes on by a `Resume`.  Here is what that is on
the machine: `swapRfiles` is the assembly of `swap_rfiles`, `initContext` what `lwp_create` stores on
the new stack and into the new thread's `state`.

A switch is proved in its three pieces: `save_returns` and `load_returns` for the two halves of the
code, `epilogue_returns` for the final `leave` and `ret`; `swap_returns` puts them together, `started`
and `resumed` apply it to a new context and to a saved one.
-/

namespace Csc453.Lwp

open Bytes Function X86

/-! ### rfile (lwp.h) -/

/-- The offset of a register in an `rfile`. -/
def slot : Reg → ℕ
  | .rax => 0
  | .rbx => 8
  | .rcx => 16
  | .rdx => 24
  | .rsi => 32
  | .rdi => 40
  | .rbp => 48
  | .rsp => 56
  | .r8 => 64
  | .r9 => 72
  | .r10 => 80
  | .r11 => 88
  | .r12 => 96
  | .r13 => 104
  | .r14 => 112
  | .r15 => 120

/-- The offset of `fxsave`. -/
def FXSAVE : ℕ := 128

def RFILE_SIZE : ℕ := 640

/-- A pointer to an `rfile`, which is `aligned(16)`. -/
structure IsRfile (p : Word) : Prop where
  nonnull : p ≠ 0
  aligned : p.toNat % 16 = 0
  inSpace : InSpace p.toNat RFILE_SIZE

theorem IsRfile.slot_inSpace {p : Word} (h : IsRfile p) {off : ℕ} (hoff : off + 8 ≤ FXSAVE) :
    InSpace (p.toNat + off) 8 := by
  have hp := h.inSpace
  unfold InSpace RFILE_SIZE FXSAVE at *
  omega

/-- The address that `leaq 128(p)` gives. -/
theorem IsRfile.fxsave {p : Word} (h : IsRfile p) :
    (p + BitVec.ofNat 64 128).toNat = p.toNat + FXSAVE ∧ (p.toNat + FXSAVE) % 16 = 0 ∧
      InSpace (p.toNat + FXSAVE) 512 := by
  obtain ⟨-, ha, hp⟩ := h
  unfold InSpace RFILE_SIZE FXSAVE at *
  refine ⟨toNat_offset ?_, by omega, by omega⟩
  unfold InSpace
  omega

/-- The `rfile` at `p` holds these registers and this state of the floating point unit. -/
structure RfileAt (m : Mem) (p : ℕ) (regs : Reg → Word) (fpu : Fpu) : Prop where
  regs : ∀ r, word m (p + slot r) = regs r
  fxsave : image m (p + FXSAVE) = fpu

theorem slot_lt (r : Reg) : slot r + 8 ≤ FXSAVE := by
  cases r <;> decide

theorem RfileAt.congr {m m' : Mem} {p : ℕ} {regs : Reg → Word} {fpu : Fpu}
    (h : RfileAt m p regs fpu) (hm : SameOn p RFILE_SIZE m m') : RfileAt m' p regs fpu where
  regs r := by
    have hr : slot r + 8 ≤ 128 := slot_lt r
    have hslot : SameOn (p + slot r) 8 m m' := hm.mono (by omega) (by unfold RFILE_SIZE; omega)
    rw [word_congr hslot, h.regs r]
  fxsave := by
    have hfx : SameOn (p + FXSAVE) 512 m m' :=
      hm.mono (Nat.le_add_right ..) (by unfold RFILE_SIZE FXSAVE; omega)
    rw [image_congr hfx, h.fxsave]

/-! ### swap_rfiles (magic64.S) -/

/-- `swap_rfiles (old, new)`, with `old` in `rdi` and `new` in `rsi`. -/
def swapRfiles : List Instr :=
  [ .push .rbp,
    .mov .rbp .rsp,
    -- save the old context (if old != NULL)
    .cmpZero .rdi,
    .je 22,
    .store .rax 0 .rdi,
    .lea .rax 128 .rdi,
    .fxsave .rax,
    .store .rbx 8 .rdi,
    .store .rcx 16 .rdi,
    .store .rdx 24 .rdi,
    .store .rsi 32 .rdi,
    .store .rdi 40 .rdi,
    .store .rbp 48 .rdi,
    .store .rsp 56 .rdi,
    .store .r8 64 .rdi,
    .store .r9 72 .rdi,
    .store .r10 80 .rdi,
    .store .r11 88 .rdi,
    .store .r12 96 .rdi,
    .store .r13 104 .rdi,
    .store .r14 112 .rdi,
    .store .r15 120 .rdi,
    -- load: the new one (if new != NULL)
    .cmpZero .rsi,
    .je 42,
    .lea .rax 128 .rsi,
    .fxrstor .rax,
    .load .rax 0 .rsi,
    .load .rbx 8 .rsi,
    .load .rcx 16 .rsi,
    .load .rdx 24 .rsi,
    .load .rdi 40 .rsi,
    .load .rbp 48 .rsi,
    .load .rsp 56 .rsi,
    .load .r8 64 .rsi,
    .load .r9 72 .rsi,
    .load .r10 80 .rsi,
    .load .r11 88 .rsi,
    .load .r12 96 .rsi,
    .load .r13 104 .rsi,
    .load .r14 112 .rsi,
    .load .r15 120 .rsi,
    .load .rsi 32 .rsi,
    -- done:
    .leave,
    .ret ]

/-- What is saved after `rax` and `fxsave`. -/
def savedRegs : List (Reg × ℕ) :=
  [.rbx, .rcx, .rdx, .rsi, .rdi, .rbp, .rsp, .r8, .r9, .r10, .r11, .r12, .r13, .r14, .r15].map
    fun r => (r, slot r)

/-- What is loaded before `rsi`. -/
def loadedRegs : List (Reg × ℕ) :=
  [.rax, .rbx, .rcx, .rdx, .rdi, .rbp, .rsp, .r8, .r9, .r10, .r11, .r12, .r13, .r14, .r15].map
    fun r => (r, slot r)

theorem drop_save :
    swapRfiles.drop 7 = (savedRegs.map fun e => .store e.1 e.2 .rdi) ++ swapRfiles.drop 22 := rfl

theorem drop_load :
    swapRfiles.drop 26 = (loadedRegs.map fun e => .load e.1 e.2 .rsi) ++ swapRfiles.drop 41 := rfl

theorem savedRegs_slot : ∀ e ∈ savedRegs, e.1 ≠ .rax ∧ 8 ≤ e.2 ∧ e.2 + 8 ≤ FXSAVE := by
  decide

theorem savedRegs_sorted : savedRegs.Pairwise fun d e => d.2 + 8 ≤ e.2 := by
  decide

theorem mem_savedRegs {r : Reg} (h : r ≠ .rax) : (r, slot r) ∈ savedRegs := by
  cases r <;> first | exact absurd rfl h | decide

theorem loadedRegs_slot : ∀ e ∈ loadedRegs, e.1 ≠ .rsi ∧ e.2 = slot e.1 ∧ e.2 + 8 ≤ FXSAVE := by
  decide

theorem mem_loadedRegs (r : Reg) : r ∈ loadedRegs.map Prod.fst ↔ r ≠ .rsi := by
  cases r <;> decide

/-- The words stored from `savedRegs` into the `rfile` at `p`. -/
def savedWords (p : ℕ) (regs : Reg → Word) : List (ℕ × Word) :=
  savedRegs.map fun e => (p + e.2, regs e.1)

theorem savedWords_sameOn {p a n : ℕ} {regs : Reg → Word} {m : Mem}
    (h : Apart (p + 8) (FXSAVE - 8) a n) : SameOn a n m (setWords (savedWords p regs) m) := by
  refine setWords_sameOn fun e he => ?_
  obtain ⟨d, hd, rfl⟩ := List.mem_map.mp he
  obtain ⟨-, h1, h2⟩ := savedRegs_slot d hd
  exact h.mono (by omega) (by unfold FXSAVE at *; omega)

theorem word_savedWords {p : ℕ} {regs : Reg → Word} {m : Mem} {r : Reg} (hr : r ≠ .rax) :
    word (setWords (savedWords p regs) m) (p + slot r) = regs r := by
  have hsorted : (savedWords p regs).Pairwise fun d e => Apart d.1 8 e.1 8 := by
    refine List.Pairwise.map _ (fun d e (hde : d.2 + 8 ≤ e.2) => ?_) savedRegs_sorted
    exact .inl (by omega)
  have hmem : (p + slot r, regs r) ∈ savedWords p regs :=
    List.mem_map.mpr ⟨(r, slot r), mem_savedRegs hr, rfl⟩
  exact word_setWords hsorted (p + slot r, regs r) hmem

/-- `m` with `regs` and `fpu` saved at `p`, in the order of the code. -/
def savedMem (p : ℕ) (regs : Reg → Word) (fpu : Fpu) (m : Mem) : Mem :=
  setWords (savedWords p regs) (setImage (setWord m p (regs .rax)) (p + FXSAVE) fpu)

theorem savedMem_sameOn {p a n : ℕ} {regs : Reg → Word} {fpu : Fpu} {m : Mem}
    (h : Apart p RFILE_SIZE a n) : SameOn a n m (savedMem p regs fpu m) := by
  unfold RFILE_SIZE at h
  have hrax : SameOn a n m (setWord m p (regs .rax)) := sameOn_setWord (h.mono le_rfl (by omega))
  have hfx := hrax.trans (sameOn_setImage (f := fpu) (h.mono (Nat.le_add_right p FXSAVE)
    (by unfold FXSAVE; omega)))
  exact hfx.trans (savedWords_sameOn (h.mono (by omega) (by unfold FXSAVE; omega)))

theorem rfileAt_savedMem {p : ℕ} {regs : Reg → Word} {fpu : Fpu} {m : Mem} :
    RfileAt (savedMem p regs fpu m) p regs fpu where
  regs r := by
    by_cases hr : r = .rax
    · have hfx : Apart (p + FXSAVE) 512 p 8 := .inr (by unfold FXSAVE; omega)
      have hkept : SameOn p 8 (setWord m p (regs .rax)) (savedMem p regs fpu m) :=
        (sameOn_setImage hfx).trans (savedWords_sameOn (.inr le_rfl))
      rw [hr]
      exact (word_congr hkept).trans word_setWord
    · exact word_savedWords hr
  fxsave := (image_congr (savedWords_sameOn (.inl (by unfold FXSAVE; omega)))).trans image_setImage

section Switch

variable {s t s' : Machine} {old new ra : Word} {regs : Reg → Word} {fpu : Fpu}

/-- The first half, with `old` not `NULL`. -/
theorem save_returns (hp : IsRfile (t.reg .rdi))
    (h : ∀ t', (∀ r, r ≠ .rax → t'.reg r = t.reg r) →
      t'.mem = savedMem (t.reg .rdi).toNat t.reg t.fpu t.mem → Returns swapRfiles 22 t' ra s') :
    Returns swapRfiles 2 t ra s' := by
  generalize hq : (t.reg .rdi).toNat = p at *
  have hslot : ∀ off, off + 8 ≤ FXSAVE → InSpace (p + off) 8 :=
    fun off hoff => hq ▸ hp.slot_inSpace hoff
  obtain ⟨hfx, halign, hspace⟩ := hp.fxsave
  -- `rax` is saved first, then its register holds the address of `fxsave`
  let t₁ : Machine := { t with zf := false, mem := setWord t.mem p (t.reg .rax) }
  have hrax : X86.exec (.store .rax 0 .rdi) { t with zf := false } = some t₁ := by
    rw [exec_store]
    · rw [Nat.add_zero, hq]
    · exact hp.slot_inSpace (by decide)
  let t₂ : Machine := t₁.setReg .rax (t.reg .rdi + BitVec.ofNat 64 128)
  let t₃ : Machine := { t₂ with mem := setImage t₁.mem (p + FXSAVE) t.fpu }
  have haddr : (t₂.reg .rax).toNat = (t.reg .rdi).toNat + FXSAVE := by rw [t₁.setReg_self, hfx]
  have hfxsave : X86.exec (.fxsave .rax) t₂ = some t₃ := by
    rw [exec_fxsave (haddr ▸ halign) (haddr ▸ hspace), haddr, hq]
    rfl
  have hreg : ∀ r, r ≠ .rax → t₃.reg r = t.reg r := fun r hr => t₁.setReg_of_ne hr
  have hrdi : (t₃.reg .rdi).toNat = p := by rw [hreg .rdi (by decide), hq]
  let t₄ : Machine := { t₃ with mem := savedMem p t.reg t.fpu t.mem }
  have hregs : execs (savedRegs.map fun e => .store e.1 e.2 .rdi) t₃ = some t₄ := by
    have hwords : savedWords p t₃.reg = savedWords p t.reg := by
      refine List.map_congr_left fun e he => ?_
      rw [hreg e.1 (savedRegs_slot e he).1]
    rw [execs_stores, hrdi]
    · show some { t₃ with mem := setWords (savedWords p t₃.reg) t₃.mem } = _
      rw [hwords]
      rfl
    · intro e he
      rw [hrdi]
      exact hslot e.2 (savedRegs_slot e he).2.2
  refine returns_test_ne rfl rfl hp.nonnull ?_
  refine returns_step rfl hrax (returns_step (t := t₂) rfl rfl (returns_step rfl hfxsave ?_))
  exact returns_block drop_save hregs (h t₄ hreg rfl)

/-- The second half, with `new` not `NULL`. -/
theorem load_returns (hp : IsRfile (t.reg .rsi)) (hm : RfileAt t.mem (t.reg .rsi).toNat regs fpu)
    (h : Returns swapRfiles 42 ⟨regs, false, fpu, t.mem⟩ ra s') : Returns swapRfiles 22 t ra s' := by
  obtain ⟨hfx, halign, hspace⟩ := hp.fxsave
  let t₁ : Machine := { t with zf := false }
  let t₂ : Machine := t₁.setReg .rax (t.reg .rsi + BitVec.ofNat 64 128)
  let t₃ : Machine := { t₂ with fpu := fpu }
  have haddr : (t₂.reg .rax).toNat = (t.reg .rsi).toNat + FXSAVE := by rw [t₁.setReg_self, hfx]
  have hfxrstor : X86.exec (.fxrstor .rax) t₂ = some t₃ := by
    have himage : image t₂.mem ((t.reg .rsi).toNat + FXSAVE) = fpu := hm.fxsave
    rw [exec_fxrstor (haddr ▸ halign) (haddr ▸ hspace), haddr, himage]
  -- all but `rsi`, which is the pointer
  let t₄ : Machine :=
    { t₃ with reg := fun r => if r ∈ loadedRegs.map Prod.fst then regs r else t₃.reg r }
  have hregs : execs (loadedRegs.map fun e => .load e.1 e.2 .rsi) t₃ = some t₄ := by
    refine execs_loads (fun e he => ?_) (fun e he => (loadedRegs_slot e he).1) fun e he => ?_
    · exact hp.slot_inSpace (loadedRegs_slot e he).2.2
    · rw [(loadedRegs_slot e he).2.1]
      exact hm.regs e.1
  have hreg : t₄.reg = update regs .rsi (t.reg .rsi) := by
    funext r
    by_cases hr : r = .rsi
    · rw [hr, update_self]
      rfl
    · rw [update_of_ne hr]
      exact if_pos ((mem_loadedRegs r).mpr hr)
  have hlast : X86.exec (.load .rsi 32 .rsi) t₄ = some ⟨regs, false, fpu, t.mem⟩ := by
    have hrsi : t₄.reg .rsi = t.reg .rsi := by rw [hreg, update_self]
    have hword : word t.mem ((t.reg .rsi).toNat + 32) = regs .rsi := hm.regs .rsi
    rw [exec_load, hrsi]
    · show some { t₄ with reg := update t₄.reg .rsi (word t.mem (_ + 32)) } = _
      rw [hreg, update_idem, hword, update_eq_self]
      rfl
    · rw [hrsi]
      exact hp.slot_inSpace (by decide)
  refine returns_test_ne rfl rfl hp.nonnull ?_
  refine returns_step (t := t₂) rfl rfl (returns_step rfl hfxrstor ?_)
  exact returns_block drop_load hregs (returns_step rfl hlast h)

/-- `leave` and `ret`, from a stack that has a frame pointer and a return address at `rbp`. -/
theorem epilogue_returns (h : InSpace (t.reg .rbp).toNat 16) :
    Returns swapRfiles 42 t (word t.mem ((t.reg .rbp).toNat + 8))
      ((t.setReg .rsp (t.reg .rbp + 16)).setReg .rbp (word t.mem (t.reg .rbp).toNat)) := by
  unfold InSpace at h
  let t₁ := (t.setReg .rsp (t.reg .rbp + 8)).setReg .rbp (word t.mem (t.reg .rbp).toNat)
  have hrsp : t₁.reg .rsp = t.reg .rbp + 8 := rfl
  have haddr : (t.reg .rbp + 8).toNat = (t.reg .rbp).toNat + 8 := by bv_omega
  have hpop := Machine.pop_eq (s := t₁) (by rw [hrsp, haddr]; unfold InSpace; omega)
  refine returns_step rfl (exec_leave (by unfold InSpace; omega)) (returns_ret rfl ?_)
  rw [hpop, hrsp, haddr]
  have hsum : t.reg .rbp + 8 + 8 = t.reg .rbp + 16 := by bv_omega
  rw [hsum, Machine.setReg_comm _ (by decide), Machine.setReg_setReg]
  rfl

/-- `swap_rfiles (old, new)` has just been called: the return address is at `rsp`, and there is room
for the frame pointer below it. -/
structure Called (s : Machine) (old new : Word) : Prop where
  rdi : s.reg .rdi = old
  rsi : s.reg .rsi = new
  room : 8 ≤ (s.reg .rsp).toNat
  stack : InSpace (s.reg .rsp).toNat 8
  old_ptr : old ≠ 0 → IsRfile old
  new_ptr : IsRfile new

/-- The call writes none of the `n` bytes at `a`: not with its frame pointer, and not into `old`. -/
def Spares (s : Machine) (old : Word) (a n : ℕ) : Prop :=
  Apart ((s.reg .rsp).toNat - 8) 8 a n ∧ (old ≠ 0 → Apart old.toNat RFILE_SIZE a n)

instance (s : Machine) (old : Word) (a n : ℕ) : Decidable (Spares s old a n) :=
  inferInstanceAs (Decidable (_ ∧ _))

theorem Spares.mono {a b n k : ℕ} (h : Spares s old a n) (hb : a ≤ b) (hk : b + k ≤ a + n) :
    Spares s old b k :=
  ⟨(h.1.symm.mono hb hk).symm, fun hnull => ((h.2 hnull).symm.mono hb hk).symm⟩

/-- The state behind the first two instructions. -/
def framed (s : Machine) : Machine :=
  { (s.setReg .rsp (s.reg .rsp - 8)).setReg .rbp (s.reg .rsp - 8) with
    mem := setWord s.mem ((s.reg .rsp).toNat - 8) (s.reg .rbp) }

/-- The memory after the first half. -/
def switchMem (s : Machine) (old : Word) : Mem :=
  if old = 0 then (framed s).mem
  else savedMem old.toNat (framed s).reg s.fpu (framed s).mem

theorem switchMem_sameOn {a n : ℕ} (h : Spares s old a n) : SameOn a n s.mem (switchMem s old) := by
  obtain ⟨hstack, hold⟩ := h
  have hframe : SameOn a n s.mem (framed s).mem := sameOn_setWord hstack
  unfold switchMem
  split_ifs with hnull
  · exact hframe
  · exact hframe.trans (savedMem_sameOn (hold hnull))

/-- The two halves of the code before the epilogue. -/
theorem halves_return (hc : Called s old new)
    (h : ∀ t', t'.reg .rsi = new → t'.mem = switchMem s old → Returns swapRfiles 22 t' ra s') :
    Returns swapRfiles 0 s ra s' := by
  have hrdi : (framed s).reg .rdi = old := hc.rdi
  have hrsi : (framed s).reg .rsi = new := hc.rsi
  refine returns_step rfl (exec_push hc.room) (returns_step (t := framed s) rfl rfl ?_)
  by_cases hnull : old = 0
  · exact returns_test_eq rfl rfl (hrdi.trans hnull) (h _ hrsi (if_pos hnull).symm)
  · refine save_returns (hrdi ▸ hc.old_ptr hnull) fun t' hreg hmem => ?_
    refine h t' ((hreg .rsi (by decide)).trans hrsi) (hmem.trans ?_)
    rw [hrdi]
    exact (if_neg hnull).symm

/-- **One switch**: the code goes on where the stack of `new` says, with the registers of `new`. -/
theorem swap_returns (hc : Called s old new) (hnew : RfileAt s.mem new.toNat regs fpu)
    (hspare : Spares s old new.toNat RFILE_SIZE) (hbp : InSpace (regs .rbp).toNat 16)
    (hstack : Spares s old (regs .rbp).toNat 16) :
    ∃ s', Returns swapRfiles 0 s (word s.mem ((regs .rbp).toNat + 8)) s' ∧
      s'.reg = update (update regs .rsp (regs .rbp + 16)) .rbp (word s.mem (regs .rbp).toNat) ∧
      s'.fpu = fpu ∧ s'.mem = switchMem s old := by
  have hsame := switchMem_sameOn hstack
  have hbpWord := word_congr (hsame.mono (k := 8) le_rfl (by omega))
  have hraWord := word_congr (hsame.mono (k := 8) (Nat.le_add_right _ 8) le_rfl)
  let t : Machine := ⟨regs, false, fpu, switchMem s old⟩
  have hret := epilogue_returns (t := t) hbp
  rw [show t.mem = switchMem s old from rfl, show t.reg .rbp = regs .rbp from rfl, hbpWord,
    hraWord] at hret
  refine ⟨(t.setReg .rsp (regs .rbp + 16)).setReg .rbp (word s.mem (regs .rbp).toNat),
    halves_return hc fun t' hrsi hmem => ?_, rfl, rfl, rfl⟩
  have hrfile : RfileAt t'.mem (t'.reg .rsi).toNat regs fpu := by
    rw [hmem, hrsi]
    exact hnew.congr (switchMem_sameOn hspare)
  refine load_returns (hrsi ▸ hc.new_ptr) hrfile ?_
  rw [hmem]
  exact hret

/-- **Switching back** to a context that was saved, if it and the words at the top of its stack are
as they were: to the caller of that first switch. -/
theorem resumed {s₂ : Machine} {old₂ : Word} (hc : Called s old new) (hnull : old ≠ 0)
    (hframe : Apart old.toNat RFILE_SIZE ((s.reg .rsp).toNat - 8) 16) (hc₂ : Called s₂ old₂ old)
    (hspare : Spares s₂ old₂ old.toNat RFILE_SIZE)
    (hstack : Spares s₂ old₂ ((s.reg .rsp).toNat - 8) 16)
    (hkept : SameOn old.toNat RFILE_SIZE (switchMem s old) s₂.mem)
    (hwords : SameOn ((s.reg .rsp).toNat - 8) 16 (switchMem s old) s₂.mem) :
    ∃ s₃, Returns swapRfiles 0 s₂ (word s.mem (s.reg .rsp).toNat) s₃ ∧
      s₃.reg = update s.reg .rsp (s.reg .rsp + 8) ∧ s₃.fpu = s.fpu := by
  have hroom := hc.room
  have hmem : switchMem s old = savedMem old.toNat (framed s).reg s.fpu (framed s).mem :=
    if_neg hnull
  rw [hmem] at hkept hwords
  have hrfile : RfileAt s₂.mem old.toNat (framed s).reg s.fpu := rfileAt_savedMem.congr hkept
  have hbp : ((framed s).reg .rbp).toNat = (s.reg .rsp).toNat - 8 := by
    show (s.reg .rsp - 8).toNat = _
    bv_omega
  -- the two words that the epilogue takes: the frame pointer, and the return address above it
  have hsaved : SameOn ((s.reg .rsp).toNat - 8) 16 (framed s).mem s₂.mem :=
    (savedMem_sameOn hframe).trans hwords
  have hbpWord : word s₂.mem ((s.reg .rsp).toNat - 8) = s.reg .rbp :=
    (word_congr (hsaved.mono le_rfl (by omega))).trans word_setWord
  have hraWord : word s₂.mem ((s.reg .rsp).toNat - 8 + 8) = word s.mem (s.reg .rsp).toNat := by
    rw [Nat.sub_add_cancel hroom, word_congr (hsaved.mono (by omega) (by omega))]
    exact word_congr (sameOn_setWord (.inl (by omega)))
  have hspace : InSpace ((framed s).reg .rbp).toNat 16 := by
    have := hc.stack
    unfold InSpace at *
    omega
  obtain ⟨s₃, hret, hreg, hfpu, -⟩ := swap_returns hc₂ hrfile hspare hspace (hbp ▸ hstack)
  rw [hbp, hraWord] at hret
  refine ⟨s₃, hret, ?_, hfpu⟩
  rw [hreg, hbp, hbpWord]
  funext r
  have hregs : (framed s).reg = update (update s.reg .rsp (s.reg .rsp - 8)) .rbp (s.reg .rsp - 8) := rfl
  have hsum : s.reg .rsp - 8 + 16 = s.reg .rsp + 8 := by bv_omega
  rw [hregs, update_self, hsum]
  by_cases hrbp : r = .rbp
  · simp [hrbp]
  by_cases hrsp : r = .rsp
  · simp [hrsp]
  · simp [hrbp, hrsp]

end Switch

/-! ### The context of a new thread (lwp_create) -/

def STACK_ALIGNMENT : Word := 16

def LWP_EXIT_RETURN_OFFSET : ℤ := -1

def WRAPPER_RETURN_OFFSET : ℤ := -2

def SAVED_BP_OFFSET : ℤ := -3

def FAKE_SAVED_BP : Word := 0

/-- A mapping for a stack: whole pages, at least one. -/
structure Mapping where
  base : Word
  size : Word
  pageSize : ℕ
  pages : 4096 ∣ pageSize
  base_pages : pageSize ∣ base.toNat
  size_pages : pageSize ∣ size.toNat
  nonempty : size ≠ 0
  inSpace : InSpace base.toNat size.toNat

def roundDown16 (size : Word) : Word := size - size % STACK_ALIGNMENT

/-- Pointer arithmetic on `unsigned long *`. -/
def atOffset (p : Word) (k : ℤ) : Word := p + BitVec.ofInt 64 (8 * k)

namespace Mapping

variable (K : Mapping)

def alignedStackTop : Word := roundDown16 (K.base + K.size)

def lwpExitReturnPointer : Word := atOffset K.alignedStackTop LWP_EXIT_RETURN_OFFSET

def wrapperReturnPointer : Word := atOffset K.alignedStackTop WRAPPER_RETURN_OFFSET

def savedBpPointer : Word := atOffset K.alignedStackTop SAVED_BP_OFFSET

/-- The word at `a` is inside the mapping. -/
def Contains (a : Word) : Prop :=
  K.base.toNat ≤ a.toNat ∧ a.toNat + 8 ≤ K.base.toNat + K.size.toNat

theorem page_le : 4096 ≤ K.size.toNat := by
  have hdvd : 4096 ∣ K.size.toNat := K.pages.trans K.size_pages
  have hpos : K.size.toNat ≠ 0 := fun h => K.nonempty (BitVec.eq_of_toNat_eq h)
  exact Nat.le_of_dvd (Nat.pos_of_ne_zero hpos) hdvd

/-- The end of the mapping is aligned. -/
theorem alignedStackTop_eq : K.alignedStackTop = K.base + K.size := by
  have hbase : 4096 ∣ K.base.toNat := K.pages.trans K.base_pages
  have hsize : 4096 ∣ K.size.toNat := K.pages.trans K.size_pages
  have hmod : (K.base + K.size) % STACK_ALIGNMENT = 0 := by
    apply BitVec.eq_of_toNat_eq
    rw [BitVec.toNat_umod, BitVec.toNat_add]
    show (K.base.toNat + K.size.toNat) % 2 ^ 64 % 16 = 0
    omega
  rw [alignedStackTop, roundDown16, hmod]
  exact BitVec.sub_zero _

theorem alignedStackTop_sub : (K.alignedStackTop - 8).toNat % 16 = 8 := by
  have hbase : 4096 ∣ K.base.toNat := K.pages.trans K.base_pages
  have hsize : 4096 ∣ K.size.toNat := K.pages.trans K.size_pages
  rw [K.alignedStackTop_eq, BitVec.toNat_sub, BitVec.toNat_add]
  show (2 ^ 64 - 8 + (K.base.toNat + K.size.toNat) % 2 ^ 64) % 2 ^ 64 % 16 = 8
  omega

/-- Words below the end of the mapping. -/
theorem below_toNat {k : ℕ} (h0 : 0 < k) (hk : k ≤ 3) :
    (atOffset K.alignedStackTop (-k)).toNat = K.base.toNat + K.size.toNat - 8 * k := by
  have hsize := K.page_le
  have hspace := K.inSpace
  unfold InSpace at hspace
  rw [K.alignedStackTop_eq, atOffset, BitVec.toNat_add, BitVec.toNat_add, BitVec.toNat_ofInt]
  omega

theorem lwpExitReturnPointer_toNat :
    K.lwpExitReturnPointer.toNat = K.base.toNat + K.size.toNat - 8 :=
  K.below_toNat (k := 1) (by omega) (by omega)

theorem wrapperReturnPointer_toNat :
    K.wrapperReturnPointer.toNat = K.base.toNat + K.size.toNat - 16 :=
  K.below_toNat (k := 2) (by omega) (by omega)

theorem savedBpPointer_toNat : K.savedBpPointer.toNat = K.base.toNat + K.size.toNat - 24 :=
  K.below_toNat (k := 3) (by omega) (by omega)

/-- The frame is in the mapping. -/
theorem contains_frame : K.Contains K.lwpExitReturnPointer ∧ K.Contains K.wrapperReturnPointer ∧
    K.Contains K.savedBpPointer := by
  have hsize := K.page_le
  unfold Contains
  rw [K.lwpExitReturnPointer_toNat, K.wrapperReturnPointer_toNat, K.savedBpPointer_toNat]
  omega

end Mapping

/-- Never past the end of the address space: the sum is what may wrap. -/
theorem roundUpPageSize_dvd (size pageSize : Word) :
    pageSize.toNat ∣ (roundUpPageSize size pageSize).toNat := by
  let x := size + pageSize - 1
  have hle : x.toNat / pageSize.toNat * pageSize.toNat ≤ x.toNat := Nat.div_mul_le_self ..
  have hlt := x.isLt
  have hval : (roundUpPageSize size pageSize).toNat =
      x.toNat / pageSize.toNat * pageSize.toNat := by
    show (x / pageSize * pageSize).toNat = _
    rw [BitVec.toNat_mul, BitVec.toNat_udiv, Nat.mod_eq_of_lt (by omega)]
  rw [hval]
  exact Nat.dvd_mul_left ..

theorem getStackSize_dvd {e : Env} {pageSize : Word} (h : e.pageSize = some pageSize) :
    pageSize.toNat ∣ (getStackSize e).toNat := by
  unfold getStackSize
  rw [h]
  exact roundUpPageSize_dvd ..

theorem enroll_ctx {ι M : Type} (S : SchedulerPtr ι → Scheduler M) (t : Ptr) (s : State ι M) :
    (enroll S t s).ctx = s.ctx := by
  show (insertLive t s).ctx = s.ctx
  unfold insertLive
  split_ifs <;> rfl

/-- The stacks of the library are such mappings, if `mmap` gives whole pages: of a new thread that
is to go on at `lwp_wrap`. -/
theorem lwpCreate_mapping {ι M : Type} (S : SchedulerPtr ι → Scheduler M) {e : Env}
    {t base pageSize : Word} (function argument : Word) (s : State ι M)
    (ht : e.thread = some t) (hpage : e.pageSize = some pageSize) (hsize : getStackSize e ≠ 0)
    (hbase : e.stack = some base) (hpages : 4096 ∣ pageSize.toNat)
    (haligned : pageSize.toNat ∣ base.toNat) (hspace : InSpace base.toNat (getStackSize e).toNat) :
    ∃ K : Mapping,
      (lwpCreate S e function argument s).2.ctx t =
        ⟨s.currTid, K.base, K.size, .wrap function argument, LWP_LIVE, 0⟩ := by
  refine ⟨⟨base, getStackSize e, pageSize.toNat, hpages, haligned, getStackSize_dvd hpage, hsize,
    hspace⟩, ?_⟩
  unfold lwpCreate
  rw [ht, hbase]
  dsimp only
  rw [if_neg hsize, enroll_ctx]
  exact (Core.setCtx_ctx ..).trans (if_pos rfl)

/-- What the linker and `fp.h` give: the addresses of `lwp_exit` and `lwp_wrap`, and `FPU_INIT`. -/
structure Symbols where
  lwpExit : Word
  lwpWrap : Word
  fpuInit : Fpu

/-- What `lwp_create (function, argument)` stores, with `state` the address of
`new_thread->state`. -/
def initContext (I : Symbols) (K : Mapping) (function argument state : Word) (m : Mem) : Mem :=
  let m := setWord m K.lwpExitReturnPointer.toNat I.lwpExit
  -- return to wrapper
  let m := setWord m K.wrapperReturnPointer.toNat I.lwpWrap
  let m := setWord m K.savedBpPointer.toNat FAKE_SAVED_BP
  let m := setWord m (state.toNat + slot .rdi) function
  let m := setWord m (state.toNat + slot .rsi) argument
  let m := setWord m (state.toNat + slot .rsp) K.savedBpPointer
  let m := setWord m (state.toNat + slot .rbp) K.savedBpPointer
  setImage m (state.toNat + FXSAVE) I.fpuInit

section Creation

variable {I : Symbols} {K : Mapping} {function argument state : Word} {m : Mem}

def initWords (I : Symbols) (K : Mapping) (function argument state : Word) : List (ℕ × Word) :=
  [ (K.lwpExitReturnPointer.toNat, I.lwpExit),
    (K.wrapperReturnPointer.toNat, I.lwpWrap),
    (K.savedBpPointer.toNat, FAKE_SAVED_BP),
    (state.toNat + slot .rdi, function),
    (state.toNat + slot .rsi, argument),
    (state.toNat + slot .rsp, K.savedBpPointer),
    (state.toNat + slot .rbp, K.savedBpPointer) ]

theorem initContext_eq : initContext I K function argument state m =
    setImage (setWords (initWords I K function argument state) m) (state.toNat + FXSAVE) I.fpuInit :=
  rfl

theorem initWords_apart (h : Apart state.toNat RFILE_SIZE K.base.toNat K.size.toNat) :
    (initWords I K function argument state).Pairwise fun d e => Apart d.1 8 e.1 8 := by
  have hsize := K.page_le
  unfold Apart RFILE_SIZE at h
  simp only [initWords, K.lwpExitReturnPointer_toNat, K.wrapperReturnPointer_toNat,
    K.savedBpPointer_toNat, slot, Apart, List.pairwise_cons, List.mem_cons, List.not_mem_nil,
    forall_eq_or_imp, or_false, forall_eq, false_imp_iff, implies_true, List.Pairwise.nil, and_true]
  omega

/-- The words of the new context are in the registers of its `rfile` and in its frame. -/
theorem initWords_where : ∀ e ∈ initWords I K function argument state,
    (state.toNat ≤ e.1 ∧ e.1 + 8 ≤ state.toNat + FXSAVE) ∨
      (K.savedBpPointer.toNat ≤ e.1 ∧ e.1 + 8 ≤ K.savedBpPointer.toNat + 24) := by
  have hsize := K.page_le
  simp only [initWords, K.lwpExitReturnPointer_toNat, K.wrapperReturnPointer_toNat,
    K.savedBpPointer_toNat, slot, FXSAVE, List.mem_cons, List.not_mem_nil, forall_eq_or_imp,
    or_false, forall_eq]
  omega

/-- Every word is still there after the last store. -/
theorem word_initContext (h : Apart state.toNat RFILE_SIZE K.base.toNat K.size.toNat) :
    ∀ e ∈ initWords I K function argument state,
      word (initContext I K function argument state m) e.1 = e.2 := by
  intro e he
  have hfx : Apart (state.toNat + FXSAVE) 512 e.1 8 := by
    have hsize := K.page_le
    have hptr := K.savedBpPointer_toNat
    have hwhere := initWords_where e he
    unfold Apart RFILE_SIZE FXSAVE at *
    omega
  rw [initContext_eq, word_congr (sameOn_setImage hfx), word_setWords (initWords_apart h) e he]

/-- The new thread's context is as `lwp_create` left it: its `rfile` and its three words of stack. -/
def Prepared (I : Symbols) (K : Mapping) (function argument state : Word) (m : Mem) : Prop :=
  ∃ m₀, SameOn state.toNat RFILE_SIZE (initContext I K function argument state m₀) m ∧
    SameOn K.savedBpPointer.toNat 24 (initContext I K function argument state m₀) m

/-- `old`, `new`, the words the caller has at the top of its stack and the new stack do not
overlap. -/
structure Separate (s : Machine) (old new : Word) (K : Mapping) : Prop where
  new_stack : Apart new.toNat RFILE_SIZE K.base.toNat K.size.toNat
  spares_new : Spares s old new.toNat RFILE_SIZE
  spares_stack : Spares s old K.base.toNat K.size.toNat
  old_frame : old ≠ 0 → Apart old.toNat RFILE_SIZE ((s.reg .rsp).toNat - 8) 16

/-- The words of a prepared context. -/
theorem Prepared.words (h : Prepared I K function argument state m)
    (hsep : Apart state.toNat RFILE_SIZE K.base.toNat K.size.toNat) :
    ∀ e ∈ initWords I K function argument state, word m e.1 = e.2 := by
  obtain ⟨m₀, hrfile, hstack⟩ := h
  intro e he
  rw [← word_initContext (m := m₀) hsep e he]
  rcases initWords_where e he with ⟨h1, h2⟩ | ⟨h1, h2⟩
  · exact word_congr (hrfile.mono h1 (by unfold FXSAVE RFILE_SIZE at *; omega))
  · exact word_congr (hstack.mono h1 h2)

theorem Prepared.fxsave (h : Prepared I K function argument state m) :
    image m (state.toNat + FXSAVE) = I.fpuInit := by
  obtain ⟨m₀, hrfile, -⟩ := h
  have hfx := hrfile.mono (b := state.toNat + FXSAVE) (k := 512) (Nat.le_add_right ..)
    (by unfold FXSAVE RFILE_SIZE; omega)
  rw [image_congr hfx, initContext_eq, image_setImage]

/-- **The first switch to a new thread**: at `lwp_wrap`, as if called from `lwp_exit`. -/
theorem started {s : Machine} {old new : Word} (hc : Called s old new)
    (hprep : Prepared I K function argument new s.mem) (hsep : Separate s old new K) :
    ∃ s₁, Returns swapRfiles 0 s I.lwpWrap s₁ ∧ s₁.reg .rdi = function ∧ s₁.reg .rsi = argument ∧
      s₁.reg .rbp = 0 ∧ s₁.reg .rsp = K.alignedStackTop - 8 ∧
      word s₁.mem (s₁.reg .rsp).toNat = I.lwpExit ∧ s₁.fpu = I.fpuInit ∧
      s₁.mem = switchMem s old := by
  have hwords := hprep.words hsep.new_stack
  simp only [initWords, List.mem_cons, forall_eq_or_imp] at hwords
  obtain ⟨hexit, hwrap, hbp, hrdi, hrsi, -, hrbp, -⟩ := hwords
  let regs : Reg → Word := fun r => word s.mem (new.toNat + slot r)
  have hrfile : RfileAt s.mem new.toNat regs I.fpuInit := ⟨fun _ => rfl, hprep.fxsave⟩
  have hsize := K.page_le
  have hspace : K.base.toNat + K.size.toNat ≤ 2 ^ 64 := K.inSpace
  have htop := K.lwpExitReturnPointer_toNat
  have hmid := K.wrapperReturnPointer_toNat
  have hptr := K.savedBpPointer_toNat
  have hregs : regs .rbp = K.savedBpPointer := hrbp
  have hspare : ∀ {a n}, K.base.toNat ≤ a → a + n ≤ K.base.toNat + K.size.toNat → Spares s old a n :=
    fun h1 h2 => hsep.spares_stack.mono h1 h2
  obtain ⟨s₁, hret, hreg, hfpu, hmem⟩ := swap_returns hc hrfile hsep.spares_new
    (by rw [hregs]; unfold InSpace; omega) (by rw [hregs]; exact hspare (by omega) (by omega))
  have hsp : s₁.reg .rsp = K.lwpExitReturnPointer := by
    have hsum : K.savedBpPointer + 16 = K.lwpExitReturnPointer := by bv_omega
    rw [hreg, update_of_ne (by decide), update_self, hregs, hsum]
  have hra : (regs .rbp).toNat + 8 = K.wrapperReturnPointer.toNat := by
    rw [hregs]
    omega
  rw [hra, hwrap] at hret
  refine ⟨s₁, hret, ?_, ?_, ?_, ?_, ?_, hfpu, hmem⟩
  · rw [hreg]
    exact hrdi
  · rw [hreg]
    exact hrsi
  · rw [hreg, update_self, hregs]
    exact hbp
  · rw [hsp, Mapping.lwpExitReturnPointer, atOffset, BitVec.sub_eq_add_neg]
    rfl
  · rw [hsp, hmem, word_congr (switchMem_sameOn (hspare (by omega) (by omega)))]
    exact hexit

end Creation

/-- For every stack and every machine that calls `swap_rfiles (old, new)` with a new thread's
context: the frame of `lwp_create` is in the mapping, the code returns to `lwp_wrap` with its two
arguments and a stack as after a call from `lwp_exit`, and a later switch back to `old` returns to
the caller with all its registers. -/
theorem swap_starts_and_resumes (I : Symbols) (K : Mapping) (function argument old new : Word)
    (s : Machine) (hc : Called s old new) (hprep : Prepared I K function argument new s.mem)
    (hsep : Separate s old new K) :
    (K.Contains K.lwpExitReturnPointer ∧ K.Contains K.wrapperReturnPointer ∧
      K.Contains K.savedBpPointer) ∧
    ∃ s₁, Returns swapRfiles 0 s I.lwpWrap s₁ ∧
      (s₁.reg .rdi = function ∧ s₁.reg .rsi = argument ∧ s₁.reg .rbp = 0 ∧
        s₁.reg .rsp = K.alignedStackTop - 8 ∧ (s₁.reg .rsp).toNat % 16 = 8 ∧
        word s₁.mem (s₁.reg .rsp).toNat = I.lwpExit ∧ s₁.fpu = I.fpuInit) ∧
      ∀ s₂ old₂, old ≠ 0 → Called s₂ old₂ old → Spares s₂ old₂ old.toNat RFILE_SIZE →
        Spares s₂ old₂ ((s.reg .rsp).toNat - 8) 16 → SameOn old.toNat RFILE_SIZE s₁.mem s₂.mem →
        SameOn ((s.reg .rsp).toNat - 8) 16 s₁.mem s₂.mem →
        ∃ s₃, Returns swapRfiles 0 s₂ (word s.mem (s.reg .rsp).toNat) s₃ ∧
          s₃.reg .rsp = s.reg .rsp + 8 ∧ (∀ r, r ≠ .rsp → s₃.reg r = s.reg r) ∧
          s₃.fpu = s.fpu := by
  obtain ⟨s₁, hret, hrdi, hrsi, hrbp, hrsp, hexit, hfpu, hmem⟩ := started hc hprep hsep
  refine ⟨K.contains_frame, s₁, hret, ⟨hrdi, hrsi, hrbp, hrsp, ?_, hexit, hfpu⟩, ?_⟩
  · rw [hrsp]
    exact K.alignedStackTop_sub
  · intro s₂ old₂ hnull hc₂ hspare hstack hkept hwords
    rw [hmem] at hkept hwords
    obtain ⟨s₃, hret₃, hreg, hfpu₃⟩ :=
      resumed hc hnull (hsep.old_frame hnull) hc₂ hspare hstack hkept hwords
    refine ⟨s₃, hret₃, ?_, fun r hr => ?_, hfpu₃⟩
    · rw [hreg, update_self]
    · rw [hreg, update_of_ne hr]

/-- One page of stack at 65536; `old` is at 4096, `new` at 8192, the caller's stack at 131072. -/
def onePage : Mapping where
  base := 65536
  size := 4096
  pageSize := 4096
  pages := by decide
  base_pages := by decide
  size_pages := by decide
  nonempty := by decide
  inSpace := by decide

def onePageSymbols : Symbols := ⟨16, 32, fun _ => 0⟩

def onePageCall : Machine where
  reg
    | .rdi => 4096
    | .rsi => 8192
    | .rsp => 131072
    | _ => 5
  zf := false
  fpu := fun _ => 0
  mem := initContext onePageSymbols onePage 1 2 8192 fun _ => 0

theorem swap_starts_and_resumes_onePage : ∃ s₁ s₂ s₃,
    Returns swapRfiles 0 onePageCall 32 s₁ ∧ s₁.reg .rdi = 1 ∧ s₁.reg .rsp = 69624 ∧
      s₂.mem = s₁.mem ∧ Returns swapRfiles 0 s₂ (word onePageCall.mem 131072) s₃ ∧
      s₃.reg .rsp = 131080 ∧ s₃.reg .rbx = 5 := by
  have hold : IsRfile 4096 := ⟨by decide, by decide, by decide⟩
  have hnew : IsRfile 8192 := ⟨by decide, by decide, by decide⟩
  obtain ⟨-, s₁, hret, ⟨hrdi, -, -, hrsp, -⟩, hback⟩ :=
    swap_starts_and_resumes onePageSymbols onePage 1 2 4096 8192 onePageCall
      ⟨rfl, rfl, by decide, by decide, fun _ => hold, hnew⟩
      ⟨fun _ => 0, SameOn.refl _ _ _, SameOn.refl _ _ _⟩
      ⟨by decide, by decide, by decide, fun _ => by decide⟩
  -- the new thread switches back at once
  let s₂ : Machine := (s₁.setReg .rdi 8192).setReg .rsi 4096
  have hrsp₂ : s₂.reg .rsp = 69624 := hrsp
  obtain ⟨s₃, hret₃, hrsp₃, hreg₃, -⟩ := hback s₂ 8192 (by decide)
    ⟨rfl, rfl, by rw [hrsp₂]; decide, by rw [hrsp₂]; decide, fun _ => hnew, hold⟩
    (by rw [Spares, hrsp₂]; decide) (by rw [Spares, hrsp₂]; decide)
    (SameOn.refl _ _ _) (SameOn.refl _ _ _)
  refine ⟨s₁, s₂, s₃, hret, hrdi, hrsp, rfl, hret₃, hrsp₃, hreg₃ .rbx (by decide)⟩

end Csc453.Lwp
