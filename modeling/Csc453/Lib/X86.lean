import Csc453.Lib.Bytes

/-!
# A fragment of x86-64

The moves, stack operations and branches that context switches are written in, over the sixteen
general registers, the zero flag, a byte memory and the state of the floating point unit, which is an
opaque block of 512 bytes.  `exec` runs one instruction and fails on a fault: an access that leaves
the address space, or an unaligned `fxsave` or `fxrstor`.  `Returns code pc s ra s'`: from position
`pc` the code reaches a `ret`, which goes to `ra` in the state `s'`.

`returns_block` runs a straight piece of code at once, `returns_test_ne` and `returns_test_eq` a test
for zero, `execs_stores` and `execs_loads` a table of registers saved to or loaded from places behind
a pointer.
-/

namespace X86

open Bytes

abbrev Word := BitVec 64

inductive Reg
  | rax | rbx | rcx | rdx | rsi | rdi | rbp | rsp
  | r8 | r9 | r10 | r11 | r12 | r13 | r14 | r15
  deriving DecidableEq

/-- The 512 bytes of `fxsave`. -/
abbrev Fpu := Fin 512 → UInt8

structure Machine where
  reg : Reg → Word
  zf : Bool
  fpu : Fpu
  mem : Mem

inductive Instr
  | push (r : Reg)
  /-- `mov d s`: `d := s`. -/
  | mov (d s : Reg)
  /-- `cmp $0, r`. -/
  | cmpZero (r : Reg)
  /-- To the instruction at this position. -/
  | je (target : ℕ)
  | lea (d : Reg) (off : ℕ) (b : Reg)
  /-- `mov r, off(b)`. -/
  | store (r : Reg) (off : ℕ) (b : Reg)
  /-- `mov off(b), r`. -/
  | load (r : Reg) (off : ℕ) (b : Reg)
  | fxsave (b : Reg)
  | fxrstor (b : Reg)
  | leave
  | ret

/-! ### Memory -/

/-- The word at address `a`. -/
def word (m : Mem) (a : ℕ) : Word := BitVec.ofNat 64 (load m a 8)

def setWord (m : Mem) (a : ℕ) (v : Word) : Mem := Bytes.store m a 8 v.toNat

/-- The block of the floating point unit at address `a`. -/
def image (m : Mem) (a : ℕ) : Fpu := fun i => m (a + i)

def setImage (m : Mem) (a : ℕ) (f : Fpu) : Mem :=
  fun x => if h : a ≤ x ∧ x < a + 512 then f ⟨x - a, by omega⟩ else m x

/-- `n` bytes at `a` are inside the address space. -/
def InSpace (a n : ℕ) : Prop := a + n ≤ 2 ^ 64

instance (a n : ℕ) : Decidable (InSpace a n) := Nat.decLe _ _

/-- `m'` has the bytes of `m` from `a` to `a + n`. -/
def SameOn (a n : ℕ) (m m' : Mem) : Prop := ∀ x, a ≤ x → x < a + n → m' x = m x

/-- The two ranges do not overlap. -/
def Apart (a n b k : ℕ) : Prop := a + n ≤ b ∨ b + k ≤ a

instance (a n b k : ℕ) : Decidable (Apart a n b k) := inferInstanceAs (Decidable (_ ∨ _))

section Memory

variable {m m' : Mem} {a b n k x : ℕ} {v : Word} {f : Fpu}

theorem word_setWord : word (setWord m a v) a = v := by
  unfold word setWord
  rw [load_store, Nat.mod_eq_of_lt (show v.toNat < 256 ^ 8 from v.isLt), BitVec.ofNat_toNat,
    BitVec.setWidth_eq]

theorem setWord_outside (h : x < a ∨ a + 8 ≤ x) : setWord m a v x = m x := store_outside h

theorem word_congr (h : SameOn a 8 m m') : word m' a = word m a := by
  unfold word
  rw [load_congr h]

theorem image_setImage : image (setImage m a f) a = f := by
  funext i
  have hi := i.isLt
  unfold image setImage
  rw [dif_pos ⟨by omega, by omega⟩]
  congr 1
  exact Fin.ext (Nat.add_sub_cancel_left a i)

theorem setImage_outside (h : x < a ∨ a + 512 ≤ x) : setImage m a f x = m x := dif_neg (by omega)

theorem image_congr (h : SameOn a 512 m m') : image m' a = image m a := by
  funext i
  exact h _ (Nat.le_add_right a i) (Nat.add_lt_add_left i.isLt a)

theorem SameOn.refl (a n : ℕ) (m : Mem) : SameOn a n m m := fun _ _ _ => rfl

theorem SameOn.trans {m'' : Mem} (h : SameOn a n m m') (h' : SameOn a n m' m'') : SameOn a n m m'' :=
  fun x h1 h2 => (h' x h1 h2).trans (h x h1 h2)

theorem SameOn.mono (h : SameOn a n m m') (hb : a ≤ b) (hk : b + k ≤ a + n) : SameOn b k m m' :=
  fun x h1 h2 => h x (by omega) (by omega)

theorem Apart.symm (h : Apart a n b k) : Apart b k a n := Or.symm h

theorem Apart.mono {a' n' : ℕ} (h : Apart a n b k) (ha : a ≤ a') (hn : a' + n' ≤ a + n) :
    Apart a' n' b k := by
  unfold Apart at *
  omega

theorem sameOn_setWord (h : Apart a 8 b n) : SameOn b n m (setWord m a v) := by
  intro x h1 h2
  unfold Apart at h
  exact setWord_outside (by omega)

theorem sameOn_setImage (h : Apart a 512 b n) : SameOn b n m (setImage m a f) := by
  intro x h1 h2
  unfold Apart at h
  exact setImage_outside (by omega)

end Memory

/-! ### Execution -/

namespace Machine

def setReg (s : Machine) (r : Reg) (v : Word) : Machine := { s with reg := Function.update s.reg r v }

/-- The word at `a`, if it is there. -/
def read (s : Machine) (a : Word) : Option Word :=
  if InSpace a.toNat 8 then some (word s.mem a.toNat) else none

def write (s : Machine) (a v : Word) : Option Machine :=
  if InSpace a.toNat 8 then some { s with mem := setWord s.mem a.toNat v } else none

/-- The word at the top of the stack, taken off. -/
def pop (s : Machine) : Option (Word × Machine) :=
  (s.read (s.reg .rsp)).map fun v => (v, s.setReg .rsp (s.reg .rsp + 8))

variable (s : Machine) {r d : Reg} {a v : Word}

@[simp] theorem setReg_self : (s.setReg r v).reg r = v := Function.update_self ..

@[simp] theorem setReg_of_ne (h : r ≠ d) : (s.setReg d v).reg r = s.reg r := Function.update_of_ne h ..

@[simp] theorem setReg_setReg {w : Word} : (s.setReg r v).setReg r w = s.setReg r w := by
  simp [setReg]

theorem setReg_comm {w : Word} (h : r ≠ d) :
    (s.setReg r v).setReg d w = (s.setReg d w).setReg r v := by
  simp [setReg, Function.update_comm h]

theorem read_eq (h : InSpace a.toNat 8) : s.read a = some (word s.mem a.toNat) := if_pos h

theorem write_eq (h : InSpace a.toNat 8) :
    s.write a v = some { s with mem := setWord s.mem a.toNat v } := if_pos h

end Machine

/-- One instruction; the branches are in `run`. -/
def exec : Instr → Machine → Option Machine
  | .push r, s => (s.setReg .rsp (s.reg .rsp - 8)).write (s.reg .rsp - 8) (s.reg r)
  | .mov d r, s => some (s.setReg d (s.reg r))
  | .cmpZero r, s => some { s with zf := s.reg r = 0 }
  | .lea d off b, s => some (s.setReg d (s.reg b + BitVec.ofNat 64 off))
  | .store r off b, s => s.write (s.reg b + BitVec.ofNat 64 off) (s.reg r)
  | .load r off b, s => (s.read (s.reg b + BitVec.ofNat 64 off)).map fun v => s.setReg r v
  | .fxsave b, s =>
    let a := (s.reg b).toNat
    if a % 16 = 0 ∧ InSpace a 512 then some { s with mem := setImage s.mem a s.fpu } else none
  | .fxrstor b, s =>
    let a := (s.reg b).toNat
    if a % 16 = 0 ∧ InSpace a 512 then some { s with fpu := image s.mem a } else none
  | .leave, s => (s.setReg .rsp (s.reg .rbp)).pop.map fun p => p.2.setReg .rbp p.1
  | .je _, _ => none
  | .ret, _ => none

/-- The code from position `pc` on, with fuel, up to the address it returns to. -/
def run (code : List Instr) : ℕ → ℕ → Machine → Option (Word × Machine)
  | 0, _, _ => none
  | fuel + 1, pc, s =>
    match code[pc]? with
    | none => none
    | some .ret => s.pop
    | some (.je target) => run code fuel (if s.zf then target else pc + 1) s
    | some i => exec i s >>= run code fuel (pc + 1)

def execs : List Instr → Machine → Option Machine
  | [], s => some s
  | i :: is, s => exec i s >>= execs is

/-- From position `pc` the code returns to `ra` in the state `s'`. -/
def Returns (code : List Instr) (pc : ℕ) (s : Machine) (ra : Word) (s' : Machine) : Prop :=
  ∃ fuel, run code fuel pc s = some (ra, s')

section Rules

variable {code : List Instr} {pc : ℕ} {s t s' : Machine} {ra : Word}

theorem returns_ret (hc : code[pc]? = some .ret) (hp : s.pop = some (ra, s')) :
    Returns code pc s ra s' := by
  refine ⟨1, ?_⟩
  unfold run
  rw [hc]
  exact hp

theorem returns_je {target : ℕ} (hc : code[pc]? = some (.je target))
    (h : Returns code (if s.zf then target else pc + 1) s ra s') : Returns code pc s ra s' := by
  obtain ⟨fuel, hf⟩ := h
  refine ⟨fuel + 1, ?_⟩
  rw [run, hc]
  exact hf

theorem returns_step {i : Instr} (hc : code[pc]? = some i) (hi : exec i s = some t)
    (h : Returns code (pc + 1) t ra s') : Returns code pc s ra s' := by
  obtain ⟨fuel, hf⟩ := h
  refine ⟨fuel + 1, ?_⟩
  rw [run, hc]
  cases i with
  | je target => cases hi
  | ret => cases hi
  | _ =>
    dsimp only
    rw [hi]
    exact hf

/-- A test for zero that is not taken. -/
theorem returns_test_ne {r : Reg} {target : ℕ} (hc : code[pc]? = some (.cmpZero r))
    (hj : code[pc + 1]? = some (.je target)) (hr : s.reg r ≠ 0)
    (h : Returns code (pc + 2) { s with zf := false } ra s') : Returns code pc s ra s' := by
  refine returns_step (t := { s with zf := false }) hc ?_ (returns_je hj h)
  show some { s with zf := decide (s.reg r = 0) } = _
  rw [decide_eq_false hr]

theorem returns_test_eq {r : Reg} {target : ℕ} (hc : code[pc]? = some (.cmpZero r))
    (hj : code[pc + 1]? = some (.je target)) (hr : s.reg r = 0)
    (h : Returns code target { s with zf := true } ra s') : Returns code pc s ra s' := by
  refine returns_step (t := { s with zf := true }) hc ?_ (returns_je hj h)
  show some { s with zf := decide (s.reg r = 0) } = _
  rw [decide_eq_true hr]

/-- **Block rule**: straight code runs at once. -/
theorem returns_block {block rest : List Instr} (hc : code.drop pc = block ++ rest)
    (hb : execs block s = some t) (h : Returns code (pc + block.length) t ra s') :
    Returns code pc s ra s' := by
  induction block generalizing pc s with
  | nil =>
    obtain rfl := Option.some.inj hb
    exact h
  | cons i block ih =>
    obtain ⟨s₁, hs₁, hb'⟩ := Option.bind_eq_some_iff.mp hb
    have hi : code[pc]? = some i := by
      rw [← List.head?_drop, hc]
      rfl
    have hrest : code.drop (pc + 1) = block ++ rest := by
      rw [← List.tail_drop, hc]
      rfl
    refine returns_step hi hs₁ (ih hrest hb' ?_)
    rwa [Nat.add_assoc, Nat.add_comm 1]

end Rules

/-! ### Single instructions -/

section Single

variable {s : Machine} {r b : Reg} {off : ℕ} {w : Word}

theorem toNat_offset (h : InSpace (w.toNat + off) 8) :
    (w + BitVec.ofNat 64 off).toNat = w.toNat + off := by
  unfold InSpace at h
  rw [BitVec.toNat_add, BitVec.toNat_ofNat, Nat.add_mod_mod, Nat.mod_eq_of_lt (by omega)]

theorem exec_push (h : 8 ≤ (s.reg .rsp).toNat) :
    exec (.push r) s =
      some { s.setReg .rsp (s.reg .rsp - 8) with
        mem := setWord s.mem ((s.reg .rsp).toNat - 8) (s.reg r) } := by
  have hsub : (s.reg .rsp - 8).toNat = (s.reg .rsp).toNat - 8 := by bv_omega
  have hin : InSpace (s.reg .rsp - 8).toNat 8 := by
    unfold InSpace
    omega
  show (s.setReg .rsp (s.reg .rsp - 8)).write (s.reg .rsp - 8) (s.reg r) = _
  rw [Machine.write_eq _ hin, hsub]
  rfl

theorem exec_store (h : InSpace ((s.reg b).toNat + off) 8) :
    exec (.store r off b) s =
      some { s with mem := setWord s.mem ((s.reg b).toNat + off) (s.reg r) } := by
  show s.write (s.reg b + BitVec.ofNat 64 off) (s.reg r) = _
  rw [Machine.write_eq, toNat_offset h]
  rwa [toNat_offset h]

theorem exec_load (h : InSpace ((s.reg b).toNat + off) 8) :
    exec (.load r off b) s = some (s.setReg r (word s.mem ((s.reg b).toNat + off))) := by
  show (s.read (s.reg b + BitVec.ofNat 64 off)).map _ = _
  rw [Machine.read_eq, toNat_offset h]
  · rfl
  · rwa [toNat_offset h]

theorem exec_fxsave (ha : (s.reg b).toNat % 16 = 0) (h : InSpace (s.reg b).toNat 512) :
    exec (.fxsave b) s = some { s with mem := setImage s.mem (s.reg b).toNat s.fpu } :=
  if_pos ⟨ha, h⟩

theorem exec_fxrstor (ha : (s.reg b).toNat % 16 = 0) (h : InSpace (s.reg b).toNat 512) :
    exec (.fxrstor b) s = some { s with fpu := image s.mem (s.reg b).toNat } :=
  if_pos ⟨ha, h⟩

theorem Machine.pop_eq (h : InSpace (s.reg .rsp).toNat 8) :
    s.pop = some (word s.mem (s.reg .rsp).toNat, s.setReg .rsp (s.reg .rsp + 8)) := by
  rw [pop, s.read_eq h]
  rfl

theorem exec_leave (h : InSpace (s.reg .rbp).toNat 8) :
    exec .leave s =
      some ((s.setReg .rsp (s.reg .rbp + 8)).setReg .rbp (word s.mem (s.reg .rbp).toNat)) := by
  have hrsp : (s.setReg .rsp (s.reg .rbp)).reg .rsp = s.reg .rbp := s.setReg_self
  show (s.setReg .rsp (s.reg .rbp)).pop.map _ = _
  rw [Machine.pop_eq (by rwa [hrsp]), hrsp]
  simp [Machine.setReg]

end Single

/-! ### Tables of words and registers -/

/-- Stores of words, address first. -/
def setWords (l : List (ℕ × Word)) (m : Mem) : Mem := l.foldl (fun m e => setWord m e.1 e.2) m

section Tables

variable {l : List (ℕ × Word)} {tbl : List (Reg × ℕ)} {m : Mem} {a n : ℕ} {f : Reg → Word} {b : Reg}
  {s : Machine}

theorem setWords_sameOn (h : ∀ e ∈ l, Apart e.1 8 a n) : SameOn a n m (setWords l m) := by
  induction l generalizing m with
  | nil => exact SameOn.refl a n m
  | cons e l ih =>
    have hhead : Apart e.1 8 a n := h e (List.mem_cons_self ..)
    exact (sameOn_setWord hhead).trans (ih fun d hd => h d (List.mem_cons_of_mem e hd))

/-- Words that do not overlap are all there in the end. -/
theorem word_setWords (h : l.Pairwise fun d e => Apart d.1 8 e.1 8) :
    ∀ e ∈ l, word (setWords l m) e.1 = e.2 := by
  induction l generalizing m with
  | nil => exact fun _ he => absurd he List.not_mem_nil
  | cons d l ih =>
    obtain ⟨hd, hl⟩ := List.pairwise_cons.mp h
    intro e he
    rcases List.mem_cons.mp he with rfl | he
    · have hkept : SameOn e.1 8 (setWord m e.1 e.2) (setWords (e :: l) m) :=
        setWords_sameOn fun c hc => (hd c hc).symm
      rw [word_congr hkept, word_setWord]
    · exact ih hl e he

theorem execs_stores (h : ∀ e ∈ tbl, InSpace ((s.reg b).toNat + e.2) 8) :
    execs (tbl.map fun e => .store e.1 e.2 b) s =
      some { s with mem := setWords (tbl.map fun e => ((s.reg b).toNat + e.2, s.reg e.1)) s.mem } := by
  induction tbl generalizing s with
  | nil => rfl
  | cons e tbl ih =>
    show exec (.store e.1 e.2 b) s >>= execs (tbl.map fun e => .store e.1 e.2 b) = _
    rw [exec_store (h e (List.mem_cons_self ..))]
    exact ih fun d hd => h d (List.mem_cons_of_mem e hd)

/-- Loads through a register that is not loaded itself. -/
theorem execs_loads (h : ∀ e ∈ tbl, InSpace ((s.reg b).toNat + e.2) 8) (hb : ∀ e ∈ tbl, e.1 ≠ b)
    (hf : ∀ e ∈ tbl, word s.mem ((s.reg b).toNat + e.2) = f e.1) :
    execs (tbl.map fun e => .load e.1 e.2 b) s =
      some { s with reg := fun r => if r ∈ tbl.map Prod.fst then f r else s.reg r } := by
  induction tbl generalizing s with
  | nil => rfl
  | cons e tbl ih =>
    have hhead : e ∈ e :: tbl := List.mem_cons_self ..
    have htail : ∀ d ∈ tbl, d ∈ e :: tbl := fun d => List.mem_cons_of_mem e
    have hbase : (s.setReg e.1 (f e.1)).reg b = s.reg b := s.setReg_of_ne (hb e hhead).symm
    show exec (.load e.1 e.2 b) s >>= execs (tbl.map fun e => .load e.1 e.2 b) = _
    rw [exec_load (h e hhead), hf e hhead]
    refine (ih ?_ ?_ ?_).trans ?_
    · rw [hbase]
      exact fun d hd => h d (htail d hd)
    · exact fun d hd => hb d (htail d hd)
    · rw [hbase]
      exact fun d hd => hf d (htail d hd)
    · congr 2
      funext r
      by_cases hr : r = e.1
      · simp [hr]
      · have hmem : r ∈ tbl.map Prod.fst ↔ r ∈ (e :: tbl).map Prod.fst := by simp [hr]
        rw [Machine.setReg_of_ne s hr]
        exact if_congr hmem rfl rfl

end Tables

end X86
