import Csc453.Malloc.Allocator
import Csc453.Lib.Coalesce

/-!
# Csc453.Malloc.Blocks — the block list as a list

`Seg A m p L q`: from `p` the links in memory visit the blocks `L` and arrive at `q`; `Chain` is a
whole list, down to `NULL`.  A store into one header leaves the others alone, and a store outside
all headers leaves the list alone (`Seg.congr`).
-/

namespace Csc453.Malloc

open Bytes Coalesce

/-! ### Words -/

namespace Abi

variable (A : Abi)

theorem sizes : (A.wordBytes = 4 ∧ A.space = 4294967296 ∧ A.headerSize = 16) ∨
    (A.wordBytes = 8 ∧ A.space = 18446744073709551616 ∧ A.headerSize = 32) := by
  rcases A with ⟨w, rfl | rfl⟩
  · exact Or.inl ⟨rfl, by norm_num [space], by norm_num [headerSize, roundUp16, add, sizeofBlockHeader, space]⟩
  · exact Or.inr ⟨rfl, by norm_num [space], by norm_num [headerSize, roundUp16, add, sizeofBlockHeader, space]⟩

theorem header_facts : 3 * A.wordBytes ≤ A.headerSize ∧ A.headerSize % 16 = 0 ∧ 16 ≤ A.headerSize ∧
    A.headerSize ≤ 32 ∧ 4 ≤ A.wordBytes := by
  have := A.sizes
  omega

theorem space_facts : 4294967296 ≤ A.space ∧ A.space % 32 = 0 := by
  have := A.sizes
  omega

variable {A} {a b : ℕ}

theorem add_eq (h : a + b < A.space) : A.add a b = a + b := Nat.mod_eq_of_lt h

theorem sub_eq (hb : b ≤ a) (ha : a < A.space) : A.sub a b = a - b := by
  unfold sub
  rw [show a + (A.space - b) = a - b + A.space by omega, Nat.add_mod_right]
  exact Nat.mod_eq_of_lt (by omega)

theorem roundUp16_eq (h : a + 15 < A.space) : A.roundUp16 a = (a + 15) / 16 * 16 := by
  unfold roundUp16
  rw [add_eq h]

theorem signed_eq (h : a ≤ A.ptrdiffMax) : A.signed a = a := if_pos h

end Abi

/-! ### Headers in memory -/

section Header

variable {A : Abi} {m m' : Mem} {b : ℕ}

/-- `m'` has the bytes of `m` in the header at `b`. -/
def SameHeader (A : Abi) (m m' : Mem) (b : ℕ) : Prop :=
  ∀ x, b ≤ x → x < b + A.headerSize → m' x = m x

theorem SameHeader.capacity (h : SameHeader A m m' b) : A.payloadCapacity m' b = A.payloadCapacity m b := by
  have := A.header_facts
  exact load_congr fun x h1 h2 => h x h1 (by omega)

theorem SameHeader.free (h : SameHeader A m m' b) : A.isFree m' b = A.isFree m b := by
  have := A.header_facts
  unfold Abi.isFree
  rw [h _ (by omega) (by omega)]

theorem SameHeader.next (h : SameHeader A m m' b) : A.nextBlockHeader m' b = A.nextBlockHeader m b := by
  have := A.header_facts
  exact load_congr fun x h1 h2 => h x (by omega) (by omega)

theorem SameHeader.trans {m'' : Mem} (h : SameHeader A m m' b) (h' : SameHeader A m' m'' b) :
    SameHeader A m m'' b := fun x h1 h2 => (h' x h1 h2).trans (h x h1 h2)

theorem next_lt (m : Mem) (b : ℕ) : A.nextBlockHeader m b < A.space := load_lt ..

/-! A field store changes its field, keeps the two others and everything outside the header. -/

variable {v x : ℕ} {f : Bool}

theorem setCapacity_outside (h : x < b ∨ b + A.headerSize ≤ x) : A.setCapacity m b v x = m x := by
  have := A.header_facts
  exact store_outside (by omega)

theorem setFree_outside (h : x < b ∨ b + A.headerSize ≤ x) : A.setFree m b f x = m x := by
  have := A.header_facts
  exact store_outside (by omega)

theorem setNext_outside (h : x < b ∨ b + A.headerSize ≤ x) : A.setNext m b v x = m x := by
  have := A.header_facts
  exact store_outside (by omega)

theorem capacity_setCapacity (hv : v < A.space) : A.payloadCapacity (A.setCapacity m b v) b = v := by
  unfold Abi.payloadCapacity Abi.setCapacity
  rw [load_store]
  exact Nat.mod_eq_of_lt hv

@[simp] theorem capacity_setFree : A.payloadCapacity (A.setFree m b f) b = A.payloadCapacity m b :=
  load_congr fun x _ h2 => store_outside (by omega)

@[simp] theorem capacity_setNext : A.payloadCapacity (A.setNext m b v) b = A.payloadCapacity m b :=
  load_congr fun x _ h2 => store_outside (by omega)

@[simp] theorem isFree_setCapacity : A.isFree (A.setCapacity m b v) b = A.isFree m b := by
  unfold Abi.isFree Abi.setCapacity
  rw [store_outside (by omega)]

@[simp] theorem isFree_setFree : A.isFree (A.setFree m b f) b = f := by
  unfold Abi.isFree Abi.setFree store
  rw [if_pos ⟨le_rfl, by omega⟩, Nat.sub_self, pow_zero, Nat.div_one]
  cases f <;> decide

@[simp] theorem isFree_setNext : A.isFree (A.setNext m b v) b = A.isFree m b := by
  have := A.header_facts
  unfold Abi.isFree Abi.setNext
  rw [store_outside (by omega)]

@[simp] theorem next_setCapacity : A.nextBlockHeader (A.setCapacity m b v) b = A.nextBlockHeader m b :=
  load_congr fun x _ _ => store_outside (by omega)

@[simp] theorem next_setFree : A.nextBlockHeader (A.setFree m b f) b = A.nextBlockHeader m b := by
  have := A.header_facts
  exact load_congr fun x _ _ => store_outside (by omega)

theorem next_setNext (hv : v < A.space) : A.nextBlockHeader (A.setNext m b v) b = v := by
  unfold Abi.nextBlockHeader Abi.setNext
  rw [load_store]
  exact Nat.mod_eq_of_lt hv

/-- Two headers that do not overlap. -/
def ApartAt (A : Abi) (a b : ℕ) : Prop := a + A.headerSize ≤ b ∨ b + A.headerSize ≤ a

theorem sameHeader_setCapacity {c : ℕ} (h : ApartAt A b c) : SameHeader A m (A.setCapacity m b v) c :=
  fun x h1 h2 => setCapacity_outside (by unfold ApartAt at h; omega)

theorem sameHeader_setFree {c : ℕ} (h : ApartAt A b c) : SameHeader A m (A.setFree m b f) c :=
  fun x h1 h2 => setFree_outside (by unfold ApartAt at h; omega)

theorem sameHeader_setNext {c : ℕ} (h : ApartAt A b c) : SameHeader A m (A.setNext m b v) c :=
  fun x h1 h2 => setNext_outside (by unfold ApartAt at h; omega)

end Header

/-! ### Block lists -/

/-- What a header says. -/
structure Block where
  addr : ℕ
  cap : ℕ
  free : Bool
  deriving DecidableEq

namespace Block

variable (A : Abi)

def payload (b : Block) : ℕ := b.addr + A.headerSize

/-- The first address after the block. -/
def fin (b : Block) : ℕ := b.addr + A.headerSize + b.cap

def InHeader (b : Block) (x : ℕ) : Prop := b.addr ≤ x ∧ x < b.addr + A.headerSize

def InPayload (b : Block) (x : ℕ) : Prop := b.payload A ≤ x ∧ x < b.fin A

/-- The block that swallows the next one. -/
def join (b c : Block) : Block := { b with cap := b.cap + (A.headerSize + c.cap) }

end Block

variable {A : Abi} {m m' : Mem}

/-- Every maximal run of free blocks becomes one free block. -/
def merged (A : Abi) (L : List Block) : List Block := coalesce Block.free (Block.join A) L

theorem coalescing (A : Abi) : Coalescing Block.free (Block.join A) where
  keep _ _ ha _ := ha
  assoc a b c := by
    simp only [Block.join]
    congr 1
    omega

def NoAdjacentFree (L : List Block) : Prop := Separated Block.free L

/-- The header at `p` says `b`. -/
structure Header (A : Abi) (m : Mem) (p : ℕ) (b : Block) : Prop where
  addr : p = b.addr
  cap : A.payloadCapacity m p = b.cap
  free : A.isFree m p = b.free

/-- From `p` the links visit the blocks `L` and arrive at `q`. -/
def Seg (A : Abi) (m : Mem) : ℕ → List Block → ℕ → Prop
  | p, [], q => p = q
  | p, b :: L, q => p ≠ 0 ∧ Header A m p b ∧ Seg A m (A.nextBlockHeader m p) L q

/-- The whole list from `p`. -/
def Chain (A : Abi) (m : Mem) (p : ℕ) (L : List Block) : Prop := Seg A m p L 0

theorem Header.congr {p : ℕ} {b : Block} (h : Header A m p b) (hm : SameHeader A m m' p) :
    Header A m' p b :=
  ⟨h.addr, hm.capacity.trans h.cap, hm.free.trans h.free⟩

theorem Seg.congr {p q : ℕ} {L : List Block} (h : Seg A m p L q)
    (hm : ∀ b ∈ L, SameHeader A m m' b.addr) : Seg A m' p L q := by
  induction L generalizing p with
  | nil => exact h
  | cons b L ih =>
    obtain ⟨hp, hb, hL⟩ := h
    have hsame : SameHeader A m m' p := hb.addr ▸ hm b List.mem_cons_self
    refine ⟨hp, hb.congr hsame, ?_⟩
    rw [hsame.next]
    exact ih hL fun c hc => hm c (List.mem_cons_of_mem _ hc)

theorem Seg.append {p q r : ℕ} {L M : List Block} (h : Seg A m p L q) (h' : Seg A m q M r) :
    Seg A m p (L ++ M) r := by
  induction L generalizing p with
  | nil =>
    have hpq : p = q := h
    rw [hpq]
    exact h'
  | cons b L ih => exact ⟨h.1, h.2.1, ih h.2.2⟩

theorem Seg.split {p r : ℕ} {L M : List Block} (h : Seg A m p (L ++ M) r) :
    ∃ q, Seg A m p L q ∧ Seg A m q M r := by
  induction L generalizing p with
  | nil => exact ⟨p, rfl, h⟩
  | cons b L ih =>
    obtain ⟨hp, hb, hL⟩ := h
    obtain ⟨q, h1, h2⟩ := ih hL
    exact ⟨q, ⟨hp, hb, h1⟩, h2⟩

/-- A list determines its starting point, unless it is empty. -/
theorem Seg.head {p q : ℕ} {b : Block} {L : List Block} (h : Seg A m p (b :: L) q) : p = b.addr :=
  h.2.1.addr

theorem Seg.mid {p r : ℕ} {L M : List Block} {b : Block} (h : Seg A m p (L ++ b :: M) r) :
    Seg A m p L b.addr ∧ Seg A m b.addr (b :: M) r := by
  obtain ⟨q, h1, h2⟩ := h.split
  have hq : q = b.addr := h2.head
  rw [hq] at h1 h2
  exact ⟨h1, h2⟩

/-- The blocks of the list at `p`, read off the memory. -/
def readBlocks (A : Abi) (m : Mem) : ℕ → ℕ → Option (List Block)
  | 0, _ => none
  | fuel + 1, p =>
    if p = 0 then some []
    else (readBlocks A m fuel (A.nextBlockHeader m p)).map
      (⟨p, A.payloadCapacity m p, A.isFree m p⟩ :: ·)

theorem readBlocks_chain {fuel p : ℕ} {L : List Block} (h : readBlocks A m fuel p = some L) :
    Chain A m p L := by
  induction fuel generalizing p L with
  | zero => cases h
  | succ fuel ih =>
    unfold readBlocks at h
    by_cases hp : p = 0
    · rw [if_pos hp] at h
      obtain rfl := Option.some.inj h
      exact hp
    · rw [if_neg hp] at h
      obtain ⟨M, hM, rfl⟩ := Option.map_eq_some_iff.mp h
      exact ⟨hp, ⟨rfl, rfl, rfl⟩, ih hM⟩

/-- The list at an address is unique. -/
theorem Chain.unique {p : ℕ} {L M : List Block} (h : Chain A m p L) (h' : Chain A m p M) : L = M := by
  induction L generalizing p M with
  | nil =>
    rcases M with _ | ⟨c, M⟩
    · rfl
    · exact absurd h h'.1
  | cons b L ih =>
    rcases M with _ | ⟨c, M⟩
    · exact absurd h' h.1
    · obtain ⟨_, ⟨a1, a2, a3⟩, hL⟩ := h
      obtain ⟨_, ⟨b1, b2, b3⟩, hM⟩ := h'
      have hbc : b = c := by
        rcases b with ⟨ba, bc, bf⟩
        rcases c with ⟨ca, cc, cf⟩
        dsimp only at a1 a2 a3 b1 b2 b3
        rw [← a1, ← a2, ← a3, ← b1, ← b2, ← b3]
      rw [hbc, ih hL hM]

end Csc453.Malloc
