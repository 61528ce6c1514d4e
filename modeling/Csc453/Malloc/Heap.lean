import Csc453.Lib.Bytes

/-!
# Csc453.Malloc.Heap — memory, block headers and sbrk for Asgn1/malloc.c

The allocator runs on a machine whose `size_t` and pointers have `wordBytes` bytes (the Makefile
builds both the 4- and the 8-byte library).  A `struct BlockHeader` is three words in memory: the
capacity, the `bool` with its padding, and the link.  `size_t` and pointer arithmetic wraps modulo
`space`; the argument of `sbrk` is signed.
-/

namespace Csc453.Malloc

open Bytes

/-- The word size. -/
structure Abi where
  wordBytes : ℕ
  supported : wordBytes = 4 ∨ wordBytes = 8

def abi32 : Abi := ⟨4, Or.inl rfl⟩

def abi64 : Abi := ⟨8, Or.inr rfl⟩

def CHUNK_SIZE : ℕ := 64 * 1024

def MINIMUM_PAYLOAD_SIZE : ℕ := 16

def ENOMEM : ℕ := 12

namespace Abi

variable (A : Abi)

/-- `SIZE_MAX + 1`, the number of addresses. -/
def space : ℕ := 256 ^ A.wordBytes

def sizeMax : ℕ := A.space - 1

def ptrdiffMax : ℕ := A.space / 2 - 1

def add (a b : ℕ) : ℕ := (a + b) % A.space

def sub (a b : ℕ) : ℕ := (a + (A.space - b)) % A.space

def mul (a b : ℕ) : ℕ := (a * b) % A.space

/-- A word as an `intptr_t`. -/
def signed (a : ℕ) : ℤ := if a ≤ A.ptrdiffMax then a else (a : ℤ) - A.space

/-- Rounds size up to the next multiple of 16 bytes. -/
def roundUp16 (size : ℕ) : ℕ := A.add size 15 / 16 * 16

/-- `sizeof (struct BlockHeader)`. -/
def sizeofBlockHeader : ℕ := 3 * A.wordBytes

def headerSize : ℕ := A.roundUp16 A.sizeofBlockHeader

/-! ### The fields of a header -/

def payloadCapacity (m : Mem) (b : ℕ) : ℕ := load m b A.wordBytes

def isFree (m : Mem) (b : ℕ) : Bool := m (b + A.wordBytes) ≠ 0

def nextBlockHeader (m : Mem) (b : ℕ) : ℕ := load m (b + 2 * A.wordBytes) A.wordBytes

def setCapacity (m : Mem) (b v : ℕ) : Mem := store m b A.wordBytes v

def setFree (m : Mem) (b : ℕ) (f : Bool) : Mem := store m (b + A.wordBytes) 1 f.toNat

def setNext (m : Mem) (b v : ℕ) : Mem := store m (b + 2 * A.wordBytes) A.wordBytes v

end Abi

/-- A call of `sbrk`: its argument and the old break, `none` if it failed. -/
structure SbrkCall where
  increment : ℤ
  result : Option ℕ

/-- The process as the allocator sees it. -/
structure Heap where
  mem : Mem
  heapHead : ℕ
  brk : ℕ
  errno : ℕ
  sbrks : List SbrkCall

/-- Whether the system grants each `sbrk` call site of one request: the query `sbrk(0)`, the
padding, the block, and the growth of the last block. -/
structure Grants where
  query : Bool
  padding : Bool
  block : Bool
  grow : Bool

def allGranted : Grants := ⟨true, true, true, true⟩

variable (A : Abi)

/-- The break can move by `incr`, and the system grants it. -/
def Granted (g : Bool) (incr brk : ℕ) : Prop :=
  g = true ∧ 0 < (brk : ℤ) + A.signed incr ∧ (brk : ℤ) + A.signed incr < A.space

instance (g : Bool) (incr brk : ℕ) : Decidable (Granted A g incr brk) := instDecidableAnd

/-- `sbrk`: the old break, or `(void *) -1` with the break unmoved. -/
def sbrk (g : Bool) (incr : ℕ) (h : Heap) : ℕ × Heap :=
  if Granted A g incr h.brk then
    (h.brk, { h with brk := ((h.brk : ℤ) + A.signed incr).toNat,
                     sbrks := ⟨A.signed incr, some h.brk⟩ :: h.sbrks })
  else (A.sizeMax, { h with errno := ENOMEM, sbrks := ⟨A.signed incr, none⟩ :: h.sbrks })

end Csc453.Malloc
