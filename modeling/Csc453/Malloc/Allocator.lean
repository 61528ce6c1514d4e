import Csc453.Malloc.Heap

/-!
# Csc453.Malloc.Allocator — the functions of Asgn1/malloc.c

Pointers are addresses, `NULL` is `0`.  Every loop over the block list has one iteration of fuel for
each address of the machine: a walk that is longer than that goes round in a circle and does not
return, which is the result `none`.  The debug narration is left out.
-/

namespace Csc453.Malloc

open Bytes

variable (A : Abi)

/-! ### Walks over the list -/

/-- The traversal of `malloc`: the last block passed and the first free one that is big enough. -/
def firstFit (m : Mem) (requested : ℕ) : ℕ → ℕ → ℕ → Option (ℕ × ℕ)
  | 0, _, _ => none
  | fuel + 1, prev, curr =>
    if curr = 0 then some (prev, curr)
    else if A.isFree m curr = true ∧ requested ≤ A.payloadCapacity m curr then some (prev, curr)
    else firstFit m requested fuel curr (A.nextBlockHeader m curr)

/-- The loop of `findblock`. -/
def findLoop (m : Mem) (target : ℕ) : ℕ → ℕ → Option ℕ
  | 0, _ => none
  | fuel + 1, curr =>
    if curr = 0 then some 0
    else
      let beg := A.add curr A.headerSize
      let fin := A.add beg (A.payloadCapacity m curr)
      if beg ≤ target ∧ target < fin then some curr
      else if target < beg then some 0
      else findLoop m target fuel (A.nextBlockHeader m curr)

/-- Returns the block whose payload range contains ptr, or NULL. -/
def findblock (ptr : ℕ) (h : Heap) : Option ℕ :=
  if ptr = 0 then some 0 else findLoop A h.mem ptr A.space h.heapHead

/-- `f` swallows the block `b` after it: grow the capacity, skip the link. -/
def absorb (m : Mem) (f b : ℕ) : Mem :=
  let m₁ := A.setCapacity m f (A.add (A.payloadCapacity m f) (A.add A.headerSize (A.payloadCapacity m b)))
  A.setNext m₁ f (A.nextBlockHeader m₁ b)

/-- The loop of `merge_free_nodes`. -/
def mergeLoop : ℕ → ℕ → ℕ → Mem → Option Mem
  | 0, _, _, _ => none
  | fuel + 1, firstFree, curr, m =>
    if curr = 0 then some m
    else if firstFree = 0 ∧ A.isFree m curr = true then
      mergeLoop fuel curr (A.nextBlockHeader m curr) m
    else if firstFree ≠ 0 ∧ A.isFree m curr = true then
      -- `curr_block = first_free` before the step to the next block
      let m₁ := absorb A m firstFree curr
      mergeLoop fuel firstFree (A.nextBlockHeader m₁ firstFree) m₁
    else mergeLoop fuel 0 (A.nextBlockHeader m curr) m

def mergeFreeNodes (h : Heap) : Option Heap :=
  (mergeLoop A A.space 0 h.heapHead h.mem).map fun m => { h with mem := m }

/-! ### splitblock -/

def minimumBlockSize : ℕ := A.add A.headerSize MINIMUM_PAYLOAD_SIZE

/-- The stores of a split: shrink the used node, write the leftover header, chain it. -/
def writeSplit (curr requested leftoverSize : ℕ) (m : Mem) : Mem :=
  let leftover := A.add (A.add curr A.headerSize) requested
  let m₁ := A.setCapacity m curr requested
  let m₂ := A.setCapacity m₁ leftover (A.sub leftoverSize A.headerSize)
  let m₃ := A.setFree m₂ leftover true
  let m₄ := A.setNext m₃ leftover (A.nextBlockHeader m₃ curr)
  A.setNext m₄ curr leftover

/-- Splits a block when enough space remains for a new free block header plus a minimum payload;
returns the payload. -/
def splitblock (curr requested : ℕ) (h : Heap) : Option (ℕ × Heap) :=
  let leftoverSize := A.sub (A.payloadCapacity h.mem curr) requested
  if minimumBlockSize A ≤ leftoverSize then
    (mergeFreeNodes A { h with mem := writeSplit A curr requested leftoverSize h.mem }).map
      fun h' => (A.add curr A.headerSize, h')
  else some (A.add curr A.headerSize, h)

/-! ### malloc -/

/-- Write the header of a new free block and chain it after `prev`, or make it the head. -/
def chainBlock (prev curr cap : ℕ) (h : Heap) : Heap :=
  let m := A.setNext (A.setFree (A.setCapacity h.mem curr cap) curr true) curr 0
  if prev = 0 then { h with mem := m, heapHead := curr } else { h with mem := A.setNext m prev curr }

/-- No block was big enough: align the break, get a chunk and chain it after `prev`.  The result is
the new block, `none` if `sbrk` failed. -/
def appendBlock (g : Grants) (prev usedBlockSize : ℕ) (h : Heap) : Option ℕ × Heap :=
  let newBlockSize := if usedBlockSize < CHUNK_SIZE then CHUNK_SIZE else usedBlockSize
  let (currBreak, h₁) := sbrk A g.query 0 h
  let padding := A.sub (A.roundUp16 currBreak) currBreak
  let (newSbrk, h₂) := sbrk A g.padding padding h₁
  if newSbrk = A.sizeMax then (none, { h₂ with errno := ENOMEM })
  else
    let (curr, h₃) := sbrk A g.block newBlockSize h₂
    if curr = A.sizeMax then (none, { h₃ with errno := ENOMEM })
    else (some curr, chainBlock A prev curr (A.sub newBlockSize A.headerSize) h₃)

/-- Mark a block used and optionally split it. -/
def useBlock (curr requested : ℕ) (h : Heap) : Option (ℕ × Heap) :=
  splitblock A curr requested { h with mem := A.setFree h.mem curr false }

def malloc (g : Grants) (size : ℕ) (h : Heap) : Option (ℕ × Heap) :=
  if size = 0 then some (0, h)
  else
    let requested := A.roundUp16 size
    match firstFit A h.mem requested A.space 0 h.heapHead with
    | none => none
    | some (prev, curr) =>
      if curr = 0 then
        match appendBlock A g prev (A.add A.headerSize requested) h with
        | (none, h') => some (0, h')
        | (some new, h') => useBlock A new requested h'
      else useBlock A curr requested h

/-! ### free, calloc and realloc -/

def free (ptr : ℕ) (h : Heap) : Option Heap :=
  if ptr = 0 then some h
  else
    match findblock A ptr h with
    | none => none
    | some curr =>
      if curr = 0 then some h
      else if A.isFree h.mem curr = true then some h
      else mergeFreeNodes A { h with mem := A.setFree h.mem curr true }

def calloc (g : Grants) (nmemb size : ℕ) (h : Heap) : Option (ℕ × Heap) :=
  if size ≠ 0 ∧ A.sizeMax / size < nmemb then some (0, { h with errno := ENOMEM })
  else
    let total := A.mul nmemb size
    match malloc A g total h with
    | none => none
    | some (p, h') => if p = 0 then some (0, h') else some (p, { h' with mem := fill h'.mem p total 0 })

/-- The block is the last one: get more room from `sbrk`. -/
def growLast (g : Grants) (curr requested : ℕ) (h : Heap) : Option (ℕ × Heap) :=
  let cap := A.payloadCapacity h.mem curr
  let spaceNeeded := A.sub requested cap
  let sizeAllocated := if spaceNeeded < CHUNK_SIZE then CHUNK_SIZE else spaceNeeded
  let (newSbrk, h₁) := sbrk A g.grow sizeAllocated h
  if newSbrk = A.sizeMax then some (0, { h₁ with errno := ENOMEM })
  else splitblock A curr requested { h₁ with mem := A.setCapacity h₁.mem curr (A.add cap sizeAllocated) }

/-- Swallow the free block that follows. -/
def absorbNext (curr next requested : ℕ) (h : Heap) : Option (ℕ × Heap) :=
  splitblock A curr requested { h with mem := absorb A h.mem curr next }

/-- `malloc`, copy the old payload, free the original. -/
def moveBlock (g : Grants) (ptr curr cap size : ℕ) (h : Heap) : Option (ℕ × Heap) :=
  match malloc A g size h with
  | none => none
  | some (p, h₁) =>
    if p = 0 then some (0, h₁)
    else (free A ptr { h₁ with mem := copy h₁.mem p (A.add curr A.headerSize) cap }).map
      fun h₂ => (p, h₂)

def realloc (g : Grants) (ptr size : ℕ) (h : Heap) : Option (ℕ × Heap) :=
  if ptr = 0 then malloc A g size h
  else if size = 0 then (free A ptr h).map fun h' => (0, h')
  else
    match findblock A ptr h with
    | none => none
    | some curr =>
      if curr = 0 then some (0, h)
      else
        let cap := A.payloadCapacity h.mem curr
        let requested := A.roundUp16 size
        let next := A.nextBlockHeader h.mem curr
        if cap = requested then some (A.add curr A.headerSize, h)
        else if requested < cap then splitblock A curr requested h
        else if next = 0 then growLast A g curr requested h
        else if next ≠ 0 ∧ A.isFree h.mem next = true ∧
            requested ≤ A.add cap (A.add A.headerSize (A.payloadCapacity h.mem next)) then
          absorbNext A curr next requested h
        else moveBlock A g ptr curr cap size h

end Csc453.Malloc
