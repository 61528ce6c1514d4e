import Csc453.Malloc.Runs

/-!
# Csc453.Malloc.Narrated — the functions of Asgn1/malloc.c with their debug output

The same functions as in `Csc453.Malloc.Allocator`, with `suppress_debug` and what goes to file
descriptor 2.  `debug` says whether `DEBUG_MALLOC` is set in the environment.  A message is written
from a buffer of 256 bytes: a report of one of the four calls, or free-form text.
-/

namespace Csc453.Malloc

open Bytes Transition

/-- The ids that tell `print_debug_msg` which call it reports. -/
inductive DebugId
  | MALLOC_ID
  | FREE_ID
  | CALLOC_ID
  | REALLOC_ID
  deriving DecidableEq

/-- The arguments of `print_debug_msg` and the capacity it looks up. -/
structure Report where
  id : DebugId
  ptr : ℕ
  newPtr : ℕ
  nmemb : ℕ
  size : ℕ
  resultSize : ℕ
  deriving DecidableEq

/-- `%p`. -/
def pointerText (p : ℕ) : String :=
  if p = 0 then "(nil)" else "0x" ++ String.ofList (Nat.toDigits 16 p)

def Report.text (r : Report) : String :=
  match r.id with
  | .MALLOC_ID => "MALLOC: malloc(" ++ r.size.repr ++ ")\n=> (ptr=" ++ pointerText r.newPtr ++
      ", size=" ++ r.resultSize.repr ++ ")\n"
  | .FREE_ID => "MALLOC: free(" ++ pointerText r.ptr ++ ")\n"
  | .CALLOC_ID => "MALLOC: calloc(" ++ r.nmemb.repr ++ "," ++ r.size.repr ++ ")\n=> (ptr=" ++
      pointerText r.newPtr ++ ", size=" ++ r.resultSize.repr ++ ")\n"
  | .REALLOC_ID => "MALLOC: realloc(" ++ pointerText r.ptr ++ "," ++ r.size.repr ++ ") => (ptr=" ++
      pointerText r.newPtr ++ ", size=" ++ r.resultSize.repr ++ ")\n"

inductive Message
  | report (r : Report)
  | custom (msg : String)
  deriving DecidableEq

namespace Message

def text : Message → String
  | .report r => r.text
  | .custom msg => msg

/-- What `write` gets: the text as far as it fits into `buf`, which has 256 bytes, one for the `NUL`. -/
def written (m : Message) : String := String.ofList (m.text.toList.take 255)

def report? : Message → Option Report
  | .report r => some r
  | .custom _ => none

end Message

/-- The process: the heap, `suppress_debug`, and the messages written, the newest first. -/
structure Session where
  heap : Heap
  suppressDebug : Bool
  out : List Message

def Session.withHeap (s : Session) (h : Heap) : Session := { s with heap := h }

def Session.withMem (s : Session) (m : Mem) : Session := { s with heap := { s.heap with mem := m } }

/-- Nothing is written: `suppress_debug || getenv("DEBUG_MALLOC") == NULL`. -/
def Quiet (debug : Bool) (s : Session) : Prop := s.suppressDebug = true ∨ debug = false

instance (debug : Bool) (s : Session) : Decidable (Quiet debug s) := instDecidableOr

namespace Narrated

variable (A : Abi) (debug : Bool)

def printCustomDebugMsg (msg : String) (s : Session) : Session :=
  if Quiet debug s then s else { s with out := .custom msg :: s.out }

/-! ### Walks over the list -/

def firstFit (requested : ℕ) : ℕ → ℕ → ℕ → Session → Option (ℕ × ℕ × Session)
  | 0, _, _, _ => none
  | fuel + 1, prev, curr, s =>
    if curr = 0 then some (prev, curr, s)
    else if A.isFree s.heap.mem curr = true ∧ requested ≤ A.payloadCapacity s.heap.mem curr then
      some (prev, curr, printCustomDebugMsg debug "MALLOC: found block big enough\n" s)
    else firstFit requested fuel curr (A.nextBlockHeader s.heap.mem curr) s

def findLoop (target : ℕ) : ℕ → ℕ → Session → Option (ℕ × Session)
  | 0, _, _ => none
  | fuel + 1, curr, s =>
    if curr = 0 then some (0, printCustomDebugMsg debug "failed to find block\n" s)
    else
      let beg := A.add curr A.headerSize
      let fin := A.add beg (A.payloadCapacity s.heap.mem curr)
      if beg ≤ target ∧ target < fin then
        some (curr, printCustomDebugMsg debug "successfully found block\n" s)
      else if target < beg then some (0, printCustomDebugMsg debug "failed to find block\n" s)
      else findLoop target fuel (A.nextBlockHeader s.heap.mem curr) s

def findblock (ptr : ℕ) (s : Session) : Option (ℕ × Session) :=
  let s₁ := printCustomDebugMsg debug "finding block\n" s
  if ptr = 0 then some (0, printCustomDebugMsg debug "failed to find block because ptr is null\n" s₁)
  else findLoop A debug ptr A.space s₁.heap.heapHead s₁

def mergeLoop : ℕ → ℕ → ℕ → Session → Option Session
  | 0, _, _, _ => none
  | fuel + 1, firstFree, curr, s =>
    if curr = 0 then some s
    else if firstFree = 0 ∧ A.isFree s.heap.mem curr = true then
      mergeLoop fuel curr (A.nextBlockHeader s.heap.mem curr) s
    else if firstFree ≠ 0 ∧ A.isFree s.heap.mem curr = true then
      let s₁ := printCustomDebugMsg debug "merged free nodes\n"
        (s.withMem (absorb A s.heap.mem firstFree curr))
      mergeLoop fuel firstFree (A.nextBlockHeader s₁.heap.mem firstFree) s₁
    else mergeLoop fuel 0 (A.nextBlockHeader s.heap.mem curr) s

def mergeFreeNodes (s : Session) : Option Session :=
  let s₁ := printCustomDebugMsg debug "attempting to merge free nodes\n" s
  mergeLoop A debug A.space 0 s₁.heap.heapHead s₁

/-- One of the four calls reported; the search for the returned block is suppressed. -/
def printDebugMsg (id : DebugId) (ptr newPtr nmemb size : ℕ) (s : Session) : Option Session :=
  if Quiet debug s then some s
  else
    match findblock A debug newPtr { s with suppressDebug := true } with
    | none => none
    | some (curr, s₁) =>
      let resultSize := if curr ≠ 0 then A.payloadCapacity s₁.heap.mem curr else 0
      some { s₁ with suppressDebug := s.suppressDebug,
                     out := .report ⟨id, ptr, newPtr, nmemb, size, resultSize⟩ :: s₁.out }

/-! ### splitblock -/

def splitblock (curr requested : ℕ) (s : Session) : Option (ℕ × Session) :=
  let s₁ := printCustomDebugMsg debug "attempting to split block\n" s
  let leftoverSize := A.sub (A.payloadCapacity s₁.heap.mem curr) requested
  if minimumBlockSize A ≤ leftoverSize then
    let s₂ := printCustomDebugMsg debug "successfully split block\n"
      (s₁.withMem (writeSplit A curr requested leftoverSize s₁.heap.mem))
    (mergeFreeNodes A debug s₂).map fun s₃ => (A.add curr A.headerSize, s₃)
  else some (A.add curr A.headerSize, s₁)

/-! ### malloc -/

/-- The part of `malloc` that gets a chunk; `none` inside if it has reported the failure. -/
def appendBlock (g : Grants) (prev usedBlockSize size : ℕ) (s : Session) :
    Option (Option ℕ × Session) :=
  let s := printCustomDebugMsg debug "MALLOC: no block big enough, calling sbrk\n" s
  let newBlockSize := if usedBlockSize < CHUNK_SIZE then CHUNK_SIZE else usedBlockSize
  let (currBreak, h₁) := sbrk A g.query 0 s.heap
  let padding := A.sub (A.roundUp16 currBreak) currBreak
  let (newSbrk, h₂) := sbrk A g.padding padding h₁
  if newSbrk = A.sizeMax then
    (printDebugMsg A debug .MALLOC_ID 0 0 0 size (s.withHeap { h₂ with errno := ENOMEM })).map
      fun s₁ => (none, printCustomDebugMsg debug "MALLOC: padding sbrk failed\n" s₁)
  else
    let (curr, h₃) := sbrk A g.block newBlockSize h₂
    if curr = A.sizeMax then
      (printDebugMsg A debug .MALLOC_ID 0 0 0 size (s.withHeap { h₃ with errno := ENOMEM })).map
        fun s₁ => (none, printCustomDebugMsg debug "MALLOC: block sbrk failed\n" s₁)
    else
      let s₁ := printCustomDebugMsg debug "MALLOC: sbrk succeeded\n" (s.withHeap h₃)
      some (some curr, s₁.withHeap (chainBlock A prev curr (A.sub newBlockSize A.headerSize) s₁.heap))

def useBlock (curr requested size : ℕ) (s : Session) : Option (ℕ × Session) :=
  match splitblock A debug curr requested (s.withMem (A.setFree s.heap.mem curr false)) with
  | none => none
  | some (p, s₁) =>
    (printDebugMsg A debug .MALLOC_ID 0 p 0 size s₁).map
      fun s₂ => (p, printCustomDebugMsg debug "MALLOC: malloc succeeded\n" s₂)

def malloc (g : Grants) (size : ℕ) (s : Session) : Option (ℕ × Session) :=
  if size = 0 then
    (printDebugMsg A debug .MALLOC_ID 0 0 0 size s).map
      fun s₁ => (0, printCustomDebugMsg debug "MALLOC: size is 0, returning\n" s₁)
  else
    let requested := A.roundUp16 size
    match firstFit A debug requested A.space 0 s.heap.heapHead s with
    | none => none
    | some (prev, curr, s₁) =>
      if curr = 0 then
        match appendBlock A debug g prev (A.add A.headerSize requested) size s₁ with
        | none => none
        | some (none, s₂) => some (0, s₂)
        | some (some new, s₂) => useBlock A debug new requested size s₂
      else useBlock A debug curr requested size s₁

/-! ### free, calloc and realloc -/

def free (ptr : ℕ) (s : Session) : Option Session :=
  if ptr = 0 then
    printDebugMsg A debug .FREE_ID ptr 0 0 0 (printCustomDebugMsg debug "FREE: ptr is NULL\n" s)
  else
    match findblock A debug ptr s with
    | none => none
    | some (curr, s₁) =>
      if curr = 0 then
        printDebugMsg A debug .FREE_ID ptr 0 0 0 (printCustomDebugMsg debug "FREE: block not found\n" s₁)
      else if A.isFree s₁.heap.mem curr = true then
        printDebugMsg A debug .FREE_ID ptr 0 0 0 (printCustomDebugMsg debug "FREE: double free\n" s₁)
      else
        match mergeFreeNodes A debug (s₁.withMem (A.setFree s₁.heap.mem curr true)) with
        | none => none
        | some s₂ =>
          printDebugMsg A debug .FREE_ID ptr 0 0 0
            (printCustomDebugMsg debug "FREE: free succeeded\n" s₂)

/-- A call of `malloc` inside another call: silent, and `suppress_debug` is `false` afterwards. -/
def quietMalloc (g : Grants) (size : ℕ) (s : Session) : Option (ℕ × Session) :=
  (malloc A debug g size { s with suppressDebug := true }).map
    fun (p, s₁) => (p, { s₁ with suppressDebug := false })

def quietFree (ptr : ℕ) (s : Session) : Option Session :=
  (free A debug ptr { s with suppressDebug := true }).map fun s₁ => { s₁ with suppressDebug := false }

def calloc (g : Grants) (nmemb size : ℕ) (s : Session) : Option (ℕ × Session) :=
  if size ≠ 0 ∧ A.sizeMax / size < nmemb then
    (printDebugMsg A debug .CALLOC_ID 0 0 nmemb size (printCustomDebugMsg debug "CALLOC: overflow\n"
      (s.withHeap { s.heap with errno := ENOMEM }))).map fun s₁ => (0, s₁)
  else
    let total := A.mul nmemb size
    match quietMalloc A debug g total s with
    | none => none
    | some (p, s₁) =>
      if p = 0 then
        (printDebugMsg A debug .CALLOC_ID 0 p nmemb size
          (printCustomDebugMsg debug "CALLOC: malloc failed\n" s₁)).map fun s₂ => (0, s₂)
      else
        (printDebugMsg A debug .CALLOC_ID 0 p nmemb size
          (printCustomDebugMsg debug "CALLOC: calloc succeeded\n"
            (s₁.withMem (fill s₁.heap.mem p total 0)))).map fun s₂ => (p, s₂)

def growLast (g : Grants) (ptr curr requested size : ℕ) (s : Session) : Option (ℕ × Session) :=
  let s := printCustomDebugMsg debug "REALLOC: at the end of heap, calling sbrk\n" s
  let cap := A.payloadCapacity s.heap.mem curr
  let spaceNeeded := A.sub requested cap
  let sizeAllocated := if spaceNeeded < CHUNK_SIZE then CHUNK_SIZE else spaceNeeded
  let (newSbrk, h₁) := sbrk A g.grow sizeAllocated s.heap
  if newSbrk = A.sizeMax then
    (printDebugMsg A debug .REALLOC_ID ptr 0 0 size (printCustomDebugMsg debug "REALLOC: sbrk failed\n"
      (s.withHeap { h₁ with errno := ENOMEM }))).map fun s₁ => (0, s₁)
  else
    let s₁ := printCustomDebugMsg debug "REALLOC: sbrk succeeded\n" (s.withHeap h₁)
    match splitblock A debug curr requested
        (s₁.withMem (A.setCapacity s₁.heap.mem curr (A.add cap sizeAllocated))) with
    | none => none
    | some (p, s₂) => (printDebugMsg A debug .REALLOC_ID ptr p 0 size s₂).map fun s₃ => (p, s₃)

def absorbNext (ptr curr next requested size : ℕ) (s : Session) : Option (ℕ × Session) :=
  let s₁ := printCustomDebugMsg debug "REALLOC: expanding in place\n" s
  match splitblock A debug curr requested (s₁.withMem (absorb A s₁.heap.mem curr next)) with
  | none => none
  | some (p, s₂) => (printDebugMsg A debug .REALLOC_ID ptr p 0 size s₂).map fun s₃ => (p, s₃)

def moveBlock (g : Grants) (ptr curr cap size : ℕ) (s : Session) : Option (ℕ × Session) :=
  match quietMalloc A debug g size (printCustomDebugMsg debug "REALLOC: copying, calling malloc\n" s) with
  | none => none
  | some (p, s₁) =>
    if p = 0 then
      (printDebugMsg A debug .REALLOC_ID ptr p 0 size
        (printCustomDebugMsg debug "REALLOC: malloc failed\n" s₁)).map fun s₂ => (0, s₂)
    else
      match quietFree A debug ptr (printCustomDebugMsg debug "REALLOC: copied bytes\n"
          (s₁.withMem (copy s₁.heap.mem p (A.add curr A.headerSize) cap))) with
      | none => none
      | some s₂ => (printDebugMsg A debug .REALLOC_ID ptr p 0 size s₂).map fun s₃ => (p, s₃)

def realloc (g : Grants) (ptr size : ℕ) (s : Session) : Option (ℕ × Session) :=
  if ptr = 0 then
    match quietMalloc A debug g size s with
    | none => none
    | some (p, s₁) =>
      (printDebugMsg A debug .REALLOC_ID ptr p 0 size
        (printCustomDebugMsg debug "REALLOC: ptr is NULL, calling malloc\n" s₁)).map fun s₂ => (p, s₂)
  else if size = 0 then
    match quietFree A debug ptr s with
    | none => none
    | some s₁ =>
      (printDebugMsg A debug .REALLOC_ID ptr 0 0 size
        (printCustomDebugMsg debug "REALLOC: size is 0, calling free\n" s₁)).map fun s₂ => (0, s₂)
  else
    match findblock A debug ptr s with
    | none => none
    | some (curr, s₁) =>
      if curr = 0 then
        (printDebugMsg A debug .REALLOC_ID ptr curr 0 size
          (printCustomDebugMsg debug "REALLOC: block not found\n" s₁)).map fun s₂ => (0, s₂)
      else
        let s₁ := printCustomDebugMsg debug "REALLOC: block found\n" s₁
        let cap := A.payloadCapacity s₁.heap.mem curr
        let requested := A.roundUp16 size
        let next := A.nextBlockHeader s₁.heap.mem curr
        if cap = requested then
          (printDebugMsg A debug .REALLOC_ID ptr (A.add curr A.headerSize) 0 size
            (printCustomDebugMsg debug "REALLOC: size didn't change, returning payload ptr\n" s₁)).map
            fun s₂ => (A.add curr A.headerSize, s₂)
        else if requested < cap then
          match splitblock A debug curr requested
              (printCustomDebugMsg debug "REALLOC: user requested smaller size\n" s₁) with
          | none => none
          | some (p, s₂) => (printDebugMsg A debug .REALLOC_ID ptr p 0 size s₂).map fun s₃ => (p, s₃)
        else if next = 0 then growLast A debug g ptr curr requested size s₁
        else
          let s₁ := printCustomDebugMsg debug "REALLOC: attempting to expand in place\n" s₁
          if next ≠ 0 ∧ A.isFree s₁.heap.mem next = true ∧
              requested ≤ A.add cap (A.add A.headerSize (A.payloadCapacity s₁.heap.mem next)) then
            absorbNext A debug ptr curr next requested size s₁
          else moveBlock A debug g ptr curr cap size s₁

def exec (g : Grants) : Call → Session → Option (ℕ × Session)
  | .malloc n, s => malloc A debug g n s
  | .free p, s => (free A debug p s).map fun s₁ => (0, s₁)
  | .calloc k n, s => calloc A debug g k n s
  | .realloc p n, s => realloc A debug g p n s

end Narrated

/-- A call with `DEBUG_MALLOC` set or not, or a byte written. -/
inductive NarratedLabel
  | call (debug : Bool) (c : Call) (g : Grants) (p : ℕ)
  | write (x : ℕ) (v : UInt8)

def narrated (A : Abi) : System Session NarratedLabel where
  init s := (allocator A).init s.heap ∧ s.suppressDebug = false ∧ s.out = []
  step s l s' :=
    match l with
    | .call debug c g p => c.Words A ∧ Narrated.exec A debug g c s = some (p, s')
    | .write x v => Live A s.heap x ∧ s' = s.withMem (Function.update s.heap.mem x v)

end Csc453.Malloc
