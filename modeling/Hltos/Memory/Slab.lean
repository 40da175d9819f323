import Hltos.Memory.KernelHeap

/-!
# The slab allocator

A slab is a page of the kernel heap: a header of 40 bytes and chunks of one size. The free chunks of
a slab are linked through their first words, and the slabs of a size class are linked through their
headers.
-/

namespace Hltos

open Vmm (pageSize)
open KernelHeap

structure SizeClass where
  index : Byte
  size : Word
  numSlabs : Word
  firstSlab : Word
  chunksPerSlab : Byte
deriving DecidableEq

namespace Slab

def slabMagic : Word := 0x51AB51AB51AB51AB

/-- `sizeof(Slab)` -/
def slabSize : Word := 40

def chunksPerSlab (chunkSize : Word) : Byte := ((pageSize - slabSize) / chunkSize).setWidth 8

/-- An element of `classes[]` as it is initialised. -/
def sizeClass (index : Byte) (size : Word) : SizeClass := ⟨index, size, 0, 0, chunksPerSlab size⟩

def initClasses : Fin 6 → SizeClass
  | 0 => sizeClass 0 32
  | 1 => sizeClass 1 64
  | 2 => sizeClass 2 128
  | 3 => sizeClass 3 256
  | 4 => sizeClass 4 512
  | 5 => sizeClass 5 1024

/-! ## The fields of a slab -/

def magic (slab : Word) : Word := slab

def freeHead (slab : Word) : Word := slab + 8

def nextSlab (slab : Word) : Word := slab + 16

def prevSlab (slab : Word) : Word := slab + 24

def sizeClassIndex (slab : Word) : Word := slab + 32

def freeChunks (slab : Word) : Word := slab + 33

/-- The element of `classes[]`, or the null pointer. -/
def getSizeClass (bytes : Word) : Option (Fin 6) :=
  if bytes ≤ 32 then some 0
  else if bytes ≤ 64 then some 1
  else if bytes ≤ 128 then some 2
  else if bytes ≤ 256 then some 3
  else if bytes ≤ 512 then some 4
  else if bytes ≤ 1024 then some 5
  else none

/-- `&classes[i]`; the array has six elements. -/
def classAt (i : Byte) : Option (Fin 6) := if h : i.toNat < 6 then some ⟨i.toNat, h⟩ else none

variable {μ : Type} [KernelHeap μ]

/-- The slab that an address is in, or the null pointer. -/
def tryGetSlab (addr : Word) (s : μ) : Option (Option Word) :=
  if addr = 0 then some none
  else do
    let page := addr &&& ~~~0xFFF
    let m ← loadWord (magic page) s
    return if m = slabMagic then some page else none

/-- The loop of `create_slab`, for the indices of a list. -/
def linkChunks (firstChunk chunkSize : Word) : List Nat → μ → Option μ
  | [], s => some s
  | chunkIdx :: is, s => do
    let thisChunk := firstChunk + BitVec.ofNat 64 chunkIdx * chunkSize
    let nextChunk := thisChunk + chunkSize
    -- kassert_not_null
    if thisChunk = 0 ∨ nextChunk = 0 then none
    else linkChunks firstChunk chunkSize is (← storeWord thisChunk nextChunk s)

/-- The first part of `create_slab`: the free list and the header, without the links to other slabs.
-/
def initSlab (sc : SizeClass) (slab : Word) (s : μ) : Option μ := do
  let firstChunk := slab + slabSize
  let numChunks := sc.chunksPerSlab
  let chunkSize := sc.size
  let s ← linkChunks firstChunk chunkSize (List.range (numChunks.toNat - 1)) s
  let lastChunk := firstChunk + (numChunks.setWidth 64 - 1) * chunkSize
  let s ← storeWord lastChunk 0 s
  let s ← storeWord (magic slab) slabMagic s
  let s ← storeByte (sizeClassIndex slab) sc.index s
  let s ← storeWord (freeHead slab) firstChunk s
  storeByte (freeChunks slab) numChunks s

/-- `if (slab) slab->prev_slab = value` -/
def setPrev (slab value : Word) (s : μ) : Option μ :=
  if slab ≠ 0 then storeWord (prevSlab slab) value s else some s

/-- `if (slab) slab->next_slab = value` -/
def setNext (slab value : Word) (s : μ) : Option μ :=
  if slab ≠ 0 then storeWord (nextSlab slab) value s else some s

/-- The loop of `alloc`: the first slab from `slab` on with a free chunk, or null. -/
def findSlab : Nat → Word → μ → Option Word
  | 0, _, _ => none
  | fuel + 1, slab, s =>
    if slab = 0 then some 0
    else do
      if (← loadWord (freeHead slab) s) = 0 then findSlab fuel (← loadWord (nextSlab slab) s) s
      else return slab

end Slab

/-- The heap and the array `classes[]`. -/
structure Slabs (μ : Type) where
  heap : μ
  classes : Fin 6 → SizeClass

namespace Slabs

open Slab

variable {μ : Type} [KernelHeap μ]

def setClass (c : Fin 6) (sc : SizeClass) (s : Slabs μ) : Slabs μ :=
  { s with classes := Function.update s.classes c sc }

def createSlab (c : Fin 6) (s : Slabs μ) : Option (Word × Slabs μ) := do
  let sc := s.classes c
  let (slab, h) ← allocKernelPage s.heap
  let h ← initSlab sc slab h
  -- in front of the list
  let firstSlab := sc.firstSlab
  let h ← setPrev firstSlab slab h
  let h ← storeWord (nextSlab slab) firstSlab h
  let h ← storeWord (prevSlab slab) 0 h
  return (slab,
    setClass c { sc with firstSlab := slab, numSlabs := sc.numSlabs + 1 } { s with heap := h })

def destroySlab (c : Fin 6) (slab : Word) (s : Slabs μ) : Option (Slabs μ) :=
  if slab = 0 then some s
  else do
    let sc := s.classes c
    let prev ← loadWord (prevSlab slab) s.heap
    let next ← loadWord (nextSlab slab) s.heap
    if prev = 0 ∧ next = 0 then return s
    else
      let h ← setNext prev next s.heap
      let sc := if prev ≠ 0 then sc else { sc with firstSlab := next }
      let h ← setPrev next prev h
      let sc := { sc with numSlabs := sc.numSlabs - 1 }
      return setClass c sc { s with heap := ← freeKernelPage slab h }

/-- A chunk of the class of `size`. The loop gets as many rounds as the class has slabs, and one to
see the null pointer. -/
def alloc (size : Word) (s : Slabs μ) : Option (Word × Slabs μ) := do
  let c ← getSizeClass size
  let sc := s.classes c
  let slab ← findSlab (sc.numSlabs.toNat + 1) sc.firstSlab s.heap
  let (slab, s) ← if slab = 0 then s.createSlab c else some (slab, s)
  -- kassert_not_null
  if slab = 0 then none
  else
    let chunk ← loadWord (freeHead slab) s.heap
    let h ← storeWord (freeHead slab) (← loadWord chunk s.heap) s.heap
    let h ← storeByte (freeChunks slab) ((← loadByte (freeChunks slab) h) - 1) h
    return (chunk, { s with heap := h })

def free (addr : Word) (s : Slabs μ) : Option (Slabs μ) := do
  match ← tryGetSlab addr s.heap with
  | none => return s
  | some slab =>
    let c ← classAt (← loadByte (sizeClassIndex slab) s.heap)
    let h ← storeWord addr (← loadWord (freeHead slab) s.heap) s.heap
    let h ← storeWord (freeHead slab) addr h
    let h ← storeByte (freeChunks slab) ((← loadByte (freeChunks slab) h) + 1) h
    let s := { s with heap := h }
    let sc := s.classes c
    if (← loadByte (freeChunks slab) h) = sc.chunksPerSlab ∧ sc.numSlabs > 1 then
      s.destroySlab c slab
    else return s

def totalSlabs (s : Slabs μ) : Word :=
  (List.finRange 6).foldl (fun total c => total + (s.classes c).numSlabs) 0

end Slabs

end Hltos
