import Hltos.Memory.Entry
import Hltos.Process.Process

/-!
# The virtual memory manager

`vmm.cpp`. Physical memory is a function from frames to pages of 512 words; the direct map makes
every frame addressable, so a table is named by its frame. A failed `kassert`, an exhausted frame
allocator (which panics), an index outside a table and a page fault all end the run: `none`.

`pmm` is any frame allocator that hands out frames not currently allocated.
-/

namespace Hltos

open Lib.Radix

/-- An index into a table of 512 entries. -/
abbrev Idx := BitVec 9

abbrev Memory := Frame → Idx → Word

/-- What the memory manager asks of `pmm::alloc_frame` and `pmm::free_frame`. -/
class FrameAllocator (σ : Type) where
  allocFrame : σ → Option (Frame × σ)
  freeFrame : Frame → σ → σ
  allocated : σ → Set Frame
  alloc_fresh : ∀ {s s' f}, allocFrame s = some (f, s') → f ∉ allocated s
  alloc_allocated : ∀ {s s' f}, allocFrame s = some (f, s') → allocated s' = insert f (allocated s)
  free_allocated : ∀ f s, allocated (freeFrame f s) = allocated s \ {f}

/-- The state of the memory manager. -/
structure Vmm (σ : Type) where
  mem : Memory
  pmm : σ
  kernelPml4 : Frame
  hhdmOffset : Word
  kheap : Heap

namespace Vmm

variable {σ : Type}

open Pte FrameAllocator

/-! ## Addresses -/

def pageSize : Word := 4096

def pml4Idx (virt : Word) : Idx := virt.extractLsb' 39 9
def pdptIdx (virt : Word) : Idx := virt.extractLsb' 30 9
def pdIdx (virt : Word) : Idx := virt.extractLsb' 21 9
def ptIdx (virt : Word) : Idx := virt.extractLsb' 12 9

def pageAlign (addr : Word) : Word := addr &&& ~~~0xFFF

def isPageAligned (addr : Word) : Bool := addr &&& 0xFFF == 0

def userMaxAddr : Word := 0x800000000000

/-- `is_user_addr(addr)` -/
def isUserAddr (addr : Word) : Bool := addr < userMaxAddr

/-- `is_user_addr(addr, size)` -/
def isUserRange (addr size : Word) : Bool := addr < userMaxAddr && size ≤ userMaxAddr - addr

/-- `get_kernel_pml4_index` -/
def kernelStart (s : Vmm σ) : Idx := s.hhdmOffset.extractLsb' 39 9

/-- The frame of a physical address. -/
def frameOf (phys : Word) : Frame := phys.extractLsb' 12 40

/-- The address of a frame. -/
def physOf (f : Frame) : Word := f.setWidth 64 <<< 12

/-! ## Memory and frames -/

def writeEntry (f : Frame) (i : Idx) (e : Word) (s : Vmm σ) : Vmm σ :=
  { s with mem := setEntry s.mem f i e }

def writePage (f : Frame) (page : Idx → Word) (s : Vmm σ) : Vmm σ :=
  { s with mem := setPage s.mem f page }

def zeroPage (f : Frame) (s : Vmm σ) : Vmm σ := s.writePage f (fun _ => 0)

variable [FrameAllocator σ]

def alloc (s : Vmm σ) : Option (Frame × Vmm σ) :=
  (allocFrame s.pmm).map (fun (f, pmm) => (f, { s with pmm := pmm }))

def free (f : Frame) (s : Vmm σ) : Vmm σ := { s with pmm := freeFrame f s.pmm }

/-! ## Walking and extending the tables -/

/-- `find_pte`: where the entry of a mapped page is. -/
def findPte (m : Memory) (pml4 : Frame) (virt : Word) : Option (Frame × Idx) :=
  if !p (m pml4 (pml4Idx virt)) then none
  else
    let pdpt := addr (m pml4 (pml4Idx virt))
    if !p (m pdpt (pdptIdx virt)) then none
    else
      let pd := addr (m pdpt (pdptIdx virt))
      if !p (m pd (pdIdx virt)) then none
      else
        let pt := addr (m pd (pdIdx virt))
        if !p (m pt (ptIdx virt)) then none else some (pt, ptIdx virt)

/-- `ensure_pdpte_present`, `ensure_pde_present` and `ensure_pte_present`: the table that an entry
points to, created blank if the entry is absent. -/
def ensurePresent (populate : Word → Frame → Flags → Word) (f : Frame) (i : Idx) (flags : Flags)
    (s : Vmm σ) : Option (Frame × Vmm σ) := do
  if !p (s.mem f i) then
    let (frame, s) ← s.alloc
    let s := (s.writeEntry f i (populate (s.mem f i) frame flags)).zeroPage frame
    return (addr (s.mem f i), s)
  else
    return (addr (s.mem f i), s)

def ensurePdptePresent (f : Frame) (i : Idx) (flags : Flags) (s : Vmm σ) : Option (Frame × Vmm σ) :=
  s.ensurePresent populatePml4e f i flags

def ensurePdePresent (f : Frame) (i : Idx) (flags : Flags) (s : Vmm σ) : Option (Frame × Vmm σ) :=
  s.ensurePresent populatePdpte f i flags

def ensurePtePresent (f : Frame) (i : Idx) (flags : Flags) (s : Vmm σ) : Option (Frame × Vmm σ) :=
  s.ensurePresent populatePde f i flags

/-- The three `ensure_*` calls that every mapping function starts with. -/
def ensureTables (pml4 : Frame) (i4 i3 i2 : Idx) (flags : Flags) (s : Vmm σ) :
    Option (Frame × Vmm σ) := do
  let (pdpt, s) ← s.ensurePdptePresent pml4 i4 flags
  let (pd, s) ← s.ensurePdePresent pdpt i3 flags
  s.ensurePtePresent pd i2 flags

def populateEntry (pt : Frame) (i : Idx) (frame : Frame) (flags : Flags) (s : Vmm σ) : Vmm σ :=
  s.writeEntry pt i (populatePte (s.mem pt i) frame flags)

/-! ## Mapping at an address -/

def mapPageToFrame (pml4 : Frame) (virtPage : Word) (frame : Frame) (flags : Flags) (s : Vmm σ) :
    Option (Vmm σ) := do
  if !isPageAligned virtPage then none
  else
    let (pt, s) ← s.ensureTables pml4 (pml4Idx virtPage) (pdptIdx virtPage) (pdIdx virtPage) flags
    return s.populateEntry pt (ptIdx virtPage) frame flags

/-- The loop of `map_pages`, from a page on. -/
def mapPagesFrom (pml4 : Frame) (flags : Flags) : Nat → Word → Vmm σ → Option (Vmm σ)
  | 0, _, s => some s
  | n + 1, virtPage, s => do
    let (frame, s) ← s.alloc
    let s ← s.mapPageToFrame pml4 virtPage frame flags
    mapPagesFrom pml4 flags n (virtPage + pageSize) s

def pageStart (virtAddr : Word) : Word := virtAddr &&& ~~~(pageSize - 1)

def pageEnd (virtAddr bytes : Word) : Word :=
  (virtAddr + bytes + pageSize - 1) &&& ~~~(pageSize - 1)

def numPages (virtAddr bytes : Word) : Word :=
  (pageEnd virtAddr bytes - pageStart virtAddr) / pageSize

def mapPages (pml4 : Frame) (virtAddr bytes : Word) (flags : Flags) (s : Vmm σ) : Option (Vmm σ) :=
  if bytes = 0 then none
  else if ¬ pageStart virtAddr < pageEnd virtAddr bytes then none
  else if numPages virtAddr bytes = 0 then none
  else s.mapPagesFrom pml4 flags (numPages virtAddr bytes).toNat (pageStart virtAddr)

def mapUserPages (pml4 : Frame) (virt bytes : Word) (s : Vmm σ) : Option (Vmm σ) :=
  s.mapPages pml4 virt bytes (pageUser ||| pageWrite)

/-- `unmap_page`. An unmapped page only gives a warning. -/
def unmapPage (pml4 : Frame) (virtPage : Word) (s : Vmm σ) : Option (Vmm σ) :=
  if !isPageAligned virtPage then none
  else
    match findPte s.mem pml4 virtPage with
    | none => some s
    | some (pt, i) => some ((s.free (addr (s.mem pt i))).writeEntry pt i 0)

/-- The loop shared by `unmap_mem_at` and `free_kernel`. -/
def unmapMemAt (pml4 : Frame) : Nat → Word → Vmm σ → Option (Vmm σ)
  | 0, _, s => some s
  | n + 1, virtPage, s => do
    let s ← s.unmapPage pml4 virtPage
    unmapMemAt pml4 n (virtPage + pageSize) s

/-! ## Heaps -/

/-- A `size_t` used as an index into a table. -/
def toIdx (i : Word) : Option Idx := if i < 512 then some (i.setWidth 9) else none

/-- `get_next_heap_virt_page` -/
def nextHeapVirtPage (heap : Heap) : Word :=
  let virtPage := ((heap.pml4Idx &&& 0x1FF) <<< 39) ||| ((heap.pdptIdx &&& 0x1FF) <<< 30) |||
    ((heap.pdIdx &&& 0x1FF) <<< 21) ||| ((heap.ptIdx &&& 0x1FF) <<< 12)
  if virtPage &&& ((1 : Word) <<< 47) ≠ 0 then virtPage ||| ((0xFFFF : Word) <<< 48) else virtPage

def advanceHeap (heap : Heap) : Heap :=
  if heap.ptIdx + 1 < 512 then { heap with ptIdx := heap.ptIdx + 1 }
  else if heap.pdIdx + 1 < 512 then { heap with ptIdx := 0, pdIdx := heap.pdIdx + 1 }
  else if heap.pdptIdx + 1 < 512 then
    { heap with ptIdx := 0, pdIdx := 0, pdptIdx := heap.pdptIdx + 1 }
  else { heap with ptIdx := 0, pdIdx := 0, pdptIdx := 0, pml4Idx := heap.pml4Idx + 1 }

/-- `init_kheap`: the kernel heap starts in the entry behind that of the direct map. -/
def initKheap (s : Vmm σ) : Option (Vmm σ) := do
  let heap : Heap := ⟨s.kernelStart.setWidth 64 + 1, 0, 0, 0⟩
  let (_, s) ← s.ensureTables s.kernelPml4 (← toIdx heap.pml4Idx) (← toIdx heap.pdptIdx)
    (← toIdx heap.pdIdx) 0
  return { s with kheap := heap }

/-- `map_heap_page`: map a physical address at the heap's cursor, and advance the cursor. -/
def mapHeapPage (pml4 : Frame) (heap : Heap) (physAddr : Word) (flags : Flags) (s : Vmm σ) :
    Option (Word × Heap × Vmm σ) := do
  let virtPage := nextHeapVirtPage heap
  if !isPageAligned virtPage then none
  else
    let (pt, s) ← s.ensureTables pml4 (← toIdx heap.pml4Idx) (← toIdx heap.pdptIdx)
      (← toIdx heap.pdIdx) flags
    let s := s.populateEntry pt (← toIdx heap.ptIdx) (frameOf physAddr) flags
    return (virtPage + (physAddr &&& 0xFFF), advanceHeap heap, s)

/-- The loop of `map_heap_pages`; `firstPage` is the first page mapped, or null. -/
def mapHeapPagesFrom (pml4 : Frame) (flags : Flags) :
    Nat → Word → Heap → Vmm σ → Option (Word × Heap × Vmm σ)
  | 0, firstPage, heap, s => some (firstPage, heap, s)
  | n + 1, firstPage, heap, s => do
    let (frame, s) ← s.alloc
    let (virtPage, heap, s) ← s.mapHeapPage pml4 heap (physOf frame) flags
    mapHeapPagesFrom pml4 flags n (if firstPage = 0 then virtPage else firstPage) heap s

/-- The word at the start of a page, through the tables of `pml4`. -/
def storeWord (pml4 : Frame) (virtPage value : Word) (s : Vmm σ) : Option (Vmm σ) :=
  (findPte s.mem pml4 virtPage).map (fun (pt, i) => s.writeEntry (addr (s.mem pt i)) 0 value)

def loadWord (pml4 : Frame) (virtPage : Word) (s : Vmm σ) : Option Word :=
  (findPte s.mem pml4 virtPage).map (fun (pt, i) => s.mem (addr (s.mem pt i)) 0)

/-- `map_heap_pages`: map `bytes` and a header word at the cursor, and store the number of pages in
the header. The caller runs in the address space of `pml4`, or in one that shares the kernel's half
with it. It returns the address behind the header. -/
def mapHeapPages (pml4 : Frame) (heap : Heap) (bytes : Word) (flags : Flags) (s : Vmm σ) :
    Option (Word × Heap × Vmm σ) := do
  let total := bytes + 8
  let numPages := (total + pageSize - 1) / pageSize
  let (firstPage, heap, s) ← s.mapHeapPagesFrom pml4 flags numPages.toNat 0 heap
  if firstPage = 0 then none
  else
    let s ← s.storeWord pml4 firstPage numPages
    return (firstPage + 8, heap, s)

def allocKernel (bytes : Word) (s : Vmm σ) : Option (Word × Vmm σ) := do
  let (addr, heap, s) ← s.mapHeapPages s.kernelPml4 s.kheap bytes (pageWrite ||| pageGlobal)
  return (addr, { s with kheap := heap })

def freeKernel (virtAddr : Word) (s : Vmm σ) : Option (Vmm σ) :=
  if virtAddr = 0 then some s
  else do
    let virtPage := pageAlign virtAddr
    let numPages ← s.loadWord s.kernelPml4 virtPage
    if numPages = 0 then return s
    else s.unmapMemAt s.kernelPml4 numPages.toNat virtPage

/-- `map_phys`: a physical address at the cursor of the kernel heap. -/
def mapPhys (physAddr : Word) (flags : Flags) (s : Vmm σ) : Option (Word × Vmm σ) := do
  let (virt, heap, s) ← s.mapHeapPage s.kernelPml4 s.kheap physAddr
    (flags ||| pageWrite ||| pageGlobal)
  return (virt, { s with kheap := heap })

/-- `alloc_kernel_page`: one page, without a header. -/
def allocKernelPage (s : Vmm σ) : Option (Word × Vmm σ) := do
  let (frame, s) ← s.alloc
  s.mapPhys (physOf frame) 0

def freeKernelPage (virtAddr : Word) (s : Vmm σ) : Option (Vmm σ) :=
  if virtAddr = 0 then some s else s.unmapPage s.kernelPml4 (pageAlign virtAddr)

/-! ## Address spaces -/

/-- The indices of a table, in the order of the loops. -/
def allIdx : List Idx := (List.range 512).map (BitVec.ofNat 9)

/-- The indices of the user half of a PML4. -/
def userIdx (s : Vmm σ) : List Idx := allIdx.filter (fun i => i < s.kernelStart)

/-- `new_pml4[i] = pml4[i]` for the kernel's half. -/
def copyKernelHalf (pml4 newPml4 : Frame) (s : Vmm σ) : Vmm σ :=
  (allIdx.filter (fun i => s.kernelStart ≤ i)).foldl
    (fun s i => s.writeEntry newPml4 i (s.mem pml4 i)) s

def createUserPml4 (s : Vmm σ) : Option (Frame × Vmm σ) := do
  let (newPml4, s) ← s.alloc
  return (newPml4, (s.zeroPage newPml4).copyKernelHalf s.kernelPml4 newPml4)

/-- `free_pml4e`, `free_pdpte`, `free_pde` and `free_pte`. -/
def freeEntry (f : Frame) (i : Idx) (s : Vmm σ) : Vmm σ :=
  (s.free (addr (s.mem f i))).writeEntry f i (setP 0 (s.mem f i))

/-- One of the loops of `free_user_pml4`: for every present entry, free what is below it with
`below` and then the entry itself. -/
def freeEntries (below : Frame → Vmm σ → Vmm σ) (f : Frame) (is : List Idx) (s : Vmm σ) : Vmm σ :=
  is.foldl (fun s i => if !p (s.mem f i) then s else (below (addr (s.mem f i)) s).freeEntry f i)
    s

/-- The nested loops below a table, `depth` levels of tables deep. -/
def freeTables : Nat → Frame → Vmm σ → Vmm σ
  | 0, f, s => s.freeEntries (fun _ s => s) f allIdx
  | depth + 1, f, s => s.freeEntries (freeTables depth) f allIdx

def freeUserPml4 (pml4 : Frame) (s : Vmm σ) : Vmm σ :=
  if pml4 = s.kernelPml4 then s
  else ((s.freeEntries (freeTables 2) pml4 s.userIdx).zeroPage pml4).free pml4

/-- The body of the innermost loop of `clone_user_pml4`: the entry with a new frame, and the
contents of the page. -/
def clonePage (pt newPt : Frame) (i : Idx) (frame : Frame) (s : Vmm σ) : Vmm σ :=
  let s := s.writeEntry newPt i (s.mem pt i)
  let s := s.writeEntry newPt i (setAddr frame (s.mem newPt i))
  s.writePage (addr (s.mem newPt i)) (s.mem (addr (s.mem pt i)))

def clonePages (pt newPt : Frame) : List Idx → Vmm σ → Option (Vmm σ)
  | [], s => some s
  | i :: is, s => do
    if !p (s.mem pt i) then clonePages pt newPt is s
    else
      let (frame, s) ← s.alloc
      clonePages pt newPt is (s.clonePage pt newPt i frame)

/-- One of the outer loops: a new table below every present entry, filled by `below`. -/
def cloneEntries (populate : Word → Frame → Flags → Word)
    (below : Frame → Frame → Vmm σ → Option (Vmm σ)) (table newTable : Frame) :
    List Idx → Vmm σ → Option (Vmm σ)
  | [], s => some s
  | i :: is, s => do
    if !p (s.mem table i) then cloneEntries populate below table newTable is s
    else
      let (newSub, s) ← s.ensurePresent populate newTable i pageUser
      let s ← below (addr (s.mem table i)) newSub s
      cloneEntries populate below table newTable is s

def clonePt (pt newPt : Frame) (s : Vmm σ) : Option (Vmm σ) := s.clonePages pt newPt allIdx

def clonePd (pd newPd : Frame) (s : Vmm σ) : Option (Vmm σ) :=
  s.cloneEntries populatePde clonePt pd newPd allIdx

def clonePdpt (pdpt newPdpt : Frame) (s : Vmm σ) : Option (Vmm σ) :=
  s.cloneEntries populatePdpte clonePd pdpt newPdpt allIdx

def cloneUserPml4 (pml4 : Frame) (s : Vmm σ) : Option (Frame × Vmm σ) := do
  let (newPml4, s) ← s.alloc
  let s := (s.zeroPage newPml4).copyKernelHalf pml4 newPml4
  let s ← s.cloneEntries populatePml4e clonePdpt pml4 newPml4 s.userIdx
  return (newPml4, s)

/-- `create_user_heap` and `clone_user_heap` make sure that the tables at the cursor exist. -/
def heapAt (heap : Heap) (pml4 : Frame) (s : Vmm σ) : Option (Heap × Vmm σ) := do
  let (_, s) ← s.ensureTables pml4 (← toIdx heap.pml4Idx) (← toIdx heap.pdptIdx)
    (← toIdx heap.pdIdx) pageUser
  return (heap, s)

def createUserHeap (pml4 : Frame) (s : Vmm σ) : Option (Heap × Vmm σ) :=
  s.heapAt ⟨1, 0, 0, 0⟩ pml4

def cloneUserHeap (existing : Heap) (pml4 : Frame) (s : Vmm σ) : Option (Heap × Vmm σ) :=
  s.heapAt existing pml4

end Vmm

end Hltos
