import Hltos.Memory.Access
import Hltos.Memory.Clone
import Hltos.Process.Elf

/-!
# Loading a program

`exec_elf64`, `map_elf64_header` and `build_user_stack` of `process.cpp`. From `switch_pml4` on the
kernel runs in the new address space, and the segments and the stack are written through its tables;
the file buffer is read through them as well. The strings, the process record and the frame on the
kernel stack are values.
-/

namespace Hltos

namespace Vmm

variable {σ : Type} [FrameAllocator σ]

/-! ## Segments -/

/-- The part of a segment that is not in the file. -/
def zeroRest (pml4 : Frame) (header : Elf64ProgramHeader) (s : Vmm σ) : Option (Vmm σ) :=
  if header.pFilesz < header.pMemsz then
    s.memset pml4 0 (header.pMemsz - header.pFilesz).toNat (header.pVaddr + header.pFilesz)
  else some s

/-- The break behind a segment. -/
def breakAfter (header : Elf64ProgramHeader) (heapBreak : Word) : Word :=
  let segmentEnd := header.pVaddr + header.pMemsz
  if heapBreak < segmentEnd then (segmentEnd + 0xFFF) &&& ~~~(0xFFF : Word) else heapBreak

/-- `map_elf64_header`, with the break before and after. -/
def mapElf64Header (pml4 : Frame) (fileBuffer : Word) (header : Elf64ProgramHeader)
    (heapBreak : Word) (s : Vmm σ) : Option (Word × Vmm σ) := do
  let s ← s.mapUserPages pml4 header.pVaddr header.pMemsz
  let s ← s.memcpy pml4 header.pFilesz.toNat header.pVaddr (fileBuffer + header.pOffset)
  let s ← s.zeroRest pml4 header
  return (breakAfter header heapBreak, s)

def mapElf64Headers (pml4 : Frame) (fileBuffer : Word) :
    List Elf64ProgramHeader → Word → Vmm σ → Option (Word × Vmm σ)
  | [], heapBreak, s => some (heapBreak, s)
  | header :: headers, heapBreak, s => do
    let (heapBreak, s) ← s.mapElf64Header pml4 fileBuffer header heapBreak
    mapElf64Headers pml4 fileBuffer headers heapBreak s

/-! ## The stack -/

def userStackBase : Word := 0x00800000
def userStackSize : Word := 32 * 1024
def userStackTop : Word := userStackBase + userStackSize

/-- `*(--stack) = value` -/
def push (pml4 : Frame) (value : Word) (stack : Word) (s : Vmm σ) : Option (Word × Vmm σ) := do
  let stack := stack - 8
  let s ← s.storeBytes pml4 (wordBytes value) stack
  return (stack, s)

/-- The values of a list, the first one at the highest address. -/
def pushAll (pml4 : Frame) : List Word → Word → Vmm σ → Option (Word × Vmm σ)
  | [], stack, s => some (stack, s)
  | value :: values, stack, s => do
    let (stack, s) ← s.push pml4 value stack
    pushAll pml4 values stack s

/-- The characters of a string and a terminator, below the stack pointer. -/
def pushString (pml4 : Frame) (str : List Byte) (stack : Word) (s : Vmm σ) :
    Option (Word × Vmm σ) := do
  let ptr := stack - BitVec.ofNat 64 (str.length + 1)
  let s ← s.storeBytes pml4 str ptr
  let s ← s.storeByte pml4 (ptr + BitVec.ofNat 64 str.length) 0
  return (ptr, s)

/-- The strings of a list; their addresses are added to `ptrs`. -/
def pushStrings (pml4 : Frame) :
    List (List Byte) → List Word → Word → Vmm σ → Option (List Word × Word × Vmm σ)
  | [], ptrs, stack, s => some (ptrs, stack, s)
  | str :: strs, ptrs, stack, s => do
    let (ptr, s) ← s.pushString pml4 str stack
    pushStrings pml4 strs (ptrs ++ [ptr]) ptr s

/-- `build_user_stack`. The addresses of the environment strings go to `argv_ptrs` as well, and
`envp_ptrs` stays empty. -/
def buildUserStack (pml4 : Frame) (argvStrs envpStrs : List (List Byte)) (s : Vmm σ) :
    Option (Word × Vmm σ) := do
  let s ← s.mapUserPages pml4 userStackBase userStackSize
  let (stack, s) ← s.push pml4 0 userStackTop
  let envpPtrs : List Word := []
  let (argvPtrs, stack, s) ← s.pushStrings pml4 envpStrs [] stack
  let (argvPtrs, stack, s) ← s.pushStrings pml4 argvStrs argvPtrs stack
  let (stack, s) ← s.pushAll pml4 [0, 0] stack -- AT_NULL
  let (stack, s) ← s.push pml4 0 stack
  let (stack, s) ← s.pushAll pml4 envpPtrs.reverse stack
  let (stack, s) ← s.push pml4 0 stack
  let (stack, s) ← s.pushAll pml4 argvPtrs.reverse stack
  s.push pml4 (BitVec.ofNat 64 argvStrs.length) stack

/-! ## `exec_elf64` -/

def kernelStackSize : Word := 32 * 1024

/-- `free_user_pml4` of the address space that is replaced, if there is one. -/
def freeOldPml4 (pml4 : Option Frame) (s : Vmm σ) : Vmm σ :=
  match pml4 with
  | none => s
  | some pml4 => s.freeUserPml4 pml4

/-- `exec_elf64` of the file at `fileBuffer`, when `cr3` is the active root. -/
def execElf64 (cr3 : Frame) (kernelStack fileBuffer : Word) (argvStrs envpStrs : List (List Byte))
    (p : Process) (s : Vmm σ) : Option (Process × Vmm σ) := do
  let file ← Elf.parseFile (fun v => s.loadByte cr3 v) fileBuffer
  if !file.isValidElf then none
  else
    let (pml4, s) ← (s.freeOldPml4 p.pml4).createUserPml4
    let (uheap, s) ← s.createUserHeap pml4
    let (heapBreak, s) ← s.mapElf64Headers pml4 fileBuffer file.programHeaders 0
    let (userRsp, s) ← s.buildUserStack pml4 argvStrs envpStrs
    return (p.execReset {
      pml4 := pml4, heapBreak := heapBreak, uheap := uheap,
      kernelRsp := kernelStack + kernelStackSize, userRsp := userRsp, entry := file.entry }, s)

end Vmm

end Hltos
