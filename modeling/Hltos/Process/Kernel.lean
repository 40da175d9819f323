import Hltos.Memory.Roots
import Hltos.Process.Loading
import Hltos.Scheduler.Switched

/-!
# The kernel and its page tables

What CR3 holds, through the life of the processes. `activate_process` loads it, and so do
`Process::fork`, which switches to the clone and back, and `exec_elf64`, which frees the old PML4,
switches to a new one and ends in the kernel's. System calls run with interrupts off, so that
nothing is scheduled inside of the two; each of their steps is a step here, and the kernel heap may
be used in between. A call of the scheduler is one step, run to its end.
-/

namespace Hltos

open Lib.Transition Vmm Sched

/-- A call of `exec_elf64`. -/
structure ExecCall where
  /-- A new process that is not listed yet (`userspace::init`), or else the current one
  (`sys_execve`). -/
  target : Option (ProcRef × Process)
  kernelStack : Word
  fileBuffer : Word
  argvStrs : List (List Byte)
  envpStrs : List (List Byte)

/-- How far the kernel is in `Process::fork` or in `exec_elf64`. -/
inductive Stage where
  | outside
  /-- in `fork`, after `switch_pml4(cloned_pml4)` -/
  | forking (clonedPml4 : Frame)
  /-- after `free_user_pml4` -/
  | freed (call : ExecCall) (file : Elf64File)
  /-- after `switch_pml4(pml4)` -/
  | created (call : ExecCall) (file : Elf64File) (pml4 : Frame)
  /-- in the loop over the program headers, with those that are left -/
  | mapping (call : ExecCall) (entry : Word) (pml4 : Frame) (uheap : Heap)
    (headers : List Elf64ProgramHeader) (heapBreak : Word)
  /-- after `build_user_stack` -/
  | built (call : ExecCall) (image : Process.ExecImage)
  /-- in `sys_execve`, after `exec_elf64` -/
  | replaced

/-- The header that the loop comes to next. -/
def Stage.nextHeader : Stage → Option Elf64ProgramHeader
  | mapping _ _ _ _ (header :: _) _ => some header
  | _ => none

/-- The call of `exec_elf64` whose headers are being mapped. -/
def Stage.mappingCall : Stage → Option ExecCall
  | mapping call _ _ _ _ _ => some call
  | _ => none

structure Kernel (σ : Type) where
  vmm : Vmm σ
  sched : Sched
  stage : Stage
  /-- The roots that have been created and not been passed to `free_user_pml4` since. -/
  live : List Frame

inductive KernelOp where
  | call (c : Sched.Call) (clock : Nat → Word)
  /-- `add_process(new KThread)`, at an address that the allocator chooses -/
  | addKThread (p : ProcRef) (pid : Int) (kernelRsp entry : Word)
  | reap
  /-- `Process::fork`, up to `switch_pml4(cloned_pml4)` -/
  | forkClone
  /-- the rest of `sys_fork` -/
  | forkFinish (p : ProcRef) (pid : Int) (kernelRsp : Word)
  /-- `exec_elf64`, up to `free_user_pml4` -/
  | execFree (call : ExecCall)
  /-- `create_user_pml4` and `switch_pml4` -/
  | execCreate
  | execHeap
  | execHeader
  | execStack
  /-- `switch_kernel_pml4` -/
  | execFinish
  | yieldNewProcess (clock : Nat → Word)
  | allocKernel (bytes : Word)
  | freeKernel (virtAddr : Word)
  | allocKernelPage
  | freeKernelPage (virtAddr : Word)

/-- `switch_pml4` -/
def Sched.switchPml4 (pml4 : Frame) (s : Sched) : Sched :=
  { s with cpu := { s.cpu with cr3 := some pml4 } }

namespace Kernel

variable {σ : Type} [FrameAllocator σ]

/-! ## Steps -/

/-- The record of the current process. -/
def record (k : Kernel σ) : Process := k.sched.procs k.sched.cpu.process

/-- The current process is not the idle one, which makes no system calls. -/
def busy (k : Kernel σ) : Bool := k.sched.cpu.process != k.sched.cpu.idleProcess

/-- Nothing of `fork` or `exec_elf64` is under way. -/
def isOutside (k : Kernel σ) : Bool :=
  match k.stage with
  | .outside => true
  | _ => false

def schedule (c : Sched.Call) (clock : Nat → Word) (k : Kernel σ) : Option (Kernel σ) :=
  if k.isOutside && c.keepsSpaces then
    (k.sched.call c clock).map (fun s => { k with sched := s })
  else none

/-- `add_process` of a record that is not listed yet. -/
def add (p : ProcRef) (record : Process) (k : Kernel σ) : Option (Kernel σ) :=
  (k.sched.call (.addProcess p record) (fun _ => 0)).map (fun s => { k with sched := s })

def addKThread (p : ProcRef) (pid : Int) (kernelRsp entry : Word) (k : Kernel σ) :
    Option (Kernel σ) :=
  if k.isOutside then
    k.add p { (k.sched.procs p).construct pid kernelRsp with
      pml4 := some k.vmm.kernelPml4, entry := entry }
  else none

/-- The `free_user_pml4` of each destructor, in the order of the list. A null PML4 faults. -/
def terminateAll : List (Option Frame) → Vmm σ → List Frame → Option (Vmm σ × List Frame)
  | [], s, live => some (s, live)
  | none :: _, _, _ => none
  | some pml4 :: pml4s, s, live => terminateAll pml4s (s.freeUserPml4 pml4) (live.filter (· ≠ pml4))

/-- `reap`, with the destructors of the dead processes. -/
def reap (k : Kernel σ) : Option (Kernel σ) :=
  if k.isOutside then do
    let s ← k.sched.reap
    let dead := k.sched.processes.filter (fun p => (k.sched.procs p).isDead)
    let (vmm, live) ← terminateAll (dead.map (fun p => (k.sched.procs p).pml4)) k.vmm k.live
    return { k with vmm := vmm, sched := s, live := live }
  else none

/-- A kernel thread does not fork. -/
def forkClone (k : Kernel σ) : Option (Kernel σ) :=
  if k.isOutside && k.busy && k.record.pml4 != some k.vmm.kernelPml4 then do
    let (clonedPml4, s) ← k.vmm.cloneUserPml4 (← k.record.pml4)
    return {
      vmm := s, sched := k.sched.switchPml4 clonedPml4, stage := .forking clonedPml4,
      live := clonedPml4 :: k.live }
  else none

def forkFinish (p : ProcRef) (pid : Int) (kernelRsp : Word) (k : Kernel σ) : Option (Kernel σ) :=
  match k.stage with
  | .forking clonedPml4 => do
    let (uheap, s) ← k.vmm.cloneUserHeap k.record.uheap clonedPml4
    let forked := k.record.fork k.sched.cpu.process clonedPml4 uheap
      ((k.sched.procs p).construct pid kernelRsp)
    let pml4 ← k.record.pml4
    add p forked { k with vmm := s, sched := k.sched.switchPml4 pml4, stage := .outside }
  | _ => none

/-- The record that `exec_elf64` is called on. -/
def execRecord (call : ExecCall) (k : Kernel σ) : Process :=
  match call.target with
  | none => k.record
  | some (_, record) => record

/-- `sys_execve` is called by a process, and `userspace::init` on the boot stack with a process that
the constructor has just left. -/
def canExec (call : ExecCall) (k : Kernel σ) : Bool :=
  match call.target with
  | none => k.busy
  | some (_, record) => !k.busy && record.pml4.isNone

def execFree (call : ExecCall) (k : Kernel σ) : Option (Kernel σ) :=
  if k.isOutside && k.canExec call then do
    let cr3 ← k.sched.cpu.cr3
    let file ← Elf.parseFile (fun v => k.vmm.loadByte cr3 v) call.fileBuffer
    if !file.isValidElf then none
    else
      let pml4 := (k.execRecord call).pml4
      return { k with
        vmm := k.vmm.freeOldPml4 pml4, stage := .freed call file
        live := k.live.filter (fun r => some r ≠ pml4) }
  else none

def execCreate (k : Kernel σ) : Option (Kernel σ) :=
  match k.stage with
  | .freed call file => do
    let (pml4, s) ← k.vmm.createUserPml4
    return {
      vmm := s, sched := k.sched.switchPml4 pml4, stage := .created call file pml4
      live := pml4 :: k.live }
  | _ => none

def execHeap (k : Kernel σ) : Option (Kernel σ) :=
  match k.stage with
  | .created call file pml4 => do
    let (uheap, s) ← k.vmm.createUserHeap pml4
    return { k with vmm := s, stage := .mapping call file.entry pml4 uheap file.programHeaders 0 }
  | _ => none

def execHeader (k : Kernel σ) : Option (Kernel σ) :=
  match k.stage with
  | .mapping call entry pml4 uheap (header :: headers) heapBreak => do
    let (heapBreak, s) ← k.vmm.mapElf64Header pml4 call.fileBuffer header heapBreak
    return { k with vmm := s, stage := .mapping call entry pml4 uheap headers heapBreak }
  | _ => none

def execStack (k : Kernel σ) : Option (Kernel σ) :=
  match k.stage with
  | .mapping call entry pml4 uheap [] heapBreak => do
    let (userRsp, s) ← k.vmm.buildUserStack pml4 call.argvStrs call.envpStrs
    return { k with
      vmm := s
      stage := .built call {
        pml4 := pml4, heapBreak := heapBreak, uheap := uheap,
        kernelRsp := call.kernelStack + kernelStackSize, userRsp := userRsp, entry := entry } }
  | _ => none

/-- Then `userspace::init` adds the process, and `sys_execve` goes on to `yield_new_process`. -/
def execFinish (k : Kernel σ) : Option (Kernel σ) :=
  match k.stage with
  | .built call image =>
    let s := k.sched.switchPml4 k.vmm.kernelPml4
    match call.target with
    | none =>
      some { k with sched := s.update s.cpu.process (Process.execReset image), stage := .replaced }
    | some (p, record) => add p (record.execReset image) { k with sched := s, stage := .outside }
  | _ => none

def yieldNewProcess (clock : Nat → Word) (k : Kernel σ) : Option (Kernel σ) :=
  match k.stage with
  | .replaced =>
    (k.sched.yieldNewProcess clock).map (fun r => { k with sched := r.1, stage := .outside })
  | _ => none

/-- `free_kernel` and `free_kernel_page` are called with addresses of the kernel heap. -/
def next : KernelOp → Kernel σ → Option (Kernel σ)
  | .call c clock, k => k.schedule c clock
  | .addKThread p pid kernelRsp entry, k => k.addKThread p pid kernelRsp entry
  | .reap, k => k.reap
  | .forkClone, k => k.forkClone
  | .forkFinish p pid kernelRsp, k => k.forkFinish p pid kernelRsp
  | .execFree call, k => k.execFree call
  | .execCreate, k => k.execCreate
  | .execHeap, k => k.execHeap
  | .execHeader, k => k.execHeader
  | .execStack, k => k.execStack
  | .execFinish, k => k.execFinish
  | .yieldNewProcess clock, k => k.yieldNewProcess clock
  | .allocKernel bytes, k => (k.vmm.allocKernel bytes).map (fun r => { k with vmm := r.2 })
  | .freeKernel virtAddr, k =>
    if virtAddr ≠ 0 → Rooted.HeapBlock virtAddr k.vmm then
      (k.vmm.freeKernel virtAddr).map (fun s => { k with vmm := s })
    else none
  | .allocKernelPage, k => k.vmm.allocKernelPage.map (fun r => { k with vmm := r.2 })
  | .freeKernelPage virtAddr, k =>
    if virtAddr ≠ 0 → k.vmm.heapHead (pml4Idx (pageAlign virtAddr)) then
      (k.vmm.freeKernelPage virtAddr).map (fun s => { k with vmm := s })
    else none

/-- After `percpu::init`: the idle process is current, in the kernel's address space, which has the
direct map. -/
def system (σ : Type) [FrameAllocator σ] : System (Kernel σ) KernelOp where
  init k := Spaces.Booted k.vmm ∧ k.vmm.HasEntry k.vmm.kernelStart ∧ Sched.system.init k.sched ∧
    k.record.pml4 = some k.vmm.kernelPml4 ∧ k.sched.cpu.cr3 = some k.vmm.kernelPml4 ∧
    k.stage = .outside ∧ k.live = []
  next := next

end Kernel

end Hltos
