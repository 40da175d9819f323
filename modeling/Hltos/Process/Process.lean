import Hltos.Basic

/-!
# `process::Process`: the process record and its state changes

The fields of `process.hpp` that the scheduler, the loader and the memory syscalls read or write.
A `Process*` is a `ProcRef`, a `kmutex*` a `MutexRef`; a null pointer is `none`.

The scheduler never assigns a state directly: every change goes through one of the small methods
below (`wake`, `pause`, `resume`, `kill`, `zombify`, `waitFor…`, `sleepFor`). Each is the method of
`process.cpp` with the clock reading it makes, if any, as an argument.
-/

namespace Hltos

/-- A `process::Process*`. -/
abbrev ProcRef := Nat

/-- A `kmutex*`. -/
abbrev MutexRef := Nat

inductive ProcessState where
  | new
  | running
  | ready
  | blocked
  | sleeping
  | dead
  | zombie
  deriving DecidableEq, Repr

inductive WaitReason where
  | none
  | keyboard
  | sleep
  | framebuffer
  | childProcess
  | mutex
  | signal
  deriving DecidableEq, Repr

/-- `vmm::Heap`: the cursor of a virtual heap, one index for each table level. -/
structure Heap where
  pml4Idx : Word
  pdptIdx : Word
  pdIdx : Word
  ptIdx : Word
  deriving DecidableEq, Repr

/-- `process::Process`. -/
structure Process where
  pid : Int
  parent : Option ProcRef
  state : ProcessState
  waitReason : WaitReason
  waitPid : Int
  exitStatus : Int
  contextSwitches : Word
  wakeTimeNs : Word
  quantumStartNs : Word
  waitMutex : Option MutexRef
  /-- The frame of the PML4, `none` for a null `pml4`. -/
  pml4 : Option Frame
  heapBreak : Word
  uheap : Heap
  kernelRsp : Word
  userRsp : Word
  entry : Word
  fsBase : Word
  tidptr : Word
  deriving DecidableEq, Repr

namespace Process

/-! ## Queries -/

def isReady (p : Process) : Bool := p.state == .ready || p.state == .new

def isZombie (p : Process) : Bool := p.state == .zombie

def isDead (p : Process) : Bool := p.state == .dead

/-- `is_blocked`. A `SLEEPING` process is not blocked. -/
def isBlocked (p : Process) : Bool := p.state == .blocked

def isWaitingFor (reason : WaitReason) (p : Process) : Bool := p.waitReason == reason

def isWaitingForChild (pid : Int) (p : Process) : Bool :=
  p.isWaitingFor .childProcess && (p.waitPid == pid || p.waitPid == -1)

def isWaitingForMutex (mutex : MutexRef) (p : Process) : Bool :=
  p.isWaitingFor .mutex && p.waitMutex == some mutex

/-! ## State changes -/

def wake (p : Process) : Process :=
  { p with state := .ready, waitReason := .none, waitPid := -1, waitMutex := none, wakeTimeNs := 0 }

/-- `pause`: only a running process becomes ready. -/
def pause (p : Process) : Process :=
  if p.state = .running then { p with state := .ready } else p

def resume (now : Word) (p : Process) : Process :=
  { p with
    state := .running, waitReason := .none, waitPid := -1, waitMutex := none, wakeTimeNs := 0,
    quantumStartNs := now }

/-- `resume`, and the `context_switches++` that follows it in `activate_process`. -/
def activate (now : Word) (p : Process) : Process :=
  { p.resume now with contextSwitches := p.contextSwitches + 1 }

def kill (p : Process) : Process := { p with state := .dead }

def zombify (p : Process) : Process := { p with state := .zombie }

def waitFor (reason : WaitReason) (p : Process) : Process :=
  { p with state := if reason = .sleep then .sleeping else .blocked, waitReason := reason }

def waitForChild (childPid : Int) (p : Process) : Process :=
  { p.waitFor .childProcess with waitPid := childPid }

def waitForMutex (mutex : MutexRef) (p : Process) : Process :=
  { p.waitFor .mutex with waitMutex := some mutex }

/-- `sleep_for`: the wake time is a 64-bit sum and may wrap. -/
def sleepFor (now duration : Word) (p : Process) : Process :=
  { p.waitFor .sleep with wakeTimeNs := now + duration }

/-- The parts of a process that `exec_elf64` computes from the file it loads. -/
structure ExecImage where
  pml4 : Frame
  heapBreak : Word
  uheap : Heap
  kernelRsp : Word
  userRsp : Word
  entry : Word

/-- What `exec_elf64` leaves in the record of the process it replaces. -/
def execReset (image : ExecImage) (p : Process) : Process :=
  { p with
    state := .new, waitReason := .none, exitStatus := 0, wakeTimeNs := 0, fsBase := 0, tidptr := 0,
    pml4 := some image.pml4, heapBreak := image.heapBreak, uheap := image.uheap,
    kernelRsp := image.kernelRsp, userRsp := image.userRsp, entry := image.entry }

/-- The constructor. The fields that it does not set keep whatever the memory held. -/
def construct (pid : Int) (kernelRsp : Word) (memory : Process) : Process :=
  { memory with
    pid := pid, parent := none, pml4 := none, exitStatus := 0, state := .new, waitReason := .none,
    heapBreak := 0, quantumStartNs := 0, wakeTimeNs := 0, fsBase := 0, tidptr := 0,
    kernelRsp := kernelRsp }

/-- `Process::fork` of the process `p` at `self`: what it leaves in the `forked` record, with the
cloned address space. -/
def fork (self : ProcRef) (clonedPml4 : Frame) (uheap : Heap) (p forked : Process) : Process :=
  { forked with
    parent := some self, state := .new, waitReason := p.waitReason, exitStatus := p.exitStatus,
    heapBreak := p.heapBreak, pml4 := some clonedPml4, quantumStartNs := p.quantumStartNs,
    wakeTimeNs := p.wakeTimeNs, fsBase := p.fsBase, tidptr := p.tidptr, uheap := uheap }

/-! ## What each change leaves in the fields the scheduler looks at -/

@[simp] theorem wake_state (p : Process) : p.wake.state = .ready := rfl

@[simp] theorem resume_state (now : Word) (p : Process) : (p.resume now).state = .running := rfl

@[simp] theorem activate_state (now : Word) (p : Process) : (p.activate now).state = .running := rfl

@[simp] theorem kill_state (p : Process) : p.kill.state = .dead := rfl

@[simp] theorem zombify_state (p : Process) : p.zombify.state = .zombie := rfl

@[simp] theorem waitForChild_state (c : Int) (p : Process) :
    (p.waitForChild c).state = .blocked := rfl

@[simp] theorem waitForMutex_state (m : MutexRef) (p : Process) :
    (p.waitForMutex m).state = .blocked := rfl

@[simp] theorem sleepFor_state (now d : Word) (p : Process) :
    (p.sleepFor now d).state = .sleeping := rfl

/-- A wait ends in `SLEEPING` or `BLOCKED`, according to the reason. -/
theorem waitFor_state (r : WaitReason) (p : Process) :
    (p.waitFor r).state = if r = .sleep then .sleeping else .blocked := rfl

@[simp] theorem waitFor_wakeTimeNs (r : WaitReason) (p : Process) :
    (p.waitFor r).wakeTimeNs = p.wakeTimeNs := rfl

variable {p : Process}

theorem isReady_iff : p.isReady = true ↔ p.state = .ready ∨ p.state = .new := by simp [isReady]

@[simp] theorem isReady_wake (p : Process) : p.wake.isReady = true := rfl

theorem isBlocked_iff : p.isBlocked = true ↔ p.state = .blocked := by simp [isBlocked]

theorem isReady_pause (h : p.state = .running ∨ p.isReady = true) : p.pause.isReady = true := by
  unfold pause
  split
  · rfl
  · next hr => exact h.resolve_left hr

end Process

end Hltos
