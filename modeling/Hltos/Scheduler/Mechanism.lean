import Hltos.Containers.KMinHeap
import Hltos.Process.Process

/-!
# The scheduler mechanism

`scheduler_mechanism.cpp` over the round-robin policy of `round_robin.cpp`. The state is what the
two files keep between calls: the process list `g_processes`, the policy's FIFO, the heap
`g_sleepers`, and the fields of the one CPU. The process records live in `procs`, indexed by
pointer; a deleted record is simply no longer listed.

Every entry point that takes `g_processes_lock` is one function here: the lock disables interrupts
for the whole section, so nothing runs in between. An entry point ends by returning, or by a call
to `context_switch` or `permanent_context_switch`; which of the three is its `Exit`. A failed
`kassert` halts the machine and is `none`.

`clock::get_time_ns()` is read several times inside one call. A call takes its readings as a
function `clock : Nat → Word`, the `k`-th reading being `clock k`.
-/

namespace Hltos

/-- The fields of `percpu::PerCPU`, and the registers `activate_process` loads. -/
structure Cpu where
  process : ProcRef
  idleProcess : ProcRef
  preemptionEnabled : Bool
  kernelRsp : Word
  cr3 : Option Frame
  fsBase : Word
  tssRsp0 : Word

/-- The scheduler's state. -/
structure Sched where
  procs : ProcRef → Process
  /-- `g_processes` -/
  processes : List ProcRef
  /-- `RoundRobinScheduler::_ready` -/
  ready : List ProcRef
  /-- `g_sleepers` -/
  sleepers : KMinHeap Word ProcRef
  cpu : Cpu

/-- How an entry point leaves the scheduler. -/
inductive Exit where
  /-- it returns to its caller -/
  | returns
  /-- `yield_to_child` returns a status -/
  | status (value : Int)
  /-- `context_switch(&old->kernel_rsp_saved, next->kernel_rsp_saved)` -/
  | contextSwitch (old next : ProcRef)
  /-- `permanent_context_switch(next->kernel_rsp_saved)` -/
  | permanentContextSwitch (next : ProcRef)
  deriving DecidableEq, Repr

namespace Sched

/-- Apply one of the methods of `Process` to the record behind `p`. -/
def update (p : ProcRef) (f : Process → Process) (s : Sched) : Sched :=
  { s with procs := fun q => if q = p then f (s.procs p) else s.procs q }

/-! ## `RoundRobinScheduler` -/

/-- `TIME_SLICE_NS`: ten milliseconds. -/
def timeSliceNs : Word := 10000000

def enqueue (p : ProcRef) (s : Sched) : Sched := { s with ready := s.ready ++ [p] }

def shouldPreempt (runtimeNs : Word) : Bool := decide (timeSliceNs ≤ runtimeNs)

/-- `pick_next`: pop the front of the ready queue. -/
def pickNext (s : Sched) : Option ProcRef × Sched :=
  match s.ready with
  | [] => (none, s)
  | p :: rest => (some p, { s with ready := rest })

/-! ## Waking -/

/-- `p->wake(); g_scheduler_policy->enqueue(p);` -/
def wakeProcess (p : ProcRef) (s : Sched) : Sched := (s.update p Process.wake).enqueue p

/-- One round of the waking loops: wake `p` if it is blocked and its wait matches. -/
def wakeIf (cond : Process → Bool) (s : Sched) (p : ProcRef) : Sched :=
  if (s.procs p).isBlocked && cond (s.procs p) then s.wakeProcess p else s

/-- The loop shared by `wake_all`, `wake_parents` and `wake_mutex`. -/
def wakeWhere (cond : Process → Bool) (s : Sched) : Sched :=
  s.processes.foldl (wakeIf cond) s

/-- `wake_single`: the first blocked process of `g_processes` that waits for `reason`. -/
def wakeSingle (reason : WaitReason) (s : Sched) : Sched :=
  if reason = .sleep then s
  else
    match s.processes.find? (fun p => (s.procs p).isBlocked && (s.procs p).isWaitingFor reason) with
    | none => s
    | some p => s.wakeProcess p

def wakeAll (reason : WaitReason) (s : Sched) : Sched :=
  if reason = .sleep then s else s.wakeWhere (Process.isWaitingFor reason)

def wakeParents (pid : Int) (s : Sched) : Sched := s.wakeWhere (Process.isWaitingForChild pid)

def wakeMutex (mutex : MutexRef) (s : Sched) : Sched :=
  s.wakeWhere (Process.isWaitingForMutex mutex)

/-- The `while` loop of `wake_sleepers`. Each round pops a node, so the heap's size bounds the
number of rounds. -/
def wakeSleepersLoop (now : Word) : Nat → Sched → Sched
  | 0, s => s
  | n + 1, s =>
    match s.sleepers.peak with
    | none => s
    | some p =>
      if now < (s.procs p).wakeTimeNs then s
      else wakeSleepersLoop now n { s.wakeProcess p with sleepers := s.sleepers.pop }

def wakeSleepers (now : Word) (s : Sched) : Sched := wakeSleepersLoop now s.sleepers.size s

/-! ## Choosing and activating a process -/

/-- The loop of `find_child`: a zombie child if one is met, else the first child. -/
def findChildFrom (s : Sched) (parent : ProcRef) (pid : Int) :
    Option ProcRef → List ProcRef → Option ProcRef
  | firstMatch, [] => firstMatch
  | firstMatch, p :: rest =>
    if pid ≠ -1 ∧ (s.procs p).pid ≠ pid then findChildFrom s parent pid firstMatch rest
    else
      match (s.procs p).parent with
      | none => findChildFrom s parent pid firstMatch rest
      | some q =>
        if (s.procs q).pid ≠ (s.procs parent).pid then findChildFrom s parent pid firstMatch rest
        else if (s.procs p).isZombie then some p
        else findChildFrom s parent pid (firstMatch.or (some p)) rest

def findChild (parent : ProcRef) (pid : Int) (s : Sched) : Option ProcRef :=
  s.findChildFrom parent pid none s.processes

/-- `activate_process`: make `p` the running process of this CPU. Loading a null PML4 fails the
`kassert` of `switch_pml4`. -/
def activateProcess (now : Word) (p : ProcRef) (s : Sched) : Option Sched :=
  if (s.procs p).pml4.isSome then
    let s := s.update p (Process.activate now)
    some { s with cpu := { s.cpu with
      process := p
      kernelRsp := (s.procs p).kernelRsp
      cr3 := (s.procs p).pml4
      fsBase := (s.procs p).fsBase
      tssRsp0 := (s.procs p).kernelRsp } }
  else none

/-- `enqueue_if_runnable`: the idle process is never enqueued. -/
def enqueueIfRunnable (p : ProcRef) (s : Sched) : Sched :=
  if p = s.cpu.idleProcess then s
  else if (s.procs p).isReady then s.enqueue p
  else s

/-- `pick_next_process`: wake any due sleepers, then ask the policy. -/
def pickNextProcess (now : Word) (s : Sched) : ProcRef × Sched :=
  match (s.wakeSleepers now).pickNext with
  | (none, s) => (s.cpu.idleProcess, s)
  | (some p, s) => (p, s)

/-! ## Giving up the CPU -/

/-- Whether `preempt` gets past its two early returns: preemption is enabled, and the current
process is idle or has used up its slice. -/
def wantsPreempt (now : Word) (s : Sched) : Bool :=
  s.cpu.preemptionEnabled &&
    (s.cpu.process == s.cpu.idleProcess || shouldPreempt
      (now - (s.procs s.cpu.process).quantumStartNs))

def preempt (clock : Nat → Word) (s : Sched) : Option (Sched × Exit) :=
  if s.wantsPreempt (clock 0) then
    let current := s.cpu.process
    let (next, s) := s.pickNextProcess (clock 1)
    -- a process never switches to itself
    if current = next then some (s, .returns)
    else
      let s := (s.update current Process.pause).enqueueIfRunnable current
      (s.activateProcess (clock 2) next).map (fun s => (s, .contextSwitch current next))
  else some (s, .returns)

/-- `tick`, once a policy is installed. -/
def tick (clock : Nat → Word) (s : Sched) : Option (Sched × Exit) :=
  (s.wakeSleepers (clock 0)).preempt (fun k => clock (k + 1))

/-- The tail of `yield_dead` and `yield_zombie`, once the current process has left the run: choose
another, which the `kassert` demands, and never come back. -/
def leaveForever (clock : Nat → Word) (s : Sched) : Option (Sched × Exit) :=
  let current := s.cpu.process
  let (next, s) := s.pickNextProcess (clock 0)
  if current = next then none
  else (s.activateProcess (clock 1) next).map (fun s => (s, .permanentContextSwitch next))

def yieldDead (clock : Nat → Word) (s : Sched) : Option (Sched × Exit) :=
  (s.update s.cpu.process Process.kill).leaveForever clock

def yieldZombie (clock : Nat → Word) (s : Sched) : Option (Sched × Exit) :=
  let s := s.update s.cpu.process Process.zombify
  (s.wakeParents (s.procs s.cpu.process).pid).leaveForever clock

/-- `-ECHILD` -/
def noChild : Int := -10

/-- One round of the loop of `yield_to_child`. A round that blocks goes round again once the
parent is resumed. -/
def yieldToChild (childPid : Int) (clock : Nat → Word) (s : Sched) : Option (Sched × Exit) :=
  let parent := s.cpu.process
  match s.findChild parent childPid with
  | none => some (s, .status noChild)
  | some child =>
    if (s.procs child).isZombie then
      let exitStatus := (s.procs child).exitStatus
      some ((s.update child Process.kill).update parent (Process.resume (clock 0)),
        .status exitStatus)
    else
      let s := s.update parent (Process.waitForChild childPid)
      let (next, s) := s.pickNextProcess (clock 0)
      (s.activateProcess (clock 1) next).map (fun s => (s, .contextSwitch parent next))

/-- `g_sleepers.insert(current->wake_time_ns, current)` -/
def insertSleeper (p : ProcRef) (s : Sched) : Sched :=
  { s with sleepers := s.sleepers.insert (s.procs p).wakeTimeNs p }

/-- The start of `yield_blocked`: the current process waits, and a sleeper goes into the heap. -/
def beginWait (reason : WaitReason) (s : Sched) : Sched :=
  let current := s.cpu.process
  let s := s.update current (Process.waitFor reason)
  if reason = .sleep then s.insertSleeper current else s

def yieldBlocked (reason : WaitReason) (clock : Nat → Word) (s : Sched) : Option (Sched × Exit) :=
  let current := s.cpu.process
  let (next, s) := (s.beginWait reason).pickNextProcess (clock 0)
  -- a sleeper that is already due may be picked again inside its own yield
  if current = next then some (s.update current (Process.resume (clock 1)), .returns)
  else (s.activateProcess (clock 1) next).map (fun s => (s, .contextSwitch current next))

/-- The first half of `yield_sleep_ns`, before any lock is taken. -/
def beginSleep (duration now : Word) (s : Sched) : Sched :=
  s.update s.cpu.process (Process.sleepFor now duration)

def yieldSleepNs (duration : Word) (clock : Nat → Word) (s : Sched) : Option (Sched × Exit) :=
  (s.beginSleep duration (clock 0)).yieldBlocked .sleep (fun k => clock (k + 1))

/-- The first half of `yield_mutex`, before any lock is taken. -/
def beginMutex (mutex : MutexRef) (s : Sched) : Sched :=
  s.update s.cpu.process (Process.waitForMutex mutex)

def yieldMutex (mutex : MutexRef) (clock : Nat → Word) (s : Sched) : Option (Sched × Exit) :=
  (s.beginMutex mutex).yieldBlocked .mutex clock

/-- `yield_new_process`: the freshly loaded current process queues up like any other. -/
def yieldNewProcess (clock : Nat → Word) (s : Sched) : Option (Sched × Exit) :=
  let current := s.cpu.process
  let (next, s) := s.pickNextProcess (clock 0)
  if current = next then none
  else
    let s := (s.update current Process.wake).enqueueIfRunnable current
    (s.activateProcess (clock 1) next).map (fun s => (s, .permanentContextSwitch next))

/-! ## The process list -/

/-- `add_process`, together with the record the caller has just built behind `p`. -/
def addProcess (p : ProcRef) (record : Process) (s : Sched) : Sched :=
  ({ s.update p (fun _ => record) with processes := s.processes ++ [p] }).enqueue p

/-- `reap`: delete every dead process. The `kassert` refuses a dead reaper. -/
def reap (s : Sched) : Option Sched :=
  if s.processes.any (fun p => (s.procs p).isDead && p == s.cpu.process) then none
  else some { s with processes := s.processes.filter (fun p => !(s.procs p).isDead) }

end Sched

end Hltos
