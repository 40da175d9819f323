import Mathlib

/-!
# The way back to user mode

`syscall_entry.s`, `context_switch.s` and `isr.s`, instruction by instruction, as far as they
change the interrupt flag, the stack, the GS base and the privilege level. `isr_common` swaps GS
only if the interrupted code was in user mode, so an interrupt taken in ring 0 while GS or the
stack is still, or already, the user's runs on the wrong one: such a mode is `exposed`.

Between the assembly stubs the kernel runs C++ code, an `Activity`. Of what it does, three things
touch the interrupt flag: sections under a `kspinlock_irqsave`, which restore it; calls of
`context_switch`, which end with `sti` whatever it was; and nested interrupts, whose `iretq`
restores it.
-/

namespace Hltos.Trap

inductive Side where
  | user
  | kernel
  deriving DecidableEq, Repr

/-- The part of the CPU's state that decides whether an interrupt is safe. -/
structure Mode where
  /-- RFLAGS.IF -/
  interrupts : Bool
  /-- whose stack RSP points into -/
  rsp : Side
  /-- whose GS base is active -/
  gs : Side
  cpl : Side
  deriving DecidableEq, Repr

def Mode.inUser : Mode := ⟨true, .user, .user, .user⟩

def Mode.inKernel (interrupts : Bool) : Mode := ⟨interrupts, .kernel, .kernel, .kernel⟩

/-- An interrupt could be taken in ring 0 with the user's stack or the user's GS base. -/
def Mode.exposed (m : Mode) : Bool :=
  m.interrupts && m.cpl == .kernel && (m.rsp == .user || m.gs == .user)

inductive Reg where
  | rax | rbx | rcx | rdx | rsi | rdi | rbp | rsp | r8 | r9 | r10 | r11 | r12 | r13 | r14 | r15
  deriving DecidableEq, Repr

/-- The instructions of the stubs. -/
inductive Instr where
  | push (r : Reg)
  | pop (r : Reg)
  /-- an immediate or a memory operand is pushed -/
  | pushOperand
  /-- a move, comparison, jump, call, return or addition that changes nothing here -/
  | plain
  /-- `mov %gs:PER_CPU_KERNEL_RSP_OFFSET, %rsp` -/
  | loadKernelRsp
  | swapgs
  | cli
  | sti
  | sysretq
  /-- return to the mode in the interrupt frame -/
  | iretq (frame : Mode)
  deriving DecidableEq, Repr

def Side.swap : Side → Side
  | .user => .kernel
  | .kernel => .user

/-- The only `pop %rsp` of the stubs restores the user's stack pointer. `iretq` takes RSP, RFLAGS
and CS from the frame and leaves GS alone; `sysretq` takes RFLAGS from R11, where SYSCALL put the
user's. -/
def Instr.step : Instr → Mode → Mode
  | .pop .rsp, m => { m with rsp := .user }
  | .loadKernelRsp, m => { m with rsp := .kernel }
  | .swapgs, m => { m with gs := m.gs.swap }
  | .cli, m => { m with interrupts := false }
  | .sti, m => { m with interrupts := true }
  | .sysretq, m => { m with interrupts := true, cpl := .user }
  | .iretq frame, m => { frame with gs := m.gs }
  | _, m => m

/-- The modes a straight run of instructions passes through, and the one it ends in. -/
def runInstrs : List Instr → Mode → List Mode × Mode
  | [], m => ([], m)
  | i :: is, m =>
    let (t, m') := runInstrs is (i.step m)
    (m :: t, m')

/-! ## The stubs -/

def syscallEntry : List Instr :=
  [.swapgs, .plain, .loadKernelRsp, .pushOperand, .push .rax, .push .rbx, .push .rcx, .push .rdx,
    .push .rsi, .push .rdi, .push .rbp, .push .r8, .push .r9, .push .r10, .push .r11, .push .r12,
    .push .r13, .push .r14, .push .r15, .plain, .plain]

def syscallExit : List Instr :=
  [.pop .r15, .pop .r14, .pop .r13, .pop .r12, .pop .r11, .pop .r10, .pop .r9, .pop .r8, .pop .rbp,
    .pop .rdi, .pop .rsi, .pop .rdx, .pop .rcx, .pop .rbx, .plain, .pop .rsp, .swapgs, .sysretq]

/-- The half of `context_switch` that runs on the old stack. -/
def switchAway : List Instr :=
  [.cli, .push .rbp, .push .rbx, .push .r12, .push .r13, .push .r14, .push .r15, .plain, .plain]

/-- The half of `context_switch` and `permanent_context_switch` that runs on the new stack. -/
def switchBack : List Instr :=
  [.pop .r15, .pop .r14, .pop .r13, .pop .r12, .pop .rbx, .pop .rbp, .sti, .plain]

/-- `forked_entry_context_switch`: fall into `syscall_exit`. -/
def forkedEntryContextSwitch : List Instr := [.plain, .plain]

def userspaceEntryContextSwitch : List Instr :=
  [.cli, .swapgs, .pushOperand, .push .rdi, .pushOperand, .pushOperand, .push .rsi, .iretq .inUser]

/-- `swapgs`, if the saved CS is not the kernel's. -/
def swapgsUnlessKernel (cs : Side) : List Instr :=
  match cs with
  | .kernel => []
  | .user => [.swapgs]

/-- The stub of one vector, and `isr_common` up to the call of the handler. -/
def isrCommonEntry (cs : Side) : List Instr :=
  [.pushOperand, .pushOperand, .plain, .plain, .plain] ++ swapgsUnlessKernel cs ++
    [.push .rax, .push .rbx, .push .rcx, .push .rdx, .push .rsi, .push .rdi, .push .rbp, .push .r8,
      .push .r9, .push .r10, .push .r11, .push .r12, .push .r13, .push .r14, .push .r15, .plain,
      .plain]

def isrCommonExit (frame : Mode) : List Instr :=
  [.pop .r15, .pop .r14, .pop .r13, .pop .r12, .pop .r11, .pop .r10, .pop .r9, .pop .r8, .pop .rbp,
    .pop .rdi, .pop .rsi, .pop .rdx, .pop .rcx, .pop .rbx, .pop .rax, .plain, .plain, .plain] ++
    swapgsUnlessKernel frame.cpl ++ [.iretq frame]

/-! ## What runs between the stubs -/

/-- The C++ code of `syscall_dispatcher` or of an interrupt handler. -/
inductive Activity where
  /-- code that leaves the flag alone -/
  | plain
  | seq (a b : Activity)
  /-- a section under a `kspinlock_irqsave` -/
  | locked
  /-- a call of `context_switch`, up to its return -/
  | contextSwitch
  /-- an interrupt, around its handler -/
  | interrupted (handler : Activity)
  deriving Repr

/-- What the hardware does on an interrupt: clear IF, and switch to the kernel stack if it came
from user mode. The gates are all interrupt gates. -/
def interruptEntry (m : Mode) : Mode :=
  { m with interrupts := false, rsp := .kernel, cpl := .kernel }

/-- What SYSCALL does: enter ring 0, with the flags in SFMASK cleared. -/
def syscallInstr (m : Mode) : Mode := { m with interrupts := false, cpl := .kernel }

/-- The modes an activity passes through, and the one it ends in; `none` if an interrupt would
have to be taken with the flag clear. -/
def Activity.run : Activity → Mode → Option (List Mode × Mode)
  | .plain, m => some ([m], m)
  | .seq a b, m => (a.run m).bind (fun (t, m1) => (b.run m1).map (fun (t', m2) => (t ++ t', m2)))
  | .locked, m => some ([m, { m with interrupts := false }], m)
  | .contextSwitch, m => some (runInstrs (switchAway ++ switchBack) m)
  | .interrupted handler, m =>
    if m.interrupts then
      let (t, m1) := runInstrs (isrCommonEntry m.cpl) (interruptEntry m)
      (handler.run m1).map (fun (t', m2) =>
        let (t'', m3) := runInstrs (isrCommonExit m) m2
        (m :: t ++ t' ++ t'', m3))
    else none

/-- A `context_switch` has returned, other than in a nested interrupt. -/
def Activity.switches : Activity → Bool
  | .seq a b => a.switches || b.switches
  | .contextSwitch => true
  | _ => false

/-- The ways through the kernel that end in user mode. -/
inductive Path where
  /-- a system call -/
  | syscall (dispatcher : Activity)
  /-- the first return of a forked child, from the switch that starts it -/
  | forked
  /-- an interrupt of user code -/
  | interrupt (handler : Activity)
  /-- the first entry of a newly loaded program, through `userspace_entry_trampoline` -/
  | started (trampoline : Activity)
  deriving Repr

/-- The modes on the way, until user mode is reached. -/
def Path.trace : Path → Option (List Mode)
  | .syscall dispatcher =>
    let (t, m) := runInstrs syscallEntry (syscallInstr .inUser)
    (dispatcher.run m).map (fun (t', m') => t ++ t' ++ (runInstrs syscallExit m').1)
  | .forked =>
    some (runInstrs (switchBack ++ forkedEntryContextSwitch ++ syscallExit) (.inKernel false)).1
  | .interrupt handler =>
    let (t, m) := runInstrs (isrCommonEntry .user) (interruptEntry .inUser)
    (handler.run m).map (fun (t', m') => t ++ t' ++ (runInstrs (isrCommonExit .inUser) m').1)
  | .started trampoline =>
    let (t, m) := runInstrs switchBack (.inKernel false)
    (trampoline.run m).map (fun (t', m') => t ++ t' ++ (runInstrs userspaceEntryContextSwitch m').1)

/-- A `context_switch` has set the interrupt flag, and nothing has cleared it, before the stub
that returns to user mode is entered. -/
def Path.reenabled : Path → Bool
  | .syscall dispatcher => dispatcher.switches
  | .forked => true
  | .interrupt handler => handler.switches
  | .started _ => false

/-! ## The kernel's own code -/

/-- No interrupt can be taken in an exposed mode. -/
def Safe (t : List Mode) : Prop := ∀ m ∈ t, m.exposed = false

instance (t : List Mode) : Decidable (Safe t) :=
  inferInstanceAs (Decidable (∀ m ∈ t, m.exposed = false))

variable {t : List Mode} {b : Bool} {m : Mode}

theorem safe_append {t' : List Mode} : Safe (t ++ t') ↔ Safe t ∧ Safe t' := by
  simp [Safe, or_imp, forall_and]

/-- Kernel code on the kernel's stack and GS is never exposed, and the interrupt flag it leaves is
clear only if it was clear before and no `context_switch` has returned. -/
theorem Activity.run_inKernel (a : Activity)
    (h : a.run (.inKernel b) = some (t, m)) : Safe t ∧ m = .inKernel (b || a.switches) := by
  induction a generalizing b t m with
  | plain =>
    cases h
    cases b <;> exact ⟨by decide, rfl⟩
  | locked =>
    cases h
    cases b <;> exact ⟨by decide, rfl⟩
  | contextSwitch =>
    cases h
    cases b <;> exact ⟨by decide, rfl⟩
  | seq a1 a2 ih1 ih2 =>
    obtain ⟨⟨t1, m1⟩, h1, h⟩ := Option.bind_eq_some_iff.mp h
    obtain ⟨⟨t2, m2⟩, h2, h⟩ := Option.map_eq_some_iff.mp h
    cases h
    obtain ⟨hs1, rfl⟩ := ih1 h1
    obtain ⟨hs2, rfl⟩ := ih2 h2
    exact ⟨safe_append.mpr ⟨hs1, hs2⟩, by rw [Bool.or_assoc]; rfl⟩
  | interrupted handler ih =>
    cases b with
    | false => cases h
    | true =>
      obtain ⟨⟨t1, m1⟩, h1, h⟩ := Option.map_eq_some_iff.mp h
      obtain ⟨hs1, rfl⟩ := ih (b := false) h1
      cases h
      -- whatever flag the handler leaves, the frame has it set
      have hexit : ∀ c, Safe (runInstrs (isrCommonExit (.inKernel true)) (.inKernel c)).1 ∧
          (runInstrs (isrCommonExit (.inKernel true)) (.inKernel c)).2 = .inKernel true := by
        decide
      have hentry : Safe (Mode.inKernel true ::
          (runInstrs (isrCommonEntry .kernel) (interruptEntry (.inKernel true))).1) := by
        decide
      exact ⟨safe_append.mpr ⟨safe_append.mpr ⟨hentry, hs1⟩, (hexit _).1⟩, (hexit _).2⟩

/-! ## The stubs that return to user mode -/

theorem syscallEntry_run : Safe (runInstrs syscallEntry (syscallInstr .inUser)).1 ∧
      (runInstrs syscallEntry (syscallInstr .inUser)).2 = .inKernel false := by
  decide

theorem safe_syscallExit : ∀ b, Safe (runInstrs syscallExit (.inKernel b)).1 ↔ b = false := by
  decide

theorem isrCommonEntry_run : Safe (runInstrs (isrCommonEntry .user) (interruptEntry .inUser)).1 ∧
      (runInstrs (isrCommonEntry .user) (interruptEntry .inUser)).2 = .inKernel false := by
  decide

theorem safe_isrCommonExit :
    ∀ b, Safe (runInstrs (isrCommonExit .inUser) (.inKernel b)).1 ↔ b = false := by
  decide

/-- The one stub that starts with `cli`. -/
theorem safe_userspaceEntry :
    ∀ b, Safe (runInstrs userspaceEntryContextSwitch (.inKernel b)).1 := by
  decide

/-- The paths that go through the kernel: a stub that ends in the kernel, an activity, and a stub
that returns to user mode. -/
theorem safe_through {entry : List Mode} {a : Activity} {exit : List Instr}
    (hentry : Safe entry) (hm : m = .inKernel b)
    (h : (a.run m).map (fun (t', m') => entry ++ t' ++ (runInstrs exit m').1) = some t) :
    Safe t ↔ Safe (runInstrs exit (.inKernel (b || a.switches))).1 := by
  obtain ⟨⟨t', m'⟩, hrun, rfl⟩ := Option.map_eq_some_iff.mp h
  rw [hm] at hrun
  obtain ⟨hsafe, rfl⟩ := a.run_inKernel hrun
  simp [safe_append, hentry, hsafe]

/-- **The return to user mode is uninterruptible exactly if the flag is still clear.** For every
way through the kernel, no interrupt can be taken in ring 0 with the user's stack or GS if and only
if no `context_switch` has returned on the way. -/
theorem safe_iff_not_reenabled (p : Path) {t : List Mode} (h : p.trace = some t) :
    Safe t ↔ p.reenabled = false := by
  cases p with
  | syscall dispatcher =>
    rw [safe_through syscallEntry_run.1 syscallEntry_run.2 h]
    exact safe_syscallExit _
  | forked =>
    cases h
    decide
  | interrupt handler =>
    rw [safe_through isrCommonEntry_run.1 isrCommonEntry_run.2 h]
    exact safe_isrCommonExit _
  | started trampoline =>
    rw [safe_through (b := true) (by decide) rfl h]
    exact iff_of_true (safe_userspaceEntry _) rfl

/-- A system call that takes a lock and returns. -/
theorem safe_lockedSyscall : ∃ t, (Path.syscall .locked).trace = some t ∧ Safe t :=
  ⟨_, rfl, (safe_iff_not_reenabled (.syscall .locked) rfl).mpr rfl⟩

/-- A system call that blocks once, a forked child, and user code that is preempted once: each
returns to user mode through an exposed mode. -/
theorem blocked_return_exposed : (∃ t, (Path.syscall .contextSwitch).trace = some t ∧
      ⟨true, .user, .kernel, .kernel⟩ ∈ t ∧ ⟨true, .user, .user, .kernel⟩ ∈ t) ∧
    (∃ t, Path.forked.trace = some t ∧ ⟨true, .user, .user, .kernel⟩ ∈ t) ∧
    (∃ t, (Path.interrupt .contextSwitch).trace = some t ∧
      ⟨true, .kernel, .user, .kernel⟩ ∈ t) :=
  ⟨⟨_, rfl, by decide, by decide⟩, ⟨_, rfl, by decide⟩, ⟨_, rfl, by decide⟩⟩

end Hltos.Trap
