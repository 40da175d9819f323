import Hltos.Basic
import Hltos.Lib.ByteMemory
import Hltos.Trap.Window

/-!
# The assembly of the kernel

`context_switch.s`, `syscall_entry.s` and `isr.s`, instruction by instruction, with what the
instructions do to registers and memory. `Trap.Window` looks at the same stubs for the interrupt
flag, the stack and the GS base only; `stubs_mode` says that its lists are these.

A stub is a list of instructions. RIP is kept where control leaves such a list; the flags that `cmp`
and `add` set are left out, as nothing but the `je` behind the `cmp` reads them.
-/

namespace Hltos.Asm

open Lib.ByteMemory List Function
open Trap (Reg)

structure Cpu where
  regs : Reg → Word
  rip : Word
  rflags : Word
  cs : Word
  ss : Word
  gsBase : Word
  /-- what `swapgs` exchanges the GS base with -/
  kernelGsBase : Word
  fsBase : Word
  xmm : Fin 16 → BitVec 128
  mxcsr : BitVec 32
  mem : Mem

variable {r : Reg} {rs : List Reg} {f : Reg → Word} {c : Cpu}

namespace Cpu

def set (r : Reg) (v : Word) (c : Cpu) : Cpu := { c with regs := Function.update c.regs r v }

@[simp] theorem set_self (r : Reg) (v : Word) (c : Cpu) : (c.set r v).regs r = v := by simp [set]

theorem set_of_ne {r' : Reg} (h : r' ≠ r) (v : Word) (c : Cpu) :
    (c.set r v).regs r' = c.regs r' := by
  simp [set, update_of_ne h]

def push (v : Word) (c : Cpu) : Cpu :=
  { c.set .rsp (c.regs .rsp - 8) with mem := store c.mem (c.regs .rsp - 8) v }

@[simp] theorem push_rsp (v : Word) (c : Cpu) : (c.push v).regs .rsp = c.regs .rsp - 8 := by
  simp [push, set_self]

theorem push_of_ne (h : r ≠ .rsp) (v : Word) (c : Cpu) : (c.push v).regs r = c.regs r := by
  simp [push, set_of_ne h]

/-- The word on top of the stack, and the CPU without it. -/
def popped (c : Cpu) : Word × Cpu := (load c.mem (c.regs .rsp), c.set .rsp (c.regs .rsp + 8))

def swapGs (c : Cpu) : Cpu := { c with gsBase := c.kernelGsBase, kernelGsBase := c.gsBase }

end Cpu

/-- The interrupt flag. -/
def flagIf : Word := 0x200

def kernelCs : Word := 0x08

def userCs : Word := 0x23

def userSs : Word := 0x1B

def perCpuKernelRspOffset : Word := 8

def perCpuUserRspOffset : Word := 16

inductive Instr where
  | push (r : Reg)
  | pop (r : Reg)
  | pushImm (v : Word)
  /-- `push %gs:offset` -/
  | pushGs (offset : Word)
  /-- `mov %src, %dst` -/
  | mov (src dst : Reg)
  | movImm (v : Word) (dst : Reg)
  /-- `mov %src, (%base)` -/
  | store (src base : Reg)
  /-- `mov %src, %gs:offset` -/
  | storeGs (src : Reg) (offset : Word)
  /-- `mov %gs:offset, %dst` -/
  | loadGs (offset : Word) (dst : Reg)
  | addImm (v : Word) (dst : Reg)
  | swapgs
  /-- `cmpq $0x08, offset(%rsp)`, and a `je` over a `swapgs` -/
  | swapgsUnlessKernel (offset : Word)
  | cli
  | sti
  /-- `call`, with the address that it pushes -/
  | call (address : Word)
  /-- to the list that comes next -/
  | jmp
  | ret
  | sysretq
  | iretq

/-- `pop %rsp` leaves what was popped in RSP. -/
def Instr.step : Instr → Cpu → Cpu
  | .push r, c => c.push (c.regs r)
  | .pop r, c => c.popped.2.set r c.popped.1
  | .pushImm v, c => c.push v
  | .pushGs offset, c => c.push (load c.mem (c.gsBase + offset))
  | .mov src dst, c => c.set dst (c.regs src)
  | .movImm v dst, c => c.set dst v
  | .store src base, c => { c with mem := Lib.ByteMemory.store c.mem (c.regs base) (c.regs src) }
  | .storeGs src offset, c =>
    { c with mem := Lib.ByteMemory.store c.mem (c.gsBase + offset) (c.regs src) }
  | .loadGs offset dst, c => c.set dst (load c.mem (c.gsBase + offset))
  | .addImm v dst, c => c.set dst (c.regs dst + v)
  | .swapgs, c => c.swapGs
  | .swapgsUnlessKernel offset, c =>
    if load c.mem (c.regs .rsp + offset) = kernelCs then c else c.swapGs
  | .cli, c => { c with rflags := c.rflags &&& ~~~flagIf }
  | .sti, c => { c with rflags := c.rflags ||| flagIf }
  | .call address, c => c.push address
  | .jmp, c => c
  | .ret, c => { c.popped.2 with rip := c.popped.1 }
  | .sysretq, c => { c with
      rip := c.regs .rcx, rflags := (c.regs .r11 &&& 0x3C7FD7) ||| 2, cs := userCs, ss := userSs }
  | .iretq, c =>
    let (rip, c) := c.popped
    let (cs, c) := c.popped
    let (rflags, c) := c.popped
    let (rsp, c) := c.popped
    let (ss, c) := c.popped
    { c.set .rsp rsp with rip := rip, cs := cs, rflags := rflags, ss := ss }

def exec (is : List Instr) (c : Cpu) : Cpu := is.foldl (fun c i => i.step c) c

theorem exec_append (is js : List Instr) (c : Cpu) : exec (is ++ js) c = exec js (exec is c) :=
  foldl_append ..

theorem exec_cons (i : Instr) (is : List Instr) (c : Cpu) :
    exec (i :: is) c = exec is (i.step c) := rfl

/-- A row of pushes. -/
theorem exec_pushes (rs : List Reg) (h : .rsp ∉ rs) (c : Cpu) : exec (rs.map .push) c =
    { c.set .rsp (c.regs .rsp - .ofNat 64 (8 * rs.length)) with
      mem := pushAll c.mem (c.regs .rsp) (rs.map c.regs) } := by
  induction rs generalizing c with
  | nil => simp [exec, Cpu.set, pushAll]
  | cons r rs ih =>
    have hrs : .rsp ∉ rs := fun hmem => h (mem_cons_of_mem r hmem)
    have hregs : rs.map (c.push (c.regs r)).regs = rs.map c.regs := by
      apply map_congr_left
      intro r' hr'
      exact Cpu.push_of_ne (fun heq => hrs (heq ▸ hr')) ..
    rw [map_cons, exec_cons, Instr.step, ih hrs, hregs, Cpu.push_rsp, sub_mul]
    simp [Cpu.push, Cpu.set, update_idem, pushAll]

/-- The registers after a row of pops that has ended at `rsp`, with the values `f` on the stack. -/
def poppedRegs (rs : List Reg) (f : Reg → Word) (rsp : Word) (regs : Reg → Word) (r : Reg) : Word :=
  if r ∈ rs then f r else if r = .rsp then rsp else regs r

theorem poppedRegs_pop (h : .rsp ∉ r :: rs) (rsp : Word) (hload : load c.mem (c.regs .rsp) = f r) :
    poppedRegs rs f rsp (Instr.pop r |>.step c).regs = poppedRegs (r :: rs) f rsp c.regs := by
  funext x
  unfold poppedRegs
  by_cases hxs : x ∈ rs
  · rw [if_pos hxs, if_pos (mem_cons_of_mem r hxs)]
  · rw [if_neg hxs]
    by_cases hxr : x = r
    · subst hxr
      have hx : x ≠ .rsp := fun heq => h (heq ▸ mem_cons_self)
      rw [if_neg hx, if_pos mem_cons_self, Instr.step, Cpu.set_self]
      exact hload
    · rw [if_neg (not_mem_cons_of_ne_of_not_mem hxr hxs)]
      split
      · rfl
      · next hx => rw [Instr.step, Cpu.set_of_ne hxr, Cpu.popped, Cpu.set_of_ne hx]

/-- A row of pops. -/
theorem exec_pops (h : .rsp ∉ rs)
    (hw : words c.mem (c.regs .rsp) rs.length = rs.map f) : exec (rs.map .pop) c =
    { c with regs := poppedRegs rs f (c.regs .rsp + .ofNat 64 (8 * rs.length)) c.regs } := by
  induction rs generalizing c with
  | nil =>
    have hregs : poppedRegs [] f (c.regs .rsp + .ofNat 64 (8 * 0)) c.regs = c.regs := by
      funext r
      by_cases hr : r = .rsp
      · rw [hr]
        exact BitVec.add_zero _
      · simp [poppedRegs, hr]
    exact congrArg (fun regs => { c with regs := regs }) hregs.symm
  | cons r rs ih =>
    have hr : .rsp ≠ r := fun heq => h (heq ▸ mem_cons_self)
    simp only [length_cons, words, map_cons, List.cons.injEq] at hw
    obtain ⟨hload, hrest⟩ := hw
    have hrsp : (Instr.pop r |>.step c).regs .rsp = c.regs .rsp + 8 := by
      rw [Instr.step, Cpu.set_of_ne hr, Cpu.popped, Cpu.set_self]
    have hsum : c.regs .rsp + 8 + .ofNat 64 (8 * rs.length) =
        c.regs .rsp + .ofNat 64 (8 * (rs.length + 1)) := by
      rw [BitVec.add_assoc, Nat.mul_succ, Nat.add_comm, BitVec.ofNat_add]
      rfl
    rw [map_cons, exec_cons, ih (fun hmem => h (mem_cons_of_mem r hmem)) (hrsp ▸ hrest), hrsp,
      hsum, poppedRegs_pop h _ hload]
    rfl

/-! ## The stubs -/

/-- The half of `context_switch` that runs on the old stack. -/
def saveContext : List Instr :=
  [.cli, .push .rbp, .push .rbx, .push .r12, .push .r13, .push .r14, .push .r15, .store .rsp .rdi,
    .mov .rsi .rsp]

/-- The half of `context_switch` and `permanent_context_switch` that runs on the new stack. -/
def restoreContext : List Instr :=
  [.pop .r15, .pop .r14, .pop .r13, .pop .r12, .pop .rbx, .pop .rbp, .sti, .ret]

def contextSwitch : List Instr := saveContext ++ restoreContext

def permanentContextSwitch : List Instr := [.cli, .mov .rdi .rsp] ++ restoreContext

/-- `syscall_entry`, up to the call of `syscall_dispatcher`. -/
def syscallEntry (ret : Word) : List Instr :=
  [.swapgs, .storeGs .rsp perCpuUserRspOffset, .loadGs perCpuKernelRspOffset .rsp,
    .pushGs perCpuUserRspOffset, .push .rax, .push .rbx, .push .rcx, .push .rdx,
      .push .rsi, .push .rdi,
    .push .rbp, .push .r8, .push .r9, .push .r10, .push .r11, .push .r12, .push .r13, .push .r14,
    .push .r15, .mov .rsp .rdi, .call ret]

def syscallExit : List Instr :=
  [.pop .r15, .pop .r14, .pop .r13, .pop .r12, .pop .r11, .pop .r10, .pop .r9, .pop .r8, .pop .rbp,
    .pop .rdi, .pop .rsi, .pop .rdx, .pop .rcx, .pop .rbx, .addImm 8 .rsp, .pop .rsp,
      .swapgs, .sysretq]

def forkedEntryContextSwitch : List Instr := [.movImm 0 .rax, .jmp]

/-- The stub of a vector without an error code, and `isr_common` up to the call of
`interrupt_handler`. -/
def isrCommonEntry (vector ret : Word) : List Instr :=
  [.pushImm 0, .pushImm vector, .jmp, .swapgsUnlessKernel 24, .push .rax, .push .rbx, .push .rcx,
    .push .rdx, .push .rsi, .push .rdi, .push .rbp, .push .r8, .push .r9, .push .r10, .push .r11,
    .push .r12, .push .r13, .push .r14, .push .r15, .mov .rsp .rdi, .call ret]

def isrCommonExit : List Instr :=
  [.pop .r15, .pop .r14, .pop .r13, .pop .r12, .pop .r11, .pop .r10, .pop .r9, .pop .r8, .pop .rbp,
    .pop .rdi, .pop .rsi, .pop .rdx, .pop .rcx, .pop .rbx, .pop .rax, .addImm 16 .rsp,
    .swapgsUnlessKernel 8, .iretq]

/-- The `syscall` instruction. -/
def syscall (handler sfmask : Word) (c : Cpu) : Cpu :=
  { (c.set .rcx c.rip).set .r11 c.rflags with
    rip := handler, rflags := c.rflags &&& ~~~sfmask, cs := kernelCs, ss := kernelCs + 8 }

/-- What the CPU does on an interrupt in user mode: it takes the stack from the TSS, aligned to 16
bytes, and pushes what `iretq` will pop. -/
def interruptFromUser (rsp0 handler : Word) (c : Cpu) : Cpu :=
  let pushed :=
    ((((c.set .rsp (rsp0 &&& ~~~0xF)).push c.ss).push (c.regs .rsp)).push c.rflags).push c.cs
  { pushed.push c.rip with
    rip := handler, rflags := c.rflags &&& ~~~flagIf, cs := kernelCs, ss := 0 }

/-! ## The same stubs in `Trap.Window` -/

/-- What of an instruction matters for the mode of the CPU. -/
def Instr.mode : Instr → Trap.Instr
  | .push r => .push r
  | .pop r => .pop r
  | .pushImm _ | .pushGs _ => .pushOperand
  | .loadGs _ .rsp => .loadKernelRsp
  | .swapgs => .swapgs
  | .cli => .cli
  | .sti => .sti
  | .sysretq => .sysretq
  | _ => .plain

theorem stubs_mode (ret : Word) :
    contextSwitch.map Instr.mode = Trap.switchAway ++ Trap.switchBack ∧
    (syscallEntry ret).map Instr.mode = Trap.syscallEntry ∧
      syscallExit.map Instr.mode = Trap.syscallExit ∧
    forkedEntryContextSwitch.map Instr.mode = Trap.forkedEntryContextSwitch :=
  ⟨rfl, rfl, rfl, rfl⟩

end Hltos.Asm
