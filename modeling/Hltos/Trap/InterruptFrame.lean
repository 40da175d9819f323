import Hltos.Trap.ContextSwitch

/-!
# Interrupt frames

On an interrupt in user mode the CPU and `isr_common` leave an `InterruptFrame` at the top of the
kernel stack; when `interrupt_handler` returns, `isr_common` pops it again.
-/

namespace Hltos.Asm

open Lib.ByteMemory
open Trap (Reg)

/-- The registers of an `InterruptFrame`, in their order. -/
def interruptFrameRegs : List Reg :=
  [.r15, .r14, .r13, .r12, .r11, .r10, .r9, .r8, .rbp, .rdi, .rsi, .rdx, .rcx, .rbx, .rax]

/-- What user code can see of the CPU. -/
structure UserView where
  regs : Reg → Word
  rip : Word
  rflags : Word
  fsBase : Word
  xmm : Fin 16 → BitVec 128
  mxcsr : BitVec 32

def Cpu.userView (c : Cpu) : UserView := ⟨c.regs, c.rip, c.rflags, c.fsBase, c.xmm, c.mxcsr⟩

/-- The words of an `InterruptFrame`: the registers, the vector and the error code, and what `iretq`
pops. -/
def UserView.frame (vector cs ss : Word) (v : UserView) : List Word :=
  interruptFrameRegs.map v.regs ++ [vector, 0, v.rip, cs, v.rflags, v.regs .rsp, ss]

variable {c : Cpu} {v : UserView} {vector handler ret rsp0 cs ss x : Word}

/-- The stack pointer that the CPU starts from. -/
def interruptTop (rsp0 : Word) : Word := rsp0 &&& ~~~0xF

theorem interruptTop_add (rsp0 : Word) : interruptTop rsp0 + (rsp0 &&& 0xF) = rsp0 :=
  and_not_add_and rsp0 0xF

/-- It is at most 15 bytes below `rsp0`. -/
theorem toNat_and_0xF_lt (rsp0 : Word) : (rsp0 &&& 0xF).toNat < 16 := by
  exact lt_of_le_of_lt Nat.and_le_right (by decide)

def sizeofInterruptFrame : Word := 176

/-! ## The way in -/

/-- The CPU when `isr_common` starts to push the registers. -/
def enteredIsr (vector handler rsp0 : Word) (c : Cpu) : Cpu :=
  exec [.pushImm 0, .pushImm vector, .jmp,
    .swapgsUnlessKernel 24] (interruptFromUser rsp0 handler c)

/-- Only the GS base may change. -/
theorem step_swapgsUnlessKernel (offset : Word) (c : Cpu) : ∃ gsBase kernelGsBase,
    (Instr.swapgsUnlessKernel offset).step c =
    { c with gsBase := gsBase, kernelGsBase := kernelGsBase } := by
  simp only [Instr.step]
  split
  · exact ⟨_, _, rfl⟩
  · exact ⟨_, _, rfl⟩

theorem enteredIsr_eq (vector handler rsp0 : Word) (c : Cpu) : ∃ gsBase kernelGsBase,
    enteredIsr vector handler rsp0 c = { c with
      regs := Function.update c.regs .rsp (interruptTop rsp0 - 56)
      rip := handler, rflags := c.rflags &&& ~~~flagIf, cs := kernelCs, ss := 0
      gsBase := gsBase, kernelGsBase := kernelGsBase
      mem := pushAll c.mem (interruptTop rsp0) [c.ss, c.regs .rsp, c.rflags, c.cs,
        c.rip, 0, vector] } := by
  obtain ⟨gsBase, kernelGsBase, hswap⟩ := step_swapgsUnlessKernel 24
    (exec [.pushImm 0, .pushImm vector, .jmp] (interruptFromUser rsp0 handler c))
  have hsp : (· - 8)^[7] (interruptTop rsp0) = interruptTop rsp0 - 56 := iterate_sub _ 7
  refine ⟨gsBase, kernelGsBase, hswap.trans ?_⟩
  rw [← hsp]
  simp [interruptFromUser, Instr.step, Cpu.push, Cpu.set, pushAll, interruptTop, exec]

/-- The words that are on the stack in the end, in the order of the pushes. -/
def interruptPushes (vector : Word) (c : Cpu) : List Word :=
  [c.ss, c.regs .rsp, c.rflags, c.cs, c.rip, 0, vector] ++ interruptFrameRegs.reverse.map c.regs

/-- `isr_common` before it calls `interrupt_handler`. -/
def savedIsr (vector handler rsp0 : Word) (c : Cpu) : Cpu :=
  exec (interruptFrameRegs.reverse.map .push) (enteredIsr vector handler rsp0 c)

theorem savedIsr_eq (vector handler rsp0 : Word) (c : Cpu) : ∃ gsBase kernelGsBase,
    savedIsr vector handler rsp0 c = { c with
      regs := Function.update c.regs .rsp (interruptTop rsp0 - sizeofInterruptFrame)
      rip := handler, rflags := c.rflags &&& ~~~flagIf, cs := kernelCs, ss := 0
      gsBase := gsBase, kernelGsBase := kernelGsBase
      mem := pushAll c.mem (interruptTop rsp0) (interruptPushes vector c) } := by
  obtain ⟨gsBase, kernelGsBase, hentered⟩ := enteredIsr_eq vector handler rsp0 c
  have hregs (a : Word) : interruptFrameRegs.reverse.map (Function.update c.regs .rsp a) =
      interruptFrameRegs.reverse.map c.regs := rfl
  have hsp : interruptTop rsp0 - 56 - 120 = interruptTop rsp0 - sizeofInterruptFrame :=
    BitVec.sub_sub ..
  refine ⟨gsBase, kernelGsBase, ?_⟩
  rw [savedIsr, exec_pushes _ (by decide), hentered, interruptPushes, pushAll_append, hregs, ← hsp]
  simp [Cpu.set]
  rfl

/-- An interrupt in user mode, up to the call of `interrupt_handler`. -/
def interrupted (vector handler ret rsp0 : Word) (c : Cpu) : Cpu :=
  exec (isrCommonEntry vector ret) (interruptFromUser rsp0 handler c)

theorem interrupted_eq (vector handler ret rsp0 : Word) (c : Cpu) :
    interrupted vector handler ret rsp0 c = exec [.mov .rsp .rdi,
      .call ret] (savedIsr vector handler rsp0 c) := by
  have hlist : isrCommonEntry vector ret =
    ([.pushImm 0, .pushImm vector, .jmp, .swapgsUnlessKernel 24] ++
      interruptFrameRegs.reverse.map .push) ++ [.mov .rsp .rdi, .call ret] := rfl
  rw [interrupted, hlist, exec_append, exec_append]
  rfl

theorem mem_interrupted (vector handler ret rsp0 : Word) (c : Cpu) :
    (interrupted vector handler ret rsp0 c).mem = store
    (pushAll c.mem (interruptTop rsp0) (interruptPushes vector c))
      (interruptTop rsp0 - sizeofInterruptFrame - 8) ret := by
  obtain ⟨gsBase, kernelGsBase, hsaved⟩ := savedIsr_eq vector handler rsp0 c
  rw [interrupted_eq, hsaved]
  rfl

theorem rsp_interrupted (vector handler ret rsp0 : Word) (c : Cpu) :
    (interrupted vector handler ret rsp0 c).regs .rsp =
      interruptTop rsp0 - sizeofInterruptFrame - 8 := by
  obtain ⟨gsBase, kernelGsBase, hsaved⟩ := savedIsr_eq vector handler rsp0 c
  rw [interrupted_eq, hsaved]
  rfl

/-- The rest of what user code can see is as before. -/
theorem interrupted_keeps (vector handler ret rsp0 : Word) (c : Cpu) :
    (interrupted vector handler ret rsp0 c).fsBase = c.fsBase ∧
    (interrupted vector handler ret rsp0 c).xmm = c.xmm ∧
    (interrupted vector handler ret rsp0 c).mxcsr = c.mxcsr := by
  obtain ⟨gsBase, kernelGsBase, hsaved⟩ := savedIsr_eq vector handler rsp0 c
  rw [interrupted_eq, hsaved]
  exact ⟨rfl, rfl, rfl⟩

/-- **The state of the user code is in the frame.** -/
theorem words_interrupted (vector handler ret rsp0 : Word) (c : Cpu) :
    words (interrupted vector handler ret rsp0 c).mem (interruptTop rsp0 - sizeofInterruptFrame)
      22 = c.userView.frame vector c.cs c.ss := by
  have hret : Apart (interruptTop rsp0 - sizeofInterruptFrame) (8 * 22)
      (interruptTop rsp0 - sizeofInterruptFrame - 8) 8 := apart_below (k := 8) (by decide)
  have hwords := words_pushAll c.mem (interruptTop rsp0) (interruptPushes vector c) 0 (show 176 ≤
    2 ^ 64 by decide)
  rw [mem_interrupted, words_congr (by decide) (fun x hx => store_of_not_within (hret x hx))]
  exact hwords

/-- Nothing else is written. -/
theorem interrupted_frame (h : ¬ Within (interruptTop rsp0 - sizeofInterruptFrame - 8) 184 x) :
    (interrupted vector handler ret rsp0 c).mem x = c.mem x := by
  let bottom := interruptTop rsp0 - sizeofInterruptFrame - 8
  have hframe : ¬ Within (interruptTop rsp0 - sizeofInterruptFrame) 176 x := by
    intro hin
    have hoffset : interruptTop rsp0 - sizeofInterruptFrame - bottom = 8 := by grind
    exact h (hin.trans (show (_ - bottom).toNat + 176 ≤ 184 by rw [hoffset]; decide))
  have hret : ¬ Within bottom 8 x := fun hin => h (lt_of_lt_of_le hin (by decide))
  rw [mem_interrupted, store_of_not_within hret]
  exact pushAll_of_not_within _ (show 176 ≤ 2 ^ 64 by decide) hframe

/-! ## The way out -/

/-- **`isr_common` gives the user code what is in the frame.** -/
theorem isrCommonExit_eq (h : words c.mem (c.regs .rsp) 22 = v.frame vector cs ss) :
    ∃ gsBase kernelGsBase, exec isrCommonExit c = { c with
      regs := v.regs, rip := v.rip, cs := cs, rflags := v.rflags, ss := ss
      gsBase := gsBase, kernelGsBase := kernelGsBase } := by
  have hwords : words c.mem (c.regs .rsp) 15 ++ words c.mem (c.regs .rsp + 120) 7 =
    v.frame vector cs ss := (words_append ..).symm.trans h
  obtain ⟨hregs, htail⟩ := List.append_inj hwords (length_words ..)
  have htail' : words c.mem (c.regs .rsp + 120) 2 ++ words c.mem (c.regs .rsp + 120 + 16) 5 =
      [vector, 0] ++ [v.rip, cs, v.rflags, v.regs .rsp, ss] := (words_append ..).symm.trans htail
  have hiret := (List.append_inj htail' (length_words ..)).2
  simp only [words, List.cons.injEq] at hiret
  obtain ⟨hrip, hcs, hrflags, hrsp, hss, -⟩ := hiret
  let popped : Cpu :=
    { c with regs := poppedRegs interruptFrameRegs v.regs (c.regs .rsp + 120) c.regs }
  obtain ⟨gsBase, kernelGsBase, hswap⟩ :=
    step_swapgsUnlessKernel 8 ((Instr.addImm 16 .rsp).step popped)
  have hexec : exec isrCommonExit c = Instr.iretq.step ((Instr.swapgsUnlessKernel 8).step
      ((Instr.addImm 16 .rsp).step popped)) := by
    have hlist : isrCommonExit =
        interruptFrameRegs.map .pop ++ [.addImm 16 .rsp, .swapgsUnlessKernel 8, .iretq] := rfl
    rw [hlist, exec_append, exec_pops (by decide) hregs]
    rfl
  have hview : (exec isrCommonExit c).regs = v.regs := by
    rw [hexec, hswap]
    funext r
    cases r with
    | rsp => exact hrsp
    | _ => rfl
  refine ⟨gsBase, kernelGsBase, ?_⟩
  rw [← hview, hexec, hswap, ← hrip, ← hcs, ← hrflags, ← hss]
  rfl

theorem xmm_isrCommonExit (c : Cpu) : (exec isrCommonExit c).xmm = c.xmm := by
  let popped := exec (interruptFrameRegs.map .pop ++ [.addImm 16 .rsp]) c
  obtain ⟨gsBase, kernelGsBase, hswap⟩ := step_swapgsUnlessKernel 8 popped
  have hexec : exec isrCommonExit c = Instr.iretq.step ((Instr.swapgsUnlessKernel 8).step popped) :=
    rfl
  rw [hexec, hswap]
  rfl

end Hltos.Asm
