import Hltos.Trap.InterruptFrame

/-!
# Preemption

User processes on one CPU, which interrupts may stop anywhere. The kernel code that runs then may
switch to other processes, and comes back to the stopped one some time later; `interrupt_handler`
returns and user code goes on. The question is what of the CPU it finds as it was.

Kernel code is compiled without SSE, and only `activate_process` and `arch_prctl` write the FS base.
-/

namespace Hltos.Asm

open Lib.ByteMemory Lib.Transition Option Function Switching
open Trap (Reg)

/-- Where a process is. -/
inductive Phase where
  /-- in user code -/
  | user
  /-- in the kernel, by an interrupt of its user code, of which the CPU looked like `view` -/
  | trapped (view : UserView)
  /-- in the kernel for another reason -/
  | kernel
  /-- not switched to since it was made, or since it has loaded another program -/
  | fresh

def Phase.activated : Phase → Phase
  | .fresh => .kernel
  | phase => phase

structure Preemption where
  cpu : Cpu
  running : ProcRef
  /-- as in `Switching` -/
  expected : ProcRef → Option KernelContext
  phase : ProcRef → Phase
  /-- the field `fs_base` of the processes -/
  fsBase : ProcRef → Word
  /-- `tss.rsp0` -/
  rsp0 : Word

inductive PreemptOp where
  /-- user code runs, up to the given state of the CPU -/
  | user (cpu : Cpu)
  /-- an interrupt in user code -/
  | interrupt (vector handler ret : Word)
  /-- `interrupt_handler` has returned, and `isr_common` leaves the kernel -/
  | iret
  /-- a system call, up to the given state of the CPU -/
  | syscall (cpu : Cpu)
  /-- the way out of a system call, or into a new program -/
  | enterUser (cpu : Cpu)
  /-- `sys_arch_prctl(ARCH_SET_FS, addr)` -/
  | archSetFs (addr : Word)
  /-- kernel code, and switches -/
  | context (op : SwitchOp)

/-- `KERNEL_STACK_SIZE` -/
def kernelStackSize : Nat := 32 * 1024

/-- Where the frame of an interrupt of user code is. -/
def Layout.interruptFrame (L : Layout) (p : ProcRef) : Word :=
  interruptTop (L.kernelRsp p) - sizeofInterruptFrame

namespace Preemption

variable (L : Layout)

def kernelSide (s : Preemption) : Switching := ⟨s.cpu, s.running, s.expected⟩

/-- `activate_process` -/
def activateProcess (p : ProcRef) (s : Preemption) : Preemption := { s with
  cpu := { s.cpu with fsBase := s.fsBase p }
  rsp0 := L.kernelRsp p
  phase := update s.phase p (s.phase p).activated }

/-- What comes with a step of the kernel: a switch follows `activate_process`; the constructor and
`exec_elf64` set the FS base of a process to 0, and `fork` to that of the parent. -/
def prepare : SwitchOp → Preemption → Preemption
  | .code _, s => s
  | .build p start _, s => { s with
      phase := update s.phase p .fresh
      fsBase := update s.fsBase p
        (match start with
          | .fork => s.fsBase s.running
          | .kthread | .exec => 0) }
  | .switch q _, s | .leave q _, s => s.activateProcess L q

def next : PreemptOp → Preemption → Option Preemption
  | .user cpu, s => some { s with cpu := cpu }
  | .interrupt vector handler ret, s => some { s with
      cpu := interrupted vector handler ret s.rsp0 s.cpu
      phase := update s.phase s.running (.trapped s.cpu.userView) }
  | .iret, s => some { s with
      cpu := exec isrCommonExit s.cpu
      phase := update s.phase s.running .user }
  | .syscall cpu, s => some { s with cpu := cpu, phase := update s.phase s.running .kernel }
  | .enterUser cpu, s => some { s with cpu := cpu, phase := update s.phase s.running .user }
  | .archSetFs addr, s => some { s with
      cpu := { s.cpu with fsBase := addr }
      fsBase := update s.fsBase s.running addr }
  | .context op, s => do
    let s := s.prepare L op
    let t ← Switching.next L op s.kernelSide
    return { s with cpu := t.cpu, running := t.running, expected := t.expected }

/-- User code cannot write to the memory of the kernel. -/
def SameStacks (c c' : Cpu) : Prop :=
  ∀ q ∈ L.procs, ∀ x, Within (L.base q) (L.size q) x ∨ Within (L.slot q) 8 x → c'.mem x = c.mem x

/-- Kernel code does not use SSE. -/
structure NoSse (c c' : Cpu) : Prop where
  fsBase : c'.fsBase = c.fsBase
  xmm : c'.xmm = c.xmm
  mxcsr : c'.mxcsr = c.mxcsr

/-- The stack pointer of the kernel code of the running process, now or after the next interrupt. -/
def stackPointer (s : Preemption) : Word :=
  match s.phase s.running with
  | .user => L.kernelRsp s.running
  | _ => s.cpu.regs .rsp

/-- The kernel contexts, also while user code runs. -/
def contexts (s : Preemption) : Switching :=
  ⟨s.cpu.set .rsp (s.stackPointer L), s.running, s.expected⟩

/-- What the kernel code of an interrupted process has to respect, beside the rules of `Switching`.
-/
def KernelCode (s : Preemption) : SwitchOp → Prop
  | .code cpu => NoSse s.cpu cpu ∧ ∀ v, s.phase s.running = .trapped v →
      L.depth s.running (cpu.regs .rsp) ≤ L.depth s.running (L.interruptFrame s.running) ∧
      ∀ x, Within (L.interruptFrame s.running) 176 x → cpu.mem x = s.cpu.mem x
  | .build p _ _ => ∀ v, s.phase p ≠ .trapped v
  | .switch _ _ | .leave _ _ => True

def Legal : PreemptOp → Preemption → Prop
  | .user cpu, s => s.phase s.running = .user ∧ SameStacks L s.cpu cpu
  | .interrupt _ _ _, s => s.phase s.running = .user ∧ kernelStackSize ≤ L.size s.running
  | .iret, s => (∃ v, s.phase s.running = .trapped v) ∧ s.cpu.regs .rsp = L.interruptFrame s.running
  | .syscall cpu, s =>
    s.phase s.running = .user ∧ Switching.Legal L (.code cpu) (s.contexts L) ∧ NoSse s.cpu cpu
  | .enterUser cpu, s => s.phase s.running = .kernel ∧ SameStacks L s.cpu cpu ∧ NoSse s.cpu cpu
  | .archSetFs _, s => s.phase s.running = .kernel
  | .context op, s =>
    s.phase s.running ≠ .user ∧ Switching.Legal L op s.kernelSide ∧ s.KernelCode L op

/-- While some process is stopped by an interrupt, the user code of the others leaves the SSE
registers alone; and no user code loads the FS register. -/
def Safe : PreemptOp → Preemption → Prop
  | .user cpu, s => cpu.fsBase = s.cpu.fsBase ∧
    ((∃ p ∈ L.procs, ∃ v, s.phase p = .trapped v) → cpu.xmm = s.cpu.xmm ∧ cpu.mxcsr = s.cpu.mxcsr)
  | _, _ => True

/-- The kernel has been booted, in the process that will be the idle one. -/
def system : System Preemption PreemptOp where
  init s := s.running ∈ L.procs ∧ L.depth s.running (s.cpu.regs .rsp) ≤ L.size s.running ∧
    s.rsp0 = L.kernelRsp s.running ∧ (∀ p, s.expected p = none) ∧ ∀ p, s.phase p = .fresh
  next := next L

/-! ## What an interrupted process relies on -/

variable {L} {s s' : Preemption} {p : ProcRef} {v : UserView} {x ret : Word} {cpu : Cpu}
  {phase : Phase} {q : ProcRef}

/-- The frame of an interrupted process is at the top of its stack, above all that its kernel code
uses; the rest of its state is where it was, on the CPU or in its record. -/
structure Trapped (L : Layout) (s : Preemption) (p : ProcRef) (v : UserView) : Prop where
  frame : ∃ vector cs ss, words s.cpu.mem (L.interruptFrame p) 22 = v.frame vector cs ss
  inside : L.depth p (L.interruptFrame p) + 176 ≤ L.size p
  running : p = s.running → L.depth p (s.cpu.regs .rsp) ≤ L.depth p (L.interruptFrame p)
  suspended : ∀ k, s.expected p = some k → L.depth p k.rsp ≤ L.depth p (L.interruptFrame p)
  fsBase : v.fsBase = s.fsBase p
  xmm : v.xmm = s.cpu.xmm
  mxcsr : v.mxcsr = s.cpu.mxcsr

structure Inv (L : Layout) (s : Preemption) : Prop where
  contexts : Switching.Inv L (s.contexts L)
  rsp0 : s.rsp0 = L.kernelRsp s.running
  user : ∀ p, s.phase p = .user → p = s.running
  expected : s.phase s.running ≠ .fresh → s.expected s.running = none
  fsBase : s.phase s.running ≠ .fresh → s.cpu.fsBase = s.fsBase s.running
  trapped : ∀ p ∈ L.procs, ∀ v, s.phase p = .trapped v → Trapped L s p v

theorem contexts_of_ne_user (h : s.phase s.running ≠ .user) : s.contexts L = s.kernelSide := by
  have hsp : s.stackPointer L = s.cpu.regs .rsp := by
    unfold stackPointer
    split
    · next huser => exact absurd huser h
    · rfl
  rw [contexts, hsp, Cpu.set, update_eq_self]
  rfl

theorem inv_contexts (huser : s.phase s.running ≠ .user) (h : Switching.Inv L s.kernelSide) :
    Switching.Inv L (s.contexts L) := by
  rw [contexts_of_ne_user huser]
  exact h

theorem contexts_of_user (h : s.phase s.running = .user) :
    s.contexts L = ⟨s.cpu.set .rsp (L.kernelRsp s.running), s.running, s.expected⟩ := by
  rw [contexts, stackPointer, h]

theorem Inv.mem_procs (h : Inv L s) : s.running ∈ L.procs := h.contexts.running

/-- An interrupted process keeps what it relies on if its frame and its record are left alone. -/
theorem Trapped.congr (h : Trapped L s p v)
    (hmem : ∀ x, Within (L.interruptFrame p) 176 x → s'.cpu.mem x = s.cpu.mem x)
    (hrun : p = s'.running → L.depth p (s'.cpu.regs .rsp) ≤ L.depth p (L.interruptFrame p))
    (hexpected : ∀ k, s'.expected p = some k → L.depth p k.rsp ≤ L.depth p (L.interruptFrame p))
    (hfs : s'.fsBase p = s.fsBase p) (hxmm : s'.cpu.xmm = s.cpu.xmm)
    (hmxcsr : s'.cpu.mxcsr = s.cpu.mxcsr) :
    Trapped L s' p v := by
  obtain ⟨vector, cs, ss, hframe⟩ := h.frame
  refine ⟨⟨vector, cs, ss, ?_⟩, h.inside, hrun, hexpected, ?_, ?_, ?_⟩
  · rw [words_congr (by decide) hmem]
    exact hframe
  · rw [hfs, h.fsBase]
  · rw [hxmm, h.xmm]
  · rw [hmxcsr, h.mxcsr]

theorem Trapped.within (h : Trapped L s p v) (hx : Within (L.interruptFrame p) 176 x) :
    Within (L.base p) (L.size p) x := hx.trans h.inside

/-- In particular, if another process runs and goes on running. -/
theorem Trapped.of_other (h : Trapped L s p v) (hne : p ≠ s.running) (hrun : s'.running = s.running)
    (hexpected : s'.expected = s.expected)
    (hmem : ∀ x, Within (L.base p) (L.size p) x → s'.cpu.mem x = s.cpu.mem x)
    (hfs : s'.fsBase p = s.fsBase p) (hxmm : s'.cpu.xmm = s.cpu.xmm)
    (hmxcsr : s'.cpu.mxcsr = s.cpu.mxcsr) :
    Trapped L s' p v := by
  apply h.congr (fun x hx => hmem x (h.within hx)) _ _ hfs hxmm hmxcsr
  · exact fun heq => absurd (heq.trans hrun) hne
  · rw [hexpected]
    exact h.suspended

/-! ## User code -/

theorem depth_kernelRsp (hp : p ∈ L.procs) : L.depth p (L.kernelRsp p) = L.size p :=
  toNat_add_sub (L.frames_fit p hp).2

/-- The other processes find their contexts again after any user code. -/
theorem Inv.contexts_user (h : Inv L s) (hnone : s.expected s.running = none)
    (hsame : SameStacks L s.cpu s'.cpu) (huser : s'.phase s'.running = .user)
    (hrun : s'.running = s.running)
    (hexpected : s'.expected = s.expected) : Switching.Inv L (s'.contexts L) := by
  rw [contexts_of_user huser, hrun, hexpected]
  apply h.contexts.code
  refine ⟨?_, fun q hq _ x hx => hsame q hq x (.inl hx), fun q hq x hx =>
    hsame q hq x (.inr hx), ?_⟩
  · exact Nat.le_of_eq (depth_kernelRsp h.mem_procs)
  · exact fun hne => absurd hnone hne

theorem Inv.userCode (h : Inv L s) (hlegal : Legal L (.user cpu) s) (hsafe : Safe L (.user cpu) s) :
    Inv L { s with cpu := cpu } := by
  obtain ⟨huser, hsame⟩ := hlegal
  obtain ⟨hfs, hsse⟩ := hsafe
  have hfresh : s.phase s.running ≠ .fresh := by rw [huser]; exact Phase.noConfusion
  refine ⟨h.contexts_user (h.expected hfresh) hsame huser rfl rfl, h.rsp0, h.user, h.expected,
    fun _ => hfs.trans (h.fsBase hfresh), fun p hp v hv => ?_⟩
  · have hne : p ≠ s.running := by
      rintro rfl
      cases huser.symm.trans hv
    obtain ⟨hxmm, hmxcsr⟩ := hsse ⟨p, hp, v, hv⟩
    exact (h.trapped p hp v hv).of_other hne rfl rfl (fun x hx =>
      hsame p hp x (.inl hx)) rfl hxmm hmxcsr

/-- The running process enters user mode with the FS base of its record. -/
theorem Inv.toUser (h : Inv L s) (hfresh : s.phase s.running ≠ .fresh)
    (hsame : SameStacks L s.cpu cpu) (hsse : NoSse s.cpu cpu) :
    Inv L { s with cpu := cpu, phase := update s.phase s.running .user } := by
  have huser : update s.phase s.running .user s.running = .user := update_self ..
  refine ⟨h.contexts_user (h.expected hfresh) hsame huser rfl rfl, h.rsp0, fun p hp => ?_,
    fun _ => h.expected hfresh, fun _ => hsse.fsBase.trans (h.fsBase hfresh), fun p hp v hv => ?_⟩
  · by_contra hne
    exact hne (h.user p ((update_of_ne hne ..).symm.trans hp))
  · have hne : p ≠ s.running := by
      rintro rfl
      cases huser.symm.trans hv
    have hv' : s.phase p = .trapped v := (update_of_ne hne ..).symm.trans hv
    exact (h.trapped p hp v hv').of_other hne rfl rfl (fun x hx =>
      hsame p hp x (.inl hx)) rfl hsse.xmm
      hsse.mxcsr

/-! ## Into the kernel -/

theorem Inv.toKernel (h : Inv L s) (huser : s.phase s.running = .user)
    (hlegal : Switching.Legal L (.code cpu) (s.contexts L)) (hsse : NoSse s.cpu cpu)
    (hphase : phase ≠ .user) (htrapped : ∀ v, phase = .trapped v →
      Trapped L { s with cpu := cpu, phase := update s.phase s.running phase } s.running v) :
    Inv L { s with cpu := cpu, phase := update s.phase s.running phase } := by
  have hfresh : s.phase s.running ≠ .fresh := by rw [huser]; exact Phase.noConfusion
  have hself : update s.phase s.running phase s.running = phase := update_self ..
  refine ⟨inv_contexts (fun heq => hphase (hself.symm.trans heq)) (h.contexts.code hlegal), h.rsp0,
    fun p hp => ?_, fun _ => h.expected hfresh, fun _ => hsse.fsBase.trans (h.fsBase hfresh),
    fun p hp v hv => ?_⟩
  · by_contra hne
    exact hne (h.user p ((update_of_ne hne ..).symm.trans hp))
  · by_cases hne : p = s.running
    · subst hne
      exact htrapped v (hself.symm.trans hv)
    · have hv' : s.phase p = .trapped v := (update_of_ne hne ..).symm.trans hv
      exact (h.trapped p hp v hv').of_other hne rfl rfl (hlegal.2.1 p hp hne) rfl
        hsse.xmm hsse.mxcsr

/-- The interrupt frame and the return address below it are on the stack, and leave room for more.
-/
theorem depth_interruptFrame (hp : p ∈ L.procs) (hsize : kernelStackSize ≤ L.size p) :
    L.depth p (L.interruptFrame p - 8) + 8 = L.depth p (L.interruptFrame p) ∧
    L.depth p (L.interruptFrame p) + 176 ≤ L.size p ∧ 56 ≤ L.depth p (L.interruptFrame p) := by
  have hcut := toNat_and_0xF_lt (L.kernelRsp p)
  have hrsp := depth_kernelRsp hp
  unfold kernelStackSize at hsize
  have htop : interruptTop (L.kernelRsp p) =
      L.kernelRsp p - BitVec.ofNat 64 (L.kernelRsp p &&& 0xF).toNat := by
    rw [BitVec.ofNat_toNat, BitVec.setWidth_eq]
    exact BitVec.eq_sub_iff_add_eq.mpr (interruptTop_add _)
  have hdepth : L.depth p (interruptTop (L.kernelRsp p)) =
      L.size p - (L.kernelRsp p &&& 0xF).toNat := by
    rw [htop, Layout.depth_sub (by omega), hrsp]
  have hframe : L.depth p (L.interruptFrame p) = L.depth p (interruptTop (L.kernelRsp p)) - 176 :=
    Layout.depth_sub (n := 176) (by omega)
  have hret : L.depth p (L.interruptFrame p - 8) = L.depth p (L.interruptFrame p) - 8 :=
    Layout.depth_sub (n := 8) (by omega)
  omega

section

variable (h : Inv L s)

include h

theorem Inv.interrupt {vector handler : Word}
    (hlegal : Legal L (.interrupt vector handler ret) s) : Inv L { s with
      cpu := interrupted vector handler ret s.rsp0 s.cpu
      phase := update s.phase s.running (.trapped s.cpu.userView) } := by
  obtain ⟨huser, hsize⟩ := hlegal
  have hfresh : s.phase s.running ≠ .fresh := by rw [huser]; exact Phase.noConfusion
  have hnone := h.expected hfresh
  obtain ⟨hret, hframe, -⟩ := depth_interruptFrame h.mem_procs hsize
  obtain ⟨hfs, hxmm, hmxcsr⟩ := interrupted_keeps vector handler ret s.rsp0 s.cpu
  have hrsp : (interrupted vector handler ret s.rsp0 s.cpu).regs .rsp =
      L.interruptFrame s.running - 8 := by
    rw [rsp_interrupted, h.rsp0]
    rfl
  -- what is written is a part of the stack of the running process
  have hmem : ∀ x, ¬ Within (L.base s.running) (L.size s.running) x →
      (interrupted vector handler ret s.rsp0 s.cpu).mem x = s.cpu.mem x := by
    intro x hx
    apply interrupted_frame
    intro hin
    rw [h.rsp0] at hin
    exact hx (hin.trans (Nat.le_trans (Nat.le_of_eq (congrArg (· + 176) hret)) hframe))
  apply h.toKernel huser _ ⟨hfs, hxmm, hmxcsr⟩ Phase.noConfusion
  · intro v hv
    cases hv
    refine ⟨⟨vector, s.cpu.cs, s.cpu.ss, ?_⟩, hframe, fun _ => ?_, fun k hk => ?_,
      h.fsBase hfresh, hxmm.symm, hmxcsr.symm⟩
    · rw [← words_interrupted vector handler ret s.rsp0 s.cpu, h.rsp0]
      rfl
    · rw [hrsp]
      omega
    · cases hnone.symm.trans hk
  · refine ⟨?_, fun q hq hne x hx => ?_, fun q hq x hx => ?_, fun hne => absurd hnone hne⟩
    · rw [hrsp]
      show L.depth s.running (L.interruptFrame s.running - 8) ≤ L.size s.running
      omega
    · exact hmem x (L.stacks_apart q hq _ h.mem_procs hne x hx)
    · exact hmem x (fun hin => L.stack_slot _ h.mem_procs q hq x hin hx)

/-! ## Kernel code -/

theorem Inv.kernelSide (huser : s.phase s.running ≠ .user) : Switching.Inv L s.kernelSide := by
  rw [← contexts_of_ne_user huser]
  exact h.contexts

theorem Inv.code (hlegal : Legal L (.context (.code cpu)) s) : Inv L { s with cpu := cpu } := by
  obtain ⟨huser, hswitching, hsse, hframe⟩ := hlegal
  refine ⟨inv_contexts huser ((h.kernelSide huser).code hswitching), h.rsp0, h.user, h.expected,
    fun hfresh => hsse.fsBase.trans (h.fsBase hfresh), fun p hp v hv => ?_⟩
  · have htrapped := h.trapped p hp v hv
    by_cases hrun : p = s.running
    · subst hrun
      obtain ⟨hdepth, hsame⟩ := hframe v hv
      exact htrapped.congr hsame (fun _ => hdepth) htrapped.suspended rfl hsse.xmm hsse.mxcsr
    · exact htrapped.of_other hrun rfl rfl (hswitching.2.1 p hp hrun) rfl hsse.xmm hsse.mxcsr

theorem Inv.archSetFs {addr : Word} (hlegal : Legal L (.archSetFs addr) s) : Inv L { s with
    cpu := { s.cpu with fsBase := addr }
    fsBase := update s.fsBase s.running addr } := by
  have hkernel := hlegal
  have huser : s.phase s.running ≠ .user := by rw [hkernel]; exact Phase.noConfusion
  have hself : update s.fsBase s.running addr s.running = addr := update_self ..
  refine ⟨inv_contexts huser ((h.kernelSide huser).setFsBase addr), h.rsp0, h.user, h.expected,
    fun _ => hself.symm, fun p hp v hv => ?_⟩
  · have hne : p ≠ s.running := by
      rintro rfl
      cases hkernel.symm.trans hv
    exact (h.trapped p hp v hv).of_other hne rfl rfl (fun _ _ => rfl) (update_of_ne hne ..) rfl rfl

/-- A new process, or a new program, is not one that an interrupt has stopped. -/
theorem Inv.build {start : Start} {entry : Word}
    (hlegal : Legal L (.context (.build q start entry)) s)
    (hrun : next L (.context (.build q start entry)) s = some s') : Inv L s' := by
  obtain ⟨huser, hswitching, hstopped⟩ := hlegal
  have hq : q ∈ L.procs := hswitching.1
  have hcontexts := (h.kernelSide huser).build hswitching rfl
  cases hrun
  have hphase : ∀ p, p ≠ q → update s.phase q .fresh p = s.phase p :=
    fun p hne => update_of_ne hne ..
  have hself : update s.phase q .fresh q = .fresh := update_self ..
  refine ⟨inv_contexts (fun heq => ?_) hcontexts, h.rsp0, fun p hp => ?_,
    fun hfresh => ?_, fun hfresh => ?_, fun p hp v hv => ?_⟩
  · by_cases hne : s.running = q
    · cases hself.symm.trans (hne ▸ heq)
    · exact huser ((hphase _ hne).symm.trans heq)
  · by_cases hne : p = q
    · cases hself.symm.trans (hne ▸ hp)
    · exact h.user p ((hphase p hne).symm.trans hp)
  · have hne : s.running ≠ q := fun heq => hfresh (heq ▸ hself)
    exact (update_of_ne hne ..).trans (h.expected (hphase _ hne ▸ hfresh))
  · have hne : s.running ≠ q := fun heq => hfresh (heq ▸ hself)
    exact (h.fsBase (hphase _ hne ▸ hfresh)).trans (update_of_ne hne ..).symm
  · have hne : p ≠ q := by
      rintro rfl
      cases hself.symm.trans hv
    have htrapped := h.trapped p hp v ((hphase p hne).symm.trans hv)
    refine htrapped.congr (fun x hx => ?_) htrapped.running ?_ (update_of_ne hne ..) rfl rfl
    · apply buildSyntheticContextFrame_frame
      · exact fun hin => L.stacks_apart p hp q hq hne x (htrapped.within hx)
          (hin.trans (start.depth_contextFrame hq))
      · exact L.stack_slot p hp q hq x (htrapped.within hx)
    · intro k hk
      exact htrapped.suspended k ((update_of_ne hne ..).symm.trans hk)

end

/-! ## Switches -/

/-- No switch writes to the frame of an interrupted process. -/
theorem Trapped.not_written (h : Trapped L s p v) (hinv : Switching.Inv L s.kernelSide)
    (hp : p ∈ L.procs) (hx : Within (L.interruptFrame p) 176 x) :
    ¬ Switching.Written L s.kernelSide x := by
  by_cases hrun : p = s.running
  · subst hrun
    have hinside := h.inside
    have hlt := (L.frames_fit _ hp).2
    have hge := (Layout.depth_of_within (L := L) (p := s.running) hx (by omega)).1
    rintro (hwritten | hslot)
    · exact absurd (lt_of_lt_of_le hwritten (h.running rfl)) (Nat.not_lt.mpr hge)
    · exact L.stack_slot _ hp _ hp x (h.within hx) hslot
  · exact hinv.stack_not_written hp hrun (h.within hx)

/-- What both kinds of switch do. -/
structure Switched (L : Layout) (q : ProcRef) (s s' : Preemption) (k : KernelContext) : Prop where
  contexts : Switching.Inv L s'.kernelSide
  context : s'.cpu.kernelContext = k
  mem : ∀ x, ¬ Switching.Written L s.kernelSide x → s'.cpu.mem x = s.cpu.mem x
  fsBase : s'.cpu.fsBase = s.fsBase q
  xmm : s'.cpu.xmm = s.cpu.xmm
  mxcsr : s'.cpu.mxcsr = s.cpu.mxcsr
  running : s'.running = q
  rsp0 : s'.rsp0 = L.kernelRsp q
  records : s'.fsBase = s.fsBase
  phase : s'.phase = update s.phase q (s.phase q).activated
  none : s'.expected q = none
  expected : ∀ p k', s'.expected p = some k' →
    s.expected p = some k' ∨ (p = s.running ∧ k'.rsp = s.cpu.regs .rsp)

theorem of_activated {result : Phase} (h : phase.activated = result) (hkernel : result ≠ .kernel) :
    phase = result := by
  cases phase with
  | fresh => exact absurd h.symm hkernel
  | _ => exact h

section

variable (h : Inv L s)

include h

/-- After a switch every trapped process still has what its interrupt saved. -/
theorem Inv.switched {k : KernelContext} (huser : s.phase s.running ≠ .user)
    (hq : q ≠ s.running) (hk : s.expected q = some k) (hswitch : Switched L q s s' k) :
    Inv L s' := by
  have hphase : ∀ p result, s'.phase p = result → result ≠ .kernel → s.phase p = result := by
    intro p result hp hkernel
    rw [hswitch.phase] at hp
    by_cases hne : p = q
    · subst hne
      rw [update_self] at hp
      exact of_activated hp hkernel
    · rwa [update_of_ne hne] at hp
  have hnobody : ∀ p, s'.phase p ≠ .user := by
    intro p hp
    have hp' := hphase p .user hp Phase.noConfusion
    exact huser (h.user p hp' ▸ hp')
  refine ⟨inv_contexts (hnobody _) hswitch.contexts, ?_, fun p hp => absurd hp (hnobody p),
    fun _ => ?_, fun _ => ?_, fun p hp v hv => ?_⟩
  · rw [hswitch.rsp0, hswitch.running]
  · rw [hswitch.running, hswitch.none]
  · rw [hswitch.fsBase, hswitch.records, hswitch.running]
  · have htrapped := h.trapped p hp v (hphase p _ hv Phase.noConfusion)
    refine htrapped.congr (fun x hx =>
      hswitch.mem x (htrapped.not_written (h.kernelSide huser) hp hx))
      (fun hrun => ?_) (fun k' hk' => ?_) (by rw [hswitch.records]) hswitch.xmm hswitch.mxcsr
    · -- the process goes on where it was suspended
      obtain rfl : p = q := hrun.trans hswitch.running
      have hrsp : s'.cpu.regs .rsp = k.rsp := congrArg KernelContext.rsp hswitch.context
      rw [hrsp]
      exact htrapped.suspended k hk
    · obtain hold | ⟨rfl, hrsp⟩ := hswitch.expected p k' hk'
      · exact htrapped.suspended k' hold
      · rw [hrsp]
        exact htrapped.running rfl

/-- `context_switch` is called by the kernel, not in user mode. -/
theorem Inv.switch (hlegal : Legal L (.context (.switch q ret)) s)
    (hrun : next L (.context (.switch q ret)) s = some s') : Inv L s' := by
  obtain ⟨huser, hswitching, -⟩ := hlegal
  obtain ⟨-, hq, hexpected, hroom⟩ := id hswitching
  obtain ⟨k, hk⟩ := ne_none_iff_exists'.mp hexpected
  let t := (s.activateProcess L q).kernelSide
  have hinv : Switching.Inv L t := (h.kernelSide huser).setFsBase (s.fsBase q)
  have hlegal : Switching.Legal L (.switch q ret) t := hswitching
  have hcontext : (t.switched L q ret).kernelContext = k := hinv.switched_context hlegal hk
  have hnext := hinv.switch hlegal rfl
  cases hrun
  apply h.switched huser hq hk
  refine ⟨hnext, hcontext, fun x hx => switched_frame hroom hx, rfl, rfl, rfl, rfl, rfl, rfl, rfl,
    update_self .., fun p k' hk' => ?_⟩
  dsimp only at hk'
  by_cases hpq : p = q
  · subst hpq
    rw [update_self] at hk'
    cases hk'
  · rw [update_of_ne hpq] at hk'
    by_cases hprun : p = s.running
    · subst hprun
      cases (update_self ..).symm.trans hk'
      exact .inr ⟨rfl, rfl⟩
    · exact .inl ((update_of_ne hprun ..).symm.trans hk')

theorem Inv.leave (hlegal : Legal L (.context (.leave q ret)) s)
    (hrun : next L (.context (.leave q ret)) s = some s') : Inv L s' := by
  obtain ⟨huser, hswitching, -⟩ := hlegal
  obtain ⟨-, hq, hexpected, hroom⟩ := id hswitching
  obtain ⟨k, hk⟩ := ne_none_iff_exists'.mp hexpected
  let t := (s.activateProcess L q).kernelSide
  have hinv : Switching.Inv L t := (h.kernelSide huser).setFsBase (s.fsBase q)
  have hlegal : Switching.Legal L (.leave q ret) t := hswitching
  have hcontext : (t.left L q ret).kernelContext = k := hinv.left_context hlegal hk
  have hnext := hinv.leave hlegal rfl
  cases hrun
  apply h.switched huser hq hk
  refine ⟨hnext, hcontext, fun x hx => left_frame hroom hx, rfl, rfl, rfl, rfl, rfl, rfl, rfl,
    update_self .., fun p k' hk' => .inl ?_⟩
  dsimp only at hk'
  by_cases hpq : p = q
  · subst hpq
    rw [update_self] at hk'
    cases hk'
  · exact (update_of_ne hpq ..).symm.trans hk'

/-! ## Runs -/

/-- The frame of the running process holds what its user code had. -/
theorem Inv.iret_eq (hv : s.phase s.running = .trapped v)
    (hrsp : s.cpu.regs .rsp = L.interruptFrame s.running) :
    (exec isrCommonExit s.cpu).userView = v ∧ (exec isrCommonExit s.cpu).mem = s.cpu.mem := by
  have htrapped := h.trapped _ h.mem_procs v hv
  obtain ⟨vector, cs, ss, hframe⟩ := htrapped.frame
  rw [← hrsp] at hframe
  obtain ⟨gsBase, kernelGsBase, hexit⟩ := isrCommonExit_eq hframe
  have hfs : s.cpu.fsBase = v.fsBase := by
    rw [htrapped.fsBase]
    exact h.fsBase (by rw [hv]; exact Phase.noConfusion)
  refine ⟨?_, by rw [hexit]⟩
  rw [hexit, Cpu.userView, hfs, ← htrapped.xmm, ← htrapped.mxcsr]

theorem Inv.iret (hv : s.phase s.running = .trapped v) (hview : cpu.userView = v)
    (hmem : cpu.mem = s.cpu.mem) :
    Inv L { s with cpu := cpu, phase := update s.phase s.running .user } := by
  have htrapped := h.trapped _ h.mem_procs v hv
  have hfresh : s.phase s.running ≠ .fresh := by rw [hv]; exact Phase.noConfusion
  refine h.toUser hfresh (fun _ _ x _ => congrFun hmem x) ⟨?_, ?_, ?_⟩
  · rw [h.fsBase hfresh, ← htrapped.fsBase]
    exact congrArg UserView.fsBase hview
  · rw [← htrapped.xmm]
    exact congrArg UserView.xmm hview
  · rw [← htrapped.mxcsr]
    exact congrArg UserView.mxcsr hview

/-- **One step**: what an interrupt has saved is there until its `iret`. -/
theorem Inv.next {op : PreemptOp} (hlegal : Legal L op s) (hsafe : Safe L op s)
    (hrun : Preemption.next L op s = some s') : Inv L s' := by
  cases op with
  | user cpu =>
    cases hrun
    exact h.userCode hlegal hsafe
  | interrupt vector handler ret =>
    cases hrun
    exact h.interrupt hlegal
  | iret =>
    obtain ⟨⟨v, hv⟩, hrsp⟩ := hlegal
    obtain ⟨hview, hmem⟩ := h.iret_eq hv hrsp
    cases hrun
    exact h.iret hv hview hmem
  | syscall cpu =>
    obtain ⟨huser, hcode, hsse⟩ := hlegal
    cases hrun
    exact h.toKernel huser hcode hsse Phase.noConfusion (fun _ => Phase.noConfusion)
  | enterUser cpu =>
    obtain ⟨hkernel, hsame, hsse⟩ := hlegal
    cases hrun
    exact h.toUser (by rw [hkernel]; exact Phase.noConfusion) hsame hsse
  | archSetFs addr =>
    cases hrun
    exact h.archSetFs hlegal
  | context op =>
    cases op with
    | code cpu =>
      cases hrun
      exact h.code hlegal
    | build q start entry => exact h.build hlegal hrun
    | switch q ret => exact h.switch hlegal hrun
    | leave q ret => exact h.leave hlegal hrun

end

theorem reachable_inv (h : (system L).ReachableUnder (fun op s => Legal L op s ∧ Safe L op s) s) :
    Inv L s := by
  apply h.invariant
  · rintro s ⟨hrun, hroom, hrsp0, hnone, hfresh⟩
    refine ⟨inv_contexts ?_ ⟨hrun, hroom, fun p _ k hk => ?_⟩, hrsp0, fun p hp => ?_,
      fun _ => hnone _, fun hne => absurd (hfresh _) hne, fun p _ v hv => ?_⟩
    · rw [hfresh]
      exact Phase.noConfusion
    · cases (hnone p).symm.trans hk
    · cases (hfresh p).symm.trans hp
    · cases (hfresh p).symm.trans hv
  · exact fun s s' op hinv hok hrun => hinv.next hok.1 hok.2 hrun

/-- **Preemption is transparent** as long as user code leaves the SSE registers and FS alone while
another process is stopped: when `isr_common` leaves the kernel, all that user code can see of the
CPU is as it was when it was interrupted. -/
theorem reachable_iret_restores (L : Layout) {s s' : Preemption} {v : UserView}
    (h : (system L).ReachableUnder (fun op s => Legal L op s ∧ Safe L op s) s)
    (hv : s.phase s.running = .trapped v) (hlegal : Legal L .iret s)
    (hrun : next L .iret s = some s') :
    s'.phase s.running = .user ∧ s'.cpu.userView = v := by
  obtain ⟨-, hrsp⟩ := hlegal
  cases hrun
  exact ⟨update_self .., ((reachable_inv h).iret_eq hv hrsp).1⟩

/-- The kernel runs on the stack of process 0. -/
def booted : Preemption where
  cpu := Switching.alone.cpu
  running := 0
  expected := fun _ => none
  phase := fun _ => .fresh
  fsBase := fun _ => 0
  rsp0 := Switching.twoStacks.kernelRsp 0

/-- Kernel code that ends with the given stack pointer. -/
def unwound (rsp : Word) (c : Cpu) : Cpu := { c with regs := fun _ => rsp }

section Scenario

variable {ok : PreemptOp → Preemption → Prop}
  (hok : ∀ op s, Legal L op s → (∀ cpu, op ≠ .user cpu) → ok op s)
include hok

section

variable (h : (system L).ReachableUnder ok s)

include h

/-- The running process goes to user mode. -/
theorem enter (hrun : s.running = p) (hkernel : s.phase p = .kernel) :
    (system L).ReachableUnder ok { s with phase := update s.phase p .user } := by
  subst hrun
  have hlegal : Legal L (.enterUser s.cpu) s := ⟨hkernel, fun _ _ _ _ => rfl, rfl, rfl, rfl⟩
  exact h.tail (hok _ _ hlegal (fun _ => PreemptOp.noConfusion)) rfl

/-- Its user code is interrupted. -/
theorem stop (hrun : s.running = p) (huser : s.phase p = .user)
    (hsize : kernelStackSize ≤ L.size p) : ∃ s', (system L).ReachableUnder ok s' ∧ s'.running = p ∧
      s'.phase = update s.phase p (.trapped s.cpu.userView) ∧ s'.expected = s.expected ∧
      s'.cpu.xmm = s.cpu.xmm := by
  subst hrun
  have hlegal : Legal L (.interrupt 32 0 0) s := ⟨huser, hsize⟩
  exact ⟨_, h.tail (hok _ _ hlegal (fun _ => PreemptOp.noConfusion)) rfl, rfl, rfl, rfl,
    (interrupted_keeps 32 0 0 s.rsp0 s.cpu).2.1⟩

/-- Its kernel code comes back to the interrupt frame. -/
theorem unwind (hp : p ∈ L.procs) (hsize : kernelStackSize ≤ L.size p)
    (hrun : s.running = p) (hkernel : s.phase p ≠ .user) (hnone : s.expected p = none) :
    (system L).ReachableUnder ok { s with cpu := unwound (L.interruptFrame p) s.cpu } := by
  subst hrun
  obtain ⟨-, hinside, -⟩ := depth_interruptFrame hp hsize
  have hlegal : Legal L (.context (.code (unwound (L.interruptFrame s.running) s.cpu))) s :=
    ⟨hkernel,
      ⟨Nat.le_trans (Nat.le_add_right _ _) hinside, fun _ _ _ _ _ => rfl, fun _ _ _ _ => rfl,
      fun hne => absurd hnone hne⟩, ⟨rfl, rfl, rfl⟩, fun _ _ => ⟨Nat.le_refl _, fun _ _ => rfl⟩⟩
  exact h.tail (hok _ _ hlegal (fun _ => PreemptOp.noConfusion)) rfl

end

/-- Its kernel code switches to `q`. -/
theorem switchTo (q : ProcRef) (h : (system L).ReachableUnder ok s) (hp : p ∈ L.procs)
    (hsize : kernelStackSize ≤ L.size p) (hrun : s.running = p) (hkernel : s.phase p ≠ .user)
    (hnone : s.expected p = none) (hq : q ∈ L.procs) (hne : q ≠ p)
    (hexpected : s.expected q ≠ none) :
    ∃ s', (system L).ReachableUnder ok s' ∧ s'.running = q ∧
      s'.phase = update s.phase q (s.phase q).activated ∧
      s'.expected q = none ∧ s'.expected p ≠ none ∧ s'.cpu.xmm = s.cpu.xmm := by
  have hunwound := unwind hok h hp hsize hrun hkernel hnone
  subst hrun
  let handled : Preemption := { s with cpu := unwound (L.interruptFrame s.running) s.cpu }
  have hlegal : Legal L (.context (.switch q 0)) handled :=
    ⟨hkernel, ⟨hq, hne, hexpected, (depth_interruptFrame hp hsize).2.2⟩, trivial⟩
  have hsaved (k : KernelContext) :
      update (update s.expected s.running (some k)) q none s.running ≠ none := by
    rw [update_of_ne hne.symm, update_self]
    exact some_ne_none k
  exact ⟨_, hunwound.tail (hok _ _ hlegal (fun _ => PreemptOp.noConfusion)) rfl, rfl, rfl,
    update_self .., hsaved _, rfl⟩

end Scenario

/-- Process 0 starts process 1. -/
theorem booted_start {ok : PreemptOp → Preemption → Prop}
    (hok : ∀ op s, Legal twoStacks op s → (∀ cpu, op ≠ .user cpu) → ok op s) :
    ∃ s, (system twoStacks).ReachableUnder ok s ∧ s.running = 1 ∧ s.phase 1 = .kernel ∧
      s.phase 0 = .fresh ∧ s.expected 1 = none ∧ s.expected 0 ≠ none := by
  let L := twoStacks
  have hbooted : (system L).ReachableUnder ok booted :=
    .start ⟨by decide, by decide, rfl, fun _ => rfl, fun _ => rfl⟩
  have hlegal : Legal L (.context (.build 1 .exec 0x4000)) booted :=
    ⟨Phase.noConfusion, ⟨by decide, rfl, fun h => by cases h⟩, fun _ => Phase.noConfusion⟩
  have hbuilt := hbooted.tail (hok _ _ hlegal (fun _ => PreemptOp.noConfusion)) rfl
  obtain ⟨s, hs, hrun, hphase, hnone, hexpected, -⟩ :=
    switchTo hok 1 hbuilt (show 0 ∈ L.procs by decide) (Nat.le_refl _) rfl Phase.noConfusion rfl
      (show 1 ∈ L.procs by decide) (by decide) (some_ne_none _)
  refine ⟨s, hs, hrun, ?_, ?_, hnone, hexpected⟩
  · rw [hphase]
    rfl
  · rw [hphase]
    rfl

/-- Process 1 is interrupted and goes on. -/
theorem booted_iret_restores : ∃ s s' v, s.phase s.running = .trapped v ∧
    next Switching.twoStacks .iret s = some s' ∧ s'.cpu.userView = v := by
  let L := twoStacks
  have hok : ∀ op s, Legal L op s → (∀ cpu, op ≠ .user cpu) → Legal L op s ∧ Safe L op s := by
    intro op s hlegal hop
    cases op with
    | user cpu => exact absurd rfl (hop cpu)
    | _ => exact ⟨hlegal, trivial⟩
  have hsize (p : ProcRef) : kernelStackSize ≤ L.size p := Nat.le_refl _
  have h1 : 1 ∈ L.procs := by decide
  obtain ⟨s, hs, hrun, hkernel, -, hnone, -⟩ := booted_start hok
  have hentered := enter hok hs hrun hkernel
  obtain ⟨s', hstopped, hrun', hphase, hexpected, -⟩ :=
    stop hok hentered hrun (update_self 1 .user s.phase) (hsize 1)
  have hv : s'.phase 1 = .trapped s.cpu.userView := by rw [hphase, update_self]
  have hback := unwind hok hstopped h1 (hsize 1) hrun' (by rw [hv]; exact Phase.noConfusion)
    (by rw [hexpected]; exact hnone)
  rw [← hrun'] at hv
  let back : Preemption := { s' with cpu := unwound (L.interruptFrame 1) s'.cpu }
  have hlegal : Legal L .iret back := ⟨⟨_, hv⟩, congrArg L.interruptFrame hrun'.symm⟩
  obtain ⟨resumed, hresumed⟩ : ∃ resumed, next L .iret back = some resumed := ⟨_, rfl⟩
  exact ⟨back, resumed, _, hv, hresumed, (reachable_iret_restores L hback hv hlegal hresumed).2⟩

/-- User code of the running process loads the SSE registers and is interrupted. -/
theorem useSse (xmm : Fin 16 → BitVec 128)
    (h : (system L).ReachableUnder (Legal L) s) (hrun : s.running = p)
    (hkernel : s.phase p = .kernel) (hsize : kernelStackSize ≤ L.size p) :
    ∃ s' v, (system L).ReachableUnder (Legal L) s' ∧ s'.running = p ∧
      s'.phase = update s.phase p (.trapped v) ∧ s'.expected = s.expected ∧
      v.xmm = xmm ∧ s'.cpu.xmm = xmm := by
  have hok : ∀ op s, Legal L op s → (∀ cpu, op ≠ .user cpu) → Legal L op s :=
    fun _ _ hlegal _ => hlegal
  have hentered := enter hok h hrun hkernel
  subst hrun
  have huser := update_self s.running .user s.phase
  have hlegal : Legal L (.user { s.cpu with xmm := xmm })
      { s with phase := update s.phase s.running .user } := ⟨huser, fun _ _ _ _ => rfl⟩
  have hloaded := hentered.tail hlegal rfl
  obtain ⟨s', hs', hrun', hphase, hexpected, hxmm⟩ := stop hok hloaded rfl huser hsize
  exact ⟨s', _, hs', hrun', hphase.trans (update_idem ..), hexpected, rfl, hxmm⟩

/-- Two processes use SSE: process 1 finds the registers of process 0 when it goes on. -/
theorem booted_iret_mixes_xmm :
    ∃ s s' v, (system Switching.twoStacks).ReachableUnder (Legal Switching.twoStacks) s ∧
    s.phase s.running = .trapped v ∧ Legal Switching.twoStacks .iret s ∧
    next Switching.twoStacks .iret s = some s' ∧ v.xmm 0 = 1 ∧ s'.cpu.userView.xmm 0 = 2 := by
  let L := twoStacks
  have hok : ∀ op s, Legal L op s → (∀ cpu, op ≠ .user cpu) → Legal L op s :=
    fun _ _ hlegal _ => hlegal
  have hsize (p : ProcRef) : kernelStackSize ≤ L.size p := Nat.le_refl _
  have h0 : 0 ∈ L.procs := by decide
  have h1 : 1 ∈ L.procs := by decide
  obtain ⟨s1, hs1, hrun1, hkernel1, hfresh1, hnone1, hexpected1⟩ := booted_start hok
  -- process 1 loads 1, and process 0 is switched to
  obtain ⟨s2, v1, hs2, hrun2, hphase2, hsame2, hv1, -⟩ :=
    useSse (fun _ => 1) hs1 hrun1 hkernel1 (hsize 1)
  rw [← hsame2] at hnone1 hexpected1
  obtain ⟨s3, hs3, hrun3, hphase3, hnone3, hexpected3, -⟩ :=
    switchTo hok 0 hs2 h1 (hsize 1) hrun2 (by simp [hphase2]) hnone1 h0 (by decide) hexpected1
  have hkernel3 : s3.phase 0 = .kernel := by simp [hphase3, hphase2, hfresh1, Phase.activated]
  -- process 0 loads 2, and process 1 is switched to
  obtain ⟨s4, v3, hs4, hrun4, hphase4, hsame4, -, hxmm4⟩ :=
    useSse (fun _ => 2) hs3 hrun3 hkernel3 (hsize 0)
  rw [← hsame4] at hnone3 hexpected3
  obtain ⟨s5, hs5, hrun5, hphase5, hnone5, -, hxmm5⟩ :=
    switchTo hok 1 hs4 h0 (hsize 0) hrun4 (by simp [hphase4]) hnone3 h1 (by decide) hexpected3
  have hv : s5.phase 1 = .trapped v1 := by
    simp [hphase5, hphase4, hphase3, hphase2, Phase.activated]
  have hs6 := unwind hok hs5 h1 (hsize 1) hrun5 (by rw [hv]; exact Phase.noConfusion) hnone5
  rw [← hrun5] at hv
  refine ⟨_, _, v1, hs6, hv, ⟨⟨v1, hv⟩, congrArg L.interruptFrame hrun5.symm⟩,
    rfl, congrFun hv1 0, ?_⟩
  rw [Cpu.userView, xmm_isrCommonExit]
  exact congrFun (hxmm5.trans hxmm4) 0

end Preemption

end Hltos.Asm
