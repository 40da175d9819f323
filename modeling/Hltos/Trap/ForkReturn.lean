import Hltos.Fs.Vfs
import Hltos.Memory.Clone
import Hltos.Trap.ContextSwitch

/-!
# The child of a fork

`syscall_entry` leaves the registers of the caller in a `SyscallFrame`. `Process::fork` copies it to
the top of a new kernel stack and puts a `ContextFrame` below it, so that the first switch to the
child ends in `forked_entry_context_switch` and from there in `syscall_exit`, which pops the copy.
-/

namespace Hltos

open FrameAllocator Option Function

/-- The process record, with the fields that `fork` copies or that point into the kernel stack. -/
structure UserProcess extends Process where
  cwdInode : Option InodeRef
  fdTable : List (Option DescRef)
  syscallFrame : Word
  contextFrame : Word

namespace Asm

open Lib.ByteMemory Lib.Transition
open Trap (Reg)

variable {σ : Type} [FrameAllocator σ]

/-- The fields of a `SyscallFrame`, in their order. -/
def syscallFrameRegs : List Reg :=
  [.r15, .r14, .r13, .r12, .r11, .r10, .r9, .r8, .rbp, .rdi, .rsi, .rdx, .rcx, .rbx, .rax, .rsp]

/-- `copy_syscall_frame` assigns the fields in their order. -/
def copySyscallFrame (frame syscallFrame : Word) (m : Mem) : Mem :=
  copyWords m frame syscallFrame syscallFrameRegs.length

/-- The processes, the page tables and the kernel stacks. -/
structure ForkState (σ : Type) where
  procs : ProcRef → UserProcess
  vmm : Vmm σ
  mem : Mem

/-- `Process::fork` of the process `self`. -/
def fork (L : Layout) (self child : ProcRef) (pid : Int) (forkedEntry : Word) (s : ForkState σ) :
    Option (ForkState σ) := do
  let p := s.procs self
  let kernelRsp := L.kernelRsp child
  let (clonedPml4, vmm) ← s.vmm.cloneUserPml4 (← p.pml4)
  let (uheap, vmm) ← vmm.cloneUserHeap p.uheap clonedPml4
  let forked : UserProcess := {
    toProcess := p.toProcess.fork self clonedPml4 uheap
      ((s.procs child).toProcess.construct pid kernelRsp)
    cwdInode := p.cwdInode
    fdTable := p.fdTable
    syscallFrame := kernelRsp - sizeofSyscallFrame
    contextFrame := kernelRsp - sizeofSyscallFrame - sizeofContextFrame }
  let mem := copySyscallFrame p.syscallFrame forked.syscallFrame s.mem
  let mem := buildSyntheticContextFrame forked.contextFrame (L.slot child) forkedEntry mem
  return ⟨Function.update s.procs child forked, vmm, mem⟩

/-! ## The way in -/

variable {c c' : Cpu} {f : Reg → Word}

/-- `syscall_entry` up to the first push: the stack pointer comes from the per-CPU data, where the
user's is put aside. -/
def switchStack : List Instr :=
  [.swapgs, .storeGs .rsp perCpuUserRspOffset, .loadGs perCpuKernelRspOffset .rsp,
    .pushGs perCpuUserRspOffset]

theorem words_switchStack (c : Cpu) :
    words (exec switchStack c).mem ((exec switchStack c).regs .rsp) 1 = [c.regs .rsp] := by
  have huser : load (store c.mem (c.kernelGsBase + perCpuUserRspOffset) (c.regs .rsp))
      (c.kernelGsBase + perCpuUserRspOffset) = c.regs .rsp := load_store
  exact congrArg (fun v => [v]) (load_store.trans huser)

/-- The registers that `syscall_entry` pushes after that. -/
def pushedRegs : List Reg := syscallFrameRegs.dropLast.reverse

/-- `syscall_entry` without its last two instructions. -/
def savedRegs (c : Cpu) : Cpu := exec (pushedRegs.map .push) (exec switchStack c)

section

variable (ret : Word) (c : Cpu)

theorem exec_syscallEntry :
    exec (syscallEntry ret) c = exec [.mov .rsp .rdi, .call ret] (savedRegs c) := by
  have hlist : syscallEntry ret =
      (switchStack ++ pushedRegs.map .push) ++ [.mov .rsp .rdi, .call ret] := rfl
  rw [hlist, exec_append, exec_append, savedRegs]

theorem mem_syscallEntry : (exec (syscallEntry ret) c).mem =
    store (savedRegs c).mem ((savedRegs c).regs .rsp - 8) ret :=
      congrArg Cpu.mem (exec_syscallEntry ret c)

theorem rdi_syscallEntry : (exec (syscallEntry ret) c).regs .rdi = (savedRegs c).regs .rsp :=
  congrArg (fun c => c.regs .rdi) (exec_syscallEntry ret c)

end

theorem savedRegs_eq (c : Cpu) : savedRegs c =
    { (exec switchStack c).set .rsp ((exec switchStack c).regs .rsp - 120) with
      mem := pushAll (exec switchStack c).mem ((exec switchStack c).regs .rsp)
        (pushedRegs.map (exec switchStack c).regs) } :=
  exec_pushes pushedRegs (by decide) (exec switchStack c)

/-- `syscall_entry` saves the registers in the frame that it passes on. -/
theorem words_syscallEntry (ret : Word) (c : Cpu) :
    words (exec (syscallEntry ret) c).mem ((exec (syscallEntry ret) c).regs .rdi) 16 =
      syscallFrameRegs.map c.regs := by
  have hret : Apart ((savedRegs c).regs .rsp) (8 * 16) ((savedRegs c).regs .rsp - 8) 8 :=
    apart_below (k := 8) (by decide)
  have hwords := words_pushAll (exec switchStack c).mem ((exec switchStack c).regs .rsp)
    (pushedRegs.map (exec switchStack c).regs) 1 (show 128 ≤ 2 ^ 64 by decide)
  rw [words_switchStack] at hwords
  rw [mem_syscallEntry, rdi_syscallEntry,
    words_congr (by decide) (fun x hx => store_of_not_within (hret x hx)), savedRegs_eq]
  exact hwords

/-- The frame is on top of the stack that the per-CPU data names. -/
theorem frame_syscallEntry (ret : Word) (c : Cpu) : (exec (syscallEntry ret) c).regs .rdi =
    load c.mem (c.kernelGsBase + perCpuKernelRspOffset) - sizeofSyscallFrame := by
  have hoffsets : c.kernelGsBase + perCpuKernelRspOffset + 8 =
    c.kernelGsBase + perCpuUserRspOffset := BitVec.add_assoc ..
  have hapart : Apart (c.kernelGsBase + perCpuKernelRspOffset) 8
    (c.kernelGsBase + perCpuUserRspOffset) 8 := hoffsets ▸ apart_above (n := 8) (by decide)
  have hrsp : (exec switchStack c).regs .rsp =
    load (store c.mem (c.kernelGsBase + perCpuUserRspOffset)
      (c.regs .rsp)) (c.kernelGsBase + perCpuKernelRspOffset) - 8 := by
    simp [switchStack, exec, Instr.step, Cpu.swapGs]
  rw [rdi_syscallEntry, savedRegs_eq, Cpu.set_self, hrsp, load_store_of_apart hapart]
  exact sub_mul _ 15

/-- `syscall_exit` loads all registers but RAX from the frame. -/
theorem regs_syscallExit (h : words c.mem (c.regs .rsp) 16 = syscallFrameRegs.map f) (r : Reg) :
    (exec syscallExit c).regs r = if r = .rax then c.regs .rax else f r := by
  let rs := syscallFrameRegs.take 14
  have hwords : words c.mem (c.regs .rsp) 14 ++ words c.mem (c.regs .rsp + 112) 2 =
      rs.map f ++ [f .rax, f .rsp] := (words_append ..).symm.trans h
  obtain ⟨hregs, hrest⟩ := List.append_inj hwords (length_words ..)
  have hpops : exec syscallExit c = exec [.addImm 8 .rsp, .pop .rsp, .swapgs, .sysretq]
      { c with regs := poppedRegs rs f (c.regs .rsp + 112) c.regs } := by
    have hlist : syscallExit = rs.map .pop ++ [.addImm 8 .rsp, .pop .rsp, .swapgs, .sysretq] := rfl
    rw [hlist, exec_append, exec_pops (by decide) hregs]
    rfl
  have hrsp : load c.mem (c.regs .rsp + 112 + 8) = f .rsp :=
    (List.cons.inj (List.cons.inj hrest).2).1
  rw [hpops]
  cases r with
  | rsp => exact hrsp
  | _ => rfl

theorem exec_syscallExit (c : Cpu) :
    exec syscallExit c = Instr.sysretq.step (exec syscallExit.dropLast c) :=
  exec_append syscallExit.dropLast [.sysretq] c

theorem rip_syscallExit (c : Cpu) : (exec syscallExit c).rip = (exec syscallExit c).regs .rcx := by
  simp only [exec_syscallExit, Instr.step]

theorem rflags_syscallExit (c : Cpu) :
    (exec syscallExit c).rflags = ((exec syscallExit c).regs .r11 &&& 0x3C7FD7) ||| 2 := by
  simp only [exec_syscallExit, Instr.step]

/-! ## The fork -/

variable {L : Layout} {self child : ProcRef} {pid : Int} {forkedEntry : Word} {s s' : ForkState σ}
  {u : Cpu} {sfmask handler : Word}

/-- The fields that the child inherits. -/
structure Inherits (p child : UserProcess) : Prop where
  fsBase : child.fsBase = p.fsBase
  heapBreak : child.heapBreak = p.heapBreak
  uheap : child.uheap = p.uheap
  cwdInode : child.cwdInode = p.cwdInode
  fdTable : child.fdTable = p.fdTable

/-- The heap cursor is copied. -/
theorem cloneUserHeap_eq {heap heap' : Heap} {pml4 : Frame} {v v' : Vmm σ}
    (h : v.cloneUserHeap heap pml4 = some (heap', v')) : heap' = heap := by
  simp only [Vmm.cloneUserHeap, Vmm.heapAt, bind_eq_bind, bind_eq_some_iff] at h
  obtain ⟨_, -, _, -, _, -, _, -, h⟩ := h
  cases h
  rfl

/-- What the kernel stack of the child holds after the fork. -/
theorem fork_eq (h : fork L self child pid forkedEntry s = some s') :
    (∃ forked, s'.procs = Function.update s.procs child forked ∧ Inherits (s.procs self) forked) ∧
    s'.mem = buildSyntheticContextFrame (Start.fork.contextFrame L child) (L.slot child) forkedEntry
      (copySyscallFrame (s.procs self).syscallFrame (L.kernelRsp child - sizeofSyscallFrame)
        s.mem) := by
  obtain ⟨pml4, hpml4, h⟩ := of_bind h
  obtain ⟨⟨clonedPml4, vmm⟩, hclone, h⟩ := of_bind h
  obtain ⟨⟨uheap, vmm'⟩, hheap, h⟩ := of_bind h
  cases h
  exact ⟨⟨_, rfl, rfl, rfl, cloneUserHeap_eq hheap, rfl, rfl⟩, rfl⟩

/-- The copy of the frame and the synthetic frame below it are on the stack of the child. -/
theorem depth_syscallFrame (hchild : child ∈ L.procs) :
    L.depth child (L.kernelRsp child - sizeofSyscallFrame) + 128 ≤ L.size child := by
  obtain ⟨hge, hlt⟩ := L.frames_fit child hchild
  have htop : L.depth child (L.kernelRsp child) = L.size child := toNat_add_sub hlt
  have hsub := Layout.depth_sub (L := L) (p := child) (a := L.kernelRsp child) (n := 128) (by omega)
  exact Nat.le_of_eq ((congrArg (· + 128) hsub).trans (by omega))

/-- A fork writes to the new stack and to the new record only. -/
theorem fork_frame {x : Word} (hchild : child ∈ L.procs)
    (h : fork L self child pid forkedEntry s = some s')
    (hx : ¬ Within (L.base child) (L.size child) x) (hslot : ¬ Within (L.slot child) 8 x) :
    s'.mem x = s.mem x := by
  rw [(fork_eq h).2, buildSyntheticContextFrame_frame _ hslot]
  · apply copyWords_of_not_within (by decide)
    exact fun hin => hx (hin.trans (depth_syscallFrame hchild))
  · exact fun hin => hx (hin.trans (Start.fork.depth_contextFrame hchild))

/-- The child has a copy of the frame of its parent. -/
theorem words_fork (hself : self ∈ L.procs) (hchild : child ∈ L.procs) (hne : child ≠ self)
    (hin : L.depth self (s.procs self).syscallFrame + 128 ≤ L.size self)
    (h : fork L self child pid forkedEntry s = some s') :
    words s'.mem (L.kernelRsp child - sizeofSyscallFrame) 16 =
      words s.mem (s.procs self).syscallFrame 16 := by
  have hinside := depth_syscallFrame hchild
  have hbelow : Apart (L.kernelRsp child - sizeofSyscallFrame) 128
    (Start.fork.contextFrame L child) 56 := apart_below (k := 56) (by decide)
  have hstacks : Apart (s.procs self).syscallFrame 128 (L.kernelRsp child - sizeofSyscallFrame)
    128 := ((L.stacks_apart self hself child hchild hne.symm).mono hin).symm.mono hinside |>.symm
  rw [(fork_eq h).2, words_congr (by decide)]
  · exact words_copyWords (by decide) hstacks
  · intro x hx
    apply buildSyntheticContextFrame_frame (hbelow x hx)
    exact L.stack_slot child hchild child hchild x (hx.trans hinside)

/-! ## Until the child runs -/

/-- The process that a step switches to. -/
def SwitchOp.target : SwitchOp → Option ProcRef
  | .code _ | .build .. => none
  | .switch q _ | .leave q _ => some q

namespace Switching

variable {t t' : Switching} {k : KernelContext} {m : Mem} {op : SwitchOp}

/-- The kernel contexts after the fork. -/
def forked (L : Layout) (child : ProcRef) (forkedEntry : Word) (m : Mem) (t : Switching) :
    Switching where
  cpu := { t.cpu with mem := m }
  running := t.running
  expected := Function.update t.expected child
    (some (syntheticContext (Start.fork.contextFrame L child) forkedEntry))

/-- Nobody was to find a frame on the stack of the child. -/
theorem Inv.forked (h : Inv L t) (hchild : child ∈ L.procs) (hnew : t.expected child = none)
    (hrun : child ≠ t.running) (hmem : t.cpu.mem = s.mem)
    (hfork : fork L self child pid forkedEntry s = some s') :
    Inv L (t.forked L child forkedEntry s'.mem) := by
  let m := copySyscallFrame (s.procs self).syscallFrame (L.kernelRsp child - sizeofSyscallFrame)
    s.mem
  have hcopied : Inv L { t with cpu := { t.cpu with mem := m } } := by
    refine ⟨h.running, h.room, fun p hp k hk => ?_⟩
    have hne : p ≠ child := by
      rintro rfl
      exact some_ne_none k (hk.symm.trans hnew)
    have hkept := h.kept p hp k hk
    have hkeep : ∀ x, ¬ Within (L.base child) (L.size child) x → m x = t.cpu.mem x := by
      intro x hx
      rw [hmem]
      exact copyWords_of_not_within (by decide) (fun hin =>
        hx (hin.trans (depth_syscallFrame hchild)))
    apply hkept.congr
    · exact fun x hx => hkeep x (fun hin => L.stack_slot child hchild p hp x hin hx)
    · exact fun x hx => hkeep x (L.stacks_apart p hp child hchild hne x (hkept.within hx))
    · exact hkept.above
  have hlegal : Legal L (.build child .fork forkedEntry)
    { t with cpu := { t.cpu with mem := m } } := ⟨hchild, hnew, fun heq => absurd heq hrun⟩
  rw [(fork_eq hfork).2]
  exact hcopied.build hlegal rfl

/-- What the other processes do until the child runs. -/
def waiting (L : Layout) (t : Switching) : System Switching SwitchOp where
  init := (· = t)
  next := next L

def Elsewhere (L : Layout) (child : ProcRef) (op : SwitchOp) (t : Switching) : Prop :=
  Legal L op t ∧ op.target ≠ some child

/-- The child has not run yet, and its stack is as `fork` left it. -/
structure Waiting (L : Layout) (child : ProcRef) (k : KernelContext) (m : Mem) (t : Switching) :
    Prop where
  inv : Inv L t
  other : child ≠ t.running
  expected : t.expected child = some k
  stack : ∀ x, Within (L.base child) (L.size child) x → t.cpu.mem x = m x

section

variable (h : Waiting L child k m t) (hchild : child ∈ L.procs)

include h hchild

/-- Whatever the others do, the child's stack stays as `fork` has left it. -/
theorem Waiting.next
    (hlegal : Elsewhere L child op t) (hrun : next L op t = some t') : Waiting L child k m t' := by
  obtain ⟨hlegal, htarget⟩ := hlegal
  cases op with
  | code cpu =>
    cases hrun
    refine ⟨h.inv.code hlegal, h.other, h.expected, fun x hx => ?_⟩
    exact (hlegal.2.1 child hchild h.other x hx).trans (h.stack x hx)
  | build p start entry =>
    obtain ⟨hp, hnone, -⟩ := id hlegal
    have hne : child ≠ p := by
      rintro rfl
      exact some_ne_none k (h.expected.symm.trans hnone)
    have hinv := h.inv.build hlegal hrun
    cases hrun
    refine ⟨hinv, h.other, (update_of_ne hne ..).trans h.expected, fun x hx => ?_⟩
    refine (buildSyntheticContextFrame_frame ?_ (L.stack_slot child hchild p hp x hx)).trans
      (h.stack x hx)
    exact fun hin =>
      L.stacks_apart child hchild p hp hne x hx (hin.trans (start.depth_contextFrame hp))
  | switch q ret =>
    have hne : child ≠ q := fun heq => htarget (congrArg some heq.symm)
    have hinv := h.inv.switch hlegal hrun
    cases hrun
    refine ⟨hinv, hne, (update_of_ne hne ..).trans ?_, fun x hx => ?_⟩
    · exact (update_of_ne h.other ..).trans h.expected
    · exact (switched_frame hlegal.2.2.2 (h.inv.stack_not_written hchild h.other hx)).trans
        (h.stack x hx)
  | leave q ret =>
    have hne : child ≠ q := fun heq => htarget (congrArg some heq.symm)
    have hinv := h.inv.leave hlegal hrun
    cases hrun
    refine ⟨hinv, hne, (update_of_ne hne ..).trans h.expected, fun x hx => ?_⟩
    exact (left_frame hlegal.2.2.2 (h.inv.stack_not_written hchild h.other hx)).trans (h.stack x hx)

/-- The child finds its stack as it was left, whoever ran before. -/
theorem Waiting.run
    (hwait : (waiting L t).ReachableUnder (Elsewhere L child) t') : Waiting L child k m t' := by
  apply hwait.invariant
  · rintro _ rfl
    exact h
  · intro _ _ _ hw hlegal hrun
    exact hw.next hchild hlegal hrun

/-- The first switch to the child takes the context of `fork`. -/
theorem Waiting.first
    (hlegal : Legal L op t) (htarget : op.target = some child)
    (hrun : Switching.next L op t = some t') :
    t'.cpu.kernelContext = k ∧ ∀ x, Within (L.base child) (L.size child) x →
    t'.cpu.mem x = m x := by
  cases op with
  | code _ => cases htarget
  | build _ _ _ => cases htarget
  | switch q ret =>
    cases htarget
    cases hrun
    refine ⟨h.inv.switched_context hlegal h.expected, fun x hx => ?_⟩
    exact (switched_frame hlegal.2.2.2 (h.inv.stack_not_written hchild h.other hx)).trans
      (h.stack x hx)
  | leave q ret =>
    cases htarget
    cases hrun
    refine ⟨h.inv.left_context hlegal h.expected, fun x hx => ?_⟩
    exact (left_frame hlegal.2.2.2 (h.inv.stack_not_written hchild h.other hx)).trans (h.stack x hx)

end

end Switching

/-! ## The way out -/

/-- The process `parent` has entered the kernel by a `syscall` instruction, at which the CPU was
`u`, and is about to fork. -/
structure ForkCall (L : Layout) (parent child : ProcRef) (entered u : Cpu)
    (s : ForkState σ) (t : Switching) :
    Prop where
  /-- what `activate_process` has put into the per-CPU data -/
  kernelRsp : load u.mem (u.kernelGsBase + perCpuKernelRspOffset) = L.kernelRsp parent
  /-- the dispatcher has stored the frame, and nobody has written to it -/
  syscallFrame : (s.procs parent).syscallFrame = entered.regs .rdi
  frame : ∀ x, Within (entered.regs .rdi) 128 x → s.mem x = entered.mem x
  contexts : Switching.Inv L t
  running : t.running = parent
  mem : t.cpu.mem = s.mem
  mem_procs : child ∈ L.procs
  other : child ≠ parent
  new : t.expected child = none

/-- User code goes on after the `syscall` instruction, with the result 0. -/
structure ReturnsZero (u c : Cpu) : Prop where
  regs : ∀ r, r ≠ .rax → r ≠ .rcx → r ≠ .r11 → c.regs r = u.regs r
  rax : c.regs .rax = 0
  rcx : c.regs .rcx = u.rip
  r11 : c.regs .r11 = u.rflags
  rip : c.rip = u.rip
  rflags : c.rflags = (u.rflags &&& 0x3C7FD7) ||| 2

/-- `forked_entry_context_switch` and `syscall_exit`, on a copy of the frame. -/
theorem returnsZero
    (h : words c.mem (c.regs .rsp) 16 = syscallFrameRegs.map (syscall handler sfmask u).regs) :
    ReturnsZero u (exec (forkedEntryContextSwitch ++ syscallExit) c) := by
  have hjump : exec forkedEntryContextSwitch c = c.set .rax 0 := rfl
  have hregs := regs_syscallExit (c := c.set .rax 0) h
  have hrip := rip_syscallExit (c.set .rax 0)
  have hrflags := rflags_syscallExit (c.set .rax 0)
  rw [exec_append, hjump]
  -- nothing but these three facts about the last state is needed
  generalize exec syscallExit (c.set .rax 0) = final at hregs hrip hrflags ⊢
  have hrcx : final.regs .rcx = u.rip := (hregs .rcx).trans (if_neg (by decide))
  have hr11 : final.regs .r11 = u.rflags := (hregs .r11).trans (if_neg (by decide))
  refine ⟨fun r hrax hne hne' => ?_, ?_, hrcx, hr11, hrip.trans hrcx, ?_⟩
  · rw [hregs r, if_neg hrax]
    exact (update_of_ne hne' ..).trans (update_of_ne hne ..)
  · rw [hregs .rax, if_pos rfl, Cpu.set_self]
  · rw [hrflags, hr11]

omit [FrameAllocator σ] in
/-- The dispatcher finds the registers of the caller in the frame. -/
theorem ForkCall.words_frame {ret : Word} {t : Switching}
    (h : ForkCall L self child (exec (syscallEntry ret) (syscall handler sfmask u)) u s t) :
    words s.mem (s.procs self).syscallFrame 16 =
      syscallFrameRegs.map (syscall handler sfmask u).regs := by
  rw [h.syscallFrame, words_congr (by decide) h.frame]
  exact words_syscallEntry ret (syscall handler sfmask u)

/-- **The child of a fork resumes as its parent, with the result 0**, whatever the other processes
do before it is switched to; the parent keeps its record and its stack. -/
theorem forked_child_returns (L : Layout) {self child : ProcRef} {pid : Int}
    {s s' : ForkState σ} {u : Cpu}
    {ret handler sfmask forkedEntry : Word} {t t1 t2 : Switching} {op : SwitchOp}
    (hcall : ForkCall L self child (exec (syscallEntry ret) (syscall handler sfmask u)) u s t)
    (hfork : fork L self child pid forkedEntry s = some s')
    (hwait : (Switching.waiting L (t.forked L child forkedEntry s'.mem)).ReachableUnder
      (Switching.Elsewhere L child) t1)
    (hlegal : Switching.Legal L op t1) (htarget : op.target = some child)
    (hrun : Switching.next L op t1 = some t2) :
    (t2.cpu.rip = forkedEntry ∧
      ReturnsZero u (exec (forkedEntryContextSwitch ++ syscallExit) t2.cpu)) ∧
    Inherits (s.procs self) (s'.procs child) ∧ s'.procs self = s.procs self ∧
    ∀ x, Within (L.base self) (L.size self) x → s'.mem x = s.mem x := by
  have hchild := hcall.mem_procs
  have hself : self ∈ L.procs := hcall.running ▸ hcall.contexts.running
  have hother : child ≠ t.running := hcall.running ▸ hcall.other
  have hcopy : words s'.mem (L.kernelRsp child - sizeofSyscallFrame) 16 =
      syscallFrameRegs.map (syscall handler sfmask u).regs := by
    refine (words_fork hself hchild hcall.other ?_ hfork).trans hcall.words_frame
    rw [hcall.syscallFrame, frame_syscallEntry]
    exact hcall.kernelRsp ▸ depth_syscallFrame hself
  have hforked : Switching.Waiting L child _ s'.mem (t.forked L child forkedEntry s'.mem) :=
    ⟨hcall.contexts.forked hchild hcall.new hother hcall.mem hfork, hother,
      update_self .., fun _ _ => rfl⟩
  obtain ⟨hcontext, hstack⟩ := (hforked.run hchild hwait).first hchild hlegal htarget hrun
  have hrsp : t2.cpu.regs .rsp = L.kernelRsp child - sizeofSyscallFrame :=
    (congrArg KernelContext.rsp hcontext).trans (BitVec.sub_add_cancel _ _)
  have hwords : words t2.cpu.mem (t2.cpu.regs .rsp) 16 =
      syscallFrameRegs.map (syscall handler sfmask u).regs := by
    rw [hrsp, words_congr (by decide) (fun x hx => hstack x (hx.trans (depth_syscallFrame hchild)))]
    exact hcopy
  refine ⟨⟨congrArg KernelContext.rip hcontext, returnsZero hwords⟩, ?_, ?_, fun x hx => ?_⟩
  · obtain ⟨forked, hprocs, hinherits⟩ := (fork_eq hfork).1
    rw [hprocs, update_self]
    exact hinherits
  · obtain ⟨forked, hprocs, -⟩ := (fork_eq hfork).1
    rw [hprocs, update_of_ne hcall.other.symm]
  · apply fork_frame hchild hfork
    · exact L.stacks_apart self hself child hchild hcall.other.symm x hx
    · exact L.stack_slot self hself child hchild x hx

/-- User code of process 0 at a `syscall` instruction; the per-CPU data is at `0x100`. -/
def callingFork : Cpu where
  regs := fun r => if r = .rsp then 0x7FFF0000 else if r = .rax then 57 else 5
  rip := 0x401000
  rflags := flagIf
  cs := userCs
  ss := userSs
  gsBase := 0
  kernelGsBase := 0x100
  fsBase := 0
  xmm := fun _ => 0
  mxcsr := 0
  mem := store (fun _ => 0) 0x108 (Switching.twoStacks.kernelRsp 0)

/-- The CPU in the dispatcher. -/
def inDispatcher : Cpu := exec (syscallEntry 0x2000) (syscall 0x1000 0 callingFork)

def beforeFork : ForkState FramePool where
  procs _ := {
    pid := 1, parent := none, state := .running, waitReason := .none, waitPid := 0, exitStatus := 0
    contextSwitches := 0, wakeTimeNs := 0, quantumStartNs := 0, waitMutex := none, pml4 := some 0
    heapBreak := 0, uheap := ⟨0, 1, 0, 0⟩, kernelRsp := 0, userRsp := 0, entry :=
      0, fsBase := 3, tidptr := 0
    cwdInode := none, fdTable := [], syscallFrame := inDispatcher.regs .rdi, contextFrame := 0 }
  vmm := Vmm.forkVmm
  mem := inDispatcher.mem

/-- The child of process 0 is switched to at once. -/
theorem callingFork_child_returns :
    ∃ s' c, fork Switching.twoStacks 0 1 2 0x3000 beforeFork = some s' ∧
    c.rip = 0x3000 ∧ (s'.procs 1).fsBase = 3 ∧
    ReturnsZero callingFork (exec (forkedEntryContextSwitch ++ syscallExit) c) := by
  have hfork : (fork Switching.twoStacks 0 1 2 0x3000 beforeFork).isSome = true := by decide +kernel
  obtain ⟨s', hfork⟩ := isSome_iff_exists.mp hfork
  let t : Switching := ⟨{ Switching.alone.cpu with mem := inDispatcher.mem }, 0, fun _ => none⟩
  have hcall : ForkCall Switching.twoStacks 0 1 inDispatcher callingFork beforeFork t :=
    ⟨load_store, rfl, fun _ _ => rfl, ⟨by decide, by decide, fun _ _ _ h => by cases h⟩, rfl, rfl,
      by decide, by decide, rfl⟩
  have hroom : 56 ≤ t.room Switching.twoStacks := by decide
  have hlegal : Switching.Legal Switching.twoStacks (.switch 1 0x1234)
      (t.forked Switching.twoStacks 1 0x3000 s'.mem) :=
    ⟨by decide, Nat.one_ne_zero, some_ne_none _, hroom⟩
  have hreturns := forked_child_returns Switching.twoStacks hcall hfork (.start rfl) hlegal rfl rfl
  exact ⟨s', _, hfork, hreturns.1.1, hreturns.2.1.fsBase, hreturns.1.2⟩

end Asm

end Hltos
