import Hltos.Lib.Transition
import Hltos.Process.Process
import Hltos.Trap.Asm

/-!
# Kernel contexts

`context_switch` leaves the registers that a call has to preserve on the stack of the process that
calls it, and takes those of another process from the stack of that one. Here the processes run
whatever kernel code they like in between, each on its own stack; what a process finds when it is
switched to is what it left, or what `build_synthetic_context_frame` made up for it.
-/

namespace Hltos.Asm

open Lib.ByteMemory Lib.Transition BitVec Option Function
open Trap (Reg)

/-! ## Contexts and frames -/

/-- What a function can rely on when its call of `context_switch` returns. -/
structure KernelContext where
  rbx : Word
  rbp : Word
  r12 : Word
  r13 : Word
  r14 : Word
  r15 : Word
  rsp : Word
  rip : Word
deriving DecidableEq

/-- The words of a `ContextFrame`. -/
def KernelContext.frame (k : KernelContext) : List Word :=
  [k.r15, k.r14, k.r13, k.r12, k.rbx, k.rbp, k.rip]

def Cpu.kernelContext (c : Cpu) : KernelContext :=
  ⟨c.regs .rbx, c.regs .rbp, c.regs .r12, c.regs .r13, c.regs .r14, c.regs .r15, c.regs .rsp, c.rip⟩

/-- The context at a call that returns to `ret`. -/
def Cpu.callerContext (ret : Word) (c : Cpu) : KernelContext := { c.kernelContext with rip := ret }

/-- The frame at `a` is that of the context. -/
structure Saved (m : Mem) (a : Word) (k : KernelContext) : Prop where
  frame : words m a 7 = k.frame
  rsp : a + 56 = k.rsp

def sizeofContextFrame : Word := 56

def sizeofSyscallFrame : Word := 128

/-- `build_synthetic_context_frame`: the frame is at `contextFrame`, and `slot` is the address of
`kernel_rsp_saved`. -/
def buildSyntheticContextFrame (contextFrame slot entry : Word) (m : Mem) : Mem :=
  let m := storeFields m contextFrame
    [(0, 0x15151515), (1, 0x14141414), (2, 0x13131313), (3, 0x12121212), -- r15, r14, r13, r12
      (5, 0x77777777), (4, 0x12345678), -- rbp, rbx
      (6, entry)] -- rip
  store m slot contextFrame

/-- The context that the synthetic frame stands for. -/
def syntheticContext (contextFrame entry : Word) : KernelContext where
  r15 := 0x15151515
  r14 := 0x14141414
  r13 := 0x13131313
  r12 := 0x12121212
  rbp := 0x77777777
  rbx := 0x12345678
  rip := entry
  rsp := contextFrame + 56

variable {m : Mem} {slot entry : Word}

theorem Saved.congr {m' : Mem} {a : Word} {k : KernelContext} (h : Saved m a k)
    (hm : ∀ x, Within a 56 x → m' x = m x) : Saved m' a k :=
  ⟨(words_congr (by decide) hm).trans h.frame, h.rsp⟩

/-- The pops of a context switch take the context from the stack. -/
theorem kernelContext_restore {c : Cpu} {k : KernelContext} (h : Saved c.mem (c.regs .rsp) k) :
    (exec restoreContext c).kernelContext = k := by
  obtain ⟨rbx, rbp, r12, r13, r14, r15, rsp, rip⟩ := k
  obtain ⟨hframe, rfl⟩ := h
  obtain ⟨rfl, rfl, rfl, rfl, rfl, rfl, rfl⟩ := hframe
  have hsp : c.regs .rsp + 8 + 8 + 8 + 8 + 8 + 8 + 8 = c.regs .rsp + 56 := by
    simp only [BitVec.add_assoc]
    rfl
  rw [← hsp]
  rfl

/-- What `call context_switch` writes: the frame, and its address where RDI points. -/
theorem mem_contextSwitch (ret : Word) (c : Cpu) : (exec (.call ret :: contextSwitch) c).mem =
    store (pushAll c.mem (c.regs .rsp) [ret, c.regs .rbp, c.regs .rbx, c.regs .r12, c.regs .r13,
      c.regs .r14, c.regs .r15]) (c.regs .rdi) (c.regs .rsp - 56) := by
  have hsp : (· - 8)^[7] (c.regs .rsp) = c.regs .rsp - 56 := iterate_sub _ 7
  rw [← hsp]
  rfl

section ContextSwitch

variable {c : Cpu} {ret x : Word} {k : KernelContext}

/-- The rest of memory is as before. -/
theorem contextSwitch_frame
    (hstack : ¬ Within (c.regs .rsp - 56) 56 x) (hslot : ¬ Within (c.regs .rdi) 8 x) :
    (exec (.call ret :: contextSwitch) c).mem x = c.mem x := by
  rw [mem_contextSwitch, store_of_not_within hslot]
  exact pushAll_of_not_within _ (show 56 ≤ 2 ^ 64 by decide) hstack

/-- The caller leaves its context on its stack. -/
theorem contextSwitch_saved (h : Apart (c.regs .rsp - 56) 56 (c.regs .rdi) 8) :
    Saved (exec (.call ret :: contextSwitch) c).mem (c.regs .rsp - 56) (c.callerContext ret) := by
  refine ⟨?_, BitVec.sub_add_cancel _ _⟩
  rw [mem_contextSwitch, words_congr (by decide) (fun x hx => store_of_not_within (h x hx))]
  exact words_pushAll c.mem (c.regs .rsp) _ 0 (show 56 ≤ 2 ^ 64 by decide)

theorem contextSwitch_slot :
    load (exec (.call ret :: contextSwitch) c).mem (c.regs .rdi) = c.regs .rsp - 56 := by
  rw [mem_contextSwitch, load_store]

/-- The context that RSI points to is taken from memory. -/
theorem contextSwitch_resumes
    (h : Saved (exec (.call ret :: contextSwitch) c).mem (c.regs .rsi) k) :
    (exec (.call ret :: contextSwitch) c).kernelContext = k := by
  have hhalves : exec (.call ret :: contextSwitch) c =
      exec restoreContext (exec (.call ret :: saveContext) c) :=
    exec_append (.call ret :: saveContext) restoreContext c
  rw [hhalves]
  exact kernelContext_restore h

theorem permanentContextSwitch_resumes
    (h : Saved (exec (.call ret :: permanentContextSwitch) c).mem (c.regs .rdi) k) :
    (exec (.call ret :: permanentContextSwitch) c).kernelContext = k := by
  have hhalves : exec (.call ret :: permanentContextSwitch) c =
      exec restoreContext (exec [.call ret, .cli, .mov .rdi .rsp] c) :=
    exec_append [.call ret, .cli, .mov .rdi .rsp] restoreContext c
  rw [hhalves]
  exact kernelContext_restore h

end ContextSwitch

/-- The fields of the synthetic frame are where the pops look for them. -/
theorem saved_buildSyntheticContextFrame {contextFrame : Word} (h : Apart contextFrame 56 slot 8) :
    Saved (buildSyntheticContextFrame contextFrame slot entry m) contextFrame
      (syntheticContext contextFrame entry) := by
  refine ⟨?_, rfl⟩
  rw [buildSyntheticContextFrame,
    words_congr (by decide) (fun x hx => store_of_not_within (h x hx)),
    words_storeFields (by decide) (by simp)]
  rfl

theorem buildSyntheticContextFrame_frame {contextFrame x : Word}
    (hframe : ¬ Within contextFrame 56 x) (hslot : ¬ Within slot 8 x) :
    buildSyntheticContextFrame contextFrame slot entry m x = m x := by
  rw [buildSyntheticContextFrame, store_of_not_within hslot]
  exact storeFields_of_not_within (n := 7) (by decide) (by simp) hframe

/-! ## Processes and their stacks -/

/-- Where the kernel stacks of a set of processes are, and their fields `kernel_rsp_saved`. The
stack of the idle process is the one that the kernel was booted on; the others have
`KERNEL_STACK_SIZE` bytes. -/
structure Layout where
  procs : Finset ProcRef
  base : ProcRef → Word
  size : ProcRef → Nat
  slot : ProcRef → Word
  frames_fit : ∀ p ∈ procs, 184 ≤ size p ∧ size p < 2 ^ 64
  stacks_apart : ∀ p ∈ procs, ∀ q ∈ procs, p ≠ q → Apart (base p) (size p) (base q) (size q)
  slots_apart : ∀ p ∈ procs, ∀ q ∈ procs, p ≠ q → Apart (slot p) 8 (slot q) 8
  stack_slot : ∀ p ∈ procs, ∀ q ∈ procs, Apart (base p) (size p) (slot q) 8

namespace Layout

variable (L : Layout)

def kernelRsp (p : ProcRef) : Word := L.base p + BitVec.ofNat 64 (L.size p)

/-- How far an address is above the end of the stack. -/
def depth (p : ProcRef) (a : Word) : Nat := (a - L.base p).toNat

variable {L} {p q : ProcRef} {a b x : Word} {n : Nat}

theorem depth_sub (h : n ≤ L.depth p a) : L.depth p (a - BitVec.ofNat 64 n) = L.depth p a - n := by
  unfold depth at *
  have ha := a.isLt
  have hb := (L.base p).isLt
  rw [toNat_sub, toNat_sub, toNat_ofNat]
  rw [toNat_sub] at h ⊢
  omega

theorem depth_add (h : L.depth p a + n < 2 ^ 64) :
    L.depth p (a + BitVec.ofNat 64 n) = L.depth p a + n := by
  unfold depth at *
  have ha := a.isLt
  have hb := (L.base p).isLt
  rw [toNat_sub, toNat_add, toNat_ofNat]
  rw [toNat_sub] at h ⊢
  omega

/-- A byte of a range that does not reach around the end of memory is above its start. -/
theorem depth_of_within (h : Within b n x) (hn : L.depth p b + n ≤ 2 ^ 64) :
    L.depth p b ≤ L.depth p x ∧ L.depth p x < L.depth p b + n := by
  unfold depth Within at *
  have hx := x.isLt
  have hlt := b.isLt
  have hbase := (L.base p).isLt
  simp only [toNat_sub] at *
  omega

/-- The words right below an address on the stack. -/
theorem within_of_below (h : n ≤ L.depth p a) (hx : Within (a - BitVec.ofNat 64 n) n x) :
    L.depth p x < L.depth p a := by
  have hsub := depth_sub h
  have hlt : L.depth p a < 2 ^ 64 := (a - L.base p).isLt
  have hin := (depth_of_within (L := L) (p := p) hx (by omega)).2
  omega

end Layout

/-- The three places where a synthetic frame is built. -/
inductive Start where
  | kthread
  | exec
  | fork

def Start.contextFrame (L : Layout) (p : ProcRef) : Start → Word
  | .kthread | .exec => L.kernelRsp p - sizeofContextFrame
  | .fork => L.kernelRsp p - sizeofSyscallFrame - sizeofContextFrame

theorem Start.depth_contextFrame {L : Layout} {p : ProcRef} (hp : p ∈ L.procs) (start : Start) :
    L.depth p (start.contextFrame L p) + 56 ≤ L.size p := by
  obtain ⟨hge, hlt⟩ := L.frames_fit p hp
  have htop : L.depth p (L.kernelRsp p) = L.size p := toNat_add_sub hlt
  have hframe : L.depth p (L.kernelRsp p - sizeofContextFrame) = L.size p - 56 := by
    rw [← htop]
    exact Layout.depth_sub (n := 56) (by omega)
  have hboth : L.depth p (L.kernelRsp p - sizeofSyscallFrame - sizeofContextFrame) =
      L.size p - 184 := by
    have hfirst : L.depth p (L.kernelRsp p - sizeofSyscallFrame) = L.size p - 128 := by
      rw [← htop]
      exact Layout.depth_sub (n := 128) (by omega)
    have hsecond :=
      Layout.depth_sub (L := L) (p := p) (a := L.kernelRsp p - sizeofSyscallFrame) (n := 56)
      (by omega)
    exact hsecond.trans (by omega)
  cases start with
  | kthread => rw [contextFrame, hframe]; omega
  | exec => rw [contextFrame, hframe]; omega
  | fork => rw [contextFrame, hboth]; omega

/-- One CPU. `expected` is what a process that can be switched to was promised: the context of its
last call of `context_switch`, or that of its synthetic frame. -/
structure Switching where
  cpu : Cpu
  running : ProcRef
  expected : ProcRef → Option KernelContext

inductive SwitchOp where
  /-- the running process does anything else, up to the given state of the CPU -/
  | code (cpu : Cpu)
  /-- the running process builds the frame of a process, maybe its own -/
  | build (p : ProcRef) (start : Start) (entry : Word)
  /-- `context_switch(&running->kernel_rsp_saved, next->kernel_rsp_saved)` -/
  | switch (next : ProcRef) (ret : Word)
  /-- `permanent_context_switch(next->kernel_rsp_saved)` -/
  | leave (next : ProcRef) (ret : Word)

namespace Switching

variable (L : Layout)

/-- `kernel_rsp_saved` -/
def saved (p : ProcRef) (s : Switching) : Word := load s.cpu.mem (L.slot p)

/-- The CPU when the call returns, in another process. -/
def switched (next : ProcRef) (ret : Word) (s : Switching) : Cpu :=
  exec (.call ret :: contextSwitch)
    ((s.cpu.set .rdi (L.slot s.running)).set .rsi (s.saved L next))

def left (next : ProcRef) (ret : Word) (s : Switching) : Cpu :=
  exec (.call ret :: permanentContextSwitch) (s.cpu.set .rdi (s.saved L next))

def next : SwitchOp → Switching → Option Switching
  | .code cpu, s => some { s with cpu := cpu }
  | .build p start entry, s =>
    let contextFrame := start.contextFrame L p
    some { s with
      cpu := { s.cpu with
        mem := buildSyntheticContextFrame contextFrame (L.slot p) entry s.cpu.mem }
      expected := update s.expected p (some (syntheticContext contextFrame entry)) }
  | .switch q ret, s => some {
      cpu := s.switched L q ret
      running := q
      expected := update (update s.expected s.running (some (s.cpu.callerContext ret)))
        q none }
  | .leave q ret, s => some {
      cpu := s.left L q ret
      running := q
      expected := update s.expected q none }

/-- How far the running process is from the end of its stack. -/
def room (s : Switching) : Nat := L.depth s.running (s.cpu.regs .rsp)

/-- Kernel code stays on the stack of its process and off the frame that `exec_elf64` has built
there; nobody but `context_switch` and `build_synthetic_context_frame` writes `kernel_rsp_saved`. A
process is switched to if it was suspended, or is new. -/
def Legal : SwitchOp → Switching → Prop
  | .code cpu, s =>
    L.depth s.running (cpu.regs .rsp) ≤ L.size s.running ∧
    (∀ q ∈ L.procs, q ≠ s.running → ∀ x, Within (L.base q) (L.size q) x → cpu.mem x = s.cpu.mem x) ∧
    (∀ q ∈ L.procs, ∀ x, Within (L.slot q) 8 x → cpu.mem x = s.cpu.mem x) ∧
    (s.expected s.running ≠ none →
      L.depth s.running (cpu.regs .rsp) ≤ L.depth s.running (s.saved L s.running) ∧
      ∀ x, Within (s.saved L s.running) 56 x → cpu.mem x = s.cpu.mem x)
  | .build p start _, s => p ∈ L.procs ∧ s.expected p = none ∧
    (p = s.running → s.room L ≤ L.depth p (start.contextFrame L p))
  | .switch q _, s => q ∈ L.procs ∧ q ≠ s.running ∧ s.expected q ≠ none ∧ 56 ≤ s.room L
  | .leave q _, s => q ∈ L.procs ∧ q ≠ s.running ∧ s.expected q ≠ none ∧ 8 ≤ s.room L

/-- Some process runs on its stack, and no other has been started. -/
def system : System Switching SwitchOp where
  init s := s.running ∈ L.procs ∧ s.room L ≤ L.size s.running ∧ ∀ p, s.expected p = none
  next := next L

/-! ## Every frame stays as it is -/

variable {L} {s s' : Switching} {p q : ProcRef} {k : KernelContext} {x ret : Word} {c : Cpu}

/-- The frame of a process that can be switched to is on its stack, above what the process itself
still uses of it. -/
structure Kept (L : Layout) (s : Switching) (p : ProcRef) (k : KernelContext) : Prop where
  frame : Saved s.cpu.mem (s.saved L p) k
  inside : L.depth p (s.saved L p) + 56 ≤ L.size p
  above : p = s.running → s.room L ≤ L.depth p (s.saved L p)

structure Inv (L : Layout) (s : Switching) : Prop where
  running : s.running ∈ L.procs
  room : s.room L ≤ L.size s.running
  kept : ∀ p ∈ L.procs, ∀ k, s.expected p = some k → Kept L s p k

/-- A frame is kept by whatever leaves it and the pointer to it alone. -/
theorem Kept.congr (h : Kept L s p k)
    (hslot : ∀ x, Within (L.slot p) 8 x → s'.cpu.mem x = s.cpu.mem x)
    (hframe : ∀ x, Within (s.saved L p) 56 x → s'.cpu.mem x = s.cpu.mem x)
    (habove : p = s'.running → s'.room L ≤ L.depth p (s.saved L p)) : Kept L s' p k := by
  have hsaved : s'.saved L p = s.saved L p := load_congr hslot
  refine ⟨?_, ?_, ?_⟩
  · rw [hsaved]
    exact h.frame.congr hframe
  · rw [hsaved]
    exact h.inside
  · rw [hsaved]
    exact habove

/-- The frame is a part of the stack. -/
theorem Kept.within (h : Kept L s p k)
    (hx : Within (s.saved L p) 56 x) : Within (L.base p) (L.size p) x := hx.trans h.inside

theorem Inv.code {cpu : Cpu} (h : Inv L s) (hlegal : Legal L (.code cpu) s) :
    Inv L { s with cpu := cpu } := by
  obtain ⟨hroom, hstacks, hslots, hown⟩ := hlegal
  refine ⟨h.running, hroom, fun p hp k hk => ?_⟩
  have hkept := h.kept p hp k hk
  by_cases hrun : p = s.running
  · subst hrun
    obtain ⟨hdepth, hframe⟩ := hown (by rw [hk]; exact some_ne_none k)
    exact hkept.congr (hslots _ hp) hframe (fun _ => hdepth)
  · exact hkept.congr (hslots p hp) (fun x hx => hstacks p hp hrun x (hkept.within hx))
      (fun heq => absurd heq hrun)

/-- The FS base is no part of it. -/
theorem Inv.setFsBase (h : Inv L s) (fsBase : Word) :
    Inv L { s with cpu := { s.cpu with fsBase := fsBase } } := by
  refine ⟨h.running, h.room, fun p hp k hk => ?_⟩
  have hkept := h.kept p hp k hk
  exact ⟨hkept.frame, hkept.inside, hkept.above⟩

/-- What a switch may write: the stack of the running process below its stack pointer, and its own
pointer. -/
def Written (L : Layout) (s : Switching) (x : Word) : Prop :=
  L.depth s.running x < s.room L ∨ Within (L.slot s.running) 8 x

section

variable (h : Inv L s) (hp : p ∈ L.procs) (hne : p ≠ s.running)

include h hp hne

theorem Inv.stack_not_written (hx : Within (L.base p) (L.size p) x) : ¬ Written L s x := by
  rintro (hlt | hslot)
  · exact L.stacks_apart p hp _ h.running hne x hx (lt_of_lt_of_le hlt h.room)
  · exact L.stack_slot p hp _ h.running x hx hslot

theorem Inv.slot_not_written (hx : Within (L.slot p) 8 x) : ¬ Written L s x := by
  rintro (hlt | hslot)
  · exact L.stack_slot _ h.running p hp x (lt_of_lt_of_le hlt h.room) hx
  · exact L.slots_apart p hp _ h.running hne x hx hslot

end

theorem switched_frame (hroom : 56 ≤ s.room L) (hx : ¬ Written L s x) :
    (s.switched L q ret).mem x = s.cpu.mem x :=
  contextSwitch_frame (fun h => hx (.inl (Layout.within_of_below (n := 56) hroom h)))
    (fun h => hx (.inr h))

theorem left_frame (hroom : 8 ≤ s.room L) (hx : ¬ Written L s x) :
    (s.left L q ret).mem x = s.cpu.mem x :=
  store_of_not_within (fun h => hx (.inl (Layout.within_of_below (n := 8) hroom h)))

section

variable (h : Inv L s)

include h

/-- The other processes find their frames again. -/
theorem Inv.kept_others (hp : p ∈ L.procs)
    (hk : s.expected p = some k) (hne : p ≠ s.running) (hrun : p ≠ s'.running)
    (hmem : ∀ x, ¬ Written L s x → s'.cpu.mem x = s.cpu.mem x) : Kept L s' p k := by
  have hkept := h.kept p hp k hk
  apply hkept.congr
  · exact fun x hx => hmem x (h.slot_not_written hp hne hx)
  · exact fun x hx => hmem x (h.stack_not_written hp hne (hkept.within hx))
  · exact fun heq => absurd heq hrun

/-- **The context of a process is restored**, by either kind of switch. -/
theorem Inv.switched_context (hlegal : Legal L (.switch q ret) s) (hk : s.expected q = some k) :
    (s.switched L q ret).kernelContext = k := by
  obtain ⟨hq, hne, -, hroom⟩ := hlegal
  have hkept := h.kept q hq k hk
  apply contextSwitch_resumes
  exact hkept.frame.congr (fun x hx =>
    switched_frame hroom (h.stack_not_written hq hne (hkept.within hx)))

theorem Inv.left_context (hlegal : Legal L (.leave q ret) s) (hk : s.expected q = some k) :
    (s.left L q ret).kernelContext = k := by
  obtain ⟨hq, hne, -, hroom⟩ := hlegal
  have hkept := h.kept q hq k hk
  apply permanentContextSwitch_resumes
  exact hkept.frame.congr (fun x hx =>
    left_frame hroom (h.stack_not_written hq hne (hkept.within hx)))

section

variable (hq : q ∈ L.procs) (hk : s.expected q = some k) (hc : c.kernelContext = k)

include hq hk hc

/-- A process that is switched to goes on above its frame. -/
theorem Inv.room_of_context : L.depth q (c.regs .rsp) ≤ L.size q := by
  have hkept := h.kept q hq k hk
  have hlt := (L.frames_fit q hq).2
  have hinside := hkept.inside
  have hrsp : c.regs .rsp = s.saved L q + BitVec.ofNat 64 56 :=
    (congrArg KernelContext.rsp hc).trans hkept.frame.rsp.symm
  rw [hrsp, Layout.depth_add (by omega)]
  exact hinside

/-- The process that is switched to runs, and has used up its frame. -/
theorem Inv.resumed {expected : ProcRef → Option KernelContext}
    (hkept : ∀ p ∈ L.procs, p ≠ q → ∀ k', expected p = some k' →
      Kept L ⟨c, q, update expected q none⟩ p k') :
    Inv L ⟨c, q, update expected q none⟩ := by
  refine ⟨hq, h.room_of_context hq hk hc, fun p hp k' hk' => ?_⟩
  dsimp only at hk'
  by_cases hpq : p = q
  · subst hpq
    rw [update_self] at hk'
    cases hk'
  · rw [update_of_ne hpq] at hk'
    exact hkept p hp hpq k' hk'

end

/-- The caller of `context_switch` has a new frame. -/
theorem Inv.kept_caller (hlegal : Legal L (.switch q ret) s)
    (hcpu : s'.cpu = s.switched L q ret) (hrun : s'.running = q) :
    Kept L s' s.running (s.cpu.callerContext ret) := by
  obtain ⟨-, hne, -, hroom⟩ := hlegal
  have hp := h.running
  have hdepth : L.depth s.running (s.cpu.regs .rsp - 56) = s.room L - 56 :=
    Layout.depth_sub (n := 56) hroom
  have hinside : L.depth s.running (s.cpu.regs .rsp - 56) + 56 ≤ L.size s.running := by
    have := h.room
    omega
  have hsaved : s'.saved L s.running = s.cpu.regs .rsp - 56 := by
    rw [saved, hcpu]
    exact contextSwitch_slot
  refine ⟨?_, ?_, fun heq => absurd (heq.trans hrun).symm hne⟩
  · rw [hsaved, hcpu]
    exact contextSwitch_saved ((L.stack_slot _ hp _ hp).mono hinside)
  · rw [hsaved]
    exact hinside

theorem Inv.switch (hlegal : Legal L (.switch q ret) s)
    (hrun : next L (.switch q ret) s = some s') : Inv L s' := by
  obtain ⟨hq, hne, hexpected, hroom⟩ := id hlegal
  obtain ⟨k, hk⟩ := ne_none_iff_exists'.mp hexpected
  cases hrun
  refine h.resumed hq hk (h.switched_context hlegal hk) (fun p hp hpq k' hk' => ?_)
  by_cases hprun : p = s.running
  · subst hprun
    rw [update_self] at hk'
    cases hk'
    exact h.kept_caller hlegal rfl rfl
  · rw [update_of_ne hprun] at hk'
    exact h.kept_others hp hk' hprun hpq (fun x hx => switched_frame hroom hx)

/-- A frame that `exec_elf64` has built on the stack it runs on is above the stack pointer. -/
theorem Inv.kept_leaver (hlegal : Legal L (.leave q ret) s) (hk : s.expected s.running = some k)
    (hcpu : s'.cpu = s.left L q ret) (hrun : s'.running = q) : Kept L s' s.running k := by
  obtain ⟨-, hne, -, hroom⟩ := hlegal
  have hkept := h.kept _ h.running k hk
  have hlt := (L.frames_fit _ h.running).2
  have hinside := hkept.inside
  have hmem : ∀ x, ¬ L.depth s.running x < s.room L → s'.cpu.mem x = s.cpu.mem x := by
    intro x hx
    rw [hcpu]
    exact store_of_not_within (fun hin => hx (Layout.within_of_below (n := 8) hroom hin))
  apply hkept.congr
  · intro x hx
    apply hmem
    intro hdepth
    exact L.stack_slot _ h.running _ h.running x (lt_of_lt_of_le hdepth h.room) hx
  · intro x hx
    apply hmem
    have hge := (Layout.depth_of_within (L := L) (p := s.running) hx (by omega)).1
    have habove := hkept.above rfl
    omega
  · exact fun heq => absurd (heq.trans hrun).symm hne

theorem Inv.leave (hlegal : Legal L (.leave q ret) s)
    (hrun : next L (.leave q ret) s = some s') : Inv L s' := by
  obtain ⟨hq, hne, hexpected, hroom⟩ := id hlegal
  obtain ⟨k, hk⟩ := ne_none_iff_exists'.mp hexpected
  cases hrun
  refine h.resumed hq hk (h.left_context hlegal hk) (fun p hp hpq k' hk' => ?_)
  by_cases hprun : p = s.running
  · subst hprun
    exact h.kept_leaver hlegal hk' rfl rfl
  · exact h.kept_others hp hk' hprun hpq (fun x hx => left_frame hroom hx)

/-- A synthetic frame for a process that expects none. -/
theorem Inv.build {start : Start} {entry : Word}
    (hlegal : Legal L (.build p start entry) s) (hrun : next L (.build p start entry) s = some s') :
    Inv L s' := by
  obtain ⟨hp, -, hroom⟩ := hlegal
  have hinside := start.depth_contextFrame hp
  cases hrun
  refine ⟨h.running, h.room, fun q hq k hk => ?_⟩
  dsimp only at hk
  by_cases hqp : q = p
  · subst hqp
    rw [update_self] at hk
    cases hk
    have hsaved : load
      (buildSyntheticContextFrame (start.contextFrame L q) (L.slot q) entry s.cpu.mem)
        (L.slot q) = start.contextFrame L q := load_store
    refine ⟨?_, ?_, fun heq => ?_⟩
    · rw [saved, hsaved]
      exact saved_buildSyntheticContextFrame ((L.stack_slot q hq q hq).mono hinside)
    · rw [saved, hsaved]
      exact hinside
    · rw [saved, hsaved]
      exact hroom heq
  · rw [update_of_ne hqp] at hk
    have hkept := h.kept q hq k hk
    have hframe : ∀ x, Within (start.contextFrame L p) 56 x → Within (L.base p) (L.size p) x :=
      fun x hx => hx.trans hinside
    apply hkept.congr
    · intro x hx
      apply buildSyntheticContextFrame_frame
      · exact fun hin => L.stack_slot p hp q hq x (hframe x hin) hx
      · exact L.slots_apart q hq p hp hqp x hx
    · intro x hx
      apply buildSyntheticContextFrame_frame
      · exact fun hin => L.stacks_apart q hq p hp hqp x (hkept.within hx) (hframe x hin)
      · exact L.stack_slot q hq p hp x (hkept.within hx)
    · exact hkept.above

theorem Inv.next {op : SwitchOp} (hlegal : Legal L op s)
    (hrun : Switching.next L op s = some s') : Inv L s' := by
  cases op with
  | code cpu =>
    cases hrun
    exact h.code hlegal
  | build p start entry => exact h.build hlegal hrun
  | switch q ret => exact h.switch hlegal hrun
  | leave q ret => exact h.leave hlegal hrun

end

theorem reachable_inv (h : (system L).ReachableUnder (Legal L) s) : Inv L s := by
  apply h.invariant
  · rintro s ⟨hrun, hroom, hnone⟩
    refine ⟨hrun, hroom, fun p _ k hk => ?_⟩
    rw [hnone p] at hk
    cases hk
  · exact fun s s' op hinv hlegal hrun => hinv.next hlegal hrun

/-- **Kernel contexts survive any schedule**: whoever is switched to, by either kind of switch,
finds the context of its last call, or of its synthetic frame; the stacks of all but the process
that called are untouched. -/
theorem reachable_context_survives (L : Layout) {s s' : Switching} {q : ProcRef}
    {ret : Word} {op : SwitchOp}
    (h : (system L).ReachableUnder (Legal L) s) (hop : op = .switch q ret ∨ op = .leave q ret)
    (hlegal : Legal L op s) (hrun : next L op s = some s') :
    s'.running = q ∧ some s'.cpu.kernelContext = s.expected q ∧
    ∀ p ∈ L.procs, p ≠ s.running → ∀ x, Within (L.base p) (L.size p) x →
    s'.cpu.mem x = s.cpu.mem x := by
  have hinv := reachable_inv h
  obtain rfl | rfl := hop
  · obtain ⟨-, -, hexpected, hroom⟩ := id hlegal
    obtain ⟨k, hk⟩ := ne_none_iff_exists'.mp hexpected
    cases hrun
    refine ⟨rfl, ?_, fun p hp hne x hx => ?_⟩
    · rw [hk]
      exact congrArg some (hinv.switched_context hlegal hk)
    · exact switched_frame hroom (hinv.stack_not_written hp hne hx)
  · obtain ⟨-, -, hexpected, hroom⟩ := id hlegal
    obtain ⟨k, hk⟩ := ne_none_iff_exists'.mp hexpected
    cases hrun
    refine ⟨rfl, ?_, fun p hp hne x hx => ?_⟩
    · rw [hk]
      exact congrArg some (hinv.left_context hlegal hk)
    · exact left_frame hroom (hinv.stack_not_written hp hne hx)

/-- Two processes with stacks at `0x10000` and `0x20000`. -/
def twoStacks : Layout where
  procs := {0, 1}
  base p := BitVec.ofNat 64 (0x10000 * (p + 1))
  size _ := 0x8000
  slot p := BitVec.ofNat 64 (0x1000 + 8 * p)
  frames_fit := by simp
  stacks_apart := by
    intro p hp q hq hne
    rw [Finset.mem_insert, Finset.mem_singleton] at hp hq
    obtain rfl | rfl := hp <;> obtain rfl | rfl := hq
    · exact absurd rfl hne
    · exact apart_of_le (by decide) (by decide)
    · exact (apart_of_le (by decide) (by decide)).symm
    · exact absurd rfl hne
  slots_apart := by
    intro p hp q hq hne
    rw [Finset.mem_insert, Finset.mem_singleton] at hp hq
    obtain rfl | rfl := hp <;> obtain rfl | rfl := hq
    · exact absurd rfl hne
    · exact apart_of_le (by decide) (by decide)
    · exact (apart_of_le (by decide) (by decide)).symm
    · exact absurd rfl hne
  stack_slot := by
    intro p hp q hq
    rw [Finset.mem_insert, Finset.mem_singleton] at hp hq
    obtain rfl | rfl := hp <;> obtain rfl | rfl := hq <;>
      exact (apart_of_le (by decide) (by decide)).symm

/-- Process 0 runs at the top of its stack. -/
def alone : Switching where
  cpu := {
    regs := fun r => if r = .rsp then 0x18000 else 7
    rip := 0, rflags := flagIf, cs := kernelCs, ss := 0, gsBase := 0, kernelGsBase := 0, fsBase := 0
    xmm := fun _ => 0, mxcsr := 0, mem := fun _ => 0 }
  running := 0
  expected := fun _ => none

/-- It starts a kernel thread and switches to it. -/
theorem alone_context_survives : ∃ s s', next twoStacks (.build 1 .kthread 0x4000) alone = some s ∧
    next twoStacks (.switch 1 0x1234) s = some s' ∧
    s'.cpu.kernelContext = syntheticContext (Start.kthread.contextFrame twoStacks 1) 0x4000 := by
  refine ⟨_, _, rfl, rfl, ?_⟩
  have hinit : (system twoStacks).init alone := ⟨by decide, by decide, fun _ => rfl⟩
  have hbuild : Legal twoStacks (.build 1 .kthread 0x4000) alone :=
    ⟨by decide, rfl, fun h => by cases h⟩
  have hreach := (System.ReachableUnder.start hinit).tail hbuild rfl
  exact Option.some.inj (reachable_context_survives twoStacks hreach (.inl rfl)
    ⟨by decide, by decide, by decide, by decide⟩ rfl).2.1

end Switching

end Hltos.Asm
