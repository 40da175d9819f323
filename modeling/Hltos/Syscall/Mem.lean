import Hltos.Process.KernelHalf

/-!
# `sys_brk` and `sys_mmap`

The memory of one process, from its `exec_elf64` on. `sys_brk` maps the bytes between the old and
the new break with `map_pages`, which takes new frames for all pages that they lie in: also for the
page that the old break is in the middle of, and for whatever else is in the way.
-/

namespace Hltos

open Lib.Radix Lib.Transition FrameAllocator Pte Vmm BitVec Option

variable {σ : Type} [FrameAllocator σ]

def mapAnonymous : BitVec 32 := 0x20

/-- `sys_brk`: the result, and the process with the new break. -/
def sysBrk (addr : Word) (p : Process) (s : Vmm σ) : Option (Word × Process × Vmm σ) :=
  if addr = 0 then some (p.heapBreak, p, s)
  else if addr ≤ p.heapBreak then some (p.heapBreak, p, s)
  else do
    let s ← s.mapPages (← p.pml4) p.heapBreak (addr - p.heapBreak) (pageUser ||| pageWrite)
    return (addr, { p with heapBreak := addr }, s)

/-- `sys_mmap`. The arguments that are not used are left out. -/
def sysMmap (length : Word) (flags : BitVec 32) (p : Process) (s : Vmm σ) :
    Option (Word × Process × Vmm σ) :=
  if flags &&& mapAnonymous = 0 then some (-1, p, s)
  else do
    let (addr, uheap, s) ← s.mapHeapPages (← p.pml4) p.uheap length (pageWrite ||| pageUser)
    return (addr, { p with uheap := uheap }, s)

/-- A process and its memory. -/
structure UserMem (σ : Type) where
  proc : Process
  vmm : Vmm σ

inductive UserOp
  | brk (addr : Word)
  | mmap (length : Word) (flags : BitVec 32)
  /-- the program writes a byte -/
  | store (v : Word) (b : Byte)

namespace UserMem

def next : UserOp → UserMem σ → Option (UserMem σ)
  | .brk addr, st => (sysBrk addr st.proc st.vmm).map (fun r => ⟨r.2.1, r.2.2⟩)
  | .mmap length flags, st => (sysMmap length flags st.proc st.vmm).map (fun r => ⟨r.2.1, r.2.2⟩)
  | .store v b, st =>
    if v.toNat < 2 ^ 47 then do
      let s ← st.vmm.storeByte (← st.proc.pml4) v b
      return { st with vmm := s }
    else none

/-- The process has just loaded some program. -/
def system (σ : Type) [FrameAllocator σ] : System (UserMem σ) UserOp where
  init st := ∃ (s : Vmm σ) (cr3 : Frame) (kernelStack fileBuffer : Word)
    (argvStrs envpStrs : List (List Byte)) (p : Process), KernelHalf s ∧ Replaceable p.pml4 s ∧
    s.execElf64 cr3 kernelStack fileBuffer argvStrs envpStrs p = some (st.proc, st.vmm)
  next := next

/-- Every page that was mapped is mapped to the same frame, and holds the same bytes. -/
def Preserves (st st' : UserMem σ) : Prop :=
  ∀ q v e, st.proc.pml4 = some q → walk st.vmm.mem q v = some e →
    walk st'.vmm.mem q v = some e ∧ st'.vmm.mem (addr e) = st.vmm.mem (addr e)

/-- No page that the bytes from the break to `addr` lie in is mapped. -/
def Unmapped (addr : Word) (st : UserMem σ) : Prop :=
  ∀ q v, st.proc.pml4 = some q → Intersects st.proc.heapBreak (addr - st.proc.heapBreak) v →
    walk st.vmm.mem q v = none

/-! ## The tables of the process -/

/-- The tables of the process are a tree, whatever it has loaded; the direct map is left out, as in
`KernelHalf`. -/
def Inv (st : UserMem σ) : Prop := ∃ q, st.proc.pml4 = some q ∧ Vmm.Owns anyHead q ∅ st.vmm

variable {st st' : UserMem σ} {st0 : UserMem FramePool} {s s' : Vmm σ} {addr : Word}

theorem cursorIn_any (n : Nat) (heap : Heap) : CursorIn anyHead n heap := by
  induction n generalizing heap with
  | zero => trivial
  | succ n ih => exact fun _ => ⟨trivial, ih _⟩

theorem Inv.of_exec {cr3 : Frame} {kernelStack fileBuffer : Word}
    {argvStrs envpStrs : List (List Byte)} {p p' : Process} (hk : KernelHalf s)
    (hp : Replaceable p.pml4 s)
    (h : s.execElf64 cr3 kernelStack fileBuffer argvStrs envpStrs p = some (p', s')) :
    Inv ⟨p', s'⟩ := by
  obtain ⟨file, q, image, s1, s2, s3, -, -, rfl, hstages⟩ := execElf64_eq_some h
  obtain ⟨vs, hloaded⟩ := hstages.loaded
  have hany := (prepared hk hp hstages.create hstages.heap).any
  refine ⟨q, congrArg some hstages.pml4, ?_⟩
  exact (hloaded.keeps hany (fun _ _ _ _ => trivial) (fun _ _ => trivial)).owns

/-- A break that grows maps the pages of the new bytes. -/
theorem next_brk (hgrow : st.proc.heapBreak < addr) (h : next (.brk addr) st = some st') :
    ∃ q, st.proc.pml4 = some q ∧ st'.proc = { st.proc with heapBreak := addr } ∧
      st.vmm.mapPages q st.proc.heapBreak (addr - st.proc.heapBreak) (pageUser ||| pageWrite) =
        some st'.vmm := by
  obtain ⟨⟨r, p, s⟩, hs, rfl⟩ := map_eq_some_iff.mp h
  have hne : addr ≠ 0 := fun hzero => absurd hgrow (by rw [hzero]; exact not_lt_zero)
  unfold sysBrk at hs
  rw [if_neg hne, if_neg (BitVec.not_le.mpr hgrow)] at hs
  obtain ⟨q, hq, hs⟩ := of_bind hs
  obtain ⟨s1, hm, hs⟩ := of_bind hs
  cases hs
  exact ⟨q, hq, rfl, hm⟩

/-- No call of the process and no store of it breaks up its tables. -/
theorem Inv.next {op : UserOp} (h : Inv st) (hs : next op st = some st') : Inv st' := by
  obtain ⟨q, hq, ho⟩ := h
  cases op with
  | brk addr =>
    by_cases hgrow : st.proc.heapBreak < addr
    · obtain ⟨q', hq', hp, hm⟩ := next_brk hgrow hs
      cases hq.symm.trans hq'
      exact ⟨q, by rw [hp]; exact hq,
        (mapPagesFrom_keeps ho (fun _ _ => trivial) (mapPages_eq hm)).owns⟩
    · obtain ⟨⟨r, p, s⟩, hrun, rfl⟩ := map_eq_some_iff.mp hs
      unfold sysBrk at hrun
      rw [if_pos (BitVec.not_lt.mp hgrow)] at hrun
      split at hrun <;> cases hrun <;> exact ⟨q, hq, ho⟩
  | mmap length flags =>
    obtain ⟨⟨r, p, s⟩, hrun, rfl⟩ := map_eq_some_iff.mp hs
    unfold sysMmap at hrun
    split at hrun
    · cases hrun
      exact ⟨q, hq, ho⟩
    · obtain ⟨q', hq', hrun⟩ := of_bind hrun
      cases hq.symm.trans hq'
      obtain ⟨⟨a, uheap, s1⟩, hm, hrun⟩ := of_bind hrun
      cases hrun
      exact ⟨q, hq, (mapHeapPages_keeps ho (cursorIn_any _ _) hm).owns⟩
  | store v b =>
    obtain ⟨-, hrun⟩ := ite_none_right_eq_some.mp hs
    obtain ⟨q', hq', hrun⟩ := of_bind hrun
    cases hq.symm.trans hq'
    obtain ⟨s1, hb, hrun⟩ := of_bind hrun
    cases hrun
    exact ⟨q, hq, (storeByte_writes ho trivial hb).keeps.owns⟩

/-! ## What a growing break leaves alone -/

/-- A range that ends in the last page is refused. -/
theorem mapPages_fit {q : Frame} {virt bytes : Word} {flags : Flags}
    (hlt : virt.toNat + bytes.toNat < 2 ^ 64) (h : s.mapPages q virt bytes flags = some s') :
    virt.toNat + bytes.toNat + 4095 < 2 ^ 64 := by
  by_contra hbig
  have hend : ¬ pageStart virt < pageEnd virt bytes := by
    apply Nat.not_lt.mpr
    refine (Nat.le_of_eq ?_).trans (Nat.zero_le _)
    show (pageAlign (virt + bytes + pageSize - 1)).toNat = 0
    rw [toNat_pageAlign, toNat_sub, toNat_add, toNat_add, toNat_pageSize,
      show (1 : Word).toNat = 1 from rfl]
    omega
  unfold Vmm.mapPages at h
  split at h <;> cases h

/-- A break that grows spares what is mapped exactly if it maps over nothing. -/
theorem Inv.preserves_iff (h : Inv st) (hgrow : st.proc.heapBreak < addr)
    (hs : UserMem.next (.brk addr) st = some st') : Preserves st st' ↔ Unmapped addr st := by
  obtain ⟨q, hq, ho⟩ := h
  obtain ⟨q', hq', -, hm⟩ := next_brk hgrow hs
  cases hq.symm.trans hq'
  have hsub := BitVec.toNat_sub_of_le (BitVec.le_of_lt hgrow)
  have hlt := hgrow
  have haddr := addr.isLt
  have hfit := mapPages_fit (by omega) hm
  have hpos := mapPages_pos hm
  have hcovers := covers_iff hfit hpos
  have hfrom := mapPages_eq hm
  have hspec := mapPagesFrom_spec ho.tables (fun _ _ => trivial) hfrom
  constructor
  · -- a page that is mapped again has a new frame
    intro hpres q1 v hq1 hv
    cases hq.symm.trans hq1
    by_contra hne
    obtain ⟨e, he⟩ := ne_none_iff_exists'.mp hne
    obtain ⟨e', f, he', hmaps, hfresh, -⟩ := hspec.new v ((hcovers v).mpr hv)
    have heq : e' = e := some.inj (he'.symm.trans (hpres q v e hq he).1)
    rw [walk_eq_find] at he
    obtain ⟨g, hg, ht⟩ := child_of_find he
    apply hfresh
    rw [← hmaps.addr, heq, (addr_of_child hg).1]
    exact ho.tree.allocated ⟨_, path_mem trivial, ht⟩
  · intro hun q1 v e hq1 he
    cases hq.symm.trans hq1
    have hnot : ∀ w ∈ pagesFrom (numPages st.proc.heapBreak (addr - st.proc.heapBreak)).toNat
        (pageStart st.proc.heapBreak), path v ≠ path w := by
      intro w hw heq
      obtain ⟨k, hk, rfl⟩ := mem_pagesFrom.mp hw
      have hnone := hun q v hq ((hcovers v).mp ⟨k, hk, path_eq_iff.mp heq⟩)
      rw [hnone] at he
      cases he
    have hu := (mapPagesFrom_mapped ho (fun _ _ => trivial) hfrom).untouched ho
      (isPage_path (v := v) trivial) hnot
    rw [walk_eq_find] at he ⊢
    obtain ⟨g, hg, ht⟩ := child_of_find he
    rw [(addr_of_child hg).1]
    exact ⟨hu.find.trans he, hu.mem g ht⟩

theorem inv_of_reachable (h : (system σ).Reachable st) : Inv st := by
  refine h.invariant ?_ (fun _ _ _ hinv hn => hinv.next hn)
  rintro ⟨p', s'⟩ ⟨s, cr3, kernelStack, fileBuffer, argvStrs, envpStrs, p, hk, hp, hexec⟩
  exact .of_exec hk hp hexec

/-- Whatever a process has loaded, mapped and written, a break that grows preserves it exactly if
none of the pages that the new bytes lie in is mapped. -/
theorem reachable_brk_preserves_iff {addr : Word} (h : (system σ).Reachable st)
    (hgrow : st.proc.heapBreak < addr) (hs : UserMem.next (.brk addr) st = some st') :
    Preserves st st' ↔ Unmapped addr st := (inv_of_reachable h).preserves_iff hgrow hs

/-- A program of one byte at `0x400000`, loaded by a new process. The break is `0x401000`. -/
def loadedByte : Option (UserMem FramePool) :=
  (execFile (elfWords 0x400000)).map (fun r => ⟨r.2.1, r.2.2⟩)

theorem loadedByte_init (h : loadedByte = some st0) : (system FramePool).Reachable st0 := by
  obtain ⟨⟨s, p, s'⟩, hexec, rfl⟩ := map_eq_some_iff.mp h
  obtain ⟨hfile, hp⟩ := execFile_eq_some hexec
  exact .start ⟨s, 0, 0, 0xFFFFFF8000000000, [], [], firstProcess, fileVmm_kernelHalf hfile,
    by rintro r ⟨⟩, hp⟩

/-- The break grows by one byte, the process writes to it, and the break grows by another byte: the
first one is lost. -/
theorem brkTwice_loses_byte : ∃ st st' : UserMem FramePool, (system FramePool).Reachable st ∧
    st.proc.heapBreak < 0x401002 ∧ UserMem.next (.brk 0x401002) st = some st' ∧
    ¬ Preserves st st' ∧ ∃ q, st.proc.pml4 = some q ∧
      st.vmm.loadByte q 0x401000 = some 0x2A ∧ st'.vmm.loadByte q 0x401000 = some 0 := by
  have hrun : (do
      let st ← loadedByte
      let st ← (system FramePool).exec [.brk 0x401001, .store 0x401000 0x2A] st
      let st' ← UserMem.next (.brk 0x401002) st
      let q ← st.proc.pml4
      return (st.proc.heapBreak, st.vmm.loadByte q 0x401000, st'.vmm.loadByte q 0x401000)) =
      some (0x401001, some 0x2A, some 0) := by decide +kernel
  obtain ⟨st0, h0, hrun⟩ := of_bind hrun
  obtain ⟨st, h1, hrun⟩ := of_bind hrun
  obtain ⟨st', h2, hrun⟩ := of_bind hrun
  obtain ⟨q, hq, hrun⟩ := of_bind hrun
  simp only [pure_def, some.injEq, Prod.mk.injEq] at hrun
  obtain ⟨hbreak, hold, hnew⟩ := hrun
  refine ⟨st, st', .of_exec (loadedByte_init h0) h1, by rw [hbreak]; decide, h2, fun hpres => ?_, q,
    hq, hold, hnew⟩
  -- the byte is in a page that was mapped
  rw [loadByte_eq, if_pos (by decide)] at hold hnew
  obtain ⟨e, he, hbyte⟩ := map_eq_some_iff.mp hold
  obtain ⟨hwalk, hmem⟩ := hpres q _ e hq he
  rw [hwalk, map_some, hmem, hbyte] at hnew
  cases hnew

/-- The first of the two calls maps a page that was not mapped. -/
theorem brkOnce_preserves : ∃ st st' : UserMem FramePool, (system FramePool).Reachable st ∧
    st.proc.heapBreak < 0x401001 ∧ UserMem.next (.brk 0x401001) st = some st' ∧
    Preserves st st' := by
  have hrun : (do
      let st ← loadedByte
      let st' ← UserMem.next (.brk 0x401001) st
      let q ← st.proc.pml4
      return (st.proc.heapBreak, walk st.vmm.mem q 0x401000)) = some (0x401000, none) := by
    decide +kernel
  obtain ⟨st, h0, hrun⟩ := of_bind hrun
  obtain ⟨st', h1, hrun⟩ := of_bind hrun
  obtain ⟨q, hq, hrun⟩ := of_bind hrun
  simp only [pure_def, some.injEq, Prod.mk.injEq] at hrun
  obtain ⟨hbreak, hnone⟩ := hrun
  have hreach := loadedByte_init h0
  have hgrow : st.proc.heapBreak < 0x401001 := by rw [hbreak]; decide
  refine ⟨st, st', hreach, hgrow, h1, (reachable_brk_preserves_iff hreach hgrow h1).mpr ?_⟩
  intro q' v hq' hv
  cases hq.symm.trans hq'
  obtain ⟨a, hlo, hhi, hvpn⟩ := hv
  rw [hbreak] at hlo hhi
  have ha : a = 0x401000 := by
    have : (0x401000 : Word).toNat = 0x401000 := rfl
    have : ((0x401001 : Word) - 0x401000).toNat = 1 := rfl
    omega
  rw [ha] at hvpn
  rw [walk_congr hvpn]
  exact hnone

end UserMem

end Hltos
