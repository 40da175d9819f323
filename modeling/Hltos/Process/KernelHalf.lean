import Hltos.Process.Loading
import Hltos.Scheduler.Partition

/-!
# Loading and the kernel's half

The tables behind the upper entries of the roots are the kernel's, and all roots share them. A
program is loaded into a new root: what its segments and its stack do to the kernel's half depends
on where they lie, which nobody checks.
-/

namespace Hltos

open Lib.Radix FrameAllocator Pte Option List BitVec

namespace Vmm

variable {σ : Type} [FrameAllocator σ] {s s' s'' : Vmm σ} {q : Frame} {H : Idx → Prop}
  {K : Set Frame} {pml4 : Option Frame} {vs : List Word}

/-- The entries of a root for the addresses from `0x800000000000` on. -/
def upperHalf (i : Idx) : Prop := 256 ≤ i.toNat

theorem upperHalf_pml4Idx {v : Word} (hv : 2 ^ 64 - 2 ^ 47 ≤ v.toNat) : upperHalf (pml4Idx v) := by
  have := v.isLt
  rw [upperHalf, toNat_pml4Idx]
  omega

/-- The frames of the kernel's half: the root, the tables and the pages. -/
abbrev kernelFrames (s : Vmm σ) : Set Frame := owned upperHalf s.kernelPml4 s

/-- The kernel's half as it is after `vmm::init`. It begins with the entry of the direct map, its
frames are allocated and distinct, and the last page is not mapped. That entry itself is taken to be
empty: what the code reaches through it is `mem`, and its leaves, which are all of memory, would not
be frames of a tree. -/
structure KernelHalf (s : Vmm σ) : Prop where
  half : 256 ≤ s.kernelStart.toNat
  gap : ∀ i, upperHalf i → i < s.kernelStart → child (s.mem s.kernelPml4 i) = none
  tree : Tree (below upperHalf 4) s.kernelPml4 s
  top : walk s.mem s.kernelPml4 (BitVec.allOnes 64) = none

/-- The kernel's half of `s` is still there in `m`, also behind the root `q`. -/
structure Shares (s : Vmm σ) (m : Memory) (q : Frame) : Prop where
  mem : ∀ f ∈ kernelFrames s, m f = s.mem f
  entry : ∀ i, upperHalf i → m q i = s.mem s.kernelPml4 i ∨
    child (m q i) = none ∧ child (s.mem s.kernelPml4 i) = none

/-! ## A new root -/

namespace KernelHalf

variable (h : KernelHalf s)

include h

theorem root_mem : s.kernelPml4 ∈ allocated s.pmm := h.tree.allocated (root_mem_frames _ _ _)

/-- The kernel's half does not notice what happens outside of it. -/
theorem of_kept (hsame : Same s s')
    (hkept : ∀ f ∈ kernelFrames s, s'.mem f = s.mem f ∧ f ∈ allocated s'.pmm) :
    KernelHalf s' ∧ kernelFrames s' = kernelFrames s := by
  have hmem : ∀ f ∈ kernelFrames s, s'.mem f = s.mem f := fun f hf => (hkept f hf).1
  have hframes : kernelFrames s' = kernelFrames s := by
    unfold kernelFrames owned
    rw [hsame.kernelPml4]
    exact frames_of_agree hmem
  have hroot := hmem _ (root_mem_frames s.mem s.kernelPml4 (below upperHalf 4))
  refine ⟨⟨?_, ?_, ⟨?_, ?_⟩, ?_⟩, hframes⟩
  · rw [hsame.kernelStart]
    exact h.half
  · intro i hi hlt
    rw [hsame.kernelStart] at hlt
    rw [hsame.kernelPml4, hroot]
    exact h.gap i hi hlt
  · rw [hsame.kernelPml4]
    exact h.tree.separated.of_agree hmem
  · show kernelFrames s' ⊆ _
    rw [hframes]
    exact fun f hf => (hkept f hf).2
  · have hlast : upperHalf (pml4Idx (allOnes 64)) := by unfold upperHalf; decide
    have htop := h.top
    rw [walk_eq_find] at htop ⊢
    rw [hsame.kernelPml4]
    exact (find_of_agree hmem (below_mono (by decide) (path_tail_mem hlast))).trans htop

section

variable (hn : NewRoot s s' s.kernelPml4 q)

include hn

/-- What is behind a new root is the kernel's half. -/
theorem table_cases {π : List Idx} {f : Frame}
    (hπ : π ∈ below anyHead 4) (ht : table s'.mem q π = some f) : π = [] ∧ f = q ∨
      π ∈ below upperHalf 4 ∧ table s.mem s.kernelPml4 π = some f := by
  by_cases huser : ∀ i ∈ π.getLast?, s.userHead i
  · exact Or.inl (table_of_blank (fun i hi => hn.blank i (huser i hi)) ht)
  · push Not at huser
    obtain ⟨i, hi, hnot⟩ := huser
    have hle : s.kernelStart ≤ i := BitVec.not_lt.mp hnot
    have hlast : ∀ j ∈ π.getLast?, j = i := fun j hj => some.inj (hj.symm.trans hi)
    have hup : π ∈ below upperHalf 4 :=
      ⟨hπ.1, fun j hj => by rw [hlast j hj]; exact h.half.trans hle⟩
    have hsame : table s'.mem q π = table s'.mem s.kernelPml4 π := by
      refine table_of_same_entry (fun j hj => ?_) (by rintro rfl; cases hi)
      rw [hlast j hj, hn.kernel i hle, hn.mem _ h.root_mem]
    refine Or.inr ⟨hup, ?_⟩
    rw [← ht, hsame]
    exact (table_of_agree (fun g hg => hn.mem g (h.tree.allocated hg)) hup).symm

/-- A new root is a tree of frames of its own, apart from `K`. -/
theorem owns_newRoot (hK : K ⊆ allocated s.pmm)
    (hdis : ∀ f ∈ K, f ∉ kernelFrames s) : Owns anyHead q K s' := by
  have hq : ∀ {π f}, π ∈ below upperHalf 4 → table s.mem s.kernelPml4 π = some f → f ≠ q :=
    fun hπ hf heq => hn.fresh (h.tree.allocated ⟨_, hπ, heq ▸ hf⟩)
  refine ⟨⟨?_, ?_⟩, ?_, ?_⟩
  · intro τ hτ τ' hτ' f hf hf'
    rcases h.table_cases hn hτ hf with ⟨rfl, rfl⟩ | ⟨hu, hf⟩ <;>
      rcases h.table_cases hn hτ' hf' with ⟨rfl, heq⟩ | ⟨hu', hf'⟩
    · rfl
    · exact absurd rfl (hq hu' hf')
    · exact absurd heq (hq hu hf)
    · exact h.tree.separated τ hu τ' hu' f hf hf'
  · rintro f ⟨τ, hτ, hf⟩
    rw [hn.allocated]
    rcases h.table_cases hn hτ hf with ⟨-, rfl⟩ | ⟨hu, hf⟩
    · exact Or.inl rfl
    · exact Or.inr (h.tree.allocated ⟨τ, hu, hf⟩)
  · rw [hn.allocated]
    exact hK.trans (Set.subset_insert _ _)
  · rintro f hf ⟨τ, hτ, ht⟩
    rcases h.table_cases hn hτ ht with ⟨-, rfl⟩ | ⟨hu, ht⟩
    · exact hn.fresh (hK hf)
    · exact hdis f hf ⟨τ, hu, ht⟩

theorem shares_newRoot : Shares s s'.mem q := by
  refine ⟨fun f hf => hn.mem f (h.tree.allocated hf), fun i hi => ?_⟩
  by_cases hlt : i < s.kernelStart
  · exact Or.inr ⟨hn.blank i hlt, h.gap i hi hlt⟩
  · exact Or.inl (hn.kernel i (BitVec.not_lt.mp hlt))

end

end KernelHalf

/-! ## What the kernel's half looks like from a root -/

namespace Shares

omit [FrameAllocator σ] in
theorem walk {m : Memory} (h : Shares s m q) {v : Word} (hv : upperHalf (pml4Idx v)) :
    walk m q v = walk s.mem s.kernelPml4 v := by
  have hroot : s.kernelPml4 ∈ kernelFrames s := root_mem_frames _ _ _
  have hlast : ∀ i ∈ (path v).getLast?, i = pml4Idx v := fun i hi => (some.inj hi).symm
  have hnone : ∀ {m : Memory} {r : Frame}, child (m r (pml4Idx v)) = none →
      find m r (path v) = none := by
    intro m r hc
    cases hf : find m r (path v) with
    | none => rfl
    | some e =>
      obtain ⟨f, -, ht⟩ := child_of_find hf
      cases (table_of_blank (fun i hi => by rw [hlast i hi]; exact hc) ht).1
  rw [walk_eq_find, walk_eq_find]
  rcases h.entry _ hv with heq | ⟨hq, hk⟩
  · rw [find_of_same_entry (r := s.kernelPml4) (fun i hi => by rw [hlast i hi, heq, h.mem _ hroot])]
    exact find_of_agree h.mem (below_mono (by decide) (path_tail_mem hv))
  · rw [hnone hq, hnone hk]

/-- Operations on the lower half of the root leave it alone. -/
theorem keeps (h : Shares s s'.mem q) (hk : Keeps lowerHalf q (kernelFrames s) s' s'') :
    Shares s s''.mem q := by
  refine ⟨fun f hf => (hk.mem f hf).trans (h.mem f hf), fun i hi => ?_⟩
  rw [hk.root i (Nat.not_lt.mpr hi)]
  exact h.entry i hi

end Shares

/-- The mappings and the bytes of the kernel's half are as they were, also through the new root. -/
structure SameKernelHalf (q : Frame) (s s' : Vmm σ) : Prop where
  frames : ∀ f ∈ kernelFrames s, s'.mem f = s.mem f
  pages : ∀ v, upperHalf (pml4Idx v) →
    Vmm.walk s'.mem s.kernelPml4 v = Vmm.walk s.mem s.kernelPml4 v
  shared : ∀ v, upperHalf (pml4Idx v) → Vmm.walk s'.mem q v = Vmm.walk s.mem s.kernelPml4 v
  bytes : ∀ v, upperHalf (pml4Idx v) → s'.loadByte q v = s.loadByte s.kernelPml4 v

omit [FrameAllocator σ] in
theorem Shares.same (h : Shares s s'.mem q) : SameKernelHalf q s s' := by
  have hwalk : ∀ v, upperHalf (pml4Idx v) →
      Vmm.walk s'.mem q v = Vmm.walk s.mem s.kernelPml4 v := fun v hv => h.walk hv
  refine ⟨h.mem, fun v hv => ?_, hwalk, fun v hv => ?_⟩
  · rw [walk_eq_find, walk_eq_find]
    exact find_of_agree h.mem (below_mono (by decide) (path_tail_mem hv))
  · rw [loadByte_eq, loadByte_eq, hwalk v hv]
    split
    · cases he : Vmm.walk s.mem s.kernelPml4 v with
      | none => rfl
      | some e =>
        rw [walk_eq_find] at he
        obtain ⟨f, hf, ht⟩ := child_of_find he
        simp [(addr_of_child hf).1, h.mem f ⟨_, path_mem hv, ht⟩]
    · rfl

/-! ## Up to the segments -/

/-- What `exec_elf64` can replace: no address space, the kernel's, or one with a user half of its
own. -/
def Replaceable (pml4 : Option Frame) (s : Vmm σ) : Prop :=
  ∀ r, pml4 = some r → r = s.kernelPml4 ∨ Owns s.userHead r (kernelFrames s) s

theorem freeOldPml4_kept (h : KernelHalf s) (hp : Replaceable pml4 s) :
    Same s (s.freeOldPml4 pml4) ∧ ∀ f ∈ kernelFrames s,
      (s.freeOldPml4 pml4).mem f = s.mem f ∧ f ∈ allocated (s.freeOldPml4 pml4).pmm := by
  have hself : Same s s ∧ ∀ f ∈ kernelFrames s, s.mem f = s.mem f ∧ f ∈ allocated s.pmm :=
    ⟨.refl s, fun f hf => ⟨rfl, h.tree.allocated hf⟩⟩
  cases pml4 with
  | none => exact hself
  | some r =>
    by_cases hr : r = s.kernelPml4
    · have heq : s.freeOldPml4 (some r) = s := if_pos hr
      rw [heq]
      exact hself
    · obtain ⟨hkept, -, hsame⟩ := freeUserPml4_spec hr ((hp r rfl).resolve_left hr)
      exact ⟨hsame, hkept⟩

/-- A new root with the tables of its heap, before anything is loaded. -/
structure Prepared (q : Frame) (s s' : Vmm σ) : Prop where
  lower : Owns lowerHalf q (kernelFrames s) s'
  any : Owns anyHead q ∅ s'
  shares : Shares s s'.mem q
  same : Same s s'

/-- Where loading begins: a new root with the kernel's half and a user heap. -/
theorem prepared {uheap : Heap} (h : KernelHalf s)
    (hp : Replaceable pml4 s) (hcreate : (s.freeOldPml4 pml4).createUserPml4 = some (q, s'))
    (hheap : s'.createUserHeap q = some (uheap, s'')) : Prepared q s s'' := by
  obtain ⟨hsame, hkept⟩ := freeOldPml4_kept h hp
  obtain ⟨h0, hframes⟩ := h.of_kept hsame hkept
  have hn := createUserPml4_spec h0.root_mem hcreate
  have hshares := h0.shares_newRoot hn
  have hlowerHead : ∀ i, lowerHalf i → (s.freeOldPml4 pml4).userHead i :=
    fun i hi => Nat.lt_of_lt_of_le hi h0.half
  have hlower : Owns lowerHalf q (kernelFrames s) s' := by
    have ho := hn.owns.mono_head hlowerHead
    exact ⟨ho.tree, fun f hf => ho.kept (hkept f hf).2, fun f hf => ho.apart f (hkept f hf).2⟩
  have hany : Owns anyHead q ∅ s' :=
    h0.owns_newRoot hn (Set.empty_subset _) (fun f hf => absurd hf (Set.notMem_empty f))
  have hone : ∀ i, toIdx (1 : Word) = some i → lowerHalf i :=
    fun i hi => toIdx_lowerHalf (by decide) hi
  have hgrown := (heapAt_spec hlower.tables hone hheap).2
  have hgrown' := (heapAt_spec hany.tables (fun _ _ => trivial) hheap).2
  have hold : Shares s s'.mem q := by
    refine ⟨fun f hf => ?_, fun i hi => ?_⟩
    · rw [hshares.mem f (hframes ▸ hf), (hkept f hf).1]
    · have hroot := (hkept _ (root_mem_frames s.mem s.kernelPml4 (below upperHalf 4))).1
      have hentry := hshares.entry i hi
      rwa [hsame.kernelPml4, hroot] at hentry
  have hk := hlower.grown hgrown
  exact ⟨hk.owns, (hany.grown hgrown').owns, hold.keeps hk, (hsame.trans hn.same).trans hk.same⟩

/-- What is loaded into the lower half of the root. -/
theorem Prepared.loaded {ms : List (Word × Word)} (hp : Prepared q s s')
    (h : Loaded q ms vs s' s'') (hms : ∀ m ∈ ms, m.1.toNat + m.2.toNat ≤ 2 ^ 47)
    (hvs : ∀ v ∈ vs, v.toNat < 2 ^ 47) : Prepared q s s'' := by
  have hk := h.keeps hp.lower (fun m hm => lowerHalf_mapPages (hms m hm))
    (fun v hv => lowerHalf_pml4Idx (hvs v hv))
  have hk' := h.keeps hp.any (fun _ _ _ _ => trivial) (fun _ _ => trivial)
  exact ⟨hk.owns, hk'.owns, hp.shares.keeps hk, hp.same.trans hk.same⟩

theorem Prepared.mapUserPages {virt bytes : Word} (hp : Prepared q s s')
    (hfit : virt.toNat + bytes.toNat ≤ 2 ^ 47) (h : s'.mapUserPages q virt bytes = some s'') :
    Prepared q s s'' :=
  hp.loaded (.map h (.nil s'')) (by simpa using hfit) (by simp)

/-- The last page is not mapped, so that nothing was stored in it. -/
theorem Prepared.top_notMem (hp : Prepared q s s') (hk : KernelHalf s)
    (hs : Stored q vs s' s'') : BitVec.allOnes 64 ∉ vs := by
  intro hm
  have hup : upperHalf (pml4Idx (allOnes 64)) := by unfold upperHalf; decide
  exact (hs.mapped hp.any _ hm).2 ((hp.shares.walk hup).trans hk.top)

/-! ## The segments and the stack -/

section Exec

variable {fileBuffer : Word} {argvStrs envpStrs : List (List Byte)} {old : Option Frame}
  {file : Elf64File} {image : Process.ExecImage} {s1 s2 s3 : Vmm σ}

namespace ExecStages

variable (h : ExecStages fileBuffer argvStrs envpStrs old file q image s s1 s2 s3 s')
  (hp : Prepared q s s2) {header : Elf64ProgramHeader}

include h

theorem fit (hm : header ∈ file.programHeaders) :
    header.pVaddr.toNat + max header.pFilesz.toNat header.pMemsz.toNat ≤ 2 ^ 47 ∨
      2 ^ 64 - 2 ^ 47 ≤ header.pVaddr.toNat := by
  have hloaded := mapElf64Headers_loaded h.segments
  apply written_fit (hloaded.pos _ (mem_map_of_mem hm))
  exact fun v hv => hloaded.canonical v (mem_flatMap.mpr ⟨header, hm, hv⟩)

include hp

/-- Segments of the lower half do not touch the kernel's half, nor does the stack. -/
theorem shares (hk : KernelHalf s)
    (hlow : ∀ header ∈ file.programHeaders, header.pVaddr.toNat < 2 ^ 47) :
    Shares s s'.mem q := by
  have hloaded := mapElf64Headers_loaded h.segments
  have hfit : ∀ header ∈ file.programHeaders, header.pVaddr.toNat + header.pMemsz.toNat ≤ 2 ^ 47 ∧
      ∀ v ∈ header.written, v.toNat < 2 ^ 47 := by
    intro header hm
    apply written_low (hloaded.pos _ (mem_map_of_mem hm)) _ (hlow header hm)
    exact fun v hv => hloaded.canonical v (mem_flatMap.mpr ⟨header, hm, hv⟩)
  have hp3 : Prepared q s s3 := by
    refine hp.loaded hloaded (fun m hm => ?_) (fun v hv => ?_)
    · obtain ⟨header, hmem, rfl⟩ := mem_map.mp hm
      exact (hfit header hmem).1
    · obtain ⟨header, hmem, hv⟩ := mem_flatMap.mp hv
      exact (hfit header hmem).2 v hv
  obtain ⟨s4, hmap, vs, hdesc, hs⟩ := buildUserStack_pushed h.stack
  have hp4 := hp3.mapUserPages (by decide) hmap
  have hlt := (hdesc.mem_iff (hp4.top_notMem hk hs)).2
  exact (hp4.loaded (.of_stored hs) (by simp) (fun v hv =>
    ((hlt v).mp hv).2.trans (by decide))).shares

/-- A segment of the upper half replaces a page of the kernel's, or adds one. -/
theorem not_same (hm : header ∈ file.programHeaders)
    (hhigh : 2 ^ 47 ≤ header.pVaddr.toNat) : ¬ SameKernelHalf q s s' := by
  intro hsame
  obtain ⟨vs, hloaded⟩ := h.loaded
  obtain ⟨-, -, hnew⟩ := hloaded.new hp.any hp.lower.kept
  have hmem := mem_append_left [(userStackBase, userStackSize)]
    (mem_map_of_mem (f := Elf64ProgramHeader.range) hm)
  obtain ⟨e, he, hnot⟩ := hnew _ hmem _ (hloaded.covers _ hmem)
  have hpos := hloaded.pos _ hmem
  have hup : upperHalf (pml4Idx header.pVaddr) := by
    refine upperHalf_pml4Idx ((h.fit hm).resolve_left (fun hle => ?_))
    simp only [Elf64ProgramHeader.range] at hpos
    omega
  rw [show header.range.1 = header.pVaddr from rfl, hsame.shared _ hup, walk_eq_find] at he
  obtain ⟨f, hf, ht⟩ := child_of_find he
  rw [(addr_of_child hf).1] at hnot
  exact hnot ⟨_, path_mem hup, ht⟩

end ExecStages

/-- Whether loading a program leaves the kernel's half alone: exactly if all its segments start in
the lower half. -/
theorem execElf64_sameKernelHalf_iff {cr3 : Frame} {kernelStack : Word} {p p' : Process}
    (hk : KernelHalf s) (hp : Replaceable p.pml4 s)
    (hparse : Elf.parseFile (fun v => s.loadByte cr3 v) fileBuffer = some file)
    (h : s.execElf64 cr3 kernelStack fileBuffer argvStrs envpStrs p = some (p', s')) :
    ∃ q, p'.pml4 = some q ∧ (SameKernelHalf q s s' ↔
      ∀ header ∈ file.programHeaders, header.pVaddr.toNat < 2 ^ 47) := by
  obtain ⟨file', q, image, s1, s2, s3, hparse', -, rfl, hstages⟩ := execElf64_eq_some h
  cases hparse.symm.trans hparse'
  have hprep := prepared hk hp hstages.create hstages.heap
  refine ⟨q, congrArg some hstages.pml4, fun hsame header hm => ?_, fun hlow => ?_⟩
  · by_contra hhigh
    exact hstages.not_same hprep hm (Nat.not_lt.mp hhigh) hsame
  · exact (hstages.shares hprep hk hlow).same

end Exec

/-! ## A program in memory -/

/-- The first words of a file with one segment of one byte: the first byte of the file. -/
def elfWords (vaddr : Word) : List Word :=
  [0x00010102464C457F, 0, 0x00000001003E0002, 0x400000, 64, 0, 0x0038004000000000, 1,
    1, 0, vaddr, 0, 1, 1, 0x1000]

/-- An empty root in frame 0, and the words of a file in frame 1. -/
def emptyVmm (file : List Word) : Vmm FramePool where
  mem f i := if f = 1 then file.getD i.toNat 0 else 0
  pmm := ⟨(List.range 64).map (fun k => BitVec.ofNat 40 (k + 1)), by decide⟩
  kernelPml4 := 0
  hhdmOffset := 0xFFFFFF0000000000
  kheap := ⟨511, 0, 0, 2⟩

/-- Two pages of the kernel: the file, and a page of zeros. -/
def fileVmm (file : List Word) : Option (Vmm FramePool) :=
  (emptyVmm file).mapPages 0 0xFFFFFF8000000000 0x2000 pageWrite

theorem fileVmm_kernelHalf {file : List Word} {s : Vmm FramePool} (h : fileVmm file = some s) :
    KernelHalf s := by
  have hblank : ∀ i, child ((emptyVmm file).mem 0 i) = none := by
    intro i
    have hmem : (emptyVmm file).mem 0 i = 0 := by simp [emptyVmm]
    rw [hmem, child_zero]
  have hzero : (0 : Frame) ∉ (List.range 64).map (fun k => BitVec.ofNat 40 (k + 1)) := by
    decide
  have hstart : (emptyVmm file).kernelStart = 510 := by
    show (0xFFFFFF0000000000 : Word).extractLsb' 39 9 = 510
    decide
  -- the two pages are behind the last entry of the root
  have ho : ∀ H : Idx → Prop, Owns H 0 ∅ (emptyVmm file) := fun H =>
    .of_blank_root (fun i _ => hblank i) hzero (Set.empty_subset _) (Set.notMem_empty _)
  have hpages : ∀ k < (numPages 0xFFFFFF8000000000 0x2000).toNat,
      pml4Idx (nthPage (pageStart 0xFFFFFF8000000000) k) = 511 := by decide
  have hfrom := mapPages_eq h
  have hk := mapPagesFrom_keeps (ho (· = 511)) hpages hfrom
  have hku := mapPagesFrom_keeps (ho upperHalf) (fun k hk => by
    rw [hpages k hk]; unfold upperHalf; decide) hfrom
  have hp := mapPagesFrom_spec (ho anyHead).tables (fun _ _ => trivial) hfrom
  refine ⟨?_, fun i _ hlt => ?_, ?_, ?_⟩
  · rw [hk.same.kernelStart, hstart]
    decide
  · rw [hk.same.kernelStart, hstart] at hlt
    rw [hk.same.kernelPml4]
    show child (s.mem 0 i) = none
    rw [hk.root i (by rintro rfl; exact absurd hlt (by decide))]
    exact hblank i
  · rw [hk.same.kernelPml4]
    exact hku.owns.tree
  · rw [hk.same.kernelPml4]
    show walk s.mem 0 _ = none
    rw [hp.other _ trivial (by rintro ⟨k, hk, heq⟩; revert k; decide), walk_eq_find]
    by_contra hne
    obtain ⟨e, he⟩ := ne_none_iff_exists'.mp hne
    obtain ⟨f, -, ht⟩ := child_of_find he
    cases (table_of_blank (fun i _ => hblank i) ht).1

/-- A process that has not loaded anything. -/
def firstProcess : Process := { Sched.freshProcess 1 with pml4 := none }

/-- The file is loaded as the first program of a process. -/
def execFile (file : List Word) : Option (Vmm FramePool × Process × Vmm FramePool) := do
  let s ← fileVmm file
  let (p, s') ← s.execElf64 0 0 0xFFFFFF8000000000 [] [] firstProcess
  return (s, p, s')

theorem execFile_eq_some {file : List Word} {s s' : Vmm FramePool} {p : Process}
    (h : execFile file = some (s, p, s')) : fileVmm file = some s ∧
      s.execElf64 0 0 0xFFFFFF8000000000 [] [] firstProcess = some (p, s') := by
  obtain ⟨s1, hs, h⟩ := of_bind h
  obtain ⟨⟨p1, s2⟩, hp, h⟩ := of_bind h
  cases h
  exact ⟨hs, hp⟩

/-- A segment at the kernel's second page replaces that page, in the tables that all roots share. -/
theorem execFile_replaces_kernelPage : ∃ s p s', fileVmm (elfWords 0xFFFFFF8000001000) = some s ∧
    KernelHalf s ∧ Replaceable firstProcess.pml4 s ∧
    s.execElf64 0 0 0xFFFFFF8000000000 [] [] firstProcess = some (p, s') ∧
    ∀ q, p.pml4 = some q → ¬ SameKernelHalf q s s' := by
  have hrun : (execFile (elfWords 0xFFFFFF8000001000)).map (fun r =>
      (r.1.kernelPml4, walk r.2.2.mem 0 0xFFFFFF8000001000 == walk r.1.mem 0 0xFFFFFF8000001000)) =
      some (0, false) := by decide +kernel
  obtain ⟨⟨s, p, s'⟩, hexec, heq⟩ := map_eq_some_iff.mp hrun
  obtain ⟨hroot, hne⟩ := Prod.mk.inj heq
  obtain ⟨hfile, hp⟩ := execFile_eq_some hexec
  refine ⟨s, p, s', hfile, fileVmm_kernelHalf hfile, by rintro r ⟨⟩, hp, fun q _ hsame => ?_⟩
  have hpage := hsame.pages 0xFFFFFF8000001000 (by unfold upperHalf; decide)
  rw [show s.kernelPml4 = 0 from hroot] at hpage
  exact beq_eq_false_iff_ne.mp hne hpage

theorem execFile_sameKernelHalf : ∃ s p s' q, fileVmm (elfWords 0x400000) = some s ∧
    s.execElf64 0 0 0xFFFFFF8000000000 [] [] firstProcess = some (p, s') ∧ p.pml4 = some q ∧
    SameKernelHalf q s s' := by
  have hrun : (execFile (elfWords 0x400000)).map (fun r =>
      (Elf.parseFile (fun v => r.1.loadByte 0 v) 0xFFFFFF8000000000).map (fun file =>
        file.programHeaders.map Elf64ProgramHeader.pVaddr)) = some (some [0x400000]) := by
    decide +kernel
  obtain ⟨⟨s, p, s'⟩, hexec, heq⟩ := map_eq_some_iff.mp hrun
  obtain ⟨file, hparse, hvaddr⟩ := map_eq_some_iff.mp heq
  obtain ⟨hfile, hp⟩ := execFile_eq_some hexec
  obtain ⟨q, hq, hiff⟩ := execElf64_sameKernelHalf_iff (fileVmm_kernelHalf hfile)
    (by rintro r ⟨⟩) hparse hp
  refine ⟨s, p, s', q, hfile, hp, hq, hiff.mpr (fun header hm => ?_)⟩
  have hmem := mem_map_of_mem (f := Elf64ProgramHeader.pVaddr) hm
  rw [hvaddr, mem_singleton] at hmem
  rw [hmem]
  decide

end Vmm

end Hltos
