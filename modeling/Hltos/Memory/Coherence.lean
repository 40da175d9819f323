import Hltos.Memory.Roots

/-!
# The kernel's half of every address space

A user root gets the entries of the kernel's half when it is created, and never again. `init_kheap`
has made the entry of the kernel heap by then, and the heap takes 2^27 pages to leave it: until then
all that changes in the kernel's half is below entries that every root has.
-/

namespace Hltos

open Lib.Radix Lib.Transition FrameAllocator Pte BitVec List Option Set

namespace Vmm

variable {σ : Type} [FrameAllocator σ] {s s' : Vmm σ} {K : Set Frame} {r : Frame} {heap : Heap}
  {n : Nat} {i k : Idx}

/-! ## The entry of the heap -/

/-- The entry of a root that the kernel heap starts in. -/
def heapEntry (s : Vmm σ) : Idx := s.kernelStart + 1

/-- `init_kheap` makes the tables at the start of the heap, and maps nothing. -/
theorem initKheap_spec (ho : Owns s.heapHead s.kernelPml4 K s) (h : s.initKheap = some s') :
    ∃ s1, Keeps s.heapHead s.kernelPml4 K s s1 ∧
      s' = { s1 with kheap := ⟨s.kernelStart.setWidth 64 + 1, 0, 0, 0⟩ } ∧
      s.heapEntry.toNat = s.kernelStart.toNat + 1 ∧ s1.HasEntry s.heapEntry ∧
      ∀ v, s.heapHead (pml4Idx v) → walk s1.mem s.kernelPml4 v = walk s.mem s.kernelPml4 v := by
  obtain ⟨i4, h4, h⟩ := of_bind h
  obtain ⟨i3, -, h⟩ := of_bind h
  obtain ⟨i2, -, h⟩ := of_bind h
  obtain ⟨⟨pt, s1⟩, hens, h⟩ := of_bind h
  cases h
  obtain ⟨hlt, hi4⟩ := toIdx_eq_some h4
  have hsum : (s.kernelStart.setWidth 64 + 1 : Word).toNat = s.kernelStart.toNat + 1 := by
    have hk := s.kernelStart.isLt
    rw [toNat_add, toNat_setWidth, show (1 : Word).toNat = 1 from rfl]
    omega
  have hentry : s.heapEntry.toNat = s.kernelStart.toNat + 1 := by
    show (s.kernelStart + 1).toNat = _
    rw [toNat_add, show (1 : Idx).toNat = 1 from rfl]
    change (s.kernelStart.setWidth 64 + 1 : Word).toNat < 512 at hlt
    omega
  have heq : i4 = s.heapEntry := by
    apply eq_of_toNat_eq
    rw [hi4, hentry]
    exact hsum
  have hhead : s.heapHead i4 := by
    show s.kernelStart < i4
    rw [lt_def, heq, hentry]
    omega
  obtain ⟨hg, ht⟩ := ensureTables_spec ho.tables (by simp [mem_below, hhead]) hens
  have hkeeps := ho.grown hg
  refine ⟨s1, hkeeps, rfl, hentry, fun hnone => ?_, fun v hv => hg.walk hv⟩
  -- the table below the entry is on the path to the one that was made
  rw [← heq, hkeeps.same.kernelPml4] at hnone
  simp [table, hnone] at ht

/-- The cursor is in the entry that the number of its page says. -/
theorem CursorAbove.pml4Idx_eq (h : CursorAbove k heap) (hin : InTables heap)
    (hge : i.toNat * 2 ^ 27 ≤ pageNumber heap) (hlt : pageNumber heap < (i.toNat + 1) * 2 ^ 27) :
    pml4Idx (nextHeapVirtPage heap) = i := by
  have hpath := path_nextHeapVirtPage hin
  simp only [path, List.cons.injEq, and_true] at hpath
  apply eq_of_toNat_eq
  rw [hpath.2.2.2, toNat_setWidth, Nat.mod_eq_of_lt hin.pml4]
  obtain ⟨-, -, h3, h2, h1⟩ := h
  unfold pageNumber at hge hlt
  omega

theorem CursorAbove.cursorIn_entry (h : CursorAbove k heap)
    (hge : i.toNat * 2 ^ 27 ≤ pageNumber heap)
    (hle : pageNumber heap + n ≤ (i.toNat + 1) * 2 ^ 27) : CursorIn (· = i) n heap := by
  induction n generalizing heap with
  | zero => trivial
  | succ n ih =>
    intro hin
    have hnext := pageNumber_advanceHeap hin
    exact ⟨h.pml4Idx_eq hin hge (by omega), ih (h.advance hin) (by omega) (by omega)⟩

/-! ## Where the cursor goes -/

theorem allocKernel_pageNumber {bytes addr : Word} (ho : Owns s.heapHead s.kernelPml4 K s)
    (hc : CursorAbove s.kernelStart s.kheap) (h : s.allocKernel bytes = some (addr, s')) :
    pageNumber s'.kheap = pageNumber s.kheap + (heapPages bytes).toNat := by
  obtain ⟨⟨a, heap', s1⟩, hm, h⟩ := of_bind h
  cases h
  obtain ⟨first, s2, hfrom, -, -, -⟩ := mapHeapPages_eq hm
  obtain ⟨-, rfl, hin, -⟩ := mapHeapPagesFrom_mapped ho hc.cursorIn hfrom
  exact pageNumber_iterate (fun k hk => (hin k hk).1)

/-- The kernel heap has used `m` pages of its entry, which is present. -/
structure HeapUsed (m : Nat) (s : Vmm σ) : Prop where
  entry : s.HasEntry s.heapEntry
  succ : s.heapEntry.toNat = s.kernelStart.toNat + 1
  used : pageNumber s.kheap = s.heapEntry.toNat * 2 ^ 27 + m

namespace HeapUsed

variable {m : Nat}

omit [FrameAllocator σ] in
theorem of_kept (h : HeapUsed m s) (hs : Owned.SameRoots s s')
    (hentry : s'.mem s.kernelPml4 s.heapEntry = s.mem s.kernelPml4 s.heapEntry)
    (hused : pageNumber s'.kheap = pageNumber s.kheap + n) : HeapUsed (m + n) s' := by
  obtain ⟨hp, hh⟩ := hs
  have hstart : s'.kernelStart = s.kernelStart := by simp only [kernelStart, hh]
  have heq : s'.heapEntry = s.heapEntry := by simp only [heapEntry, hstart]
  refine ⟨?_, ?_, ?_⟩
  · rw [HasEntry, heq, hp, hentry]
    exact h.entry
  · rw [heq, hstart]
    exact h.succ
  · rw [hused, heq, h.used]
    omega

omit [FrameAllocator σ] in
/-- What is mapped next is below the entry. -/
theorem cursorIn (h : HeapUsed m s) (hc : CursorAbove s.kernelStart s.kheap)
    (hle : m + n ≤ 2 ^ 27) : CursorIn s.HasEntry n s.kheap := by
  have hin := hc.cursorIn_entry (i := s.heapEntry) (n := n) (by rw [h.used]; omega)
    (by rw [h.used]; omega)
  refine hin.mono (fun i hi => ?_)
  rw [hi]
  exact h.entry

end HeapUsed

end Vmm

/-! ## The system -/

/-- The address spaces, the pages that `alloc_kernel_page` has returned and that have not been
freed, and the number of pages of the kernel heap that have been mapped since `vmm::init`. -/
structure VmmRun (σ : Type) where
  spaces : Spaces σ
  pages : List Word
  mapped : Nat

inductive VmmOp where
  | mem (op : MemOp)
  | allocKernelPage
  | freeKernelPage (virtAddr : Word)

/-- The pages of the kernel heap that an operation maps. -/
def VmmOp.kernelPages : VmmOp → Nat
  | mem (.allocKernel bytes) => (Vmm.heapPages bytes).toNat
  | allocKernelPage => 1
  | _ => 0

namespace VmmRun

open Vmm Spaces

variable {σ : Type} [FrameAllocator σ] {t t' : VmmRun σ} {s' : Vmm σ} {v : Word}

def apply : VmmOp → VmmRun σ → Option (VmmRun σ)
  | .mem op, t => do
    return { t with spaces := ← Spaces.next op t.spaces }
  | .allocKernelPage, t => do
    let (addr, s) ← t.spaces.vmm.allocKernelPage
    return { t with spaces.vmm := s, pages := addr :: t.pages }
  | .freeKernelPage virtAddr, t => do
    let s ← t.spaces.vmm.freeKernelPage virtAddr
    return { t with spaces.vmm := s, pages := t.pages.filter (· ≠ virtAddr) }

def next (op : VmmOp) (t : VmmRun σ) : Option (VmmRun σ) :=
  (apply op t).map (fun t => { t with mapped := t.mapped + op.kernelPages })

/-- `free_kernel_page` is called with null or a page of `alloc_kernel_page`. -/
def Legal : VmmOp → VmmRun σ → Prop
  | .mem op, t => Spaces.Legal op t.spaces
  | .allocKernelPage, _ => True
  | .freeKernelPage virtAddr, t => virtAddr = 0 ∨ virtAddr ∈ t.pages

instance : (op : VmmOp) → (t : VmmRun σ) → Decidable (Legal op t)
  | .mem op, t => inferInstanceAs (Decidable (Spaces.Legal op t.spaces))
  | .allocKernelPage, _ => .isTrue trivial
  | .freeKernelPage _, _ => inferInstanceAs (Decidable (_ ∨ _))

/-- What the bootloader leaves in CR3: the direct map begins in the upper half and is there, and
what is behind it is a tree of allocated frames. -/
structure BootRoot (s : Vmm σ) : Prop where
  half : 256 ≤ s.kernelStart.toNat
  direct : s.HasEntry s.kernelStart
  tree : Tree (below s.heapHead 4) s.kernelPml4 s

/-- The runs start after `vmm::init`. -/
def system (σ : Type) [FrameAllocator σ] : System (VmmRun σ) VmmOp where
  init t := ∃ s0 s : Vmm σ, BootRoot s0 ∧ s0.initKheap = some s ∧ t = ⟨⟨s, [], []⟩, [], 0⟩
  next := next

/-! ## The invariant -/

/-- The roots agree in the kernel's half, the kernel heap is in its first entry, and its pages are
in one block at most. -/
structure Inv (t : VmmRun σ) : Prop where
  spaces : Spaces.Inv t.spaces
  rooted : Rooted t.spaces.live t.spaces.vmm
  heap : HeapUsed t.mapped t.spaces.vmm
  page : ∀ v ∈ t.pages, t.spaces.vmm.heapHead (pml4Idx (pageAlign v)) ∧
    (vpn (pageAlign v)).toNat < pageNumber t.spaces.vmm.kheap
  apart : ∀ v ∈ t.pages, ∀ b ∈ t.spaces.blocks, DisjointBlocks (v, 1) b

theorem disjointBlocks_page {b : Word × Nat} : DisjointBlocks (v, 1) b ↔
    ∀ k < b.2, vpn (pageAlign v) ≠ vpn (nthPage (pageAlign b.1) k) := by
  constructor
  · intro h k hk
    have hne := h 0 Nat.one_pos k hk
    rwa [nthPage_zero] at hne
  · intro h j hj k hk
    rw [show j = 0 from Nat.lt_one_iff.mp hj, nthPage_zero]
    exact h k hk

namespace Inv

theorem of_init (h : (system σ).init t) : Inv t := by
  obtain ⟨s0, s, hboot, hrun, rfl⟩ := h
  have ho : Vmm.Owns s0.heapHead s0.kernelPml4 ∅ s0 :=
    ⟨hboot.tree, empty_subset _, fun _ hf => absurd hf (notMem_empty _)⟩
  obtain ⟨s1, hk, rfl, hsucc, hentry, -⟩ := initKheap_spec ho hrun
  have hstart : Vmm.kernelStart { s1 with kheap := ⟨s0.kernelStart.setWidth 64 + 1, 0, 0, 0⟩ } =
      s0.kernelStart := hk.same.kernelStart
  have hidx : (s0.kernelStart.setWidth 64 + 1 : Word).toNat = s0.heapEntry.toNat := by
    have hlt := s0.kernelStart.isLt
    rw [hsucc, toNat_add, toNat_setWidth, show (1 : Word).toNat = 1 from rfl]
    omega
  have hentryLt := s0.heapEntry.isLt
  have hhead : s1.heapHead = s0.heapHead := by unfold heapHead; rw [hk.same.kernelStart]
  have hspaces : Spaces.Inv (⟨{ s1 with kheap := ⟨s0.kernelStart.setWidth 64 + 1, 0, 0, 0⟩ },
    [], []⟩ :
      Spaces σ) := by
    apply Spaces.Inv.of_booted _ rfl rfl
    refine ⟨by rw [hstart]; exact hboot.half, ?_, ?_⟩
    · have htree := hk.owns.tree
      rw [← hhead, ← hk.same.kernelPml4] at htree
      exact ⟨htree.separated, htree.allocated⟩
    · rw [hstart]
      have hzero : (0 : Word).toNat < 512 := by decide
      exact ⟨by rw [hidx, hsucc]; omega, by rw [hidx]; omega, hzero, hzero, hzero⟩
  refine ⟨hspaces, ⟨hspaces, ?_, by simp⟩, ?_, by simp, by simp⟩
  · rw [HasEntry, hstart]
    rw [hk.same.kernelPml4, hk.root _ (BitVec.lt_irrefl _)]
    exact hboot.direct
  · have heq : Vmm.heapEntry { s1 with kheap := ⟨s0.kernelStart.setWidth 64 + 1, 0, 0, 0⟩ } =
        s0.heapEntry := by rw [heapEntry, hstart]; rfl
    refine ⟨?_, ?_, ?_⟩
    · rw [heq]
      exact hentry
    · rw [heq, hstart, hsucc]
    · rw [heq]
      simp only [pageNumber, hidx, show (0 : Word).toNat = 0 from rfl]
      omega

/-! ### One operation -/

/-- What an operation that maps `n` pages of the kernel heap does to the kernel's root, to the
cursor and to the blocks: a new block is behind the cursor. -/
structure Steps (n : Nat) (u u' : Spaces σ) : Prop where
  spaces : Spaces.Inv u'
  rooted : Rooted u'.live u'.vmm
  roots : Owned.SameRoots u.vmm u'.vmm
  entries : ∀ i, u.vmm.HasEntry i → u'.vmm.mem u.vmm.kernelPml4 i = u.vmm.mem u.vmm.kernelPml4 i
  cursor : pageNumber u'.vmm.kheap = pageNumber u.vmm.kheap + n
  blocks : ∀ b ∈ u'.blocks, b ∈ u.blocks ∨
    ∀ k < b.2, pageNumber u.vmm.kheap ≤ (vpn (nthPage (pageAlign b.1) k)).toNat

variable {u : Spaces σ} {op : MemOp} {addr virtAddr : Word}

theorem step_of {n : Nat} (h : Inv t) (hu : Steps n t.spaces u) :
    Inv ⟨u, t.pages, t.mapped + n⟩ := by
  refine ⟨hu.spaces, hu.rooted,
    h.heap.of_kept hu.roots (hu.entries _ h.heap.entry) hu.cursor, ?_, ?_⟩
  · intro v hv
    obtain ⟨hhead, hbefore⟩ := h.page v hv
    have hheads : u.vmm.heapHead = t.spaces.vmm.heapHead := hu.roots.heads .heap
    refine ⟨?_, ?_⟩
    · rw [hheads]
      exact hhead
    · rw [hu.cursor]
      omega
  · intro v hv b hb
    rcases hu.blocks b hb with hold | hnew
    · exact h.apart v hv b hold
    · rw [disjointBlocks_page]
      intro k hk heq
      have hbefore := (h.page v hv).2
      have hbehind := hnew k hk
      rw [heq] at hbefore
      omega

/-- An operation that maps nothing in the kernel heap and leaves the kernel's root as it is. -/
theorem steps_same (hspaces : Spaces.Inv u) (hrooted : Rooted u.live u.vmm)
    (hsame : Same t.spaces.vmm u.vmm)
    (hroot : u.vmm.mem t.spaces.vmm.kernelPml4 = t.spaces.vmm.mem t.spaces.vmm.kernelPml4)
    (hblocks : ∀ b ∈ u.blocks, b ∈ t.spaces.blocks) : Steps 0 t.spaces u where
  spaces := hspaces
  rooted := hrooted
  roots := ⟨hsame.kernelPml4, hsame.hhdmOffset⟩
  entries i _ := by rw [hroot]
  cursor := by rw [hsame.kheap, Nat.add_zero]
  blocks b hb := .inl (hblocks b hb)

section

variable (h : Inv t)

include h

theorem steps_user {pml4 : Frame} (htarget : op.target = some pml4)
    (hlegal : Spaces.Legal op t.spaces)
    (hnext : Spaces.next op t.spaces = some u) : Steps 0 t.spaces u := by
  obtain ⟨s', rfl, hl, hk⟩ := h.spaces.keeps_user htarget hlegal hnext
  apply steps_same (h.spaces.user_step hl hk) (h.rooted.user_step hl hk) hk.same _ (fun _ hb => hb)
  have hne : t.spaces.vmm.kernelPml4 ≠ pml4 := fun heq => h.rooted.kernelPml4_notMem (heq ▸ hl)
  exact hk.mem _ (h.rooted.root_kept hl (.inl rfl) hne)

theorem steps_allocKernel {bytes : Word} (hle : t.mapped + (heapPages bytes).toNat ≤ 2 ^ 27)
    (hrun : t.spaces.vmm.allocKernel bytes = some (addr, s')) :
    Steps (heapPages bytes).toNat t.spaces { t.spaces with
      vmm := s', blocks := (addr, (heapPages bytes).toNat) :: t.spaces.blocks } := by
  have ho := h.spaces.owns_heap
  have ha := allocKernel_spec ho h.spaces.cursor hrun
  have hstays := h.heap.cursorIn h.spaces.cursor hle
  refine ⟨h.spaces.allocKernel hrun, (h.rooted.allocKernel (.inr hstays) hrun).1, ha.roots, ?_,
    allocKernel_pageNumber ho h.spaces.cursor hrun, ?_⟩
  · intro i hi
    obtain ⟨⟨a, heap, s1⟩, hm, hrun⟩ := of_bind hrun
    cases hrun
    have hroot : s1.mem _ i = _ := mapHeapPages_root ho h.spaces.cursor.cursorIn hm (fun _ => hi)
    exact hroot
  · intro b hb
    rcases mem_cons.mp hb with rfl | hb
    · exact .inr ha.behind
    · exact .inl hb

theorem steps_freeKernel (hlegal : virtAddr = 0 ∨ virtAddr ∈ t.spaces.blocks.map Prod.fst)
    (hrun : t.spaces.vmm.freeKernel virtAddr = some s') : Steps 0 t.spaces
      { t.spaces with vmm := s', blocks := t.spaces.blocks.filter (·.1 ≠ virtAddr) } := by
  have hblock : virtAddr ≠ 0 → Rooted.HeapBlock virtAddr t.spaces.vmm := by
    intro hne n hn k hk
    obtain ⟨b, hb, rfl⟩ := mem_map.mp (hlegal.resolve_left hne)
    obtain ⟨n', hload, hnum⟩ := (h.spaces.block b hb).loadWord
    rw [show n = n' from Option.some.inj (hn.symm.trans hload), hnum] at hk
    exact (h.spaces.block b hb).pages k hk
  obtain ⟨hrooted, hsame⟩ := h.rooted.freeKernel hblock hrun
  apply steps_same (h.spaces.freeKernel hlegal hrun) hrooted hsame _
    (fun b hb => (mem_filter.mp hb).1)
  rcases freeKernel_cases hrun with rfl | ⟨hne, n, hload, hrun⟩
  · rfl
  · funext i
    exact unmapMemAt_root h.spaces.owns_heap (hblock hne n hload) hrun

/-- Every operation on the address spaces, with the kernel pages that it may map. -/
theorem steps_mem (hlegal : Spaces.Legal op t.spaces)
    (hnext : Spaces.next op t.spaces = some u)
    (hle : t.mapped + (VmmOp.mem op).kernelPages ≤ 2 ^ 27) :
    Steps (VmmOp.mem op).kernelPages t.spaces u := by
  have hspaces := h.spaces.step hlegal hnext
  have hroot := h.rooted.root_allocated (.inl rfl)
  cases op with
  | createUserPml4 =>
    obtain ⟨⟨pml4, s'⟩, hrun, hnext⟩ := of_bind hnext
    cases hnext
    have hnew := createUserPml4_spec hroot hrun
    exact steps_same hspaces (h.rooted.createUserPml4 hrun).1 hnew.same (hnew.mem _ hroot)
      (fun _ hb => hb)
  | cloneUserPml4 pml4 =>
    obtain ⟨⟨newPml4, s'⟩, hrun, hnext⟩ := of_bind hnext
    cases hnext
    have hc := (cloneUserPml4_spec (h.spaces.owned.subset_allocated (user_mem hlegal))).1 _ _ hrun
    exact steps_same hspaces (h.rooted.cloneUserPml4 hlegal hrun).1 hc.same (hc.source _ hroot)
      (fun _ hb => hb)
  | freeUserPml4 pml4 =>
    cases hnext
    obtain ⟨hrooted, hsame⟩ := h.rooted.freeUserPml4 hlegal
    have hne : t.spaces.vmm.kernelPml4 ≠ pml4 := fun heq =>
      h.rooted.kernelPml4_notMem (heq ▸ hlegal)
    have hkept := (freeUserPml4_spec hne.symm (h.spaces.owns_user hlegal)).1
    exact steps_same hspaces hrooted hsame (hkept _ (h.rooted.root_kept hlegal (.inl rfl) hne)).1
      (fun _ hb => hb)
  | mapPages | unmapMemAt | mapHeapPages | createUserHeap | cloneUserHeap =>
    exact h.steps_user rfl hlegal hnext
  | allocKernel bytes =>
    obtain ⟨⟨addr, s'⟩, hrun, hnext⟩ := of_bind hnext
    cases hnext
    exact h.steps_allocKernel hle hrun
  | freeKernel virtAddr =>
    obtain ⟨s', hrun, hnext⟩ := of_bind hnext
    cases hnext
    exact h.steps_freeKernel hlegal hrun

/-- A page of the kernel heap that is in no block does not touch the blocks. -/
theorem spaces_of_untouched (hrooted : Rooted t.spaces.live s')
    (hroots : Owned.SameRoots t.spaces.vmm s')
    (hcursor : pageNumber t.spaces.vmm.kheap ≤ pageNumber s'.kheap) (hother : ∀ b ∈ t.spaces.blocks,
      Untouched t.spaces.vmm.kernelPml4 t.spaces.vmm s' (path (pageAlign b.1))) :
    Spaces.Inv { t.spaces with vmm := s' } :=
  ⟨hrooted.half, hrooted.cursor, hrooted.owned, hrooted.nodup,
    fun b hb => (h.spaces.block b hb).of_untouched hroots hcursor (hother b hb), h.spaces.disjoint⟩

theorem allocKernelPage (hle : t.mapped + 1 ≤ 2 ^ 27)
    (hrun : t.spaces.vmm.allocKernelPage = some (addr, s')) :
    Inv ⟨{ t.spaces with vmm := s' }, addr :: t.pages, t.mapped + 1⟩ := by
  have ho := h.spaces.owns_heap
  have hstays := h.heap.cursorIn h.spaces.cursor hle
  have hrooted := (h.rooted.allocKernelPage (.inr hstays) hrun).1
  obtain ⟨hin, haddr, halign, s1, hm, rfl⟩ := allocKernelPage_spec ho h.spaces.cursor.cursorIn hrun
  have hk := hm.keeps ho
  have hnum : (vpn (pageAlign addr)).toNat = pageNumber t.spaces.vmm.kheap := by
    rw [pageAlign_of_aligned halign, haddr, toNat_vpn_nextHeapVirtPage hin]
  have hnext := pageNumber_advanceHeap hin
  have hroots : Owned.SameRoots t.spaces.vmm
      { s1 with kheap := advanceHeap t.spaces.vmm.kheap } :=
        ⟨hk.same.kernelPml4, hk.same.hhdmOffset⟩
  -- the blocks are before the cursor
  have hapart : ∀ b ∈ t.spaces.blocks, DisjointBlocks (addr, 1) b := by
    intro b hb
    rw [disjointBlocks_page]
    intro k hkn heq
    have hbefore := (h.spaces.block b hb).before k hkn
    rw [← heq, hnum] at hbefore
    omega
  have hspaces := h.spaces_of_untouched hrooted hroots (by rw [hnext]; omega) (fun b hb => by
    have hblock := h.spaces.block b hb
    have hu := hm.untouched ho (isPage_path hblock.head) (fun v hv heq => by
      rw [mem_singleton.mp hv, ← pageAlign_of_aligned halign] at heq
      have hne := disjointBlocks_page.mp (hapart b hb) 0 hblock.pos
      rw [nthPage_zero] at hne
      exact hne (path_eq_iff.mp heq).symm)
    exact ⟨hu.find, hu.mem⟩)
  have hinv := h.step_of (n := 1) ⟨hspaces, hrooted, hroots, fun i hi => hm.root hi, hnext,
    fun b hb => .inl hb⟩
  refine ⟨hinv.spaces, hinv.rooted, hinv.heap, ?_, ?_⟩
  · intro v hv
    rcases mem_cons.mp hv with rfl | hv
    · refine ⟨?_, ?_⟩
      · rw [pageAlign_of_aligned halign, haddr]
        rw [show Vmm.heapHead _ = t.spaces.vmm.heapHead from hroots.heads .heap]
        exact h.spaces.cursor.head hin
      · show _ < pageNumber (advanceHeap t.spaces.vmm.kheap)
        omega
    · exact hinv.page v hv
  · intro v hv b hb
    rcases mem_cons.mp hv with rfl | hv
    · exact hapart b hb
    · exact hinv.apart v hv b hb

/-- A page of `alloc_kernel_page` is freed; the blocks stay mapped. -/
theorem freeKernelPage (hlegal : virtAddr = 0 ∨ virtAddr ∈ t.pages)
    (hrun : t.spaces.vmm.freeKernelPage virtAddr = some s') :
    Inv ⟨{ t.spaces with vmm := s' }, t.pages.filter (· ≠ virtAddr), t.mapped⟩ := by
  have hpage : virtAddr ≠ 0 → t.spaces.vmm.heapHead (pml4Idx (pageAlign virtAddr)) :=
    fun hne => (h.page _ (hlegal.resolve_left hne)).1
  obtain ⟨hrooted, hsame⟩ := h.rooted.freeKernelPage hpage hrun
  have hsteps : Steps 0 t.spaces { t.spaces with vmm := s' } := by
    rcases freeKernelPage_cases hrun with rfl | ⟨hne, hrun⟩
    · exact steps_same h.spaces h.rooted (.refl _) rfl (fun _ hb => hb)
    · have hpages := forall_page.mpr (hpage hne)
      have ho := h.spaces.owns_heap
      refine steps_same ?_ hrooted hsame (funext fun i => unmapMemAt_root ho hpages hrun)
        (fun _ hb => hb)
      apply h.spaces_of_untouched hrooted ⟨hsame.kernelPml4, hsame.hhdmOffset⟩ (by rw [hsame.kheap])
      intro b hb
      have hblock := h.spaces.block b hb
      apply unmapMemAt_untouched ho hpages hrun (isPage_path hblock.head)
      intro k hk heq
      have hdis := h.apart _ (hlegal.resolve_left hne) b hb k hk 0 hblock.pos
      rw [nthPage_zero] at hdis
      exact hdis (path_eq_iff.mp heq).symm
  have hinv := h.step_of hsteps
  exact ⟨hinv.spaces, hinv.rooted, hinv.heap, fun v hv => hinv.page v (mem_filter.mp hv).1,
    fun v hv => hinv.apart v (mem_filter.mp hv).1⟩

theorem step {op : VmmOp} (hlegal : Legal op t) (hnext : next op t = some t')
    (hle : t'.mapped ≤ 2 ^ 27) : Inv t' := by
  obtain ⟨t1, happly, rfl⟩ := map_eq_some_iff.mp hnext
  cases op with
  | mem op =>
    obtain ⟨u, hrun, happly⟩ := of_bind happly
    cases happly
    exact h.step_of (h.steps_mem hlegal hrun hle)
  | allocKernelPage =>
    obtain ⟨⟨addr, s'⟩, hrun, happly⟩ := of_bind happly
    cases happly
    exact h.allocKernelPage hle hrun
  | freeKernelPage virtAddr =>
    obtain ⟨s', hrun, happly⟩ := of_bind happly
    cases happly
    exact h.freeKernelPage hlegal hrun

end

end Inv

/-! ## Coherence -/

theorem mapped_mono {op : VmmOp} (h : next op t = some t') : t.mapped ≤ t'.mapped := by
  obtain ⟨t1, happly, rfl⟩ := map_eq_some_iff.mp h
  have heq : t1.mapped = t.mapped := by
    cases op <;> obtain ⟨_, -, happly⟩ := of_bind happly <;> cases happly <;> rfl
  show t.mapped ≤ t1.mapped + _
  omega

/-- A walk reads the root in one entry only. -/
theorem walk_congr_root {m : Memory} {q r : Frame}
    (h : m q (pml4Idx v) = m r (pml4Idx v)) : walk m q v = walk m r v := by
  simp only [walk, findPte, h]

/-- **The kernel's half is coherent**: as long as fewer than 2^27 pages of the kernel heap have been
mapped, every address of the kernel's half has the same entry in every address space. -/
theorem reachable_coherent {t : VmmRun σ} (h : (system σ).ReachableUnder Legal t)
    (hmapped : t.mapped < 2 ^ 27) : ∀ pml4 ∈ t.spaces.live, ∀ v : Word,
      t.spaces.vmm.kernelStart ≤ pml4Idx v →
      walk t.spaces.vmm.mem pml4 v = walk t.spaces.vmm.mem t.spaces.vmm.kernelPml4 v := by
  have hinv : t.mapped ≤ 2 ^ 27 → Inv t := by
    refine System.ReachableUnder.invariant (I := fun t => t.mapped ≤ 2 ^ 27 → Inv t) ?_ ?_ h
    · exact fun _ hinit _ => .of_init hinit
    · intro t t' op ih hlegal hnext hle
      exact (ih ((mapped_mono hnext).trans hle)).step hlegal hnext hle
  intro pml4 hl v hv
  exact walk_congr_root ((hinv hmapped.le).rooted.shared pml4 hl _ hv)

/-- A root in frame 0 with the direct map, and nothing behind it. -/
def bootRoot : Vmm FramePool := bootVmm.writeEntry 0 510 1

theorem bootRoot_booted : BootRoot bootRoot where
  half := by decide
  direct := by decide
  tree := by
    have hblank : ∀ i : Idx, 510 < i → child (bootRoot.mem 0 i) = none := by
      intro i hi
      have hne : ¬ (0 = (0 : Frame) ∧ i = 510) := by
        rintro ⟨-, rfl⟩
        exact absurd hi (by decide)
      rw [show bootRoot.mem 0 i = bootVmm.mem 0 i from if_neg hne,
        show bootVmm.mem 0 i = 0 from rfl, child_zero]
    exact (Owns.of_blank_root hblank (by decide : (0 : Frame) ∉ bootRoot.pmm.free)
      (empty_subset _) (notMem_empty _)).tree

/-- An address space is created before the heap grows and cloned after, and a page and a block of
the kernel heap come and go. -/
def vmmOps : List VmmOp :=
  [.mem .createUserPml4, .allocKernelPage, .mem (.mapPages 4 0x400FFF 2 (pageUser ||| pageWrite)),
   .mem (.allocKernel 1), .mem (.cloneUserPml4 4), .freeKernelPage 0xFFFFFF8000000000,
     .allocKernelPage,
   .mem (.freeKernel 0xFFFFFF8000001008), .mem .createUserPml4, .mem (.freeUserPml4 4)]

theorem vmmOps_coherent : ∃ s t, bootRoot.initKheap = some s ∧
    (system FramePool).execUnder Legal vmmOps ⟨⟨s, [], []⟩, [], 0⟩ = some t ∧ t.mapped = 3 ∧
    t.spaces.live.length = 2 ∧ ∀ pml4 ∈ t.spaces.live, ∀ v : Word,
      t.spaces.vmm.kernelStart ≤ pml4Idx v →
        walk t.spaces.vmm.mem pml4 v = walk t.spaces.vmm.mem t.spaces.vmm.kernelPml4 v := by
  have hrun : (bootRoot.initKheap.bind (fun s =>
      (system FramePool).execUnder Legal vmmOps ⟨⟨s, [], []⟩, [], 0⟩)).map
        (fun t => (t.mapped, t.spaces.live.length)) = some (3, 2) := by
    decide +kernel
  obtain ⟨t, ht, hobs⟩ := map_eq_some_iff.mp hrun
  obtain ⟨s, hs, ht⟩ := of_bind ht
  obtain ⟨hmapped, hlen⟩ := Prod.mk.inj hobs
  refine ⟨s, t, hs, ht, hmapped, hlen, reachable_coherent ?_ (by rw [hmapped]; decide)⟩
  exact .of_execUnder (.start ⟨bootRoot, s, bootRoot_booted, hs, rfl⟩) ht

end VmmRun

end Hltos
