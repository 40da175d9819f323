import Hltos.Memory.Teardown
import Hltos.Lib.Transition

/-!
# Single ownership of frames

All address spaces at once. An owner is the kernel heap or a live user address space; each owns the
frames of its part of its tables. The operations of the memory manager work on the tables of one
owner, so what they do to that owner (`Keeps`) is all there is to show: the frames of the others are
among those kept, whatever the operation.
-/

namespace Hltos

open Lib.Radix FrameAllocator Pte Option BitVec

namespace Vmm

variable {σ : Type} [FrameAllocator σ] {s s' : Vmm σ} {r f q : Frame} {H : Idx → Prop}
  {K : Set Frame}

/-! ## Owners -/

/-- The entries of the kernel's root behind the direct map, where the kernel heap is. -/
def heapHead (s : Vmm σ) : Idx → Prop := fun i => s.kernelStart < i

inductive Owner where
  | heap
  | user (pml4 : Frame)
deriving DecidableEq

namespace Owner

def root (s : Vmm σ) : Owner → Frame
  | heap => s.kernelPml4
  | user pml4 => pml4

def heads (s : Vmm σ) : Owner → Idx → Prop
  | heap => s.heapHead
  | user _ => s.userHead

/-- The frame at a path of an owner's tables. -/
def frameAt (s : Vmm σ) (o : Owner) (π : List Idx) : Option Frame := table s.mem (o.root s) π

/-- The paths of an owner's tables and pages. -/
def paths (s : Vmm σ) (o : Owner) : Region Idx := below (o.heads s) 4

def frames (s : Vmm σ) (o : Owner) : Set Frame := owned (o.heads s) (o.root s) s

end Owner

/-- The owners in `L` each have a tree of allocated frames, and no frame in common. -/
structure Owned (L : Set Owner) (s : Vmm σ) : Prop where
  tree : ∀ o ∈ L, Tree (o.paths s) (o.root s) s
  disjoint : ∀ o ∈ L, ∀ o' ∈ L, o ≠ o' → ∀ f ∈ o.frames s, f ∉ o'.frames s

namespace Owned

variable {L L' : Set Owner} {o : Owner}

theorem mono (h : Owned L s) (hL : L' ⊆ L) : Owned L' s :=
  ⟨fun o ho => h.tree o (hL ho), fun o ho o' ho' => h.disjoint o (hL ho) o' (hL ho')⟩

theorem subset_allocated (h : Owned L s) (ho : o ∈ L) : o.frames s ⊆ allocated s.pmm :=
  (h.tree o ho).allocated

/-- One owner, and all else that is allocated. -/
theorem owns (h : Owned L s) (ho : o ∈ L) :
    Owns (o.heads s) (o.root s) (allocated s.pmm \ o.frames s) s :=
  ⟨h.tree o ho, fun _ hf => hf.1, fun _ hf => hf.2⟩

/-- The roots and the halves have not changed. -/
def SameRoots (s s' : Vmm σ) : Prop :=
  s'.kernelPml4 = s.kernelPml4 ∧ s'.hhdmOffset = s.hhdmOffset

section

omit [FrameAllocator σ]

theorem SameRoots.root (h : SameRoots s s') (o : Owner) : o.root s' = o.root s := by
  cases o with
  | heap => exact h.1
  | user pml4 => rfl

theorem SameRoots.heads (h : SameRoots s s') (o : Owner) : o.heads s' = o.heads s := by
  have hstart : s'.kernelStart = s.kernelStart := by simp only [kernelStart, h.2]
  cases o with
  | heap => show (fun i => s'.kernelStart < i) = _; rw [hstart]; rfl
  | user pml4 => show (fun i => i < s'.kernelStart) = _; rw [hstart]; rfl

/-- An owner whose frames have not changed owns what it owned. -/
theorem frames_eq (hs : SameRoots s s') (hmem : ∀ f ∈ o.frames s, s'.mem f = s.mem f) :
    o.frames s' = o.frames s := by
  unfold Owner.frames owned
  rw [hs.heads, hs.root]
  exact frames_of_agree hmem

end

/-- The owners within `K` do not notice what happens outside of it. -/
theorem of_kept (h : Owned L s) (hs : SameRoots s s') (hK : ∀ o ∈ L, o.frames s ⊆ K)
    (hmem : ∀ f ∈ K, s'.mem f = s.mem f) (hkept : K ⊆ allocated s'.pmm) : Owned L s' := by
  have hagree : ∀ o ∈ L, ∀ f ∈ o.frames s, s'.mem f = s.mem f :=
    fun o ho f hf => hmem f (hK o ho hf)
  constructor
  · intro o ho
    constructor
    · unfold Owner.paths
      rw [hs.heads, hs.root]
      exact (h.tree o ho).separated.of_agree (hagree o ho)
    · show o.frames s' ⊆ _
      rw [frames_eq hs (hagree o ho)]
      exact (hK o ho).trans hkept
  · intro o ho o' ho' hne
    rw [frames_eq hs (hagree o ho), frames_eq hs (hagree o' ho')]
    exact h.disjoint o ho o' ho' hne

/-- One more owner, in frames that nobody held. -/
theorem insert (h : Owned L s) (hs : SameRoots s s')
    (ho : Owns (o.heads s) (o.root s') K s') (hK : ∀ o ∈ L, o.frames s ⊆ K)
    (hmem : ∀ f ∈ K, s'.mem f = s.mem f) : Owned (insert o L) s' := by
  have hrest := h.of_kept hs hK hmem ho.kept
  have hframes : ∀ o' ∈ L, o'.frames s' ⊆ K := by
    intro o' ho'
    rw [frames_eq hs (fun f hf => hmem f (hK o' ho' hf))]
    exact hK o' ho'
  have hnew : ∀ f ∈ o.frames s', f ∉ K := by
    intro f hf hfK
    refine ho.apart f hfK ?_
    unfold Owner.frames at hf
    rwa [hs.heads] at hf
  constructor
  · rintro o' (rfl | ho')
    · unfold Owner.paths
      rw [hs.heads]
      exact ho.tree
    · exact hrest.tree o' ho'
  · rintro o1 (rfl | h1) o2 (rfl | h2) hne f hf hf'
    · exact hne rfl
    · exact hnew f hf (hframes o2 h2 hf')
    · exact hnew f hf' (hframes o1 h1 hf)
    · exact hrest.disjoint o1 h1 o2 h2 hne f hf hf'

/-- **The frame rule**: an operation on one owner that keeps all else keeps the others. -/
theorem step (h : Owned L s) (ho : o ∈ L) (hs : SameRoots s s')
    (hown : Owns (o.heads s) (o.root s) (allocated s.pmm \ o.frames s) s')
    (hmem : ∀ f ∈ allocated s.pmm \ o.frames s, s'.mem f = s.mem f) : Owned L s' := by
  have hothers : Owned (L \ {o}) s := h.mono (fun _ ho => ho.1)
  have hK : ∀ o' ∈ L \ {o}, o'.frames s ⊆ allocated s.pmm \ o.frames s := by
    intro o' ho' f hf
    exact ⟨h.subset_allocated ho'.1 hf, h.disjoint o' ho'.1 o ho ho'.2 f hf⟩
  apply (hothers.insert hs (o := o) (by rw [hs.root]; exact hown) hK hmem).mono
  intro o' ho'
  by_cases heq : o' = o
  · exact Or.inl heq
  · exact Or.inr ⟨ho', heq⟩

end Owned

/-! ## The kernel heap -/

/-- The cursor of the kernel heap is behind the entry `k` of the root. -/
structure CursorAbove (k : Idx) (heap : Heap) : Prop where
  above : k.toNat < heap.pml4Idx.toNat
  pml4 : heap.pml4Idx.toNat ≤ 512
  pdpt : heap.pdptIdx.toNat < 512
  pd : heap.pdIdx.toNat < 512
  pt : heap.ptIdx.toNat < 512

namespace CursorAbove

variable {k : Idx} {heap : Heap} {n : Nat} (h : CursorAbove k heap)

include h

theorem head (hin : InTables heap) : k < pml4Idx (nextHeapVirtPage heap) := by
  have hpath := path_nextHeapVirtPage hin
  simp only [path, List.cons.injEq, and_true] at hpath
  rw [lt_def, hpath.2.2.2, toNat_setWidth, Nat.mod_eq_of_lt hin.pml4]
  exact h.above

theorem advance (hin : InTables heap) : CursorAbove k (advanceHeap heap) := by
  have hone : ∀ {a : Word}, a.toNat < 512 → (a + 1).toNat = a.toNat + 1 := by
    intro a ha
    rw [toNat_add, show (1 : Word).toNat = 1 from rfl]
    omega
  have hzero : (0 : Word).toNat < 512 := by decide
  obtain ⟨h5, h4, h3, h2, h1⟩ := h
  unfold advanceHeap
  split
  · next hlt => exact ⟨h5, h4, h3, h2, hlt⟩
  · split
    · next hlt => exact ⟨h5, h4, h3, hlt, hzero⟩
    · split
      · next hlt => exact ⟨h5, h4, hlt, hzero, hzero⟩
      · have hinc := hone hin.pml4
        have hlt := hin.pml4
        refine ⟨?_, ?_, hzero, hzero, hzero⟩
        · show k.toNat < (heap.pml4Idx + 1).toNat
          omega
        · show (heap.pml4Idx + 1).toNat ≤ 512
          omega

theorem iterate (hin : ∀ j < n, InTables (advanceHeap^[j] heap)) :
    CursorAbove k (advanceHeap^[n] heap) := by
  induction n with
  | zero => exact h
  | succ n ih =>
    rw [Function.iterate_succ_apply']
    exact (ih (fun j hj => hin j (by omega))).advance (hin n (by omega))

theorem cursorIn : CursorIn (k < ·) n heap := by
  induction n generalizing heap with
  | zero => trivial
  | succ n ih => exact fun hin => ⟨h.head hin, ih (h.advance hin)⟩

end CursorAbove

/-- A block that `alloc_kernel` returned: the pointer, and the number of pages. The header still
holds that number, and the cursor is past the pages. -/
structure Block (s : Vmm σ) (b : Word × Nat) : Prop where
  pos : 0 < b.2
  nonnull : b.1 ≠ 0
  pages : ∀ k < b.2, s.heapHead (pml4Idx (nthPage (pageAlign b.1) k))
  before : ∀ k < b.2, (vpn (nthPage (pageAlign b.1) k)).toNat < pageNumber s.kheap
  header : ∃ e, find s.mem s.kernelPml4 (path (pageAlign b.1)) = some e ∧
    (s.mem (addr e) 0).toNat = b.2

/-- No page is in two blocks. -/
def DisjointBlocks (b b' : Word × Nat) : Prop :=
  ∀ k < b.2, ∀ k' < b'.2, vpn (nthPage (pageAlign b.1) k) ≠ vpn (nthPage (pageAlign b'.1) k')

instance : Std.Symm DisjointBlocks where
  symm _ _ h k hk k' hk' heq := h k' hk' k hk heq.symm

section Block

variable {b : Word × Nat}

omit [FrameAllocator σ] in
theorem Block.head (h : Block s b) : s.heapHead (pml4Idx (pageAlign b.1)) := by
  have := h.pages 0 h.pos
  rwa [nthPage_zero] at this

omit [FrameAllocator σ] in
theorem Block.of_untouched (h : Block s b) (hs : Owned.SameRoots s s')
    (hcursor : pageNumber s.kheap ≤ pageNumber s'.kheap)
    (hu : Untouched s.kernelPml4 s s' (path (pageAlign b.1))) : Block s' b := by
  obtain ⟨e, he, hn⟩ := h.header
  obtain ⟨g, hg, ht⟩ := child_of_find he
  refine ⟨h.pos, h.nonnull, ?_, fun k hk => (h.before k hk).trans_le hcursor, e, ?_, ?_⟩
  · have hheads : s'.heapHead = s.heapHead := hs.heads .heap
    rw [hheads]
    exact h.pages
  · rw [hs.1, hu.find, he]
  · rw [(addr_of_child hg).1] at hn ⊢
    rw [hu.mem g ht, hn]

end Block

/-- What `alloc_kernel` does: a new block behind the cursor, and all other pages as they were. -/
structure Allocates (K : Set Frame) (s s' : Vmm σ) (b : Word × Nat) : Prop where
  owns : Owns s.heapHead s.kernelPml4 K s'
  mem : ∀ f ∈ K, s'.mem f = s.mem f
  roots : Owned.SameRoots s s'
  cursor : CursorAbove s.kernelStart s'.kheap
  grows : pageNumber s.kheap ≤ pageNumber s'.kheap
  block : Block s' b
  behind : ∀ k < b.2, pageNumber s.kheap ≤ (vpn (nthPage (pageAlign b.1) k)).toNat
  other : ∀ τ, IsPage s.heapHead τ → (∀ k < b.2, τ ≠ path (nthPage (pageAlign b.1) k)) →
    Untouched s.kernelPml4 s s' τ

theorem nextHeapVirtPage_ne_zero {k : Idx} {heap : Heap} (h : CursorAbove k heap)
    (hin : InTables heap) : nextHeapVirtPage heap ≠ 0 := by
  intro hzero
  have hlt := h.head hin
  rw [hzero, show pml4Idx 0 = 0 from rfl, lt_def] at hlt
  exact Nat.not_lt_zero _ hlt

/-- `alloc_kernel` maps the pages at the cursor and writes their number into the first one. -/
theorem allocKernel_mapped {bytes addr : Word} (ho : Owns s.heapHead s.kernelPml4 K s)
    (hc : CursorAbove s.kernelStart s.kheap) (h : s.allocKernel bytes = some (addr, s')) :
    addr = nextHeapVirtPage s.kheap + 8 ∧ isPageAligned (nextHeapVirtPage s.kheap) = true ∧
      0 < (heapPages bytes).toNat ∧
      (∀ k < (heapPages bytes).toNat, InTables (advanceHeap^[k] s.kheap) ∧
        s.heapHead (pml4Idx (nextHeapVirtPage (advanceHeap^[k] s.kheap)))) ∧
      ∃ s1 s2, Mapped s.heapHead s.kernelPml4 (heapPagesFrom (heapPages bytes).toNat s.kheap) s s1 ∧
        s1.storeWord s.kernelPml4 (nextHeapVirtPage s.kheap) (heapPages bytes) = some s2 ∧
        s' = { s2 with kheap := advanceHeap^[(heapPages bytes).toNat] s.kheap } := by
  obtain ⟨⟨a, heap', s1⟩, hm, h⟩ := of_bind h
  cases h
  obtain ⟨first, s2, hfrom, hne, hst, rfl⟩ := mapHeapPages_eq hm
  obtain ⟨hmapped, rfl, hin, -⟩ := mapHeapPagesFrom_mapped ho hc.cursorIn hfrom
  -- there is a first page, and the block starts with it
  have hpos : 0 < (heapPages bytes).toNat := by
    by_contra hzero
    rw [Nat.eq_zero_of_not_pos hzero] at hfrom
    cases hfrom
    exact hne rfl
  obtain ⟨m, hm⟩ : ∃ m, (heapPages bytes).toNat = m + 1 := ⟨_, (Nat.succ_pred_eq_of_pos hpos).symm⟩
  obtain ⟨rfl, halign⟩ : first = nextHeapVirtPage s.kheap ∧ isPageAligned first = true := by
    rw [hm] at hfrom
    exact mapHeapPagesFrom_head ho.tables hc.cursorIn
      (nextHeapVirtPage_ne_zero hc (hin 0 hpos).1) hfrom
  exact ⟨rfl, halign, hpos, hin, s2, s1, hmapped, hst, rfl⟩

/-- `alloc_kernel` maps a block from the cursor on, and touches nothing else. -/
theorem allocKernel_spec {bytes addr : Word} (ho : Owns s.heapHead s.kernelPml4 K s)
    (hc : CursorAbove s.kernelStart s.kheap) (h : s.allocKernel bytes = some (addr, s')) :
    Allocates K s s' (addr, (heapPages bytes).toNat) := by
  obtain ⟨rfl, halign, hpos, hin, s2, s1, hmapped, hst, rfl⟩ := allocKernel_mapped ho hc h
  have hk := hmapped.keeps ho
  have hins : ∀ k < (heapPages bytes).toNat, InTables (advanceHeap^[k] s.kheap) :=
    fun k hkn => (hin k hkn).1
  have hfirst := pageAlign_add_eight halign
  have hvpn : ∀ k < (heapPages bytes).toNat, vpn (nthPage (nextHeapVirtPage s.kheap) k) =
      vpn (nextHeapVirtPage (advanceHeap^[k] s.kheap)) :=
    fun k hkn => (vpn_iterate (fun j hj => hins j (by omega))).symm
  have hnum : ∀ k < (heapPages bytes).toNat,
      (vpn (nthPage (nextHeapVirtPage s.kheap) k)).toNat = pageNumber s.kheap + k := by
    intro k hkn
    rw [hvpn k hkn, toNat_vpn_nextHeapVirtPage (hins k hkn),
      pageNumber_iterate (fun j hj => hins j (by omega))]
  have hlast := pageNumber_iterate hins
  obtain ⟨hk', hfind, hun⟩ := storeWord_keeps hk.owns (hin 0 hpos).2 hst
  have hkeeps := hk.trans hk'
  have hroots : Owned.SameRoots s
      { s1 with kheap := advanceHeap^[(heapPages bytes).toNat] s.kheap } :=
    ⟨hkeeps.same.kernelPml4, hkeeps.same.hhdmOffset⟩
  have hheads := hroots.heads .heap
  refine ⟨⟨⟨hkeeps.owns.tree.separated, hkeeps.owns.tree.allocated⟩, hkeeps.owns.kept,
    hkeeps.owns.apart⟩, hkeeps.mem, hroots, hc.iterate hins, ?_, ?_, ?_, ?_⟩
  · show pageNumber s.kheap ≤ pageNumber (advanceHeap^[(heapPages bytes).toNat] s.kheap)
    omega
  · refine ⟨hpos, ?_, ?_, ?_, ?_⟩
    · intro hnull
      have hzero : nextHeapVirtPage s.kheap = 0 := by
        rw [← hfirst, show nextHeapVirtPage s.kheap + 8 = 0 from hnull]
        rfl
      exact nextHeapVirtPage_ne_zero hc (hins 0 hpos) hzero
    · intro k hkn
      rw [show Vmm.heapHead _ = s.heapHead from hheads, hfirst, pml4Idx_of_vpn (hvpn k hkn)]
      exact (hin k hkn).2
    · intro k hkn
      rw [hfirst, hnum k hkn]
      show _ < pageNumber (advanceHeap^[(heapPages bytes).toNat] s.kheap)
      have hlt := hkn
      omega
    · obtain ⟨e, he, rfl⟩ := storeWord_eq_some hst
      refine ⟨e, ?_, congrArg BitVec.toNat (setEntry_self _ _ _ _)⟩
      show find _ s2.kernelPml4 _ = some e
      rw [hk.same.kernelPml4, hfirst]
      exact (hfind _ _ (path_tail_mem (hin 0 hpos).2)).trans he
  · intro k hkn
    rw [hfirst, hnum k hkn]
    omega
  · intro τ hτ hne
    have hne' : ∀ k < (heapPages bytes).toNat,
        τ ≠ path (nextHeapVirtPage (advanceHeap^[k] s.kheap)) := by
      intro k hkn
      rw [← path_eq_iff.mpr (hvpn k hkn), ← hfirst]
      exact hne k hkn
    have hu := (hmapped.untouched ho hτ (fun v hv => by
      obtain ⟨k, hkn, rfl⟩ := mem_heapPagesFrom.mp hv
      exact hne' k hkn)).trans (hun τ hτ (hne' 0 hpos))
    exact ⟨hu.find, hu.mem⟩

omit [FrameAllocator σ] in
/-- `free_kernel` reads the number of pages of the block. -/
theorem Block.loadWord {b : Word × Nat} (hb : Block s b) :
    ∃ n, s.loadWord s.kernelPml4 (pageAlign b.1) = some n ∧ n.toNat = b.2 := by
  obtain ⟨e, he, hn⟩ := hb.header
  rw [← walk_eq_find] at he
  obtain ⟨⟨pt, i⟩, hfind, rfl⟩ := map_eq_some_iff.mp he
  exact ⟨s.mem (addr (s.mem pt i)) 0, by simp [Vmm.loadWord, hfind], hn⟩

/-- What `free_kernel` does to a block: its pages are unmapped, and all others as they were. -/
theorem freeKernel_spec {b : Word × Nat} (ho : Owns s.heapHead s.kernelPml4 K s) (hb : Block s b)
    (h : s.freeKernel b.1 = some s') : Keeps s.heapHead s.kernelPml4 K s s' ∧
      ∀ τ, IsPage s.heapHead τ → (∀ k < b.2, τ ≠ path (nthPage (pageAlign b.1) k)) →
        Untouched s.kernelPml4 s s' τ := by
  obtain ⟨n, hload, hn⟩ := hb.loadWord
  have hne : n ≠ 0 := by
    rintro rfl
    exact absurd hb.pos (by rw [← hn]; decide)
  have hrun : s.unmapMemAt s.kernelPml4 b.2 (pageAlign b.1) = some s' := by
    simp only [freeKernel, hb.nonnull, if_false, hload, bind_eq_bind, bind_some, hne]
      at h
    rw [← hn]
    exact h
  exact ⟨unmapMemAt_keeps ho hb.pages hrun, fun τ hτ => unmapMemAt_untouched ho hb.pages hrun hτ⟩

end Vmm

end Hltos
