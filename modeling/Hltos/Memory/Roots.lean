import Hltos.Memory.Access
import Hltos.Memory.Isolation

/-!
# The roots of the address spaces

`create_user_pml4` and `clone_user_pml4` copy the entries of the kernel's half into a new root,
once. From then on the roots agree as long as no entry of that half is added to one of them alone:
neither to a user root, nor to the kernel's root by the heap.
-/

namespace Hltos

open Lib.Radix FrameAllocator Pte Option

namespace Vmm

variable {σ : Type} [FrameAllocator σ] {s s' s1 : Vmm σ} {r f : Frame} {i : Idx} {π : List Idx}
  {H : Idx → Prop} {K : Set Frame}

/-! ## Entries of a root -/

omit [FrameAllocator σ] in
theorem root_of_find (hfind : find s'.mem r [i] = find s.mem r [i])
    (hi : child (s.mem r i) ≠ none) : s'.mem r i = s.mem r i := by
  obtain ⟨g, hg⟩ := ne_none_iff_exists'.mp hi
  have hpresent := hfind.trans (present_of_child hg)
  exact (eq_of_present hpresent).1.symm

theorem Placed.root {e : Word} (hp : Placed H r π e s s1 s') (hi : child (s.mem r i) ≠ none) :
    s'.mem r i = s.mem r i := by
  rw [hp.leaf.root]
  apply root_of_find _ hi
  refine (hp.grown.find i [] (below H 3).nil).resolve_right (fun hnone => hi ?_)
  exact present_eq_none.mp hnone.1

/-- Mapping pages never replaces an entry of the root that is present. -/
theorem Mapped.root {vs : List Word} (hm : Mapped H r vs s s') (hi : child (s.mem r i) ≠ none) :
    s'.mem r i = s.mem r i := by
  induction hm with
  | nil s => rfl
  | cons _ ha _ hp _ ih =>
    obtain ⟨-, -, hmem, -⟩ := alloc_spec ha
    have hroot := hp.root (i := i) (by rw [hmem]; exact hi)
    rw [hmem] at hroot
    rw [ih (by rw [hroot]; exact hi), hroot]

variable {addr : Word} {heap : Heap} {bytes : Word}

theorem mapHeapPages_root {heap' : Heap} {flags : Flags}
    (ho : Owns H r K s) (hH : CursorIn H (heapPages bytes).toNat heap)
    (h : s.mapHeapPages r heap bytes flags = some (addr, heap', s'))
    (hi : H i → child (s.mem r i) ≠ none) : s'.mem r i = s.mem r i := by
  by_cases hHi : H i
  · obtain ⟨first, s1, hm, hne, hst, -⟩ := mapHeapPages_eq h
    obtain ⟨hmapped, -, hin, hfirst⟩ := mapHeapPagesFrom_mapped ho hH hm
    obtain ⟨k, hkn, rfl⟩ := mem_heapPagesFrom.mp (hfirst.resolve_left hne)
    have hroot := hmapped.root (hi hHi)
    have hfind :=
      (storeWord_keeps (hmapped.keeps ho).owns (hin k hkn).2 hst).2.1 i [] (below H 3).nil
    rw [root_of_find hfind (by rw [hroot]; exact hi hHi), hroot]
  · exact (mapHeapPages_keeps ho hH h).root i hHi

/-- `alloc_kernel_page` maps the page at the cursor. -/
theorem allocKernelPage_spec (ho : Owns H s.kernelPml4 K s)
    (hH : CursorIn H 1 s.kheap) (h : s.allocKernelPage = some (addr, s')) :
    InTables s.kheap ∧ addr = nextHeapVirtPage s.kheap ∧ isPageAligned addr = true ∧
      ∃ s1, Mapped H s.kernelPml4 [addr] s s1 ∧ s' = { s1 with kheap := advanceHeap s.kheap } := by
  obtain ⟨⟨frame, sa⟩, ha, h⟩ := of_bind h
  obtain ⟨⟨virt, heap, s1⟩, hm, h⟩ := of_bind h
  obtain ⟨-, -, -, hsame⟩ := alloc_spec ha
  rw [hsame.kernelPml4, hsame.kheap] at hm
  obtain ⟨hin, rfl, rfl, halign, e, s2, he, hp⟩ :=
    mapHeapPage_spec (ho.alloc ha).1.tables (fun hin => (hH hin).1) hm
  cases h
  exact ⟨hin, rfl, halign, s1, .cons (hH hin).1 ha he.child hp (.nil s1), rfl⟩

variable {n : Nat} {virtPage : Word}

theorem unmapMemAt_root (ho : Owns H r K s)
    (hH : ∀ k < n, H (pml4Idx (nthPage virtPage k))) (h : s.unmapMemAt r n virtPage = some s') :
    s'.mem r i = s.mem r i := by
  induction n generalizing virtPage s with
  | zero => cases h; rfl
  | succ n ih =>
    obtain ⟨s1, h1, h⟩ := of_bind h
    obtain ⟨hH0, hH⟩ := heads_succ hH
    have hroot : s1.mem r i = s.mem r i := by
      rcases unmapPage_spec ho.tables.separated hH0 h1 with ⟨rfl, -⟩ | ⟨e, -, hleaf, -⟩
      · rfl
      · exact hleaf.root i
    rw [← hroot]
    exact ih (unmapPage_keeps ho hH0 h1).owns hH h

/-! ## Frees of the kernel heap -/

variable {virtAddr : Word}

theorem freeKernel_cases (h : s.freeKernel virtAddr = some s') :
    s' = s ∨ virtAddr ≠ 0 ∧ ∃ n, s.loadWord s.kernelPml4 (pageAlign virtAddr) = some n ∧
      s.unmapMemAt s.kernelPml4 n.toNat (pageAlign virtAddr) = some s' := by
  unfold freeKernel at h
  split at h
  · cases h; exact Or.inl rfl
  · next hne =>
    obtain ⟨n, hload, h⟩ := of_bind h
    split at h
    · cases h; exact Or.inl rfl
    · exact Or.inr ⟨hne, n, hload, h⟩

/-- One page is unmapped as a run of one page is. -/
theorem freeKernelPage_cases (h : s.freeKernelPage virtAddr = some s') :
    s' = s ∨ virtAddr ≠ 0 ∧ s.unmapMemAt s.kernelPml4 1 (pageAlign virtAddr) = some s' := by
  unfold freeKernelPage at h
  split at h
  · cases h; exact Or.inl rfl
  · next hne =>
    refine Or.inr ⟨hne, ?_⟩
    rw [unmapMemAt, h]
    rfl

omit [FrameAllocator σ] in
theorem forall_page : (∀ k < 1, H (pml4Idx (nthPage virtPage k))) ↔ H (pml4Idx virtPage) := by
  constructor
  · intro h
    simpa [nthPage_zero] using h 0 (by decide)
  · intro h k hk
    rw [Nat.lt_one_iff.mp hk, nthPage_zero]
    exact h

/-! ## Roots that agree -/

/-- An entry of the kernel's root that is present. -/
def HasEntry (s : Vmm σ) (i : Idx) : Prop := child (s.mem s.kernelPml4 i) ≠ none

instance (s : Vmm σ) : DecidablePred s.HasEntry :=
  fun i => inferInstanceAs (Decidable (child (s.mem s.kernelPml4 i) ≠ none))

/-- The address spaces with the roots `live` own their frames, the direct map is there, and the
roots agree in the kernel's half. -/
structure Rooted (live : List Frame) (s : Vmm σ) : Prop extends Spaces.Inv ⟨s, live, []⟩ where
  direct : s.HasEntry s.kernelStart
  shared : ∀ r ∈ live, ∀ i, s.kernelStart ≤ i → s.mem r i = s.mem s.kernelPml4 i

namespace Rooted

open Spaces

variable {live : List Frame}

section

variable (h : Rooted live s)

include h

theorem kernelPml4_notMem : s.kernelPml4 ∉ live := by
  intro hl
  exact (h.heap_kept hl (root_mem_frames _ _ _)).2 (root_mem_frames _ _ _)

section

variable (hr : r = s.kernelPml4 ∨ r ∈ live)

include hr

theorem root_allocated : r ∈ allocated s.pmm := by
  rcases hr with rfl | hl
  · exact h.owned.subset_allocated (heap_mem _) (root_mem_frames _ _ _)
  · exact h.owned.subset_allocated (user_mem hl) (root_mem_frames _ _ _)

theorem root_shared (hi : s.kernelStart ≤ i) : s.mem r i = s.mem s.kernelPml4 i := by
  rcases hr with rfl | hl
  · rfl
  · exact h.shared r hl i hi

/-- A root that agrees with the kernel's has the direct map. -/
theorem root_nonzero : ∃ i, s.mem r i ≠ 0 := by
  refine ⟨s.kernelStart, fun hzero => h.direct ?_⟩
  rw [← h.root_shared hr (BitVec.le_refl _), hzero, child_zero]

end

end

variable {q : Frame}

section

variable (h : Rooted live s)

include h

/-- The kernel's root and those of the other address spaces are out of reach of an operation on one
user half. -/
theorem root_kept (hl : r ∈ live) (hq : q = s.kernelPml4 ∨ q ∈ live)
    (hne : q ≠ r) : q ∈ allocated s.pmm \ (Owner.user r).frames s := by
  refine ⟨h.root_allocated hq, ?_⟩
  rcases hq with rfl | hq
  · exact (h.heap_kept hl (root_mem_frames _ _ _)).2
  · exact h.owned.disjoint _ (user_mem hq) _ (user_mem hl) (by simpa using hne)
      _ (root_mem_frames _ _ _)

theorem user_step (hl : r ∈ live)
    (hk : Keeps s.userHead r (allocated s.pmm \ (Owner.user r).frames s) s s') :
    Rooted live s' := by
  have hkernel := hk.mem _ (h.root_kept hl (Or.inl rfl) (fun heq => h.kernelPml4_notMem (heq ▸ hl)))
  refine ⟨h.toInv.user_step hl hk, ?_, ?_⟩
  · rw [HasEntry, hk.same.kernelPml4, hk.same.kernelStart, hkernel]
    exact h.direct
  · intro q hq i hi
    rw [hk.same.kernelStart] at hi
    rw [hk.same.kernelPml4, hkernel, ← h.shared q hq i hi]
    by_cases hqr : q = r
    · subst hqr
      exact hk.root i (fun hlt => absurd hi (BitVec.not_le.mpr hlt))
    · rw [hk.mem q (h.root_kept hl (Or.inr hq) hqr)]

/-- A new root with the kernel's entries. -/
theorem new_space (ho : Owns s.userHead q (allocated s.pmm) s')
    (hmem : ∀ f ∈ allocated s.pmm, s'.mem f = s.mem f) (hsame : Same s s')
    (hentry : ∀ i, s.kernelStart ≤ i → s'.mem q i = s.mem s.kernelPml4 i) :
    Rooted (q :: live) s' := by
  have hkernel := hmem _ (h.root_allocated (Or.inl rfl))
  refine ⟨h.toInv.new_space ho hmem hsame, ?_, ?_⟩
  · rw [HasEntry, hsame.kernelPml4, hsame.kernelStart, hkernel]
    exact h.direct
  · intro r hr i hi
    rw [hsame.kernelStart] at hi
    rw [hsame.kernelPml4, hkernel]
    rcases List.mem_cons.mp hr with rfl | hr
    · exact hentry i hi
    · rw [hmem r (h.root_allocated (Or.inr hr))]
      exact h.shared r hr i hi

theorem createUserPml4 (hrun : s.createUserPml4 = some (q, s')) :
    Rooted (q :: live) s' ∧ q ∉ allocated s.pmm ∧ Same s s' := by
  have hnew := createUserPml4_spec (h.root_allocated (Or.inl rfl)) hrun
  exact ⟨h.new_space hnew.owns hnew.mem hnew.same hnew.kernel, hnew.fresh, hnew.same⟩

theorem cloneUserPml4 (hl : r ∈ live) (hrun : s.cloneUserPml4 r = some (q, s')) :
    Rooted (q :: live) s' ∧ q ∉ allocated s.pmm ∧ Same s s' := by
  have hc : IsClone s s' r q :=
    (cloneUserPml4_spec (h.owned.subset_allocated (user_mem hl))).1 _ _ hrun
  refine ⟨h.new_space hc.owns hc.source hc.same (fun i hi => ?_), ?_, hc.same⟩
  · rw [hc.kernel i hi, h.shared r hl i hi]
  · exact fun hq => hc.owns.apart q hq (root_mem_frames _ _ _)

theorem freeUserPml4 (hl : r ∈ live) :
    Rooted (live.filter (· ≠ r)) (s.freeUserPml4 r) ∧ Same s (s.freeUserPml4 r) := by
  have hne : r ≠ s.kernelPml4 := fun heq => h.kernelPml4_notMem (heq ▸ hl)
  obtain ⟨hkept, -, hsame⟩ := freeUserPml4_spec hne (h.owns_user hl)
  have hkernel := (hkept _ (h.root_kept hl (Or.inl rfl) hne.symm)).1
  refine ⟨⟨h.toInv.freeUserPml4 hl, ?_, ?_⟩, hsame⟩
  · rw [HasEntry, hsame.kernelPml4, hsame.kernelStart, hkernel]
    exact h.direct
  · intro q hq i hi
    obtain ⟨hq, hqr⟩ := List.mem_filter.mp hq
    rw [hsame.kernelStart] at hi
    rw [hsame.kernelPml4, hkernel, (hkept q (h.root_kept hl (Or.inr hq) (by simpa using hqr))).1]
    exact h.shared q hq i hi

/-! ## The kernel heap -/

/-- An operation of the kernel heap. Once there are user roots it must not add entries to the
kernel's root. -/
theorem heap_step
    (hk : Keeps s.heapHead s.kernelPml4 (allocated s.pmm \ Owner.heap.frames s) s s1) (heap : Heap)
    (hcursor : CursorAbove s.kernelStart heap)
    (hroot : live ≠ [] → ∀ i, s.kernelStart ≤ i → s1.mem s.kernelPml4 i = s.mem s.kernelPml4 i) :
    Rooted live { s1 with kheap := heap } := by
  have hroots : Owned.SameRoots s { s1 with kheap := heap } :=
    ⟨hk.same.kernelPml4, hk.same.hhdmOffset⟩
  have hstart : Vmm.kernelStart { s1 with kheap := heap } = s.kernelStart := hk.same.kernelStart
  have hdirect := hk.root s.kernelStart (BitVec.lt_irrefl _)
  have hown : Owns s.heapHead s.kernelPml4 (allocated s.pmm \ Owner.heap.frames s)
      { s1 with kheap := heap } :=
    ⟨⟨hk.owns.tree.separated, hk.owns.tree.allocated⟩, hk.owns.kept, hk.owns.apart⟩
  refine ⟨⟨?_, ?_, h.owned.step (heap_mem _) hroots hown hk.mem, h.nodup, by simp, .nil⟩, ?_, ?_⟩
  · rw [hstart]
    exact h.half
  · rw [hstart]
    exact hcursor
  · rw [HasEntry, hstart]
    rw [hk.same.kernelPml4, hdirect]
    exact h.direct
  · intro r hr i hi
    rw [hstart] at hi
    have hapart : r ∉ Owner.heap.frames s := fun hm =>
      h.owned.disjoint _ (heap_mem _) _ (user_mem hr) (by simp) r hm (root_mem_frames _ _ _)
    rw [hk.same.kernelPml4, hroot (List.ne_nil_of_mem hr) i hi,
      hk.mem r ⟨h.root_allocated (Or.inr hr), hapart⟩]
    exact h.shared r hr i hi

end

/-- The kernel heap does not leave the entries of the kernel's root that are present. -/
def HeapStays (live : List Frame) (n : Nat) (s : Vmm σ) : Prop :=
  live = [] ∨ CursorIn s.HasEntry n s.kheap

instance (live : List Frame) (n : Nat) (s : Vmm σ) : Decidable (HeapStays live n s) :=
  inferInstanceAs (Decidable (_ ∨ _))

omit [FrameAllocator σ] in
theorem cursorIn_and {H' : Idx → Prop} (h : CursorIn H n heap)
    (h' : CursorIn H' n heap) : CursorIn (fun i => H i ∧ H' i) n heap := by
  induction n generalizing heap with
  | zero => trivial
  | succ n ih => exact fun hin => ⟨⟨(h hin).1, (h' hin).1⟩, ih (h hin).2 (h' hin).2⟩

theorem allocKernel (h : Rooted live s) (hstays : HeapStays live (heapPages bytes).toNat s)
    (hrun : s.allocKernel bytes = some (addr, s')) :
    Rooted live s' ∧ s'.kernelPml4 = s.kernelPml4 := by
  have ho := h.owns_heap
  have hcursor := (allocKernel_spec ho h.cursor hrun).cursor
  obtain ⟨⟨a, heap, s1⟩, hm, hrun⟩ := of_bind hrun
  cases hrun
  have hk := mapHeapPages_keeps ho h.cursor.cursorIn hm
  refine ⟨h.heap_step hk heap hcursor (fun hlive i _ => ?_), hk.same.kernelPml4⟩
  have hin := cursorIn_and h.cursor.cursorIn (hstays.resolve_left hlive)
  exact mapHeapPages_root (ho.mono_head (fun _ hi => hi.1)) hin hm (fun hi => hi.2)

theorem allocKernelPage (h : Rooted live s) (hstays : HeapStays live 1 s)
    (hrun : s.allocKernelPage = some (addr, s')) :
    Rooted live s' ∧ s'.kernelPml4 = s.kernelPml4 := by
  have ho := h.owns_heap
  obtain ⟨hin, -, -, s1, hm, rfl⟩ := allocKernelPage_spec ho h.cursor.cursorIn hrun
  have hk := hm.keeps ho
  refine ⟨h.heap_step hk _ (h.cursor.advance hin) (fun hlive i _ => ?_), hk.same.kernelPml4⟩
  by_cases hi : s.HasEntry i
  · exact hm.root hi
  · have hin' := cursorIn_and h.cursor.cursorIn (hstays.resolve_left hlive)
    have ho' : Owns (fun i => s.heapHead i ∧ s.HasEntry i) s.kernelPml4 _ s :=
      ho.mono_head (fun _ hi => hi.1)
    obtain ⟨-, -, -, s2, hm', heq⟩ := allocKernelPage_spec ho' hin' hrun
    rw [show s1.mem = s2.mem from (Vmm.mk.inj heq).1]
    exact (hm'.keeps ho').root i (fun hH => hi hH.2)

/-- The pages that `free_kernel` would unmap are behind the direct map. -/
def HeapBlock (virtAddr : Word) (s : Vmm σ) : Prop :=
  ∀ n ∈ s.loadWord s.kernelPml4 (pageAlign virtAddr), ∀ k < n.toNat,
    s.heapHead (pml4Idx (nthPage (pageAlign virtAddr) k))

instance (s : Vmm σ) : DecidablePred s.heapHead :=
  fun i => inferInstanceAs (Decidable (s.kernelStart < i))

instance (virtAddr : Word) (s : Vmm σ) : Decidable (HeapBlock virtAddr s) :=
  inferInstanceAs (Decidable (∀ n ∈ s.loadWord s.kernelPml4 (pageAlign virtAddr),
    ∀ k < n.toNat, s.heapHead (pml4Idx (nthPage (pageAlign virtAddr) k))))

/-- `free_kernel` and `free_kernel_page` leave the root and the cursor alone. -/
theorem heap_unmap (h : Rooted live s) (hpages : ∀ k < n, s.heapHead (pml4Idx (nthPage virtPage k)))
    (hrun : s.unmapMemAt s.kernelPml4 n virtPage = some s') : Rooted live s' ∧ Same s s' := by
  have hk := unmapMemAt_keeps h.owns_heap hpages hrun
  refine ⟨h.heap_step hk s'.kheap ?_ (fun _ i _ => unmapMemAt_root h.owns_heap hpages hrun),
    hk.same⟩
  rw [hk.same.kheap]
  exact h.cursor

theorem freeKernel (h : Rooted live s) (hlegal : virtAddr ≠ 0 → HeapBlock virtAddr s)
    (hrun : s.freeKernel virtAddr = some s') : Rooted live s' ∧ Same s s' := by
  rcases freeKernel_cases hrun with rfl | ⟨hne, n, hload, hrun⟩
  · exact ⟨h, .refl _⟩
  · exact h.heap_unmap (hlegal hne n hload) hrun

theorem freeKernelPage (h : Rooted live s)
    (hlegal : virtAddr ≠ 0 → s.heapHead (pml4Idx (pageAlign virtAddr)))
    (hrun : s.freeKernelPage virtAddr = some s') : Rooted live s' ∧ Same s s' := by
  rcases freeKernelPage_cases hrun with rfl | ⟨hne, hrun⟩
  · exact ⟨h, .refl _⟩
  · exact h.heap_unmap (forall_page.mpr (hlegal hne)) hrun

end Rooted

end Vmm

end Hltos
