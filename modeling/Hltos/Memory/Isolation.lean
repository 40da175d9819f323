import Hltos.Memory.Ownership

/-!
# Isolation of the address spaces

Any sequence of operations of the memory manager on any number of address spaces, with the kernel
heap among them. The frames of all of them are disjoint, distinct and allocated, in every state
reached: no frame is a table or a page in two places, and none that was freed is in any.
-/

namespace Hltos

open Lib.Radix Lib.Transition FrameAllocator Pte Option List Set

variable {v bytes : Word} {i : Idx}

namespace Vmm

variable {σ : Type} [FrameAllocator σ] {s s' : Vmm σ} {K : Set Frame} {n : Nat}

/-! ## The lower half -/

/-- The entries of a root for the addresses below `0x800000000000`. -/
def lowerHalf (i : Idx) : Prop := i.toNat < 256

instance : DecidablePred lowerHalf := fun i => inferInstanceAs (Decidable (i.toNat < 256))

theorem lowerHalf_pml4Idx (hv : v.toNat < 2 ^ 47) : lowerHalf (pml4Idx v) := by
  rw [lowerHalf, toNat_pml4Idx]
  omega

theorem lowerHalf_nthPage {virtPage : Word} (hfit : virtPage.toNat + n * 4096 ≤ 2 ^ 47) :
    ∀ k < n, lowerHalf (pml4Idx (nthPage virtPage k)) := by
  intro k hk
  apply lowerHalf_pml4Idx
  rw [toNat_nthPage]
  omega

theorem lowerHalf_mapPages {virt : Word} (hfit : virt.toNat + bytes.toNat ≤ 2 ^ 47) :
    ∀ k < (numPages virt bytes).toNat, lowerHalf (pml4Idx (nthPage (pageStart virt) k)) := by
  apply lowerHalf_nthPage
  rw [toNat_pageStart, toNat_numPages (by omega)]
  omega

instance (heap : Heap) : Decidable (InTables heap) :=
  decidable_of_iff (heap.pml4Idx.toNat < 512 ∧ heap.pdptIdx.toNat < 512 ∧ heap.pdIdx.toNat < 512 ∧
    heap.ptIdx.toNat < 512) ⟨fun ⟨h4, h3, h2, h1⟩ => ⟨h4, h3, h2, h1⟩,
      fun ⟨h4, h3, h2, h1⟩ => ⟨h4, h3, h2, h1⟩⟩

instance CursorIn.decidable {H : Idx → Prop} [DecidablePred H] :
    ∀ (n : Nat) (heap : Heap), Decidable (CursorIn H n heap)
  | 0, _ => .isTrue trivial
  | n + 1, heap =>
    have := CursorIn.decidable (H := H) n (advanceHeap heap)
    inferInstanceAs (Decidable (InTables heap →
      H (pml4Idx (nextHeapVirtPage heap)) ∧ CursorIn H n (advanceHeap heap)))

theorem CursorIn.mono {H H' : Idx → Prop} (hH : ∀ i, H i → H' i) {heap : Heap}
    (h : CursorIn H n heap) : CursorIn H' n heap := by
  induction n generalizing heap with
  | zero => trivial
  | succ n ih => exact fun hin => ⟨hH _ (h hin).1, ih (h hin).2⟩

theorem toIdx_lowerHalf {a : Word} (ha : a.toNat < 256) (h : toIdx a = some i) : lowerHalf i := by
  obtain ⟨-, heq⟩ := toIdx_eq_some h
  rw [lowerHalf, heq]
  exact ha

end Vmm

/-! ## The system -/

/-- The memory manager, the roots of the live address spaces, and the blocks of the kernel heap: the
pointer that `alloc_kernel` returned, and the number of pages. -/
structure Spaces (σ : Type) where
  vmm : Vmm σ
  live : List Frame
  blocks : List (Word × Nat)

inductive MemOp where
  | createUserPml4
  | cloneUserPml4 (pml4 : Frame)
  | freeUserPml4 (pml4 : Frame)
  | mapPages (pml4 : Frame) (virt bytes : Word) (flags : Flags)
  | unmapMemAt (pml4 : Frame) (virtPage numPages : Word)
  | mapHeapPages (pml4 : Frame) (heap : Heap) (bytes : Word) (flags : Flags)
  | createUserHeap (pml4 : Frame)
  | cloneUserHeap (existing : Heap) (pml4 : Frame)
  | allocKernel (bytes : Word)
  | freeKernel (virtAddr : Word)

/-- The address space whose user half an operation is on. -/
def MemOp.target : MemOp → Option Frame
  | mapPages pml4 _ _ _ => some pml4
  | unmapMemAt pml4 _ _ => some pml4
  | mapHeapPages pml4 _ _ _ => some pml4
  | createUserHeap pml4 => some pml4
  | cloneUserHeap _ pml4 => some pml4
  | _ => none

namespace Spaces

open Vmm

variable {σ : Type} [FrameAllocator σ] {t t' : Spaces σ} {s' : Vmm σ} {live : List Frame}

def next : MemOp → Spaces σ → Option (Spaces σ)
  | .createUserPml4, t => do
    let (pml4, s) ← t.vmm.createUserPml4
    return { t with vmm := s, live := pml4 :: t.live }
  | .cloneUserPml4 pml4, t => do
    let (newPml4, s) ← t.vmm.cloneUserPml4 pml4
    return { t with vmm := s, live := newPml4 :: t.live }
  | .freeUserPml4 pml4, t =>
    some { t with vmm := t.vmm.freeUserPml4 pml4, live := t.live.filter (· ≠ pml4) }
  | .mapPages pml4 virt bytes flags, t => do
    return { t with vmm := ← t.vmm.mapPages pml4 virt bytes flags }
  | .unmapMemAt pml4 virtPage numPages, t => do
    return { t with vmm := ← t.vmm.unmapMemAt pml4 numPages.toNat virtPage }
  | .mapHeapPages pml4 heap bytes flags, t => do
    let (_, _, s) ← t.vmm.mapHeapPages pml4 heap bytes flags
    return { t with vmm := s }
  | .createUserHeap pml4, t => do
    let (_, s) ← t.vmm.createUserHeap pml4
    return { t with vmm := s }
  | .cloneUserHeap existing pml4, t => do
    let (_, s) ← t.vmm.cloneUserHeap existing pml4
    return { t with vmm := s }
  | .allocKernel bytes, t => do
    let (addr, s) ← t.vmm.allocKernel bytes
    return { t with vmm := s, blocks := (addr, (heapPages bytes).toNat) :: t.blocks }
  | .freeKernel virtAddr, t => do
    let s ← t.vmm.freeKernel virtAddr
    return { t with vmm := s, blocks := t.blocks.filter (·.1 ≠ virtAddr) }

/-- What the callers of the operations see to: user operations are on live address spaces and on
addresses of the lower half, and `free_kernel` is called with null or a block. -/
def Legal : MemOp → Spaces σ → Prop
  | .createUserPml4, _ => True
  | .cloneUserPml4 pml4, t => pml4 ∈ t.live
  | .freeUserPml4 pml4, t => pml4 ∈ t.live
  | .mapPages pml4 virt bytes _, t => pml4 ∈ t.live ∧ virt.toNat + bytes.toNat ≤ 2 ^ 47
  | .unmapMemAt pml4 virtPage numPages, t =>
    pml4 ∈ t.live ∧ virtPage.toNat + numPages.toNat * 4096 ≤ 2 ^ 47
  | .mapHeapPages pml4 heap bytes _, t =>
    pml4 ∈ t.live ∧ CursorIn lowerHalf (heapPages bytes).toNat heap
  | .createUserHeap pml4, t => pml4 ∈ t.live
  | .cloneUserHeap existing pml4, t => pml4 ∈ t.live ∧ existing.pml4Idx.toNat < 256
  | .allocKernel _, _ => True
  | .freeKernel virtAddr, t => virtAddr = 0 ∨ virtAddr ∈ t.blocks.map Prod.fst

instance : (op : MemOp) → (t : Spaces σ) → Decidable (Legal op t)
  | .createUserPml4, _ => .isTrue trivial
  | .cloneUserPml4 pml4, t => inferInstanceAs (Decidable (pml4 ∈ t.live))
  | .freeUserPml4 pml4, t => inferInstanceAs (Decidable (pml4 ∈ t.live))
  | .mapPages _ _ _ _, _ => inferInstanceAs (Decidable (_ ∧ _))
  | .unmapMemAt _ _ _, _ => inferInstanceAs (Decidable (_ ∧ _))
  | .mapHeapPages _ _ _ _, _ => inferInstanceAs (Decidable (_ ∧ _))
  | .createUserHeap pml4, t => inferInstanceAs (Decidable (pml4 ∈ t.live))
  | .cloneUserHeap _ _, _ => inferInstanceAs (Decidable (_ ∧ _))
  | .allocKernel _, _ => .isTrue trivial
  | .freeKernel _, _ => inferInstanceAs (Decidable (_ ∨ _))

/-- After `vmm::init`: the direct map begins in the upper half, and what is behind it in the
kernel's root is a tree of allocated frames, with the cursor of the heap in it. -/
structure Booted (s : Vmm σ) : Prop where
  half : 256 ≤ s.kernelStart.toNat
  tree : Tree (below s.heapHead 4) s.kernelPml4 s
  cursor : CursorAbove s.kernelStart s.kheap

def system (σ : Type) [FrameAllocator σ] : System (Spaces σ) MemOp where
  init t := Booted t.vmm ∧ t.live = [] ∧ t.blocks = []
  next := next

/-! ## The invariant -/

/-- The kernel heap and the user halves of live address spaces. -/
def owners (live : List Frame) : Set Owner := { o | o = .heap ∨ ∃ pml4 ∈ live, o = .user pml4 }

structure Inv (t : Spaces σ) : Prop where
  half : 256 ≤ t.vmm.kernelStart.toNat
  cursor : CursorAbove t.vmm.kernelStart t.vmm.kheap
  owned : Owned (owners t.live) t.vmm
  nodup : t.live.Nodup
  block : ∀ b ∈ t.blocks, Block t.vmm b
  disjoint : t.blocks.Pairwise DisjointBlocks

theorem heap_mem (live : List Frame) : Owner.heap ∈ owners live := Or.inl rfl

theorem user_mem {pml4 : Frame} (h : pml4 ∈ live) :
    Owner.user pml4 ∈ owners live := .inr ⟨pml4, h, rfl⟩

theorem owners_cons (pml4 : Frame) (live : List Frame) :
    owners (pml4 :: live) = insert (.user pml4) (owners live) := by
  ext o
  simp only [owners, mem_cons, exists_eq_or_imp, mem_insert_iff, mem_ofPred_eq]
  exact or_left_comm

namespace Inv

theorem of_booted (h : Booted t.vmm) (hlive : t.live = []) (hblocks : t.blocks = []) : Inv t := by
  obtain ⟨s, live, blocks⟩ := t
  subst hlive hblocks
  have hheap : ∀ o ∈ owners [], o = Owner.heap := by
    rintro o (rfl | ⟨_, hm, _⟩)
    · rfl
    · cases hm
  refine ⟨h.half, h.cursor, ⟨?_, ?_⟩, nodup_nil, by simp, List.Pairwise.nil⟩
  · intro o ho
    rw [hheap o ho]
    exact h.tree
  · intro o ho o' ho' hne
    exact absurd ((hheap o ho).trans (hheap o' ho').symm) hne

theorem userHead (h : Inv t) (hi : lowerHalf i) : t.vmm.userHead i := by
  have hhalf := h.half
  show i.toNat < t.vmm.kernelStart.toNat
  unfold lowerHalf at hi
  omega

variable {pml4 : Frame} {op : MemOp} (h : Inv t)

include h

/-- The frames of one address space, and all others. -/
theorem owns_user (hl : pml4 ∈ t.live) :
    Owns t.vmm.userHead pml4 (allocated t.vmm.pmm \ (Owner.user pml4).frames t.vmm) t.vmm :=
  h.owned.owns (user_mem hl)

theorem heap_kept (hl : pml4 ∈ t.live) :
    Owner.heap.frames t.vmm ⊆ allocated t.vmm.pmm \ (Owner.user pml4).frames t.vmm := by
  intro f hf
  refine ⟨h.owned.subset_allocated (heap_mem _) hf, ?_⟩
  exact h.owned.disjoint .heap (heap_mem _) _ (user_mem hl) (by simp) f hf

/-- An operation on user halves: the kernel heap is as it was. -/
theorem of_heap_kept (hsame : Same t.vmm s')
    (hmem : ∀ f ∈ Owner.heap.frames t.vmm, s'.mem f = t.vmm.mem f) (hown : Owned (owners live) s')
    (hnodup : live.Nodup) : Inv ⟨s', live, t.blocks⟩ := by
  refine ⟨?_, ?_, hown, hnodup, ?_, h.disjoint⟩
  · rw [hsame.kernelStart]
    exact h.half
  · rw [hsame.kernelStart, hsame.kheap]
    exact h.cursor
  · intro b hb
    apply (h.block b hb).of_untouched ⟨hsame.kernelPml4, hsame.hhdmOffset⟩ (by rw [hsame.kheap])
    exact .of_agree hmem (isPage_path (h.block b hb).head)

/-- An operation on one address space. -/
theorem user_step (hl : pml4 ∈ t.live)
    (hk : Keeps t.vmm.userHead pml4 (allocated t.vmm.pmm \ (Owner.user pml4).frames t.vmm)
      t.vmm s') :
    Inv { t with vmm := s' } := by
  apply h.of_heap_kept hk.same (fun f hf => hk.mem f (h.heap_kept hl hf)) _ h.nodup
  exact h.owned.step (user_mem hl) ⟨hk.same.kernelPml4, hk.same.hhdmOffset⟩ hk.owns hk.mem

/-- A new address space, in frames that were free. -/
theorem new_space (ho : Owns t.vmm.userHead pml4 (allocated t.vmm.pmm) s')
    (hmem : ∀ f ∈ allocated t.vmm.pmm, s'.mem f = t.vmm.mem f) (hsame : Same t.vmm s') :
    Inv { t with vmm := s', live := pml4 :: t.live } := by
  have hall : ∀ o ∈ owners t.live, o.frames t.vmm ⊆ allocated t.vmm.pmm :=
    fun o hm => h.owned.subset_allocated hm
  apply h.of_heap_kept hsame (fun f hf => hmem f (hall _ (heap_mem _) hf))
  · rw [owners_cons]
    exact h.owned.insert ⟨hsame.kernelPml4, hsame.hhdmOffset⟩ (o := .user pml4) ho hall hmem
  · refine nodup_cons.mpr ⟨fun hl => ?_, h.nodup⟩
    exact ho.apart pml4 (hall _ (user_mem hl) (root_mem_frames _ _ _)) (root_mem_frames _ _ _)

theorem freeUserPml4 (hl : pml4 ∈ t.live) :
    Inv { t with vmm := t.vmm.freeUserPml4 pml4, live := t.live.filter (· ≠ pml4) } := by
  have hne : pml4 ≠ t.vmm.kernelPml4 := by
    rintro heq
    have hroot : pml4 ∈ Owner.heap.frames t.vmm := heq ▸ root_mem_frames _ _ _
    exact (h.heap_kept hl hroot).2 (root_mem_frames _ _ _)
  obtain ⟨hkept, -, hsame⟩ := freeUserPml4_spec hne (h.owns_user hl)
  have hrest : ∀ o ∈ owners (t.live.filter (· ≠ pml4)), o ∈ owners t.live ∧ o ≠ .user pml4 := by
    rintro o (rfl | ⟨q, hq, rfl⟩)
    · exact ⟨heap_mem _, by simp⟩
    · obtain ⟨hq, hqne⟩ := mem_filter.mp hq
      exact ⟨user_mem hq, by simpa using hqne⟩
  apply h.of_heap_kept hsame (fun f hf => (hkept f (h.heap_kept hl hf)).1) _ (h.nodup.filter _)
  apply (h.owned.mono (fun o ho => (hrest o ho).1)).of_kept
    ⟨hsame.kernelPml4, hsame.hhdmOffset⟩ _ (fun f hf => (hkept f hf).1) (fun f hf => (hkept f hf).2)
  intro o ho f hf
  obtain ⟨hm, hdiff⟩ := hrest o ho
  exact ⟨h.owned.subset_allocated hm hf, h.owned.disjoint o hm _ (user_mem hl) hdiff f hf⟩

theorem owns_heap : Owns t.vmm.heapHead t.vmm.kernelPml4
    (allocated t.vmm.pmm \ Owner.heap.frames t.vmm) t.vmm := h.owned.owns (heap_mem _)

/-- A new block begins at the cursor, behind all others. -/
theorem allocKernel {addr : Word} (hrun : t.vmm.allocKernel bytes = some (addr, s')) :
    Inv { t with vmm := s', blocks := (addr, (heapPages bytes).toNat) :: t.blocks } := by
  have ha := allocKernel_spec h.owns_heap h.cursor hrun
  have hstart : s'.kernelStart = t.vmm.kernelStart := by simp only [kernelStart, ha.roots.2]
  -- the old blocks are before the cursor, the new one is behind it
  have hapart : ∀ b ∈ t.blocks, DisjointBlocks (addr, (heapPages bytes).toNat) b := by
    intro b hb k hk k' hk' heq
    have hold := (h.block b hb).before k' hk'
    have hnew := ha.behind k hk
    rw [← heq] at hold
    omega
  refine ⟨?_, ?_, ?_, h.nodup, ?_, pairwise_cons.mpr ⟨hapart, h.disjoint⟩⟩
  · rw [hstart]
    exact h.half
  · rw [hstart]
    exact ha.cursor
  · exact h.owned.step (heap_mem _) ha.roots ha.owns ha.mem
  · intro b hb
    rcases mem_cons.mp hb with rfl | hb
    · exact ha.block
    · have hblock := h.block b hb
      apply hblock.of_untouched ha.roots ha.grows
      apply ha.other _ (isPage_path hblock.head)
      intro k hk heq
      have hpos := hblock.pos
      apply hapart b hb k hk 0 hpos
      rw [nthPage_zero]
      exact (path_eq_iff.mp heq).symm

/-- The block that is freed goes; the others keep their pages. -/
theorem freeKernel {virtAddr : Word} (hlegal : virtAddr = 0 ∨ virtAddr ∈ t.blocks.map Prod.fst)
    (hrun : t.vmm.freeKernel virtAddr = some s') :
    Inv { t with vmm := s', blocks := t.blocks.filter (·.1 ≠ virtAddr) } := by
  rcases hlegal with rfl | hmem
  · have heq : s' = t.vmm := by simpa [Vmm.freeKernel] using hrun.symm
    rw [heq]
    exact ⟨h.half, h.cursor, h.owned, h.nodup, fun b hb => h.block b (mem_filter.mp hb).1,
      h.disjoint.filter _⟩
  · obtain ⟨b0, hb, rfl⟩ := mem_map.mp hmem
    obtain ⟨hk, hother⟩ := freeKernel_spec h.owns_heap (h.block _ hb) hrun
    have hroots : Owned.SameRoots t.vmm s' := ⟨hk.same.kernelPml4, hk.same.hhdmOffset⟩
    refine ⟨?_, ?_, h.owned.step (heap_mem _) hroots hk.owns hk.mem, h.nodup, ?_,
      h.disjoint.filter _⟩
    · rw [hk.same.kernelStart]
      exact h.half
    · rw [hk.same.kernelStart, hk.same.kheap]
      exact h.cursor
    · intro b hb'
      obtain ⟨hb', hne⟩ := mem_filter.mp hb'
      have hblock := h.block b hb'
      apply hblock.of_untouched hroots (by rw [hk.same.kheap])
      apply hother _ (isPage_path hblock.head)
      intro k hkn heq
      have hdis : DisjointBlocks b0 b := by
        apply h.disjoint.forall hb hb'
        rintro rfl
        simp at hne
      apply hdis k hkn 0 hblock.pos
      rw [nthPage_zero]
      exact (path_eq_iff.mp heq).symm

/-- An operation on one user half keeps every frame of the others and of the kernel heap. -/
theorem keeps_user (htarget : op.target = some pml4) (hlegal : Legal op t)
    (hnext : next op t = some t') :
    ∃ s', t' = { t with vmm := s' } ∧ pml4 ∈ t.live ∧
      Keeps t.vmm.userHead pml4 (allocated t.vmm.pmm \ (Owner.user pml4).frames t.vmm)
        t.vmm s' := by
  cases op with
  | createUserPml4 | cloneUserPml4 | freeUserPml4 | allocKernel | freeKernel => cases htarget
  | mapPages pml4 virt bytes flags =>
    cases htarget
    obtain ⟨hl, hfit⟩ := hlegal
    obtain ⟨s', hrun, hnext⟩ := of_bind hnext
    cases hnext
    exact ⟨s', rfl, hl, mapPagesFrom_keeps (h.owns_user hl)
      (fun k hk => h.userHead (lowerHalf_mapPages hfit k hk)) (mapPages_eq hrun)⟩
  | unmapMemAt pml4 virtPage numPages =>
    cases htarget
    obtain ⟨hl, hfit⟩ := hlegal
    obtain ⟨s', hrun, hnext⟩ := of_bind hnext
    cases hnext
    exact ⟨s', rfl, hl, unmapMemAt_keeps (h.owns_user hl)
      (fun k hk => h.userHead (lowerHalf_nthPage hfit k hk)) hrun⟩
  | mapHeapPages pml4 heap bytes flags =>
    cases htarget
    obtain ⟨hl, hcursor⟩ := hlegal
    obtain ⟨⟨_, _, s'⟩, hrun, hnext⟩ := of_bind hnext
    cases hnext
    exact ⟨s', rfl, hl,
      mapHeapPages_keeps (h.owns_user hl) (hcursor.mono (fun _ => h.userHead)) hrun⟩
  | createUserHeap pml4 =>
    cases htarget
    obtain ⟨⟨_, s'⟩, hrun, hnext⟩ := of_bind hnext
    cases hnext
    have hg := (heapAt_spec (h.owns_user hlegal).tables
      (fun i hi => h.userHead (toIdx_lowerHalf (by decide) hi)) hrun).2
    exact ⟨s', rfl, hlegal, (h.owns_user hlegal).grown hg⟩
  | cloneUserHeap existing pml4 =>
    cases htarget
    obtain ⟨hl, hlow⟩ := hlegal
    obtain ⟨⟨_, s'⟩, hrun, hnext⟩ := of_bind hnext
    cases hnext
    have hg := (heapAt_spec (h.owns_user hl).tables (fun i hi =>
      h.userHead (toIdx_lowerHalf hlow hi)) hrun).2
    exact ⟨s', rfl, hl, (h.owns_user hl).grown hg⟩

/-- Every operation keeps the address spaces apart. -/
theorem step (hlegal : Legal op t) (hnext : next op t = some t') : Inv t' := by
  cases op with
  | createUserPml4 =>
    obtain ⟨⟨pml4, s'⟩, hrun, hnext⟩ := of_bind hnext
    cases hnext
    have hroot := h.owned.subset_allocated (heap_mem _) (root_mem_frames _ _ _)
    have hnew := createUserPml4_spec hroot hrun
    exact h.new_space hnew.owns hnew.mem hnew.same
  | cloneUserPml4 pml4 =>
    obtain ⟨⟨newPml4, s'⟩, hrun, hnext⟩ := of_bind hnext
    cases hnext
    have hc := (cloneUserPml4_spec (h.owned.subset_allocated (user_mem hlegal))).1 _ _ hrun
    exact h.new_space hc.owns hc.source hc.same
  | freeUserPml4 pml4 =>
    cases hnext
    exact h.freeUserPml4 hlegal
  | mapPages pml4 virt bytes flags =>
    obtain ⟨s', rfl, hl, hk⟩ := h.keeps_user rfl hlegal hnext
    exact h.user_step hl hk
  | unmapMemAt pml4 virtPage numPages =>
    obtain ⟨s', rfl, hl, hk⟩ := h.keeps_user rfl hlegal hnext
    exact h.user_step hl hk
  | mapHeapPages pml4 heap bytes flags =>
    obtain ⟨s', rfl, hl, hk⟩ := h.keeps_user rfl hlegal hnext
    exact h.user_step hl hk
  | createUserHeap pml4 =>
    obtain ⟨s', rfl, hl, hk⟩ := h.keeps_user rfl hlegal hnext
    exact h.user_step hl hk
  | cloneUserHeap existing pml4 =>
    obtain ⟨s', rfl, hl, hk⟩ := h.keeps_user rfl hlegal hnext
    exact h.user_step hl hk
  | allocKernel bytes =>
    obtain ⟨⟨addr, s'⟩, hrun, hnext⟩ := of_bind hnext
    cases hnext
    exact h.allocKernel hrun
  | freeKernel virtAddr =>
    obtain ⟨s', hrun, hnext⟩ := of_bind hnext
    cases hnext
    exact h.freeKernel hlegal hrun

end Inv

/-! ## Single ownership -/

/-- Every frame has at most one place: the frames at the paths of the kernel heap and of the live
address spaces, that is their roots, tables and pages, are allocated and all different. So no page
of the lower half of an address space is mapped by another one, or is a table. -/
structure SingleOwner (t : Spaces σ) : Prop where
  roots : t.live.Nodup
  once : ∀ o ∈ owners t.live, ∀ o' ∈ owners t.live, ∀ π ∈ o.paths t.vmm, ∀ π' ∈ o'.paths t.vmm,
    ∀ f, o.frameAt t.vmm π = some f → o'.frameAt t.vmm π' = some f → o = o' ∧ π = π'
  allocated : ∀ o ∈ owners t.live, ∀ π ∈ o.paths t.vmm, ∀ f, o.frameAt t.vmm π = some f →
    f ∈ allocated t.vmm.pmm
  pages : ∀ a ∈ t.live, ∀ b ∈ t.live, a ≠ b → ∀ v w : Word, v.toNat < 2 ^ 47 → w.toNat < 2 ^ 47 →
    ∀ e e', walk t.vmm.mem a v = some e → walk t.vmm.mem b w = some e' → addr e ≠ addr e'
  tables : ∀ a ∈ t.live, ∀ v : Word, v.toNat < 2 ^ 47 → ∀ e, walk t.vmm.mem a v = some e →
    ∀ o ∈ owners t.live, ∀ π ∈ o.paths t.vmm, π.length < 4 → o.frameAt t.vmm π ≠ some (addr e)

theorem Inv.page {a : Frame} {e : Word} (h : Inv t) (hv : v.toNat < 2 ^ 47)
    (he : walk t.vmm.mem a v = some e) :
    path v ∈ (Owner.user a).paths t.vmm ∧
    (Owner.user a).frameAt t.vmm (path v) = some (addr e) := by
  rw [walk_eq_find] at he
  obtain ⟨g, hg, ht⟩ := child_of_find he
  rw [(addr_of_child hg).1]
  exact ⟨path_mem (h.userHead (lowerHalf_pml4Idx hv)), ht⟩

theorem Inv.singleOwner (h : Inv t) : SingleOwner t := by
  have honce : ∀ o ∈ owners t.live, ∀ o' ∈ owners t.live, ∀ π ∈ o.paths t.vmm,
      ∀ π' ∈ o'.paths t.vmm, ∀ f, o.frameAt t.vmm π = some f → o'.frameAt t.vmm π' = some f →
      o = o' ∧ π = π' := by
    intro o ho o' ho' π hπ π' hπ' f hf hf'
    by_cases heq : o = o'
    · subst heq
      exact ⟨rfl, (h.owned.tree o ho).separated π hπ π' hπ' f hf hf'⟩
    · exact absurd ⟨π', hπ', hf'⟩ (h.owned.disjoint o ho o' ho' heq f ⟨π, hπ, hf⟩)
  refine ⟨h.nodup, honce, fun o ho π hπ f hf => h.owned.subset_allocated ho ⟨π, hπ, hf⟩, ?_, ?_⟩
  · intro a ha b hb hne v w hv hw e e' he he' heq
    obtain ⟨hp, hf⟩ := h.page hv he
    obtain ⟨hp', hf'⟩ := h.page hw he'
    obtain ⟨hab, -⟩ := honce _ (user_mem ha) _ (user_mem hb) _ hp _ hp' _ hf (heq ▸ hf')
    exact hne (Owner.user.inj hab)
  · intro a ha v hv e he o ho π hπ hlen hf'
    obtain ⟨hp, hf⟩ := h.page hv he
    obtain ⟨-, rfl⟩ := honce _ (user_mem ha) o ho _ hp π hπ _ hf hf'
    exact absurd hlen (by simp [path])

/-- **Single ownership of frames**, after every operation of every sequence, for every allocator
that hands out frames that are not allocated. -/
theorem reachable_singleOwner {t : Spaces σ} (h : (system σ).ReachableUnder Legal t) :
    SingleOwner t := by
  refine (System.ReachableUnder.invariant ?_ ?_ h : Inv t).singleOwner
  · rintro s ⟨hboot, hlive, hblocks⟩
    exact .of_booted hboot hlive hblocks
  · exact fun s s' op hinv hlegal hnext => hinv.step hlegal hnext

/-- A root in frame 0 with nothing behind the direct map, and forty free frames. -/
def bootVmm : Vmm FramePool where
  mem _ _ := 0
  pmm := ⟨(List.range 40).map (fun k => BitVec.ofNat 40 (k + 1)), by decide⟩
  kernelPml4 := 0
  hhdmOffset := 0xFFFFFF0000000000
  kheap := ⟨511, 0, 0, 0⟩

theorem bootVmm_booted : Booted bootVmm where
  half := by decide
  tree := (Owns.of_blank_root (fun _ _ => child_zero)
    (by decide : (0 : Frame) ∉ bootVmm.pmm.free) (empty_subset _)
    (notMem_empty _)).tree
  cursor := by constructor <;> decide

/-- An address space is filled and cloned, a block of the kernel heap comes and goes, and the first
space is freed. -/
def bootOps : List MemOp :=
  [.createUserPml4, .mapPages 1 0x400FFF 2 (pageUser ||| pageWrite), .createUserHeap 1,
   .mapHeapPages 1 ⟨1, 0, 0, 0⟩ 1 (pageUser ||| pageWrite), .cloneUserPml4 1,
   .allocKernel 1, .mapPages 1 0x400000 1 (pageUser ||| pageWrite), .unmapMemAt 1 0x401000 1,
   .freeKernel 0xFFFFFF8000000008, .cloneUserHeap ⟨1, 0, 0, 1⟩ 1, .createUserPml4,
   .freeUserPml4 1]

theorem bootOps_singleOwner :
    ∃ t, (system FramePool).execUnder Legal bootOps ⟨bootVmm, [], []⟩ = some t ∧
    t.live.length = 2 ∧ SingleOwner t := by
  have hrun : (((system FramePool).execUnder Legal bootOps ⟨bootVmm, [], []⟩).map
      (fun t => t.live.length)) = some 2 := by
    decide +kernel
  obtain ⟨t, ht, hlen⟩ := map_eq_some_iff.mp hrun
  refine ⟨t, ht, hlen, reachable_singleOwner ?_⟩
  exact .of_execUnder (.start ⟨bootVmm_booted, rfl, rfl⟩) ht

end Spaces

end Hltos
