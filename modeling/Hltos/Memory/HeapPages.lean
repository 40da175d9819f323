import Hltos.Memory.Coherence
import Hltos.Memory.KernelHeap

/-!
# The memory manager as a heap of pages

What the tables of the kernel map behind the direct map, page by page. The kernel heap grows upwards
and an address is given out once, so that a new page is one that was not mapped. It has a root entry
of its own for its first 2^27 pages; the kernel image and whatever else is mapped is in other
entries.
-/

namespace Hltos

open Lib.Radix FrameAllocator Pte Option Function

namespace Vmm

variable {σ : Type}

/-! ## Pages at canonical addresses -/

/-- Page addresses of the upper half. -/
def HighPage (p : Word) : Prop := 2 ^ 64 - 2 ^ 47 ≤ p.toNat ∧ p.toNat % 4096 = 0

instance (p : Word) : Decidable (HighPage p) := inferInstanceAs (Decidable (_ ∧ _))

namespace HighPage

variable {p q : Word} {k : Nat} (h : HighPage p)

include h

section

variable (hk : k < 4096)

include hk

theorem toNat_add : (p + BitVec.ofNat 64 k).toNat = p.toNat + k := by
  have hlt := p.isLt
  obtain ⟨-, halign⟩ := h
  rw [BitVec.toNat_add, BitVec.toNat_ofNat]
  omega

theorem canonical : isCanonical (p + BitVec.ofNat 64 k) = true := by
  have hadd := h.toNat_add hk
  obtain ⟨hhigh, -⟩ := h
  rw [isCanonical, Bool.or_eq_true, decide_eq_true_eq, decide_eq_true_eq]
  omega

theorem vpn_add : vpn (p + BitVec.ofNat 64 k) = vpn p := by
  have hadd := h.toNat_add hk
  obtain ⟨-, halign⟩ := h
  apply BitVec.eq_of_toNat_eq
  rw [toNat_vpn, toNat_vpn, hadd]
  omega

theorem wordIdx_add : wordIdx (p + BitVec.ofNat 64 k) = BitVec.ofNat 9 (k / 8) := by
  have hadd := h.toNat_add hk
  obtain ⟨-, halign⟩ := h
  apply BitVec.eq_of_toNat_eq
  rw [toNat_wordIdx, BitVec.toNat_ofNat, hadd]
  omega

theorem bitPos_add : bitPos (p + BitVec.ofNat 64 k) = 8 * (k % 8) := by
  have hadd := h.toNat_add hk
  obtain ⟨-, halign⟩ := h
  rw [bitPos_eq, hadd]
  omega

end

/-- Two pages of the upper half with the same number are the same. -/
theorem eq_of_vpn (h' : HighPage q) (heq : vpn p = vpn q) : p = q := by
  have hnat := congrArg BitVec.toNat heq
  rw [toNat_vpn, toNat_vpn] at hnat
  have hp := p.isLt
  have hq := q.isLt
  obtain ⟨h1, h2⟩ := h
  obtain ⟨h3, h4⟩ := h'
  apply BitVec.eq_of_toNat_eq
  omega

theorem isPageAligned : isPageAligned p = true := by
  have halign : p &&& 0xFFF = 0 := by
    apply BitVec.eq_of_toNat_eq
    rw [BitVec.toNat_and, show (0xFFF : Word).toNat = 2 ^ 12 - 1 from rfl,
      Nat.and_two_pow_sub_one_eq_mod]
    exact h.2
  rw [Vmm.isPageAligned, halign]
  rfl

theorem pageAlign : pageAlign p = p := pageAlign_of_aligned h.isPageAligned

end HighPage

/-! ## What is mapped -/

/-- The words of a page of the kernel heap. -/
def heapPage (s : Vmm σ) (p : Word) : Option (Idx → Word) :=
  if s.heapHead (pml4Idx p) ∧ HighPage p then
    (walk s.mem s.kernelPml4 p).map (fun e => s.mem (addr e))
  else none

theorem heapPage_pos {s : Vmm σ} {p : Word} (hhead : s.heapHead (pml4Idx p)) (hp : HighPage p) :
    s.heapPage p = (walk s.mem s.kernelPml4 p).map (fun e => s.mem (addr e)) := if_pos ⟨hhead, hp⟩

theorem heapPage_neg {s : Vmm σ} {p : Word} (h : ¬ (s.heapHead (pml4Idx p) ∧ HighPage p)) :
  s.heapPage p = none := if_neg h

theorem heapPage_eq_some {s : Vmm σ} {p : Word} {w : Idx → Word} : s.heapPage p = some w ↔
    s.heapHead (pml4Idx p) ∧ HighPage p ∧ ∃ e, walk s.mem s.kernelPml4 p = some e ∧
    s.mem (addr e) = w := by
  unfold heapPage
  split
  · next h =>
    rw [map_eq_some_iff]
    exact ⟨fun he => ⟨h.1, h.2, he⟩, fun he => he.2.2⟩
  · next h =>
    constructor
    · intro hnone
      cases hnone
    · exact fun he => absurd ⟨he.1, he.2.1⟩ h

variable [FrameAllocator σ] {s s' : Vmm σ} {p q : Word} {w : Idx → Word}

/-- The kernel heap: its tables are its own, and what is mapped in its root entry is before the
cursor. -/
structure HeapValid (s : Vmm σ) : Prop where
  half : 256 ≤ s.kernelStart.toNat
  tree : Tree (below s.heapHead 4) s.kernelPml4 s
  cursor : CursorAbove s.kernelStart s.kheap
  before : ∀ v, (pml4Idx v).toNat = s.kernelStart.toNat + 1 → walk s.mem s.kernelPml4 v ≠ none →
    (vpn v).toNat < pageNumber s.kheap

/-- The heap has not used up the `2 ^ 27` pages of its root entry. -/
def HeapRoom (s : Vmm σ) : Prop := pageNumber s.kheap < (s.kernelStart.toNat + 2) * 2 ^ 27

instance (s : Vmm σ) : Decidable s.HeapRoom := inferInstanceAs (Decidable (_ < _))

omit [FrameAllocator σ] in
/-- The entry of the heap is behind that of the direct map. -/
theorem heapHead_of_entry {i : Idx} (h : i.toNat = s.kernelStart.toNat + 1) : s.heapHead i := by
  show s.kernelStart < i
  rw [BitVec.lt_def, h]
  omega

theorem HeapValid.owns (h : HeapValid s) : Owns s.heapHead s.kernelPml4 ∅ s :=
  ⟨h.tree, Set.empty_subset _, fun _ hf => absurd hf (Set.notMem_empty _)⟩

omit [FrameAllocator σ] in
theorem heapPage_of_untouched (hroots : Owned.SameRoots s s')
    (hu : s.heapHead (pml4Idx p) → Untouched s.kernelPml4 s s' (path p)) :
    s'.heapPage p = s.heapPage p := by
  have hheads : s'.heapHead = s.heapHead := hroots.heads .heap
  by_cases h : s.heapHead (pml4Idx p) ∧ HighPage p
  · rw [heapPage_pos (by rw [hheads]; exact h.1) h.2, heapPage_pos h.1 h.2,
      hroots.1, walk_eq_find, walk_eq_find, (hu h.1).find]
    cases he : find s.mem s.kernelPml4 (path p) with
    | none => rfl
    | some e =>
      obtain ⟨f, hf, ht⟩ := child_of_find he
      rw [map_some, map_some, (addr_of_child hf).1, (hu h.1).mem f ht]
  · rw [heapPage_neg (by rw [hheads]; exact h), heapPage_neg h]

omit [FrameAllocator σ] in
theorem heapPage_aligned (h : s.heapPage p = some w) : p ≠ 0 ∧ p.toNat % 4096 = 0 := by
  obtain ⟨-, ⟨hhigh, halign⟩, -⟩ := heapPage_eq_some.mp h
  refine ⟨?_, halign⟩
  rintro rfl
  exact absurd hhigh (by decide)

/-! ## Loads and stores -/

omit [FrameAllocator σ] in
theorem loadByte_heapPage {k : Nat} (h : s.heapPage p = some w) (hk : k < 4096) :
    s.loadByte s.kernelPml4 (p + .ofNat 64 k) =
      some (getByte (w (.ofNat 9 (k / 8))) (8 * (k % 8))) := by
  obtain ⟨-, hp, e, he, rfl⟩ := heapPage_eq_some.mp h
  rw [loadByte_eq, if_pos (hp.canonical hk), walk_congr (hp.vpn_add hk), he,
    hp.wordIdx_add hk, hp.bitPos_add hk]
  rfl

/-- A store to a page of the kernel heap changes one byte of it and no other page. -/
theorem storeByte_heapPage {k : Nat} (b : Byte) (hs : HeapValid s)
    (h : s.heapPage p = some w) (hk : k < 4096) :
    ∃ s', s.storeByte s.kernelPml4 (p + .ofNat 64 k) b = some s' ∧ HeapValid s' ∧
      s'.heapPage = update s.heapPage p (some (update w (.ofNat 9 (k / 8))
        (setByte (w (.ofNat 9 (k / 8))) (8 * (k % 8)) b))) := by
  obtain ⟨hhead, hp, e, he, rfl⟩ := heapPage_eq_some.mp h
  have hvpn := hp.vpn_add hk
  have hwalk : walk s.mem s.kernelPml4 (p + .ofNat 64 k) = some e := by rw [walk_congr hvpn, he]
  have hhead' : s.heapHead (pml4Idx (p + .ofNat 64 k)) := by rw [pml4Idx_of_vpn hvpn]; exact hhead
  obtain ⟨s', hrun⟩ :=
    storeByte_returns (r := s.kernelPml4) b (hp.canonical hk) (by rw [hwalk]; exact some_ne_none e)
  have hw := storeByte_writes hs.owns hhead' hrun
  obtain ⟨-, e', he', hs'⟩ := storeByte_eq_walk hrun
  cases hwalk.symm.trans he'
  rw [hp.wordIdx_add hk, hp.bitPos_add hk] at hs'
  have hroots : Owned.SameRoots s s' := ⟨hw.keeps.same.kernelPml4, hw.keeps.same.hhdmOffset⟩
  have hheads : s'.heapHead = s.heapHead := hroots.heads .heap
  refine ⟨s', hrun, ⟨?_, ?_, ?_, ?_⟩, funext fun q => ?_⟩
  · rw [hw.keeps.same.kernelStart]
    exact hs.half
  · rw [hheads, hroots.1]
    exact hw.keeps.owns.tree
  · rw [hw.keeps.same.kernelStart, hw.keeps.same.kheap]
    exact hs.cursor
  · intro v hv hne
    rw [hw.keeps.same.kernelStart] at hv
    rw [hroots.1, hw.walk (heapHead_of_entry hv)] at hne
    rw [hw.keeps.same.kheap]
    exact hs.before v hv hne
  · -- the tables are as they were, so that only the frame of the page has changed
    by_cases hq : s.heapHead (pml4Idx q) ∧ HighPage q
    · rw [heapPage_pos (by rw [hheads]; exact hq.1) hq.2, hroots.1, hw.walk hq.1, hs']
      by_cases heq : q = p
      · subst heq
        rw [update_self, he, map_some]
        refine congrArg some (funext fun i => ?_)
        show setEntry s.mem (addr e) _ _ (addr e) i = _
        by_cases hi : i = .ofNat 9 (k / 8)
        · subst hi
          rw [setEntry_self, update_self]
        · simp [setEntry, hi]
      · rw [update_of_ne heq, heapPage_pos hq.1 hq.2]
        cases heq' : walk s.mem s.kernelPml4 q with
        | none => rfl
        | some e' =>
          -- two pages with one frame would be at one path of the tree
          have hne : addr e' ≠ addr e := by
            intro haddr
            rw [walk_eq_find] at he heq'
            obtain ⟨f, hf, ht⟩ := child_of_find he
            obtain ⟨f', hf', ht'⟩ := child_of_find heq'
            rw [(addr_of_child hf).1, (addr_of_child hf').1] at haddr
            have hpath := hs.tree.separated _ (path_mem hq.1) _ (path_mem hhead) f' ht' (haddr ▸ ht)
            exact heq (hq.2.eq_of_vpn hp (path_eq_iff.mp hpath))
          exact congrArg some (setEntry_of_ne _ _ _ hne)
    · have heq : q ≠ p := by
        rintro rfl
        exact hq ⟨hhead, hp⟩
      rw [heapPage_neg (by rw [hheads]; exact hq), update_of_ne heq, heapPage_neg hq]

/-! ## One page -/

/-- `s'` differs from `s` in one page only. -/
structure PageOnly (p : Word) (s s' : Vmm σ) : Prop where
  roots : Owned.SameRoots s s'
  tree : Tree (below s.heapHead 4) s.kernelPml4 s'
  cursor : CursorAbove s.kernelStart s'.kheap
  grows : pageNumber s.kheap ≤ pageNumber s'.kheap
  other : ∀ τ, IsPage s.heapHead τ → τ ≠ path p → Untouched s.kernelPml4 s s' τ

namespace PageOnly

variable (h : PageOnly p s s')

include h

theorem heapHead : s'.heapHead = s.heapHead := h.roots.heads .heap

/-- The page itself may be mapped only if the cursor has gone past it. -/
theorem valid (hs : HeapValid s)
    (hnew : walk s'.mem s.kernelPml4 p ≠ none → (vpn p).toNat < pageNumber s'.kheap) :
    HeapValid s' := by
  have hstart : s'.kernelStart = s.kernelStart := by simp only [kernelStart, h.roots.2]
  refine ⟨?_, ?_, ?_, fun v hv hne => ?_⟩
  · rw [hstart]
    exact hs.half
  · rw [h.heapHead, h.roots.1]
    exact h.tree
  · rw [hstart]
    exact h.cursor
  · rw [hstart] at hv
    rw [h.roots.1] at hne
    by_cases hin : path v = path p
    · have hvpn := path_eq_iff.mp hin
      rw [walk_congr hvpn] at hne
      rw [hvpn]
      exact hnew hne
    · have hu := h.other _ (isPage_path (heapHead_of_entry hv)) hin
      rw [walk_eq_find, hu.find, ← walk_eq_find] at hne
      exact Nat.lt_of_lt_of_le (hs.before v hv hne) h.grows

theorem heapPage (hp : HighPage p) (hq : q ≠ p) : s'.heapPage q = s.heapPage q := by
  by_cases hhigh : HighPage q
  · apply heapPage_of_untouched h.roots
    intro hhead
    apply h.other _ (isPage_path hhead)
    intro hpath
    exact hq (hhigh.eq_of_vpn hp (path_eq_iff.mp hpath))
  · rw [heapPage_neg (fun hand => hhigh hand.2), heapPage_neg (fun hand => hhigh hand.2)]

end PageOnly

/-! ## New pages -/

/-- The heap is in the upper half. -/
theorem highPage_nextHeapVirtPage {heap : Heap} (hin : InTables heap)
    (hhalf : 256 ≤ heap.pml4Idx.toNat)
    (halign : isPageAligned (nextHeapVirtPage heap) = true) : HighPage (nextHeapVirtPage heap) := by
  have hnum := toNat_vpn_nextHeapVirtPage hin
  rw [toNat_vpn] at hnum
  have hlow : 2 ^ 35 ≤ pageNumber heap := by
    unfold pageNumber
    omega
  have hlt := (nextHeapVirtPage heap).isLt
  have hbig : 2 ^ 64 - 2 ^ 48 ≤ (nextHeapVirtPage heap).toNat := by
    unfold nextHeapVirtPage
    dsimp only
    split
    · exact Nat.right_le_or
    · next hbit =>
      -- bit 47 is that of the number of the page
      rw [not_not] at hbit
      have hnext : nextHeapVirtPage heap &&& ((1 : Word) <<< 47) = 0 := by
        unfold nextHeapVirtPage
        rw [if_neg (not_not.mpr hbit)]
        exact hbit
      have hget := congrArg (fun x : Word => x.getLsbD 47) hnext
      have hnone : (nextHeapVirtPage heap).toNat / 2 ^ 47 % 2 = 0 := by
        have hbit' : (nextHeapVirtPage heap).getLsbD 47 = false := by simpa using hget
        rw [BitVec.getLsbD, Nat.testBit_eq_decide_div_mod_eq, decide_eq_false_iff_not] at hbit'
        omega
      omega
  exact ⟨by omega, (isPageAligned_iff _).mp halign⟩

theorem HeapValid.highPage (hs : HeapValid s) (hin : InTables s.kheap)
    (halign : isPageAligned (nextHeapVirtPage s.kheap) = true) :
    HighPage (nextHeapVirtPage s.kheap) := by
  have habove := hs.cursor.above
  have hhalf := hs.half
  exact highPage_nextHeapVirtPage hin (by omega) halign

/-- A page of the heap's entry at or behind the cursor is not mapped. -/
theorem HeapValid.heapPage_eq_none (hs : HeapValid s)
    (hentry : (pml4Idx p).toNat = s.kernelStart.toNat + 1)
    (hp : pageNumber s.kheap ≤ (vpn p).toNat) : s.heapPage p = none := by
  cases hpage : s.heapPage p with
  | none => rfl
  | some w =>
    obtain ⟨-, -, e, he, -⟩ := heapPage_eq_some.mp hpage
    have hlt := hs.before p hentry (by rw [he]; exact some_ne_none e)
    omega

/-- While there is room the cursor is in the heap's entry. -/
theorem HeapValid.cursor_entry (hs : HeapValid s) (hroom : s.HeapRoom) (hin : InTables s.kheap) :
    (pml4Idx (nextHeapVirtPage s.kheap)).toNat = s.kernelStart.toNat + 1 := by
  have hnum := toNat_vpn_nextHeapVirtPage hin
  have habove := hs.cursor.above
  rw [toNat_vpn] at hnum
  rw [toNat_pml4Idx]
  unfold HeapRoom at hroom
  unfold pageNumber at *
  omega

/-- A new page of the heap, with whatever was in its frame. -/
theorem allocKernelPage_heapPage (hs : HeapValid s) (hroom : s.HeapRoom)
    (h : s.allocKernelPage = some (p, s')) :
    HeapValid s' ∧ s.heapPage p = none ∧ ∃ w, s'.heapPage = update s.heapPage p (some w) := by
  obtain ⟨hin, rfl, halign, s1, hm, rfl⟩ := allocKernelPage_spec hs.owns hs.cursor.cursorIn h
  have hk := hm.keeps hs.owns
  have hnum := toNat_vpn_nextHeapVirtPage hin
  have hnext := pageNumber_advanceHeap hin
  have hhead := hs.cursor.head hin
  have hhigh := hs.highPage hin halign
  have honly : PageOnly (nextHeapVirtPage s.kheap) s { s1 with kheap := advanceHeap s.kheap } := by
    refine ⟨⟨hk.same.kernelPml4, hk.same.hhdmOffset⟩,
      ⟨hk.owns.tree.separated, hk.owns.tree.allocated⟩, hs.cursor.advance hin, ?_, ?_⟩
    · show pageNumber s.kheap ≤ pageNumber (advanceHeap s.kheap)
      omega
    · intro τ hτ hne
      have hu := hm.untouched hs.owns hτ (List.forall_mem_singleton.mpr hne)
      exact ⟨hu.find, hu.mem⟩
  refine ⟨honly.valid hs ?_, hs.heapPage_eq_none (hs.cursor_entry hroom hin) (by omega), ?_⟩
  · intro _
    show _ < pageNumber (advanceHeap s.kheap)
    omega
  · obtain ⟨e, he⟩ := ne_none_iff_exists'.mp
      (hm.walk_ne_none hhead (.inl (List.mem_singleton.mpr rfl)))
    refine ⟨s1.mem (addr e), funext fun q => ?_⟩
    by_cases heq : q = nextHeapVirtPage s.kheap
    · subst heq
      rw [update_self, heapPage_pos (by rw [honly.heapHead]; exact hhead) hhigh, honly.roots.1, he]
      rfl
    · rw [update_of_ne heq]
      exact honly.heapPage hhigh heq

/-! ## A page that is given back -/

/-- A page of the heap can be freed, and no other goes with it. -/
theorem freeKernelPage_heapPage (hs : HeapValid s) (h : s.heapPage p = some w) :
    ∃ s', s.freeKernelPage p = some s' ∧ HeapValid s' ∧ s'.heapPage = update s.heapPage p none := by
  obtain ⟨hhead, hp, -⟩ := heapPage_eq_some.mp h
  obtain ⟨s', hrun⟩ := unmapPage_returns (s := s) s.kernelPml4 hp.isPageAligned
  have hk := unmapPage_keeps hs.owns hhead hrun
  have hwalk := (unmapPage_walk hs.owns.tables.separated hhead hrun).1
  have honly : PageOnly p s s' := by
    refine ⟨⟨hk.same.kernelPml4, hk.same.hhdmOffset⟩, hk.owns.tree, ?_, ?_, fun τ hτ hne => ?_⟩
    · rw [hk.same.kheap]
      exact hs.cursor
    · rw [hk.same.kheap]
    · exact unmapPage_untouched hs.owns hhead hrun hτ hne
  refine ⟨s', ?_, honly.valid hs fun hne => absurd hwalk hne, funext fun q => ?_⟩
  · rw [freeKernelPage, if_neg (heapPage_aligned h).1, hp.pageAlign]
    exact hrun
  · by_cases heq : q = p
    · subst heq
      rw [update_self, heapPage_pos (by rw [honly.heapHead]; exact hhead) hp, honly.roots.1, hwalk]
      rfl
    · rw [update_of_ne heq]
      exact honly.heapPage hp heq

/-- The kernel heap of the memory manager. -/
instance : KernelHeap (Vmm σ) where
  Valid := HeapValid
  Room := HeapRoom
  page := heapPage
  loadByte v s := s.loadByte s.kernelPml4 v
  storeByte v b s := s.storeByte s.kernelPml4 v b
  allocKernelPage s := s.allocKernelPage
  freeKernelPage v s := s.freeKernelPage v
  aligned _ := heapPage_aligned
  loadByte_page _ := loadByte_heapPage
  storeByte_page b := storeByte_heapPage b
  allocKernelPage_page := allocKernelPage_heapPage
  freeKernelPage_page := freeKernelPage_heapPage

/-- After `init_kheap` the heap is valid, whatever the bootloader has mapped in the other entries.
-/
theorem HeapValid.of_initKheap (hboot : VmmRun.BootRoot s) (hblank : ¬ s.HasEntry s.heapEntry)
    (h : s.initKheap = some s') : HeapValid s' := by
  have ho : Owns s.heapHead s.kernelPml4 ∅ s :=
    ⟨hboot.tree, Set.empty_subset _, fun _ hf => absurd hf (Set.notMem_empty _)⟩
  have hinv := VmmRun.Inv.of_init ⟨s, s', hboot, h, rfl⟩
  obtain ⟨s1, hk, rfl, hsucc, -, hwalk⟩ := initKheap_spec ho h
  refine ⟨hinv.rooted.half, hinv.spaces.owns_heap.tree, hinv.spaces.cursor, fun v hv hne => ?_⟩
  have hstart : kernelStart { s1 with kheap := ⟨s.kernelStart.setWidth 64 + 1, 0, 0, 0⟩ } =
    s.kernelStart := hk.same.kernelStart
  rw [hstart] at hv
  have hidx : pml4Idx v = s.heapEntry := BitVec.eq_of_toNat_eq (hv.trans hsucc.symm)
  have hnone : walk s.mem s.kernelPml4 v = none := by
    have hchild : child (s.mem s.kernelPml4 (pml4Idx v)) = none := by
      rw [hidx]; exact not_not.mp hblank
    rw [walk_eq_find]
    simp [find, path, table, hchild]
  refine absurd ?_ hne
  rw [show Vmm.kernelPml4 _ = s.kernelPml4 from hk.same.kernelPml4]
  exact (hwalk v (heapHead_of_entry hv)).trans hnone

end Vmm

end Hltos
