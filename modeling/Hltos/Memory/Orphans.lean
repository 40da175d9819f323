import Hltos.Memory.Isolation

/-!
# Orphaned frames

One user address space, from its creation on. `map_pages` takes a new frame for every page of the
range and overwrites the entry, whatever it held: the frame of a page that was mapped already is
neither freed nor reached any more, and `free_user_pml4` does not return it. If no range that is
mapped has a page in it that is mapped already, all frames stay reachable.
-/

namespace Hltos

open Lib.Radix Lib.Transition FrameAllocator Pte List Option

namespace Vmm

variable {σ : Type} [FrameAllocator σ] {s s' s1 sa : Vmm σ} {r f g : Frame} {H : Idx → Prop}
  {K : Set Frame}

/-! ## New frames at mapped and at unmapped pages -/

/-- A frame that is overwritten is lost: from then on it counts as held by others. -/
theorem Placed.orphan {i1 i2 i3 i4 : Idx} {e : Word} (ho : Owns H r K s) (hH : H i4)
    (ha : s.alloc = some (f, sa)) (he : child e = some f)
    (hp : Placed H r [i1, i2, i3, i4] e sa s1 s')
    (hold : table s.mem r [i1, i2, i3, i4] = some g) : Owns H r (insert g K) s' := by
  obtain ⟨hfresh, halloc, hmem, -⟩ := alloc_spec ha
  have hk := Placed.keeps ho hH ha he hp
  have hg := ho.tree.allocated ⟨_, leaf_mem hH, hold⟩
  have hga : g ∈ allocated sa.pmm := by rw [halloc]; exact .inr hg
  have hre := hp.leaf.rebound
  rw [present_of_child he] at hre
  have hgone : g ∉ owned H r s' := by
    intro hm
    rcases (hre.mem_frames_iff (fun _ _ => tail_mem_below) (by simp)).mp hm with
      ⟨τ, hτ, hne, ht⟩ | ⟨-, hnew⟩
    · rcases hp.grown.table_cases hτ ht with ht | ⟨hnew, -⟩
      · rw [hmem] at ht
        exact hne (ho.tree.separated τ hτ _ (leaf_mem hH) g ht hold)
      · exact hnew hga
    · cases he.symm.trans hnew
      exact hfresh hg
  refine ⟨hk.owns.tree, ?_, ?_⟩
  · exact Set.insert_subset (hp.allocated_mono hga) hk.owns.kept
  · rintro x (rfl | hx)
    · exact hgone
    · exact hk.owns.apart x hx

namespace Mapped

variable {vs : List Word} (hm : Mapped H r vs s s') (ho : Owns H r K s)

include hm ho

theorem exact (hx : Exact H r K s)
    (hnodup : (vs.map path).Nodup) (hfree : ∀ v ∈ vs, find s.mem r (path v) = none) :
    Exact H r K s' := by
  induction hm with
  | nil s => exact hx
  | cons hH ha he hp hm ih =>
    have hk := Placed.keeps ho hH ha he hp
    rw [map_cons, nodup_cons] at hnodup
    apply ih hk.owns (Placed.exact hx hH ha he hp (hfree _ mem_cons_self)) hnodup.2
    intro v hv
    have hne : path v ≠ path _ := fun heq => hnodup.1 (heq ▸ mem_map_of_mem hv)
    rw [(Placed.untouched ho ha hp (isPage_path (hm.head v hv)) hne).find]
    exact hfree v (mem_cons_of_mem _ hv)

theorem orphan {v : Word} (hv : v ∈ vs)
    (hold : table s.mem r (path v) = some g) : g ∈ allocated s'.pmm ∧ g ∉ K ∧ g ∉ owned H r s' := by
  induction hm with
  | nil s => cases hv
  | @cons u e vs f s sa s1 sm s' hH ha he hp hm ih =>
    by_cases heq : path v = path u
    · rw [heq] at hold
      have hrest := hm.keeps (Placed.orphan ho hH ha he hp hold)
      refine ⟨hrest.owns.kept (.inl rfl), ?_, hrest.owns.apart g (.inl rfl)⟩
      exact fun hK => ho.apart g hK ⟨_, path_mem hH, hold⟩
    · have hvs : v ∈ vs := (mem_cons.mp hv).resolve_left (fun h => heq (h ▸ rfl))
      apply ih (Placed.keeps ho hH ha he hp).owns hvs
      rw [(Placed.untouched ho ha hp (isPage_path (hm.head v hvs)) heq).table, hold]

/-- New frames orphan nothing exactly if none of their pages was mapped. -/
theorem exact_iff (hx : Exact H r K s) (hnodup : (vs.map path).Nodup) :
    Exact H r K s' ↔ ∀ v ∈ vs, walk s.mem r v = none := by
  simp only [walk_eq_find]
  refine ⟨fun hx' v hv => ?_, hm.exact ho hx hnodup⟩
  by_contra hmapped
  obtain ⟨e, he⟩ := ne_none_iff_exists'.mp hmapped
  obtain ⟨g, -, ht⟩ := child_of_find he
  obtain ⟨hg, hK, hnot⟩ := hm.orphan ho hv ht
  exact (hx' g hg).elim hK hnot

end Mapped

/-- The pages that `map_pages` goes through are those that intersect the range. -/
theorem walk_pagesFrom_iff {m : Memory} {virt bytes : Word}
    (hfit : virt.toNat + bytes.toNat + 4095 < 2 ^ 64) (hpos : 0 < bytes.toNat) :
    (∀ v ∈ pagesFrom (numPages virt bytes).toNat (pageStart virt), walk m r v = none) ↔
      ∀ v, Intersects virt bytes v → walk m r v = none := by
  constructor
  · intro h v hv
    obtain ⟨k, hk, heq⟩ := (covers_iff hfit hpos v).mpr hv
    rw [walk_congr heq]
    exact h _ (mem_pagesFrom.mpr ⟨k, hk, rfl⟩)
  · intro h v hv
    obtain ⟨k, hk, rfl⟩ := mem_pagesFrom.mp hv
    exact h _ ((covers_iff hfit hpos _).mp ⟨k, hk, rfl⟩)

theorem nodup_pagesFrom {n : Nat} {virtPage : Word} (hn : n ≤ 2 ^ 36) :
    ((pagesFrom n virtPage).map path).Nodup := by
  induction n generalizing virtPage with
  | zero => exact nodup_nil
  | succ n ih =>
    refine nodup_cons.mpr ⟨fun hm => ?_, ih (by omega)⟩
    obtain ⟨v, hv, heq⟩ := mem_map.mp hm
    obtain ⟨k, hk, rfl⟩ := mem_pagesFrom.mp hv
    have hvpn := congrArg BitVec.toNat (path_eq_iff.mp heq)
    rw [← nthPage_succ, toNat_vpn_nthPage] at hvpn
    have hlt := (vpn virtPage).isLt
    omega

theorem nodup_heapPagesFrom {n : Nat} {heap : Heap}
    (hin : ∀ k < n, InTables (advanceHeap^[k] heap)) :
    ((heapPagesFrom n heap).map path).Nodup := by
  induction n generalizing heap with
  | zero => exact nodup_nil
  | succ n ih =>
    refine nodup_cons.mpr ⟨fun hm => ?_, ih (fun k hk => hin (k + 1) (by omega))⟩
    obtain ⟨v, hv, heq⟩ := mem_map.mp hm
    obtain ⟨k, hk, rfl⟩ := mem_heapPagesFrom.mp hv
    have hvpn := congrArg BitVec.toNat (path_eq_iff.mp heq)
    have hhead : InTables heap := hin 0 (by omega)
    rw [toNat_vpn_nextHeapVirtPage hhead, ← Function.iterate_succ_apply,
      toNat_vpn_nextHeapVirtPage (hin (k + 1) (by omega)),
      pageNumber_iterate (fun j hj => hin j (by omega))] at hvpn
    omega

/-! ## One address space -/

/-- What is mapped and unmapped in one address space: segments, the stack and `brk` are `map_pages`,
`mmap` is `map_heap_pages`. -/
inductive SpaceOp where
  | mapPages (virt bytes : Word) (flags : Flags)
  | mapHeapPages (heap : Heap) (bytes : Word) (flags : Flags)
  | unmapMemAt (virtPage numPages : Word)

namespace SpaceOp

def next (pml4 : Frame) : SpaceOp → Vmm σ → Option (Vmm σ)
  | mapPages virt bytes flags, s => s.mapPages pml4 virt bytes flags
  | mapHeapPages heap bytes flags, s => do
    let (_, _, s) ← s.mapHeapPages pml4 heap bytes flags
    return s
  | unmapMemAt virtPage numPages, s => s.unmapMemAt pml4 numPages.toNat virtPage

/-- The addresses are in the lower half. -/
def Low : SpaceOp → Prop
  | mapPages virt bytes _ => virt.toNat + bytes.toNat ≤ 2 ^ 47
  | mapHeapPages heap bytes _ => CursorIn lowerHalf (heapPages bytes).toNat heap
  | unmapMemAt virtPage numPages => virtPage.toNat + numPages.toNat * 4096 ≤ 2 ^ 47

/-- No page that is to be mapped is mapped. -/
def Fresh (pml4 : Frame) (s : Vmm σ) : SpaceOp → Prop
  | mapPages virt bytes _ => ∀ v, Intersects virt bytes v → walk s.mem pml4 v = none
  | mapHeapPages heap bytes _ =>
    ∀ v ∈ heapPagesFrom (heapPages bytes).toNat heap, walk s.mem pml4 v = none
  | unmapMemAt _ _ => True

end SpaceOp

/-- An address space that `create_user_pml4` has just created, when the frames of `K` were allocated
to others. -/
def Created (pml4 : Frame) (K : Set Frame) (s : Vmm σ) : Prop :=
  ∃ s0 : Vmm σ, 256 ≤ s0.kernelStart.toNat ∧ s0.kernelPml4 ∈ allocated s0.pmm ∧
    allocated s0.pmm = K ∧ s0.createUserPml4 = some (pml4, s)

def spaceSystem (σ : Type) [FrameAllocator σ] (pml4 : Frame) (K : Set Frame) :
    System (Vmm σ) SpaceOp where
  init := Created pml4 K
  next := SpaceOp.next pml4

/-- The address space with its frames, and the others with theirs. -/
structure UserSpace (pml4 : Frame) (K : Set Frame) (s : Vmm σ) : Prop where
  half : 256 ≤ s.kernelStart.toNat
  root : pml4 ≠ s.kernelPml4
  owns : Owns s.userHead pml4 K s

namespace UserSpace

variable {pml4 : Frame} {op : SpaceOp}

theorem userHead (h : UserSpace pml4 K s) {i : Idx} (hi : lowerHalf i) : s.userHead i := by
  have hhalf := h.half
  show i.toNat < s.kernelStart.toNat
  unfold lowerHalf at hi
  omega

theorem of_keeps (h : UserSpace pml4 K s) (hk : Keeps s.userHead pml4 K s s') :
    UserSpace pml4 K s' where
  half := by rw [hk.same.kernelStart]; exact h.half
  root := by rw [hk.same.kernelPml4]; exact h.root
  owns := by rw [hk.same.userHead]; exact hk.owns

theorem of_created (h : Created pml4 K s) : UserSpace pml4 K s ∧ Exact s.userHead pml4 K s := by
  obtain ⟨s0, hhalf, hroot, rfl, hrun⟩ := h
  have hnew := createUserPml4_spec hroot hrun
  refine ⟨⟨?_, ?_, ?_⟩, ?_⟩
  · rw [hnew.same.kernelStart]
    exact hhalf
  · rw [hnew.same.kernelPml4]
    exact fun heq => hnew.fresh (heq ▸ hroot)
  · rw [hnew.same.userHead]
    exact hnew.owns
  · rw [hnew.same.userHead]
    exact hnew.exact

section

variable (h : UserSpace pml4 K s)

include h

/-- What an operation does: it keeps the others' frames, and it orphans none of its own exactly if
it maps only pages that are not mapped. -/
theorem step (hlow : op.Low) (hnext : op.next pml4 s = some s') : Keeps s.userHead pml4 K s s' ∧
      (Exact s.userHead pml4 K s → (Exact s'.userHead pml4 K s' ↔ op.Fresh pml4 s)) := by
  cases op with
  | mapPages virt bytes flags =>
    have hm := mapPagesFrom_mapped h.owns
      (fun k hk => h.userHead (lowerHalf_mapPages hlow k hk)) (mapPages_eq hnext)
    have hk := hm.keeps h.owns
    refine ⟨hk, fun hx => ?_⟩
    have hlow' : virt.toNat + bytes.toNat ≤ 2 ^ 47 := hlow
    have hfit : virt.toNat + bytes.toNat + 4095 < 2 ^ 64 := by omega
    have hnum := toNat_numPages hfit
    rw [hk.same.userHead, hm.exact_iff h.owns hx (nodup_pagesFrom (by omega))]
    exact walk_pagesFrom_iff hfit (mapPages_pos hnext)
  | mapHeapPages heap bytes flags =>
    obtain ⟨⟨_, _, _⟩, hrun, hnext⟩ := of_bind hnext
    cases hnext
    obtain ⟨first, s1, hfrom, hne, hst, -⟩ := mapHeapPages_eq hrun
    obtain ⟨hm, -, hin, hfirst⟩ :=
      mapHeapPagesFrom_mapped h.owns (hlow.mono (fun _ => h.userHead)) hfrom
    have hk := hm.keeps h.owns
    obtain ⟨hk', hfind, -⟩ := storeWord_keeps hk.owns (hm.head first (hfirst.resolve_left hne)) hst
    refine ⟨hk.trans hk', fun hx => ?_⟩
    have hpmm : s'.pmm = s1.pmm := by
      obtain ⟨e, -, rfl⟩ := storeWord_eq_some hst
      rfl
    rw [hk'.same.userHead, hk.same.userHead, Exact.congr hfind (by rw [hpmm])]
    exact hm.exact_iff h.owns hx (nodup_heapPagesFrom (fun k hk => (hin k hk).1))
  | unmapMemAt virtPage numPages =>
    have hlow' := fun k hk => h.userHead (lowerHalf_nthPage hlow k hk)
    have hk := unmapMemAt_keeps h.owns hlow' hnext
    refine ⟨hk, fun hx => ?_⟩
    rw [hk.same.userHead]
    exact iff_of_true (unmapMemAt_exact h.owns hx hlow' hnext) trivial

/-- What `free_user_pml4` leaves: what others hold, and what is orphaned. -/
theorem mem_allocated_freeUserPml4 : f ∈ allocated (s.freeUserPml4 pml4).pmm ↔
      f ∈ allocated s.pmm ∧ f ∉ owned s.userHead pml4 s := by
  -- all that is not reached counts as held by others
  have ho : Owns s.userHead pml4 (allocated s.pmm \ owned s.userHead pml4 s) s :=
    ⟨h.owns.tree, fun _ hf => hf.1, fun _ hf => hf.2⟩
  have hx : Exact s.userHead pml4 (allocated s.pmm \ owned s.userHead pml4 s) s := by
    intro g hg
    by_cases hm : g ∈ owned s.userHead pml4 s
    · exact .inr hm
    · exact .inl ⟨hg, hm⟩
  obtain ⟨hkept, hall, -⟩ := freeUserPml4_spec h.root ho
  exact ⟨fun hf => hall hx hf, fun hf => (hkept f hf).2⟩

/-- `free_user_pml4` returns all frames of the address space exactly if none is orphaned. -/
theorem freeUserPml4_returns_iff :
    allocated (s.freeUserPml4 pml4).pmm = K ↔ Exact s.userHead pml4 K s := by
  constructor
  · intro heq f hf
    by_cases hm : f ∈ owned s.userHead pml4 s
    · exact .inr hm
    · exact .inl (heq ▸ h.mem_allocated_freeUserPml4.mpr ⟨hf, hm⟩)
  · intro hx
    ext f
    rw [h.mem_allocated_freeUserPml4]
    exact ⟨fun hf => (hx f hf.1).resolve_right hf.2, fun hf => ⟨h.owns.kept hf, h.owns.apart f hf⟩⟩

end

end UserSpace

/-- **Frames are orphaned by mapping over mapped pages, and only so.** In every run that maps only
pages that are not mapped, every frame that was taken for the address space and not freed is reached
from its root, and `free_user_pml4` returns all of them. From such a state every further operation
keeps this exactly if it maps only pages that are not mapped. -/
theorem reachable_noOrphans {pml4 : Frame} {K : Set Frame} {s : Vmm σ}
    (h : (spaceSystem σ pml4 K).ReachableUnder (fun op s => op.Low ∧ op.Fresh pml4 s) s) :
    Exact s.userHead pml4 K s ∧ allocated (s.freeUserPml4 pml4).pmm = K ∧
      ∀ (op : SpaceOp) s', op.Low → op.next pml4 s = some s' →
        (Exact s'.userHead pml4 K s' ↔ op.Fresh pml4 s) := by
  have hinv : UserSpace pml4 K s ∧ Exact s.userHead pml4 K s := by
    refine h.invariant (fun s => UserSpace.of_created) ?_
    rintro s s' op ⟨hspace, hx⟩ ⟨hlow, hfresh⟩ hnext
    obtain ⟨hk, hiff⟩ := hspace.step hlow hnext
    exact ⟨hspace.of_keeps hk, (hiff hx).mpr hfresh⟩
  obtain ⟨hspace, hx⟩ := hinv
  exact ⟨hx, hspace.freeUserPml4_returns_iff.mpr hx, fun op s' hlow hnext =>
    (hspace.step hlow hnext).2 hx⟩

open Spaces (bootVmm)

theorem bootVmm_created {s : Vmm FramePool} (h : bootVmm.createUserPml4 = some (1, s)) :
    Created 1 (allocated bootVmm.pmm) s :=
  ⟨bootVmm, by decide, (by decide : (0 : Frame) ∉ bootVmm.pmm.free), rfl, h⟩

/-- What `brk` maps when the break is at `0x402000 + k` and moves by one byte. -/
def brkByte (k : Word) : SpaceOp := .mapPages (0x402000 + k) 1 (pageUser ||| pageWrite)

/-- The break moves by one byte, and by one byte again: the page is mapped twice, the first frame is
not reached any more, and `free_user_pml4` does not return it. -/
theorem brkByte_orphan : ∃ s0 s f, bootVmm.createUserPml4 = some (1, s0) ∧
    (spaceSystem FramePool 1 (allocated bootVmm.pmm)).exec [brkByte 0, brkByte 1] s0 = some s ∧
    f ∈ allocated s.pmm ∧ f ∉ allocated bootVmm.pmm ∧ f ∉ owned s.userHead 1 s ∧
    f ∈ allocated (s.freeUserPml4 1).pmm := by
  have hrun : bootVmm.createUserPml4.bind (fun (q, s0) => ((brkByte 0).next 1 s0).bind (fun s1 =>
      ((brkByte 1).next 1 s1).bind (fun _ => (walk s1.mem 1 0x402000).map (fun _ => q)))) =
      some 1 := by
    decide +kernel
  obtain ⟨⟨q, s0⟩, hs0, hrun⟩ := of_bind hrun
  obtain ⟨s1, hs1, hrun⟩ := of_bind hrun
  obtain ⟨s, hs, hrun⟩ := of_bind hrun
  obtain ⟨e, he, rfl⟩ := map_eq_some_iff.mp hrun
  obtain ⟨hspace0, hx0⟩ := UserSpace.of_created (bootVmm_created hs0)
  have hlow : ∀ k < 2, (brkByte (.ofNat 64 k)).Low := by unfold SpaceOp.Low brkByte; decide
  have hspace1 := hspace0.of_keeps (hspace0.step (hlow 0 (by omega)) hs1).1
  have hspace := hspace1.of_keeps (hspace1.step (hlow 1 (by omega)) hs).1
  have hm := mapPagesFrom_mapped hspace1.owns
    (fun k hk => hspace1.userHead (lowerHalf_mapPages (hlow 1 (by omega)) k hk)) (mapPages_eq hs)
  rw [walk_eq_find] at he
  obtain ⟨f, -, ht⟩ := child_of_find he
  obtain ⟨hf, hK, hnot⟩ := hm.orphan (v := 0x402000) hspace1.owns (by decide) ht
  have huser : s.userHead = s1.userHead := (hm.keeps hspace1.owns).same.userHead
  rw [← huser] at hnot
  refine ⟨s0, s, f, hs0, ?_, hf, hK, hnot, hspace.mem_allocated_freeUserPml4.mpr ⟨hf, hnot⟩⟩
  show ((brkByte 0).next 1 s0).bind _ = some s
  rw [hs1]
  show ((brkByte 1).next 1 s1).bind _ = some s
  rw [hs]
  rfl

/-- A page, and the next one: all frames are returned. -/
theorem brkPages_noOrphans : ∃ s0 s, bootVmm.createUserPml4 = some (1, s0) ∧
    (spaceSystem FramePool 1 (allocated bootVmm.pmm)).exec [brkByte 0, brkByte 0x1000] s0 = some s ∧
    allocated (s.freeUserPml4 1).pmm = allocated bootVmm.pmm := by
  have hrun : bootVmm.createUserPml4.bind (fun (q, s0) => ((brkByte 0).next 1 s0).bind (fun s1 =>
      ((brkByte 0x1000).next 1 s1).map (fun _ =>
        (q, walk s0.mem 1 0x402000, walk s1.mem 1 0x403000)))) = some (1, none, none) := by
    decide +kernel
  obtain ⟨⟨q, s0⟩, hs0, hrun⟩ := of_bind hrun
  obtain ⟨s1, hs1, hrun⟩ := of_bind hrun
  obtain ⟨s, hs, heq⟩ := map_eq_some_iff.mp hrun
  simp only [Prod.mk.injEq] at heq
  obtain ⟨rfl, hfree0, hfree1⟩ := heq
  have hfresh : ∀ {t : Vmm FramePool} {v : Word} {k : Word}, walk t.mem 1 v = none →
      pagesFrom (numPages (0x402000 + k) 1).toNat (pageStart (0x402000 + k)) = [v] →
      (0x402000 + k).toNat + 1 + 4095 < 2 ^ 64 → (brkByte k).Fresh 1 t := by
    intro t v k hv hpages hfit
    refine (walk_pagesFrom_iff hfit (by decide)).mp (fun u hu => ?_)
    rw [hpages, mem_singleton] at hu
    rw [hu, hv]
  have hreach : (spaceSystem FramePool 1 (allocated bootVmm.pmm)).ReachableUnder
      (fun op s => op.Low ∧ op.Fresh 1 s) s := by
    refine .tail (l := brkByte 0x1000) (.tail (l := brkByte 0) (.start (bootVmm_created hs0))
      ⟨?_, ?_⟩ hs1) ⟨?_, ?_⟩ hs
    · unfold SpaceOp.Low brkByte; decide
    · exact hfresh hfree0 (by decide) (by decide)
    · unfold SpaceOp.Low brkByte; decide
    · exact hfresh hfree1 (by decide) (by decide)
  refine ⟨s0, s, hs0, ?_, (reachable_noOrphans hreach).2.1⟩
  show ((brkByte 0).next 1 s0).bind _ = some s
  rw [hs1]
  show ((brkByte 0x1000).next 1 s1).bind _ = some s
  rw [hs]
  rfl

end Vmm

end Hltos
