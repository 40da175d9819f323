import Hltos.Memory.Pages

/-!
# Mapping and unmapping refine updates of a partial map

`map_page_to_frame`, `unmap_page` and `map_pages` on the partial map `walk`: the first two change
it at one page, the third at the pages of a range of bytes.
-/

namespace Hltos

open Lib.Radix FrameAllocator Pte Option

variable {T : Region Idx}

namespace Vmm

variable {σ : Type} {s s' s1 : Vmm σ} {r f pt : Frame} {i : Idx} {π : List Idx} {H : Idx → Prop}
  {i1 i2 i3 i4 : Idx}

/-! ## Writing an entry of an innermost table -/

/-- The entry at a path of full length has been replaced, and the tables have not changed. -/
structure LeafWrite (H : Idx → Prop) (r : Frame) (π : List Idx) (w : Word) (m m' : Memory) :
    Prop where
  rebound : Rebound (below H 3) m m' r π (present w)
  tables : ∀ τ ∈ below H 3, table m' r τ = table m r τ
  mem : ∀ g ∉ frames m r (below H 3), m' g = m g
  root : ∀ j, m' r j = m r j

theorem leafWrite {m : Memory} (hsep : Separated m r (below H 3))
    (hH : H i4) (ht : table m r [i2, i3, i4] = some pt) (w : Word) :
    LeafWrite H r [i1, i2, i3, i4] w m (setEntry m pt i1 w) := by
  have hπ : [i2, i3, i4] ∈ below H 3 := by simp [mem_below, hH]
  refine ⟨rebound_leaf hsep hπ ht leaf_not_mem w, ?_, ?_, ?_⟩
  · intro τ hτ
    apply table_setEntry_of_not_suffix hsep hπ ht hτ
    exact fun hs => leaf_not_mem ((below H 3).of_suffix hτ hs)
  · intro g hg
    apply setEntry_of_ne
    rintro rfl
    exact hg (mem_frames hπ ht)
  · intro j
    rw [setEntry_of_ne]
    rintro rfl
    cases hsep _ hπ [] (below H 3).nil r ht rfl

namespace LeafWrite

variable {m m' : Memory} {w : Word} {virt : Word}

theorem frames_eq (h : LeafWrite H r π w m m') :
    frames m' r (below H 3) = frames m r (below H 3) := by
  ext g
  constructor
  · rintro ⟨τ, hτ, hg⟩
    exact ⟨τ, hτ, by rw [← h.tables τ hτ]; exact hg⟩
  · rintro ⟨τ, hτ, hg⟩
    exact ⟨τ, hτ, by rw [h.tables τ hτ]; exact hg⟩

theorem separated (h : LeafWrite H r π w m m') (hsep : Separated m r (below H 3)) :
    Separated m' r (below H 3) := by
  intro τ hτ τ' hτ' g hg hg'
  rw [h.tables τ hτ] at hg
  rw [h.tables τ' hτ'] at hg'
  exact hsep τ hτ τ' hτ' g hg hg'

theorem walk_here (h : LeafWrite H r (path virt) w m m') : walk m' r virt = present w := by
  rw [walk_eq_find]
  exact h.rebound.here

theorem walk_other {v : Word} (h : LeafWrite H r (path virt) w m m') (hv : H (pml4Idx v))
    (hne : vpn v ≠ vpn virt) : walk m' r v = walk m r v := by
  rw [walk_eq_find, walk_eq_find]
  exact h.rebound.other _ _ (path_tail_mem hv) (fun heq => hne (path_eq_iff.mp heq))

end LeafWrite

/-! ## `map_page_to_frame` -/

variable [FrameAllocator σ]

/-- Blank tables do not show in the partial map. -/
theorem Grown.walk (h : Grown (below H 3) r s s') {v : Word} (hv : H (pml4Idx v)) :
    walk s'.mem r v = walk s.mem r v := by
  rw [walk_eq_find, walk_eq_find]
  rcases h.find (ptIdx v) _ (path_tail_mem hv) with heq | ⟨-, hmem⟩
  · exact heq
  · exact absurd hmem leaf_not_mem

/-- What every mapping function does: grow the tables, and write one entry of the innermost. -/
structure Placed (H : Idx → Prop) (r : Frame) (π : List Idx) (e : Word) (s s1 s' : Vmm σ) :
    Prop where
  grown : Grown (below H 3) r s s1
  leaf : LeafWrite H r π e s1.mem s'.mem
  pmm : s'.pmm = s1.pmm
  same : Same s s'

theorem placed_populateEntry {flags : Flags} (hs : Tree (below H 3) r s)
    (hH : H i4) (h : s.ensureTables r i4 i3 i2 flags = some (pt, s1)) : ∃ e, Maps e f flags ∧
      Placed H r [i1, i2, i3, i4] e s s1 (s1.populateEntry pt i1 f flags) := by
  obtain ⟨hg, ht⟩ := ensureTables_spec hs (by simp [mem_below, hH]) h
  exact ⟨_, maps_populatePte (s1.mem pt i1) f flags, hg, leafWrite hg.tree.separated hH ht _, rfl,
    hg.same.kernelPml4, hg.same.hhdmOffset, hg.same.kheap⟩

variable {virtPage : Word}

theorem mapPageToFrame_spec {flags : Flags} (hs : Tree (below H 3) r s)
    (hH : H (pml4Idx virtPage)) (h : s.mapPageToFrame r virtPage f flags = some s') :
    ∃ e s1, Maps e f flags ∧ Placed H r (path virtPage) e s s1 s' := by
  unfold mapPageToFrame at h
  split at h
  · cases h
  · obtain ⟨⟨pt, s1⟩, h1, h⟩ := of_bind h
    cases h
    obtain ⟨e, he, hp⟩ := placed_populateEntry (f := f) hs hH h1
    exact ⟨e, s1, he, hp⟩

namespace Placed

variable {e : Word} {virt v : Word}

theorem walk_here (h : Placed H r (path virt) e s s1 s') (he : (child e).isSome) :
    walk s'.mem r virt = some e := by
  obtain ⟨g, hg⟩ := isSome_iff_exists.mp he
  rw [h.leaf.walk_here, present_of_child hg]

theorem walk_other (h : Placed H r (path virt) e s s1 s') (hv : H (pml4Idx v))
    (hne : vpn v ≠ vpn virt) : walk s'.mem r v = walk s.mem r v :=
  (h.leaf.walk_other hv hne).trans (h.grown.walk hv)

theorem allocated_mono (h : Placed H r π e s s1 s') : allocated s.pmm ⊆ allocated s'.pmm := by
  intro g hg
  rw [h.pmm]
  exact (h.grown.allocated g).mpr (Or.inl hg)

theorem tree (h : Placed H r π e s s1 s') : Tree (below H 3) r s' := by
  refine ⟨h.leaf.separated h.grown.tree.separated, ?_⟩
  rw [h.leaf.frames_eq, h.pmm]
  exact h.grown.tree.allocated

end Placed

/-! ## `unmap_page` -/

/-- An unmapped page is left alone; a mapped one loses its entry, and its frame is freed. -/
theorem unmapPage_spec (hsep : Separated s.mem r (below H 3))
    (hH : H (pml4Idx virtPage)) (h : s.unmapPage r virtPage = some s') :
    (s' = s ∧ walk s.mem r virtPage = none) ∨
      ∃ e, walk s.mem r virtPage = some e ∧ LeafWrite H r (path virtPage) 0 s.mem s'.mem ∧
        s'.pmm = freeFrame (addr e) s.pmm ∧ Same s s' := by
  unfold unmapPage at h
  split at h
  · cases h
  · split at h
    · next hnone =>
      cases h
      exact Or.inl ⟨rfl, by rw [walk, hnone]; rfl⟩
    · next pt i hfind =>
      cases h
      obtain ⟨ht, rfl, -⟩ := findPte_eq_some hfind
      exact Or.inr ⟨s.mem pt (ptIdx virtPage), by rw [walk, hfind]; rfl,
        leafWrite hsep hH ht 0, rfl, rfl, rfl, rfl⟩

theorem present_zero : present (0 : Word) = none := present_eq_none.mpr child_zero

/-- **`unmap_page` on the partial map.** -/
theorem unmapPage_walk (hsep : Separated s.mem r (below H 3))
    (hH : H (pml4Idx virtPage)) (h : s.unmapPage r virtPage = some s') : walk s'.mem r virtPage =
      none ∧ (∀ v, H (pml4Idx v) → vpn v ≠ vpn virtPage → walk s'.mem r v = walk s.mem r v) ∧
      allocated s'.pmm = allocated s.pmm \ { g | (walk s.mem r virtPage).map addr = some g } ∧
      Separated s'.mem r (below H 3) := by
  rcases unmapPage_spec hsep hH h with ⟨rfl, hnone⟩ | ⟨e, he, hleaf, hpmm, -⟩
  · exact ⟨hnone, fun _ _ _ => rfl, by ext g; simp [hnone], hsep⟩
  · refine ⟨by rw [hleaf.walk_here, present_zero], fun v hv hne => hleaf.walk_other hv hne, ?_,
      hleaf.separated hsep⟩
    rw [hpmm, free_allocated, he]
    ext g
    simp [eq_comm]

/-! ## `map_pages` -/

/-- The pages from `virtPage` on have been mapped, each to a frame of its own that was not
allocated, and no other page has changed. -/
structure MapsPages (H : Idx → Prop) (r : Frame) (virtPage : Word) (n : Nat) (flags : Flags)
    (s s' : Vmm σ) : Prop where
  new : ∀ v, Covers virtPage n v → ∃ e f, walk s'.mem r v = some e ∧ Maps e f flags ∧
    f ∉ allocated s.pmm ∧ f ∈ allocated s'.pmm
  distinct : ∀ v v' e e', Covers virtPage n v → Covers virtPage n v' → vpn v ≠ vpn v' →
    walk s'.mem r v = some e → walk s'.mem r v' = some e' → addr e ≠ addr e'
  other : ∀ v, H (pml4Idx v) → ¬ Covers virtPage n v → walk s'.mem r v = walk s.mem r v
  tree : Tree (below H 3) r s'
  allocated : allocated s.pmm ⊆ allocated s'.pmm
  same : Same s s'

theorem Tree.alloc (hs : Tree T r s) (h : s.alloc = some (f, s')) : Tree T r s' := by
  obtain ⟨-, halloc, hmem, -⟩ := alloc_spec h
  constructor
  · rw [hmem]
    exact hs.separated
  · rw [hmem, halloc]
    exact hs.allocated.trans (Set.subset_insert _ _)

theorem walk_congr {m : Memory} {v v' : Word} (h : vpn v = vpn v') : walk m r v = walk m r v' := by
  rw [walk_eq_find, walk_eq_find, path_eq_iff.mpr h]

/-- The loop of `map_pages`: one page after the other, each in a frame of its own. -/
theorem mapPagesFrom_spec {flags : Flags} {n : Nat} (hs : Tree (below H 3) r s)
    (hH : ∀ k < n, H (pml4Idx (nthPage virtPage k)))
    (h : s.mapPagesFrom r flags n virtPage = some s') : MapsPages H r virtPage n flags s s' := by
  induction n generalizing virtPage s with
  | zero =>
    cases h
    have hno : ∀ v, ¬ Covers virtPage 0 v := by rintro v ⟨k, hk, -⟩; omega
    exact ⟨fun v hv => absurd hv (hno v), fun v _ _ _ hv => absurd hv (hno v), fun _ _ _ => rfl, hs,
      subset_rfl, .refl _⟩
  | succ n ih =>
    obtain ⟨⟨frame, sa⟩, ha, h⟩ := of_bind h
    obtain ⟨sm, hm, h⟩ := of_bind h
    obtain ⟨hH0, hH⟩ := heads_succ hH
    obtain ⟨hfresh, halloc, hmem, hsame⟩ := alloc_spec ha
    obtain ⟨e0, s1, he0, hp⟩ := mapPageToFrame_spec (hs.alloc ha) hH0 hm
    have hrest := ih hp.tree hH h
    have hmono : allocated s.pmm ⊆ allocated sm.pmm := by
      refine subset_trans ?_ hp.allocated_mono
      rw [halloc]
      exact Set.subset_insert _ _
    have hframe := hp.allocated_mono (by rw [halloc]; exact Or.inl rfl)
    -- the first page keeps its entry unless the range comes back to it
    have hfirst : ∀ v, vpn v = vpn virtPage → ¬ Covers (virtPage + pageSize) n v →
        walk s'.mem r v = some e0 := by
      intro v hv hnot
      rw [hrest.other v (by rw [pml4Idx_of_vpn hv]; exact hH0) hnot, walk_congr hv]
      exact hp.walk_here (by rw [he0.child]; rfl)
    refine ⟨?_, ?_, ?_, hrest.tree, hmono.trans hrest.allocated,
      (hsame.trans hp.same).trans hrest.same⟩
    · intro v hv
      by_cases hlater : Covers (virtPage + pageSize) n v
      · obtain ⟨e, f, he, hf, hnew, hin⟩ := hrest.new v hlater
        exact ⟨e, f, he, hf, fun hs => hnew (hmono hs), hin⟩
      · have hv0 := (covers_succ.mp hv).resolve_right hlater
        exact ⟨e0, frame, hfirst v hv0 hlater, he0, hfresh, hrest.allocated hframe⟩
    · -- a later page has a frame that was free when the first one had its own already
      have hcross : ∀ v v' e e', vpn v = vpn virtPage → ¬ Covers (virtPage + pageSize) n v →
          Covers (virtPage + pageSize) n v' → walk s'.mem r v = some e →
          walk s'.mem r v' = some e' → addr e ≠ addr e' := by
        intro v v' e e' hv hnot hv' he he'
        obtain ⟨e1, f1, he1, hf1, hnew, -⟩ := hrest.new v' hv'
        cases he'.symm.trans he1
        cases he.symm.trans (hfirst v hv hnot)
        rw [he0.addr, hf1.addr]
        rintro rfl
        exact hnew hframe
      intro v v' e e' hv hv' hne he he'
      by_cases h1 : Covers (virtPage + pageSize) n v <;>
        by_cases h2 : Covers (virtPage + pageSize) n v'
      · exact hrest.distinct v v' e e' h1 h2 hne he he'
      · exact (hcross v' v e' e ((covers_succ.mp hv').resolve_right h2) h2 h1 he' he).symm
      · exact hcross v v' e e' ((covers_succ.mp hv).resolve_right h1) h1 h2 he he'
      · exact absurd (((covers_succ.mp hv).resolve_right h1).trans
          ((covers_succ.mp hv').resolve_right h2).symm) hne
    · intro v hv hnot
      rw [covers_succ, not_or] at hnot
      rw [hrest.other v hv hnot.2, hp.walk_other hv hnot.1, hmem]

variable {bytes : Word}

theorem mapPages_eq {virt : Word} {flags : Flags} (h : s.mapPages r virt bytes flags = some s') :
    s.mapPagesFrom r flags (numPages virt bytes).toNat (pageStart virt) = some s' := by
  unfold mapPages at h
  split at h
  · cases h
  · split at h
    · cases h
    · split at h
      · cases h
      · exact h

theorem mapPages_pos {virt : Word} {flags : Flags}
    (h : s.mapPages r virt bytes flags = some s') : 0 < bytes.toNat := by
  unfold mapPages at h
  split at h
  · cases h
  · next hne => exact Nat.pos_of_ne_zero (fun hzero => hne (BitVec.eq_of_toNat_eq hzero))

/-! ## The functions return -/

/-- `n` frames can be allocated one after the other. -/
inductive CanAlloc : Nat → σ → Prop
  | zero (pmm : σ) : CanAlloc 0 pmm
  | succ {n : Nat} {pmm pmm' : σ} {f : Frame} :
    allocFrame pmm = some (f, pmm') → CanAlloc n pmm' → CanAlloc (n + 1) pmm

section Returns

variable {n : Nat} {flags : Flags}

theorem CanAlloc.of_succ {pmm : σ} (h : CanAlloc (n + 1) pmm) : CanAlloc n pmm := by
  induction n generalizing pmm with
  | zero => exact .zero pmm
  | succ n ih =>
    cases h with
    | succ ha hn => exact .succ ha (ih hn)

theorem CanAlloc.alloc (h : CanAlloc (n + 1) s.pmm) :
    ∃ f s', s.alloc = some (f, s') ∧ CanAlloc n s'.pmm := by
  cases h with
  | @succ _ _ pmm' f ha hn => exact ⟨f, { s with pmm := pmm' }, by simp [Vmm.alloc, ha], hn⟩

theorem ensurePresent_returns (populate : Word → Frame → Flags → Word) (f : Frame) (i : Idx)
    (flags : Flags) (h : CanAlloc (n + 1) s.pmm) :
    ∃ g s', s.ensurePresent populate f i flags = some (g, s') ∧ CanAlloc n s'.pmm := by
  unfold ensurePresent
  by_cases hp : p (s.mem f i)
  · simp only [hp, Bool.not_true, Bool.false_eq_true, if_false]
    exact ⟨_, s, rfl, h.of_succ⟩
  · obtain ⟨frame, sa, ha, hn⟩ := h.alloc
    simp only [hp, Bool.not_false, if_true, ha]
    exact ⟨_, _, rfl, hn⟩

theorem ensureTables_returns (r : Frame) (i4 i3 i2 : Idx) (flags : Flags)
    (h : CanAlloc (n + 3) s.pmm) :
    ∃ g s', s.ensureTables r i4 i3 i2 flags = some (g, s') ∧ CanAlloc n s'.pmm := by
  obtain ⟨pdpt, s1, h1, hn1⟩ := ensurePresent_returns (n := n + 2) populatePml4e r i4 flags h
  obtain ⟨pd, s2, h2, hn2⟩ := ensurePresent_returns (n := n + 1) populatePdpte pdpt i3 flags hn1
  obtain ⟨pt, s3, h3, hn3⟩ := ensurePresent_returns populatePde pd i2 flags hn2
  refine ⟨pt, s3, ?_, hn3⟩
  simp [ensureTables, ensurePdptePresent, ensurePdePresent, ensurePtePresent, h1, h2, h3]

theorem mapPageToFrame_returns (r f : Frame) (flags : Flags)
    (halign : isPageAligned virtPage = true) (h : CanAlloc (n + 3) s.pmm) :
    ∃ s', s.mapPageToFrame r virtPage f flags = some s' ∧ CanAlloc n s'.pmm := by
  obtain ⟨pt, s1, h1, hn⟩ := ensureTables_returns r (pml4Idx virtPage) (pdptIdx virtPage)
    (pdIdx virtPage) flags h
  refine ⟨s1.populateEntry pt (ptIdx virtPage) f flags, ?_, hn⟩
  simp [mapPageToFrame, halign, h1]

theorem mapPagesFrom_returns (r : Frame) (flags : Flags) {k : Nat}
    (halign : isPageAligned virtPage = true) (h : CanAlloc (n + 4 * k) s.pmm) :
    ∃ s', s.mapPagesFrom r flags k virtPage = some s' ∧ CanAlloc n s'.pmm := by
  induction k generalizing virtPage s with
  | zero => exact ⟨s, rfl, h⟩
  | succ k ih =>
    obtain ⟨frame, sa, ha, hn⟩ := CanAlloc.alloc (n := n + 4 * k + 3) h
    obtain ⟨sm, hm, hn⟩ := mapPageToFrame_returns r frame flags halign hn
    obtain ⟨s', h', hn⟩ := ih (isPageAligned_add halign) hn
    exact ⟨s', by simp [mapPagesFrom, ha, hm, h'], hn⟩

theorem mapPages_returns (r : Frame) (flags : Flags) {virt : Word} (hpos : bytes ≠ 0)
    (hfit : virt.toNat + bytes.toNat + 4095 < 2 ^ 64)
    (h : CanAlloc (n + 4 * (numPages virt bytes).toNat) s.pmm) :
    ∃ s', s.mapPages r virt bytes flags = some s' ∧ CanAlloc n s'.pmm := by
  have hb : 0 < bytes.toNat := Nat.pos_of_ne_zero (fun h0 => hpos (BitVec.eq_of_toNat_eq h0))
  have hlt : pageStart virt < pageEnd virt bytes := by
    rw [BitVec.lt_def, toNat_pageStart, toNat_pageEnd hfit]
    omega
  have hnum : numPages virt bytes ≠ 0 := by
    intro h0
    have := toNat_numPages hfit
    rw [h0, show (0 : Word).toNat = 0 from rfl] at this
    omega
  obtain ⟨s', h', hn⟩ := mapPagesFrom_returns r flags (isPageAligned_pageStart virt) h
  refine ⟨s', ?_, hn⟩
  unfold mapPages
  rw [if_neg hpos, if_neg (not_not.mpr hlt), if_neg hnum, h']

theorem unmapPage_returns (r : Frame)
    (halign : isPageAligned virtPage = true) : ∃ s', s.unmapPage r virtPage = some s' := by
  unfold unmapPage
  simp only [halign, Bool.not_true, Bool.false_eq_true, if_false]
  split
  · exact ⟨_, rfl⟩
  · exact ⟨_, rfl⟩

end Returns

/-! ## The refinement -/

/-- All entries of the root. -/
def anyHead : Idx → Prop := fun _ => True

/-- The page of `v` intersects the bytes from `virt` on. -/
def Intersects (virt bytes v : Word) : Prop :=
  ∃ a : Nat, virt.toNat ≤ a ∧ a < virt.toNat + bytes.toNat ∧ vpn v = vpn (BitVec.ofNat 64 a)

/-- **The page tables refine a partial map.** Of any page tables in the shape of a tree, from which
only allocated frames are reached: `map_page_to_frame` sets the map at one page, `unmap_page` clears
it at one page and frees the frame, and `map_pages` sets it at the pages of a range to new frames.
The shape is kept, and the functions return if enough frames are left. -/
theorem pageTables_refine_map {s : Vmm σ} {pml4 : Frame}
    (hshape : Separated s.mem pml4 (below anyHead 3))
    (hreach : frames s.mem pml4 (below anyHead 4) ⊆ allocated s.pmm) :
    (∀ virtPage f flags, isPageAligned virtPage = true →
      (CanAlloc 3 s.pmm → ∃ s', s.mapPageToFrame pml4 virtPage f flags = some s') ∧
      ∀ s', s.mapPageToFrame pml4 virtPage f flags = some s' →
        (∃ e, walk s'.mem pml4 virtPage = some e ∧ Maps e f flags) ∧
        (∀ v, vpn v ≠ vpn virtPage → walk s'.mem pml4 v = walk s.mem pml4 v) ∧
        Separated s'.mem pml4 (below anyHead 3)) ∧
    (∀ virtPage, isPageAligned virtPage = true → ∃ s', s.unmapPage pml4 virtPage = some s' ∧
        walk s'.mem pml4 virtPage = none ∧
        (∀ v, vpn v ≠ vpn virtPage → walk s'.mem pml4 v = walk s.mem pml4 v) ∧
        allocated s'.pmm = allocated s.pmm \ { g | (walk s.mem pml4 virtPage).map addr = some g } ∧
        Separated s'.mem pml4 (below anyHead 3)) ∧
    (∀ virt bytes flags, bytes ≠ 0 → virt.toNat + bytes.toNat + 4095 < 2 ^ 64 →
      (CanAlloc (4 * (numPages virt bytes).toNat) s.pmm →
        ∃ s', s.mapPages pml4 virt bytes flags = some s') ∧
      ∀ s', s.mapPages pml4 virt bytes flags = some s' →
        (∀ v, Intersects virt bytes v → walk s'.mem pml4 v ≠ walk s.mem pml4 v ∧
          ∃ e f, walk s'.mem pml4 v = some e ∧ Maps e f flags ∧ f ∉ allocated s.pmm) ∧
        (∀ v v' e e', Intersects virt bytes v → Intersects virt bytes v' → vpn v ≠ vpn v' →
          walk s'.mem pml4 v = some e → walk s'.mem pml4 v' = some e' → addr e ≠ addr e') ∧
        (∀ v, ¬ Intersects virt bytes v → walk s'.mem pml4 v = walk s.mem pml4 v) ∧
        Separated s'.mem pml4 (below anyHead 3)) := by
  have hs : Tree (below anyHead 3) pml4 s :=
    ⟨hshape, fun f ⟨π, hπ, hf⟩ => hreach ⟨π, below_mono (by decide) hπ, hf⟩⟩
  refine ⟨?_, ?_, ?_⟩
  · intro virtPage f flags halign
    refine ⟨fun hn => ?_, fun s' h => ?_⟩
    · obtain ⟨s', h, -⟩ := mapPageToFrame_returns (n := 0) pml4 f flags halign hn
      exact ⟨s', h⟩
    · obtain ⟨e, s1, he, hp⟩ := mapPageToFrame_spec hs trivial h
      exact ⟨⟨e, hp.walk_here (by rw [he.child]; rfl), he⟩, fun v => hp.walk_other trivial,
        hp.tree.separated⟩
  · intro virtPage halign
    obtain ⟨s', h⟩ := unmapPage_returns (s := s) pml4 halign
    obtain ⟨hhere, hother, halloc, hsep⟩ := unmapPage_walk hshape trivial h
    exact ⟨s', h, hhere, fun v => hother v trivial, halloc, hsep⟩
  · intro virt bytes flags hpos hfit
    refine ⟨fun hn => ?_, fun s' h => ?_⟩
    · obtain ⟨s', h, -⟩ := mapPages_returns (n := 0) pml4 flags hpos hfit (by rwa [Nat.zero_add])
      exact ⟨s', h⟩
    · have hb : 0 < bytes.toNat := Nat.pos_of_ne_zero (fun h0 => hpos (BitVec.eq_of_toNat_eq h0))
      have hcovers := covers_iff hfit hb
      have hm := mapPagesFrom_spec hs (fun _ _ => trivial) (mapPages_eq h)
      refine ⟨?_, ?_, ?_, hm.tree.separated⟩
      · intro v hv
        obtain ⟨e, f, he, hf, hnew, -⟩ := hm.new v ((hcovers v).mpr hv)
        refine ⟨?_, e, f, he, hf, hnew⟩
        -- the old entry, if there was one, leads to a frame that was allocated
        intro heq
        rw [he, walk_eq_find] at heq
        obtain ⟨g, hg, ht⟩ := child_of_find heq.symm
        cases hf.child.symm.trans hg
        exact hnew (hreach (mem_frames (path_mem trivial) ht))
      · intro v v' e e' hv hv'
        exact hm.distinct v v' e e' ((hcovers v).mpr hv) ((hcovers v').mpr hv')
      · intro v hv
        exact hm.other v trivial (fun h => hv ((hcovers v).mp h))

/-! ### On a machine with a few free frames -/

end Vmm

/-- The free frames, each listed once. -/
structure FramePool where
  free : List Frame
  nodup : free.Nodup

namespace FramePool

def alloc : FramePool → Option (Frame × FramePool)
  | ⟨[], _⟩ => none
  | ⟨f :: fs, h⟩ => some (f, ⟨fs, (List.nodup_cons.mp h).2⟩)

def release (f : Frame) (pool : FramePool) : FramePool :=
  if h : f ∈ pool.free then pool else ⟨f :: pool.free, List.nodup_cons.mpr ⟨h, pool.nodup⟩⟩

instance : FrameAllocator FramePool where
  allocFrame := alloc
  freeFrame := release
  allocated pool := { f | f ∉ pool.free }
  alloc_fresh {pool pool' f} h := by
    obtain ⟨_ | ⟨g, gs⟩, hnodup⟩ := pool <;> cases h
    simp
  alloc_allocated {pool pool' f} h := by
    obtain ⟨_ | ⟨g, gs⟩, hnodup⟩ := pool <;> cases h
    ext x
    by_cases hx : x = f
    · subst hx; simp [(List.nodup_cons.mp hnodup).1]
    · simp [hx]
  free_allocated f pool := by
    ext x
    unfold release
    split
    · next hf =>
      simp only [Set.mem_ofPred_eq, Set.mem_sdiff, Set.mem_singleton_iff]
      exact ⟨fun hx => ⟨hx, fun heq => hx (heq ▸ hf)⟩, And.left⟩
    · simp [Set.mem_ofPred_eq, Set.mem_sdiff, not_or, and_comm]

end FramePool

namespace Vmm

/-- Zeroed memory, a root in frame 0, and frames 1 to 8 free. -/
def blankVmm : Vmm FramePool where
  mem _ _ := 0
  pmm := ⟨[1, 2, 3, 4, 5, 6, 7, 8], by decide⟩
  kernelPml4 := 0
  hhdmOffset := 0xFFFF800000000000
  kheap := ⟨257, 0, 0, 0⟩

theorem frames_blankVmm : frames blankVmm.mem 0 T ⊆ {0} := by
  rintro f ⟨π, -, hf⟩
  exact (table_of_blank (fun _ _ => child_zero) hf).2

theorem separated_blankVmm : Separated blankVmm.mem 0 T := by
  intro π _ π' _ f hf hf'
  rw [(table_of_blank (fun _ _ => child_zero) hf).1, (table_of_blank (fun _ _ => child_zero) hf').1]

/-- Two bytes across a page boundary: both pages are mapped, and the next one is not. -/
theorem blankVmm_mapPages_boundary :
    ∃ s', blankVmm.mapPages 0 0x400FFF 2 (pageUser ||| pageWrite) = some s' ∧
      (walk s'.mem 0 0x400000).isSome ∧ (walk s'.mem 0 0x401ABC).isSome ∧
      walk s'.mem 0 0x402000 = none := by
  have hreach : frames blankVmm.mem 0 (below anyHead 4) ⊆ allocated blankVmm.pmm := by
    intro f hf
    rw [Set.mem_singleton_iff.mp (frames_blankVmm hf)]
    exact (by decide : (0 : Frame) ∉ blankVmm.pmm.free)
  obtain ⟨hret, hspec⟩ := (pageTables_refine_map separated_blankVmm hreach).2.2 0x400FFF 2
    (pageUser ||| pageWrite) (by decide) (by decide)
  have hcan : CanAlloc 8 blankVmm.pmm := .succ rfl (.succ rfl (.succ rfl (.succ rfl (.succ rfl
    (.succ rfl (.succ rfl (.succ rfl (.zero _))))))))
  obtain ⟨s', h⟩ := hret hcan
  obtain ⟨hnew, -, hother, -⟩ := hspec s' h
  refine ⟨s', h, ?_, ?_, ?_⟩
  · obtain ⟨-, e, _, he, -⟩ := hnew 0x400000 ⟨0x400FFF, by decide, by decide, by decide⟩
    rw [he]; rfl
  · obtain ⟨-, e, _, he, -⟩ := hnew 0x401ABC ⟨0x401000, by decide, by decide, by decide⟩
    rw [he]; rfl
  · rw [hother]
    · rfl
    · rintro ⟨a, h1, h2, h3⟩
      have ha : a = 0x400FFF ∨ a = 0x401000 := by
        have h1' : 0x400FFF ≤ a := h1
        have h2' : a < 0x400FFF + 2 := h2
        omega
      rcases ha with rfl | rfl <;> revert h3 <;> decide

end Vmm

end Hltos
