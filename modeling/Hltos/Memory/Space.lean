import Hltos.Memory.Mapping

/-!
# What an address space owns

The frames behind the entries `H` of a root, pages included, as a resource: they are distinct and
allocated, and apart from a set `K` of frames that others hold. An operation on the space leaves the
frames of `K` as they were (`Keeps`), for every `K`; that is all that the owners of those frames
have to know. `Exact` says that nothing else is allocated.
-/

namespace Hltos

open Lib.Radix FrameAllocator Pte BitVec List Option

namespace Vmm

variable {σ : Type} [FrameAllocator σ] {s s' s'' s1 : Vmm σ} {r f : Frame} {i : Idx}
  {π : List Idx} {H : Idx → Prop} {K : Set Frame} {o : Option Word}

/-- The frames behind the entries `H` of the root, the root among them. -/
abbrev owned (H : Idx → Prop) (r : Frame) (s : Vmm σ) : Set Frame := frames s.mem r (below H 4)

structure Owns (H : Idx → Prop) (r : Frame) (K : Set Frame) (s : Vmm σ) : Prop where
  tree : Tree (below H 4) r s
  kept : K ⊆ allocated s.pmm
  apart : ∀ f ∈ K, f ∉ owned H r s

/-- The space is still there, and those who hold `K` see no difference. -/
structure Keeps (H : Idx → Prop) (r : Frame) (K : Set Frame) (s s' : Vmm σ) : Prop where
  owns : Owns H r K s'
  mem : ∀ f ∈ K, s'.mem f = s.mem f
  root : ∀ i, ¬ H i → s'.mem r i = s.mem r i
  same : Same s s'

/-- Whatever is allocated is in `K` or reached from the root. -/
def Exact (H : Idx → Prop) (r : Frame) (K : Set Frame) (s : Vmm σ) : Prop :=
  ∀ f ∈ allocated s.pmm, f ∈ K ∨ f ∈ owned H r s

theorem Keeps.refl (h : Owns H r K s) : Keeps H r K s s :=
  ⟨h, fun _ _ => rfl, fun _ _ => rfl, .refl s⟩

theorem Keeps.trans (h : Keeps H r K s s') (h' : Keeps H r K s' s'') : Keeps H r K s s'' :=
  ⟨h'.owns, fun f hf => (h'.mem f hf).trans (h.mem f hf),
    fun i hi => (h'.root i hi).trans (h.root i hi), h.same.trans h'.same⟩

theorem Owns.tables (h : Owns H r K s) : Tree (below H 3) r s := by
  constructor
  · intro τ hτ τ' hτ'
    exact h.tree.separated τ (below_mono (by decide) hτ) τ' (below_mono (by decide) hτ')
  · rintro f ⟨τ, hτ, hf⟩
    exact h.tree.allocated ⟨τ, below_mono (by decide) hτ, hf⟩

theorem Owns.mono_head {H' : Idx → Prop} (h : Owns H r K s) (hH : ∀ i, H' i → H i) :
    Owns H' r K s := by
  have hmem : ∀ π, π ∈ below H' 4 → π ∈ below H 4 := fun π hπ =>
    ⟨hπ.1, fun i hi => hH i (hπ.2 i hi)⟩
  refine ⟨⟨?_, ?_⟩, h.kept, ?_⟩
  · exact fun τ hτ τ' hτ' => h.tree.separated τ (hmem τ hτ) τ' (hmem τ' hτ')
  · exact fun f ⟨τ, hτ, ht⟩ => h.tree.allocated ⟨τ, hmem τ hτ, ht⟩
  · exact fun f hf ⟨τ, hτ, ht⟩ => h.apart f hf ⟨τ, hmem τ hτ, ht⟩

omit [FrameAllocator σ] in
theorem owned_of_tables (hf : f ∈ frames s.mem r (below H 3)) : f ∈ owned H r s := by
  obtain ⟨τ, hτ, hf⟩ := hf
  exact ⟨τ, below_mono (by decide) hτ, hf⟩

theorem Owns.not_table (h : Owns H r K s) (hf : f ∈ K) : f ∉ frames s.mem r (below H 3) :=
  fun hm => h.apart f hf (owned_of_tables hm)

omit [FrameAllocator σ] in
theorem table_of_blank_root (hblank : ∀ i, H i → child (s.mem r i) = none) (hπ : π ∈ below H 4)
    (ht : table s.mem r π = some f) : π = [] ∧ f = r :=
  table_of_blank (fun i hi => hblank i (hπ.2 i hi)) ht

/-- A root with no present entry in `H` owns itself. -/
theorem Owns.of_blank_root (hblank : ∀ i, H i → child (s.mem r i) = none)
    (hr : r ∈ allocated s.pmm) (hK : K ⊆ allocated s.pmm) (hrK : r ∉ K) : Owns H r K s := by
  refine ⟨⟨?_, ?_⟩, hK, ?_⟩
  · intro τ hτ τ' hτ' f hf hf'
    rw [(table_of_blank_root hblank hτ hf).1, (table_of_blank_root hblank hτ' hf').1]
  · rintro f ⟨τ, hτ, hf⟩
    rw [(table_of_blank_root hblank hτ hf).2]
    exact hr
  · rintro f hf ⟨τ, hτ, ht⟩
    exact hrK ((table_of_blank_root hblank hτ ht).2 ▸ hf)

/-! ## Elementary steps -/

theorem Owns.alloc (h : Owns H r K s) (ha : s.alloc = some (f, s')) :
    Owns H r K s' ∧ f ∉ owned H r s' ∧ f ∉ K := by
  obtain ⟨hfresh, halloc, hmem, -⟩ := alloc_spec ha
  have howned : owned H r s' = owned H r s := by rw [owned, hmem]
  refine ⟨⟨h.tree.alloc ha, ?_, ?_⟩, ?_, fun hK => hfresh (h.kept hK)⟩
  · rw [halloc]
    exact h.kept.trans (Set.subset_insert _ _)
  · rw [howned]
    exact h.apart
  · rw [howned]
    exact fun hm => hfresh (h.tree.allocated hm)

/-- One path is bound to another frame, or to none. -/
theorem Owns.rebound (h : Owns H r K s) (hπ : π ∈ below H 4) (hne : π ≠ [])
    (hre : Rebound (below H 3) s.mem s'.mem r π o)
    (hnew : ∀ f, o.bind child = some f → f ∉ owned H r s ∧ f ∉ K ∧ f ∈ allocated s'.pmm)
    (halloc : ∀ f ∈ allocated s.pmm, table s.mem r π ≠ some f → f ∈ allocated s'.pmm) :
    Owns H r K s' := by
  have hTP : ∀ i τ, i :: τ ∈ below H 4 → τ ∈ below H 3 := fun _ _ => tail_mem_below
  refine ⟨⟨?_, ?_⟩, ?_, ?_⟩
  · apply hre.separated hTP hne h.tree.separated
    exact fun f hf τ hτ _ ht => (hnew f hf).1 ⟨τ, hτ, ht⟩
  · intro f hf
    rcases (hre.mem_frames_iff hTP hne).mp hf with ⟨τ, hτ, hτπ, ht⟩ | ⟨-, hf⟩
    · refine halloc f (h.tree.allocated ⟨τ, hτ, ht⟩) (fun ht' => hτπ ?_)
      exact h.tree.separated τ hτ π hπ f ht ht'
    · exact (hnew f hf).2.2
  · exact fun f hf => halloc f (h.kept hf) (fun ht => h.apart f hf ⟨π, hπ, ht⟩)
  · intro f hf hm
    rcases (hre.mem_frames_iff hTP hne).mp hm with ⟨τ, hτ, -, ht⟩ | ⟨-, hf'⟩
    · exact h.apart f hf ⟨τ, hτ, ht⟩
    · exact (hnew f hf').2.1 hf

theorem Exact.rebound (h : Exact H r K s) (hπ : π ∈ below H 4) (hne : π ≠ [])
    (hre : Rebound (below H 3) s.mem s'.mem r π o) (halloc : ∀ f ∈ allocated s'.pmm,
      o.bind child = some f ∨ f ∈ allocated s.pmm ∧ table s.mem r π ≠ some f) : Exact H r K s' := by
  have hTP : ∀ i τ, i :: τ ∈ below H 4 → τ ∈ below H 3 := fun _ _ => tail_mem_below
  intro f hf
  rw [owned, hre.mem_frames_iff hTP hne]
  rcases halloc f hf with hf | ⟨hf, hold⟩
  · exact .inr (.inr ⟨hπ, hf⟩)
  · rcases h f hf with hK | ⟨τ, hτ, ht⟩
    · exact .inl hK
    · exact .inr (.inl ⟨τ, hτ, fun heq => hold (heq ▸ ht), ht⟩)

/-- A path of the space is found as before, or is a new table in a new frame. -/
theorem Grown.table_cases (hg : Grown (below H 3) r s s') (hπ : π ∈ below H 4)
    (hf : Lib.Radix.table s'.mem r π = some f) : Lib.Radix.table s.mem r π = some f ∨
      f ∉ FrameAllocator.allocated s.pmm ∧ π ∈ below H 3 := by
  cases π with
  | nil => exact .inl hf
  | cons i τ =>
    rcases hg.find i τ (tail_mem_below hπ) with heq | ⟨hnone, hmem⟩
    · exact .inl (by rw [table_cons, ← heq, ← table_cons, hf])
    · refine .inr ⟨fun hold => ?_, hmem⟩
      -- an old frame among the tables is still where it was, and that is another place
      rcases hg.tables f (mem_frames hmem hf) with ⟨ρ, hρ, ht⟩ | hnot
      · cases hg.tree.separated _ hmem ρ hρ f hf (hg.table hρ ht)
        rw [table_cons, hnone] at ht
        cases ht
      · exact hnot hold

theorem Owns.grown (h : Owns H r K s) (hg : Grown (below H 3) r s s') : Keeps H r K s s' := by
  have hcases := fun {τ} (hτ : τ ∈ below H 4) {f} => hg.table_cases (f := f) hτ
  have hmono : ∀ f ∈ allocated s.pmm, f ∈ allocated s'.pmm :=
    fun f hf => (hg.allocated f).mpr (.inl hf)
  refine ⟨⟨⟨?_, ?_⟩, fun f hf => hmono f (h.kept hf), ?_⟩, ?_, ?_, hg.same⟩
  · intro τ hτ τ' hτ' f hf hf'
    rcases hcases hτ hf with h1 | ⟨h1, m1⟩ <;> rcases hcases hτ' hf' with h2 | ⟨h2, m2⟩
    · exact h.tree.separated τ hτ τ' hτ' f h1 h2
    · exact absurd (h.tree.allocated ⟨τ, hτ, h1⟩) h2
    · exact absurd (h.tree.allocated ⟨τ', hτ', h2⟩) h1
    · exact hg.tree.separated τ m1 τ' m2 f hf hf'
  · rintro f ⟨τ, hτ, hf⟩
    rcases hcases hτ hf with h1 | ⟨-, m1⟩
    · exact hmono f (h.tree.allocated ⟨τ, hτ, h1⟩)
    · exact hg.tree.allocated ⟨τ, m1, hf⟩
  · rintro f hK ⟨τ, hτ, hf⟩
    rcases hcases hτ hf with h1 | ⟨h1, -⟩
    · exact h.apart f hK ⟨τ, hτ, h1⟩
    · exact h1 (h.kept hK)
  · exact fun f hf => hg.kept f (h.kept hf) (h.not_table hf)
  · exact fun i hi => hg.root i (fun hm => hi (singleton_mem_below.mp hm))

theorem Exact.grown (h : Exact H r K s) (hg : Grown (below H 3) r s s') : Exact H r K s' := by
  intro f hf
  rcases (hg.allocated f).mp hf with hf | hf
  · refine (h f hf).imp id (fun ⟨τ, hτ, ht⟩ => ⟨τ, hτ, ?_⟩)
    cases τ with
    | nil => exact ht
    | cons i τ =>
      rcases hg.find i τ (tail_mem_below hτ) with heq | ⟨hnone, -⟩
      · rw [table_cons, heq, ← table_cons, ht]
      · rw [table_cons, hnone] at ht; cases ht
  · exact .inr (owned_of_tables hf)

/-! ## Pages that are not touched -/

/-- The path of a page. -/
def IsPage (H : Idx → Prop) (τ : List Idx) : Prop := τ.length = 4 ∧ τ ∈ below H 4

/-- The entry and the contents of the page at a path are as they were. -/
structure Untouched (r : Frame) (s s' : Vmm σ) (τ : List Idx) : Prop where
  find : find s'.mem r τ = find s.mem r τ
  mem : ∀ g, table s.mem r τ = some g → s'.mem g = s.mem g

variable {v : Word}

section Untouched

variable {τ : List Idx}

section

omit [FrameAllocator σ]

theorem Untouched.refl (r : Frame) (s : Vmm σ) (τ : List Idx) : Untouched r s s τ :=
  ⟨rfl, fun _ _ => rfl⟩

theorem Untouched.table (h : Untouched r s s' τ) : table s'.mem r τ = table s.mem r τ := by
  cases τ with
  | nil => rfl
  | cons i τ => rw [table_cons, h.find, ← table_cons]

theorem Untouched.trans (h : Untouched r s s' τ) (h' : Untouched r s' s'' τ) :
    Untouched r s s'' τ :=
  ⟨h'.find.trans h.find, fun g hg => (h'.mem g (h.table.trans hg)).trans (h.mem g hg)⟩

/-- Nothing is touched where no frame of the space changes. -/
theorem Untouched.of_agree (hmem : ∀ f ∈ owned H r s, s'.mem f = s.mem f) (hτ : IsPage H τ) :
    Untouched r s s' τ := by
  obtain ⟨hlen, hτ⟩ := hτ
  refine ⟨?_, fun g hg => hmem g ⟨τ, hτ, hg⟩⟩
  cases τ with
  | nil => cases hlen
  | cons i τ => exact find_of_agree hmem (below_mono (by decide) (tail_mem_below hτ))

end

theorem isPage_path (hv : H (pml4Idx v)) : IsPage H (path v) := ⟨rfl, path_mem hv⟩

/-- A page is not a table. -/
theorem Owns.page_not_table (ho : Owns H r K s) (hτ : IsPage H τ) (hf : table s.mem r τ = some f) :
    f ∉ frames s.mem r (below H 3) := by
  rintro ⟨ρ, hρ, hf'⟩
  cases ho.tree.separated τ hτ.2 ρ (below_mono (by decide) hρ) f hf hf'
  have := hρ.1
  have := hτ.1
  omega

theorem Grown.untouched (hg : Grown (below H 3) r s s') (ho : Owns H r K s) (hτ : IsPage H τ) :
    Untouched r s s' τ := by
  obtain ⟨hlen, hmem⟩ := hτ
  refine ⟨?_, fun g ht => ?_⟩
  · cases τ with
    | nil => cases hlen
    | cons i τ =>
      refine (hg.find i τ (tail_mem_below hmem)).resolve_right (fun h => ?_)
      have := h.2.1
      omega
  · exact hg.kept g (ho.tree.allocated ⟨τ, hmem, ht⟩) (ho.page_not_table ⟨hlen, hmem⟩ ht)

theorem LeafWrite.untouched {w : Word} (hw : LeafWrite H r π w s.mem s'.mem) (ho : Owns H r K s)
    (hτ : IsPage H τ) (hne : τ ≠ π) : Untouched r s s' τ := by
  refine ⟨?_, fun g ht => hw.mem g (ho.page_not_table hτ ht)⟩
  obtain ⟨hlen, hmem⟩ := hτ
  cases τ with
  | nil => cases hlen
  | cons i τ => exact hw.rebound.other i τ (tail_mem_below hmem) hne

end Untouched

/-! ## Mapping a new frame, unmapping a page -/

variable {virtPage : Word}

section Leaf

variable {i1 i2 i3 i4 : Idx} {e : Word} {sa : Vmm σ} {τ : List Idx}

theorem leaf_mem (hH : H i4) : [i1, i2, i3, i4] ∈ below H 4 := by simp [mem_below, hH]

/-- A leaf for a new frame keeps all others in place. -/
theorem Placed.keeps (ho : Owns H r K s) (hH : H i4) (ha : s.alloc = some (f, sa))
    (he : child e = some f) (hp : Placed H r [i1, i2, i3, i4] e sa s1 s') : Keeps H r K s s' := by
  obtain ⟨-, halloc, hmem, hsame⟩ := alloc_spec ha
  obtain ⟨hoa, hnot, hK⟩ := ho.alloc ha
  have hk1 := hoa.grown hp.grown
  have hf : f ∈ allocated sa.pmm := by rw [halloc]; exact .inl rfl
  have hre := hp.leaf.rebound
  rw [present_of_child he] at hre
  refine ⟨hk1.owns.rebound (leaf_mem hH) (by simp) hre ?_ ?_, ?_, ?_, hsame.trans hp.same⟩
  · intro g hg
    cases he.symm.trans hg
    refine ⟨fun ⟨τ, hτ, ht⟩ => ?_, hK, hp.allocated_mono hf⟩
    rcases hp.grown.table_cases hτ ht with hold | ⟨hnew, -⟩
    · exact hnot ⟨τ, hτ, hold⟩
    · exact hnew hf
  · intro g hg _
    rw [hp.pmm]
    exact hg
  · intro g hg
    rw [hp.leaf.mem g (hk1.owns.not_table hg), hk1.mem g hg, hmem]
  · intro i hi
    rw [hp.leaf.root, hk1.root i hi, hmem]

theorem Placed.untouched (ho : Owns H r K s) (ha : s.alloc = some (f, sa))
    (hp : Placed H r π e sa s1 s') (hτ : IsPage H τ) (hne : τ ≠ π) : Untouched r s s' τ := by
  obtain ⟨-, -, hmem, -⟩ := alloc_spec ha
  have hoa := (ho.alloc ha).1
  have hu : Untouched r s sa τ := ⟨by rw [hmem], fun _ _ => by rw [hmem]⟩
  have hk := hoa.grown hp.grown
  exact (hu.trans (hp.grown.untouched hoa hτ)).trans (hp.leaf.untouched hk.owns hτ hne)

/-- Nothing is orphaned if the page was not mapped. -/
theorem Placed.exact (hx : Exact H r K s) (hH : H i4) (ha : s.alloc = some (f, sa))
    (he : child e = some f) (hp : Placed H r [i1, i2, i3, i4] e sa s1 s')
    (hfree : find s.mem r [i1, i2, i3, i4] = none) : Exact H r K s' := by
  obtain ⟨-, halloc, hmem, hsame⟩ := alloc_spec ha
  have hre := hp.leaf.rebound
  rw [present_of_child he] at hre
  have hnone : table s1.mem r [i1, i2, i3, i4] = none := by
    rcases hp.grown.find i1 [i2, i3, i4] (by simp [mem_below, hH]) with heq | ⟨-, hm⟩
    · rw [table_cons, heq, hmem, hfree]; rfl
    · exact absurd hm leaf_not_mem
  -- the new frame counts as held by others until it is bound
  have hxa : Exact H r (insert f K) sa := by
    intro g hg
    rw [halloc] at hg
    rw [owned, hmem]
    rcases hg with rfl | hg
    · exact .inl (.inl rfl)
    · exact (hx g hg).imp .inr id
  have hxs : Exact H r (insert f K) s' := by
    apply (hxa.grown hp.grown).rebound (leaf_mem hH) (by simp) hre
    intro g hg
    rw [hp.pmm] at hg
    exact .inr ⟨hg, by simp [hnone]⟩
  intro g hg
  rcases hxs g hg with (rfl | hK) | hm
  · refine .inr ⟨[i1, i2, i3, i4], leaf_mem hH, ?_⟩
    rw [hre.table_here (by simp)]
    exact he
  · exact .inl hK
  · exact .inr hm

section

variable (ho : Owns H r K s) (hH : H (pml4Idx virtPage)) (h : s.unmapPage r virtPage = some s')

include ho hH h

theorem unmapPage_keeps : Keeps H r K s s' := by
  rcases unmapPage_spec ho.tables.separated hH h with ⟨rfl, -⟩ | ⟨e, he, hleaf, hpmm, hsame⟩
  · exact .refl ho
  · have hre := hleaf.rebound
    rw [present_zero] at hre
    rw [walk_eq_find] at he
    obtain ⟨g, hg, ht⟩ := child_of_find he
    refine ⟨ho.rebound (path_mem hH) (by simp [path]) hre (by simp) ?_, ?_, ?_, hsame⟩
    · intro x hx hne
      rw [hpmm, free_allocated, (addr_of_child hg).1]
      exact ⟨hx, fun hxg => hne (by rw [ht, Set.mem_singleton_iff.mp hxg])⟩
    · exact fun x hx => hleaf.mem x (ho.not_table hx)
    · exact fun i _ => hleaf.root i

theorem unmapPage_untouched (hτ : IsPage H τ) (hne : τ ≠ path virtPage) : Untouched r s s' τ := by
  rcases unmapPage_spec ho.tables.separated hH h with ⟨rfl, -⟩ | ⟨e, -, hleaf, -, -⟩
  · exact .refl r s' τ
  · exact hleaf.untouched ho hτ hne

end

theorem unmapPage_exact (hs : Tree (below H 3) r s) (hx : Exact H r K s)
    (hH : H (pml4Idx virtPage)) (h : s.unmapPage r virtPage = some s') : Exact H r K s' := by
  rcases unmapPage_spec hs.separated hH h with ⟨rfl, -⟩ | ⟨e, he, hleaf, hpmm, -⟩
  · exact hx
  · have hre := hleaf.rebound
    rw [walk_eq_find] at he
    obtain ⟨g, hg, ht⟩ := child_of_find he
    apply hx.rebound (path_mem hH) (by simp [path]) hre
    intro x hx
    rw [hpmm, free_allocated, (addr_of_child hg).1] at hx
    exact .inr ⟨hx.1, fun hxt => hx.2 (Option.some.inj (hxt.symm.trans ht))⟩

end Leaf

/-! ## Loops -/

variable {n : Nat}

theorem unmapMemAt_keeps (ho : Owns H r K s) (hH : ∀ k < n, H (pml4Idx (nthPage virtPage k)))
    (h : s.unmapMemAt r n virtPage = some s') : Keeps H r K s s' := by
  induction n generalizing virtPage s with
  | zero => cases h; exact .refl ho
  | succ n ih =>
    obtain ⟨s1, h1, h⟩ := of_bind h
    obtain ⟨hH0, hH⟩ := heads_succ hH
    have hk := unmapPage_keeps ho hH0 h1
    exact hk.trans (ih hk.owns hH h)

theorem unmapMemAt_exact (ho : Owns H r K s) (hx : Exact H r K s)
    (hH : ∀ k < n, H (pml4Idx (nthPage virtPage k)))
    (h : s.unmapMemAt r n virtPage = some s') : Exact H r K s' := by
  induction n generalizing virtPage s with
  | zero => cases h; exact hx
  | succ n ih =>
    obtain ⟨s1, h1, h⟩ := of_bind h
    obtain ⟨hH0, hH⟩ := heads_succ hH
    exact ih (unmapPage_keeps ho hH0 h1).owns (unmapPage_exact ho.tables hx hH0 h1) hH h

theorem unmapMemAt_untouched {τ : List Idx} (ho : Owns H r K s)
    (hH : ∀ k < n, H (pml4Idx (nthPage virtPage k))) (h : s.unmapMemAt r n virtPage = some s')
    (hτ : IsPage H τ) (hne : ∀ k < n, τ ≠ path (nthPage virtPage k)) : Untouched r s s' τ := by
  induction n generalizing virtPage s with
  | zero => cases h; exact .refl r _ τ
  | succ n ih =>
    obtain ⟨s1, h1, h⟩ := of_bind h
    obtain ⟨hH0, hH⟩ := heads_succ hH
    have hne0 : τ ≠ path virtPage := by simpa [nthPage_zero] using hne 0 (by omega)
    apply (unmapPage_untouched ho hH0 h1 hτ hne0).trans
    apply ih (unmapPage_keeps ho hH0 h1).owns hH h
    exact fun k hk => by rw [← nthPage_succ]; exact hne (k + 1) (by omega)

/-- New frames are mapped at the pages of a list, one after the other. -/
inductive Mapped (H : Idx → Prop) (r : Frame) : List Word → Vmm σ → Vmm σ → Prop
  | nil (s : Vmm σ) : Mapped H r [] s s
  | cons {v e : Word} {vs : List Word} {f : Frame} {s sa s1 sm s' : Vmm σ} :
    H (pml4Idx v) → s.alloc = some (f, sa) → child e = some f → Placed H r (path v) e sa s1 sm →
    Mapped H r vs sm s' → Mapped H r (v :: vs) s s'

variable {vs : List Word}

section

variable (hm : Mapped H r vs s s')

include hm

theorem Mapped.keeps (ho : Owns H r K s) : Keeps H r K s s' := by
  induction hm with
  | nil s => exact .refl ho
  | cons hH ha he hp _ ih =>
    have hk := Placed.keeps ho hH ha he hp
    exact hk.trans (ih hk.owns)

theorem Mapped.untouched {τ : List Idx}
    (ho : Owns H r K s) (hτ : IsPage H τ) (hne : ∀ v ∈ vs, τ ≠ path v) : Untouched r s s' τ := by
  induction hm with
  | nil s => exact .refl r s τ
  | cons hH ha he hp _ ih =>
    apply (Placed.untouched ho ha hp hτ (hne _ mem_cons_self)).trans
    exact ih (Placed.keeps ho hH ha he hp).owns (fun v hv => hne v (mem_cons_of_mem _ hv))

theorem Mapped.head : ∀ v ∈ vs, H (pml4Idx v) := by
  induction hm with
  | nil s => simp
  | cons hH _ _ _ _ ih =>
    intro v hv
    rcases mem_cons.mp hv with rfl | hv
    · exact hH
    · exact ih v hv

/-- The pages of the list are mapped afterwards, and no page is unmapped. -/
theorem Mapped.walk_ne_none (hv : H (pml4Idx v))
    (h : v ∈ vs ∨ walk s.mem r v ≠ none) : walk s'.mem r v ≠ none := by
  induction hm with
  | nil s => exact h.resolve_left not_mem_nil
  | @cons v1 e vs f s sa s1 sm s' hH ha he hp _ ih =>
    obtain ⟨-, -, hmem, -⟩ := alloc_spec ha
    apply ih
    by_cases heq : vpn v = vpn v1
    · have hhere := hp.walk_here (by rw [he]; rfl)
      exact .inr (by rw [walk_congr heq, hhere]; exact some_ne_none e)
    · rw [hp.walk_other hv heq, hmem]
      exact h.imp_left fun hin => (mem_cons.mp hin).resolve_left fun hne => heq (congrArg vpn hne)

end

/-- The pages of a range. -/
def pagesFrom : Nat → Word → List Word
  | 0, _ => []
  | n + 1, virtPage => virtPage :: pagesFrom n (virtPage + pageSize)

theorem mem_pagesFrom : v ∈ pagesFrom n virtPage ↔ ∃ k < n, v = nthPage virtPage k := by
  induction n generalizing virtPage with
  | zero => simp [pagesFrom]
  | succ n ih =>
    rw [Nat.exists_lt_succ_left]
    simp only [pagesFrom, mem_cons, ih, nthPage_zero, nthPage_succ]

variable {flags : Flags}

section

variable (ho : Owns H r K s) (hH : ∀ k < n, H (pml4Idx (nthPage virtPage k)))
  (h : s.mapPagesFrom r flags n virtPage = some s')

include ho hH h

theorem mapPagesFrom_mapped : Mapped H r (pagesFrom n virtPage) s s' := by
  induction n generalizing virtPage s with
  | zero => cases h; exact .nil _
  | succ n ih =>
    obtain ⟨⟨frame, sa⟩, ha, h⟩ := of_bind h
    obtain ⟨sm, hm, h⟩ := of_bind h
    obtain ⟨hH0, hH⟩ := heads_succ hH
    obtain ⟨e, s1, he, hp⟩ := mapPageToFrame_spec (ho.alloc ha).1.tables hH0 hm
    apply Mapped.cons hH0 ha he.child hp
    exact ih (Placed.keeps ho hH0 ha he.child hp).owns hH h

theorem mapPagesFrom_keeps : Keeps H r K s s' := (mapPagesFrom_mapped ho hH h).keeps ho

end

/-! ## Heaps -/

theorem frameOf_physOf (f : Frame) : frameOf (physOf f) = f := by
  apply eq_of_getLsbD_eq
  intro k hk
  simp [frameOf, physOf, hk, show 12 + k < 64 by omega]

theorem physOf_offset (f : Frame) : physOf f &&& 0xFFF = 0 := by
  apply eq_of_getLsbD_eq
  intro k hk
  rw [getLsbD_and, getLsbD_0xFFF hk, physOf, getLsbD_shiftLeft]
  by_cases h : k < 12 <;> simp [h]

variable {heap heap' : Heap} {value : Word}

section

variable (hs : Tree (below H 3) r s) (hH : InTables heap → H (pml4Idx (nextHeapVirtPage heap)))

include hs hH

/-- `map_heap_page` maps the page at the cursor to the frame of the address. -/
theorem mapHeapPage_placed {phys : Word}
    (h : s.mapHeapPage r heap phys flags = some (v, heap', s')) :
    InTables heap ∧ v = nextHeapVirtPage heap + (phys &&& 0xFFF) ∧ heap' = advanceHeap heap ∧
      isPageAligned (nextHeapVirtPage heap) = true ∧
      ∃ e s1, Maps e (frameOf phys) flags ∧
      Placed H r (path (nextHeapVirtPage heap)) e s s1 s' := by
  simp only [mapHeapPage] at h
  split at h
  · cases h
  · next halign =>
    obtain ⟨i4, h4, h⟩ := of_bind h
    obtain ⟨i3, h3, h⟩ := of_bind h
    obtain ⟨i2, h2, h⟩ := of_bind h
    obtain ⟨⟨pt, s1⟩, hens, h⟩ := of_bind h
    obtain ⟨i1, h1, h⟩ := of_bind h
    have hcursor : cursor heap = some [i1, i2, i3, i4] := by simp [cursor, h1, h2, h3, h4]
    obtain ⟨hin, hpath⟩ := cursor_eq_some hcursor
    have hi4 : pml4Idx (nextHeapVirtPage heap) = i4 := by
      simp only [path, List.cons.injEq] at hpath
      exact hpath.2.2.2.1.symm
    cases h
    obtain ⟨e, he, hp⟩ := placed_populateEntry (f := frameOf phys) hs (hi4 ▸ hH hin) hens
    exact ⟨hin, rfl, rfl, by simpa using halign, e, s1, he, hpath ▸ hp⟩

theorem mapHeapPage_spec (h : s.mapHeapPage r heap (physOf f) flags = some (virtPage, heap', s')) :
    InTables heap ∧ virtPage = nextHeapVirtPage heap ∧ heap' = advanceHeap heap ∧
      isPageAligned virtPage = true ∧
      ∃ e s1, Maps e f flags ∧ Placed H r (path virtPage) e s s1 s' := by
  have hspec := mapHeapPage_placed hs hH h
  rw [physOf_offset, frameOf_physOf, show nextHeapVirtPage heap + 0 = nextHeapVirtPage heap by
    simp] at hspec
  obtain ⟨hin, rfl, hheap, halign, hplaced⟩ := hspec
  exact ⟨hin, rfl, hheap, halign, hplaced⟩

end

section Congr

variable (hfind : ∀ i, ∀ τ ∈ below H 3, find s'.mem r (i :: τ) = find s.mem r (i :: τ))

include hfind

omit [FrameAllocator σ] in
theorem table_congr_below {τ : List Idx} (hτ : τ ∈ below H 4) :
    table s'.mem r τ = table s.mem r τ := by
  cases τ with
  | nil => rfl
  | cons i τ => rw [table_cons, table_cons, hfind i τ (tail_mem_below hτ)]

omit [FrameAllocator σ] in
theorem owned_congr : owned H r s' = owned H r s := by
  ext f
  exact exists_congr (fun τ => and_congr_right (fun hτ => by rw [table_congr_below hfind hτ]))

theorem Owns.congr (ho : Owns H r K s) (hpmm : allocated s'.pmm = allocated s.pmm) :
    Owns H r K s' := by
  have howned := owned_congr hfind
  refine ⟨⟨?_, ?_⟩, hpmm ▸ ho.kept, by rw [howned]; exact ho.apart⟩
  · intro τ hτ τ' hτ' f hf hf'
    rw [table_congr_below hfind hτ] at hf
    rw [table_congr_below hfind hτ'] at hf'
    exact ho.tree.separated τ hτ τ' hτ' f hf hf'
  · show owned H r s' ⊆ _
    rw [howned, hpmm]
    exact ho.tree.allocated

theorem Exact.congr (hpmm : allocated s'.pmm = allocated s.pmm) :
    Exact H r K s' ↔ Exact H r K s := by
  unfold Exact
  rw [owned_congr hfind, hpmm]

end Congr

/-- Writing to a mapped page does not change what is mapped, nor the other pages. -/
theorem Owns.write_page {i1 i2 i3 i4 : Idx} {e : Word} (ho : Owns H r K s) (hH : H i4)
    (he : find s.mem r [i1, i2, i3, i4] = some e) (hother : ∀ f ≠ addr e, s'.mem f = s.mem f)
    (hpmm : s'.pmm = s.pmm) (hsame : Same s s') : Keeps H r K s s' ∧
      (∀ i, ∀ τ ∈ below H 3, find s'.mem r (i :: τ) = find s.mem r (i :: τ)) ∧
      ∀ τ, IsPage H τ → τ ≠ [i1, i2, i3, i4] → Untouched r s s' τ := by
  obtain ⟨g, hg, ht⟩ := child_of_find he
  rw [(addr_of_child hg).1] at hother
  have hpage : IsPage H [i1, i2, i3, i4] := ⟨rfl, leaf_mem hH⟩
  have hne : ∀ f ∈ frames s.mem r (below H 3), f ≠ g := by
    rintro f hf rfl
    exact ho.page_not_table hpage ht hf
  have hfind : ∀ i, ∀ τ ∈ below H 3, find s'.mem r (i :: τ) = find s.mem r (i :: τ) :=
    fun i τ hτ => find_of_agree (fun f hf => hother f (hne f hf)) hτ
  refine ⟨⟨ho.congr hfind (by rw [hpmm]), ?_, ?_, hsame⟩, hfind, ?_⟩
  · exact fun f hf => hother f (fun heq => ho.apart f hf (heq ▸ mem_frames (leaf_mem hH) ht))
  · exact fun i _ => by rw [hother r (hne r (root_mem_frames _ _ _))]
  · rintro τ ⟨hlen, hτ⟩ hτne
    refine ⟨?_, fun x hx => hother x ?_⟩
    · cases τ with
      | nil => cases hlen
      | cons i τ => exact hfind i τ (tail_mem_below hτ)
    · rintro rfl
      exact hτne (ho.tree.separated τ hτ _ (leaf_mem hH) x hx ht)

omit [FrameAllocator σ] in
theorem storeWord_eq_some (h : s.storeWord r v value = some s') :
    ∃ e, find s.mem r (path v) = some e ∧ s' = s.writeEntry (addr e) 0 value := by
  obtain ⟨⟨pt, i⟩, hfind, rfl⟩ := map_eq_some_iff.mp h
  exact ⟨s.mem pt i, by rw [← walk_eq_find, walk, hfind]; rfl, rfl⟩

theorem storeWord_keeps (ho : Owns H r K s)
    (hH : H (pml4Idx v)) (h : s.storeWord r v value = some s') :
    Keeps H r K s s' ∧
      (∀ i, ∀ τ ∈ below H 3, find s'.mem r (i :: τ) = find s.mem r (i :: τ)) ∧
      ∀ τ, IsPage H τ → τ ≠ path v → Untouched r s s' τ := by
  obtain ⟨e, he, rfl⟩ := storeWord_eq_some h
  exact ho.write_page hH he (fun f hf => setEntry_of_ne _ _ _ hf) rfl ⟨rfl, rfl, rfl⟩

variable {first : Word} {addr bytes first' : Word}

theorem mapHeapPagesFrom_first
    (hne : first ≠ 0) (h : s.mapHeapPagesFrom r flags n first heap = some (first', heap', s')) :
    first' = first := by
  induction n generalizing s heap with
  | zero => cases h; rfl
  | succ n ih =>
    obtain ⟨⟨frame, sa⟩, ha, h⟩ := of_bind h
    obtain ⟨⟨virtPage, heap1, s1⟩, hm, h⟩ := of_bind h
    simp only [hne, if_false] at h
    exact ih h

/-- The cursor stays within the entries `H` for `n` pages, or leaves the tables. -/
def CursorIn (H : Idx → Prop) : Nat → Heap → Prop
  | 0, _ => True
  | n + 1, heap =>
    InTables heap → H (pml4Idx (nextHeapVirtPage heap)) ∧ CursorIn H n (advanceHeap heap)

/-- The pages at the cursor. -/
def heapPagesFrom : Nat → Heap → List Word
  | 0, _ => []
  | n + 1, heap => nextHeapVirtPage heap :: heapPagesFrom n (advanceHeap heap)

theorem mem_heapPagesFrom :
    v ∈ heapPagesFrom n heap ↔ ∃ k < n, v = nextHeapVirtPage (advanceHeap^[k] heap) := by
  induction n generalizing heap with
  | zero => simp [heapPagesFrom]
  | succ n ih =>
    rw [heapPagesFrom, mem_cons, ih, Nat.exists_lt_succ_left]
    rfl

/-- The loop of a heap: the cursor moves on by one page a round. -/
theorem mapHeapPagesFrom_mapped (ho : Owns H r K s) (hH : CursorIn H n heap)
    (h : s.mapHeapPagesFrom r flags n first heap = some (first', heap', s')) :
    Mapped H r (heapPagesFrom n heap) s s' ∧ heap' = advanceHeap^[n] heap ∧
      (∀ k < n, InTables (advanceHeap^[k] heap) ∧
        H (pml4Idx (nextHeapVirtPage (advanceHeap^[k] heap)))) ∧
      (first' = first ∨ first' ∈ heapPagesFrom n heap) := by
  induction n generalizing s first heap with
  | zero => cases h; exact ⟨.nil _, rfl, by omega, .inl rfl⟩
  | succ n ih =>
    obtain ⟨⟨frame, sa⟩, ha, h⟩ := of_bind h
    obtain ⟨⟨virtPage, heap1, sm⟩, hm, h⟩ := of_bind h
    obtain ⟨hin, rfl, rfl, -, e, s1, he, hp⟩ :=
      mapHeapPage_spec (ho.alloc ha).1.tables (fun hin => (hH hin).1) hm
    obtain ⟨hhead, htail⟩ := hH hin
    obtain ⟨hm', hheap, hins, hfirst⟩ := ih (Placed.keeps ho hhead ha he.child hp).owns htail h
    refine ⟨.cons hhead ha he.child hp hm', hheap, ?_, ?_⟩
    · intro k hkn
      cases k with
      | zero => exact ⟨hin, hhead⟩
      | succ k => exact hins k (by omega)
    · rcases hfirst with rfl | hmem
      · split
        · exact .inr mem_cons_self
        · exact .inl rfl
      · exact .inr (mem_cons_of_mem _ hmem)

/-- The loop returns the page at the cursor, unless that is null. -/
theorem mapHeapPagesFrom_head
    (hs : Tree (below H 3) r s) (hH : CursorIn H (n + 1) heap) (hne : nextHeapVirtPage heap ≠ 0)
    (h : s.mapHeapPagesFrom r flags (n + 1) 0 heap = some (first, heap', s')) :
    first = nextHeapVirtPage heap ∧ isPageAligned first = true := by
  obtain ⟨⟨frame, sa⟩, ha, h⟩ := of_bind h
  obtain ⟨⟨virtPage, heap1, sm⟩, hm, h⟩ := of_bind h
  obtain ⟨-, rfl, rfl, halign, -⟩ := mapHeapPage_spec (hs.alloc ha) (fun hin => (hH hin).1) hm
  cases mapHeapPagesFrom_first hne h
  exact ⟨rfl, halign⟩

/-- The number of pages that `map_heap_pages` maps. -/
def heapPages (bytes : Word) : Word := (bytes + 8 + pageSize - 1) / pageSize

theorem mapHeapPages_eq (h : s.mapHeapPages r heap bytes flags = some (addr, heap', s')) :
    ∃ first s1, s.mapHeapPagesFrom r flags (heapPages bytes).toNat 0 heap =
      some (first, heap', s1) ∧
      first ≠ 0 ∧ s1.storeWord r first (heapPages bytes) = some s' ∧ addr = first + 8 := by
  simp only [mapHeapPages] at h
  obtain ⟨⟨first, heap1, s1⟩, hm, h⟩ := of_bind h
  split at h
  · cases h
  · next hne =>
    obtain ⟨s2, hst, h⟩ := of_bind h
    cases h
    exact ⟨first, s1, hm, hne, hst, rfl⟩

theorem mapHeapPages_keeps (ho : Owns H r K s) (hH : CursorIn H (heapPages bytes).toNat heap)
    (h : s.mapHeapPages r heap bytes flags = some (addr, heap', s')) : Keeps H r K s s' := by
  obtain ⟨first, s1, hm, hne, hst, -⟩ := mapHeapPages_eq h
  obtain ⟨hmapped, -, hin, hfirst⟩ := mapHeapPagesFrom_mapped ho hH hm
  obtain ⟨k, hkn, rfl⟩ := mem_heapPagesFrom.mp (hfirst.resolve_left hne)
  have hk := hmapped.keeps ho
  exact hk.trans (storeWord_keeps hk.owns (hin k hkn).2 hst).1

/-- `create_user_heap` and `clone_user_heap` add tables only. -/
theorem heapAt_spec (hs : Tree (below H 3) r s)
    (hH : ∀ i, toIdx heap.pml4Idx = some i → H i) (h : s.heapAt heap r = some (heap', s')) :
    heap' = heap ∧ Grown (below H 3) r s s' := by
  obtain ⟨i4, h4, h⟩ := of_bind h
  obtain ⟨i3, h3, h⟩ := of_bind h
  obtain ⟨i2, h2, h⟩ := of_bind h
  obtain ⟨⟨pt, s1⟩, hens, h⟩ := of_bind h
  cases h
  exact ⟨rfl, (ensureTables_spec hs (by simp [mem_below, hH i4 h4]) hens).1⟩

end Vmm

end Hltos
