import Hltos.Memory.Space

/-!
# Fork copies the address space

`clone_user_pml4` walks the tables of the source and builds new ones beside them. All frames it
writes to are new, so the source is as it was throughout. The loops fill the copy path by path: of
the pages below a path, `Fills` says that they are copied and that all others have not been touched.
-/

namespace Hltos

open Lib.Radix FrameAllocator Pte List Option

namespace Vmm

variable {σ : Type} [FrameAllocator σ] {s0 s s' s'' : Vmm σ} {src q f : Frame} {i : Idx}
  {π τ : List Idx} {H : Idx → Prop} {X Y : List Idx → Prop}

/-- The page at a path is in the copy what it is in the source: absent, or with the same entry but
for its frame, which has the same contents. -/
def Copied (s0 : Vmm σ) (src q : Frame) (s : Vmm σ) (τ : List Idx) : Prop :=
  (find s0.mem src τ = none ∧ find s.mem q τ = none) ∨
    ∃ e f, find s0.mem src τ = some e ∧ find s.mem q τ = some (setAddr f e) ∧
      s.mem f = s0.mem (addr e)

/-- The copy is apart from all that was allocated at the start, which has not changed. -/
structure Copying (H : Idx → Prop) (s0 : Vmm σ) (q : Frame) (s : Vmm σ) : Prop where
  owns : Owns H q (allocated s0.pmm) s
  source : ∀ f ∈ allocated s0.pmm, s.mem f = s0.mem f

/-- The pages in `X` have been copied, and the others have not been touched. -/
structure Fills (H : Idx → Prop) (s0 : Vmm σ) (src q : Frame) (X : List Idx → Prop)
    (s s' : Vmm σ) : Prop where
  keeps : Keeps H q (allocated s0.pmm) s s'
  tables : ∀ τ ∈ below H 3, ∀ g, table s.mem q τ = some g → table s'.mem q τ = some g
  done : ∀ τ, IsPage H τ → X τ → Copied s0 src q s' τ
  other : ∀ τ, IsPage H τ → ¬ X τ → Untouched q s s' τ

theorem Copying.fills (h : Copying H s0 q s) (hf : Fills H s0 src q X s s') : Copying H s0 q s' :=
  ⟨hf.keeps.owns, fun g hg => (hf.keeps.mem g hg).trans (h.source g hg)⟩

omit [FrameAllocator σ] in
theorem Copied.of_untouched (h : Copied s0 src q s τ) (hu : Untouched q s s' τ) :
    Copied s0 src q s' τ := by
  rcases h with ⟨hsrc, hq⟩ | ⟨e, g, hsrc, hq, hpage⟩
  · exact .inl ⟨hsrc, hu.find.trans hq⟩
  · obtain ⟨x, hx, ht⟩ := child_of_find hq
    have hpe : p e = true := by
      obtain ⟨y, hy, -⟩ := child_of_find hsrc
      exact (addr_of_child hy).2
    cases (child_setAddr hpe).symm.trans hx
    exact .inr ⟨e, g, hsrc, hu.find.trans hq, (hu.mem g ht).trans hpage⟩

theorem Fills.trans (h : Fills H s0 src q X s s') (h' : Fills H s0 src q Y s' s'') :
    Fills H s0 src q (fun τ => X τ ∨ Y τ) s s'' := by
  refine ⟨h.keeps.trans h'.keeps, fun τ hτ g hg => h'.tables τ hτ g (h.tables τ hτ g hg), ?_, ?_⟩
  · intro τ hτ hX
    by_cases hY : Y τ
    · exact h'.done τ hτ hY
    · exact (h.done τ hτ (hX.resolve_right hY)).of_untouched (h'.other τ hτ hY)
  · intro τ hτ hnot
    rw [not_or] at hnot
    exact (h.other τ hτ hnot.1).trans (h'.other τ hτ hnot.2)

theorem Fills.congr (h : Fills H s0 src q X s s') (hXY : ∀ τ, IsPage H τ → (Y τ ↔ X τ)) :
    Fills H s0 src q Y s s' :=
  ⟨h.keeps, h.tables, fun τ hτ hY => h.done τ hτ ((hXY τ hτ).mp hY),
    fun τ hτ hY => h.other τ hτ (fun hX => hY ((hXY τ hτ).mpr hX))⟩

/-- Adding blank tables to the copy. -/
theorem Copying.grown (src : Frame) (h : Copying H s0 q s) (hg : Grown (below H 3) q s s') :
    Fills H s0 src q (fun _ => False) s s' := by
  exact ⟨h.owns.grown hg, fun τ hτ g => hg.table hτ, fun _ _ => False.elim,
    fun τ hτ _ => hg.untouched h.owns hτ⟩

variable {i2 i3 i4 : Idx} {pt newPt : Frame} {sa : Vmm σ} {pml4 : Frame}

/-- Copying one page: a new frame, its entry, and its contents. -/
theorem Copying.page (h : Copying H s0 q s) (hH : H i4)
    (hpt : table s0.mem src [i2, i3, i4] = some pt)
    (hnew : table s.mem q [i2, i3, i4] = some newPt) (hp : p (s0.mem pt i) = true)
    (ha : s.alloc = some (f, sa)) (hmem : s'.mem = setPage
      (setEntry s.mem newPt i (setAddr f (s0.mem pt i))) f (s0.mem (addr (s0.mem pt i))))
    (hpmm : s'.pmm = sa.pmm) (hsame : Same sa s') :
    Fills H s0 src q (· = [i, i2, i3, i4]) s s' := by
  obtain ⟨hfresh, -, hsa, hsame0⟩ := alloc_spec ha
  have hw : child (setAddr f (s0.mem pt i)) = some f := child_setAddr hp
  have hsub : [i2, i3, i4] ∈ below H 3 := by simp [mem_below, hH]
  -- first the entry, then the contents
  have hleaf : LeafWrite H q [i, i2, i3, i4] (setAddr f (s0.mem pt i)) s.mem
      (setEntry s.mem newPt i (setAddr f (s0.mem pt i))) :=
    leafWrite h.owns.tables.separated hH hnew _
  have hre := hleaf.rebound
  rw [present_of_child hw] at hre
  have hplaced : Placed H q [i, i2, i3, i4] (setAddr f (s0.mem pt i)) sa sa
      { sa with mem := setEntry s.mem newPt i (setAddr f (s0.mem pt i)) } := by
    refine ⟨.refl (h.owns.alloc ha).1.tables, ?_, rfl, ⟨rfl, rfl, rfl⟩⟩
    rw [hsa]
    exact hleaf
  have hk := Placed.keeps h.owns hH ha hw hplaced
  obtain ⟨hk', hfind, hun⟩ := hk.owns.write_page hH hre.here
    (fun g hg => by rw [hmem, setPage_of_ne _ _ (by rwa [(addr_of_child hw).1] at hg)]) hpmm
    ⟨hsame.kernelPml4, hsame.hhdmOffset, hsame.kheap⟩
  refine ⟨hk.trans hk', ?_, ?_, ?_⟩
  · intro τ hτ g hg
    cases τ with
    | nil => exact hg
    | cons j τ =>
      rw [table_cons, hfind j τ ((below H 3).tail hτ), ← table_cons, hleaf.tables _ hτ, hg]
  · rintro τ - rfl
    refine .inr ⟨s0.mem pt i, f, ?_, (hfind _ _ hsub).trans hre.here, by rw [hmem, setPage_self]⟩
    rw [find_cons_of_table hpt, present_of_child (child_of_p hp)]
  · exact fun τ hτ hne => (Placed.untouched h.owns ha hplaced hτ hne).trans (hun τ hτ hne)

/-- Where the source has nothing, there is nothing to do. -/
theorem Copying.skip (h : Copying H s0 q s)
    (hX : ∀ τ, IsPage H τ → X τ → find s0.mem src τ = none ∧ find s.mem q τ = none) :
    Fills H s0 src q X s s :=
  ⟨.refl h.owns, fun _ _ _ => id, fun τ hτ hx => .inl (hX τ hτ hx), fun τ _ _ => .refl q s τ⟩

/-! ## The loops -/

theorem mem_allIdx (i : Idx) : i ∈ allIdx := by
  apply List.mem_map.mpr
  exact ⟨i.toNat, mem_range.mpr i.isLt, by simp⟩

theorem nodup_allIdx : allIdx.Nodup := by
  refine List.Nodup.map_on ?_ nodup_range
  intro a ha b hb hab
  have hnat : a % 512 = b % 512 := congrArg BitVec.toNat hab
  rw [mem_range] at ha hb
  omega

omit [FrameAllocator σ] in
theorem clonePage_mem (hpt : pt ≠ newPt) (hpage : addr (s.mem pt i) ≠ newPt)
    (hp : p (s.mem pt i) = true) : (s.clonePage pt newPt i f).mem =
      setPage (setEntry s.mem newPt i (setAddr f (s.mem pt i))) f (s.mem (addr (s.mem pt i))) := by
  have hw : addr (setAddr f (s.mem pt i)) = f := (addr_of_child (child_setAddr hp)).1
  simp only [Vmm.clonePage, writeEntry, writePage, setEntry_setEntry, setEntry_self, hw,
    setEntry_of_ne _ _ _ hpt, setEntry_of_ne _ _ _ hpage]

/-- The number of present entries below a table, `depth` levels deep. -/
def entries (m : Memory) : Nat → List Idx → Frame → Nat
  | 0, _, _ => 0
  | depth + 1, is, f =>
    (is.map (fun i => if p (m f i) then 1 + entries m depth allIdx (addr (m f i)) else 0)).sum

theorem entries_cons (m : Memory) (depth : Nat) (i : Idx) (is : List Idx) (f : Frame) :
    entries m (depth + 1) (i :: is) f =
      (if p (m f i) then 1 + entries m depth allIdx (addr (m f i)) else 0) +
        entries m (depth + 1) is f := by
  simp [entries]

section Loops

variable {n depth : Nat} (hreach : frames s0.mem src (below H 4) ⊆ allocated s0.pmm)

include hreach

variable {t : Frame} {is : List Idx}

/-- The source is read as it was at the start. -/
theorem Copying.read (h : Copying H s0 q s) (hπ : π ∈ below H 3)
    (ht : table s0.mem src π = some t) : s.mem t = s0.mem t :=
  h.source t (hreach ⟨π, below_mono (by decide) hπ, ht⟩)

theorem Copying.clonePage (h : Copying H s0 q s) (hH : H i4)
    (hpt : table s0.mem src [i2, i3, i4] = some pt)
    (hnew : table s.mem q [i2, i3, i4] = some newPt) (hp : p (s0.mem pt i) = true)
    (ha : s.alloc = some (f, sa)) :
    Fills H s0 src q (· = [i, i2, i3, i4]) s (sa.clonePage pt newPt i f) := by
  have hsub : [i2, i3, i4] ∈ below H 3 := by simp [mem_below, hH]
  obtain ⟨-, -, hsa, -⟩ := alloc_spec ha
  -- neither the source's table nor its page is the table being filled
  have hne : ∀ g ∈ allocated s0.pmm, g ≠ newPt := by
    rintro g hg rfl
    exact h.owns.apart g hg ⟨_, below_mono (by decide) hsub, hnew⟩
  have hpt0 := hreach ⟨_, below_mono (by decide) hsub, hpt⟩
  have hpage0 : addr (s0.mem pt i) ∈ allocated s0.pmm := by
    refine hreach ⟨[i, i2, i3, i4], leaf_mem hH, ?_⟩
    rw [table_cons_of_table hpt, child_of_p hp]
  have he : sa.mem pt i = s0.mem pt i := by rw [hsa, h.source pt hpt0]
  refine h.page hH hpt hnew hp ha ?_ rfl ⟨rfl, rfl, rfl⟩
  rw [clonePage_mem (hne pt hpt0) (by rw [he]; exact hne _ hpage0) (by rw [he]; exact hp), he, hsa,
    h.source _ hpage0]

/-- The innermost loop: every present page of a page table is copied to a new frame. -/
theorem clonePages_spec (h : Copying H s0 q s) (hH : H i4)
    (hpt : table s0.mem src [i2, i3, i4] = some pt)
    (hnew : table s.mem q [i2, i3, i4] = some newPt) (hnodup : is.Nodup)
    (hblank : ∀ i ∈ is, find s.mem q [i, i2, i3, i4] = none) :
    (∀ s', s.clonePages pt newPt is = some s' →
      Fills H s0 src q (fun τ => ∃ i ∈ is, τ = [i, i2, i3, i4]) s s') ∧
    ∀ k, CanAlloc (entries s0.mem 1 is pt + k) s.pmm →
      ∃ s', s.clonePages pt newPt is = some s' ∧ CanAlloc k s'.pmm := by
  have hsub : [i2, i3, i4] ∈ below H 3 := by simp [mem_below, hH]
  induction is generalizing s with
  | nil =>
    refine ⟨fun s' hrun => ?_, fun k hk => ⟨s, rfl, by simpa [entries] using hk⟩⟩
    cases hrun
    exact h.skip (by simp)
  | cons i is ih =>
    obtain ⟨hi, his⟩ := nodup_cons.mp hnodup
    have hread : s.mem pt i = s0.mem pt i := by rw [h.read hreach hsub hpt]
    by_cases hp : p (s0.mem pt i)
    · -- one page, then the rest of the table
      have hstep := fun {f sa} (ha : s.alloc = some (f, sa)) => h.clonePage hreach hH hpt hnew hp ha
      have hrest := fun {f sa} (ha : s.alloc = some (f, sa)) =>
        ih (h.fills (hstep ha)) ((hstep ha).tables _ hsub _ hnew) his (by
          intro j hj
          have hne : [j, i2, i3, i4] ≠ [i, i2, i3, i4] := by
            intro heq
            cases heq
            exact hi hj
          rw [((hstep ha).other _ ⟨rfl, leaf_mem hH⟩ hne).1]
          exact hblank j (mem_cons_of_mem i hj))
      refine ⟨fun s' hrun => ?_, fun k hk => ?_⟩
      · simp only [clonePages, hread, hp, Bool.not_true, Bool.false_eq_true, if_false] at hrun
        obtain ⟨⟨f, sa⟩, ha, hrun⟩ := of_bind hrun
        exact ((hstep ha).trans ((hrest ha).1 s' hrun)).congr (by simp)
      · have hcount : entries s0.mem 1 (i :: is) pt + k = entries s0.mem 1 is pt + k + 1 := by
          rw [entries_cons, if_pos hp, entries, Nat.zero_add]
          omega
        rw [hcount] at hk
        obtain ⟨f, sa, ha, hk⟩ := hk.alloc
        obtain ⟨s', hs', hk'⟩ := (hrest ha).2 k hk
        refine ⟨s', ?_, hk'⟩
        simpa [clonePages, hread, hp, ha] using hs'
    · -- the entry is passed over, and there is no page behind it in either table
      have habsent : Fills H s0 src q (· = [i, i2, i3, i4]) s s := h.skip (by
        rintro τ - rfl
        refine ⟨?_, hblank i mem_cons_self⟩
        rw [find_cons_of_table hpt, present_eq_none, child_eq_none]
        simpa using hp)
      obtain ⟨hfills, hret⟩ := ih h hnew his (fun j hj => hblank j (mem_cons_of_mem i hj))
      refine ⟨fun s' hrun => ?_, fun k hk => ?_⟩
      · simp only [clonePages, hread, hp, Bool.not_false, if_true] at hrun
        exact (habsent.trans (hfills s' hrun)).congr (by simp)
      · rw [entries_cons, if_neg hp, Nat.zero_add] at hk
        obtain ⟨s', hs', hk'⟩ := hret k hk
        exact ⟨s', by simpa [clonePages, hread, hp] using hs', hk'⟩

/-- What a cloning function does to the tables at paths of length `n`: it fills in the pages below,
and returns if there is a frame for every present entry below. -/
def Clones (H : Idx → Prop) (s0 : Vmm σ) (src q : Frame) (n depth : Nat)
    (clone : Frame → Frame → Vmm σ → Option (Vmm σ)) : Prop :=
  ∀ (π : List Idx) (t t' : Frame) (s : Vmm σ), π.length = n → π ∈ below H 3 →
    table s0.mem src π = some t → table s.mem q π = some t' → Copying H s0 q s →
    (∀ τ, IsPage H τ → π <:+ τ → find s.mem q τ = none) →
    (∀ s', clone t t' s = some s' → Fills H s0 src q (π <:+ ·) s s') ∧
    ∀ k, CanAlloc (entries s0.mem depth allIdx t + k) s.pmm →
      ∃ s', clone t t' s = some s' ∧ CanAlloc k s'.pmm

variable {populate : Word → Frame → Flags → Word} {clone : Frame → Frame → Vmm σ → Option (Vmm σ)}
  {t' : Frame}

/-- One entry: a new table, and what is below it. -/
theorem Copying.entry (h : Copying H s0 q s) (hpop : ∀ e g fl, child (populate e g fl) = some g)
    (hclone : Clones H s0 src q (n + 1) depth clone) (hlen : π.length = n)
    (hi : i :: π ∈ below H 3) (ht : table s0.mem src π = some t) (ht' : table s.mem q π = some t')
    (hp : p (s0.mem t i) = true) (hblank : ∀ τ, IsPage H τ → i :: π <:+ τ → find s.mem q τ = none) :
    (∀ g s1 s', s.ensurePresent populate t' i pageUser = some (g, s1) → s1.mem t i = s0.mem t i ∧
      (clone (addr (s0.mem t i)) g s1 = some s' → Fills H s0 src q (i :: π <:+ ·) s s')) ∧
    ∀ k, CanAlloc (1 + entries s0.mem depth allIdx (addr (s0.mem t i)) + k) s.pmm →
      ∃ g s1 s', s.ensurePresent populate t' i pageUser = some (g, s1) ∧
        clone (addr (s0.mem t i)) g s1 = some s' ∧ CanAlloc k s'.pmm := by
  have hsub : table s0.mem src (i :: π) = some (addr (s0.mem t i)) := by
    rw [table_cons_of_table ht, child_of_p hp]
  have hgrow := fun {g s1} (he : s.ensurePresent populate t' i pageUser = some (g, s1)) =>
    ensurePresent_spec hpop h.owns.tables ht' hi he
  have hbelow := fun {g s1} (he : s.ensurePresent populate t' i pageUser = some (g, s1)) => by
    have hfills := h.grown src (hgrow he).1
    refine hclone (i :: π) _ g s1 (by simp [hlen]) hi hsub (hgrow he).2 (h.fills hfills) ?_
    intro τ hτ hs
    rw [(hfills.other τ hτ id).1]
    exact hblank τ hτ hs
  refine ⟨fun g s1 s' he => ⟨?_, fun hc => ?_⟩, fun k hk => ?_⟩
  · rw [(h.fills (h.grown src (hgrow he).1)).read hreach ((below H 3).tail hi) ht]
  · exact ((h.grown src (hgrow he).1).trans ((hbelow he).1 s' hc)).congr (by simp)
  · rw [show ∀ a b, 1 + a + b = a + b + 1 by omega] at hk
    obtain ⟨g, s1, he, hk1⟩ := ensurePresent_returns populate t' i pageUser hk
    obtain ⟨s', hs', hk'⟩ := (hbelow he).2 k hk1
    exact ⟨g, s1, s', he, hs', hk'⟩

/-- What one of the nested loops fills, and that it returns if there are frames for all of it. -/
theorem cloneEntries_spec
    (hpop : ∀ e g fl, child (populate e g fl) = some g)
    (hclone : Clones H s0 src q (n + 1) depth clone) (hlen : π.length = n)
    (his : ∀ i ∈ is, i :: π ∈ below H 3) (hπ : π ∈ below H 3) (hnodup : is.Nodup)
    (ht : table s0.mem src π = some t) (ht' : table s.mem q π = some t') (h : Copying H s0 q s)
    (hblank : ∀ τ, IsPage H τ → (∃ i ∈ is, i :: π <:+ τ) → find s.mem q τ = none) :
    (∀ s', s.cloneEntries populate clone t t' is = some s' →
      Fills H s0 src q (fun τ => ∃ i ∈ is, i :: π <:+ τ) s s') ∧
    ∀ k, CanAlloc (entries s0.mem (depth + 1) is t + k) s.pmm →
      ∃ s', s.cloneEntries populate clone t t' is = some s' ∧ CanAlloc k s'.pmm := by
  induction is generalizing s with
  | nil =>
    refine ⟨fun s' hrun => ?_, fun k hk => ⟨s, rfl, by simpa [entries] using hk⟩⟩
    cases hrun
    exact h.skip (by simp)
  | cons i is ih =>
    obtain ⟨hi, hnodup'⟩ := nodup_cons.mp hnodup
    have his' : ∀ j ∈ is, j :: π ∈ below H 3 := fun j hj => his j (mem_cons_of_mem i hj)
    have hread : s.mem t = s0.mem t := h.read hreach hπ ht
    have hblank0 := fun τ hτ hs => hblank τ hτ ⟨i, mem_cons_self, hs⟩
    have hblank' : ∀ τ, IsPage H τ → (∃ j ∈ is, j :: π <:+ τ) → find s.mem q τ = none :=
      fun τ hτ ⟨j, hj, hs⟩ => hblank τ hτ ⟨j, mem_cons_of_mem i hj, hs⟩
    have hapart : ∀ τ, (∃ j ∈ is, j :: π <:+ τ) → ¬ i :: π <:+ τ := by
      rintro τ ⟨j, hj, hs⟩ hs'
      cases eq_of_cons_suffix hs hs'
      exact hi hj
    by_cases hp : p (s0.mem t i)
    · -- a table of the clone for this entry, the loop inside, and then the other entries
      obtain ⟨hentry, hret⟩ := h.entry hreach hpop hclone hlen (his i mem_cons_self) ht ht' hp
        hblank0
      have hrest := fun {s1} (hfills : Fills H s0 src q (i :: π <:+ ·) s s1) =>
        ih his' hnodup' (hfills.tables π hπ t' ht') (h.fills hfills) (fun τ hτ hs => by
          rw [(hfills.other τ hτ (hapart τ hs)).1]
          exact hblank' τ hτ hs)
      refine ⟨fun s' hrun => ?_, fun k hk => ?_⟩
      · simp only [cloneEntries, hread, hp, Bool.not_true, Bool.false_eq_true, if_false] at hrun
        obtain ⟨⟨g, s1⟩, he, hrun⟩ := of_bind hrun
        obtain ⟨s2, hc, hrun⟩ := of_bind hrun
        have hfills := (hentry g s1 s2 he).2 (by rw [← (hentry g s1 s2 he).1]; exact hc)
        exact (hfills.trans ((hrest hfills).1 s' hrun)).congr (by simp)
      · rw [entries_cons, if_pos hp, Nat.add_assoc] at hk
        obtain ⟨g, s1, s2, he, hc, hk⟩ := hret _ hk
        obtain ⟨s', hs', hk'⟩ := (hrest ((hentry g s1 s2 he).2 hc)).2 k hk
        refine ⟨s', ?_, hk'⟩
        simpa [cloneEntries, hread, hp, he, (hentry g s1 s2 he).1, hc] using hs'
    · have habsent := h.skip (by
        intro τ hτ hs
        refine ⟨?_, hblank0 τ hτ hs⟩
        have hnone : table s0.mem src (i :: π) = none := by
          rw [table_cons_of_table ht, child_eq_none]
          simpa using hp
        cases τ with
        | nil => rfl
        | cons j τ => exact find_eq_none_iff.mpr (table_eq_none_of_suffix hnone hs))
      obtain ⟨hfills, hret⟩ := ih his' hnodup' ht' h hblank'
      refine ⟨fun s' hrun => ?_, fun k hk => ?_⟩
      · simp only [cloneEntries, hread, hp, Bool.not_false, if_true] at hrun
        exact (habsent.trans (hfills s' hrun)).congr (by simp)
      · rw [entries_cons, if_neg hp, Nat.zero_add] at hk
        obtain ⟨s', hs', hk'⟩ := hret k hk
        exact ⟨s', by simpa [cloneEntries, hread, hp] using hs', hk'⟩

theorem clonePt_clones : Clones H s0 src q 3 1 clonePt := by
  intro π t t' s hlen hπ ht ht' h hblank
  obtain ⟨i2, i3, i4, rfl⟩ := length_eq_three.mp hlen
  have hH : H i4 := hπ.2 i4 (by simp)
  obtain ⟨hfills, hret⟩ := clonePages_spec hreach h hH ht ht' nodup_allIdx (fun i _ =>
    hblank [i, i2, i3, i4] ⟨rfl, leaf_mem hH⟩ (suffix_cons i _))
  refine ⟨fun s' hrun => (hfills s' hrun).congr ?_, hret⟩
  intro τ hτ
  constructor
  · intro hs
    obtain ⟨i, hs'⟩ := exists_cons_suffix hs (fun heq => by rw [heq] at hτ; cases hτ.1)
    exact ⟨i, mem_allIdx i, (hs'.eq_of_length (by rw [hτ.1]; rfl)).symm⟩
  · rintro ⟨i, -, rfl⟩
    exact suffix_cons i _

/-- One level up. -/
theorem Clones.up (hn : n < 3) (hpos : 0 < n) (hpop : ∀ e g fl, child (populate e g fl) = some g)
    (hclone : Clones H s0 src q (n + 1) depth clone) :
    Clones H s0 src q n (depth + 1) (fun t t' s => s.cloneEntries populate clone t t' allIdx) := by
  intro π t t' s hlen hπ ht ht' h hblank
  have hmem : ∀ i, i :: π ∈ below H 3 := by
    intro i
    refine ⟨by simp; omega, ?_⟩
    cases π with
    | nil => simp at hlen; omega
    | cons j π => simpa using hπ.2
  have hiff : ∀ τ, IsPage H τ → (π <:+ τ ↔ ∃ i ∈ allIdx, i :: π <:+ τ) := by
    intro τ hτ
    constructor
    · intro hs
      obtain ⟨i, hs'⟩ := exists_cons_suffix hs (fun heq => by have := hτ.1; rw [heq] at this; omega)
      exact ⟨i, mem_allIdx i, hs'⟩
    · rintro ⟨i, -, hs⟩
      exact (suffix_cons i π).trans hs
  obtain ⟨hfills, hret⟩ := cloneEntries_spec hreach hpop hclone hlen (fun i _ => hmem i) hπ
    nodup_allIdx ht ht' h (fun τ hτ hs => hblank τ hτ ((hiff τ hτ).mpr hs))
  exact ⟨fun s' hrun => (hfills s' hrun).congr hiff, hret⟩

theorem clonePd_clones : Clones H s0 src q 2 2 clonePd := by
  intro π t t' s
  exact Clones.up hreach (by decide) (by decide) child_populatePdpte
    (clonePt_clones hreach) π t t' s

theorem clonePdpt_clones : Clones H s0 src q 1 3 clonePdpt := by
  intro π t t' s
  exact Clones.up hreach (by decide) (by decide) child_populatePdpte
    (clonePd_clones hreach) π t t' s

end Loops

/-! ## A new root -/

/-- The entries of the user half. -/
def userHead (s : Vmm σ) : Idx → Prop := fun i => i < s.kernelStart

instance (s : Vmm σ) : DecidablePred s.userHead :=
  fun i => inferInstanceAs (Decidable (i < s.kernelStart))

section

omit [FrameAllocator σ]

theorem mem_userIdx : i ∈ s.userIdx ↔ s.userHead i := by simp [userIdx, userHead, mem_allIdx]

theorem Same.userHead (h : Same s s') : s'.userHead = s.userHead := by
  unfold Vmm.userHead
  rw [h.kernelStart]

theorem copyKernelHalf_mem {r : Frame} (hne : r ≠ q) (g : Frame) (j : Idx) :
    (s.copyKernelHalf r q).mem g j =
      if g = q ∧ s.kernelStart ≤ j then s.mem r j else s.mem g j := by
  have hfold : ∀ (is : List Idx) (s : Vmm σ),
      (is.foldl (fun s i => s.writeEntry q i (s.mem r i)) s).mem =
        fun g j => if g = q ∧ j ∈ is then s.mem r j else s.mem g j := by
    intro is
    induction is with
    | nil => intro s; funext g j; simp
    | cons i is ih =>
      intro s
      rw [foldl_cons, ih]
      funext g j
      have hr : (s.writeEntry q i (s.mem r i)).mem r = s.mem r := setEntry_of_ne _ _ _ hne
      rw [hr]
      by_cases hg : g = q
      · by_cases hj : j = i
        · subst hg hj; simp [writeEntry]
        · have : (s.writeEntry q i (s.mem r i)).mem g j = s.mem g j :=
            by simp [writeEntry, setEntry, hj]
          simp [this, hj]
      · have : (s.writeEntry q i (s.mem r i)).mem g = s.mem g := setEntry_of_ne _ _ _ hg
        simp [this, hg]
  rw [copyKernelHalf, hfold]
  simp [mem_filter, mem_allIdx]

theorem copyKernelHalf_same (s : Vmm σ) (r q : Frame) :
    (s.copyKernelHalf r q).pmm = s.pmm ∧ Same s (s.copyKernelHalf r q) := by
  have hfold : ∀ (is : List Idx) (s : Vmm σ),
      (is.foldl (fun s i => s.writeEntry q i (s.mem r i)) s).pmm = s.pmm ∧
        Same s (is.foldl (fun s i => s.writeEntry q i (s.mem r i)) s) := by
    intro is
    induction is with
    | nil => exact fun s => ⟨rfl, .refl s⟩
    | cons i is ih =>
      intro s
      obtain ⟨hpmm, hsame⟩ := ih (s.writeEntry q i (s.mem r i))
      exact ⟨hpmm, hsame.kernelPml4, hsame.hhdmOffset, hsame.kheap⟩
  exact hfold _ s

end

/-- A root with the kernel's half of another one and nothing else. -/
structure NewRoot (s s' : Vmm σ) (r q : Frame) : Prop where
  fresh : q ∉ allocated s.pmm
  allocated : allocated s'.pmm = insert q (allocated s.pmm)
  mem : ∀ f ∈ FrameAllocator.allocated s.pmm, s'.mem f = s.mem f
  kernel : ∀ i, s.kernelStart ≤ i → s'.mem q i = s.mem r i
  user : ∀ i, s.userHead i → s'.mem q i = 0
  same : Same s s'

/-- A cleared frame with the kernel's entries is a new root. -/
theorem newRoot_copyKernelHalf {r : Frame} (hr : r ∈ allocated s.pmm)
    (ha : s.alloc = some (q, sa)) : NewRoot s ((sa.zeroPage q).copyKernelHalf r q) r q := by
  obtain ⟨hfresh, halloc, hmem, hsame⟩ := alloc_spec ha
  have hne : ∀ f ∈ allocated s.pmm, f ≠ q := fun f hf heq => hfresh (heq ▸ hf)
  have hstart : (sa.zeroPage q).kernelStart = s.kernelStart :=
    congrArg (fun o : Word => o.extractLsb' 39 9) hsame.hhdmOffset
  have hzero : ∀ f ∈ allocated s.pmm, (sa.zeroPage q).mem f = s.mem f := by
    intro f hf
    show setPage sa.mem q _ f = s.mem f
    rw [setPage_of_ne _ _ (hne f hf), hmem]
  obtain ⟨hpmm, hsame'⟩ := copyKernelHalf_same (sa.zeroPage q) r q
  refine ⟨hfresh, by rw [hpmm]; exact halloc, ?_, ?_, ?_, ?_⟩
  · intro f hf
    funext j
    rw [copyKernelHalf_mem (hne r hr), if_neg (fun h => hne f hf h.1), hzero f hf]
  · intro i hi
    rw [copyKernelHalf_mem (hne r hr), hstart, if_pos ⟨rfl, hi⟩, hzero r hr]
  · intro i hi
    rw [copyKernelHalf_mem (hne r hr), hstart, if_neg (fun h => absurd h.2 (BitVec.not_le.mpr hi))]
    show setPage sa.mem q _ q i = 0
    rw [setPage_self]
  · exact hsame.trans ⟨hsame'.kernelPml4, hsame'.hhdmOffset, hsame'.kheap⟩

namespace NewRoot

variable {r : Frame} (h : NewRoot s s' r q)

include h

theorem blank : ∀ i, s.userHead i → child (s'.mem q i) = none := by
  intro i hi
  rw [h.user i hi, child_zero]

theorem owns : Owns s.userHead q (FrameAllocator.allocated s.pmm) s' := by
  apply Owns.of_blank_root h.blank _ _ h.fresh
  · rw [h.allocated]
    exact .inl rfl
  · rw [h.allocated]
    exact Set.subset_insert _ _

theorem exact : Exact s.userHead q (FrameAllocator.allocated s.pmm) s' := by
  intro f hf
  rw [h.allocated] at hf
  rcases hf with rfl | hf
  · exact .inr (root_mem_frames _ _ _)
  · exact .inl hf

end NewRoot

theorem createUserPml4_spec (hr : s.kernelPml4 ∈ allocated s.pmm)
    (h : s.createUserPml4 = some (q, s')) : NewRoot s s' s.kernelPml4 q := by
  obtain ⟨⟨q', sa⟩, ha, h⟩ := of_bind h
  have hnew := newRoot_copyKernelHalf hr ha
  obtain ⟨rfl, rfl⟩ := Prod.mk.inj (Option.some.inj h)
  rw [(alloc_spec ha).2.2.2.kernelPml4]
  exact hnew

/-! ## `clone_user_pml4` -/

structure IsClone (s s' : Vmm σ) (pml4 q : Frame) : Prop where
  owns : Owns s.userHead q (allocated s.pmm) s'
  source : ∀ f ∈ allocated s.pmm, s'.mem f = s.mem f
  pages : ∀ τ, IsPage s.userHead τ → Copied s pml4 q s' τ
  kernel : ∀ i, s.kernelStart ≤ i → s'.mem q i = s.mem pml4 i
  same : Same s s'

/-- What `clone_user_pml4` returns is a clone, and with enough free frames it returns. -/
theorem cloneUserPml4_spec (hreach : frames s.mem pml4 (below s.userHead 4) ⊆ allocated s.pmm) :
    (∀ q s', s.cloneUserPml4 pml4 = some (q, s') → IsClone s s' pml4 q) ∧
    (CanAlloc (1 + entries s.mem 4 s.userIdx pml4) s.pmm →
      ∃ q s', s.cloneUserPml4 pml4 = some (q, s')) := by
  have hroot : pml4 ∈ allocated s.pmm := hreach (root_mem_frames _ _ _)
  have hnodup : s.userIdx.Nodup := nodup_allIdx.filter _
  have hloop : ∀ q sa, s.alloc = some (q, sa) →
      (∀ s', ((sa.zeroPage q).copyKernelHalf pml4 q).cloneEntries populatePml4e clonePdpt pml4 q
          s.userIdx = some s' →
        Fills s.userHead s pml4 q (fun τ => ∃ i ∈ s.userIdx, [i] <:+ τ)
          ((sa.zeroPage q).copyKernelHalf pml4 q) s') ∧
      ∀ k, CanAlloc (entries s.mem 4 s.userIdx pml4 + k)
          ((sa.zeroPage q).copyKernelHalf pml4 q).pmm →
        ∃ s', ((sa.zeroPage q).copyKernelHalf pml4 q).cloneEntries populatePml4e clonePdpt pml4 q
          s.userIdx = some s' ∧ CanAlloc k s'.pmm := by
    intro q sa ha
    have hnew := newRoot_copyKernelHalf hroot ha
    apply cloneEntries_spec hreach child_populateTable (clonePdpt_clones hreach) rfl _
      (below s.userHead 3).nil hnodup rfl rfl ⟨hnew.owns, hnew.mem⟩
    · rintro τ ⟨hlen, hτ⟩ -
      cases τ with
      | nil => cases hlen
      | cons j τ =>
        rw [find_eq_none_iff, eq_none_iff_forall_ne_some]
        exact fun f hf => absurd (table_of_blank_root hnew.blank hτ hf).1 (by simp)
    · exact fun i hi => singleton_mem_below.mpr (mem_userIdx.mp hi)
  -- the loop runs over the same entries as before the copy of the kernel's half
  have hidx : ∀ q sa, s.alloc = some (q, sa) →
      ((sa.zeroPage q).copyKernelHalf pml4 q).userIdx = s.userIdx := by
    intro q sa ha
    simp only [userIdx, (newRoot_copyKernelHalf hroot ha).same.kernelStart]
  constructor
  · intro q s' hrun
    obtain ⟨⟨q', sa⟩, ha, hrun⟩ := of_bind hrun
    obtain ⟨s'', hc, hrun⟩ := of_bind hrun
    cases hrun
    have hnew := newRoot_copyKernelHalf hroot ha
    simp only [hidx q sa ha] at hc
    have hfills := (hloop q sa ha).1 s' hc
    refine ⟨hfills.keeps.owns, ?_, ?_, ?_, hnew.same.trans hfills.keeps.same⟩
    · exact fun f hf => (hfills.keeps.mem f hf).trans (hnew.mem f hf)
    · intro τ hτ
      apply hfills.done τ hτ
      rcases eq_nil_or_concat τ with rfl | ⟨ρ, i, rfl⟩
      · cases hτ.1
      · exact ⟨i, mem_userIdx.mpr (hτ.2.2 i (by simp)), ρ, by simp⟩
    · intro i hi
      rw [hfills.keeps.root i (fun h => absurd hi (BitVec.not_le.mpr h)), hnew.kernel i hi]
  · intro hcan
    rw [Nat.add_comm] at hcan
    obtain ⟨q, sa, ha, hcan⟩ := CanAlloc.alloc (n := entries s.mem 4 s.userIdx pml4) hcan
    have hpmm : ((sa.zeroPage q).copyKernelHalf pml4 q).pmm = sa.pmm :=
      (copyKernelHalf_same (sa.zeroPage q) pml4 q).1
    obtain ⟨s', hs', -⟩ := (hloop q sa ha).2 0 (by rw [hpmm, Nat.add_zero]; exact hcan)
    refine ⟨q, s', ?_⟩
    simp [cloneUserPml4, ha, hidx q sa ha, hs']

/-! ## The two address spaces afterwards -/

/-- What a root shows at an address: the entry and the contents of the page. -/
def view (m : Memory) (r : Frame) (v : Word) : Option (Word × (Idx → Word)) :=
  (walk m r v).map (fun e => (e, m (addr e)))

/-- A write through a root. -/
def storePage (r : Frame) (v : Word) (page : Idx → Word) (m : Memory) : Memory :=
  match walk m r v with
  | none => m
  | some e => setPage m (addr e) page

/-- Both roots have a tree behind their entries `H`, and no frame in common. -/
structure Unshared (H : Idx → Prop) (m : Memory) (a b : Frame) : Prop where
  left : Separated m a (below H 4)
  right : Separated m b (below H 4)
  disjoint : ∀ f ∈ frames m a (below H 4), f ∉ frames m b (below H 4)

variable {m : Memory} {a b : Frame}

theorem Unshared.symm (h : Unshared H m a b) : Unshared H m b a :=
  ⟨h.right, h.left, fun f hf hf' => h.disjoint f hf' hf⟩

/-- A write through one root leaves the trees as they are, and does not show through the other. -/
theorem Unshared.storePage {v : Word} (h : Unshared H m a b)
    (hv : H (pml4Idx v)) (page : Idx → Word) :
    Unshared H (storePage a v page m) a b ∧
      ∀ v', H (pml4Idx v') → view (Vmm.storePage a v page m) b v' = view m b v' := by
  unfold Vmm.storePage
  cases he : walk m a v with
  | none => exact ⟨h, fun _ _ => rfl⟩
  | some e =>
    rw [walk_eq_find] at he
    obtain ⟨g, hg, ht⟩ := child_of_find he
    simp only [(addr_of_child hg).1]
    have hga : g ∈ frames m a (below H 4) := ⟨_, path_mem hv, ht⟩
    -- the page is no table of the one, and no frame of the other
    have ha : ∀ f ∈ frames m a (below H 3), setPage m g page f = m f := by
      rintro f ⟨τ, hτ, hf⟩
      apply setPage_of_ne
      rintro rfl
      have heq := h.left τ (below_mono (by decide) hτ) _ (path_mem hv) f hf ht
      exact absurd (heq ▸ hτ) leaf_not_mem
    have hb : ∀ f ∈ frames m b (below H 4), setPage m g page f = m f := by
      rintro f hf
      apply setPage_of_ne
      rintro rfl
      exact h.disjoint f hga hf
    have htable : ∀ τ ∈ below H 4, table (setPage m g page) a τ = table m a τ := by
      intro τ hτ
      cases τ with
      | nil => rfl
      | cons i τ => rw [table_cons, table_cons, find_of_agree ha (tail_mem_below hτ)]
    refine ⟨⟨?_, h.right.of_agree hb, ?_⟩, ?_⟩
    · intro τ hτ τ' hτ' f hf hf'
      rw [htable τ hτ] at hf
      rw [htable τ' hτ'] at hf'
      exact h.left τ hτ τ' hτ' f hf hf'
    · rintro f ⟨τ, hτ, hf⟩
      rw [htable τ hτ] at hf
      rw [frames_of_agree hb]
      exact h.disjoint f ⟨τ, hτ, hf⟩
    · intro v' hv'
      have hwalk : walk (setPage m g page) b v' = walk m b v' := by
        rw [walk_eq_find, walk_eq_find]
        exact find_of_agree hb ((below H 4).tail (path_mem hv'))
      unfold view
      rw [hwalk]
      cases he' : walk m b v' with
      | none => rfl
      | some e' =>
        rw [walk_eq_find] at he'
        obtain ⟨g', hg', ht'⟩ := child_of_find he'
        simp [(addr_of_child hg').1, hb g' ⟨_, path_mem hv', ht'⟩]

/-- Writes through the first or the second of two roots. -/
def storePages (a b : Frame) : List (Bool × Word × (Idx → Word)) → Memory → Memory
  | [], m => m
  | (second, v, page) :: ws, m => storePages a b ws (storePage (if second then b else a) v page m)

theorem Unshared.storePages (h : Unshared H m a b)
    {ws : List (Bool × Word × (Idx → Word))} (hws : ∀ w ∈ ws, H (pml4Idx w.2.1)) :
    Unshared H (storePages a b ws m) a b := by
  induction ws generalizing m with
  | nil => exact h
  | cons w ws ih =>
    obtain ⟨second, v, page⟩ := w
    have hv : H (pml4Idx v) := hws (second, v, page) mem_cons_self
    apply ih _ (fun w hw => hws w (mem_cons_of_mem _ hw))
    cases second
    · exact (h.storePage hv page).1
    · exact (h.symm.storePage hv page).1.symm

theorem IsClone.unshared (h : IsClone s s' pml4 q)
    (hshape : Separated s.mem pml4 (below s.userHead 4))
    (hreach : frames s.mem pml4 (below s.userHead 4) ⊆ allocated s.pmm) :
    Unshared s.userHead s'.mem pml4 q := by
  have hagree : ∀ f ∈ frames s.mem pml4 (below s.userHead 4), s'.mem f = s.mem f :=
    fun f hf => h.source f (hreach hf)
  refine ⟨hshape.of_agree hagree, h.owns.tree.separated, fun f hf => ?_⟩
  rw [frames_of_agree hagree] at hf
  exact h.owns.apart f (hreach hf)

/-- **Fork copies the address space exactly.** Of a root whose user half is a tree of allocated
frames: the copy shows the same pages with the same entries but for their frames, which are new and
hold the same contents; the kernel's entries are the same; nothing that was allocated is modified.
After any writes through the two, a write through one does not show through the other. The function
returns if there is a frame for the root and for every present entry of the user half. -/
theorem cloneUserPml4_copies {s : Vmm σ} {pml4 : Frame}
    (hshape : Separated s.mem pml4 (below s.userHead 4))
    (hreach : frames s.mem pml4 (below s.userHead 4) ⊆ allocated s.pmm) :
    (CanAlloc (1 + entries s.mem 4 s.userIdx pml4) s.pmm →
      ∃ q s', s.cloneUserPml4 pml4 = some (q, s')) ∧
    ∀ q s', s.cloneUserPml4 pml4 = some (q, s') →
      (∀ v, s.userHead (pml4Idx v) → (walk s.mem pml4 v = none → walk s'.mem q v = none) ∧
        ∀ e, walk s.mem pml4 v = some e → ∃ f, walk s'.mem q v = some (setAddr f e) ∧
          f ∉ allocated s.pmm ∧ s'.mem f = s.mem (addr e)) ∧
      (∀ i, s.kernelStart ≤ i → s'.mem q i = s.mem pml4 i) ∧
      (∀ f ∈ allocated s.pmm, s'.mem f = s.mem f) ∧
      ∀ ws : List (Bool × Word × (Idx → Word)), (∀ w ∈ ws, s.userHead (pml4Idx w.2.1)) →
        ∀ v page v', s.userHead (pml4Idx v) → s.userHead (pml4Idx v') →
          let m := storePages pml4 q ws s'.mem
          view (storePage pml4 v page m) q v' = view m q v' ∧
          view (storePage q v page m) pml4 v' = view m pml4 v' := by
  obtain ⟨hclone, hret⟩ := cloneUserPml4_spec hreach
  refine ⟨hret, fun q s' h => ?_⟩
  have hc := hclone q s' h
  refine ⟨?_, hc.kernel, hc.source, ?_⟩
  · intro v hv
    simp only [walk_eq_find]
    rcases hc.pages (path v) ⟨rfl, path_mem hv⟩ with ⟨hsrc, hq⟩ | ⟨e, f, hsrc, hq, hpage⟩
    · exact ⟨fun _ => hq, fun e he => by rw [hsrc] at he; cases he⟩
    · refine ⟨fun hnone => (by rw [hsrc] at hnone; cases hnone), fun e' he' => ?_⟩
      cases hsrc.symm.trans he'
      refine ⟨f, hq, fun hf => hc.owns.apart f hf ?_, hpage⟩
      obtain ⟨g, hg, ht⟩ := child_of_find hq
      obtain ⟨x, hx, -⟩ := child_of_find hsrc
      cases (child_setAddr (addr_of_child hx).2).symm.trans hg
      exact ⟨_, path_mem hv, ht⟩
  · intro ws hws v page v' hv hv'
    have hun := (hc.unshared hshape hreach).storePages hws
    exact ⟨(hun.storePage hv page).2 v' hv', (hun.symm.storePage hv page).2 v' hv'⟩

/-- A root in frame 0, ten free frames, and a user half of 511 entries. -/
def forkVmm : Vmm FramePool where
  mem _ _ := 0
  pmm := ⟨[1, 2, 3, 4, 5, 6, 7, 8, 9, 10], by decide⟩
  kernelPml4 := 0
  hhdmOffset := 0xFFFFFF8000000000
  kheap := ⟨511, 0, 0, 0⟩

theorem forkVmm_owns : Owns forkVmm.userHead 0 ∅ forkVmm :=
  .of_blank_root (fun _ _ => child_zero) (by decide : (0 : Frame) ∉ forkVmm.pmm.free)
    (Set.empty_subset _) (Set.notMem_empty _)

/-- A page is mapped, and the space is cloned. -/
theorem forkVmm_copies : ∃ s q s', forkVmm.mapPages 0 0x400000 1 (pageUser ||| pageWrite) = some s ∧
    s.cloneUserPml4 0 = some (q, s') ∧ ∃ e f, walk s.mem 0 0x400000 = some e ∧
      walk s'.mem q 0x400000 = some (setAddr f e) ∧ f ≠ addr e ∧ s'.mem f = s.mem (addr e) := by
  have hrun : (forkVmm.mapPages 0 0x400000 1 (pageUser ||| pageWrite)).bind (fun s =>
      (s.cloneUserPml4 0).bind (fun _ => walk s.mem 0 0x400000)) ≠ none := by
    decide +kernel
  obtain ⟨e, hrun⟩ := ne_none_iff_exists'.mp hrun
  obtain ⟨s, hmap, hrun⟩ := of_bind hrun
  obtain ⟨⟨q, s'⟩, hclone, he⟩ := of_bind hrun
  have hk := mapPagesFrom_keeps forkVmm_owns (by decide) (mapPages_eq hmap)
  have huser := hk.same.userHead
  have howns : Owns s.userHead 0 ∅ s := huser ▸ hk.owns
  have hpage : s.userHead (pml4Idx 0x400000) := by
    rw [huser]
    decide
  obtain ⟨f, hf, hfresh, hcontents⟩ :=
    (((cloneUserPml4_copies howns.tree.separated howns.tree.allocated).2 q s' hclone).1 _ hpage).2 e
      he
  refine ⟨s, q, s', hmap, hclone, e, f, he, hf, ?_, hcontents⟩
  rintro rfl
  rw [walk_eq_find] at he
  obtain ⟨g, hg, ht⟩ := child_of_find he
  apply hfresh
  rw [(addr_of_child hg).1]
  exact howns.tree.allocated ⟨_, path_mem hpage, ht⟩

end Vmm

end Hltos
