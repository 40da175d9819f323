import Hltos.Memory.Paging

/-!
# The tables as a partial map

`find_pte` read as `Lib.Radix.find`: a virtual address is the path of its four indices, and what
the hardware sees of an address space is a partial map from paths to entries. A `Tree` is a region
of paths on which the tables are distinct allocated frames.

The mapping functions all do the same two things: make sure that the tables on a path exist, and
write one entry of the innermost. The first step only ever adds blank tables in new frames; this is
`Grown`, and is closed under composition. The second is a rebinding of one path.
-/

namespace Hltos

open Lib.Radix FrameAllocator Pte Option BitVec

namespace Vmm

variable {σ : Type} {s s' s'' : Vmm σ} {r f g : Frame} {i : Idx} {π : List Idx} {virt : Word}

/-! ## Paths -/

/-- The path of an address, innermost index first. -/
def path (virt : Word) : List Idx := [ptIdx virt, pdIdx virt, pdptIdx virt, pml4Idx virt]

/-- Bits 47 to 12 of an address: the number of its page. -/
def vpn (virt : Word) : BitVec 36 := virt.extractLsb' 12 36

/-- The path of a page number. -/
def vpnPath (n : BitVec 36) : List Idx :=
  [n.extractLsb' 0 9, n.extractLsb' 9 9, n.extractLsb' 18 9, n.extractLsb' 27 9]

theorem path_eq (virt : Word) : path virt = vpnPath (vpn virt) := by
  have hsub : ∀ lo, lo + 9 ≤ 36 →
      virt.extractLsb' (12 + lo) 9 = (virt.extractLsb' 12 36).extractLsb' lo 9 := by
    intro lo hlo
    apply eq_of_getLsbD_eq
    intro i hi
    simp [hi, show lo + i < 36 by omega, Nat.add_assoc]
  simp [path, vpnPath, vpn, ptIdx, pdIdx, pdptIdx, pml4Idx, ← hsub _ (by decide : 0 + 9 ≤ 36),
    ← hsub _ (by decide : 9 + 9 ≤ 36), ← hsub _ (by decide : 18 + 9 ≤ 36),
      ← hsub _ (by decide : 27 + 9 ≤ 36)]

theorem vpnPath_injective {n n' : BitVec 36} (h : vpnPath n = vpnPath n') : n = n' := by
  simp only [vpnPath, List.cons.injEq, and_true] at h
  obtain ⟨h0, h1, h2, h3⟩ := h
  apply eq_of_getLsbD_eq
  intro i hi
  have hbit : ∀ lo, n.extractLsb' lo 9 = n'.extractLsb' lo 9 → lo ≤ i → i < lo + 9 →
      n.getLsbD i = n'.getLsbD i := by
    intro lo hlo h1 h2
    have := congrArg (fun x => x.getLsbD (i - lo)) hlo
    simpa [getLsbD_extractLsb', show i - lo < 9 by omega, show lo + (i - lo) = i by omega]
      using this
  by_cases h9 : i < 9
  · exact hbit 0 h0 (by omega) (by omega)
  · by_cases h18 : i < 18
    · exact hbit 9 h1 (by omega) (by omega)
    · by_cases h27 : i < 27
      · exact hbit 18 h2 (by omega) (by omega)
      · exact hbit 27 h3 (by omega) (by omega)

theorem path_eq_iff {virt' : Word} : path virt = path virt' ↔ vpn virt = vpn virt' := by
  rw [path_eq, path_eq]
  exact ⟨vpnPath_injective, congrArg vpnPath⟩

/-- What the walk of the tables finds at an address: its present entry. -/
def walk (m : Memory) (pml4 : Frame) (virt : Word) : Option Word :=
  (findPte m pml4 virt).map (fun (pt, i) => m pt i)

section

variable (m : Memory) (pml4 : Frame) (virt : Word)

theorem findPte_eq : findPte m pml4 virt = (table m pml4 (path virt).tail).bind
      (fun pt => if p (m pt (ptIdx virt)) then some (pt, ptIdx virt) else none) := by
  show _ = (table m pml4 [pdIdx virt, pdptIdx virt, pml4Idx virt]).bind _
  simp only [findPte, table, bind_some, child_eq]
  by_cases h4 : p (m pml4 (pml4Idx virt))
  · by_cases h3 : p (m (addr (m pml4 (pml4Idx virt))) (pdptIdx virt))
    · by_cases h2 : p (m (addr (m (addr (m pml4 (pml4Idx virt))) (pdptIdx virt))) (pdIdx virt))
      · simp only [h4, h3, h2, if_true, Bool.not_true, Bool.false_eq_true, if_false, bind_some]
        split <;> simp_all
      · simp [h4, h3, h2]
    · simp [h4, h3]
  · simp [h4]

/-- **`find_pte` computes the partial map.** -/
theorem walk_eq_find : walk m pml4 virt = find m pml4 (path virt) := by
  unfold walk
  rw [findPte_eq]
  show _ = (table m pml4 (path virt).tail).bind _
  cases table m pml4 (path virt).tail with
  | none => rfl
  | some pt =>
    by_cases hp : p (m pt (ptIdx virt)) <;> simp [present, child_eq, hp]

end

theorem findPte_eq_some {m : Memory} {pml4 pt : Frame} {i : Idx}
    (h : findPte m pml4 virt = some (pt, i)) :
    table m pml4 (path virt).tail = some pt ∧ i = ptIdx virt ∧ p (m pt i) = true := by
  rw [findPte_eq] at h
  obtain ⟨pt', ht, h⟩ := of_bind h
  split at h
  · next hp => cases h; exact ⟨ht, rfl, hp⟩
  · cases h

/-- The paths of at most `n` indices that leave the root through an entry in `H`. -/
def below (H : Idx → Prop) (n : Nat) : Region Idx where
  mem π := π.length ≤ n ∧ ∀ i ∈ π.getLast?, H i
  nil_mem := ⟨Nat.zero_le n, by simp⟩
  tail_mem := by
    rintro i π ⟨hlen, hlast⟩
    refine ⟨Nat.le_of_succ_le hlen, ?_⟩
    cases π with
    | nil => simp
    | cons j π => simpa using hlast

section Below

variable {H : Idx → Prop} {n : Nat} {virt : Word}

theorem mem_below : π ∈ below H n ↔ π.length ≤ n ∧ ∀ i ∈ π.getLast?, H i := Iff.rfl

theorem tail_mem_below (h : i :: π ∈ below H (n + 1)) : π ∈ below H n := by
  have hlen : π.length ≤ n := Nat.le_of_succ_le_succ h.1
  exact ⟨hlen, ((below H (n + 1)).tail h).2⟩

theorem below_mono {m : Nat} (hmn : m ≤ n) (h : π ∈ below H m) : π ∈ below H n :=
  ⟨h.1.trans hmn, h.2⟩

theorem path_mem (h : H (pml4Idx virt)) : path virt ∈ below H 4 := by simp [mem_below, path, h]

theorem path_tail_mem (h : H (pml4Idx virt)) : (path virt).tail ∈ below H 3 :=
  tail_mem_below (path_mem h)

/-- The entries of the innermost tables point to pages, not to tables. -/
theorem leaf_not_mem {i1 i2 i3 i4 : Idx} : [i1, i2, i3, i4] ∉ below H 3 := by simp [mem_below]

theorem singleton_mem_below : [i] ∈ below H (n + 1) ↔ H i := by simp [mem_below]

end Below

/-! ## Trees -/

variable [FrameAllocator σ]

/-- The tables of a region are distinct allocated frames. -/
structure Tree (T : Region Idx) (r : Frame) (s : Vmm σ) : Prop where
  separated : Separated s.mem r T
  allocated : frames s.mem r T ⊆ allocated s.pmm

/-- The fields that the mapping functions leave alone. -/
structure Same (s s' : Vmm σ) : Prop where
  kernelPml4 : s'.kernelPml4 = s.kernelPml4
  hhdmOffset : s'.hhdmOffset = s.hhdmOffset
  kheap : s'.kheap = s.kheap

section

omit [FrameAllocator σ]

theorem Same.refl (s : Vmm σ) : Same s s := ⟨rfl, rfl, rfl⟩

theorem Same.trans (h : Same s s') (h' : Same s' s'') : Same s s'' :=
  ⟨h'.kernelPml4.trans h.kernelPml4, h'.hhdmOffset.trans h.hhdmOffset, h'.kheap.trans h.kheap⟩

theorem Same.kernelStart (h : Same s s') : s'.kernelStart = s.kernelStart := by
  simp [Vmm.kernelStart, h.hhdmOffset]

end

/-- Blank tables in new frames have been added to a tree, and nothing else has happened. -/
structure Grown (T : Region Idx) (r : Frame) (s s' : Vmm σ) : Prop where
  tree : Tree T r s'
  find : ∀ i, ∀ π ∈ T, find s'.mem r (i :: π) = find s.mem r (i :: π) ∨
    find s.mem r (i :: π) = none ∧ i :: π ∈ T
  tables : ∀ f ∈ frames s'.mem r T, f ∈ frames s.mem r T ∨ f ∉ allocated s.pmm
  allocated : ∀ f, f ∈ allocated s'.pmm ↔ f ∈ allocated s.pmm ∨ f ∈ frames s'.mem r T
  kept : ∀ f ∈ FrameAllocator.allocated s.pmm, f ∉ frames s.mem r T → s'.mem f = s.mem f
  root : ∀ i, [i] ∉ T → s'.mem r i = s.mem r i
  same : Same s s'

variable {T : Region Idx} {flags : Flags}

theorem Grown.refl (h : Tree T r s) : Grown T r s s :=
  ⟨h, fun _ _ _ => .inl rfl, fun _ hf => .inl hf,
    fun _ => ⟨.inl, fun hf => hf.elim id (fun hf => h.allocated hf)⟩, fun _ _ _ => rfl,
    fun _ _ => rfl, .refl s⟩

/-- What was there is still there. -/
theorem Grown.table (h : Grown T r s s') (hπ : π ∈ T) (hf : table s.mem r π = some f) :
    table s'.mem r π = some f := by
  cases π with
  | nil => exact hf
  | cons i π =>
    rcases h.find i π (T.tail hπ) with heq | ⟨hnone, -⟩
    · rw [table_cons, heq, ← table_cons, hf]
    · rw [table_cons, hnone] at hf; cases hf

theorem Grown.frames (h : Grown T r s s') : frames s.mem r T ⊆ frames s'.mem r T := by
  rintro f ⟨π, hπ, hf⟩
  exact ⟨π, hπ, h.table hπ hf⟩

/-- Tables are added in two steps. -/
theorem Grown.trans (h : Grown T r s s') (h' : Grown T r s' s'') : Grown T r s s'' := by
  have hmono : ∀ f, f ∈ FrameAllocator.allocated s.pmm → f ∈ FrameAllocator.allocated s'.pmm :=
    fun f hf => (h.allocated f).mpr (.inl hf)
  refine ⟨h'.tree, ?_, ?_, ?_, ?_, fun i hi => (h'.root i hi).trans (h.root i hi),
    h.same.trans h'.same⟩
  · intro i π hπ
    rcases h'.find i π hπ with heq' | ⟨hnone', hmem⟩
    · rw [heq']
      exact h.find i π hπ
    · rcases h.find i π hπ with heq | hnone
      · exact .inr ⟨by rw [← heq]; exact hnone', hmem⟩
      · exact .inr hnone
  · intro f hf
    rcases h'.tables f hf with hf' | hf'
    · exact h.tables f hf'
    · exact .inr (fun hs => hf' (hmono f hs))
  · intro f
    rw [h'.allocated, h.allocated]
    constructor
    · rintro ((hf | hf) | hf)
      · exact .inl hf
      · exact .inr (h'.frames hf)
      · exact .inr hf
    · rintro (hf | hf)
      · exact .inl (.inl hf)
      · exact .inr hf
  · intro f hf hnot
    rw [h'.kept f (hmono f hf), h.kept f hf hnot]
    intro hf'
    rcases h.tables f hf' with h1 | h1
    · exact hnot h1
    · exact h1 hf

/-! ## The mapping functions -/

theorem alloc_spec (h : s.alloc = some (f, s')) :
    f ∉ allocated s.pmm ∧ allocated s'.pmm = insert f (allocated s.pmm) ∧ s'.mem = s.mem ∧
      Same s s' := by
  obtain ⟨⟨g, pmm⟩, hp, heq⟩ := map_eq_some_iff.mp h
  cases heq
  exact ⟨alloc_fresh hp, alloc_allocated hp, rfl, rfl, rfl, rfl⟩

/-- Hanging up a blank table in a new frame. -/
theorem grown_link {w : Word} (hs : Tree T r s) (hf : table s.mem r π = some f)
    (hi : i :: π ∈ T) (hnone : Lib.Radix.find s.mem r (i :: π) = none) (hw : child w = some g)
    (hfresh : g ∉ allocated s.pmm) (hmem : s'.mem = setPage (setEntry s.mem f i w) g (fun _ => 0))
    (halloc : allocated s'.pmm = insert g (allocated s.pmm)) (hsame : Same s s') :
    Grown T r s s' ∧ table s'.mem r (i :: π) = some g := by
  have hπ : π ∈ T := T.tail hi
  have hnot : g ∉ frames s.mem r T := fun hm => hfresh (hs.allocated hm)
  have hre : Rebound T s.mem s'.mem r (i :: π) (some w) := by
    rw [hmem]
    exact rebound_link hs.separated hπ hf hnone hw hnot (fun _ => child_zero)
  have htail : ∀ j σ, j :: σ ∈ T → σ ∈ T := fun _ _ => T.tail
  have hframes : ∀ h, h ∈ frames s'.mem r T → h ∈ frames s.mem r T ∨ h = g := by
    intro h hh
    rcases (hre.mem_frames_iff htail (by simp)).mp hh with ⟨τ, hτ, -, ht⟩ | ⟨-, hc⟩
    · exact .inl ⟨τ, hτ, ht⟩
    · exact .inr (some.inj (hc.symm.trans hw))
  have hg : g ∈ frames s'.mem r T := (hre.mem_frames_iff htail (by simp)).mpr (.inr ⟨hi, hw⟩)
  refine ⟨⟨⟨?_, ?_⟩, ?_, ?_, ?_, ?_, ?_, hsame⟩, by rw [hre.table_here (by simp)]; exact hw⟩
  · refine hre.separated htail (by simp) hs.separated (fun h hc τ hτ _ ht => hnot ?_)
    cases hw.symm.trans hc
    exact mem_frames hτ ht
  · intro h hh
    rw [halloc]
    exact (hframes h hh).elim (fun h' => .inr (hs.allocated h')) .inl
  · intro j τ hτ
    by_cases heq : j :: τ = i :: π
    · cases heq; exact .inr ⟨hnone, hi⟩
    · exact .inl (hre.other j τ hτ heq)
  · intro h hh
    rcases hframes h hh with hh | rfl
    · exact .inl hh
    · exact .inr hfresh
  · intro h
    rw [halloc]
    constructor
    · rintro (rfl | hh)
      · exact .inr hg
      · exact .inl hh
    · rintro (hh | hh)
      · exact .inr hh
      · exact (hframes h hh).elim (fun h' => .inr (hs.allocated h')) .inl
  · intro h hh hnot'
    have hne : h ≠ g := fun heq => hfresh (heq ▸ hh)
    rw [hmem, setPage_of_ne _ _ hne, setEntry_of_ne]
    exact fun (heq : h = f) => hnot' (heq ▸ mem_frames hπ hf)
  · intro j hj
    have hne : r ≠ g := fun heq => hnot (heq ▸ root_mem_frames s.mem r T)
    rw [hmem, setPage_of_ne _ _ hne]
    by_cases hjw : r = f ∧ j = i
    · -- an entry of the root itself was written: it is one of the region
      obtain ⟨rfl, rfl⟩ := hjw
      cases hs.separated π hπ [] T.nil r hf rfl
      exact absurd hi hj
    · simp [setEntry, hjw]

/-- **One level of the tables.** -/
theorem ensurePresent_spec {populate : Word → Frame → Flags → Word}
    (hpop : ∀ e g fl, child (populate e g fl) = some g) (hs : Tree T r s)
    (hf : table s.mem r π = some f) (hi : i :: π ∈ T)
    (h : s.ensurePresent populate f i flags = some (g, s')) :
    Grown T r s s' ∧ table s'.mem r (i :: π) = some g := by
  unfold ensurePresent at h
  by_cases hp : p (s.mem f i)
  · simp only [hp, Bool.not_true, Bool.false_eq_true, if_false] at h
    cases h
    exact ⟨.refl hs, by rw [table_cons_of_table hf, child_of_p hp]⟩
  · simp only [hp, Bool.not_false, if_true] at h
    obtain ⟨⟨frame, s1⟩, ha, h⟩ := of_bind h
    obtain ⟨hfresh, halloc, hmem, hsame⟩ := alloc_spec ha
    cases h
    have hnone : find s.mem r (i :: π) = none := by
      rw [find_cons_of_table hf, present_eq_none, child_eq_none]
      simpa using hp
    have hne : f ≠ frame := fun heq => hfresh (heq ▸ hs.allocated (mem_frames (T.tail hi) hf))
    have hchild := hpop (s1.mem f i) frame flags
    -- the entry just written gives the address of the new table
    have haddr : addr (((s1.writeEntry f i (populate (s1.mem f i) frame flags)).zeroPage
        frame).mem f i) = frame := by
      show addr (setPage (setEntry s1.mem f i _) frame _ f i) = frame
      rw [setPage_of_ne _ _ hne, setEntry_self]
      exact (addr_of_child hchild).1
    rw [haddr]
    exact grown_link hs hf hi hnone hchild hfresh (by rw [← hmem]; rfl) halloc
      ⟨hsame.kernelPml4, hsame.hhdmOffset, hsame.kheap⟩

/-- **The three levels of tables on a path.** -/
theorem ensureTables_spec {i4 i3 i2 : Idx} (hs : Tree T r s)
    (hmem : [i2, i3, i4] ∈ T) (h : s.ensureTables r i4 i3 i2 flags = some (g, s')) :
    Grown T r s s' ∧ table s'.mem r [i2, i3, i4] = some g := by
  obtain ⟨⟨pdpt, s1⟩, h1, h⟩ := of_bind h
  obtain ⟨⟨pd, s2⟩, h2, h⟩ := of_bind h
  obtain ⟨g1, t1⟩ := ensurePresent_spec child_populateTable hs rfl (T.tail (T.tail hmem)) h1
  obtain ⟨g2, t2⟩ := ensurePresent_spec child_populatePdpte g1.tree t1 (T.tail hmem) h2
  obtain ⟨g3, t3⟩ := ensurePresent_spec child_populatePdpte g2.tree t2 hmem h
  exact ⟨(g1.trans g2).trans g3, t3⟩

end Vmm

end Hltos
