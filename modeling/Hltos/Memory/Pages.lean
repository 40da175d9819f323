import Hltos.Memory.Walk

/-!
# Pages and ranges of bytes

The arithmetic of `map_pages`: which pages a range of bytes touches. Addresses are words, so all of
it is modulo 2^64; the ranges that the functions are meant for do not wrap around.
-/

namespace Hltos

open BitVec Option

namespace Vmm

/-- The `k`-th page from `virtPage` on. -/
def nthPage (virtPage : Word) (k : Nat) : Word := virtPage + BitVec.ofNat 64 k * pageSize

theorem toNat_pageSize : pageSize.toNat = 4096 := rfl

theorem nthPage_zero (v : Word) : nthPage v 0 = v := by simp [nthPage]

theorem nthPage_succ (v : Word) (k : Nat) : nthPage v (k + 1) = nthPage (v + pageSize) k := by
  simp only [nthPage, ← toNat_inj, toNat_add, toNat_mul, toNat_ofNat, toNat_pageSize]
  omega

/-- A condition on the first index of each page: of the first page, and of those after it. -/
theorem heads_succ {H : Idx → Prop} {v : Word} {n : Nat}
    (hH : ∀ k < n + 1, H (pml4Idx (nthPage v k))) :
    H (pml4Idx v) ∧ ∀ k < n, H (pml4Idx (nthPage (v + pageSize) k)) := by
  rw [Nat.forall_lt_succ_left, nthPage_zero] at hH
  simpa only [nthPage_succ] using hH

/-- An address in one of the `n` pages from `virtPage` on. -/
def Covers (virtPage : Word) (n : Nat) (v : Word) : Prop :=
  ∃ k < n, vpn v = vpn (nthPage virtPage k)

variable {a v : Word} {k n : Nat}

theorem covers_succ {virtPage : Word} :
    Covers virtPage (n + 1) v ↔ vpn v = vpn virtPage ∨ Covers (virtPage + pageSize) n v := by
  constructor
  · rintro ⟨k, hk, h⟩
    cases k with
    | zero => exact Or.inl (by rw [h, nthPage_zero])
    | succ k => exact Or.inr ⟨k, by omega, by rw [h, nthPage_succ]⟩
  · rintro (h | ⟨k, hk, h⟩)
    · exact ⟨0, by omega, by rw [h, nthPage_zero]⟩
    · exact ⟨k + 1, by omega, by rw [h, nthPage_succ]⟩

/-! ## Numbers -/

theorem succ_add (v : Word) (k : Nat) :
    v + 1 + BitVec.ofNat 64 k = v + BitVec.ofNat 64 (k + 1) := by
  rw [BitVec.add_assoc, BitVec.ofNat_add, BitVec.add_comm (BitVec.ofNat 64 k)]
  rfl

theorem getLsbD_0xFFF (hk : k < 64) : (0xFFF : Word).getLsbD k = decide (k < 12) := by
  have hbit := Nat.testBit_two_pow_sub_one 12 k
  show (BitVec.ofNat 64 0xFFF).getLsbD k = _
  rw [getLsbD_ofNat, hbit]
  simp [hk]

section

variable (x : Word)

theorem and_not_low : x &&& ~~~(0xFFF : Word) = x >>> 12 <<< 12 := by
  apply eq_of_getLsbD_eq
  intro i hi
  rw [getLsbD_and, getLsbD_not, getLsbD_0xFFF hi, getLsbD_shiftLeft, getLsbD_ushiftRight]
  by_cases h12 : i < 12
  · simp [h12]
  · simp [hi, h12, show 12 + (i - 12) = i by omega]

theorem toNat_pageAlign : (pageAlign x).toNat = x.toNat / 4096 * 4096 := by
  have hx := x.isLt
  rw [pageAlign, and_not_low, toNat_shiftLeft, toNat_ushiftRight, Nat.shiftRight_eq_div_pow,
    Nat.shiftLeft_eq]
  omega

theorem toNat_pageStart : (pageStart x).toNat = x.toNat / 4096 * 4096 := toNat_pageAlign x

theorem isPageAligned_iff : isPageAligned x = true ↔ x.toNat % 4096 = 0 := by
  have hand : (x &&& 0xFFF).toNat = x.toNat % 4096 := by
    exact Nat.and_two_pow_sub_one_eq_mod x.toNat 12
  simp only [isPageAligned, beq_iff_eq, ← toNat_inj, hand]
  rfl

theorem toNat_vpn : (vpn x).toNat = x.toNat / 4096 % 2 ^ 36 := by
  rw [vpn, extractLsb'_toNat, Nat.shiftRight_eq_div_pow]

theorem toNat_pml4Idx : (pml4Idx x).toNat = x.toNat / 2 ^ 39 % 512 := by
  rw [pml4Idx, extractLsb'_toNat, Nat.shiftRight_eq_div_pow]

end

theorem pml4Idx_of_vpn {v' : Word} (h : vpn v = vpn v') : pml4Idx v = pml4Idx v' := by
  have := path_eq_iff.mpr h
  simp only [path, List.cons.injEq] at this
  exact this.2.2.2.1

theorem toNat_nthPage (v : Word) (k : Nat) :
    (nthPage v k).toNat = (v.toNat + k * 4096) % 2 ^ 64 := by
  simp only [nthPage, toNat_add, toNat_mul, toNat_ofNat, toNat_pageSize]
  omega

theorem isPageAligned_add (h : isPageAligned v = true) : isPageAligned (v + pageSize) = true := by
  rw [isPageAligned_iff] at h ⊢
  rw [toNat_add, toNat_pageSize]
  omega

theorem isPageAligned_pageStart (v : Word) : isPageAligned (pageStart v) = true := by
  rw [isPageAligned_iff, toNat_pageStart]
  omega

theorem pageAlign_of_aligned (h : isPageAligned v = true) : pageAlign v = v := by
  rw [isPageAligned_iff] at h
  rw [← toNat_inj, toNat_pageAlign]
  omega

/-- The address behind a block's header is in the block's first page. -/
theorem pageAlign_add_eight (h : isPageAligned v = true) : pageAlign (v + 8) = v := by
  rw [isPageAligned_iff] at h
  have hv := v.isLt
  rw [← toNat_inj, toNat_pageAlign, toNat_add, show (8 : Word).toNat = 8 from rfl]
  omega

/-! ## The pages of a range -/

section Range

variable {virt bytes : Word} (hfit : virt.toNat + bytes.toNat + 4095 < 2 ^ 64)

include hfit

theorem toNat_pageEnd :
    (pageEnd virt bytes).toNat = (virt.toNat + bytes.toNat + 4095) / 4096 * 4096 := by
  have hsum : (virt + bytes + pageSize - 1).toNat = virt.toNat + bytes.toNat + 4095 := by
    have hone : (1 : Word).toNat = 1 := rfl
    rw [toNat_sub, toNat_add, toNat_add, toNat_pageSize, hone]
    omega
  rw [pageEnd, ← hsum]
  exact toNat_pageAlign _

theorem toNat_numPages :
    (numPages virt bytes).toNat = (virt.toNat + bytes.toNat + 4095) / 4096 - virt.toNat / 4096 := by
  rw [numPages, toNat_udiv, toNat_sub, toNat_pageEnd hfit, toNat_pageStart, toNat_pageSize]
  omega

/-- The pages that `map_pages` maps are those that intersect the range. -/
theorem covers_iff (hpos : 0 < bytes.toNat) (v : Word) :
    Covers (pageStart virt) (numPages virt bytes).toNat v ↔
    ∃ a : Nat, virt.toNat ≤ a ∧ a < virt.toNat + bytes.toNat ∧ vpn v = vpn (BitVec.ofNat 64 a) := by
  have hnum := toNat_numPages hfit
  simp only [← toNat_inj, toNat_vpn, toNat_ofNat]
  constructor
  · rintro ⟨k, hk, h⟩
    rw [← toNat_inj, toNat_vpn, toNat_vpn, toNat_nthPage, toNat_pageStart] at h
    -- the first byte of the page, unless the range starts behind it
    refine ⟨max virt.toNat ((virt.toNat / 4096 + k) * 4096), by omega, by omega, ?_⟩
    omega
  · rintro ⟨a, ha, hb, h⟩
    refine ⟨a / 4096 - virt.toNat / 4096, by omega, ?_⟩
    rw [← toNat_inj, toNat_vpn, toNat_vpn, toNat_nthPage, toNat_pageStart, h]
    omega

end Range

/-! ## Heap cursors -/

/-- The path of the page at a cursor, if its indices are indices. -/
def cursor (heap : Heap) : Option (List Idx) := do
  return [← toIdx heap.ptIdx, ← toIdx heap.pdIdx, ← toIdx heap.pdptIdx, ← toIdx heap.pml4Idx]

/-- The number of the page at a cursor. -/
def pageNumber (heap : Heap) : Nat :=
  ((heap.pml4Idx.toNat * 512 + heap.pdptIdx.toNat) * 512 + heap.pdIdx.toNat) * 512 +
    heap.ptIdx.toNat

theorem toIdx_eq_some {i : Idx} (h : toIdx a = some i) : a.toNat < 512 ∧ i.toNat = a.toNat := by
  unfold toIdx at h
  split at h
  · next hlt =>
    cases h
    have ha : a.toNat < 512 := hlt
    refine ⟨ha, ?_⟩
    rw [toNat_setWidth, Nat.mod_eq_of_lt ha]
  · cases h

theorem and_0x1FF (h : a.toNat < 512) : a &&& 0x1FF = a := by
  rw [← toNat_inj, toNat_and]
  exact (Nat.and_two_pow_sub_one_eq_mod a.toNat 9).trans (Nat.mod_eq_of_lt h)

theorem getLsbD_index (h : a.toNat < 512) (hk : 9 ≤ k) : a.getLsbD k = false :=
  Nat.testBit_lt_two_pow (h.trans_le (Nat.pow_le_pow_right (by decide) hk : 2 ^ 9 ≤ 2 ^ k))

/-- The indices are within the tables. -/
structure InTables (heap : Heap) : Prop where
  pml4 : heap.pml4Idx.toNat < 512
  pdpt : heap.pdptIdx.toNat < 512
  pd : heap.pdIdx.toNat < 512
  pt : heap.ptIdx.toNat < 512

variable {heap : Heap}

theorem getLsbD_nextHeapVirtPage (h : InTables heap) (hk : k < 48) :
    (nextHeapVirtPage heap).getLsbD k = (!decide (k < 39) && heap.pml4Idx.getLsbD (k - 39) ||
        !decide (k < 30) && heap.pdptIdx.getLsbD (k - 30) ||
        !decide (k < 21) && heap.pdIdx.getLsbD (k - 21) ||
        !decide (k < 12) && heap.ptIdx.getLsbD (k - 12)) := by
  have hsign : ((0xFFFF : Word) <<< 48).getLsbD k = false := by
    rw [getLsbD_shiftLeft]
    simp [hk]
  have hk64 : k < 64 := by omega
  unfold nextHeapVirtPage
  simp only [and_0x1FF h.pml4, and_0x1FF h.pdpt, and_0x1FF h.pd, and_0x1FF h.pt]
  split
  · rw [getLsbD_or, hsign]
    simp only [getLsbD_or, getLsbD_shiftLeft, hk64, decide_true, Bool.true_and, Bool.or_false]
  · simp only [getLsbD_or, getLsbD_shiftLeft, hk64, decide_true, Bool.true_and]

/-- The address of the page at a cursor has the cursor's indices. -/
theorem path_nextHeapVirtPage (h : InTables heap) : path (nextHeapVirtPage heap) =
    [heap.ptIdx.setWidth 9, heap.pdIdx.setWidth 9, heap.pdptIdx.setWidth 9,
      heap.pml4Idx.setWidth 9] := by
  have hbits : ∀ lo (a : Word), lo + 9 ≤ 48 →
      (∀ k < 9, (nextHeapVirtPage heap).getLsbD (lo + k) = a.getLsbD k) →
      (nextHeapVirtPage heap).extractLsb' lo 9 = a.setWidth 9 := by
    intro lo a _ ha
    apply eq_of_getLsbD_eq
    intro k hk
    rw [getLsbD_extractLsb', getLsbD_setWidth, ha k hk]
  have hbit := fun {k} (hk : k < 48) => getLsbD_nextHeapVirtPage h hk
  have hlow := fun {a : Word} (h : a.toNat < 512) {k} (hk : 9 ≤ k) => getLsbD_index h hk
  simp only [path, ptIdx, pdIdx, pdptIdx, pml4Idx, List.cons.injEq, and_true]
  refine ⟨hbits 12 _ (by decide) ?_, hbits 21 _ (by decide) ?_, hbits 30 _ (by decide) ?_,
    hbits 39 _ (by decide) ?_⟩ <;> intro k hk
  · rw [hbit (by omega)]
    simp [show 12 + k < 39 by omega, show 12 + k < 30 by omega, show 12 + k < 21 by omega]
  · rw [hbit (by omega), hlow h.pt (show 9 ≤ 21 + k - 12 by omega)]
    simp [show 21 + k < 39 by omega, show 21 + k < 30 by omega]
  · rw [hbit (by omega), hlow h.pt (show 9 ≤ 30 + k - 12 by omega),
      hlow h.pd (show 9 ≤ 30 + k - 21 by omega)]
    simp [show 30 + k < 39 by omega]
  · rw [hbit (by omega), hlow h.pt (show 9 ≤ 39 + k - 12 by omega),
      hlow h.pd (show 9 ≤ 39 + k - 21 by omega), hlow h.pdpt (show 9 ≤ 39 + k - 30 by omega)]
    simp

theorem cursor_eq_some {π : List Idx} (h : cursor heap = some π) :
    InTables heap ∧ π = path (nextHeapVirtPage heap) := by
  obtain ⟨i1, h1, h⟩ := of_bind h
  obtain ⟨i2, h2, h⟩ := of_bind h
  obtain ⟨i3, h3, h⟩ := of_bind h
  obtain ⟨i4, h4, h⟩ := of_bind h
  cases h
  have hv : InTables heap :=
    ⟨(toIdx_eq_some h4).1, (toIdx_eq_some h3).1, (toIdx_eq_some h2).1, (toIdx_eq_some h1).1⟩
  have hidx : ∀ {a : Word} {i : Idx}, toIdx a = some i → a.setWidth 9 = i := by
    intro a i ha
    rw [← toNat_inj, toNat_setWidth, (toIdx_eq_some ha).2]
    exact Nat.mod_eq_of_lt (toIdx_eq_some ha).1
  refine ⟨hv, ?_⟩
  rw [path_nextHeapVirtPage hv, hidx h1, hidx h2, hidx h3, hidx h4]

theorem toNat_vpn_indices (v : Word) : (vpn v).toNat =
    (((pml4Idx v).toNat * 512 + (pdptIdx v).toNat) * 512 + (pdIdx v).toNat) * 512 +
      (ptIdx v).toNat := by
  simp only [vpn, pml4Idx, pdptIdx, pdIdx, ptIdx, extractLsb'_toNat, Nat.shiftRight_eq_div_pow]
  omega

theorem toNat_vpn_nextHeapVirtPage (h : InTables heap) :
    (vpn (nextHeapVirtPage heap)).toNat = pageNumber heap := by
  have hpath := path_nextHeapVirtPage h
  simp only [path, List.cons.injEq, and_true] at hpath
  obtain ⟨h1, h2, h3, h4⟩ := hpath
  have hidx : ∀ {a : Word}, a.toNat < 512 → (a.setWidth 9).toNat = a.toNat := by
    intro a ha
    exact Nat.mod_eq_of_lt ha
  rw [toNat_vpn_indices, h1, h2, h3, h4, hidx h.pml4, hidx h.pdpt, hidx h.pd, hidx h.pt, pageNumber]

theorem pageNumber_lt (h : InTables heap) : pageNumber heap < 2 ^ 36 := by
  rw [← toNat_vpn_nextHeapVirtPage h]
  exact (vpn _).isLt

/-- The cursor goes through the pages one by one. -/
theorem pageNumber_advanceHeap (h : InTables heap) :
    pageNumber (advanceHeap heap) = pageNumber heap + 1 := by
  obtain ⟨h4, h3, h2, h1⟩ := h
  have hone : ∀ {a : Word}, a.toNat < 512 → (a + 1).toNat = a.toNat + 1 := by
    intro a ha
    rw [toNat_add, show (1 : Word).toNat = 1 from rfl]
    omega
  have hlt : ∀ {a : Word}, a.toNat < 512 → (a + 1 < 512 ↔ a.toNat + 1 < 512) := by
    intro a ha
    rw [lt_def, hone ha]
    rfl
  have hzero : (0 : Word).toNat = 0 := rfl
  unfold advanceHeap
  simp only [hlt h1, hlt h2, hlt h3]
  split
  · simp only [pageNumber, hone h1]; omega
  · split
    · simp only [pageNumber, hone h2, hzero]; omega
    · split
      · simp only [pageNumber, hone h3, hzero]; omega
      · simp only [pageNumber, hone h4, hzero]; omega

theorem pageNumber_iterate (h : ∀ k < n, InTables (advanceHeap^[k] heap)) :
    pageNumber (advanceHeap^[n] heap) = pageNumber heap + n := by
  induction n with
  | zero => simp
  | succ n ih =>
    rw [Function.iterate_succ_apply', pageNumber_advanceHeap (h n (by omega)),
      ih (fun k hk => h k (by omega))]
    omega

theorem toNat_vpn_nthPage (v : Word) (k : Nat) :
    (vpn (nthPage v k)).toNat = ((vpn v).toNat + k) % 2 ^ 36 := by
  rw [toNat_vpn, toNat_vpn, toNat_nthPage]
  omega

/-- The pages that a cursor visits follow each other. -/
theorem vpn_iterate (h : ∀ k ≤ n, InTables (advanceHeap^[k] heap)) :
    vpn (nextHeapVirtPage (advanceHeap^[n] heap)) = vpn (nthPage (nextHeapVirtPage heap) n) := by
  have hnum := pageNumber_iterate (n := n) (fun k hk => h k (by omega))
  have hlt := pageNumber_lt (h n (by omega))
  have h0 : InTables heap := h 0 (by omega)
  rw [hnum] at hlt
  rw [← toNat_inj, toNat_vpn_nthPage, toNat_vpn_nextHeapVirtPage (h n (by omega)), hnum,
    toNat_vpn_nextHeapVirtPage h0, Nat.mod_eq_of_lt hlt]

end Vmm

end Hltos
