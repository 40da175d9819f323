import Hltos.Memory.Access

/-!
# What is read back

Loads after stores and after mappings. A page that is not touched reads as before, a byte that was
stored reads as stored, and a page that was just mapped reads as its frame did when it was free. And
when the accesses return: at addresses that are canonical and mapped.
-/

namespace Hltos

open Lib.Radix Lib.BitField FrameAllocator Pte BitVec Option List

namespace Vmm

variable {σ : Type} {pos : Nat}

/-! ## Bytes of words -/

theorem toNat_wordIdx (v : Word) : (wordIdx v).toNat = v.toNat / 8 % 512 := by
  simp [wordIdx, extractLsb'_toNat, Nat.shiftRight_eq_div_pow]

theorem bitPos_eq (v : Word) : bitPos v = 8 * (v.toNat % 8) := by simp [bitPos, extractLsb'_toNat]

/-- A canonical address is given by its page, the word and the byte. -/
theorem canonical_ext {v v' : Word} (hc : isCanonical v = true) (hc' : isCanonical v' = true)
    (hpage : vpn v = vpn v') (hword : wordIdx v = wordIdx v') (hbit : bitPos v = bitPos v') :
    v = v' := by
  have hp := congrArg BitVec.toNat hpage
  have hw := congrArg BitVec.toNat hword
  rw [toNat_vpn, toNat_vpn] at hp
  rw [toNat_wordIdx, toNat_wordIdx] at hw
  rw [bitPos_eq, bitPos_eq] at hbit
  simp only [isCanonical, Bool.or_eq_true, decide_eq_true_eq] at hc hc'
  have := v.isLt
  have := v'.isLt
  apply eq_of_toNat_eq
  omega

theorem isCanonical_of_lt {v : Word} (hv : v.toNat < 2 ^ 47) : isCanonical v = true := by
  rw [isCanonical, Bool.or_eq_true]
  exact .inl (decide_eq_true hv)

theorem getByte_setByte_self (w : Word) (b : Byte) (hpos : pos + 8 ≤ 64) :
    getByte (setByte w pos b) pos = b := by
  exact extract_setBits_self w b hpos

theorem getByte_setByte_of_ne (w : Word) (b : Byte) {pos' : Nat} (hpos : pos' + 8 ≤ 64)
    (hne : pos' + 8 ≤ pos ∨ pos + 8 ≤ pos') : getByte (setByte w pos b) pos' = getByte w pos' := by
  exact extract_setBits_disjoint w b hpos hne

/-! ## One byte -/

section Byte

variable {s s' : Vmm σ} {r : Frame} {v : Word} {b : Byte}

theorem storeByte_eq_walk (h : s.storeByte r v b = some s') :
    isCanonical v = true ∧ ∃ e, walk s.mem r v = some e ∧
      s' = s.writeEntry (addr e) (wordIdx v)
        (setByte (s.mem (addr e) (wordIdx v)) (bitPos v) b) := by
  unfold storeByte at h
  split at h
  · next hc =>
    obtain ⟨⟨pt, i⟩, hfind, rfl⟩ := map_eq_some_iff.mp h
    exact ⟨hc, s.mem pt i, by rw [walk, hfind]; rfl, rfl⟩
  · cases h

theorem storeByte_returns (b : Byte) (hc : isCanonical v = true) (hv : walk s.mem r v ≠ none) :
    ∃ s', s.storeByte r v b = some s' := by
  obtain ⟨e, he⟩ := ne_none_iff_exists'.mp hv
  obtain ⟨⟨pt, i⟩, hfind, -⟩ := map_eq_some_iff.mp he
  rw [storeByte, if_pos hc, hfind]
  exact ⟨_, rfl⟩

theorem loadByte_isSome (hc : isCanonical v = true) (hv : walk s.mem r v ≠ none) :
    ∃ b, s.loadByte r v = some b := by
  obtain ⟨e, he⟩ := ne_none_iff_exists'.mp hv
  rw [loadByte_eq, if_pos hc, he]
  exact ⟨_, rfl⟩

variable [FrameAllocator σ] {K : Set Frame}

/-- Two pages of a space with the same frame are the same page. -/
theorem Owns.vpn_eq (ho : Owns anyHead r K s) {v' e e' : Word} (he : walk s.mem r v = some e)
    (he' : walk s.mem r v' = some e') (haddr : addr e = addr e') : vpn v = vpn v' := by
  rw [walk_eq_find] at he he'
  obtain ⟨f, hf, ht⟩ := child_of_find he
  obtain ⟨f', hf', ht'⟩ := child_of_find he'
  rw [(addr_of_child hf).1, (addr_of_child hf').1] at haddr
  exact path_eq_iff.mp
    (ho.tree.separated _ (path_mem trivial) _ (path_mem trivial) f ht (haddr ▸ ht'))

/-- **A byte that was stored reads as stored, and all others as before.** -/
theorem loadByte_storeByte (ho : Owns anyHead r K s) (h : s.storeByte r v b = some s') (v' : Word) :
    s'.loadByte r v' = if v' = v then some b else s.loadByte r v' := by
  have hw := storeByte_writes ho trivial h
  obtain ⟨hc, e, he, hs'⟩ := storeByte_eq_walk h
  have hmem : ∀ f i, s'.mem f i = if f = addr e ∧ i = wordIdx v then
      setByte (s.mem (addr e) (wordIdx v)) (bitPos v) b else s.mem f i := by
    intro f i
    rw [hs']
    rfl
  have hbit : ∀ u : Word, bitPos u + 8 ≤ 64 := fun u => by rw [bitPos_eq]; omega
  rw [loadByte_eq, loadByte_eq, hw.walk (v := v') trivial]
  by_cases hc' : isCanonical v' = true
  · rw [if_pos hc', if_pos hc']
    by_cases heq : v' = v
    · subst heq
      rw [he, if_pos rfl, map_some, hmem, if_pos ⟨rfl, rfl⟩, getByte_setByte_self _ _ (hbit _)]
    · rw [if_neg heq]
      cases he' : walk s.mem r v' with
      | none => rfl
      | some e' =>
        rw [map_some, map_some, hmem]
        split
        · next hsame =>
          -- another byte of the same word
          have hne : bitPos v' ≠ bitPos v := fun hb =>
            heq (canonical_ext hc' hc (ho.vpn_eq he' he hsame.1) hsame.2 hb)
          rw [bitPos_eq, bitPos_eq] at hne
          rw [getByte_setByte_of_ne _ _ (hbit v') (by rw [bitPos_eq, bitPos_eq]; omega),
            hsame.1, hsame.2]
        · rfl
  · rw [if_neg hc', if_neg hc', if_neg (fun heq : v' = v => hc' (heq ▸ hc))]

theorem Stored.loadByte_of_notMem {vs : List Word} (h : Stored r vs s s') (ho : Owns anyHead r K s)
    (hv : v ∉ vs) : s'.loadByte r v = s.loadByte r v := by
  induction h with
  | nil s => rfl
  | cons hb _ ih =>
    have hw := storeByte_writes ho trivial hb
    rw [ih hw.keeps.owns (fun hm => hv (mem_cons_of_mem _ hm)), loadByte_storeByte ho hb,
      if_neg (fun heq : v = _ => hv (heq ▸ mem_cons_self))]

omit [FrameAllocator σ] in
theorem Untouched.loadByte (h : Untouched r s s' (path v)) : s'.loadByte r v = s.loadByte r v := by
  rw [loadByte_eq, loadByte_eq, walk_eq_find, walk_eq_find, h.find]
  split
  · cases he : Lib.Radix.find s.mem r (path v) with
    | none => rfl
    | some e =>
      obtain ⟨f, hf, ht⟩ := child_of_find he
      rw [map_some, map_some, (addr_of_child hf).1, h.mem f ht]
  · rfl

end Byte

/-! ## Loops -/

section Loops

variable [FrameAllocator σ] {s s' : Vmm σ} {r : Frame} {K : Set Frame} {dest src : Word}
  {count : Nat} {v : Word} {k : Nat} {bs : List Byte} {b : Byte}

/-- An offset within the address space. -/
theorem toNat_add_ofNat (h : v.toNat + k < 2 ^ 64) : (v + .ofNat 64 k).toNat = v.toNat + k := by
  rw [toNat_add, toNat_ofNat]
  omega

theorem notMem_bytesFrom (hfit : dest.toNat + count ≤ 2 ^ 64)
    (h : v.toNat < dest.toNat ∨ dest.toNat + count ≤ v.toNat) : v ∉ bytesFrom count dest := by
  intro hm
  obtain ⟨k, hk, rfl⟩ := mem_bytesFrom.mp hm
  rw [toNat_add_ofNat (by omega)] at h
  omega

section

variable (ho : Owns anyHead r K s)

include ho

/-- Ranges that do not overlap are copied. -/
theorem memcpy_loadByte (hd : dest.toNat + count ≤ 2 ^ 64) (hs : src.toNat + count ≤ 2 ^ 64)
    (hdis : dest.toNat + count ≤ src.toNat ∨ src.toNat + count ≤ dest.toNat)
    (h : s.memcpy r count dest src = some s') (hk : k < count) :
    s'.loadByte r (dest + .ofNat 64 k) = s.loadByte r (src + .ofNat 64 k) := by
  induction count generalizing s dest src k with
  | zero => omega
  | succ n ih =>
    obtain ⟨b, hb, h⟩ := of_bind h
    obtain ⟨s1, hst, h⟩ := of_bind h
    have hw := storeByte_writes ho trivial hst
    cases k with
    | zero =>
      -- the bytes behind the first one do not touch it
      rw [show .ofNat 64 0 = 0#64 from rfl, BitVec.add_zero, BitVec.add_zero, hb,
        (memcpy_stored h).loadByte_of_notMem hw.keeps.owns, loadByte_storeByte ho hst, if_pos rfl]
      intro hm
      obtain ⟨j, hj, heq⟩ := mem_bytesFrom.mp hm
      have := congrArg BitVec.toNat heq
      rw [succ_add, toNat_add_ofNat (by omega)] at this
      omega
    | succ k =>
      have hdest : (dest + 1).toNat = dest.toNat + 1 := toNat_add_ofNat (k := 1) (by omega)
      have hsrc : (src + 1).toNat = src.toNat + 1 := toNat_add_ofNat (k := 1) (by omega)
      have hrest := ih hw.keeps.owns (by omega) (by omega) (by omega) h (show k < n by omega)
      rw [succ_add, succ_add] at hrest
      rw [hrest, loadByte_storeByte ho hst, if_neg]
      intro heq
      have := congrArg BitVec.toNat heq
      rw [toNat_add_ofNat (by omega)] at this
      omega

/-- What was stored is there afterwards. -/
theorem storeBytes_loadByte (hd : dest.toNat + bs.length ≤ 2 ^ 64)
    (h : s.storeBytes r bs dest = some s')
    (hk : bs[k]? = some b) : s'.loadByte r (dest + .ofNat 64 k) = some b := by
  induction bs generalizing s dest k with
  | nil => cases hk
  | cons c bs ih =>
    rw [length_cons] at hd
    obtain ⟨s1, hst, hrest⟩ := of_bind h
    have hw := storeByte_writes ho trivial hst
    cases k with
    | zero =>
      cases hk
      rw [show .ofNat 64 0 = 0#64 from rfl, BitVec.add_zero,
        (storeBytes_stored hrest).loadByte_of_notMem hw.keeps.owns,
          loadByte_storeByte ho hst, if_pos rfl]
      intro hm
      obtain ⟨j, hj, heq⟩ := mem_bytesFrom.mp hm
      have := congrArg BitVec.toNat heq
      rw [succ_add, toNat_add_ofNat (by omega)] at this
      omega
    | succ k =>
      have hlt := (List.getElem?_eq_some_iff.mp hk).1
      rw [List.length_cons] at hlt
      have hdest : (dest + 1).toNat = dest.toNat + 1 := toNat_add_ofNat (k := 1) (by omega)
      have hread := ih hw.keeps.owns (by omega) hrest hk
      rwa [succ_add] at hread

theorem memset_loadByte {val : Byte} (hd : dest.toNat + count ≤ 2 ^ 64)
    (h : s.memset r val count dest = some s') (hk : k < count) :
    s'.loadByte r (dest + .ofNat 64 k) = some val := by
  rw [memset_eq_storeBytes] at h
  exact storeBytes_loadByte ho (by rwa [length_replicate]) h (getElem?_replicate_of_lt hk)

end

/-- An address that can be accessed. -/
def Accessible (r : Frame) (s : Vmm σ) (v : Word) : Prop :=
  isCanonical v = true ∧ walk s.mem r v ≠ none

section

variable (ho : Owns anyHead r K s)

include ho

theorem Accessible.store {u : Word}
    (h : s.storeByte r u b = some s') (hv : Accessible r s v) : Accessible r s' v := by
  refine ⟨hv.1, ?_⟩
  rw [(storeByte_writes ho trivial h).walk trivial]
  exact hv.2

theorem memcpy_returns (hd : ∀ k < count, Accessible r s (dest + .ofNat 64 k))
    (hs : ∀ k < count, Accessible r s (src + .ofNat 64 k)) :
    ∃ s', s.memcpy r count dest src = some s' := by
  induction count generalizing s dest src with
  | zero => exact ⟨s, rfl⟩
  | succ n ih =>
    have hd0 : Accessible r s dest := by simpa using hd 0 (by omega)
    have hs0 : Accessible r s src := by simpa using hs 0 (by omega)
    obtain ⟨b, hb⟩ := loadByte_isSome hs0.1 hs0.2
    obtain ⟨s1, hst⟩ := storeByte_returns b hd0.1 hd0.2
    obtain ⟨s', h'⟩ := ih (storeByte_writes ho trivial hst).keeps.owns
      (fun k hk => by rw [succ_add]; exact (hd (k + 1) (by omega)).store ho hst)
      (fun k hk => by rw [succ_add]; exact (hs (k + 1) (by omega)).store ho hst)
    exact ⟨s', by simp only [memcpy, hb, hst, h', bind_eq_bind, bind_some]⟩

theorem storeBytes_returns (hd : ∀ k < bs.length, Accessible r s (dest + .ofNat 64 k)) :
    ∃ s', s.storeBytes r bs dest = some s' := by
  induction bs generalizing s dest with
  | nil => exact ⟨s, rfl⟩
  | cons b bs ih =>
    have hd0 : Accessible r s dest := by simpa using hd 0 (by simp)
    obtain ⟨s1, hst⟩ := storeByte_returns b hd0.1 hd0.2
    obtain ⟨s', h'⟩ := ih (storeByte_writes ho trivial hst).keeps.owns
      (fun k hk => by rw [succ_add]; exact (hd (k + 1) (by simpa using hk)).store ho hst)
    exact ⟨s', by simp only [storeBytes, hst, h', bind_eq_bind, bind_some]⟩

end

theorem memset_returns (val : Byte) (ho : Owns anyHead r K s)
    (hd : ∀ k < count, Accessible r s (dest + .ofNat 64 k)) :
    ∃ s', s.memset r val count dest = some s' := by
  rw [memset_eq_storeBytes]
  exact storeBytes_returns ho (by rwa [length_replicate])

end Loops

/-! ## New pages -/

section Fresh

variable [FrameAllocator σ] {s s' : Vmm σ} {r f g : Frame} {H : Idx → Prop} {K : Set Frame}
  {flags : Flags} {virtPage : Word}

/-- Frames that are still free afterwards have not been written. -/
def FreeKept (s s' : Vmm σ) : Prop :=
  allocated s.pmm ⊆ allocated s'.pmm ∧ ∀ x ∉ allocated s'.pmm, s'.mem x = s.mem x

theorem FreeKept.refl (s : Vmm σ) : FreeKept s s := ⟨subset_rfl, fun _ _ => rfl⟩

theorem FreeKept.trans {s'' : Vmm σ} (h : FreeKept s s') (h' : FreeKept s' s'') : FreeKept s s'' :=
  ⟨h.1.trans h'.1, fun x hx => (h'.2 x hx).trans (h.2 x (fun hx' => hx (h'.1 hx')))⟩

theorem alloc_freeKept (h : s.alloc = some (f, s')) : FreeKept s s' := by
  obtain ⟨-, halloc, hmem, -⟩ := alloc_spec h
  exact ⟨by rw [halloc]; exact Set.subset_insert _ _, fun x _ => by rw [hmem]⟩

theorem writeEntry_freeKept (hf : f ∈ allocated s.pmm) (i : Idx) (w : Word) :
    FreeKept s (s.writeEntry f i w) :=
  ⟨subset_rfl, fun x hx => setEntry_of_ne _ _ _ (fun heq => hx (by rw [heq]; exact hf))⟩

theorem writePage_freeKept (hf : f ∈ allocated s.pmm) (page : Idx → Word) :
    FreeKept s (s.writePage f page) :=
  ⟨subset_rfl, fun x hx => setPage_of_ne _ _ (fun heq => hx (by rw [heq]; exact hf))⟩

theorem copyKernelHalf_freeKept {q : Frame} (r : Frame) (hq : q ∈ allocated s.pmm) :
    FreeKept s (s.copyKernelHalf r q) := by
  unfold copyKernelHalf
  generalize allIdx.filter (fun i => s.kernelStart ≤ i) = is
  induction is generalizing s with
  | nil => exact .refl s
  | cons i is ih => exact (writeEntry_freeKept hq i _).trans (ih hq)

theorem createUserPml4_freeKept (h : s.createUserPml4 = some (r, s')) : FreeKept s s' := by
  obtain ⟨⟨q', sa⟩, ha, h⟩ := of_bind h
  obtain ⟨rfl, rfl⟩ := Prod.mk.inj (Option.some.inj h)
  have hq : q' ∈ allocated sa.pmm := by
    rw [(alloc_spec ha).2.1]
    exact .inl rfl
  exact ((alloc_freeKept ha).trans (writePage_freeKept hq _)).trans (copyKernelHalf_freeKept _ hq)

theorem ensurePresent_freeKept {populate : Word → Frame → Flags → Word} {i : Idx}
    (hf : f ∈ allocated s.pmm) (h : s.ensurePresent populate f i flags = some (g, s')) :
    FreeKept s s' := by
  unfold ensurePresent at h
  split at h
  · obtain ⟨⟨frame, sa⟩, ha, h⟩ := of_bind h
    cases h
    have hk := alloc_freeKept ha
    have hframe : frame ∈ allocated sa.pmm := by
      rw [(alloc_spec ha).2.1]
      exact .inl rfl
    have hw := writeEntry_freeKept (hk.1 hf) i (populate (sa.mem f i) frame flags)
    exact (hk.trans hw).trans (writePage_freeKept (hw.1 hframe) _)
  · cases h
    exact .refl _

theorem ensureTables_freeKept {T : Region Idx} {i4 i3 i2 : Idx} (hs : Tree T r s)
    (hmem : [i2, i3, i4] ∈ T) (h : s.ensureTables r i4 i3 i2 flags = some (g, s')) :
    FreeKept s s' := by
  obtain ⟨⟨pdpt, s1⟩, h1, h⟩ := of_bind h
  obtain ⟨⟨pd, s2⟩, h2, h⟩ := of_bind h
  obtain ⟨g1, t1⟩ := ensurePresent_spec child_populateTable hs rfl (T.tail (T.tail hmem)) h1
  obtain ⟨g2, t2⟩ := ensurePresent_spec child_populatePdpte g1.tree t1 (T.tail hmem) h2
  have hpdpt := g1.tree.allocated (mem_frames (T.tail (T.tail hmem)) t1)
  have hpd := g2.tree.allocated (mem_frames (T.tail hmem) t2)
  exact ((ensurePresent_freeKept (hs.allocated (root_mem_frames _ _ _)) h1).trans
    (ensurePresent_freeKept hpdpt h2)).trans (ensurePresent_freeKept hpd h)

theorem mapPageToFrame_freeKept (hs : Tree (below H 3) r s)
    (hH : H (pml4Idx virtPage)) (h : s.mapPageToFrame r virtPage f flags = some s') :
    FreeKept s s' := by
  unfold mapPageToFrame at h
  split at h
  · cases h
  · obtain ⟨⟨pt, s1⟩, h1, h⟩ := of_bind h
    cases h
    have hmem := path_tail_mem hH
    obtain ⟨hg, ht⟩ := ensureTables_spec hs hmem h1
    exact (ensureTables_freeKept hs hmem h1).trans
      (writeEntry_freeKept (hg.tree.allocated (mem_frames hmem ht)) _ _)

/-- A page that is placed holds what its frame held. -/
theorem Placed.page_mem {π : List Idx} {e : Word} {sa s1 : Vmm σ} (ho : Owns H r K s)
    (ha : s.alloc = some (f, sa)) (hp : Placed H r π e sa s1 s') : s'.mem f = s.mem f := by
  obtain ⟨hfresh, halloc, hmem, -⟩ := alloc_spec ha
  have hf : f ∈ allocated sa.pmm := by rw [halloc]; exact .inl rfl
  have hnot : f ∉ frames sa.mem r (below H 3) := by
    rw [hmem]
    exact fun hm => hfresh (ho.tables.allocated hm)
  have hnot1 : f ∉ frames s1.mem r (below H 3) := fun hm =>
    (hp.grown.tables f hm).elim hnot (fun h => h hf)
  rw [hp.leaf.mem f hnot1, hp.grown.kept f hf hnot, hmem]

/-- **New pages read as their frames did when they were free.** -/
theorem mapPagesFrom_fresh {n : Nat} (ho : Owns H r K s)
    (hH : ∀ k < n, H (pml4Idx (nthPage virtPage k)))
    (h : s.mapPagesFrom r flags n virtPage = some s') :
    FreeKept s s' ∧ ∀ v, Covers virtPage n v → ∃ e, walk s'.mem r v = some e ∧
      addr e ∉ allocated s.pmm ∧ s'.mem (addr e) = s.mem (addr e) := by
  induction n generalizing virtPage s with
  | zero =>
    cases h
    exact ⟨.refl _, by rintro v ⟨k, hk, -⟩; omega⟩
  | succ n ih =>
    obtain ⟨⟨frame, sa⟩, ha, h⟩ := of_bind h
    obtain ⟨sm, hm, h⟩ := of_bind h
    obtain ⟨hH0, hH'⟩ := heads_succ hH
    have hoa := (ho.alloc ha).1
    obtain ⟨e, s1, he, hp⟩ := mapPageToFrame_spec hoa.tables hH0 hm
    have hk := Placed.keeps ho hH0 ha he.child hp
    have hfree := (alloc_freeKept ha).trans (mapPageToFrame_freeKept hoa.tables hH0 hm)
    obtain ⟨hfree', hnew⟩ := ih hk.owns hH' h
    refine ⟨hfree.trans hfree', fun v hv => ?_⟩
    by_cases hlater : Covers (virtPage + pageSize) n v
    · obtain ⟨e', he', hnot, hmem⟩ := hnew v hlater
      exact ⟨e', he', fun hin => hnot (hfree.1 hin), hmem.trans (hfree.2 _ hnot)⟩
    · have hvpn := (covers_succ.mp hv).resolve_right hlater
      have hu : Untouched r sm s' (path virtPage) := by
        refine (mapPagesFrom_mapped hk.owns hH' h).untouched hk.owns (isPage_path hH0) ?_
        intro w hw heq
        obtain ⟨k, hkn, rfl⟩ := mem_pagesFrom.mp hw
        exact hlater ⟨k, hkn, hvpn.trans (path_eq_iff.mp heq)⟩
      have hwalk : find sm.mem r (path virtPage) = some e := by
        rw [← walk_eq_find]
        exact hp.walk_here (by rw [he.child]; rfl)
      obtain ⟨g, hg, ht⟩ := child_of_find hwalk
      cases he.child.symm.trans hg
      refine ⟨e, ?_, ?_, ?_⟩
      · rw [walk_congr hvpn, walk_eq_find, hu.find, hwalk]
      · rw [he.addr]
        exact (alloc_spec ha).1
      · rw [he.addr, hu.mem frame ht, Placed.page_mem ho ha hp]

end Fresh

end Vmm

end Hltos
