import Hltos.Process.Image

/-!
# Segments that share a page

When the image of a program is not what its file describes. The later one of two segments in a page
gets a new frame for it, and what the earlier one had there is gone: what is read is whatever the
frame held when it was free. And the arguments may need more than the stack, which then goes on in
the page below it, if a segment lies there.
-/

namespace Hltos

open Lib.Radix FrameAllocator Pte BitVec List Option

namespace Vmm

variable {σ : Type} [FrameAllocator σ] {s cur cur' : Vmm σ} {q : Frame} {fileBuffer : Word}
  {bytes : List Byte} {header : Elf64ProgramHeader} {headers : List Elf64ProgramHeader} {b : Byte}
  {K : Set Frame} {vaddr : Word} {vs : List Word}

/-! ## What free frames hold -/

/-- All bytes of the frames that are free are `b`. -/
def Junk (b : Byte) (s : Vmm σ) : Prop :=
  ∀ f ∉ allocated s.pmm, ∀ i, ∀ k < 8, getByte (s.mem f i) (8 * k) = b

theorem Junk.kept (h : Junk b cur) (hk : FreeKept cur cur') : Junk b cur' := by
  intro f hf i k hlt
  rw [hk.2 f hf]
  exact h f (fun hm => hf (hk.1 hm)) i k hlt

theorem Stored.freeKept (h : Stored q vs cur cur') (ho : Owns anyHead q K cur) :
    FreeKept cur cur' := by
  induction h with
  | nil s => exact .refl s
  | cons hb _ ih =>
    obtain ⟨-, e, w, he, rfl⟩ := storeByte_eq_some hb
    obtain ⟨f, hf, ht⟩ := child_of_find he
    have hmem : addr e ∈ allocated _ :=
      (addr_of_child hf).1 ▸ ho.tree.allocated ⟨_, path_mem trivial, ht⟩
    exact (writeEntry_freeKept hmem _ _).trans (ih (storeByte_writes ho trivial hb).keeps.owns)

theorem heapAt_freeKept {heap uheap : Heap} (ho : Owns anyHead q K cur)
    (h : cur.heapAt heap q = some (uheap, cur')) : FreeKept cur cur' := by
  obtain ⟨i4, h4, h⟩ := of_bind h
  obtain ⟨i3, h3, h⟩ := of_bind h
  obtain ⟨i2, h2, h⟩ := of_bind h
  obtain ⟨⟨pt, s1⟩, hens, h⟩ := of_bind h
  cases h
  exact ensureTables_freeKept ho.tables (by simp [mem_below, anyHead]) hens

section Segment

variable {hb hb' : Word} (hp : Prepared q s cur) (hj : Junk b cur) {v : Word}

include hp hj

theorem mapElf64Header_junk (hok : SegmentOk bytes.length header)
    (h : cur.mapElf64Header q fileBuffer header hb = some (hb', cur')) :
    Junk b cur' ∧ ∀ v : Word, v.toNat < 2 ^ 47 → header.HasPage (v.toNat / 4096) →
      ¬ header.Has v.toNat → cur'.loadByte q v = some b := by
  obtain ⟨-, s1, s2, hmap, hcopy, hset⟩ := mapElf64Header_eq_some h
  have hs := written_stored hcopy hset
  have hp1 := hp.mapUserPages hok.user hmap
  obtain ⟨hfree, hnew⟩ := mapPagesFrom_fresh hp.any (fun _ _ => trivial) (mapUserPages_from hmap)
  refine ⟨hj.kept (hfree.trans (hs.freeKept hp1.any)), fun v hv hpage hnot => ?_⟩
  obtain ⟨e, he, hfresh, hmem⟩ := hnew v ((hok.covers_iff (mapPages_pos hmap) hv).mpr hpage)
  rw [hs.loadByte_of_notMem hp1.any (fun hm => hnot (hok.mem_written hm)), loadByte_eq,
    if_pos (isCanonical_of_lt hv), he, map_some, hmem, bitPos_eq,
      hj _ hfresh _ _ (Nat.mod_lt _ (by decide))]

/-- **A byte next to the last segment of its page** is lost. -/
theorem mapElf64Headers_junk (hok : ∀ header ∈ headers, SegmentOk bytes.length header)
    (h : cur.mapElf64Headers q fileBuffer headers hb = some (hb', cur'))
    (hv : v.toNat < 2 ^ 47) (hnot : ∀ header ∈ headers, ¬ header.Has v.toNat)
    (hpage : ∃ header ∈ headers, header.HasPage (v.toNat / 4096)) : cur'.loadByte q v = some b := by
  induction headers generalizing cur hb with
  | nil =>
    obtain ⟨x, hx, -⟩ := hpage
    cases hx
  | cons header headers ih =>
    obtain ⟨s1, h1, h⟩ := mapElf64Headers_cons.mp h
    have hok1 := hok _ mem_cons_self
    have hok' : ∀ x ∈ headers, SegmentOk bytes.length x := fun x hx => hok x (mem_cons_of_mem _ hx)
    have hp1 := mapElf64Header_prepared hp hok1 h1
    obtain ⟨hj1, hread⟩ := mapElf64Header_junk hp hj hok1 h1
    by_cases hlater : ∃ x ∈ headers, x.HasPage (v.toNat / 4096)
    · exact ih hp1 hj1 hok' h (fun x hx => hnot x (mem_cons_of_mem _ hx)) hlater
    · -- the first one is the last in this page
      push Not at hlater
      obtain ⟨x, hx, hhas⟩ := hpage
      rcases mem_cons.mp hx with rfl | hx
      · rw [(mapElf64Headers_samePages hp1 hok' h v hv hlater).2]
        exact hread v hv hhas (hnot _ mem_cons_self)
      · exact absurd hhas (hlater x hx)

/-- The same for a byte of an earlier segment. -/
theorem mapElf64Headers_append_junk {before : List Elf64ProgramHeader}
    (hok : ∀ header ∈ before ++ headers, SegmentOk bytes.length header)
    (h : cur.mapElf64Headers q fileBuffer (before ++ headers) hb = some (hb', cur'))
    (hv : v.toNat < 2 ^ 47) (hnot : ∀ header ∈ headers, ¬ header.Has v.toNat)
    (hpage : ∃ header ∈ headers, header.HasPage (v.toNat / 4096)) : cur'.loadByte q v = some b := by
  induction before generalizing cur hb with
  | nil => exact mapElf64Headers_junk hp hj hok h hv hnot hpage
  | cons x before ih =>
    obtain ⟨s1, h1, h⟩ := mapElf64Headers_cons.mp h
    have hok1 := hok _ mem_cons_self
    exact ih (mapElf64Header_prepared hp hok1 h1) (mapElf64Header_junk hp hj hok1 h1).1
      (fun y hy => hok y (mem_cons_of_mem _ hy)) h

end Segment

/-! ## The segments can be loaded -/

/-- The frames that are enough for a list of segments. -/
def framesFor (headers : List Elf64ProgramHeader) : Nat :=
  (headers.map (fun header => 4 * (numPages header.pVaddr header.pMemsz).toNat)).sum

theorem Prepared.accessible (hp : Prepared q s cur) (hf : FileIn fileBuffer bytes s.kernelPml4 s)
    {i : Nat} (hi : i < bytes.length) : Accessible q cur (fileBuffer + .ofNat 64 i) := by
  have hread := hp.read hf hi
  rw [List.getElem?_eq_getElem hi, loadByte_eq] at hread
  split at hread
  · next hc => exact ⟨hc, fun hnone => by rw [hnone] at hread; cases hread⟩
  · cases hread

section Returns

variable (hb : Word) {n : Nat} (hp : Prepared q s cur)
  (hf : FileIn fileBuffer bytes s.kernelPml4 s)

include hp hf

/-- Four frames for each page of a segment are enough to load it. -/
theorem mapElf64Header_returns (hok : SegmentOk bytes.length header) (hpos : header.pMemsz ≠ 0)
    (h : CanAlloc (n + 4 * (numPages header.pVaddr header.pMemsz).toNat) cur.pmm) :
    ∃ cur', cur.mapElf64Header q fileBuffer header hb = some (breakAfter header hb, cur') ∧
      CanAlloc n cur'.pmm := by
  have := hok.user
  have := hok.filesz
  have := hok.file
  obtain ⟨s1, hmap, hn⟩ := mapPages_returns q (pageUser ||| pageWrite) hpos (by omega) h
  have hp1 := hp.mapUserPages hok.user hmap
  have hnew := (mapPagesFrom_spec hp.any.tables (fun _ _ => trivial) (mapUserPages_from hmap)).new
  have hmapped : ∀ i < header.pMemsz.toNat, Accessible q s1 (header.pVaddr + .ofNat 64 i) := by
    intro i hi
    have hlt := hok.lt_of_has (hok.has hi)
    obtain ⟨e, f, he, -⟩ :=
      hnew _ ((hok.covers_iff (mapPages_pos hmap) hlt).mpr ⟨_, hok.has hi, rfl⟩)
    exact ⟨isCanonical_of_lt hlt, by rw [he]; exact some_ne_none e⟩
  have hsource : ∀ k < header.pFilesz.toNat,
      Accessible q s1 (fileBuffer + header.pOffset + .ofNat 64 k) := by
    intro k hk
    have hacc := hp1.accessible hf (i := header.pOffset.toNat + k) (by omega)
    rwa [BitVec.ofNat_add, BitVec.ofNat_toNat, BitVec.setWidth_eq, ← BitVec.add_assoc] at hacc
  obtain ⟨s2, hcopy⟩ :=
    memcpy_returns hp1.any (fun k hk => hmapped k (hk.trans_le hok.filesz)) hsource
  have hw2 := (memcpy_stored hcopy).writes hp1.any (fun _ _ => trivial)
  have hrest : ∃ s3, s2.zeroRest q header = some s3 := by
    unfold zeroRest
    split
    · next hlt =>
      refine memset_returns 0 hw2.keeps.owns (fun k hk => ?_)
      rw [BitVec.toNat_sub_of_le (BitVec.le_of_lt hlt)] at hk
      have hacc := hmapped (header.pFilesz.toNat + k) (by omega)
      rw [BitVec.ofNat_add, BitVec.ofNat_toNat, BitVec.setWidth_eq, ← BitVec.add_assoc] at hacc
      exact ⟨hacc.1, by rw [hw2.walk trivial]; exact hacc.2⟩
    · exact ⟨s2, rfl⟩
  obtain ⟨s3, hset⟩ := hrest
  refine ⟨s3, ?_, ?_⟩
  · simp only [mapElf64Header, mapUserPages, hmap, hcopy, hset, bind_eq_bind, bind_some]
    rfl
  · rw [((written_stored hcopy hset).writes hp1.any (fun _ _ => trivial)).pmm]
    exact hn

theorem mapElf64Headers_returns (hok : ∀ header ∈ headers, SegmentOk bytes.length header)
    (hpos : ∀ header ∈ headers, header.pMemsz ≠ 0) (h : CanAlloc (n + framesFor headers) cur.pmm) :
    ∃ hb' cur', cur.mapElf64Headers q fileBuffer headers hb = some (hb', cur') ∧
      CanAlloc n cur'.pmm := by
  induction headers generalizing cur hb with
  | nil => exact ⟨hb, cur, rfl, h⟩
  | cons header headers ih =>
    have hok1 := hok _ mem_cons_self
    rw [show framesFor (header :: headers) = 4 * (numPages header.pVaddr header.pMemsz).toNat +
      framesFor headers from sum_cons, Nat.add_comm (4 * _), ← Nat.add_assoc] at h
    obtain ⟨s1, h1, hn⟩ := mapElf64Header_returns hb hp hf hok1 (hpos _ mem_cons_self) h
    obtain ⟨hb', cur', h', hn⟩ := ih (breakAfter header hb)
      (mapElf64Header_prepared hp hok1 h1) (fun x hx => hok x (mem_cons_of_mem _ hx))
      (fun x hx => hpos x (mem_cons_of_mem _ hx)) hn
    exact ⟨hb', cur', mapElf64Headers_cons.mpr ⟨s1, h1, h'⟩, hn⟩

end Returns

/-! ## The stack can be built -/

/-- The addresses from `lo` up to the stack pointer can be written. -/
structure Room (q : Frame) (lo : Nat) (stack : Word) (s : Vmm σ) : Prop where
  owns : Owns anyHead q ∅ s
  low : stack.toNat ≤ 2 ^ 47
  mapped : ∀ v : Word, lo ≤ v.toNat → v.toNat < stack.toNat → walk s.mem q v ≠ none

namespace Room

variable {lo : Nat} {stack : Word} {n : Nat}

section

variable (h : Room q lo stack cur)

include h

theorem accessible {k : Nat} (hn : lo + n ≤ stack.toNat) (hk : k < n) :
    Accessible q cur (stack - .ofNat 64 n + .ofNat 64 k) := by
  have := h.low
  have hv : (stack - .ofNat 64 n + .ofNat 64 k).toNat = stack.toNat - n + k := by
    rw [toNat_add, toNat_sub, toNat_ofNat, toNat_ofNat]
    omega
  exact ⟨isCanonical_of_lt (by omega), h.mapped _ (by omega) (by omega)⟩

theorem toNat_sub (hn : lo + n ≤ stack.toNat) : (stack - .ofNat 64 n).toNat = stack.toNat - n := by
  have := h.low
  rw [BitVec.toNat_sub, BitVec.toNat_ofNat]
  omega

theorem stored (hs : Stored q vs cur cur')
    (hn : lo + n ≤ stack.toNat) : Room q lo (stack - .ofNat 64 n) cur' := by
  have hw := hs.writes h.owns (fun _ _ => trivial)
  have hsub := h.toNat_sub hn
  have hlow := h.low
  refine ⟨hw.keeps.owns, by omega, fun v hlo hhi => ?_⟩
  rw [hw.walk trivial]
  exact h.mapped v hlo (by omega)

theorem push (value : Word) (hn : lo + 8 ≤ stack.toNat) :
    ∃ cur', cur.push q value stack = some (stack - .ofNat 64 8, cur') ∧
      Room q lo (stack - .ofNat 64 8) cur' ∧
      cur'.loadByte q (stack - .ofNat 64 8) = some (getByte value 0) := by
  obtain ⟨s1, hs⟩ : ∃ s1, cur.storeBytes q (wordBytes value) (stack - .ofNat 64 8) = some s1 :=
    storeBytes_returns h.owns (fun k hk => h.accessible hn hk)
  refine ⟨s1, bind_eq_some_iff.mpr ⟨s1, hs, rfl⟩, h.stored (storeBytes_stored hs) hn, ?_⟩
  -- the first byte is not touched by the other seven
  have hlow := h.low
  have hsub := h.toNat_sub hn
  obtain ⟨s2, hfirst, hrest⟩ := of_bind hs
  have ho2 := (storeByte_writes h.owns trivial hfirst).keeps.owns
  have hnext : (stack - .ofNat 64 8 + 1).toNat = stack.toNat - 8 + 1 := by
    rw [toNat_add, hsub, show (1 : Word).toNat = 1 from rfl]
    omega
  rw [(storeBytes_stored hrest).loadByte_of_notMem ho2 (notMem_bytesFrom ?_ (.inl ?_)),
    loadByte_storeByte h.owns hfirst, if_pos rfl]
  · show _ + 7 ≤ _
    omega
  · omega

end

theorem pushAll (values : List Word) (h : Room q lo stack cur)
    (hn : lo + 8 * values.length ≤ stack.toNat) :
    ∃ stack' cur', cur.pushAll q values stack = some (stack', cur') ∧ Room q lo stack' cur' ∧
      stack'.toNat = stack.toNat - 8 * values.length := by
  induction values generalizing stack cur with
  | nil => exact ⟨stack, cur, rfl, h, rfl⟩
  | cons value values ih =>
    rw [length_cons] at hn
    obtain ⟨s1, h1, hroom, -⟩ := h.push value (by omega)
    have hsub := h.toNat_sub (n := 8) (by omega)
    obtain ⟨stack', s', h', hroom', heq⟩ := ih hroom (by omega)
    refine ⟨stack', s', bind_eq_some_iff.mpr ⟨_, h1, h'⟩, hroom', ?_⟩
    rw [heq, hsub, length_cons]
    omega

theorem pushString (h : Room q lo stack cur) (str : List Byte)
    (hn : lo + (str.length + 1) ≤ stack.toNat) :
    ∃ cur', cur.pushString q str stack = some (stack - .ofNat 64 (str.length + 1), cur') ∧
      Room q lo (stack - .ofNat 64 (str.length + 1)) cur' := by
  obtain ⟨s1, hs⟩ : ∃ s1, cur.storeBytes q str (stack - .ofNat 64 (str.length + 1)) = some s1 :=
    storeBytes_returns h.owns (fun k hk => h.accessible hn (by omega))
  have hw := (storeBytes_stored hs).writes h.owns (fun _ _ => trivial)
  have hlast := h.accessible hn (k := str.length) (by omega)
  obtain ⟨s2, hz⟩ := storeByte_returns (s := s1) 0 hlast.1 (by rw [hw.walk trivial]; exact hlast.2)
  refine ⟨s2, ?_, h.stored ((storeBytes_stored hs).append (.cons hz (.nil s2))) hn⟩
  exact bind_eq_some_iff.mpr ⟨s1, hs, bind_eq_some_iff.mpr ⟨s2, hz, rfl⟩⟩

theorem pushStrings (strs : List (List Byte)) (ptrs : List Word) (h : Room q lo stack cur)
    (hn : lo + stringBytes strs ≤ stack.toNat) :
    ∃ ptrs' stack' cur', cur.pushStrings q strs ptrs stack = some (ptrs', stack', cur') ∧
      Room q lo stack' cur' ∧ stack'.toNat = stack.toNat - stringBytes strs ∧
      ptrs'.length = ptrs.length + strs.length := by
  induction strs generalizing stack cur ptrs with
  | nil => exact ⟨ptrs, stack, cur, rfl, h, rfl, rfl⟩
  | cons str strs ih =>
    have hcons := stringBytes_cons str strs
    obtain ⟨s1, h1, hroom⟩ := h.pushString str (by omega)
    have hsub := h.toNat_sub (n := str.length + 1) (by omega)
    obtain ⟨ptrs', stack', s', h', hroom', heq, hlen⟩ :=
      ih (ptrs ++ [stack - .ofNat 64 (str.length + 1)]) hroom (by omega)
    refine ⟨ptrs', stack', s', bind_eq_some_iff.mpr ⟨_, h1, h'⟩, hroom', by omega, ?_⟩
    rw [hlen, length_append, length_singleton, length_cons]
    omega

end Room

/-- The stack can be built if its pages, and those below from `lo` on, have room for it. -/
theorem buildUserStack_returns (argvStrs envpStrs : List (List Byte)) {lo : Nat}
    (ho : Owns anyHead q ∅ cur) (hcan : CanAlloc 32 cur.pmm)
    (hlo : ∀ v : Word, lo ≤ v.toNat → v.toNat < 0x800000 → walk cur.mem q v ≠ none)
    (hn : lo + stackBytes argvStrs envpStrs ≤ 0x808000) :
    ∃ rsp cur', cur.buildUserStack q argvStrs envpStrs = some (rsp, cur') ∧
      rsp.toNat = 0x808000 - stackBytes argvStrs envpStrs ∧
      cur'.loadByte q rsp = some (getByte (.ofNat 64 argvStrs.length) 0) := by
  unfold stackBytes at hn ⊢
  have htop : userStackTop.toNat = 0x808000 := rfl
  obtain ⟨s1, hmap, -⟩ : ∃ s1, cur.mapPages q userStackBase userStackSize (pageUser ||| pageWrite) =
      some s1 ∧ CanAlloc 0 s1.pmm := mapPages_returns q _ (by decide) (by decide) hcan
  have hfrom := mapPages_eq hmap
  have hspec := mapPagesFrom_spec ho.tables (fun _ _ => trivial) hfrom
  have hroom : Room q lo userStackTop s1 := by
    refine ⟨(mapPagesFrom_keeps ho (fun _ _ => trivial) hfrom).owns, by decide, fun v hv hlt => ?_⟩
    by_cases hc : Covers (pageStart userStackBase) (numPages userStackBase userStackSize).toNat v
    · obtain ⟨e, f, he, -⟩ := hspec.new v hc
      rw [he]
      exact some_ne_none e
    · rw [hspec.other v trivial hc]
      apply hlo v hv
      by_contra hge
      refine hc ((covers_iff (by decide) (by decide) v).mpr ⟨v.toNat, ?_, ?_, ?_⟩)
      · exact Nat.le_of_not_lt hge
      · exact hlt
      · rw [ofNat_toNat, setWidth_eq]
  obtain ⟨s2, h2, r2, -⟩ := hroom.push 0 (by omega)
  have e2 := hroom.toNat_sub (n := 8) (by omega)
  obtain ⟨ptrs3, a3, s3, h3, r3, e3, l3⟩ := r2.pushStrings envpStrs [] (by omega)
  obtain ⟨ptrs4, a4, s4, h4, r4, e4, l4⟩ := r3.pushStrings argvStrs ptrs3 (by omega)
  obtain ⟨a5, s5, h5, r5, e5⟩ := r4.pushAll [0, 0] (by simp only [List.length]; omega)
  rw [show 8 * [(0 : Word), 0].length = 16 from rfl] at e5
  obtain ⟨s6, h6, r6, -⟩ := r5.push 0 (by omega)
  have e6 := r5.toNat_sub (n := 8) (by omega)
  obtain ⟨s7, h7, r7, -⟩ := r6.push 0 (by omega)
  have e7 := r6.toNat_sub (n := 8) (by omega)
  have l4' : ptrs4.reverse.length = envpStrs.length + argvStrs.length := by
    rw [length_reverse, l4, l3, length_nil, Nat.zero_add]
  obtain ⟨a8, s8, h8, r8, e8⟩ := r7.pushAll ptrs4.reverse (by omega)
  obtain ⟨s9, h9, r9, hread⟩ := r8.push (.ofNat 64 argvStrs.length) (by omega)
  have e9 := r8.toNat_sub (n := 8) (by omega)
  have hnone : ∀ (a : Word) (s : Vmm σ), s.pushAll q [] a = some (a, s) := fun _ _ => rfl
  refine ⟨_, s9, ?_, ?_, hread⟩
  · simp only [buildUserStack, mapUserPages, hmap, h2, h3, h4, h5, h6, h7, h8, h9, reverse_nil,
      hnone, bind_eq_bind, bind_some]
  · omega

/-! ## Runs that lose bytes -/

/-- A word of eight equal bytes. -/
def repeatByte (b : Byte) : Word := b.setWidth 64 * 0x0101010101010101

theorem getByte_repeatByte : ∀ b : Byte, ∀ k < 8, getByte (repeatByte b) (8 * k) = b := by
  decide +kernel

open Classical in
/-- The state with other contents of the free frames. -/
noncomputable def refill (b : Byte) (s : Vmm σ) : Vmm σ :=
  { s with mem := fun f i => if f ∈ allocated s.pmm then s.mem f i else repeatByte b }

theorem refill_mem {f : Frame} (hf : f ∈ allocated s.pmm) : (s.refill b).mem f = s.mem f := by
  funext i
  exact if_pos hf

theorem refill_junk (b : Byte) (s : Vmm σ) : Junk b (s.refill b) := by
  intro f hf i k hk
  rw [show (s.refill b).mem f i = repeatByte b from if_neg hf]
  exact getByte_repeatByte b k hk

theorem KernelHalf.refill (hk : KernelHalf s) : KernelHalf (s.refill b) := by
  have hsame : Same s (s.refill b) := ⟨rfl, rfl, rfl⟩
  exact (hk.of_kept hsame (fun _ hf => ⟨refill_mem (hk.tree.allocated hf), hk.tree.allocated hf⟩)).1

theorem FileIn.refill (hk : KernelHalf s) (hf : FileIn fileBuffer bytes s.kernelPml4 s) :
    FileIn fileBuffer bytes s.kernelPml4 (s.refill b) := by
  have hshares : Shares s (s.refill b).mem s.kernelPml4 :=
    ⟨fun f hf => refill_mem (hk.tree.allocated hf),
      fun i _ => .inl (by rw [refill_mem hk.root_mem])⟩
  refine ⟨hf.high, hf.fits, fun i hi => ?_⟩
  have := hf.high
  have := hf.fits
  rw [hshares.same.bytes _ (upperHalf_pml4Idx (by rw [toNat_add_ofNat] <;> omega))]
  exact hf.read i hi

theorem createUserPml4_returns {n : Nat} (h : CanAlloc (n + 1) s.pmm) :
    ∃ q cur, s.createUserPml4 = some (q, cur) ∧ CanAlloc n cur.pmm := by
  obtain ⟨q, sa, ha, hn⟩ := h.alloc
  refine ⟨q, (sa.zeroPage q).copyKernelHalf sa.kernelPml4 q, ?_, ?_⟩
  · simp only [createUserPml4, ha, bind_eq_bind, bind_some]
    rfl
  · rw [(copyKernelHalf_same (sa.zeroPage q) sa.kernelPml4 q).1]
    exact hn

theorem createUserHeap_returns {n : Nat} (q : Frame) (h : CanAlloc (n + 3) cur.pmm) :
    ∃ uheap cur', cur.createUserHeap q = some (uheap, cur') ∧ CanAlloc n cur'.pmm := by
  obtain ⟨pt, cur', h', hn⟩ := ensureTables_returns q 1 0 0 pageUser h
  refine ⟨⟨1, 0, 0, 0⟩, cur', ?_, hn⟩
  show (cur.ensureTables q 1 0 0 pageUser).bind _ = _
  rw [h']
  rfl

/-- A program without empty segments can be loaded up to its stack, into frames of any contents. -/
theorem segments_return (hk : KernelHalf s) (hf : FileIn fileBuffer bytes s.kernelPml4 s)
    (hok : ∀ header ∈ headers, SegmentOk bytes.length header)
    (hpos : ∀ header ∈ headers, header.pMemsz ≠ 0) (hcan : CanAlloc (36 + framesFor headers) s.pmm)
    (hj : Junk b s) :
    ∃ q s1 uheap s2 hb s3, s.createUserPml4 = some (q, s1) ∧
      s1.createUserHeap q = some (uheap, s2) ∧
      s2.mapElf64Headers q fileBuffer headers 0 = some (hb, s3) ∧ CanAlloc 32 s3.pmm ∧
      Prepared q s s2 ∧ Junk b s2 := by
  obtain ⟨q, s1, hcreate, hn⟩ := createUserPml4_returns (n := 32 + framesFor headers + 3)
    (by rwa [show 32 + framesFor headers + 3 + 1 = 36 + framesFor headers by omega])
  obtain ⟨uheap, s2, hheap, hn⟩ := createUserHeap_returns q hn
  have hp : Prepared q s s2 := prepared hk (fun r (hr : r ∈ none) => by cases hr) hcreate hheap
  have hany : Owns anyHead q ∅ s1 := hk.owns_newRoot (createUserPml4_spec hk.root_mem hcreate)
    (Set.empty_subset _) (fun f hf => absurd hf (Set.notMem_empty f))
  have hj2 := hj.kept ((createUserPml4_freeKept hcreate).trans (heapAt_freeKept hany hheap))
  obtain ⟨hb, s3, hseg, hn⟩ := mapElf64Headers_returns 0 hp hf hok hpos hn
  exact ⟨q, s1, uheap, s2, hb, s3, hcreate, hheap, hseg, hn, hp, hj2⟩

/-! ## When the image is right -/

/-- Every run of `exec_elf64` on the file ends with the image that it describes. -/
def AlwaysLoads (σ : Type) [FrameAllocator σ] (fileBuffer : Word) (bytes : List Byte)
    (file : Elf64File) : Prop :=
  ∀ (s : Vmm σ) (cr3 : Frame) (kernelStack : Word) (argvStrs envpStrs : List (List Byte))
    (p p' : Process) (s' : Vmm σ) (q : Frame), Ready fileBuffer bytes cr3 s → Replaceable p.pml4 s →
    s.execElf64 cr3 kernelStack fileBuffer argvStrs envpStrs p = some (p', s') → p'.pml4 = some q →
    Image bytes file.programHeaders q p'.heapBreak s'

namespace AlwaysLoads

variable {cr3 : Frame} {file : Elf64File} (hall : AlwaysLoads σ fileBuffer bytes file)
  (hparse : Elf.parseFile (bufferRead fileBuffer bytes) fileBuffer = some file)
  (hd : Describes bytes.length file.programHeaders) (hs : Ready fileBuffer bytes cr3 s)
  (hpos : ∀ header ∈ file.programHeaders, header.pMemsz ≠ 0)
  (hcan : CanAlloc (36 + framesFor file.programHeaders) s.pmm)

include hall hparse hd hs hpos hcan

/-- In particular the runs with `b` in all free frames, as far as their stack can be built. -/
theorem run (hne : file.programHeaders ≠ []) (b : Byte) :
    ∃ (t : Vmm σ) (q : Frame) (s2 : Vmm σ) (hb : Word) (s3 : Vmm σ), KernelHalf t ∧
      Prepared q t s2 ∧ Junk b s2 ∧
      s2.mapElf64Headers q fileBuffer file.programHeaders 0 = some (hb, s3) ∧ CanAlloc 32 s3.pmm ∧
      ∀ argvStrs envpStrs rsp s', s3.buildUserStack q argvStrs envpStrs = some (rsp, s') →
        Image bytes file.programHeaders q hb s' := by
  have hk : KernelHalf (s.refill b) := hs.kernel.refill
  have hf : FileIn fileBuffer bytes s.kernelPml4 (s.refill b) := .refill hs.kernel hs.file
  obtain ⟨q, s1, uheap, s2, hb, s3, hcreate, hheap, hseg, hn, hp, hj⟩ :=
    segments_return hk hf hd.ok hpos hcan (refill_junk b s)
  refine ⟨s.refill b, q, s2, hb, s3, hk, hp, hj, hseg, hn, ?_⟩
  intro argvStrs envpStrs rsp s' hstack
  have hvalid : file.isValidElf = true := by
    rw [Elf.parseFile_isValidElf hparse]
    simpa using hne
  have hexec : (s.refill b).execElf64 s.kernelPml4 0 fileBuffer argvStrs envpStrs firstProcess =
      some (firstProcess.execReset ⟨q, hb, uheap, 0 + kernelStackSize, rsp, file.entry⟩, s') := by
    unfold execElf64
    simp only [hf.parse hparse, hvalid, Bool.not_true, Bool.false_eq_true, if_false,
      show (s.refill b).freeOldPml4 firstProcess.pml4 = s.refill b from rfl, hcreate, hheap, hseg,
      hstack, bind_eq_bind, bind_some]
    rfl
  exact hall _ _ _ _ _ _ _ _ q ⟨hk, hf, hf⟩ (by rintro r ⟨⟩) hexec rfl

theorem separatePages : SeparatePages file.programHeaders := by
  refine pairwise_iff_forall_sublist.mpr ?_
  rintro header header' hsub n ⟨⟨a, ha, rfl⟩, hpage⟩
  -- a segment with the address `a`, and one behind it in the same page
  obtain ⟨before, after, heq, hm, hm'⟩ := cons_sublist_iff.mp hsub
  rw [singleton_sublist] at hm'
  have hmem : header ∈ file.programHeaders := by
    rw [heq]
    exact mem_append_left _ hm
  have hnot : ∀ x ∈ after, ¬ x.Has a := by
    have hdis := hd.disjoint
    rw [heq] at hdis
    exact fun x hx hhas => (pairwise_append.mp hdis).2.2 header hm x hx a ⟨ha, hhas⟩
  have hok := hd.ok header hmem
  obtain ⟨i, hi, rfl⟩ := hok.exists_of_has ha
  -- the free frames hold another byte
  obtain ⟨b, hb⟩ : ∃ b : Byte, header.byteAt bytes i ≠ some b := by
    by_cases hzero : header.byteAt bytes i = some 0
    · exact ⟨1, by rw [hzero]; decide⟩
    · exact ⟨0, hzero⟩
  obtain ⟨t, q, s2, hbreak, s3, hk, hp, hj, hseg, hn, hrun⟩ :=
    hall.run hparse hd hs hpos hcan (ne_nil_of_mem hmem) b
  have hp3 := mapElf64Headers_prepared hp hd.ok hseg
  obtain ⟨rsp, s', hstack, hrsp, -⟩ := buildUserStack_returns [] [] hp3.any hn
    (show ∀ v : Word, 0x800000 ≤ v.toNat → v.toNat < 0x800000 → _ by intro v hlo hhi; omega)
    (by decide)
  have himage := (hrun _ _ _ _ hstack).segments header hmem i hi
  have hsame := buildUserStack_samePages hk hp3 hstack (by rw [hrsp]; decide)
  rw [(hsame _ (hok.lt_of_has ha) (hok.off_stack ha)).2] at himage
  have hoks := hd.ok
  rw [heq] at hseg hoks
  exact hb (himage.symm.trans (mapElf64Headers_append_junk hp hj hoks hseg (hok.lt_of_has ha) hnot
    ⟨header', hm', hpage⟩))

theorem not_below {header : Elf64ProgramHeader} (hm : header ∈ file.programHeaders) :
    ¬ header.HasPage pageBelowStack := by
  rintro ⟨a, ha, hpage⟩
  rw [show pageBelowStack = 0x7FF from rfl] at hpage
  have hok := hd.ok header hm
  obtain ⟨i, hi, hv⟩ := hok.exists_of_has ha
  obtain ⟨t, q, s2, hbreak, s3, hk, hp, hj, hseg, hn, hrun⟩ :=
    hall.run hparse hd hs hpos hcan (ne_nil_of_mem hm) 0
  have hp3 := mapElf64Headers_prepared hp hd.ok hseg
  have hmapped : ∀ v : Word, a ≤ v.toNat → v.toNat < 0x800000 → walk s3.mem q v ≠ none := by
    intro v hlo hhi
    have hpos' : 0 < header.pMemsz.toNat := by omega
    have hcov := (hok.covers_iff hpos' (v := v) (by omega)).mpr ⟨a, ha, by omega⟩
    obtain ⟨e, he, -⟩ := ((mapElf64Headers_loaded hseg).new hp.any (Set.empty_subset _)).2.2 _
      (mem_map_of_mem hm) v hcov
    rw [he]
    exact some_ne_none e
  -- a stack that ends at `a`, with the number of arguments there
  have hread : ∀ argvStrs envpStrs, stackBytes argvStrs envpStrs = 0x808000 - a →
      header.byteAt bytes i = some (getByte (.ofNat 64 argvStrs.length) 0) := by
    intro argvStrs envpStrs hbytes
    obtain ⟨rsp, s', hstack, hrsp, hread⟩ := buildUserStack_returns argvStrs envpStrs
      hp3.any hn hmapped (by omega)
    have heq : header.pVaddr + .ofNat 64 i = rsp := eq_of_toNat_eq (by omega)
    rw [← (hrun _ _ _ _ hstack).segments header hm i hi, heq]
    exact hread
  have hbytes : ∀ n, stringBytes [List.replicate n 0] = n + 1 := by simp [stringBytes]
  have hone := hread [List.replicate (0x808000 - 57 - a) 0] [] (by
    rw [stackBytes, hbytes, stringBytes]
    simp only [map_nil, sum_nil, length_nil, length_singleton]
    omega)
  have hzero := hread [] [List.replicate (0x808000 - 57 - a) 0] (by
    rw [stackBytes, hbytes, stringBytes]
    simp only [map_nil, sum_nil, length_nil, length_singleton]
    omega)
  rw [hone] at hzero
  exact absurd hzero (by rw [length_singleton, length_nil]; decide)

end AlwaysLoads

/-- The words of a file with two segments of one byte, in one page. -/
def sharedWords : List Word :=
  [0x00010102464C457F, 0, 0x00000001003E0002, 0x400000, 64, 0, 0x0038004000000000, 2,
    1, 0, 0x400000, 0, 1, 1, 0x1000, 1, 0, 0x400800, 0, 1, 1, 0x1000]

def fileBytes (words : List Word) : List Byte := words.flatMap wordBytes

theorem length_fileBytes (words : List Word) : (fileBytes words).length = 8 * words.length := by
  simp [fileBytes, wordBytes, length_flatMap, Nat.mul_comm]

theorem canAlloc_framePool {n : Nat} {pool : FramePool} (h : n ≤ pool.free.length) :
    CanAlloc n pool := by
  induction n generalizing pool with
  | zero => exact .zero pool
  | succ n ih =>
    obtain ⟨_ | ⟨f, fs⟩, hnodup⟩ := pool
    · cases h
    · exact .succ rfl (ih (Nat.le_of_succ_le_succ h))

/-- What the runs below have to evaluate of the state with the file. -/
def fileCheck (words : List Word) (s : Vmm FramePool) : Bool :=
  s.kernelPml4 == 0 && 44 ≤ s.pmm.free.length && (List.range (fileBytes words).length).all (fun i =>
    s.loadByte 0 (0xFFFFFF8000000000 + BitVec.ofNat 64 i) == (fileBytes words)[i]?)

theorem ready_of_fileCheck {words : List Word} {s : Vmm FramePool} (hfile : fileVmm words = some s)
    (h : fileCheck words s = true) (hlen : words.length ≤ 512) :
    s.kernelPml4 = 0 ∧ Ready 0xFFFFFF8000000000 (fileBytes words) 0 s ∧ 44 ≤ s.pmm.free.length := by
  simp only [fileCheck, Bool.and_eq_true, beq_iff_eq, decide_eq_true_eq,
    List.all_eq_true, List.mem_range] at h
  obtain ⟨⟨hroot, hfree⟩, hread⟩ := h
  have hf : FileIn 0xFFFFFF8000000000 (fileBytes words) 0 s := by
    refine ⟨by decide, ?_, hread⟩
    rw [show (0xFFFFFF8000000000 : Word).toNat = 0xFFFFFF8000000000 from rfl, length_fileBytes]
    omega
  exact ⟨hroot, ⟨fileVmm_kernelHalf hfile, by rwa [hroot], hf⟩, hfree⟩

/-- A segment of one byte, the first of the file. -/
def byteHeader (vaddr : Word) : Elf64ProgramHeader := ⟨1, 0, 0, vaddr, 0, 1, 1, 0x1000⟩

theorem byteHeader_has {a : Nat} : (byteHeader vaddr).Has a ↔ a = vaddr.toNat := by
  show vaddr.toNat ≤ a ∧ a < vaddr.toNat + 1 ↔ _
  omega

theorem byteHeader_ok {size : Nat} (hv : vaddr.toNat < 0x800000) (hsize : 1 ≤ size) :
    SegmentOk size (byteHeader vaddr) := by
  have hend : vaddr.toNat + 1 ≤ 2 ^ 47 := by omega
  refine ⟨hend, fun a ha => .inl ?_, le_rfl, hsize⟩
  rw [byteHeader_has.mp ha]
  exact hv

end Vmm

end Hltos
