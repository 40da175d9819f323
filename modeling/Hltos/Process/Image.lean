import Hltos.Memory.Contents
import Hltos.Process.KernelHalf

/-!
# The image of a program

What the loaded segments read as. Each segment is mapped and copied in turn, and its mapping takes
new frames for all pages that it lies in: the bytes of the file are there in the end if no later
segment lies in one of these pages and the stack does not grow into them.
-/

namespace Hltos

open Lib.Radix FrameAllocator Pte BitVec List

namespace Elf64ProgramHeader

/-- An address of the segment. -/
def Has (header : Elf64ProgramHeader) (a : Nat) : Prop :=
  header.pVaddr.toNat ≤ a ∧ a < header.pVaddr.toNat + header.pMemsz.toNat

/-- A page that the segment lies in. -/
def HasPage (header : Elf64ProgramHeader) (n : Nat) : Prop := ∃ a, header.Has a ∧ a / 4096 = n

/-- The byte that the file describes at an offset of the segment. -/
def byteAt (file : List Byte) (header : Elf64ProgramHeader) (i : Nat) : Option Byte :=
  if i < header.pFilesz.toNat then file[header.pOffset.toNat + i]? else some 0

end Elf64ProgramHeader

namespace Vmm

variable {σ : Type} [FrameAllocator σ] {s cur cur' : Vmm σ} {q : Frame} {fileBuffer : Word}
  {bytes : List Byte} {header : Elf64ProgramHeader} {headers : List Elf64ProgramHeader}
  {file : Elf64File} {P : Nat → Prop} {s' s1 s'' : Vmm σ}

/-- The file lies in the kernel's half, and can be read through the root `r`. -/
structure FileIn (fileBuffer : Word) (bytes : List Byte) (r : Frame) (s : Vmm σ) : Prop where
  high : 2 ^ 64 - 2 ^ 47 ≤ fileBuffer.toNat
  fits : fileBuffer.toNat + bytes.length ≤ 2 ^ 64
  read : ∀ i < bytes.length, s.loadByte r (fileBuffer + BitVec.ofNat 64 i) = bytes[i]?

/-- The file, read where it lies. -/
def bufferRead (fileBuffer : Word) (bytes : List Byte) (v : Word) : Option Byte :=
  bytes[(v - fileBuffer).toNat]?

/-- The kernel is set up, and the file is in its half, also as the active root `cr3` has it. -/
structure Ready (fileBuffer : Word) (bytes : List Byte) (cr3 : Frame) (s : Vmm σ) : Prop where
  kernel : KernelHalf s
  file : FileIn fileBuffer bytes s.kernelPml4 s
  active : FileIn fileBuffer bytes cr3 s

omit [FrameAllocator σ] in
theorem FileIn.parse {r : Frame} (hf : FileIn fileBuffer bytes r s)
    (h : Elf.parseFile (bufferRead fileBuffer bytes) fileBuffer = some file) :
    Elf.parseFile (fun v => s.loadByte r v) fileBuffer = some file := by
  refine Elf.parseFile_mono (fun v b hb => ?_) fileBuffer file h
  obtain ⟨hi, -⟩ := List.getElem?_eq_some_iff.mp hb
  have hread := hf.read _ hi
  rw [BitVec.ofNat_toNat, BitVec.setWidth_eq, BitVec.add_comm, BitVec.sub_add_cancel] at hread
  exact hread.trans hb

/-- A segment lies in the lower half and outside of the stack, and comes from within the file. -/
structure SegmentOk (size : Nat) (header : Elf64ProgramHeader) : Prop where
  user : header.pVaddr.toNat + header.pMemsz.toNat ≤ 2 ^ 47
  stack : ∀ a, header.Has a → a < userStackBase.toNat ∨ userStackTop.toNat ≤ a
  filesz : header.pFilesz.toNat ≤ header.pMemsz.toNat
  file : header.pOffset.toNat + header.pFilesz.toNat ≤ size

/-- Segments that are in order, with no address in common. -/
structure Describes (size : Nat) (headers : List Elf64ProgramHeader) : Prop where
  ok : ∀ header ∈ headers, SegmentOk size header
  disjoint : headers.Pairwise (fun h h' => ∀ a, ¬ (h.Has a ∧ h'.Has a))

/-- The memory image that the file describes. -/
structure Image (bytes : List Byte) (headers : List Elf64ProgramHeader) (q : Frame)
    (heapBreak : Word) (s : Vmm σ) : Prop where
  segments : ∀ header ∈ headers, ∀ i < header.pMemsz.toNat,
    s.loadByte q (header.pVaddr + BitVec.ofNat 64 i) = header.byteAt bytes i
  aligned : isPageAligned heapBreak = true
  above : ∀ header ∈ headers, header.pVaddr.toNat + header.pMemsz.toNat ≤ heapBreak.toNat

/-! ## Loading in the lower half -/

/-- The file reads the same through the new root. -/
theorem Prepared.read (hp : Prepared q s cur) (hf : FileIn fileBuffer bytes s.kernelPml4 s)
    {i : Nat} (hi : i < bytes.length) : cur.loadByte q (fileBuffer + .ofNat 64 i) = bytes[i]? := by
  have := hf.high
  have := hf.fits
  rw [hp.shares.same.bytes _ (upperHalf_pml4Idx (by rw [toNat_add_ofNat] <;> omega))]
  exact hf.read i hi

namespace SegmentOk

variable {size : Nat} {v : Word} {a i : Nat} (h : SegmentOk size header)

include h

/-- The pages that are mapped for a segment are those it lies in. -/
theorem covers_iff (hpos : 0 < header.pMemsz.toNat) (hv : v.toNat < 2 ^ 47) :
    Covers (pageStart header.pVaddr) (numPages header.pVaddr header.pMemsz).toNat v ↔
      header.HasPage (v.toNat / 4096) := by
  have := h.user
  rw [Vmm.covers_iff (by omega) hpos]
  simp only [← toNat_inj, toNat_vpn, toNat_ofNat]
  constructor
  · rintro ⟨a, hlo, hhi, heq⟩
    exact ⟨a, ⟨hlo, hhi⟩, by omega⟩
  · rintro ⟨a, ⟨hlo, hhi⟩, heq⟩
    exact ⟨a, hlo, hhi, by omega⟩

theorem toNat_add (hi : i < header.pMemsz.toNat) :
    (header.pVaddr + .ofNat 64 i).toNat = header.pVaddr.toNat + i := by
  have := h.user
  exact toNat_add_ofNat (by omega)

theorem has (hi : i < header.pMemsz.toNat) : header.Has (header.pVaddr + .ofNat 64 i).toNat := by
  rw [Elf64ProgramHeader.Has, h.toNat_add hi]
  omega

theorem exists_of_has (ha : header.Has a) :
    ∃ i < header.pMemsz.toNat, (header.pVaddr + .ofNat 64 i).toNat = a := by
  obtain ⟨hlo, hhi⟩ := ha
  refine ⟨a - header.pVaddr.toNat, by omega, ?_⟩
  rw [h.toNat_add (by omega)]
  omega

theorem lt_of_has (ha : header.Has a) : a < 2 ^ 47 := Nat.lt_of_lt_of_le ha.2 h.user

theorem off_stack (ha : header.Has a) : a / 4096 < 0x800 ∨ 0x808 ≤ a / 4096 := by
  have := h.stack a ha
  rw [show userStackBase.toNat = 0x800000 from rfl,
    show userStackTop.toNat = 0x808000 from rfl] at this
  omega

theorem mem_written (hv : v ∈ header.written) : header.Has v.toNat := by
  obtain ⟨k, hk, rfl⟩ := mem_bytesFrom.mp hv
  rw [Nat.max_eq_right h.filesz] at hk
  exact h.has hk

end SegmentOk

/-! ## One segment -/

/-- The pages with a number in `P` are mapped as they were, with the same contents. -/
def SamePages (P : Nat → Prop) (q : Frame) (s s' : Vmm σ) : Prop :=
  ∀ v : Word, v.toNat < 2 ^ 47 → P (v.toNat / 4096) →
    walk s'.mem q v = walk s.mem q v ∧ s'.loadByte q v = s.loadByte q v

omit [FrameAllocator σ] in
theorem SamePages.trans (h : SamePages P q s cur) (h' : SamePages P q cur s'') :
    SamePages P q s s'' :=
  fun v hv hP => ⟨(h' v hv hP).1.trans (h v hv hP).1, (h' v hv hP).2.trans (h v hv hP).2⟩

omit [FrameAllocator σ] in
theorem SamePages.mono {P' : Nat → Prop} (h : SamePages P q s cur) (hP : ∀ n, P' n → P n) :
    SamePages P' q s cur := fun v hv hn => h v hv (hP _ hn)

/-- Pages that are neither mapped anew nor stored to. -/
theorem samePages_of_map_stored {virt bytes : Word} {vs : List Word}
    {K : Set Frame} (ho : Owns anyHead q K cur) (hmap : cur.mapUserPages q virt bytes = some s1)
    (hs : Stored q vs s1 cur') (hcov : ∀ v : Word, v.toNat < 2 ^ 47 → P (v.toNat / 4096) →
      ¬ Covers (pageStart virt) (numPages virt bytes).toNat v)
    (hvs : ∀ v : Word, v.toNat < 2 ^ 47 → P (v.toNat / 4096) → v ∉ vs) :
    SamePages P q cur cur' := by
  have hfrom := mapUserPages_from hmap
  have ho1 := (mapPagesFrom_keeps ho (fun _ _ => trivial) hfrom).owns
  have hp := mapPagesFrom_spec ho.tables (fun _ _ => trivial) hfrom
  have hm := mapPagesFrom_mapped ho (fun _ _ => trivial) hfrom
  intro v hv hP
  have hnot := hcov v hv hP
  have hu : Untouched q cur s1 (path v) := by
    refine hm.untouched ho (isPage_path trivial) ?_
    intro w hw heq
    obtain ⟨k, hk, rfl⟩ := mem_pagesFrom.mp hw
    exact hnot ⟨k, hk, path_eq_iff.mp heq⟩
  constructor
  · rw [(hs.writes ho1 (fun _ _ => trivial)).walk trivial, hp.other v trivial hnot]
  · rw [hs.loadByte_of_notMem ho1 (hvs v hv hP), hu.loadByte]

section Segment

variable {hb hb' : Word} (hp : Prepared q s cur) (hok : SegmentOk bytes.length header)
  (h : cur.mapElf64Header q fileBuffer header hb = some (hb', cur'))

include hp hok h

theorem mapElf64Header_prepared : Prepared q s cur' := by
  refine hp.loaded (mapElf64Header_loaded h) ?_ (fun v hv => ?_)
  · intro m hm
    rw [mem_singleton.mp hm]
    exact hok.user
  · exact hok.lt_of_has (hok.mem_written hv)

/-- The pages that a segment does not lie in are left alone. -/
theorem mapElf64Header_samePages : SamePages (fun n => ¬ header.HasPage n) q cur cur' := by
  obtain ⟨-, s1, s2, hmap, hcopy, hset⟩ := mapElf64Header_eq_some h
  refine samePages_of_map_stored hp.any hmap (written_stored hcopy hset) ?_ ?_
  · exact fun v hv hnot hc => hnot ((hok.covers_iff (mapPages_pos hmap) hv).mp hc)
  · exact fun v hv hnot hm => hnot ⟨_, hok.mem_written hm, rfl⟩

/-- The bytes of a segment after it was loaded. -/
theorem mapElf64Header_image (hf : FileIn fileBuffer bytes s.kernelPml4 s) :
    ∀ i < header.pMemsz.toNat,
      cur'.loadByte q (header.pVaddr + .ofNat 64 i) = header.byteAt bytes i := by
  obtain ⟨-, s1, s2, hmap, hcopy, hset⟩ := mapElf64Header_eq_some h
  have := hok.user
  have := hok.filesz
  have := hok.file
  have := hf.high
  have := hf.fits
  have hp1 := hp.mapUserPages hok.user hmap
  have ho2 := ((memcpy_stored hcopy).writes hp1.any (fun _ _ => trivial)).keeps.owns
  have hfile : ∀ i < header.pFilesz.toNat,
      s2.loadByte q (header.pVaddr + .ofNat 64 i) = bytes[header.pOffset.toNat + i]? := by
    intro i hi
    have hsrc : (fileBuffer + header.pOffset).toNat = fileBuffer.toNat + header.pOffset.toNat := by
      rw [toNat_add]
      omega
    rw [memcpy_loadByte hp1.any (by omega) (by omega) (by omega) hcopy hi, BitVec.add_assoc]
    have hread := hp1.read hf (i := header.pOffset.toNat + i) (by omega)
    rwa [BitVec.ofNat_add, BitVec.ofNat_toNat, BitVec.setWidth_eq] at hread
  intro i hi
  unfold Elf64ProgramHeader.byteAt
  unfold zeroRest at hset
  split at hset
  · next hlt =>
    have hlen := BitVec.toNat_sub_of_le (BitVec.le_of_lt hlt)
    have hrest : (header.pVaddr + header.pFilesz).toNat =
        header.pVaddr.toNat + header.pFilesz.toNat := by
      rw [BitVec.toNat_add]
      omega
    split
    · next hlt' =>
      rw [(memset_stored hset).loadByte_of_notMem ho2, hfile i hlt']
      refine notMem_bytesFrom (by omega) (.inl ?_)
      rw [hok.toNat_add hi]
      omega
    · next hge =>
      have hzero := memset_loadByte ho2 (by omega) hset
        (k := i - header.pFilesz.toNat) (by omega)
      rw [← hzero]
      congr 1
      apply eq_of_toNat_eq
      rw [hok.toNat_add hi, toNat_add_ofNat (by omega)]
      omega
  · next hle =>
    have : ¬ header.pFilesz.toNat < header.pMemsz.toNat := hle
    cases hset
    rw [if_pos (by omega), hfile i (by omega)]

end Segment

theorem mapElf64Headers_cons {hb hb' : Word} :
    cur.mapElf64Headers q fileBuffer (header :: headers) hb = some (hb', cur') ↔ ∃ s1,
      cur.mapElf64Header q fileBuffer header hb = some (breakAfter header hb, s1) ∧
      s1.mapElf64Headers q fileBuffer headers (breakAfter header hb) = some (hb', cur') := by
  constructor
  · intro h
    obtain ⟨⟨hb1, s1⟩, h1, h⟩ := of_bind h
    obtain ⟨rfl, -⟩ := mapElf64Header_eq_some h1
    exact ⟨s1, h1, h⟩
  · rintro ⟨s1, h1, h⟩
    exact Option.bind_eq_some_iff.mpr ⟨_, h1, h⟩

/-! ## The break -/

/-- The break stays aligned, and is not below the end of a segment. -/
theorem breakAfter_spec {size : Nat} {hb : Word} (hok : SegmentOk size header)
    (halign : hb.toNat % 4096 = 0) :
    (breakAfter header hb).toNat % 4096 = 0 ∧ hb.toNat ≤ (breakAfter header hb).toNat ∧
      header.pVaddr.toNat + header.pMemsz.toNat ≤ (breakAfter header hb).toNat := by
  have := hok.user
  have hend : (header.pVaddr + header.pMemsz).toNat =
      header.pVaddr.toNat + header.pMemsz.toNat := by
    rw [toNat_add]
    omega
  unfold breakAfter
  simp only [lt_def, hend]
  split
  · rw [show ∀ x : Word, x &&& ~~~(0xFFF : Word) = pageAlign x from fun _ => rfl, toNat_pageAlign,
      toNat_add, hend, show (0xFFF : Word).toNat = 4095 from rfl]
    omega
  · omega

theorem mapElf64Headers_break {size : Nat} {hb hb' : Word}
    (hok : ∀ header ∈ headers, SegmentOk size header) (halign : hb.toNat % 4096 = 0)
    (h : cur.mapElf64Headers q fileBuffer headers hb = some (hb', cur')) :
    hb'.toNat % 4096 = 0 ∧ hb.toNat ≤ hb'.toNat ∧
      ∀ header ∈ headers, header.pVaddr.toNat + header.pMemsz.toNat ≤ hb'.toNat := by
  induction headers generalizing cur hb with
  | nil =>
    cases h
    exact ⟨halign, le_rfl, by simp⟩
  | cons header headers ih =>
    obtain ⟨s1, -, h⟩ := mapElf64Headers_cons.mp h
    obtain ⟨halign1, hle1, hend1⟩ := breakAfter_spec (hok header mem_cons_self) halign
    obtain ⟨halign', hle', hend'⟩ := ih (fun x hx => hok x (mem_cons_of_mem _ hx)) halign1 h
    refine ⟨halign', hle1.trans hle', fun x hx => ?_⟩
    rcases mem_cons.mp hx with rfl | hx
    · exact hend1.trans hle'
    · exact hend' x hx

/-! ## All segments -/

/-- No two segments lie in the same page. -/
def SeparatePages (headers : List Elf64ProgramHeader) : Prop :=
  headers.Pairwise (fun h h' => ∀ n, ¬ (h.HasPage n ∧ h'.HasPage n))

section Segments

variable {hb hb' : Word} (hp : Prepared q s cur)
  (hok : ∀ header ∈ headers, SegmentOk bytes.length header)
  (h : cur.mapElf64Headers q fileBuffer headers hb = some (hb', cur'))

include hp hok h

theorem mapElf64Headers_prepared : Prepared q s cur' := by
  induction headers generalizing cur hb with
  | nil => cases h; exact hp
  | cons header headers ih =>
    obtain ⟨s1, h1, h⟩ := mapElf64Headers_cons.mp h
    exact ih (mapElf64Header_prepared hp (hok _ mem_cons_self) h1)
      (fun x hx => hok x (mem_cons_of_mem _ hx)) h

theorem mapElf64Headers_samePages :
    SamePages (fun n => ∀ header ∈ headers, ¬ header.HasPage n) q cur cur' := by
  induction headers generalizing cur hb with
  | nil => cases h; exact fun _ _ _ => ⟨rfl, rfl⟩
  | cons header headers ih =>
    obtain ⟨s1, h1, h⟩ := mapElf64Headers_cons.mp h
    have hok1 := hok _ mem_cons_self
    have hrest := ih (mapElf64Header_prepared hp hok1 h1)
      (fun x hx => hok x (mem_cons_of_mem _ hx)) h
    exact ((mapElf64Header_samePages hp hok1 h1).mono (fun n hn => hn _ mem_cons_self)).trans
      (hrest.mono (fun n hn x hx => hn x (mem_cons_of_mem _ hx)))

/-- **Segments without a page in common** are all there after the last one was loaded. -/
theorem mapElf64Headers_image (hf : FileIn fileBuffer bytes s.kernelPml4 s)
    (hsep : SeparatePages headers) : ∀ header ∈ headers, ∀ i < header.pMemsz.toNat,
      cur'.loadByte q (header.pVaddr + .ofNat 64 i) = header.byteAt bytes i := by
  induction headers generalizing cur hb with
  | nil => simp
  | cons header headers ih =>
    obtain ⟨s1, h1, h⟩ := mapElf64Headers_cons.mp h
    obtain ⟨hfirst, hsep⟩ := pairwise_cons.mp hsep
    have hok1 := hok _ mem_cons_self
    have hok' : ∀ x ∈ headers, SegmentOk bytes.length x := fun x hx => hok x (mem_cons_of_mem _ hx)
    have hp1 := mapElf64Header_prepared hp hok1 h1
    intro x hx
    rcases mem_cons.mp hx with rfl | hx
    · -- the segments behind do not touch its pages
      intro i hi
      have hhas := hok1.has hi
      rw [(mapElf64Headers_samePages hp1 hok' h _ (hok1.lt_of_has hhas) ?_).2]
      · exact mapElf64Header_image hp hok1 h1 hf i hi
      · exact fun y hy hpage => hfirst y hy _ ⟨⟨_, hhas, rfl⟩, hpage⟩
    · exact ih hp1 hok' h hsep x hx

end Segments

/-! ## The root and the stack -/

/-- In a new root nothing is mapped in the lower half. -/
theorem prepared_blank {pml4 : Option Frame} {uheap : Heap} (h : KernelHalf s)
    (hp : Replaceable pml4 s) (hcreate : (s.freeOldPml4 pml4).createUserPml4 = some (q, s'))
    (hheap : s'.createUserHeap q = some (uheap, s'')) {v : Word} (hv : v.toNat < 2 ^ 47) :
    walk s''.mem q v = none := by
  obtain ⟨hsame, hkept⟩ := freeOldPml4_kept h hp
  have h0 := (h.of_kept hsame hkept).1
  have hn := createUserPml4_spec h0.root_mem hcreate
  have hany : Owns anyHead q ∅ s' :=
    h0.owns_newRoot hn (Set.empty_subset _) (fun f hf => absurd hf (Set.notMem_empty f))
  rw [(heapAt_spec hany.tables (fun _ _ => trivial) hheap).2.walk trivial, walk_eq_find]
  by_contra hne
  obtain ⟨e, he⟩ := Option.ne_none_iff_exists'.mp hne
  obtain ⟨f, -, ht⟩ := child_of_find he
  have hblank : ∀ i ∈ (path v).getLast?, child (s'.mem q i) = none := by
    intro i hi
    rw [← Option.some.inj hi]
    exact hn.blank _ (Nat.lt_of_lt_of_le (lowerHalf_pml4Idx hv) h0.half)
  cases (table_of_blank hblank ht).1

section Stack

variable {argvStrs envpStrs : List (List Byte)} {rsp : Word} (hk : KernelHalf s)
  (hp : Prepared q s cur) (h : cur.buildUserStack q argvStrs envpStrs = some (rsp, cur'))

include hk hp h

/-- A stack that stays in its pages leaves all others alone. -/
theorem buildUserStack_samePages (hrsp : userStackBase.toNat ≤ rsp.toNat) :
    SamePages (fun n => n < 0x800 ∨ 0x808 ≤ n) q cur cur' := by
  obtain ⟨s1, hmap, vs, hdesc, hs⟩ := buildUserStack_pushed h
  have hp1 := hp.mapUserPages (by decide) hmap
  have hmem := (hdesc.mem_iff (hp1.top_notMem hk hs)).2
  have hbase : userStackBase.toNat = 0x800000 := rfl
  have htop : userStackTop.toNat = 0x808000 := rfl
  refine samePages_of_map_stored hp.any hmap hs (fun v hv hn hc => ?_) (fun v _ hn hm => ?_)
  · rw [covers_iff (by decide) (by decide)] at hc
    obtain ⟨a, hlo, hhi, heq⟩ := hc
    have hsize : userStackSize.toNat = 0x8000 := rfl
    have hpage := congrArg BitVec.toNat heq
    rw [toNat_vpn, toNat_vpn, toNat_ofNat] at hpage
    omega
  · have := (hmem v).mp hm
    omega

/-- With no page below it the stack stays in its pages. -/
theorem buildUserStack_base (hnone : walk cur.mem q 0x7FFFFF = none) :
    userStackBase.toNat ≤ rsp.toNat := by
  obtain ⟨s1, hmap, vs, hdesc, hs⟩ := buildUserStack_pushed h
  have hp1 := hp.mapUserPages (by decide) hmap
  have hmem := (hdesc.mem_iff (hp1.top_notMem hk hs)).2
  have hbase : userStackBase.toNat = 0x800000 := rfl
  by_contra hlt
  have hbelow : (0x7FFFFF : Word) ∈ vs := (hmem _).mpr ⟨by
    show rsp.toNat ≤ 0x7FFFFF
    omega, by decide⟩
  apply (hs.mapped hp1.any _ hbelow).2
  have hspec := mapPagesFrom_spec hp.any.tables (fun _ _ => trivial) (mapUserPages_from hmap)
  rw [hspec.other _ trivial, hnone]
  rw [covers_iff (by decide) (by decide)]
  rintro ⟨a, hlo, hhi, heq⟩
  have hsize : userStackSize.toNat = 0x8000 := rfl
  have hpage := congrArg BitVec.toNat heq
  rw [toNat_vpn, toNat_vpn, toNat_ofNat, show (0x7FFFFF : Word).toNat = 0x7FFFFF from rfl] at hpage
  omega

end Stack

/-! ## The image -/

/-- The page right below the stack. -/
def pageBelowStack : Nat := userStackBase.toNat / 4096 - 1

theorem ExecStages.image {argvStrs envpStrs : List (List Byte)} {old : Option Frame}
    {image : Process.ExecImage} {s2 s3 : Vmm σ} (hk : KernelHalf s)
    (hr : Replaceable old s) (hf : FileIn fileBuffer bytes s.kernelPml4 s)
    (hd : Describes bytes.length file.programHeaders) (hsep : SeparatePages file.programHeaders)
    (hbelow : ∀ header ∈ file.programHeaders, ¬ header.HasPage pageBelowStack)
    (h : ExecStages fileBuffer argvStrs envpStrs old file q image s s1 s2 s3 s') :
    Image bytes file.programHeaders q image.heapBreak s' := by
  have hp := prepared hk hr h.create h.heap
  have hp3 := mapElf64Headers_prepared hp hd.ok h.segments
  have hnone : walk s3.mem q 0x7FFFFF = none := by
    rw [(mapElf64Headers_samePages hp hd.ok h.segments 0x7FFFFF (by decide) hbelow).1]
    exact prepared_blank hk hr h.create h.heap (by decide)
  have hstack := buildUserStack_samePages hk hp3 h.stack (buildUserStack_base hk hp3 h.stack hnone)
  obtain ⟨halign, -, habove⟩ := mapElf64Headers_break hd.ok rfl h.segments
  refine ⟨fun header hm i hi => ?_, (isPageAligned_iff _).mpr halign, habove⟩
  have hok := hd.ok header hm
  rw [(hstack _ (hok.lt_of_has (hok.has hi)) (hok.off_stack (hok.has hi))).2]
  exact mapElf64Headers_image hp hd.ok h.segments hf hsep header hm i hi

end Vmm

end Hltos
