import Hltos.Process.Exec
import Hltos.Memory.Isolation

/-!
# What loading does to an address space

While a program is loaded, ranges are mapped in the new address space and bytes are stored at its
addresses, nothing else (`Loaded`). What such a sequence leaves alone, what it certainly changes,
and which addresses it can store to without a fault.
-/

namespace Hltos

open Lib.Radix FrameAllocator Pte List Option

namespace Elf64ProgramHeader

/-- The range that a segment's header asks for. -/
def range (header : Elf64ProgramHeader) : Word × Word := (header.pVaddr, header.pMemsz)

/-- The addresses that are written for a segment. -/
def written (header : Elf64ProgramHeader) : List Word :=
  Vmm.bytesFrom (max header.pFilesz.toNat header.pMemsz.toNat) header.pVaddr

end Elf64ProgramHeader

namespace Vmm

variable {σ : Type} [FrameAllocator σ] {s s' s'' : Vmm σ} {q : Frame} {virt bytes : Word}

/-- The ranges `ms` are mapped, and bytes are stored at the addresses `vs`. -/
inductive Loaded (q : Frame) : List (Word × Word) → List Word → Vmm σ → Vmm σ → Prop
  | nil (s : Vmm σ) : Loaded q [] [] s s
  | map {virt bytes : Word} {ms : List (Word × Word)} {vs : List Word} {s s1 s' : Vmm σ} :
    s.mapUserPages q virt bytes = some s1 → Loaded q ms vs s1 s' →
      Loaded q ((virt, bytes) :: ms) vs s s'
  | store {us vs : List Word} {ms : List (Word × Word)} {s s1 s' : Vmm σ} :
    Stored q us s s1 → Loaded q ms vs s1 s' → Loaded q ms (us ++ vs) s s'

namespace Loaded

variable {ms ms' : List (Word × Word)} {vs vs' : List Word}

theorem append (h : Loaded q ms vs s s') (h' : Loaded q ms' vs' s' s'') :
    Loaded q (ms ++ ms') (vs ++ vs') s s'' := by
  induction h with
  | nil s => exact h'
  | map hm _ ih => exact .map hm (ih h')
  | store hs _ ih =>
    rw [List.append_assoc]
    exact .store hs (ih h')

theorem of_stored (h : Stored q vs s s') : Loaded q [] vs s s' := by
  have := Loaded.store h (.nil s')
  rwa [append_nil] at this

end Loaded

/-- The pages of a range leave the root through entries in `H`. -/
def RangeIn (H : Idx → Prop) (m : Word × Word) : Prop :=
  ∀ k < (numPages m.1 m.2).toNat, H (pml4Idx (nthPage (pageStart m.1) k))

theorem mapUserPages_from (h : s.mapUserPages q virt bytes = some s') :
    s.mapPagesFrom q (pageUser ||| pageWrite) (numPages virt bytes).toNat (pageStart virt) =
      some s' := mapPages_eq h

/-- The first page of a range is mapped. -/
theorem mapUserPages_covers (h : s.mapUserPages q virt bytes = some s') :
    Covers (pageStart virt) (numPages virt bytes).toNat virt := by
  have hpos : numPages virt bytes ≠ 0 := by
    intro hzero
    unfold mapUserPages mapPages at h
    simp [hzero] at h
  refine ⟨0, Nat.pos_of_ne_zero (fun h0 => hpos (BitVec.eq_of_toNat_eq h0)), ?_⟩
  rw [nthPage_zero, ← BitVec.toNat_inj, toNat_vpn, toNat_vpn, toNat_pageStart]
  omega

namespace Loaded

variable {ms : List (Word × Word)} {vs : List Word} {H : Idx → Prop} {K A : Set Frame}

section

variable (h : Loaded q ms vs s s')

include h

theorem keeps (ho : Owns H q K s) (hms : ∀ m ∈ ms, RangeIn H m)
    (hvs : ∀ v ∈ vs, H (pml4Idx v)) : Keeps H q K s s' := by
  induction h with
  | nil s => exact .refl ho
  | map hm _ ih =>
    have hk := mapPagesFrom_keeps ho (hms _ mem_cons_self) (mapUserPages_from hm)
    exact hk.trans (ih hk.owns (fun m hmem => hms m (mem_cons_of_mem _ hmem)) hvs)
  | store hs _ ih =>
    have hw := hs.writes ho (fun v hv => hvs v (mem_append_left _ hv))
    exact hw.keeps.trans (ih hw.keeps.owns hms (fun v hv => hvs v (mem_append_right _ hv)))

theorem canonical : ∀ v ∈ vs, isCanonical v = true := by
  induction h with
  | nil s => simp
  | map _ _ ih => exact ih
  | store hs _ ih =>
    intro v hv
    rcases mem_append.mp hv with hv | hv
    · exact hs.canonical v hv
    · exact ih v hv

theorem pos : ∀ m ∈ ms, 0 < m.2.toNat := by
  induction h with
  | nil s => simp
  | map hm _ ih =>
    intro m hmem
    rcases mem_cons.mp hmem with rfl | hmem
    · exact mapPages_pos hm
    · exact ih m hmem
  | store _ _ ih => exact ih

theorem covers : ∀ m ∈ ms, Covers (pageStart m.1) (numPages m.1 m.2).toNat m.1 := by
  induction h with
  | nil s => simp
  | map hm _ ih =>
    intro m hmem
    rcases mem_cons.mp hmem with rfl | hmem
    · exact mapUserPages_covers hm
    · exact ih m hmem
  | store _ _ ih => exact ih

end

/-- A page is mapped to a frame outside of `A`. -/
def New (A : Set Frame) (q : Frame) (s : Vmm σ) (v : Word) : Prop :=
  ∃ e, walk s.mem q v = some e ∧ addr e ∉ A

/-- Frames that are allocated stay so, and what is mapped to a new frame is so to the end. -/
theorem new (h : Loaded q ms vs s s') (ho : Owns anyHead q K s) (hA : A ⊆ allocated s.pmm) :
    A ⊆ allocated s'.pmm ∧ (∀ v, New A q s v → New A q s' v) ∧
      ∀ m ∈ ms, ∀ v, Covers (pageStart m.1) (numPages m.1 m.2).toNat v → New A q s' v := by
  induction h with
  | nil s => exact ⟨hA, fun _ hv => hv, by simp⟩
  | @map virt bytes _ _ s s1 _ hm _ ih =>
    have hfrom := mapUserPages_from hm
    have hp := mapPagesFrom_spec ho.tables (fun _ _ => trivial) hfrom
    obtain ⟨hA', hkept, hms⟩ := ih (mapPagesFrom_keeps ho (fun _ _ => trivial) hfrom).owns
      (hA.trans hp.allocated)
    have hnew : ∀ v, Covers (pageStart virt) (numPages virt bytes).toNat v → New A q s1 v := by
      intro v hv
      obtain ⟨e, f, he, hmaps, hf, -⟩ := hp.new v hv
      exact ⟨e, he, fun hin => hf (hA (hmaps.addr ▸ hin))⟩
    refine ⟨hA', fun v hv => hkept v ?_, fun m hmem => ?_⟩
    · by_cases hc : Covers (pageStart virt) (numPages virt bytes).toNat v
      · exact hnew v hc
      · obtain ⟨e, he, hnot⟩ := hv
        exact ⟨e, by rw [hp.other v trivial hc]; exact he, hnot⟩
    · rcases mem_cons.mp hmem with rfl | hmem
      · exact fun v hv => hkept v (hnew v hv)
      · exact hms m hmem
  | store hs _ ih =>
    have hw := hs.writes ho (fun _ _ => trivial)
    obtain ⟨hA', hkept, hms⟩ := ih hw.keeps.owns (by rw [hw.pmm]; exact hA)
    refine ⟨hA', fun v hv => hkept v ?_, hms⟩
    obtain ⟨e, he, hnot⟩ := hv
    exact ⟨e, by rw [hw.walk trivial]; exact he, hnot⟩

end Loaded

/-! ## The loader -/

variable {hb hb' : Word} {header : Elf64ProgramHeader}

/-- The steps of `map_elf64_header`. -/
theorem mapElf64Header_eq_some {fileBuffer : Word}
    (h : s.mapElf64Header q fileBuffer header hb = some (hb', s')) :
    hb' = breakAfter header hb ∧ ∃ s1 s2, s.mapUserPages q header.pVaddr header.pMemsz = some s1 ∧
      s1.memcpy q header.pFilesz.toNat header.pVaddr (fileBuffer + header.pOffset) = some s2 ∧
      s2.zeroRest q header = some s' := by
  obtain ⟨s1, hmap, h⟩ := of_bind h
  obtain ⟨s2, hcopy, h⟩ := of_bind h
  obtain ⟨s3, hset, h⟩ := of_bind h
  cases h
  exact ⟨rfl, s1, s2, hmap, hcopy, hset⟩

omit [FrameAllocator σ] in
theorem written_stored {src : Word}
    (hcopy : s.memcpy q header.pFilesz.toNat header.pVaddr src = some s')
    (hset : s'.zeroRest q header = some s'') : Stored q header.written s s'' := by
  unfold Elf64ProgramHeader.written
  have hcopied := memcpy_stored hcopy
  unfold zeroRest at hset
  split at hset
  · next hlt =>
    have hlt' : header.pFilesz.toNat < header.pMemsz.toNat := hlt
    have hrest := memset_stored hset
    rw [BitVec.toNat_sub_of_le (BitVec.le_of_lt hlt)] at hrest
    rw [Nat.max_eq_right (by omega),
      show header.pMemsz.toNat = header.pFilesz.toNat + (header.pMemsz.toNat - header.pFilesz.toNat)
        by omega, bytesFrom_append, BitVec.ofNat_toNat, BitVec.setWidth_eq]
    exact hcopied.append hrest
  · next hle =>
    have hle' : header.pMemsz.toNat ≤ header.pFilesz.toNat := Nat.le_of_not_lt hle
    cases hset
    rw [Nat.max_eq_left hle']
    exact hcopied

theorem mapElf64Header_loaded {fileBuffer : Word}
    (h : s.mapElf64Header q fileBuffer header hb = some (hb', s')) :
    Loaded q [header.range] header.written s s' := by
  obtain ⟨-, s1, s2, hmap, hcopy, hset⟩ := mapElf64Header_eq_some h
  exact .map hmap (.of_stored (written_stored hcopy hset))

theorem mapElf64Headers_loaded {fileBuffer : Word} {headers : List Elf64ProgramHeader}
    (h : s.mapElf64Headers q fileBuffer headers hb = some (hb', s')) :
    Loaded q (headers.map Elf64ProgramHeader.range) (headers.flatMap Elf64ProgramHeader.written)
      s s' := by
  induction headers generalizing hb s with
  | nil => cases h; exact .nil _
  | cons header headers ih =>
    obtain ⟨⟨hb1, s1⟩, h1, h⟩ := of_bind h
    exact (mapElf64Header_loaded h1).append (ih h)

/-- Blocks of bytes, each one right below the one before. -/
inductive Descends : Word → Word → List Word → Prop
  | nil (stack : Word) : Descends stack stack []
  | cons {stack rsp : Word} {vs : List Word} (n : Nat) :
    Descends (stack - BitVec.ofNat 64 n) rsp vs →
      Descends stack rsp (bytesFrom n (stack - BitVec.ofNat 64 n) ++ vs)

theorem Descends.append {a b c : Word} {vs ws : List Word} (h : Descends a b vs)
    (h' : Descends b c ws) : Descends a c (vs ++ ws) := by
  induction h with
  | nil => exact h'
  | cons n _ ih =>
    rw [List.append_assoc]
    exact .cons n (ih h')

/-- Unless the stores go round past the last address, they are to all addresses down to the end. -/
theorem Descends.mem_iff {a b : Word} {vs : List Word} (h : Descends a b vs)
    (htop : BitVec.allOnes 64 ∉ vs) :
    b.toNat ≤ a.toNat ∧ ∀ v, v ∈ vs ↔ b.toNat ≤ v.toNat ∧ v.toNat < a.toNat := by
  induction h with
  | nil =>
    refine ⟨le_rfl, fun v => ?_⟩
    simp only [not_mem_nil, false_iff]
    omega
  | @cons stack rsp vs n _ ih =>
    have hstack := stack.isLt
    have hn : n ≤ stack.toNat := by
      by_contra hlt
      refine htop (mem_append_left _ (mem_bytesFrom.mpr ⟨n - stack.toNat - 1, by omega, ?_⟩))
      rw [← BitVec.toNat_inj, BitVec.toNat_allOnes, BitVec.toNat_add, BitVec.toNat_sub,
        BitVec.toNat_ofNat, BitVec.toNat_ofNat]
      omega
    have hbase : (stack - .ofNat 64 n).toNat = stack.toNat - n := by
      rw [BitVec.toNat_sub, BitVec.toNat_ofNat]
      omega
    have hblock : ∀ v, v ∈ bytesFrom n (stack - .ofNat 64 n) ↔
        stack.toNat - n ≤ v.toNat ∧ v.toNat < stack.toNat := by
      intro v
      have := v.isLt
      rw [mem_bytesFrom]
      constructor
      · rintro ⟨k, hk, rfl⟩
        rw [BitVec.toNat_add, hbase, BitVec.toNat_ofNat]
        omega
      · rintro ⟨hlo, hhi⟩
        refine ⟨v.toNat - (stack.toNat - n), by omega, BitVec.eq_of_toNat_eq ?_⟩
        rw [BitVec.toNat_add, hbase, BitVec.toNat_ofNat]
        omega
    obtain ⟨hle, hrest⟩ := ih (fun hm => htop (mem_append_right _ hm))
    refine ⟨by omega, fun v => ?_⟩
    rw [mem_append, hblock, hrest, hbase]
    omega

/-- Fewer bytes than there are below the first block do not go round. -/
theorem Descends.top_notMem {a b : Word} {vs : List Word} (h : Descends a b vs)
    (hlen : vs.length ≤ a.toNat) : BitVec.allOnes 64 ∉ vs := by
  induction h with
  | nil => exact not_mem_nil
  | @cons stack rsp vs n _ ih =>
    have hstack := stack.isLt
    rw [length_append, length_bytesFrom] at hlen
    have hbase : (stack - .ofNat 64 n).toNat = stack.toNat - n := by
      rw [BitVec.toNat_sub, BitVec.toNat_ofNat]
      omega
    rw [List.mem_append, not_or]
    refine ⟨fun hm => ?_, ih (by omega)⟩
    obtain ⟨k, hk, heq⟩ := mem_bytesFrom.mp hm
    rw [← BitVec.toNat_inj, BitVec.toNat_allOnes, BitVec.toNat_add, hbase,
      BitVec.toNat_ofNat] at heq
    omega

/-- Stores on the stack. -/
def Pushed (q : Frame) (stack rsp : Word) (s s' : Vmm σ) : Prop :=
  ∃ vs, Descends stack rsp vs ∧ Stored q vs s s'

/-- Stores of `n` bytes on the stack. -/
def Pushes (q : Frame) (n : Nat) (stack rsp : Word) (s s' : Vmm σ) : Prop :=
  ∃ vs, vs.length = n ∧ Descends stack rsp vs ∧ Stored q vs s s'

/-- The bytes that strings take, with their terminators. -/
def stringBytes (strs : List (List Byte)) : Nat := (strs.map (fun str => str.length + 1)).sum

theorem stringBytes_cons (str : List Byte) (strs : List (List Byte)) :
    stringBytes (str :: strs) = str.length + 1 + stringBytes strs := sum_cons

/-- The bytes between the top of the stack and the pointer that a program starts with. -/
def stackBytes (argvStrs envpStrs : List (List Byte)) : Nat :=
  48 + stringBytes envpStrs + stringBytes argvStrs + 8 * (envpStrs.length + argvStrs.length)

section Pushes

variable {a b c : Word} {m n : Nat} {argvStrs envpStrs : List (List Byte)} {rsp : Word}

section

omit [FrameAllocator σ]

theorem Pushes.pushed (h : Pushes q n a b s s') : Pushed q a b s s' := by
  obtain ⟨vs, -, hd, hs⟩ := h
  exact ⟨vs, hd, hs⟩

theorem Pushes.refl (q : Frame) (a : Word) (s : Vmm σ) : Pushes q 0 a a s s :=
  ⟨[], rfl, .nil a, .nil s⟩

theorem Pushes.trans (h : Pushes q m a b s s') (h' : Pushes q n b c s' s'') :
    Pushes q (m + n) a c s s'' := by
  obtain ⟨vs, hvs, hd, hs⟩ := h
  obtain ⟨ws, hws, hd', hs'⟩ := h'
  exact ⟨vs ++ ws, by rw [length_append, hvs, hws], hd.append hd', hs.append hs'⟩

theorem Pushes.block (h : Stored q (bytesFrom n (a - BitVec.ofNat 64 n)) s s') :
    Pushes q n a (a - .ofNat 64 n) s s' := by
  refine ⟨_, ?_, .cons n (.nil _), ?_⟩
  · rw [append_nil, length_bytesFrom]
  · rwa [append_nil]

theorem push_pushes {value : Word} (h : s.push q value a = some (b, s')) : Pushes q 8 a b s s' := by
  obtain ⟨s1, hs, h⟩ := of_bind h
  cases h
  exact .block (n := 8) (storeBytes_stored hs)

theorem pushAll_pushes {values : List Word} (h : s.pushAll q values a = some (b, s')) :
    Pushes q (8 * values.length) a b s s' := by
  induction values generalizing a s with
  | nil => cases h; exact .refl q _ _
  | cons value values ih =>
    obtain ⟨⟨a1, s1⟩, h1, h⟩ := of_bind h
    rw [length_cons, Nat.mul_succ, Nat.add_comm]
    exact (push_pushes h1).trans (ih h)

theorem pushString_pushes {str : List Byte} (h : s.pushString q str a = some (b, s')) :
    Pushes q (str.length + 1) a b s s' := by
  obtain ⟨s1, hs, h⟩ := of_bind h
  obtain ⟨s2, hz, h⟩ := of_bind h
  cases h
  apply Pushes.block (n := str.length + 1)
  rw [bytesFrom_append]
  exact (storeBytes_stored hs).append (.cons hz (.nil _))

theorem pushStrings_pushes {strs : List (List Byte)} {ptrs ptrs' : List Word}
    (h : s.pushStrings q strs ptrs a = some (ptrs', b, s')) :
    Pushes q (stringBytes strs) a b s s' ∧ ptrs'.length = ptrs.length + strs.length := by
  induction strs generalizing ptrs a s with
  | nil => cases h; exact ⟨.refl q _ _, rfl⟩
  | cons str strs ih =>
    obtain ⟨⟨a1, s1⟩, h1, h⟩ := of_bind h
    obtain ⟨hp, hlen⟩ := ih h
    rw [stringBytes_cons, hlen, length_append, length_singleton, length_cons]
    exact ⟨(pushString_pushes h1).trans hp, by omega⟩

end

section

variable (h : s.buildUserStack q argvStrs envpStrs = some (rsp, s'))

include h

theorem buildUserStack_pushes : ∃ s1, s.mapUserPages q userStackBase userStackSize = some s1 ∧
      Pushes q (stackBytes argvStrs envpStrs) userStackTop rsp s1 s' := by
  obtain ⟨s1, hmap, h⟩ := of_bind h
  obtain ⟨⟨a2, s2⟩, h2, h⟩ := of_bind h
  obtain ⟨⟨ps3, a3, s3⟩, h3, h⟩ := of_bind h
  obtain ⟨⟨ps4, a4, s4⟩, h4, h⟩ := of_bind h
  obtain ⟨⟨a5, s5⟩, h5, h⟩ := of_bind h
  obtain ⟨⟨a6, s6⟩, h6, h⟩ := of_bind h
  obtain ⟨⟨a7, s7⟩, h7, h⟩ := of_bind h
  obtain ⟨⟨a8, s8⟩, h8, h⟩ := of_bind h
  obtain ⟨⟨a9, s9⟩, h9, h⟩ := of_bind h
  obtain ⟨p3, l3⟩ := pushStrings_pushes h3
  obtain ⟨p4, l4⟩ := pushStrings_pushes h4
  have hstrings := ((push_pushes h2).trans p3).trans p4
  have hnulls := ((pushAll_pushes h5).trans (push_pushes h6)).trans (pushAll_pushes h7)
  have hptrs := ((push_pushes h8).trans (pushAll_pushes h9)).trans (push_pushes h)
  refine ⟨s1, hmap, ?_⟩
  convert (hstrings.trans hnulls).trans hptrs using 1
  simp only [stackBytes, length_reverse, length_cons, length_nil, l4, l3]
  omega

theorem buildUserStack_pushed : ∃ s1, s.mapUserPages q userStackBase userStackSize = some s1 ∧
      Pushed q userStackTop rsp s1 s' := by
  obtain ⟨s1, hmap, hp⟩ := buildUserStack_pushes h
  exact ⟨s1, hmap, hp.pushed⟩

end

end Pushes

/-! ## `exec_elf64` -/

/-- The stages of `exec_elf64`: a new root, the tables of its heap, the segments, and the stack. -/
structure ExecStages (fileBuffer : Word) (argvStrs envpStrs : List (List Byte)) (old : Option Frame)
    (file : Elf64File) (q : Frame) (image : Process.ExecImage) (s s1 s2 s3 s' : Vmm σ) : Prop where
  pml4 : image.pml4 = q
  create : (s.freeOldPml4 old).createUserPml4 = some (q, s1)
  heap : s1.createUserHeap q = some (image.uheap, s2)
  segments : s2.mapElf64Headers q fileBuffer file.programHeaders 0 = some (image.heapBreak, s3)
  stack : s3.buildUserStack q argvStrs envpStrs = some (image.userRsp, s')

theorem execElf64_eq_some {cr3 : Frame} {kernelStack fileBuffer : Word}
    {argvStrs envpStrs : List (List Byte)} {p p' : Process}
    (h : s.execElf64 cr3 kernelStack fileBuffer argvStrs envpStrs p = some (p', s')) :
    ∃ file q image s1 s2 s3, Elf.parseFile (fun v => s.loadByte cr3 v) fileBuffer = some file ∧
      file.isValidElf = true ∧ p' = p.execReset image ∧
      ExecStages fileBuffer argvStrs envpStrs p.pml4 file q image s s1 s2 s3 s' := by
  obtain ⟨file, hparse, h⟩ := of_bind h
  split at h
  · cases h
  · next hvalid =>
    obtain ⟨⟨q, s1⟩, hcreate, h⟩ := of_bind h
    obtain ⟨⟨uheap, s2⟩, hheap, h⟩ := of_bind h
    obtain ⟨⟨hb, s3⟩, hseg, h⟩ := of_bind h
    obtain ⟨⟨rsp, s4⟩, hstack, h⟩ := of_bind h
    cases h
    exact ⟨file, q, _, s1, s2, s3, hparse, by simpa using hvalid, rfl, rfl, hcreate, hheap, hseg,
      hstack⟩

namespace ExecStages

variable {fileBuffer : Word} {argvStrs envpStrs : List (List Byte)} {old : Option Frame}
  {file : Elf64File} {image : Process.ExecImage} {s1 s2 s3 : Vmm σ}

/-- All that happens in the new address space. -/
theorem loaded (h : ExecStages fileBuffer argvStrs envpStrs old file q image s s1 s2 s3 s') :
    ∃ vs, Loaded q (file.programHeaders.map Elf64ProgramHeader.range ++
      [(userStackBase, userStackSize)])
      (file.programHeaders.flatMap Elf64ProgramHeader.written ++ vs) s2 s' := by
  obtain ⟨s4, hmap, vs, -, hs⟩ := buildUserStack_pushed h.stack
  exact ⟨vs, (mapElf64Headers_loaded h.segments).append (.map hmap (.of_stored hs))⟩

end ExecStages

section

variable (hpos : 0 < header.pMemsz.toNat) (hc : ∀ v ∈ header.written, isCanonical v = true)

include hpos hc

/-- The addresses that are written for a segment are canonical, so that it does not leave its half.
-/
theorem written_fit : header.pVaddr.toNat + max header.pFilesz.toNat header.pMemsz.toNat ≤ 2 ^ 47 ∨
      2 ^ 64 - 2 ^ 47 ≤ header.pVaddr.toNat := by
  have hbyte : ∀ k < max header.pFilesz.toNat header.pMemsz.toNat,
      isCanonical (header.pVaddr + .ofNat 64 k) = true :=
    fun k hk => hc _ (mem_bytesFrom.mpr ⟨k, hk, rfl⟩)
  have hvaddr := header.pVaddr.isLt
  simp only [isCanonical, Bool.or_eq_true, decide_eq_true_eq, BitVec.toNat_add,
    BitVec.toNat_ofNat] at hbyte
  rcases hbyte 0 (by omega) with hlow | hhigh
  · left
    by_contra hlt
    -- the first address that is not canonical would have been written
    rcases hbyte (2 ^ 47 - header.pVaddr.toNat) (by omega) with h | h <;> omega
  · right
    omega

/-- A segment that begins in the lower half stays in it. -/
theorem written_low (hlow : header.pVaddr.toNat < 2 ^ 47) :
    header.pVaddr.toNat + header.pMemsz.toNat ≤ 2 ^ 47 ∧ ∀ v ∈ header.written,
      v.toNat < 2 ^ 47 := by
  have hfit := (written_fit hpos hc).resolve_right (by omega)
  refine ⟨by omega, fun v hv => ?_⟩
  obtain ⟨k, hk, rfl⟩ := mem_bytesFrom.mp hv
  rw [BitVec.toNat_add, BitVec.toNat_ofNat]
  omega

end

end Vmm

end Hltos
