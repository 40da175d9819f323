import Hltos.Lib.ByteMemory
import Hltos.Memory.Pages
import Hltos.Process.Elf

/-!
# What `parse_file` reads

A file lies in a buffer, with other memory around it. `parse_file` stays inside if it comes to the
same result where only the bytes of the file can be read. Nothing is compared with `size`, so
whether it stays inside is a matter of what the headers say.
-/

namespace Hltos

open BitVec Option

open Lib.ByteMemory (Mem Within)
open Vmm (pageSize pageStart pageEnd numPages toNat_pageSize toNat_pageStart
  toNat_pageAlign succ_add)

namespace Elf

variable {m : Mem} {buffer size : Word} {n : Nat} {w off : Word} {k len : Nat}
  {header : Elf64ProgramHeader} {file : Elf64File}

/-! ## Fields -/

/-- All of the memory can be read. -/
def memRead (m : Mem) (v : Word) : Option Byte := some (m v)

/-- Only the file can be read. -/
def fileRead (m : Mem) (buffer size : Word) (v : Word) : Option Byte :=
  if (v - buffer).toNat < size.toNat then some (m v) else none

theorem fileRead_below (v : Word) : Below (fileRead m buffer size v) (memRead m v) := by
  unfold fileRead
  split
  · exact .refl _
  · exact fun _ h => nomatch h

/-- An unsigned field of `n` bytes. -/
def field (m : Mem) : Nat → Word → Word
  | 0, _ => 0
  | n + 1, a => (m a).setWidth 64 ||| (field m n (a + 1) <<< 8)

theorem readField_memRead (n : Nat) (a : Word) :
    readField (memRead m) n a = some (field m n a) := by
  induction n generalizing a with
  | zero => rfl
  | succ n ih =>
    rw [readField, ih]
    rfl

/-- A field can be read if all of it is in the file. A field that wraps around is not: it holds the
last address before `buffer`. -/
theorem readField_fileRead (off : Word) :
    readField (fileRead m buffer size) (n + 1) (buffer + off) =
    if off.toNat + (n + 1) ≤ size.toNat then some (field m (n + 1) (buffer + off)) else none := by
  have hsize := size.isLt
  have hoff := off.isLt
  have hsub (x : Word) : buffer + x - buffer = x := by rw [BitVec.add_comm, BitVec.add_sub_cancel]
  induction n generalizing off with
  | zero =>
    rw [readField, fileRead, hsub]
    by_cases hin : off.toNat < size.toNat
    · rw [if_pos hin, if_pos (by omega)]
      rfl
    · rw [if_neg hin, if_neg (by omega)]
      rfl
  | succ n ih =>
    rw [readField, BitVec.add_assoc, ih _ (off + 1).isLt, fileRead, hsub]
    have hnext : (off + 1).toNat = (off.toNat + 1) % 2 ^ 64 := by rfl
    by_cases hin : off.toNat + (n + 1 + 1) ≤ size.toNat
    · rw [if_pos (by omega), if_pos (by omega), if_pos hin, ← BitVec.add_assoc]
      rfl
    · rw [if_neg hin]
      by_cases hfirst : off.toNat < size.toNat
      · rw [if_pos hfirst, if_neg (by omega)]
        rfl
      · rw [if_neg hfirst]
        rfl

theorem readField_fileRead_iff :
    readField (fileRead m buffer size) (n + 1) (buffer + off) = some w ↔
    off.toNat + (n + 1) ≤ size.toNat ∧ field m (n + 1) (buffer + off) = w := by
  rw [readField_fileRead]
  split
  · next hin => simp [hin]
  · next hin => simp [hin]

/-- The `Elf64_ProgramHeader` at an address. -/
def headerAt (m : Mem) (a : Word) : Elf64ProgramHeader where
  pType := field m 4 a
  pFlags := field m 4 (a + 4)
  pOffset := field m 8 (a + 8)
  pVaddr := field m 8 (a + 16)
  pPaddr := field m 8 (a + 24)
  pFilesz := field m 8 (a + 32)
  pMemsz := field m 8 (a + 40)
  pAlign := field m 8 (a + 48)

theorem readProgramHeader_memRead (a : Word) :
    readProgramHeader (memRead m) a = some (headerAt m a) := by
  rfl

/-- A field inside a block that is in the file. -/
theorem readField_inside (hfit : off.toNat + len ≤ size.toNat) (k n : Nat)
    (hk : k + (n + 1) ≤ len) : readField (fileRead m buffer size) (n + 1)
      (buffer + off + .ofNat 64 k) = some (field m (n + 1) (buffer + off + .ofNat 64 k)) := by
  have hsize := size.isLt
  have hadd : (off + .ofNat 64 k).toNat = off.toNat + k := by
    rw [BitVec.toNat_add, BitVec.toNat_ofNat]
    omega
  rw [BitVec.add_assoc, readField_fileRead, if_pos (by omega)]

/-- A field right behind others that are in the file. -/
theorem fit_of_readField (hfit : off.toNat + k ≤ size.toNat)
    (h : readField (fileRead m buffer size) (n + 1) (buffer + off + .ofNat 64 k) = some w) :
    off.toNat + (k + (n + 1)) ≤ size.toNat := by
  have hsize := size.isLt
  rw [BitVec.add_assoc, readField_fileRead_iff, BitVec.toNat_add, BitVec.toNat_ofNat] at h
  omega

theorem bind_of_eq {α β : Type} {x : Option α} {f : α → Option β} {a : α} {b : β} (hx : x = some a)
    (hf : f a = some b) : x >>= f = some b := bind_eq_some_iff.mpr ⟨a, hx, hf⟩

theorem readProgramHeader_fileRead_iff (hoff : off.toNat + 4 ≤ size.toNat) :
    readProgramHeader (fileRead m buffer size) (buffer + off) = some header ↔
      off.toNat + 56 ≤ size.toNat ∧ headerAt m (buffer + off) = header := by
  constructor
  · intro h
    have hmem : Below (readProgramHeader (fileRead m buffer size) (buffer + off))
        (readProgramHeader (memRead m) (buffer + off)) := readProgramHeader_mono fileRead_below _
    refine ⟨?_, some.inj ((readProgramHeader_memRead _).symm.trans (hmem _ h))⟩
    simp only [readProgramHeader, bind_eq_bind, bind_eq_some_iff] at h
    obtain ⟨-, -, _, h4, _, h8, _, h16, _, h24, _, h32, _, h40, _, h48, -⟩ := h
    exact fit_of_readField (fit_of_readField (fit_of_readField (fit_of_readField (fit_of_readField
      (fit_of_readField (fit_of_readField hoff h4) h8) h16) h24) h32) h40) h48
  · rintro ⟨hfit, rfl⟩
    have hfirst : readField (fileRead m buffer size) 4 (buffer + off) =
      some (field m 4 (buffer + off)) := (readField_fileRead off).trans (if_pos hoff)
    exact bind_of_eq hfirst <| bind_of_eq (readField_inside hfit 4 3 (by decide)) <|
      bind_of_eq (readField_inside hfit 8 7 (by decide)) <|
        bind_of_eq (readField_inside hfit 16 7 (by decide)) <|
      bind_of_eq (readField_inside hfit 24 7 (by decide)) <|
        bind_of_eq (readField_inside hfit 32 7 (by decide)) <|
      bind_of_eq (readField_inside hfit 40 7 (by decide)) <|
        bind_of_eq (readField_inside hfit 48 7 (by decide)) rfl

/-! ## The program headers -/

/-- Where the `i`-th program header is, from the beginning of the file on. -/
def headerOff (m : Mem) (buffer i : Word) : Word :=
  field m 8 (buffer + 32) + i * field m 2 (buffer + 54)

/-- The headers to be loaded, of `n` from the `i`-th on. -/
def loaded (m : Mem) (buffer : Word) : Nat → Word → List Elf64ProgramHeader
  | 0, _ => []
  | n + 1, i =>
    if field m 4 (buffer + headerOff m buffer i) ≠ ptLoad then loaded m buffer n (i + 1)
    else headerAt m (buffer + headerOff m buffer i) :: loaded m buffer n (i + 1)

/-- What the loop reads of the `i`-th header is in the file. -/
def HeaderFits (m : Mem) (buffer size i : Word) : Prop :=
  (headerOff m buffer i).toNat + 4 ≤ size.toNat ∧
    (field m 4 (buffer + headerOff m buffer i) = ptLoad →
      (headerOff m buffer i).toNat + 56 ≤ size.toNat)

theorem mem_loaded {i : Word} : header ∈ loaded m buffer n i ↔
    ∃ k < n, field m 4 (buffer + headerOff m buffer (i + .ofNat 64 k)) = ptLoad ∧
      headerAt m (buffer + headerOff m buffer (i + .ofNat 64 k)) = header := by
  induction n generalizing i with
  | zero => simp [loaded]
  | succ n ih =>
    have hzero : i + .ofNat 64 0 = i := BitVec.add_zero i
    have hrest : (∃ k < n, field m 4 (buffer + headerOff m buffer (i + 1 + .ofNat 64 k)) = ptLoad ∧
        headerAt m (buffer + headerOff m buffer (i + 1 + .ofNat 64 k)) = header) ↔
        ∃ k < n, field m 4 (buffer + headerOff m buffer (i + .ofNat 64 (k + 1))) = ptLoad ∧
          headerAt m (buffer + headerOff m buffer (i + .ofNat 64 (k + 1))) = header := by
      simp only [succ_add]
    rw [Nat.exists_lt_succ_left, hzero, ← hrest, ← ih, loaded]
    split
    · next hne => simp [hne]
    · next heq => simp [not_not.mp heq, eq_comm]

theorem loadHeaders_memRead (n : Nat) (i : Word) :
    loadHeaders (memRead m) buffer n i = some (loaded m buffer n i) := by
  induction n generalizing i with
  | zero => rfl
  | succ n ih =>
    have haddr : buffer + field m 8 (buffer + 32) + i * field m 2 (buffer + 54) =
      buffer + headerOff m buffer i := BitVec.add_assoc _ _ _
    simp only [loadHeaders, ePhoff, ePhentsize, readField_memRead, bind_eq_bind, bind_some, haddr,
      readProgramHeader_memRead, ih, loaded]
    split <;> rfl

/-- A field of the file's own header. -/
theorem readField_header (hsize : 58 ≤ size.toNat) (k n : Nat) (hk : k + (n + 1) ≤ 58) :
    readField (fileRead m buffer size) (n + 1) (buffer + .ofNat 64 k) =
      some (field m (n + 1) (buffer + .ofNat 64 k)) := by
  have hnat : (BitVec.ofNat 64 k).toNat = k := by
    rw [toNat_ofNat]
    omega
  rw [readField_fileRead, if_pos (by omega)]

/-- The loop over the headers returns exactly if they are in the file. -/
theorem loadHeaders_fileRead_isSome (m : Mem) (buffer : Word) (hsize : 58 ≤ size.toNat)
    (n : Nat) (i : Word) :
    (∃ headers, loadHeaders (fileRead m buffer size) buffer n i = some headers) ↔
      ∀ k < n, HeaderFits m buffer size (i + .ofNat 64 k) := by
  induction n generalizing i with
  | zero => simp [loadHeaders]
  | succ n ih =>
    have hphoff : ePhoff (fileRead m buffer size) buffer = some (field m 8 (buffer + 32)) :=
      readField_header hsize 32 7 (by decide)
    have hphentsize : ePhentsize (fileRead m buffer size) buffer = some (field m 2 (buffer + 54)) :=
      readField_header hsize 54 1 (by decide)
    have haddr : buffer + field m 8 (buffer + 32) + i * field m 2 (buffer + 54) =
      buffer + headerOff m buffer i := BitVec.add_assoc _ _ _
    have hrest : (∀ k < n, HeaderFits m buffer size (i + .ofNat 64 (k + 1))) ↔
        ∃ headers, loadHeaders (fileRead m buffer size) buffer n (i + 1) = some headers := by
      rw [ih]
      simp only [succ_add]
    rw [Nat.forall_lt_succ_left, hrest, show i + .ofNat 64 0 = i from BitVec.add_zero i]
    simp only [loadHeaders, hphoff, hphentsize, haddr, bind_eq_bind, bind_some]
    by_cases hfit : (headerOff m buffer i).toNat + 4 ≤ size.toNat
    · have htype : readField (fileRead m buffer size) 4 (buffer + headerOff m buffer i) =
          some (field m 4 (buffer + headerOff m buffer i)) :=
            (readField_fileRead _).trans (if_pos hfit)
      simp only [htype, bind_some]
      by_cases hload : field m 4 (buffer + headerOff m buffer i) = ptLoad
      · rw [if_neg (not_not.mpr hload)]
        constructor
        · rintro ⟨headers, hrun⟩
          obtain ⟨header, hheader, hrun⟩ := of_bind hrun
          obtain ⟨headers', hheaders, -⟩ := of_bind hrun
          exact ⟨⟨hfit, fun _ => ((readProgramHeader_fileRead_iff hfit).mp hheader).1⟩,
            headers', hheaders⟩
        · rintro ⟨⟨-, hwhole⟩, headers, hheaders⟩
          have hheader : readProgramHeader (fileRead m buffer size)
            (buffer + headerOff m buffer i) = some (headerAt m (buffer + headerOff m buffer i)) :=
            (readProgramHeader_fileRead_iff hfit).mpr ⟨hwhole hload, rfl⟩
          exact ⟨_, bind_of_eq hheader (bind_of_eq hheaders rfl)⟩
      · simp [HeaderFits, hfit, hload]
    · have htype : readField (fileRead m buffer size) 4 (buffer + headerOff m buffer i) = none :=
        (readField_fileRead _).trans (if_neg hfit)
      simp [htype, HeaderFits, hfit]

/-! ## The file -/

theorem parseFile_memRead_iff : parseFile (memRead m) buffer = some file ↔
    buffer ≠ 0 ∧ validateMagic (memRead m) buffer = some true ∧
      validateClass (memRead m) buffer = some true ∧
      validateMachine (memRead m) buffer = some true ∧ validateType (memRead m) buffer = some true ∧
      file = ⟨!(loaded m buffer (field m 2 (buffer + 56)).toNat 0).isEmpty, field m 8 (buffer + 24),
        loaded m buffer (field m 2 (buffer + 56)).toNat 0⟩ := by
  simp only [parseFile, bind_eq_bind, ite_none_left_eq_some, bind_eq_some_iff, eEntry, ePhnum,
    readField_memRead, loadHeaders_memRead, pure_def, some.injEq]
  constructor
  · rintro ⟨hnull, magic, hmagic, h1, cls, hclass, h2, machine, hmachine, h3,
      type, htype, h4, _, rfl, _, rfl, _, rfl, rfl⟩
    simp only [Bool.not_eq_true, Bool.not_eq_false'] at h1 h2 h3 h4
    subst h1 h2 h3 h4
    exact ⟨hnull, hmagic, hclass, hmachine, htype, rfl⟩
  · rintro ⟨hnull, hmagic, hclass, hmachine, htype, rfl⟩
    exact ⟨hnull, true, hmagic, by decide, true, hclass, by decide, true, hmachine,
      by decide, true, htype, by decide, _, rfl, _, rfl, _, rfl, rfl⟩

section

variable (m : Mem) (buffer : Word) (hsize : 58 ≤ size.toNat)

include hsize

theorem fileRead_header (hk : k < 58) :
    fileRead m buffer size (buffer + .ofNat 64 k) = memRead m (buffer + .ofNat 64 k) := by
  have hsub : (buffer + .ofNat 64 k - buffer).toNat = k := by
    rw [BitVec.add_comm, BitVec.add_sub_cancel, BitVec.toNat_ofNat]
    omega
  rw [fileRead, if_pos (by omega), memRead]

/-- The checks of the file's own header read the first 58 bytes. -/
theorem validate_fileRead :
    validateMagic (fileRead m buffer size) buffer = validateMagic (memRead m) buffer ∧
      validateClass (fileRead m buffer size) buffer = validateClass (memRead m) buffer ∧
      validateMachine (fileRead m buffer size) buffer = validateMachine (memRead m) buffer ∧
      validateType (fileRead m buffer size) buffer = validateType (memRead m) buffer := by
  have hbyte {k : Nat} (hk : k < 58) := fileRead_header m buffer hsize hk
  have h0 : fileRead m buffer size buffer = memRead m buffer := by
    have hfirst := hbyte (k := 0) (by decide)
    rwa [show buffer + .ofNat 64 0 = buffer from BitVec.add_zero buffer] at hfirst
  have h1 : fileRead m buffer size (buffer + 1) = memRead m (buffer + 1) :=
    hbyte (k := 1) (by decide)
  have h2 : fileRead m buffer size (buffer + 2) = memRead m (buffer + 2) :=
    hbyte (k := 2) (by decide)
  have h3 : fileRead m buffer size (buffer + 3) = memRead m (buffer + 3) :=
    hbyte (k := 3) (by decide)
  have h4 : fileRead m buffer size (buffer + 4) = memRead m (buffer + 4) :=
    hbyte (k := 4) (by decide)
  have h16 : readField (fileRead m buffer size) 2 (buffer + 16) = some (field m 2 (buffer + 16)) :=
    readField_header hsize 16 1 (by decide)
  have h18 : readField (fileRead m buffer size) 2 (buffer + 18) = some (field m 2 (buffer + 18)) :=
    readField_header hsize 18 1 (by decide)
  refine ⟨?_, ?_, ?_, ?_⟩
  · rw [validateMagic, validateMagic, h0, h1, h2, h3]
  · rw [validateClass, validateClass, h4]
  · rw [validateMachine, validateMachine, h18, readField_memRead]
  · rw [validateType, validateType, h16, readField_memRead]

end

/-- The file is parsed without a look outside exactly if all that is read is in it. -/
theorem parseFile_fileRead_iff (h : parseFile (memRead m) buffer = some file) :
    parseFile (fileRead m buffer size) buffer = some file ↔
      58 ≤ size.toNat ∧ ∀ k < (field m 2 (buffer + 56)).toNat,
        HeaderFits m buffer size (.ofNat 64 k) := by
  have hzero (k : Nat) : (0 : Word) + .ofNat 64 k = .ofNat 64 k := BitVec.zero_add _
  constructor
  · intro hrun
    simp only [parseFile, bind_eq_bind, ite_none_left_eq_some, bind_eq_some_iff] at hrun
    obtain ⟨-, -, -, -, -, -, -, -, -, -, -, -, -, -, -, num, hnum, headers, hheaders, -⟩ := hrun
    obtain ⟨hsize, rfl⟩ := readField_fileRead_iff.mp hnum
    refine ⟨hsize, fun k hk => ?_⟩
    have hfits := (loadHeaders_fileRead_isSome m buffer hsize _ _).mp ⟨headers, hheaders⟩ k hk
    rwa [hzero] at hfits
  · rintro ⟨hsize, hfits⟩
    obtain ⟨hnull, hmagic, hclass, hmachine, htype, -⟩ := parseFile_memRead_iff.mp h
    obtain ⟨hmagic', hclass', hmachine', htype'⟩ := validate_fileRead m buffer hsize
    rw [← hmagic'] at hmagic
    rw [← hclass'] at hclass
    rw [← hmachine'] at hmachine
    rw [← htype'] at htype
    obtain ⟨headers, hheaders⟩ := (loadHeaders_fileRead_isSome m buffer hsize
      (field m 2 (buffer + 56)).toNat 0).mpr (fun k hk => by rw [hzero]; exact hfits k hk)
    have hentry : eEntry (fileRead m buffer size) buffer = some (field m 8 (buffer + 24)) :=
      readField_header hsize 24 7 (by decide)
    have hnum : ePhnum (fileRead m buffer size) buffer = some (field m 2 (buffer + 56)) :=
      readField_header hsize 56 1 (by decide)
    have hrun : parseFile (fileRead m buffer size) buffer =
        some ⟨!headers.isEmpty, field m 8 (buffer + 24), headers⟩ := by
      simp only [parseFile, if_neg hnull, hmagic, hclass, hmachine, htype, hentry,
        hnum, hheaders, bind_eq_bind, bind_some]
      rfl
    rw [hrun, ← h]
    exact (parseFile_mono fileRead_below buffer _ hrun).symm

/-! ## The segments -/

/-- The assertions of `map_pages` hold, so that the copy is made. -/
def Maps (header : Elf64ProgramHeader) : Prop :=
  header.pMemsz ≠ 0 ∧ pageStart header.pVaddr < pageEnd header.pVaddr header.pMemsz ∧
    numPages header.pVaddr header.pMemsz ≠ 0

/-- The copy of `map_elf64_header` takes bytes of the file only, and puts them into the pages of the
segment. -/
structure SegmentInside (size : Word) (header : Elf64ProgramHeader) : Prop where
  source : header.pOffset.toNat + header.pFilesz.toNat ≤ size.toNat
  sizes : header.pFilesz.toNat ≤ header.pMemsz.toNat
  dest : Maps header → ∀ k < header.pFilesz.toNat, Within (pageStart header.pVaddr)
    (4096 * (numPages header.pVaddr header.pMemsz).toNat) (header.pVaddr + BitVec.ofNat 64 k)

/-- The fields of a program header are within bounds. Where `p_memsz` is so large that the number of
pages wraps around to one, the bytes of the file have to end in that page; in the last page of the
address space `map_pages` panics. -/
def SegmentFits (size : Word) (header : Elf64ProgramHeader) : Prop :=
  header.pOffset.toNat + header.pFilesz.toNat ≤ size.toNat ∧
    header.pFilesz.toNat ≤ header.pMemsz.toNat ∧
    (header.pVaddr.toNat % 4096 + header.pMemsz.toNat ≤ 2 ^ 64 ∨
      header.pVaddr.toNat % 4096 + header.pFilesz.toNat ≤ 4096 ∨
        2 ^ 64 - 4096 ≤ header.pVaddr.toNat)

theorem toNat_pageEnd_mod (v b : Word) :
    (pageEnd v b).toNat = (v.toNat + b.toNat + 4095) % 2 ^ 64 / 4096 * 4096 := by
  have hsum : (v + b + pageSize - 1).toNat = (v.toNat + b.toNat + 4095) % 2 ^ 64 := by
    rw [toNat_sub, toNat_add, toNat_add, toNat_pageSize, show (1 : Word).toNat = 1 from rfl]
    omega
  rw [pageEnd, ← hsum]
  exact toNat_pageAlign _

theorem toNat_numPages_mod (v b : Word) :
    (numPages v b).toNat = (v.toNat % 4096 + b.toNat + 4095) % 2 ^ 64 / 4096 := by
  have hv := v.isLt
  have hb := b.isLt
  rw [numPages, toNat_udiv, toNat_sub, toNat_pageEnd_mod, toNat_pageStart, toNat_pageSize]
  omega

theorem within_pages_iff {v : Word} :
    Within (pageStart v) len (v + .ofNat 64 k) ↔ (v.toNat % 4096 + k) % 2 ^ 64 < len := by
  have hv := v.isLt
  rw [Within, toNat_sub, toNat_add, toNat_ofNat, toNat_pageStart]
  have hsame : (2 ^ 64 - v.toNat / 4096 * 4096 + (v.toNat + k % 2 ^ 64) % 2 ^ 64) % 2 ^ 64 =
      (v.toNat % 4096 + k) % 2 ^ 64 := by omega
  rw [hsame]

/-- A segment is loaded from inside the file exactly if its fields fit. -/
theorem segmentInside_iff : SegmentInside size header ↔ SegmentFits size header := by
  have hv := header.pVaddr.isLt
  have hmemsz := header.pMemsz.isLt
  have hfilesz := header.pFilesz.isLt
  have hnum := toNat_numPages_mod header.pVaddr header.pMemsz
  constructor
  · rintro ⟨hsource, hsizes, hdest⟩
    refine ⟨hsource, hsizes, ?_⟩
    by_contra hneg
    push Not at hneg
    obtain ⟨hwrap, hover, hlast⟩ := hneg
    -- one page is mapped, and the copy goes on behind it
    have hone : (numPages header.pVaddr header.pMemsz).toNat = 1 := by omega
    have hmaps : Maps header := by
      refine ⟨?_, ?_, ?_⟩
      · rintro hzero
        rw [hzero, show (0 : Word).toNat = 0 from rfl] at hwrap
        omega
      · rw [lt_def, toNat_pageStart, toNat_pageEnd_mod]
        omega
      · rintro hzero
        rw [hzero] at hone
        exact absurd hone (by decide)
    have hbehind := hdest hmaps (4096 - header.pVaddr.toNat % 4096) (by omega)
    rw [within_pages_iff, hone] at hbehind
    omega
  · rintro ⟨hsource, hsizes, hpages⟩
    refine ⟨hsource, hsizes, fun hmaps k hk => ?_⟩
    rw [within_pages_iff, hnum]
    have hpos : (numPages header.pVaddr header.pMemsz).toNat ≠ 0 := fun hzero =>
      hmaps.2.2 (eq_of_toNat_eq hzero)
    have hlt := hmaps.2.1
    rw [lt_def, toNat_pageStart, toNat_pageEnd_mod] at hlt
    omega

/-! ## Staying inside -/

/-- `parse_file` panics, or finds nothing to load. -/
def Rejects (m : Mem) (buffer : Word) : Prop :=
  ∀ file, parseFile (memRead m) buffer = some file → file.isValidElf = false

/-- `parse_file` and the copies of `map_elf64_header` read nothing but the file. -/
structure StaysInside (m : Mem) (buffer size : Word) (file : Elf64File) : Prop where
  parse : parseFile (fileRead m buffer size) buffer = some file
  segments : ∀ header ∈ file.programHeaders, SegmentInside size header

/-- **Reading an ELF file**: whatever the memory holds, a file that is not rejected is read inside
its bounds exactly if its header is in the file, each program header is (the type at least, and all
of it if it is to be loaded), and the fields of those to be loaded are within bounds. -/
theorem rejects_or_staysInside_iff (m : Mem) (buffer size : Word) :
    (Rejects m buffer ∨ ∃ file, parseFile (memRead m) buffer = some file ∧
      StaysInside m buffer size file) ↔
      Rejects m buffer ∨ 58 ≤ size.toNat ∧ ∀ k < (field m 2 (buffer + 56)).toNat,
        HeaderFits m buffer size (BitVec.ofNat 64 k) ∧
          (field m 4 (buffer + headerOff m buffer (BitVec.ofNat 64 k)) = ptLoad →
            SegmentFits size (headerAt m (buffer + headerOff m buffer (BitVec.ofNat 64 k)))) := by
  by_cases hrejects : Rejects m buffer
  · exact iff_of_true (.inl hrejects) (.inl hrejects)
  · rw [or_iff_right hrejects, or_iff_right hrejects]
    obtain ⟨file, hparse, -⟩ : ∃ file, parseFile (memRead m) buffer = some file ∧
        file.isValidElf ≠ false := by
      unfold Rejects at hrejects
      push Not at hrejects
      exact hrejects
    have hheaders : file.programHeaders = loaded m buffer (field m 2 (buffer + 56)).toNat 0 := by
      rw [(parseFile_memRead_iff.mp hparse).2.2.2.2.2]
    have hzero (k : Nat) : (0 : Word) + .ofNat 64 k = .ofNat 64 k := BitVec.zero_add _
    constructor
    · rintro ⟨file', hparse', hin⟩
      obtain rfl : file = file' := some.inj (hparse.symm.trans hparse')
      obtain ⟨hsize, hfits⟩ := (parseFile_fileRead_iff hparse).mp hin.parse
      refine ⟨hsize, fun k hk => ⟨hfits k hk, fun hload => ?_⟩⟩
      apply segmentInside_iff.mp
      apply hin.segments
      rw [hheaders, mem_loaded]
      exact ⟨k, hk, by rw [hzero]; exact hload, by rw [hzero]⟩
    · rintro ⟨hsize, hall⟩
      refine ⟨file, hparse,
        (parseFile_fileRead_iff hparse).mpr ⟨hsize, fun k hk => (hall k hk).1⟩, ?_⟩
      intro header hmem
      rw [hheaders, mem_loaded] at hmem
      obtain ⟨k, hk, hload, rfl⟩ := hmem
      rw [hzero] at hload ⊢
      exact segmentInside_iff.mpr ((hall k hk).2 hload)

/-- A memory that holds words at a buffer, and zeros elsewhere. -/
def wordsMem (buffer : Word) (words : List Word) : Mem := fun v =>
  (words[(v - buffer).toNat / 8]?.getD 0).extractLsb' (8 * ((v - buffer).toNat % 8)) 8

/-- A file of 120 bytes: its header, and one program header with a `p_filesz` of `0x2000` and a
`p_memsz` of `0x1000`. -/
def oversizedFile : Mem := wordsMem 0xFFFF800000001000
  [0x00010102464C457F, 0, 0x00000001003E0002, 0x400000, 64, 0, 0x0038004000000000, 1,
    1, 0, 0x400000, 0, 0x2000, 0x1000, 0x1000]

theorem oversizedFile_not_inside : ¬ Rejects oversizedFile 0xFFFF800000001000 ∧
    ¬ ∃ file, parseFile (memRead oversizedFile) 0xFFFF800000001000 = some file ∧
      StaysInside oversizedFile 0xFFFF800000001000 120 file := by
  have hparse : parseFile (memRead oversizedFile) 0xFFFF800000001000 =
      some ⟨true, 0x400000, [⟨1, 0, 0, 0x400000, 0, 0x2000, 0x1000, 0x1000⟩]⟩ := by decide
  constructor
  · intro hrejects
    cases hrejects _ hparse
  · rintro ⟨file, hfile, hin⟩
    cases hparse.symm.trans hfile
    exact absurd (hin.segments _ List.mem_cons_self).source (by decide)

end Elf

end Hltos
