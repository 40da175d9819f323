import Hltos.Fs.Archive
import Hltos.Fs.ProcText
import Hltos.Fs.TmpFile
import Hltos.Fs.TtyLine
import Hltos.Memory.Paging

/-!
# Reading from an inode

What the `read` methods return and what they store in the buffer of the caller, for regular files,
the terminal and `/proc/self`. A call that panics has no result.
-/

namespace Hltos

open Option BitVec TmpFile

open Lib.ByteMemory (Mem)
open Vmm (isUserAddr isUserRange)

/-- What a call of `read` returns, and the bytes at the beginning of the buffer that it has stored.
-/
structure ReadResult where
  ret : Int
  stored : List Byte
deriving DecidableEq

/-- The bytes from an address on. -/
def bytesAt (m : Mem) (a : Word) : Nat → List Byte
  | 0 => []
  | n + 1 => m a :: bytesAt m (a + 1) n

@[simp] theorem length_bytesAt (m : Mem) (a : Word) (n : Nat) : (bytesAt m a n).length = n := by
  induction n generalizing a with
  | zero => rfl
  | succ n ih => rw [bytesAt, List.length_cons, ih]

variable {n : Nat} {m : Mem} {tarData : Word}

theorem take_bytesAt (m : Mem) (a : Word) {k : Nat} (h : k ≤ n) :
    (bytesAt m a n).take k = bytesAt m a k := by
  induction n generalizing a k with
  | zero => rw [Nat.le_zero.mp h, List.take_zero, bytesAt]
  | succ n ih =>
    cases k with
    | zero => rfl
    | succ k => rw [bytesAt, bytesAt, List.take_succ_cons, ih _ (by omega)]

/-- `kcopy_to_user` asserts that the bytes go to user memory. -/
def kcopyToUser (dst : Word) (src : List Byte) : Option (List Byte) :=
  if isUserRange dst (BitVec.ofNat 64 src.length) then some src else none

/-- `InitramfsFileInode::read`. Neither the offset nor the size is looked at. -/
def initramfsRead (m : Mem) (tarData buf count : Word) : Option ReadResult :=
  if isUserAddr buf then
    (kcopyToUser buf (bytesAt m tarData count.toNat)).map (⟨TmpFile.toInt32 count.toNat, ·⟩)
  else some ⟨TmpFile.toInt32 count.toNat, bytesAt m tarData count.toNat⟩

/-! ## Regular files -/

/-- A regular file as one descriptor sees it that has just been opened. -/
inductive RegularFile where
  | tmp (fd : DescRef) (file : TmpFile) (inv : file.Inv) (opened : file.offsets fd = 0)
  | initramfs (m : Mem) (tarData size : Word)

namespace RegularFile

def contents : RegularFile → List Byte
  | tmp _ file _ _ => file.data.elems
  | initramfs m tarData size => bytesAt m tarData size.toNat

/-- Calls of `TmpFileInode::read`, one after the other. -/
def tmpReads (fd : DescRef) : List (Word × Word) → TmpFile → Option (List ReadResult)
  | [], _ => some []
  | (_, count) :: calls, file => do
    let (result, file) ← file.read fd count
    match result with
    | .read ret stored =>
      let results ← tmpReads fd calls file
      return ⟨ret, stored⟩ :: results
    | _ => none

/-- Calls of `read` with these buffers and counts. -/
def reads (calls : List (Word × Word)) : RegularFile → Option (List ReadResult)
  | tmp fd file _ _ => tmpReads fd calls file
  | initramfs m tarData _ => calls.mapM (fun call => initramfsRead m tarData call.1 call.2)

/-- Results that deliver the contents from an offset on: consecutive chunks, each as long as the
count and the rest allow, and 0 exactly at the end. -/
def DeliversFrom (contents : List Byte) : Nat → List (Word × Word) → List ReadResult → Prop
  | _, [], results => results = []
  | offset, (_, count) :: calls, results => ∃ result rest, results = result :: rest ∧
    result.stored = (contents.drop offset).take count.toNat ∧
    result.ret = min count.toNat (contents.length - offset) ∧
    (result.ret = 0 ↔ contents.length ≤ offset) ∧
    DeliversFrom contents (offset + result.stored.length) calls rest

/-- The calls return, and deliver the contents from the beginning. -/
def Delivers (file : RegularFile) (calls : List (Word × Word)) : Prop :=
  ∃ results, file.reads calls = some results ∧ DeliversFrom file.contents 0 calls results

/-- A call that asks for something, with a buffer that can take it. -/
def Proper (call : Word × Word) : Prop :=
  0 < call.2.toNat ∧ (isUserAddr call.1 → isUserRange call.1 call.2)

/-- Every call asks for bytes that are there, less than an `int` can count, and the same as at the
beginning of the file. -/
def LikeStart (contents : List Byte) : Nat → List (Word × Word) → Prop
  | _, [] => True
  | offset, (_, count) :: calls =>
    offset + count.toNat ≤ contents.length ∧ count.toNat < 2 ^ 31 ∧
      (contents.drop offset).take count.toNat = contents.take count.toNat ∧
      LikeStart contents (offset + count.toNat) calls

instance decidableLikeStart (contents : List Byte) :
    ∀ offset calls, Decidable (LikeStart contents offset calls)
  | _, [] => .isTrue trivial
  | offset, (_, count) :: calls =>
    have := decidableLikeStart contents (offset + count.toNat) calls
    inferInstanceAs (Decidable (offset + count.toNat ≤ contents.length ∧ count.toNat < 2 ^ 31 ∧
      (contents.drop offset).take count.toNat = contents.take count.toNat ∧
      LikeStart contents (offset + count.toNat) calls))

/-- Where `read` delivers: on the tmpfs always. -/
def Honest (calls : List (Word × Word)) : RegularFile → Prop
  | tmp .. => True
  | initramfs m tarData size => LikeStart (bytesAt m tarData size.toNat) 0 calls

variable {calls : List (Word × Word)}

/-- By induction on the calls, with the cursor as offset. -/
theorem tmp_delivers (fd : DescRef) {file : TmpFile} (h : file.Inv)
    (hcalls : ∀ call ∈ calls, Proper call) :
    ∃ results, tmpReads fd calls file = some results ∧
      DeliversFrom file.data.elems (file.offsets fd).toNat calls results := by
  induction calls generalizing file with
  | nil => exact ⟨[], rfl, rfl⟩
  | cons call calls ih =>
    obtain ⟨buf, count⟩ := call
    have hpos : 0 < count.toNat := (hcalls _ List.mem_cons_self).1
    obtain ⟨file', hread, hinv, hdata, hoffset⟩ := h.read_spec fd count
    obtain ⟨rest, hrest, hdeliver⟩ := ih hinv (fun c hc => hcalls c (List.mem_cons_of_mem _ hc))
    rw [hdata, hoffset] at hdeliver
    generalize hchunk : (file.data.elems.drop (file.offsets fd).toNat).take count.toNat = chunk at *
    have hlen : chunk.length =
        min count.toNat (file.data.elems.length - (file.offsets fd).toNat) := by
      rw [← hchunk, List.length_take, List.length_drop]
    refine ⟨⟨chunk.length, chunk⟩ :: rest, ?_, _, rest, rfl, hchunk.symm, ?_, ?_, hdeliver⟩
    · rw [tmpReads, hread]
      simp [hrest]
    · simp [hlen]
    · simp [hlen]
      omega

/-- A proper call of `InitramfsFileInode::read` gives the first bytes of the file again. -/
theorem initramfsRead_proper (m : Mem) (tarData : Word) {call : Word × Word} (h : Proper call) :
    initramfsRead m tarData call.1 call.2 =
      some ⟨toInt32 call.2.toNat, bytesAt m tarData call.2.toNat⟩ := by
  unfold initramfsRead kcopyToUser
  split
  · next huser =>
    rw [length_bytesAt, ofNat_toNat, setWidth_eq, if_pos (h.2 huser)]
    rfl
  · rfl

theorem toInt32_eq_iff : TmpFile.toInt32 n = n ↔ n < 2 ^ 31 := by
  constructor
  · intro h
    have hlt : toInt32 n < 2 ^ 31 := toInt_lt
    omega
  · exact toInt32_of_lt

theorem initramfs_delivers_iff {size : Word} (hcalls : ∀ call ∈ calls, Proper call) (offset : Nat) :
    (∃ results, calls.mapM (fun call => initramfsRead m tarData call.1 call.2) = some results ∧
      DeliversFrom (bytesAt m tarData size.toNat) offset calls results) ↔
    LikeStart (bytesAt m tarData size.toNat) offset calls := by
  induction calls generalizing offset with
  | nil => simp [DeliversFrom, LikeStart]
  | cons call calls ih =>
    obtain ⟨buf, count⟩ := call
    have hproper := hcalls _ List.mem_cons_self
    have hpos : 0 < count.toNat := hproper.1
    have hread := initramfsRead_proper m tarData hproper
    have ih := ih (fun c hc => hcalls c (List.mem_cons_of_mem _ hc))
    -- what is read is the beginning of the contents, if they are as long as that
    have hstart : offset + count.toNat ≤ (bytesAt m tarData size.toNat).length →
        (bytesAt m tarData size.toNat).take count.toNat = bytesAt m tarData count.toNat := by
      intro hle
      rw [length_bytesAt] at hle
      exact take_bytesAt m tarData (by omega)
    rw [List.mapM_cons, hread, bind_eq_bind, bind_some]
    generalize bytesAt m tarData size.toNat = contents at *
    constructor
    · rintro ⟨results, hrun, result, rest, rfl, hstored, hret, -, hdeliver⟩
      obtain ⟨rest', hrest, hrun⟩ := of_bind hrun
      obtain ⟨rfl, rfl⟩ := List.cons.inj (Option.some.inj hrun)
      have hlen := congrArg List.length hstored
      simp only [length_bytesAt, List.length_take, List.length_drop] at hlen hret hstored hdeliver
      have hle : offset + count.toNat ≤ contents.length := by omega
      refine ⟨hle, toInt32_eq_iff.mp (by omega), ?_, (ih _).mp ⟨rest', hrest, hdeliver⟩⟩
      rw [hstart hle, hstored]
    · rintro ⟨hle, hint, hlike, hrest⟩
      obtain ⟨rest, hrun, hdeliver⟩ := (ih _).mpr hrest
      refine ⟨⟨toInt32 count.toNat, bytesAt m tarData count.toNat⟩ :: rest, ?_,
        _, rest, rfl, ?_, ?_, ?_, ?_⟩
      · rw [hrun]
        rfl
      · rw [hlike, hstart hle]
      · simp only [toInt32_of_lt hint]
        omega
      · simp only [toInt32_of_lt hint]
        omega
      · rw [length_bytesAt]
        exact hdeliver

/-- **Reading a regular file delivers its contents exactly if** it is on the tmpfs, or each call
asks for bytes that are still there and are the same as at the beginning of the file. -/
theorem delivers_iff_honest (file : RegularFile) (calls : List (Word × Word))
    (hcalls : ∀ call ∈ calls, Proper call) : file.Delivers calls ↔ file.Honest calls := by
  cases file with
  | tmp fd file inv opened =>
    refine iff_of_true ?_ trivial
    have := tmp_delivers fd inv hcalls
    rwa [opened] at this
  | initramfs m tarData size => exact initramfs_delivers_iff hcalls 0

/-- A file of three bytes on the tmpfs. -/
def threeBytes : RegularFile :=
  .tmp 0 ⟨⟨[0x61, 0x62, 0x63], 16⟩, 3, fun _ => 0⟩
    ⟨⟨.inr ⟨0, rfl⟩, by decide, by decide⟩, rfl, fun _ => Nat.two_pow_pos 63⟩ rfl

/-- Three calls for two bytes each: two bytes, the last one, and the end. -/
theorem threeBytes_delivers : threeBytes.reads (.replicate 3 (0x400000, 2)) =
      some [⟨2, [0x61, 0x62]⟩, ⟨1, [0x63]⟩, ⟨0, []⟩] ∧
    (∀ call ∈ List.replicate 3 ((0x400000, 2) : Word × Word), Proper call) ∧
    threeBytes.Delivers (.replicate 3 (0x400000, 2)) := by
  have hproper : ∀ call ∈ List.replicate 3 ((0x400000, 2) : Word × Word), Proper call := by
    intro call hcall
    rw [List.eq_of_mem_replicate hcall]
    exact ⟨by decide, fun _ => by decide⟩
  exact ⟨by decide, hproper, (delivers_iff_honest threeBytes _ hproper).mpr trivial⟩

/-- A file of two bytes in the initramfs. -/
def twoBytes : RegularFile := .initramfs (Initramfs.sparse 0x1000 [(0, 0x61), (1, 0x62)]) 0x1000 2

/-- The second call should find the end of the file, and gets the first two bytes again. -/
theorem twoBytes_twice_not_delivered :
    (twoBytes.reads [(0x400000, 2), (0x400000, 2)] = some [⟨2, [0x61, 0x62]⟩, ⟨2, [0x61, 0x62]⟩]) ∧
    ¬ twoBytes.Delivers [(0x400000, 2), (0x400000, 2)] := by
  have hreads : twoBytes.reads [(0x400000, 2), (0x400000, 2)] =
      some [⟨2, [0x61, 0x62]⟩, ⟨2, [0x61, 0x62]⟩] := by decide
  refine ⟨hreads, ?_⟩
  rintro ⟨results, hrun, hdeliver⟩
  rw [hreads, Option.some.injEq] at hrun
  subst hrun
  obtain ⟨first, rest, hcons, -, -, -, hrest⟩ := hdeliver
  obtain ⟨rfl, rfl⟩ := List.cons.inj hcons
  obtain ⟨second, rest, hcons, -, -, hzero, -⟩ := hrest
  obtain ⟨rfl, rfl⟩ := List.cons.inj hcons
  exact absurd (hzero.mpr (by decide)) (by decide)

end RegularFile

/-! ## Strings that are read -/

/-- What the terminal and `/proc/self` do with their string: as much as fits is copied, and its
length is returned. -/
def stringRead (str : KVector Byte) (buf count : Word) : Option ReadResult :=
  (kcopyToUser buf (str.elems.take (if str.size > count.toNat then count.toNat else str.size))).map
    (⟨TmpFile.toInt32 str.size, ·⟩)

/-- `DevTtyInode::read`, with the keys that come in. -/
def ttyRead (heap : KHeap) (line : TtyLine) (events : List KeyEvent) (buf count : Word) :
    Option ReadResult := do
  let line ← line.edit heap events
  stringRead line.buffer buf count

/-- `ProcSelfInode::read` of the current process. -/
def procSelfRead (heap : KHeap) (proc : ProcInfo) (buf count : Word) : Option ReadResult := do
  let chars ← proc.toString
  let str ← KStr.assign heap chars
  stringRead str buf count

/-- An inode that can be read, in a state that it can have. -/
inductive ReadableInode where
  | tmp (fd : DescRef) (file : TmpFile) (inv : file.Inv)
  | initramfs (m : Mem) (tarData : Word)
  | tty (heap : KHeap) (line : TtyLine) (inv : line.Allocated) (events : List KeyEvent)
  | procSelf (heap : KHeap) (proc : ProcInfo)

namespace ReadableInode

def read (buf count : Word) : ReadableInode → Option ReadResult
  | tmp fd file _ =>
    match file.read fd count with
    | some (.read ret stored, _) => some ⟨ret, stored⟩
    | _ => none
  | initramfs m tarData => initramfsRead m tarData buf count
  | tty heap line _ events => ttyRead heap line events buf count
  | procSelf heap proc => procSelfRead heap proc buf count

/-- A result that is no error is at most `count`, and as many bytes have been stored. -/
def Reports (count : Word) (result : Option ReadResult) : Prop :=
  ∀ r, result = some r → 0 ≤ r.ret → r.ret ≤ count.toNat ∧ r.stored.length = r.ret

/-- The copy of the string is refused, or all of it fits. -/
def StringFits (str : List Byte) (buf count : Word) : Prop :=
  isUserRange buf (BitVec.ofNat 64 (min str.length count.toNat)) → str.length ≤ count.toNat

/-- Where `read` reports what it has stored. -/
def Truthful (buf count : Word) : ReadableInode → Prop
  | tmp .. => True
  | initramfs .. => (isUserAddr buf → isUserRange buf count) → count.toNat < 2 ^ 31 ∨
    TmpFile.toInt32 count.toNat < 0
  | tty heap line _ events => ∀ line', line.edit heap events = some line' →
    StringFits line'.buffer.elems buf count
  | procSelf heap proc => ∀ chars, proc.toString = some chars → (KStr.assign heap chars).isSome →
    StringFits chars buf count

variable {buf count : Word} {heap : KHeap}

theorem reports_none : Reports count none := fun _ h => nomatch h

theorem reports_some {r : ReadResult} :
    Reports count (some r) ↔ (0 ≤ r.ret → r.ret ≤ count.toNat ∧ r.stored.length = r.ret) := by
  constructor
  · exact fun h => h r rfl
  · rintro h _ ⟨⟩
    exact h

theorem stringRead_reports_iff {str : KVector Byte} (hlt : str.size < 2 ^ 31) :
    Reports count (stringRead str buf count) ↔ StringFits str.elems buf count := by
  have hlen : (str.elems.take (if str.size > count.toNat then count.toNat else str.size)).length =
      min str.elems.length count.toNat := by
    rw [List.length_take, KVector.size]
    split <;> omega
  unfold stringRead kcopyToUser StringFits
  rw [hlen]
  split
  · next huser =>
    rw [map_some, reports_some, hlen, toInt32_of_lt hlt, KVector.size]
    simp only [huser, true_implies]
    omega
  · next huser =>
    exact iff_of_true reports_none (fun h => absurd h huser)

theorem initramfsRead_reports_iff : Reports count (initramfsRead m tarData buf count) ↔
      ((isUserAddr buf → isUserRange buf count) → count.toNat < 2 ^ 31 ∨
        toInt32 count.toNat < 0) := by
  have hcopied : Reports count (some ⟨toInt32 count.toNat, bytesAt m tarData count.toNat⟩) ↔
      count.toNat < 2 ^ 31 ∨ toInt32 count.toNat < 0 := by
    rw [reports_some, length_bytesAt, ← RegularFile.toInt32_eq_iff]
    dsimp only
    omega
  unfold initramfsRead kcopyToUser
  rw [length_bytesAt, ofNat_toNat, setWidth_eq]
  by_cases haddr : isUserAddr buf
  · by_cases hrange : isUserRange buf count
    · simp only [haddr, hrange, if_true, map_some, hcopied, true_implies]
    · simp only [haddr, hrange, if_true]
      exact iff_of_true reports_none (fun h => by simp at h)
  · simp only [haddr, hcopied, Bool.false_eq_true, if_false, false_implies, true_implies]

theorem ttyRead_reports_iff {line : TtyLine} {events : List KeyEvent} (inv : line.Allocated) :
    Reports count (ttyRead heap line events buf count) ↔
      ∀ line', line.edit heap events = some line' → StringFits line'.buffer.elems buf count := by
  unfold ttyRead
  cases hedit : line.edit heap events with
  | none => exact iff_of_true reports_none (by simp)
  | some line' =>
    rw [bind_eq_bind, bind_some, stringRead_reports_iff (inv.edit_size_lt hedit)]
    simp

theorem procSelfRead_reports_iff {proc : ProcInfo} :
    Reports count (procSelfRead heap proc buf count) ↔
      ∀ chars, proc.toString = some chars → (KStr.assign heap chars).isSome →
        StringFits chars buf count := by
  unfold procSelfRead
  cases hchars : proc.toString with
  | none => exact iff_of_true reports_none (by simp)
  | some chars =>
    rw [bind_eq_bind, bind_some]
    cases hstr : KStr.assign heap chars with
    | none => exact iff_of_true reports_none (by simp [hstr])
    | some str =>
      obtain ⟨halloc, helems⟩ := KStr.assign_allocated hstr
      rw [bind_eq_bind, bind_some, stringRead_reports_iff (halloc.fit.trans_lt halloc.bound),
        helems]
      simp [hstr]

/-- **`read` reports what it has stored exactly if** the inode is a file of the tmpfs, or of the
initramfs and the count is one that an `int` can hold, or a string that fits into the buffer. -/
theorem reports_iff_truthful (inode : ReadableInode) (buf count : Word) :
    Reports count (inode.read buf count) ↔ inode.Truthful buf count := by
  cases inode with
  | tmp fd file inv =>
    refine iff_of_true ?_ trivial
    obtain ⟨file', hread, -⟩ := inv.read_spec fd count
    rw [read, hread, reports_some]
    intro _
    simp
  | initramfs m tarData => exact initramfsRead_reports_iff
  | tty heap line inv events => exact ttyRead_reports_iff inv
  | procSelf heap proc => exact procSelfRead_reports_iff

/-- A terminal that has not been used. -/
def newTty : TtyLine := ⟨.empty, [], 0, 0⟩

theorem allocated_newTty : newTty.Allocated := ⟨KVector.allocated_empty, by simp [newTty]⟩

/-- A key without modifiers is pressed. -/
def press (scancode : ScanCode) : KeyEvent := ⟨scancode, 0, false, false, false, false, false⟩

/-- The line `ab` and Enter, read into a buffer of one byte: one byte is stored, and 2 is returned.
-/
theorem shortBuffer_not_reports :
    (tty TmpFile.smallHeap newTty allocated_newTty [press 0x1E, press 0x30,
      press 0x1C]).read 0x400000 1 = some ⟨2, [0x61]⟩ ∧
    ¬ Reports 1 ((tty TmpFile.smallHeap newTty allocated_newTty
      [press 0x1E, press 0x30, press 0x1C]).read 0x400000 1) := by
  have hread : (tty smallHeap newTty allocated_newTty
      [press 0x1E, press 0x30, press 0x1C]).read 0x400000 1 = some ⟨2, [0x61]⟩ := by decide
  refine ⟨hread, ?_⟩
  rw [hread, reports_some]
  decide

end ReadableInode

end Hltos
