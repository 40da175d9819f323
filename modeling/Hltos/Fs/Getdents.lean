import Hltos.Fs.Mkdir
import Hltos.Fs.TmpFile
import Hltos.Memory.Paging

/-!
# Listing a directory by chunks

`sys_getdents64` makes the list of all entries anew at each call and goes on from the offset of the
descriptor. It finds the directory by the path that the descriptor was opened with, not by its
inode.
-/

namespace Hltos

open Lib.Transition Algo List Option Vfs
open Vmm (isUserRange)

/-! ## Records -/

/-- `static_cast<std::uint8_t>(type)` -/
def FileType.byte : FileType → Byte
  | .none => 0
  | .regular => 1
  | .directory => 2
  | .charDevice => 3

structure LinuxDirent64 where
  dIno : Word
  dOff : Word
  dReclen : BitVec 16
  dType : Byte
  dName : List Byte
deriving DecidableEq

namespace LinuxDirent64

/-- `sizeof(linux_dirent64)` -/
def size : Nat := 275

/-- `strncpy` into a field of `n` bytes. -/
def strncpy (name : KString) (n : Nat) : List Byte :=
  (name.map (·.1)).take n ++ List.replicate (n - name.length) 0

/-- The record of an entry. -/
def ofEntry (ino : Word) (entry : KString × FileType) : LinuxDirent64 :=
  ⟨ino, 0, BitVec.ofNat 16 size, entry.2.byte, strncpy entry.1 256⟩

/-- The record in memory. -/
def bytes (dirent : LinuxDirent64) : List Byte :=
  (List.range 8).map (fun i => dirent.dIno.extractLsb' (8 * i) 8) ++
    (List.range 8).map (fun i => dirent.dOff.extractLsb' (8 * i) 8) ++
    (List.range 2).map
    (fun i => dirent.dReclen.extractLsb' (8 * i) 8) ++ dirent.dType :: dirent.dName

/-- `new_capacity` in `grow` -/
def newCapacity (v : KVector LinuxDirent64) : Nat := if v.capacity = 0 then 16 else v.capacity * 2

/-- `dirents.push_back` -/
def pushBack (heap : KHeap) (dirent : LinuxDirent64) (v : KVector LinuxDirent64) :
    Option (KVector LinuxDirent64) :=
  if v.capacity < v.size + 1 then
    if heap.fits (newCapacity v * size) then some ⟨v.elems ++ [dirent], newCapacity v⟩ else none
  else some { v with elems := v.elems ++ [dirent] }

/-- The loop of `sys_getdents64` over the entries that are left. -/
def fillFrom (heap : KHeap) (maxEntries : Nat) : List (KString × FileType) → Word →
    KVector LinuxDirent64 → Option (KVector LinuxDirent64)
  | [], _, dirents => some dirents
  | entry :: entries, inode, dirents =>
    if dirents.size < maxEntries then do
      fillFrom heap maxEntries entries (inode + 1) (← pushBack heap (ofEntry inode entry) dirents)
    else some dirents

def fill (heap : KHeap) (count : BitVec 32) (entries : List (KString × FileType)) :
    Option (List LinuxDirent64) :=
  (fillFrom heap (count.toNat / size) entries 1 .empty).map (·.elems)

/-- What a record tells of the entry. -/
def content (dirent : LinuxDirent64) : List Byte × Byte := (dirent.dName, dirent.dType)

/-- The same of an entry of `readdir`. -/
def contentOf (entry : KString × FileType) : List Byte × Byte := (strncpy entry.1 256, entry.2.byte)

variable {heap : KHeap} {entries : List (KString × FileType)} {v v' : KVector LinuxDirent64}

/-- The capacity is what the heap has given. -/
def Fits (v : KVector LinuxDirent64) : Prop := v.size ≤ v.capacity ∧ v.capacity * size < 2 ^ 31

theorem fits_empty : Fits .empty := ⟨Nat.le_refl 0, by decide⟩

theorem pushBack_spec {dirent : LinuxDirent64} (h : Fits v)
    (hrun : pushBack heap dirent v = some v') :
    v'.elems = v.elems ++ [dirent] ∧ Fits v' := by
  unfold pushBack at hrun
  obtain ⟨hle, hlt⟩ := h
  split at hrun
  · split at hrun
    · next hgiven =>
      cases hrun
      refine ⟨rfl, ?_, heap.bounded _ hgiven⟩
      simp only [KVector.size, newCapacity, length_append, length_singleton] at hle ⊢
      split <;> omega
    · cases hrun
  · next hroom =>
    cases hrun
    refine ⟨rfl, ?_, hlt⟩
    simp only [KVector.size, length_append, length_singleton] at hroom ⊢
    omega

/-- The loop lists the next entries, as many as there are and as fit. -/
theorem fillFrom_spec {maxEntries : Nat} {inode : Word} (h : Fits v)
    (hrun : fillFrom heap maxEntries entries inode v = some v') : Fits v' ∧
      ∃ new, v'.elems = v.elems ++ new ∧
      new.map content = (entries.take (maxEntries - v.size)).map contentOf := by
  induction entries generalizing inode v with
  | nil =>
    cases hrun
    exact ⟨h, [], by simp, by simp⟩
  | cons entry entries ih =>
    rw [fillFrom] at hrun
    split at hrun
    · next hroom =>
      obtain ⟨w, hpush, hrun⟩ := of_bind hrun
      obtain ⟨helems, hfits⟩ := pushBack_spec h hpush
      obtain ⟨hfits', new, hnew, hcontent⟩ := ih hfits hrun
      refine ⟨hfits', ofEntry inode entry :: new, by simp [hnew, helems], ?_⟩
      have hsize : maxEntries - v.size = (maxEntries - w.size) + 1 := by
        simp only [KVector.size, helems, length_append, length_singleton] at hroom ⊢
        omega
      rw [hsize, take_succ_cons, map_cons, map_cons, hcontent]
      rfl
    · next hfull =>
      cases hrun
      exact ⟨h, [], by simp, by simp [Nat.sub_eq_zero_of_le (Nat.le_of_not_lt hfull)]⟩

theorem fill_spec {count : BitVec 32} {dirents : List LinuxDirent64}
    (hrun : fill heap count entries = some dirents) :
    dirents.map content = (entries.take (count.toNat / size)).map contentOf ∧
    dirents.length * size < 2 ^ 31 := by
  obtain ⟨v, hfill, rfl⟩ := map_eq_some_iff.mp hrun
  obtain ⟨⟨hle, hlt⟩, new, hnew, hcontent⟩ := fillFrom_spec fits_empty hfill
  refine ⟨by simpa [hnew, KVector.empty, KVector.size] using hcontent, ?_⟩
  exact (Nat.mul_le_mul_right size hle).trans_lt hlt

end LinuxDirent64

/-! ## Descriptors of directories -/

/-- A `FileDescriptor`. -/
structure OpenDir where
  inode : InodeRef
  path : KString
  offset : Nat
deriving DecidableEq

/-- The tree, the current directory of a process and its descriptors. -/
structure DirState where
  vfs : Vfs
  cwd : Option InodeRef
  descs : List OpenDir

namespace DirState

variable (s : DirState)

/-- `fs::open`, with the descriptor at the end of the table. -/
def sysOpen (path : KString) : Option DirState := do
  match ← s.vfs.resolvePath s.cwd path with
  | none => return s
  | some x => return { s with descs := s.descs ++ [⟨x, path, 0⟩] }

def sysChdir (path : KString) : Option DirState := do
  let (_, cwd) ← s.vfs.sysChdir s.cwd path
  return { s with cwd }

def sysFchdir (fd : Nat) : Option DirState :=
  match s.descs[fd]? with
  | none => some s
  | some desc => do
    if (← s.vfs.inodes desc.inode).node.type ≠ .directory then return s
    else return { s with cwd := some desc.inode }

def sysMkdir (path : KString) (new : InodeRef) : Option DirState := do
  let (_, vfs) ← s.vfs.mkdirResult s.cwd path new
  return { s with vfs }

/-- `fs::readdir(desc->path, entries)` -/
def listed (desc : OpenDir) : Option (List (KString × FileType)) := do
  match ← s.vfs.resolvePath s.cwd desc.path with
  | none => return []
  | some x => return s.vfs.readdir x

/-- `sys_getdents64`: the result, and the records that are copied to the buffer. -/
def sysGetdents64 (heap : KHeap) (fd : Nat) (buffer : Word) (count : BitVec 32) :
    Option (Int × List LinuxDirent64 × DirState) :=
  match s.descs[fd]? with
  | none => some (-9, [], s)
  | some desc => do
    let entries ← s.listed desc
    if desc.offset ≥ entries.length then return (0, [], s)
    else
      let dirents ← LinuxDirent64.fill heap count (entries.drop desc.offset)
      let bufferLen := dirents.length * LinuxDirent64.size
      if isUserRange buffer (BitVec.ofNat 64 bufferLen) then
        return (TmpFile.toInt32 bufferLen, dirents,
          { s with descs := s.descs.set fd { desc with offset := desc.offset + dirents.length } })
      else none

/-! ## Chunks -/

/-- Calls of `sys_getdents64` on one descriptor, and nothing else. The records are those of all
calls. -/
inductive Listing (heap : KHeap) (fd : Nat) (s0 : DirState) :
    List LinuxDirent64 → DirState → Prop where
  | start : Listing heap fd s0 [] s0
  | call {delivered dirents : List LinuxDirent64} {s s' : DirState} {buffer : Word}
    {count : BitVec 32}
      {ret : Int} : Listing heap fd s0 delivered s →
      s.sysGetdents64 heap fd buffer count = some (ret, dirents, s') →
      Listing heap fd s0 (delivered ++ dirents) s'

variable {s s' s0 s1 : DirState} {heap : KHeap} {fd : Nat} {buffer : Word} {count : BitVec 32}
  {ret : Int}
  {dirents delivered : List LinuxDirent64} {entries : List (KString × FileType)} {desc : OpenDir}
  {path : KString} {x : InodeRef} {v v' : Vfs} {st : List KString} {z : InodeRef} {op : DirOp}

open LinuxDirent64 (content contentOf)

/-- One call lists the next entries, and moves the offset behind them. -/
theorem sysGetdents64_spec (hfd : s.descs[fd]? = some desc) (hlisted : s.listed desc = some entries)
    (hrun : s.sysGetdents64 heap fd buffer count = some (ret, dirents, s')) : dirents.map content =
        ((entries.drop desc.offset).take (count.toNat / LinuxDirent64.size)).map contentOf ∧
      ret = dirents.length * LinuxDirent64.size ∧
      s' = { s with
        descs := s.descs.set fd { desc with offset := desc.offset + dirents.length } } := by
  rw [sysGetdents64, hfd] at hrun
  dsimp only at hrun
  rw [hlisted, bind_eq_bind, bind_some] at hrun
  split at hrun
  · next hend =>
    cases hrun
    obtain ⟨hlt, hget⟩ := List.getElem?_eq_some_iff.mp hfd
    have hsame : s.descs.set fd desc = s.descs := by rw [← hget, set_getElem_self]
    refine ⟨by simp [drop_eq_nil_of_le hend], rfl, ?_⟩
    simp [hsame]
  · obtain ⟨dirents', hfill, hrun⟩ := of_bind hrun
    obtain ⟨hcontent, hbound⟩ := LinuxDirent64.fill_spec hfill
    split at hrun
    · cases hrun
      refine ⟨hcontent, ?_, rfl⟩
      rw [TmpFile.toInt32_of_lt hbound]
      exact Int.natCast_mul _ _
    · cases hrun

/-- The descriptor is at the end of what has been delivered. -/
structure Delivered
    (entries : List (KString × FileType)) (fd : Nat) (delivered : List LinuxDirent64)
    (s : DirState) : Prop where
  desc : ∃ desc, s.descs[fd]? = some desc ∧ desc.offset = delivered.length ∧
    s.listed desc = some entries
  records : delivered.map content = (entries.take delivered.length).map contentOf

theorem Delivered.call (h : Delivered entries fd delivered s)
    (hrun : s.sysGetdents64 heap fd buffer count = some (ret, dirents, s')) :
    Delivered entries fd (delivered ++ dirents) s' := by
  obtain ⟨desc, hfd, hoffset, hlisted⟩ := h.desc
  obtain ⟨hcontent, -, rfl⟩ := sysGetdents64_spec hfd hlisted hrun
  have hlt := (List.getElem?_eq_some_iff.mp hfd).1
  refine ⟨⟨_, getElem?_set_self hlt, by simp [hoffset], hlisted⟩, ?_⟩
  have hlen : dirents.length =
      ((entries.drop desc.offset).take (count.toNat / LinuxDirent64.size)).length := by
    simpa using congrArg List.length hcontent
  have htake : (entries.drop desc.offset).take dirents.length =
      (entries.drop desc.offset).take (count.toNat / LinuxDirent64.size) := by
    rw [hlen, length_take, ← take_take, take_length]
  rw [map_append, h.records, hcontent, length_append, take_add, map_append, ← htake, hoffset]

theorem Listing.inv (h : Listing heap fd s0 delivered s) (h0 : Delivered entries fd [] s0) :
    Delivered entries fd delivered s := by
  induction h with
  | start => exact h0
  | call _ hrun ih => exact ih.call hrun

/-- What a new descriptor lists is what its directory holds. -/
theorem delivered_open
    (hres : s.vfs.resolvePath s.cwd path = some (some x)) (hopen : s.sysOpen path = some s1) :
    Delivered (s.vfs.readdir x) s.descs.length [] s1 := by
  rw [sysOpen, hres] at hopen
  cases hopen
  refine ⟨⟨⟨x, path, 0⟩, by simp, rfl, ?_⟩, rfl⟩
  simp [listed, hres]

/-- **Listing by chunks**: whatever `count` the calls on a new descriptor pass, the records are the
beginning of the list of `readdir`; a call returns a whole number of records that fit, and returns 0
for room of one record or more only behind the last entry. -/
theorem listing_complete {s s1 s2 : DirState} {path : KString} {x : InodeRef}
    (hres : s.vfs.resolvePath s.cwd path = some (some x)) (hopen : s.sysOpen path = some s1)
    {heap : KHeap}
    {delivered : List LinuxDirent64} (hcalls : Listing heap s.descs.length s1 delivered s2) :
    delivered.map content <+: (s.vfs.readdir x).map contentOf ∧
      ∀ buffer count ret dirents s3,
        s2.sysGetdents64 heap s.descs.length buffer count = some (ret, dirents, s3) →
        ret = dirents.length * LinuxDirent64.size ∧
        dirents.length * LinuxDirent64.size ≤ count.toNat ∧
        (ret = 0 → LinuxDirent64.size ≤ count.toNat →
          delivered.map content = (s.vfs.readdir x).map contentOf) := by
  have hinv := hcalls.inv (delivered_open hres hopen)
  constructor
  · have htaken := take_prefix delivered.length (s.vfs.readdir x)
    rw [hinv.records]
    exact htaken.map _
  · intro buffer count ret dirents s3 hrun
    obtain ⟨desc, hfd, hoffset, hlisted⟩ := hinv.desc
    obtain ⟨hcontent, rfl, -⟩ := sysGetdents64_spec hfd hlisted hrun
    have hlen := congrArg List.length hcontent
    simp only [length_map, length_take, length_drop] at hlen
    refine ⟨rfl, ?_, fun hzero hroom => ?_⟩
    · calc dirents.length * LinuxDirent64.size
          ≤ count.toNat / LinuxDirent64.size * LinuxDirent64.size :=
            Nat.mul_le_mul_right _ (hlen.trans_le (Nat.min_le_left _ _))
        _ ≤ count.toNat := Nat.div_mul_le_self _ _
    · -- there was room for a record, so there was no entry
      have hpos : 1 ≤ count.toNat / LinuxDirent64.size := (Nat.one_le_div_iff (by decide)).mpr hroom
      have hnone : dirents.length = 0 := by
        simp only [LinuxDirent64.size] at hzero
        omega
      rw [hinv.records, take_of_length_le (by omega)]

/-- `/tmp` holds one directory, and there is a heap for sixteen records. -/
def tmpState : DirState := ⟨Vfs.dirVfs, none, []⟩

def recordHeap : KHeap := ⟨fun n => n == 4400, fun n h => by simp at h; omega⟩

/-- `open("/")`, which lists `dev` and `tmp`. -/
def rootOpened : DirState := (tmpState.sysOpen [slash]).getD tmpState

/-- Two calls with room for one record each, and one that finds nothing more. -/
theorem rootOpened_lists : ∃ d1 d2 s1 s2 s3,
    rootOpened.sysGetdents64 recordHeap 0 0x400000 300 = some (275, d1, s1) ∧
    s1.sysGetdents64 recordHeap 0 0x400000 300 = some (275, d2, s2) ∧
    s2.sysGetdents64 recordHeap 0 0x400000 300 = some (0, [], s3) ∧
    (d1 ++ d2).map content = (tmpState.vfs.readdir 0).map contentOf := by
  have hruns : (do
      let (ret1, _, s1) ← rootOpened.sysGetdents64 recordHeap 0 0x400000 300
      let (ret2, _, s2) ← s1.sysGetdents64 recordHeap 0 0x400000 300
      let (ret3, d3, _) ← s2.sysGetdents64 recordHeap 0 0x400000 300
      return (ret1, ret2, ret3, d3.isEmpty)) = some (275, 275, 0, true) := by decide
  obtain ⟨⟨ret1, d1, s1⟩, h1, hruns⟩ := of_bind hruns
  obtain ⟨⟨ret2, d2, s2⟩, h2, hruns⟩ := of_bind hruns
  obtain ⟨⟨ret3, d3, s3⟩, h3, hruns⟩ := of_bind hruns
  simp only [Option.pure_def, Option.some.injEq, Prod.mk.injEq, List.isEmpty_iff] at hruns
  obtain ⟨rfl, rfl, rfl, rfl⟩ := hruns
  have hres : tmpState.vfs.resolvePath tmpState.cwd [slash] = some (some 0) := by decide
  have hopen : tmpState.sysOpen [slash] = some rootOpened := by rfl
  have hall := (listing_complete hres hopen (.call (.call .start h1) h2)).2 0x400000 300 0 [] s3 h3
  exact ⟨d1, d2, s1, s2, s3, h1, h2, h3, hall.2.2 rfl (by decide)⟩

/-! ## Which directory is listed -/

inductive DirOp where
  | open (path : KString)
  | chdir (path : KString)
  | fchdir (fd : Nat)
  | mkdir (path : KString) (new : InodeRef)

def next : DirOp → DirState → Option DirState
  | .open path, s => s.sysOpen path
  | .chdir path, s => s.sysChdir path
  | .fchdir fd, s => s.sysFchdir fd
  | .mkdir path new, s => s.sysMkdir path new

/-- New inodes are where there is none. -/
def Legal : DirOp → DirState → Prop
  | .mkdir _ new, s => s.vfs.inodes new = none
  | _, _ => True

/-- A process without descriptors, in a current directory that a path leads to. -/
def system : System DirState DirOp where
  init s := Vfs.system.ReachableUnder Vfs.Legal s.vfs ∧ s.vfs.IsCurrent s.cwd ∧ s.descs = []
  next := next

/-- What comes after a state. -/
def after (s : DirState) : System DirState DirOp where
  init := (· = s)
  next := next

/-- Where relative paths begin. -/
def start (s : DirState) : Option InodeRef := s.cwd.or (s.vfs.mounts.head?.map MountPoint.rootInode)

/-- The current directory and the inodes of the descriptors are in the tree. -/
structure Inv (s : DirState) : Prop where
  vfs : s.vfs.Inv
  cwd : s.vfs.IsCurrent s.cwd
  descs : ∀ desc ∈ s.descs, ∃ st, Vfs.At s.vfs st desc.inode

/-- Nothing has changed in the tree, or there is one more directory. -/
def Grown (v v' : Vfs) : Prop :=
  v' = v ∨ ∃ x n new inode children, v.inodes new = none ∧
    Vfs.Added (.tmpDirectory []) x n new inode children v v'

section

variable (h : Grown v v')

include h

theorem Grown.at_mono (hinv : v.Inv) (hat : Vfs.At v st x) : Vfs.At v' st x := by
  rcases h with rfl | ⟨_, _, _, _, _, hnew, hadd⟩
  · exact hat
  · exact hadd.at_mono hinv hnew hat

theorem Grown.mounts : v'.mounts = v.mounts := by
  rcases h with rfl | ⟨_, _, _, _, _, -, hadd⟩
  · rfl
  · exact hadd.mounts

theorem Grown.resolveTokens (hinv : v.Inv)
    (hat : Vfs.At v st z) (hres : v.resolveTokens (split path slash) (some z) = some (some x)) :
    v'.resolveTokens (split path slash) (some z) = some (some x) := by
  rcases h with rfl | ⟨_, _, _, _, _, hnew, hadd⟩
  · exact hres
  · exact hadd.resolveTokens_mono hinv hnew (isPart_split path slash) hat hres

theorem Grown.isCurrent (hinv : v.Inv) {cwd : Option InodeRef}
    (hcwd : v.IsCurrent cwd) : v'.IsCurrent cwd := by
  rcases h with rfl | ⟨_, _, _, _, _, hnew, hadd⟩
  · exact hcwd
  · rintro x hx
    obtain rfl : cwd = some x := hx
    obtain ⟨⟨old, hold, htype⟩, -⟩ := hcwd x rfl
    obtain ⟨st, hat⟩ := hinv.at_of_isCurrent hcwd
    obtain ⟨now, hnow, -, -, -, htype'⟩ := hadd.kept hnew x old hold
    exact isCurrent_of_at (hadd.at_mono hinv hnew hat) ⟨now, hnow, htype'.trans htype⟩ x rfl

end

/-- Where the tokens of a path are looked up from. -/
def startOf (s : DirState) (path : KString) : Option InodeRef :=
  if path.head? = some slash then s.vfs.mounts.head?.map MountPoint.rootInode else s.start

theorem resolvePath_eq (h : s.Inv) (path : KString) :
    ∃ st z, Vfs.At s.vfs st z ∧ s.startOf path = some z ∧
    s.vfs.resolvePath s.cwd path = s.vfs.resolveTokens (split path slash) (some z) := by
  obtain ⟨root, ms, hfirst⟩ := h.vfs.first
  have hmp : s.vfs.mounts.head? = some ⟨none, root⟩ := by rw [hfirst]; rfl
  rw [resolvePath, resolvePathTokens, hmp, bind_eq_bind, bind_some, startOf, start, hmp]
  by_cases habs : path.head? = some slash
  · rw [if_pos habs, if_pos (.inl habs)]
    exact ⟨[], root, .root hmp, rfl, rfl⟩
  · rw [if_neg habs]
    cases hcwd : s.cwd with
    | none =>
      rw [if_pos (.inr rfl)]
      exact ⟨[], root, .root hmp, rfl, rfl⟩
    | some z =>
      rw [if_neg (by simp [habs])]
      obtain ⟨st, hat⟩ := h.vfs.at_of_isCurrent (hcwd ▸ h.cwd)
      exact ⟨st, z, hat, rfl, rfl⟩

theorem Inv.at_of_resolvePath (h : s.Inv) (hres : s.vfs.resolvePath s.cwd path = some (some x)) :
    ∃ st, Vfs.At s.vfs st x := by
  obtain ⟨st, z, hat, -, heq⟩ := resolvePath_eq h path
  rw [heq] at hres
  exact ⟨_, h.vfs.at_normaliseFrom (isPart_split path slash) hat hres⟩

theorem Inv.of_init (h : system.init s) : s.Inv :=
  ⟨reachable_inv h.1, h.2.1, by rw [h.2.2]; exact fun desc hdesc => nomatch hdesc⟩

/-- A step keeps the descriptors that are there, and the tree only grows. -/
theorem Inv.next (h : s.Inv) (hlegal : Legal op s) (hrun : next op s = some s') :
    s'.Inv ∧ Grown s.vfs s'.vfs ∧ s.descs <+: s'.descs := by
  cases op with
  | «open» path =>
    obtain ⟨target, hres, hrun⟩ := of_bind hrun
    cases target with
    | none =>
      cases hrun
      exact ⟨h, .inl rfl, prefix_rfl⟩
    | some x =>
      cases hrun
      refine ⟨⟨h.vfs, h.cwd, fun desc hdesc => ?_⟩, .inl rfl, prefix_append _ _⟩
      rcases mem_append.mp hdesc with hold | hnew
      · exact h.descs desc hold
      · rw [mem_singleton.mp hnew]
        exact h.at_of_resolvePath hres
  | chdir path =>
    obtain ⟨⟨ret, cwd⟩, hchdir, hrun⟩ := of_bind hrun
    cases hrun
    exact ⟨⟨h.vfs, h.vfs.isCurrent_sysChdir h.cwd hchdir, h.descs⟩, .inl rfl, prefix_rfl⟩
  | fchdir fd =>
    rw [DirState.next, sysFchdir] at hrun
    split at hrun
    · cases hrun
      exact ⟨h, .inl rfl, prefix_rfl⟩
    · next desc hfd =>
      obtain ⟨inode, hinode, hrun⟩ := of_bind hrun
      split at hrun
      · cases hrun
        exact ⟨h, .inl rfl, prefix_rfl⟩
      · next htype =>
        cases hrun
        obtain ⟨st, hat⟩ := h.descs desc (mem_of_getElem? hfd)
        exact ⟨⟨h.vfs, isCurrent_of_at hat ⟨inode, hinode, not_not.mp htype⟩, h.descs⟩,
          .inl rfl, prefix_rfl⟩
  | mkdir path new =>
    obtain ⟨⟨ret, vfs⟩, hmkdir, hrun⟩ := of_bind hrun
    cases hrun
    have hgrown : Grown s.vfs vfs := by
      rcases mkdirResult_added hlegal hmkdir with hsame | ⟨x, n, inode, children, hadd⟩
      · exact .inl hsame
      · exact .inr ⟨x, n, new, inode, children, hlegal, hadd⟩
    have hvfs : vfs.Inv := by
      have hvnext : Vfs.next (.mkdir s.cwd path new) s.vfs = some vfs := by
        rw [Vfs.next, ← Vfs.mkdirResult_snd, hmkdir]
        rfl
      have hvlegal : Vfs.Legal (.mkdir s.cwd path new) s.vfs := hlegal
      exact h.vfs.step hvlegal hvnext
    refine ⟨⟨hvfs, hgrown.isCurrent h.vfs h.cwd, fun desc hdesc => ?_⟩, hgrown, prefix_rfl⟩
    obtain ⟨st, hat⟩ := h.descs desc hdesc
    exact ⟨st, hgrown.at_mono h.vfs hat⟩

theorem reachable_inv (h : system.ReachableUnder Legal s) : s.Inv :=
  System.ReachableUnder.invariant (fun _ => Inv.of_init) (fun _ _ _ hinv hlegal hrun =>
    (hinv.next hlegal hrun).1) h

/-- A descriptor and the walk that has led to its inode. -/
structure Opened (fd : Nat) (path : KString) (x z : InodeRef) (s : DirState) : Prop where
  inv : s.Inv
  desc : ∃ desc, s.descs[fd]? = some desc ∧ desc.inode = x ∧ desc.path = path
  at_start : ∃ st, Vfs.At s.vfs st z
  walk : s.vfs.resolveTokens (split path slash) (some z) = some (some x)

theorem Opened.next (h : Opened fd path x z s) (hlegal : Legal op s)
    (hrun : DirState.next op s = some s') :
    Opened fd path x z s' ∧ s'.vfs.mounts = s.vfs.mounts := by
  obtain ⟨hinv, hgrown, hpre⟩ := h.inv.next hlegal hrun
  obtain ⟨desc, hfd, hinode, hpath⟩ := h.desc
  obtain ⟨st, hat⟩ := h.at_start
  refine ⟨⟨hinv, ⟨desc, ?_, hinode, hpath⟩, ⟨st, hgrown.at_mono h.inv.vfs hat⟩, ?_⟩, hgrown.mounts⟩
  · obtain ⟨more, hmore⟩ := hpre
    rw [← hmore, List.getElem?_append_left (List.getElem?_eq_some_iff.mp hfd).1]
    exact hfd
  · exact hgrown.resolveTokens h.inv.vfs hat h.walk

/-- **A descriptor and its directory**: after any calls, `sys_getdents64` lists the directory that
the descriptor was opened on if the path is absolute, or if relative paths begin where they began
then. -/
theorem reachable_lists_inode {s s1 s2 : DirState} (h : system.ReachableUnder Legal s)
    {path : KString} {x : InodeRef} (hres : s.vfs.resolvePath s.cwd path = some (some x))
    (hopen : s.sysOpen path = some s1) (hrun : (after s1).ReachableUnder Legal s2)
    (hpath : path.head? = some slash ∨ s2.start = s.start) :
    ∃ desc, s2.descs[s.descs.length]? = some desc ∧ desc.inode = x ∧
      s2.vfs.resolvePath s2.cwd desc.path = some (some x) ∧
      s2.listed desc = some (s2.vfs.readdir x) := by
  have hinv := reachable_inv h
  have hopened := hopen
  obtain ⟨st, z, hat, hstart, heq⟩ := resolvePath_eq hinv path
  have hfirst : Opened s.descs.length path x z s1 ∧ s1.vfs.mounts = s.vfs.mounts := by
    have hlegal : Legal (.open path) s := trivial
    have hinv1 := (hinv.next hlegal hopened).1
    rw [sysOpen, hres] at hopen
    cases hopen
    refine ⟨⟨hinv1, ⟨⟨x, path, 0⟩, by simp, rfl, rfl⟩, ⟨st, hat⟩, ?_⟩, rfl⟩
    rw [← heq]
    exact hres
  obtain ⟨hopened2, hmounts⟩ : Opened s.descs.length path x z s2 ∧
      s2.vfs.mounts = s.vfs.mounts := by
    refine System.ReachableUnder.invariant (I := fun t => Opened s.descs.length path x z t ∧
      t.vfs.mounts = s.vfs.mounts) ?_ ?_ hrun
    · rintro t rfl
      exact hfirst
    · rintro t t' op ⟨hopen, hmounts⟩ hlegal hnext
      obtain ⟨hopen', hsame⟩ := hopen.next hlegal hnext
      exact ⟨hopen', hsame.trans hmounts⟩
  have hz : s2.startOf path = some z := by
    rw [← hstart, startOf, startOf, hmounts]
    rcases hpath with habs | hsame
    · rw [if_pos habs, if_pos habs]
    · rw [hsame]
  obtain ⟨st2, z2, -, hz2, heq2⟩ := resolvePath_eq hopened2.inv path
  have hresolved : s2.vfs.resolvePath s2.cwd path = some (some x) := by
    cases hz.symm.trans hz2
    rw [heq2]
    exact hopened2.walk
  obtain ⟨desc, hfd, hinode, hdesc⟩ := hopened2.desc
  rw [← hdesc] at hresolved
  exact ⟨desc, hfd, hinode, hresolved, by rw [listed, hresolved]; rfl⟩

/-- `open(".")` in the root directory, and then `chdir("/tmp")`. -/
def movedState : Option DirState := do
  let s ← tmpState.sysOpen dot
  s.sysChdir (slash :: Vfs.tmpName)

/-- The descriptor is on the root directory and lists `/tmp`. -/
theorem movedState_lists_tmp :
    movedState.map (fun s => (s.descs.map OpenDir.inode, s.descs.map s.listed)) =
      some ([0], [some [(Vfs.aName, .directory)]]) ∧
    Vfs.dirVfs.readdir 0 = [(Vfs.devName, .directory), (Vfs.tmpName, .directory)] := by
  constructor
  · rfl
  · decide

/-- `open("/tmp")` -/
def tmpOpened : DirState := (tmpState.sysOpen (slash :: Vfs.tmpName)).getD tmpState

/-- `open("/tmp")` and then `chdir("/dev")`: an absolute path. -/
theorem tmpOpened_lists_inode : ∃ s2 desc, tmpOpened.sysChdir (slash :: Vfs.devName) = some s2 ∧
    s2.descs[0]? = some desc ∧ s2.listed desc = some (s2.vfs.readdir 7) := by
  have hres : tmpState.vfs.resolvePath tmpState.cwd (slash :: tmpName) = some (some 7) := by decide
  have hopen : tmpState.sysOpen (slash :: tmpName) = some tmpOpened := by rfl
  obtain ⟨s2, hs2⟩ := isSome_iff_exists.mp
    (show (tmpOpened.sysChdir (slash :: devName)).isSome by decide)
  have hreach : system.ReachableUnder Legal tmpState := .start ⟨dirVfs_reachable, nofun, rfl⟩
  have hrun : (after tmpOpened).ReachableUnder Legal s2 :=
    .tail (l := .chdir (slash :: devName)) (.start rfl) trivial hs2
  obtain ⟨desc, hfd, -, -, hlisted⟩ := reachable_lists_inode hreach hres hopen hrun (.inl rfl)
  exact ⟨s2, desc, hs2, hfd, hlisted⟩

end DirState

end Hltos
