import Hltos.Fs.Vfs
import Hltos.Lib.Transition
import Hltos.Process.Process

/-!
# Descriptor tables

`sys_open`, `sys_close`, `sys_read`, `sys_write`, `fork` and the end of a process, on the descriptor
tables of all processes. A closed descriptor is a null pointer in the table. `alloc_fd` and
`terminate` follow every pointer of a table: with a null pointer in it there is no result.
-/

namespace Hltos

open Lib.Transition List Option Function

structure FileDescriptor where
  inode : Option InodeRef
  path : KString
  offset : Word
  flags : BitVec 32

/-- What the inodes do, on a state `φ` of theirs and of the memory that they copy from and to. Of
the descriptor they use no more than its offset. -/
structure Inodes (φ : Type) where
  resolvePath : ProcRef → KString → φ → Option InodeRef
  openInode : InodeRef → BitVec 32 → φ → φ
  read : InodeRef → Word → Word → Word → φ → Int × Word × φ
  write : InodeRef → Word → Word → Word → φ → Int × Word × φ
  close : InodeRef → φ → Int × φ

/-- `get_fd`, in the table of the process. -/
def tableFd (table : List (Option DescRef)) (fd : BitVec 32) : Option DescRef :=
  if fd.toInt < 0 ∨ table.length ≤ fd.toNat then none else (table[fd.toNat]?).join

/-- The descriptors, which are never freed, and the table of each process. -/
structure FdState (φ : Type) where
  fs : φ
  descs : List FileDescriptor
  tables : ProcRef → List (Option DescRef)

namespace FdState

variable {φ : Type} (inodes : Inodes φ)

def ENOENT : Int := 2

def EBADF : Int := 9

def oRdonly : BitVec 32 := 0

def oWronly : BitVec 32 := 1

/-- `fs::open` -/
def openPath (p : ProcRef) (path : KString) (flags : BitVec 32) (s : FdState φ) :
    Option DescRef × FdState φ :=
  match inodes.resolvePath p path s.fs with
  | none => (none, s)
  | some inode =>
    (some s.descs.length, { s with
      fs := inodes.openInode inode flags s.fs
      descs := s.descs ++ [⟨some inode, path, 0, flags⟩] })

def setTable (p : ProcRef) (table : List (Option DescRef)) (s : FdState φ) : FdState φ :=
  { s with tables := update s.tables p table }

/-- The loop of `alloc_fd` from entry `i` on: the first descriptor without an inode. -/
def allocFdFrom (descs : List FileDescriptor) : List (Option DescRef) → Nat → Option (Option Nat)
  | [], _ => some none
  | entry :: rest, i => do
    let desc ← descs[← entry]?
    if desc.inode = none then return some i else allocFdFrom descs rest (i + 1)

def allocFd (p : ProcRef) (s : FdState φ) : Option (Nat × FdState φ) := do
  match ← allocFdFrom s.descs (s.tables p) 0 with
  | some i => return (i, s)
  | none => return ((s.tables p).length, s.setTable p (s.tables p ++ [none]))

def getFd (p : ProcRef) (fd : BitVec 32) (s : FdState φ) : Option DescRef := tableFd (s.tables p) fd

def sysOpen (p : ProcRef) (path : KString) (flags : BitVec 32) (s : FdState φ) :
    Option (Int × FdState φ) :=
  match s.openPath inodes p path flags with
  | (none, s) => some (-ENOENT, s)
  | (some desc, s) => do
    let (fd, s) ← s.allocFd p
    return (fd, s.setTable p ((s.tables p).set fd (some desc)))

/-- What `sys_read` and `sys_write` do with the method of the inode. -/
def withFd (method : InodeRef → Word → φ → Int × Word × φ) (p : ProcRef) (fd : BitVec 32)
    (s : FdState φ) : Option (Int × FdState φ) :=
  match s.getFd p fd with
  | none => some (-EBADF, s)
  | some d => do
    let desc ← s.descs[d]?
    let (ret, offset, fs) := method (← desc.inode) desc.offset s.fs
    return (ret, { s with fs := fs, descs := s.descs.set d { desc with offset := offset } })

def sysRead (p : ProcRef) (fd : BitVec 32) (buffer count : Word) (s : FdState φ) :
    Option (Int × FdState φ) :=
  s.withFd (fun inode offset => inodes.read inode offset buffer count) p fd

def sysWrite (p : ProcRef) (fd : BitVec 32) (buffer count : Word) (s : FdState φ) :
    Option (Int × FdState φ) :=
  s.withFd (fun inode offset => inodes.write inode offset buffer count) p fd

def sysClose (p : ProcRef) (fd : BitVec 32) (s : FdState φ) : Option (Int × FdState φ) :=
  match s.getFd p fd with
  | none => some (-EBADF, s)
  | some d => do
    let desc ← s.descs[d]?
    let (ret, fs) := inodes.close (← desc.inode) s.fs
    return (ret, { s with fs := fs }.setTable p ((s.tables p).set fd.toNat none))

/-- The child has the table of its parent. -/
def sysFork (p child : ProcRef) (pid : Int) (s : FdState φ) : Int × FdState φ :=
  (pid, s.setTable child (s.tables p))

/-- The loop of `terminate`: `fd->inode->close(fd)`. -/
def closeAll (descs : List FileDescriptor) : List (Option DescRef) → φ → Option φ
  | [], fs => some fs
  | entry :: rest, fs => do
    let desc ← descs[← entry]?
    closeAll descs rest (inodes.close (← desc.inode) fs).2

def terminate (p : ProcRef) (s : FdState φ) : Option (FdState φ) := do
  let fs ← closeAll inodes s.descs (s.tables p) s.fs
  return { s with fs := fs }

/-- `/dev/tty1` -/
def tty1Path : KString := kstring [0x2F, 0x64, 0x65, 0x76, 0x2F, 0x74, 0x74, 0x79, 0x31]

def buildStdio (p : ProcRef) (s : FdState φ) : FdState φ :=
  let (stdin, s) := s.openPath inodes p tty1Path oRdonly
  let (stdout, s) := s.openPath inodes p tty1Path oWronly
  let (stderr, s) := s.openPath inodes p tty1Path oWronly
  s.setTable p (s.tables p ++ [stdin, stdout, stderr])

end FdState

inductive FdOp (φ : Type) where
  | open (p : ProcRef) (path : KString) (flags : BitVec 32)
  | close (p : ProcRef) (fd : BitVec 32)
  | read (p : ProcRef) (fd : BitVec 32) (buffer count : Word)
  | write (p : ProcRef) (fd : BitVec 32) (buffer count : Word)
  | fork (p child : ProcRef) (pid : Int)
  | terminate (p : ProcRef)
  /-- files and directories change in any other way -/
  | other (fs : φ)

/-- The tables, with the numbers that each process has closed and not opened again. -/
structure FdRun (φ : Type) where
  state : FdState φ
  closed : ProcRef → List (BitVec 32)

namespace FdRun

variable {φ : Type} (inodes : Inodes φ)

/-- The result of a call, where it has one. -/
def call : FdOp φ → FdState φ → Option (Int × FdState φ)
  | .open p path flags, s => s.sysOpen inodes p path flags
  | .close p fd, s => s.sysClose inodes p fd
  | .read p fd buffer count, s => s.sysRead inodes p fd buffer count
  | .write p fd buffer count, s => s.sysWrite inodes p fd buffer count
  | .fork p child pid, s => some (s.sysFork p child pid)
  | .terminate p, s => (s.terminate inodes p).map (0, ·)
  | .other fs, s => some (0, { s with fs := fs })

def closedAfter (closed : ProcRef → List (BitVec 32)) (ret : Int) :
    FdOp φ → ProcRef → List (BitVec 32)
  | .open p _ _ => update closed p ((closed p).filter (·.toInt ≠ ret))
  | .close p fd => update closed p (fd :: closed p)
  | .fork p child _ => update closed child (closed p)
  | _ => closed

def next (op : FdOp φ) (r : FdRun φ) : Option (FdRun φ) :=
  (call inodes op r.state).map (fun x => ⟨x.2, closedAfter r.closed x.1 op⟩)

/-- `userspace::init` starts the first process. -/
def system : System (FdRun φ) (FdOp φ) where
  init r := ∃ fs descs p, r = ⟨FdState.buildStdio inodes p ⟨fs, descs, fun _ => []⟩, fun _ => []⟩
  next := next inodes

end FdRun

/-! ## The table of a process -/

variable {d : DescRef} {table : List (Option DescRef)} {fd flags : BitVec 32} {path : KString}
  {q : ProcRef}

namespace FdState

variable {φ : Type} {inodes : Inodes φ} {s : FdState φ} {p : ProcRef}

def inodeOf (descs : List FileDescriptor) (d : DescRef) : Option InodeRef :=
  descs[d]?.bind (·.inode)

/-- Every pointer that is not null is to a descriptor with an inode. -/
def Valid (descs : List FileDescriptor) (table : List (Option DescRef)) : Prop :=
  ∀ d, some d ∈ table → inodeOf descs d ≠ none

def IsOpen (s : FdState φ) (p : ProcRef) (n : Nat) : Prop := ∃ d, (s.tables p)[n]? = some (some d)

variable {descs : List FileDescriptor}

theorem inodeOf_eq_some {i : InodeRef} :
    inodeOf descs d = some i ↔ ∃ desc, descs[d]? = some desc ∧ desc.inode = some i :=
  bind_eq_some_iff

theorem Valid.desc (h : Valid descs table) (hd : some d ∈ table) :
    ∃ desc inode, descs[d]? = some desc ∧ desc.inode = some inode := by
  obtain ⟨inode, hinode⟩ := ne_none_iff_exists'.mp (h d hd)
  obtain ⟨desc, hdesc, hi⟩ := inodeOf_eq_some.mp hinode
  exact ⟨desc, inode, hdesc, hi⟩

theorem Valid.tail {entry : Option DescRef} (h : Valid descs (entry :: table)) :
  Valid descs table := fun d hd => h d (mem_cons_of_mem _ hd)

/-- There is no slot to find, so the loop gets to the end or to a null pointer. -/
theorem allocFdFrom_eq (h : Valid descs table) (i : Nat) :
    allocFdFrom descs table i = if none ∈ table then none else some none := by
  induction table generalizing i with
  | nil => rfl
  | cons entry table ih =>
    cases entry with
    | none => rfl
    | some d =>
      obtain ⟨desc, inode, hdesc, hinode⟩ := h.desc mem_cons_self
      simp [allocFdFrom, hdesc, hinode, ih h.tail]

/-- `terminate` closes the inodes of all entries, if none is null. -/
theorem closeAll_eq (h : Valid descs table) (fs : φ) :
    closeAll inodes descs table fs = if none ∈ table then none
      else some ((table.reduceOption.filterMap (inodeOf descs)).foldl
        (fun fs inode => (inodes.close inode fs).2) fs) := by
  induction table generalizing fs with
  | nil => rfl
  | cons entry table ih =>
    cases entry with
    | none => rfl
    | some d =>
      obtain ⟨desc, inode, hdesc, hinode⟩ := h.desc mem_cons_self
      have hof := inodeOf_eq_some.mpr ⟨desc, hdesc, hinode⟩
      simp [closeAll, hdesc, hinode, hof, ih h.tail]

theorem getFd_eq (fd : BitVec 32) (s : FdState φ) :
    s.getFd p fd = if fd.toInt < 0 then none else ((s.tables p)[fd.toNat]?).join := by
  unfold getFd tableFd
  by_cases hneg : fd.toInt < 0
  · rw [if_pos (Or.inl hneg), if_pos hneg]
  · split
    · next hout => rw [getElem?_eq_none (hout.resolve_left hneg), join_none]
    · rfl

theorem getFd_mem (h : s.getFd p fd = some d) : some d ∈ s.tables p := by
  rw [getFd_eq] at h
  split at h
  · cases h
  · exact mem_of_getElem? (join_eq_some_iff.mp h)

theorem Valid.append (h : Valid descs table) (desc : FileDescriptor) :
    Valid (descs ++ [desc]) table := by
  intro d hd
  obtain ⟨desc', inode, hdesc, hinode⟩ := h.desc hd
  have hlt : d < descs.length := (List.getElem?_eq_some_iff.mp hdesc).1
  rw [inodeOf, List.getElem?_append_left hlt, hdesc, Option.bind_some, hinode]
  exact Option.some_ne_none _

theorem tables_openPath (path : KString) (flags : BitVec 32) :
    (s.openPath inodes p path flags).2.tables = s.tables := by
  unfold openPath
  split <;> rfl

/-- `fs::open` makes a descriptor with an inode, or none at all. -/
theorem Valid.openPath (h : Valid s.descs table) (path : KString)
    (flags : BitVec 32) : Valid (s.openPath inodes p path flags).2.descs
      (table ++ [(s.openPath inodes p path flags).1]) := by
  unfold FdState.openPath
  split
  · intro d hd
    rw [mem_append, mem_singleton] at hd
    exact h d (hd.resolve_right (some_ne_none d))
  · next inode _ =>
    intro d hd
    rw [mem_append, mem_singleton] at hd
    obtain hd | hd := hd
    · exact h.append _ d hd
    · cases hd
      simp [inodeOf]

/-- Methods of inodes leave the inode of the descriptor as it is. -/
theorem Valid.setOffset
    {desc : FileDescriptor} (h : Valid descs table) (hdesc : descs[d]? = some desc)
    (offset : Word) :
    Valid (descs.set d { desc with offset := offset }) table := by
  intro d' hd'
  rw [inodeOf, getElem?_set]
  split
  · next heq =>
    subst heq
    rw [if_pos (List.getElem?_eq_some_iff.mp hdesc).1]
    have := h d hd'
    rwa [inodeOf, hdesc] at this
  · exact h d' hd'

theorem isLeast_length (h : none ∉ s.tables p) :
    IsLeast {n | ¬ s.IsOpen p n} (s.tables p).length := by
  constructor
  · rintro ⟨d, hd⟩
    rw [getElem?_eq_none le_rfl] at hd
    cases hd
  · intro n hn
    match hentry : (s.tables p)[n]? with
    | none => exact getElem?_eq_none_iff.mp hentry
    | some none => exact absurd (mem_of_getElem? hentry) h
    | some (some d) => exact absurd ⟨d, hentry⟩ hn

@[simp] theorem setTable_self (table : List (Option DescRef)) (s : FdState φ) :
    (s.setTable p table).tables p = table := update_self ..

theorem setTable_of_ne (h : q ≠ p) (table : List (Option DescRef)) (s : FdState φ) :
    (s.setTable p table).tables q = s.tables q := update_of_ne h ..

/-- What `sys_open` does with a path that resolves. -/
theorem sysOpen_eq {inode : InodeRef}
    (h : Valid s.descs (s.tables p)) (hres : inodes.resolvePath p path s.fs = some inode) :
    s.sysOpen inodes p path flags = if none ∈ s.tables p then none else
      some (((s.tables p).length : Int), { s with
        fs := inodes.openInode inode flags s.fs
        descs := s.descs ++ [FileDescriptor.mk (some inode) path 0 flags] }.setTable p
          (s.tables p ++ [some s.descs.length])) := by
  have halloc := allocFdFrom_eq (h.append ⟨some inode, path, 0, flags⟩) 0
  simp only [sysOpen, openPath, hres, allocFd, halloc]
  split
  · rfl
  · simp [setTable, update_idem]

theorem sysOpen_none (hres : inodes.resolvePath p path s.fs = none) :
    s.sysOpen inodes p path flags = some (-ENOENT, s) := by
  simp only [sysOpen, openPath, hres]

theorem withFd_none {method : InodeRef → Word → φ → Int × Word × φ}
    (h : s.getFd p fd = none) : s.withFd method p fd = some (-EBADF, s) := by
  rw [withFd, h]

theorem withFd_some (method : InodeRef → Word → φ → Int × Word × φ)
    (h : Valid s.descs (s.tables p)) (hfd : s.getFd p fd = some d) :
    ∃ ret fs desc offset, s.descs[d]? = some desc ∧ s.withFd method p fd =
      some (ret, { s with fs := fs, descs := s.descs.set d { desc with offset := offset } }) := by
  obtain ⟨desc, inode, hdesc, hinode⟩ := h.desc (getFd_mem hfd)
  refine ⟨(method inode desc.offset s.fs).1, (method inode desc.offset s.fs).2.2, desc,
    (method inode desc.offset s.fs).2.1, hdesc, ?_⟩
  simp only [withFd, hfd, hdesc, bind_eq_bind, bind_some, hinode]
  rfl

theorem sysClose_none (h : s.getFd p fd = none) : s.sysClose inodes p fd = some (-EBADF, s) := by
  rw [sysClose, h]

theorem sysClose_some (inodes : Inodes φ) (h : Valid s.descs (s.tables p))
    (hfd : s.getFd p fd = some d) : ∃ ret fs, s.sysClose inodes p fd =
      some (ret, { s with fs := fs }.setTable p ((s.tables p).set fd.toNat none)) := by
  obtain ⟨desc, inode, hdesc, hinode⟩ := h.desc (getFd_mem hfd)
  refine ⟨(inodes.close inode s.fs).1, (inodes.close inode s.fs).2, ?_⟩
  simp only [sysClose, hfd, hdesc, bind_eq_bind, bind_some, hinode]
  rfl

/-- The inodes of the descriptors that a process has open. -/
def openInodes (s : FdState φ) (p : ProcRef) : List InodeRef :=
  (s.tables p).reduceOption.filterMap (inodeOf s.descs)

theorem forall₂_openInodes (h : Valid s.descs (s.tables p)) :
    List.Forall₂ (fun d i =>
      inodeOf s.descs d = some i) (s.tables p).reduceOption (s.openInodes p) := by
  unfold openInodes
  generalize s.tables p = table at h
  induction table with
  | nil => exact .nil
  | cons entry table ih =>
    cases entry with
    | none => exact ih h.tail
    | some d =>
      obtain ⟨i, hi⟩ := ne_none_iff_exists'.mp (h d mem_cons_self)
      rw [reduceOption_cons_of_some, filterMap_cons_some hi]
      exact .cons hi (ih h.tail)

theorem terminate_eq (h : Valid s.descs (s.tables p)) :
    s.terminate inodes p = if none ∈ s.tables p then none else
      some { s with
        fs := (s.openInodes p).foldl (fun fs inode => (inodes.close inode fs).2) s.fs } := by
  rw [terminate, closeAll_eq h]
  split <;> rfl

end FdState

/-! ## The states of a run -/

namespace FdRun

open FdState

variable {φ : Type} {inodes : Inodes φ} {r r' : FdRun φ} {op : FdOp φ} {s : FdState φ} {p : ProcRef}
  {closed' : ProcRef → List (BitVec 32)}

structure Inv (r : FdRun φ) : Prop where
  valid : ∀ p, Valid r.state.descs (r.state.tables p)
  closed : ∀ p, ∀ fd ∈ r.closed p, r.state.getFd p fd = none

theorem getFd_congr {s' : FdState φ} (h : s'.tables q = s.tables p)
    (fd : BitVec 32) : s'.getFd q fd = s.getFd p fd := by
  rw [getFd, getFd, h]

/-- What was closed stays so when another entry is appended. -/
theorem getFd_append (h : s.getFd p fd = none)
    (hne : fd.toInt ≠ (s.tables p).length) (s' : FdState φ)
    (hs' : s'.tables p = s.tables p ++ [some d]) : s'.getFd p fd = none := by
  rw [getFd_eq] at h ⊢
  split
  · rfl
  · next hneg =>
    rw [if_neg hneg] at h
    have hnat : fd.toInt = fd.toNat := by
      have hlt := fd.isLt
      rw [BitVec.toInt_eq_toNat_cond] at hneg ⊢
      split <;> split at hneg <;> omega
    rw [hs']
    by_cases hlt : fd.toNat < (s.tables p).length
    · rwa [getElem?_append_left hlt]
    · rw [getElem?_eq_none, join_none]
      rw [length_append, length_singleton]
      omega

theorem getFd_close {fd' : BitVec 32} (h : fd' = fd ∨ s.getFd p fd' = none) (s' : FdState φ)
    (hs' : s'.tables p = (s.tables p).set fd.toNat none) : s'.getFd p fd' = none := by
  rw [getFd_eq, hs']
  split
  · rfl
  · next hneg =>
    rw [getElem?_set]
    split
    · split <;> rfl
    · next hne =>
      have hfd : s.getFd p fd' = none := h.resolve_left (fun heq => hne (heq ▸ rfl))
      rwa [getFd_eq, if_neg hneg] at hfd

/-- All tables but one, and all that was closed, are as before. -/
theorem Inv.setTable (h : Inv r) (htables : s.tables = r.state.tables)
    (hvalid : ∀ q, Valid s.descs (s.tables q)) (htable : Valid s.descs table)
    (hclosed : ∀ q ≠ p, closed' q = r.closed q)
    (hnone : ∀ fd ∈ closed' p, (s.setTable p table).getFd p fd = none) :
    Inv ⟨s.setTable p table, closed'⟩ := by
  constructor
  · intro q
    by_cases hq : q = p
    · subst hq
      rw [setTable_self]
      exact htable
    · rw [setTable_of_ne hq]
      exact hvalid q
  · intro q fd hfd
    by_cases hq : q = p
    · subst hq
      exact hnone fd hfd
    · have hold : fd ∈ r.closed q := hclosed q hq ▸ hfd
      have hsame : (s.setTable p table).tables q = r.state.tables q := by
        rw [setTable_of_ne hq, htables]
      exact (getFd_congr hsame fd).trans (h.closed q fd hold)

theorem Inv.keeps (h : Inv r) (htables : s.tables = r.state.tables)
    (hvalid : ∀ table, Valid r.state.descs table → Valid s.descs table)
    (hclosed : ∀ p, ∀ fd ∈ closed' p, fd ∈ r.closed p) : Inv ⟨s, closed'⟩ := by
  refine ⟨fun p => ?_, fun p fd hfd => ?_⟩
  · rw [htables]
    exact hvalid _ (h.valid p)
  · exact (getFd_congr (congrFun htables p) fd).trans (h.closed p fd (hclosed p fd hfd))

variable {ret : Int}

/-- The number that `open` returns is no longer a closed one. -/
theorem Inv.openPath (h : Inv r) (p : ProcRef) (path : KString) (flags : BitVec 32)
    (hcall : r.state.sysOpen inodes p path flags = some (ret, s)) :
    Inv ⟨s, closedAfter r.closed ret (.open p path flags : FdOp φ)⟩ := by
  have hfilter : ∀ q, ∀ fd ∈ closedAfter r.closed ret (.open p path flags : FdOp φ) q,
      fd ∈ r.closed q := by
    intro q fd hfd
    by_cases hq : q = p
    · subst hq
      rw [closedAfter, update_self] at hfd
      exact mem_of_mem_filter hfd
    · rwa [closedAfter, update_of_ne hq] at hfd
  match hres : inodes.resolvePath p path r.state.fs with
  | none =>
    rw [sysOpen_none hres] at hcall
    cases hcall
    exact h.keeps rfl (fun _ h => h) hfilter
  | some inode =>
    rw [sysOpen_eq (h.valid p) hres] at hcall
    split at hcall
    · cases hcall
    · cases hcall
      refine h.setTable rfl (fun q => (h.valid q).append _) ?_ ?_ ?_
      · intro d hd
        rw [mem_append, mem_singleton] at hd
        obtain hd | hd := hd
        · exact (h.valid p).append _ d hd
        · cases hd
          simp [inodeOf]
      · intro q hq
        exact update_of_ne hq ..
      · intro fd hfd
        rw [closedAfter, update_self] at hfd
        obtain ⟨hfd, hne⟩ := mem_filter.mp hfd
        exact getFd_append (h.closed p fd hfd) (by simpa using hne) _ (setTable_self ..)

theorem Inv.withFd {method : InodeRef → Word → φ → Int × Word × φ}
    (h : Inv r) (hcall : r.state.withFd method p fd = some (ret, s)) : Inv ⟨s, r.closed⟩ := by
  match hfd : r.state.getFd p fd with
  | none =>
    rw [withFd_none hfd] at hcall
    cases hcall
    exact h
  | some d =>
    obtain ⟨ret', fs, desc, offset, hdesc, heq⟩ := withFd_some method (h.valid p) hfd
    rw [heq] at hcall
    cases hcall
    apply h.keeps
    · rfl
    · exact fun table htable => htable.setOffset hdesc offset
    · exact fun _ _ h => h

/-- `close` leaves a null pointer in the table, so that the number is not known. -/
theorem Inv.sysClose (h : Inv r) (hcall : r.state.sysClose inodes p fd = some (ret, s)) :
    Inv ⟨s, closedAfter r.closed ret (.close p fd : FdOp φ)⟩ := by
  have hmem : ∀ fd' ∈ closedAfter r.closed ret (.close p fd : FdOp φ) p,
      fd' = fd ∨ r.state.getFd p fd' = none := by
    intro fd' hfd'
    rw [closedAfter, update_self, mem_cons] at hfd'
    exact hfd'.imp_right (h.closed p fd')
  have hne : ∀ q ≠ p, closedAfter r.closed ret (.close p fd : FdOp φ) q = r.closed q :=
    fun q hq => update_of_ne hq ..
  match hfd : r.state.getFd p fd with
  | none =>
    rw [sysClose_none hfd] at hcall
    cases hcall
    refine ⟨h.valid, fun q fd' hfd' => ?_⟩
    by_cases hq : q = p
    · subst hq
      obtain rfl | hnone := hmem fd' hfd'
      · exact hfd
      · exact hnone
    · exact h.closed q fd' (hne q hq ▸ hfd')
  | some d =>
    obtain ⟨ret', fs, heq⟩ := sysClose_some inodes (h.valid p) hfd
    rw [heq] at hcall
    cases hcall
    refine h.setTable rfl h.valid (fun d' hd' => ?_) hne (fun fd' hfd' => ?_)
    · exact h.valid p d' ((mem_or_eq_of_mem_set hd').resolve_right (some_ne_none d'))
    · exact getFd_close (hmem fd' hfd') _ (setTable_self ..)

/-- No call makes a closed number known again, unless it returns it. -/
theorem Inv.step (h : Inv r) (hrun : next inodes op r = some r') : Inv r' := by
  obtain ⟨⟨ret, s⟩, hcall, rfl⟩ := map_eq_some_iff.mp hrun
  cases op with
  | «open» p path flags => exact h.openPath p path flags hcall
  | close p fd => exact h.sysClose hcall
  | read p fd buffer count =>
    have hread : r.state.sysRead inodes p fd buffer count = some (ret, s) := hcall
    exact h.withFd hread
  | write p fd buffer count =>
    have hwrite : r.state.sysWrite inodes p fd buffer count = some (ret, s) := hcall
    exact h.withFd hwrite
  | fork p child pid =>
    cases hcall
    refine h.setTable rfl h.valid (h.valid p) (fun q hq => update_of_ne hq ..) (fun fd hfd => ?_)
    rw [closedAfter, update_self] at hfd
    exact (getFd_congr (setTable_self ..) fd).trans (h.closed p fd hfd)
  | terminate p =>
    obtain ⟨s', hterm, heq⟩ := map_eq_some_iff.mp hcall
    cases heq
    rw [terminate_eq (h.valid p)] at hterm
    split at hterm
    · cases hterm
    · cases hterm
      exact ⟨h.valid, h.closed⟩
  | other fs =>
    cases hcall
    exact ⟨h.valid, h.closed⟩

theorem inv_init (h : (system inodes).init r) : Inv r := by
  obtain ⟨fs, descs, p, rfl⟩ := h
  refine ⟨fun q => ?_, fun _ _ hfd => by cases hfd⟩
  have hnil : Valid (⟨fs, descs, fun _ => []⟩ : FdState φ).descs [] := fun d hd => by cases hd
  by_cases hq : q = p
  · subst hq
    rw [buildStdio, setTable_self, tables_openPath, tables_openPath, tables_openPath]
    exact ((hnil.openPath tty1Path oRdonly).openPath tty1Path oWronly).openPath tty1Path oWronly
  · rw [buildStdio, setTable_of_ne hq, tables_openPath, tables_openPath, tables_openPath]
    intro d hd
    cases hd

theorem reachable_inv (h : (system inodes).Reachable r) : Inv r :=
  h.invariant (fun _ => inv_init) (fun _ _ _ hinv hrun => hinv.step hrun)

/-! ## What the calls are for -/

/-- A call returns and does what it should: `sys_open` takes the lowest number that is not open and
touches no other entry, a number that was closed is not known, and a process that ends closes all
that it has open. -/
def Meets (inodes : Inodes φ) (op : FdOp φ) (r : FdRun φ) : Prop :=
  ∃ ret s, call inodes op r.state = some (ret, s) ∧
    match op with
    | .open p path flags =>
      match inodes.resolvePath p path r.state.fs with
      | none => ret = -ENOENT ∧ s = r.state
      | some inode => ∃ n : Nat, ret = n ∧ IsLeast {n | ¬ r.state.IsOpen p n} n ∧
        (∃ d, (s.tables p)[n]? = some (some d) ∧ s.descs[d]? = some ⟨some inode, path, 0, flags⟩) ∧
        (∀ m ≠ n, (s.tables p)[m]? = (r.state.tables p)[m]?) ∧
        ∀ q ≠ p, s.tables q = r.state.tables q
    | .close p fd | .read p fd _ _ | .write p fd _ _ => fd ∈ r.closed p → ret = -EBADF ∧ s = r.state
    | .fork p child pid => ret = pid ∧ s.tables child = r.state.tables p
    | .terminate p => ∃ is : List InodeRef,
      List.Forall₂ (fun d i =>
        inodeOf r.state.descs d = some i) (r.state.tables p).reduceOption is ∧
      s.fs = is.foldl (fun fs inode => (inodes.close inode fs).2) r.state.fs
    | .other _ => True

/-- Nothing was closed by a process that opens a file, or ends. -/
def NoneClosed (inodes : Inodes φ) : FdOp φ → FdState φ → Prop
  | .open p path _, s => inodes.resolvePath p path s.fs ≠ none → none ∉ s.tables p
  | .terminate p, s => none ∉ s.tables p
  | _, _ => True

theorem meets_open_iff (h : Inv r) :
    Meets inodes (.open p path flags) r ↔ NoneClosed inodes (.open p path flags) r.state := by
  simp only [Meets, NoneClosed, call]
  match hres : inodes.resolvePath p path r.state.fs with
  | none =>
    rw [sysOpen_none hres]
    simp
  | some inode =>
    rw [sysOpen_eq (h.valid p) hres]
    constructor
    · rintro ⟨ret, s, hcall, -⟩ - hmem
      rw [if_pos hmem] at hcall
      cases hcall
    · intro hnone
      have hmem := hnone (some_ne_none inode)
      rw [if_neg hmem]
      refine ⟨_, _, rfl, (r.state.tables p).length, rfl, isLeast_length hmem,
        ⟨r.state.descs.length, ?_, ?_⟩, fun m hm => ?_, fun q hq => setTable_of_ne hq ..⟩
      · rw [setTable_self, getElem?_concat_length]
      · exact getElem?_concat_length ..
      · rw [setTable_self, getElem?_append]
        split
        · rfl
        · next hge =>
          rw [getElem?_eq_none (Nat.le_of_not_lt hge), getElem?_eq_none]
          rw [length_singleton]
          omega

theorem meets_terminate_iff (h : Inv r) :
    Meets inodes (.terminate p) r ↔ NoneClosed inodes (.terminate p) r.state := by
  simp only [Meets, NoneClosed, call]
  rw [terminate_eq (h.valid p)]
  constructor
  · rintro ⟨ret, s, hcall, -⟩ hmem
    rw [if_pos hmem] at hcall
    cases hcall
  · intro hmem
    rw [if_neg hmem]
    exact ⟨_, _, rfl, r.state.openInodes p, forall₂_openInodes (h.valid p), rfl⟩

/-- A number that was closed is not in the table, and one that is belongs to a descriptor. -/
theorem withFd_closed (h : Inv r) (method : InodeRef → Word → φ → Int × Word × φ) (p : ProcRef)
    (fd : BitVec 32) : ∃ ret s, r.state.withFd method p fd = some (ret, s) ∧
      (fd ∈ r.closed p → ret = -EBADF ∧ s = r.state) := by
  match hfd : r.state.getFd p fd with
  | none => exact ⟨_, _, withFd_none hfd, fun _ => ⟨rfl, rfl⟩⟩
  | some d =>
    obtain ⟨ret, fs, desc, offset, -, heq⟩ := withFd_some method (h.valid p) hfd
    exact ⟨_, _, heq, fun hmem => absurd (h.closed p fd hmem) (by rw [hfd]; exact some_ne_none d)⟩

theorem sysClose_closed (h : Inv r) : ∃ ret s, r.state.sysClose inodes p fd = some (ret, s) ∧
      (fd ∈ r.closed p → ret = -EBADF ∧ s = r.state) := by
  match hfd : r.state.getFd p fd with
  | none => exact ⟨_, _, sysClose_none hfd, fun _ => ⟨rfl, rfl⟩⟩
  | some d =>
    obtain ⟨ret, fs, heq⟩ := sysClose_some inodes (h.valid p) hfd
    exact ⟨_, _, heq, fun hmem => absurd (h.closed p fd hmem) (by rw [hfd]; exact some_ne_none d)⟩

/-- **Descriptor tables are usable while nothing was closed**: in every state that processes can get
into, a call does what it should if and only if it does not open a file, or end the process, with a
null pointer in the table. -/
theorem reachable_meets_iff (inodes : Inodes φ) {r : FdRun φ} (op : FdOp φ)
    (h : (system inodes).Reachable r) : Meets inodes op r ↔ NoneClosed inodes op r.state := by
  have hinv := reachable_inv h
  cases op with
  | «open» p path flags => exact meets_open_iff hinv
  | terminate p => exact meets_terminate_iff hinv
  | close p fd => exact iff_of_true (sysClose_closed hinv) trivial
  | read p fd buffer count =>
    exact iff_of_true (withFd_closed hinv (fun i offset => inodes.read i offset buffer count) p fd)
      trivial
  | write p fd buffer count =>
    exact iff_of_true (withFd_closed hinv (fun i offset => inodes.write i offset buffer count) p fd)
      trivial
  | fork p child pid => exact iff_of_true ⟨_, _, rfl, rfl, setTable_self ..⟩ trivial
  | other fs => exact iff_of_true ⟨_, _, rfl, trivial⟩ trivial

/-- A file system with one device, where reads are at the end of the file. -/
def nullInodes : Inodes Unit where
  resolvePath _ path _ := if path = tty1Path then some 1 else none
  openInode _ _ fs := fs
  read _ offset _ _ fs := (0, offset, fs)
  write _ offset _ count fs := (count.toInt, offset, fs)
  close _ fs := (0, fs)

/-- The state before the first call. -/
def booted : FdRun Unit := ⟨buildStdio nullInodes 0 ⟨(), [], fun _ => []⟩, fun _ => []⟩

theorem open_meets : NoneClosed nullInodes (.open 0 tty1Path 0) booted.state ∧
    Meets nullInodes (.open 0 tty1Path 0) booted := by
  have hopen : NoneClosed nullInodes (.open 0 tty1Path 0) booted.state := fun _ => by decide
  exact ⟨hopen, (reachable_meets_iff nullInodes _ (.start ⟨(), [], 0, rfl⟩)).mpr hopen⟩

/-- A process that has closed its standard input can neither open a file nor end. -/
theorem reopen_faults : ∃ r, (system nullInodes).Reachable r ∧
    (system nullInodes).exec [.close 0 0] booted = some r ∧
    call nullInodes (.open 0 tty1Path 0) r.state = none ∧
    call nullInodes (.terminate 0) r.state = none := by
  have hrun : ((system nullInodes).exec [.close 0 0] booted).map (fun r =>
      ((call nullInodes (.open 0 tty1Path 0) r.state).isNone,
        (call nullInodes (.terminate 0) r.state).isNone)) = some (true, true) := by
    decide
  obtain ⟨r, hr, heq⟩ := map_eq_some_iff.mp hrun
  obtain ⟨hopen, hend⟩ := Prod.mk.inj heq
  exact ⟨r, .of_exec (.start ⟨(), [], 0, rfl⟩) hr, hr, isNone_iff_eq_none.mp hopen,
    isNone_iff_eq_none.mp hend⟩

end FdRun

end Hltos
