import Hltos.Fs.Getdents
import Hltos.Process.Exec
import Hltos.Syscall.Fd
import Hltos.Syscall.UserCopy

/-!
# The system calls that take pointers

The methods of the inodes and the calls that pass the caller's pointers to them, access by access.
Each class of inodes decides for itself whether it checks a pointer.
-/

namespace Hltos

open Lib.Traced Function
open Vmm (isUserAddr isUserRange)

namespace CallState

def nodeOf (s : CallState) (d : DescRef) : Option Node :=
  (s.files.vfs.inodes (s.files.inodeOf d)).map (·.node)

/-- `fd->inode` as a file of the tmpfs: its data. -/
def tmpDataOf (s : CallState) (d : DescRef) : KVector Byte := s.files.tmpData (s.files.inodeOf d)

def setOffset (s : CallState) (d : DescRef) (offset : Word) : CallState :=
  { s with files := { s.files with offsets := update s.files.offsets d offset } }

def setTmpData (s : CallState) (d : DescRef) (data : KVector Byte) : CallState :=
  { s with files := { s.files with
    tmpData := update s.files.tmpData (s.files.inodeOf d) data } }

def setSize (s : CallState) (d : DescRef) (size : Word) : CallState :=
  { s with files := { s.files with sizes := update s.files.sizes (s.files.inodeOf d) size } }

def setTtyLine (s : CallState) (d : DescRef) (line : TtyLine) : CallState :=
  { s with files := { s.files with
    ttyLines := update s.files.ttyLines (s.files.inodeOf d) line } }

/-- The state in which a process goes on that has waited. -/
def resume (s : CallState) : Option (VirtMem × Bool) → CallState
  | none => s
  | some (mem, ac) => { s with mem, ac }

def getFd (s : CallState) (fd : BitVec 32) : Option DescRef := tableFd s.files.table fd

end CallState

namespace KProg

def EISDIR : Int := 21

def EINVAL : Int := 22

def ENOTTY : Int := 25

def EROFS : Int := 30

def ERANGE : Int := 34

/-! ## `read` -/

/-- `*(buff + i) = data[fd->offset++]` -/
def tmpReadByte (user : Bool) (d : DescRef) (buff : Word) : KProg (Bool × Word) := do
  let s ← Prog.get
  match (s.tmpDataOf d).elems[(s.files.offsets d).toNat]? with
  | none => Prog.stop
  | some b =>
    storeByte user buff b
    Prog.modify (fun s => s.setOffset d (s.files.offsets d + 1))
    return (true, buff + 1)

/-- `TmpFileInode::read` -/
def tmpRead (user : Bool) (d : DescRef) (buff count : Word) : KProg Int := do
  let s ← Prog.get
  if (s.files.offsets d).toNat ≥ (s.tmpDataOf d).size then return 0
  else
    let available := (s.tmpDataOf d).size - (s.files.offsets d).toNat
    let toRead := if count.toNat < available then count.toNat else available
    let _ ← Prog.loop (tmpReadByte user d) toRead buff
    return TmpFile.toInt32 toRead

/-- `InitramfsFileInode::read` -/
def initramfsRead (user : Bool) (d : DescRef) (buf count : Word) : KProg Int := do
  let s ← Prog.get
  let tarData := (s.files.tarData (s.files.inodeOf d)).1
  if isUserAddr buf then
    Prog.assert (isUserRange buf count)
    withAc (memcpy user buf tarData count.toNat)
    return TmpFile.toInt32 count.toNat
  else
    memcpy user buf tarData count.toNat
    return TmpFile.toInt32 count.toNat

/-- `DevTtyInode::read` -/
def ttyRead (d : DescRef) (buff count : Word) : KProg Int := do
  let s ← Prog.get
  match s.ttyInput with
  | [] => Prog.stop
  | input :: inputs =>
    match (s.files.ttyLines (s.files.inodeOf d)).edit s.heap input.events with
    | none => Prog.stop
    | some line =>
      Prog.modify (fun s => ({ s with ttyInput := inputs }.setTtyLine d line).resume input.resumed)
      heapOps
      kcopyToUser buff (line.buffer.elems.take
        (if line.buffer.size > count.toNat then count.toNat else line.buffer.size))
      return TmpFile.toInt32 line.buffer.size

/-- `ProcSelfInode::read` -/
def procSelfRead (buf count : Word) : KProg Int := do
  let s ← Prog.get
  match s.proc.toString with
  | none => Prog.stop
  | some str =>
    heapOps
    kcopyToUser buf (str.take (min str.length count.toNat))
    return TmpFile.toInt32 str.length

/-- `inode->read(fd, buf, count)` -/
def read (user : Bool) (d : DescRef) (buf count : Word) : KProg Int := do
  let s ← Prog.get
  match s.nodeOf d with
  | none => Prog.stop
  | some .tmpFile => tmpRead user d buf count
  | some .initramfsFile => initramfsRead user d buf count
  | some .devTty => ttyRead d buf count
  | some .devNull => return 0
  | some .procSelf => procSelfRead buf count
  | some (.initramfsDirectory _) | some (.tmpDirectory _) | some (.devDirectory _ _ _)
  | some (.procDirectory _) => return -EISDIR

/-! ## `write` -/

/-- `data[fd->offset++] = *(buff + i)` -/
def tmpWriteByte (d : DescRef) (buff : Word) : KProg (Bool × Word) := do
  let b ← loadByte true buff
  let s ← Prog.get
  let data := s.tmpDataOf d
  let offset := s.files.offsets d
  Prog.assert (offset.toNat < data.size)
  Prog.modify (fun s =>
    (s.setTmpData d { data with elems := data.elems.set offset.toNat b }).setOffset d (offset + 1))
  return (true, buff + 1)

/-- `data.resize(fd->offset + count)` -/
def tmpGrow (d : DescRef) (count : Word) : KProg Unit := do
  let s ← Prog.get
  match (s.tmpDataOf d).resize s.heap (s.files.offsets d + count).toNat with
  | none => Prog.stop
  | some data =>
    heapOps
    Prog.modify (fun s => s.setTmpData d data)

/-- `TmpFileInode::write` -/
def tmpWrite (d : DescRef) (buff count : Word) : KProg Int := do
  tmpGrow d count
  let _ ← Prog.loop (tmpWriteByte d) count.toNat buff
  Prog.modify (fun s => s.setSize d (BitVec.ofNat 64 (s.tmpDataOf d).size))
  return TmpFile.toInt32 count.toNat

/-- `DevTtyInode::write` -/
def ttyWrite (buffer count : Word) : KProg Int := do
  heapOps
  let _ ← kcopyFromUser buffer count
  return TmpFile.toInt32 count.toNat

/-- `inode->write(fd, buf, count)` -/
def write (d : DescRef) (buf count : Word) : KProg Int := do
  let s ← Prog.get
  match s.nodeOf d with
  | none => Prog.stop
  | some .tmpFile => tmpWrite d buf count
  | some .initramfsFile => return 0
  | some .devTty => ttyWrite buf count
  | some .devNull => return TmpFile.toInt32 count.toNat
  | some .procSelf => return -EROFS
  | some (.initramfsDirectory _) | some (.tmpDirectory _) | some (.devDirectory _ _ _)
  | some (.procDirectory _) => return -EISDIR

/-! ## `stat` and `ioctl` -/

/-- `stat->size = size; stat->type = type;` -/
def storeStat (stat size : Word) (type : FileType) : KProg Int := do
  storeWord true (stat + 8) size
  storeByte true stat type.byte
  return 0

/-- What `stat` of an inode stores, if anything. -/
def statOf (s : CallState) (x : InodeRef) : Option (Word × FileType) := do
  let inode ← s.files.vfs.inodes x
  match inode.node with
  | .tmpFile => some (s.files.sizes x, .regular)
  | .tmpDirectory _ => some (s.files.sizes x, .directory)
  | .devNull | .devTty => some (0, .charDevice)
  | _ => none

/-- `inode->stat(stat)` -/
def stat (x : InodeRef) (out : Word) : KProg Int := do
  let s ← Prog.get
  match statOf s x with
  | some (size, type) => storeStat out size type
  | none => return 0

def TIOCGWINSZ : Word := 0x5413

/-- `inode->ioctl(request, arg)`; the size of the screen is as the console has it. -/
def ioctl (d : DescRef) (request arg : Word) : KProg Int := do
  let s ← Prog.get
  match s.nodeOf d with
  | none => Prog.stop
  | some .devTty =>
    if request = TIOCGWINSZ then
      kcopyToUser arg [s.screenRows.extractLsb' 0 8, s.screenRows.extractLsb' 8 8,
        s.screenCols.extractLsb' 0 8, s.screenCols.extractLsb' 8 8, 0, 0, 0, 0]
      return 0
    else return -ENOTTY
  | _ => return -ENOTTY

/-! ## Paths -/

/-- The path that `path.front()` is read from. Without data this is a null pointer. -/
def frontOf : Option (List Byte) → KProg KString
  | some chars => return kstring chars
  | none => do
    let front ← loadByte false 0
    return kstring [front]

/-- `resolve_path`. An inode that is missing on the way would be a null pointer as well. -/
def resolvePath (str : Option (List Byte)) : KProg (Option InodeRef) := do
  heapOps
  let path ← frontOf str
  let s ← Prog.get
  match s.files.vfs.resolvePathTokens s.files.cwd path
      (if str.isSome then Algo.split path slash else []) with
  | none =>
    access false .load 0 8
    Prog.stop
  | some inode => return inode

/-- `fs::open` -/
def openPath (str : Option (List Byte)) : KProg (Option DescRef) := do
  match ← resolvePath str with
  | none => return none
  | some x =>
    heapOps
    let s ← Prog.get
    let d := s.files.nextDesc
    Prog.modify (fun s => { s with files := { s.files with
      nextDesc := d + 1
      inodeOf := update s.files.inodeOf d x
      offsets := update s.files.offsets d 0
      paths := update s.files.paths d (kstring (str.getD [])) } })
    return some d

/-- The loop of `alloc_fd` from entry `i` on. A closed entry is a null pointer, and `inode` is the
first field behind it. -/
def allocFdFrom : List (Option DescRef) → Nat → KProg Nat
  | [], i => do
    heapOps
    Prog.modify (fun s => { s with files := { s.files with table := s.files.table ++ [none] } })
    return i
  | some _ :: rest, i => allocFdFrom rest (i + 1)
  | none :: rest, i => do
    let inode ← loadWord false 0
    if inode = 0 then return i else allocFdFrom rest (i + 1)

def sysOpen (path : Word) : KProg Int := do
  let str ← fromUserspace path
  match ← openPath str with
  | none => return -FdState.ENOENT
  | some d =>
    let s ← Prog.get
    let fd ← allocFdFrom s.files.table 0
    Prog.modify (fun s =>
      { s with files := { s.files with table := s.files.table.set fd (some d) } })
    return fd

/-- `fs::stat` up to the inode. -/
def statPath (path : Word) : KProg (Option InodeRef) := do
  let str ← kstringOf path
  resolvePath str

def sysStat (path out : Word) : KProg Int := do
  match ← statPath path with
  | none => return -1
  | some x => stat x out

/-! ## Descriptors -/

/-- What the calls on a descriptor share. -/
def withFd (fd : BitVec 32) (method : DescRef → KProg Int) : KProg Int := do
  let s ← Prog.get
  match s.getFd fd with
  | none => return -FdState.EBADF
  | some d => method d

def sysRead (fd : BitVec 32) (buffer count : Word) : KProg Int :=
  withFd fd (fun d => read true d buffer count)

def sysWrite (fd : BitVec 32) (buffer count : Word) : KProg Int :=
  withFd fd (fun d => write d buffer count)

def sysFstat (fd : BitVec 32) (out : Word) : KProg Int := withFd fd fun d => do
  let s ← Prog.get
  stat (s.files.inodeOf d) out

def sysIoctl (fd : BitVec 32) (request arg : Word) : KProg Int :=
  withFd fd (fun d => ioctl d request arg)

/-- One round of `sys_readv`: an `iovec` holds the base, and behind it the length. -/
def readvOne (d : DescRef) (iov : Word) : KProg Int := do
  let len ← loadWord true (iov + 8)
  if len = 0 then return 0
  else
    let base ← loadWord true iov
    let len ← loadWord true (iov + 8)
    read true d base len

/-- The loop of `sys_readv`. An error leaves it before `clac`. -/
def readvFrom (d : DescRef) : Nat → Word → BitVec 32 → KProg Int
  | 0, _, total => do
    clac
    return total.toInt
  | n + 1, iov, total => do
    let ret ← readvOne d iov
    if ret < 0 then return if 0 < total.toInt then total.toInt else ret
    else readvFrom d n (iov + 16) (total + BitVec.ofInt 32 ret)

def sysReadv (fd : BitVec 32) (iov : Word) (iovcnt : BitVec 32) : KProg Int := withFd fd fun d =>
  if iovcnt.toInt < 0 then return -EINVAL
  else do
    stac
    readvFrom d iovcnt.toNat iov 0

/-- One round of `sys_writev`. The `iovec` that has been copied is what the memory holds. -/
def writevOne (d : DescRef) (iov : Word) : KProg Int := do
  let _ ← kcopyFromUser iov 16
  let s ← Prog.get
  if s.mem.word (iov + 8) = 0 then return 0
  else write d (s.mem.word iov) (s.mem.word (iov + 8))

def writevFrom (d : DescRef) : Nat → Word → BitVec 32 → KProg Int
  | 0, _, total => return total.toInt
  | n + 1, iov, total => do
    let ret ← writevOne d iov
    if ret < 0 then return if 0 < total.toInt then total.toInt else ret
    else writevFrom d n (iov + 16) (total + BitVec.ofInt 32 ret)

def sysWritev (fd : BitVec 32) (iov : Word) (iovcnt : BitVec 32) : KProg Int := withFd fd fun d =>
  if iovcnt.toInt < 0 then return -EINVAL else writevFrom d iovcnt.toNat iov 0

/-! ## Directories -/

def sysGetcwd (buffer size : Word) : KProg Int := do
  let s ← Prog.get
  match s.files.vfs.getcwd s.files.depth s.files.cwd with
  | none => Prog.stop
  | some cwd =>
    heapOps
    if cwd.length + 1 > size.toNat then return -ERANGE
    else
      kcopyToUser buffer (cwd.map (·.1) ++ [0])
      return buffer.toInt

def sysGetdents64 (fd : BitVec 32) (buffer : Word) (count : BitVec 32) :
    KProg Int := withFd fd fun d => do
  let s ← Prog.get
  let dir ← resolvePath (some ((s.files.paths d).map (·.1)))
  let entries := match dir with
    | none => []
    | some x => s.files.vfs.readdir x
  let offset := (s.files.offsets d).toNat
  if offset ≥ entries.length then return 0
  else
    let listed := (entries.drop offset).take (count.toNat / LinuxDirent64.size)
    let dirents :=
      listed.mapIdx (fun i entry => LinuxDirent64.ofEntry (BitVec.ofNat 64 (i + 1)) entry)
    heapOps
    Prog.modify (fun s => s.setOffset d (BitVec.ofNat 64 (offset + listed.length)))
    kcopyToUser buffer (dirents.flatMap LinuxDirent64.bytes)
    return TmpFile.toInt32 (dirents.length * LinuxDirent64.size)

end KProg

end Hltos
