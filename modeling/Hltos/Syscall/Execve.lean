import Hltos.Syscall.Calls

/-!
# Accesses of `sys_execve`, `sys_mmap` and `sys_fork`

`sys_execve` copies the strings of the caller while AC is set, and `exec_elf64` parses the file
before it sets AC again. The file is not checked against its size: a program header can lie
anywhere.
-/

namespace Hltos

open Lib.Traced
open Vmm (isUserAddr isUserRange)

namespace KProg

/-! ## The arguments -/

/-- One round of the loop over `argv` or `envp`. -/
def copyString (c : Word × List (List Byte)) : KProg (Bool × (Word × List (List Byte))) := do
  let arg ← loadWord true c.1
  if arg = 0 then return (false, c)
  else
    let str ← fromUserspace arg
    heapOps
    return (true, (c.1 + 8, c.2 ++ [str.getD []]))

/-- The loop over `argv` or `envp`, which ends at the last page if not before. -/
def copyStrings (strs : Word) : KProg (List (List Byte)) :=
  if strs = 0 then return []
  else do
    let c ← Prog.loop copyString ((2 ^ 64 - strs.toNat) / 8 + 1) (strs, [])
    return c.2

/-- `new std::uint8_t[size]`; nothing is allocated for a size of 0. -/
def allocBuffer (size : Word) : KProg Word :=
  if size = 0 then return 0
  else do
    heapOps
    let s ← Prog.get
    return s.buffer.1

/-- `sys_execve` up to the strings. -/
def openProgram (path : Word) : KProg (Option Word) := do
  let str ← fromUserspace path
  match ← openPath str with
  | none => return none
  | some d =>
    let s ← Prog.get
    let size := s.files.sizes (s.files.inodeOf d)
    let data ← allocBuffer size
    let _ ← read false d data size
    return some data

/-! ## The file -/

/-- A field of `n` bytes of the kernel's memory. -/
def loadField (v : Word) (n : Nat) : KProg Word := do
  access false .load v n
  let s ← Prog.get
  return (Elf.readField (fun a => some (s.mem.byte a)) n v).getD 0

/-- `validate_magic`, `validate_class`, `validate_machine` and `validate_type`, as offset, size and
value. -/
def elfChecks : List (Word × Nat × Word) :=
  [(0, 1, 0x7F), (1, 1, 0x45), (2, 1, 0x4C), (3, 1, 0x46), (4, 1, 2), (18, 2, 0x3E), (16, 2, 2)]

def checkFields (buffer : Word) : List (Word × Nat × Word) → KProg Unit
  | [] => return ()
  | (offset, n, value) :: checks => do
    let field ← loadField (buffer + offset) n
    Prog.assert (field = value)
    checkFields buffer checks

/-- One round of the loop of `parse_file` over the program headers. -/
def parseHeader (buffer : Word) (c : Nat × List Elf64ProgramHeader) :
    KProg (Bool × (Nat × List Elf64ProgramHeader)) := do
  let phoff ← loadField (buffer + 32) 8
  let phentsize ← loadField (buffer + 54) 2
  let addr := buffer + phoff + BitVec.ofNat 64 c.1 * phentsize
  let type ← loadField addr 4
  if type ≠ Elf.ptLoad then return (true, (c.1 + 1, c.2))
  else
    access false .load addr 56
    let s ← Prog.get
    match Elf.readProgramHeader (fun a => some (s.mem.byte a)) addr with
    | none => Prog.stop
    | some header =>
      heapOps
      return (true, (c.1 + 1, c.2 ++ [header]))

/-- The beginning of `elf::parse_file`, up to `e_phnum`. -/
def checkHeader (buffer : Word) : KProg Word := do
  Prog.assert (buffer ≠ 0)
  checkFields buffer elfChecks
  let _ ← loadField (buffer + 24) 8
  loadField (buffer + 56) 2

/-- `elf::parse_file`, and that there is something to load. -/
def parseFile (buffer : Word) : KProg (List Elf64ProgramHeader) := do
  let phnum ← checkHeader buffer
  let c ← Prog.loop (parseHeader buffer) phnum.toNat (0, [])
  Prog.assert (!c.2.isEmpty)
  return c.2

/-! ## The new program -/

/-- `Process::map_elf64_header` -/
def mapElf64Header (fileBuffer : Word) (header : Elf64ProgramHeader) : KProg Unit := do
  heapOps
  memcpy false header.pVaddr (fileBuffer + header.pOffset) header.pFilesz.toNat
  if header.pMemsz > header.pFilesz then
    storeBytes false (header.pVaddr + header.pFilesz)
      (List.replicate (header.pMemsz - header.pFilesz).toNat 0)
  else return ()

def mapElf64Headers (fileBuffer : Word) : List Elf64ProgramHeader → KProg Unit
  | [] => return ()
  | header :: headers => do
    mapElf64Header fileBuffer header
    mapElf64Headers fileBuffer headers

/-- `*(--stack) = value` -/
def push (stack value : Word) : KProg Word := do
  storeWord false (stack - 8) value
  return stack - 8

def pushAll (stack : Word) : List Word → KProg Word
  | [] => return stack
  | value :: values => do
    let stack ← push stack value
    pushAll stack values

/-- The strings of `build_user_stack`, and where they are. -/
def pushStrings (stack : Word) (ptrs : List Word) : List (List Byte) → KProg (Word × List Word)
  | [] => return (stack, ptrs)
  | str :: strs => do
    let ptr := stack - BitVec.ofNat 64 (str.length + 1)
    storeBytes false ptr str
    storeByte false (ptr + BitVec.ofNat 64 str.length) 0
    heapOps
    pushStrings ptr (ptrs ++ [ptr]) strs

/-- `Process::build_user_stack`. Both kinds of strings end up in `argv_ptrs`. -/
def buildUserStack (argvStrs envpStrs : List (List Byte)) : KProg Unit := do
  heapOps
  let stack ← push Vmm.userStackTop 0
  let (stack, ptrs) ← pushStrings stack [] envpStrs
  let (stack, ptrs) ← pushStrings stack ptrs argvStrs
  let _ ← pushAll stack ([0, 0, 0, 0] ++ ptrs.reverse ++ [BitVec.ofNat 64 argvStrs.length])
  return ()

/-- `Process::exec_elf64` -/
def execElf64 (fileBuffer : Word) (argvStrs envpStrs : List (List Byte)) : KProg Unit := do
  let headers ← parseFile fileBuffer
  heapOps
  Prog.modify (fun s => { s with mem := s.newSpace })
  stac
  heapOps
  mapElf64Headers fileBuffer headers
  buildUserStack argvStrs envpStrs
  heapOps
  clac

/-- `sys_execve` up to `exec_elf64`: the file, and the strings. -/
def prepareExec (path argv envp : Word) :
    KProg (Option (Word × List (List Byte) × List (List Byte))) := do
  match ← openProgram path with
  | none => return none
  | some data =>
    stac
    let argvStrs ← copyStrings argv
    let envpStrs ← copyStrings envp
    clac
    return some (data, argvStrs, envpStrs)

/-- `sys_execve`, which returns only if there is no such file. -/
def sysExecve (path argv envp : Word) : KProg Int := do
  match ← prepareExec path argv envp with
  | none => return -1
  | some (data, argvStrs, envpStrs) =>
    execElf64 data argvStrs envpStrs
    Prog.stop

/-! ## Memory and processes -/

def MAP_ANONYMOUS : BitVec 32 := 0x20

/-- `sys_mmap`. `map_heap_pages` asserts that there is a first page. -/
def sysMmap (length : Word) (flags : BitVec 32) : KProg Int :=
  if flags &&& MAP_ANONYMOUS = 0 then return -1
  else do
    Prog.assert ((length + 8 + 4095) / 4096 ≠ 0)
    let s ← Prog.get
    mapHeapPages s.uheapFrames s.uheapPage
    return (s.uheapPage + 8).toInt

/-- `sys_fork`: the tables are cloned, and the new process is filled in while AC is set. -/
def sysFork (pid : BitVec 32) : KProg Int := do
  heapOps
  stac
  heapOps
  clac
  heapOps
  return pid.toInt

/-! ## Accesses of the kernel's own -/

/-- In states with `Q` an access through a pointer of the kernel has the property, and neither such
an access nor an allocation ends `Q`. -/
structure Own (P : Access → Prop) (Q : CallState → Prop) : Prop where
  access : ∀ s kind v n done, Q s → P ⟨kind, v, n, s.ac, done, false⟩
  header : ∀ page, P ⟨.store, page, 8, true, true, false⟩
  mem : ∀ s m, Q s → Q { s with mem := m }
  heapOps : ∀ s u s', Returns heapOps s u s' → Q s → Q s'

namespace Own

variable {P : Access → Prop} {Q : CallState → Prop} {v w : Word} {n : Nat} {b : Byte} (h : Own P Q)

include h

theorem safe_access {kind : AccessKind} : Safe P Q (KProg.access false kind v n) := by
  intro s hs
  refine ⟨always_access.mpr (h.access s kind v n _ hs), fun _ s' hr => ?_⟩
  rwa [← (returns_access.mp hr).2]

theorem safe_heapOps : Safe P Q KProg.heapOps :=
  fun s hs => ⟨always_heapOps h.header, fun u s' hr => h.heapOps s u s' hr hs⟩

theorem safe_setMem {f : CallState → VirtMem} :
    Safe P Q (Prog.modify (fun s => { s with mem := f s })) := by
  intro s hs
  refine ⟨always_modify.mpr trivial, fun _ s' hr => ?_⟩
  rw [← returns_modify.mp hr]
  exact h.mem s _ hs

theorem safe_loadByte : Safe P Q (loadByte false v) :=
  h.safe_access.bind fun _ => Safe.get.bind fun _ => .pure

theorem safe_storeByte : Safe P Q (storeByte false v b) := h.safe_access.bind fun _ => h.safe_setMem

theorem safe_storeBytes {bytes : List Byte} : Safe P Q (storeBytes false v bytes) :=
  (Safe.loop (fun _ => h.safe_storeByte.bind fun _ => .pure) _ _).bind fun _ => .pure

theorem safe_memcpy : Safe P Q (memcpy false v w n) :=
  (Safe.loop (fun _ => h.safe_loadByte.bind fun _ => h.safe_storeByte.bind fun _ => .pure) _ _).bind
    fun _ => .pure

theorem safe_loadField : Safe P Q (loadField v n) :=
  h.safe_access.bind fun _ => Safe.get.bind fun _ => .pure

theorem safe_checkFields (checks : List (Word × Nat × Word)) : Safe P Q (checkFields v checks) := by
  induction checks with
  | nil => exact .pure
  | cons check checks ih => exact h.safe_loadField.bind fun _ => Safe.assert.bind fun _ => ih

theorem safe_parseHeader (c : Nat × List Elf64ProgramHeader) : Safe P Q (parseHeader v c) := by
  refine h.safe_loadField.bind fun _ => h.safe_loadField.bind fun _ =>
    h.safe_loadField.bind fun _ => ?_
  refine Safe.ite .pure (h.safe_access.bind fun _ => Safe.get.bind fun s => ?_)
  split
  · exact .stop
  · exact h.safe_heapOps.bind fun _ => .pure

theorem safe_parseFile : Safe P Q (parseFile v) := by
  have hcheck : Safe P Q (checkHeader v) :=
    Safe.assert.bind fun _ => (h.safe_checkFields _).bind fun _ => h.safe_loadField.bind fun _ =>
      h.safe_loadField
  exact hcheck.bind fun _ => (Safe.loop h.safe_parseHeader _ _).bind fun _ =>
    Safe.assert.bind fun _ => .pure

theorem safe_mapElf64Headers (headers : List Elf64ProgramHeader) :
    Safe P Q (mapElf64Headers v headers) := by
  induction headers with
  | nil => exact .pure
  | cons header headers ih =>
    refine Safe.bind ?_ fun _ => ih
    exact h.safe_heapOps.bind fun _ => h.safe_memcpy.bind fun _ => Safe.ite h.safe_storeBytes .pure

theorem safe_push : Safe P Q (push v w) :=
  (h.safe_access.bind fun _ => h.safe_setMem).bind fun _ => .pure

theorem safe_pushAll (values : List Word) (v : Word) : Safe P Q (pushAll v values) := by
  induction values generalizing v with
  | nil => exact .pure
  | cons value values ih => exact h.safe_push.bind fun stack => ih stack

theorem safe_pushStrings (strs : List (List Byte)) (v : Word) (ptrs : List Word) :
    Safe P Q (pushStrings v ptrs strs) := by
  induction strs generalizing v ptrs with
  | nil => exact .pure
  | cons str strs ih =>
    exact h.safe_storeBytes.bind fun _ => h.safe_storeByte.bind fun _ =>
      h.safe_heapOps.bind fun _ => ih _ _

theorem safe_buildUserStack (argvStrs envpStrs : List (List Byte)) :
    Safe P Q (buildUserStack argvStrs envpStrs) :=
  h.safe_heapOps.bind fun _ => h.safe_push.bind fun _ => (h.safe_pushStrings _ _ _).bind fun _ =>
    (h.safe_pushStrings _ _ _).bind fun _ => (h.safe_pushAll _ _).bind fun _ => .pure

end Own

end KProg

/-! ## All of them -/

inductive UserCall where
  | read (fd : BitVec 32) (buffer count : Word)
  | readv (fd : BitVec 32) (iov : Word) (iovcnt : BitVec 32)
  | write (fd : BitVec 32) (buffer count : Word)
  | writev (fd : BitVec 32) (iov : Word) (iovcnt : BitVec 32)
  | stat (path out : Word)
  | fstat (fd : BitVec 32) (out : Word)
  | ioctl (fd : BitVec 32) (request arg : Word)
  | getcwd (buffer size : Word)
  | getdents64 (fd : BitVec 32) (buffer : Word) (count : BitVec 32)
  | open (path : Word)
  | execve (path argv envp : Word)
  | mmap (length : Word) (flags : BitVec 32)
  | fork (pid : BitVec 32)

namespace UserCall

open KProg

def run : UserCall → KProg Int
  | read fd buffer count => sysRead fd buffer count
  | readv fd iov iovcnt => sysReadv fd iov iovcnt
  | write fd buffer count => sysWrite fd buffer count
  | writev fd iov iovcnt => sysWritev fd iov iovcnt
  | stat path out => sysStat path out
  | fstat fd out => sysFstat fd out
  | ioctl fd request arg => sysIoctl fd request arg
  | getcwd buffer size => sysGetcwd buffer size
  | getdents64 fd buffer count => sysGetdents64 fd buffer count
  | .open path => sysOpen path
  | execve path argv envp => sysExecve path argv envp
  | mmap length flags => KProg.sysMmap length flags
  | fork pid => KProg.sysFork pid

/-- The accesses that the kernel makes in a call. -/
def accesses (call : UserCall) (s : CallState) : List Access := call.run.events s

end UserCall

end Hltos
