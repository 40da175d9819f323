import Hltos.Fs.Reading
import Hltos.Fs.Resolve
import Hltos.Lib.Traced

/-!
# Accesses to user memory

What a system call does to the memory that the page tables show, one access at a time. Every access
is an event: its address, whether it faults, the AC flag while it is made, and whether the address
comes from a pointer of the caller. A fault or a panic stops the call.

Kernel objects (descriptors, inodes, strings that have been copied) are kept apart from the bytes of
the memory. Of the kernel heap only what it does to the flags and to the memory is followed; what
the containers ask it for at each place is given from outside, and so is what the terminal reads.
-/

namespace Hltos

open Lib.Traced Keeps
open Vmm (isUserAddr isUserRange userMaxAddr)

/-! ## The machine -/

inductive AccessKind where
  | load
  | store
deriving DecidableEq

structure Access where
  kind : AccessKind
  addr : Word
  size : Nat
  ac : Bool
  /-- It does not fault. -/
  done : Bool
  /-- The address is from a pointer of the caller. -/
  user : Bool
deriving DecidableEq

/-- The memory that the page tables show. No address between the two halves is canonical, and the
kernel has nothing in the last page. -/
structure VirtMem where
  byte : Lib.ByteMemory.Mem
  allows : AccessKind → Word → Bool
  hole : ∀ kind v, userMaxAddr ≤ v → v < 0xFFFF800000000000 → allows kind v = false
  top : ∀ kind v, 0xFFFFFFFFFFFFF000 ≤ v → allows kind v = false

namespace VirtMem

def set (m : VirtMem) (v : Word) (b : Byte) : VirtMem :=
  { m with byte := Function.update m.byte v b }

def setWord (m : VirtMem) (v w : Word) : VirtMem :=
  { m with byte := Lib.ByteMemory.store m.byte v w }

def word (m : VirtMem) (v : Word) : Word := Lib.ByteMemory.load m.byte v

end VirtMem

/-- What the kernel heap and the page tables are asked for. `frames` says how often `alloc_frame` is
called, and `page` where `map_heap_pages` begins. -/
inductive HeapOp where
  | kmalloc (size frames : Nat) (page : Word)
  | kfree (unmaps : Bool)
  /-- The functions on page tables that hold `g_vmm_lock`. -/
  | mapPages (frames : Nat)
  /-- Those that do not. -/
  | ensurePresent (frames : Nat)

/-- What one `read` of the terminal gets: the keys, and if it has to wait for them the memory and
the AC flag that it finds when it goes on. -/
structure TtyInput where
  events : List KeyEvent
  resumed : Option (VirtMem × Bool)

/-- The files as the process sees them. -/
structure OpenFiles where
  vfs : Vfs
  inv : vfs.Inv
  cwd : Option InodeRef
  cwdAt : ∀ x, cwd = some x → ∃ names, Vfs.At vfs names x
  table : List (Option DescRef)
  inodeOf : DescRef → InodeRef
  offsets : DescRef → Word
  paths : DescRef → KString
  tmpData : InodeRef → KVector Byte
  /-- `tar_data`, in the kernel half. -/
  tarData : InodeRef → { a : Word // isUserAddr a = false }
  ttyLines : InodeRef → TtyLine
  /-- `Inode::size` -/
  sizes : InodeRef → Word
  /-- Where the next descriptor is allocated. -/
  nextDesc : DescRef
  /-- How many inodes there are at most from `cwd` up to the root. -/
  depth : Nat

structure CallState where
  mem : VirtMem
  ac : Bool
  smap : Bool
  /-- AC in the `_rflags` that `g_vmm_lock` has saved. -/
  vmmLock : Bool
  /-- AC in the `_rflags` that `g_pmm_spinlock` has saved. -/
  pmmLock : Bool
  files : OpenFiles
  proc : ProcInfo
  screenRows : BitVec 16
  screenCols : BitVec 16
  /-- The next buffer of `sys_execve`. -/
  buffer : { a : Word // isUserAddr a = false }
  /-- The memory of the next program once it is loaded. -/
  newSpace : VirtMem
  /-- Where the next pages of the user heap are, and how many frames they take. -/
  uheapPage : Word
  uheapFrames : Nat
  heap : KHeap
  heapOps : List (List HeapOp)
  ttyInput : List TtyInput

namespace CallState

/-- The access does not fault: all its bytes are mapped for it, and with SMAP the kernel reaches
user memory only while AC is set. -/
def allowed (s : CallState) (kind : AccessKind) (v : Word) (n : Nat) : Bool :=
  (List.range n).all (fun i => s.mem.allows kind (v + BitVec.ofNat 64 i)) &&
    (!isUserAddr v || s.ac || !s.smap)

end CallState

abbrev KProg := Prog Access CallState

namespace KProg

def access (user : Bool) (kind : AccessKind) (v : Word) (n : Nat) : KProg Unit := do
  let s ← Prog.get
  Prog.emit ⟨kind, v, n, s.ac, s.allowed kind v n, user⟩
  Prog.assert (s.allowed kind v n)

def loadByte (user : Bool) (v : Word) : KProg Byte := do
  access user .load v 1
  let s ← Prog.get
  return s.mem.byte v

def loadWord (user : Bool) (v : Word) : KProg Word := do
  access user .load v 8
  let s ← Prog.get
  return s.mem.word v

def storeByte (user : Bool) (v : Word) (b : Byte) : KProg Unit := do
  access user .store v 1
  Prog.modify (fun s => { s with mem := s.mem.set v b })

def storeWord (user : Bool) (v w : Word) : KProg Unit := do
  access user .store v 8
  Prog.modify (fun s => { s with mem := s.mem.setWord v w })

/-! ## Flags and locks -/

def stac : KProg Unit := Prog.modify (fun s => { s with ac := true })

def clac : KProg Unit := Prog.modify (fun s => { s with ac := false })

def readRflags : KProg Bool := do
  let s ← Prog.get
  return s.ac

def writeRflags (rflags : Bool) : KProg Unit := Prog.modify (fun s => { s with ac := rflags })

/-- What stands between `lock` and `unlock` of `g_vmm_lock`. Both work on all of RFLAGS. -/
def withVmmLock (x : KProg Unit) : KProg Unit := do
  let rflags ← readRflags
  Prog.modify (fun s => { s with vmmLock := rflags })
  x
  let s ← Prog.get
  writeRflags s.vmmLock

/-- `pmm::alloc_frame` -/
def allocFrame : KProg Unit := do
  let rflags ← readRflags
  Prog.modify (fun s => { s with pmmLock := rflags })
  let s ← Prog.get
  writeRflags s.pmmLock

def allocFrames : Nat → KProg Unit
  | 0 => return ()
  | n + 1 => do
    allocFrame
    allocFrames n

/-- `map_heap_pages`. The page that the header is stored in has just been mapped. -/
def mapHeapPages (frames : Nat) (page : Word) : KProg Unit := withVmmLock do
  stac
  allocFrames frames
  let s ← Prog.get
  Prog.emit ⟨.store, page, 8, s.ac, true, false⟩
  clac

def kmalloc (size frames : Nat) (page : Word) : KProg Unit :=
  if size = 0 then return ()
  -- `slab::alloc`: a slab that has to be created takes a page
  else if size ≤ 1024 then if frames = 0 then return () else withVmmLock (allocFrames frames)
  else mapHeapPages frames page

/-- `kfree`, which gives pages back or not. -/
def kfree (unmaps : Bool) : KProg Unit := if unmaps then withVmmLock (return ()) else return ()

def heapOp : HeapOp → KProg Unit
  | .kmalloc size frames page => kmalloc size frames page
  | .kfree unmaps => kfree unmaps
  | .mapPages frames => withVmmLock (allocFrames frames)
  | .ensurePresent frames => allocFrames frames

def runHeapOps : List HeapOp → KProg Unit
  | [] => return ()
  | op :: ops => do
    heapOp op
    runHeapOps ops

/-- The next place where containers grow or are freed. -/
def heapOps : KProg Unit := do
  let s ← Prog.get
  Prog.modify (fun s => { s with heapOps := s.heapOps.tail })
  runHeapOps (s.heapOps.headD [])

/-! ## Copies -/

def storeBytes (user : Bool) (dst : Word) (bytes : List Byte) : KProg Unit := do
  let _ ← Prog.loop (fun c : Word × List Byte => do
    storeByte user c.1 (c.2.headD 0)
    return (true, (c.1 + 1, c.2.tail))) bytes.length (dst, bytes)
  return ()

def loadBytes (user : Bool) (src : Word) (n : Nat) : KProg (List Byte) := do
  let c ← Prog.loop (fun c : Word × List Byte => do
    let b ← loadByte user c.1
    return (true, (c.1 + 1, c.2 ++ [b]))) n (src, [])
  return c.2

/-- `memcpy` from a pointer of the kernel. -/
def memcpy (user : Bool) (dst src : Word) (n : Nat) : KProg Unit := do
  let _ ← Prog.loop (fun c : Word × Word => do
    let b ← loadByte false c.2
    storeByte user c.1 b
    return (true, (c.1 + 1, c.2 + 1))) n (dst, src)
  return ()

/-- `strlen`. The loop ends at the last page if not before. -/
def strlen (str : Word) : KProg Nat := do
  let c ← Prog.loop (fun c : Word × Nat => do
    let b ← loadByte true c.1
    return (b ≠ 0, (c.1 + 1, c.2 + if b = 0 then 0 else 1))) (2 ^ 64 - str.toNat) (str, 0)
  return c.2

/-- The flags are saved, `stac`, and the flags are written back. -/
def withAc {α : Type} (x : KProg α) : KProg α := do
  let rflags ← readRflags
  stac
  let a ← x
  writeRflags rflags
  return a

def kcopyToUser (dst : Word) (src : List Byte) : KProg Unit := do
  Prog.assert (isUserRange dst (BitVec.ofNat 64 src.length))
  withAc (storeBytes true dst src)

def kcopyFromUser (src : Word) (size : Word) : KProg (List Byte) := do
  Prog.assert (isUserRange src size)
  withAc (loadBytes true src size.toNat)

/-- `kstring(const char*)`: a null pointer gives a string without data. -/
def kstringOf (str : Word) : KProg (Option (List Byte)) :=
  if str = 0 then return none
  else do
    let len ← strlen str
    heapOps
    let bytes ← loadBytes true str (len + 1)
    return some (bytes.take len)

/-- `kstring::from_userspace` -/
def fromUserspace (chars : Word) : KProg (Option (List Byte)) := do
  Prog.assert (isUserAddr chars)
  withAc (kstringOf chars)

/-! ## What an access does -/

variable {P : Access → Prop} {s s' : CallState} {user : Bool} {kind : AccessKind} {v w : Word}
  {n : Nat} {b : Byte} {u : Unit} {x : KProg Unit}

theorem always_access : Always P (access user kind v n) s ↔
    P ⟨kind, v, n, s.ac, s.allowed kind v n, user⟩ := by
  rw [access, always_get_bind, always_bind]
  simp

theorem returns_access :
    Returns (access user kind v n) s u s' ↔ s.allowed kind v n = true ∧ s = s' := by
  rw [access, returns_get_bind, returns_bind]
  simp

theorem returns_access_bind {α : Type} {f : Unit → KProg α} {a : α} :
    Returns (access user kind v n >>= f) s a s' ↔
      s.allowed kind v n = true ∧ Returns (f ()) s a s' := by
  simp only [returns_bind, returns_access]
  constructor
  · rintro ⟨_, _, ⟨h, rfl⟩, hr⟩
    exact ⟨h, hr⟩
  · rintro ⟨h, hr⟩
    exact ⟨(), s, ⟨h, rfl⟩, hr⟩

theorem always_loadByte :
    Always P (loadByte user v) s ↔ P ⟨.load, v, 1, s.ac, s.allowed .load v 1, user⟩ := by
  simp [loadByte, always_bind, always_access]

theorem returns_loadByte : Returns (loadByte user v) s b s' ↔
    s.allowed .load v 1 = true ∧ s.mem.byte v = b ∧ s = s' := by
  rw [loadByte, returns_access_bind, returns_get_bind, returns_pure]

theorem always_loadWord :
    Always P (loadWord user v) s ↔ P ⟨.load, v, 8, s.ac, s.allowed .load v 8, user⟩ := by
  simp [loadWord, always_bind, always_access]

theorem returns_loadWord : Returns (loadWord user v) s w s' ↔
    s.allowed .load v 8 = true ∧ s.mem.word v = w ∧ s = s' := by
  rw [loadWord, returns_access_bind, returns_get_bind, returns_pure]

theorem always_storeByte : Always P (storeByte user v b) s ↔
    P ⟨.store, v, 1, s.ac, s.allowed .store v 1, user⟩ := by
  simp [storeByte, always_bind, always_access]

theorem returns_storeByte : Returns (storeByte user v b) s u s' ↔
    s.allowed .store v 1 = true ∧ { s with mem := s.mem.set v b } = s' := by
  rw [storeByte, returns_access_bind, returns_modify]

theorem always_storeWord : Always P (storeWord user v w) s ↔
    P ⟨.store, v, 8, s.ac, s.allowed .store v 8, user⟩ := by
  simp [storeWord, always_bind, always_access]

theorem returns_storeWord : Returns (storeWord user v w) s u s' ↔
    s.allowed .store v 8 = true ∧ { s with mem := s.mem.setWord v w } = s' := by
  rw [storeWord, returns_access_bind, returns_modify]

theorem returns_readRflags {rflags : Bool} :
    Returns readRflags s rflags s' ↔ s.ac = rflags ∧ s = s' := by
  rw [readRflags, returns_get_bind, returns_pure]

/-! ### What they leave as it is -/

section Keeps

variable {γ : Type} {p : CallState → γ} {bytes : List Byte} {α : Type}

theorem keeps_access : Keeps p (access user kind v n) := by
  intro s u s' h
  rw [(returns_access.mp h).2]

theorem keeps_loadByte : Keeps p (loadByte user v) := keeps_access.bind fun _ =>
  Keeps.get.bind fun _ => .pure

theorem keeps_loadWord : Keeps p (loadWord user v) := keeps_access.bind fun _ =>
  Keeps.get.bind fun _ => .pure

theorem keeps_storeByte (hp : ∀ s m, p { s with mem := m } = p s) : Keeps p (storeByte user v b) :=
  keeps_access.bind fun _ => .modify fun s => hp s _

theorem keeps_storeWord (hp : ∀ s m, p { s with mem := m } = p s) : Keeps p (storeWord user v w) :=
  keeps_access.bind fun _ => .modify fun s => hp s _

theorem keeps_readRflags : Keeps p readRflags := Keeps.get.bind fun _ => .pure

theorem keeps_loadBytes : Keeps p (loadBytes user v n) :=
  (loop (fun _ => keeps_loadByte.bind fun _ => .pure) _ _).bind fun _ => .pure

theorem keeps_strlen : Keeps p (strlen v) :=
  (loop (fun _ => keeps_loadByte.bind fun _ => .pure) _ _).bind fun _ => .pure

theorem keeps_storeBytes (hp : ∀ s m, p { s with mem := m } = p s) :
    Keeps p (storeBytes user v bytes) :=
  (loop (fun _ => (keeps_storeByte hp).bind fun _ => .pure) _ _).bind fun _ => .pure

theorem keeps_memcpy (hp : ∀ s m, p { s with mem := m } = p s) : Keeps p (memcpy user v w n) :=
  (loop (fun _ => keeps_loadByte.bind fun _ => (keeps_storeByte hp).bind fun _ => .pure) _ _).bind
    fun _ => .pure

/-- The flags come back as they were. -/
theorem keeps_ac_withAc {x : KProg α} : Keeps (·.ac) (withAc x) := by
  intro s a s' h
  simp only [withAc, writeRflags, stac, returns_bind, returns_readRflags,
    returns_modify, returns_pure] at h
  obtain ⟨_, _, ⟨rfl, rfl⟩, _, _, -, _, _, -, _, _, rfl, -, rfl⟩ := h
  rfl

theorem keeps_withAc {x : KProg α} (hp : ∀ s ac, p { s with ac := ac } = p s) (hx : Keeps p x) :
    Keeps p (withAc x) :=
  keeps_readRflags.bind fun _ => (modify fun s => hp s _).bind fun _ => hx.bind fun _ =>
    (modify fun s => hp s _).bind fun _ => .pure

theorem keeps_ac_fromUserspace : Keeps (·.ac) (fromUserspace v) :=
  assert.bind fun _ => keeps_ac_withAc

theorem keeps_ac_kcopyToUser : Keeps (·.ac) (kcopyToUser v bytes) :=
  assert.bind fun _ => keeps_ac_withAc

theorem keeps_ac_kcopyFromUser : Keeps (·.ac) (kcopyFromUser v w) :=
  assert.bind fun _ => keeps_ac_withAc

/-! ### The heap and the flags -/

/-- What `p` shows of the state are neither the flags nor what the heap changes. -/
structure Blind (p : CallState → γ) : Prop where
  ac : ∀ s ac, p { s with ac := ac } = p s
  vmmLock : ∀ s rflags, p { s with vmmLock := rflags } = p s
  pmmLock : ∀ s rflags, p { s with pmmLock := rflags } = p s
  heapOps : ∀ s ops, p { s with heapOps := ops } = p s

/-- `unlock` undoes what the code behind `lock` does to AC. -/
theorem keeps_ac_withVmmLock {x : KProg Unit} (hx : Keeps (·.vmmLock) x) :
    Keeps (·.ac) (withVmmLock x) := by
  intro s u s' h
  simp only [withVmmLock, writeRflags, returns_bind, returns_readRflags,
    returns_modify, returns_get] at h
  obtain ⟨_, _, ⟨rfl, rfl⟩, _, _, rfl, _, t, hr, _, _, ⟨rfl, rfl⟩, rfl⟩ := h
  exact hx _ _ _ hr

theorem Blind.withVmmLock (hp : Blind p) {x : KProg Unit} (hx : Keeps p x) :
    Keeps p (withVmmLock x) :=
  keeps_readRflags.bind fun _ => (modify fun s => hp.vmmLock s _).bind fun _ => hx.bind fun _ =>
    get.bind fun _ => .modify fun s => hp.ac s _

theorem keeps_ac_allocFrame : Keeps (·.ac) allocFrame := by
  intro s u s' h
  obtain ⟨_, _, ⟨rfl, rfl⟩, _, _, rfl, _, _, ⟨rfl, rfl⟩, rfl⟩ := h
  rfl

theorem keeps_allocFrame (hac : ∀ s ac, p { s with ac := ac } = p s)
    (hlock : ∀ s rflags, p { s with pmmLock := rflags } = p s) : Keeps p allocFrame :=
  keeps_readRflags.bind fun _ => (modify fun s => hlock s _).bind fun _ =>
    get.bind fun _ => .modify fun s => hac s _

theorem keeps_allocFrames (h : Keeps p allocFrame) (frames : Nat) :
    Keeps p (allocFrames frames) := by
  induction frames with
  | zero => exact .pure
  | succ n ih => exact h.bind fun _ => ih

theorem keeps_ac_mapHeapPages (frames : Nat) (page : Word) :
    Keeps (·.ac) (mapHeapPages frames page) := by
  apply keeps_ac_withVmmLock
  have hframes := keeps_allocFrames (keeps_allocFrame (fun _ _ => rfl) (fun _ _ => rfl) :
    Keeps (·.vmmLock) allocFrame) frames
  refine bind ?_ fun _ => hframes.bind fun _ => get.bind fun _ => emit.bind fun _ => ?_
  · exact .modify fun _ => rfl
  · exact .modify fun _ => rfl

theorem Blind.mapHeapPages (hp : Blind p) (frames : Nat) (page : Word) :
    Keeps p (mapHeapPages frames page) := by
  apply hp.withVmmLock
  exact (modify fun s => hp.ac s _).bind fun _ =>
    (keeps_allocFrames (keeps_allocFrame hp.ac hp.pmmLock) frames).bind fun _ => get.bind fun _ =>
    emit.bind fun _ => .modify fun s => hp.ac s _

theorem keeps_ac_heapOp (op : HeapOp) : Keeps (·.ac) (heapOp op) := by
  have hlocked (frames : Nat) : Keeps (·.ac) (withVmmLock (allocFrames frames)) :=
    keeps_ac_withVmmLock
      (keeps_allocFrames (keeps_allocFrame (fun _ _ => rfl) (fun _ _ => rfl)) frames)
  cases op with
  | kmalloc size frames page =>
    exact .ite .pure (.ite (.ite .pure (hlocked frames)) (keeps_ac_mapHeapPages frames page))
  | kfree unmaps => exact .ite (keeps_ac_withVmmLock .pure) .pure
  | mapPages frames => exact hlocked frames
  | ensurePresent frames => exact keeps_allocFrames keeps_ac_allocFrame frames

theorem Blind.heapOp (hp : Blind p) (op : HeapOp) : Keeps p (heapOp op) := by
  have hframes (frames : Nat) : Keeps p (allocFrames frames) :=
    keeps_allocFrames (keeps_allocFrame hp.ac hp.pmmLock) frames
  cases op with
  | kmalloc size frames page =>
    exact .ite .pure
      (.ite (.ite .pure (hp.withVmmLock (hframes frames))) (hp.mapHeapPages frames page))
  | kfree unmaps => exact .ite (hp.withVmmLock .pure) .pure
  | mapPages frames => exact hp.withVmmLock (hframes frames)
  | ensurePresent frames => exact hframes frames

theorem keeps_runHeapOps (h : ∀ op, Keeps p (heapOp op)) (ops : List HeapOp) :
    Keeps p (runHeapOps ops) := by
  induction ops with
  | nil => exact .pure
  | cons op ops ih => exact (h op).bind fun _ => ih

/-- **Allocations keep AC**, whatever is allocated: `map_heap_pages` clears it, but the lock that it
holds has saved it. -/
theorem keeps_ac_heapOps : Keeps (·.ac) heapOps := by
  refine get.bind fun _ => bind ?_ fun _ => keeps_runHeapOps keeps_ac_heapOp _
  exact .modify fun _ => rfl

theorem Blind.heapOps_keeps (hp : Blind p) : Keeps p KProg.heapOps :=
  get.bind fun _ => (modify fun s => hp.heapOps s _).bind fun _ => keeps_runHeapOps hp.heapOp _

end Keeps

theorem always_allocFrames (frames : Nat) : Always P (allocFrames frames) s := by
  induction frames generalizing s with
  | zero => exact always_pure.mpr trivial
  | succ n ih =>
    refine always_bind.mpr ⟨?_, fun _ _ _ => ih⟩
    simp [allocFrame, readRflags, writeRflags, always_bind]

theorem always_withVmmLock (hx : ∀ s, Always P x s) : Always P (withVmmLock x) s := by
  simp [withVmmLock, readRflags, writeRflags, always_bind, hx]

section

variable (hP : ∀ page, P ⟨.store, page, 8, true, true, false⟩)

include hP

/-- The only access of the heap to its pages is to the header, with AC set. -/
theorem always_mapHeapPages (frames : Nat) (page : Word) :
    Always P (mapHeapPages frames page) s := by
  apply always_withVmmLock
  intro s
  rw [stac, always_modify_bind, always_bind]
  refine ⟨always_allocFrames frames, ?_⟩
  intro _ t ht
  have hac : t.ac = true := keeps_allocFrames keeps_ac_allocFrame frames _ _ _ ht
  rw [always_get_bind, always_bind, always_emit, hac]
  exact ⟨hP page, fun _ _ _ => always_modify.mpr trivial⟩

theorem always_heapOps : Always P heapOps s := by
  have hop (op : HeapOp) (t : CallState) : Always P (heapOp op) t := by
    cases op with
    | kmalloc size frames page =>
      simp only [heapOp, kmalloc, always_ite, always_pure, implies_true, true_and]
      intro _
      exact ⟨fun _ _ => always_withVmmLock fun _ => always_allocFrames frames,
        fun _ => always_mapHeapPages hP frames page⟩
    | kfree unmaps =>
      simp only [heapOp, kfree, always_ite, always_pure, implies_true, and_true]
      exact fun _ => always_withVmmLock fun _ => always_pure.mpr trivial
    | mapPages frames => exact always_withVmmLock fun _ => always_allocFrames frames
    | ensurePresent frames => exact always_allocFrames frames
  have hops (ops : List HeapOp) (t : CallState) : Always P (runHeapOps ops) t := by
    induction ops generalizing t with
    | nil => exact always_pure.mpr trivial
    | cons op ops ih => exact always_bind.mpr ⟨hop op t, fun _ _ _ => ih _⟩
  exact hops _ _

end

/-! ### Allocations return -/

theorem total_allocFrames (frames : Nat) : Total (allocFrames frames) := by
  induction frames with
  | zero => exact .pure
  | succ n ih =>
    exact Total.bind ((Total.get.bind fun _ => .pure).bind fun _ => Total.modify.bind fun _ =>
      Total.get.bind fun _ => .modify) fun _ => ih

theorem total_withVmmLock (hx : Total x) : Total (withVmmLock x) :=
  (Total.get.bind fun _ => .pure).bind fun _ => Total.modify.bind fun _ => hx.bind fun _ =>
    Total.get.bind fun _ => .modify

theorem total_heapOp (op : HeapOp) : Total (heapOp op) := by
  cases op with
  | kmalloc size frames page =>
    refine .ite .pure (.ite (.ite .pure (total_withVmmLock (total_allocFrames frames))) ?_)
    exact total_withVmmLock (Total.modify.bind fun _ => (total_allocFrames frames).bind fun _ =>
      Total.get.bind fun _ => Total.emit.bind fun _ => .modify)
  | kfree unmaps => exact .ite (total_withVmmLock .pure) .pure
  | mapPages frames => exact total_withVmmLock (total_allocFrames frames)
  | ensurePresent frames => exact total_allocFrames frames

theorem total_heapOps : Total heapOps := by
  have hops (ops : List HeapOp) : Total (runHeapOps ops) := by
    induction ops with
    | nil => exact .pure
    | cons op ops ih => exact (total_heapOp op).bind fun _ => ih
  exact Total.get.bind fun _ => Total.modify.bind fun _ => hops _

end KProg

end Hltos
