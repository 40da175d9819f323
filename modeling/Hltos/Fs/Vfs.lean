import Hltos.Containers.KString

/-!
# The virtual file system

Inodes, the file systems they belong to, and the mounts that join these. An `Inode*` is an
`InodeRef`, a `FileDescriptor*` a `DescRef`, and a `MountPoint*` is the place of the mount in
`g_mountpoints`; a null pointer is `none`.
What the kernel would do with a null pointer that it follows, or without a root mount, is a missing
result.
-/

namespace Hltos

abbrev InodeRef := Nat

abbrev MountRef := Nat

abbrev DescRef := Nat

inductive FileType where
  | none
  | regular
  | directory
  | charDevice
deriving DecidableEq

/-- The class of an inode, with what its `lookup` goes by. -/
inductive Node where
  | initramfsDirectory (children : List InodeRef)
  | initramfsFile
  | tmpDirectory (children : List InodeRef)
  | tmpFile
  | devDirectory (null tty1 tty2 : InodeRef)
  | devNull
  | devTty
  | procDirectory (self : InodeRef)
  | procSelf
deriving DecidableEq

namespace Node

/-- The type that the constructor of the class sets. -/
def type : Node → FileType
  | initramfsDirectory _ | tmpDirectory _ | devDirectory _ _ _ | procDirectory _ => .directory
  | initramfsFile | tmpFile => .regular
  | devNull | devTty | procSelf => .charDevice

/-- Every inode that `lookup` can return. -/
def children : Node → List InodeRef
  | initramfsDirectory children | tmpDirectory children => children
  | devDirectory null tty1 tty2 => [null, tty1, tty2]
  | procDirectory self => [self]
  | _ => []

end Node

structure Inode where
  mountpoint : MountRef
  parent : Option InodeRef
  name : KString
  node : Node

structure MountPoint where
  mountedOn : Option InodeRef
  rootInode : InodeRef
deriving DecidableEq

/-- `g_mountpoints`; the first one that is registered is `g_root_mountpoint`. -/
structure Vfs where
  inodes : InodeRef → Option Inode
  mounts : List MountPoint

def slash : KChar := ⟨0x2F, by decide⟩

/-- `"."` -/
def dot : KString := kstring [0x2E]

/-- `".."` -/
def dotdot : KString := kstring [0x2E, 0x2E]

/-- The inodes that `FileSystem::mount` makes. -/
structure FsTree where
  root : InodeRef
  inodes : InodeRef → Option Inode

/-- `TmpMountPoint` -/
def tmpfsTree (m : MountRef) (root : InodeRef) : FsTree where
  root := root
  inodes x := if x = root then some ⟨m, none, [], .tmpDirectory []⟩ else none

/-- `DevMountPoint`; the devices have no names. -/
def devfsTree (m : MountRef) (root null tty1 tty2 : InodeRef) : FsTree where
  root := root
  inodes x :=
    if x = root then some ⟨m, none, [], .devDirectory null tty1 tty2⟩
    else if x = null then some ⟨m, some root, [], .devNull⟩
    else if x = tty1 ∨ x = tty2 then some ⟨m, some root, [], .devTty⟩
    else none

/-- `ProcMountPoint` -/
def procfsTree (m : MountRef) (root self : InodeRef) : FsTree where
  root := root
  inodes x :=
    if x = root then some ⟨m, none, [], .procDirectory self⟩
    else if x = self then some ⟨m, some root, [], .procSelf⟩
    else none

/-- The virtual `lookup`. -/
def lookupIn (inodes : InodeRef → Option Inode) (x : InodeRef) (name : KString) :
    Option InodeRef := do
  let inode ← inodes x
  match inode.node with
  | .initramfsDirectory children => children.find? (fun c => (inodes c).any (·.name = name))
  | .tmpDirectory children => children.find? (fun c => (inodes c).any (·.name = name))
  | .devDirectory null tty1 tty2 =>
    if name = kstring [0x6E, 0x75, 0x6C, 0x6C] then some null
    else if name = kstring [0x74, 0x74, 0x79, 0x31] then some tty1
    else if name = kstring [0x74, 0x74, 0x79, 0x32] then some tty2
    else none
  | .procDirectory self => if name = kstring [0x73, 0x65, 0x6C, 0x66] then some self else none
  | _ => none

namespace Vfs

variable (s : Vfs)

abbrev lookup (x : InodeRef) (name : KString) : Option InodeRef := lookupIn s.inodes x name

/-- The virtual `readdir`. -/
def readdir (x : InodeRef) : List (KString × FileType) :=
  match s.inodes x with
  | none => []
  | some inode =>
    match inode.node with
    | .initramfsDirectory children | .tmpDirectory children =>
      children.filterMap (fun c => (s.inodes c).map (fun inode => (inode.name, inode.node.type)))
    | .devDirectory _ _ _ => [(kstring [0x6E, 0x75, 0x6C, 0x6C], .charDevice),
      (kstring [0x74, 0x74, 0x79, 0x31], .charDevice),
        (kstring [0x74, 0x74, 0x79, 0x32], .charDevice)]
    | .procDirectory _ => [(kstring [0x73, 0x65, 0x6C, 0x66], .regular)]
    | _ => []

def findMountAt (inode : InodeRef) : Option MountPoint :=
  s.mounts.find? (fun mp => mp.mountedOn = some inode)

/-- What a path goes on with behind an inode: the root of the file system that is mounted there. -/
def mounted (next : InodeRef) : InodeRef :=
  match s.findMountAt next with
  | some mp => mp.rootInode
  | none => next

/-- The branch of `resolve_path` for `".."`. -/
def dotdotOf (current : InodeRef) : Option (Option InodeRef) := do
  let inode ← s.inodes current
  let mp ← s.mounts[inode.mountpoint]?
  match if current = mp.rootInode then mp.mountedOn else none with
  | some mountedOn => return (← s.inodes mountedOn).parent
  | none => return if inode.parent ≠ none then inode.parent else some current

/-- The loop of `resolve_path` over the tokens. -/
def resolveTokens : List KString → Option InodeRef → Option (Option InodeRef)
  | [], current => some current
  | token :: tokens, current =>
    if token.isEmpty ∨ token = dot then resolveTokens tokens current
    else do
      let inode ← current
      if token = dotdot then resolveTokens tokens (← s.dotdotOf inode)
      else
        match s.lookup inode token with
        | none => some none
        | some next => resolveTokens tokens (some (s.mounted next))

/-- `resolve_path` with the tokens given, for a process whose current directory is `cwd`, if it has
one. -/
def resolvePathTokens (cwd : Option InodeRef) (path : KString) (tokens : List KString) :
    Option (Option InodeRef) := do
  let rootMount ← s.mounts.head?
  if path.head? = some slash ∨ cwd = none then s.resolveTokens tokens (some rootMount.rootInode)
  else s.resolveTokens tokens cwd

def resolvePath (cwd : Option InodeRef) (path : KString) : Option (Option InodeRef) :=
  s.resolvePathTokens cwd path (Algo.split path slash)

/-- The loop of `getcwd` up to the root, with the names found so far. -/
def getcwdFrom : Nat → Option InodeRef → List KString → Option (List KString)
  | _, none, path => some path
  | 0, some _, _ => none
  | fuel + 1, some x, path => do
    let inode ← s.inodes x
    getcwdFrom fuel inode.parent (if 0 < inode.name.length then inode.name :: path else path)

def getcwd (fuel : Nat) (inode : Option InodeRef) : Option KString :=
  (s.getcwdFrom fuel inode []).map (fun path => slash :: Algo.join path slash)

/-! ## Operations -/

/-- `fs::mount`, with the inodes that the file system has made. -/
def mount (cwd : Option InodeRef) (path : KString) (tree : FsTree) : Option Vfs := do
  let mountedOn ← s.resolvePath cwd path
  let root ← tree.inodes tree.root
  let inodes := fun x => (tree.inodes x).or (s.inodes x)
  return {
    inodes := Function.update inodes tree.root (some { root with parent := mountedOn })
    mounts := s.mounts ++ [⟨mountedOn, tree.root⟩] }

/-- What `TmpDirectoryInode::mkdir` and `create` share: a new inode at `new`, unless there is one of
that name. -/
def tmpAdd (node : Node) (x : InodeRef) (name : KString) (new : InodeRef) : Option Vfs := do
  let inode ← s.inodes x
  match inode.node with
  | .tmpDirectory children =>
    if s.lookup x name ≠ none then return s
    else
      let child : Inode := ⟨inode.mountpoint, some x, name, node⟩
      let parent : Inode := { inode with node := .tmpDirectory (children ++ [new]) }
      let inodes := Function.update s.inodes new (some child)
      return { s with inodes := Function.update inodes x (some parent) }
  | _ => none

def tmpMkdir (x : InodeRef) (name : KString) (new : InodeRef) : Option Vfs :=
  s.tmpAdd (.tmpDirectory []) x name new

def tmpCreate (x : InodeRef) (name : KString) (new : InodeRef) : Option Vfs :=
  s.tmpAdd .tmpFile x name new

/-- `fs::mkdir`. Only a directory of the tmpfs makes one. -/
def mkdir (cwd : Option InodeRef) (path : KString) (new : InodeRef) : Option Vfs := do
  let tokens := Algo.split path slash
  let newDir ← tokens.getLast?
  match ← s.resolvePathTokens cwd path tokens.dropLast with
  | none => return s
  | some x =>
    match (← s.inodes x).node with
    | .tmpDirectory _ => s.tmpMkdir x newDir new
    | _ => return s

/-- `sys_chdir`: the result, and the current directory behind it. -/
def sysChdir (cwd : Option InodeRef) (path : KString) : Option (Int × Option InodeRef) := do
  match ← s.resolvePath cwd path with
  | none => return (-9, cwd)
  | some x =>
    if (← s.inodes x).node.type ≠ .directory then return (-20, cwd) else return (0, some x)

end Vfs

end Hltos
