import Hltos.Fs.Tar
import Hltos.Lib.Walk

/-!
# The inode tree of an initramfs

`parse_tar_headers` goes through the headers of the image and hangs an inode for each of them into
the tree, with the directories on the way that are not there yet. An `Inode*` is the place of the
inode in `inodes`; the root is the first one. What the kernel does where it takes a file for a
directory, or reads a token that is not there, is a missing result.
-/

namespace Hltos

open List Option

open Lib.ByteMemory (Mem)
open Lib.Walk

/-- The class of an inode, with the fields that the class uses. -/
inductive InitramfsNode where
  | directory (children : List InodeRef)
  | file (tarData size : Word)
deriving DecidableEq

structure InitramfsInode where
  ino : Nat
  parent : Option InodeRef
  name : KString
  node : InitramfsNode
deriving DecidableEq

/-- `InitramfsMountPoint`, with the inodes that were made for it. -/
structure Initramfs where
  inodes : List InitramfsInode
  nextIno : Nat
deriving DecidableEq

/-- What an inode is, apart from what is below it. -/
inductive InitramfsKind where
  | directory
  | file (tarData size : Word)
deriving DecidableEq

namespace InitramfsNode

def children : InitramfsNode → List InodeRef
  | directory children => children
  | file _ _ => []

def kind : InitramfsNode → InitramfsKind
  | directory _ => .directory
  | file tarData size => .file tarData size

def push (c : InodeRef) : InitramfsNode → InitramfsNode
  | directory children => directory (children ++ [c])
  | file tarData size => file tarData size

@[simp] theorem kind_push (c : InodeRef) (node : InitramfsNode) :
    (node.push c).kind = node.kind := by
  cases node <;> rfl

end InitramfsNode

/-- `new InitramfsDirectoryInode{this}` or `new InitramfsFileInode{this, data}`. -/
def InitramfsKind.node : InitramfsKind → InitramfsNode
  | directory => .directory []
  | file tarData size => .file tarData size

@[simp] theorem InitramfsKind.children_node (kind : InitramfsKind) : kind.node.children = [] := by
  cases kind <;> rfl

@[simp] theorem InitramfsKind.kind_node (kind : InitramfsKind) : kind.node.kind = kind := by
  cases kind <;> rfl

namespace Initramfs

def root : InodeRef := 0

def children (s : Initramfs) (x : InodeRef) : List InodeRef :=
  (s.inodes[x]?.map (·.node.children)).getD []

def kind (s : Initramfs) (x : InodeRef) : Option InitramfsKind := s.inodes[x]?.map (·.node.kind)

def name (s : Initramfs) (x : InodeRef) : Option KString := s.inodes[x]?.map (·.name)

/-- `lookup` of the inode. A file has none of its own, and `Inode::lookup` returns null. -/
def lookup (s : Initramfs) (x : InodeRef) (token : KString) : Option InodeRef :=
  (s.children x).find? (fun c => s.name c = some token)

/-- The names that `readdir` lists. -/
def readdir (s : Initramfs) (x : InodeRef) : List (Option KString) := (s.children x).map s.name

/-- A new inode. -/
def alloc (kind : InitramfsKind) (parent : Option InodeRef) (name : KString) (s : Initramfs) :
    InodeRef × Initramfs :=
  (s.inodes.length, ⟨s.inodes ++ [⟨s.nextIno, parent, name, kind.node⟩], s.nextIno + 1⟩)

/-- `x->children.push_back(c)` -/
def pushBack (x c : InodeRef) (s : Initramfs) : Initramfs :=
  { s with inodes := s.inodes.modify x (fun i => { i with node := i.node.push c }) }

def setParent (x parent : InodeRef) (name : KString) (s : Initramfs) : Initramfs :=
  { s with inodes := s.inodes.modify x (fun i => { i with parent := some parent, name }) }

/-- One turn of the loop of `insert_inode`. -/
def enter (current : InodeRef) (token : KString) (s : Initramfs) : Option (InodeRef × Initramfs) :=
  match s.lookup current token with
  | some existing =>
    -- the cast to a directory is not checked
    if s.kind existing = some .directory then some (existing, s) else none
  | none =>
    let (dir, s) := s.alloc .directory (some current) token
    some (dir, s.pushBack current dir)

/-- The loop of `insert_inode`, with the number of turns it has left. -/
def insertLoop (tokens : List KString) :
    Nat → Nat → InodeRef → Initramfs → Option (InodeRef × Initramfs)
  | 0, _, current, s => some (current, s)
  | n + 1, i, current, s => do
    let token ← tokens[i]?
    let (current, s) ← s.enter current token
    insertLoop tokens n (i + 1) current s

/-- `tokens.size() - 1`: a `std::size_t`. -/
def insertTurns (tokens : List KString) : Nat := (BitVec.ofNat 64 tokens.length - 1).toNat

def insertInode (path : KString) (inode : InodeRef) (s : Initramfs) : Option Initramfs := do
  let tokens := Algo.split path slash
  let (current, s) ← insertLoop tokens (insertTurns tokens) 0 root s
  let last ← tokens.getLast?
  return (s.setParent inode current last).pushBack current inode

end Initramfs

namespace Tar

/-- The inode that is made for a member. -/
def memberKind (m : Mem) (header : Word) : InitramfsKind :=
  if typeflag m header = typeflagDir then .directory
  else .file (header + 512) (sizeField m header)

end Tar

namespace Initramfs

open Tar

/-- One turn of the loop of `parse_tar_headers`, up to the label `next`. -/
def parseHeader (m : Mem) (header : Word) (s : Initramfs) : Option Initramfs :=
  match memberName m header with
  | none => some s
  | some filename => do
    let (inode, s) := s.alloc (memberKind m header) none []
    let path ← cString m filename
    s.insertInode path inode

/-- The loop of `parse_tar_headers`. -/
def parseFrom (m : Mem) (last : Word) : Nat → Word → Initramfs → Option Initramfs
  | 0, addr, s => if addr < last then none else some s
  | fuel + 1, addr, s =>
    if addr < last then do
      let s ← s.parseHeader m addr
      parseFrom m last fuel (nextHeader m addr) s
    else some s

/-- The root inode alone. -/
def empty : Initramfs := ((⟨[], 1⟩ : Initramfs).alloc .directory none []).2

def parseTarHeaders (fuel : Nat) (m : Mem) (tarBuffer tarSize : Word) : Option Initramfs :=
  parseFrom m (tarBuffer + tarSize) fuel tarBuffer empty

/-- The constructor of `InitramfsMountPoint` returns with this mount. -/
def Mounts (m : Mem) (tarBuffer tarSize : Word) (s : Initramfs) : Prop :=
  ∃ fuel, parseTarHeaders fuel m tarBuffer tarSize = some s

/-! ### What each write does to the lookups -/

variable {s s' : Initramfs} {x y c : InodeRef} {token : KString} {kind : InitramfsKind}
  {parent : Option InodeRef} {name : KString} {p q : List KString} {l : List InodeRef}
  {tokens : List KString} {path : KString}

/-- All inodes that a directory lists were made. -/
def Closed (s : Initramfs) : Prop := ∀ x, ∀ c ∈ s.children x, c < s.inodes.length

/-- An inode that is not in the tree yet. -/
structure Loose (s : Initramfs) (c : InodeRef) : Prop where
  made : c < s.inodes.length
  ne_root : c ≠ root
  notMem : ∀ x, c ∉ s.children x
  leaf : s.children c = []

theorem lt_length_of_kind (h : s.kind x = some kind) : x < s.inodes.length := by
  simp only [Initramfs.kind, map_eq_some_iff] at h
  obtain ⟨i, hi, -⟩ := h
  exact (List.getElem?_eq_some_iff.mp hi).1

theorem exists_kind (h : x < s.inodes.length) : ∃ k, s.kind x = some k := by
  simp [Initramfs.kind, h]

theorem children_eq_nil (h : s.inodes.length ≤ x) : s.children x = [] := by simp [children, h]

theorem lookup_eq_some (h : s.lookup x token = some c) : c ∈ s.children x ∧ s.name c = some token :=
  ⟨mem_of_find?_eq_some h, by simpa using find?_some h⟩

theorem lookup_eq_none_iff : s.lookup x token = none ↔ some token ∉ s.readdir x := by
  simp [lookup, readdir]

@[simp] theorem length_alloc :
    (s.alloc kind parent name).2.inodes.length = s.inodes.length + 1 := by
  simp [alloc]

@[simp] theorem length_pushBack : (s.pushBack x c).inodes.length = s.inodes.length := by
  simp [pushBack]

@[simp] theorem length_setParent : (s.setParent c x name).inodes.length = s.inodes.length := by
  simp [setParent]

@[simp] theorem children_alloc : (s.alloc kind parent name).2.children x = s.children x := by
  by_cases hx : x < s.inodes.length
  · simp [children, alloc, getElem?_append_left hx]
  · rw [children_eq_nil (Nat.le_of_not_lt hx)]
    simp only [children, alloc, getElem?_append_right (Nat.le_of_not_lt hx)]
    cases x - s.inodes.length <;> simp

theorem name_alloc (hx : x < s.inodes.length) : (s.alloc kind parent name).2.name x = s.name x := by
  simp [Initramfs.name, alloc, getElem?_append_left hx]

theorem kind_alloc (hx : x < s.inodes.length) : (s.alloc kind parent name).2.kind x = s.kind x := by
  simp [Initramfs.kind, alloc, getElem?_append_left hx]

@[simp] theorem name_alloc_self :
    (s.alloc kind parent name).2.name s.inodes.length = some name := by
  simp [Initramfs.name, alloc]

@[simp] theorem kind_alloc_self :
    (s.alloc kind parent name).2.kind s.inodes.length = some kind := by
  simp [Initramfs.kind, alloc]

theorem lookup_alloc (h : s.Closed) : (s.alloc kind parent name).2.lookup = s.lookup := by
  funext x token
  simp only [lookup, children_alloc]
  apply find?_congr
  intro c hc
  rw [name_alloc (h x c hc)]

/-- A write that keeps `f` of an inode keeps it everywhere. -/
theorem map_modify {α : Type} {inodes : List InitramfsInode} {w : InitramfsInode → InitramfsInode}
    {f : InitramfsInode → α} (h : ∀ i, f (w i) = f i) :
    (inodes.modify x w)[y]?.map f = inodes[y]?.map f := by
  rw [getElem?_modify]
  cases inodes[y]? with
  | none => rfl
  | some i =>
    by_cases hxy : x = y
    · simp [hxy, h]
    · simp [hxy]

@[simp] theorem name_pushBack : (s.pushBack x c).name y = s.name y := map_modify (fun _ => rfl)

@[simp] theorem kind_pushBack : (s.pushBack x c).kind y = s.kind y := map_modify (fun _ => by simp)

section

variable (hx : s.kind x = some .directory)

include hx

theorem children_pushBack :
    (s.pushBack x c).children y = if y = x then s.children x ++ [c] else s.children y := by
  simp only [Initramfs.kind, map_eq_some_iff] at hx
  obtain ⟨i, hi, hnode⟩ := hx
  by_cases hy : y = x
  · subst hy
    cases hn : i.node with
    | directory l => simp [children, pushBack, hi, hn, InitramfsNode.push, InitramfsNode.children]
    | file => simp [hn, InitramfsNode.kind] at hnode
  · rw [if_neg hy]
    simp [children, pushBack, Ne.symm hy]

theorem readdir_pushBack :
    (s.pushBack x c).readdir y = if y = x then s.readdir x ++ [s.name c] else s.readdir y := by
  simp only [readdir, children_pushBack hx]
  split <;> simp

theorem lookup_pushBack (hname : s.name c = some name) : (s.pushBack x c).lookup y token =
      if y = x then (s.lookup x token).or (if token = name then some c else none)
      else s.lookup y token := by
  simp only [lookup, children_pushBack hx, name_pushBack]
  split
  · simp [hname, eq_comm, find?_singleton]
  · rfl

end

@[simp] theorem children_setParent : (s.setParent c x name).children y = s.children y :=
  congrArg (fun o : Option (List InodeRef) => o.getD []) (map_modify (fun _ => rfl))

@[simp] theorem kind_setParent : (s.setParent c x name).kind y = s.kind y :=
  map_modify (fun _ => rfl)

theorem name_setParent (hy : y ≠ c) : (s.setParent c x name).name y = s.name y := by
  simp [Initramfs.name, setParent, hy.symm]

theorem Loose.readdir_setParent (hc : s.Loose c) :
    (s.setParent c x name).readdir y = s.readdir y := by
  simp only [readdir, children_setParent]
  apply map_congr_left
  intro d hd
  apply name_setParent
  rintro rfl
  exact hc.notMem y hd

theorem Loose.lookup_setParent (hc : s.Loose c) : (s.setParent c x name).lookup = s.lookup := by
  funext y token
  simp only [lookup, children_setParent]
  apply find?_congr
  intro d hd
  rw [name_setParent]
  rintro rfl
  exact hc.notMem y hd

/-! ### The tree -/

/-- The tree is well formed: what is reached from the root is reached on one path only. -/
structure Inv (s : Initramfs) : Prop where
  directory : s.kind root = some .directory
  closed : s.Closed
  unambiguous : Unambiguous s.lookup root

/-- The inode at a path from the root. -/
def find (s : Initramfs) (path : List KString) : Option InodeRef := walk s.lookup root path

/-- What is at a path from the root. -/
def view (s : Initramfs) (path : List KString) : Option InitramfsKind := (s.find path).bind s.kind

/-- Every directory lists each name once. -/
def NamesOnce (s : Initramfs) : Prop := ∀ x, (s.readdir x).Nodup

/-- Every inode that is not in the list is reached by lookups from the root. -/
def ReachedBut (s : Initramfs) (others : List InodeRef) : Prop :=
  ∀ x < s.inodes.length, x ∉ others → ∃ path, s.find path = some x

@[simp] theorem find_nil : s.find [] = some root := rfl

section

variable (hs : s.Inv)

include hs

theorem Inv.view_nil : s.view [] = some .directory := hs.directory

theorem Inv.lt_of_find (h : s.find p = some x) : x < s.inodes.length := by
  rcases p.eq_nil_or_concat with rfl | ⟨p, l, rfl⟩
  · cases h
    exact lt_length_of_kind hs.directory
  · rw [find, concat_eq_append, walk_concat] at h
    obtain ⟨y, -, hy⟩ := of_bind h
    exact hs.closed y x (lookup_eq_some hy).1

theorem Inv.view_eq_none_iff : s.view p = none ↔ s.find p = none := by
  constructor
  · intro h
    cases hf : s.find p with
    | none => rfl
    | some x =>
      obtain ⟨k, hk⟩ := exists_kind (hs.lt_of_find hf)
      simp [view, hf, hk] at h
  · intro h
    simp [view, h]

theorem Inv.alloc : (s.alloc kind parent name).2.Inv where
  directory := by rw [kind_alloc (lt_length_of_kind hs.directory), hs.directory]
  closed x c hc := by
    rw [children_alloc] at hc
    rw [length_alloc]
    exact Nat.lt_succ_of_lt (hs.closed x c hc)
  unambiguous := by
    rw [lookup_alloc hs.closed]
    exact hs.unambiguous

theorem Inv.loose_alloc : (s.alloc kind parent name).2.Loose s.inodes.length where
  made := by simp
  ne_root := (lt_length_of_kind hs.directory).ne'
  notMem x hx := by
    rw [children_alloc] at hx
    exact (hs.closed x _ hx).false
  leaf := by rw [children_alloc, children_eq_nil le_rfl]

theorem Inv.find_alloc : (s.alloc kind parent name).2.find p = s.find p := by
  rw [find, lookup_alloc hs.closed, find]

theorem Inv.view_alloc : (s.alloc kind parent name).2.view p = s.view p := by
  rw [view, hs.find_alloc, view]
  cases hf : s.find p with
  | none => rfl
  | some x => exact kind_alloc (hs.lt_of_find hf)

end

theorem Loose.alloc (hc : s.Loose c) : (s.alloc kind parent name).2.Loose c where
  made := by
    rw [length_alloc]
    exact Nat.lt_succ_of_lt hc.made
  ne_root := hc.ne_root
  notMem x := by
    rw [children_alloc]
    exact hc.notMem x
  leaf := by rw [children_alloc, hc.leaf]

theorem Inv.readdir_alloc (hs : s.Inv) : (s.alloc kind parent name).2.readdir x = s.readdir x := by
  simp only [readdir, children_alloc]
  exact map_congr_left (fun c hc => name_alloc (hs.closed x c hc))

/-! ### Hanging up an inode -/

/-- A loose inode with a new name is hung up. -/
theorem Loose.addEdge (hc : s.Loose c) (hx : s.kind x = some .directory)
    (hname : s.name c = some token)
    (habs : s.lookup x token = none) : AddEdge s.lookup (s.pushBack x c).lookup root x token c where
  absent := habs
  edge := by rw [lookup_pushBack hx hname, if_pos rfl, habs, if_pos rfl, none_or]
  other y l h := by
    rw [lookup_pushBack hx hname]
    split
    · next hy =>
      subst hy
      rw [if_neg (fun hl => h ⟨rfl, hl⟩), or_none]
    · rfl
  fresh y l h := hc.notMem y (lookup_eq_some h).1
  leaf l := by rw [lookup, hc.leaf, find?_nil]
  ne_root := hc.ne_root

theorem lookup_pushBack_of_present (hx : s.kind x = some .directory) (hname : s.name c = some token)
    (h : s.lookup x token ≠ none) : (s.pushBack x c).lookup = s.lookup := by
  funext y l
  rw [lookup_pushBack hx hname]
  split
  · next hy =>
    subst hy
    by_cases hl : l = token
    · obtain ⟨d, hd⟩ := ne_none_iff_exists'.mp h
      rw [hl, hd, some_or]
    · rw [if_neg hl, or_none]
  · rfl

section

variable (hs : s.Inv) (hc : s.Loose c) (hp : s.find p = some x) (hx : s.kind x = some .directory)
  (hname : s.name c = some token)

include hs hc hp hx hname

/-- The first inode of a name is the one that lookups find. -/
theorem Inv.find_pushBack (q : List KString) :
    (s.pushBack x c).find q = (s.find q).or (if q = p ++ [token] then some c else none) := by
  have hpt : s.find (p ++ [token]) = s.lookup x token := by
    rw [find, walk_concat, ← find, hp, bind_some]
  by_cases habs : s.lookup x token = none
  · rw [find, (hc.addEdge hx hname habs).walk_eq hs.unambiguous hp, ← find]
    split
    · next hq => rw [hq, hpt, habs, none_or]
    · rw [or_none]
  · rw [find, lookup_pushBack_of_present hx hname habs, ← find]
    split
    · next hq =>
      obtain ⟨d, hd⟩ := ne_none_iff_exists'.mp habs
      rw [hq, hpt, hd, some_or]
    · rw [or_none]

theorem Inv.pushBack : (s.pushBack x c).Inv where
  directory := by rw [kind_pushBack, hs.directory]
  closed y d hd := by
    rw [children_pushBack hx] at hd
    rw [length_pushBack]
    split at hd
    · rcases mem_append.mp hd with hd | hd
      · exact hs.closed x d hd
      · rw [mem_singleton.mp hd]
        exact hc.made
    · exact hs.closed y d hd
  unambiguous := by
    by_cases habs : s.lookup x token = none
    · exact (hc.addEdge hx hname habs).unambiguous hs.unambiguous hp
    · rw [lookup_pushBack_of_present hx hname habs]
      exact hs.unambiguous

theorem Inv.view_pushBack (q : List KString) :
    (s.pushBack x c).view q = (s.view q).or (if q = p ++ [token] then s.kind c else none) := by
  have hkind : (s.pushBack x c).kind = s.kind := funext (fun _ => kind_pushBack)
  rw [view, hs.find_pushBack hc hp hx hname, hkind, view]
  cases hf : s.find q with
  | none => split <;> rfl
  | some y =>
    obtain ⟨k, hk⟩ := exists_kind (hs.lt_of_find hf)
    simp [hk]

end

/-- A name that is there already is listed twice. -/
theorem namesOnce_pushBack (hp : s.find p = some x) (hx : s.kind x = some .directory)
    (hname : s.name c = some token) :
    (s.pushBack x c).NamesOnce ↔ s.NamesOnce ∧ s.find (p ++ [token]) = none := by
  have hpt : s.find (p ++ [token]) = s.lookup x token := by
    rw [find, walk_concat, ← find, hp, bind_some]
  rw [hpt, lookup_eq_none_iff]
  have hxx : (s.readdir x ++ [some token]).Nodup ↔
      (s.readdir x).Nodup ∧ some token ∉ s.readdir x := by
    rw [(perm_append_singleton _ _).nodup_iff, nodup_cons, and_comm]
  constructor
  · intro h
    have hnew := h x
    rw [readdir_pushBack hx, if_pos rfl, hname, hxx] at hnew
    refine ⟨fun y => ?_, hnew.2⟩
    by_cases hy : y = x
    · rw [hy]
      exact hnew.1
    · have := h y
      rwa [readdir_pushBack hx, if_neg hy] at this
  · rintro ⟨h, habs⟩ y
    rw [readdir_pushBack hx, hname]
    split
    · exact hxx.mpr ⟨h x, habs⟩
    · exact h y

theorem Loose.pushBack (hc : s.Loose c) (hx : s.kind x = some .directory)
    (hcx : c ≠ x) (hcy : c ≠ y) :
    (s.pushBack x y).Loose c where
  made := by
    rw [length_pushBack]
    exact hc.made
  ne_root := hc.ne_root
  notMem z := by
    rw [children_pushBack hx]
    split
    · simp [hc.notMem x, hcy]
    · exact hc.notMem z
  leaf := by rw [children_pushBack hx, if_neg hcx, hc.leaf]

theorem Loose.find_ne (hc : s.Loose c) (p : List KString) : s.find p ≠ some c := by
  rcases p.eq_nil_or_concat with rfl | ⟨p, l, rfl⟩
  · exact fun h => hc.ne_root (Option.some.inj h).symm
  · rw [find, concat_eq_append, walk_concat]
    intro h
    obtain ⟨y, -, hy⟩ := of_bind h
    exact hc.notMem y (lookup_eq_some hy).1

theorem Inv.reached_alloc (hs : s.Inv) (h : s.ReachedBut l) :
    (s.alloc kind parent name).2.ReachedBut (s.inodes.length :: l) := by
  intro x hx hmem
  obtain ⟨hne, hmem⟩ := not_or.mp (mem_cons.not.mp hmem)
  rw [length_alloc] at hx
  obtain ⟨p, hp⟩ := h x (by omega) hmem
  exact ⟨p, by rw [hs.find_alloc, hp]⟩

theorem Inv.reached_pushBack (hs : s.Inv) (hc : s.Loose c) (hp : s.find p = some x)
    (hx : s.kind x = some .directory) (hname : s.name c = some token)
    (habs : s.find (p ++ [token]) = none) (h : s.ReachedBut (c :: l)) :
    (s.pushBack x c).ReachedBut l := by
  intro y hy hmem
  by_cases hyc : y = c
  · refine ⟨p ++ [token], ?_⟩
    rw [hs.find_pushBack hc hp hx hname, habs, if_pos rfl, hyc, none_or]
  · rw [length_pushBack] at hy
    obtain ⟨q, hq⟩ := h y hy (by simp [hyc, hmem])
    exact ⟨q, by rw [hs.find_pushBack hc hp hx hname, hq, some_or]⟩

/-! ### The loop of `insert_inode` -/

/-- `current` is the directory at `path`, and the directories on the way there are all that is new.
-/
structure Entered (s s' : Initramfs) (path : List KString) (current : InodeRef) : Prop where
  inv : s'.Inv
  find : s'.find path = some current
  directory : s'.kind current = some .directory
  view : ∀ q, s'.view q = (s.view q).or (if q <+: path then some .directory else none)
  loose : ∀ c, s.Loose c → s'.Loose c ∧ s'.kind c = s.kind c
  namesOnce : s'.NamesOnce ↔ s.NamesOnce
  reached : ∀ l, s.ReachedBut l → s'.ReachedBut l

theorem Inv.entered_root (hs : s.Inv) : Entered s s [] root where
  inv := hs
  find := rfl
  directory := hs.directory
  view q := by
    by_cases hq : q = []
    · rw [hq, hs.view_nil, some_or]
    · rw [if_neg (by simpa using hq), or_none]
  loose c hc := ⟨hc, rfl⟩
  namesOnce := Iff.rfl
  reached _ := id

section

variable (h : Entered s s' p x)

include h

theorem Entered.find_concat : s'.find (p ++ [token]) = s'.lookup x token := by
  rw [Initramfs.find, walk_concat, ← Initramfs.find, h.find, bind_some]

/-- One more directory, behind those on the way to `p`. -/
theorem Entered.view_concat (q : List KString) :
    (s'.view q).or (if q = p ++ [token] then some .directory else none) =
      (s.view q).or (if q <+: p ++ [token] then some .directory else none) := by
  rw [h.view]
  by_cases hq : q <+: p
  · simp [hq, prefix_concat_iff]
  · simp [hq, prefix_concat_iff]

theorem Entered.existing (hy : s'.lookup x token = some y)
    (hdir : s'.kind y = some .directory) : Entered s s' (p ++ [token]) y where
  inv := h.inv
  find := by rw [h.find_concat, hy]
  directory := hdir
  view q := by
    rw [← h.view_concat]
    split
    · next hq =>
      have : s'.view q = some .directory := by
        rw [hq, Initramfs.view, h.find_concat, hy, bind_some, hdir]
      rw [this, some_or]
    · rw [or_none]
  loose := h.loose
  namesOnce := h.namesOnce
  reached := h.reached

/-- A directory on the way is not there yet and is made. -/
theorem Entered.created (habs : s'.lookup x token = none) :
    Entered s ((s'.alloc .directory (some x) token).2.pushBack x s'.inodes.length) (p ++ [token])
      s'.inodes.length := by
  have hx := h.inv.lt_of_find h.find
  have hs : (s'.alloc .directory (some x) token).2.Inv := h.inv.alloc
  have hc : (s'.alloc .directory (some x) token).2.Loose s'.inodes.length := h.inv.loose_alloc
  have hp : (s'.alloc .directory (some x) token).2.find p = some x := by
    rw [h.inv.find_alloc, h.find]
  have hdir : (s'.alloc .directory (some x) token).2.kind x = some .directory := by
    rw [kind_alloc hx, h.directory]
  have hpt : (s'.alloc .directory (some x) token).2.find (p ++ [token]) = none := by
    rw [h.inv.find_alloc, h.find_concat, habs]
  exact {
    inv := hs.pushBack hc hp hdir name_alloc_self
    find := by rw [hs.find_pushBack hc hp hdir name_alloc_self, hpt, if_pos rfl, none_or]
    directory := by rw [kind_pushBack, kind_alloc_self]
    view q := by
      rw [hs.view_pushBack hc hp hdir name_alloc_self, h.inv.view_alloc,
        kind_alloc_self, h.view_concat]
    loose c hl := by
      obtain ⟨hl', hkind⟩ := h.loose c hl
      refine ⟨hl'.alloc.pushBack hdir ?_ hl'.made.ne, ?_⟩
      · rintro rfl
        exact hl'.find_ne p h.find
      · rw [kind_pushBack, kind_alloc hl'.made, hkind]
    namesOnce := by
      rw [namesOnce_pushBack hp hdir name_alloc_self, and_iff_left hpt, ← h.namesOnce]
      simp only [NamesOnce, h.inv.readdir_alloc]
    reached l hr :=
      hs.reached_pushBack hc hp hdir name_alloc_self hpt (h.inv.reached_alloc (h.reached l hr)) }

end

/-- The members that are taken for directories on the way down a path are no files. -/
def PathClear (s : Initramfs) (path : List KString) : Prop :=
  ∀ q, q <+: path → q ≠ path → ∀ tarData size, s.view q ≠ some (.file tarData size)

/-- **One turn of the loop.** It goes wrong at a file only. -/
theorem Entered.enter (h : Entered s s' p x) (token : KString) :
    ((∃ tarData size, s.view (p ++ [token]) = some (.file tarData size)) ∧
      s'.enter x token = none) ∨
    ((∀ tarData size, s.view (p ++ [token]) ≠ some (.file tarData size)) ∧
      ∃ y t, s'.enter x token = some (y, t) ∧ Entered s t (p ++ [token]) y) := by
  have hview : s'.view (p ++ [token]) = s.view (p ++ [token]) := by
    rw [h.view, if_neg (by simp [prefix_iff_eq_append]), or_none]
  rw [← hview, Initramfs.view, h.find_concat]
  unfold Initramfs.enter
  cases hl : s'.lookup x token with
  | none => exact .inr ⟨by simp, _, _, rfl, h.created hl⟩
  | some y =>
    obtain ⟨k, hk⟩ := exists_kind (h.inv.closed x y (lookup_eq_some hl).1)
    cases k with
    | directory => exact .inr ⟨by simp [hk], y, s', by simp [hk], h.existing hl hk⟩
    | file tarData size => exact .inl ⟨⟨tarData, size, hk⟩, by simp [hk]⟩

/-- The loop over the tokens themselves. -/
def enterAll : List KString → InodeRef → Initramfs → Option (InodeRef × Initramfs)
  | [], current, s => some (current, s)
  | token :: tokens, current, s => do
    let (current, s) ← s.enter current token
    enterAll tokens current s

theorem insertLoop_eq {n i : Nat} (h : i + n ≤ tokens.length) :
    insertLoop tokens n i x s = enterAll ((tokens.drop i).take n) x s := by
  induction n generalizing i x s with
  | zero => simp [insertLoop, enterAll]
  | succ n ih =>
    have hi : i < tokens.length := by omega
    rw [drop_eq_getElem_cons hi, take_succ_cons, insertLoop, enterAll, getElem?_eq_getElem hi]
    simp only [bind_eq_bind, bind_some]
    congr
    funext ⟨y, t⟩
    exact ih (by omega)

/-- **The loop**: it goes wrong if it meets a file on the way, and otherwise makes the directories
that are missing. -/
theorem Entered.enterAll (tokens : List KString) (h : Entered s s' p x) :
    ((∃ q, q ≠ [] ∧ q <+: tokens ∧ ∃ tarData size, s.view (p ++ q) = some (.file tarData size)) ∧
      enterAll tokens x s' = none) ∨
    ((∀ q, q ≠ [] → q <+: tokens → ∀ tarData size, s.view (p ++ q) ≠ some (.file tarData size)) ∧
      ∃ y t, enterAll tokens x s' = some (y, t) ∧ Entered s t (p ++ tokens) y) := by
  induction tokens generalizing p x s' with
  | nil =>
    refine .inr ⟨?_, x, s', rfl, by rwa [append_nil]⟩
    intro q hq hpre
    exact absurd (prefix_nil.mp hpre) hq
  | cons token tokens ih =>
    rcases h.enter token with ⟨hfile, hnone⟩ | ⟨hclear, y, t, hsome, hent⟩
    · refine .inl ⟨⟨[token], by simp, by simp, hfile⟩, ?_⟩
      rw [Initramfs.enterAll, hnone]
      rfl
    · rw [Initramfs.enterAll, hsome]
      simp only [bind_eq_bind, bind_some]
      rcases ih hent with ⟨⟨q, hq, hpre, hfile⟩, hnone⟩ | ⟨hclear', hsome'⟩
      · refine .inl ⟨⟨token :: q, by simp, by simpa using hpre, ?_⟩, hnone⟩
        simpa using hfile
      · rw [append_assoc, singleton_append] at hsome'
        refine .inr ⟨?_, hsome'⟩
        intro q hq hpre
        obtain ⟨c, r, rfl⟩ := exists_cons_of_ne_nil hq
        obtain ⟨rfl, hr⟩ := cons_prefix_cons.mp hpre
        by_cases hr' : r = []
        · rw [hr']
          exact hclear
        · have := hclear' r hr' hr
          rwa [append_assoc, singleton_append] at this

/-! ### Inserting an inode -/

theorem Loose.setParent (hc : s.Loose c) : (s.setParent c x name).Loose c where
  made := by
    rw [length_setParent]
    exact hc.made
  ne_root := hc.ne_root
  notMem y := by
    rw [children_setParent]
    exact hc.notMem y
  leaf := by rw [children_setParent, hc.leaf]

theorem Loose.find_setParent (hc : s.Loose c) : (s.setParent c x name).find q = s.find q := by
  rw [find, hc.lookup_setParent, find]

theorem Loose.view_setParent (hc : s.Loose c) : (s.setParent c x name).view q = s.view q := by
  have hkind : (s.setParent c x name).kind = s.kind := funext (fun _ => kind_setParent)
  rw [view, hc.find_setParent, hkind, view]

theorem Inv.setParent (hs : s.Inv) (hc : s.Loose c) : (s.setParent c x name).Inv where
  directory := by rw [kind_setParent, hs.directory]
  closed y d hd := by
    rw [children_setParent] at hd
    rw [length_setParent]
    exact hs.closed y d hd
  unambiguous := by
    rw [hc.lookup_setParent]
    exact hs.unambiguous

/-- The inode is at the end of the path if nothing was there before, and the directories on the way
are there. -/
structure Inserted (s s' : Initramfs) (c : InodeRef) (path : List KString) (kind : InitramfsKind) :
    Prop where
  inv : s'.Inv
  view : ∀ q, s'.view q =
    (s.view q).or (if q <+: path then some (if q = path then kind else .directory) else none)
  namesOnce : s'.NamesOnce ↔ s.NamesOnce ∧ s.view path = none
  reached : s.ReachedBut [c] → s.view path = none → s'.ReachedBut []

/-- The end of `insert_inode`. -/
theorem Entered.insert (h : Entered s s' p x) (hc : s.Loose c) (hkind : s.kind c = some kind) :
    Inserted s ((s'.setParent c x token).pushBack x c) c (p ++ [token]) kind := by
  obtain ⟨hl, hkind'⟩ := h.loose c hc
  have hnew : ¬ p ++ [token] <+: p := fun hpre => by
    simpa [Nat.not_succ_le_self] using hpre.length_le
  have hs : (s'.setParent c x token).Inv := h.inv.setParent hl
  have hl' : (s'.setParent c x token).Loose c := hl.setParent
  have hp : (s'.setParent c x token).find p = some x := by rw [hl.find_setParent, h.find]
  have hdir : (s'.setParent c x token).kind x = some .directory := by
    rw [kind_setParent, h.directory]
  have hname : (s'.setParent c x token).name c = some token := by
    simp [Initramfs.name, setParent, hl.made]
  have hpt : (s'.setParent c x token).find (p ++ [token]) = none ↔
      s.view (p ++ [token]) = none := by
    rw [hl.find_setParent, ← h.inv.view_eq_none_iff, h.view, if_neg hnew, or_none]
  exact {
    inv := hs.pushBack hl' hp hdir hname
    view q := by
      rw [hs.view_pushBack hl' hp hdir hname, hl.view_setParent, kind_setParent,
        hkind', hkind, h.view]
      by_cases hq : q = p ++ [token]
      · simp [hq, hnew]
      · simp [hq, prefix_concat_iff]
    namesOnce := by
      rw [namesOnce_pushBack hp hdir hname, hpt, ← h.namesOnce]
      simp only [NamesOnce, hl.readdir_setParent]
    reached hr habs := by
      apply hs.reached_pushBack hl' hp hdir hname (hpt.mpr habs)
      intro y hy hmem
      rw [length_setParent] at hy
      simp only [hl.find_setParent]
      exact h.reached [c] hr y hy hmem }

theorem insertInode_of_split_eq_nil (h : Algo.split path slash = []) :
    s.insertInode path c = none := by
  rw [insertInode, h, show insertTurns [] = 18446744073709551614 + 1 by decide]
  rfl

theorem insertTurns_concat {last : KString} (h : tokens.length + 1 < 2 ^ 64) :
    insertTurns (tokens ++ [last]) = tokens.length := by
  rw [insertTurns, length_append, length_singleton]
  bv_omega

/-- **Inserting an inode**, at the path that it is given. -/
theorem Inv.insertInode (hs : s.Inv) (hc : s.Loose c) (hkind : s.kind c = some kind)
    (hne : Algo.split path slash ≠ []) (hlen : (Algo.split path slash).length < 2 ^ 64) :
    (¬ s.PathClear (Algo.split path slash) ∧ s.insertInode path c = none) ∨
    (s.PathClear (Algo.split path slash) ∧
      ∃ t, s.insertInode path c = some t ∧ Inserted s t c (Algo.split path slash) kind) := by
  unfold Initramfs.insertInode
  generalize Algo.split path slash = tokens at *
  obtain rfl | ⟨tokens, last, rfl⟩ := tokens.eq_nil_or_concat
  · exact absurd rfl hne
  rw [concat_eq_append] at *
  have hloop : insertLoop (tokens ++ [last]) (insertTurns (tokens ++ [last])) 0 root s =
      enterAll tokens root s := by
    rw [insertTurns_concat (by simpa using hlen), insertLoop_eq (by simp), drop_zero, take_left]
  have hclear : s.PathClear (tokens ++ [last]) ↔
      ∀ q, q ≠ [] → q <+: tokens →
      ∀ tarData size, s.view ([] ++ q) ≠ some (.file tarData size) := by
    constructor
    · intro h q _ hpre
      apply h q (hpre.trans (prefix_append tokens [last]))
      rintro rfl
      simpa [Nat.not_succ_le_self] using hpre.length_le
    · intro h q hpre hq
      by_cases hnil : q = []
      · simp [hnil, hs.view_nil]
      · exact h q hnil ((prefix_concat_iff.mp hpre).resolve_left hq)
  simp only [hloop, hclear, getLast?_concat, bind_eq_bind, bind_some]
  rcases hs.entered_root.enterAll tokens with ⟨⟨q, hq, hpre, d, n, hfile⟩, hnone⟩ |
    ⟨hall, y, t, hsome, hent⟩
  · refine .inl ⟨fun h => h q hq hpre d n hfile, ?_⟩
    rw [hnone]
    rfl
  · refine .inr ⟨hall, _, ?_, hent.insert hc hkind⟩
    rw [hsome]
    rfl

end Initramfs

end Hltos
