import Hltos.Fs.Vfs
import Hltos.Lib.Transition

/-!
# Mounts

The states that the file system gets into once a root is mounted: others are mounted on its
directories, and the tmpfs gets new inodes. Parents and children agree in all of them, and the
parent of a mounted root is the directory it is mounted on.
-/

namespace Hltos

open Lib.Transition Option List

namespace Vfs

/-! ## The states of the file system -/

variable {s s' : Vfs} {x y c : InodeRef} {n : KString} {inodes inodes' : InodeRef → Option Inode}
  {m : MountRef} {sub : Inode}

def IsMountRoot (s : Vfs) (x : InodeRef) : Prop := ∃ mp ∈ s.mounts, mp.rootInode = x

def IsDirectory (s : Vfs) (x : InodeRef) : Prop :=
  ∃ inode, s.inodes x = some inode ∧ inode.node.type = .directory

/-- The inodes of a file system: parents and children agree, a directory has the name it is found
by, and the root has none. -/
structure WellFormed (m : MountRef) (tree : FsTree) : Prop where
  root : ∃ inode, tree.inodes tree.root = some inode ∧ inode.name = []
  mountpoint : ∀ x inode, tree.inodes x = some inode → inode.mountpoint = m
  child : ∀ x inode, tree.inodes x = some inode → ∀ c ∈ inode.node.children,
    c ≠ tree.root ∧ ∃ sub, tree.inodes c = some sub ∧ sub.parent = some x
  named : ∀ x name c sub, lookupIn tree.inodes x name = some c → tree.inodes c = some sub →
    sub.node.type = .directory → sub.name = name

inductive Op where
  | mount (cwd : Option InodeRef) (path : KString) (tree : FsTree)
  | mkdir (cwd : Option InodeRef) (path : KString) (new : InodeRef)
  | tmpMkdir (dir : InodeRef) (name : KString) (new : InodeRef)
  | tmpCreate (dir : InodeRef) (name : KString) (new : InodeRef)

def next : Op → Vfs → Option Vfs
  | .mount cwd path tree, s => s.mount cwd path tree
  | .mkdir cwd path new, s => s.mkdir cwd path new
  | .tmpMkdir dir name new, s => s.tmpMkdir dir name new
  | .tmpCreate dir name new, s => s.tmpCreate dir name new

/-- A file system is mounted on a directory that is no mount root and has no other mount; new inodes
are where there is none. -/
def Legal : Op → Vfs → Prop
  | .mount cwd path tree, s =>
    (∃ x, s.resolvePath cwd path = some (some x) ∧ s.IsDirectory x ∧ ¬ s.IsMountRoot x ∧
      s.findMountAt x = none) ∧
    WellFormed s.mounts.length tree ∧ ∀ x, tree.inodes x ≠ none → s.inodes x = none
  | .mkdir _ _ new, s => s.inodes new = none
  | .tmpMkdir _ _ new, s => s.inodes new = none
  | .tmpCreate _ _ new, s => s.inodes new = none

/-- A root mount is registered. -/
def system : System Vfs Op where
  init s := ∃ tree, WellFormed 0 tree ∧
    (∀ inode, tree.inodes tree.root = some inode → inode.parent = none) ∧
    s = ⟨tree.inodes, [⟨none, tree.root⟩]⟩
  next := next

/-! ## Lookups -/

theorem mem_children_of_lookup {inode : Inode}
    (hx : inodes x = some inode) (h : lookupIn inodes x n = some c) : c ∈ inode.node.children := by
  simp only [lookupIn, hx, bind_eq_bind, bind_some] at h
  cases hnode : inode.node with
  | initramfsDirectory children => rw [hnode] at h; exact mem_of_find?_eq_some h
  | tmpDirectory children => rw [hnode] at h; exact mem_of_find?_eq_some h
  | devDirectory null tty1 tty2 =>
    simp only [Node.children, mem_cons]
    repeat' split at h
    all_goals simp_all
  | procDirectory self =>
    simp only [Node.children, mem_singleton]
    split at h <;> simp_all
  | initramfsFile | tmpFile | devNull | devTty | procSelf => rw [hnode] at h; cases h

theorem isDirectory_of_lookup (h : s.lookup x n = some c) : s.IsDirectory x := by
  obtain ⟨inode, hx, -⟩ := of_bind h
  refine ⟨inode, hx, ?_⟩
  have hc := mem_children_of_lookup hx h
  cases hnode : inode.node with
  | initramfsDirectory | tmpDirectory | devDirectory | procDirectory => rfl
  | initramfsFile | tmpFile | devNull | devTty | procSelf => rw [hnode] at hc; cases hc

theorem find?_congr_name {children : List InodeRef}
    (hc : ∀ c ∈ children, (inodes' c).map Inode.name = (inodes c).map Inode.name) :
    children.find? (fun c => (inodes' c).any (·.name = n)) =
      children.find? (fun c => (inodes c).any (·.name = n)) := by
  apply List.find?_congr
  intro c hm
  have hname := hc c hm
  cases h : inodes c <;> cases h' : inodes' c <;> simp_all

/-- `lookup` goes by the class of the directory and the names of its children. -/
theorem lookupIn_congr {inode inode' : Inode}
    (hx : inodes x = some inode) (hx' : inodes' x = some inode') (hnode : inode'.node = inode.node)
    (hc : ∀ c ∈ inode.node.children, (inodes' c).map Inode.name = (inodes c).map Inode.name) :
    lookupIn inodes' x n = lookupIn inodes x n := by
  simp only [lookupIn, hx, hx', bind_eq_bind, bind_some, hnode]
  cases hn : inode.node with
  | initramfsDirectory children => exact find?_congr_name (by rw [hn] at hc; exact hc)
  | tmpDirectory children => exact find?_congr_name (by rw [hn] at hc; exact hc)
  | devDirectory | procDirectory | initramfsFile | tmpFile | devNull | devTty | procSelf => rfl

/-! ## The file systems of the kernel -/

theorem wellFormed_tmpfs (m : MountRef) (root : InodeRef) : WellFormed m (tmpfsTree m root) := by
  have hinode : ∀ x inode, (tmpfsTree m root).inodes x = some inode →
      inode = ⟨m, none, [], .tmpDirectory []⟩ := by
    intro x inode hx
    simp only [tmpfsTree] at hx
    split at hx <;> cases hx
    rfl
  refine ⟨⟨_, if_pos rfl, rfl⟩, ?_, ?_, ?_⟩
  · intro x inode hx
    rw [hinode x inode hx]
  · intro x inode hx c hc
    rw [hinode x inode hx] at hc
    cases hc
  · intro x name c sub hlook hsub
    obtain ⟨inode, hx, -⟩ := of_bind hlook
    have hc := mem_children_of_lookup hx hlook
    rw [hinode x inode hx] at hc
    cases hc

/-- A file system of one directory, in which nothing is a directory. -/
theorem wellFormed_flat {tree : FsTree} {inode : Inode}
    (hroot : tree.inodes tree.root = some inode) (hname : inode.name = [])
    (hmount : ∀ x sub, tree.inodes x = some sub → sub.mountpoint = m)
    (hflat : ∀ x sub, tree.inodes x = some sub → x ≠ tree.root →
      sub.node.children = [] ∧ sub.node.type ≠ .directory)
    (hchild : ∀ c ∈ inode.node.children, c ≠ tree.root ∧
      ∃ sub, tree.inodes c = some sub ∧ sub.parent = some tree.root) : WellFormed m tree := by
  have hchildren : ∀ x sub, tree.inodes x = some sub → ∀ c ∈ sub.node.children, x = tree.root ∧
      sub = inode := by
    intro x sub hx c hc
    by_cases heq : x = tree.root
    · subst heq
      exact ⟨rfl, some.inj (hx.symm.trans hroot)⟩
    · rw [(hflat x sub hx heq).1] at hc
      cases hc
  refine ⟨⟨inode, hroot, hname⟩, hmount, ?_, ?_⟩
  · intro x sub hx c hc
    obtain ⟨rfl, rfl⟩ := hchildren x sub hx c hc
    exact hchild c hc
  · intro x name c sub hlook hsub htype
    obtain ⟨dir, hx, -⟩ := of_bind hlook
    have hc := mem_children_of_lookup hx hlook
    obtain ⟨rfl, rfl⟩ := hchildren x dir hx c hc
    exact absurd htype (hflat c sub hsub (hchild c hc).1).2

/-- The devices have no names, but none of them is a directory. -/
theorem wellFormed_devfs (m : MountRef) {root null tty1 tty2 : InodeRef}
    (h : root ∉ [null, tty1, tty2]) : WellFormed m (devfsTree m root null tty1 tty2) := by
  simp only [mem_cons, not_mem_nil, or_false, not_or] at h
  obtain ⟨h1, h2, h3⟩ := h
  refine wellFormed_flat (if_pos rfl) rfl ?_ ?_ ?_
  · intro x sub hx
    simp only [devfsTree] at hx
    repeat' split at hx
    all_goals cases hx
    all_goals rfl
  · intro x sub hx hne
    simp only [devfsTree] at hx hne
    rw [if_neg hne] at hx
    repeat' split at hx
    all_goals cases hx
    all_goals exact ⟨rfl, by simp [Node.type]⟩
  · intro c hc
    simp only [Node.children, mem_cons, not_mem_nil, or_false] at hc
    have hne : c ≠ root := by rcases hc with rfl | rfl | rfl <;> exact Ne.symm ‹_›
    refine ⟨hne, ?_⟩
    simp only [devfsTree, if_neg hne]
    by_cases hnull : c = null
    · exact ⟨_, if_pos hnull, rfl⟩
    · rw [if_neg hnull, if_pos (hc.resolve_left hnull)]
      exact ⟨_, rfl, rfl⟩

theorem wellFormed_procfs (m : MountRef) {root self : InodeRef} (h : self ≠ root) :
    WellFormed m (procfsTree m root self) := by
  refine wellFormed_flat (if_pos rfl) rfl ?_ ?_ ?_
  · intro x sub hx
    simp only [procfsTree] at hx
    repeat' split at hx
    all_goals cases hx
    all_goals rfl
  · intro x sub hx hne
    simp only [procfsTree] at hx hne
    rw [if_neg hne] at hx
    split at hx
    · cases hx; exact ⟨rfl, by simp [Node.type]⟩
    · cases hx
  · intro c hc
    rw [mem_singleton.mp hc]
    refine ⟨h, ?_⟩
    simp only [procfsTree, if_neg h, if_pos]
    exact ⟨_, rfl, rfl⟩

/-! ## The invariant -/

structure Inv (s : Vfs) : Prop where
  child : ∀ x inode, s.inodes x = some inode → ∀ c ∈ inode.node.children, ¬ s.IsMountRoot c ∧
    ∃ sub, s.inodes c = some sub ∧ sub.mountpoint = inode.mountpoint ∧ sub.parent = some x
  named : ∀ x name c sub, s.lookup x name = some c → s.inodes c = some sub →
    sub.node.type = .directory → sub.name = name
  root : ∀ m mp, s.mounts[m]? = some mp → ∃ inode, s.inodes mp.rootInode = some inode ∧
    inode.name = [] ∧ inode.mountpoint = m ∧ inode.parent = mp.mountedOn
  on : ∀ mp ∈ s.mounts, ∀ x, mp.mountedOn = some x → s.IsDirectory x
  valid : ∀ x inode, s.inodes x = some inode → inode.mountpoint < s.mounts.length
  first : ∃ r ms, s.mounts = ⟨none, r⟩ :: ms

/-- In a directory with a list of children, what is found has the name that was asked for. -/
theorem named_of_tmpDirectory {inode : Inode}
    {children : List InodeRef} (hx : inodes x = some inode)
    (hnode : inode.node = .tmpDirectory children)
    (h : lookupIn inodes x n = some c) (hc : inodes c = some sub) : sub.name = n := by
  simp only [lookupIn, hx, bind_eq_bind, bind_some, hnode] at h
  simpa [hc] using List.find?_some h

/-- The inodes that are there keep all but their children. -/
def Kept (s s' : Vfs) : Prop :=
  ∀ z old, s.inodes z = some old → ∃ now, s'.inodes z = some now ∧ now.name = old.name ∧
    now.mountpoint = old.mountpoint ∧ now.parent = old.parent ∧ now.node.type = old.node.type

/-- A new child of a directory of the tmpfs: the other inodes are as they were. -/
structure Added (node : Node) (x : InodeRef) (n : KString) (new : InodeRef) (inode : Inode)
    (children : List InodeRef) (s s' : Vfs) : Prop where
  dir : s.inodes x = some inode
  listed : inode.node = .tmpDirectory children
  free : s.lookup x n = none
  parent : s'.inodes x = some { inode with node := .tmpDirectory (children ++ [new]) }
  child : s'.inodes new = some ⟨inode.mountpoint, some x, n, node⟩
  other : ∀ z, z ≠ x → z ≠ new → s'.inodes z = s.inodes z
  mounts : s'.mounts = s.mounts

theorem tmpAdd_cases {node : Node} {new : InodeRef} (hnew : s.inodes new = none)
    (hrun : s.tmpAdd node x n new = some s') :
    (s.lookup x n ≠ none ∧ s' = s) ∨ ∃ inode children, Added node x n new inode children s s' := by
  obtain ⟨inode, hx, hrun⟩ := of_bind hrun
  split at hrun
  · next children hchildren =>
    split at hrun
    · next hfound =>
      cases hrun
      exact Or.inl ⟨hfound, rfl⟩
    · next hfree =>
      have hne : new ≠ x := by
        rintro rfl
        rw [hnew] at hx
        cases hx
      cases hrun
      refine Or.inr ⟨inode, children, hx, hchildren, not_not.mp hfree, Function.update_self .., ?_,
        fun z hzx hzn => ?_, rfl⟩
      · simp [Function.update_of_ne hne]
      · simp [Function.update_of_ne hzx, Function.update_of_ne hzn]
  · cases hrun

namespace Added

variable {node : Node} {new z : InodeRef} {inode now : Inode} {children : List InodeRef}
  (h : Added node x n new inode children s s')

include h

theorem cases (hz : s'.inodes z = some now) :
    (z = x ∧ now = { inode with node := .tmpDirectory (children ++ [new]) }) ∨
    (z = new ∧ now = ⟨inode.mountpoint, some x, n, node⟩) ∨ s.inodes z = some now := by
  by_cases hzx : z = x
  · subst hzx
    exact Or.inl ⟨rfl, some.inj (hz.symm.trans h.parent)⟩
  · by_cases hzn : z = new
    · subst hzn
      exact Or.inr (Or.inl ⟨rfl, some.inj (hz.symm.trans h.child)⟩)
    · exact Or.inr (Or.inr (by rw [← h.other z hzx hzn, hz]))

theorem kept (hnew : s.inodes new = none) : Kept s s' := by
  intro z old hz
  by_cases hzx : z = x
  · subst hzx
    cases h.dir.symm.trans hz
    exact ⟨_, h.parent, rfl, rfl, rfl, by rw [h.listed]; rfl⟩
  · have hzn : z ≠ new := by
      rintro rfl
      rw [hnew] at hz
      cases hz
    exact ⟨old, by rw [h.other z hzx hzn, hz], rfl, rfl, rfl, rfl⟩

/-- What was found before is found still. -/
theorem lookup (hinv : ∀ z old, s.inodes z = some old →
    ∀ c ∈ old.node.children, s.inodes c ≠ none) (hnew : s.inodes new = none) {name : KString}
    {c : InodeRef} (hlook : s.lookup z name = some c) : s'.lookup z name = some c := by
  obtain ⟨old, hz, -⟩ := of_bind hlook
  have hnames : ∀ c ∈ old.node.children,
      (s'.inodes c).map Inode.name = (s.inodes c).map Inode.name := by
    intro c hc
    obtain ⟨sub, hsub⟩ := ne_none_iff_exists'.mp (hinv z old hz c hc)
    obtain ⟨now, hnow, hname, -⟩ := h.kept hnew c sub hsub
    rw [hnow, hsub, map_some, map_some, hname]
  by_cases hzx : z = x
  · subst hzx
    cases h.dir.symm.trans hz
    simp only [Vfs.lookup, lookupIn, hz, h.parent, h.listed, bind_eq_bind, bind_some]
      at hlook ⊢
    -- the search comes to the new child last
    rw [List.find?_append, find?_congr_name (fun c hc => hnames c (by rw [h.listed]; exact hc)),
      hlook]
    rfl
  · have hzn : z ≠ new := by
      rintro rfl
      rw [hnew] at hz
      cases hz
    rw [← hlook]
    exact lookupIn_congr hz (by rw [h.other z hzx hzn, hz]) rfl hnames

end Added

namespace Inv

/-- The root mount alone. -/
theorem of_init (h : system.init s) : Inv s := by
  obtain ⟨tree, hwf, hparent, rfl⟩ := h
  have hroot : ∀ c, IsMountRoot ⟨tree.inodes, [⟨none, tree.root⟩]⟩ c → c = tree.root := by
    rintro c ⟨mp, hmp, rfl⟩
    rw [mem_singleton.mp hmp]
  refine ⟨?_, hwf.named, ?_, ?_, ?_, tree.root, [], rfl⟩
  · intro x inode hx c hc
    obtain ⟨hne, sub, hsub, hpar⟩ := hwf.child x inode hx c hc
    refine ⟨fun hr => hne (hroot c hr), sub, hsub, ?_, hpar⟩
    rw [hwf.mountpoint c sub hsub, hwf.mountpoint x inode hx]
  · intro m mp hm
    obtain ⟨inode, hinode, hname⟩ := hwf.root
    obtain ⟨rfl, rfl⟩ : m = 0 ∧ mp = ⟨none, tree.root⟩ := by
      cases m with
      | zero => exact ⟨rfl, by simpa using hm.symm⟩
      | succ m => simp at hm
    exact ⟨inode, hinode, hname, hwf.mountpoint _ _ hinode, hparent inode hinode⟩
  · intro mp hmp x hx
    rw [mem_singleton.mp hmp] at hx
    cases hx
  · intro x inode hx
    rw [hwf.mountpoint x inode hx]
    exact Nat.one_pos

variable {new : InodeRef} {cwd : Option InodeRef} {path : KString}

theorem rootInode_ne (h : Inv s) (hnew : s.inodes new = none) : ¬ s.IsMountRoot new := by
  rintro ⟨mp, hmp, rfl⟩
  obtain ⟨m, hm⟩ := mem_iff_getElem?.mp hmp
  obtain ⟨inode, hinode, -⟩ := h.root m mp hm
  rw [hnew] at hinode
  cases hinode

/-! ### Inodes that stay -/

section Kept

variable {old now : Inode} {z : InodeRef} {mp : MountPoint} (h : Inv s) (hk : Kept s s')

include h hk

theorem child_kept (hz : s.inodes z = some old) (hc : c ∈ old.node.children) : ¬ s.IsMountRoot c ∧
      ∃ sub, s'.inodes c = some sub ∧ sub.mountpoint = old.mountpoint ∧ sub.parent = some z := by
  obtain ⟨hroot, sub, hsub, hm, hp⟩ := h.child z old hz c hc
  obtain ⟨now, hnow, -, hm', hp', -⟩ := hk c sub hsub
  exact ⟨hroot, now, hnow, hm'.trans hm, hp'.trans hp⟩

theorem named_kept (hz : s.inodes z = some old) (hz' : s'.inodes z = some now)
    (hnode : now.node = old.node) (hlook : s'.lookup z n = some c) (hsub : s'.inodes c = some sub)
    (htype : sub.node.type = .directory) : sub.name = n := by
  have hlook' : s.lookup z n = some c := by
    rw [← hlook]
    symm
    apply lookupIn_congr hz hz' hnode
    intro c hc
    obtain ⟨-, sub, hsub, -⟩ := h.child z old hz c hc
    obtain ⟨now, hnow, hname, -⟩ := hk c sub hsub
    rw [hnow, hsub, map_some, map_some, hname]
  obtain ⟨-, was, hwas, -⟩ := h.child z old hz c (mem_children_of_lookup hz hlook')
  obtain ⟨now, hnow, hname, -, -, htype'⟩ := hk c was hwas
  cases hsub.symm.trans hnow
  rw [hname]
  exact h.named z n c was hlook' hwas (htype' ▸ htype)

theorem root_kept (hm : s.mounts[m]? = some mp) : ∃ inode, s'.inodes mp.rootInode = some inode ∧
      inode.name = [] ∧ inode.mountpoint = m ∧ inode.parent = mp.mountedOn := by
  obtain ⟨old, hroot, hname, hmp, hpar⟩ := h.root m mp hm
  obtain ⟨now, hnow, hname', hmp', hpar', -⟩ := hk _ old hroot
  exact ⟨now, hnow, hname'.trans hname, hmp'.trans hmp, hpar'.trans hpar⟩

theorem on_kept (hmp : mp ∈ s.mounts) (hz : mp.mountedOn = some z) : s'.IsDirectory z := by
  obtain ⟨old, hz, htype⟩ := h.on mp hmp z hz
  obtain ⟨now, hnow, -, -, -, htype'⟩ := hk z old hz
  exact ⟨now, hnow, htype'.trans htype⟩

end Kept

/-! ### Steps -/

/-- A new inode of the tmpfs keeps the invariant. -/
theorem tmpAdd (h : Inv s) {node : Node} (hnode : node.children = [])
    (hnew : s.inodes new = none) (hrun : s.tmpAdd node x n new = some s') : Inv s' := by
  rcases tmpAdd_cases hnew hrun with ⟨-, rfl⟩ | ⟨inode, children, hadd⟩
  · exact h
  · have hkept : Kept s s' := hadd.kept hnew
    have hroots : ∀ c, s'.IsMountRoot c ↔ s.IsMountRoot c := by
      intro c
      rw [IsMountRoot, hadd.mounts, IsMountRoot]
    refine ⟨?_, ?_, ?_, ?_, ?_, by rw [hadd.mounts]; exact h.first⟩
    · intro z now hz c hc
      rw [hroots]
      rcases hadd.cases hz with ⟨rfl, rfl⟩ | ⟨rfl, rfl⟩ | hz
      · rcases mem_append.mp hc with hc | hc
        · have hc' : c ∈ inode.node.children := by rw [hadd.listed]; exact hc
          have hsub := h.child_kept hkept hadd.dir hc'
          exact hsub
        · rw [mem_singleton.mp hc]
          exact ⟨h.rootInode_ne hnew, _, hadd.child, rfl, rfl⟩
      · rw [hnode] at hc
        cases hc
      · exact h.child_kept hkept hz hc
    · intro z name c sub hlook hsub htype
      obtain ⟨now, hz, -⟩ := of_bind hlook
      rcases hadd.cases hz with ⟨rfl, rfl⟩ | ⟨rfl, rfl⟩ | hz'
      · exact named_of_tmpDirectory hz rfl hlook hsub
      · have hmem := mem_children_of_lookup hz hlook
        rw [hnode] at hmem
        cases hmem
      · exact h.named_kept hkept hz' hz rfl hlook hsub htype
    · intro m mp hm
      exact h.root_kept hkept (by rw [← hadd.mounts, hm])
    · intro mp hmp z hz
      exact h.on_kept hkept (by rw [← hadd.mounts]; exact hmp) hz
    · intro z now hz
      rw [hadd.mounts]
      rcases hadd.cases hz with ⟨rfl, rfl⟩ | ⟨rfl, rfl⟩ | hz
      · exact h.valid _ inode hadd.dir
      · exact h.valid x inode hadd.dir
      · exact h.valid z now hz

/-- What `mount` does: the new inodes, with the parent of the root set, stand beside the old ones.
-/
structure Mounted (tree : FsTree) (on : InodeRef) (root : Inode) (s s' : Vfs) : Prop where
  self : s'.inodes tree.root = some { root with parent := some on }
  new : ∀ z now, z ≠ tree.root → tree.inodes z = some now → s'.inodes z = some now
  old : ∀ z old, s.inodes z = some old → s'.inodes z = some old
  cases : ∀ z now, s'.inodes z = some now → s.inodes z = some now ∨
    ∃ old, tree.inodes z = some old ∧ now.mountpoint = old.mountpoint ∧ now.node = old.node
  mounts : s'.mounts = s.mounts ++ [⟨some on, tree.root⟩]

/-- What `mount` changes: the new inodes, and the parent of their root. -/
theorem mounted_of_mount {tree : FsTree} {on : InodeRef}
    (hon : s.resolvePath cwd path = some (some on))
    (hfresh : ∀ z, tree.inodes z ≠ none → s.inodes z = none)
    (hrun : s.mount cwd path tree = some s') :
    ∃ root, tree.inodes tree.root = some root ∧ Mounted tree on root s s' := by
  obtain ⟨o, ho, hrun⟩ := of_bind hrun
  cases hon.symm.trans ho
  obtain ⟨root, hroot, hrun⟩ := of_bind hrun
  cases hrun
  refine ⟨root, hroot, by simp, fun z now hne hz => ?_, fun z old hz => ?_, fun z now hz => ?_, rfl⟩
  · simp [Function.update_of_ne hne, hz]
  · have hnone : tree.inodes z = none := by
      by_contra hsome
      rw [hfresh z hsome] at hz
      cases hz
    have hne : z ≠ tree.root := by
      rintro rfl
      rw [hnone] at hroot
      cases hroot
    simp [Function.update_of_ne hne, hnone, hz]
  · by_cases hzr : z = tree.root
    · subst hzr
      simp only [Function.update_self, some.injEq] at hz
      subst hz
      exact Or.inr ⟨root, hroot, rfl, rfl⟩
    · cases hz' : tree.inodes z with
      | some old =>
        simp only [Function.update_of_ne hzr, hz', Option.some_or, some.injEq] at hz
        subst hz
        exact Or.inr ⟨old, rfl, rfl, rfl⟩
      | none => exact Or.inl (by simpa [Function.update_of_ne hzr, hz'] using hz)

namespace Mounted

variable {tree : FsTree} {on : InodeRef} {root : Inode} (hm : Mounted tree on root s s')

include hm

theorem kept : Kept s s' := fun z old hz => ⟨old, hm.old z old hz, rfl, rfl, rfl, rfl⟩

theorem isMountRoot {c : InodeRef} (h : s'.IsMountRoot c) : s.IsMountRoot c ∨ c = tree.root := by
  obtain ⟨mp, hmp, rfl⟩ := h
  rw [hm.mounts] at hmp
  rcases mem_append.mp hmp with hmp | hmp
  · exact Or.inl ⟨mp, hmp, rfl⟩
  · rw [mem_singleton.mp hmp]
    exact Or.inr rfl

theorem mount_cases {m : Nat} {mp : MountPoint} (h : s'.mounts[m]? = some mp) :
    s.mounts[m]? = some mp ∨ m = s.mounts.length ∧ mp = ⟨some on, tree.root⟩ := by
  rw [hm.mounts, List.getElem?_append] at h
  split at h
  · exact Or.inl h
  · next hge =>
    have hlen : m - s.mounts.length = 0 := by
      by_contra hpos
      rw [List.getElem?_eq_none (by simpa using Nat.one_le_iff_ne_zero.mpr hpos)] at h
      cases h
    rw [hlen] at h
    exact Or.inr ⟨by omega, by simpa using h.symm⟩

end Mounted

/-- A mount keeps the invariant: only the root of the new tree gets another parent. -/
theorem mount (h : Inv s) {tree : FsTree}
    (hlegal : Legal (.mount cwd path tree) s) (hrun : s.mount cwd path tree = some s') :
    Inv s' := by
  obtain ⟨⟨o, hres, hdir, -, -⟩, hwf, hfresh⟩ := hlegal
  obtain ⟨root, hroot, hm⟩ := mounted_of_mount hres hfresh hrun
  have hnone : s.inodes tree.root = none := hfresh _ (by rw [hroot]; simp)
  -- every inode is an old one, which is kept, or one of the new tree
  refine ⟨?_, ?_, ?_, ?_, ?_, ?_⟩
  · intro z now hz c hc
    rcases hm.cases z now hz with hz | ⟨old, hz, hpoint, hnode⟩
    · obtain ⟨hnot, sub, hsub, hrest⟩ := h.child_kept hm.kept hz hc
      refine ⟨fun hr => ?_, sub, hsub, hrest⟩
      rcases hm.isMountRoot hr with hr | rfl
      · exact hnot hr
      · obtain ⟨-, sub, hsub, -⟩ := h.child z now hz _ hc
        rw [hnone] at hsub
        cases hsub
    · obtain ⟨hne, sub, hsub, hpar⟩ := hwf.child z old hz c (hnode ▸ hc)
      refine ⟨fun hr => ?_, sub, hm.new c sub hne hsub, ?_, hpar⟩
      · rcases hm.isMountRoot hr with hr | heq
        · exact h.rootInode_ne (hfresh c (by rw [hsub]; simp)) hr
        · exact hne heq
      · rw [hpoint, hwf.mountpoint z old hz, hwf.mountpoint c sub hsub]
  · intro z name c sub hlook hsub htype
    obtain ⟨now, hz, -⟩ := of_bind hlook
    rcases hm.cases z now hz with hz' | ⟨old, hz', -, hnode⟩
    · exact h.named_kept hm.kept hz' hz rfl hlook hsub htype
    · have hlook' : lookupIn tree.inodes z name = some c := by
        rw [← hlook]
        symm
        apply lookupIn_congr hz' hz hnode
        intro c hc
        obtain ⟨hne, sub, hsub, -⟩ := hwf.child z old hz' c hc
        rw [hm.new c sub hne hsub, hsub]
      obtain ⟨hne, sub', hsub', -⟩ := hwf.child z old hz' c (mem_children_of_lookup hz' hlook')
      cases (hm.new c sub' hne hsub').symm.trans hsub
      exact hwf.named z name c sub hlook' hsub' htype
  · intro m mp hmp
    rcases hm.mount_cases hmp with hmp | ⟨rfl, rfl⟩
    · exact h.root_kept hm.kept hmp
    · obtain ⟨inode, hinode, hname⟩ := hwf.root
      cases hroot.symm.trans hinode
      exact ⟨_, hm.self, hname, hwf.mountpoint _ root hroot, rfl⟩
  · intro mp hmp z hz
    rw [hm.mounts] at hmp
    rcases mem_append.mp hmp with hmp | hmp
    · exact h.on_kept hm.kept hmp hz
    · rw [mem_singleton.mp hmp] at hz
      cases hz
      obtain ⟨inode, hinode, htype⟩ := hdir
      exact ⟨inode, hm.old o inode hinode, htype⟩
  · intro z now hz
    rw [hm.mounts, length_append, length_singleton]
    rcases hm.cases z now hz with hz | ⟨old, hz, hpoint, -⟩
    · exact Nat.lt_succ_of_lt (h.valid z now hz)
    · rw [hpoint, hwf.mountpoint z old hz]
      exact Nat.lt_succ_self _
  · obtain ⟨r, ms, hfirst⟩ := h.first
    exact ⟨r, ms ++ [⟨some o, tree.root⟩], by rw [hm.mounts, hfirst]; rfl⟩

theorem step {op : Op} (h : Inv s) (hlegal : Legal op s) (hnext : next op s = some s') :
    Inv s' := by
  cases op with
  | mount cwd path tree => exact h.mount hlegal hnext
  | tmpMkdir dir name new => exact h.tmpAdd rfl hlegal hnext
  | tmpCreate dir name new => exact h.tmpAdd rfl hlegal hnext
  | mkdir cwd path new =>
    obtain ⟨newDir, -, hnext⟩ := of_bind hnext
    obtain ⟨target, -, hnext⟩ := of_bind hnext
    cases target with
    | none => cases hnext; exact h
    | some x =>
      obtain ⟨inode, -, hnext⟩ := of_bind hnext
      split at hnext
      · exact h.tmpAdd rfl hlegal hnext
      · cases hnext; exact h

end Inv

theorem reachable_inv (h : system.ReachableUnder Legal s) : Inv s :=
  System.ReachableUnder.invariant (fun _ => Inv.of_init) (fun _ _ _ hinv => hinv.step) h

end Vfs

end Hltos
