import Hltos.Fs.Initramfs
import Hltos.Fs.Mounts

/-!
# The root file system

The initramfs is the first file system that is registered. The tree that `parse_tar_headers` leaves
is well formed, whatever the image, so that it is a state in which the mounts can start, and its
lookups are those of the mounted tree.
-/

namespace Hltos

open List Option

open Lib.ByteMemory (Mem)

/-- The class of the inode in the mounted tree. -/
def InitramfsNode.toNode : InitramfsNode → Node
  | directory children => .initramfsDirectory children
  | file _ _ => .initramfsFile

@[simp] theorem InitramfsNode.children_toNode (node : InitramfsNode) :
    node.toNode.children = node.children := by
  cases node <;> rfl

namespace Initramfs

/-- `InitramfsMountPoint` -/
def tree (m : MountRef) (s : Initramfs) : FsTree where
  root := root
  inodes x := s.inodes[x]?.map (fun inode => ⟨m, inode.parent, inode.name, inode.node.toNode⟩)

/-! ### Parents -/

def parent (s : Initramfs) (x : InodeRef) : Option (Option InodeRef) := s.inodes[x]?.map (·.parent)

/-- The root has no parent and no name, and every other inode that is listed has the directory that
lists it as its parent. -/
structure Rooted (s : Initramfs) : Prop where
  name : s.name root = some []
  parent : s.parent root = some none
  child : ∀ x, ∀ c ∈ s.children x, c ≠ root ∧ s.parent c = some (some x)

variable {s t : Initramfs} {x y c d : InodeRef} {token name : KString} {kind : InitramfsKind}
  {parent : Option InodeRef} {m : MountRef} {inode : Inode}

theorem lt_length_of_parent (h : s.parent x = some parent) : x < s.inodes.length := by
  obtain ⟨i, hi, -⟩ := map_eq_some_iff.mp h
  exact (List.getElem?_eq_some_iff.mp hi).1

theorem parent_alloc (hx : x < s.inodes.length) :
    (s.alloc kind parent name).2.parent x = s.parent x := by
  simp [Initramfs.parent, alloc, getElem?_append_left hx]

@[simp] theorem parent_alloc_self :
    (s.alloc kind parent name).2.parent s.inodes.length = some parent := by
  simp [Initramfs.parent, alloc]

@[simp] theorem parent_pushBack : (s.pushBack x c).parent y = s.parent y :=
  map_modify (fun _ => rfl)

theorem parent_setParent (hy : y ≠ c) : (s.setParent c x name).parent y = s.parent y := by
  simp [Initramfs.parent, setParent, hy.symm]

theorem parent_setParent_self (hc : c < s.inodes.length) :
    (s.setParent c x name).parent c = some (some x) := by
  simp [Initramfs.parent, setParent, hc]

theorem mem_children_pushBack (h : d ∈ (s.pushBack x c).children y) :
    d ∈ s.children y ∨ y = x ∧ d = c := by
  by_cases hy : y = x
  · subst hy
    simp only [children, pushBack, getElem?_modify_eq] at h ⊢
    cases hi : s.inodes[y]? with
    | none => simp [hi] at h
    | some i => cases hn : i.node <;> simp_all [InitramfsNode.push, InitramfsNode.children]
  · left
    simpa [children, pushBack, Ne.symm hy] using h

/-- An inode that is in no directory. -/
structure Unlisted (s : Initramfs) (c : InodeRef) : Prop where
  made : c < s.inodes.length
  notMem : ∀ x, c ∉ s.children x

theorem Unlisted.alloc (hc : s.Unlisted c) : (s.alloc kind parent name).2.Unlisted c := by
  refine ⟨by rw [length_alloc]; exact Nat.lt_succ_of_lt hc.made, ?_⟩
  intro x
  rw [children_alloc]
  exact hc.notMem x

theorem Unlisted.pushBack (hc : s.Unlisted c) (hd : d ≠ c) : (s.pushBack x d).Unlisted c := by
  refine ⟨by rw [length_pushBack]; exact hc.made, ?_⟩
  intro y hy
  rcases mem_children_pushBack hy with hy | ⟨-, heq⟩
  · exact hc.notMem y hy
  · exact hd heq.symm

section

variable (h : s.Rooted)

include h

theorem Rooted.lt_length_of_mem (hc : c ∈ s.children x) : c < s.inodes.length :=
  lt_length_of_parent (h.child x c hc).2

theorem Rooted.unlisted_alloc : (s.alloc kind parent name).2.Unlisted s.inodes.length := by
  refine ⟨by simp, ?_⟩
  intro x hx
  rw [children_alloc] at hx
  exact (h.lt_length_of_mem hx).false

theorem Rooted.alloc : (s.alloc kind parent name).2.Rooted := by
  have hroot := lt_length_of_parent h.parent
  refine ⟨by rw [name_alloc hroot, h.name], by rw [parent_alloc hroot, h.parent], ?_⟩
  intro x c hc
  rw [children_alloc] at hc
  rw [parent_alloc (h.lt_length_of_mem hc)]
  exact h.child x c hc

theorem Rooted.pushBack (hc : c ≠ root) (hparent : s.parent c = some (some x)) :
    (s.pushBack x c).Rooted := by
  refine ⟨by rw [name_pushBack, h.name], by rw [parent_pushBack, h.parent], ?_⟩
  intro y d hd
  rw [parent_pushBack]
  rcases mem_children_pushBack hd with hd | ⟨rfl, rfl⟩
  · exact h.child y d hd
  · exact ⟨hc, hparent⟩

/-- Only an inode that no directory lists gets another parent. -/
theorem Rooted.setParent (hroot : c ≠ root) (hc : s.Unlisted c) :
    (s.setParent c x name).Rooted := by
  refine ⟨by rw [name_setParent hroot.symm, h.name],
    by rw [parent_setParent hroot.symm, h.parent], ?_⟩
  intro y d hd
  rw [children_setParent] at hd
  have hne : d ≠ c := by
    rintro rfl
    exact hc.notMem y hd
  rw [parent_setParent hne]
  exact h.child y d hd

theorem Rooted.enter (hrun : s.enter x token = some (y, t)) :
    t.Rooted ∧ ∀ c, s.Unlisted c → t.Unlisted c := by
  unfold Initramfs.enter at hrun
  split at hrun
  · split at hrun
    · cases hrun
      exact ⟨h, fun _ => id⟩
    · cases hrun
  · cases hrun
    refine ⟨h.alloc.pushBack (lt_length_of_parent h.parent).ne' parent_alloc_self, ?_⟩
    intro c hc
    exact hc.alloc.pushBack hc.made.ne'

end

theorem Rooted.insertLoop {tokens : List KString} {n i : Nat} (h : s.Rooted)
    (hrun : insertLoop tokens n i x s = some (y, t)) :
    t.Rooted ∧ ∀ c, s.Unlisted c → t.Unlisted c := by
  induction n generalizing i x s with
  | zero =>
    cases hrun
    exact ⟨h, fun _ => id⟩
  | succ n ih =>
    obtain ⟨token, -, hrun⟩ := of_bind hrun
    obtain ⟨⟨z, u⟩, henter, hrun⟩ := of_bind hrun
    obtain ⟨hu, hkeep⟩ := h.enter henter
    obtain ⟨ht, hkeep'⟩ := ih hu hrun
    exact ⟨ht, fun c hc => hkeep' c (hkeep c hc)⟩

theorem Rooted.insertInode {path : KString} (h : s.Rooted) (hroot : c ≠ root) (hc : s.Unlisted c)
    (hrun : s.insertInode path c = some t) : t.Rooted := by
  obtain ⟨⟨current, u⟩, hloop, hrun⟩ := of_bind hrun
  obtain ⟨last, -, hrun⟩ := of_bind hrun
  cases hrun
  obtain ⟨hu, hkeep⟩ := h.insertLoop hloop
  have hcu := hkeep c hc
  exact (hu.setParent hroot hcu).pushBack hroot (parent_setParent_self hcu.made)

/-- One member more. -/
theorem Rooted.parseHeader {mem : Mem} {header : Word} (h : s.Rooted)
    (hrun : s.parseHeader mem header = some t) : t.Rooted := by
  unfold Initramfs.parseHeader at hrun
  split at hrun
  · cases hrun
    exact h
  · obtain ⟨path, -, hrun⟩ := of_bind hrun
    exact h.alloc.insertInode (lt_length_of_parent h.parent).ne' h.unlisted_alloc hrun

theorem Rooted.parseFrom {mem : Mem} {last addr : Word} {fuel : Nat} (h : s.Rooted)
    (hrun : parseFrom mem last fuel addr s = some t) : t.Rooted := by
  induction fuel generalizing addr s with
  | zero =>
    unfold Initramfs.parseFrom at hrun
    split at hrun <;> cases hrun
    exact h
  | succ fuel ih =>
    unfold Initramfs.parseFrom at hrun
    split at hrun
    · obtain ⟨u, hheader, hrun⟩ := of_bind hrun
      exact ih (h.parseHeader hheader) hrun
    · cases hrun
      exact h

theorem rooted_empty : empty.Rooted where
  name := rfl
  parent := rfl
  child x c hc := by
    rw [empty, children_alloc] at hc
    cases hc

/-! ### The mounted tree -/

theorem tree_inodes (hx : (s.tree m).inodes x = some inode) : inode.mountpoint = m ∧
    s.parent x = some inode.parent ∧ s.name x = some inode.name ∧
    s.children x = inode.node.children := by
  obtain ⟨i, hi, rfl⟩ := map_eq_some_iff.mp hx
  simp [Initramfs.parent, Initramfs.name, children, hi]

/-- The lookups of the mounted tree are those that `parse_tar_headers` goes by. -/
theorem lookupIn_tree : lookupIn (s.tree m).inodes x token = s.lookup x token := by
  unfold lookupIn lookup children
  cases hi : s.inodes[x]? with
  | none => simp [tree, hi]
  | some i =>
    cases hn : i.node with
    | directory children =>
      simp only [tree, hi, hn, map_some, bind_eq_bind, bind_some, InitramfsNode.toNode,
        InitramfsNode.children, getD_some]
      apply find?_congr
      intro c _
      cases hc : s.inodes[c]? <;> simp [Initramfs.name, hc]
    | file => simp [tree, hi, hn, InitramfsNode.toNode, InitramfsNode.children]

theorem Rooted.wellFormed (h : s.Rooted) : Vfs.WellFormed m (s.tree m) where
  root := by
    obtain ⟨i, hi, hname⟩ := map_eq_some_iff.mp h.name
    exact ⟨_, map_eq_some_iff.mpr ⟨i, hi, rfl⟩, hname⟩
  mountpoint _ _ hx := (tree_inodes hx).1
  child x inode hx c hc := by
    rw [← (tree_inodes hx).2.2.2] at hc
    obtain ⟨hroot, hparent⟩ := h.child x c hc
    obtain ⟨i, hi, hparent⟩ := map_eq_some_iff.mp hparent
    exact ⟨hroot, _, map_eq_some_iff.mpr ⟨i, hi, rfl⟩, hparent⟩
  named x token c sub hlook hsub _ := by
    rw [lookupIn_tree] at hlook
    exact some.inj ((tree_inodes hsub).2.2.1.symm.trans (lookup_eq_some hlook).2)

/-- **The file system starts in the tree of the image**, whatever the image. -/
theorem Mounts.init {mem : Mem} {tarBuffer tarSize : Word} (h : Mounts mem tarBuffer tarSize s) :
    Vfs.system.init ⟨(s.tree 0).inodes, [⟨none, root⟩]⟩ := by
  obtain ⟨fuel, hrun⟩ := h
  have hs := rooted_empty.parseFrom hrun
  refine ⟨s.tree 0, hs.wellFormed, ?_, rfl⟩
  intro inode hroot
  exact some.inj ((tree_inodes hroot).2.1.symm.trans hs.parent)

end Initramfs

end Hltos
