import Hltos.Fs.Mkdir

/-!
# The names of a tmpfs

What a mount of the tmpfs holds is determined by the calls of `mkdir` and `create` that have
returned 0: the entries of a directory are the calls on it, in their order. The numbers come from an
`int` that is never reset; inodes are never freed, so the memory ends before the numbers do.
-/

namespace Hltos

open BitVec List Option Function

/-- How many inodes the heap has room for. None is ever freed, and all the memory is less than
`MAX_MEMORY_BYTES`. -/
structure InodeHeap where
  room : Nat
  bounded : room < 2 ^ 31

inductive TmpMethod where
  | mkdir
  | create
deriving DecidableEq

/-- The inode that a method makes, with the children it has by now. -/
def TmpMethod.nodeWith (children : List InodeRef) : TmpMethod → Node
  | mkdir => .tmpDirectory children
  | create => .tmpFile

def TmpMethod.type : TmpMethod → FileType
  | mkdir => .directory
  | create => .regular

theorem TmpMethod.type_nodeWith (children : List InodeRef) (method : TmpMethod) :
    (method.nodeWith children).type = method.type := by
  cases method with
  | mkdir => rfl
  | create => rfl

/-- A call on a directory. `new` is where the heap puts the inode if one is made. -/
structure TmpCall where
  method : TmpMethod
  dir : InodeRef
  name : KString
  new : InodeRef

/-- A `TmpMountPoint`, with the inodes that have been allocated for it. -/
structure TmpMountPoint where
  vfs : Vfs
  nextIno : BitVec 32
  ino : InodeRef → Word
  live : Nat

namespace TmpMountPoint

/-- The constructor: the root has the first number. -/
def mount (m : MountRef) (root : InodeRef) : TmpMountPoint where
  vfs := ⟨(tmpfsTree m root).inodes, []⟩
  nextIno := 2
  ino := update (fun _ => 0) root 1
  live := 1

/-- `TmpDirectoryInode::mkdir` and `create`. -/
def call (heap : InodeHeap) (c : TmpCall) (s : TmpMountPoint) : Option (Int × TmpMountPoint) := do
  let (ret, vfs) ← s.vfs.tmpAddResult (c.method.nodeWith []) c.dir c.name c.new
  if ret ≠ 0 then return (ret, { s with vfs })
  else if s.live < heap.room then
    return (0, {
      vfs
      nextIno := s.nextIno + 1
      ino := update s.ino c.new (s.nextIno.signExtend 64)
      live := s.live + 1 })
  else none

/-- Calls one after another, each with its result. The heap gives every inode a place of its own. -/
inductive Run (heap : InodeHeap) (s0 : TmpMountPoint) :
    List (TmpCall × Int) → TmpMountPoint → Prop where
  | start : Run heap s0 [] s0
  | call {log : List (TmpCall × Int)} {s s' : TmpMountPoint} {c : TmpCall} {ret : Int} :
      Run heap s0 log s → s.vfs.inodes c.new = none → s.call heap c = some (ret, s') →
      Run heap s0 (log ++ [(c, ret)]) s'

/-! ## What the calls have made -/

/-- The calls that have returned 0. -/
def made (log : List (TmpCall × Int)) : List TmpCall := (log.filter (·.2 = 0)).map Prod.fst

/-- Those of them on one directory. -/
def madeIn (log : List (TmpCall × Int)) (x : InodeRef) : List TmpCall :=
  (made log).filter (·.dir = x)

def childrenOf (log : List (TmpCall × Int)) (x : InodeRef) : List InodeRef :=
  (madeIn log x).map TmpCall.new

/-- All inodes in the order in which they were made. -/
def refs (root : InodeRef) (log : List (TmpCall × Int)) : List InodeRef :=
  root :: (made log).map TmpCall.new

variable {heap : InodeHeap} {m : MountRef} {root x : InodeRef} {log : List (TmpCall × Int)}
  {s s' : TmpMountPoint} {c : TmpCall} {ret : Int} {y : InodeRef}

theorem made_success : made (log ++ [(c, 0)]) = made log ++ [c] := by simp [made]

theorem madeIn_dir : madeIn (log ++ [(c, 0)]) c.dir = madeIn log c.dir ++ [c] := by
  simp [madeIn, made_success]

theorem madeIn_other (h : x ≠ c.dir) : madeIn (log ++ [(c, 0)]) x = madeIn log x := by
  simp [madeIn, made_success, h.symm]

theorem mem_madeIn : c ∈ madeIn log x ↔ c ∈ made log ∧ c.dir = x := by simp [madeIn]

/-- What a call does. -/
theorem call_cases (hnew : s.vfs.inodes c.new = none) (hrun : s.call heap c = some (ret, s')) :
    (ret = -1 ∧ s' = s) ∨
      (ret = 0 ∧ s.live < heap.room ∧ (∃ inode children,
          Vfs.Added (c.method.nodeWith []) c.dir c.name c.new inode children s.vfs s'.vfs) ∧
        s'.nextIno = s.nextIno + 1 ∧ s'.ino = update s.ino c.new (s.nextIno.signExtend 64) ∧
        s'.live = s.live + 1) := by
  obtain ⟨⟨r, vfs⟩, hadd, hrun⟩ := of_bind hrun
  obtain ⟨vfs', hvfs, hr⟩ := of_bind hadd
  obtain ⟨rfl, rfl⟩ := Prod.mk.inj (some.inj hr)
  rcases Vfs.tmpAdd_cases hnew hvfs with ⟨hfound, rfl⟩ | ⟨inode, children, hadded⟩
  · simp only [if_pos hfound] at hrun
    cases hrun
    exact .inl ⟨rfl, rfl⟩
  · simp only [hadded.free, ne_eq, not_true_eq_false, if_false] at hrun
    split at hrun
    · next hroom =>
      cases hrun
      exact .inr ⟨rfl, hroom, ⟨inode, children, hadded⟩, rfl, rfl, rfl⟩
    · cases hrun

/-- The inodes are those of the calls that have returned 0. -/
structure Inv (m : MountRef) (root : InodeRef) (log : List (TmpCall × Int)) (s : TmpMountPoint) :
    Prop where
  present : ∀ x, s.vfs.inodes x ≠ none ↔ x ∈ refs root log
  nodup : (refs root log).Nodup
  rootInode : s.vfs.inodes root = some ⟨m, none, [], .tmpDirectory (childrenOf log root)⟩
  child : ∀ c ∈ made log, s.vfs.inodes c.new =
    some ⟨m, some c.dir, c.name, c.method.nodeWith (childrenOf log c.new)⟩
  dir : ∀ c ∈ made log, c.dir ∈ refs root log
  names : ∀ x, ((madeIn log x).map TmpCall.name).Nodup
  live : s.live = (refs root log).length
  bound : s.live < 2 ^ 31
  next : s.nextIno = BitVec.ofNat 32 (s.live + 1)
  ino : ∀ i x, (refs root log)[i]? = some x →
    s.ino x = (BitVec.ofNat 32 (i + 1)).signExtend 64

namespace Inv

theorem of_mount (m : MountRef) (root : InodeRef) : Inv m root [] (mount m root) where
  present x := by
    simp only [mount, tmpfsTree, refs, made, filter_nil, map_nil, mem_singleton]
    split <;> simp_all
  nodup := by simp [refs, made]
  rootInode := by simp [mount, tmpfsTree, childrenOf, madeIn, made]
  child c hc := by simp [made] at hc
  dir c hc := by simp [made] at hc
  names x := by simp [madeIn, made]
  live := rfl
  bound := show 1 < 2 ^ 31 by decide
  next := rfl
  ino i x hi := by
    cases i with
    | zero =>
      cases hi
      show update (fun _ => (0 : Word)) root 1 root = _
      rw [update_self]
      rfl
    | succ i => simp [refs, made] at hi

variable {inode : Inode} (h : Inv m root log s)

include h

/-- An inode that is a directory has the children of the calls on it. -/
theorem children {children : List InodeRef}
    (hx : s.vfs.inodes x = some inode) (hnode : inode.node = .tmpDirectory children) :
    children = childrenOf log x := by
  have hmem := (h.present x).mp (by simp [hx])
  rcases mem_cons.mp hmem with rfl | hmem
  · cases h.rootInode.symm.trans hx
    exact (Node.tmpDirectory.inj hnode).symm
  · obtain ⟨c, hc, rfl⟩ := mem_map.mp hmem
    cases (h.child c hc).symm.trans hx
    cases hmethod : c.method with
    | mkdir =>
      rw [hmethod] at hnode
      exact (Node.tmpDirectory.inj hnode).symm
    | create =>
      rw [hmethod] at hnode
      cases hnode

/-- `lookup` finds the call that has made the name. -/
theorem lookup {children : List InodeRef}
    (hx : s.vfs.inodes x = some inode) (hnode : inode.node = .tmpDirectory children)
    (name : KString) :
    s.vfs.lookup x name = ((madeIn log x).find? (·.name = name)).map TmpCall.new := by
  simp only [Vfs.lookup, lookupIn, hx, bind_eq_bind, bind_some, hnode,
    h.children hx hnode, childrenOf, find?_map]
  congr 1
  apply find?_congr
  intro c hc
  simp [h.child c (mem_madeIn.mp hc).1]

/-- A name that is not found is new. -/
theorem name_free {children : List InodeRef}
    (hx : s.vfs.inodes x = some inode) (hnode : inode.node = .tmpDirectory children)
    {name : KString}
    (hfree : s.vfs.lookup x name = none) : name ∉ (madeIn log x).map TmpCall.name := by
  rw [h.lookup hx hnode, map_eq_none_iff, find?_eq_none] at hfree
  intro hmem
  obtain ⟨c, hc, hname⟩ := mem_map.mp hmem
  exact hfree c hc (by simpa using hname)

theorem failed : Inv m root (log ++ [(c, -1)]) s := by
  have hmade : made (log ++ [(c, -1)]) = made log := by simp [made]
  have hin (x : InodeRef) : madeIn (log ++ [(c, -1)]) x = madeIn log x := by
    rw [madeIn, hmade, madeIn]
  have hrefs : refs root (log ++ [(c, -1)]) = refs root log := by rw [refs, hmade, refs]
  refine ⟨?_, ?_, ?_, ?_, ?_, ?_, ?_, h.bound, h.next, ?_⟩
  · rw [hrefs]; exact h.present
  · rw [hrefs]; exact h.nodup
  · rw [childrenOf, hin]; exact h.rootInode
  · simp only [hmade, childrenOf, hin]; exact h.child
  · rw [hmade, hrefs]; exact h.dir
  · simp only [hin]; exact h.names
  · rw [hrefs]; exact h.live
  · rw [hrefs]; exact h.ino

/-- An inode that was there gets a child if it is the directory. -/
theorem kept {old : Inode} {children : List InodeRef} (method : TmpMethod)
    (hnew : s.vfs.inodes c.new = none)
    (hadd : Vfs.Added (c.method.nodeWith []) c.dir c.name c.new inode children s.vfs s'.vfs)
    (hy : s.vfs.inodes y = some old) (hnode : old.node = method.nodeWith (childrenOf log y)) :
    s'.vfs.inodes y =
      some { old with node := method.nodeWith (childrenOf (log ++ [(c, 0)]) y) } := by
  by_cases hyd : y = c.dir
  · subst hyd
    cases hadd.dir.symm.trans hy
    rw [hadd.parent, h.children hadd.dir hadd.listed]
    have hmethod : method = .mkdir := by
      cases method with
      | mkdir => rfl
      | create => cases hadd.listed.symm.trans hnode
    simp [hmethod, TmpMethod.nodeWith, childrenOf, madeIn_dir]
  · have hyn : y ≠ c.new := by
      rintro rfl
      rw [hnew] at hy
      cases hy
    rw [hadd.other y hyd hyn, hy, childrenOf, madeIn_other hyd, ← childrenOf, ← hnode]

/-- A call that returns -1 changes nothing, and one that returns 0 adds one inode. -/
theorem call (hnew : s.vfs.inodes c.new = none)
    (hrun : s.call heap c = some (ret, s')) : Inv m root (log ++ [(c, ret)]) s' := by
  rcases call_cases hnew hrun with ⟨rfl, rfl⟩ | ⟨rfl, hroom, ⟨inode, children, hadd⟩,
    hnext, hino, hlive⟩
  · exact h.failed
  · have hrefs : refs root (log ++ [(c, 0)]) = refs root log ++ [c.new] := by
      simp [refs, made_success]
    have hfresh : c.new ∉ refs root log := fun hmem => (h.present c.new).mpr hmem hnew
    have hdir : c.dir ∈ refs root log := (h.present c.dir).mp (by simp [hadd.dir])
    have hne : c.new ≠ c.dir := fun heq => hfresh (heq ▸ hdir)
    refine ⟨fun x => ?_, ?_, ?_, fun c' hc' => ?_, fun c' hc' => ?_,
      fun x => ?_, ?_, ?_, ?_, fun i x hi => ?_⟩
    · rw [hrefs, mem_append, mem_singleton, ← h.present x]
      by_cases hxd : x = c.dir
      · simp [hxd, hadd.parent, hadd.dir]
      · by_cases hxn : x = c.new
        · simp [hxn, hadd.child]
        · simp [hadd.other x hxd hxn, hxn]
    · rw [hrefs]
      exact concat_eq_append ▸ h.nodup.concat hfresh
    · exact h.kept .mkdir hnew hadd h.rootInode rfl
    · rw [made_success, mem_append, mem_singleton] at hc'
      rcases hc' with hold | rfl
      · exact h.kept c'.method hnew hadd (h.child c' hold) rfl
      · have hnone : childrenOf log c'.new = [] := by
          rw [childrenOf, map_eq_nil_iff, eq_nil_iff_forall_not_mem]
          intro d hd
          obtain ⟨hmade, hdir'⟩ := mem_madeIn.mp hd
          exact hfresh (hdir' ▸ h.dir d hmade)
        obtain ⟨dirInode, hd, hmount⟩ : ∃ dirInode, s.vfs.inodes c'.dir = some dirInode ∧
            dirInode.mountpoint = m := by
          rcases mem_cons.mp hdir with heq | hmem
          · exact ⟨_, heq ▸ h.rootInode, rfl⟩
          · obtain ⟨d, hd, heq⟩ := mem_map.mp hmem
            exact ⟨_, heq ▸ h.child d hd, rfl⟩
        cases hadd.dir.symm.trans hd
        rw [hadd.child, childrenOf, madeIn_other hne, ← childrenOf, hnone, hmount]
    · rw [hrefs]
      rw [made_success, mem_append, mem_singleton] at hc'
      rcases hc' with hold | rfl
      · exact mem_append_left _ (h.dir c' hold)
      · exact mem_append_left _ hdir
    · by_cases hxd : x = c.dir
      · subst hxd
        have hname := h.name_free hadd.dir hadd.listed hadd.free
        rw [madeIn_dir, map_append, map_singleton]
        exact concat_eq_append ▸ (h.names _).concat hname
      · rw [madeIn_other hxd]
        exact h.names x
    · rw [hlive, h.live, hrefs, length_append, length_singleton]
    · have := heap.bounded
      omega
    · rw [hnext, h.next, hlive]
      exact (ofNat_add ..).symm
    · rw [hrefs] at hi
      by_cases hlt : i < (refs root log).length
      · rw [getElem?_append_left hlt] at hi
        have hx : x ≠ c.new := fun heq => hfresh (heq ▸ mem_of_getElem? hi)
        rw [hino, update_of_ne hx]
        exact h.ino i x hi
      · rw [getElem?_append_right (Nat.le_of_not_lt hlt)] at hi
        have hlast : i = (refs root log).length ∧ x = c.new := by
          cases hk : i - (refs root log).length with
          | zero =>
            rw [hk] at hi
            exact ⟨by omega, (some.inj hi).symm⟩
          | succ k =>
            rw [hk] at hi
            cases hi
        rw [hino, hlast.2, update_self, h.next, h.live, hlast.1]

end Inv

theorem Run.inv (h : Run heap (mount m root) log s) : Inv m root log s := by
  induction h with
  | start => exact .of_mount m root
  | call _ hnew hrun ih => exact ih.call hnew hrun

/-! ## The names, the numbers and the tree -/

/-- In every directory the names are distinct, `lookup` and `readdir` give what has been made there,
the numbers of the inodes differ, and parents and mounts are right. A call that returns -1 changes
nothing. -/
structure Namespace (heap : InodeHeap) (m : MountRef)
    (log : List (TmpCall × Int)) (s : TmpMountPoint) :
    Prop where
  distinct : ∀ x, ((s.vfs.readdir x).map Prod.fst).Nodup
  lookup : ∀ x, s.vfs.IsDirectory x → ∀ name c, s.vfs.lookup x name = some c ↔
    ∃ call ∈ madeIn log x, call.name = name ∧ call.new = c
  readdir : ∀ x, s.vfs.IsDirectory x →
    s.vfs.readdir x = (madeIn log x).map (fun c => (c.name, c.method.type))
  ino : ∀ x y, s.vfs.inodes x ≠ none → s.vfs.inodes y ≠ none → s.ino x = s.ino y → x = y
  child : ∀ x inode, s.vfs.inodes x = some inode → ∀ c ∈ inode.node.children,
    ∃ sub, s.vfs.inodes c = some sub ∧ sub.parent = some x ∧ sub.mountpoint = m
  failed : ∀ c ret s', s.vfs.inodes c.new = none → s.call heap c = some (ret, s') →
    ret = -1 → s' = s

namespace Inv

section

variable (h : Inv m root log s)

include h

/-- An inode is the root, or what a call has made. -/
theorem inode_cases {inode : Inode} (hx : s.vfs.inodes x = some inode) :
    ∃ method, inode.node = TmpMethod.nodeWith (childrenOf log x) method := by
  rcases mem_cons.mp ((h.present x).mp (by simp [hx])) with rfl | hmem
  · cases h.rootInode.symm.trans hx
    exact ⟨.mkdir, rfl⟩
  · obtain ⟨c, hc, rfl⟩ := mem_map.mp hmem
    cases (h.child c hc).symm.trans hx
    exact ⟨c.method, rfl⟩

section

variable (hx : s.vfs.IsDirectory x)

include hx

theorem tmpDirectory :
    ∃ inode, s.vfs.inodes x = some inode ∧ inode.node = .tmpDirectory (childrenOf log x) := by
  obtain ⟨inode, hinode, htype⟩ := hx
  obtain ⟨method, hnode⟩ := h.inode_cases hinode
  rw [hnode, TmpMethod.type_nodeWith] at htype
  cases method with
  | mkdir => exact ⟨inode, hinode, hnode⟩
  | create => cases htype

theorem readdir : s.vfs.readdir x = (madeIn log x).map (fun c => (c.name, c.method.type)) := by
  obtain ⟨inode, hinode, hnode⟩ := h.tmpDirectory hx
  simp only [Vfs.readdir, hinode, hnode, childrenOf, filterMap_map]
  rw [← filterMap_eq_map]
  apply filterMap_congr
  intro c hc
  simp [h.child c (mem_madeIn.mp hc).1, TmpMethod.type_nodeWith]

theorem lookup_iff (name : KString) (y : InodeRef) :
    s.vfs.lookup x name = some y ↔ ∃ c ∈ madeIn log x, c.name = name ∧ c.new = y := by
  obtain ⟨inode, hinode, hnode⟩ := h.tmpDirectory hx
  rw [h.lookup hinode hnode, map_eq_some_iff]
  constructor
  · rintro ⟨c, hc, rfl⟩
    exact ⟨c, mem_of_find?_eq_some hc, by simpa using find?_some hc, rfl⟩
  · rintro ⟨c, hc, rfl, rfl⟩
    obtain ⟨d, hd⟩ := isSome_iff_exists.mp
      (find?_isSome.mpr ⟨c, hc, by simp⟩ : ((madeIn log x).find? (·.name = c.name)).isSome)
    -- no other call on the directory has made this name
    have hname : d.name = c.name := by simpa using find?_some hd
    have heq : d = c := inj_on_of_nodup_map (h.names x) (mem_of_find?_eq_some hd) hc hname
    exact ⟨c, heq ▸ hd, rfl⟩

end

/-- The numbers count up, and are as far apart as an `int` allows. -/
theorem ino_inj (hx : s.vfs.inodes x ≠ none)
    (hy : s.vfs.inodes y ≠ none) (heq : s.ino x = s.ino y) : x = y := by
  obtain ⟨i, hi⟩ := List.mem_iff_getElem?.mp ((h.present x).mp hx)
  obtain ⟨j, hj⟩ := List.mem_iff_getElem?.mp ((h.present y).mp hy)
  have hlen : (refs root log).length < 2 ^ 31 := h.live ▸ h.bound
  have hilt := (List.getElem?_eq_some_iff.mp hi).1
  have hjlt := (List.getElem?_eq_some_iff.mp hj).1
  rw [h.ino i x hi, h.ino j y hj] at heq
  have hint := congrArg BitVec.toInt heq
  rw [toInt_signExtend_of_le (by decide), toInt_signExtend_of_le (by decide)] at hint
  have hij : i = j := by
    rw [toInt_ofNat', toInt_ofNat'] at hint
    simp only [Int.bmod] at hint
    omega
  rw [hij, hj] at hi
  exact (some.inj hi).symm

end

end Inv

/-- **The namespace of a tmpfs**: after any calls of `mkdir` and `create`, on any directories of the
mount. -/
theorem run_namespace {heap : InodeHeap} {m : MountRef} {root : InodeRef}
    {log : List (TmpCall × Int)}
    {s : TmpMountPoint} (h : Run heap (mount m root) log s) : Namespace heap m log s := by
  have hinv := h.inv
  refine ⟨fun x => ?_, fun x hx => hinv.lookup_iff hx, fun x hx => hinv.readdir hx,
    fun x y hx hy =>
      hinv.ino_inj hx hy, fun x inode hx c hc => ?_, fun c ret s' hnew hrun hret => ?_⟩
  · by_cases hx : s.vfs.IsDirectory x
    · rw [hinv.readdir hx, List.map_map]
      exact hinv.names x
    · -- what is no directory lists nothing
      have hnil : s.vfs.readdir x = [] := by
        unfold Vfs.readdir
        cases hinode : s.vfs.inodes x with
        | none => rfl
        | some inode =>
          obtain ⟨method, hnode⟩ := hinv.inode_cases hinode
          cases method with
          | mkdir => exact absurd ⟨inode, hinode, by rw [hnode]; rfl⟩ hx
          | create => simp only [hnode, TmpMethod.nodeWith]
      rw [hnil]
      exact nodup_nil
  · obtain ⟨method, hnode⟩ := hinv.inode_cases hx
    rw [hnode] at hc
    cases method with
    | create => cases hc
    | mkdir =>
      obtain ⟨call, hcall, rfl⟩ := mem_map.mp hc
      obtain ⟨hmade, hdir⟩ := mem_madeIn.mp hcall
      exact ⟨_, hinv.child call hmade, congrArg some hdir, rfl⟩
  · rcases call_cases hnew hrun with ⟨-, hsame⟩ | ⟨hzero, -⟩
    · exact hsame
    · rw [hzero] at hret
      cases hret

theorem Run.next {s0 : TmpMountPoint} (h : Run heap s0 log s) (hnew : (s.vfs.inodes c.new).isNone)
    (hrun : (s.call heap c).isSome) :
    Run heap s0 (log ++ [(c, ((s.call heap c).getD (0, s)).1)])
      ((s.call heap c).getD (0, s)).2 := by
  obtain ⟨⟨ret, s'⟩, hcall⟩ := isSome_iff_exists.mp hrun
  rw [hcall]
  exact .call h (isNone_iff_eq_none.mp hnew) hcall

/-- A heap for eight inodes. -/
def smallHeap : InodeHeap := ⟨8, by decide⟩

/-- `mkdir("a")` on a new mount, and then `create("a")`. -/
def aDir : TmpMountPoint :=
  (((mount 0 0).call smallHeap ⟨.mkdir, 0, kstring [0x61], 1⟩).getD (0, mount 0 0)).2

theorem aDir_namespace : Namespace smallHeap 0
    [(⟨.mkdir, 0, kstring [0x61], 1⟩, 0), (⟨.create, 0, kstring [0x61], 2⟩, -1)]
    ((aDir.call smallHeap ⟨.create, 0, kstring [0x61], 2⟩).getD (0, aDir)).2 := by
  have hdir : Run smallHeap (mount 0 0) [(⟨.mkdir, 0, kstring [0x61], 1⟩, 0)] aDir :=
    Run.start.next (by decide) (by decide)
  exact run_namespace (hdir.next (by decide) (by decide))

end TmpMountPoint

end Hltos
