import Hltos.Fs.Mounts

/-!
# Paths and directories

A directory that a path leads to is reached by names alone: every `".."` takes back the last name,
also from the root of a mounted file system. `getcwd` finds these names again.
-/

namespace Hltos

open Lib.Transition Algo List Option

namespace Vfs

variable {s s' : Vfs} {x y c : InodeRef} {n : KString} {st : List KString}

/-! ## Names that lead to an inode -/

/-- A token that is looked up. -/
structure IsName (n : KString) : Prop where
  part : IsPart slash n
  notDot : n ≠ dot
  notDotdot : n ≠ dotdot

/-- The names from the root, the last one first, lead to an inode. -/
inductive At (s : Vfs) : List KString → InodeRef → Prop where
  | root {mp : MountPoint} : s.mounts.head? = some mp → At s [] mp.rootInode
  | child {st : List KString} {y c : InodeRef} {n : KString} : At s st y → IsName n →
      s.lookup y n = some c → At s (n :: st) (s.mounted c)

theorem resolveTokens_skip {token : KString} (h : token.isEmpty ∨ token = dot)
    (tokens : List KString) (current : Option InodeRef) :
    s.resolveTokens (token :: tokens) current = s.resolveTokens tokens current := by
  rw [resolveTokens, if_pos h]

theorem IsName.not_skip (h : IsName n) : ¬ (n.isEmpty ∨ n = dot) := by
  rintro (hempty | hdot)
  · exact h.part.1 (isEmpty_iff.mp hempty)
  · exact h.notDot hdot

theorem resolveTokens_name (hn : IsName n) (hlook : s.lookup y n = some c) (tokens : List KString) :
    s.resolveTokens (n :: tokens) (some y) = s.resolveTokens tokens (some (s.mounted c)) := by
  rw [resolveTokens, if_neg hn.not_skip]
  simp [hn.notDotdot, hlook]

theorem resolveTokens_dotdot (tokens : List KString) : s.resolveTokens (dotdot :: tokens) (some y) =
      (s.dotdotOf y).bind (fun current => s.resolveTokens tokens current) := by
  rw [resolveTokens, if_neg (by decide)]
  simp

theorem At.names (h : At s st x) : ∀ n ∈ st, IsName n := by
  induction h with
  | root => simp
  | child _ hn _ ih =>
    intro n hm
    rcases mem_cons.mp hm with rfl | hm
    · exact hn
    · exact ih n hm

variable {mp : MountPoint}

/-- The names are a path. -/
theorem At.resolveTokens (h : At s st x) (hmp : s.mounts.head? = some mp)
    (tokens : List KString) : s.resolveTokens (st.reverse ++ tokens) (some mp.rootInode) =
      s.resolveTokens tokens (some x) := by
  induction h generalizing tokens with
  | root hmp' =>
    cases hmp.symm.trans hmp'
    rfl
  | child _ hn hlook ih =>
    rw [reverse_cons, append_assoc, singleton_append, ih, resolveTokens_name hn hlook]

/-- What is found in a directory: it or the root mounted on it has that directory for its parent, as
`".."` sees it. -/
theorem Inv.dotdot_child (h : Inv s) (hlook : s.lookup y n = some c) :
    s.dotdotOf (s.mounted c) = some (some y) := by
  obtain ⟨dir, hy, -⟩ := of_bind hlook
  obtain ⟨hnot, sub, hsub, -, hpar⟩ := h.child y dir hy c (mem_children_of_lookup hy hlook)
  unfold mounted
  split
  · next mp hmp =>
    -- the root of a mounted file system: `mounted_on->parent`
    obtain ⟨m, hm⟩ := mem_iff_getElem?.mp (mem_of_find?_eq_some hmp)
    obtain ⟨root, hroot, -, hmount, -⟩ := h.root m mp hm
    have hon : mp.mountedOn = some c := by simpa using find?_some hmp
    simp [dotdotOf, hroot, hmount, hm, hon, hsub, hpar]
  · -- an inode below the root of its file system: `parent`
    have hlt := h.valid c sub hsub
    obtain ⟨mp, hmp⟩ : ∃ mp, s.mounts[sub.mountpoint]? = some mp := ⟨_, getElem?_eq_getElem hlt⟩
    have hne : c ≠ mp.rootInode := by
      rintro rfl
      exact hnot ⟨mp, mem_of_getElem? hmp, rfl⟩
    simp [dotdotOf, hsub, hmp, hne, hpar]

/-- `".."` has no effect at the root. -/
theorem Inv.dotdot_root (h : Inv s) (hmp : s.mounts.head? = some mp) :
    s.dotdotOf mp.rootInode = some (some mp.rootInode) := by
  obtain ⟨r, ms, hfirst⟩ := h.first
  rw [hfirst] at hmp
  cases hmp
  have hm : s.mounts[0]? = some ⟨none, r⟩ := by rw [hfirst]; rfl
  obtain ⟨root, hroot, -, hmount, hpar⟩ := h.root 0 _ hm
  simp [dotdotOf, hroot, hmount, hm, hpar]

theorem Inv.dotdot_at (h : Inv s) (hat : At s st x) :
    ∃ y, s.dotdotOf x = some (some y) ∧ At s st.tail y := by
  cases hat with
  | root hmp => exact ⟨_, h.dotdot_root hmp, .root hmp⟩
  | child hat _ hlook => exact ⟨_, h.dotdot_child hlook, hat⟩

/-- The lexical normal form: empty tokens and `"."` are dropped, and `".."` takes back the name
before it, if there is one. The last name is first. -/
def normaliseFrom : List KString → List KString → List KString
  | names, [] => names
  | names, token :: tokens =>
    if token.isEmpty ∨ token = dot then normaliseFrom names tokens
    else if token = dotdot then normaliseFrom names.tail tokens
    else normaliseFrom (token :: names) tokens

variable {tokens : List KString}

section

variable (h : Inv s) (hparts : ∀ t ∈ tokens, IsPart slash t) (hat : At s st x)

include h hparts hat

/-- From an inode that names lead to, the loop of `resolve_path` follows no null pointer, and
follows the normal form. -/
theorem Inv.resolveTokens_at : ∃ r, s.resolveTokens tokens (some x) = some r ∧
    ∀ y, r = some y → At s (normaliseFrom st tokens) y := by
  induction tokens generalizing st x with
  | nil => exact ⟨_, rfl, fun y hy => some.inj hy ▸ hat⟩
  | cons token tokens ih =>
    have hrest := (forall_mem_cons.mp hparts).2
    by_cases hskip : token.isEmpty ∨ token = dot
    · rw [resolveTokens_skip hskip, normaliseFrom, if_pos hskip]
      exact ih hrest hat
    · rw [normaliseFrom, if_neg hskip]
      by_cases hdd : token = dotdot
      · subst hdd
        obtain ⟨z, hz, hat'⟩ := h.dotdot_at hat
        rw [resolveTokens_dotdot, hz, bind_some]
        exact ih hrest hat'
      · have hn : IsName token := ⟨hparts _ mem_cons_self, fun hd => hskip (.inr hd), hdd⟩
        rw [if_neg hdd]
        cases hlook : s.lookup x token with
        | none =>
          rw [resolveTokens, if_neg hskip]
          exact ⟨none, by simp [hdd, hlook], nofun⟩
        | some c =>
          rw [resolveTokens_name hn hlook]
          exact ih hrest (.child hat hn hlook)

theorem Inv.at_normaliseFrom (hres : s.resolveTokens tokens (some x) = some (some y)) :
    At s (normaliseFrom st tokens) y := by
  obtain ⟨r, hr, hy⟩ := h.resolveTokens_at hparts hat
  exact hy y (some.inj (hr.symm.trans hres))

theorem Inv.resolveTokens_returns : ∃ r, s.resolveTokens tokens (some x) = some r :=
  (h.resolveTokens_at hparts hat).imp fun _ hr => hr.1

end

variable {cwd : Option InodeRef} {inode : Inode}

theorem Inv.resolvePathTokens_returns (h : Inv s)
    (hparts : ∀ t ∈ tokens, IsPart slash t) (hcwd : ∀ x, cwd = some x → ∃ names, At s names x)
    (path : KString) : ∃ r, s.resolvePathTokens cwd path tokens = some r := by
  obtain ⟨root, ms, hmounts⟩ := h.first
  have hmp : s.mounts.head? = some ⟨none, root⟩ := by rw [hmounts]; rfl
  have hroot : ∃ r, s.resolveTokens tokens (some root) = some r :=
    h.resolveTokens_returns hparts (.root hmp)
  rw [resolvePathTokens, hmp, bind_eq_bind, bind_some]
  split
  · exact hroot
  · next hrel =>
    obtain ⟨x, rfl⟩ := ne_none_iff_exists'.mp (fun heq => hrel (.inr heq))
    obtain ⟨names, hat⟩ := hcwd x rfl
    exact h.resolveTokens_returns hparts hat

/-! ## `getcwd` -/

/-- The loop of `getcwd` ends with this path. -/
def Getcwd (s : Vfs) (inode : Option InodeRef) (path : KString) : Prop :=
  ∃ n, ∀ fuel, n ≤ fuel → s.getcwd fuel inode = some path

theorem getcwdFrom_step (hx : s.inodes x = some inode) (fuel : Nat)
    (path : List KString) : s.getcwdFrom (fuel + 1) (some x) path =
      s.getcwdFrom fuel inode.parent (if 0 <
        inode.name.length then inode.name :: path else path) := by
  rw [getcwdFrom, hx]
  rfl

/-- `getcwd` of a directory finds the names that lead to it. -/
theorem Inv.getcwdFrom_at (h : Inv s) (hat : At s st x) (hdir : s.IsDirectory x) :
    ∃ n, ∀ fuel, n ≤ fuel →
    ∀ path, s.getcwdFrom fuel (some x) path = some (st.reverse ++ path) := by
  induction hat with
  | root hmp =>
    obtain ⟨r, ms, hfirst⟩ := h.first
    rw [hfirst] at hmp
    cases hmp
    have hm : s.mounts[0]? = some ⟨none, r⟩ := by rw [hfirst]; rfl
    obtain ⟨root, hroot, hname, -, hpar⟩ := h.root 0 _ hm
    refine ⟨1, fun fuel hle path => ?_⟩
    obtain ⟨fuel, rfl⟩ : ∃ k, fuel = k + 1 := ⟨fuel - 1, by omega⟩
    rw [getcwdFrom_step hroot, hpar, hname]
    cases fuel <;> rfl
  | @child st y c name hat hn hlook ih =>
    obtain ⟨k, hk⟩ := ih (isDirectory_of_lookup hlook)
    obtain ⟨dir, hy, -⟩ := of_bind hlook
    obtain ⟨-, sub, hsub, -, hpar⟩ := h.child y dir hy c (mem_children_of_lookup hy hlook)
    have hlen : 0 < name.length := length_pos_iff.mpr hn.part.1
    -- the step from the child to the directory it was found in
    have hstep : sub.name = name → ∀ fuel, k ≤ fuel → ∀ path,
        s.getcwdFrom (fuel + 1) (some c) path = some ((name :: st).reverse ++ path) := by
      intro hname fuel hle path
      rw [getcwdFrom_step hsub, hpar, hname, if_pos hlen, hk fuel hle, reverse_cons,
        append_assoc, singleton_append]
    cases hmp : s.findMountAt c with
    | none =>
      rw [mounted, hmp] at hdir ⊢
      obtain ⟨inode, hinode, htype⟩ := hdir
      cases hsub.symm.trans hinode
      refine ⟨k + 1, fun fuel hle path => ?_⟩
      obtain ⟨fuel, rfl⟩ : ∃ j, fuel = j + 1 := ⟨fuel - 1, by omega⟩
      exact hstep (h.named y name c sub hlook hsub htype) fuel (by omega) path
    | some mp =>
      -- the root of a mounted file system has no name, and its parent is what it is mounted on
      rw [mounted, hmp]
      have hmem := mem_of_find?_eq_some hmp
      have hon : mp.mountedOn = some c := by simpa using find?_some hmp
      obtain ⟨m, hm⟩ := mem_iff_getElem?.mp hmem
      obtain ⟨root, hroot, hempty, -, hparent⟩ := h.root m mp hm
      obtain ⟨inode, hinode, htype⟩ := h.on mp hmem c hon
      cases hsub.symm.trans hinode
      refine ⟨k + 2, fun fuel hle path => ?_⟩
      obtain ⟨fuel, rfl⟩ : ∃ j, fuel = j + 2 := ⟨fuel - 2, by omega⟩
      rw [getcwdFrom_step hroot, hparent, hon, hempty]
      exact hstep (h.named y name c sub hlook hsub htype) fuel (by omega) path

theorem Inv.getcwd_at (h : Inv s) (hat : At s st x) (hdir : s.IsDirectory x) :
    s.Getcwd (some x) (slash :: join st.reverse slash) := by
  obtain ⟨n, hn⟩ := h.getcwdFrom_at hat hdir
  refine ⟨n, fun fuel hle => ?_⟩
  rw [getcwd, hn fuel hle, append_nil]
  rfl

/-! ## Paths -/

variable {path : KString}

theorem resolvePathTokens_absolute (hmp : s.mounts.head? = some mp)
    (habs : path.head? = some slash) :
    s.resolvePathTokens cwd path tokens = s.resolveTokens tokens (some mp.rootInode) := by
  simp [resolvePathTokens, hmp, habs]

theorem split_absolute (path : KString) : split (slash :: path) slash = split path slash := by
  simp [split, splitFrom]

theorem head?_mounts_of_resolve {target : Option InodeRef}
    (h : s.resolvePathTokens cwd path tokens = some target) : ∃ mp, s.mounts.head? = some mp := by
  obtain ⟨mp, hmp, -⟩ := of_bind h
  exact ⟨mp, hmp⟩

/-- Where an absolute path leads, the normal form of its tokens does. -/
theorem Inv.at_of_resolvePath (h : Inv s)
    (habs : path.head? = some slash) (hres : s.resolvePath cwd path = some (some x)) :
    At s (normaliseFrom [] (split path slash)) x := by
  obtain ⟨mp, hmp⟩ := head?_mounts_of_resolve hres
  rw [resolvePath, resolvePathTokens_absolute hmp habs] at hres
  exact h.at_normaliseFrom (isPart_split path slash) (.root hmp) hres

/-- The path of the names, behind which anything may follow. -/
theorem At.resolvePath (hat : At s st x) (cwd : Option InodeRef) (rest : KString) :
    s.resolvePath cwd (slash :: join st.reverse slash ++ slash :: rest) =
      s.resolveTokens (split rest slash) (some x) ∧
    s.resolvePath cwd (slash :: join st.reverse slash) = some (some x) := by
  have hparts : ∀ part ∈ st.reverse, IsPart slash part :=
    fun part hp => (hat.names part (mem_reverse.mp hp)).part
  obtain ⟨mp, hmp⟩ : ∃ mp, s.mounts.head? = some mp := by
    clear hparts
    induction hat with
    | root hmp => exact ⟨_, hmp⟩
    | child _ _ _ ih => exact ih
  have hnil : s.resolveTokens st.reverse (some mp.rootInode) = some (some x) := by
    simpa [Vfs.resolveTokens] using hat.resolveTokens hmp []
  constructor
  · rw [Vfs.resolvePath, resolvePathTokens_absolute hmp (by simp), split_append, split_absolute,
      split_join hparts, hat.resolveTokens hmp]
  · rw [Vfs.resolvePath, resolvePathTokens_absolute hmp (by simp), split_absolute,
      split_join hparts, hnil]

/-- **`getcwd` and `resolve_path` are inverse**: what `getcwd` returns for a directory that an
absolute path leads to leads to that directory. -/
theorem reachable_resolve_getcwd {s : Vfs} (h : system.ReachableUnder Legal s)
    {cwd : Option InodeRef} {path : KString} {d : InodeRef} (habs : path.head? = some slash)
    (hres : s.resolvePath cwd path = some (some d)) (hdir : s.IsDirectory d) :
    ∃ p, s.Getcwd (some d) p ∧ ∀ cwd, s.resolvePath cwd p = some (some d) := by
  have hinv := reachable_inv h
  have hat := hinv.at_of_resolvePath habs hres
  exact ⟨_, hinv.getcwd_at hat hdir, fun cwd => (hat.resolvePath cwd []).2⟩

/-! ### A file system with mounts -/

/-- `"dev"` -/
def devName : KString := kstring [0x64, 0x65, 0x76]

/-- `"tmp"` -/
def tmpName : KString := kstring [0x74, 0x6D, 0x70]

/-- `"a"` -/
def aName : KString := kstring [0x61]

/-- The initramfs: two directories to mount on. -/
def rootTree : FsTree where
  root := 0
  inodes
    | 0 => some ⟨0, none, [], .initramfsDirectory [1, 2]⟩
    | 1 => some ⟨0, some 0, devName, .initramfsDirectory []⟩
    | 2 => some ⟨0, some 0, tmpName, .initramfsDirectory []⟩
    | _ => none

theorem wellFormed_rootTree : WellFormed 0 rootTree := by
  refine ⟨⟨_, rfl, rfl⟩, ?_, ?_, ?_⟩
  · rintro (_ | _ | _ | x) inode hx <;> cases hx <;> rfl
  · rintro (_ | _ | _ | x) inode hx c hc <;> cases hx
    · rcases mem_pair.mp hc with rfl | rfl
      · exact ⟨by decide, _, rfl, rfl⟩
      · exact ⟨by decide, _, rfl, rfl⟩
    · cases hc
    · cases hc
  · rintro (_ | _ | _ | x) name c sub hlook hsub - <;> try cases hlook
    have hname := find?_some hlook
    rw [hsub] at hname
    simpa using hname

/-- `"/dev/../tmp/./a"` -/
def crossingPath : KString :=
  slash :: devName ++ slash :: dotdot ++ slash :: tmpName ++ slash :: dot ++ slash :: aName

/-- A fresh mount on a directory of the root. -/
theorem legal_mount {tree : FsTree} (hres : s.resolvePath none path = some (some x))
    (hdir : (s.inodes x).map (·.node.type) = some .directory)
    (hroot : x ∉ s.mounts.map MountPoint.rootInode) (hon : s.findMountAt x = none)
    (hwf : WellFormed s.mounts.length tree) {refs : List InodeRef}
    (htree : ∀ x, tree.inodes x ≠ none → x ∈ refs) (hfresh : ∀ x ∈ refs, (s.inodes x).isNone) :
    Legal (.mount none path tree) s := by
  refine ⟨⟨x, hres, ?_, ?_, hon⟩, hwf, fun x hx => isNone_iff_eq_none.mp (hfresh x (htree x hx))⟩
  · obtain ⟨inode, hinode, htype⟩ := map_eq_some_iff.mp hdir
    exact ⟨inode, hinode, htype⟩
  · rintro ⟨mp, hmp, rfl⟩
    exact hroot (mem_map.mpr ⟨mp, hmp, rfl⟩)

theorem reachable_next (op : Op) (h : system.ReachableUnder Legal s) (hlegal : Legal op s)
    (hrun : (next op s).isSome = true) : system.ReachableUnder Legal ((next op s).getD s) := by
  obtain ⟨s', hs'⟩ := isSome_iff_exists.mp hrun
  rw [hs']
  exact h.tail hlegal hs'

/-- The root is registered. -/
def rootVfs : Vfs := ⟨rootTree.inodes, [⟨none, 0⟩]⟩

/-- The devfs is mounted. -/
def devVfs : Vfs :=
  (next (.mount none (slash :: devName) (devfsTree 1 3 4 5 6)) rootVfs).getD rootVfs

/-- The tmpfs is mounted. -/
def tmpVfs : Vfs := (next (.mount none (slash :: tmpName) (tmpfsTree 2 7)) devVfs).getD devVfs

/-- There is a directory in the tmpfs. -/
def dirVfs : Vfs := (next (.mkdir none (slash :: tmpName ++ slash :: aName) 8) tmpVfs).getD tmpVfs

theorem dirVfs_reachable : system.ReachableUnder Legal dirVfs := by
  have hroot : system.ReachableUnder Legal rootVfs := by
    refine .start ⟨rootTree, wellFormed_rootTree, fun inode hinode => ?_, rfl⟩
    cases hinode
    rfl
  have hdev : system.ReachableUnder Legal devVfs := by
    refine reachable_next _ hroot
      (legal_mount (x := 1) (by decide) (by decide) (by decide) (by decide)
      (wellFormed_devfs 1 (by decide)) (fun x hx => ?_) (by decide : ∀ x ∈ [3, 4, 5, 6],
        _)) (by decide)
    by_contra hnot
    simp only [mem_cons, not_mem_nil, or_false, not_or] at hnot
    simp [devfsTree, hnot] at hx
  have htmp : system.ReachableUnder Legal tmpVfs := by
    refine reachable_next _ hdev
      (legal_mount (x := 2) (by decide) (by decide) (by decide) (by decide)
      (wellFormed_tmpfs 2 7) (fun x hx => ?_) (by decide : ∀ x ∈ [7], _)) (by decide)
    by_contra hnot
    simp only [mem_singleton] at hnot
    simp [tmpfsTree, hnot] at hx
  have hnew : tmpVfs.inodes 8 = none := isNone_iff_eq_none.mp (by decide)
  exact reachable_next _ htmp hnew (by decide)

theorem dirVfs_isDirectory : dirVfs.IsDirectory 8 := by
  have htype : (dirVfs.inodes 8).map (·.node.type) = some .directory := by decide
  obtain ⟨inode, hinode, htype⟩ := map_eq_some_iff.mp htype
  exact ⟨inode, hinode, htype⟩

theorem dirVfs_resolve_getcwd : dirVfs.resolvePath none crossingPath = some (some 8) ∧
    ∃ p, dirVfs.Getcwd (some 8) p ∧ ∀ cwd, dirVfs.resolvePath cwd p = some (some 8) :=
  have hres : dirVfs.resolvePath none crossingPath = some (some 8) := by decide
  ⟨hres, reachable_resolve_getcwd dirVfs_reachable rfl hres dirVfs_isDirectory⟩

/-- The lexical normal form of a path. -/
def normalise (path : KString) : KString :=
  slash :: join (normaliseFrom [] (split path slash)).reverse slash

/-- Every prefix of the tokens of a path leads to an inode. -/
def PrefixesResolve (s : Vfs) (cwd : Option InodeRef) (path : KString) : Prop :=
  ∀ tokens, tokens <+: split path slash → ∃ x, s.resolvePathTokens cwd path tokens = some (some x)

/-- A process has no current directory, or one that an absolute path leads to. -/
def IsCurrent (s : Vfs) (cwd : Option InodeRef) : Prop :=
  ∀ x ∈ cwd, s.IsDirectory x ∧
    ∃ path : KString, path.head? = some slash ∧ s.resolvePath none path = some (some x)

theorem isCurrent_of_at (hat : At s st x) (hdir : s.IsDirectory x) : s.IsCurrent (some x) := by
  rintro y ⟨⟩
  exact ⟨hdir, _, rfl, (hat.resolvePath none []).2⟩

theorem Inv.at_of_isCurrent (h : Inv s) (hcur : s.IsCurrent (some x)) : ∃ st, At s st x := by
  obtain ⟨-, path, habs, hres⟩ := hcur x rfl
  exact ⟨_, h.at_of_resolvePath habs hres⟩

/-- `sys_chdir` leaves such a directory. -/
theorem Inv.isCurrent_sysChdir (h : Inv s) {cwd' : Option InodeRef} {ret : Int}
    (hcur : s.IsCurrent cwd) (hrun : s.sysChdir cwd path = some (ret, cwd')) :
    s.IsCurrent cwd' := by
  obtain ⟨target, hres, hrun⟩ := of_bind hrun
  cases target with
  | none => cases hrun; exact hcur
  | some x =>
    obtain ⟨inode, hinode, hrun⟩ := of_bind hrun
    split at hrun
    · cases hrun; exact hcur
    · next htype =>
      cases hrun
      have hdir : s.IsDirectory x := ⟨inode, hinode, not_not.mp htype⟩
      obtain ⟨mp, hmp⟩ := head?_mounts_of_resolve hres
      by_cases hroot : path.head? = some slash ∨ cwd = none
      · have hres' : s.resolveTokens (split path slash) (some mp.rootInode) = some (some x) := by
          rw [← hres]
          simp [resolvePath, resolvePathTokens, hmp, hroot]
        exact isCurrent_of_at (h.at_normaliseFrom (isPart_split path slash) (.root hmp) hres') hdir
      · obtain ⟨c, rfl⟩ := ne_none_iff_exists'.mp (fun heq => hroot (Or.inr heq))
        obtain ⟨st, hat⟩ := h.at_of_isCurrent hcur
        have hrel : path.head? ≠ some slash := fun heq => hroot (Or.inl heq)
        have hres' : s.resolveTokens (split path slash) (some c) = some (some x) := by
          rw [← hres]
          simp [resolvePath, resolvePathTokens, hmp, hrel]
        exact isCurrent_of_at (h.at_normaliseFrom (isPart_split path slash) hat hres') hdir

/-- Names that lead to an inode lead to it still when the tmpfs has a new one. -/
theorem Added.at_mono (h : Inv s) {node : Node} {new : InodeRef} {children : List InodeRef}
    (hadd : Added node x n new inode children s s') (hnew : s.inodes new = none) (hat : At s st y) :
    At s' st y := by
  have hmounted : s'.mounted = s.mounted := by
    funext c
    rw [mounted, findMountAt, hadd.mounts, mounted, findMountAt]
  have hchild : ∀ z old, s.inodes z = some old → ∀ c ∈ old.node.children, s.inodes c ≠ none := by
    intro z old hz c hc
    obtain ⟨-, sub, hsub, -⟩ := h.child z old hz c hc
    simp [hsub]
  induction hat with
  | root hmp => exact .root (by rw [hadd.mounts, hmp])
  | child _ hn hlook ih =>
    rw [← hmounted]
    exact .child ih hn (hadd.lookup hchild hnew hlook)

theorem getcwd_null (s : Vfs) : s.Getcwd none [slash] := ⟨0, fun fuel _ => by cases fuel <;> rfl⟩

/-- **Path canonicalisation**: an absolute path leads where its lexical normal form does, also when
`".."` leaves a mounted file system, and a relative one where it does behind `getcwd`. -/
theorem reachable_canonical {s : Vfs} (h : system.ReachableUnder Legal s) :
    (∀ (cwd : Option InodeRef) (path : KString), path.head? = some slash →
      s.PrefixesResolve cwd path → s.resolvePath cwd path = s.resolvePath cwd (normalise path)) ∧
    (∀ (cwd : Option InodeRef) (path : KString), s.IsCurrent cwd → path ≠ [] →
      path.head? ≠ some slash → s.PrefixesResolve cwd path →
      ∃ p, s.Getcwd cwd p ∧ s.resolvePath cwd path = s.resolvePath cwd (p ++ slash :: path)) := by
  have hinv := reachable_inv h
  constructor
  · intro cwd path habs hprefixes
    obtain ⟨x, hx⟩ := hprefixes _ (prefix_refl _)
    have hat := hinv.at_of_resolvePath habs hx
    rw [resolvePath, hx]
    exact (hat.resolvePath cwd []).2.symm
  · intro cwd path hcur hne hrel hprefixes
    obtain ⟨x, hx⟩ := hprefixes _ (prefix_refl _)
    obtain ⟨mp, hmp⟩ := head?_mounts_of_resolve hx
    cases cwd with
    | none =>
      refine ⟨_, getcwd_null s, ?_⟩
      have habs : ([slash] ++ slash :: path).head? = some slash := rfl
      rw [resolvePath, resolvePath, resolvePathTokens_absolute hmp habs, singleton_append,
        split_absolute, split_absolute]
      simp [resolvePathTokens, hmp]
    | some c =>
      obtain ⟨hdir, q, habs, hq⟩ := hcur c rfl
      have hat := hinv.at_of_resolvePath habs hq
      refine ⟨_, hinv.getcwd_at hat hdir, ?_⟩
      rw [(hat.resolvePath (some c) path).1, resolvePath]
      simp [resolvePathTokens, hmp, hrel]

/-- `"../dev"` -/
def upPath : KString := dotdot ++ slash :: devName

theorem prefixesResolve_of_inits (h : ∀ tokens ∈ (split path slash).inits,
      (s.resolvePathTokens cwd path tokens).join.isSome = true) : s.PrefixesResolve cwd path := by
  intro tokens htokens
  obtain ⟨x, hx⟩ := isSome_iff_exists.mp (h tokens ((mem_inits _ _).mpr htokens))
  exact ⟨x, join_eq_some_iff.mp hx⟩

theorem dirVfs_canonical :
    dirVfs.resolvePath none crossingPath = dirVfs.resolvePath none (normalise crossingPath) ∧
    ∃ p, dirVfs.Getcwd (some 7) p ∧
      dirVfs.resolvePath (some 7) upPath = dirVfs.resolvePath (some 7) (p ++ slash :: upPath) := by
  obtain ⟨habsolute, hrelative⟩ := reachable_canonical dirVfs_reachable
  refine ⟨habsolute none crossingPath rfl (prefixesResolve_of_inits (by decide)), ?_⟩
  refine hrelative (some 7) upPath ?_ (by decide) (by decide) (prefixesResolve_of_inits (by decide))
  rintro x ⟨⟩
  have htype : (dirVfs.inodes 7).map (·.node.type) = some .directory := by decide
  obtain ⟨inode, hinode, htype⟩ := map_eq_some_iff.mp htype
  exact ⟨⟨inode, hinode, htype⟩, slash :: tmpName, rfl, by decide⟩

end Vfs

end Hltos
