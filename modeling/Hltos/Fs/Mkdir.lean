import Hltos.Fs.Resolve

/-!
# New directories

`fs::mkdir` resolves the path without its last component and leaves the rest to the directory it
finds there. The directories of the tmpfs make an entry of any name, also of a name that
`resolve_path` never looks up; those of devfs and procfs report success and make nothing.
-/

namespace Hltos

open Lib.Transition Algo List Option

namespace Vfs

/-! ## `mkdir` with its result -/

section Defs

variable (s : Vfs)

/-- `TmpDirectoryInode::mkdir` and `create`: the result, and the tree behind it. -/
def tmpAddResult (node : Node) (x : InodeRef) (name : KString) (new : InodeRef) :
    Option (Int × Vfs) := do
  let s' ← s.tmpAdd node x name new
  return (if s.lookup x name ≠ none then -1 else 0, s')

/-- `fs::mkdir`. Without a component `tokens.back()` is read in front of a null pointer. -/
def mkdirResult (cwd : Option InodeRef) (path : KString) (new : InodeRef) : Option (Int × Vfs) := do
  let tokens := split path slash
  let newDir ← tokens.getLast?
  match ← s.resolvePathTokens cwd path tokens.dropLast with
  | none => return (-1, s)
  | some x =>
    match (← s.inodes x).node with
    | .tmpDirectory _ => s.tmpAddResult (.tmpDirectory []) x newDir new
    | .initramfsDirectory _ => return (-30, s)
    | .devDirectory _ _ _ | .procDirectory _ => return (0, s)
    | _ => return (-1, s)

end Defs

variable {s s' : Vfs} {x z c new : InodeRef} {n : KString} {st : List KString} {node : Node}
  {inode : Inode} {children : List InodeRef} {cwd : Option InodeRef} {path : KString}

theorem mkdirResult_snd (cwd : Option InodeRef) (path : KString) (new : InodeRef) :
    (s.mkdirResult cwd path new).map Prod.snd = s.mkdir cwd path new := by
  simp only [mkdirResult, mkdir, Option.bind_eq_bind, Option.pure_def]
  cases (split path slash).getLast? with
  | none => rfl
  | some newDir =>
    rcases s.resolvePathTokens cwd path (split path slash).dropLast with _ | _ | x
    · rfl
    · rfl
    · simp only [bind_some]
      cases s.inodes x with
      | none => rfl
      | some inode =>
        simp only [bind_some]
        cases inode.node with
        | tmpDirectory children =>
          simp only [tmpAddResult, tmpMkdir, Option.bind_eq_bind, Option.pure_def]
          cases s.tmpAdd (.tmpDirectory []) x newDir new with
          | none => rfl
          | some s' => rfl
        | _ => rfl

/-! ## Resolution behind a new child -/

theorem Inv.at_exists (h : Inv s) (hat : At s st x) : ∃ inode, s.inodes x = some inode := by
  cases hat with
  | @root mp hmp =>
    obtain ⟨r, ms, hfirst⟩ := h.first
    rw [hfirst] at hmp
    cases hmp
    obtain ⟨inode, hroot, -⟩ := h.root 0 ⟨none, r⟩ (by rw [hfirst]; rfl)
    exact ⟨inode, hroot⟩
  | @child st y c name hat hn hlook =>
    unfold mounted
    split
    · next mp hmp =>
      obtain ⟨m, hm⟩ := mem_iff_getElem?.mp (mem_of_find?_eq_some hmp)
      obtain ⟨inode, hroot, -⟩ := h.root m mp hm
      exact ⟨inode, hroot⟩
    · obtain ⟨dir, hy, -⟩ := of_bind hlook
      obtain ⟨-, sub, hsub, -⟩ := h.child y dir hy c (mem_children_of_lookup hy hlook)
      exact ⟨sub, hsub⟩

/-- Nothing is mounted on an inode that is not there yet. -/
theorem Inv.mounted_new (h : Inv s) (hnew : s.inodes new = none) : s.mounted new = new := by
  unfold mounted
  split
  · next mp hmp =>
    have hon : mp.mountedOn = some new := by simpa using find?_some hmp
    obtain ⟨inode, hinode, -⟩ := h.on mp (mem_of_find?_eq_some hmp) new hon
    rw [hnew] at hinode
    cases hinode
  · rfl

variable {tokens : List KString}

namespace Added

theorem mounted (h : Added node x n new inode children s s') : s'.mounted = s.mounted := by
  funext c
  rw [Vfs.mounted, findMountAt, h.mounts, Vfs.mounted, findMountAt]

variable {old : Inode}
  (h : Added node x n new inode children s s') (hinv : Inv s) (hnew : s.inodes new = none)

include h hinv hnew

theorem children_names (hz : s.inodes z = some old) :
    ∀ c ∈ old.node.children, (s'.inodes c).map Inode.name = (s.inodes c).map Inode.name := by
  intro c hc
  obtain ⟨-, sub, hsub, -⟩ := hinv.child z old hz c hc
  obtain ⟨now, hnow, hname, -⟩ := h.kept hnew c sub hsub
  rw [hnow, hsub, map_some, map_some, hname]

/-- The directory finds its new child behind the others. -/
theorem lookup_dir (name : KString) :
    s'.lookup x name = (s.lookup x name).or (if n = name then some new else none) := by
  have hnames := h.children_names hinv hnew h.dir
  rw [h.listed] at hnames
  change ∀ c ∈ children, _ at hnames
  simp only [Vfs.lookup, lookupIn, h.dir, h.parent, h.listed, bind_eq_bind, bind_some]
  rw [find?_append, find?_congr_name hnames]
  by_cases hn : n = name
  · simp [h.child, hn]
  · simp [h.child, hn]

/-- A lookup gives what it gave, unless it asks for the new child. -/
theorem lookup_cases (hz : s.inodes z = some old) (name : KString) :
    s'.lookup z name = s.lookup z name ∨ s'.lookup z name = some new := by
  by_cases hzx : z = x
  · subst hzx
    rw [h.lookup_dir hinv hnew]
    cases s.lookup z name with
    | some c => exact .inl rfl
    | none =>
      by_cases hn : n = name
      · exact .inr (by rw [if_pos hn]; rfl)
      · exact .inl (by rw [if_neg hn]; rfl)
  · have hzn : z ≠ new := by
      rintro rfl
      rw [hnew] at hz
      cases hz
    exact .inl
      (lookupIn_congr hz (by rw [h.other z hzx hzn, hz]) rfl (h.children_names hinv hnew hz))

theorem dotdotOf (hz : s.inodes z = some old) : s'.dotdotOf z = s.dotdotOf z := by
  obtain ⟨now, hnow, -, hmount, hparent, -⟩ := h.kept hnew z old hz
  unfold Vfs.dotdotOf
  simp only [hz, hnow, h.mounts, hmount, hparent, bind_eq_bind, bind_some]
  cases hmp : s.mounts[old.mountpoint]? with
  | none => rfl
  | some mp =>
    simp only [bind_some]
    split
    · next mountedOn hon =>
      have hmounted : mp.mountedOn = some mountedOn := by
        split at hon
        · exact hon
        · cases hon
      obtain ⟨sub, hsub, -⟩ := hinv.on mp (mem_of_getElem? hmp) mountedOn hmounted
      obtain ⟨now', hnow', -, -, hparent', -⟩ := h.kept hnew mountedOn sub hsub
      rw [hnow', hsub, bind_some, bind_some, hparent']
    · rfl

section

variable (hparts : ∀ t ∈ tokens, IsPart slash t) (hat : At s st z)

include hparts hat

/-- A path that does not come to the new inode leads where it led. -/
theorem resolveTokens
    (hother : ∀ tokens', tokens' <+: tokens → s'.resolveTokens tokens' (some z) ≠ some (some new)) :
    s'.resolveTokens tokens (some z) = s.resolveTokens tokens (some z) := by
  induction tokens generalizing st z with
  | nil => rfl
  | cons token tokens ih =>
    have hrest := (forall_mem_cons.mp hparts).2
    have hcons (tokens' : List KString) (hpre : tokens' <+: tokens) :
        s'.resolveTokens (token :: tokens') (some z) ≠ some (some new) :=
      hother _ ((prefix_cons_inj token).mpr hpre)
    obtain ⟨old, hz⟩ := hinv.at_exists hat
    by_cases hskip : token.isEmpty ∨ token = dot
    · rw [resolveTokens_skip hskip, resolveTokens_skip hskip]
      refine ih hrest hat fun tokens' hpre => ?_
      rw [← resolveTokens_skip hskip]
      exact hcons tokens' hpre
    · by_cases hdd : token = dotdot
      · subst hdd
        obtain ⟨y, hy, hat'⟩ := hinv.dotdot_at hat
        have hy' : s'.dotdotOf z = some (some y) := (h.dotdotOf hinv hnew hz).trans hy
        rw [resolveTokens_dotdot, resolveTokens_dotdot, hy, hy', bind_some, bind_some]
        refine ih hrest hat' fun tokens' hpre => ?_
        have hne := hcons tokens' hpre
        rwa [resolveTokens_dotdot, hy', bind_some] at hne
      · have hn : IsName token := ⟨hparts _ mem_cons_self, fun hd => hskip (Or.inr hd), hdd⟩
        obtain hlook | hlook := h.lookup_cases hinv hnew hz token
        · cases hc : s.lookup z token with
          | none =>
            rw [Vfs.resolveTokens, Vfs.resolveTokens, if_neg hskip, if_neg hskip]
            simp [hdd, hc, hlook]
          | some c =>
            rw [hc] at hlook
            rw [resolveTokens_name hn hlook, resolveTokens_name hn hc, h.mounted]
            refine ih hrest (.child hat hn hc) fun tokens' hpre => ?_
            have hne := hcons tokens' hpre
            rwa [resolveTokens_name hn hlook, h.mounted] at hne
        · -- the new child is found
          refine absurd ?_ (hcons [] nil_prefix)
          rw [resolveTokens_name hn hlook, h.mounted, hinv.mounted_new hnew]
          rfl

/-- What a path leads to it leads to still. -/
theorem resolveTokens_mono {y : InodeRef} (hres : s.resolveTokens tokens (some z) = some (some y)) :
    s'.resolveTokens tokens (some z) = some (some y) := by
  have hchild : ∀ z old, s.inodes z = some old → ∀ c ∈ old.node.children, s.inodes c ≠ none := by
    intro z old hz c hc
    obtain ⟨-, sub, hsub, -⟩ := hinv.child z old hz c hc
    simp [hsub]
  induction tokens generalizing st z with
  | nil => exact hres
  | cons token tokens ih =>
    have hrest := (forall_mem_cons.mp hparts).2
    by_cases hskip : token.isEmpty ∨ token = dot
    · rw [resolveTokens_skip hskip] at hres ⊢
      exact ih hrest hat hres
    · by_cases hdd : token = dotdot
      · subst hdd
        obtain ⟨old, hz⟩ := hinv.at_exists hat
        obtain ⟨w, hw, hat'⟩ := hinv.dotdot_at hat
        rw [resolveTokens_dotdot, hw, bind_some] at hres
        rw [resolveTokens_dotdot, h.dotdotOf hinv hnew hz, hw, bind_some]
        exact ih hrest hat' hres
      · have hn : IsName token := ⟨hparts _ mem_cons_self, fun hd => hskip (Or.inr hd), hdd⟩
        cases hc : s.lookup z token with
        | none =>
          rw [Vfs.resolveTokens, if_neg hskip] at hres
          simp [hdd, hc] at hres
        | some c =>
          rw [resolveTokens_name hn hc] at hres
          rw [resolveTokens_name hn (h.lookup hchild hnew hc), h.mounted]
          exact ih hrest (.child hat hn hc) hres

end

end Added

/-- Where `resolve_path` begins. -/
theorem Inv.at_start (h : Inv s) (hcwd : s.IsCurrent cwd) (path : KString) :
    ∃ st z, At s st z ∧ ∀ s' : Vfs, s'.mounts = s.mounts → ∀ tokens,
      s'.resolvePathTokens cwd path tokens = s'.resolveTokens tokens (some z) := by
  obtain ⟨root, ms, hfirst⟩ := h.first
  have hmp : s.mounts.head? = some ⟨none, root⟩ := by rw [hfirst]; rfl
  by_cases hroot : path.head? = some slash ∨ cwd = none
  · refine ⟨[], root, .root hmp, fun s' hmounts tokens => ?_⟩
    rw [resolvePathTokens, hmounts, hmp, bind_eq_bind, bind_some, if_pos hroot]
  · obtain ⟨z, rfl⟩ := ne_none_iff_exists'.mp (fun heq => hroot (Or.inr heq))
    obtain ⟨st, hat⟩ := h.at_of_isCurrent hcwd
    refine ⟨st, z, hat, fun s' hmounts tokens => ?_⟩
    rw [resolvePathTokens, hmounts, hmp, bind_eq_bind, bind_some, if_neg hroot]

/-- The loop of `resolve_path` over more tokens, if the first of them lead to an inode. -/
theorem resolveTokens_append {current : Option InodeRef}
    (h : s.resolveTokens tokens current = some (some z)) (tokens' : List KString) :
    s.resolveTokens (tokens ++ tokens') current = s.resolveTokens tokens' (some z) := by
  induction tokens generalizing current with
  | nil =>
    cases h
    rfl
  | cons token tokens ih =>
    rw [cons_append]
    by_cases hskip : token.isEmpty ∨ token = dot
    · rw [resolveTokens_skip hskip] at h ⊢
      exact ih h
    · cases current with
      | none =>
        rw [resolveTokens, if_neg hskip] at h
        cases h
      | some y =>
        by_cases hdd : token = dotdot
        · subst hdd
          rw [resolveTokens_dotdot] at h ⊢
          obtain ⟨next, hnext, h⟩ := of_bind h
          rw [hnext, bind_some]
          exact ih h
        · have hstep (rest : List KString) : s.resolveTokens (token :: rest) (some y) =
              match s.lookup y token with
              | none => some none
              | some next => s.resolveTokens rest (some (s.mounted next)) := by
            cases hnext : s.lookup y token with
            | none =>
              simp only [resolveTokens, if_neg hskip, bind_eq_bind, bind_some, if_neg hdd, hnext]
            | some c =>
              simp only [resolveTokens, if_neg hskip, bind_eq_bind, bind_some, if_neg hdd, hnext]
          rw [hstep] at h ⊢
          cases hlook : s.lookup y token with
          | none =>
            rw [hlook] at h
            cases h
          | some c =>
            rw [hlook] at h
            exact ih h

/-! ## What a successful `mkdir` should have done -/

/-- The path led nowhere and leads to a new directory, whose parent is the directory that the path
without its last component leads to. Every path that does not come to the new directory leads where
it led. -/
structure Creates (s : Vfs) (cwd : Option InodeRef) (path : KString) (new : InodeRef) (s' : Vfs) :
    Prop where
  before : s.resolvePath cwd path = some none
  after : s'.resolvePath cwd path = some (some new)
  directory : s'.IsDirectory new
  parent : ∃ p inode, s.resolvePathTokens cwd path (split path slash).dropLast = some (some p) ∧
    s'.inodes new = some inode ∧ inode.parent = some p
  others : ∀ (cwd : Option InodeRef) (path : KString), s.IsCurrent cwd →
    (∀ tokens, tokens <+: split path slash →
      s'.resolvePathTokens cwd path tokens ≠ some (some new)) →
    s'.resolvePath cwd path = s.resolvePath cwd path

/-- A directory makes what it reports: it is not one of devfs or procfs, and what a directory of the
tmpfs is asked for is a name that `resolve_path` looks up, or is there already. -/
def Makes (s : Vfs) (x : InodeRef) (name : KString) : Prop :=
  match (s.inodes x).map Inode.node with
  | some (.devDirectory _ _ _) | some (.procDirectory _) => False
  | some (.tmpDirectory _) => s.lookup x name = none → name ≠ dot ∧ name ≠ dotdot
  | _ => True

/-- A directory that was added where the path leads is what `mkdir` should make. -/
theorem creates_of_added (h : Inv s) (hcwd : s.IsCurrent cwd) (hnew : s.inodes new = none)
    (hsplit : split path slash = tokens ++ [n])
    (hres : s.resolvePathTokens cwd path tokens = some (some x)) (hn : IsName n)
    (hadd : Added (.tmpDirectory []) x n new inode children s s') : s.Creates cwd path new s' := by
  obtain ⟨st, z, hat, hstart⟩ := h.at_start hcwd path
  have hparts : ∀ t ∈ tokens, IsPart slash t := by
    intro t ht
    apply isPart_split path slash
    rw [hsplit]
    exact mem_append_left _ ht
  have hres' := hres
  rw [hstart s rfl] at hres'
  have hparent := hadd.resolveTokens_mono h hnew hparts hat hres'
  have hlook : s'.lookup x n = some new := by
    rw [hadd.lookup_dir h hnew, hadd.free, if_pos rfl]
    rfl
  refine ⟨?_, ?_, ⟨_, hadd.child, rfl⟩, ⟨x, _, ?_, hadd.child, rfl⟩, ?_⟩
  · rw [resolvePath, hstart s rfl, hsplit, resolveTokens_append hres', resolveTokens,
      if_neg hn.not_skip]
    simp [hn.notDotdot, hadd.free]
  · rw [resolvePath, hstart s' hadd.mounts, hsplit, resolveTokens_append hparent,
      resolveTokens_name hn hlook, hadd.mounted, h.mounted_new hnew]
    rfl
  · rw [hsplit, dropLast_concat]
    exact hres
  · intro cwd path hcwd hother
    obtain ⟨st, z, hat, hstart⟩ := h.at_start hcwd path
    rw [resolvePath, resolvePath, hstart s rfl, hstart s' hadd.mounts]
    refine hadd.resolveTokens h hnew (isPart_split path slash) hat fun tokens htokens => ?_
    rw [← hstart s' hadd.mounts]
    exact hother tokens htokens

/-- The steps of `mkdir` up to the directory that it asks. -/
theorem mkdirResult_cases {ret : Int} (hrun : s.mkdirResult cwd path new = some (ret, s')) :
    ∃ tokens n, split path slash = tokens ++ [n] ∧
      ((s.resolvePathTokens cwd path tokens = some none ∧ ret = -1 ∧ s' = s) ∨
        ∃ x inode, s.resolvePathTokens cwd path tokens = some (some x) ∧ s.inodes x = some inode ∧
          match inode.node with
          | .tmpDirectory _ => s.tmpAddResult (.tmpDirectory []) x n new = some (ret, s')
          | .initramfsDirectory _ => ret = -30 ∧ s' = s
          | .devDirectory _ _ _ | .procDirectory _ => ret = 0 ∧ s' = s
          | _ => ret = -1 ∧ s' = s) := by
  obtain ⟨n, hlast, hrun⟩ := of_bind hrun
  have hsplit := dropLast_append_getLast? n hlast
  refine ⟨_, n, hsplit.symm, ?_⟩
  obtain ⟨target, hres, hrun⟩ := of_bind hrun
  cases target with
  | none =>
    cases hrun
    exact .inl ⟨hres, rfl, rfl⟩
  | some x =>
    obtain ⟨inode, hx, hrun⟩ := of_bind hrun
    refine .inr ⟨x, inode, hres, hx, ?_⟩
    cases hnode : inode.node with
    | tmpDirectory children =>
      rw [hnode] at hrun
      exact hrun
    | _ =>
      rw [hnode] at hrun
      cases hrun
      exact ⟨rfl, rfl⟩

/-- Whatever `mkdir` returns, it has changed nothing or added one directory. -/
theorem mkdirResult_added {ret : Int} (hnew : s.inodes new = none)
    (hrun : s.mkdirResult cwd path new = some (ret, s')) :
    s' = s ∨ ∃ x n inode children, Added (.tmpDirectory []) x n new inode children s s' := by
  obtain ⟨tokens, n, -, hcases⟩ := mkdirResult_cases hrun
  rcases hcases with ⟨-, -, hsame⟩ | ⟨x, inode, -, -, hnode⟩
  · exact .inl hsame
  · cases hclass : inode.node with
    | tmpDirectory children =>
      rw [hclass] at hnode
      obtain ⟨added, hadd, hnode⟩ := of_bind hnode
      cases hnode
      rcases tmpAdd_cases hnew hadd with ⟨-, hsame⟩ | ⟨dir, children', hadded⟩
      · exact .inl hsame
      · exact .inr ⟨x, n, dir, children', hadded⟩
    | _ =>
      rw [hclass] at hnode
      exact .inl hnode.2

theorem isName_iff (hpart : IsPart slash n) : IsName n ↔ n ≠ dot ∧ n ≠ dotdot :=
  ⟨fun h => ⟨h.notDot, h.notDotdot⟩, fun h => ⟨hpart, h.1, h.2⟩⟩

/-- `"."` and `".."` lead somewhere from every directory. -/
theorem resolves_of_special (h : Inv s) (hcwd : s.IsCurrent cwd)
    (hsplit : split path slash = tokens ++ [n])
    (hres : s.resolvePathTokens cwd path tokens = some (some x))
    (hn : n = dot ∨ n = dotdot) : s.resolvePath cwd path ≠ some none := by
  obtain ⟨st, z, hat, hstart⟩ := h.at_start hcwd path
  rw [hstart s rfl] at hres
  have hparts : ∀ t ∈ tokens, IsPart slash t := by
    intro t ht
    apply isPart_split path slash
    rw [hsplit]
    exact mem_append_left _ ht
  rw [resolvePath, hstart s rfl, hsplit, resolveTokens_append hres]
  rcases hn with rfl | rfl
  · exact fun heq => by cases heq
  · obtain ⟨y, hy, -⟩ := h.dotdot_at (h.at_normaliseFrom hparts hat hres)
    rw [resolveTokens_dotdot, hy, bind_some]
    exact fun heq => by cases heq

/-- **`mkdir`**: if it returns 0, the path has led nowhere and leads to a new directory now, and if
it returns an error nothing has changed, exactly if the directory that it asks makes what it
reports. -/
theorem reachable_mkdir_iff {s : Vfs} (h : system.ReachableUnder Legal s) {cwd : Option InodeRef}
    (hcwd : s.IsCurrent cwd) (path : KString) {new : InodeRef} (hnew : s.inodes new = none)
    {ret : Int} {s' : Vfs} (hrun : s.mkdirResult cwd path new = some (ret, s')) :
    ((ret = 0 → s.Creates cwd path new s') ∧ (ret < 0 → s' = s)) ↔
      ∀ x n, s.resolvePathTokens cwd path (split path slash).dropLast = some (some x) →
        (split path slash).getLast? = some n → s.Makes x n := by
  have hinv := reachable_inv h
  obtain ⟨tokens, n, hsplit, hcases⟩ := mkdirResult_cases hrun
  rw [hsplit, dropLast_concat, getLast?_concat]
  rcases hcases with ⟨hres, rfl, rfl⟩ | ⟨x, inode, hres, hx, hnode⟩
  · refine iff_of_true ⟨fun heq => absurd heq (by decide), fun _ => rfl⟩ ?_
    rw [hres]
    exact nofun
  · have hparent : (∀ y m, s.resolvePathTokens cwd path tokens = some (some y) → some n = some m →
        s.Makes y m) ↔ s.Makes x n := by
      rw [hres]
      constructor
      · exact fun hall => hall x n rfl rfl
      · rintro hmakes _ _ ⟨⟩ ⟨⟩
        exact hmakes
    rw [hparent, Makes, hx, map_some]
    cases hclass : inode.node with
    | tmpDirectory children =>
      rw [hclass] at hnode
      obtain ⟨added, hadd, hnode⟩ := of_bind hnode
      obtain ⟨rfl, rfl⟩ := Prod.mk.inj (Option.some.inj hnode)
      have hpart : IsPart slash n := isPart_split path slash n (by rw [hsplit]; simp)
      rcases tmpAdd_cases hnew hadd with ⟨hfound, rfl⟩ | ⟨inode', children', hadded⟩
      · rw [if_pos hfound]
        exact iff_of_true ⟨fun heq => absurd heq (by decide), fun _ => rfl⟩ fun hnone =>
          absurd hnone hfound
      · rw [if_neg (not_not.mpr hadded.free), ← isName_iff hpart]
        simp only [hadded.free, true_implies, lt_self_iff_false, false_implies, and_true]
        refine ⟨fun hcreates => (isName_iff hpart).mpr ⟨?_, ?_⟩, fun hn => ?_⟩
        · rintro rfl
          exact resolves_of_special hinv hcwd hsplit hres (.inl rfl) hcreates.before
        · rintro rfl
          exact resolves_of_special hinv hcwd hsplit hres (.inr rfl) hcreates.before
        · exact creates_of_added hinv hcwd hnew hsplit hres hn hadded
    | initramfsDirectory children =>
      rw [hclass] at hnode
      obtain ⟨rfl, rfl⟩ := hnode
      exact iff_of_true ⟨fun heq => absurd heq (by decide), fun _ => rfl⟩ trivial
    | devDirectory null tty1 tty2 =>
      rw [hclass] at hnode
      obtain ⟨rfl, rfl⟩ := hnode
      refine iff_of_false (fun hall => ?_) id
      have hcreates := hall.1 rfl
      exact absurd (hcreates.before.symm.trans hcreates.after) nofun
    | procDirectory self =>
      rw [hclass] at hnode
      obtain ⟨rfl, rfl⟩ := hnode
      refine iff_of_false (fun hall => ?_) id
      have hcreates := hall.1 rfl
      exact absurd (hcreates.before.symm.trans hcreates.after) nofun
    | initramfsFile | tmpFile | devNull | devTty | procSelf =>
      rw [hclass] at hnode
      obtain ⟨rfl, rfl⟩ := hnode
      exact iff_of_true ⟨fun heq => absurd heq (by decide), fun _ => rfl⟩ trivial

/-- `mkdir` returns exactly if the path has a component. -/
theorem mkdirResult_isSome_iff (h : Inv s) (hcwd : s.IsCurrent cwd) :
    (s.mkdirResult cwd path new).isSome ↔ split path slash ≠ [] := by
  constructor
  · intro hsome hnil
    obtain ⟨⟨ret, s'⟩, hrun⟩ := isSome_iff_exists.mp hsome
    obtain ⟨tokens, n, hsplit, -⟩ := mkdirResult_cases hrun
    rw [hnil] at hsplit
    exact absurd hsplit.symm (by simp)
  · intro hne
    have hlast := getLast?_eq_some_getLast hne
    obtain ⟨st, z, hat, hstart⟩ := h.at_start hcwd path
    have hparts : ∀ t ∈ (split path slash).dropLast, IsPart slash t :=
      fun t ht => isPart_split path slash t (dropLast_subset _ ht)
    obtain ⟨target, hres⟩ := h.resolveTokens_returns hparts hat
    simp only [mkdirResult, hlast, hstart s rfl, hres, bind_eq_bind, bind_some]
    cases target with
    | none => rfl
    | some x =>
      obtain ⟨inode, hx⟩ := h.at_exists (h.at_normaliseFrom hparts hat hres)
      simp only [hx, bind_some]
      cases hclass : inode.node with
      | tmpDirectory children =>
        by_cases hfound : s.lookup x ((split path slash).getLast hne) ≠ none
        · simp [tmpAddResult, tmpAdd, hx, hclass, hfound]
        · simp [tmpAddResult, tmpAdd, hx, hclass, hfound]
      | _ => rfl

/-- `"/tmp/b"` -/
def newPath : KString := slash :: tmpName ++ slash :: kstring [0x62]

theorem newPath_returns : (dirVfs.mkdirResult none newPath 9).isSome :=
  (mkdirResult_isSome_iff (reachable_inv dirVfs_reachable) (fun _ h => by cases h)).mpr (by decide)

theorem dirVfs_mkdir : ∃ s', dirVfs.mkdirResult none newPath 9 = some (0, s') ∧
    dirVfs.Creates none newPath 9 s' := by
  obtain ⟨⟨ret, s'⟩, hrun⟩ := isSome_iff_exists.mp
    (show (dirVfs.mkdirResult none newPath 9).isSome by decide)
  have hret : (dirVfs.mkdirResult none newPath 9).map Prod.fst = some 0 := by decide
  rw [hrun] at hret
  cases hret
  have hnew : dirVfs.inodes 9 = none := isNone_iff_eq_none.mp (by decide)
  have hcwd : dirVfs.IsCurrent none := nofun
  have hiff := reachable_mkdir_iff dirVfs_reachable hcwd newPath hnew hrun
  refine ⟨s', hrun, (hiff.mpr ?_).1 rfl⟩
  intro x n hres hlast
  have hx : dirVfs.resolvePathTokens none newPath (split newPath slash).dropLast =
    some (some 7) := by decide
  have hn : (split newPath slash).getLast? = some (kstring [0x62]) := by decide
  cases hx.symm.trans hres
  cases hn.symm.trans hlast
  exact fun _ => by decide

/-- `mkdir` of `/dev/a` returns 0 and makes nothing, and `mkdir` of `/tmp/.` returns 0 although the
path led to a directory before. -/
theorem mkdir_reports_too_much :
    (dirVfs.mkdirResult none (slash :: devName ++ slash :: aName) 9).map
      (fun r => (r.1, r.2.resolvePath none (slash :: devName ++ slash :: aName))) =
        some (0, some none) ∧
    (dirVfs.mkdirResult none (slash :: tmpName ++ slash :: dot) 9).map Prod.fst = some 0 ∧
    dirVfs.resolvePath none (slash :: tmpName ++ slash :: dot) = some (some 7) := by
  decide

end Vfs

end Hltos
