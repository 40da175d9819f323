import Hltos.Syscall.Smap

/-!
# The AC flag after a call

For each call, the condition under which it returns without AC if it was entered without it. `stac`
and `clac` do not nest, so a way out between them leaves AC set; and a process that waits goes on
with the AC of whichever process ran before.
-/

namespace Hltos

open Lib.Traced Keeps

namespace UserCall

open KProg

variable {s s' : CallState} {fd : BitVec 32} {iov : Word} {iovcnt : BitVec 32} {d : DescRef}
  {buf path count : Word} {r : Int} {n : Nat} {total : BitVec 32}

/-- The terminal returns with the AC that it has found when it went on. -/
theorem ttyRead_spec {d : DescRef} (h : Returns (KProg.ttyRead d buf count) s r s') :
    ∃ input inputs line, s.ttyInput = input :: inputs ∧
      (s.files.ttyLines (s.files.inodeOf d)).edit s.heap input.events = some line ∧
      r = TmpFile.toInt32 line.buffer.size ∧ s'.ac = (s.resume input.resumed).ac ∧
      s'.files.ttyLines = Function.update s.files.ttyLines (s.files.inodeOf d) line := by
  rw [KProg.ttyRead, returns_get_bind] at h
  rcases hinput : s.ttyInput with _ | ⟨input, inputs⟩
  · rw [hinput] at h
    exact (returns_stop.mp h).elim
  · rw [hinput] at h
    dsimp only at h
    split at h
    · exact (returns_stop.mp h).elim
    · next line hline =>
      obtain ⟨_, t, hset, h⟩ := returns_bind.mp h
      obtain ⟨_, t', hheap, h⟩ := returns_bind.mp h
      obtain ⟨_, t'', hcopy, h⟩ := returns_bind.mp h
      obtain ⟨rfl, rfl⟩ := returns_pure.mp h
      have hac : t''.ac = t.ac :=
        (keeps_ac_kcopyToUser _ _ _ hcopy).trans (keeps_ac_heapOps _ _ _ hheap)
      have hcopyFiles : t''.files = t'.files :=
        (assert.bind fun _ => keeps_withAc (fun _ _ => rfl) (keeps_storeBytes fun _ _ => rfl) :
          Keeps CallState.files (KProg.kcopyToUser _ _)) _ _ _ hcopy
      have hfiles : t''.files = t.files := hcopyFiles.trans (Blind.files.heapOps_keeps _ _ _ hheap)
      cases returns_modify.mp hset
      refine ⟨input, inputs, line, rfl, hline, rfl, ?_, ?_⟩
      · rw [hac]
        cases input.resumed with
        | none => rfl
        | some found => rfl
      · rw [hfiles]
        cases input.resumed with
        | none => rfl
        | some found => rfl

/-- Where a call that is entered without AC returns without it. -/
def AcDropped (s : CallState) : UserCall → Prop
  | read fd _ _ => ∀ d, s.getFd fd = some d → s.nodeOf d = some .devTty →
    ∀ input ∈ s.ttyInput.head?, (s.resume input.resumed).ac = false
  | readv fd iov iovcnt => ∀ d, s.getFd fd = some d → 0 ≤ iovcnt.toInt → s.nodeOf d ≠ some .devTty →
    Along (readvOne d) (fun iov s => ∀ ret t, Returns (readvOne d iov) s ret t →
      0 ≤ ret) iovcnt.toNat iov
      { s with ac := true }
  | _ => True

theorem ac_of_read_iff (hac : s.ac = false)
    (h : Returns (KProg.read true d buf count) s r s') : s'.ac = false ↔
      (s.nodeOf d = some .devTty →
        ∀ input ∈ s.ttyInput.head?, (s.resume input.resumed).ac = false) := by
  by_cases hnode : s.nodeOf d = some .devTty
  · rw [KProg.read, returns_get_bind, hnode] at h
    obtain ⟨input, inputs, line, hinput, -, -, hafter, -⟩ := ttyRead_spec h
    rw [hafter, hinput, forall_prop_of_true hnode]
    simp
  · exact iff_of_true ((ac_of_read h hnode).trans hac) fun heq => absurd heq hnode

/-- Without the terminal AC stays set up to `clac`, which an error leaves out. -/
theorem ac_of_readvFrom_iff (hac : s.ac = true)
    (hnode : s.nodeOf d ≠ some .devTty) (h : Returns (readvFrom d n iov total) s r s') :
    s'.ac = false ↔
      Along (readvOne d) (fun iov s => ∀ ret t, Returns (readvOne d iov) s ret t →
        0 ≤ ret) n iov s := by
  induction n generalizing iov total s with
  | zero =>
    obtain ⟨_, t, hclac, h⟩ := returns_bind.mp h
    obtain ⟨-, rfl⟩ := returns_pure.mp h
    cases returns_modify.mp hclac
    exact iff_of_true rfl trivial
  | succ n ih =>
    obtain ⟨ret, t, hone, h⟩ := returns_bind.mp h
    have hset : t.ac = true := (ac_of_readvOne hone hnode).trans hac
    split at h
    · next hneg =>
      obtain ⟨-, rfl⟩ := returns_pure.mp h
      refine iff_of_false (by simp [hset]) fun hall => ?_
      exact absurd (hall.1 ret t hone) (Int.not_le.mpr hneg)
    · next hpos =>
      rw [ih hset (by rwa [nodeOf_of_readvOne hone]) h, Along]
      constructor
      · intro hrest
        refine ⟨fun ret' t' hone' => ?_, fun ret' t' hone' _ => ?_⟩
        · obtain ⟨rfl, rfl⟩ := hone.unique hone'
          exact Int.not_lt.mp hpos
        · obtain ⟨rfl, rfl⟩ := hone.unique hone'
          exact hrest
      · exact fun hall => hall.2 ret t hone (Int.not_lt.mp hpos)

/-- The terminal returns no error, so the loop comes to `clac`. -/
theorem ac_of_ttyReadv
    (hlines : ∀ x, (s.files.ttyLines x).Allocated) (hnode : s.nodeOf d = some .devTty)
    (h : Returns (readvFrom d n iov total) s r s') : s'.ac = false := by
  induction n generalizing iov total s with
  | zero =>
    obtain ⟨_, t, hclac, h⟩ := returns_bind.mp h
    obtain ⟨-, rfl⟩ := returns_pure.mp h
    cases returns_modify.mp hclac
    rfl
  | succ n ih =>
    obtain ⟨ret, t, hone, h⟩ := returns_bind.mp h
    have hnext : 0 ≤ ret ∧ ∀ x, (t.files.ttyLines x).Allocated := by
      obtain ⟨rfl, rfl⟩ | ⟨base, len, hread⟩ := readvOne_cases hone
      · exact ⟨le_rfl, hlines⟩
      · rw [KProg.read, returns_get_bind, hnode] at hread
        obtain ⟨input, inputs, line, -, hline, rfl, -, hset⟩ := ttyRead_spec hread
        refine ⟨?_, fun x => ?_⟩
        · rw [TmpFile.toInt32_of_lt ((hlines _).edit_size_lt hline)]
          exact Int.natCast_nonneg _
        · rw [hset]
          by_cases hx : x = s.files.inodeOf d
          · rw [hx, Function.update_self]
            exact (hlines _).edit hline
          · rw [Function.update_of_ne hx]
            exact hlines x
    rw [if_neg (Int.not_lt.mpr hnext.1)] at h
    exact ih hnext.2 ((nodeOf_of_readvOne hone).trans hnode) h

theorem keeps_ac_withFd {method : DescRef → KProg Int} (h : ∀ d, Keeps (·.ac) (method d)) :
    Keeps (·.ac) (withFd fd method) := by
  refine get.bind fun s => ?_
  cases s.getFd fd with
  | none => exact .pure
  | some d => exact h d

theorem keeps_ac_writev : Keeps (·.ac) (sysWritev fd iov iovcnt) := by
  have hone (d : DescRef) (iov : Word) : Keeps (·.ac) (writevOne d iov) :=
    keeps_ac_kcopyFromUser.bind fun _ => get.bind fun s => .ite .pure keeps_ac_write
  have hfrom (d : DescRef) (n : Nat) (iov : Word) (total : BitVec 32) :
      Keeps (·.ac) (writevFrom d n iov total) := by
    induction n generalizing iov total with
    | zero => exact .pure
    | succ n ih => exact (hone d iov).bind fun ret => .ite .pure (ih _ _)
  exact keeps_ac_withFd fun d => .ite .pure (hfrom d _ _ _)

theorem keeps_ac_open : Keeps (·.ac) (sysOpen path) := by
  have hfd (table : List (Option DescRef)) (i : Nat) : Keeps (·.ac) (allocFdFrom table i) := by
    induction table generalizing i with
    | nil =>
      refine keeps_ac_heapOps.bind fun _ => bind ?_ fun _ => .pure
      exact .modify fun _ => rfl
    | cons entry rest ih =>
      cases entry with
      | some d => exact ih (i + 1)
      | none => exact keeps_loadWord.bind fun _ => .ite .pure (ih (i + 1))
  refine keeps_ac_fromUserspace.bind fun str => keeps_ac_openPath.bind fun desc => ?_
  cases desc with
  | none => exact .pure
  | some d =>
    refine get.bind fun s => (hfd _ _).bind fun fd => bind ?_ fun _ => .pure
    exact .modify fun _ => rfl

theorem keeps_ac_getdents64 {buffer : Word} {count : BitVec 32} :
    Keeps (·.ac) (sysGetdents64 fd buffer count) := by
  refine keeps_ac_withFd fun d => get.bind fun s => keeps_ac_resolvePath.bind fun dir => ?_
  refine .ite .pure (keeps_ac_heapOps.bind fun _ => bind ?_ fun _ => ?_)
  · exact .modify fun _ => rfl
  · exact keeps_ac_kcopyToUser.bind fun _ => .pure

/-- `sys_execve` returns before it has changed AC. -/
theorem ac_of_execve {argv envp : Word} (h : Returns (sysExecve path argv envp) s r s') :
    s'.ac = s.ac := by
  obtain ⟨prepared, t, hprepare, h⟩ := returns_bind.mp h
  rcases prepared with _ | ⟨data, argvStrs, envpStrs⟩
  · obtain ⟨-, rfl⟩ := returns_pure.mp h
    obtain ⟨program, t', hopen, hprepare⟩ := returns_bind.mp hprepare
    cases program with
    | some data =>
      simp only [returns_bind, clac, returns_modify, returns_pure] at hprepare
      obtain ⟨_, _, -, _, _, -, _, _, -, _, _, -, hnone, -⟩ := hprepare
      cases hnone
    | none =>
      obtain ⟨-, rfl⟩ := returns_pure.mp hprepare
      obtain ⟨str, u, hstr, hopen⟩ := returns_bind.mp hopen
      obtain ⟨desc, u', hdesc, hopen⟩ := returns_bind.mp hopen
      cases desc with
      | none =>
        obtain ⟨-, rfl⟩ := returns_pure.mp hopen
        exact (keeps_ac_openPath _ _ _ hdesc).trans (keeps_ac_fromUserspace _ _ _ hstr)
      | some d =>
        rw [returns_get_bind] at hopen
        obtain ⟨_, _, -, hopen⟩ := returns_bind.mp hopen
        obtain ⟨_, _, -, hopen⟩ := returns_bind.mp hopen
        cases (returns_pure.mp hopen).1
  · obtain ⟨_, _, -, h⟩ := returns_bind.mp h
    exact (returns_stop.mp h).elim

/-- **AC after a call**: a call that is entered without AC returns without it exactly if no `iovec`
of `sys_readv` makes `read` return an error, and a `read` of the terminal goes on without AC. -/
theorem ac_dropped_iff (call : UserCall) (s : CallState)
    (hlines : ∀ x, (s.files.ttyLines x).Allocated)
    (hac : s.ac = false) {r : Int} {s' : CallState} (h : Returns call.run s r s') :
    s'.ac = false ↔ call.AcDropped s := by
  have hkeeps (hkeep : Keeps (·.ac) call.run) : s'.ac = false := (hkeep _ _ _ h).trans hac
  cases call with
  | read fd buffer count =>
    rw [run, sysRead, withFd, returns_get_bind] at h
    rw [AcDropped]
    cases hfd : s.getFd fd with
    | none =>
      rw [hfd] at h
      rw [← (returns_pure.mp h).2]
      exact iff_of_true hac fun d hd => by cases hd
    | some d =>
      rw [hfd] at h
      rw [ac_of_read_iff hac h]
      simp
  | readv fd iov iovcnt =>
    rw [run, sysReadv, withFd, returns_get_bind] at h
    rw [AcDropped]
    cases hfd : s.getFd fd with
    | none =>
      rw [hfd] at h
      rw [← (returns_pure.mp h).2]
      exact iff_of_true hac fun d hd => by cases hd
    | some d =>
      rw [hfd] at h
      simp only [Option.some.injEq, forall_eq']
      by_cases hcount : iovcnt.toInt < 0
      · obtain ⟨-, rfl⟩ := returns_pure.mp ((returns_ite.mp h).1 hcount)
        exact iff_of_true hac fun hle => absurd hcount (Int.not_lt.mpr hle)
      · have h := returns_modify_bind.mp ((returns_ite.mp h).2 hcount)
        rw [forall_prop_of_true (Int.not_lt.mp hcount)]
        by_cases hnode : s.nodeOf d = some .devTty
        · exact iff_of_true (ac_of_ttyReadv (s := { s with ac := true }) hlines hnode h) fun hne =>
            absurd hnode hne
        · rw [ac_of_readvFrom_iff (s := { s with ac := true }) rfl hnode h,
            forall_prop_of_true hnode]
  | write fd buffer count =>
    exact iff_of_true (hkeeps (keeps_ac_withFd fun _ => keeps_ac_write)) trivial
  | writev fd iov iovcnt => exact iff_of_true (hkeeps keeps_ac_writev) trivial
  | stat path out =>
    refine iff_of_true (hkeeps ?_) trivial
    refine (keeps_ac_kstringOf.bind fun _ => keeps_ac_resolvePath).bind fun inode => ?_
    cases inode with
    | none => exact .pure
    | some x => exact keeps_ac_stat
  | fstat fd out =>
    exact iff_of_true (hkeeps (keeps_ac_withFd fun _ => get.bind fun _ => keeps_ac_stat)) trivial
  | ioctl fd request arg =>
    refine iff_of_true (hkeeps (keeps_ac_withFd fun d => get.bind fun s => ?_)) trivial
    rcases s.nodeOf d with _ | node
    · exact .stop
    · cases node with
      | devTty => exact .ite (keeps_ac_kcopyToUser.bind fun _ => .pure) .pure
      | _ => exact .pure
  | getcwd buffer size =>
    refine iff_of_true (hkeeps (get.bind fun s => ?_)) trivial
    split
    · exact .stop
    · exact keeps_ac_heapOps.bind fun _ => .ite .pure (keeps_ac_kcopyToUser.bind fun _ => .pure)
  | getdents64 fd buffer count => exact iff_of_true (hkeeps keeps_ac_getdents64) trivial
  | «open» path => exact iff_of_true (hkeeps keeps_ac_open) trivial
  | execve path argv envp => exact iff_of_true ((ac_of_execve h).trans hac) trivial
  | mmap length flags =>
    refine iff_of_true (hkeeps ?_) trivial
    exact .ite .pure (assert.bind fun _ => get.bind fun _ =>
      (keeps_ac_mapHeapPages _ _).bind fun _ => .pure)
  | fork pid =>
    simp only [run, sysFork, clac, returns_bind, returns_modify, returns_pure] at h
    obtain ⟨_, _, -, _, _, -, _, _, -, _, t, rfl, _, _, hheap, -, rfl⟩ := h
    exact iff_of_true (keeps_ac_heapOps _ _ _ hheap) trivial

/-- A file of the tmpfs in `/tmp`. -/
def fileVfs : Vfs := (Vfs.next (.tmpCreate 7 (kstring [0x66]) 9) Vfs.dirVfs).getD Vfs.dirVfs

theorem fileVfs_inv : fileVfs.Inv := by
  have hnew : Vfs.dirVfs.inodes 9 = none := Option.isNone_iff_eq_none.mp (by decide)
  exact Vfs.reachable_inv (Vfs.reachable_next _ Vfs.dirVfs_reachable hnew (by decide))

/-- One `iovec` at `0x400000`: two bytes at `0x500000`. -/
def oneIovec : Lib.ByteMemory.Mem :=
  Lib.ByteMemory.store (Lib.ByteMemory.store (fun _ => 0) 0x400000 0x500000) 0x400008 2

/-- The descriptors are on a file of three bytes. -/
def fileState : CallState :=
  { ttyState with
    mem := { bothHalves with byte := oneIovec }
    files := { ttyFiles with
      vfs := fileVfs
      inv := fileVfs_inv
      cwdAt := fun _ h => nomatch h
      inodeOf := fun _ => 9
      tmpData := fun _ => ⟨[0x78, 0x79, 0x7A], 16⟩
      sizes := fun _ => 3 } }

/-- `readv` of two bytes of a file. -/
theorem file_readv_drops_ac : (readv 0 0x400000 1).AcDropped fileState := by
  have hline : (⟨.empty, [], 0, 0⟩ : TtyLine).Allocated := ⟨KVector.allocated_empty, by simp⟩
  have hrun : ((readv 0 0x400000 1).run fileState).2.map (fun p => (p.1, p.2.ac)) =
      some (2, false) := by
    decide
  obtain ⟨⟨r, t⟩, ht, hpair⟩ := Option.map_eq_some_iff.mp hrun
  exact (ac_dropped_iff (readv 0 0x400000 1) fileState (fun _ => hline) rfl ht).mp
    (Prod.mk.inj hpair).2

/-- Descriptor 0 is on the root directory, and no `iovec` is empty. -/
def rootState : CallState :=
  { ttyState with
    mem := { bothHalves with byte := fun _ => 1 }
    files := { ttyFiles with inodeOf := fun _ => 0 } }

/-- `readv` on a directory returns `-EISDIR` with AC set. -/
theorem readv_leaves_ac : rootState.ac = false ∧
    ∃ t, Returns (readv 0 0x400000 1).run rootState (-21) t ∧ t.ac = true := by
  have hrun : ((readv 0 0x400000 1).run rootState).2.map (fun p => (p.1, p.2.ac)) =
      some (-21, true) := by
    decide
  obtain ⟨⟨r, t⟩, ht, hpair⟩ := Option.map_eq_some_iff.mp hrun
  obtain ⟨rfl, hac⟩ := Prod.mk.inj hpair
  exact ⟨rfl, t, ht, hac⟩

end UserCall

end Hltos
