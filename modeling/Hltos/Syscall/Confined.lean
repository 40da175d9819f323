import Hltos.Syscall.Execve

/-!
# Which pointers are confined to the user half

For each call, the condition on its pointers under which every access through them stays below
`user_max_addr`. A pointer is harmless if it begins in the user half, or if the first access through
it faults; where the code copies with `kcopy_to_user`, `kcopy_from_user` or `from_userspace`,
nothing is asked of it.
-/

namespace Hltos

open Lib.Traced
open Vmm (isUserAddr isUserRange)

namespace KProg

open Access (Confined Covered Guarded always_guarded)

variable {s s' : CallState} {user : Bool} {d : DescRef} {x : InodeRef} {buf count out iov v : Word}
  {u : Unit} {kind : AccessKind} {str : Option (List Byte)}

/-! ## Loops over files -/

/-- The offset of a descriptor is inside its file. -/
def InFile (d : DescRef) (s : CallState) : Prop := (s.files.offsets d).toNat < (s.tmpDataOf d).size

theorem inFile_cases (d : DescRef) (s : CallState) :
    ((s.tmpDataOf d).elems[(s.files.offsets d).toNat]? = none ∧ ¬ InFile d s) ∨
      ∃ b, (s.tmpDataOf d).elems[(s.files.offsets d).toNat]? = some b ∧ InFile d s := by
  by_cases h : InFile d s
  · exact .inr ⟨_, List.getElem?_eq_getElem h, h⟩
  · exact .inl ⟨List.getElem?_eq_none_iff.mpr (Nat.le_of_not_lt h), h⟩

/-- The copy loop of a read goes up by one byte a round, while the file lasts. -/
theorem walk_tmpReadByte (d : DescRef) :
    Walk user .store 1 id (fun _ => True) (fun _ s => InFile d s)
    (tmpReadByte user d) where
  size_pos := Nat.one_pos
  confined c s _ := by
    rw [tmpReadByte, always_get_bind]
    obtain ⟨h, hnot⟩ | ⟨b, h, hin⟩ := inFile_cases d s
    · simp [h, hnot]
    · simp only [h, always_bind, always_storeByte, always_modify, always_pure,
        implies_true, and_true, hin]
      cases user with
      | true => simp [Access.confined_iff Nat.one_pos]
      | false => simp [Access.confined_of_kernel]
  covered c s _ := by
    rw [tmpReadByte, always_get_bind]
    obtain ⟨h, hnot⟩ | ⟨b, h, hin⟩ := inFile_cases d s
    · simp [h, hnot]
    · simp [h, always_bind, always_storeByte, hin, Covered]
  next c s c' s' _ hr := by
    rw [tmpReadByte, returns_get_bind] at hr
    obtain ⟨h, hnot⟩ | ⟨b, h, hin⟩ := inFile_cases d s
    · simp [h] at hr
    · simp only [h, returns_bind, returns_storeByte, returns_modify, returns_pure,
        Prod.mk.injEq] at hr
      obtain ⟨_, _, ⟨hdone, rfl⟩, _, _, rfl, ⟨-, rfl⟩, rfl⟩ := hr
      exact ⟨trivial, hin, hdone, ⟨1, by decide, rfl⟩, rfl⟩

theorem walk_tmpWriteByte (d : DescRef) : Walk true .load 1 id (fun _ => True) (fun _ _ => True)
    (tmpWriteByte d) := by
  apply walk_of_access Nat.one_pos
  · intro P c s
    simp [tmpWriteByte, always_bind, always_loadByte]
  · intro c s c' s' hr
    simp only [tmpWriteByte, returns_bind, returns_loadByte, returns_get,
      returns_assert, returns_modify, returns_pure, Prod.mk.injEq] at hr
    obtain ⟨_, _, ⟨hdone, -, rfl⟩, _, _, ⟨rfl, rfl⟩, _, _, ⟨-, rfl⟩, _, _, rfl, ⟨-, rfl⟩, rfl⟩ := hr
    exact ⟨hdone, ⟨1, by decide, rfl⟩, rfl⟩

/-- How many bytes `TmpFileInode::read` copies. -/
theorem toRead_ne_zero (h : InFile d s) :
    (if count.toNat < (s.tmpDataOf d).size - (s.files.offsets d).toNat
    then count.toNat else (s.tmpDataOf d).size - (s.files.offsets d).toNat) ≠ 0 ↔ count ≠ 0 := by
  unfold InFile at h
  have hzero : count.toNat = 0 ↔ count = 0 := BitVec.toNat_eq_nat.trans (by simp)
  rw [ne_eq, ne_eq, ← hzero]
  split <;> omega

/-! ## Methods of the inodes -/

/-- The pointer begins in the user half, or an access through it faults. -/
def Harmless (kind : AccessKind) (v : Word) (n : Nat) (s : CallState) : Prop :=
  s.allowed kind v n = true → isUserAddr v = true

def tarDataOf (s : CallState) (d : DescRef) : Word := (s.files.tarData (s.files.inodeOf d)).1

/-- The buffer of a `read`: only the files look at it without a check. -/
def ReadConfined (d : DescRef) (buf count : Word) (s : CallState) : Prop :=
  match s.nodeOf d with
  | some .tmpFile => count ≠ 0 → InFile d s → Harmless .store buf 1 s
  | some .initramfsFile => count ≠ 0 → s.allowed .load (tarDataOf s d) 1 = true →
    Harmless .store buf 1 s
  | _ => True

/-- The file can be made as long as `write` needs it. -/
def CanGrow (d : DescRef) (count : Word) (s : CallState) : Prop :=
  ((s.tmpDataOf d).resize s.heap (s.files.offsets d + count).toNat).isSome

def WriteConfined (d : DescRef) (buf count : Word) (s : CallState) : Prop :=
  match s.nodeOf d with
  | some .tmpFile => count ≠ 0 → CanGrow d count s → Harmless .load buf 1 s
  | _ => True

def StatConfined (x : InodeRef) (out : Word) (s : CallState) : Prop :=
  (statOf s x).isSome → Harmless .store (out + 8) 8 s

theorem confined_tmpRead : Always Confined (tmpRead user d buf count) s ↔
    (user = true → count ≠ 0 → InFile d s → Harmless .store buf 1 s) := by
  rw [tmpRead, always_get_bind, always_ite]
  simp only [always_bind, always_pure, implies_true, true_and, and_true, Nat.not_le,
    (walk_tmpReadByte d).always_confined trivial]
  constructor
  · intro h huser hcount hin
    exact h hin ((toRead_ne_zero hin).mpr hcount) huser hin
  · intro h hin hread huser _
    exact h huser ((toRead_ne_zero hin).mp hread) hin

theorem confined_initramfsRead : Always Confined (initramfsRead user d buf count) s ↔
    (user = true → count ≠ 0 → s.allowed .load (tarDataOf s d) 1 = true →
      Harmless .store buf 1 s) := by
  have hzero : count.toNat ≠ 0 ↔ count ≠ 0 := not_congr (BitVec.toNat_eq_nat.trans (by simp))
  have hsrc : isUserAddr (tarDataOf s d) = false := (s.files.tarData _).2
  rw [initramfsRead, always_get_bind, always_ite, always_assert_bind]
  simp only [always_bind, always_pure, implies_true, and_true]
  constructor
  · intro h huser hcount hload hdone
    by_contra hkernel
    exact hkernel ((confined_memcpy hsrc).mp (h.2 hkernel) (hzero.mpr hcount) huser hload hdone)
  · intro h
    refine ⟨fun hbuf _ => always_withAc fun s _ => ?_, fun _ => ?_⟩
    · exact (confined_memcpy hsrc).mpr fun _ _ _ _ => hbuf
    · exact (confined_memcpy hsrc).mpr fun hcount huser => h huser (hzero.mp hcount)

theorem guarded_ttyRead : Always Guarded (ttyRead d buf count) s := by
  rw [ttyRead, always_get_bind]
  split
  · exact always_stop.mpr trivial
  · split
    · exact always_stop.mpr trivial
    · rw [always_modify_bind, always_bind]
      refine ⟨guarded_heapOps, fun _ _ _ => ?_⟩
      exact always_bind.mpr ⟨guarded_kcopyToUser, fun _ _ _ => always_pure.mpr trivial⟩

theorem guarded_procSelfRead : Always Guarded (procSelfRead buf count) s := by
  rw [procSelfRead, always_get_bind]
  split
  · exact always_stop.mpr trivial
  · refine always_bind.mpr ⟨guarded_heapOps, fun _ _ _ => ?_⟩
    exact always_bind.mpr ⟨guarded_kcopyToUser, fun _ _ _ => always_pure.mpr trivial⟩

theorem confined_read : Always Confined (read user d buf count) s ↔
    (user = true → ReadConfined d buf count s) := by
  rw [read, always_get_bind, ReadConfined]
  rcases s.nodeOf d with _ | node
  · simp
  · cases node with
    | tmpFile => exact confined_tmpRead
    | initramfsFile => exact confined_initramfsRead
    | devTty => exact iff_of_true (always_guarded.mp guarded_ttyRead).1 fun _ => trivial
    | procSelf => exact iff_of_true (always_guarded.mp guarded_procSelfRead).1 fun _ => trivial
    | _ => simp

theorem returns_tmpGrow (h : CanGrow d count s) : ∃ u t, Returns (tmpGrow d count) s u t := by
  obtain ⟨data, hdata⟩ := Option.isSome_iff_exists.mp h
  obtain ⟨_, t, ht⟩ := total_heapOps s
  refine ⟨(), t.setTmpData d data, ?_⟩
  rw [tmpGrow, returns_get_bind, hdata]
  exact returns_bind.mpr ⟨(), t, ht, returns_modify.mpr rfl⟩

theorem Blind.mem : Blind fun s => ((s.mem, s.smap) : VirtMem × Bool) :=
  ⟨fun _ _ => rfl, fun _ _ => rfl, fun _ _ => rfl, fun _ _ => rfl⟩

theorem Blind.files : Blind CallState.files :=
  ⟨fun _ _ => rfl, fun _ _ => rfl, fun _ _ => rfl, fun _ _ => rfl⟩

/-- What is mapped does not depend on the heap. -/
theorem allowed_heapOps {n : Nat} (h : Returns heapOps s u s') :
    s'.allowed kind v n = s.allowed kind v n := by
  obtain ⟨hmem, hsmap⟩ : s'.mem = s.mem ∧ s'.smap = s.smap :=
    Prod.mk.inj (Blind.mem.heapOps_keeps _ _ _ h)
  have hac : s'.ac = s.ac := keeps_ac_heapOps _ _ _ h
  unfold CallState.allowed
  rw [hmem, hsmap, hac]

theorem tmpGrow_spec (h : Returns (tmpGrow d count) s u s') : CanGrow d count s ∧
    s'.ac = s.ac ∧ ∀ kind v n, s'.allowed kind v n = s.allowed kind v n := by
  rw [tmpGrow, returns_get_bind] at h
  split at h
  · exact (returns_stop.mp h).elim
  · next data hdata =>
    obtain ⟨_, t, ht, hset⟩ := returns_bind.mp h
    cases returns_modify.mp hset
    have hac : t.ac = s.ac := keeps_ac_heapOps _ _ _ ht
    refine ⟨Option.isSome_iff_exists.mpr ⟨data, hdata⟩, hac, fun kind v n => ?_⟩
    exact (allowed_heapOps ht : t.allowed kind v n = s.allowed kind v n)

theorem guarded_tmpGrow : Always Guarded (tmpGrow d count) s := by
  rw [tmpGrow, always_get_bind]
  split
  · exact always_stop.mpr trivial
  · exact always_bind.mpr ⟨guarded_heapOps, fun _ _ _ => always_modify.mpr trivial⟩

theorem confined_tmpWrite : Always Confined (tmpWrite d buf count) s ↔
    (count ≠ 0 → CanGrow d count s → Harmless .load buf 1 s) := by
  have hzero : count.toNat ≠ 0 ↔ count ≠ 0 := not_congr (BitVec.toNat_eq_nat.trans (by simp))
  rw [tmpWrite]
  simp only [always_bind, always_modify, always_pure, implies_true, and_true,
    (walk_tmpWriteByte d).always_confined trivial,
    (always_guarded.mp guarded_tmpGrow).1, true_and, hzero,
    true_implies]
  constructor
  · intro h hcount hgrow hdone
    obtain ⟨u, t, ht⟩ := returns_tmpGrow hgrow
    refine h u t ht hcount ?_
    rw [(tmpGrow_spec ht).2.2]
    exact hdone
  · intro h u t ht hcount hdone
    rw [(tmpGrow_spec ht).2.2] at hdone
    exact h hcount (tmpGrow_spec ht).1 hdone

theorem guarded_ttyWrite : Always Guarded (ttyWrite buf count) s := by
  refine always_bind.mpr ⟨guarded_heapOps, fun _ _ _ => ?_⟩
  exact always_bind.mpr ⟨guarded_kcopyFromUser, fun _ _ _ => always_pure.mpr trivial⟩

theorem confined_write : Always Confined (write d buf count) s ↔ WriteConfined d buf count s := by
  rw [write, always_get_bind, WriteConfined]
  rcases s.nodeOf d with _ | node
  · simp
  · cases node with
    | tmpFile => exact confined_tmpWrite
    | devTty => exact iff_of_true (always_guarded.mp guarded_ttyWrite).1 trivial
    | _ => simp

/-- Eight bytes below an address of the user half is the user half, or the last page. -/
theorem confined_below {n : Nat} {ac : Bool} (h : isUserAddr (v + 8) = true) (hn : 0 < n) :
    Confined ⟨kind, v, n, ac, s.allowed kind v n, true⟩ := by
  rw [isUserAddr_iff, BitVec.toNat_add] at h
  intro _ hdone
  by_cases hwrap : v.toNat + 8 < 2 ^ 64
  · apply CallState.fits_of_allowed _ hn hdone
    have : (8 : Word).toNat = 8 := rfl
    omega
  · have := CallState.below_top hn hdone
    omega

theorem confined_stat : Always Confined (stat x out) s ↔ StatConfined x out s := by
  rw [stat, always_get_bind, StatConfined]
  rcases statOf s x with _ | ⟨size, type⟩
  · simp
  · simp only [storeStat, always_bind, always_storeWord, always_storeByte,
      returns_storeWord, always_pure,
      implies_true, and_true, Access.confined_iff (show 0 < 8 by decide),
        Option.isSome_some, true_implies]
    refine and_iff_left_of_imp fun hfirst => ?_
    rintro _ _ ⟨hdone, rfl⟩
    exact confined_below (hfirst hdone) Nat.one_pos

/-! ## Paths and strings -/

theorem own_confined : Own Confined (fun _ => True) where
  access _ _ _ _ _ _ := Access.confined_of_kernel
  header _ := Access.confined_of_kernel
  mem _ _ _ := trivial
  heapOps _ _ _ _ _ := trivial

theorem confined_resolvePath : Always Confined (resolvePath str) s := by
  have hfront : Safe Confined (fun _ => True) (frontOf str) := by
    cases str with
    | none => exact own_confined.safe_loadByte.bind fun _ => .pure
    | some chars => exact .pure
  have hall : Safe Confined (fun _ => True) (resolvePath str) := by
    refine own_confined.safe_heapOps.bind fun _ => hfront.bind fun path => Safe.get.bind fun s => ?_
    split
    · exact own_confined.safe_access.bind fun _ => .stop
    · exact .pure
  exact (hall s trivial).1

theorem confined_openPath : Always Confined (openPath str) s := by
  refine always_bind.mpr ⟨confined_resolvePath, fun inode _ _ => ?_⟩
  cases inode with
  | none => exact always_pure.mpr trivial
  | some x =>
    refine always_bind.mpr ⟨(always_guarded.mp guarded_heapOps).1, fun _ _ _ => ?_⟩
    simp [always_bind]

theorem confined_allocFdFrom (table : List (Option DescRef)) (i : Nat) :
    Always Confined (allocFdFrom table i) s := by
  induction table generalizing s i with
  | nil =>
    refine always_bind.mpr ⟨(always_guarded.mp guarded_heapOps).1, fun _ _ _ => ?_⟩
    simp [always_bind]
  | cons entry rest ih =>
    cases entry with
    | some d => exact ih _
    | none =>
      refine always_bind.mpr ⟨always_loadWord.mpr Access.confined_of_kernel, fun w t _ => ?_⟩
      exact always_ite.mpr ⟨fun _ => always_pure.mpr trivial, fun _ => ih _⟩

/-- The copy of an argument vector goes up by one pointer a round. -/
theorem walk_copyString :
    Walk true .load 8 Prod.fst (fun _ => True) (fun _ _ => True) copyString where
  size_pos := by decide
  confined c s _ := by
    rw [copyString, always_bind, always_loadWord, Access.confined_iff (by decide)]
    simp only [true_implies]
    refine and_iff_left_of_imp fun _ => fun arg t _ =>
      always_ite.mpr ⟨fun _ => always_pure.mpr trivial, ?_⟩
    refine fun _ => always_bind.mpr ⟨(always_guarded.mp guarded_fromUserspace).1, fun _ _ _ => ?_⟩
    exact always_bind.mpr ⟨(always_guarded.mp guarded_heapOps).1, fun _ _ _ =>
      always_pure.mpr trivial⟩
  covered c s _ := by
    rw [copyString, always_bind, always_loadWord]
    simp only [Covered, true_implies]
    refine and_iff_left_of_imp fun _ => fun arg t _ =>
      always_ite.mpr ⟨fun _ => always_pure.mpr trivial, ?_⟩
    refine fun _ => always_bind.mpr ⟨(always_guarded.mp guarded_fromUserspace).2, fun _ _ _ => ?_⟩
    exact always_bind.mpr ⟨(always_guarded.mp guarded_heapOps).2, fun _ _ _ =>
      always_pure.mpr trivial⟩
  next c s c' s' _ hr := by
    obtain ⟨arg, t, hload, hr⟩ := returns_bind.mp hr
    obtain ⟨hdone, -, rfl⟩ := returns_loadWord.mp hload
    split at hr
    · simp at hr
    · obtain ⟨str, t, hstr, hr⟩ := returns_bind.mp hr
      obtain ⟨_, t', hheap, hr⟩ := returns_bind.mp hr
      obtain ⟨hc', rfl⟩ := returns_pure.mp hr
      cases hc'
      have hac : t'.ac = s.ac :=
        (keeps_ac_heapOps _ _ _ hheap).trans (keeps_ac_fromUserspace _ _ _ hstr)
      exact ⟨trivial, trivial, hdone, ⟨8, by decide, rfl⟩, hac⟩

theorem confined_copyStrings {strs : Word} : Always Confined (copyStrings strs) s ↔
    (strs ≠ 0 → Harmless .load strs 8 s) := by
  rw [copyStrings, always_ite]
  simp only [always_pure, implies_true, true_and, always_bind, and_true,
    walk_copyString.always_confined trivial, true_implies]
  exact forall_congr' fun _ => ⟨fun h => h (Nat.succ_ne_zero _), fun h _ => h⟩

/-! ## Vectors -/

/-- A condition on every `iovec` that a loop comes to, in the state in which it comes there. The
loop goes on as long as a round returns no error. -/
def Along (one : Word → KProg Int) (ok : Word → CallState → Prop) : Nat → Word → CallState → Prop
  | 0, _, _ => True
  | n + 1, iov, s =>
    ok iov s ∧ ∀ ret s', Returns (one iov) s ret s' → 0 ≤ ret → Along one ok n (iov + 16) s'

/-- The `iovec` is read from its second field on, and then used. -/
def IovecConfined (d : DescRef) (iov : Word) (s : CallState) : Prop :=
  Harmless .load (iov + 8) 8 s ∧ (s.allowed .load (iov + 8) 8 = true → s.mem.word (iov + 8) ≠ 0 →
    s.allowed .load iov 8 = true → ReadConfined d (s.mem.word iov) (s.mem.word (iov + 8)) s)

/-- The `iovec` is copied, and then used. -/
def IovecCopyConfined (d : DescRef) (iov : Word) (s : CallState) : Prop :=
  ∀ bytes, Returns (kcopyFromUser iov 16) s bytes s → s.mem.word (iov + 8) ≠ 0 →
    WriteConfined d (s.mem.word iov) (s.mem.word (iov + 8)) s

variable {P : Access → Prop} {n : Nat} {total : BitVec 32}

theorem always_readvFrom : Always P (readvFrom d n iov total) s ↔
    Along (readvOne d) (fun iov s => Always P (readvOne d iov) s) n iov s := by
  induction n generalizing iov total s with
  | zero => simp [readvFrom, Along, clac, always_bind]
  | succ n ih =>
    rw [readvFrom, always_bind, Along]
    refine and_congr_right fun _ => forall_congr' fun ret => forall_congr' fun t => ?_
    refine imp_congr_right fun _ => ?_
    rw [always_ite]
    simp only [always_pure, implies_true, true_and, Int.not_lt]
    exact imp_congr_right fun _ => ih

theorem always_writevFrom : Always P (writevFrom d n iov total) s ↔
    Along (writevOne d) (fun iov s => Always P (writevOne d iov) s) n iov s := by
  induction n generalizing iov total s with
  | zero => simp [writevFrom, Along]
  | succ n ih =>
    rw [writevFrom, always_bind, Along]
    refine and_congr_right fun _ => forall_congr' fun ret => forall_congr' fun t => ?_
    refine imp_congr_right fun _ => ?_
    rw [always_ite]
    simp only [always_pure, implies_true, true_and, Int.not_lt]
    exact imp_congr_right fun _ => ih

/-- A copy from the caller changes nothing. -/
theorem eq_of_kcopyFromUser {size : Word} {bytes : List Byte}
    (h : Returns (kcopyFromUser v size) s bytes s') :
    s' = s := by
  obtain ⟨_, _, hrange, h⟩ := returns_bind.mp h
  obtain ⟨-, rfl⟩ := returns_assert.mp hrange
  simp only [withAc, stac, writeRflags, returns_bind, returns_readRflags,
    returns_modify, returns_pure] at h
  obtain ⟨_, _, ⟨rfl, rfl⟩, _, _, rfl, _, t, hload, _, _, rfl, -, rfl⟩ := h
  have ht : t = { s with ac := true } := keeps_loadBytes (p := id) _ _ _ hload
  rw [ht]

theorem confined_readvOne : Always Confined (readvOne d iov) s ↔ IovecConfined d iov s := by
  have h8 : 0 < 8 := by decide
  rw [readvOne, always_bind, always_loadWord, Access.confined_iff h8, IovecConfined]
  refine and_congr_right fun hfirst => ?_
  constructor
  · intro h hlen hne hbase
    have hrest := (always_ite.mp (h _ s (returns_loadWord.mpr ⟨hlen, rfl, rfl⟩))).2 hne
    have hrest := (always_bind.mp hrest).2 _ s (returns_loadWord.mpr ⟨hbase, rfl, rfl⟩)
    have hread := (always_bind.mp hrest).2 _ s (returns_loadWord.mpr ⟨hlen, rfl, rfl⟩)
    exact confined_read.mp hread rfl
  · rintro h _ _ hr
    obtain ⟨hlen, rfl, rfl⟩ := returns_loadWord.mp hr
    refine always_ite.mpr ⟨fun _ => always_pure.mpr trivial, fun hne => ?_⟩
    refine always_bind.mpr ⟨always_loadWord.mpr (confined_below (hfirst hlen) h8), fun _ _ hr => ?_⟩
    obtain ⟨hbase, rfl, rfl⟩ := returns_loadWord.mp hr
    refine always_bind.mpr ⟨always_loadWord.mpr ((Access.confined_iff h8).mpr hfirst), ?_⟩
    rintro _ _ hr
    obtain ⟨-, rfl, rfl⟩ := returns_loadWord.mp hr
    exact confined_read.mpr fun _ => h hlen hne hbase

theorem confined_writevOne : Always Confined (writevOne d iov) s ↔ IovecCopyConfined d iov s := by
  rw [writevOne, always_bind, IovecCopyConfined]
  simp only [(always_guarded.mp guarded_kcopyFromUser).1, true_and, always_get_bind,
    always_ite, always_pure, implies_true, confined_write]
  constructor
  · exact fun h bytes hr => h bytes s hr
  · intro h bytes t hr
    cases eq_of_kcopyFromUser hr
    exact h bytes hr

end KProg

/-! ## The calls -/

namespace UserCall

open KProg
open Access (Confined always_guarded)

/-- Where the pointers of a call are confined to the user half. -/
def PointersConfined (s : CallState) : UserCall → Prop
  | read fd buffer count => ∀ d, s.getFd fd = some d → ReadConfined d buffer count s
  | readv fd iov iovcnt => ∀ d, s.getFd fd = some d → 0 ≤ iovcnt.toInt →
    Along (readvOne d) (IovecConfined d) iovcnt.toNat iov { s with ac := true }
  | write fd buffer count => ∀ d, s.getFd fd = some d → WriteConfined d buffer count s
  | writev fd iov iovcnt => ∀ d, s.getFd fd = some d → 0 ≤ iovcnt.toInt →
    Along (writevOne d) (IovecCopyConfined d) iovcnt.toNat iov s
  | stat path out => (path ≠ 0 → Harmless .load path 1 s) ∧
    ∀ x s', Returns (statPath path) s (some x) s' → StatConfined x out s'
  | fstat fd out => ∀ d, s.getFd fd = some d → StatConfined (s.files.inodeOf d) out s
  | execve path argv envp => ∀ data t, Returns (openProgram path) s (some data) t →
    (argv ≠ 0 → Harmless .load argv 8 { t with ac := true }) ∧
    ∀ strs t', Returns (copyStrings argv) { t with ac := true } strs t' →
      (envp ≠ 0 → Harmless .load envp 8 t')
  | _ => True

variable {s : CallState} {fd : BitVec 32} {path : Word} {P : Access → Prop}

theorem always_withFd {method : DescRef → KProg Int} :
    Always P (withFd fd method) s ↔ ∀ d, s.getFd fd = some d → Always P (method d) s := by
  rw [withFd, always_get_bind]
  cases s.getFd fd with
  | none => simp
  | some d => simp

/-! ### Calls that check what they copy -/

section Guarded

open Access (Guarded)

variable {size buffer : Word}

theorem guarded_allocBuffer : Always Guarded (allocBuffer size) s := by
  refine always_ite.mpr ⟨fun _ => always_pure.mpr trivial, fun _ => ?_⟩
  exact always_bind.mpr ⟨guarded_heapOps, fun _ _ _ => by simp [always_bind]⟩

theorem guarded_ioctl {request arg : Word} : Always Guarded (sysIoctl fd request arg) s := by
  rw [sysIoctl, always_withFd]
  intro d _
  rw [KProg.ioctl, always_get_bind]
  rcases s.nodeOf d with _ | node
  · exact always_stop.mpr trivial
  · cases node with
    | devTty =>
      refine always_ite.mpr ⟨fun _ => ?_, fun _ => always_pure.mpr trivial⟩
      exact always_bind.mpr ⟨guarded_kcopyToUser, fun _ _ _ => always_pure.mpr trivial⟩
    | _ => exact always_pure.mpr trivial

theorem guarded_getcwd : Always Guarded (sysGetcwd buffer size) s := by
  rw [sysGetcwd, always_get_bind]
  split
  · exact always_stop.mpr trivial
  · refine always_bind.mpr ⟨guarded_heapOps, fun _ _ _ => ?_⟩
    refine always_ite.mpr ⟨fun _ => always_pure.mpr trivial, fun _ => ?_⟩
    exact always_bind.mpr ⟨guarded_kcopyToUser, fun _ _ _ => always_pure.mpr trivial⟩

theorem guarded_mmap {length : Word} {flags : BitVec 32} :
    Always Guarded (KProg.sysMmap length flags) s := by
  refine always_ite.mpr ⟨fun _ => always_pure.mpr trivial, fun _ => ?_⟩
  rw [always_assert_bind]
  intro _
  rw [always_get_bind]
  refine always_bind.mpr ⟨always_mapHeapPages (fun _ =>
    ⟨Access.confined_of_kernel, fun _ => rfl⟩) _ _, ?_⟩
  exact fun _ _ _ => always_pure.mpr trivial

theorem guarded_fork {pid : BitVec 32} : Always Guarded (sysFork pid) s := by
  simp [sysFork, stac, clac, always_bind, guarded_heapOps]

/-- The path of the directory is the kernel's own. -/
theorem always_getdents64 {count : BitVec 32}
    (hguarded : ∀ {α : Type} {x : KProg α} {t : CallState}, Always Guarded x t → Always P x t)
    (hresolve : ∀ path t, Always P (resolvePath (some path)) t) :
    Always P (sysGetdents64 fd buffer count) s := by
  rw [sysGetdents64, always_withFd]
  intro d _
  rw [always_get_bind]
  refine always_bind.mpr ⟨hresolve _ s, fun dir t _ => ?_⟩
  refine always_ite.mpr ⟨fun _ => always_pure.mpr trivial, fun _ => ?_⟩
  refine always_bind.mpr ⟨hguarded guarded_heapOps, fun _ _ _ => ?_⟩
  refine always_modify_bind.mpr (always_bind.mpr ⟨?_, fun _ _ _ => always_pure.mpr trivial⟩)
  exact hguarded guarded_kcopyToUser

end Guarded

theorem confined_openProgram : Always Confined (openProgram path) s := by
  refine always_bind.mpr ⟨(always_guarded.mp guarded_fromUserspace).1, fun str t _ => ?_⟩
  refine always_bind.mpr ⟨confined_openPath, fun desc t _ => ?_⟩
  cases desc with
  | none => exact always_pure.mpr trivial
  | some d =>
    rw [always_get_bind]
    refine always_bind.mpr ⟨(always_guarded.mp guarded_allocBuffer).1, fun data t _ => ?_⟩
    exact always_bind.mpr ⟨confined_read.mpr (fun h => nomatch h), fun _ _ _ =>
      always_pure.mpr trivial⟩

theorem confined_execElf64 {data : Word} {argvStrs envpStrs : List (List Byte)} :
    Always Confined (execElf64 data argvStrs envpStrs) s := by
  have hset (f : CallState → CallState) : Safe Confined (fun _ => True) (Prog.modify f) :=
    fun _ _ => ⟨always_modify.mpr trivial, fun _ _ _ => trivial⟩
  have hall : Safe Confined (fun _ => True) (execElf64 data argvStrs envpStrs) :=
    own_confined.safe_parseFile.bind fun _ => own_confined.safe_heapOps.bind fun _ =>
      (hset _).bind fun _ =>
      (hset _).bind fun _ => own_confined.safe_heapOps.bind fun _ =>
      (own_confined.safe_mapElf64Headers _).bind fun _ =>
      (own_confined.safe_buildUserStack _ _).bind fun _ => own_confined.safe_heapOps.bind fun _ =>
        hset _
  exact (hall s trivial).1

/-- The path is checked; the two vectors are followed wherever they point. -/
theorem confined_execve {argv envp : Word} :
    Always Confined (sysExecve path argv envp) s ↔ PointersConfined s (execve path argv envp) := by
  rw [sysExecve, always_bind]
  refine (and_iff_left fun r t _ => ?_).trans ?_
  · cases r with
    | none => exact always_pure.mpr trivial
    | some r => exact always_bind.mpr ⟨confined_execElf64, fun _ _ _ => always_stop.mpr trivial⟩
  rw [prepareExec, always_bind]
  refine (and_iff_right confined_openProgram).trans ?_
  constructor
  · intro h data t hopen
    have hargs := always_modify_bind.mp (h (some data) t hopen)
    obtain ⟨hargv, hrest⟩ := always_bind.mp hargs
    refine ⟨confined_copyStrings.mp hargv, fun strs t' hr => ?_⟩
    exact confined_copyStrings.mp (always_bind.mp (hrest strs t' hr)).1
  · intro h r t hopen
    cases r with
    | none => exact always_pure.mpr trivial
    | some data =>
      obtain ⟨hargv, henvp⟩ := h data t hopen
      refine always_modify_bind.mpr (always_bind.mpr ⟨confined_copyStrings.mpr hargv,
        fun strs t' hr => ?_⟩)
      refine always_bind.mpr ⟨confined_copyStrings.mpr (henvp strs t' hr), fun _ _ _ => ?_⟩
      simp [clac, always_bind]

/-- **Where user pointers are confined**: every access that a call makes through a pointer of the
caller is below `user_max_addr` exactly if each pointer that the code follows without a check begins
there, or faults at once. -/
theorem confined_iff_pointersConfined (call : UserCall) (s : CallState) :
    (∀ e ∈ call.accesses s, e.Confined) ↔ call.PointersConfined s := by
  show Always Confined call.run s ↔ _
  cases call with
  | read fd buffer count => simp [run, sysRead, PointersConfined, always_withFd, confined_read]
  | readv fd iov iovcnt =>
    rw [run, sysReadv, always_withFd, PointersConfined]
    refine forall_congr' fun d => imp_congr_right fun _ => ?_
    rw [always_ite]
    simp only [always_pure, implies_true, true_and, Int.not_lt]
    rw [stac, always_modify_bind, always_readvFrom]
    simp [confined_readvOne]
  | write fd buffer count => simp [run, sysWrite, PointersConfined, always_withFd, confined_write]
  | writev fd iov iovcnt =>
    rw [run, sysWritev, always_withFd, PointersConfined]
    refine forall_congr' fun d => imp_congr_right fun _ => ?_
    rw [always_ite]
    simp only [always_pure, implies_true, true_and, Int.not_lt]
    rw [always_writevFrom]
    simp [confined_writevOne]
  | stat path out =>
    have hpath : Always Confined (statPath path) s ↔ (path ≠ 0 → Harmless .load path 1 s) := by
      rw [statPath, always_bind, confined_kstringOf]
      exact and_iff_left fun _ _ _ => confined_resolvePath
    rw [run, sysStat, always_bind, hpath, PointersConfined]
    refine and_congr_right fun _ => ?_
    constructor
    · exact fun h x t hr => confined_stat.mp (h (some x) t hr)
    · intro h r t hr
      cases r with
      | none => exact always_pure.mpr trivial
      | some x => exact confined_stat.mpr (h x t hr)
  | fstat fd out =>
    simp [run, sysFstat, PointersConfined, always_withFd, always_get_bind, confined_stat]
  | ioctl fd request arg => exact iff_of_true (always_guarded.mp guarded_ioctl).1 trivial
  | getcwd buffer size => exact iff_of_true (always_guarded.mp guarded_getcwd).1 trivial
  | getdents64 fd buffer count =>
    refine iff_of_true (always_getdents64 (fun h => (always_guarded.mp h).1) ?_) trivial
    exact fun _ _ => confined_resolvePath
  | «open» path =>
    refine iff_of_true ?_ trivial
    refine always_bind.mpr ⟨(always_guarded.mp guarded_fromUserspace).1, fun str t _ => ?_⟩
    refine always_bind.mpr ⟨confined_openPath, fun desc t _ => ?_⟩
    cases desc with
    | none => exact always_pure.mpr trivial
    | some d =>
      rw [always_get_bind]
      refine always_bind.mpr ⟨confined_allocFdFrom _ _, fun _ _ _ => ?_⟩
      simp [always_bind]
  | execve path argv envp => exact confined_execve
  | mmap length flags => exact iff_of_true (always_guarded.mp guarded_mmap).1 trivial
  | fork pid => exact iff_of_true (always_guarded.mp guarded_fork).1 trivial

/-! ### A process at the terminal -/

/-- The user half and the kernel half are mapped up to the last page. -/
def bothHalves : VirtMem where
  byte _ := 0
  allows _ v := v < Vmm.userMaxAddr ∨ (0xFFFF800000000000 ≤ v ∧ v < 0xFFFFFFFFFFFFF000)
  hole kind v hlow hhigh := by
    simp only [decide_eq_false_iff_not, not_or, not_and]
    exact ⟨BitVec.not_lt.mpr hlow, fun h => absurd h (BitVec.not_le.mpr hhigh)⟩
  top kind v h := by
    have hle : (Vmm.userMaxAddr : Word) ≤ v := BitVec.le_trans (by decide) h
    simp only [decide_eq_false_iff_not, not_or, not_and]
    exact ⟨BitVec.not_lt.mpr hle, fun _ => BitVec.not_lt.mpr h⟩

/-- The three descriptors of a new process are on `/dev/tty1`. -/
def ttyFiles : OpenFiles where
  vfs := Vfs.dirVfs
  inv := Vfs.reachable_inv Vfs.dirVfs_reachable
  cwd := none
  cwdAt _ h := nomatch h
  table := [some 0, some 1, some 2]
  inodeOf _ := 5
  offsets _ := 0
  paths _ := FdState.tty1Path
  tmpData _ := .empty
  tarData _ := ⟨0xFFFF800000100000, by decide⟩
  ttyLines _ := ⟨.empty, [], 0, 0⟩
  sizes _ := 0
  nextDesc := 3
  depth := 1

def ttyState : CallState where
  mem := bothHalves
  ac := false
  smap := true
  vmmLock := false
  pmmLock := false
  files := ttyFiles
  proc := ⟨1, [], .running, 0, 0, 0, 0, 0⟩
  screenRows := 25
  screenCols := 80
  buffer := ⟨0xFFFF808000000008, by decide⟩
  newSpace := bothHalves
  uheapPage := 0x8000000000
  uheapFrames := 1
  heap := ⟨fun _ => false, fun _ h => nomatch h⟩
  heapOps := []
  ttyInput := []

/-- `fstat` of the terminal with a pointer into the kernel heap clears eight bytes there. -/
theorem fstat_stores_in_kernel : (⟨.store, 0xFFFF808000000008, 8, false, true, true⟩ : Access) ∈
      (fstat 0 0xFFFF808000000000).accesses ttyState ∧
    ¬ ∀ e ∈ (fstat 0 0xFFFF808000000000).accesses ttyState, e.Confined := by
  have hmem : (⟨.store, 0xFFFF808000000008, 8, false, true, true⟩ : Access) ∈
      (fstat 0 0xFFFF808000000000).accesses ttyState := by decide
  exact ⟨hmem, fun h => absurd (h _ hmem) (by decide)⟩

end UserCall

end Hltos
