import Hltos.Syscall.Confined

/-!
# The AC flag during a call

With SMAP the kernel may touch the user half only while AC is set. For each call, the condition
under which every such access is covered by AC. Allocations keep AC, so what is allocated on the way
does not matter.
-/

namespace Hltos

open Lib.Traced
open Vmm (isUserAddr isUserRange)

/-- Eight bytes below an address of the kernel half that is mapped is no user memory. -/
theorem CallState.kernel_below {s : CallState} {kind : AccessKind} {v : Word} {n : Nat}
    (hv : isUserAddr (v + 8) = false) (hn : 0 < n) (h : s.allowed kind (v + 8) n = true) :
    isUserAddr v = false := by
  rw [← Bool.not_eq_true, isUserAddr_iff] at hv ⊢
  intro hlow
  have haddr : (v + 8).toNat = v.toNat + 8 := by
    rw [BitVec.toNat_add, show (8 : Word).toNat = 8 from rfl]
    omega
  have hfits := CallState.fits_of_allowed (by omega) hn h
  omega

variable {path data : Word} {strs : Word} {argvStrs envpStrs : List (List Byte)}

namespace KProg

open Access (Covered always_guarded)

variable {s s' : CallState} {user : Bool} {d : DescRef} {x : InodeRef} {buf count out iov v : Word}
  {r : Int}

/-! ## What keeps AC -/

section Keeps

variable {γ : Type} {p : CallState → γ} {str : Option (List Byte)} (hheap : Keeps p heapOps)

include hheap

theorem keeps_kstringOf : Keeps p (kstringOf v) :=
  .ite .pure (keeps_strlen.bind fun _ => hheap.bind fun _ => keeps_loadBytes.bind fun _ => .pure)

theorem keeps_resolvePath : Keeps p (resolvePath str) := by
  have hfront : Keeps p (frontOf str) := by
    cases str with
    | none => exact keeps_loadByte.bind fun _ => .pure
    | some chars => exact .pure
  refine hheap.bind fun _ => hfront.bind fun path => Keeps.get.bind fun s => ?_
  split
  · exact keeps_access.bind fun _ => .stop
  · exact .pure

theorem keeps_openPath
    (hp : ∀ s files, files.table = s.files.table → p { s with files := files } = p s) :
    Keeps p (openPath str) := by
  refine (keeps_resolvePath hheap).bind fun inode => ?_
  cases inode with
  | none => exact .pure
  | some x =>
    refine hheap.bind fun _ => Keeps.get.bind fun s => Keeps.bind ?_ fun _ => .pure
    exact .modify fun s => hp s _ rfl

end Keeps

theorem keeps_ac_kstringOf : Keeps (·.ac) (kstringOf v) := keeps_kstringOf keeps_ac_heapOps

theorem keeps_ac_tmpRead : Keeps (·.ac) (tmpRead user d buf count) := by
  have hbyte (c : Word) : Keeps (·.ac) (tmpReadByte user d c) := by
    refine Keeps.get.bind fun s => ?_
    split
    · exact .stop
    · refine (keeps_storeByte fun _ _ => rfl).bind fun _ => Keeps.bind ?_ fun _ => .pure
      exact .modify fun _ => rfl
  exact Keeps.get.bind fun s => .ite .pure ((Keeps.loop hbyte _ _).bind fun _ => .pure)

theorem keeps_ac_initramfsRead : Keeps (·.ac) (initramfsRead user d buf count) := by
  refine Keeps.get.bind fun s => .ite ?_ ?_
  · exact Keeps.assert.bind fun _ => keeps_ac_withAc.bind fun _ => .pure
  · exact (keeps_memcpy fun _ _ => rfl).bind fun _ => .pure

theorem keeps_ac_procSelfRead : Keeps (·.ac) (procSelfRead buf count) := by
  refine Keeps.get.bind fun s => ?_
  split
  · exact .stop
  · exact keeps_ac_heapOps.bind fun _ => keeps_ac_kcopyToUser.bind fun _ => .pure

/-- Only the terminal waits, and may find another AC when it goes on. -/
theorem ac_of_read
    (h : Returns (read user d buf count) s r s') (hnode : s.nodeOf d ≠ some .devTty) :
    s'.ac = s.ac := by
  rw [read, returns_get_bind] at h
  rcases hnodeOf : s.nodeOf d with _ | node
  · rw [hnodeOf] at h
    exact (returns_stop.mp h).elim
  · rw [hnodeOf] at h
    cases node with
    | tmpFile => exact keeps_ac_tmpRead _ _ _ h
    | initramfsFile => exact keeps_ac_initramfsRead _ _ _ h
    | procSelf => exact keeps_ac_procSelfRead _ _ _ h
    | devTty => exact absurd hnodeOf hnode
    | _ => rw [← (returns_pure.mp h).2]

theorem keeps_ac_write : Keeps (·.ac) (write d buf count) := by
  have hgrow : Keeps (·.ac) (tmpGrow d count) := fun s u s' h => (tmpGrow_spec h).2.1
  have hbyte (c : Word) : Keeps (·.ac) (tmpWriteByte d c) := by
    refine keeps_loadByte.bind fun _ => Keeps.get.bind fun s => Keeps.assert.bind fun _ =>
      Keeps.bind ?_ fun _ => .pure
    exact .modify fun _ => rfl
  have htmp : Keeps (·.ac) (tmpWrite d buf count) := by
    refine hgrow.bind fun _ => (Keeps.loop hbyte _ _).bind fun _ => Keeps.bind ?_ fun _ => .pure
    exact .modify fun _ => rfl
  refine Keeps.get.bind fun s => ?_
  rcases s.nodeOf d with _ | node
  · exact .stop
  · cases node with
    | tmpFile => exact htmp
    | devTty => exact keeps_ac_heapOps.bind fun _ => keeps_ac_kcopyFromUser.bind fun _ => .pure
    | _ => exact .pure

theorem keeps_ac_stat : Keeps (·.ac) (stat x out) := by
  refine Keeps.get.bind fun s => ?_
  rcases statOf s x with _ | ⟨size, type⟩
  · exact .pure
  · exact (keeps_storeWord fun _ _ => rfl).bind fun _ =>
      (keeps_storeByte fun _ _ => rfl).bind fun _ => .pure

variable {str : Option (List Byte)}

theorem keeps_ac_resolvePath : Keeps (·.ac) (resolvePath str) := keeps_resolvePath keeps_ac_heapOps

theorem keeps_ac_openPath : Keeps (·.ac) (openPath str) :=
  keeps_openPath keeps_ac_heapOps fun _ _ _ => rfl

theorem keeps_ac_copyStrings : Keeps (·.ac) (copyStrings strs) := by
  have hstring (c : Word × List (List Byte)) : Keeps (·.ac) (copyString c) :=
    keeps_loadWord.bind fun _ => .ite .pure
      (keeps_ac_fromUserspace.bind fun _ => keeps_ac_heapOps.bind fun _ => .pure)
  exact .ite .pure ((Keeps.loop hstring _ _).bind fun _ => .pure)

/-! ## Methods of the inodes -/

/-- Of the methods that read only that of the tmpfs files relies on the AC of the caller. -/
def ReadCovered (d : DescRef) (buf count : Word) (s : CallState) : Prop :=
  s.nodeOf d = some .tmpFile → count ≠ 0 → InFile d s → isUserAddr buf = true → s.ac = true

def WriteCovered (d : DescRef) (buf count : Word) (s : CallState) : Prop :=
  s.nodeOf d = some .tmpFile → count ≠ 0 → CanGrow d count s → isUserAddr buf = true → s.ac = true

def StatCovered (x : InodeRef) (out : Word) (s : CallState) : Prop :=
  (statOf s x).isSome → isUserAddr (out + 8) = true → s.ac = true

theorem covered_tmpRead : Always Covered (tmpRead user d buf count) s ↔
    (count ≠ 0 → InFile d s → isUserAddr buf = true → s.ac = true) := by
  rw [tmpRead, always_get_bind, always_ite]
  simp only [always_bind, always_pure, implies_true, true_and, and_true, Nat.not_le,
    (walk_tmpReadByte d).always_covered trivial]
  constructor
  · intro h hcount hin
    exact h hin ((toRead_ne_zero hin).mpr hcount) hin
  · intro h hin hread _
    exact h ((toRead_ne_zero hin).mp hread) hin

/-- The initramfs sets AC where the buffer is in the user half. -/
theorem covered_initramfsRead : Always Covered (initramfsRead user d buf count) s := by
  have hsrc : isUserAddr (tarDataOf s d) = false := (s.files.tarData _).2
  rw [initramfsRead, always_get_bind, always_ite, always_assert_bind]
  simp only [always_bind, always_pure, implies_true, and_true]
  refine ⟨fun _ _ => always_withAc fun t hac => ?_, fun hbuf => ?_⟩
  · exact (covered_memcpy hsrc).mpr fun _ _ _ => hac
  · exact (covered_memcpy hsrc).mpr fun _ _ huser => absurd huser hbuf

theorem covered_read : Always Covered (read user d buf count) s ↔ ReadCovered d buf count s := by
  rw [read, always_get_bind, ReadCovered]
  rcases s.nodeOf d with _ | node
  · simp
  · cases node with
    | tmpFile => simpa using covered_tmpRead
    | initramfsFile => simpa using covered_initramfsRead
    | devTty => simpa using (always_guarded.mp guarded_ttyRead).2
    | procSelf => simpa using (always_guarded.mp guarded_procSelfRead).2
    | _ => simp

theorem covered_tmpWrite : Always Covered (tmpWrite d buf count) s ↔
    (count ≠ 0 → CanGrow d count s → isUserAddr buf = true → s.ac = true) := by
  have hzero : count.toNat ≠ 0 ↔ count ≠ 0 := not_congr (BitVec.toNat_eq_nat.trans (by simp))
  rw [tmpWrite]
  simp only [always_bind, always_modify, always_pure, implies_true, and_true,
    (walk_tmpWriteByte d).always_covered trivial,
    (always_guarded.mp guarded_tmpGrow).2, true_and, hzero,
    true_implies]
  constructor
  · intro h hcount hgrow huser
    obtain ⟨u, t, ht⟩ := returns_tmpGrow hgrow
    rw [← (tmpGrow_spec ht).2.1]
    exact h u t ht hcount huser
  · intro h u t ht hcount huser
    rw [(tmpGrow_spec ht).2.1]
    exact h hcount (tmpGrow_spec ht).1 huser

theorem covered_write : Always Covered (write d buf count) s ↔ WriteCovered d buf count s := by
  rw [write, always_get_bind, WriteCovered]
  rcases s.nodeOf d with _ | node
  · simp
  · cases node with
    | tmpFile => simpa using covered_tmpWrite
    | devTty => simpa using (always_guarded.mp guarded_ttyWrite).2
    | _ => simp

theorem covered_stat : Always Covered (stat x out) s ↔ StatCovered x out s := by
  rw [stat, always_get_bind, StatCovered]
  rcases statOf s x with _ | ⟨size, type⟩
  · simp
  · simp only [storeStat, always_bind, always_storeWord, always_storeByte,
      returns_storeWord, always_pure,
      implies_true, and_true, Covered, Option.isSome_some, true_implies]
    refine and_iff_left_of_imp fun hfirst => ?_
    rintro _ _ ⟨hdone, rfl⟩ huser
    apply hfirst
    by_contra hkernel
    rw [CallState.kernel_below (Bool.eq_false_iff.mpr hkernel) (by decide) hdone] at huser
    exact Bool.noConfusion huser

/-! ## Paths -/

theorem resolves (s : CallState) (str : Option (List Byte)) (path : KString) :
    ∃ r, s.files.vfs.resolvePathTokens s.files.cwd path
      (if str.isSome then Algo.split path slash else []) = some r := by
  apply s.files.inv.resolvePathTokens_returns _ s.files.cwdAt
  split
  · exact Algo.isPart_split path slash
  · simp

/-- A path without data is read from address 0. -/
theorem covered_resolvePath : Always Covered (resolvePath str) s ↔ (str = none → s.ac = true) := by
  have hfront (t : CallState) : Always Covered (frontOf str) t ↔ (str = none → t.ac = true) := by
    cases str with
    | none =>
      have hnull : isUserAddr 0#64 = true := by decide
      simp [frontOf, always_bind, always_loadByte, Covered, hnull]
    | some chars => simp [frontOf]
  rw [resolvePath, always_bind]
  refine (and_iff_right (always_guarded.mp guarded_heapOps).2).trans ?_
  constructor
  · intro h hnone
    obtain ⟨u, t, ht⟩ := total_heapOps s
    have hac : t.ac = s.ac := keeps_ac_heapOps _ _ _ ht
    rw [← hac]
    exact (hfront t).mp (always_bind.mp (h u t ht)).1 hnone
  · intro h u t ht
    have hac : t.ac = s.ac := keeps_ac_heapOps _ _ _ ht
    refine always_bind.mpr ⟨(hfront t).mpr fun hnone => hac.trans (h hnone), fun path t' _ => ?_⟩
    obtain ⟨r, hr⟩ := resolves t' str path
    rw [always_get_bind, hr]
    exact always_pure.mpr trivial

theorem covered_openPath : Always Covered (openPath str) s ↔ (str = none → s.ac = true) := by
  rw [openPath, always_bind, covered_resolvePath]
  refine and_iff_left fun inode t _ => ?_
  cases inode with
  | none => exact always_pure.mpr trivial
  | some x =>
    refine always_bind.mpr ⟨(always_guarded.mp guarded_heapOps).2, fun _ _ _ => ?_⟩
    simp [always_bind]

/-- The entry of a closed descriptor is a null pointer, and address 0 is in the user half. -/
theorem covered_allocFdFrom (table : List (Option DescRef)) (i : Nat) :
    Always Covered (allocFdFrom table i) s ↔ (none ∈ table → s.ac = true) := by
  induction table generalizing s i with
  | nil =>
    refine iff_of_true (always_bind.mpr ⟨(always_guarded.mp guarded_heapOps).2,
      fun _ _ _ => ?_⟩) (by simp)
    simp [always_bind]
  | cons entry rest ih =>
    cases entry with
    | some d => simpa [allocFdFrom] using ih (i + 1)
    | none =>
      have hnull : isUserAddr 0 = true := by decide
      rw [allocFdFrom, always_bind, always_loadWord]
      simp only [Covered, hnull, true_implies, List.mem_cons, true_or]
      refine and_iff_left_of_imp fun hac => ?_
      rintro w t ht
      obtain ⟨-, -, rfl⟩ := returns_loadWord.mp ht
      exact always_ite.mpr ⟨fun _ => always_pure.mpr trivial, fun _ => (ih _).mpr fun _ => hac⟩

/-- Only a null pointer gives a string without data. -/
theorem null_of_fromUserspace (h : Returns (fromUserspace v) s none s') : v = 0 := by
  simp only [fromUserspace, withAc, writeRflags, stac, returns_bind, returns_assert,
    returns_readRflags, returns_modify, returns_pure] at h
  obtain ⟨_, _, ⟨-, rfl⟩, _, _, ⟨rfl, rfl⟩, _, _, rfl, str, t, hstr, _, _, rfl, rfl, -⟩ := h
  rw [kstringOf] at hstr
  split at hstr
  · assumption
  · simp [returns_bind] at hstr

/-- A path of the caller is copied with AC, and is missing if the pointer is null. -/
theorem covered_openUserPath :
    Always Covered (fromUserspace path >>= openPath) s ↔ (path = 0 → s.ac = true) := by
  rw [always_bind]
  refine (and_iff_right (always_guarded.mp guarded_fromUserspace).2).trans ?_
  simp only [covered_openPath]
  constructor
  · rintro h rfl
    exact h none s rfl rfl
  · rintro h str t ht rfl
    have hac : t.ac = s.ac := keeps_ac_fromUserspace _ _ _ ht
    exact hac.trans (h (null_of_fromUserspace ht))

/-! ## Vectors -/

section Along

variable {n : Nat} {one : Word → KProg Int} {ok ok' : Word → CallState → Prop}
  {Q : CallState → Prop}

/-- Conditions that agree where an invariant of the rounds holds. -/
theorem along_congr (hok : ∀ iov s, Q s → (ok iov s ↔ ok' iov s))
    (hnext : ∀ iov s ret s', Q s → Returns (one iov) s ret s' → Q s') (hs : Q s) :
    Along one ok n iov s ↔ Along one ok' n iov s := by
  induction n generalizing iov s with
  | zero => exact Iff.rfl
  | succ n ih =>
    refine and_congr (hok iov s hs) (forall_congr' fun ret => forall_congr' fun t => ?_)
    exact imp_congr_right fun hr => imp_congr_right fun _ => ih (hnext _ _ _ _ hs hr)

theorem along_of (hok : ∀ iov s, Q s → ok iov s)
    (hnext : ∀ iov s ret s', Q s → Returns (one iov) s ret s' → Q s') (hs : Q s) :
    Along one ok n iov s := by
  induction n generalizing iov s with
  | zero => trivial
  | succ n ih => exact ⟨hok iov s hs, fun ret t hr _ => ih (hnext _ _ _ _ hs hr)⟩

end Along

/-- Reading moves neither inodes nor descriptors. -/
theorem keeps_tree_read :
    Keeps (fun s : CallState => (s.files.vfs, s.files.inodeOf)) (read user d buf count) := by
  have hheap : Keeps (fun s : CallState => (s.files.vfs, s.files.inodeOf)) heapOps :=
    Blind.heapOps_keeps ⟨fun _ _ => rfl, fun _ _ => rfl, fun _ _ => rfl, fun _ _ => rfl⟩
  have hcopy (bytes : List Byte) :
      Keeps (fun s : CallState => (s.files.vfs, s.files.inodeOf)) (kcopyToUser buf bytes) :=
    Keeps.assert.bind fun _ => keeps_withAc (fun _ _ => rfl) (keeps_storeBytes fun _ _ => rfl)
  refine Keeps.get.bind fun s => ?_
  rcases s.nodeOf d with _ | node
  · exact .stop
  · cases node with
    | tmpFile =>
      refine Keeps.get.bind fun s => .ite .pure ((Keeps.loop (fun c => ?_) _ _).bind fun _ => .pure)
      refine Keeps.get.bind fun s => ?_
      split
      · exact .stop
      · refine (keeps_storeByte fun _ _ => rfl).bind fun _ => Keeps.bind ?_ fun _ => .pure
        exact .modify fun _ => rfl
    | initramfsFile =>
      refine Keeps.get.bind fun s =>
        .ite (Keeps.assert.bind fun _ => Keeps.bind ?_ fun _ => .pure) ?_
      · exact keeps_withAc (fun _ _ => rfl) (keeps_memcpy fun _ _ => rfl)
      · exact (keeps_memcpy fun _ _ => rfl).bind fun _ => .pure
    | devTty =>
      refine Keeps.get.bind fun s => ?_
      split
      · exact .stop
      · next input inputs _ =>
        split
        · exact .stop
        · refine Keeps.bind ?_ fun _ => hheap.bind fun _ => (hcopy _).bind fun _ => .pure
          refine .modify fun s => ?_
          cases input.resumed with
          | none => rfl
          | some found => rfl
    | procSelf =>
      refine Keeps.get.bind fun s => ?_
      split
      · exact .stop
      · exact hheap.bind fun _ => (hcopy _).bind fun _ => .pure
    | _ => exact .pure

theorem nodeOf_of_read (h : Returns (read user d buf count) s r s') : s'.nodeOf d = s.nodeOf d := by
  obtain ⟨hvfs, hinode⟩ := Prod.mk.inj (keeps_tree_read _ _ _ h)
  unfold CallState.nodeOf
  rw [hvfs, hinode]

variable {ret : Int}

section

variable (h : Returns (readvOne d iov) s ret s')

include h

/-- A round of `sys_readv` is a `read`, or nothing. -/
theorem readvOne_cases :
    (ret = 0 ∧ s' = s) ∨ ∃ base len, Returns (KProg.read true d base len) s ret s' := by
  obtain ⟨len, t, hlen, h⟩ := returns_bind.mp h
  obtain ⟨-, -, rfl⟩ := returns_loadWord.mp hlen
  split at h
  · obtain ⟨rfl, rfl⟩ := returns_pure.mp h
    exact .inl ⟨rfl, rfl⟩
  · obtain ⟨base, t, hbase, h⟩ := returns_bind.mp h
    obtain ⟨-, -, rfl⟩ := returns_loadWord.mp hbase
    obtain ⟨len, t, hlen, h⟩ := returns_bind.mp h
    obtain ⟨-, -, rfl⟩ := returns_loadWord.mp hlen
    exact .inr ⟨base, len, h⟩

theorem nodeOf_of_readvOne : s'.nodeOf d = s.nodeOf d := by
  obtain ⟨-, rfl⟩ | ⟨base, len, hread⟩ := readvOne_cases h
  · rfl
  · exact nodeOf_of_read hread

theorem ac_of_readvOne (hnode : s.nodeOf d ≠ some .devTty) : s'.ac = s.ac := by
  obtain ⟨-, rfl⟩ | ⟨base, len, hread⟩ := readvOne_cases h
  · rfl
  · exact ac_of_read hread hnode

end

theorem covered_readvOne (hread : ∀ base len, ReadCovered d base len s) :
    Always Covered (readvOne d iov) s ↔ (isUserAddr (iov + 8) = true → s.ac = true) := by
  rw [readvOne, always_bind, always_loadWord]
  refine and_iff_left_of_imp fun hfirst => ?_
  rintro len t hlen
  obtain ⟨hdone, rfl, rfl⟩ := returns_loadWord.mp hlen
  have hbelow : isUserAddr iov = true → s.ac = true := by
    intro huser
    apply hfirst
    by_contra hkernel
    rw [CallState.kernel_below (Bool.eq_false_iff.mpr hkernel) (by decide) hdone] at huser
    exact Bool.noConfusion huser
  refine always_ite.mpr ⟨fun _ => always_pure.mpr trivial, fun _ => ?_⟩
  refine always_bind.mpr ⟨always_loadWord.mpr hbelow, fun base t hbase => ?_⟩
  obtain ⟨-, rfl, rfl⟩ := returns_loadWord.mp hbase
  refine always_bind.mpr ⟨always_loadWord.mpr hfirst, fun len t hlen => ?_⟩
  obtain ⟨-, rfl, rfl⟩ := returns_loadWord.mp hlen
  exact covered_read.mpr (hread _ _)

/-- The `iovec` is copied with AC, and then used without it. -/
def IovecCopyCovered (d : DescRef) (iov : Word) (s : CallState) : Prop :=
  ∀ bytes, Returns (kcopyFromUser iov 16) s bytes s → s.mem.word (iov + 8) ≠ 0 →
    WriteCovered d (s.mem.word iov) (s.mem.word (iov + 8)) s

theorem covered_writevOne : Always Covered (writevOne d iov) s ↔ IovecCopyCovered d iov s := by
  rw [writevOne, always_bind, IovecCopyCovered]
  simp only [(always_guarded.mp guarded_kcopyFromUser).2, true_and, always_get_bind,
    always_ite, always_pure, implies_true, covered_write]
  constructor
  · exact fun h bytes hr => h bytes s hr
  · intro h bytes t hr
    cases eq_of_kcopyFromUser hr
    exact h bytes hr

/-! ## The program -/

theorem own_covered : Own Covered (·.ac = true) where
  access _ _ _ _ _ hac _ := hac
  header _ _ := rfl
  mem _ _ hac := hac
  heapOps s u s' hr hac := (keeps_ac_heapOps s u s' hr).trans hac

/-- A field of the memory as `loadField` gives it. -/
def fieldAt (s : CallState) (v : Word) (n : Nat) : Word :=
  (Elf.readField (fun a => some (s.mem.byte a)) n v).getD 0

theorem returns_loadField {n : Nat} {w : Word} : Returns (loadField v n) s w s' ↔
    s.allowed .load v n = true ∧ fieldAt s v n = w ∧ s = s' := by
  rw [loadField, returns_access_bind, returns_get_bind, returns_pure]
  rfl

theorem always_loadField {P : Access → Prop} {n : Nat} : Always P (loadField v n) s ↔
    P ⟨.load, v, n, s.ac, s.allowed .load v n, false⟩ := by
  simp [loadField, always_bind, always_access]

/-- Where `parse_file` looks for a program header. -/
def headerAddr (s : CallState) (buffer : Word) (i : Nat) : Word :=
  buffer + fieldAt s (buffer + 32) 8 + BitVec.ofNat 64 i * fieldAt s (buffer + 54) 2

/-- `parse_file` gets past a program header. -/
def HeaderReadable (s : CallState) (buffer : Word) (i : Nat) : Prop :=
  s.allowed .load (headerAddr s buffer i) 4 = true ∧
    (fieldAt s (headerAddr s buffer i) 4 = Elf.ptLoad →
      s.allowed .load (headerAddr s buffer i) 56 = true)

/-- No program header that `parse_file` comes to is in the user half. -/
def HeadersOutside (s : CallState) (buffer : Word) (n i : Nat) : Prop :=
  s.allowed .load (buffer + 32) 8 = true → s.allowed .load (buffer + 54) 2 = true →
    ∀ k < n, (∀ j < k, HeaderReadable s buffer (i + j)) →
      isUserAddr (headerAddr s buffer (i + k)) = false

/-- The states agree on everything that an access depends on. -/
def SameView (s s' : CallState) : Prop := s'.mem = s.mem ∧ s'.smap = s.smap ∧ s'.ac = s.ac

section

variable (h : SameView s s')

include h

theorem SameView.allowed (kind : AccessKind) (v : Word) (n : Nat) :
    s'.allowed kind v n = s.allowed kind v n := by
  unfold CallState.allowed
  rw [h.1, h.2.1, h.2.2]

theorem SameView.fieldAt (v : Word) (n : Nat) : fieldAt s' v n = fieldAt s v n := by
  unfold KProg.fieldAt
  rw [h.1]

theorem SameView.headerAddr (buffer : Word) (i : Nat) :
    headerAddr s' buffer i = headerAddr s buffer i := by
  unfold KProg.headerAddr
  rw [h.fieldAt, h.fieldAt]

theorem SameView.headerReadable (buffer : Word) (i : Nat) :
    HeaderReadable s' buffer i ↔ HeaderReadable s buffer i := by
  unfold HeaderReadable
  rw [h.headerAddr, h.fieldAt, h.allowed, h.allowed]

end

theorem sameView_heapOps {u : Unit} (h : Returns heapOps s u s') : SameView s s' :=
  ⟨(Prod.mk.inj (Blind.mem.heapOps_keeps _ _ _ h)).1,
    (Prod.mk.inj (Blind.mem.heapOps_keeps _ _ _ h)).2, keeps_ac_heapOps _ _ _ h⟩

theorem readProgramHeader_isSome (m : Lib.ByteMemory.Mem) (v : Word) :
    (Elf.readProgramHeader (fun a => some (m a)) v).isSome := by
  have hfield (n : Nat) (v : Word) : ∃ w, Elf.readField (fun a => some (m a)) n v = some w := by
    induction n generalizing v with
    | zero => exact ⟨0, rfl⟩
    | succ n ih =>
      obtain ⟨w, hw⟩ := ih (v + 1)
      exact ⟨_, by rw [Elf.readField, hw]; rfl⟩
  unfold Elf.readProgramHeader
  obtain ⟨_, h0⟩ := hfield 4 v
  obtain ⟨_, h1⟩ := hfield 4 (v + 4)
  obtain ⟨_, h2⟩ := hfield 8 (v + 8)
  obtain ⟨_, h3⟩ := hfield 8 (v + 16)
  obtain ⟨_, h4⟩ := hfield 8 (v + 24)
  obtain ⟨_, h5⟩ := hfield 8 (v + 32)
  obtain ⟨_, h6⟩ := hfield 8 (v + 40)
  obtain ⟨_, h7⟩ := hfield 8 (v + 48)
  rfl

variable {i : Nat} {headers : List Elf64ProgramHeader} {phnum : Word}

/-- A round of the loop over the program headers goes on exactly behind a readable one. -/
theorem returns_parseHeader (h32 : s.allowed .load (v + 32) 8 = true)
    (h54 : s.allowed .load (v + 54) 2 = true) (h : HeaderReadable s v i) :
    ∃ headers' t, Returns (parseHeader v (i, headers)) s (true, (i + 1, headers')) t := by
  have hload (w : Word) (n : Nat) (hw : s.allowed .load w n = true) :
      Returns (loadField w n) s (fieldAt s w n) s := returns_loadField.mpr ⟨hw, rfl, rfl⟩
  by_cases htype : fieldAt s (headerAddr s v i) 4 = Elf.ptLoad
  · obtain ⟨header, hheader⟩ := Option.isSome_iff_exists.mp
      (readProgramHeader_isSome s.mem.byte (headerAddr s v i))
    obtain ⟨u, t, ht⟩ := total_heapOps s
    refine ⟨headers ++ [header], t, returns_bind.mpr ⟨_, s, hload _ _ h32, ?_⟩⟩
    refine returns_bind.mpr ⟨_, s, hload _ _ h54, returns_bind.mpr ⟨_, s, hload _ _ h.1, ?_⟩⟩
    refine returns_ite.mpr ⟨fun hne => absurd htype hne, fun _ => ?_⟩
    refine returns_bind.mpr ⟨(), s, returns_access.mpr ⟨h.2 htype, rfl⟩, returns_get_bind.mpr ?_⟩
    have hheader' : Elf.readProgramHeader (fun a => some (s.mem.byte a))
      (v + fieldAt s (v + 32) 8 + BitVec.ofNat 64 i * fieldAt s (v + 54) 2) = some header := hheader
    rw [hheader']
    exact returns_bind.mpr ⟨u, t, ht, returns_pure.mpr ⟨rfl, rfl⟩⟩
  · refine ⟨headers, s, returns_bind.mpr ⟨_, s, hload _ _ h32, ?_⟩⟩
    refine returns_bind.mpr ⟨_, s, hload _ _ h54, returns_bind.mpr ⟨_, s, hload _ _ h.1, ?_⟩⟩
    exact returns_ite.mpr ⟨fun _ => returns_pure.mpr ⟨rfl, rfl⟩, fun hne => absurd htype hne⟩

/-- A round that goes on has read one header. -/
theorem parseHeader_spec {c : Nat × List Elf64ProgramHeader}
    (h : Returns (parseHeader v (i, headers)) s (true, c) s') :
    c.1 = i + 1 ∧ HeaderReadable s v i ∧ SameView s s' := by
  obtain ⟨phoff, t, hload, h⟩ := returns_bind.mp h
  obtain ⟨-, rfl, rfl⟩ := returns_loadField.mp hload
  obtain ⟨phentsize, t, hload, h⟩ := returns_bind.mp h
  obtain ⟨-, rfl, rfl⟩ := returns_loadField.mp hload
  obtain ⟨type, t, hload, h⟩ := returns_bind.mp h
  obtain ⟨htype, rfl, rfl⟩ := returns_loadField.mp hload
  obtain ⟨hskip, hkeep⟩ := returns_ite.mp h
  by_cases hpt : fieldAt s (headerAddr s v i) 4 = Elf.ptLoad
  · obtain ⟨_, t, hload, h⟩ := returns_bind.mp (hkeep (fun hne => hne hpt))
    obtain ⟨hall, rfl⟩ := returns_access.mp hload
    rw [returns_get_bind] at h
    split at h
    · exact (returns_stop.mp h).elim
    · obtain ⟨_, t, hheap, h⟩ := returns_bind.mp h
      obtain ⟨hc, rfl⟩ := returns_pure.mp h
      cases hc
      exact ⟨rfl, ⟨htype, fun _ => hall⟩, sameView_heapOps hheap⟩
  · obtain ⟨hc, rfl⟩ := returns_pure.mp (hskip hpt)
    cases hc
    exact ⟨rfl, ⟨htype, fun heq => absurd heq hpt⟩, rfl, rfl, rfl⟩

/-- The fields of the file header lie in the page behind its first byte. -/
def InKernel (v : Word) : Prop := ∀ d : Word, d.toNat ≤ 0x1000 → isUserAddr (v + d) = false

theorem covered_of_inKernel (h : InKernel v) {d : Word} (hd : d.toNat ≤ 0x1000) {n : Nat} :
    Always Covered (loadField (v + d) n) s :=
  always_loadField.mpr fun huser => absurd huser (Bool.eq_false_iff.mp (h d hd))

theorem covered_parseHeader (hv : InKernel v) (hac : s.ac = false) :
    Always Covered (parseHeader v (i, headers)) s ↔ (s.allowed .load (v + 32) 8 = true →
      s.allowed .load (v + 54) 2 = true → isUserAddr (headerAddr s v i) = false) := by
  constructor
  · intro h h32 h54
    obtain ⟨-, h⟩ := always_bind.mp h
    obtain ⟨-, h⟩ := always_bind.mp (h _ s (returns_loadField.mpr ⟨h32, rfl, rfl⟩))
    obtain ⟨h, -⟩ := always_bind.mp (h _ s (returns_loadField.mpr ⟨h54, rfl, rfl⟩))
    by_contra huser
    have hset := always_loadField.mp h (Bool.not_eq_false _ ▸ huser)
    rw [hac] at hset
    exact Bool.noConfusion hset
  · intro h
    refine always_bind.mpr ⟨covered_of_inKernel hv (by decide), fun phoff t hload => ?_⟩
    obtain ⟨h32, rfl, rfl⟩ := returns_loadField.mp hload
    refine always_bind.mpr ⟨covered_of_inKernel hv (by decide), fun phentsize t hload => ?_⟩
    obtain ⟨h54, rfl, rfl⟩ := returns_loadField.mp hload
    have hout {n : Nat} {done : Bool} : Covered ⟨.load, headerAddr s v i, n, s.ac, done, false⟩ :=
      fun huser => absurd huser (Bool.eq_false_iff.mp (h h32 h54))
    refine always_bind.mpr ⟨always_loadField.mpr hout, fun type t hload => ?_⟩
    obtain ⟨-, rfl, rfl⟩ := returns_loadField.mp hload
    refine always_ite.mpr ⟨fun _ => always_pure.mpr trivial, fun _ => ?_⟩
    refine always_bind.mpr ⟨always_access.mpr hout, fun _ t hload => ?_⟩
    obtain ⟨-, rfl⟩ := returns_access.mp hload
    rw [always_get_bind]
    split
    · exact always_stop.mpr trivial
    · exact always_bind.mpr ⟨(always_guarded.mp guarded_heapOps).2, fun _ _ _ =>
        always_pure.mpr trivial⟩

/-- The loop over the program headers, by induction on those that are left. -/
theorem covered_parseHeaders {n : Nat} (hv : InKernel v) (hac : s.ac = false) :
    Always Covered (Prog.loop (parseHeader v) n (i, headers)) s ↔ HeadersOutside s v n i := by
  induction n generalizing i headers s with
  | zero =>
    exact iff_of_true (always_pure.mpr trivial) fun _ _ k hk => absurd hk (Nat.not_lt_zero k)
  | succ n ih =>
    rw [always_loop_succ, covered_parseHeader hv hac]
    constructor
    · rintro ⟨hfirst, hrest⟩ h32 h54 k hk hread
      cases k with
      | zero => exact hfirst h32 h54
      | succ k =>
        obtain ⟨headers', t, ht⟩ : ∃ headers' t, Returns (parseHeader v (i, headers)) s
            (true, (i + 1, headers')) t := returns_parseHeader h32 h54 (hread 0 (Nat.succ_pos k))
        obtain ⟨-, -, hsame⟩ := parseHeader_spec ht
        have hout := (ih (hsame.2.2.trans hac)).mp (hrest _ t ht)
        rw [← hsame.headerAddr, show i + (k + 1) = i + 1 + k by omega]
        refine hout ((hsame.allowed _ _ _).trans h32) ((hsame.allowed _ _ _).trans h54)
          k (by omega) ?_
        intro j hj
        rw [hsame.headerReadable, show i + 1 + j = i + (j + 1) by omega]
        exact hread (j + 1) (by omega)
    · intro h
      refine ⟨fun h32 h54 => h h32 h54 0 (Nat.succ_pos n) fun j hj =>
        absurd hj (Nat.not_lt_zero j), ?_⟩
      rintro ⟨i', headers'⟩ t ht
      obtain ⟨hi, hread, hsame⟩ := parseHeader_spec ht
      subst hi
      refine (ih (hsame.2.2.trans hac)).mpr fun h32 h54 k hk hnext => ?_
      rw [hsame.allowed] at h32 h54
      rw [hsame.headerAddr, show i + 1 + k = i + (k + 1) by omega]
      refine h h32 h54 (k + 1) (by omega) fun j hj => ?_
      cases j with
      | zero => exact hread
      | succ j =>
        rw [show i + (j + 1) = i + 1 + j by omega, ← hsame.headerReadable]
        exact hnext j (by omega)

theorem inKernel_of_allowed (hv : isUserAddr v = false) {n : Nat} (hn : 0 < n)
    (h : s.allowed .load v n = true) :
    InKernel v := fun _ hd => CallState.kernel_of_allowed hv hn h hd

theorem covered_checkFields (hv : InKernel v) (checks : List (Word × Nat × Word))
    (hoffset : ∀ check ∈ checks, check.1.toNat ≤ 0x1000) :
    Always Covered (checkFields v checks) s := by
  induction checks generalizing s with
  | nil => exact always_pure.mpr trivial
  | cons check checks ih =>
    refine always_bind.mpr ⟨covered_of_inKernel hv (hoffset _ List.mem_cons_self), fun _ _ _ => ?_⟩
    rw [always_assert_bind]
    exact fun _ => ih fun c hc => hoffset c (List.mem_cons_of_mem _ hc)

theorem eq_of_checkHeader (h : Returns (checkHeader v) s phnum s') : s' = s := by
  have hload (w : Word) (n : Nat) : Keeps id (loadField w n) :=
    keeps_access.bind fun _ => Keeps.get.bind fun _ => .pure
  have hchecks (checks : List (Word × Nat × Word)) : Keeps id (checkFields v checks) := by
    induction checks with
    | nil => exact .pure
    | cons check checks ih => exact (hload _ _).bind fun _ => Keeps.assert.bind fun _ => ih
  exact (Keeps.assert.bind fun _ => (hchecks _).bind fun _ => (hload _ _).bind fun _ => hload _ _ :
    Keeps id (checkHeader v)) _ _ _ h

/-- What has passed the checks begins in the kernel half. -/
theorem inKernel_of_checkHeader (hv : v = 0 ∨ isUserAddr v = false)
    (h : Returns (checkHeader v) s phnum s') : InKernel v := by
  obtain ⟨_, _, hnull, h⟩ := returns_bind.mp h
  obtain ⟨hne, rfl⟩ := returns_assert.mp hnull
  obtain ⟨_, _, hchecks, -⟩ := returns_bind.mp h
  obtain ⟨_, _, hload, -⟩ := returns_bind.mp hchecks
  have hdone := (returns_loadField.mp hload).1
  rw [show v + 0 = v from BitVec.add_zero v] at hdone
  exact inKernel_of_allowed (hv.resolve_left (of_decide_eq_true hne)) Nat.one_pos hdone

theorem covered_checkHeader (hv : v = 0 ∨ isUserAddr v = false) :
    Always Covered (checkHeader v) s := by
  rw [checkHeader, always_assert_bind]
  intro hne
  have hkernel := hv.resolve_left (of_decide_eq_true hne)
  -- the first byte of the magic number decides
  by_cases hfirst : s.allowed .load v 1 = true
  · have hin := inKernel_of_allowed hkernel Nat.one_pos hfirst
    refine always_bind.mpr ⟨covered_checkFields hin _ (by decide), fun _ _ _ => ?_⟩
    refine always_bind.mpr ⟨covered_of_inKernel hin (by decide), fun _ _ _ => ?_⟩
    exact covered_of_inKernel hin (by decide)
  · have hstop (w : Word) (t : CallState) : ¬ Returns (loadField (v + 0) 1) s w t := by
      rw [returns_loadField, show v + 0 = v from BitVec.add_zero v]
      exact fun h => hfirst h.1
    refine always_bind.mpr ⟨always_bind.mpr ⟨?_, fun w t hr => absurd hr (hstop w t)⟩,
      fun _ t hr => ?_⟩
    · refine always_loadField.mpr fun huser => ?_
      rw [show v + 0 = v from BitVec.add_zero v, hkernel] at huser
      exact Bool.noConfusion huser
    · obtain ⟨w, t', hload, -⟩ := returns_bind.mp hr
      exact absurd hload (hstop w t')

/-- The program headers of a file that passes the checks are outside the user half. -/
def HeadersCovered (buffer : Word) (s : CallState) : Prop :=
  ∀ phnum, Returns (checkHeader buffer) s phnum s → HeadersOutside s buffer phnum.toNat 0

/-- `parse_file` runs before AC is set; what follows it, after. -/
theorem covered_execElf64 (hdata : data = 0 ∨ isUserAddr data = false) (hac : s.ac = false) :
    Always Covered (execElf64 data argvStrs envpStrs) s ↔ HeadersCovered data s := by
  have hrest (headers : List Elf64ProgramHeader) (t : CallState) : Always Covered (do
      heapOps
      Prog.modify (fun s => { s with mem := s.newSpace })
      stac
      heapOps
      mapElf64Headers data headers
      buildUserStack argvStrs envpStrs
      heapOps
      clac : KProg Unit) t := by
    refine always_bind.mpr ⟨(always_guarded.mp guarded_heapOps).2, fun _ t _ => ?_⟩
    rw [always_modify_bind, stac, always_modify_bind]
    have hloaded : Safe Covered (·.ac = true) (do
        heapOps
        mapElf64Headers data headers
        buildUserStack argvStrs envpStrs
        heapOps) :=
      own_covered.safe_heapOps.bind fun _ => (own_covered.safe_mapElf64Headers _).bind fun _ =>
        (own_covered.safe_buildUserStack _ _).bind fun _ => own_covered.safe_heapOps
    have hall := (hloaded { { t with mem := t.newSpace } with ac := true } rfl).1
    simp only [always_bind] at hall ⊢
    refine ⟨hall.1, fun u t ht => ⟨(hall.2 u t ht).1, fun u t' ht' => ?_⟩⟩
    refine ⟨((hall.2 _ t ht).2 u t' ht').1, fun u t'' ht'' => ?_⟩
    exact ⟨((hall.2 _ t ht).2 _ t' ht').2 u t'' ht'', fun _ _ _ => always_modify.mpr trivial⟩
  rw [execElf64, always_bind]
  refine (and_iff_left fun headers t _ => hrest headers t).trans ?_
  rw [parseFile, always_bind]
  refine (and_iff_right (covered_checkHeader hdata)).trans ?_
  constructor
  · intro h phnum hr
    exact (covered_parseHeaders (inKernel_of_checkHeader hdata hr) hac).mp
      (always_bind.mp (h phnum s hr)).1
  · intro h phnum t hr
    cases eq_of_checkHeader hr
    refine always_bind.mpr ⟨?_, fun c t _ => ?_⟩
    · exact (covered_parseHeaders (inKernel_of_checkHeader hdata hr) hac).mpr (h phnum hr)
    · rw [always_assert_bind]
      exact fun _ => always_pure.mpr trivial

theorem allocBuffer_spec {size : Word} (h : Returns (allocBuffer size) s data s') :
    (size = 0 ∧ data = 0) ∨ isUserAddr data = false := by
  rw [allocBuffer] at h
  split at h
  · next hzero => exact .inl ⟨hzero, (returns_pure.mp h).1.symm⟩
  · obtain ⟨_, t, -, h⟩ := returns_bind.mp h
    rw [← (returns_pure.mp h).1]
    exact .inr t.buffer.2

theorem data_of_openProgram (h : Returns (openProgram path) s (some data) s') :
    data = 0 ∨ isUserAddr data = false := by
  obtain ⟨str, t, -, h⟩ := returns_bind.mp h
  obtain ⟨desc, t, -, h⟩ := returns_bind.mp h
  cases desc with
  | none => simp at h
  | some d =>
    rw [returns_get_bind] at h
    obtain ⟨buffer, t, hbuffer, h⟩ := returns_bind.mp h
    obtain ⟨_, t, -, h⟩ := returns_bind.mp h
    obtain ⟨hdata, -⟩ := returns_pure.mp h
    cases hdata
    exact (allocBuffer_spec hbuffer).imp_left And.right

/-- The file is read into the kernel half. -/
theorem covered_openProgram : Always Covered (openProgram path) s ↔ (path = 0 → s.ac = true) := by
  rw [← covered_openUserPath, openProgram, always_bind, always_bind]
  refine and_congr_right fun _ => forall_congr' fun str => forall_congr' fun t =>
    imp_congr_right fun _ => ?_
  rw [always_bind]
  refine and_iff_left fun desc t _ => ?_
  cases desc with
  | none => exact always_pure.mpr trivial
  | some d =>
    rw [always_get_bind]
    refine always_bind.mpr ⟨(always_guarded.mp UserCall.guarded_allocBuffer).2,
      fun data t' ht' => ?_⟩
    refine always_bind.mpr ⟨covered_read.mpr fun _ hsize _ huser => ?_,
      fun _ _ _ => always_pure.mpr trivial⟩
    rw [(allocBuffer_spec ht').resolve_left fun h => hsize h.1] at huser
    exact Bool.noConfusion huser

end KProg

/-! ## The calls -/

namespace UserCall

open KProg
open Access (Covered always_guarded)

/-- Where a call touches user memory with AC set only. -/
def PointersCovered (s : CallState) : UserCall → Prop
  | read fd buffer count => ∀ d, s.getFd fd = some d → ReadCovered d buffer count s
  | readv fd iov iovcnt => ∀ d, s.getFd fd = some d → 0 ≤ iovcnt.toInt → s.nodeOf d = some .devTty →
    Along (readvOne d) (fun iov s => isUserAddr (iov + 8) = true → s.ac = true) iovcnt.toNat iov
      { s with ac := true }
  | write fd buffer count => ∀ d, s.getFd fd = some d → WriteCovered d buffer count s
  | writev fd iov iovcnt => ∀ d, s.getFd fd = some d → 0 ≤ iovcnt.toInt →
    Along (writevOne d) (IovecCopyCovered d) iovcnt.toNat iov s
  | stat path out => (isUserAddr path = true → s.ac = true) ∧
    ∀ x s', Returns (statPath path) s (some x) s' → StatCovered x out s'
  | fstat fd out => ∀ d, s.getFd fd = some d → StatCovered (s.files.inodeOf d) out s
  | .open path => (path = 0 → s.ac = true) ∧
    ((∃ d t, Returns (fromUserspace path >>= openPath) s (some d) t) →
      none ∈ s.files.table → s.ac = true)
  | execve path argv envp => (path = 0 → s.ac = true) ∧ ∀ data argvStrs envpStrs t,
    Returns (prepareExec path argv envp) s (some (data, argvStrs, envpStrs)) t →
      HeadersCovered data t
  | _ => True

variable {s s' : CallState} {fd : BitVec 32} {iov : Word} {iovcnt : BitVec 32} {d : DescRef}
  {argv envp : Word}

/-- AC is set at the beginning, and only the terminal can lose it before the end. -/
theorem covered_readvFrom {n : Nat} (hac : s.ac = true) : Always Covered (readvFrom d n iov 0) s ↔
    (s.nodeOf d = some .devTty →
      Along (readvOne d) (fun iov s => isUserAddr (iov + 8) = true → s.ac = true) n iov s) := by
  rw [always_readvFrom]
  by_cases hnode : s.nodeOf d = some .devTty
  · rw [forall_prop_of_true hnode]
    refine along_congr (Q := fun s => s.nodeOf d = some .devTty) ?_ ?_ hnode
    · intro iov t ht
      apply covered_readvOne
      intro base len hfile
      rw [ht] at hfile
      cases hfile
    · intro iov t ret t' ht hr
      exact (nodeOf_of_readvOne hr).trans ht
  · refine iff_of_true ?_ fun h => absurd h hnode
    refine along_of (Q := fun s => s.ac = true ∧ s.nodeOf d ≠ some .devTty) ?_ ?_ ⟨hac, hnode⟩
    · rintro iov t ⟨ht, -⟩
      exact (covered_readvOne fun _ _ _ _ _ _ => ht).mpr fun _ => ht
    · rintro iov t ret t' ⟨ht, hne⟩ hr
      exact ⟨(ac_of_readvOne hr hne).trans ht, by rwa [nodeOf_of_readvOne hr]⟩

theorem keeps_table_openPath :
    Keeps (fun s : CallState => s.files.table) (fromUserspace path >>= openPath) := by
  have hheap : Keeps (fun s : CallState => s.files.table) heapOps :=
    Blind.heapOps_keeps ⟨fun _ _ => rfl, fun _ _ => rfl, fun _ _ => rfl, fun _ _ => rfl⟩
  refine Keeps.bind (Keeps.assert.bind fun _ => ?_) fun str =>
    keeps_openPath hheap fun _ _ htable => htable
  exact keeps_withAc (fun _ _ => rfl) (keeps_kstringOf hheap)

/-- `open` needs AC only where it follows a null pointer: the caller's, or one in the table. -/
theorem covered_open : Always Covered (sysOpen path) s ↔ PointersCovered s (.open path) := by
  have hsplit : Always Covered (sysOpen path) s ↔
    Always Covered (fromUserspace path >>= openPath) s ∧
      ∀ desc t, Returns (fromUserspace path >>= openPath) s desc t → desc.isSome →
        (none ∈ t.files.table → t.ac = true) := by
    rw [sysOpen, always_bind, always_bind, and_assoc]
    refine and_congr_right fun _ => ?_
    simp only [always_bind, returns_bind]
    have hlast (d : DescRef) (t : CallState) : Always Covered (do
        let s ← Prog.get
        let fd ← allocFdFrom s.files.table 0
        Prog.modify (fun s =>
          { s with files := { s.files with table := s.files.table.set fd (some d) } })
        (return fd : KProg Int)) t ↔ (none ∈ t.files.table → t.ac = true) := by
      rw [always_get_bind, always_bind, covered_allocFdFrom]
      simp [always_bind]
    constructor
    · intro h
      refine ⟨fun str t ht => (h str t ht).1, ?_⟩
      rintro desc t' ⟨str, t, ht, ht'⟩ hsome
      obtain ⟨d, rfl⟩ := Option.isSome_iff_exists.mp hsome
      exact (hlast d t').mp ((h str t ht).2 (some d) t' ht')
    · rintro ⟨hopen, hfd⟩ str t ht
      refine ⟨hopen str t ht, fun desc t' ht' => ?_⟩
      cases desc with
      | none => exact always_pure.mpr trivial
      | some d => exact (hlast d t').mpr (hfd (some d) t' ⟨str, t, ht, ht'⟩ rfl)
  have hac (desc : Option DescRef) (t : CallState)
    (hr : Returns (fromUserspace path >>= openPath) s desc t) :
      t.ac = s.ac := (keeps_ac_fromUserspace.bind fun _ => keeps_ac_openPath) _ _ _ hr
  rw [hsplit, covered_openUserPath, PointersCovered]
  refine and_congr_right fun _ => ?_
  constructor
  · rintro h ⟨d, t, hr⟩ hnone
    have htable : t.files.table = s.files.table := keeps_table_openPath _ _ _ hr
    rw [← hac _ _ hr]
    exact h (some d) t hr rfl (by rwa [htable])
  · intro h desc t hr hsome hnone
    obtain ⟨d, rfl⟩ := Option.isSome_iff_exists.mp hsome
    have htable : t.files.table = s.files.table := keeps_table_openPath _ _ _ hr
    rw [htable] at hnone
    exact (hac _ _ hr).trans (h ⟨d, t, hr⟩ hnone)

theorem prepareExec_spec
    (h : Returns (prepareExec path argv envp) s (some (data, argvStrs, envpStrs)) s') :
    s'.ac = false ∧ (data = 0 ∨ isUserAddr data = false) := by
  obtain ⟨program, t, hopen, h⟩ := returns_bind.mp h
  cases program with
  | none => simp at h
  | some program =>
    simp only [returns_bind, clac, returns_modify, returns_pure] at h
    obtain ⟨_, _, -, _, _, -, _, _, -, _, _, rfl, hdata, rfl⟩ := h
    cases hdata
    exact ⟨rfl, data_of_openProgram hopen⟩

theorem covered_copyStrings (hac : s.ac = true) : Always Covered (copyStrings strs) s := by
  refine always_ite.mpr ⟨fun _ => always_pure.mpr trivial, fun _ => ?_⟩
  refine always_bind.mpr ⟨?_, fun _ _ _ => always_pure.mpr trivial⟩
  exact (walk_copyString.always_covered trivial).mpr fun _ _ _ => hac

theorem covered_execve :
    Always Covered (sysExecve path argv envp) s ↔ PointersCovered s (execve path argv envp) := by
  have hprepare : Always Covered (prepareExec path argv envp) s ↔ (path = 0 → s.ac = true) := by
    rw [prepareExec, always_bind, covered_openProgram]
    refine and_iff_left fun program t _ => ?_
    cases program with
    | none => exact always_pure.mpr trivial
    | some data =>
      refine always_modify_bind.mpr (always_bind.mpr ⟨covered_copyStrings rfl, fun _ t' hr => ?_⟩)
      have hac : t'.ac = true := keeps_ac_copyStrings _ _ _ hr
      refine always_bind.mpr ⟨covered_copyStrings hac, fun _ _ _ => ?_⟩
      simp [clac, always_bind]
  rw [sysExecve, always_bind, hprepare, PointersCovered]
  refine and_congr_right fun _ => ?_
  constructor
  · intro h data argvStrs envpStrs t hr
    obtain ⟨hac, hdata⟩ := prepareExec_spec hr
    exact (covered_execElf64 hdata hac).mp (always_bind.mp (h _ t hr)).1
  · rintro h r t hr
    rcases r with _ | ⟨data, argvStrs, envpStrs⟩
    · exact always_pure.mpr trivial
    · obtain ⟨hac, hdata⟩ := prepareExec_spec hr
      refine always_bind.mpr ⟨?_, fun _ _ _ => always_stop.mpr trivial⟩
      exact (covered_execElf64 hdata hac).mpr (h data argvStrs envpStrs t hr)

/-- **Where AC is set**: every access that a call makes to the user half happens with AC set exactly
if AC was set at the entry where a tmpfs file, a `stat`, a null pointer or the path of `stat` is
touched, the terminal returns with AC set to the vector that it reads for, and the program headers
of a new program are outside the user half. -/
theorem covered_iff_pointersCovered (call : UserCall) (s : CallState) :
    (∀ e ∈ call.accesses s, e.Covered) ↔ call.PointersCovered s := by
  show Always Covered call.run s ↔ _
  cases call with
  | read fd buffer count => simp [run, sysRead, PointersCovered, always_withFd, covered_read]
  | readv fd iov iovcnt =>
    rw [run, sysReadv, always_withFd, PointersCovered]
    refine forall_congr' fun d => imp_congr_right fun _ => ?_
    rw [always_ite]
    simp only [always_pure, implies_true, true_and, Int.not_lt]
    exact imp_congr_right fun _ => covered_readvFrom rfl
  | write fd buffer count => simp [run, sysWrite, PointersCovered, always_withFd, covered_write]
  | writev fd iov iovcnt =>
    rw [run, sysWritev, always_withFd, PointersCovered]
    refine forall_congr' fun d => imp_congr_right fun _ => ?_
    rw [always_ite]
    simp only [always_pure, implies_true, true_and, Int.not_lt]
    rw [always_writevFrom]
    simp only [covered_writevOne]
  | stat path out =>
    have hnull : isUserAddr 0 = true := by decide
    have hpath : Always Covered (statPath path) s ↔ (isUserAddr path = true → s.ac = true) := by
      rw [statPath, always_bind, covered_kstringOf]
      simp only [covered_resolvePath]
      constructor
      · rintro ⟨hstr, hfront⟩ huser
        by_cases hzero : path = 0
        · subst hzero
          exact hfront none s rfl rfl
        · exact hstr hzero huser
      · intro h
        refine ⟨fun _ => h, ?_⟩
        rintro _ t ht rfl
        have hzero : path = 0 := by
          rw [kstringOf] at ht
          split at ht
          · assumption
          · simp [returns_bind] at ht
        have hac : t.ac = s.ac := keeps_ac_kstringOf _ _ _ ht
        exact hac.trans (h (by rw [hzero]; exact hnull))
    rw [run, sysStat, always_bind, hpath, PointersCovered]
    refine and_congr_right fun _ => ?_
    constructor
    · exact fun h x t hr => covered_stat.mp (h (some x) t hr)
    · intro h r t hr
      cases r with
      | none => exact always_pure.mpr trivial
      | some x => exact covered_stat.mpr (h x t hr)
  | fstat fd out =>
    simp only [run, sysFstat, PointersCovered, always_withFd, always_get_bind, covered_stat]
  | ioctl fd request arg => exact iff_of_true (always_guarded.mp guarded_ioctl).2 trivial
  | getcwd buffer size => exact iff_of_true (always_guarded.mp guarded_getcwd).2 trivial
  | getdents64 fd buffer count =>
    refine iff_of_true (always_getdents64 (fun h => (always_guarded.mp h).2) ?_) trivial
    exact fun _ _ => covered_resolvePath.mpr (fun h => by cases h)
  | «open» path => exact covered_open
  | execve path argv envp => exact covered_execve
  | mmap length flags => exact iff_of_true (always_guarded.mp guarded_mmap).2 trivial
  | fork pid => exact iff_of_true (always_guarded.mp guarded_fork).2 trivial

/-- `fstat` of the terminal stores into user memory while AC is clear. -/
theorem fstat_stores_without_ac : (⟨.store, 0x400008, 8, false, false, true⟩ : Access) ∈
      (fstat 0 0x400000).accesses ttyState ∧
    ¬ ∀ e ∈ (fstat 0 0x400000).accesses ttyState, e.Covered := by
  have hmem : (⟨.store, 0x400008, 8, false, false, true⟩ : Access) ∈
      (fstat 0 0x400000).accesses ttyState := by decide
  exact ⟨hmem, fun h => absurd (h _ hmem) (by decide)⟩

end UserCall

end Hltos
