import Hltos.Containers.KVector
import Hltos.Fs.Vfs

/-!
# Files of the tmpfs

A `TmpFileInode` and the descriptors that are open on it, against a file as a sequence of bytes with
one cursor for each descriptor.
-/

namespace Hltos

open BitVec List Option Function

/-- The data of the inode, its `size`, and the offset of every descriptor on it. -/
structure TmpFile where
  data : KVector Byte
  size : Word
  offsets : DescRef → Word

inductive TmpOp where
  | write (fd : DescRef) (buff : List Byte)
  | read (fd : DescRef) (count : Word)
  | lseek (fd : DescRef) (offset whence : BitVec 32)
  | stat

/-- What the caller sees. -/
inductive TmpResult where
  | wrote (ret : Int)
  | read (ret : Int) (buff : List Byte)
  | sought (ret : Int)
  | stat (size : Nat)
deriving DecidableEq

namespace TmpFile

def EINVAL : Int := 22

/-- The loop of `write`: `data[fd->offset++] = *(buff + i)`. -/
def copyIn : List Byte → Word → List Byte → Option (Word × List Byte)
  | [], offset, data => some (offset, data)
  | b :: buff, offset, data =>
    if offset.toNat < data.length then copyIn buff (offset + 1) (data.set offset.toNat b) else none

/-- The loop of `read`: `*(buff + i) = data[fd->offset++]`. -/
def copyOut (data : List Byte) : Nat → Word → Option (Word × List Byte)
  | 0, offset => some (offset, [])
  | n + 1, offset => do
    let b ← data[offset.toNat]?
    let (offset, buff) ← copyOut data n (offset + 1)
    return (offset, b :: buff)

/-- The `int` that a `size_t` is returned as. -/
def toInt32 (count : Nat) : Int := (BitVec.ofNat 32 count).toInt

def write (heap : KHeap) (fd : DescRef) (buff : List Byte) (s : TmpFile) :
    Option (TmpResult × TmpFile) := do
  let count := BitVec.ofNat 64 buff.length
  let data ← s.data.resize heap (s.offsets fd + count).toNat
  let (offset, elems) ← copyIn buff (s.offsets fd) data.elems
  let data := { data with elems }
  return (.wrote (toInt32 buff.length),
    ⟨data, BitVec.ofNat 64 data.size, update s.offsets fd offset⟩)

def read (fd : DescRef) (count : Word) (s : TmpFile) : Option (TmpResult × TmpFile) := do
  if (s.offsets fd).toNat ≥ s.data.size then return (.read 0 [], s)
  else
    let available := s.data.size - (s.offsets fd).toNat
    let toRead := if count.toNat < available then count.toNat else available
    let (offset, buff) ← copyOut s.data.elems toRead (s.offsets fd)
    return (.read (toInt32 toRead) buff, { s with offsets := update s.offsets fd offset })

/-- `lseek`. The sums are of `intmax_t`, and wrap. -/
def lseek (fd : DescRef) (offset whence : BitVec 32) (s : TmpFile) : TmpResult × TmpFile :=
  let seek (position : Word) : TmpResult × TmpFile :=
    (.sought 0, { s with offsets := update s.offsets fd position })
  if whence = 0 then
    if offset.toInt < 0 then (.sought (-EINVAL), s) else seek (offset.signExtend 64)
  else if whence = 1 then
    if (s.offsets fd + offset.signExtend 64).toInt < 0 then (.sought (-EINVAL), s)
    else seek (s.offsets fd + offset.signExtend 64)
  else if whence = 2 then
    if (s.size + offset.signExtend 64).toInt < 0 then (.sought (-EINVAL), s)
    else seek (s.size + offset.signExtend 64)
  else (.sought (-EINVAL), s)

def step (heap : KHeap) : TmpOp → TmpFile → Option (TmpResult × TmpFile)
  | .write fd buff, s => s.write heap fd buff
  | .read fd count, s => s.read fd count
  | .lseek fd offset whence, s => some (s.lseek fd offset whence)
  | .stat, s => some (.stat s.size.toNat, s)

def run (heap : KHeap) : List TmpOp → TmpFile → Option (List TmpResult × TmpFile)
  | [], s => some ([], s)
  | op :: ops, s => do
    let (result, s) ← step heap op s
    let (results, s) ← run heap ops s
    return (result :: results, s)

/-- A new file; `fs::open` sets the offset of a descriptor to 0. -/
def new : TmpFile := ⟨.empty, 0, fun _ => 0⟩

end TmpFile

/-! ## The reference -/

/-- A sequence of bytes, and the cursors. -/
structure RefFile where
  contents : List Byte
  cursors : DescRef → Nat

namespace RefFile

/-- The contents up to a position, with zeros behind the end. -/
def upTo (contents : List Byte) (o : Nat) : List Byte :=
  (contents ++ List.replicate (o - contents.length) 0).take o

def write (fd : DescRef) (buff : List Byte) (r : RefFile) : TmpResult × RefFile :=
  let o := r.cursors fd
  (.wrote buff.length, ⟨upTo r.contents o ++ buff ++ r.contents.drop (o + buff.length),
      update r.cursors fd (o + buff.length)⟩)

def read (fd : DescRef) (count : Nat) (r : RefFile) : TmpResult × RefFile :=
  let buff := (r.contents.drop (r.cursors fd)).take count
  (.read buff.length buff,
    { r with cursors := update r.cursors fd (r.cursors fd + buff.length) })

/-- What `lseek` counts from. -/
def base (fd : DescRef) (whence : BitVec 32) (r : RefFile) : Option Nat :=
  if whence = 0 then some 0
  else if whence = 1 then some (r.cursors fd)
  else if whence = 2 then some r.contents.length
  else none

def lseek (fd : DescRef) (offset : Int) (whence : BitVec 32) (r : RefFile) : TmpResult × RefFile :=
  match r.base fd whence with
  | none => (.sought (-TmpFile.EINVAL), r)
  | some base =>
    if base + offset < 0 then (.sought (-TmpFile.EINVAL), r)
    else (.sought 0, { r with cursors := update r.cursors fd (base + offset).toNat })

def step : TmpOp → RefFile → TmpResult × RefFile
  | .write fd buff, r => r.write fd buff
  | .read fd count, r => r.read fd count.toNat
  | .lseek fd offset whence, r => r.lseek fd offset.toInt whence
  | .stat, r => (.stat r.contents.length, r)

def run : List TmpOp → RefFile → List TmpResult × RefFile
  | [], r => ([], r)
  | op :: ops, r => ((r.step op).1 :: (run ops (r.step op).2).1, (run ops (r.step op).2).2)

def new : RefFile := ⟨[], fun _ => 0⟩

end RefFile

namespace TmpFile

/-! ## The loops -/

variable {heap : KHeap} {s s' : TmpFile} {result : TmpResult}
  {o : Word} {n : Nat} {buff data : List Byte}

theorem toNat_succ (h : o.toNat + 1 ≤ n) (hn : n < 2 ^ 64) : (o + 1).toNat = o.toNat + 1 := by
  rw [toNat_add, show (1 : Word).toNat = 1 from rfl]
  omega

/-- The loop of `write` replaces the bytes behind the offset. -/
theorem copyIn_eq (h : o.toNat + buff.length ≤ data.length)
    (hlt : data.length < 2 ^ 64) : copyIn buff o data = some (o + .ofNat 64 buff.length,
      data.take o.toNat ++ buff ++ data.drop (o.toNat + buff.length)) := by
  induction buff generalizing o data with
  | nil => simp [copyIn]
  | cons b buff ih =>
    rw [length_cons] at h
    have hsucc := toNat_succ (o := o) (n := data.length) (by omega) hlt
    have hin : o.toNat < data.length := by omega
    rw [copyIn, if_pos hin, ih (by rw [length_set]; omega) (by rw [length_set]; exact hlt),
      hsucc, take_set, drop_set_of_lt (by omega)]
    have hoff : o + 1 + .ofNat 64 buff.length = o + .ofNat 64 (b :: buff).length := by
      rw [length_cons, BitVec.ofNat_add, BitVec.add_assoc, BitVec.add_comm (1 : Word)]
      rfl
    have htake : (data.take (o.toNat + 1)).set o.toNat b = data.take o.toNat ++ [b] := by
      rw [List.take_add_one, List.getElem?_eq_getElem hin, Option.toList_some,
        set_append_right _ _ (by simp [hin.le]), length_take, Nat.min_eq_left hin.le]
      simp
    have hlen : o.toNat + 1 + buff.length = o.toNat + (b :: buff).length := by
      rw [length_cons]
      omega
    rw [hoff, htake, hlen, append_assoc (data.take o.toNat), singleton_append]

/-- The loop of `read` takes the bytes behind the offset. -/
theorem copyOut_eq (h : o.toNat + n ≤ data.length) (hlt : data.length < 2 ^ 64) :
    copyOut data n o = some (o + .ofNat 64 n, (data.drop o.toNat).take n) := by
  induction n generalizing o with
  | zero => simp [copyOut]
  | succ n ih =>
    have hsucc := toNat_succ (o := o) (n := data.length) (by omega) hlt
    have hin : o.toNat < data.length := by omega
    have hoff : o + 1 + .ofNat 64 n = o + .ofNat 64 (n + 1) := by
      rw [BitVec.ofNat_add, BitVec.add_assoc, BitVec.add_comm (1 : Word)]
      rfl
    rw [copyOut, List.getElem?_eq_getElem hin, Option.bind_eq_bind, Option.bind_some,
      ih (by omega), hsucc, hoff, drop_eq_getElem_cons hin]
    rfl

/-! ## Refinement -/

/-- The file that the caller sees. -/
def abs (s : TmpFile) : RefFile := ⟨s.data.elems, fun fd => (s.offsets fd).toNat⟩

/-- `size` is `data.size()`, and no cursor is past the largest `intmax_t`. -/
structure Inv (s : TmpFile) : Prop where
  data : s.data.Allocated
  size : s.size.toNat = s.data.size
  cursor : ∀ fd, (s.offsets fd).toNat < 2 ^ 63

/-- `offset + count` does not overflow, and neither does the sum that `SEEK_CUR` asks for. -/
def NoOverflow : TmpOp → TmpFile → Prop
  | .write fd buff, s => (s.offsets fd).toNat + buff.length < 2 ^ 64
  | .read fd count, s => (s.offsets fd).toNat + count.toNat < 2 ^ 64
  | .lseek fd offset whence, s => whence = 1 → (s.offsets fd).toNat + offset.toInt < 2 ^ 63
  | .stat, _ => True

instance : (op : TmpOp) → (s : TmpFile) → Decidable (NoOverflow op s)
  | .write .., _ => inferInstanceAs (Decidable (_ < _))
  | .read .., _ => inferInstanceAs (Decidable (_ < _))
  | .lseek .., _ => inferInstanceAs (Decidable (_ → _))
  | .stat, _ => .isTrue trivial

namespace Inv

theorem length_lt (h : Inv s) : s.data.elems.length < 2 ^ 31 := h.data.fit.trans_lt h.data.bound

theorem update_cursor (h : Inv s) (fd : DescRef) (ho : o.toNat < 2 ^ 63) :
    ∀ fd', (update s.offsets fd o fd').toNat < 2 ^ 63 := by
  intro fd'
  by_cases heq : fd' = fd
  · subst heq
    rw [update_self]
    exact ho
  · rw [update_of_ne heq]
    exact h.cursor fd'

end Inv

theorem abs_update (s : TmpFile) (fd : DescRef) (o : Word) :
    (fun fd' => (update s.offsets fd o fd').toNat) = update s.abs.cursors fd o.toNat := by
  funext fd'
  by_cases heq : fd' = fd
  · subst heq
    rw [update_self, update_self]
  · rw [update_of_ne heq, update_of_ne heq]
    rfl

theorem toInt32_of_lt (h : n < 2 ^ 31) : toInt32 n = n := by
  have hnat : (BitVec.ofNat 32 n).toNat = n := by
    rw [toNat_ofNat]
    omega
  rw [toInt32, toInt_eq_toNat_of_lt (by omega), hnat]

/-! ### Writing and reading -/

variable {fd : DescRef} {count : Word}

/-- `write` is the write of the reference file, padding included. -/
theorem write_refines (h : Inv s)
    (hov : (s.offsets fd).toNat + buff.length < 2 ^ 64)
    (hrun : s.write heap fd buff = some (result, s')) :
    s.abs.write fd buff = (result, s'.abs) ∧ Inv s' := by
  obtain ⟨data, hresize, hrun⟩ := of_bind hrun
  obtain ⟨⟨o, elems⟩, hcopy, hrun⟩ := of_bind hrun
  cases hrun
  have hend : (s.offsets fd + .ofNat 64 buff.length).toNat =
      (s.offsets fd).toNat + buff.length := by
    rw [toNat_add, toNat_ofNat]
    omega
  rw [hend] at hresize
  obtain ⟨halloc, helems⟩ := h.data.resize hresize
  have hlen : data.elems.length =
      max s.data.elems.length ((s.offsets fd).toNat + buff.length) := by
    rw [helems, length_append, length_replicate, KVector.size]
    omega
  have hsmall : data.elems.length < 2 ^ 31 := halloc.fit.trans_lt halloc.bound
  rw [copyIn_eq (by omega) (by omega)] at hcopy
  obtain ⟨rfl, rfl⟩ := Prod.mk.inj (some.inj hcopy)
  -- the zeros that `resize` adds are those up to the offset, and others that are overwritten
  have hbefore : data.elems.take (s.offsets fd).toNat =
      RefFile.upTo s.data.elems (s.offsets fd).toNat := by
    rw [helems, RefFile.upTo, take_append, take_append, take_replicate, take_replicate,
      KVector.size]
    congr 2
    omega
  have hafter : data.elems.drop ((s.offsets fd).toNat + buff.length) =
      s.data.elems.drop ((s.offsets fd).toNat + buff.length) := by
    rw [helems, List.drop_append, List.drop_replicate, KVector.size, Nat.sub_self,
      List.replicate_zero, append_nil]
  have hwhole : (data.elems.take (s.offsets fd).toNat ++ buff ++
      data.elems.drop ((s.offsets fd).toNat + buff.length)).length = data.elems.length := by
    simp only [length_append, length_take, length_drop]
    omega
  refine ⟨?_, ?_, ?_, ?_⟩
  · rw [toInt32_of_lt (by omega)]
    simp only [RefFile.write, abs]
    rw [hbefore, hafter, abs_update, hend]
    rfl
  · refine ⟨halloc.capacity, halloc.bound, ?_⟩
    show List.length _ ≤ data.capacity
    rw [hwhole]
    exact halloc.fit
  · show (BitVec.ofNat 64 (List.length _)).toNat = List.length _
    rw [hwhole, toNat_ofNat]
    omega
  · exact h.update_cursor fd (by rw [hend]; omega)

/-- `read` is the read of the reference file. -/
theorem read_refines (h : Inv s) (hrun : s.read fd count = some (result, s')) :
    s.abs.read fd count.toNat = (result, s'.abs) ∧ Inv s' := by
  have hsmall := h.length_lt
  unfold read at hrun
  split at hrun
  · next hge =>
    cases hrun
    have hnil := drop_eq_nil_of_le hge
    refine ⟨?_, h⟩
    simp only [RefFile.read, abs, hnil, take_nil, length_nil, Nat.add_zero]
    rw [update_eq_self]
    rfl
  · next hlt =>
    rw [KVector.size] at hlt hrun
    obtain ⟨⟨o, buff⟩, hcopy, hrun⟩ := of_bind hrun
    cases hrun
    generalize hn : (if count.toNat < s.data.elems.length - (s.offsets fd).toNat then count.toNat
      else s.data.elems.length - (s.offsets fd).toNat) = n at hcopy ⊢
    have hmin : n = min count.toNat (s.data.elems.length - (s.offsets fd).toNat) := by
      rw [← hn]
      split <;> omega
    rw [copyOut_eq (by omega) (by omega)] at hcopy
    obtain ⟨rfl, rfl⟩ := Prod.mk.inj (some.inj hcopy)
    have hbuff : (s.data.elems.drop (s.offsets fd).toNat).take count.toNat =
        (s.data.elems.drop (s.offsets fd).toNat).take n := by
      rw [hmin, ← length_drop, take_eq_take_iff, length_drop]
      omega
    have hlen : ((s.data.elems.drop (s.offsets fd).toNat).take n).length = n := by
      rw [length_take, length_drop]
      omega
    have hend : (s.offsets fd + .ofNat 64 n).toNat = (s.offsets fd).toNat + n := by
      rw [toNat_add, toNat_ofNat]
      omega
    refine ⟨?_, h.data, h.size, h.update_cursor fd (by rw [hend]; omega)⟩
    rw [toInt32_of_lt (by omega)]
    simp only [RefFile.read, abs]
    rw [hbuff, hlen, abs_update, hend]
    rfl

/-! ### Seeking -/

theorem toNat_of_toInt {x : Word} {z : Int} (hx : x.toInt = z) (hz : ¬ z < 0) :
    x.toNat = z.toNat := by
  have hlt := x.isLt
  rw [toInt_eq_toNat_cond] at hx
  split at hx <;> omega

variable {offset : BitVec 32} {whence : BitVec 32}

/-- Where no sum overflows, the code adds as the reference does. -/
theorem toInt_seek {base : Word} (hbase : base.toNat < 2 ^ 63)
    (hsum : base.toNat + offset.toInt < 2 ^ 63) :
    (base + offset.signExtend 64).toInt = base.toNat + offset.toInt := by
  have hlow := offset.le_toInt
  rw [toInt_add, toInt_signExtend_of_le (by decide),
    toInt_eq_toNat_of_lt (by omega), Int.bmod_eq_of_le (by omega) (by omega)]

theorem seek_refines {position : Word} (base : Nat) (h : Inv s)
    (hbase : s.abs.base fd whence = some base)
    (hpos : position.toInt = base + offset.toInt) (hlt : base + offset.toInt < 2 ^ 63)
    (hrun : (if base + offset.toInt < 0 then (.sought (-EINVAL), s)
      else (.sought 0, { s with offsets := update s.offsets fd position })) = (result, s')) :
    s.abs.lseek fd offset.toInt whence = (result, s'.abs) ∧ Inv s' := by
  simp only [RefFile.lseek, hbase]
  split at hrun
  · next hneg =>
    cases hrun
    rw [if_pos hneg]
    exact ⟨rfl, h⟩
  · next hneg =>
    have hnat := toNat_of_toInt hpos hneg
    cases hrun
    rw [if_neg hneg]
    refine ⟨?_, h.data, h.size, h.update_cursor fd (by rw [hnat]; omega)⟩
    simp only [abs]
    rw [abs_update, hnat]
    rfl

/-- `lseek` is that of the reference file where its sums do not wrap. -/
theorem lseek_refines (h : Inv s) (hov : whence = 1 → (s.offsets fd).toNat + offset.toInt < 2 ^ 63)
    (hrun : s.lseek fd offset whence = (result, s')) :
    s.abs.lseek fd offset.toInt whence = (result, s'.abs) ∧ Inv s' := by
  have hsmall := h.length_lt
  have hsize : s.size.toNat = s.data.elems.length := h.size
  have hoff : offset.toInt < 2 ^ 31 := toInt_lt
  simp only [lseek] at hrun
  split at hrun
  · next hset =>
    subst hset
    have hpos : (offset.signExtend 64).toInt = (0 : Nat) + offset.toInt := by
      rw [toInt_signExtend_of_le (by decide), Int.natCast_zero, Int.zero_add]
    refine seek_refines 0 h rfl hpos (by omega) ?_
    rw [← hrun, Int.natCast_zero, Int.zero_add]
  · split at hrun
    · next hcur =>
      subst hcur
      have hsum := toInt_seek (h.cursor fd) (hov rfl)
      rw [hsum] at hrun
      exact seek_refines _ h rfl hsum (hov rfl) hrun
    · split at hrun
      · next hend =>
        subst hend
        have hsum : (s.size + offset.signExtend 64).toInt = s.data.elems.length + offset.toInt := by
          rw [toInt_seek (by omega) (by omega), hsize]
        rw [hsum] at hrun
        exact seek_refines s.data.elems.length h rfl hsum (by omega) hrun
      · next hset hcur hend =>
        cases hrun
        have hnone : s.abs.base fd whence = none := by
          rw [RefFile.base, if_neg hset, if_neg hcur, if_neg hend]
        simp only [RefFile.lseek, hnone]
        exact ⟨trivial, h⟩

/-! ## Runs -/

variable {op : TmpOp} {ops : List TmpOp} {results : List TmpResult}

theorem step_refines (h : Inv s) (hok : NoOverflow op s)
    (hrun : step heap op s = some (result, s')) : s.abs.step op = (result, s'.abs) ∧ Inv s' := by
  cases op with
  | write fd buff => exact write_refines h hok hrun
  | read fd count => exact read_refines h hrun
  | lseek fd offset whence => exact lseek_refines h hok (some.inj hrun)
  | stat =>
    cases hrun
    exact ⟨congrArg (fun n => (TmpResult.stat n, s.abs)) h.size.symm, h⟩

/-- No call of a sequence overflows. -/
def NoOverflows (heap : KHeap) : List TmpOp → TmpFile → Prop
  | [], _ => True
  | op :: ops, s =>
    NoOverflow op s ∧ ∀ result s', step heap op s = some (result, s') → NoOverflows heap ops s'

theorem run_refines (h : Inv s) (hok : NoOverflows heap ops s)
    (hrun : run heap ops s = some (results, s')) :
    RefFile.run ops s.abs = (results, s'.abs) ∧ Inv s' := by
  induction ops generalizing s results with
  | nil =>
    cases hrun
    exact ⟨rfl, h⟩
  | cons op ops ih =>
    obtain ⟨⟨result, s1⟩, hstep, hrun⟩ := of_bind hrun
    obtain ⟨⟨rest, s2⟩, hrest, hrun⟩ := of_bind hrun
    cases hrun
    obtain ⟨href, hinv⟩ := step_refines h hok.1 hstep
    obtain ⟨hrefs, hinv'⟩ := ih hinv (hok.2 result s1 hstep) hrest
    refine ⟨?_, hinv'⟩
    rw [RefFile.run, href, hrefs]

theorem inv_new : Inv new := ⟨KVector.allocated_empty, rfl, fun _ => Nat.two_pow_pos 63⟩

/-- The kernel heap has the memory that a write needs. -/
def HasMemory (heap : KHeap) : TmpOp → TmpFile → Prop
  | .write fd buff, s => s.data.size < (s.offsets fd).toNat + buff.length →
    KVector.Provides heap ((s.offsets fd).toNat + buff.length)
  | _, _ => True

theorem read_returns (h : Inv s) : ∃ result s', s.read fd count = some (result, s') := by
  have hsmall := h.length_lt
  simp only [read]
  split
  · exact ⟨_, _, rfl⟩
  · next hlt =>
    rw [KVector.size] at hlt ⊢
    rw [copyOut_eq (by split <;> omega) (by omega)]
    exact ⟨_, _, rfl⟩

theorem step_returns (h : Inv s) (hok : NoOverflow op s) (hmem : HasMemory heap op s) :
    ∃ result s', step heap op s = some (result, s') := by
  cases op with
  | write fd buff =>
    have hok' : (s.offsets fd).toNat + buff.length < 2 ^ 64 := hok
    have hend : (s.offsets fd + .ofNat 64 buff.length).toNat =
        (s.offsets fd).toNat + buff.length := by
      rw [toNat_add, toNat_ofNat]
      omega
    obtain ⟨data, hdata⟩ := KVector.resize_returns h.data hmem
    obtain ⟨halloc, helems⟩ := h.data.resize hdata
    have hsmall : data.elems.length < 2 ^ 31 := halloc.fit.trans_lt halloc.bound
    have hfit : (s.offsets fd).toNat + buff.length ≤ data.elems.length := by
      rw [helems, length_append, length_replicate, KVector.size]
      omega
    simp only [step, write, hend, hdata, bind_eq_bind, bind_some,
      copyIn_eq hfit (hsmall.trans (by decide))]
    exact ⟨_, _, rfl⟩
  | read fd count => exact read_returns h
  | lseek fd offset whence => exact ⟨_, _, rfl⟩
  | stat => exact ⟨_, _, rfl⟩

/-- `read` takes the bytes behind the offset, as many as there are. -/
theorem Inv.read_spec (h : Inv s) (fd : DescRef) (count : Word) :
    let chunk := (s.data.elems.drop (s.offsets fd).toNat).take count.toNat
    ∃ s', s.read fd count = some (.read chunk.length chunk, s') ∧ Inv s' ∧
      s'.data.elems = s.data.elems ∧
      (s'.offsets fd).toNat = (s.offsets fd).toNat + chunk.length := by
  obtain ⟨result, s', hread⟩ : ∃ result s', s.read fd count = some (result, s') := read_returns h
  obtain ⟨href, hinv⟩ := read_refines h hread
  obtain ⟨rfl, habs⟩ := Prod.mk.inj href
  refine ⟨s', hread, hinv, (congrArg RefFile.contents habs).symm, ?_⟩
  have hcursor := congrFun (congrArg RefFile.cursors habs) fd
  exact hcursor.symm.trans (update_self fd _ s.abs.cursors)

/-- **A tmpfs file is a sequence of bytes with cursors**, along every sequence of calls that do not
overflow: the results are those of the reference, `size` is `data.size()`, and the next call returns
if there is memory for it. -/
theorem new_run_refines (heap : KHeap) (ops : List TmpOp) {results : List TmpResult} {s : TmpFile}
    (hok : NoOverflows heap ops new) (hrun : run heap ops new = some (results, s)) :
    RefFile.run ops RefFile.new = (results, s.abs) ∧ s.size.toNat = s.data.size ∧
    ∀ op, NoOverflow op s → HasMemory heap op s →
    ∃ result s', step heap op s = some (result, s') := by
  obtain ⟨href, hinv⟩ := run_refines inv_new hok hrun
  exact ⟨href, hinv.size, fun op => step_returns hinv⟩

/-- A heap with a page of memory. -/
def smallHeap : KHeap := ⟨fun n => n ≤ 4096, fun n h => by simp at h; omega⟩

/-- One descriptor writes past the end of the file, and another one reads. -/
def sparseOps : List TmpOp :=
  [.lseek 0 3 0, .write 0 [0x61, 0x62], .read 1 4, .lseek 1 0xFFFFFFFF 1, .read 1 9, .stat]

theorem sparseOps_refines : ∃ s, run smallHeap sparseOps new =
      some ([.sought 0, .wrote 2, .read 4 [0, 0, 0, 0x61], .sought 0,
        .read 2 [0x61, 0x62], .stat 5], s) ∧
    RefFile.run sparseOps RefFile.new =
      ([.sought 0, .wrote 2, .read 4 [0, 0, 0, 0x61], .sought 0, .read 2 [0x61, 0x62], .stat 5],
        s.abs) := by
  have hrun : (run smallHeap sparseOps new).map Prod.fst = some
      [.sought 0, .wrote 2, .read 4 [0, 0, 0, 0x61], .sought 0, .read 2 [0x61, 0x62], .stat 5] := by
    decide
  obtain ⟨⟨results, s⟩, hs, rfl⟩ := map_eq_some_iff.mp hrun
  refine ⟨s, hs, (new_run_refines smallHeap sparseOps ?_ hs).1⟩
  refine ⟨by decide, ?_⟩
  rintro _ _ ⟨⟩
  refine ⟨by decide, ?_⟩
  rintro _ _ ⟨⟩
  refine ⟨by decide, ?_⟩
  rintro _ _ ⟨⟩
  refine ⟨by decide, ?_⟩
  rintro _ _ ⟨⟩
  refine ⟨by decide, ?_⟩
  rintro _ _ ⟨⟩
  exact ⟨trivial, fun _ _ _ => trivial⟩

/-! ### A sum that overflows -/

def intMax : BitVec 32 := 0x7FFFFFFF

def seekCur : TmpOp := .lseek 0 intMax 1

/-- An empty file, with the cursor at `o`. -/
def soughtTo (o : Nat) : TmpFile :=
  { new with offsets := update new.offsets 0 (BitVec.ofNat 64 o) }

theorem soughtTo_zero : soughtTo 0 = new :=
  congrArg (TmpFile.mk new.data new.size) (update_eq_self 0 new.offsets)

theorem offsets_soughtTo (o : Nat) : (soughtTo o).offsets 0 = BitVec.ofNat 64 o := by
  simp [soughtTo]

theorem step_seekCur {o : Nat} (hlt : o < 2 ^ 63) : step heap seekCur (soughtTo o) =
    if 2 ^ 63 ≤ o + intMax.toNat then some (.sought (-EINVAL), soughtTo o)
    else some (.sought 0, soughtTo (o + intMax.toNat)) := by
  have hsum : .ofNat 64 o + intMax.signExtend 64 = .ofNat 64 (o + intMax.toNat) := by
    rw [ofNat_add]
    rfl
  have hneg : (BitVec.ofNat 64 (o + intMax.toNat)).toInt < 0 ↔ 2 ^ 63 ≤ o + intMax.toNat := by
    rw [toInt_eq_toNat_cond, toNat_ofNat, Nat.mod_eq_of_lt (by omega)]
    split <;> omega
  have hupdate : TmpFile.mk (soughtTo o).data (soughtTo o).size (update (soughtTo o).offsets 0
      (.ofNat 64 (o + intMax.toNat))) = soughtTo (o + intMax.toNat) := by
    simp [soughtTo, update_idem]
  have hcur : (1 : BitVec 32) ≠ 0 := by decide
  simp only [step, seekCur, lseek, offsets_soughtTo, hsum, hneg, hupdate, if_neg hcur, if_true]
  split <;> rfl

theorem run_cons {s1 s2 : TmpFile}
    (hstep : step heap op s = some (result, s1)) (hrun : run heap ops s1 = some (results, s2)) :
    run heap (op :: ops) s = some (result :: results, s2) := by
  simp only [run, hstep, hrun, bind_eq_bind, bind_some]
  rfl

theorem run_seekCur (heap : KHeap) {o m : Nat} (hm : intMax.toNat = m) (hlt : o + n * m < 2 ^ 63)
    (hge : 2 ^ 63 ≤ o + (n + 1) * m) : ∃ results s,
    run heap (List.replicate (n + 1) seekCur) (soughtTo o) = some (results, s) ∧
      .sought (-EINVAL) ∈ results := by
  induction n generalizing o with
  | zero =>
    refine ⟨[.sought (-EINVAL)], soughtTo o, ?_, mem_singleton_self _⟩
    have hstep : step heap seekCur (soughtTo o) = some (.sought (-EINVAL), soughtTo o) := by
      rw [step_seekCur (by omega), hm, if_pos (by omega)]
    exact run_cons hstep rfl
  | succ n ih =>
    rw [Nat.add_mul _ 1, Nat.one_mul] at hlt hge
    obtain ⟨results, s, hrun, hmem⟩ := ih (o := o + m) (by omega) (by omega)
    refine ⟨.sought 0 :: results, s, ?_, mem_cons_of_mem _ hmem⟩
    have hstep : step heap seekCur (soughtTo o) = some (.sought 0, soughtTo (o + m)) := by
      rw [step_seekCur (by omega), hm, if_neg (by omega)]
    exact run_cons hstep hrun

/-- The reference never refuses to move forward. -/
theorem mem_run_seekCur {r : RefFile} {result : TmpResult}
    (h : result ∈ (RefFile.run (List.replicate n seekCur) r).1) : result = .sought 0 := by
  induction n generalizing r with
  | zero => cases h
  | succ n ih =>
    rw [List.replicate_succ, RefFile.run, List.mem_cons] at h
    obtain rfl | h := h
    · have hbase : r.base 0 1 = some (r.cursors 0) := rfl
      have hoffset : 0 ≤ intMax.toInt := by decide
      simp only [RefFile.step, seekCur, RefFile.lseek, hbase]
      rw [if_neg (by omega)]
    · exact ih h

/-- From `2 ^ 63 - 2` the cursor does not move on: the sum is negative. -/
theorem seekCur_not_refines : ∃ results s,
    run smallHeap (List.replicate (2 ^ 32 + 3) seekCur) new = some (results, s) ∧
    (RefFile.run (List.replicate (2 ^ 32 + 3) seekCur) RefFile.new).1 ≠ results := by
  obtain ⟨results, s, hrun, hmem⟩ :=
    run_seekCur smallHeap (n := 2 ^ 32 + 2) (o := 0) rfl (by decide) (by decide)
  rw [soughtTo_zero] at hrun
  refine ⟨results, s, hrun, ?_⟩
  rintro rfl
  cases mem_run_seekCur hmem

end TmpFile

end Hltos
