import Hltos.Lib.Transition
import Hltos.Memory.Paging

/-!
# The physical memory manager

`pmm.cpp`: a bitmap with one bit per frame (a set bit means used) and a window in which
`alloc_frame` searches. Every entry point holds `g_pmm_spinlock`, so each is one step. Addresses and
counters are words; frame numbers are addresses divided by the frame size and do not overflow.

The bitmap is a function of the index. `set_addr_free` can write the word behind the array: that is
`frame_bitmap_start`, the variable that follows it in the kernel. `alloc_frame` searches inside the
array only, and `free_frame` is given frames that `alloc_frame` has returned.
-/

namespace Hltos

structure Pmm where
  frameBitmap : Nat → Word
  frameBitmapStart : Nat
  frameBitmapEnd : Nat
  totalMemory : Word
  totalFrames : Word
  freeFrames : Word

namespace Pmm

def maxMemoryBytes : Word := 2147483648
def frameSize : Nat := 4096
def maxNumFrames : Nat := maxMemoryBytes.toNat / frameSize
def frameBitmapEntrySize : Nat := 64
def frameBitmapSize : Nat := maxNumFrames / frameBitmapEntrySize

/-! ## The bitmap -/

/-- `FRAME_USED << offset` -/
def frameMask (frame : Nat) : Word := (1 : Word) <<< (frame % frameBitmapEntrySize)

def isFrameFree (frame : Nat) (p : Pmm) : Bool :=
  p.frameBitmap (frame / frameBitmapEntrySize) &&& frameMask frame == 0

/-- `frame_bitmap[index] = entry` -/
def setBitmap (index : Nat) (entry : Word) (p : Pmm) : Pmm :=
  { p with frameBitmap := fun i => if i = index then entry else p.frameBitmap i }

def setFrameUsed (frame : Nat) (p : Pmm) : Pmm :=
  let index := frame / frameBitmapEntrySize
  let p := p.setBitmap index (p.frameBitmap index ||| frameMask frame)
  { p with freeFrames := p.freeFrames - 1 }

def setFrameFree (frame : Nat) (p : Pmm) : Pmm :=
  let index := frame / frameBitmapEntrySize
  let p := p.setBitmap index (p.frameBitmap index &&& ~~~frameMask frame)
  { p with
    -- `frame_bitmap[FRAME_BITMAP_SIZE]` is `frame_bitmap_start`
    frameBitmapStart := if index = frameBitmapSize
      then (BitVec.ofNat 64 p.frameBitmapStart &&& ~~~frameMask frame).toNat else p.frameBitmapStart
    freeFrames := p.freeFrames + 1 }

/-! ## Boot -/

/-- The static variables before `init`. -/
def zeroed : Pmm := ⟨fun _ => 0, 0, 0, 0, 0, 0⟩

/-- All frames are used. The window is not set here. -/
def init (p : Pmm) : Pmm :=
  { p with
    frameBitmap := fun i => if i < frameBitmapSize then 0xFFFFFFFFFFFFFFFF else p.frameBitmap i
    totalMemory := 0
    totalFrames := 0
    freeFrames := 0 }

/-- The loop of `set_addr_free`, for `n` frames from `frame` on. -/
def setFramesFree : Nat → Nat → Pmm → Pmm
  | 0, _, p => p
  | n + 1, frame, p => setFramesFree n (frame + 1) (p.setFrameFree frame)

/-- `set_addr_free`. The last frame that is set free is the one behind the region. -/
def setAddrFree (addr length : Word) (p : Pmm) : Pmm :=
  let frameStart := addr.toNat / frameSize
  let frameEnd := (addr + length).toNat / frameSize
  { p with frameBitmapStart := frameStart, frameBitmapEnd := frameEnd }.setFramesFree
    (frameEnd + 1 - frameStart) frameStart

/-- What `add_free_memory` does with a region that it does not ignore. -/
def register (addr len : Word) (p : Pmm) : Pmm :=
  let totalFrames := p.totalFrames + (len / 4096 + 1)
  let p := { p with
    totalMemory := p.totalMemory + len
    totalFrames := totalFrames
    freeFrames := p.freeFrames + totalFrames }
  (p.setAddrFree addr len).setFrameUsed 0

def addFreeMemory (addr len : Word) (p : Pmm) : Pmm :=
  if maxMemoryBytes ≤ addr + len then
    if maxMemoryBytes ≤ addr then p else p.register addr (maxMemoryBytes - addr)
  else p.register addr len

/-! ## Frames -/

def freeFrame (phys : Word) (p : Pmm) : Pmm := p.setFrameFree (phys.toNat / frameSize)

/-- The search of `alloc_frame` over `n` frames from `frame` on. -/
def firstFree (p : Pmm) : Nat → Nat → Option Nat
  | 0, _ => none
  | n + 1, frame => if p.isFrameFree frame then some frame else p.firstFree n (frame + 1)

/-- `alloc_frame`; with no free frame in the window it panics. -/
def allocFrame (p : Pmm) : Option (Word × Pmm) := do
  let frame ← p.firstFree (p.frameBitmapEnd - p.frameBitmapStart) p.frameBitmapStart
  return (BitVec.ofNat 64 (frame * frameSize),
    { p.setFrameUsed frame with frameBitmapStart := frame + 1 })

/-! ## What the bitmap says -/

section Bitmap

variable {p p' : Pmm} {f g n : Nat}

theorem frameMask_eq (f : Nat) : frameMask f = BitVec.twoPow 64 (f % 64) :=
  (BitVec.twoPow_eq 64 (f % 64)).symm

theorem isFrameFree_eq (f : Nat) (p : Pmm) :
    p.isFrameFree f = !(p.frameBitmap (f / 64)).getLsbD (f % 64) := by
  have hne : BitVec.twoPow 64 (f % 64) ≠ 0#64 := by
    intro h
    have hbit := congrArg (BitVec.getLsbD · (f % 64)) h
    simp [show f % 64 < 64 by omega] at hbit
  rw [isFrameFree, frameMask_eq, frameBitmapEntrySize, BitVec.and_twoPow]
  cases (p.frameBitmap (f / 64)).getLsbD (f % 64) <;> simp [hne]

/-- Two frames with the same bit of the same word are the same frame. -/
theorem same_bit (h : g / 64 = f / 64) (hb : f % 64 = g % 64) : g = f := by omega

theorem isFrameFree_setFrameUsed :
    (p.setFrameUsed f).isFrameFree g = (p.isFrameFree g && decide (g ≠ f)) := by
  simp only [isFrameFree_eq, setFrameUsed, setBitmap, frameBitmapEntrySize, frameMask_eq]
  by_cases hi : g / 64 = f / 64
  · rw [if_pos hi, BitVec.getLsbD_or, BitVec.getLsbD_twoPow, ← hi]
    by_cases hb : f % 64 = g % 64
    · simp [hb, same_bit hi hb, show g % 64 < 64 by omega]
    · simp [hb, show g ≠ f by rintro rfl; exact hb rfl]
  · rw [if_neg hi]
    simp [show g ≠ f by rintro rfl; exact hi rfl]

theorem isFrameFree_setFrameFree :
    (p.setFrameFree f).isFrameFree g = (p.isFrameFree g || decide (g = f)) := by
  simp only [isFrameFree_eq, setFrameFree, setBitmap, frameBitmapEntrySize, frameMask_eq]
  by_cases hi : g / 64 = f / 64
  · rw [if_pos hi, BitVec.getLsbD_and, BitVec.getLsbD_not, BitVec.getLsbD_twoPow, ← hi]
    by_cases hb : f % 64 = g % 64
    · simp [hb, same_bit hi hb, show g % 64 < 64 by omega]
    · simp [hb, show g ≠ f by rintro rfl; exact hb rfl, show g % 64 < 64 by omega]
  · rw [if_neg hi]
    simp [show g ≠ f by rintro rfl; exact hi rfl]

theorem isFrameFree_setFramesFree :
    (p.setFramesFree n f).isFrameFree g = (p.isFrameFree g || decide (f ≤ g ∧ g < f + n)) := by
  induction n generalizing f p with
  | zero => simp [setFramesFree]
  | succ n ih =>
    rw [setFramesFree, ih, isFrameFree_setFrameFree, Bool.or_assoc, ← Bool.decide_or]
    congr 2
    exact propext (by omega)

/-- A frame that has a bit does not touch the window. -/
theorem setFrameFree_start (hf : f < maxNumFrames) :
    (p.setFrameFree f).frameBitmapStart = p.frameBitmapStart := by
  have hmax : maxNumFrames = 524288 := rfl
  have hsize : frameBitmapSize = 8192 := rfl
  exact if_neg (by rw [hsize, frameBitmapEntrySize]; omega)

/-- The frame behind the last one clears bit 0 of `frame_bitmap_start`. -/
theorem setFrameFree_behind (hp : p.frameBitmapStart < 2 ^ 64) :
    (p.setFrameFree maxNumFrames).frameBitmapStart =
      p.frameBitmapStart - p.frameBitmapStart % 2 := by
  have hclear (x : Word) : x &&& ~~~frameMask maxNumFrames = (x >>> 1) <<< 1 := by
    rw [frameMask_eq, show maxNumFrames % 64 = 0 from rfl]
    ext i hi
    rw [BitVec.getElem_and, BitVec.getElem_not, BitVec.getElem_twoPow, BitVec.getElem_shiftLeft]
    cases i with
    | zero => simp
    | succ i => simp [BitVec.getLsbD_eq_getElem hi, Nat.add_comm 1]
  have hfirst : (p.setFrameFree maxNumFrames).frameBitmapStart =
      (BitVec.ofNat 64 p.frameBitmapStart &&& ~~~frameMask maxNumFrames).toNat := rfl
  rw [hfirst, hclear, BitVec.toNat_shiftLeft, BitVec.toNat_ushiftRight,
    BitVec.toNat_ofNat, Nat.shiftLeft_eq, Nat.shiftRight_eq_div_pow]
  omega

/-- The loop clears that bit if it comes to the frame behind the last one. -/
theorem setFramesFree_start (hend : f + n ≤ maxNumFrames + 1) (hp : p.frameBitmapStart < 2 ^ 64) :
    (p.setFramesFree n f).frameBitmapStart = if 0 < n ∧ f + n = maxNumFrames + 1
      then p.frameBitmapStart - p.frameBitmapStart % 2 else p.frameBitmapStart := by
  induction n generalizing f p with
  | zero => rfl
  | succ n ih =>
    rw [setFramesFree]
    by_cases hf : f < maxNumFrames
    · have hstart := setFrameFree_start (p := p) hf
      rw [ih (by omega) (by rw [hstart]; exact hp), hstart]
      exact if_congr (by omega) rfl rfl
    · obtain rfl : n = 0 := by omega
      obtain rfl : f = maxNumFrames := by omega
      rw [if_pos ⟨Nat.one_pos, rfl⟩]
      exact setFrameFree_behind hp

theorem setFramesFree_stop : (p.setFramesFree n f).frameBitmapEnd = p.frameBitmapEnd := by
  induction n generalizing f p with
  | zero => rfl
  | succ n ih => exact ih

theorem firstFree_eq_some (h : p.firstFree n f = some g) :
    f ≤ g ∧ g < f + n ∧ p.isFrameFree g = true ∧ ∀ k, f ≤ k → k < g → p.isFrameFree k = false := by
  induction n generalizing f with
  | zero => cases h
  | succ n ih =>
    unfold firstFree at h
    split at h
    · next hf =>
      cases h
      exact ⟨le_rfl, by omega, hf, by omega⟩
    · next hf =>
      obtain ⟨hle, hlt, hfree, hfirst⟩ := ih h
      refine ⟨by omega, by omega, hfree, fun k hk hkg => ?_⟩
      rcases Nat.eq_or_lt_of_le hk with rfl | hk
      · simpa using hf
      · exact hfirst k hk hkg

theorem firstFree_eq_none :
    p.firstFree n f = none ↔ ∀ k, f ≤ k → k < f + n → p.isFrameFree k = false := by
  induction n generalizing f with
  | zero => simp only [firstFree, true_iff]; omega
  | succ n ih =>
    unfold firstFree
    split
    · next hf =>
      simp only [reduceCtorEq, false_iff]
      intro h
      exact absurd hf (by simp [h f le_rfl (by omega)])
    · next hf =>
      rw [ih]
      constructor
      · intro h k hk hlt
        rcases Nat.eq_or_lt_of_le hk with rfl | hk
        · simpa using hf
        · exact h k hk (by omega)
      · exact fun h k hk hlt => h k (by omega) (by omega)

end Bitmap

/-! ## One call -/

section Calls

variable {p p' : Pmm} {phys : Word} {f g : Nat}

/-- `f` is a free frame of the window. -/
def Available (p : Pmm) (f : Nat) : Prop :=
  p.frameBitmapStart ≤ f ∧ f < p.frameBitmapEnd ∧ p.isFrameFree f = true

/-- What `alloc_frame` does: the first free frame of the window is taken, and the window starts
behind it from now on. -/
structure Takes (p p' : Pmm) (f : Nat) : Prop where
  available : p.Available f
  first : ∀ g, p.Available g → f ≤ g
  isFree : ∀ g, p'.isFrameFree g = (p.isFrameFree g && decide (g ≠ f))
  start : p'.frameBitmapStart = f + 1
  stop : p'.frameBitmapEnd = p.frameBitmapEnd

theorem allocFrame_eq_some (h : p.allocFrame = some (phys, p')) :
    ∃ f, phys = BitVec.ofNat 64 (f * frameSize) ∧ p.Takes p' f := by
  obtain ⟨f, hf, h⟩ := of_bind h
  cases h
  obtain ⟨hle, hlt, hfree, hfirst⟩ := firstFree_eq_some hf
  refine ⟨f, rfl, ⟨hle, by omega, hfree⟩, ?_, ?_, rfl, rfl⟩
  · rintro g ⟨hg, -, hgfree⟩
    by_contra hlt
    exact absurd hgfree (by simp [hfirst g hg (by omega)])
  · exact fun g => isFrameFree_setFrameUsed (p := p)

theorem allocFrame_eq_none : p.allocFrame = none ↔ ∀ f, ¬ p.Available f := by
  have hnone : p.allocFrame = none ↔
      p.firstFree (p.frameBitmapEnd - p.frameBitmapStart) p.frameBitmapStart = none := by
    unfold allocFrame
    cases p.firstFree (p.frameBitmapEnd - p.frameBitmapStart) p.frameBitmapStart <;> simp
  rw [hnone, firstFree_eq_none]
  constructor
  · rintro h f ⟨hle, hlt, hfree⟩
    exact absurd hfree (by simp [h f hle (by omega)])
  · intro h f hle hlt
    by_contra hfree
    exact h f ⟨hle, by omega, by simpa using hfree⟩

/-- An available frame other than the one that is taken stays available. -/
theorem Available.of_takes (hg : p.Available g) (ht : p.Takes p' f) (hne : g ≠ f) :
    p'.Available g := by
  have hle := ht.first g hg
  refine ⟨by rw [ht.start]; omega, by rw [ht.stop]; exact hg.2.1, ?_⟩
  rw [ht.isFree, hg.2.2]
  simp [hne]

theorem isFrameFree_register {addr len : Word} : (p.register addr len).isFrameFree g =
    ((p.isFrameFree g ||
      decide (addr.toNat / frameSize ≤ g ∧ g ≤ (addr + len).toNat / frameSize)) &&
      decide (g ≠ 0)) := by
  rw [register, isFrameFree_setFrameUsed, setAddrFree, isFrameFree_setFramesFree]
  congr 2
  exact decide_eq_decide.mpr (by omega)

/-- A region that reaches the end of the bitmap moves the window to an even frame. -/
theorem register_start (p : Pmm) {addr len : Word}
    (hend : (addr + len).toNat / frameSize ≤ maxNumFrames) :
    (p.register addr len).frameBitmapStart =
      if addr.toNat / frameSize ≤ (addr + len).toNat / frameSize ∧
        (addr + len).toNat / frameSize = maxNumFrames
      then addr.toNat / frameSize - addr.toNat / frameSize % 2 else addr.toNat / frameSize := by
  have hstart : addr.toNat / frameSize < 2 ^ 64 := (Nat.div_le_self _ _).trans_lt addr.isLt
  by_cases hle : addr.toNat / frameSize ≤ (addr + len).toNat / frameSize
  · refine (setFramesFree_start (by omega) hstart).trans ?_
    exact if_congr (by omega) rfl rfl
  · rw [if_neg (fun h => hle h.1), register, setAddrFree,
      show (addr + len).toNat / frameSize + 1 - addr.toNat / frameSize = 0 by omega]
    rfl

theorem register_stop (p : Pmm) (addr len : Word) :
    (p.register addr len).frameBitmapEnd = (addr + len).toNat / frameSize := setFramesFree_stop

theorem addFreeMemory_stop (addr len : Word) (hp : p.frameBitmapEnd ≤ maxNumFrames) :
    (p.addFreeMemory addr len).frameBitmapEnd ≤ maxNumFrames := by
  unfold addFreeMemory
  split
  · split
    · exact hp
    · rw [register_stop, BitVec.add_comm, BitVec.sub_add_cancel]
      decide
  · next hlt =>
    have hlt := Nat.lt_of_not_le hlt
    rw [register_stop]
    exact Nat.div_le_div_right hlt.le

end Calls

end Pmm

/-! ## The frame allocator of the memory manager -/

/-- The window ends within the bitmap, as it does after `init_memory` for any memory map. -/
structure BootedPmm extends Pmm where
  window : frameBitmapEnd ≤ Pmm.maxNumFrames

namespace BootedPmm

open Pmm Option BitVec

/-- The frames whose bit is set: those in use, and those that were never registered. -/
def used (p : BootedPmm) : Set Frame := {f | p.isFrameFree f.toNat = false}

def allocFrame (p : BootedPmm) : Option (Frame × BootedPmm) :=
  p.toPmm.allocFrame.pmap (p := fun r => r.2.frameBitmapEnd ≤ maxNumFrames)
    (fun r h => (Vmm.frameOf r.1, ⟨r.2, h⟩)) (fun _ h => by
      obtain ⟨f, -, ht⟩ := allocFrame_eq_some h
      rw [ht.stop]
      exact p.window)

def freeFrame (f : Frame) (p : BootedPmm) : BootedPmm :=
  ⟨p.toPmm.freeFrame (Vmm.physOf f), p.window⟩

def addFreeMemory (addr len : Word) (p : BootedPmm) : BootedPmm :=
  ⟨p.toPmm.addFreeMemory addr len, addFreeMemory_stop addr len p.window⟩

theorem toNat_physOf (f : Frame) : (Vmm.physOf f).toNat = f.toNat * frameSize := by
  have hf := f.isLt
  rw [Vmm.physOf, toNat_shiftLeft, toNat_setWidth, Nat.shiftLeft_eq, frameSize]
  omega

theorem allocFrame_takes {p p' : BootedPmm} {f : Frame} (h : p.allocFrame = some (f, p')) :
    p.toPmm.Takes p'.toPmm f.toNat := by
  obtain ⟨⟨phys, q⟩, hq, ha, heq⟩ := pmap_eq_some_iff.mp h
  cases heq
  obtain ⟨g, rfl, ht⟩ := allocFrame_eq_some ha
  have hg : g < maxNumFrames := lt_of_lt_of_le ht.available.2.1 p.window
  have hnum : (Vmm.frameOf (BitVec.ofNat 64 (g * frameSize))).toNat = g := by
    rw [Vmm.frameOf, extractLsb'_toNat, Nat.shiftRight_eq_div_pow, toNat_ofNat]
    have : maxNumFrames = 524288 := rfl
    unfold frameSize
    omega
  rw [hnum]
  exact ht

/-- `pmm` is what the memory manager asks for: it hands out frames that are not in use. -/
instance : FrameAllocator BootedPmm where
  allocFrame := allocFrame
  freeFrame := freeFrame
  allocated := used
  alloc_fresh h hused := by
    have hfree := (allocFrame_takes h).available.2.2
    rw [show _ = false from hused] at hfree
    cases hfree
  alloc_allocated {p p' f} h := by
    ext g
    have heq : g.toNat = f.toNat ↔ g = f := BitVec.toNat_inj
    simp only [used, Set.mem_ofPred_eq, Set.mem_insert_iff, (allocFrame_takes h).isFree]
    cases p.isFrameFree g.toNat <;> simp [heq]
  free_allocated f p := by
    ext g
    have heq : g.toNat = f.toNat ↔ g = f := BitVec.toNat_inj
    simp only [used, freeFrame, Pmm.freeFrame, toNat_physOf, Set.mem_ofPred_eq, Set.mem_sdiff,
      isFrameFree_setFrameFree, Nat.mul_div_cancel _ (show 0 < frameSize by decide)]
    cases p.isFrameFree g.toNat <;> simp [heq]

end BootedPmm

end Hltos
