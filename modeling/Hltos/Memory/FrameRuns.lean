import Hltos.Memory.Pmm

/-!
# Runs of the physical memory manager

The memory map is registered once, by `init_memory`; after that frames are taken and given back.
What `alloc_frame` can return is settled by then: the free frames of the window that the last region
leaves.
-/

namespace Hltos

open Lib.Transition BitVec List Option

/-- A usable entry of the memory map. -/
structure UsableRegion where
  base : Word
  length : Word
  base_aligned : base.toNat % 4096 = 0
  length_aligned : length.toNat % 4096 = 0
  fits : base.toNat + length.toNat ≤ 2 ^ 64

namespace UsableRegion

open Pmm

variable {r : UsableRegion} {f : Nat} {p : Pmm}

/-- The frame lies within the region. -/
def Contains (r : UsableRegion) (f : Nat) : Prop :=
  r.base.toNat ≤ f * 4096 ∧ (f + 1) * 4096 ≤ r.base.toNat + r.length.toNat

instance (r : UsableRegion) : DecidablePred r.Contains := fun _ =>
  inferInstanceAs (Decidable (_ ∧ _))

/-- The region lies below 2 GiB. -/
def Below (r : UsableRegion) : Prop :=
  r.base.toNat < 2 ^ 31 ∧ r.base.toNat + r.length.toNat ≤ 2 ^ 31

/-- No frame lies in both regions. -/
def Disjoint (r r' : UsableRegion) : Prop := ∀ f, r.Contains f → ¬ r'.Contains f

/-- `add_free_memory` ignores the region. -/
def Ignored (r : UsableRegion) : Prop :=
  maxMemoryBytes ≤ r.base + r.length ∧ maxMemoryBytes ≤ r.base

instance (r : UsableRegion) : Decidable r.Ignored := inferInstanceAs (Decidable (_ ∧ _))

/-- The frames that `set_addr_free` goes through, the last one included. -/
def frameStart (r : UsableRegion) : Nat := r.base.toNat / frameSize

def frameEnd (r : UsableRegion) : Nat :=
  if maxMemoryBytes ≤ r.base + r.length then maxNumFrames else (r.base + r.length).toNat / frameSize

/-- Where the window begins once the region is registered. If the region reaches 2 GiB, the write
behind the bitmap has cleared bit 0 of `frame_bitmap_start`. -/
def windowStart (r : UsableRegion) : Nat :=
  if r.frameEnd = maxNumFrames then r.frameStart - r.frameStart % 2 else r.frameStart

/-- A region is registered with the length that is left of it. -/
theorem addFreeMemory_eq (hr : ¬ r.Ignored) :
    ∃ len, p.addFreeMemory r.base r.length = p.register r.base len ∧
    (r.base + len).toNat / frameSize = r.frameEnd := by
  unfold addFreeMemory frameEnd
  by_cases hend : maxMemoryBytes ≤ r.base + r.length
  · rw [if_pos hend, if_pos hend, if_neg (fun hbase => hr ⟨hend, hbase⟩)]
    refine ⟨_, rfl, ?_⟩
    rw [BitVec.add_comm, BitVec.sub_add_cancel]
    rfl
  · rw [if_neg hend, if_neg hend]
    exact ⟨_, rfl, rfl⟩

theorem addFreeMemory_ignored (hr : r.Ignored) : p.addFreeMemory r.base r.length = p := by
  rw [addFreeMemory, if_pos hr.1, if_pos hr.2]

theorem isFrameFree_addFreeMemory (hr : ¬ r.Ignored) :
    (p.addFreeMemory r.base r.length).isFrameFree f =
    ((p.isFrameFree f || decide (r.frameStart ≤ f ∧ f ≤ r.frameEnd)) && decide (f ≠ 0)) := by
  obtain ⟨len, hreg, hend⟩ := addFreeMemory_eq (p := p) hr
  rw [hreg, isFrameFree_register, hend, frameStart]

section

variable (hr : ¬ r.Ignored)

include hr

/-- A region that reaches 2 GiB begins before. -/
theorem frameStart_lt (hend : r.frameEnd = maxNumFrames) : r.frameStart < maxNumFrames := by
  have hmax : maxMemoryBytes.toNat = 2147483648 := rfl
  have hframes : maxNumFrames = 524288 := rfl
  unfold frameEnd at hend
  unfold frameStart
  split at hend
  · next hge =>
    have hbase : ¬ maxMemoryBytes.toNat ≤ r.base.toNat := fun hle => hr ⟨hge, hle⟩
    rw [frameSize]
    omega
  · next hlt =>
    have hlt : ¬ maxMemoryBytes.toNat ≤ (r.base + r.length).toNat := hlt
    rw [frameSize] at hend
    omega

theorem addFreeMemory_window : (p.addFreeMemory r.base r.length).frameBitmapStart = r.windowStart ∧
    (p.addFreeMemory r.base r.length).frameBitmapEnd = r.frameEnd := by
  obtain ⟨len, hreg, hend⟩ := addFreeMemory_eq (p := p) hr
  have hle : r.frameEnd ≤ maxNumFrames := by
    unfold frameEnd
    split
    · exact le_rfl
    · next hlt => exact Nat.div_le_div_right (Nat.lt_of_not_le hlt).le
  rw [hreg, register_stop, register_start p (hend.trans_le hle), hend]
  refine ⟨if_congr ⟨And.right, fun heq => ⟨?_, heq⟩⟩ rfl rfl, rfl⟩
  rw [heq]
  exact (frameStart_lt hr heq).le

/-- Only a region whose end is `2 ^ 64` ends before it starts, in frame 0. -/
theorem frameStart_le (hne : r.frameEnd ≠ 0) : r.frameStart ≤ r.frameEnd := by
  have hfit := r.fits
  by_cases hend : maxMemoryBytes ≤ r.base + r.length
  · have heq : r.frameEnd = maxNumFrames := if_pos hend
    exact (frameStart_lt hr heq).le.trans_eq heq.symm
  · rw [frameEnd, if_neg hend, toNat_add, frameSize] at hne ⊢
    rw [frameStart, frameSize]
    omega

/-- All frames but the last one are frames of the region. -/
theorem contains_of_lt (hle : r.frameStart ≤ f) (hlt : f < r.frameEnd) : r.Contains f := by
  have hmax : maxMemoryBytes.toNat = 2147483648 := rfl
  have hframes : maxNumFrames = 524288 := rfl
  have halign := r.base_aligned
  have hfit := r.fits
  have hlen := r.length.isLt
  rw [frameStart, frameSize] at hle
  unfold frameEnd at hlt
  split at hlt
  · next hge =>
    have hbase : ¬ maxMemoryBytes.toNat ≤ r.base.toNat := fun hle => hr ⟨hge, hle⟩
    have hge : maxMemoryBytes.toNat ≤ (r.base + r.length).toNat := hge
    rw [toNat_add] at hge
    exact ⟨by omega, by omega⟩
  · rw [toNat_add, frameSize] at hlt
    exact ⟨by omega, by omega⟩

end

theorem Below.lt_of_contains (hr : r.Below) (hf : r.Contains f) : f < maxNumFrames := by
  have hmax : maxNumFrames = 524288 := rfl
  obtain ⟨-, hend⟩ := hr
  obtain ⟨-, hlt⟩ := hf
  omega

/-- A region below 2 GiB is not cut off. -/
theorem Below.covers (hr : r.Below) :
    ¬ r.Ignored ∧ (r.Contains f → r.frameStart ≤ f ∧ f < r.frameEnd) := by
  have hmax : maxMemoryBytes.toNat = 2147483648 := rfl
  have hframes : maxNumFrames = 524288 := rfl
  obtain ⟨hbase, hend⟩ := hr
  refine ⟨?_, ?_⟩
  · rintro ⟨-, hge⟩
    have hge : maxMemoryBytes.toNat ≤ r.base.toNat := hge
    omega
  · rintro ⟨hle, hlt⟩
    refine ⟨?_, ?_⟩
    · rw [frameStart, frameSize]
      omega
    · unfold frameEnd
      split
      · omega
      · rw [toNat_add, frameSize]
        omega

end UsableRegion

/-! ## After boot -/

/-- `init_memory`: every usable entry of the memory map is registered. -/
def initMemory (memmap : List UsableRegion) : BootedPmm :=
  memmap.foldl (fun p r => p.addFreeMemory r.base r.length) ⟨Pmm.zeroed.init, by decide⟩

/-- The region that leaves the window. -/
def lastRegion (memmap : List UsableRegion) : Option UsableRegion :=
  (memmap.filter (fun r => ¬ r.Ignored)).getLast?

section Boot

open Pmm UsableRegion

variable {memmap : List UsableRegion} {f : Nat}

theorem initMemory_concat (rs : List UsableRegion) (r : UsableRegion) :
    (initMemory (rs ++ [r])).toPmm = (initMemory rs).toPmm.addFreeMemory r.base r.length := by
  rw [initMemory, foldl_append]
  rfl

/-- The frames that are free after boot: those of all regions, and the one behind each region. -/
theorem isFrameFree_initMemory (memmap : List UsableRegion) (hf : f < maxNumFrames) :
    (initMemory memmap).isFrameFree f = true ↔
      f ≠ 0 ∧ ∃ r ∈ memmap, ¬ r.Ignored ∧ r.frameStart ≤ f ∧ f ≤ r.frameEnd := by
  induction memmap using List.reverseRecOn with
  | nil =>
    have hindex : f / 64 < frameBitmapSize := by
      have hmax : maxNumFrames = 524288 := rfl
      have hsize : frameBitmapSize = 8192 := rfl
      omega
    have hword : (initMemory []).frameBitmap (f / 64) = allOnes 64 := if_pos hindex
    rw [isFrameFree_eq, hword, getLsbD_allOnes]
    simp [Nat.mod_lt]
  | append_singleton rs r ih =>
    rw [initMemory_concat]
    by_cases hr : r.Ignored
    · rw [addFreeMemory_ignored hr, ih]
      simp [hr, or_and_right, exists_or]
    · rw [isFrameFree_addFreeMemory hr, Bool.and_eq_true, Bool.or_eq_true, ih]
      simp only [decide_eq_true_eq, mem_append, mem_singleton, or_and_right,
        exists_or, exists_eq_left, hr, not_false_eq_true, true_and]
      grind

/-- The frame is in the window. -/
def InWindow (memmap : List UsableRegion) (f : Nat) : Prop :=
  ∃ r, lastRegion memmap = some r ∧ r.windowStart ≤ f ∧ f < r.frameEnd

theorem inWindow_iff (memmap : List UsableRegion) : InWindow memmap f ↔
    (initMemory memmap).frameBitmapStart ≤ f ∧ f < (initMemory memmap).frameBitmapEnd := by
  unfold InWindow lastRegion
  induction memmap using List.reverseRecOn with
  | nil => exact ⟨fun ⟨_, hnone, _⟩ => (nomatch hnone), fun h => absurd h.2 (Nat.not_lt_zero f)⟩
  | append_singleton rs r ih =>
    rw [filter_append, initMemory_concat]
    by_cases hr : r.Ignored
    · rw [addFreeMemory_ignored hr, ← ih]
      simp [hr]
    · obtain ⟨hstart, hstop⟩ := addFreeMemory_window (p := (initMemory rs).toPmm) hr
      simp [hr, hstart, hstop]

/-- What `alloc_frame` can return after boot. -/
theorem available_initMemory : (initMemory memmap).toPmm.Available f ↔ InWindow memmap f ∧
    f ≠ 0 ∧ ∃ r ∈ memmap, ¬ r.Ignored ∧ r.frameStart ≤ f ∧ f ≤ r.frameEnd := by
  rw [inWindow_iff, Available]
  constructor
  · rintro ⟨hle, hlt, hfree⟩
    exact ⟨⟨hle, hlt⟩,
      (isFrameFree_initMemory memmap (hlt.trans_le (initMemory memmap).window)).mp hfree⟩
  · rintro ⟨⟨hle, hlt⟩, hfree⟩
    exact ⟨hle, hlt,
      (isFrameFree_initMemory memmap (hlt.trans_le (initMemory memmap).window)).mpr hfree⟩

end Boot

/-! ## The system -/

/-- The manager, and the addresses of the frames that are allocated. -/
structure FrameRun where
  pmm : Pmm
  live : List Word

inductive FrameOp
  | allocFrame
  | freeFrame (phys : Word)
deriving DecidableEq

namespace FrameRun

open Pmm

def next : FrameOp → FrameRun → Option FrameRun
  | .allocFrame, st => st.pmm.allocFrame.map (fun (phys, p) => ⟨p, phys :: st.live⟩)
  | .freeFrame phys, st =>
    if phys ∈ st.live then some ⟨st.pmm.freeFrame phys, st.live.erase phys⟩ else none

/-- The runs after a memory map has been registered. -/
def system (memmap : List UsableRegion) : System FrameRun FrameOp where
  init st := st = ⟨(initMemory memmap).toPmm, []⟩
  next := next

variable {memmap : List UsableRegion} {st st' : FrameRun} {f g : Nat} {p : Pmm} {boot : BootedPmm}
  {ok : FrameOp → FrameRun → Prop}

theorem next_allocFrame {phys : Word} (h : st.pmm.allocFrame = some (phys, p)) :
    next .allocFrame st = some ⟨p, phys :: st.live⟩ := by
  rw [next, h]
  rfl

/-- The address of a frame. -/
def frameAddr (f : Nat) : Word := BitVec.ofNat 64 (f * frameSize)

section

variable (hf : f < maxNumFrames)

include hf

theorem toNat_frameAddr : (frameAddr f).toNat = f * 4096 := by
  have hmax : maxNumFrames = 524288 := rfl
  rw [frameAddr, toNat_ofNat, frameSize]
  omega

theorem frameAddr_div : (frameAddr f).toNat / 4096 = f := by
  rw [toNat_frameAddr hf, Nat.mul_div_cancel f (by decide)]

theorem frameAddr_inj (hg : g < maxNumFrames) (h : frameAddr f = frameAddr g) : f = g := by
  rw [← frameAddr_div hf, h, frameAddr_div hg]

theorem freeFrame_frameAddr : p.freeFrame (frameAddr f) = p.setFrameFree f := by
  rw [freeFrame, frameSize, frameAddr_div hf]

theorem isFrameFree_freeFrame :
    (p.freeFrame (frameAddr f)).isFrameFree g = (p.isFrameFree g || decide (g = f)) := by
  rw [freeFrame_frameAddr hf, isFrameFree_setFrameFree]

theorem freeFrame_start : (p.freeFrame (frameAddr f)).frameBitmapStart = p.frameBitmapStart := by
  rw [freeFrame_frameAddr hf, setFrameFree_start hf]

end

/-! ## What is handed out -/

/-- Since boot the window has only lost frames, and those that are allocated are behind it. -/
structure Since (boot : BootedPmm) (st : FrameRun) : Prop where
  stop : st.pmm.frameBitmapEnd = boot.frameBitmapEnd
  ahead : ∀ f, st.pmm.Available f → boot.toPmm.Available f
  live : ∀ phys ∈ st.live, ∃ f, phys = frameAddr f ∧ boot.toPmm.Available f ∧
    f < st.pmm.frameBitmapStart
  nodup : st.live.Nodup

theorem available_lt (h : boot.toPmm.Available f) : f < maxNumFrames := h.2.1.trans_le boot.window

/-- The frame that `alloc_frame` takes. -/
theorem Since.takes {phys : Word} (hs : Since boot st) (h : st.pmm.allocFrame = some (phys, p)) :
    ∃ f, phys = frameAddr f ∧ st.pmm.Takes p f ∧ boot.toPmm.Available f ∧ phys ∉ st.live := by
  obtain ⟨f, rfl, ht⟩ := allocFrame_eq_some h
  have hf := hs.ahead f ht.available
  refine ⟨f, rfl, ht, hf, fun hlive => ?_⟩
  obtain ⟨g, heq, hg, hlt⟩ := hs.live _ hlive
  have hle := ht.available.1
  rw [frameAddr_inj (available_lt hf) (available_lt hg) heq] at hle
  omega

/-- One call: the window loses frames, and what it loses is live once. -/
theorem Since.next {op : FrameOp} (hs : Since boot st) (h : next op st = some st') :
    Since boot st' := by
  cases op with
  | allocFrame =>
    obtain ⟨⟨phys, p⟩, ha, rfl⟩ := map_eq_some_iff.mp h
    obtain ⟨f, rfl, ht, hf, hnew⟩ := hs.takes ha
    have hle := ht.available.1
    refine ⟨ht.stop.trans hs.stop, ?_, ?_, nodup_cons.mpr ⟨hnew, hs.nodup⟩⟩
    · rintro g ⟨hg, hlt, hfree⟩
      rw [ht.start] at hg
      rw [ht.stop] at hlt
      rw [ht.isFree, Bool.and_eq_true] at hfree
      exact hs.ahead g ⟨by omega, hlt, hfree.1⟩
    · intro phys hphys
      rw [ht.start]
      rcases mem_cons.mp hphys with rfl | hphys
      · exact ⟨f, rfl, hf, by omega⟩
      · obtain ⟨g, hg, hav, hlt⟩ := hs.live phys hphys
        exact ⟨g, hg, hav, by omega⟩
  | freeFrame phys =>
    obtain ⟨hlive, h⟩ := ite_none_right_eq_some.mp h
    cases h
    obtain ⟨f, rfl, hav, hlt⟩ := hs.live phys hlive
    have hstart := freeFrame_start (p := st.pmm) (available_lt hav)
    refine ⟨hs.stop, ?_, fun phys hphys => ?_, hs.nodup.erase _⟩
    · -- the frame that is freed is behind the window
      rintro g ⟨hg, hstop, hfree⟩
      rw [hstart] at hg
      rw [isFrameFree_freeFrame (available_lt hav), Bool.or_eq_true, decide_eq_true_eq] at hfree
      exact hs.ahead g ⟨hg, hstop, hfree.resolve_right (by omega)⟩
    · rw [hstart]
      exact hs.live phys (mem_of_mem_erase hphys)

theorem since_of_reachable (h : (system memmap).ReachableUnder ok st) :
    Since (initMemory memmap) st := by
  apply h.invariant
  · rintro _ rfl
    exact ⟨rfl, fun f hf => hf, by simp, nodup_nil⟩
  · exact fun s s' op hs _ hn => hs.next hn

/-- An available frame is returned once the available frames before it have been. -/
theorem returned_of_available (memmap : List UsableRegion) (hav : st.pmm.Available f) :
    ∃ n st' p, (system memmap).exec (List.replicate n .allocFrame) st = some st' ∧
      st'.pmm.allocFrame = some (frameAddr f, p) := by
  -- the window starts closer to the frame after every call
  induction hd : f - st.pmm.frameBitmapStart using Nat.strong_induction_on generalizing st with
  | _ d ih =>
    cases ha : st.pmm.allocFrame with
    | none => exact absurd hav (allocFrame_eq_none.mp ha f)
    | some r =>
      obtain ⟨phys, p⟩ := r
      obtain ⟨g, rfl, ht⟩ := allocFrame_eq_some ha
      by_cases hfg : f = g
      · exact ⟨0, st, p, rfl, by rw [ha, hfg]; rfl⟩
      · have hav' := hav.of_takes ht hfg
        have hstart := ht.start
        have h1 := ht.available.1
        have h2 := hav'.1
        obtain ⟨n, st', p', hexec, hret⟩ := ih (f - p.frameBitmapStart) (by omega)
          (show (FrameRun.mk p (frameAddr g :: st.live)).pmm.Available f from hav') rfl
        refine ⟨n + 1, st', p', ?_, hret⟩
        show (next .allocFrame st).bind _ = _
        rw [next_allocFrame ha]
        exact hexec

/-! ## Soundness -/

/-- The frame before the last region, if that begins in an odd frame and reaches 2 GiB, and a region
ends where the frame begins. -/
def Strays (memmap : List UsableRegion) (f : Nat) : Prop :=
  f ≠ 0 ∧ f % 2 = 0 ∧
    (∃ r, lastRegion memmap = some r ∧ r.frameEnd = maxNumFrames ∧ r.frameStart = f + 1) ∧
    ∃ r ∈ memmap, ¬ r.Ignored ∧ r.frameEnd = f

theorem mem_of_lastRegion {r : UsableRegion} (h : lastRegion memmap = some r) :
    r ∈ memmap ∧ ¬ r.Ignored := by
  simpa using mem_filter.mp (mem_of_getLast? h)

/-- Every frame that can be handed out is in a region, except for that one. -/
theorem contains_or_strays (h : (initMemory memmap).toPmm.Available f) :
    (∃ r ∈ memmap, r.Contains f) ∨ Strays memmap f := by
  obtain ⟨⟨r, hlast, hle, hlt⟩, hne, r', hr', hnot', hle', hend'⟩ := available_initMemory.mp h
  obtain ⟨hr, hnot⟩ := mem_of_lastRegion hlast
  by_cases hin : r.frameStart ≤ f
  · exact .inl ⟨r, hr, UsableRegion.contains_of_lt hnot hin hlt⟩
  · unfold UsableRegion.windowStart at hle
    split at hle
    · next hmax =>
      rcases Nat.lt_or_eq_of_le hend' with hlt' | heq
      · exact .inl ⟨r', hr', UsableRegion.contains_of_lt hnot' hle' hlt'⟩
      · exact .inr ⟨hne, by omega, ⟨r, hlast, hmax, by omega⟩, r', hr', hnot', heq.symm⟩
    · exact absurd hle hin

theorem Strays.available (h : Strays memmap f) : (initMemory memmap).toPmm.Available f := by
  obtain ⟨hne, heven, ⟨r, hlast, hmax, hstart⟩, r', hr', hnot', hend'⟩ := h
  have hlt := UsableRegion.frameStart_lt (mem_of_lastRegion hlast).2 hmax
  have hle := UsableRegion.frameStart_le hnot' (hend' ▸ hne)
  refine available_initMemory.mpr ⟨⟨r, hlast, ?_, by omega⟩, hne, r', hr', hnot',
    hle.trans_eq hend', hend'.ge⟩
  rw [UsableRegion.windowStart, if_pos hmax]
  omega

/-- **Soundness of `alloc_frame`.** What it returns is a frame of a registered region, below 2 GiB,
other than frame 0, that is not allocated: in every run exactly if a frame that strays is in a
region anyway. The regions may even overlap. -/
theorem allocFrame_sound_iff (memmap : List UsableRegion) :
    (∀ st, (system memmap).Reachable st → ∀ phys p, st.pmm.allocFrame = some (phys, p) →
      (∃ r ∈ memmap, r.base.toNat ≤ phys.toNat ∧
        phys.toNat + 4096 ≤ r.base.toNat + r.length.toNat) ∧
      phys.toNat + 4096 ≤ 2 ^ 31 ∧ phys.toNat / 4096 ≠ 0 ∧ phys ∉ st.live) ↔
    ∀ f, Strays memmap f → ∃ r ∈ memmap, r.Contains f := by
  have hmax : maxNumFrames = 524288 := rfl
  constructor
  · intro h f hf
    have hav := hf.available
    have hnat := toNat_frameAddr (available_lt hav)
    obtain ⟨n, st, p, hexec, hret⟩ := returned_of_available memmap
      (show (FrameRun.mk (initMemory memmap).toPmm []).pmm.Available f from hav)
    obtain ⟨⟨r, hr, hle, hend⟩, -⟩ := h st (.of_exec (.start rfl) hexec) _ p hret
    rw [hnat] at hle hend
    exact ⟨r, hr, hle, by omega⟩
  · intro h st hst phys p ha
    obtain ⟨f, rfl, -, hav, hnew⟩ := (since_of_reachable hst).takes ha
    have hf := available_lt hav
    have hne := (available_initMemory.mp hav).2.1
    obtain ⟨r, hr, hle, hend⟩ := (contains_or_strays hav).elim id (h f)
    rw [toNat_frameAddr hf]
    exact ⟨⟨r, hr, hle, by omega⟩, by omega, by omega, hnew⟩

/-- The last but two and the last frame below 2 GiB. -/
def apartRegions : List UsableRegion :=
  [⟨0x7FFFD000, 0x1000, by decide, by decide, by decide⟩,
    ⟨0x7FFFF000, 0x1000, by decide, by decide, by decide⟩]

/-- The first frame that is returned is the one between them. -/
theorem apartRegions_strays : ∃ st p, (system apartRegions).Reachable st ∧
    st.pmm.allocFrame = some (0x7FFFE000, p) ∧ ∀ r ∈ apartRegions, ¬ r.Contains 0x7FFFE := by
  have hrun : ((initMemory apartRegions).toPmm.allocFrame.map Prod.fst) = some 0x7FFFE000 := by
    decide +kernel
  obtain ⟨⟨phys, p⟩, ha, rfl⟩ := map_eq_some_iff.mp hrun
  exact ⟨⟨(initMemory apartRegions).toPmm, []⟩, p, .start rfl, ha, by decide⟩

/-! ## Exhaustion -/

/-- A frame that the memory map makes available. Frame 0 stays in use. -/
def Registered (memmap : List UsableRegion) (f : Nat) : Prop :=
  f ≠ 0 ∧ ∃ r ∈ memmap, r.Contains f

instance (memmap : List UsableRegion) : DecidablePred (Registered memmap) :=
  fun _ => inferInstanceAs (Decidable (_ ∧ _))

/-- The frames that are registered. The set is never evaluated. -/
@[irreducible] def registeredFrames (memmap : List UsableRegion) : Finset Nat :=
  (Finset.range maxNumFrames).filter (Registered memmap)

/-- The frames that are registered and not allocated. -/
@[irreducible] def availableFrames (memmap : List UsableRegion) (st : FrameRun) : Finset Nat :=
  (Finset.range maxNumFrames).filter (fun f => Registered memmap f ∧ frameAddr f ∉ st.live)

/-- `alloc_frame` panics only when every registered frame is allocated, and every frame that is not
allocated is returned by a later call. -/
structure Reuses (memmap : List UsableRegion) (st : FrameRun) : Prop where
  panics : st.pmm.allocFrame = none → ∀ f, Registered memmap f → frameAddr f ∈ st.live
  returns : ∀ f, Registered memmap f → frameAddr f ∉ st.live →
    ∃ n st' p, (system memmap).exec (List.replicate n .allocFrame) st = some st' ∧
      st'.pmm.allocFrame = some (frameAddr f, p)

/-- Every registered frame is allocated or still ahead in the window. -/
def Ahead (memmap : List UsableRegion) (st : FrameRun) : Prop :=
  ∀ f, Registered memmap f → frameAddr f ∈ st.live ∨ st.pmm.Available f

theorem Ahead.allocFrame (ha : Ahead memmap st) (h : next .allocFrame st = some st') :
    Ahead memmap st' := by
  obtain ⟨⟨phys, p⟩, halloc, rfl⟩ := map_eq_some_iff.mp h
  obtain ⟨f, rfl, ht⟩ := allocFrame_eq_some halloc
  intro g hg
  rcases ha g hg with hlive | hav
  · exact Or.inl (mem_cons_of_mem _ hlive)
  · by_cases hgf : g = f
    · exact Or.inl (hgf ▸ mem_cons_self)
    · exact Or.inr (hav.of_takes ht hgf)

theorem Ahead.reuses (ha : Ahead memmap st) : Reuses memmap st where
  panics hnone f hf := (ha f hf).resolve_right (allocFrame_eq_none.mp hnone f)
  returns f hf hlive := returned_of_available _ ((ha f hf).resolve_left hlive)

/-- Allocating until `alloc_frame` panics. -/
theorem exhausted (hok : ∀ st, ok .allocFrame st) (h : (system memmap).ReachableUnder ok st) :
    ∃ st', (system memmap).ReachableUnder ok st' ∧ st'.pmm.allocFrame = none := by
  induction hd : st.pmm.frameBitmapEnd - st.pmm.frameBitmapStart using Nat.strong_induction_on
    generalizing st with
  | _ d ih =>
    cases ha : st.pmm.allocFrame with
    | none => exact ⟨st, h, ha⟩
    | some r =>
      obtain ⟨phys, p⟩ := r
      obtain ⟨f, rfl, ht⟩ := allocFrame_eq_some ha
      have hle := ht.available.1
      have hlt := ht.available.2.1
      apply ih _ _ (h.tail (hok st) (next_allocFrame ha)) rfl
      rw [ht.start, ht.stop]
      omega

section Reuse

variable (hbelow : ∀ r ∈ memmap, r.Below)

include hbelow

theorem Registered.lt (hf : Registered memmap f) : f < maxNumFrames := by
  obtain ⟨-, r, hr, hin⟩ := hf
  exact (hbelow r hr).lt_of_contains hin

/-- A registered frame of the window can be handed out. -/
theorem Registered.available (hf : Registered memmap f) (hw : InWindow memmap f) :
    (initMemory memmap).toPmm.Available f := by
  obtain ⟨hne, r, hr, hin⟩ := hf
  obtain ⟨hnot, hcovers⟩ := (hbelow r hr).covers (f := f)
  exact available_initMemory.mpr ⟨hw, hne, r, hr, hnot, (hcovers hin).1, (hcovers hin).2.le⟩

/-- A registered frame that is allocated is one of the window. -/
theorem Registered.inWindow (hf : Registered memmap f) (hs : Since (initMemory memmap) st)
    (hlive : frameAddr f ∈ st.live) : InWindow memmap f := by
  obtain ⟨g, heq, hav, -⟩ := hs.live _ hlive
  cases frameAddr_inj (hf.lt hbelow) (available_lt hav) heq
  exact (available_initMemory.mp hav).1

/-- Where all registered frames are in the window, and none is given back. -/
theorem ahead_of_inWindow (hwindow : ∀ f, Registered memmap f → InWindow memmap f)
    (h : (system memmap).ReachableUnder (fun op _ => op = .allocFrame) st) : Ahead memmap st := by
  apply h.invariant
  · rintro _ rfl f hf
    exact .inr (hf.available hbelow (hwindow f hf))
  · rintro s s' op hs rfl hn
    exact hs.allocFrame hn

omit hbelow in
/-- A frame that is given back is behind the window, so that `alloc_frame` panics all the same. -/
theorem not_reuses_of_free (hs : Since (initMemory memmap) st) (hnone : st.pmm.allocFrame = none)
    (hf : Registered memmap f) (hlive : frameAddr f ∈ st.live) :
    ¬ Reuses memmap ⟨st.pmm.freeFrame (frameAddr f), st.live.erase (frameAddr f)⟩ := by
  obtain ⟨g, heq, hav, hlt⟩ := hs.live _ hlive
  have hg := available_lt hav
  intro hre
  refine absurd (hre.panics ?_ f hf) hs.nodup.not_mem_erase
  rw [allocFrame_eq_none] at hnone ⊢
  rintro k ⟨hk, hstop, hfree⟩
  rw [heq, freeFrame_start hg] at hk
  rw [heq, isFrameFree_freeFrame hg, Bool.or_eq_true, decide_eq_true_eq] at hfree
  rcases hfree with hfree | rfl
  · exact hnone k ⟨hk, hstop, hfree⟩
  · omega

end Reuse

/-- **Memory is reused until it is exhausted** exactly when all of it (frame 0 apart) is in the
window that the last region leaves, and nothing is ever given back. `frees` says whether
`free_frame` may be called. -/
theorem reuses_iff_window_unfreed {frees : Bool} (hbelow : ∀ r ∈ memmap, r.Below) :
    (∀ st, (system memmap).ReachableUnder (fun op _ => frees = true ∨ op = .allocFrame) st →
      Reuses memmap st) ↔
    (∀ f, Registered memmap f → InWindow memmap f) ∧
    (frees = true → ∀ f, ¬ Registered memmap f) := by
  constructor
  · intro h
    have hstart : (system memmap).ReachableUnder (fun op _ => frees = true ∨ op = .allocFrame)
        ⟨(initMemory memmap).toPmm, []⟩ := .start rfl
    obtain ⟨st, hst, hnone⟩ := exhausted (fun _ => .inr rfl) hstart
    have hs := since_of_reachable hst
    have hlive := (h st hst).panics hnone
    refine ⟨fun f hf => hf.inWindow hbelow hs (hlive f hf), fun hfrees f hf => ?_⟩
    refine not_reuses_of_free hs hnone hf (hlive f hf) (h _ ?_)
    exact .tail (l := .freeFrame (frameAddr f)) hst (.inl hfrees) (if_pos (hlive f hf))
  · rintro ⟨hwindow, hfrees⟩ st hst
    cases frees with
    | true => exact Ahead.reuses fun f hf => absurd hf (hfrees rfl f)
    | false =>
      exact (ahead_of_inWindow hbelow hwindow (hst.mono fun _ _ hop => by simpa using hop)).reuses

/-- Frames 1 and 2. -/
def lowRegion : UsableRegion := ⟨0x1000, 0x2000, by decide, by decide, by decide⟩

/-- Frames 1 and 2, and frames 5 and 6. -/
def twoRegions : List UsableRegion :=
  [lowRegion, ⟨0x5000, 0x2000, by decide, by decide, by decide⟩]

/-- Frame 5 is taken and given back, and frame 6 is taken. -/
def freedRun : Option FrameRun :=
  (system twoRegions).exec [.allocFrame, .freeFrame 0x5000, .allocFrame]
    ⟨(initMemory twoRegions).toPmm, []⟩

/-- Then `alloc_frame` panics, with frame 6 alone in use. -/
theorem freedRun_panics : ∃ st, (system twoRegions).Reachable st ∧ st.pmm.allocFrame = none ∧
    (Registered twoRegions 1 ∧ frameAddr 1 ∉ st.live) ∧
    (Registered twoRegions 5 ∧ frameAddr 5 ∉ st.live) := by
  have hrun : freedRun.map (fun st => (st.pmm.allocFrame.isNone, st.live)) =
      some (true, [0x6000]) := by decide
  obtain ⟨st, hst, heq⟩ := map_eq_some_iff.mp hrun
  obtain ⟨hnone, hlive⟩ := Prod.mk.inj heq
  refine ⟨st, .of_exec (.start rfl) hst, isNone_iff_eq_none.mp hnone, ⟨?_, ?_⟩, ⟨?_, ?_⟩⟩
  · exact ⟨by decide, _, mem_cons_self, by decide, by decide⟩
  · rw [hlive]; decide
  · exact ⟨by decide, _, mem_cons_of_mem _ mem_cons_self, by decide, by decide⟩
  · rw [hlive]; decide

/-- The last two frames below 2 GiB, each a region. The window begins with the first of them. -/
def topRegions : List UsableRegion :=
  [⟨0x7FFFE000, 0x1000, by decide, by decide, by decide⟩,
    ⟨0x7FFFF000, 0x1000, by decide, by decide, by decide⟩]

theorem topRegions_inWindow (h : Registered topRegions f) : InWindow topRegions f := by
  have hwindow : (initMemory topRegions).frameBitmapStart = 524286 ∧
      (initMemory topRegions).frameBitmapEnd = 524288 := by decide +kernel
  have hbase : (0x7FFFE000 : Word).toNat = 2147475456 ∧ (0x7FFFF000 : Word).toNat = 2147479552 ∧
      (0x1000 : Word).toNat = 4096 := by decide
  obtain ⟨-, r, hr, hle, hlt⟩ := h
  rw [inWindow_iff, hwindow.1, hwindow.2]
  rcases mem_cons.mp hr with rfl | hr
  · dsimp only at hle hlt
    omega
  · cases mem_singleton.mp hr
    dsimp only at hle hlt
    omega

/-- Both are handed out if nothing is given back. -/
theorem topRegions_reuses :
    ∃ st, (system topRegions).ReachableUnder (fun op _ => false = true ∨ op = .allocFrame) st ∧
      st.live = [0x7FFFE000] ∧ Reuses topRegions st := by
  have hrun : ((system topRegions).execUnder (fun op _ => false = true ∨ op = .allocFrame)
      [.allocFrame] ⟨(initMemory topRegions).toPmm, []⟩).map (·.live) = some [0x7FFFE000] := by
        decide +kernel
  obtain ⟨st, hst, hlive⟩ := map_eq_some_iff.mp hrun
  have hreach := System.ReachableUnder.of_execUnder (.start rfl) hst
  refine ⟨st, hreach, hlive,
    (reuses_iff_window_unfreed ?_).mpr ⟨fun _ => topRegions_inWindow, by simp⟩ st hreach⟩
  rintro r hr
  rcases mem_cons.mp hr with rfl | hr
  · exact ⟨by decide, by decide⟩
  · cases mem_singleton.mp hr
    exact ⟨by decide, by decide⟩

end FrameRun

end Hltos
