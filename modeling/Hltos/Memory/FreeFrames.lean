import Hltos.Memory.FrameRuns

/-!
# What registering a region does to the bitmap and to the counter

`add_free_memory` adds the running total of frames to the counter of free frames, and
`set_addr_free` counts every frame once more. The loop of `set_addr_free` includes the frame behind
the region, which for a region that ends at 2 GiB has no bit in the bitmap.
-/

namespace Hltos

open Lib.Transition List

/-! ## The counter -/

namespace UsableRegion

variable {r : UsableRegion} {f : Nat}

def numFrames (r : UsableRegion) : Nat := r.length.toNat / 4096

/-- The frames of a region. -/
def frames (r : UsableRegion) : Finset Nat :=
  Finset.Ico (r.base.toNat / 4096) (r.base.toNat / 4096 + r.numFrames)

theorem mem_frames : f ∈ r.frames ↔ r.Contains f := by
  have hbase := r.base_aligned
  have hlength := r.length_aligned
  rw [frames, numFrames, Finset.mem_Ico, Contains]
  constructor
  · rintro ⟨hle, hlt⟩
    exact ⟨by omega, by omega⟩
  · rintro ⟨hle, hlt⟩
    exact ⟨by omega, by omega⟩

theorem card_frames : r.frames.card = r.numFrames := by
  rw [frames, Nat.card_Ico, Nat.add_sub_cancel_left]

end UsableRegion

namespace FrameRun

open Pmm

variable {memmap rs : List UsableRegion} {r : UsableRegion} {st st' : FrameRun} {f : Nat} {p : Pmm}

/-- What the calls of `add_free_memory` count too much: each adds the frames of all regions up to
its own, and one more for each region. -/
def excess : Nat → List UsableRegion → Nat
  | _, [] => 0
  | total, r :: rs => (total + (r.numFrames + 1)) + excess (total + (r.numFrames + 1)) rs

/-- What `get_free_frames` is too high by. `set_frame_used(0)` only makes up for the frame behind
the region. -/
def overcount (memmap : List UsableRegion) : Nat :=
  excess 0 memmap + if ∃ r ∈ memmap, r.Contains 0 then 1 else 0

theorem freeFrames_setFramesFree {n : Nat} :
    (p.setFramesFree n f).freeFrames = p.freeFrames + .ofNat 64 n ∧
      (p.setFramesFree n f).totalFrames = p.totalFrames := by
  induction n generalizing f p with
  | zero => exact ⟨(BitVec.add_zero _).symm, rfl⟩
  | succ n ih =>
    obtain ⟨hfree, htotal⟩ := ih (f := f + 1) (p := p.setFrameFree f)
    refine ⟨?_, htotal⟩
    rw [setFramesFree, hfree, setFrameFree, BitVec.add_assoc]
    congr 1
    rw [BitVec.ofNat_add, BitVec.add_comm]
    rfl

/-- A region below 2 GiB is registered as it is. -/
theorem addFreeMemory_below (hr : r.Below) :
    p.addFreeMemory r.base r.length = p.register r.base r.length := by
  obtain ⟨hbase, hend⟩ := hr
  have hmax : maxMemoryBytes.toNat = 2 ^ 31 := rfl
  unfold addFreeMemory
  split
  · next hge =>
    have hge : maxMemoryBytes.toNat ≤ (r.base + r.length).toNat := hge
    have hlt : ¬ maxMemoryBytes ≤ r.base := fun hle => by
      have hle : maxMemoryBytes.toNat ≤ r.base.toNat := hle
      omega
    have hlen : maxMemoryBytes - r.base = r.length := by
      apply BitVec.eq_of_toNat_eq
      rw [BitVec.toNat_add] at hge
      rw [BitVec.toNat_sub_of_le (show r.base.toNat ≤ maxMemoryBytes.toNat by omega)]
      omega
    rw [if_neg hlt, hlen]
  · rfl

/-- A region counts one frame too many, and the total so far as free once more. -/
theorem freeFrames_register {total : Nat} (hr : r.Below)
    (htotal : p.totalFrames = BitVec.ofNat 64 total) :
    (p.register r.base r.length).totalFrames = .ofNat 64 (total + (r.numFrames + 1)) ∧
      (p.register r.base r.length).freeFrames =
        p.freeFrames + .ofNat 64 (total + (r.numFrames + 1) + r.numFrames) := by
  obtain ⟨hbase, hend⟩ := hr
  have hloop : (r.base + r.length).toNat / frameSize + 1 - r.base.toNat / frameSize =
      r.numFrames + 1 := by
    have halign := r.base_aligned
    rw [BitVec.toNat_add, UsableRegion.numFrames, frameSize]
    omega
  have hlen : r.length / 4096 + 1 = .ofNat 64 (r.numFrames + 1) := by
    apply BitVec.eq_of_toNat_eq
    have hlt := r.length.isLt
    rfl
  have hsum : p.totalFrames + (r.length / 4096 + 1) = .ofNat 64 (total + (r.numFrames + 1)) := by
    rw [hlen, htotal, BitVec.ofNat_add total]
  obtain ⟨hfree, htotal'⟩ :=
    freeFrames_setFramesFree (f := r.base.toNat / frameSize) (n := r.numFrames + 1)
    (p := { p with
      totalMemory := p.totalMemory + r.length
      totalFrames := p.totalFrames + (r.length / 4096 + 1)
      freeFrames := p.freeFrames + (p.totalFrames + (r.length / 4096 + 1))
      frameBitmapStart := r.base.toNat / frameSize
      frameBitmapEnd := (r.base + r.length).toNat / frameSize })
  constructor
  · rw [register, setAddrFree, hloop]
    exact htotal'.trans hsum
  · rw [register, setAddrFree, hloop]
    refine (congrArg (· - 1) hfree).trans ?_
    rw [hsum, BitVec.ofNat_add r.numFrames 1, BitVec.ofNat_add _ r.numFrames,
      ← BitVec.add_assoc, ← BitVec.add_assoc]
    exact BitVec.add_sub_cancel _ _

/-- The counter after boot. -/
theorem freeFrames_initMemory (hbelow : ∀ r ∈ memmap, r.Below) :
    (initMemory memmap).freeFrames = .ofNat 64
    (excess 0 memmap + (memmap.map UsableRegion.numFrames).sum) := by
  -- over the regions that are still to be registered
  suffices h : ∀ (rs : List UsableRegion) (p : BootedPmm) (total : Nat), (∀ r ∈ rs, r.Below) →
      p.totalFrames = .ofNat 64 total →
      (rs.foldl (fun p r => p.addFreeMemory r.base r.length) p).freeFrames =
        p.freeFrames + .ofNat 64 (excess total rs + (rs.map UsableRegion.numFrames).sum) by
    refine (h memmap _ 0 hbelow rfl).trans ?_
    exact BitVec.zero_add _
  intro rs
  induction rs with
  | nil => exact fun p total _ _ => (BitVec.add_zero _).symm
  | cons r rs ih =>
    intro p total hrs htotal
    obtain ⟨htotal', hfree⟩ := freeFrames_register (hrs r List.mem_cons_self) htotal
    have hstep : (p.addFreeMemory r.base r.length).toPmm = p.toPmm.register r.base r.length :=
      addFreeMemory_below (hrs r mem_cons_self)
    rw [foldl_cons, ih _ (total + (r.numFrames + 1)) (fun r' hr' => hrs r' (mem_cons_of_mem _ hr'))
      (by rw [hstep]; exact htotal'), hstep, hfree, excess, map_cons, sum_cons, BitVec.add_assoc,
      ← BitVec.ofNat_add]
    congr 2
    omega

/-- From then on the counter is right about the changes. -/
theorem freeFrames_reachable (h : (system memmap).Reachable st) :
    st.pmm.freeFrames + .ofNat 64 st.live.length = (initMemory memmap).freeFrames := by
  refine h.invariant (I := fun st => st.pmm.freeFrames + .ofNat 64 st.live.length =
    (initMemory memmap).freeFrames)
    ?_ ?_
  · rintro _ rfl
    exact BitVec.add_zero _
  · intro s s' op hs hn
    cases op with
    | allocFrame =>
      obtain ⟨⟨phys, p⟩, ha, rfl⟩ := Option.map_eq_some_iff.mp hn
      obtain ⟨g, -, ha⟩ := of_bind ha
      cases ha
      rw [← hs, length_cons, BitVec.ofNat_add]
      show s.pmm.freeFrames - 1 + (.ofNat 64 s.live.length + 1) = _
      rw [BitVec.add_comm (.ofNat 64 s.live.length) 1, ← BitVec.add_assoc, BitVec.sub_add_cancel]
    | freeFrame phys =>
      obtain ⟨hlive, hn⟩ := Option.ite_none_right_eq_some.mp hn
      cases hn
      rw [← hs]
      show s.pmm.freeFrames + 1 + .ofNat 64 (s.live.erase phys).length = _
      have hlen := length_erase_add_one hlive
      rw [← hlen, BitVec.add_assoc, BitVec.ofNat_add, BitVec.add_comm 1]
      rfl

/-! ### The frames there are -/

/-- The frames of all regions. -/
@[irreducible] def regionFrames (memmap : List UsableRegion) : Finset Nat :=
  (Finset.range maxNumFrames).filter (fun f => ∃ r ∈ memmap, r.Contains f)

section

variable (hbelow : ∀ r ∈ memmap, r.Below) (hdisj : memmap.Pairwise UsableRegion.Disjoint)

include hbelow hdisj

/-- Disjoint regions below 2 GiB have as many frames as they say. -/
theorem card_regionFrames :
    (regionFrames memmap).card = (memmap.map UsableRegion.numFrames).sum := by
  induction memmap with
  | nil => simp [regionFrames]
  | cons r rs ih =>
    obtain ⟨hr, hrs⟩ := pairwise_cons.mp hdisj
    have hunion : regionFrames (r :: rs) = r.frames ∪ regionFrames rs := by
      ext f
      simp only [regionFrames, Finset.mem_filter, Finset.mem_range, Finset.mem_union,
        UsableRegion.mem_frames, exists_mem_cons_iff]
      constructor
      · rintro ⟨hf, hin | hin⟩
        · exact .inl hin
        · exact .inr ⟨hf, hin⟩
      · rintro (hin | ⟨hf, hin⟩)
        · exact ⟨(hbelow r mem_cons_self).lt_of_contains hin, .inl hin⟩
        · exact ⟨hf, .inr hin⟩
    have hapart : Disjoint r.frames (regionFrames rs) := by
      rw [Finset.disjoint_left]
      intro f hf hin
      rw [regionFrames] at hin
      obtain ⟨r', hr', hin⟩ := (Finset.mem_filter.mp hin).2
      exact hr r' hr' f (UsableRegion.mem_frames.mp hf) hin
    rw [hunion, Finset.card_union_of_disjoint hapart, UsableRegion.card_frames, map_cons, sum_cons,
      ih (fun r' hr' => hbelow r' (mem_cons_of_mem _ hr')) hrs]

theorem card_registered : (registeredFrames memmap).card +
      (if ∃ r ∈ memmap, r.Contains 0 then 1 else 0) = (memmap.map UsableRegion.numFrames).sum := by
  have herase : registeredFrames memmap = (regionFrames memmap).erase 0 := by
    ext f
    rw [registeredFrames, Finset.mem_filter, Finset.mem_erase, regionFrames, Finset.mem_filter]
    exact and_left_comm
  have hmax : 0 ∈ Finset.range maxNumFrames := by
    rw [Finset.mem_range, show maxNumFrames = 524288 from rfl]
    omega
  have hzero : 0 ∈ regionFrames memmap ↔ ∃ r ∈ memmap, r.Contains 0 := by
    rw [regionFrames, Finset.mem_filter]
    exact and_iff_right hmax
  rw [herase, ← card_regionFrames hbelow hdisj]
  split
  · next h => exact Finset.card_erase_add_one (hzero.mpr h)
  · next h => rw [Finset.erase_eq_of_notMem (fun hin => h (hzero.mp hin)), Nat.add_zero]

end

/-- The frames that are allocated and lie in no region, if there is one. -/
def strayed (memmap : List UsableRegion) (st : FrameRun) : List Word :=
  st.live.filter (fun phys => ¬ Registered memmap (phys.toNat / 4096))

/-- A frame that is allocated. -/
theorem live_frame (h : (system memmap).Reachable st) {phys : Word} (hphys : phys ∈ st.live) :
    phys.toNat / 4096 < maxNumFrames ∧ frameAddr (phys.toNat / 4096) = phys ∧
      (initMemory memmap).toPmm.Available (phys.toNat / 4096) := by
  obtain ⟨f, rfl, hav, -⟩ := (since_of_reachable h).live phys hphys
  rw [frameAddr_div (available_lt hav)]
  exact ⟨available_lt hav, rfl, hav⟩

theorem strays_of_strayed
    (h : (system memmap).Reachable st) {phys : Word} (hphys : phys ∈ strayed memmap st) :
    Strays memmap (phys.toNat / 4096) := by
  obtain ⟨hlive, hnot⟩ := mem_filter.mp hphys
  obtain ⟨-, -, hav⟩ := live_frame h hlive
  have hne := (available_initMemory.mp hav).2.1
  refine (contains_or_strays hav).resolve_left fun hin => ?_
  exact of_decide_eq_true hnot ⟨hne, hin⟩

/-- At most one frame strays. -/
theorem length_strayed_le (h : (system memmap).Reachable st) : (strayed memmap st).length ≤ 1 := by
  have hnodup : (strayed memmap st).Nodup := (since_of_reachable h).nodup.filter _
  have hone : ∀ x ∈ strayed memmap st, ∀ y ∈ strayed memmap st, x = y := by
    intro x hx y hy
    obtain ⟨-, -, ⟨r, hr, -, hfirst⟩, -⟩ := strays_of_strayed h hx
    obtain ⟨-, -, ⟨r', hr', -, hfirst'⟩, -⟩ := strays_of_strayed h hy
    cases hr.symm.trans hr'
    rw [← (live_frame h (mem_filter.mp hx).1).2.1, ← (live_frame h (mem_filter.mp hy).1).2.1,
      Nat.succ_injective (hfirst.symm.trans hfirst')]
  cases hlist : strayed memmap st with
  | nil => exact Nat.zero_le 1
  | cons x l =>
    rw [hlist] at hnodup hone
    cases l with
    | nil => exact le_rfl
    | cons y l =>
      refine absurd (hone x mem_cons_self y (mem_cons_of_mem x mem_cons_self)) fun heq => ?_
      exact (nodup_cons.mp hnodup).1 (heq ▸ mem_cons_self)

/-- The frames that are registered and allocated. -/
def takenFrames (memmap : List UsableRegion) (st : FrameRun) : Finset Nat :=
  ((st.live.filter (fun phys => Registered memmap (phys.toNat / 4096))).map
    (fun phys => phys.toNat / 4096)).toFinset

section

variable (h : (system memmap).Reachable st)

include h

theorem mem_takenFrames : f ∈ takenFrames memmap st ↔
    f < maxNumFrames ∧ Registered memmap f ∧ frameAddr f ∈ st.live := by
  rw [takenFrames, mem_toFinset, mem_map]
  constructor
  · rintro ⟨phys, hphys, rfl⟩
    obtain ⟨hin, hreg⟩ := mem_filter.mp hphys
    obtain ⟨hlt, haddr, -⟩ := live_frame h hin
    rw [haddr]
    exact ⟨hlt, of_decide_eq_true hreg, hin⟩
  · rintro ⟨hf, hreg, hin⟩
    have hdiv := frameAddr_div hf
    exact ⟨_, mem_filter.mpr ⟨hin, decide_eq_true (by rwa [hdiv])⟩, hdiv⟩

/-- What is allocated is registered or strays. -/
theorem card_takenFrames :
    (takenFrames memmap st).card + (strayed memmap st).length = st.live.length := by
  rw [takenFrames, toFinset_card_of_nodup, length_map]
  · have hsum := (length_eq_length_filter_add (l := st.live)
      (fun phys => decide (Registered memmap (phys.toNat / 4096)))).symm
    rw [strayed]
    simpa using hsum
  · apply Nodup.map_on _ ((since_of_reachable h).nodup.filter _)
    intro x hx y hy heq
    rw [← (live_frame h (mem_filter.mp hx).1).2.1, ← (live_frame h (mem_filter.mp hy).1).2.1, heq]

/-- The registered frames are available or allocated. -/
theorem card_availableFrames : (availableFrames memmap st).card + st.live.length =
    (registeredFrames memmap).card + (strayed memmap st).length := by
  have hsplit : registeredFrames memmap = availableFrames memmap st ∪ takenFrames memmap st := by
    ext f
    rw [Finset.mem_union, mem_takenFrames h, registeredFrames, availableFrames,
      Finset.mem_filter, Finset.mem_filter, Finset.mem_range]
    by_cases hin : frameAddr f ∈ st.live
    · simp only [hin, not_true, and_false, and_true, false_or]
    · simp only [hin, not_false_eq_true, and_true, and_false, or_false]
  have hapart : Disjoint (availableFrames memmap st) (takenFrames memmap st) := by
    rw [Finset.disjoint_left]
    intro f hf hin
    rw [availableFrames] at hf
    exact (Finset.mem_filter.mp hf).2.2 ((mem_takenFrames h).mp hin).2.2
  rw [hsplit, Finset.card_union_of_disjoint hapart, ← card_takenFrames h]
  omega

end

/-! ### Too many -/

section

variable (hbelow : ∀ r ∈ memmap, r.Below) (hdisj : memmap.Pairwise UsableRegion.Disjoint)

include hbelow hdisj

/-- `get_free_frames` is right exactly if what it counts too much is, modulo `2 ^ 64`, what is
allocated outside of the regions. -/
theorem freeFrames_eq_iff (h : (system memmap).Reachable st) :
    st.pmm.freeFrames.toNat = (availableFrames memmap st).card ↔
      overcount memmap % 2 ^ 64 = (strayed memmap st).length := by
  have hcount := freeFrames_reachable h
  rw [freeFrames_initMemory hbelow] at hcount
  have hcount := congrArg BitVec.toNat hcount
  rw [BitVec.toNat_add, BitVec.toNat_ofNat, BitVec.toNat_ofNat] at hcount
  have havail := card_availableFrames h
  have hstray := length_strayed_le h
  have hreg := card_registered hbelow hdisj
  have hmax : (registeredFrames memmap).card ≤ 524288 := by
    rw [registeredFrames]
    exact (Finset.card_filter_le _ _).trans_eq (Finset.card_range _)
  have hlt := st.pmm.freeFrames.isLt
  unfold overcount
  generalize (if ∃ r ∈ memmap, r.Contains 0 then 1 else 0) = z at hreg ⊢
  omega

/-- Fewer than `2 ^ 31` regions do not make the sum of the running totals wrap around. -/
theorem overcount_lt (hlen : memmap.length < 2 ^ 31) : overcount memmap < 2 ^ 64 := by
  have hle : ∀ (rs : List UsableRegion) (total : Nat),
      excess total rs ≤ rs.length * (total + (rs.map UsableRegion.numFrames).sum + rs.length) := by
    intro rs
    induction rs with
    | nil => exact fun total => Nat.zero_le _
    | cons r rs ih =>
      intro total
      have hrest := ih (total + (r.numFrames + 1))
      rw [show total + (r.numFrames + 1) + (rs.map UsableRegion.numFrames).sum + rs.length =
        total + (r.numFrames + (rs.map UsableRegion.numFrames).sum) + (rs.length + 1) by
          omega] at hrest
      rw [excess, map_cons, sum_cons, length_cons, Nat.succ_mul]
      omega
  have hfew : (memmap.map UsableRegion.numFrames).sum ≤ 524288 := by
    rw [← card_regionFrames hbelow hdisj, regionFrames]
    exact (Finset.card_filter_le _ _).trans_eq (Finset.card_range _)
  have hbound := hle memmap 0
  have hmul : memmap.length * (0 + (memmap.map UsableRegion.numFrames).sum + memmap.length) ≤
      2 ^ 31 * (524288 + 2 ^ 31) := Nat.mul_le_mul hlen.le (by omega)
  unfold overcount
  split
  · omega
  · omega

omit hbelow hdisj in
/-- Each region is counted with one frame more than it has. -/
theorem lt_excess (hr : r ∈ memmap) (total : Nat) : r.numFrames < excess total memmap := by
  induction memmap generalizing total with
  | nil => cases hr
  | cons r' rs ih =>
    rw [excess]
    rcases mem_cons.mp hr with rfl | hr
    · omega
    · have hlt := ih hr (total + (r'.numFrames + 1))
      omega

omit hbelow hdisj in
/-- Where a frame strays, the last region has frames. -/
theorem numFrames_pos_of_strays (h : Strays memmap f) : ∃ r ∈ memmap, 0 < r.numFrames := by
  obtain ⟨-, -, ⟨r, hlast, hmax, hstart⟩, -⟩ := h
  obtain ⟨hr, hnot⟩ := mem_of_lastRegion hlast
  have hlt := UsableRegion.frameStart_lt hnot hmax
  have hin := UsableRegion.contains_of_lt hnot le_rfl (hlt.trans_eq hmax.symm)
  refine ⟨r, hr, ?_⟩
  rw [← UsableRegion.card_frames]
  exact Finset.card_pos.mpr ⟨_, UsableRegion.mem_frames.mpr hin⟩

/-- Then the counter is right only where nothing is registered. -/
theorem overcount_eq_strayed_iff
    (h : (system memmap).Reachable st) (hlen : memmap.length < 2 ^ 31) :
    overcount memmap % 2 ^ 64 = (strayed memmap st).length ↔ memmap = [] := by
  rw [Nat.mod_eq_of_lt (overcount_lt hbelow hdisj hlen)]
  constructor
  · intro heq
    by_contra hne
    obtain ⟨r, hr⟩ := exists_mem_of_ne_nil memmap hne
    have hpos := lt_excess hr 0
    have hover : excess 0 memmap ≤ overcount memmap := Nat.le_add_right _ _
    have hle := length_strayed_le h
    obtain ⟨phys, hphys⟩ := exists_mem_of_length_pos (l := strayed memmap st) (by omega)
    obtain ⟨r', hr', hframes⟩ := numFrames_pos_of_strays (strays_of_strayed h hphys)
    have hlt := lt_excess hr' 0
    omega
  · rintro rfl
    have hnone : strayed [] st = [] := by
      refine eq_nil_iff_forall_not_mem.mpr fun phys hphys => ?_
      obtain ⟨r, hr, -⟩ := numFrames_pos_of_strays (strays_of_strayed h hphys)
      cases hr
    rw [hnone]
    rfl

end

/-- **The counter of free frames.** In every reachable state `get_free_frames` is right exactly if
what the regions were counted too much is, modulo `2 ^ 64`, what is allocated outside of them; with
fewer than `2 ^ 31` regions that is so only if there is none. -/
theorem freeFrames_exact_iff (hbelow : ∀ r ∈ memmap, r.Below)
    (hdisj : memmap.Pairwise UsableRegion.Disjoint) (h : (system memmap).Reachable st) :
    (st.pmm.freeFrames.toNat = (availableFrames memmap st).card ↔
      overcount memmap % 2 ^ 64 = (strayed memmap st).length) ∧
    (memmap.length < 2 ^ 31 →
      (st.pmm.freeFrames.toNat = (availableFrames memmap st).card ↔ memmap = [])) := by
  have hiff := freeFrames_eq_iff hbelow hdisj h
  exact ⟨hiff, fun hlen => hiff.trans (overcount_eq_strayed_iff hbelow hdisj h hlen)⟩

section

variable (hbelow : ∀ r ∈ memmap, r.Below) (hdisj : memmap.Pairwise UsableRegion.Disjoint)

include hbelow hdisj

/-- All registered frames are available after boot. -/
theorem card_availableFrames_boot (hzero : ¬ ∃ r ∈ memmap, r.Contains 0) :
    (availableFrames memmap ⟨(initMemory memmap).toPmm, []⟩).card =
      (memmap.map UsableRegion.numFrames).sum := by
  have hreach : (system memmap).Reachable ⟨(initMemory memmap).toPmm, []⟩ := .start rfl
  have hlive : (FrameRun.mk (initMemory memmap).toPmm []).live.length = 0 := rfl
  have hstrayed : (strayed memmap ⟨(initMemory memmap).toPmm, []⟩).length = 0 := rfl
  -- the sums are rewritten and not unfolded, which would make the list of all frames
  have hcard := card_availableFrames hreach
  rw [hlive, hstrayed, Nat.add_zero, Nat.add_zero] at hcard
  rw [← card_registered hbelow hdisj, if_neg hzero, hcard, Nat.add_zero]

end

def oneRegion : List UsableRegion := [lowRegion]

theorem oneRegion_below :
    (∀ r ∈ oneRegion, r.Below) ∧ oneRegion.Pairwise UsableRegion.Disjoint := by
  refine ⟨fun r hr => ?_, pairwise_singleton _ _⟩
  cases mem_singleton.mp hr
  exact ⟨by decide, by decide⟩

/-- One region of two frames is counted as five. -/
theorem oneRegion_miscounted : ∃ st, (system oneRegion).Reachable st ∧ st.pmm.freeFrames.toNat = 5 ∧
    (availableFrames oneRegion st).card = 2 := by
  have hfree : (initMemory oneRegion).freeFrames = 5 := by decide
  refine ⟨⟨(initMemory oneRegion).toPmm, []⟩, .start rfl, ?_,
    card_availableFrames_boot oneRegion_below.1 oneRegion_below.2 (by decide)⟩
  rfl

/-- With no region the counter is right, with one it is not. -/
theorem noRegion_counted :
    (initMemory []).freeFrames.toNat = (availableFrames [] ⟨(initMemory []).toPmm, []⟩).card ∧
    (initMemory oneRegion).freeFrames.toNat ≠
    (availableFrames oneRegion ⟨(initMemory oneRegion).toPmm, []⟩).card := by
  constructor
  · exact (freeFrames_exact_iff (fun r hr => absurd hr not_mem_nil) .nil (.start rfl)).1.mpr
      (by decide)
  · intro heq
    have hnil :=
      ((freeFrames_exact_iff oneRegion_below.1 oneRegion_below.2 (.start rfl)).2 (by decide)).mp heq
    cases hnil

end FrameRun

/-! ## The bitmap -/

namespace Pmm

variable {p p' : Pmm} {f n : Nat} {len addr : Word}

/-- An access to the word of a frame, if the bitmap has one. -/
def inBitmap (f : Nat) (p : Pmm) : Option Pmm :=
  if f / frameBitmapEntrySize < frameBitmapSize then some p else none

/-- `set_frame_used` and `set_frame_free` on the array of `FRAME_BITMAP_SIZE` words. -/
def setFrameUsedIn (frame : Nat) (p : Pmm) : Option Pmm :=
  (p.inBitmap frame).map (setFrameUsed frame)

def setFrameFreeIn (frame : Nat) (p : Pmm) : Option Pmm :=
  (p.inBitmap frame).map (setFrameFree frame)

def setFramesFreeIn : Nat → Nat → Pmm → Option Pmm
  | 0, _, p => some p
  | n + 1, frame, p => do setFramesFreeIn n (frame + 1) (← p.setFrameFreeIn frame)

def setAddrFreeIn (addr length : Word) (p : Pmm) : Option Pmm :=
  let frameStart := addr.toNat / frameSize
  let frameEnd := (addr + length).toNat / frameSize
  { p with frameBitmapStart := frameStart, frameBitmapEnd := frameEnd }.setFramesFreeIn
    (frameEnd + 1 - frameStart) frameStart

def registerIn (addr len : Word) (p : Pmm) : Option Pmm := do
  let totalFrames := p.totalFrames + (len / 4096 + 1)
  let p := { p with
    totalMemory := p.totalMemory + len
    totalFrames := totalFrames
    freeFrames := p.freeFrames + totalFrames }
  (← p.setAddrFreeIn addr len).setFrameUsedIn 0

/-- `add_free_memory`, stopping at the first word that the bitmap does not have. -/
def addFreeMemoryIn (addr len : Word) (p : Pmm) : Option Pmm :=
  if maxMemoryBytes ≤ addr + len then
    if maxMemoryBytes ≤ addr then some p else p.registerIn addr (maxMemoryBytes - addr)
  else p.registerIn addr len

theorem inBitmap_iff : f / frameBitmapEntrySize < frameBitmapSize ↔ f < maxNumFrames := by
  have hsize : frameBitmapSize = 8192 := rfl
  have hmax : maxNumFrames = 524288 := rfl
  rw [hsize, hmax, frameBitmapEntrySize]
  omega

theorem setFrameFreeIn_eq :
    p.setFrameFreeIn f = if f < maxNumFrames then some (p.setFrameFree f) else none := by
  simp only [setFrameFreeIn, inBitmap, inBitmap_iff]
  split
  · rfl
  · rfl

theorem setFramesFreeIn_eq : p.setFramesFreeIn n f =
    if n = 0 ∨ f + n ≤ maxNumFrames then some (p.setFramesFree n f) else none := by
  induction n generalizing f p with
  | zero => rw [if_pos (.inl rfl)]; rfl
  | succ n ih =>
    rw [setFramesFreeIn, setFrameFreeIn_eq]
    by_cases hf : f < maxNumFrames
    · rw [if_pos hf]
      refine (ih (f := f + 1)).trans ?_
      by_cases hn : n = 0 ∨ f + 1 + n ≤ maxNumFrames
      · rw [if_pos hn, if_pos (by omega)]
        rfl
      · rw [if_neg hn, if_neg (by omega)]
    · rw [if_neg hf, if_neg (by omega)]
      rfl

/-- The words that are touched are those of the frames up to the one behind the region. -/
theorem registerIn_eq (addr len : Word) : p.registerIn addr len =
    if (addr + len).toNat / frameSize < addr.toNat / frameSize ∨
      (addr + len).toNat / frameSize < maxNumFrames
    then some (p.register addr len) else none := by
  have hzero : ∀ q : Pmm, q.setFrameUsedIn 0 = some (q.setFrameUsed 0) := fun q => rfl
  have hcond : ((addr + len).toNat / frameSize + 1 - addr.toNat / frameSize = 0 ∨
      addr.toNat / frameSize + ((addr + len).toNat / frameSize + 1 - addr.toNat / frameSize) ≤
        maxNumFrames) ↔
      ((addr + len).toNat / frameSize < addr.toNat / frameSize ∨
        (addr + len).toNat / frameSize < maxNumFrames) := by
    omega
  simp only [registerIn, setAddrFreeIn, setFramesFreeIn_eq, hcond]
  split
  · exact hzero _
  · rfl

/-- A frame with a byte of the region that is below 2 GiB. -/
def Intersects (addr len : Word) (f : Nat) : Prop :=
  ∃ x, addr.toNat ≤ x ∧ x < addr.toNat + len.toNat ∧ x < maxMemoryBytes.toNat ∧ x / frameSize = f

/-- From the frame of the first byte on. -/
theorem intersects_of_le (hle : addr.toNat / 4096 ≤ f) (hlt : f * 4096 < addr.toNat + len.toNat)
    (hpos : 0 < len.toNat) (hmax : f * 4096 < 2147483648) : Intersects addr len f := by
  have hbytes : maxMemoryBytes.toNat = 2147483648 := rfl
  refine ⟨max addr.toNat (f * 4096), le_max_left _ _, ?_, ?_, ?_⟩
  · omega
  · omega
  · rw [frameSize]
    omega

/-- Every word that is touched is in the bitmap, and only frames of the region become free. -/
def RegistersInside (addr len : Word) (p : Pmm) : Prop :=
  ∃ p', p.addFreeMemoryIn addr len = some p' ∧
    ∀ f, p'.isFrameFree f = true → p.isFrameFree f = true ∨ Intersects addr len f

/-- The region begins behind 2 GiB; or its end is below 2 GiB and is the rest of a sum that is not a
word, or is in the middle of a frame, in frame 0, or in a frame that is free anyway. -/
def FitsBitmap (addr len : Word) (p : Pmm) : Prop :=
  maxMemoryBytes ≤ addr ∨ addr + len < maxMemoryBytes ∧
    (2 ^ 64 ≤ addr.toNat + len.toNat ∨ 0 < len.toNat ∧ (addr + len).toNat % frameSize ≠ 0 ∨
      (addr + len).toNat / frameSize = 0 ∨ p.isFrameFree ((addr + len).toNat / frameSize) = true)

theorem not_registerIn_of_end (haddr : addr < maxMemoryBytes)
    (hend : addr + len = maxMemoryBytes) : p.registerIn addr len = none := by
  have hlt : addr.toNat < 2147483648 := haddr
  have hmax : maxNumFrames = 524288 := rfl
  have hstop : maxMemoryBytes.toNat / frameSize = 524288 := rfl
  rw [registerIn_eq, hend, hstop, if_neg]
  rw [frameSize]
  omega

/-- A region that ends below 2 GiB, or that has no end. -/
theorem registersInside_of_below (hend : addr + len < maxMemoryBytes) : p.RegistersInside addr len ↔
      ∀ f, (p.register addr len).isFrameFree f = true →
      p.isFrameFree f = true ∨ Intersects addr len f := by
  have hlt : (addr + len).toNat < 2147483648 := hend
  have hmax : maxNumFrames = 524288 := rfl
  have hrun : p.addFreeMemoryIn addr len = some (p.register addr len) := by
    rw [addFreeMemoryIn, if_neg (BitVec.not_le.mpr hend), registerIn_eq, if_pos]
    rw [frameSize]
    omega
  constructor
  · rintro ⟨p', hp', hfree⟩
    cases hrun.symm.trans hp'
    exact hfree
  · exact fun hfree => ⟨_, hrun, hfree⟩

/-- Only regions that are ignored, or that end below 2 GiB in a frame of their own, do what they
should. -/
theorem registersInside_iff_fits (addr len : Word) (p : Pmm) :
    p.RegistersInside addr len ↔ p.FitsBitmap addr len := by
  have hadd := BitVec.toNat_add addr len
  have haddr := addr.isLt
  have hlen := len.isLt
  have hmaxB : maxMemoryBytes.toNat = 2147483648 := rfl
  by_cases hend : maxMemoryBytes ≤ addr + len
  · have hnot : ¬ addr + len < maxMemoryBytes := BitVec.not_lt.mpr hend
    by_cases hbase : maxMemoryBytes ≤ addr
    · -- ignored
      have hrun : p.addFreeMemoryIn addr len = some p := by
        rw [addFreeMemoryIn, if_pos hend, if_pos hbase]
      exact ⟨fun _ => .inl hbase, fun _ => ⟨p, hrun, fun f hf => .inl hf⟩⟩
    · -- truncated
      have hsum : addr + (maxMemoryBytes - addr) = maxMemoryBytes := by
        rw [BitVec.add_comm, BitVec.sub_add_cancel]
      have hrun : p.addFreeMemoryIn addr len = none := by
        rw [addFreeMemoryIn, if_pos hend, if_neg hbase]
        exact not_registerIn_of_end (BitVec.not_le.mp hbase) hsum
      constructor
      · rintro ⟨p', hp', -⟩
        cases hrun.symm.trans hp'
      · rintro (h | ⟨h, -⟩)
        · exact absurd h hbase
        · exact absurd h hnot
  · have hbelow : addr + len < maxMemoryBytes := BitVec.not_le.mp hend
    have hlt : (addr + len).toNat < 2147483648 := hbelow
    rw [registersInside_of_below hbelow]
    simp only [isFrameFree_register, Bool.and_eq_true, Bool.or_eq_true, decide_eq_true_eq]
    constructor
    · intro h
      by_cases hbase : maxMemoryBytes ≤ addr
      · exact .inl hbase
      · refine .inr ⟨hbelow, ?_⟩
        by_contra hbad
        simp only [not_or, not_and, not_not] at hbad
        obtain ⟨hword, hmiddle, hzero, hused⟩ := hbad
        have hle : addr.toNat / frameSize ≤ (addr + len).toNat / frameSize := by
          apply Nat.div_le_div_right
          omega
        -- the frame behind the region
        rcases h ((addr + len).toNat / frameSize) ⟨.inr ⟨hle, le_rfl⟩, hzero⟩
          with hfree | ⟨x, h1, h2, -, hx⟩
        · exact hused hfree
        · rw [frameSize] at *
          omega
    · rintro hfits f ⟨hfree | ⟨h1, h2⟩, hf⟩
      · exact .inl hfree
      · rw [frameSize] at h1 h2
        rcases hfits with hbase | ⟨-, hword | ⟨hpos, hmiddle⟩ | hzero | hfree⟩
        · have hbase : 2147483648 ≤ addr.toNat := hbase
          omega
        · exact .inr (intersects_of_le h1 (by omega) (by omega) (by omega))
        · rw [frameSize] at hmiddle
          exact .inr (intersects_of_le h1 (by omega) hpos (by omega))
        · rw [frameSize] at hzero
          omega
        · by_cases hlast : f = (addr + len).toNat / 4096
          · rw [hlast]
            exact .inl hfree
          · exact .inr (intersects_of_le h1 (by omega) (by omega) (by omega))

/-- A region that ends at 2 GiB is written behind the bitmap; frame 2 becomes free with a region
that is frame 1. -/
theorem lastRegion_outside : zeroed.init.addFreeMemoryIn 0x7FFFF000 0x1000 = none ∧
    (zeroed.init.isFrameFree 2 = false ∧
      (zeroed.init.addFreeMemory 0x1000 0x1000).isFrameFree 2 = true ∧
      ¬ Intersects 0x1000 0x1000 2) := by
  refine ⟨by decide, by decide, by decide, ?_⟩
  rintro ⟨x, -, hx, -, hf⟩
  have hsum : (0x1000 : Word).toNat + (0x1000 : Word).toNat = 8192 := rfl
  rw [frameSize] at hf
  omega

end Pmm

end Hltos
