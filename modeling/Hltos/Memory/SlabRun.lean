import Hltos.Memory.HeapPages
import Hltos.Memory.SlabOps

/-!
# Runs of the slab allocator

Any sequence of allocations, releases of live chunks, and writes of the clients into their chunks.
Every state reached is represented by some lists of slabs and free chunks, in which exactly the live
chunks are not free.
-/

namespace Hltos

open KernelHeap Lib.Transition Slab Slabs Option Function

/-- The allocator, and the chunks that clients hold with their classes. -/
structure SlabRun (μ : Type) where
  slabs : Slabs μ
  live : List (Word × Fin 6)

inductive SlabOp where
  | alloc (size : Word)
  | free (addr : Word)
  | write (addr : Word) (b : Byte)

namespace SlabRun

variable {μ : Type} [KernelHeap μ] {t t' : SlabRun μ} {g g' : Shape} {c : Fin 6} {q p : Word}
  {k : Nat} {s' : Slabs μ}

def next : SlabOp → SlabRun μ → Option (SlabRun μ)
  | .alloc size, t => do
    let (chunk, s) ← t.slabs.alloc size
    return ⟨s, (chunk, ← getSizeClass size) :: t.live⟩
  | .free addr, t => do return ⟨← t.slabs.free addr, t.live.filter (·.1 ≠ addr)⟩
  | .write addr b, t =>
    do return { t with slabs := { t.slabs with heap := ← storeByte addr b t.slabs.heap } }

/-- At most 1024 bytes are asked for, while the heap has room; chunks are released that are live,
and written inside. -/
def Legal : SlabOp → SlabRun μ → Prop
  | .alloc size, t => size.toNat ≤ 1024 ∧ Room t.slabs.heap
  | .free addr, t => addr ∈ t.live.map Prod.fst
  | .write addr _, t => ∃ x ∈ t.live, ∃ n < size x.2, addr = x.1 + BitVec.ofNat 64 n

def system (μ : Type) [KernelHeap μ] : System (SlabRun μ) SlabOp where
  init t := Valid t.slabs.heap ∧ t.slabs.classes = initClasses ∧ t.live = []
  next := next

/-! ## The invariant -/

/-- The lists are in memory, what is not free is live, and an empty slab is the only one of its
class. -/
structure Ok (t : SlabRun μ) (g : Shape) : Prop where
  rep : Rep t.slabs g
  live : ∀ p c, (p, c) ∈ t.live ↔ ∃ q k, g.Used c q k ∧ p = chunkAt c q k
  single : ∀ c, ∀ q ∈ g.slabs c, (g.free q).length = count c → g.slabs c = [q]

namespace Ok

theorem of_init (h : (system μ).init t) : Ok t ⟨fun _ => [], fun _ => []⟩ := by
  obtain ⟨hvalid, hclasses, hlive⟩ := h
  refine ⟨⟨hvalid, fun c => ?_, by simp, fun c => ?_, by simp, by simp⟩, ?_, by simp⟩
  · rw [hclasses, initClasses_eq]
    rfl
  · rw [hclasses, initClasses_eq]
    rfl
  · simp [hlive, Shape.Used]

section

variable (h : Ok t g)

include h

/-- A live chunk, with its slab. -/
theorem exists_used (hp : p ∈ t.live.map Prod.fst) :
    ∃ c q k, (p, c) ∈ t.live ∧ g.Used c q k ∧ p = chunkAt c q k := by
  obtain ⟨⟨p, c⟩, hmem, rfl⟩ := List.mem_map.mp hp
  obtain ⟨q, k, hu, heq⟩ := (h.live p c).mp hmem
  exact ⟨c, q, k, hmem, hu, heq⟩

/-- Two live chunks at the same address are the same. -/
theorem used_inj {c' : Fin 6} {q' : Word} {k' : Nat} (hu : g.Used c q k) (hu' : g.Used c' q' k')
    (heq : chunkAt c q k = chunkAt c' q' k') : q = q' ∧ k = k' := by
  obtain ⟨rfl, hk⟩ := chunkAt_inj (h.rep.aligned hu.1).2 (h.rep.aligned hu'.1).2 hu.2.1 hu'.2.1 heq
  exact ⟨rfl, hk (h.rep.apart _ _ _ hu.1 hu'.1)⟩

/-- An allocation: the chunk was free, so it is none of those that are live. -/
theorem alloc (ha : Allocs c q k t.slabs g s' g') : Ok ⟨s', (chunkAt c q k, c) :: t.live⟩ g' := by
  refine ⟨ha.rep, fun p c' => ?_, fun c' r hr hfull => ?_⟩
  · -- the live chunks are those in use
    rw [List.mem_cons, h.live]
    constructor
    · rintro (⟨rfl, rfl⟩ | ⟨r, j, hu, rfl⟩)
      · exact ⟨q, k, (ha.used _ _ _).mpr (.inr ⟨rfl, rfl, rfl⟩), rfl⟩
      · exact ⟨r, j, (ha.used _ _ _).mpr (.inl hu), rfl⟩
    · rintro ⟨r, j, hu, rfl⟩
      rcases (ha.used _ _ _).mp hu with hu | ⟨rfl, rfl, rfl⟩
      · exact .inr ⟨r, j, hu, rfl⟩
      · exact .inl rfl
  · -- an empty slab is not the one that the chunk comes from
    have hne : r ≠ q := by
      rintro rfl
      rcases ha.slabs with ⟨hq, -, hslabs⟩ | ⟨hfresh, -, hslabs⟩
      · rw [hslabs] at hr
        cases h.rep.apart _ _ _ hr hq
        exact absurd hfull (Nat.ne_of_lt ha.shorter)
      · have hc : c' = c := by
          by_contra hc
          rw [hslabs, update_of_ne hc] at hr
          exact h.rep.page_ne_none hr hfresh
        subst hc
        exact absurd hfull (Nat.ne_of_lt ha.shorter)
    rw [ha.others r hne] at hfull
    rcases ha.slabs with ⟨-, -, hslabs⟩ | ⟨-, hall, hslabs⟩
    · rw [hslabs] at hr ⊢
      exact h.single c' r hr hfull
    · -- a new slab is made only when all others are full
      by_cases hc : c' = c
      · subst hc
        rw [hslabs, update_self] at hr
        have hr := (List.mem_cons.mp hr).resolve_left hne
        rw [hall r hr] at hfull
        exact absurd hfull.symm (Nat.ne_of_gt (count_pos c'))
      · rw [hslabs, update_of_ne hc] at hr ⊢
        exact h.single c' r hr hfull

/-- A release: the chunk is dropped from the live ones, and the others keep their places. -/
theorem free (hu : g.Used c q k) (hf : Frees c q k t.slabs g s' g') :
    Ok ⟨s', t.live.filter (·.1 ≠ chunkAt c q k)⟩ g' := by
  refine ⟨hf.rep, fun p c' => ?_, fun c' r hr hfull => ?_⟩
  · rw [List.mem_filter, h.live, decide_eq_true_eq]
    constructor
    · rintro ⟨⟨r, j, hu', rfl⟩, hne⟩
      refine ⟨r, j, (hf.used _ _ _).mpr ⟨hu', ?_⟩, rfl⟩
      rintro ⟨rfl, rfl⟩
      cases h.rep.apart _ _ _ hu.1 hu'.1
      exact hne rfl
    · rintro ⟨r, j, hu', rfl⟩
      obtain ⟨hu', hne⟩ := (hf.used _ _ _).mp hu'
      exact ⟨⟨r, j, hu', rfl⟩, fun heq => hne (h.used_inj hu' hu heq)⟩
  · -- the slabs other than `q` have the free chunks they had
    have hold : ∀ {c1 r1}, r1 ∈ g.slabs c1 → r1 ≠ q → (g'.free r1).length = count c1 →
        g.slabs c1 = [r1] := by
      intro c1 r1 hr1 hne hfull
      rw [hf.free, Function.update_of_ne hne] at hfull
      exact h.single c1 r1 hr1 hfull
    rcases hf.slabs with ⟨hslabs, hnot⟩ | ⟨hslabs, hnone⟩
    · -- the slab is kept: if it has become empty, it is the only one of its class
      rw [hslabs] at hr ⊢
      by_cases heq : r = q
      · subst heq
        cases h.rep.apart _ _ _ hr hu.1
        rw [hf.free, update_self, List.length_cons] at hfull
        obtain ⟨a, ha⟩ := List.length_eq_one_iff.mp (Nat.le_antisymm
          (Nat.le_of_not_lt fun hlt => hnot ⟨hfull, hlt⟩) (List.length_pos_of_mem hr))
        rw [ha] at hr ⊢
        rw [List.mem_singleton.mp hr]
      · exact hold hr heq hfull
    · -- the slab is given back, so another of its class was there and was not empty
      have hne : r ≠ q := by
        rintro rfl
        exact hf.rep.page_ne_none hr hnone
      by_cases hc : c' = c
      · subst hc
        rw [hslabs, update_self] at hr
        have hone := hold (List.mem_of_mem_erase hr) hne hfull
        have hq := hu.1
        rw [hone] at hq
        exact absurd (List.mem_singleton.mp hq).symm hne
      · rw [hslabs, update_of_ne hc] at hr ⊢
        exact hold hr hne hfull

theorem write {addr : Word} {b : Byte} (hlegal : Legal (.write addr b) t) :
    ∃ heap, storeByte addr b t.slabs.heap = some heap ∧
      Ok { t with slabs := { t.slabs with heap := heap } } g := by
  obtain ⟨⟨p, c⟩, hmem, n, hn, rfl⟩ := hlegal
  obtain ⟨q, k, hu, rfl⟩ := (h.live p c).mp hmem
  obtain ⟨heap, hrun, hrep, -⟩ := h.rep.write hu hn b
  exact ⟨heap, hrun, hrep, h.live, h.single⟩

theorem step {op : SlabOp} (hlegal : Legal op t) (hnext : next op t = some t') :
    ∃ g', Ok t' g' := by
  cases op with
  | alloc size =>
    obtain ⟨hsize, hroom⟩ := hlegal
    obtain ⟨c, hc⟩ := getSizeClass_isSome.mpr hsize
    rcases h.rep.alloc hroom hc with ⟨hnone, -⟩ | ⟨q, k, s', g', hrun, ha⟩
    · simp only [next, hnone, bind_eq_bind, bind_none] at hnext
      cases hnext
    · simp only [next, hrun, hc, bind_eq_bind, bind_some] at hnext
      cases hnext
      exact ⟨g', h.alloc ha⟩
  | free addr =>
    obtain ⟨c, q, k, -, hu, rfl⟩ := h.exists_used hlegal
    obtain ⟨s', g', hrun, hf⟩ := h.rep.free hu
    simp only [next, hrun, bind_eq_bind, bind_some] at hnext
    cases hnext
    exact ⟨g', h.free hu hf⟩
  | write addr b =>
    obtain ⟨heap, hrun, hok⟩ := h.write hlegal
    simp only [next, hrun, bind_eq_bind, bind_some] at hnext
    cases hnext
    exact ⟨g, hok⟩

end

end Ok

theorem reachable_ok (h : (system μ).ReachableUnder Legal t) : ∃ g, Ok t g :=
  System.ReachableUnder.invariant (I := fun t => ∃ g, Ok t g) (fun _ hinit => ⟨_, Ok.of_init hinit⟩)
    (fun _ _ _ hg hlegal hnext => hg.elim fun _ hok => hok.step hlegal hnext) h

/-! ## The count of all slabs -/

theorem foldl_numSlabs (h : Rep t.slabs g) (cs : List (Fin 6)) (n : Nat) :
    cs.foldl (fun total c => total + (t.slabs.classes c).numSlabs) (BitVec.ofNat 64 n) =
      BitVec.ofNat 64 (n + (cs.map (fun c => (g.slabs c).length)).sum) := by
  induction cs generalizing n with
  | nil => rfl
  | cons c cs ih =>
    have hnum : (t.slabs.classes c).numSlabs = BitVec.ofNat 64 (g.slabs c).length := by
      rw [h.fixed c]
    rw [List.foldl_cons, hnum, ← BitVec.ofNat_add, ih, List.map_cons, List.sum_cons, Nat.add_assoc]

/-- `total_slabs` is the sum of the lengths of the lists. -/
theorem toNat_totalSlabs (h : Rep t.slabs g) :
    t.slabs.totalSlabs.toNat = ((List.finRange 6).map (fun c => (g.slabs c).length)).sum := by
  have hall : ((List.finRange 6).flatMap g.slabs).length < 2 ^ 64 := by
    apply length_lt_of_nodup
    · refine List.nodup_flatMap.mpr ⟨fun c _ => h.nodup c, (List.nodup_finRange 6).imp ?_⟩
      intro c c' hne q hq hq'
      exact hne (h.apart _ _ _ hq hq')
    · intro q hq
      obtain ⟨c, -, hq⟩ := List.mem_flatMap.mp hq
      exact (h.aligned hq).1
  rw [List.length_flatMap] at hall
  have hsum := foldl_numSlabs h (List.finRange 6) 0
  rw [Nat.zero_add] at hsum
  rw [totalSlabs, show (0 : Word) = BitVec.ofNat 64 0 from rfl, hsum, BitVec.toNat_ofNat,
    Nat.mod_eq_of_lt hall]

/-! ## The representation invariant -/

namespace Ok

section

variable (h : Ok t g)

include h

/-- The free chunks of a slab are those that no client holds. -/
theorem free_iff (hq : q ∈ g.slabs c) (hk : k < count c) :
    k ∈ g.free q ↔ (chunkAt c q k, c) ∉ t.live := by
  rw [h.live]
  constructor
  · rintro hfree ⟨q', k', hu, heq⟩
    obtain ⟨rfl, hkk⟩ := chunkAt_inj (h.rep.aligned hq).2 (h.rep.aligned hu.1).2 hk hu.2.1 heq
    exact hu.2.2 (hkk rfl ▸ hfree)
  · intro hnot
    by_contra hfree
    exact hnot ⟨q, k, ⟨hq, hk, hfree⟩, rfl⟩

/-- A slab of which no client holds a chunk is the only one of its class. -/
theorem eq_singleton (hq : q ∈ g.slabs c) (hempty : ∀ k < count c, (chunkAt c q k, c) ∉ t.live) :
    g.slabs c = [q] := by
  obtain ⟨w, -, hslab⟩ := h.rep.slab c q hq
  apply h.single c q hq
  apply Nat.le_antisymm hslab.length_le
  have hsub : List.range (count c) ⊆ g.free q := fun k hk =>
    (h.free_iff hq (List.mem_range.mp hk)).mpr (hempty k (List.mem_range.mp hk))
  have hle := (List.subperm_of_subset List.nodup_range hsub).length_le
  rwa [List.length_range] at hle

theorem free_returns (hp : p ∈ t.live.map Prod.fst) : t.slabs.free p ≠ none := by
  obtain ⟨c, q, k, -, hu, rfl⟩ := h.exists_used hp
  obtain ⟨s', g', hrun, -⟩ := h.rep.free hu
  rw [hrun]
  exact some_ne_none _

variable (hroom : Room t.slabs.heap) {n : Word}

include hroom

/-- What `alloc` returns was free: a chunk of a slab, or of a page that was not mapped. -/
theorem alloc_free {chunk : Word} (hrun : t.slabs.alloc n = some (chunk, s')) :
    ∃ c q k, getSizeClass n = some c ∧ k < count c ∧ chunk = chunkAt c q k ∧
      (q ∈ g.slabs c ∧ k ∈ g.free q ∨ page t.slabs.heap q = none) := by
  obtain ⟨c, hc, -⟩ := of_bind hrun
  rcases h.rep.alloc hroom hc with ⟨hnone, -⟩ | ⟨q, k, s1, g', hrun', ha⟩
  · cases hnone.symm.trans hrun
  · cases hrun'.symm.trans hrun
    refine ⟨c, q, k, hc, ha.bound, rfl, ?_⟩
    exact ha.slabs.imp (fun hin => ⟨hin.1, hin.2.1⟩) (fun hnew => hnew.1)

/-- The one thing that can stop `alloc` is that there is no page for a new slab. -/
theorem alloc_returns (hn : n.toNat ≤ 1024) (hpage : allocKernelPage t.slabs.heap ≠ none) :
    t.slabs.alloc n ≠ none := by
  obtain ⟨c, hc⟩ := getSizeClass_isSome.mpr hn
  rcases h.rep.alloc hroom hc with ⟨-, hnone⟩ | ⟨q, k, s', g', hrun, -⟩
  · exact absurd hnone hpage
  · rw [hrun]
    exact some_ne_none _

end

end Ok

/-- **The slabs of every reachable state.** `g` has the slabs of each class in the order of their
links, and the free chunks of each slab in the order of theirs. -/
theorem reachable_represented {σ : Type} [FrameAllocator σ] {t : SlabRun (Vmm σ)}
    (h : (system (Vmm σ)).ReachableUnder Legal t) : ∃ g : Shape,
      -- the lists of slabs
      (∀ c, Lib.LinkedList.Doubly id (field 2 t.slabs.heap) (field 3 t.slabs.heap) 0 0
          (t.slabs.classes c).firstSlab (g.slabs c) ∧
        (g.slabs c).Nodup ∧ (t.slabs.classes c).numSlabs.toNat = (g.slabs c).length) ∧
      (∀ c c' q, q ∈ g.slabs c → q ∈ g.slabs c' → c = c') ∧
      -- the header and the free list of a slab, with its counter
      (∀ c, ∀ q ∈ g.slabs c, q.toNat % 4096 = 0 ∧
        (∃ w, page t.slabs.heap q = some w ∧ SlabPage c q w (g.free q)) ∧
        loadByte (Slab.freeChunks q) t.slabs.heap = some (BitVec.ofNat 8 (g.free q).length) ∧
        (g.free q).length < 256) ∧
      (∀ c, ∀ q ∈ g.slabs c, ∀ k < count c, (k ∈ g.free q ↔ (chunkAt c q k, c) ∉ t.live) ∧
        (chunkAt c q k).toNat = q.toNat + (40 + k * size c) ∧ 40 + k * size c + size c ≤ 4096) ∧
      (∀ x ∈ t.live, ∃ q ∈ g.slabs x.2, ∃ k < count x.2, x.1 = chunkAt x.2 q k) ∧
      -- empty slabs, and the count of all
      (∀ c, ∀ q ∈ g.slabs c, (∀ k < count c, (chunkAt c q k, c) ∉ t.live) → g.slabs c = [q]) ∧
      t.slabs.totalSlabs.toNat = ((List.finRange 6).map (fun c => (g.slabs c).length)).sum ∧
      -- the next allocation, and the next release
      (Room t.slabs.heap → ∀ n : Word, n.toNat ≤ 1024 → allocKernelPage t.slabs.heap ≠ none →
        t.slabs.alloc n ≠ none) ∧
      (Room t.slabs.heap → ∀ n chunk s', t.slabs.alloc n = some (chunk, s') →
        ∃ c q k, getSizeClass n = some c ∧ n.toNat ≤ size c ∧ k < count c ∧ chunk = chunkAt c q k ∧
          (q ∈ g.slabs c ∧ k ∈ g.free q ∨ page t.slabs.heap q = none)) ∧
      ∀ p ∈ t.live.map Prod.fst, t.slabs.free p ≠ none := by
  obtain ⟨g, hok⟩ := reachable_ok h
  have hrep := hok.rep
  refine ⟨g, fun c => ⟨hrep.linked c, hrep.nodup c, hrep.toNat_numSlabs c⟩, hrep.apart, ?_, ?_, ?_,
    fun c q hq => hok.eq_singleton hq, toNat_totalSlabs hrep,
    fun hroom n => hok.alloc_returns hroom, ?_, fun p => hok.free_returns⟩
  · intro c q hq
    obtain ⟨w, hw, hslab⟩ := hrep.slab c q hq
    refine ⟨(hrep.aligned hq).2, ⟨w, hw, hslab⟩, ?_, hslab.length_le.trans_lt (count_lt c)⟩
    rw [load_freeChunks hrep.valid hw, hslab.freeChunks]
  · intro c q hq k hk
    have hfit := mul_words_lt hk
    have hmul : 8 * (k * words c) = k * size c := by rw [size, Nat.mul_left_comm]
    refine ⟨hok.free_iff hq hk, ?_, ?_⟩
    · rw [toNat_chunkAt (hrep.aligned hq).2 hk]
      omega
    · rw [size] at *
      omega
  · rintro ⟨p, c⟩ hp
    obtain ⟨q, k, hu, rfl⟩ := (hok.live p c).mp hp
    exact ⟨q, hu.1, k, hu.2.1, rfl⟩
  · intro hroom n chunk s' hrun
    obtain ⟨c, q, k, hc, hk, heq, hfree⟩ := hok.alloc_free hroom hrun
    exact ⟨c, q, k, hc, getSizeClass_eq_some hc, hk, heq, hfree⟩

open Spaces (bootVmm)
open Vmm (walk)

/-- The direct map is in entry 256 of the root, and nothing else is mapped. -/
def directRoot : Vmm FramePool :=
  { bootVmm with hhdmOffset := 0xFFFF800000000000 }.writeEntry 0 256 1

/-- A page of the kernel image, in entry 511. -/
def mapImage : Option (Vmm FramePool) := directRoot.mapPages 0 0xFFFFFFFF80000000 0x1000 0

theorem mapImage_booted {s : Vmm FramePool} (h : mapImage = some s)
    (hdirect : s.HasEntry s.kernelStart) : VmmRun.BootRoot s := by
  have hblank : ∀ i : Idx, 256 < i → Lib.Radix.child (directRoot.mem 0 i) = none := by
    intro i hi
    have hne : ¬ (0 = (0 : Frame) ∧ i = 256) := by
      rintro ⟨-, rfl⟩
      exact absurd hi (by decide)
    rw [show directRoot.mem 0 i = bootVmm.mem 0 i from if_neg hne,
      show bootVmm.mem 0 i = 0 from rfl, child_zero]
  have ho := Vmm.Owns.of_blank_root hblank (by decide : (0 : Frame) ∉ directRoot.pmm.free)
    (Set.empty_subset _) (Set.notMem_empty _)
  have hk := Vmm.mapPagesFrom_keeps ho (by decide) (Vmm.mapPages_eq h)
  have hheads : s.heapHead = directRoot.heapHead := by unfold Vmm.heapHead; rw [hk.same.kernelStart]
  refine ⟨?_, hdirect, ?_⟩
  · rw [hk.same.kernelStart]
    decide
  · rw [hheads, hk.same.kernelPml4]
    exact hk.owns.tree

/-- With the kernel image mapped, one chunk is taken after `init_kheap`. -/
theorem boot_represented : ∃ t : SlabRun (Vmm FramePool), t.live.length = 1 ∧
    (system (Vmm FramePool)).ReachableUnder Legal t ∧
    ∃ g : Shape,
      t.slabs.totalSlabs.toNat = ((List.finRange 6).map (fun c => (g.slabs c).length)).sum ∧
      ∀ x ∈ t.live, ∃ q ∈ g.slabs x.2, ∃ k < count x.2, x.1 = chunkAt x.2 q k := by
  have hrun : mapImage.bind (fun s0 => s0.initKheap.map fun s =>
      (decide (s0.HasEntry s0.kernelStart), decide (s0.HasEntry s0.heapEntry),
        (walk s.mem 0 0xFFFFFFFF80000000).isSome, s.allocKernelPage.isSome,
        decide (Vmm.HeapRoom s))) = some (true, false, true, true, true) := by
    decide
  obtain ⟨s0, hs0, hrun⟩ := of_bind hrun
  obtain ⟨s, hs, hobs⟩ := map_eq_some_iff.mp hrun
  simp only [Prod.mk.injEq, decide_eq_true_eq, decide_eq_false_iff_not] at hobs
  obtain ⟨hdirect, hblank, -, hpage, hroom⟩ := hobs
  have hstart : (system (Vmm FramePool)).init ⟨⟨s, initClasses⟩, []⟩ :=
    ⟨.of_initKheap (mapImage_booted hs0 hdirect) hblank hs, rfl, rfl⟩
  obtain ⟨⟨chunk, s'⟩, hrun⟩ := Option.ne_none_iff_exists'.mp
    ((Ok.of_init hstart).alloc_returns (n := 24) hroom (by decide)
      (Option.isSome_iff_ne_none.mp hpage))
  have hreach : (system (Vmm FramePool)).ReachableUnder Legal ⟨s', [(chunk, 0)]⟩ := by
    refine .tail (l := .alloc 24) (.start hstart) ⟨by decide, hroom⟩ ?_
    show SlabRun.next (.alloc 24) _ = _
    rw [SlabRun.next, hrun]
    rfl
  obtain ⟨g, -, -, -, -, hlive, -, htotal, -⟩ := reachable_represented hreach
  exact ⟨_, rfl, hreach, g, htotal, hlive⟩

end SlabRun

end Hltos
