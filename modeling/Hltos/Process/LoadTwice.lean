import Hltos.Memory.Stale
import Hltos.Process.KernelHalf

/-!
# Two runs of the loader

`exec_elf64` in two states that differ in the contents of free frames only. The old address space is
released in the same way, the new root is the same, and the segments and the stack are mapped and
stored in the same way: from the program headers and the strings it can be said which bytes are
stale in the end.
-/

namespace Hltos

open Lib.Radix FrameAllocator Pte Vmm List Option FillStep Set

variable {σ : Type} [FrameAllocator σ]

/-! ## The steps of the loader -/

/-- The pages of a range. -/
def mapStep (virt bytes : Word) : FillStep :=
  .map (pagesFrom (numPages virt bytes).toNat (pageStart virt))

/-- A segment: its pages, its bytes in the file, and zeros behind them. -/
def segmentSteps (fileBuffer : Word) (header : Elf64ProgramHeader) : List FillStep :=
  [mapStep header.pVaddr header.pMemsz,
    .copy header.pFilesz.toNat header.pVaddr (fileBuffer + header.pOffset),
    .store (bytesFrom (header.pMemsz.toNat - header.pFilesz.toNat)
      (header.pVaddr + header.pFilesz))]

/-- The bytes below a stack pointer. -/
def pushStep (n : Nat) (stack : Word) : FillStep := .store (bytesFrom n (stack - BitVec.ofNat 64 n))

def stackSteps (argvStrs envpStrs : List (List Byte)) : List FillStep :=
  [mapStep userStackBase userStackSize, pushStep (stackBytes argvStrs envpStrs) userStackTop]

namespace Vmm

/-- `exec_elf64` of a file that has been parsed, once the old address space is released. -/
def loadElf64 (kernelStack fileBuffer : Word) (file : Elf64File)
    (argvStrs envpStrs : List (List Byte))
    (p : Process) (s : Vmm σ) : Option (Process × Vmm σ) := do
  let (pml4, s) ← s.createUserPml4
  let (uheap, s) ← s.createUserHeap pml4
  let (heapBreak, s) ← s.mapElf64Headers pml4 fileBuffer file.programHeaders 0
  let (userRsp, s) ← s.buildUserStack pml4 argvStrs envpStrs
  return (p.execReset {
    pml4 := pml4, heapBreak := heapBreak, uheap := uheap,
    kernelRsp := kernelStack + kernelStackSize, userRsp := userRsp, entry := file.entry }, s)

theorem execElf64_eq (cr3 : Frame) (kernelStack fileBuffer : Word)
    (argvStrs envpStrs : List (List Byte))
    (p : Process) (s : Vmm σ) : s.execElf64 cr3 kernelStack fileBuffer argvStrs envpStrs p = (do
      let file ← Elf.parseFile (fun v => s.loadByte cr3 v) fileBuffer
      if !file.isValidElf then none
      else (s.freeOldPml4 p.pml4).loadElf64 kernelStack fileBuffer file argvStrs envpStrs p) := rfl

variable {s s' t t' : Vmm σ} {q : Frame} {vs : List Word}

/-! ## Two runs of the loader -/

namespace Twin

variable {ρ : Byte → Byte → Prop} {S : Set Word} {a b c : Word} {m n : Nat}
  {header : Elf64ProgramHeader} {hb hb' fileBuffer : Word}

section

variable (h : Twin ρ q S s t)

include h

theorem mapUserPages {virt bytes : Word} (hs : s.mapUserPages q virt bytes = some s') :
    ∃ t', t.mapUserPages q virt bytes = some t' ∧ Twin ρ q ((mapStep virt bytes).stale S) s' t' :=
  h.mapPages hs

theorem zeroRest (hs : s.zeroRest q header = some s') : ∃ t', t.zeroRest q header = some t' ∧
      Twin ρ q ((store (bytesFrom (header.pMemsz.toNat - header.pFilesz.toNat)
        (header.pVaddr + header.pFilesz))).stale S) s' t' := by
  unfold Vmm.zeroRest at hs ⊢
  split at hs
  · next hlt =>
    have hsub := BitVec.toNat_sub_of_le (BitVec.le_of_lt hlt)
    rw [if_pos hlt, ← hsub]
    exact h.memset hs
  · next hle =>
    have hle' := Nat.le_of_not_lt hle
    cases hs
    refine ⟨t, if_neg hle, ?_⟩
    rw [Nat.sub_eq_zero_of_le hle', bytesFrom, stale_store_nil]
    exact h

theorem mapElf64Header (hs : s.mapElf64Header q fileBuffer header hb = some (hb', s')) :
    ∃ t', t.mapElf64Header q fileBuffer header hb = some (hb', t') ∧
      Twin ρ q (staleAfter (segmentSteps fileBuffer header) S) s' t' := by
  obtain ⟨rfl, s1, s2, h1, h2, h3⟩ := mapElf64Header_eq_some hs
  obtain ⟨t1, e1, w1⟩ := h.mapUserPages h1
  obtain ⟨t2, e2, w2⟩ := w1.memcpy h2
  obtain ⟨t3, e3, w3⟩ := w2.zeroRest h3
  exact ⟨t3, by simp [Vmm.mapElf64Header, e1, e2, e3], w3⟩

theorem mapElf64Headers {headers : List Elf64ProgramHeader}
    (hs : s.mapElf64Headers q fileBuffer headers hb = some (hb', s')) :
    ∃ t', t.mapElf64Headers q fileBuffer headers hb = some (hb', t') ∧
      Twin ρ q (staleAfter (headers.flatMap (segmentSteps fileBuffer)) S) s' t' := by
  induction headers generalizing S s t hb with
  | nil =>
    cases hs
    exact ⟨t, rfl, h⟩
  | cons header headers ih =>
    obtain ⟨⟨hb1, s1⟩, h1, hs⟩ := of_bind hs
    obtain ⟨t1, e1, w1⟩ := h.mapElf64Header h1
    obtain ⟨t', e', w'⟩ := ih w1 hs
    refine ⟨t', ?_, ?_⟩
    · simp only [Vmm.mapElf64Headers, e1, bind_eq_bind, bind_some]
      exact e'
    · exact w'

end

/-! ### The stack -/

/-- Both runs have pushed `n` bytes. -/
structure Pushed (ρ : Byte → Byte → Prop) (q : Frame) (S : Set Word) (n : Nat) (a b : Word)
    (s t : Vmm σ) : Prop where
  stack : b = a - BitVec.ofNat 64 n
  twin : Twin ρ q ((pushStep n a).stale S) s t

theorem stale_pushStep_add (m n : Nat) (a : Word) (S : Set Word) :
    (pushStep n (a - .ofNat 64 m)).stale ((pushStep m a).stale S) =
      (pushStep (m + n) a).stale S := by
  have hlow : a - .ofNat 64 (m + n) = a - .ofNat 64 m - .ofNat 64 n := by bv_omega
  have hhigh : a - .ofNat 64 m - .ofNat 64 n + .ofNat 64 n = a - .ofNat 64 m :=
    BitVec.sub_add_cancel _ _
  ext v
  simp only [pushStep, FillStep.stale, mem_sdiff, mem_ofPred_eq, Nat.add_comm m n,
    bytesFrom_append, mem_append]
  rw [Nat.add_comm n m, hlow, hhigh]
  tauto

theorem Pushed.trans {s1 t1 : Vmm σ} (h : Pushed ρ q S m a b s t)
    (h' : Pushed ρ q ((pushStep m a).stale S) n b c s1 t1) : Pushed ρ q S (m + n) a c s1 t1 := by
  obtain ⟨rfl, -⟩ := h
  obtain ⟨rfl, h'⟩ := h'
  refine ⟨?_, ?_⟩
  · bv_omega
  · rw [← stale_pushStep_add]
    exact h'

section

variable (h : Twin ρ q S s t)

include h

theorem push {value : Word} (hs : s.push q value a = some (b, s')) :
    ∃ t', t.push q value a = some (b, t') ∧ Pushed ρ q S 8 a b s' t' := by
  obtain ⟨s1, h1, hs⟩ := of_bind hs
  cases hs
  obtain ⟨t1, e1, w1⟩ := h.storeBytes h1
  refine ⟨t1, ?_, rfl, w1⟩
  simp only [Vmm.push, e1, Option.bind_eq_bind, Option.bind_some, Option.pure_def]

theorem pushed_refl (a : Word) : Pushed ρ q S 0 a a s t := by
  refine ⟨by simp, ?_⟩
  rw [pushStep, bytesFrom, stale_store_nil]
  exact h

theorem pushAll {values : List Word} (hs : s.pushAll q values a = some (b, s')) :
    ∃ t', t.pushAll q values a = some (b, t') ∧ Pushed ρ q S (8 * values.length) a b s' t' := by
  induction values generalizing S s t a with
  | nil =>
    cases hs
    exact ⟨t, rfl, h.pushed_refl _⟩
  | cons value values ih =>
    obtain ⟨⟨a1, s1⟩, h1, hs⟩ := of_bind hs
    obtain ⟨t1, e1, w1⟩ := h.push h1
    obtain ⟨t', e', w'⟩ := ih w1.twin hs
    refine ⟨t', ?_, ?_⟩
    · simp only [Vmm.pushAll, e1, bind_eq_bind, bind_some]
      exact e'
    · rw [length_cons, Nat.mul_succ, Nat.add_comm]
      exact w1.trans w'

theorem pushString {str : List Byte} (hs : s.pushString q str a = some (b, s')) :
    ∃ t', t.pushString q str a = some (b, t') ∧ Pushed ρ q S (str.length + 1) a b s' t' := by
  obtain ⟨s1, h1, hs⟩ := of_bind hs
  obtain ⟨s2, h2, hs⟩ := of_bind hs
  cases hs
  obtain ⟨t1, e1, w1⟩ := h.storeBytes h1
  obtain ⟨t2, e2, w2⟩ := w1.storeSame h2
  have hset : (pushStep (str.length + 1) a).stale S = (FillStep.store (bytesFrom str.length
      (a - .ofNat 64 (str.length + 1)))).stale S \
        {a - .ofNat 64 (str.length + 1) + .ofNat 64 str.length} := by
    ext v
    rw [pushStep, bytesFrom_append]
    simp only [FillStep.stale, bytesFrom, mem_sdiff, mem_ofPred_eq, List.mem_append,
      mem_singleton_iff, List.mem_singleton, not_or, and_assoc]
  refine ⟨t2, ?_, rfl, ?_⟩
  · simp only [Vmm.pushString, e1, e2, Option.bind_eq_bind, Option.bind_some, Option.pure_def]
  · rw [hset]
    exact w2

theorem pushStrings {strs : List (List Byte)} {ptrs ptrs' : List Word}
    (hs : s.pushStrings q strs ptrs a = some (ptrs', b, s')) :
    ∃ t', t.pushStrings q strs ptrs a = some (ptrs', b, t') ∧
      Pushed ρ q S (stringBytes strs) a b s' t' := by
  induction strs generalizing S s t ptrs a with
  | nil =>
    cases hs
    exact ⟨t, rfl, h.pushed_refl _⟩
  | cons str strs ih =>
    obtain ⟨⟨a1, s1⟩, h1, hs⟩ := of_bind hs
    obtain ⟨t1, e1, w1⟩ := h.pushString h1
    obtain ⟨t', e', w'⟩ := ih w1.twin hs
    refine ⟨t', ?_, ?_⟩
    · simp only [Vmm.pushStrings, e1, bind_eq_bind, bind_some]
      exact e'
    · exact w1.trans w'

/-- The stack is built alike in both runs; what it stores is no longer stale. -/
theorem buildUserStack {argvStrs envpStrs : List (List Byte)} {rsp : Word}
    (hs : s.buildUserStack q argvStrs envpStrs = some (rsp, s')) :
    ∃ t', t.buildUserStack q argvStrs envpStrs = some (rsp, t') ∧
      Twin ρ q (staleAfter (stackSteps argvStrs envpStrs) S) s' t' := by
  obtain ⟨s1, h1, hs⟩ := of_bind hs
  obtain ⟨⟨a2, s2⟩, h2, hs⟩ := of_bind hs
  obtain ⟨⟨ps3, a3, s3⟩, h3, hs⟩ := of_bind hs
  obtain ⟨⟨ps4, a4, s4⟩, h4, hs⟩ := of_bind hs
  obtain ⟨⟨a5, s5⟩, h5, hs⟩ := of_bind hs
  obtain ⟨⟨a6, s6⟩, h6, hs⟩ := of_bind hs
  obtain ⟨⟨a7, s7⟩, h7, hs⟩ := of_bind hs
  obtain ⟨⟨a8, s8⟩, h8, hs⟩ := of_bind hs
  obtain ⟨⟨a9, s9⟩, h9, hs⟩ := of_bind hs
  obtain ⟨t1, e1, w1⟩ := h.mapUserPages h1
  obtain ⟨t2, e2, w2⟩ := w1.push h2
  obtain ⟨t3, e3, w3⟩ := w2.twin.pushStrings h3
  obtain ⟨t4, e4, w4⟩ := w3.twin.pushStrings h4
  obtain ⟨t5, e5, w5⟩ := w4.twin.pushAll h5
  obtain ⟨t6, e6, w6⟩ := w5.twin.push h6
  obtain ⟨t7, e7, w7⟩ := w6.twin.pushAll h7
  obtain ⟨t8, e8, w8⟩ := w7.twin.push h8
  obtain ⟨t9, e9, w9⟩ := w8.twin.pushAll h9
  obtain ⟨t', e', w'⟩ := w9.twin.push hs
  have l3 := (pushStrings_pushes h3).2
  have l4 := (pushStrings_pushes h4).2
  refine ⟨t', ?_, ?_⟩
  · simp only [Vmm.buildUserStack, e1, e2, e3, e4, e5, e6, e7, e8, e9, bind_eq_bind, bind_some]
    exact e'
  · have hall :=
      w2.trans (w3.trans (w4.trans (w5.trans (w6.trans (w7.trans (w8.trans (w9.trans w')))))))
    have hbytes : stackBytes argvStrs envpStrs = 8 + (stringBytes envpStrs + (stringBytes argvStrs +
        (8 * [(0 : Word), 0].length + (8 + (8 * ([] : List Word).reverse.length + (8 +
          (8 * ps4.reverse.length + 8))))))) := by
      simp only [stackBytes, length_reverse, length_cons, length_nil, l4, l3]
      omega
    rw [stackSteps, staleAfter, foldl_cons, foldl_cons, foldl_nil, hbytes]
    exact hall.twin

end

end Twin

/-! ## The old address space in two runs -/

section Release

variable {A : Set Frame} {f : Frame} {d : Nat}

/-- The same frames are allocated, and the frames of `A` hold the same. -/
structure AgreeOn (A : Set Frame) (s t : Vmm σ) : Prop where
  pmm : t.pmm = s.pmm
  same : Same s t
  mem : ∀ f ∈ A, t.mem f = s.mem f

/-- The tables that are reached from `f` in `d` steps are in `A`. -/
def Within (A : Set Frame) : Nat → Frame → Vmm σ → Prop
  | 0, f, _ => f ∈ A
  | d + 1, f, s => f ∈ A ∧ ∀ i, p (s.mem f i) = true → Within A d (addr (s.mem f i)) s

/-- Frames are freed and entries cleared. -/
structure Shrinks (s s' : Vmm σ) : Prop where
  entry : ∀ f i, p (s'.mem f i) = true → s'.mem f i = s.mem f i
  allocated : allocated s'.pmm ⊆ allocated s.pmm

theorem Shrinks.refl (s : Vmm σ) : Shrinks s s := ⟨fun _ _ _ => rfl, subset_rfl⟩

theorem Shrinks.trans {s'' : Vmm σ} (h : Shrinks s s') (h' : Shrinks s' s'') : Shrinks s s'' := by
  refine ⟨fun f i hp => ?_, h'.allocated.trans h.allocated⟩
  have heq := h'.entry f i hp
  rw [heq] at hp ⊢
  exact h.entry f i hp

theorem Within.shrinks (h : Within A d f s) (hs : Shrinks s s') : Within A d f s' := by
  induction d generalizing f with
  | zero => exact h
  | succ d ih =>
    refine ⟨h.1, fun i hi => ?_⟩
    have heq := hs.entry f i hi
    rw [heq] at hi ⊢
    exact ih (h.2 i hi)

theorem AgreeOn.freeEntry (h : AgreeOn A s t) (hf : f ∈ A) (i : Idx) :
    AgreeOn A (s.freeEntry f i) (t.freeEntry f i) ∧ Shrinks s (s.freeEntry f i) := by
  have hmem := h.mem f hf
  refine ⟨⟨?_, ⟨h.same.1, h.same.2, h.same.3⟩, ?_⟩, ?_, ?_⟩
  · show freeFrame (addr (t.mem f i)) t.pmm = freeFrame (addr (s.mem f i)) s.pmm
    rw [hmem, h.pmm]
  · intro g hg
    funext j
    show setEntry t.mem f i (setP 0 (t.mem f i)) g j = setEntry s.mem f i (setP 0 (s.mem f i)) g j
    rw [setEntry, setEntry, hmem, h.mem g hg]
  · intro g j hp
    have hentry : (s.freeEntry f i).mem g j =
      if g = f ∧ j = i then setP 0 (s.mem f i) else s.mem g j := rfl
    rw [hentry] at hp ⊢
    split at hp
    · rw [p_setP] at hp
      cases hp
    · next hne => exact if_neg hne
  · show allocated (freeFrame (addr (s.mem f i)) s.pmm) ⊆ allocated s.pmm
    rw [free_allocated]
    exact fun g hg => hg.1

/-- What the loops of `free_user_pml4` do below a table is the same in both runs. -/
theorem AgreeOn.freeEntries {below : Frame → Vmm σ → Vmm σ} {W : Frame → Vmm σ → Prop}
    (hW : ∀ g (s s' : Vmm σ), W g s → Shrinks s s' → W g s')
    (hbelow : ∀ g (s t : Vmm σ), AgreeOn A s t → W g s →
      AgreeOn A (below g s) (below g t) ∧ Shrinks s (below g s)) (is : List Idx)
    (h : AgreeOn A s t) (hf : f ∈ A)
    (hwithin : ∀ i ∈ is, p (s.mem f i) = true → W (addr (s.mem f i)) s) :
    AgreeOn A (s.freeEntries below f is) (t.freeEntries below f is) ∧
      Shrinks s (s.freeEntries below f is) := by
  induction is generalizing s t with
  | nil => exact ⟨h, .refl s⟩
  | cons i is ih =>
    have hentry : t.mem f i = s.mem f i := by rw [h.mem f hf]
    -- one turn of the loop
    have hstep : AgreeOn A
        (if !p (s.mem f i) then s else (below (addr (s.mem f i)) s).freeEntry f i)
        (if !p (t.mem f i) then t else (below (addr (t.mem f i)) t).freeEntry f i) ∧
        Shrinks s (if !p (s.mem f i) then s else (below (addr (s.mem f i)) s).freeEntry f i) := by
      rw [hentry]
      by_cases hp : p (s.mem f i)
      · simp only [hp, Bool.not_true, Bool.false_eq_true, if_false]
        obtain ⟨hb, hsh⟩ := hbelow _ s t h (hwithin i mem_cons_self hp)
        obtain ⟨hfr, hsh'⟩ := hb.freeEntry hf i
        exact ⟨hfr, hsh.trans hsh'⟩
      · simp only [hp, Bool.not_false, if_true]
        exact ⟨h, .refl s⟩
    obtain ⟨hagree, hshrinks⟩ := ih hstep.1 (fun j hj hpj => by
      have heq := hstep.2.entry f j hpj
      rw [heq] at hpj ⊢
      exact hW _ _ _ (hwithin j (mem_cons_of_mem i hj) hpj) hstep.2)
    exact ⟨hagree, hstep.2.trans hshrinks⟩

theorem AgreeOn.freeTables {depth : Nat} (h : AgreeOn A s t) (hw : Within A depth f s) :
    AgreeOn A (Vmm.freeTables depth f s) (Vmm.freeTables depth f t) ∧
      Shrinks s (Vmm.freeTables depth f s) := by
  induction depth generalizing f s t with
  | zero =>
    apply AgreeOn.freeEntries (W := fun _ _ => True) (fun _ _ _ _ _ => trivial) _ allIdx h hw
    · exact fun _ _ _ => trivial
    · exact fun _ s _ h _ => ⟨h, .refl s⟩
  | succ depth ih =>
    apply AgreeOn.freeEntries (W := Within A depth) (fun _ _ _ => .shrinks) _ allIdx h hw.1
    · exact fun i _ hp => hw.2 i hp
    · exact fun _ _ _ h hw => ih h hw

/-- The tables of an address space are allocated. -/
theorem Owns.within {H : Idx → Prop} {K : Set Frame} {r : Frame} {π : List Idx}
    (ho : Owns H r K s) (hlen : π.length + d ≤ 4) (hπ : π ∈ below H 4) (hne : π ≠ [])
    (ht : table s.mem r π = some f) : Within (allocated s.pmm) d f s := by
  induction d generalizing π f with
  | zero => exact ho.tree.allocated ⟨π, hπ, ht⟩
  | succ d ih =>
    refine ⟨ho.tree.allocated ⟨π, hπ, ht⟩, fun i hp => ?_⟩
    have hchild : table s.mem r (i :: π) = some (addr (s.mem f i)) := by
      rw [table_cons_of_table ht, child_of_p hp]
    refine ih (by simp; omega) ⟨by simp; omega, ?_⟩ (by simp) hchild
    cases π with
    | nil => exact absurd rfl hne
    | cons j π => simpa using hπ.2

/-- **Releasing the old address space keeps the difference in the free frames.** -/
theorem DifferInFree.freeOldPml4 {old : Option Frame} (h : DifferInFree s t)
    (hp : Replaceable old s) : DifferInFree (s.freeOldPml4 old) (t.freeOldPml4 old) := by
  cases old with
  | none => exact h
  | some r =>
    show DifferInFree (s.freeUserPml4 r) (t.freeUserPml4 r)
    unfold freeUserPml4
    rw [h.same.kernelPml4]
    by_cases hr : r = s.kernelPml4
    · rw [if_pos hr, if_pos hr]
      exact h
    · rw [if_neg hr, if_neg hr]
      have ho := (hp r rfl).resolve_left hr
      have hroot := ho.tree.allocated (root_mem_frames s.mem r (below s.userHead 4))
      have hidx : t.userIdx = s.userIdx := by rw [userIdx, userIdx, h.same.kernelStart]
      have hwithin : ∀ i ∈ s.userIdx, p (s.mem r i) = true →
          Within (allocated s.pmm) 2 (addr (s.mem r i)) s := by
        intro i hi hpi
        have hchild : table s.mem r [i] = some (addr (s.mem r i)) := by
          rw [table_cons_of_table rfl, child_of_p hpi]
        exact ho.within (by simp) (singleton_mem_below.mpr (mem_userIdx.mp hi)) (by simp) hchild
      obtain ⟨hagree, hshrinks⟩ := AgreeOn.freeEntries (A := allocated s.pmm)
        (W := Within (allocated s.pmm) 2) (fun _ _ _ => Within.shrinks)
        (fun _ _ _ => AgreeOn.freeTables) s.userIdx ⟨h.pmm, h.same, h.mem⟩ hroot hwithin
      rw [hidx]
      generalize s.freeEntries (freeTables 2) r s.userIdx = s1 at hagree hshrinks ⊢
      generalize t.freeEntries (freeTables 2) r s.userIdx = t1 at hagree ⊢
      refine ⟨?_, ⟨hagree.same.1, hagree.same.2, hagree.same.3⟩, ?_⟩
      · exact congrArg (freeFrame r) hagree.pmm
      · intro f hf
        have hin : f ∈ allocated s1.pmm \ {r} := free_allocated r s1.pmm ▸ hf
        show setPage t1.mem r _ f = setPage s1.mem r _ f
        rw [setPage_of_ne _ _ hin.2, setPage_of_ne _ _ hin.2]
        exact hagree.mem f (hshrinks.allocated hin.1)

end Release

/-! ## A new root in two runs -/

section Root

variable {ρ : Byte → Byte → Prop}

theorem createUserPml4_alloc (hs : s.createUserPml4 = some (q, s')) :
    allocFrame s.pmm = some (q, s'.pmm) := by
  obtain ⟨⟨q', sa⟩, ha, hs⟩ := of_bind hs
  obtain ⟨⟨f, pmm⟩, hp, heq⟩ := map_eq_some_iff.mp ha
  cases heq
  obtain ⟨rfl, rfl⟩ := Prod.mk.inj (some.inj hs)
  rw [(copyKernelHalf_same _ _ _).1]
  exact hp

theorem createUserPml4_of_alloc {pmm : σ} (hp : allocFrame s.pmm = some (q, pmm)) :
    ∃ s', s.createUserPml4 = some (q, s') ∧ s'.pmm = pmm := by
  refine ⟨_, by rw [createUserPml4, Vmm.alloc, hp]; rfl, ?_⟩
  rw [(copyKernelHalf_same _ _ _).1]
  rfl

/-- The new root is the same frame in both runs, and is cleared. -/
theorem DifferInFree.createUserPml4 (h : DifferInFree s t) (hk : KernelHalf s)
    (hfree : ∀ f ∉ allocated s.pmm, ∀ i pos, pos + 8 ≤ 64 →
      ρ (getByte (s.mem f i) pos) (getByte (t.mem f i) pos))
    (hs : s.createUserPml4 = some (q, s')) :
    ∃ t', t.createUserPml4 = some (q, t') ∧ Twin ρ q ∅ s' t' := by
  have hroot := hk.root_mem
  have hroot' : t.kernelPml4 ∈ allocated t.pmm := by
    rw [h.same.kernelPml4, h.pmm]
    exact hroot
  obtain ⟨t', ht, hpmm⟩ := createUserPml4_of_alloc (h.pmm ▸ createUserPml4_alloc hs)
  have hn := createUserPml4_spec hroot hs
  have hn' := createUserPml4_spec hroot' ht
  refine ⟨t', ht, .of_owned ?_ hpmm ?_ ?_ ?_⟩
  · exact hk.owns_newRoot hn (empty_subset _) (fun f hf => absurd hf (notMem_empty f))
  · exact ⟨by rw [hn'.same.kernelPml4, hn.same.kernelPml4, h.same.kernelPml4],
      by rw [hn'.same.hhdmOffset, hn.same.hhdmOffset, h.same.hhdmOffset],
      by rw [hn'.same.kheap, hn.same.kheap, h.same.kheap]⟩
  · -- behind the new root is the kernel's half
    rintro f ⟨π, hπ, hf⟩
    rcases hk.table_cases hn hπ hf with ⟨-, rfl⟩ | ⟨hup, hf⟩
    · funext i
      by_cases hi : i < s.kernelStart
      · rw [hn.user i hi, hn'.user i (by rw [userHead, h.same.kernelStart]; exact hi)]
      · have hle := BitVec.not_lt.mp hi
        rw [hn.kernel i hle, hn'.kernel i (by rw [h.same.kernelStart]; exact hle),
          h.same.kernelPml4, h.mem _ hroot]
    · have hin := hk.tree.allocated ⟨π, hup, hf⟩
      rw [hn.mem f hin, hn'.mem f (by rw [h.pmm]; exact hin), h.mem f hin]
  · intro f hf
    have hkept := createUserPml4_freeKept hs
    rw [hkept.2 f hf, (createUserPml4_freeKept ht).2 f (by rw [hpmm]; exact hf)]
    exact hfree f (fun hin => hf (hkept.1 hin))

theorem Twin.heapAt {S : Set Word} {heap heap' : Heap} (h : Twin ρ q S s t)
    (hs : s.heapAt heap q = some (heap', s')) :
    ∃ t', t.heapAt heap q = some (heap', t') ∧ Twin ρ q S s' t' := by
  obtain ⟨i4, h4, hs⟩ := of_bind hs
  obtain ⟨i3, h3, hs⟩ := of_bind hs
  obtain ⟨i2, h2, hs⟩ := of_bind hs
  obtain ⟨⟨pt, s1⟩, hens, hs⟩ := of_bind hs
  cases hs
  obtain ⟨t1, e1, w1⟩ := h.ensureTables hens
  refine ⟨t1, ?_, w1⟩
  simp [Vmm.heapAt, h4, h3, h2, e1]

end Root

/-! ## Pages in new frames -/

/-- Pages that are mapped are mapped to new frames. -/
theorem Mapped.new {A K : Set Frame} (h : Mapped anyHead q vs s s')
    (ho : Owns anyHead q K s) (hA : A ⊆ allocated s.pmm) :
    ∀ v, (∃ w ∈ vs, vpn v = vpn w) → Loaded.New A q s' v := by
  induction h with
  | nil s => rintro v ⟨w, hw, -⟩; cases hw
  | @cons w e ws f s sa s1 sm s' hH ha he hp hrest ih =>
    have hk := Placed.keeps ho hH ha he hp
    have hmono : allocated s.pmm ⊆ allocated sm.pmm := by
      refine subset_trans ?_ hp.allocated_mono
      rw [(alloc_spec ha).2.1]
      exact subset_insert _ _
    rintro v ⟨w', hw', hv⟩
    by_cases hlater : ∃ w ∈ ws, vpn v = vpn w
    · exact ih hk.owns (hA.trans hmono) v hlater
    · have hvw : vpn v = vpn w := by
        rcases mem_cons.mp hw' with rfl | hin
        · exact hv
        · exact absurd ⟨w', hin, hv⟩ hlater
      have hu := hrest.untouched hk.owns (isPage_path (v := v) trivial)
        (fun x hx heq => hlater ⟨x, hx, path_eq_iff.mp heq⟩)
      refine ⟨e, ?_, ?_⟩
      · rw [walk_eq_find, hu.find, ← walk_eq_find, walk_congr hvw]
        exact hp.walk_here (by rw [he]; rfl)
      · rw [(addr_of_child he).1]
        exact fun hin => (alloc_spec ha).1 (hA hin)

/-- All that is mapped below `2 ^ 47` is mapped to frames outside of `A`. -/
def UserNew (A : Set Frame) (q : Frame) (s : Vmm σ) : Prop :=
  ∀ v : Word, v.toNat < 2 ^ 47 → walk s.mem q v ≠ none → Loaded.New A q s v

/-- Loading maps the user half to frames that were free. -/
theorem Loaded.userNew {ms : List (Word × Word)} {A : Set Frame}
    (h : Loaded q ms vs s s') (ho : Owns anyHead q ∅ s) (hA : A ⊆ allocated s.pmm)
    (hnew : UserNew A q s) : UserNew A q s' := by
  induction h with
  | nil s => exact hnew
  | @map virt bytes _ _ s s1 _ hm _ ih =>
    have hfrom := mapUserPages_from hm
    have hp := mapPagesFrom_spec ho.tables (fun _ _ => trivial) hfrom
    apply ih (mapPagesFrom_keeps ho (fun _ _ => trivial) hfrom).owns (hA.trans hp.allocated)
    intro v hv hwalk
    by_cases hc : Covers (pageStart virt) (numPages virt bytes).toNat v
    · obtain ⟨e, f, he, hmaps, hf, -⟩ := hp.new v hc
      exact ⟨e, he, fun hin => hf (hA (hmaps.addr ▸ hin))⟩
    · rw [hp.other v trivial hc] at hwalk
      obtain ⟨e, he, hnot⟩ := hnew v hv hwalk
      exact ⟨e, by rw [hp.other v trivial hc]; exact he, hnot⟩
  | store hs _ ih =>
    have hw := hs.writes ho (fun _ _ => trivial)
    apply ih hw.keeps.owns (by rw [hw.pmm]; exact hA)
    intro v hv hwalk
    rw [hw.walk trivial] at hwalk
    obtain ⟨e, he, hnot⟩ := hnew v hv hwalk
    exact ⟨e, by rw [hw.walk trivial]; exact he, hnot⟩

end Vmm

end Hltos
