import Hltos.Process.LoadTwice
import Hltos.Syscall.Mem

/-!
# New pages of a process

The calls that give a process new pages: `exec_elf64`, `sys_brk` and `sys_mmap`. None of them clears
a page. From the arguments of a call it can be said which bytes of its pages it stores to, and so
which ones still hold what was in their frame before.
-/

namespace Hltos

open Lib.Radix FrameAllocator Pte Vmm Option Set

variable {σ : Type} [FrameAllocator σ]

/-! ## The calls -/

inductive MemCall
  | exec (kernelStack fileBuffer : Word) (file : Elf64File) (argvStrs envpStrs : List (List Byte))
  | brk (addr : Word)
  | mmap (length : Word) (flags : BitVec 32)

namespace MemCall

/-- The state in which a call begins to take frames: `exec_elf64` has released the old address space
by then. -/
def begun : MemCall → Process → Vmm σ → Vmm σ
  | exec _ _ _ _ _, p, s => s.freeOldPml4 p.pml4
  | _, _, s => s

/-- The call from there on. -/
def run : MemCall → Process → Vmm σ → Option (Process × Vmm σ)
  | exec kernelStack fileBuffer file argvStrs envpStrs, p, s =>
    s.loadElf64 kernelStack fileBuffer file argvStrs envpStrs p
  | brk addr, p, s => (sysBrk addr p s).map Prod.snd
  | mmap length flags, p, s => (sysMmap length flags p s).map Prod.snd

/-- What the call maps and stores. -/
def steps : MemCall → Process → List FillStep
  | exec _ fileBuffer file argvStrs envpStrs, _ =>
    file.programHeaders.flatMap (segmentSteps fileBuffer) ++ stackSteps argvStrs envpStrs
  | brk addr, p => if addr ≤ p.heapBreak then [] else [mapStep p.heapBreak (addr - p.heapBreak)]
  | mmap length flags, p =>
    if flags &&& mapAnonymous = 0 then []
    else [.map (heapPagesFrom (heapPages length).toNat p.uheap),
      .word (firstHeapPage (heapPages length).toNat p.uheap)]

/-- Every byte of the user half that the call maps is stored to after it was mapped for the last
time. -/
def Initialises (c : MemCall) (p : Process) : Prop :=
  ∀ v : Word, v.toNat < 2 ^ 47 → v ∉ FillStep.staleAfter (c.steps p) ∅

/-- Whatever is in the free frames, the bytes of the new pages of the user half read the same. -/
def ReadsSame (c : MemCall) (p : Process) (s : Vmm σ) : Prop :=
  ∀ t, DifferInFree (c.begun p s) t → ∀ p' s' p'' t', c.run p (c.begun p s) = some (p', s') →
    c.run p t = some (p'', t') → ∀ q v, p'.pml4 = some q → v.toNat < 2 ^ 47 →
      Loaded.New (allocated (c.begun p s).pmm) q s' v →
        p''.pml4 = some q ∧ t'.loadByte q v = s'.loadByte q v

/-- The tables that the call works on are a tree of frames of their own. The entry of the direct map
is taken to be empty, as in `KernelHalf`. -/
def Ready : MemCall → Process → Vmm σ → Prop
  | exec _ _ _ _ _, p, s => KernelHalf s ∧ Replaceable p.pml4 s
  | _, p, s => ∀ q, p.pml4 = some q → Vmm.Owns anyHead q ∅ s

variable {c : MemCall} {p p' : Process} {s s' t : Vmm σ} {ρ : Byte → Byte → Prop}
  {v fileBuffer kernelStack : Word} {file : Elf64File} {argvStrs envpStrs : List (List Byte)}
  {q : Frame}

/-- Two runs of a call. -/
structure Twins (ρ : Byte → Byte → Prop) (c : MemCall) (p p' : Process) (s s' t : Vmm σ) (q : Frame)
    (t' : Vmm σ) : Prop where
  pml4 : p'.pml4 = some q
  run : c.run p t = some (p', t')
  twin : Twin ρ q (FillStep.staleAfter (c.steps p) ∅) s' t'
  new : ∀ v ∈ FillStep.staleAfter (c.steps p) ∅, v.toNat < 2 ^ 47 →
    Loaded.New (allocated s.pmm) q s' v

section Calls

variable (hd : DifferInFree s t) (hfree : ∀ f ∉ allocated s.pmm, ∀ i pos, pos + 8 ≤ 64 →
  ρ (getByte (s.mem f i) pos) (getByte (t.mem f i) pos))

include hd hfree

/-- Loading takes the same frames in both runs and stores the same bytes. -/
theorem exec_twins (hk : KernelHalf s)
    (h : (exec kernelStack fileBuffer file argvStrs envpStrs).run p s = some (p', s')) :
    ∃ q t', Twins ρ (exec kernelStack fileBuffer file argvStrs envpStrs) p p' s s' t q t' := by
  obtain ⟨⟨q, s1⟩, h1, h⟩ := of_bind h
  obtain ⟨⟨uheap, s2⟩, h2, h⟩ := of_bind h
  obtain ⟨⟨hb, s3⟩, h3, h⟩ := of_bind h
  obtain ⟨⟨rsp, s4⟩, h4, h⟩ := of_bind h
  cases h
  obtain ⟨t1, e1, w1⟩ := hd.createUserPml4 hk hfree h1
  obtain ⟨t2, e2, w2⟩ := w1.heapAt h2
  obtain ⟨t3, e3, w3⟩ := w2.mapElf64Headers h3
  obtain ⟨t4, e4, w4⟩ := w3.buildUserStack h4
  rw [← FillStep.staleAfter_append] at w4
  have hn := createUserPml4_spec hk.root_mem h1
  have hgrown := (heapAt_spec w1.owns.tables (fun _ _ => trivial) h2).2
  have hA : allocated s.pmm ⊆ allocated s2.pmm := by
    intro f hf
    exact (hgrown.allocated f).mpr (.inl (hn.allocated ▸ .inr hf))
  -- nothing is mapped in the user half of the new root
  have hempty : UserNew (allocated s.pmm) q s2 := by
    intro v hv hwalk
    rw [hgrown.walk trivial, walk_eq_find] at hwalk
    obtain ⟨e, he⟩ := ne_none_iff_exists'.mp hwalk
    obtain ⟨f, hf, ht⟩ := child_of_find he
    rcases hk.table_cases hn (path_mem trivial) ht with ⟨hnil, -⟩ | ⟨hup, -⟩
    · cases hnil
    · have hhigh : 256 ≤ (pml4Idx v).toNat := hup.2 _ rfl
      rw [toNat_pml4Idx] at hhigh
      omega
  obtain ⟨s5, hmap, vs, -, hst⟩ := buildUserStack_pushed h4
  have hloaded := (mapElf64Headers_loaded h3).append (.map hmap (.of_stored hst))
  have hnew := hloaded.userNew w2.owns hA hempty
  refine ⟨q, t4, rfl, ?_, w4, fun v hv hlow => hnew v hlow (w4.mapped v hv)⟩
  have e2' : t1.createUserHeap q = some (uheap, t2) := e2
  simp only [run, loadElf64, e1, e2', e3, e4, bind_eq_bind, bind_some, Option.pure_def]

variable (ho : ∀ q, p.pml4 = some q → Vmm.Owns anyHead q ∅ s)

include ho

/-- `sys_brk` maps in both runs alike and stores nothing. -/
theorem brk_twins {addr : Word} (hgrow : ¬ addr ≤ p.heapBreak)
    (h : (brk addr).run p s = some (p', s')) :
    ∃ q t', Twins ρ (brk addr) p p' s s' t q t' := by
  have hne : addr ≠ 0 := by
    rintro rfl
    exact hgrow (Nat.zero_le _)
  obtain ⟨⟨r, p1, s1⟩, h, heq⟩ := map_eq_some_iff.mp h
  cases heq
  unfold sysBrk at h
  rw [if_neg hne, if_neg hgrow] at h
  obtain ⟨q, hq, h⟩ := of_bind h
  obtain ⟨s2, hm, h⟩ := of_bind h
  cases h
  obtain ⟨t', e', w'⟩ := (hd.twin (ho q hq) hfree).mapPages hm
  have hsteps : (brk addr).steps p = [mapStep p.heapBreak (addr - p.heapBreak)] := if_neg hgrow
  refine ⟨q, t', hq, ?_, ?_, ?_⟩
  · simp only [run, sysBrk, hne, hgrow, if_false, hq, e', bind_eq_bind, bind_some,
      Option.pure_def, map_some]
  · rw [hsteps]
    exact w'
  · intro v hv _
    rw [hsteps] at hv
    have hin := hv.resolve_left (notMem_empty v)
    exact (mapPagesFrom_mapped (ho q hq) (fun _ _ => trivial) (mapPages_eq hm)).new (ho q hq)
      subset_rfl v hin

/-- `sys_mmap` stores one word of its first page. -/
theorem mmap_twins {length : Word} {flags : BitVec 32} (hanon : ¬ flags &&& mapAnonymous = 0)
    (h : (mmap length flags).run p s = some (p', s')) :
    ∃ q t', Twins ρ (mmap length flags) p p' s s' t q t' := by
  obtain ⟨⟨r, p1, s1⟩, h, heq⟩ := map_eq_some_iff.mp h
  cases heq
  unfold sysMmap at h
  rw [if_neg hanon] at h
  obtain ⟨q, hq, h⟩ := of_bind h
  obtain ⟨⟨addr, uheap, s2⟩, hm, h⟩ := of_bind h
  cases h
  obtain ⟨t', e', w'⟩ := (hd.twin (ho q hq) hfree).mapHeapPages hm
  have hsteps : (mmap length flags).steps p =
    [.map (heapPagesFrom (heapPages length).toNat p.uheap),
      .word (firstHeapPage (heapPages length).toNat p.uheap)] := if_neg hanon
  refine ⟨q, t', hq, ?_, ?_, ?_⟩
  · simp only [run, sysMmap, hanon, if_false, hq, e', bind_eq_bind, bind_some,
      Option.pure_def, map_some]
  · rw [hsteps]
    exact w'
  · intro v hv _
    rw [hsteps] at hv
    have hin := hv.1.resolve_left (notMem_empty v)
    obtain ⟨first, s3, hfrom, -, hst, -⟩ := mapHeapPages_eq hm
    have hmapped := (mapHeapPagesFrom_mapped (ho q hq) (UserMem.cursorIn_any _ _) hfrom).1
    obtain ⟨e, he, hnot⟩ := hmapped.new (ho q hq) subset_rfl v hin
    have hfind := (storeWord_keeps (hmapped.keeps (ho q hq)).owns trivial hst).2.1
    refine ⟨e, ?_, hnot⟩
    rw [walk_eq_find] at he ⊢
    exact (hfind _ _ (path_tail_mem trivial)).trans he

end Calls

/-- A call that maps nothing leaves the address space alone: all that is mapped is in use. -/
theorem used_of_steps_nil (hready : c.Ready p s) (hsteps : c.steps p = [])
    (h : c.run p (c.begun p s) = some (p', s')) (hq : p'.pml4 = some q) :
    ¬ Loaded.New (allocated (c.begun p s).pmm) q s' v := by
  have hused : Vmm.Owns anyHead q ∅ s' ∧ s' = c.begun p s := by
    cases c with
    | exec kernelStack fileBuffer file argvStrs envpStrs => simp [steps, stackSteps] at hsteps
    | brk addr =>
      have hle : addr ≤ p.heapBreak := by
        by_contra hgrow
        rw [steps, if_neg hgrow] at hsteps
        cases hsteps
      simp only [run, begun, sysBrk, hle, if_true, ite_self, map_some, some.injEq,
        Prod.mk.injEq] at h
      obtain ⟨rfl, rfl⟩ := h
      exact ⟨hready q hq, rfl⟩
    | mmap length flags =>
      have hanon : flags &&& mapAnonymous = 0 := by
        by_contra hanon
        rw [steps, if_neg hanon] at hsteps
        cases hsteps
      simp only [run, begun, sysMmap, hanon, if_true, map_some, some.injEq, Prod.mk.injEq] at h
      obtain ⟨rfl, rfl⟩ := h
      exact ⟨hready q hq, rfl⟩
  rintro ⟨e, he, hnot⟩
  rw [walk_eq_find] at he
  obtain ⟨f, hf, ht⟩ := child_of_find he
  rw [(addr_of_child hf).1, ← hused.2] at hnot
  exact hnot (hused.1.tree.allocated ⟨_, path_mem trivial, ht⟩)

theorem twins (ρ : Byte → Byte → Prop) (hready : c.Ready p s) (hd : DifferInFree (c.begun p s) t)
    (hfree : ∀ f ∉ allocated (c.begun p s).pmm, ∀ i pos, pos + 8 ≤ 64 →
      ρ (getByte ((c.begun p s).mem f i) pos) (getByte (t.mem f i) pos))
    (hne : c.steps p ≠ []) (h : c.run p (c.begun p s) = some (p', s')) :
    ∃ q t', Twins ρ c p p' (c.begun p s) s' t q t' := by
  cases c with
  | exec kernelStack fileBuffer file argvStrs envpStrs =>
    obtain ⟨hsame, hkept⟩ := freeOldPml4_kept hready.1 hready.2
    exact exec_twins hd hfree (hready.1.of_kept hsame hkept).1 h
  | brk addr =>
    apply brk_twins hd hfree hready _ h
    exact fun hle => hne (if_pos hle)
  | mmap length flags =>
    apply mmap_twins hd hfree hready _ h
    exact fun hanon => hne (if_pos hanon)

/-- A stale byte reads differently if all bytes of the free frames are. -/
theorem ReadsSame.initialises (hready : c.Ready p s) (h : c.run p (c.begun p s) = some (p', s'))
    (hsame : c.ReadsSame p s) : c.Initialises p := by
  intro v hv hstale
  have hne : c.steps p ≠ [] := by
    intro hnil
    rw [hnil] at hstale
    exact notMem_empty v hstale
  obtain ⟨q, t', htw⟩ := twins (fun b c => c = ~~~b) hready (differInFree_flipFree _)
    (fun f hf i pos hpos => getByte_flipFree hf i hpos) hne h
  obtain ⟨-, heq⟩ := hsame _ (differInFree_flipFree _) p' s' p' t' h htw.run q v htw.pml4 hv
    (htw.new v hstale hv)
  obtain ⟨b, hb⟩ := loadByte_isSome (isCanonical_of_lt hv) (htw.twin.mapped v hstale)
  have hflip := htw.twin.stale v hstale b b hb (heq.trans hb)
  exact absurd hflip ((by decide : ∀ b : Byte, b ≠ ~~~b) b)

theorem Initialises.readsSame (hready : c.Ready p s) (hinit : c.Initialises p) :
    c.ReadsSame p s := by
  intro t hd p1 s1 p2 t2 h1 h2 q v hq hv hnew
  by_cases hnil : c.steps p = []
  · exact absurd hnew (used_of_steps_nil hready hnil h1 hq)
  · obtain ⟨q', t', htw⟩ := twins (fun _ _ => True) hready hd (fun _ _ _ _ _ => trivial) hnil h1
    cases htw.pml4.symm.trans hq
    cases htw.run.symm.trans h2
    exact ⟨hq, htw.twin.clean v (hinit v hv)⟩

/-- **When new pages hold nothing of what was in their frames.** A call gives the process only bytes
that do not depend on the free frames exactly if it stores to every byte of the user half that it
maps. -/
theorem readsSame_iff_initialises (hready : c.Ready p s)
    (h : c.run p (c.begun p s) = some (p', s')) : c.ReadsSame p s ↔ c.Initialises p :=
  ⟨fun hsame => hsame.initialises hready h, fun hinit => hinit.readsSame hready⟩

/-- The same for the whole of `exec_elf64`, of the same file in two states that differ in the
contents of free frames only. -/
theorem Initialises.execElf64 {cr3 : Frame} {p'' : Process} {t' : Vmm σ}
    (hinit : (exec kernelStack fileBuffer file argvStrs envpStrs).Initialises p)
    (hk : KernelHalf s) (hp : Replaceable p.pml4 s) (hd : DifferInFree s t)
    (hfile : Elf.parseFile (fun v => s.loadByte cr3 v) fileBuffer = some file)
    (hfile' : Elf.parseFile (fun v => t.loadByte cr3 v) fileBuffer = some file)
    (h : s.execElf64 cr3 kernelStack fileBuffer argvStrs envpStrs p = some (p', s'))
    (h' : t.execElf64 cr3 kernelStack fileBuffer argvStrs envpStrs p = some (p'', t'))
    (hq : p'.pml4 = some q) (hv : v.toNat < 2 ^ 47)
    (hnew : Loaded.New (allocated (s.freeOldPml4 p.pml4).pmm) q s' v) :
    p''.pml4 = some q ∧ t'.loadByte q v = s'.loadByte q v := by
  rw [execElf64_eq, hfile] at h
  rw [execElf64_eq, hfile'] at h'
  obtain ⟨-, h⟩ := ite_none_left_eq_some.mp h
  obtain ⟨-, h'⟩ := ite_none_left_eq_some.mp h'
  have hready : (exec kernelStack fileBuffer file argvStrs envpStrs).Ready p s := ⟨hk, hp⟩
  exact hinit.readsSame hready _ (hd.freeOldPml4 hp) p' s' p'' t' h h' q v hq hv hnew

/-- A break that does not grow, and one that grows by a page that nothing is stored to. -/
theorem brk_readsSame : ∃ st : UserMem FramePool, UserMem.loadedByte = some st ∧
    (∀ addr, (brk addr).Ready st.proc st.vmm) ∧ (brk 0x400800).ReadsSame st.proc st.vmm ∧
    ((brk 0x401001).run st.proc st.vmm).isSome ∧ ¬ (brk 0x401001).ReadsSame st.proc st.vmm := by
  have hrun : UserMem.loadedByte.map (fun st => (st.proc.heapBreak,
      ((brk 0x400800).run st.proc st.vmm).isSome, ((brk 0x401001).run st.proc st.vmm).isSome)) =
      some (0x401000, true, true) := by decide +kernel
  obtain ⟨st, hst, heq⟩ := map_eq_some_iff.mp hrun
  simp only [Prod.mk.injEq] at heq
  obtain ⟨hbreak, hlow, hgrown⟩ := heq
  obtain ⟨⟨p1, s1⟩, h1⟩ := isSome_iff_exists.mp hlow
  obtain ⟨⟨p2, s2⟩, h2⟩ := isSome_iff_exists.mp hgrown
  obtain ⟨q, hq, ho⟩ := UserMem.inv_of_reachable (UserMem.loadedByte_init hst)
  have hready : ∀ addr, (brk addr).Ready st.proc st.vmm := by
    intro addr q' hq'
    cases hq.symm.trans hq'
    exact ho
  refine ⟨st, hst, hready, ?_, hgrown, ?_⟩
  · refine (readsSame_iff_initialises (hready _) h1).mpr fun v _ => ?_
    have hnil : (brk 0x400800).steps st.proc = [] := by rw [steps, if_pos (by rw [hbreak]; decide)]
    rw [hnil]
    exact notMem_empty v
  · rw [readsSame_iff_initialises (hready _) h2]
    intro hinit
    refine hinit 0x401000 (by decide) ?_
    rw [steps, hbreak, if_neg (by decide)]
    exact .inr ⟨0x401000, by decide, rfl⟩

/-- A word in a free frame. -/
def leftOver (f : Frame) (s : Vmm FramePool) : Vmm FramePool := s.writeEntry f 0 0x2A

theorem differInFree_leftOver {f : Frame} {s : Vmm FramePool} (hf : f ∈ s.pmm.free) :
    DifferInFree s (leftOver f s) :=
  ⟨rfl, ⟨rfl, rfl, rfl⟩, fun _ hg => setEntry_of_ne _ _ _ (fun heq => hg (heq ▸ hf))⟩

/-- The break grows by a byte. The process reads what was left in the frame that it is given. -/
theorem brkOnce_shows_leftOver :
    ∃ (st : UserMem FramePool) (f : Frame), UserMem.loadedByte = some st ∧
    f ∈ st.vmm.pmm.free ∧ (∃ p' s' p'' t' q, (brk 0x401001).run st.proc st.vmm = some (p', s') ∧
      (brk 0x401001).run st.proc (leftOver f st.vmm) = some (p'', t') ∧ p'.pml4 = some q ∧
      s'.loadByte q 0x401000 = some 0 ∧ t'.loadByte q 0x401000 = some 0x2A) ∧
    ¬ (brk 0x401001).ReadsSame st.proc st.vmm := by
  have hrun : (do
      let st ← UserMem.loadedByte
      let f ← st.vmm.pmm.free.head?
      let r1 ← (brk 0x401001).run st.proc st.vmm
      let r2 ← (brk 0x401001).run st.proc (leftOver f st.vmm)
      let q ← r1.1.pml4
      let e ← walk r1.2.mem q 0x401000
      return (r1.2.loadByte q 0x401000, r2.2.loadByte q 0x401000,
        decide (addr e ∈ st.vmm.pmm.free))) =
      some (some 0, some 0x2A, true) := by decide +kernel
  obtain ⟨st, hst, hrun⟩ := of_bind hrun
  obtain ⟨f, hf, hrun⟩ := of_bind hrun
  obtain ⟨⟨p1, s1⟩, h1, hrun⟩ := of_bind hrun
  obtain ⟨⟨p2, t2⟩, h2, hrun⟩ := of_bind hrun
  obtain ⟨q, hq, hrun⟩ := of_bind hrun
  obtain ⟨e, he, hrun⟩ := of_bind hrun
  simp only [Option.pure_def, some.injEq, Prod.mk.injEq, decide_eq_true_eq] at hrun
  obtain ⟨hs, ht, hfree⟩ := hrun
  have hin := List.mem_of_mem_head? hf
  refine ⟨st, f, hst, hin, ⟨p1, s1, p2, t2, q, h1, h2, hq, hs, ht⟩, fun hsame => ?_⟩
  obtain ⟨-, heq⟩ := hsame _ (differInFree_leftOver hin) p1 s1 p2 t2 h1 h2 q _ hq (by decide)
    ⟨e, he, fun hnot => hnot hfree⟩
  rw [hs, ht] at heq
  cases heq

end MemCall

end Hltos
