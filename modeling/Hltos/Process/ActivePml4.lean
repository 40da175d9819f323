import Hltos.Process.Kernel
import Hltos.Process.KernelHalf

/-!
# The active page table

The PML4 in CR3 is the kernel's or one that has not been freed, and its kernel half is the kernel's,
as long as no process calls `execve`, no segment lies in the kernel's half, and the kernel heap does
not grow into a new entry of the kernel's root.
-/

namespace Hltos

open Lib.Radix Lib.Transition FrameAllocator Vmm Sched List Option

/-! ## The address spaces of the processes -/

variable {record : Process}

namespace Sched

variable {live : List Frame} {kernelPml4 q : Frame} {s s' : Sched}

/-- No listed process has the root `q`. -/
def Unused (q : Frame) (s : Sched) : Prop := ∀ p ∈ s.processes, (s.procs p).pml4 ≠ some q

/-- Every process runs in the kernel's address space or in a live one of its own. -/
structure Registered (live : List Frame) (kernelPml4 : Frame) (s : Sched) : Prop where
  listed : s.processes.Nodup
  idle : (s.procs s.cpu.idleProcess).pml4 = some kernelPml4
  space : ∀ p ∈ s.processes, ∃ r, (s.procs p).pml4 = some r ∧ (r = kernelPml4 ∨ r ∈ live)
  apart : ∀ p ∈ s.processes, ∀ q ∈ s.processes, ∀ r ∈ live, (s.procs p).pml4 = some r →
    (s.procs q).pml4 = some r → p = q
  uheap : ∀ p ∈ s.processes, ∀ r ∈ live, (s.procs p).pml4 = some r →
    (s.procs p).uheap.pml4Idx.toNat < 256

namespace Registered

section

variable (h : Registered live kernelPml4 s)

include h

theorem switched (hs : Switched s s') : Registered live kernelPml4 s' := by
  refine ⟨?_, ?_, ?_, ?_, ?_⟩
  · rw [hs.processes]; exact h.listed
  · rw [hs.idle, hs.pml4]; exact h.idle
  · intro p hp
    rw [hs.processes] at hp
    rw [hs.pml4]
    exact h.space p hp
  · intro p hp q hq r hr hpr hqr
    rw [hs.processes] at hp hq
    rw [hs.pml4] at hpr hqr
    exact h.apart p hp q hq r hr hpr hqr
  · intro p hp r hr hpr
    rw [hs.processes] at hp
    rw [hs.pml4] at hpr
    rw [hs.uheap]
    exact h.uheap p hp r hr hpr

theorem switchPml4 : Registered live kernelPml4 (s.switchPml4 q) :=
  ⟨h.listed, h.idle, h.space, h.apart, h.uheap⟩

/-- A new root, which no process has yet. -/
theorem cons (hq : s.Unused q) : Registered (q :: live) kernelPml4 s := by
  have hold : ∀ p ∈ s.processes, ∀ r ∈ q :: live, (s.procs p).pml4 = some r → r ∈ live := by
    intro p hp r hr hpr
    rcases mem_cons.mp hr with rfl | hr
    · exact absurd hpr (hq p hp)
    · exact hr
  refine ⟨h.listed, h.idle, fun p hp => ?_, fun p hp p' hp' r hr hpr => ?_, fun p hp r hr hpr => ?_⟩
  · obtain ⟨r, hpr, hr⟩ := h.space p hp
    exact ⟨r, hpr, hr.imp id (mem_cons_of_mem _)⟩
  · exact h.apart p hp p' hp' r (hold p hp r hr hpr) hpr
  · exact h.uheap p hp r (hold p hp r hr hpr) hpr

end

/-- A process gets a root that is the kernel's or that no process has. -/
structure Fits (live : List Frame) (kernelPml4 : Frame) (record : Process) (s : Sched) : Prop where
  space : ∃ r, record.pml4 = some r ∧ (r = kernelPml4 ∨ r ∈ live)
  unused : ∀ r ∈ live, record.pml4 = some r → s.Unused r ∧ record.uheap.pml4Idx.toNat < 256

variable {p : ProcRef} (h : Registered live kernelPml4 s)

include h

/-- The record of one process is written, which may be a new one. -/
theorem written
    (hf : Fits live kernelPml4 (s'.procs p) s) (hother : ∀ q, q ≠ p → s'.procs q = s.procs q)
    (hnodup : s'.processes.Nodup) (hmem : ∀ q ∈ s'.processes, q = p ∨ q ∈ s.processes)
    (hidle : s'.cpu.idleProcess = s.cpu.idleProcess) (hp : s.cpu.idleProcess ≠ p) :
    Registered live kernelPml4 s' := by
  have hold : ∀ q ∈ s'.processes, q ≠ p → q ∈ s.processes := fun q hq hne =>
    (hmem q hq).resolve_left hne
  refine ⟨hnodup, ?_, fun q hq => ?_, fun q hq q' hq' r hr hqr hqr' => ?_, fun q hq r hr hqr => ?_⟩
  · rw [hidle, hother _ hp]
    exact h.idle
  · by_cases hqp : q = p
    · rw [hqp]; exact hf.space
    · rw [hother q hqp]; exact h.space q (hold q hq hqp)
  · by_cases hqp : q = p <;> by_cases hqp' : q' = p
    · rw [hqp, hqp']
    · rw [hqp] at hqr
      rw [hother q' hqp'] at hqr'
      exact absurd hqr' ((hf.unused r hr hqr).1 q' (hold q' hq' hqp'))
    · rw [hqp'] at hqr'
      rw [hother q hqp] at hqr
      exact absurd hqr ((hf.unused r hr hqr').1 q (hold q hq hqp))
    · rw [hother q hqp] at hqr
      rw [hother q' hqp'] at hqr'
      exact h.apart q (hold q hq hqp) q' (hold q' hq' hqp') r hr hqr hqr'
  · by_cases hqp : q = p
    · rw [hqp] at hqr ⊢
      exact (hf.unused r hr hqr).2
    · rw [hother q hqp] at hqr ⊢
      exact h.uheap q (hold q hq hqp) r hr hqr

theorem addProcess (hp : p ∉ s.processes) (hidle : p ≠ s.cpu.idleProcess)
    (hf : Fits live kernelPml4 record s) : Registered live kernelPml4 (s.addProcess p record) := by
  have hself : (s.addProcess p record).procs p = record := update_procs_self p (fun _ => record) s
  have hlist : (s.addProcess p record).processes = s.processes ++ [p] := rfl
  have hfits : Fits live kernelPml4 ((s.addProcess p record).procs p) s := by rwa [hself]
  refine h.written hfits (fun q hq =>
    update_procs_of_ne (fun _ => record) s hq) ?_ ?_ rfl hidle.symm
  · rw [hlist, ← concat_eq_append]
    exact h.listed.concat hp
  · intro q hq
    rw [hlist, mem_append, mem_singleton] at hq
    exact hq.symm

/-- `reap` takes the dead processes off the list, and their roots with them. -/
theorem reap {live' : List Frame} (hs : s.reap = some s')
    (hlive : ∀ r ∈ live, (∀ p ∈ s.processes, (s.procs p).isDead = true →
      (s.procs p).pml4 ≠ some r) →
      r ∈ live') (hsub : ∀ r ∈ live', r ∈ live) : Registered live' kernelPml4 s' := by
  unfold Sched.reap at hs
  split at hs
  · cases hs
  · cases hs
    have hmem : ∀ {p}, p ∈ s.processes.filter (fun p => !(s.procs p).isDead) →
        p ∈ s.processes ∧ (s.procs p).isDead = false := by simp
    refine ⟨h.listed.filter _, h.idle, fun p hp => ?_, fun p hp q hq r hr => ?_,
      fun p hp r hr => ?_⟩
    · obtain ⟨hp, halive⟩ := hmem hp
      obtain ⟨r, hpr, hr⟩ := h.space p hp
      refine ⟨r, hpr, hr.imp id (fun hr => hlive r hr (fun q hq hdead hqr => ?_))⟩
      rw [h.apart p hp q hq r hr hpr hqr, hdead] at halive
      cases halive
    · exact h.apart p (hmem hp).1 q (hmem hq).1 r (hsub r hr)
    · exact h.uheap p (hmem hp).1 r (hsub r hr)

end Registered

theorem Queued.switchPml4 {D : Set ProcRef} (h : Queued s D) : Queued (s.switchPml4 q) D :=
  ⟨h.readyNodup, h.sleepersNodup, h.memReady, h.memSleepers, h.key, h.notRunning, h.idle⟩

theorem Partition.switchPml4 (h : Partition s) : Partition (s.switchPml4 q) :=
  ⟨⟨h.queued.switchPml4, h.member⟩, h.running⟩

end Sched

/-! ## The roots -/

namespace Vmm

variable {σ : Type} [FrameAllocator σ] {s s' : Vmm σ} {live live' : List Frame} {q : Frame}
  (h : Rooted live s) (hq : q ∈ live)

include h hq

theorem Rooted.loaded {ms : List (Word × Word)} {vs : List Word}
    (hload : Loaded q ms vs s s') (hms : ∀ m ∈ ms, m.1.toNat + m.2.toNat ≤ 2 ^ 47)
    (hvs : ∀ v ∈ vs, v.toNat < 2 ^ 47) : Rooted live s' ∧ Same s s' := by
  have hk := hload.keeps (h.owns_user hq)
    (fun m hm k hk => h.userHead (lowerHalf_mapPages (hms m hm) k hk))
    (fun v hv => h.userHead (lowerHalf_pml4Idx (hvs v hv)))
  exact ⟨h.user_step hq hk, hk.same⟩

theorem Rooted.heapAt {heap heap' : Heap}
    (hlow : heap.pml4Idx.toNat < 256) (hrun : s.heapAt heap q = some (heap', s')) :
    heap' = heap ∧ Rooted live s' ∧ Same s s' := by
  obtain ⟨heq, hg⟩ := heapAt_spec (h.owns_user hq).tables
    (fun i hi => h.userHead (toIdx_lowerHalf hlow hi)) hrun
  have hk := (h.owns_user hq).grown hg
  exact ⟨heq, h.user_step hq hk, hk.same⟩

theorem Rooted.mapElf64Header {fileBuffer hb hb' : Word} {header : Elf64ProgramHeader}
    (hlow : header.pVaddr.toNat < 2 ^ 47)
    (hrun : s.mapElf64Header q fileBuffer header hb = some (hb', s')) :
    Rooted live s' ∧ Same s s' := by
  have hload := mapElf64Header_loaded hrun
  obtain ⟨hfit, hwritten⟩ := written_low (hload.pos _ mem_cons_self) hload.canonical hlow
  exact h.loaded hq hload (fun m hm => by rw [mem_singleton.mp hm]; exact hfit) hwritten

theorem Rooted.buildUserStack {argvStrs envpStrs : List (List Byte)} {rsp : Word}
    (hfit : stackBytes argvStrs envpStrs ≤ userStackTop.toNat)
    (hrun : s.buildUserStack q argvStrs envpStrs = some (rsp, s')) :
    Rooted live s' ∧ Same s s' := by
  obtain ⟨s1, hmap, vs, hlen, hdesc, hs⟩ := buildUserStack_pushes hrun
  have hlt := (hdesc.mem_iff (hdesc.top_notMem (hlen ▸ hfit))).2
  have hload := Loaded.map hmap (.of_stored hs)
  exact h.loaded hq hload (by simp; decide) (fun v hv => ((hlt v).mp hv).2.trans (by decide))

end Vmm

/-! ## The invariant -/

namespace Kernel

variable {σ : Type} [FrameAllocator σ] {k k' : Kernel σ} {r : Frame} {file : List Word}
  {live : List Frame} {call : ExecCall} {q : Frame}

/-- While a program is loaded, its root is in CR3, and no process has it yet. -/
structure LoadingIn (live : List Frame) (s : Sched) (call : ExecCall) (q : Frame) : Prop where
  partition : Partition s
  caller : call.target = none ↔ s.cpu.process ≠ s.cpu.idleProcess
  cr3 : s.cpu.cr3 = some q
  live : q ∈ live
  unused : s.Unused q

/-- What is known at each stage. -/
def StageOk (kernelPml4 : Frame) (live : List Frame) (s : Sched) : Stage → Prop
  | .outside => Partition s ∧ s.InCr3
  | .forking q => Partition s ∧ s.cpu.process ≠ s.cpu.idleProcess ∧
    (s.procs s.cpu.process).pml4 ≠ some kernelPml4 ∧ s.cpu.cr3 = some q ∧ q ∈ live ∧ s.Unused q
  | .freed call _ => Partition s ∧ (call.target = none ↔ s.cpu.process ≠ s.cpu.idleProcess) ∧
    s.cpu.cr3 = some kernelPml4
  | .created call _ q => LoadingIn live s call q
  | .mapping call _ q uheap _ _ => LoadingIn live s call q ∧ uheap.pml4Idx.toNat < 256
  | .built call image => LoadingIn live s call image.pml4 ∧ image.uheap.pml4Idx.toNat < 256
  | .replaced => Held s ∧ s.cpu.cr3 = some kernelPml4

structure Sound (k : Kernel σ) : Prop where
  rooted : Rooted k.live k.vmm
  registered : Registered k.live k.vmm.kernelPml4 k.sched
  stage : StageOk k.vmm.kernelPml4 k.live k.sched k.stage

omit [FrameAllocator σ] in
theorem isOutside_iff : k.isOutside = true ↔ k.stage = .outside := by
  unfold isOutside
  cases k.stage <;> simp

namespace Sound

variable {st : Stage} {p : ProcRef} {s : Vmm σ} {clock : Nat → Word} {pid : Int} {kernelRsp : Word}

section

variable (h : Sound k)

include h

theorem stage_of (hst : k.stage = st) : StageOk k.vmm.kernelPml4 k.live k.sched st := hst ▸ h.stage

/-- The root of a process is the kernel's or live. -/
theorem root_of_mem {r : Frame}
    (hp : p = k.sched.cpu.idleProcess ∨ p ∈ k.sched.processes)
    (hr : (k.sched.procs p).pml4 = some r) :
    r = k.vmm.kernelPml4 ∨ r ∈ k.live := by
  rcases hp with rfl | hp
  · exact .inl (Option.some.inj (hr.symm.trans h.registered.idle))
  · obtain ⟨r', hr', hlive⟩ := h.registered.space p hp
    cases hr.symm.trans hr'
    exact hlive

/-- A frame that was free is the root of no process. -/
theorem unused_of_fresh (hq : q ∉ allocated k.vmm.pmm) : k.sched.Unused q :=
  fun _ hp hpq => hq (h.rooted.root_allocated (h.root_of_mem (.inr hp) hpq))

/-- An operation on memory that leaves the roots as they are. -/
theorem of_vmm (hr : Rooted k.live s) (hkernel : s.kernelPml4 = k.vmm.kernelPml4)
    (hst : StageOk k.vmm.kernelPml4 k.live k.sched st) :
    Sound { k with vmm := s, stage := st } := by
  refine ⟨hr, ?_, ?_⟩
  · rw [hkernel]
    exact h.registered
  · rw [hkernel]
    exact hst

/-! ### Scheduling -/

theorem schedule {c : Sched.Call} (hn : k.schedule c clock = some k') : Sound k' := by
  unfold Kernel.schedule at hn
  split at hn
  · next hok =>
    rw [Bool.and_eq_true] at hok
    obtain ⟨s, hs, rfl⟩ := map_eq_some_iff.mp hn
    have hst := isOutside_iff.mp hok.1
    obtain ⟨hp, hc⟩ := h.stage_of hst
    have hsw := Switched.call hok.2 hs
    refine ⟨h.rooted, h.registered.switched hsw, ?_⟩
    rw [hst]
    exact ⟨hp.call hs, hsw.cr3 hc⟩
  · cases hn

/-- A process is added, with CR3 as it should be. -/
theorem add (hst : k.stage = .outside)
    (hf : Registered.Fits k.live k.vmm.kernelPml4 record k.sched) (hn : k.add p record = some k') :
    Sound k' := by
  obtain ⟨s, hs, rfl⟩ := map_eq_some_iff.mp hn
  obtain ⟨hp, hc⟩ := h.stage_of hst
  have hpart := hp.call hs
  simp only [Sched.call] at hs
  split at hs
  · next hok =>
    cases hs
    refine ⟨h.rooted, h.registered.addProcess hok.1 hok.2.1 hf, ?_⟩
    rw [hst]
    refine ⟨hpart, ?_⟩
    have hne : k.sched.cpu.process ≠ p := by
      rintro rfl
      exact hp.member.elim hok.2.1 hok.1
    have hrec : (k.sched.addProcess p record).procs k.sched.cpu.process =
      k.sched.procs k.sched.cpu.process := update_procs_of_ne (fun _ => record) k.sched hne
    show k.sched.cpu.cr3 = ((k.sched.addProcess p record).procs k.sched.cpu.process).pml4
    rw [hrec]
    exact hc
  · cases hs

theorem addKThread {entry : Word} (hn : k.addKThread p pid kernelRsp entry = some k') :
    Sound k' := by
  unfold Kernel.addKThread at hn
  split at hn
  · next hok =>
    refine h.add (isOutside_iff.mp hok) ⟨⟨_, rfl, .inl rfl⟩, fun r hr heq => ?_⟩ hn
    cases heq
    exact absurd hr h.rooted.kernelPml4_notMem
  · cases hn

end

/-! ### The reaper -/

/-- The roots of the dead are freed one after the other; the kernel's is not. -/
theorem terminateAll_spec {fs live' : List Frame} {s' : Vmm σ} (h : Rooted live s)
    (hfs : ∀ f ∈ fs, f = s.kernelPml4 ∨ f ∈ live)
    (hdis : fs.Pairwise (fun f g => f = g → f = s.kernelPml4))
    (hrun : terminateAll (fs.map some) s live = some (s', live')) :
    Rooted live' s' ∧ s'.kernelPml4 = s.kernelPml4 ∧ ∀ r, r ∈ live' ↔ r ∈ live ∧ r ∉ fs := by
  induction fs generalizing s live with
  | nil => cases hrun; exact ⟨h, rfl, by simp⟩
  | cons f fs ih =>
    have hfree : Rooted (live.filter (· ≠ f)) (s.freeUserPml4 f) ∧
        (s.freeUserPml4 f).kernelPml4 = s.kernelPml4 := by
      rcases hfs f mem_cons_self with rfl | hl
      · have hlive : live.filter (· ≠ s.kernelPml4) = live := by
          refine filter_eq_self.mpr (fun r hr => ?_)
          simpa using fun heq : r = s.kernelPml4 => h.kernelPml4_notMem (heq ▸ hr)
        rw [hlive, show s.freeUserPml4 s.kernelPml4 = s from if_pos rfl]
        exact ⟨h, rfl⟩
      · obtain ⟨hr, hsame⟩ := h.freeUserPml4 hl
        exact ⟨hr, hsame.kernelPml4⟩
    obtain ⟨hfirst, hrest⟩ := pairwise_cons.mp hdis
    have hrest' : ∀ g ∈ fs, g = (s.freeUserPml4 f).kernelPml4 ∨ g ∈ live.filter (· ≠ f) := by
      intro g hg
      rw [hfree.2]
      refine (hfs g (mem_cons_of_mem _ hg)).imp id (fun hl => ?_)
      refine mem_filter.mpr ⟨hl, decide_eq_true (fun heq => ?_)⟩
      -- only the kernel's root comes twice
      exact h.kernelPml4_notMem (hfirst g hg heq.symm ▸ heq ▸ hl)
    obtain ⟨hr, hkernel, hiff⟩ := ih hfree.1 hrest' (by rw [hfree.2]; exact hrest) hrun
    refine ⟨hr, hkernel.trans hfree.2, fun r => ?_⟩
    rw [hiff, mem_filter, mem_cons, not_or, decide_eq_true_eq, and_assoc]

section

variable (h : Sound k)

include h

/-- `reap` frees the roots of dead processes only. -/
theorem reap (hn : k.reap = some k') : Sound k' := by
  unfold Kernel.reap at hn
  split at hn
  · next hok =>
    obtain ⟨s, hs, hn⟩ := of_bind hn
    obtain ⟨⟨vmm, live⟩, hterm, hn⟩ := of_bind hn
    cases hn
    have hst := isOutside_iff.mp hok
    obtain ⟨hp, hc⟩ := h.stage_of hst
    have hreg := h.registered
    -- the roots of the dead processes
    let dead := k.sched.processes.filter (fun p => (k.sched.procs p).isDead)
    let rootOf := fun p => ((k.sched.procs p).pml4).getD k.vmm.kernelPml4
    have hdead : ∀ {p}, p ∈ dead ↔ p ∈ k.sched.processes ∧ (k.sched.procs p).isDead = true :=
      mem_filter
    have hroot : ∀ p ∈ k.sched.processes, (k.sched.procs p).pml4 = some (rootOf p) := by
      intro p hp
      obtain ⟨r, hr, -⟩ := hreg.space p hp
      simp [rootOf, hr]
    have hmap : dead.map (fun p => (k.sched.procs p).pml4) = (dead.map rootOf).map some := by
      rw [List.map_map]
      exact List.map_congr_left (fun p hp => hroot p (hdead.mp hp).1)
    have hfs : ∀ f ∈ dead.map rootOf, f = k.vmm.kernelPml4 ∨ f ∈ k.live := by
      intro f hf
      obtain ⟨p, hp, rfl⟩ := mem_map.mp hf
      exact h.root_of_mem (.inr (hdead.mp hp).1) (hroot p (hdead.mp hp).1)
    have hdis : (dead.map rootOf).Pairwise (fun f g => f = g → f = k.vmm.kernelPml4) := by
      refine pairwise_map.mpr ((hreg.listed.filter _).imp_of_mem ?_)
      intro p q hp hq hne heq
      have hp := (hdead.mp hp).1
      have hq := (hdead.mp hq).1
      refine (h.root_of_mem (.inr hp) (hroot p hp)).resolve_right (fun hl => hne ?_)
      exact hreg.apart p hp q hq _ hl (hroot p hp) (heq ▸ hroot q hq)
    obtain ⟨hr, hkernel, hiff⟩ := terminateAll_spec h.rooted hfs hdis (hmap ▸ hterm)
    refine ⟨hr, ?_, ?_⟩
    · rw [hkernel]
      refine hreg.reap hs (fun r hr hnot => (hiff r).mpr ⟨hr, fun hm => ?_⟩) (fun r hr =>
        ((hiff r).mp hr).1)
      obtain ⟨p, hp, rfl⟩ := mem_map.mp hm
      exact hnot p (hdead.mp hp).1 (hdead.mp hp).2 (hroot p (hdead.mp hp).1)
    · rw [hst]
      refine ⟨hp.reap hs, ?_⟩
      unfold Sched.reap at hs
      split at hs
      · cases hs
      · cases hs; exact hc
  · cases hn

/-! ### `Process::fork` -/

/-- The clone is a new root, and CR3 has it until `fork` ends. -/
theorem forkClone (hn : k.forkClone = some k') : Sound k' := by
  unfold Kernel.forkClone at hn
  split at hn
  · next hok =>
    simp only [Bool.and_eq_true, bne_iff_ne, busy] at hok
    obtain ⟨⟨hst, hbusy⟩, huser⟩ := hok
    obtain ⟨hp, -⟩ := h.stage_of (isOutside_iff.mp hst)
    obtain ⟨r, hr, hn⟩ := of_bind hn
    obtain ⟨⟨q, s⟩, hclone, hn⟩ := of_bind hn
    cases hn
    have hlive : r ∈ k.live := by
      refine (h.root_of_mem hp.member hr).resolve_left ?_
      rintro rfl
      exact huser hr
    obtain ⟨hrooted, hfresh, hsame⟩ := h.rooted.cloneUserPml4 hlive hclone
    have hunused := h.unused_of_fresh hfresh
    refine ⟨hrooted, ?_, ?_⟩
    · rw [hsame.kernelPml4]
      exact (h.registered.cons hunused).switchPml4
    · rw [hsame.kernelPml4]
      exact ⟨hp.switchPml4, hbusy, huser, rfl, mem_cons_self, hunused⟩
  · cases hn

/-- The child gets the cloned root, and CR3 the parent's again. -/
theorem forkFinish (hn : k.forkFinish p pid kernelRsp = some k') : Sound k' := by
  unfold Kernel.forkFinish at hn
  split at hn
  · next q hst =>
    obtain ⟨hp, hbusy, huser, -, hq, hunused⟩ := h.stage_of hst
    obtain ⟨⟨uheap, s⟩, hheap, hn⟩ := of_bind hn
    obtain ⟨r, hr, hn⟩ := of_bind hn
    have hcur := hp.member.resolve_left hbusy
    have hlow : k.record.uheap.pml4Idx.toNat < 256 := by
      refine h.registered.uheap _ hcur r ((h.root_of_mem (.inr hcur) hr).resolve_left ?_) hr
      rintro rfl
      exact huser hr
    obtain ⟨rfl, hrooted, hsame⟩ := h.rooted.heapAt hq hlow hheap
    have hk : Sound { k with vmm := s, sched := k.sched.switchPml4 r, stage := .outside } := by
      refine ⟨hrooted, ?_, hp.switchPml4, hr.symm⟩
      rw [hsame.kernelPml4]
      exact h.registered.switchPml4
    refine hk.add rfl ⟨⟨q, rfl, .inr hq⟩, fun r' hr' heq => ?_⟩ hn
    cases heq
    exact ⟨hunused, hlow⟩
  · cases hn

/-! ### `exec_elf64` -/

/-- There is nothing to free but in an address space that is not the kernel's. -/
theorem execFree (hsafe : call.target = none → k.record.pml4 = some k.vmm.kernelPml4)
    (hn : k.execFree call = some k') : Sound k' := by
  unfold Kernel.execFree at hn
  split at hn
  · next hok =>
    rw [Bool.and_eq_true] at hok
    obtain ⟨hp, hc⟩ := h.stage_of (isOutside_iff.mp hok.1)
    obtain ⟨cr3, -, hn⟩ := of_bind hn
    obtain ⟨file, -, hn⟩ := of_bind hn
    split at hn
    · cases hn
    · cases hn
      -- the old PML4 is null or the kernel's, which stays
      have hold : k.vmm.freeOldPml4 (k.execRecord call).pml4 = k.vmm ∧
          k.live.filter (fun r => some r ≠ (k.execRecord call).pml4) = k.live ∧
          (call.target = none ↔ k.sched.cpu.process ≠ k.sched.cpu.idleProcess) ∧
          k.sched.cpu.cr3 = some k.vmm.kernelPml4 := by
        have hcan := hok.2
        unfold canExec busy at hcan
        unfold execRecord
        cases htarget : call.target with
        | none =>
          simp only [htarget, bne_iff_ne] at hcan
          have hkernel := hsafe htarget
          refine ⟨?_, filter_eq_self.mpr (fun r hr => ?_), iff_of_true rfl hcan, hc.trans hkernel⟩
          · simp only [hkernel]
            exact if_pos rfl
          · simp only [hkernel, ne_eq, Option.some.injEq, decide_eq_true_eq]
            exact fun heq => h.rooted.kernelPml4_notMem (heq ▸ hr)
        | some target =>
          simp only [htarget, Bool.and_eq_true, Bool.not_eq_true', bne_eq_false_iff_eq,
            isNone_iff_eq_none] at hcan
          refine ⟨?_, filter_eq_self.mpr (fun r hr => ?_), iff_of_false (by simp) ?_, ?_⟩
          · simp only [hcan.2]
            rfl
          · simp [hcan.2]
          · exact fun hne => hne hcan.1
          · refine hc.trans ?_
            rw [hcan.1]
            exact h.registered.idle
      obtain ⟨hvmm, hlive, hcaller, hcr3⟩ := hold
      rw [hvmm, hlive]
      exact h.of_vmm h.rooted rfl ⟨hp, hcaller, hcr3⟩
  · cases hn

theorem execCreate (hn : k.execCreate = some k') : Sound k' := by
  unfold Kernel.execCreate at hn
  split at hn
  · next call file hst =>
    obtain ⟨hp, hcaller, -⟩ := h.stage_of hst
    obtain ⟨⟨q, s⟩, hcreate, hn⟩ := of_bind hn
    cases hn
    obtain ⟨hrooted, hfresh, hsame⟩ := h.rooted.createUserPml4 hcreate
    have hunused := h.unused_of_fresh hfresh
    refine ⟨hrooted, ?_, hp.switchPml4, hcaller, rfl, mem_cons_self, hunused⟩
    rw [hsame.kernelPml4]
    exact (h.registered.cons hunused).switchPml4
  · cases hn

theorem execHeap (hn : k.execHeap = some k') : Sound k' := by
  unfold Kernel.execHeap at hn
  split at hn
  · next call file q hst =>
    have hl := h.stage_of hst
    obtain ⟨⟨uheap, s⟩, hheap, hn⟩ := of_bind hn
    cases hn
    obtain ⟨rfl, hrooted, hsame⟩ := h.rooted.heapAt hl.live (by decide) hheap
    exact h.of_vmm hrooted hsame.kernelPml4 ⟨hl, by decide⟩
  · cases hn

theorem execHeader (hsafe : ∀ header ∈ k.stage.nextHeader, header.pVaddr.toNat < 2 ^ 47)
    (hn : k.execHeader = some k') : Sound k' := by
  unfold Kernel.execHeader at hn
  split at hn
  · next call entry q uheap header headers hb hst =>
    obtain ⟨hl, hlow⟩ := h.stage_of hst
    obtain ⟨⟨hb', s⟩, hmap, hn⟩ := of_bind hn
    cases hn
    rw [hst] at hsafe
    obtain ⟨hrooted, hsame⟩ := h.rooted.mapElf64Header hl.live (hsafe header rfl) hmap
    exact h.of_vmm hrooted hsame.kernelPml4 ⟨hl, hlow⟩
  · cases hn

theorem execStack (hsafe : ∀ call ∈ k.stage.mappingCall,
      stackBytes call.argvStrs call.envpStrs ≤ userStackTop.toNat)
    (hn : k.execStack = some k') : Sound k' := by
  unfold Kernel.execStack at hn
  split at hn
  · next call entry q uheap hb hst =>
    obtain ⟨hl, hlow⟩ := h.stage_of hst
    obtain ⟨⟨rsp, s⟩, hstack, hn⟩ := of_bind hn
    cases hn
    rw [hst] at hsafe
    obtain ⟨hrooted, hsame⟩ := h.rooted.buildUserStack hl.live (hsafe call rfl) hstack
    exact h.of_vmm hrooted hsame.kernelPml4 ⟨hl, hlow⟩
  · cases hn

/-- `exec_elf64` ends with the kernel's root in CR3 and the new one in the record. -/
theorem execFinish (hn : k.execFinish = some k') : Sound k' := by
  unfold Kernel.execFinish at hn
  split at hn
  · next call image hst =>
    obtain ⟨hl, hlow⟩ := h.stage_of hst
    have hfits : ∀ r : Process, Registered.Fits k.live k.vmm.kernelPml4 (r.execReset image)
        (k.sched.switchPml4 k.vmm.kernelPml4) := by
      intro r
      refine ⟨⟨image.pml4, rfl, .inr hl.live⟩, fun q _ heq => ?_⟩
      cases heq
      exact ⟨hl.unused, hlow⟩
    split at hn
    · next htarget =>
      cases hn
      have hbusy := hl.caller.mp htarget
      have hcur := hl.partition.member.resolve_left hbusy
      have hreg := h.registered.switchPml4 (q := k.vmm.kernelPml4)
      refine ⟨h.rooted, ?_, hl.partition.switchPml4.toHeld.update_current _, rfl⟩
      refine hreg.written (p := k.sched.cpu.process) ?_
        (fun q hq => update_procs_of_ne _ _ hq) hreg.listed (fun q hq => .inr hq) rfl hbusy.symm
      rw [show (Kernel.sched _).procs k.sched.cpu.process = k.record.execReset image from
        update_procs_self _ _ _]
      exact hfits _
    · next p record htarget =>
      have hk : Sound { k with
          sched := k.sched.switchPml4 k.vmm.kernelPml4, stage := .outside } := by
        have hidle : k.sched.cpu.process = k.sched.cpu.idleProcess := by
          by_contra hbusy
          rw [hl.caller.mpr hbusy] at htarget
          cases htarget
        refine ⟨h.rooted, h.registered.switchPml4, hl.partition.switchPml4, ?_⟩
        show some k.vmm.kernelPml4 = (k.sched.procs k.sched.cpu.process).pml4
        rw [hidle, h.registered.idle]
      exact hk.add rfl (hfits record) hn
  · cases hn

theorem yieldNewProcess (hn : k.yieldNewProcess clock = some k') : Sound k' := by
  unfold Kernel.yieldNewProcess at hn
  split at hn
  · next hst =>
    obtain ⟨hheld, -⟩ := h.stage_of hst
    obtain ⟨⟨s, e⟩, hs, rfl⟩ := map_eq_some_iff.mp hn
    obtain ⟨hsw, hcr3⟩ := Switched.yieldNewProcess hs
    exact ⟨h.rooted, h.registered.switched hsw, hheld.yieldNewProcess hs, hcr3⟩
  · cases hn

end

/-! ### Whole runs -/

theorem of_init (h : (system σ).init k) : Sound k := by
  obtain ⟨hboot, hdirect, hs, hidle, hcr3, hst, hlive⟩ := h
  obtain ⟨hproc, -, -, hcur⟩ := id hs
  have hnone : ∀ {P : ProcRef → Prop}, ∀ p ∈ k.sched.processes, P p := by simp [hproc]
  have hrec : (k.sched.procs k.sched.cpu.idleProcess).pml4 = some k.vmm.kernelPml4 := hcur ▸ hidle
  refine ⟨⟨.of_booted hboot hlive rfl, hdirect, by simp [hlive]⟩,
    ⟨by simp [hproc], hrec, hnone, hnone, hnone⟩, ?_⟩
  rw [hst]
  exact ⟨partition_of_reachable (.start hs), hcr3.trans hidle.symm⟩

end Sound

/-- What a step must not do. A process that has an address space of its own calls `execve`, which
frees the PML4 that is in CR3; a segment lies in the kernel's half; the strings of a program go down
past address 0; the kernel heap grows into an entry that the roots of the processes do not have. -/
def Safe : KernelOp → Kernel σ → Prop
  | .execFree call, k => call.target = none → k.record.pml4 = some k.vmm.kernelPml4
  | .execHeader, k => ∀ header ∈ k.stage.nextHeader, header.pVaddr.toNat < 2 ^ 47
  | .execStack, k => ∀ call ∈ k.stage.mappingCall,
    stackBytes call.argvStrs call.envpStrs ≤ userStackTop.toNat
  | .allocKernel bytes, k => Rooted.HeapStays k.live (heapPages bytes).toNat k.vmm
  | .allocKernelPage, k => Rooted.HeapStays k.live 1 k.vmm
  | _, _ => True

instance : (op : KernelOp) → (k : Kernel σ) → Decidable (Safe op k)
  | .execFree _, _ => inferInstanceAs (Decidable (_ = none → _ = some _))
  | .execHeader, _ => inferInstanceAs (Decidable (∀ header ∈ _, _ < 2 ^ 47))
  | .execStack, _ => inferInstanceAs (Decidable (∀ call ∈ _, _ ≤ _))
  | .allocKernel _, _ => inferInstanceAs (Decidable (Rooted.HeapStays _ _ _))
  | .allocKernelPage, _ => inferInstanceAs (Decidable (Rooted.HeapStays _ _ _))
  | .call _ _, _ | .addKThread _ _ _ _, _ | .reap, _ | .forkClone, _ | .forkFinish _ _ _, _
  | .execCreate, _ | .execHeap, _ | .execFinish, _ | .yieldNewProcess _, _ | .freeKernel _, _
  | .freeKernelPage _, _ => .isTrue trivial

/-- **One step of the kernel**, whichever part of a call it is. -/
theorem Sound.step {op : KernelOp} (h : Sound k) (hsafe : Safe op k) (hn : next op k = some k') :
    Sound k' := by
  cases op with
  | call c clock => exact h.schedule hn
  | addKThread p pid kernelRsp entry => exact h.addKThread hn
  | reap => exact h.reap hn
  | forkClone => exact h.forkClone hn
  | forkFinish p pid kernelRsp => exact h.forkFinish hn
  | execFree call => exact h.execFree hsafe hn
  | execCreate => exact h.execCreate hn
  | execHeap => exact h.execHeap hn
  | execHeader => exact h.execHeader hsafe hn
  | execStack => exact h.execStack hsafe hn
  | execFinish => exact h.execFinish hn
  | yieldNewProcess clock => exact h.yieldNewProcess hn
  | allocKernel bytes =>
    obtain ⟨⟨addr, s⟩, hs, rfl⟩ := map_eq_some_iff.mp hn
    obtain ⟨hr, hkernel⟩ := h.rooted.allocKernel hsafe hs
    exact h.of_vmm hr hkernel h.stage
  | freeKernel virtAddr =>
    simp only [next, ite_none_right_eq_some] at hn
    obtain ⟨s, hs, rfl⟩ := map_eq_some_iff.mp hn.2
    obtain ⟨hr, hsame⟩ := h.rooted.freeKernel hn.1 hs
    exact h.of_vmm hr hsame.kernelPml4 h.stage
  | allocKernelPage =>
    obtain ⟨⟨addr, s⟩, hs, rfl⟩ := map_eq_some_iff.mp hn
    obtain ⟨hr, hkernel⟩ := h.rooted.allocKernelPage hsafe hs
    exact h.of_vmm hr hkernel h.stage
  | freeKernelPage virtAddr =>
    simp only [next, ite_none_right_eq_some] at hn
    obtain ⟨s, hs, rfl⟩ := map_eq_some_iff.mp hn.2
    obtain ⟨hr, hsame⟩ := h.rooted.freeKernelPage hn.1 hs
    exact h.of_vmm hr hsame.kernelPml4 h.stage

/-- The PML4 `r` is in CR3. It has not been freed since it was created, its frame is allocated and
not zero, and its kernel half is the kernel's. -/
structure ActivePml4 (k : Kernel σ) (r : Frame) : Prop where
  cr3 : k.sched.cpu.cr3 = some r
  live : r = k.vmm.kernelPml4 ∨ r ∈ k.live
  allocated : r ∈ allocated k.vmm.pmm
  nonzero : ∃ i, k.vmm.mem r i ≠ 0
  kernel : ∀ i, k.vmm.kernelStart ≤ i → k.vmm.mem r i = k.vmm.mem k.vmm.kernelPml4 i

/-- In a sound state there is an active root. -/
theorem Sound.activePml4 (h : Sound k) : ∃ r, ActivePml4 k r := by
  suffices hcr3 : ∃ r, k.sched.cpu.cr3 = some r ∧ (r = k.vmm.kernelPml4 ∨ r ∈ k.live) by
    obtain ⟨r, hr, hlive⟩ := hcr3
    exact ⟨r, hr, hlive, h.rooted.root_allocated hlive, h.rooted.root_nonzero hlive,
      fun _ => h.rooted.root_shared hlive⟩
  have hst := h.stage
  cases heq : k.stage with
  | outside =>
    rw [heq] at hst
    obtain ⟨hp, hc⟩ := hst
    obtain ⟨r, hr⟩ : ∃ r, (k.sched.procs k.sched.cpu.process).pml4 = some r := by
      rcases hp.member with hi | hm
      · exact ⟨_, hi ▸ h.registered.idle⟩
      · obtain ⟨r, hr, -⟩ := h.registered.space _ hm
        exact ⟨r, hr⟩
    exact ⟨r, hc.trans hr, h.root_of_mem hp.member hr⟩
  | forking q =>
    rw [heq] at hst
    obtain ⟨-, -, -, hcr3, hlive, -⟩ := hst
    exact ⟨q, hcr3, .inr hlive⟩
  | freed call file => rw [heq] at hst; exact ⟨_, hst.2.2, .inl rfl⟩
  | created call file q => rw [heq] at hst; exact ⟨q, hst.cr3, .inr hst.live⟩
  | mapping call entry q uheap headers hb =>
    rw [heq] at hst
    exact ⟨q, hst.1.cr3, .inr hst.1.live⟩
  | built call image => rw [heq] at hst; exact ⟨_, hst.1.cr3, .inr hst.1.live⟩
  | replaced => rw [heq] at hst; exact ⟨_, hst.2, .inl rfl⟩

/-- **The active page table stays valid** in every run without such a step. -/
theorem reachable_activePml4 (h : (system σ).ReachableUnder Safe k) : ∃ r, ActivePml4 k r :=
  (h.invariant (fun _ => Sound.of_init) (fun _ _ _ hs hsafe hn => hs.step hsafe hn)).activePml4

theorem not_activePml4_of_zero (hcr3 : k.sched.cpu.cr3 = some r)
    (hzero : ∀ i, k.vmm.mem r i = 0) : ¬ ∃ r, ActivePml4 k r := by
  rintro ⟨r', ha⟩
  cases hcr3.symm.trans ha.cr3
  obtain ⟨i, hi⟩ := ha.nonzero
  exact hi (hzero i)

/-- `execve` of a process with an address space of its own frees and zeroes the PML4 in CR3,
whatever it loads. -/
theorem execFree_frees_cr3 (call : ExecCall) {file : Elf64File}
    (hout : k.isOutside = true) (hbusy : k.busy = true) (htarget : call.target = none)
    (hcr3 : k.sched.cpu.cr3 = some r)
    (hpml4 : k.record.pml4 = some r) (hne : r ≠ k.vmm.kernelPml4)
    (hfile : Elf.parseFile (fun v => k.vmm.loadByte r v) call.fileBuffer = some file)
    (hvalid : file.isValidElf = true) :
    ∃ k', next (.execFree call) k = some k' ∧ k'.sched.cpu.cr3 = some r ∧ r ∉ k'.live ∧
      r ∉ allocated k'.vmm.pmm ∧ ∀ i, k'.vmm.mem r i = 0 := by
  have hfree : k.vmm.freeOldPml4 (some r) =
      ((k.vmm.freeEntries (freeTables 2) r k.vmm.userIdx).zeroPage r).free r := if_neg hne
  refine ⟨{ k with
    vmm := k.vmm.freeOldPml4 (some r), stage := .freed call file
    live := k.live.filter (fun q => some q ≠ some r) }, ?_, hcr3, by simp, ?_, fun i => ?_⟩
  · simp [next, execFree, canExec, execRecord, htarget, hout, hbusy, hcr3, hfile,
      hvalid, hpml4, Bool.and_self]
  · rw [hfree]
    show r ∉ allocated (freeFrame r _)
    rw [free_allocated]
    exact fun hm => hm.2 rfl
  · rw [hfree]
    exact congrFun (if_pos rfl) i

/-! ## The first program -/

/-- A root with an entry for the direct map, and the file of a program behind it. -/
def bootedVmm (file : List Word) : Option (Vmm FramePool) :=
  ((emptyVmm file).writeEntry 0 510 1).mapPages 0 0xFFFFFF8000000000 0x2000 pageWrite

theorem bootedVmm_booted {s : Vmm FramePool} (h : bootedVmm file = some s) :
    Spaces.Booted s ∧ s.HasEntry s.kernelStart ∧ s.kernelPml4 = 0 := by
  have hzero : (0 : Frame) ∉ (List.range 64).map (fun k => .ofNat 40 (k + 1)) := by decide
  have hblank : ∀ i : Idx, 510 < i →
      child (((emptyVmm file).writeEntry 0 510 1).mem 0 i) = none := by
    intro i hi
    have hne : ¬ (0 = (0 : Frame) ∧ i = 510) := by
      rintro ⟨-, rfl⟩
      exact absurd hi (by decide)
    have hmem : ((emptyVmm file).writeEntry 0 510 1).mem 0 i = (emptyVmm file).mem 0 i := if_neg hne
    rw [hmem, show (emptyVmm file).mem 0 i = 0 from rfl, child_zero]
  have ho : Vmm.Owns (510 < ·) 0 ∅ ((emptyVmm file).writeEntry 0 510 1) :=
    .of_blank_root hblank hzero (Set.empty_subset _) (Set.notMem_empty _)
  have hk := mapPagesFrom_keeps ho (by decide) (mapPages_eq h)
  have hroot : s.kernelPml4 = 0 := hk.same.kernelPml4
  have hstart : s.kernelStart = 510 := by
    rw [hk.same.kernelStart]
    show (0xFFFFFF0000000000 : Word).extractLsb' 39 9 = 510
    decide
  have hheads : s.heapHead = (510 < ·) := by
    unfold heapHead
    rw [hstart]
  refine ⟨⟨by rw [hstart]; decide, ?_, ?_⟩, ?_, hroot⟩
  · rw [hheads, hroot]
    exact hk.owns.tree
  · rw [hstart, hk.same.kheap]
    show CursorAbove 510 ⟨511, 0, 0, 2⟩
    constructor <;> decide
  · unfold HasEntry
    rw [hstart, hroot, hk.root 510 (by decide)]
    show child (setEntry (emptyVmm file).mem 0 510 1 0 510) ≠ none
    rw [setEntry_self]
    decide

/-- The idle process is process 0, and nothing is listed. -/
def bootedSched : Sched :=
  { idleMachine with
    procs := fun p => { freshProcess p with pml4 := some 0 }
    cpu := { idleMachine.cpu with cr3 := some 0 } }

def booted (file : List Word) : Option (Kernel FramePool) :=
  (bootedVmm file).map (fun s => ⟨s, bootedSched, .outside, []⟩)

theorem booted_init {k : Kernel FramePool} (h : booted file = some k) :
    (system FramePool).init k := by
  obtain ⟨s, hs, rfl⟩ := map_eq_some_iff.mp h
  obtain ⟨hboot, hdirect, hroot⟩ := bootedVmm_booted hs
  refine ⟨hboot, hdirect, ⟨rfl, rfl, rfl, rfl⟩, ?_, ?_, rfl, rfl⟩
  · exact congrArg some hroot.symm
  · exact congrArg some hroot.symm

/-- Where the file is, and no arguments. -/
def execCall (target : Option (ProcRef × Process)) : ExecCall :=
  ⟨target, 0, 0xFFFFFF8000000000, [], []⟩

/-- `userspace::init`, and the first tick. -/
def initOps : List KernelOp :=
  [.allocKernelPage, .execFree (execCall (some (1, firstProcess))), .execCreate,
    .execHeap, .execHeader, .execStack, .allocKernel 1, .execFinish, .call .tick (fun _ => 0)]

/-- The process calls `execve`: the PML4 that is in CR3 is freed and zeroed. -/
theorem execve_frees_cr3 : ∃ (k : Kernel FramePool) (r : Frame), (system FramePool).Reachable k ∧
    k.sched.cpu.cr3 = some r ∧ r ∉ k.live ∧ r ∉ FrameAllocator.allocated k.vmm.pmm ∧
    (∀ i, k.vmm.mem r i = 0) ∧ ¬ ∃ r, ActivePml4 k r := by
  have hrun : ((booted (elfWords 0x400000)).bind ((system FramePool).exec initOps)).map (fun k =>
      (k.sched.cpu.cr3, k.record.pml4, k.isOutside && k.busy, k.vmm.kernelPml4,
        (Elf.parseFile (fun v => k.vmm.loadByte 7 v) 0xFFFFFF8000000000).map (·.isValidElf))) =
      some (some 7, some 7, true, 0, some true) := by
    decide +kernel
  obtain ⟨k, hk, hfacts⟩ := map_eq_some_iff.mp hrun
  obtain ⟨k0, hboot, hk⟩ := of_bind hk
  simp only [Prod.mk.injEq, Bool.and_eq_true] at hfacts
  obtain ⟨hcr3, hpml4, ⟨hout, hbusy⟩, hkernel, hparse⟩ := hfacts
  obtain ⟨file, hfile, hvalid⟩ := map_eq_some_iff.mp hparse
  have hreach : (system FramePool).Reachable k := .of_exec (.start (booted_init hboot)) hk
  obtain ⟨k', hstep, hcr3', hlive, hfree, hzero⟩ :=
    execFree_frees_cr3 (execCall none) hout hbusy rfl
    hcr3 hpml4 (by rw [hkernel]; decide) hfile hvalid
  refine ⟨k', 7, ?_, hcr3', hlive, hfree, hzero, not_activePml4_of_zero hcr3' hzero⟩
  exact System.ReachableUnder.tail (l := .execFree (execCall none)) hreach trivial hstep

/-- A kernel thread is added, runs when the slice of the process ends, and exits. -/
def threadOps : List KernelOp :=
  [.addKThread 3 3 0 0, .call .tick (fun _ => timeSliceNs), .call .yieldZombie (fun _ => 0),
    .allocKernelPage]

theorem threadOps_activePml4 : ∃ k : Kernel FramePool, (system FramePool).ReachableUnder Safe k ∧
    k.sched.cpu.cr3 = some 7 ∧ ∃ r, ActivePml4 k r := by
  have hrun : ((booted (elfWords 0x400000)).bind ((system FramePool).execUnder Safe
      (initOps ++ threadOps))).map (fun k => k.sched.cpu.cr3) = some (some 7) := by
    decide +kernel
  obtain ⟨k, hk, hcr3⟩ := map_eq_some_iff.mp hrun
  obtain ⟨k0, hboot, hk⟩ := of_bind hk
  have hreach := System.ReachableUnder.of_execUnder (.start (booted_init hboot)) hk
  exact ⟨k, hreach, hcr3, reachable_activePml4 hreach⟩

end Kernel

end Hltos
