import Hltos.Scheduler.Partition

/-!
# What the calls do to CR3

`activate_process` alone loads CR3, with the PML4 of the process it makes current, and no call of
the mechanism writes the `pml4` of a process. So a call that finds the PML4 of the current process
in CR3 leaves that of the current process there.
-/

namespace Hltos

namespace Sched

variable {s s' s'' : Sched} {T : Set Word} {R : Sched → Sched → Prop} {c : Call}
  {clock : Nat → Word}

/-- CR3 holds the PML4 of the current process. -/
def InCr3 (s : Sched) : Prop := s.cpu.cr3 = (s.procs s.cpu.process).pml4

/-- What no call does to the address spaces, `add_process` and `reap` apart. -/
structure Switched (s s' : Sched) : Prop where
  processes : s'.processes = s.processes
  idle : s'.cpu.idleProcess = s.cpu.idleProcess
  pml4 : ∀ q, (s'.procs q).pml4 = (s.procs q).pml4
  uheap : ∀ q, (s'.procs q).uheap = (s.procs q).uheap
  cr3 : s.InCr3 → s'.InCr3

namespace Switched

theorem trans (h : Switched s s') (h' : Switched s' s'') : Switched s s'' :=
  ⟨h'.processes.trans h.processes, h'.idle.trans h.idle, fun q => (h'.pml4 q).trans (h.pml4 q),
    fun q => (h'.uheap q).trans (h.uheap q), fun hc => h'.cr3 (h.cr3 hc)⟩

/-- The containers may change. -/
theorem of_procs (hproc : s'.processes = s.processes) (hcpu : s'.cpu = s.cpu)
    (hprocs : s'.procs = s.procs) : Switched s s' := by
  refine ⟨hproc, by rw [hcpu], fun q => by rw [hprocs], fun q => by rw [hprocs], fun hc => ?_⟩
  rw [InCr3, hcpu, hprocs]
  exact hc

variable {p : ProcRef} {f : Process → Process}

theorem update
    (hf : (f (s.procs p)).pml4 = (s.procs p).pml4)
    (hu : (f (s.procs p)).uheap = (s.procs p).uheap) :
    Switched s (s.update p f) := by
  have hpml4 : ∀ q, ((s.update p f).procs q).pml4 = (s.procs q).pml4 := by
    intro q
    by_cases hqp : q = p
    · subst hqp; rw [update_procs_self, hf]
    · rw [update_procs_of_ne f s hqp]
  refine ⟨rfl, rfl, hpml4, fun q => ?_, fun hc => ?_⟩
  · by_cases hqp : q = p
    · subst hqp; rw [update_procs_self, hu]
    · rw [update_procs_of_ne f s hqp]
  · rw [InCr3, hpml4]
    exact hc

theorem wakeProcess (p : ProcRef) (s : Sched) : Switched s (s.wakeProcess p) :=
  (update (f := Process.wake) rfl rfl).trans (of_procs rfl rfl rfl)

theorem method (hf : Method f) (p : ProcRef) (s : Sched) : Switched s (s.update p f) := by
  cases hf with
  | pause => apply update <;> unfold Process.pause <;> split <;> rfl
  | _ => exact update rfl rfl

/-- Whatever CR3 held, it holds the PML4 of the chosen process afterwards. -/
theorem activateProcess {now : Word} (h : s.activateProcess now p = some s') :
    Switched s s' ∧ s'.InCr3 := by
  unfold Sched.activateProcess at h
  split at h
  · cases h
    have hup := update (s := s) (p := p) (f := Process.activate now) rfl rfl
    exact ⟨⟨rfl, rfl, hup.pml4, hup.uheap, fun _ => rfl⟩, rfl⟩
  · cases h

theorem respects : Respects Set.univ Switched where
  refl _ := of_procs rfl rfl rfl
  trans := trans
  sleepers _ _ := of_procs rfl rfl rfl
  blocked s p _ := wakeProcess p s
  due s p _ _ _ := wakeProcess p s
  method s _ hf := method hf _ s
  killZombie s p _ := method .kill p s
  enqueue _ := of_procs rfl rfl rfl
  dequeue _ _ _ _ := of_procs rfl rfl rfl
  activate _ h ha := h.trans (activateProcess ha).1

theorem yieldNewProcess {clock : Nat → Word} {e : Exit}
    (h : s.yieldNewProcess clock = some (s', e)) :
    Switched s s' ∧ s'.InCr3 := by
  refine ⟨(respects.yieldNewProcess (fun _ => Set.mem_univ _) h).1, ?_⟩
  unfold Sched.yieldNewProcess at h
  simp only at h
  split at h
  · cases h
  · obtain ⟨s1, ha, h⟩ := Option.map_eq_some_iff.mp h
    cases h
    exact (activateProcess ha).2

end Switched

/-- The calls that neither list nor unlist a process, nor load one. -/
def Call.keepsSpaces : Call → Bool
  | .addProcess _ _ | .exec _ | .reap => false
  | _ => true

/-- How a process begins to wait. -/
inductive Waits : (Process → Process) → Prop
  | waitFor (reason : WaitReason) : Waits (Process.waitFor reason)
  | sleepFor (now duration : Word) : Waits (Process.sleepFor now duration)
  | waitForMutex (mutex : MutexRef) : Waits (Process.waitForMutex mutex)

section

variable (h : Respects T R) (hw : ∀ s f, Waits f → R s (s.update s.cpu.process f))

include h hw

theorem Respects.beginWait (reason : WaitReason) (s : Sched) : R s (s.beginWait reason) := by
  have hup := hw s _ (.waitFor reason)
  unfold Sched.beginWait
  split
  · exact h.trans hup (h.sleepers _ _)
  · exact hup

/-- A relation that the beginning of a wait keeps as well is kept by a whole call. -/
theorem Respects.call
    (hclock : ∀ k, clock k ∈ T) (hc : c.keepsSpaces = true) (hs : s.call c clock = some s') :
    R s s' := by
  have hblocked {s s' : Sched} {reason : WaitReason} {clock : Nat → Word} {e : Exit}
      (hclock : ∀ k, clock k ∈ T) (ht : s.yieldBlocked reason clock = some (s', e)) : R s s' :=
    h.trans (h.beginWait hw reason s) (h.yieldBlocked hclock ht).1
  cases c with
  | addProcess p record => cases hc
  | exec image => cases hc
  | reap => cases hc
  | tick =>
    obtain ⟨⟨t, e⟩, ht, rfl⟩ := Option.map_eq_some_iff.mp hs
    exact (h.tick hclock ht).1
  | yieldBlocked reason =>
    obtain ⟨-, e, ht⟩ := byCurrent_eq_some hs
    exact hblocked hclock ht
  | yieldSleepNs duration =>
    obtain ⟨-, e, ht⟩ := byCurrent_eq_some hs
    exact h.trans (hw s _ (.sleepFor _ _)) (hblocked (fun k => hclock (k + 1)) ht)
  | yieldMutex mutex =>
    obtain ⟨-, e, ht⟩ := byCurrent_eq_some hs
    exact h.trans (hw s _ (.waitForMutex mutex)) (hblocked hclock ht)
  | yieldToChild pid =>
    obtain ⟨-, e, ht⟩ := byCurrent_eq_some hs
    exact (h.yieldToChild hclock ht).1
  | yieldZombie =>
    obtain ⟨-, e, ht⟩ := byCurrent_eq_some hs
    exact (h.yieldZombie hclock ht).1
  | yieldDead =>
    obtain ⟨-, e, ht⟩ := byCurrent_eq_some hs
    exact (h.yieldDead hclock ht).1
  | wakeSingle reason => cases hs; exact h.wakeSingle reason s
  | wakeAll reason => cases hs; exact h.wakeAll reason s
  | wakeMutex mutex => cases hs; exact h.wakeWhere _ s

end

theorem Switched.call (hc : c.keepsSpaces = true) (h : s.call c clock = some s') :
    Switched s s' := by
  refine respects.call ?_ (fun _ => Set.mem_univ _) hc h
  intro s f hf
  cases hf <;> exact update rfl rfl

end Sched

end Hltos
