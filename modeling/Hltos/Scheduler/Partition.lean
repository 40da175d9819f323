import Hltos.Lib.Transition
import Hltos.Scheduler.Advance

/-!
# Every process is in exactly one place

The invariant `Queued` carried through every entry point of the scheduler, and through every run
of them. An entry point starts and ends with `cpu->process` alone in transit (`Held`); in a run
whose calls are atomic the current process is moreover running (`Partition`). `Partition` of a
state gives the statement a user of the scheduler wants, `InOnePlace`.
-/

namespace Hltos

open Option Set Process List

namespace Sched

/-! ## The invariant between calls -/

/-- Only `cpu->process` is in transit, and it is the idle process or a listed one. -/
structure Held (s : Sched) : Prop where
  queued : Queued s {s.cpu.process}
  member : s.cpu.process = s.cpu.idleProcess ∨ s.cpu.process ∈ s.processes

/-- `Held`, with the current process running. -/
structure Partition (s : Sched) : Prop extends Held s where
  running : s.cpu.process ≠ s.cpu.idleProcess → (s.procs s.cpu.process).state = .running

variable {s s' : Sched} {now : Word}

/-- Every switch ends here: the chosen process, alone in transit, is activated. -/
theorem Queued.partition_of_activate {next : ProcRef}
    (h : Queued s {next}) (hmem : next = s.cpu.idleProcess ∨ next ∈ s.processes)
    (ha : s.activateProcess now next = some s') : Partition s' := by
  have ha := activateProcess_spec ha
  refine ⟨⟨?_, ?_⟩, ?_⟩
  · rw [ha.process]
    exact h.activate rfl ha
  · rw [ha.process, ha.idle, ha.processes]
    exact hmem
  · intro _
    rw [ha.process]
    exact ha.running

/-- The common shape of the yields: with nobody in transit, pick a process and activate it. -/
theorem Queued.partition_of_pick {t : Word} (h : Queued s ∅)
    (ha : (s.pickNextProcess t).2.activateProcess now (s.pickNextProcess t).1 = some s') :
    Partition s' := by
  have hp := pickNextProcess_spec t h
  have hq := hp.queued
  rw [insert_empty_eq] at hq
  apply hq.partition_of_activate _ ha
  rw [hp.cpu, hp.processes]
  exact hp.choice.imp id And.left

/-! ## One lemma for each entry point -/

variable {clock : Nat → Word} {e : Exit} {f : Process → Process}

theorem Queued.leaveForever (h : Queued s ∅) (hs : s.leaveForever clock = some (s', e)) :
    Partition s' := by
  unfold Sched.leaveForever at hs
  simp only at hs
  split at hs
  · cases hs
  · obtain ⟨s1, ha, hs⟩ := map_eq_some_iff.mp hs
    cases hs
    exact h.partition_of_pick ha

theorem Held.update_settled (h : Held s)
    (hf : Queued.Settled (f (s.procs s.cpu.process))) : Queued (s.update s.cpu.process f) ∅ := by
  have hq := h.queued.update_of_mem (mem_singleton _) f
  rw [← insert_empty_eq] at hq
  exact hq.attach_settled (by rw [update_procs_self]; exact hf)

theorem Held.yieldDead (h : Held s) (hs : s.yieldDead clock = some (s', e)) : Partition s' :=
  (h.update_settled (.inr (.inl rfl))).leaveForever hs

theorem Held.yieldZombie (h : Held s) (hs : s.yieldZombie clock = some (s', e)) : Partition s' := by
  have hq : Queued (s.update s.cpu.process zombify) ∅ := h.update_settled (.inr (.inr rfl))
  exact (hq.wakeWhere (by simp [Queued.PassedOver])).leaveForever hs

/-- A wait attaches the current process: to the heap for a sleep, to nothing otherwise. -/
theorem Held.beginWait (h : Held s) (reason : WaitReason)
    (hcur : s.cpu.process ∈ s.processes) : Queued (s.beginWait reason) ∅ := by
  have hdet := h.queued.update_of_mem (mem_singleton _) (waitFor reason)
  rw [← insert_empty_eq] at hdet
  unfold Sched.beginWait
  split
  · next hr => exact hdet.attach_sleeping (by simp) hcur (by simp [waitFor_state, hr])
  · next hr => exact hdet.attach_settled (.inl (by simp [waitFor_state, hr]))

variable {reason : WaitReason}

/-- The process that blocks leaves the CPU to another one. -/
theorem Held.yieldBlocked (h : Held s) (hcur : s.cpu.process ∈ s.processes)
    (hs : s.yieldBlocked reason clock = some (s', e)) : Partition s' := by
  unfold Sched.yieldBlocked at hs
  simp only at hs
  have hq := h.beginWait reason hcur
  split at hs
  · next heq =>
    cases hs
    have hp := pickNextProcess_spec (clock 0) hq
    have hcpu := hp.cpu.trans (beginWait_cpu reason s)
    have hq' := hp.queued
    rw [insert_empty_eq, ← heq] at hq'
    refine ⟨⟨?_, ?_⟩, ?_⟩
    · rw [update_cpu, hcpu]
      exact hq'.update_of_mem (mem_singleton _) _
    · rw [update_cpu, hcpu, update_processes, hp.processes, beginWait_processes]
      exact .inr hcur
    · intro _
      rw [update_cpu, hcpu]
      simp
  · obtain ⟨s2, ha, hs⟩ := map_eq_some_iff.mp hs
    cases hs
    exact hq.partition_of_pick ha

/-- The unlocked first halves of `yield_sleep_ns` and `yield_mutex` change only the current
record. -/
theorem Held.update_current (h : Held s) (f : Process → Process) :
  Held (s.update s.cpu.process f) := ⟨h.queued.update_of_mem (mem_singleton _) f, h.member⟩

variable {p : ProcRef} {D : Set ProcRef}

/-- A settled process may go from one settled state to another where it stands. -/
theorem Queued.update_of_settled
    (h : Queued s D) (hp : Queued.Settled (s.procs p)) (hf : Queued.Settled (f (s.procs p))) :
    Queued (s.update p f) D := by
  refine ((h.detach_settled hp).update_of_mem (mem_insert p D) f).attach_settled ?_
  rw [update_procs_self]
  exact hf

theorem Partition.yieldToChild {childPid : Int}
    (h : Partition s) (hs : s.yieldToChild childPid clock = some (s', e)) : Partition s' := by
  unfold Sched.yieldToChild at hs
  simp only at hs
  split at hs
  · cases hs; exact h
  · next child hchild =>
    split at hs
    · next hz =>
      cases hs
      have hzombie : (s.procs child).state = .zombie := by simpa [isZombie] using hz
      have hq : Queued (s.update child kill) {s.cpu.process} :=
        h.queued.update_of_settled (.inr (.inr hzombie)) (.inr (.inl rfl))
      have hh : Held (s.update child kill) := ⟨hq, h.member⟩
      exact ⟨hh.update_current _, fun _ => by simp⟩
    · obtain ⟨s1, ha, hs⟩ := map_eq_some_iff.mp hs
      cases hs
      have hq : Queued (s.update s.cpu.process (waitForChild childPid)) ∅ :=
        h.update_settled (.inl rfl)
      exact hq.partition_of_pick ha

/-- `preempt` keeps the containers right as long as it does not catch the current process with its
state already changed: whoever it takes off the CPU must still be running or ready. -/
theorem Held.preempt (h : Held s)
    (hcur : s.wantsPreempt (clock 0) = true → s.cpu.process ≠ s.cpu.idleProcess →
      (s.procs s.cpu.process).state = .running ∨ (s.procs s.cpu.process).isReady = true)
    (hs : s.preempt clock = some (s', e)) :
    (Held s' ∧ e = .returns ∧ s'.cpu = s.cpu ∧ s'.procs s.cpu.process = s.procs s.cpu.process) ∨
    (Partition s' ∧ ∃ next, e = .contextSwitch s.cpu.process next) := by
  unfold Sched.preempt at hs
  split at hs
  · next hw =>
    simp only at hs
    have hp := pickNextProcess_spec (clock 1) h.queued
    split at hs
    · next heq =>
      cases hs
      have hq := hp.queued
      rw [← heq, insert_eq_of_mem (mem_singleton _)] at hq
      refine .inl ⟨⟨?_, ?_⟩, rfl, hp.cpu, hp.kept _ rfl⟩
      · rw [hp.cpu]; exact hq
      · rw [hp.cpu, hp.processes]; exact h.member
    · next hne =>
      obtain ⟨s1, ha, hs⟩ := map_eq_some_iff.mp hs
      cases hs
      refine .inr ⟨?_, _, rfl⟩
      have hq := hp.queued.update_of_mem (mem_insert_of_mem _ (mem_singleton _))
        pause
      refine (hq.enqueueIfRunnable hne ?_ ?_).partition_of_activate ?_ ha
      · rw [update_cpu, hp.cpu, update_processes, hp.processes]
        exact h.member
      · intro hidle
        rw [update_cpu, hp.cpu] at hidle
        rw [update_procs_self, hp.kept _ rfl]
        exact isReady_pause (hcur hw hidle)
      · rw [enqueueIfRunnable_cpu, update_cpu, hp.cpu, enqueueIfRunnable_processes,
          update_processes, hp.processes]
        exact hp.choice.imp id And.left
  · cases hs
    exact .inl ⟨h, rfl, rfl, rfl⟩

/-- `tick` wakes the due sleepers before it calls `preempt`; the current process is not among
them. -/
theorem Held.wakeSleepers (h : Held s) (now : Word) :
    Held (s.wakeSleepers now) ∧ (s.wakeSleepers now).cpu = s.cpu ∧
      (s.wakeSleepers now).procs s.cpu.process = s.procs s.cpu.process := by
  obtain ⟨hq, hproc, hcpu, hrec⟩ := wakeSleepers_spec now h.queued
  refine ⟨⟨?_, ?_⟩, hcpu, hrec _ rfl⟩
  · rw [hcpu]; exact hq
  · rw [hcpu, hproc]; exact h.member

theorem Held.tick (h : Held s)
    (hcur : s.wantsPreempt (clock 1) = true → s.cpu.process ≠ s.cpu.idleProcess →
      (s.procs s.cpu.process).state = .running ∨ (s.procs s.cpu.process).isReady = true)
    (hs : s.tick clock = some (s', e)) :
    (Held s' ∧ e = .returns ∧ s'.cpu = s.cpu ∧ s'.procs s.cpu.process = s.procs s.cpu.process) ∨
    (Partition s' ∧ ∃ next, e = .contextSwitch s.cpu.process next) := by
  obtain ⟨hw, hcpu, hrec⟩ := h.wakeSleepers (clock 0)
  have hpre := hw.preempt ?_ hs
  · rw [hcpu, hrec] at hpre
    exact hpre
  · rw [wantsPreempt_wakeSleepers, hcpu, hrec]
    exact hcur

theorem Partition.tick (h : Partition s) (hs : s.tick clock = some (s', e)) : Partition s' := by
  rcases h.toHeld.tick (fun _ hi => .inl (h.running hi)) hs with ⟨hh, -, hc, hr⟩ | ⟨hp, -⟩
  · refine ⟨hh, fun hi => ?_⟩
    rw [hc] at hi ⊢
    rw [hr]
    exact h.running hi
  · exact hp

theorem Held.yieldNewProcess (h : Held s) (hs : s.yieldNewProcess clock = some (s', e)) :
    Partition s' := by
  unfold Sched.yieldNewProcess at hs
  simp only at hs
  have hp := pickNextProcess_spec (clock 0) h.queued
  split at hs
  · cases hs
  · next hne =>
    obtain ⟨s1, ha, hs⟩ := map_eq_some_iff.mp hs
    cases hs
    have hq := hp.queued.update_of_mem (mem_insert_of_mem _ (mem_singleton _)) wake
    refine (hq.enqueueIfRunnable hne ?_ ?_).partition_of_activate ?_ ha
    · rw [update_cpu, hp.cpu, update_processes, hp.processes]
      exact h.member
    · intro _
      simp
    · rw [enqueueIfRunnable_cpu, update_cpu, hp.cpu, enqueueIfRunnable_processes,
        update_processes, hp.processes]
      exact hp.choice.imp id And.left

theorem Partition.passedOver (h : Partition s) (cond : Process → Bool) :
    Queued.PassedOver cond s {s.cpu.process} := by
  intro q hq hmem
  subst hq
  have hidle : s.cpu.process ≠ s.cpu.idleProcess := fun hi => h.queued.idle (hi ▸ hmem)
  simp [isBlocked, h.running hidle]

theorem Partition.wakeWhere (h : Partition s) (cond : Process → Bool) :
    Partition (s.wakeWhere cond) := by
  obtain ⟨hq, hproc, hcpu, hrec⟩ :=
    foldl_wakeIf s.processes (fun _ hp => hp) h.queued (h.passedOver cond)
  refine ⟨⟨?_, ?_⟩, ?_⟩
  · rw [Sched.wakeWhere, hcpu]; exact hq
  · rw [Sched.wakeWhere, hcpu, hproc]; exact h.member
  · intro hidle
    rw [Sched.wakeWhere, hcpu] at hidle ⊢
    rw [hrec _ rfl]
    exact h.running hidle

theorem Partition.wakeAll (h : Partition s) (reason : WaitReason) :
    Partition (s.wakeAll reason) := by
  unfold Sched.wakeAll
  split
  · exact h
  · exact h.wakeWhere _

theorem wakeSingle_procs {q : ProcRef}
    (hD : Queued.PassedOver (isWaitingFor reason) s D) (hq : q ∈ D) :
    (s.wakeSingle reason).procs q = s.procs q := by
  unfold Sched.wakeSingle
  split
  · rfl
  · split
    · rfl
    · next p hfind =>
      have hc := List.find?_some hfind
      have hmem : p ∈ s.processes := mem_of_find?_eq_some hfind
      exact wakeProcess_procs_of_ne s (fun hqp => hD.not_mem hmem hc (hqp ▸ hq))

/-- `wake_single` may also run in an interrupt, whatever the current process is about to wait
for, provided it is not waiting for the very thing that is signalled. -/
theorem Held.wakeSingle (h : Held s)
    (hD : Queued.PassedOver (isWaitingFor reason) s {s.cpu.process}) :
    Held (s.wakeSingle reason) := by
  refine ⟨?_, ?_⟩
  · rw [wakeSingle_cpu]; exact h.queued.wakeSingle hD
  · rw [wakeSingle_cpu, (Advances.respects.wakeSingle reason s).processes]; exact h.member

theorem Partition.wakeSingle (h : Partition s) (reason : WaitReason) :
    Partition (s.wakeSingle reason) := by
  refine ⟨h.toHeld.wakeSingle (h.passedOver _), ?_⟩
  intro hidle
  rw [wakeSingle_cpu] at hidle ⊢
  rw [wakeSingle_procs (h.passedOver _) (mem_singleton _)]
  exact h.running hidle

/-- A new process is listed and queued at once. -/
theorem Partition.addProcess (h : Partition s) {record : Process}
    (hp : p ∉ s.processes) (hidle : p ≠ s.cpu.idleProcess) (hnew : record.state = .new) :
    Partition (s.addProcess p record) := by
  have hcur : p ≠ s.cpu.process := by
    intro hpc
    rcases h.member with hm | hm
    · exact hidle (hpc.trans hm)
    · exact hp (hpc ▸ hm)
  have hnr : p ∉ s.ready := fun hm => hp ((h.queued.memReady p).mp hm).1
  have hns : p ∉ s.sleepers.values := fun hm => hp ((h.queued.memSleepers p).mp hm).1
  have hself : (s.update p (fun _ => record)).procs p = record := update_procs_self _ _ _
  have hother : ∀ q, q ≠ p → (s.update p (fun _ => record)).procs q = s.procs q :=
    fun q hq => update_procs_of_ne _ _ hq
  -- list it while it is in transit, then attach it
  have hdet : Queued { s.update p (fun _ => record) with processes := s.processes ++ [p] }
      (insert p {s.cpu.process}) := by
    refine ⟨h.queued.readyNodup, h.queued.sleepersNodup, ?_, ?_, ?_, ?_, ?_⟩
    · intro q
      show q ∈ s.ready ↔ q ∈ s.processes ++ [p] ∧ q ∉ insert p {s.cpu.process} ∧ _
      by_cases hqp : q = p
      · subst hqp; simp [hnr]
      · rw [hother q hqp, h.queued.memReady q]; simp [hqp]
    · intro q
      show q ∈ s.sleepers.values ↔ q ∈ s.processes ++ [p] ∧ q ∉ insert p {s.cpu.process} ∧ _
      by_cases hqp : q = p
      · subst hqp; simp [hns]
      · rw [hother q hqp, h.queued.memSleepers q]; simp [hqp]
    · intro n hn
      have hne : n.value ≠ p := fun hnp => hns (hnp ▸ Queued.value_mem hn)
      rw [hother _ hne]
      exact h.queued.key n hn
    · intro q hq hqD
      have hqp : q ≠ p := fun hqp => hqD (by simp [hqp])
      rw [hother q hqp]
      have hq' : q ∈ s.processes := by simpa [hqp] using hq
      exact h.queued.notRunning q hq' (fun hD => hqD (mem_insert_of_mem _ hD))
    · simp [h.queued.idle, Ne.symm hidle]
  have hready : ((s.update p (fun _ => record)).procs p).isReady = true := by
    rw [hself]; simp [isReady, hnew]
  refine ⟨⟨hdet.attach_ready (by simpa using hcur) (by simp) hready, ?_⟩, ?_⟩
  · exact h.member.imp id (fun hm => mem_append_left _ hm)
  · intro hi
    show ((s.update p (fun _ => record)).procs s.cpu.process).state = .running
    rw [hother _ (Ne.symm hcur)]
    exact h.running hi

/-- Reaping unlists dead processes only, which are in no container. -/
theorem Partition.reap (h : Partition s) (hs : s.reap = some s') : Partition s' := by
  unfold Sched.reap at hs
  split at hs
  · cases hs
  · cases hs
    have hmem : ∀ q, q ∈ s.processes.filter (fun p => !(s.procs p).isDead) ↔
        q ∈ s.processes ∧ (s.procs q).isDead = false := by
      intro q; simp
    refine ⟨⟨⟨h.queued.readyNodup, h.queued.sleepersNodup, ?_, ?_, h.queued.key, ?_, ?_⟩, ?_⟩,
      h.running⟩
    · intro q
      rw [hmem, h.queued.memReady q]
      constructor
      · rintro ⟨hq, hD, hr⟩
        refine ⟨⟨hq, ?_⟩, hD, hr⟩
        rcases isReady_iff.mp hr with hst | hst <;> simp [isDead, hst]
      · rintro ⟨⟨hq, -⟩, hD, hr⟩
        exact ⟨hq, hD, hr⟩
    · intro q
      rw [hmem, h.queued.memSleepers q]
      constructor
      · rintro ⟨hq, hD, hst⟩
        exact ⟨⟨hq, by simp [isDead, hst]⟩, hD, hst⟩
      · rintro ⟨⟨hq, -⟩, hD, hst⟩
        exact ⟨hq, hD, hst⟩
    · intro q hq hqD
      exact h.queued.notRunning q ((hmem q).mp hq).1 hqD
    · intro hi
      exact h.queued.idle ((hmem _).mp hi).1
    · rcases h.member with hm | hm
      · exact .inl hm
      · have hidle : s.cpu.process ≠ s.cpu.idleProcess := fun hi => h.queued.idle (hi ▸ hm)
        exact .inr ((hmem _).mpr ⟨hm, by simp [isDead, h.running hidle]⟩)

/-! ## Runs of atomic calls -/

/-- The entry points of the mechanism. `exec` is `exec_elf64` on the current process followed by
`yield_new_process`. -/
inductive Call where
  | addProcess (p : ProcRef) (record : Process)
  | tick
  | yieldBlocked (reason : WaitReason)
  | yieldSleepNs (duration : Word)
  | yieldMutex (mutex : MutexRef)
  | yieldToChild (childPid : Int)
  | yieldZombie
  | yieldDead
  | exec (image : Process.ExecImage)
  | wakeSingle (reason : WaitReason)
  | wakeAll (reason : WaitReason)
  | wakeMutex (mutex : MutexRef)
  | reap

/-- The calls that concern other processes only, and always return to their caller. -/
def Call.isPassive : Call → Bool
  | .addProcess _ _ | .wakeSingle _ | .wakeAll _ | .wakeMutex _ | .reap => true
  | _ => false

/-- The tail of `sys_execve`: `exec_elf64` has reset the current process, which starts anew. -/
def exec (image : Process.ExecImage) (clock : Nat → Word) (s : Sched) : Option (Sched × Exit) :=
  (s.update s.cpu.process (Process.execReset image)).yieldNewProcess clock

/-- A call made by the current process. The idle process only halts: it calls nothing. -/
def byCurrent (s : Sched) (f : Sched → Option (Sched × Exit)) : Option Sched :=
  if s.cpu.process = s.cpu.idleProcess then none else (f s).map Prod.fst

/-- One call, run to its end, with the clock readings it makes. A process handed to `add_process`
is a live object of its own, in the state its constructor leaves. -/
def call (c : Call) (clock : Nat → Word) (s : Sched) : Option Sched :=
  match c with
  | .addProcess p record =>
    if p ∉ s.processes ∧ p ≠ s.cpu.idleProcess ∧ record.state = .new then
      some (s.addProcess p record)
    else none
  | .tick => (s.tick clock).map Prod.fst
  | .yieldBlocked reason => s.byCurrent (Sched.yieldBlocked reason clock)
  | .yieldSleepNs duration => s.byCurrent (Sched.yieldSleepNs duration clock)
  | .yieldMutex mutex => s.byCurrent (Sched.yieldMutex mutex clock)
  | .yieldToChild childPid => s.byCurrent (Sched.yieldToChild childPid clock)
  | .yieldZombie => s.byCurrent (Sched.yieldZombie clock)
  | .yieldDead => s.byCurrent (Sched.yieldDead clock)
  | .exec image => s.byCurrent (Sched.exec image clock)
  | .wakeSingle reason => some (s.wakeSingle reason)
  | .wakeAll reason => some (s.wakeAll reason)
  | .wakeMutex mutex => some (s.wakeMutex mutex)
  | .reap => s.reap

/-- The scheduler as it stands after `percpu::init`: the idle process runs and nothing is listed.
The clock readings of a call are arbitrary, so every nondecreasing clock is covered. -/
def system : Lib.Transition.System Sched (Call × (Nat → Word)) where
  init s := s.processes = [] ∧ s.ready = [] ∧ s.sleepers.toList = [] ∧
    s.cpu.process = s.cpu.idleProcess
  next l s := s.call l.1 l.2

theorem byCurrent_eq_some {f : Sched → Option (Sched × Exit)}
    (h : s.byCurrent f = some s') :
    s.cpu.process ≠ s.cpu.idleProcess ∧ ∃ e, f s = some (s', e) := by
  unfold byCurrent at h
  split at h
  · cases h
  · next hidle =>
    obtain ⟨⟨t, e⟩, ht, rfl⟩ := map_eq_some_iff.mp h
    exact ⟨hidle, e, ht⟩

theorem Partition.byCurrent {f : Sched → Option (Sched × Exit)} (h : Partition s)
    (hf : s.cpu.process ∈ s.processes → ∀ t e, f s = some (t, e) → Partition t)
    (hs : s.byCurrent f = some s') : Partition s' := by
  obtain ⟨hidle, e, ht⟩ := byCurrent_eq_some hs
  exact hf (h.member.resolve_left hidle) s' e ht

/-- **One call keeps the invariant**, whichever it is and whatever the clock says. -/
theorem Partition.call {c : Call} (h : Partition s) (hs : s.call c clock = some s') :
    Partition s' := by
  cases c with
  | addProcess p record =>
    simp only [Sched.call] at hs
    split at hs
    · next hok => cases hs; exact h.addProcess hok.1 hok.2.1 hok.2.2
    · cases hs
  | tick =>
    obtain ⟨⟨t, e⟩, ht, rfl⟩ := map_eq_some_iff.mp hs
    exact h.tick ht
  | yieldBlocked reason => exact h.byCurrent (fun hcur t e ht => h.toHeld.yieldBlocked hcur ht) hs
  | yieldSleepNs duration =>
    exact h.byCurrent (fun hcur t e ht => (h.toHeld.update_current _).yieldBlocked hcur ht) hs
  | yieldMutex mutex =>
    exact h.byCurrent (fun hcur t e ht => (h.toHeld.update_current _).yieldBlocked hcur ht) hs
  | yieldToChild childPid => exact h.byCurrent (fun _ t e ht => h.yieldToChild ht) hs
  | yieldZombie => exact h.byCurrent (fun _ t e ht => h.toHeld.yieldZombie ht) hs
  | yieldDead => exact h.byCurrent (fun _ t e ht => h.toHeld.yieldDead ht) hs
  | exec image =>
    exact h.byCurrent (fun _ t e ht => (h.toHeld.update_current _).yieldNewProcess ht) hs
  | wakeSingle reason => cases hs; exact h.wakeSingle reason
  | wakeAll reason => cases hs; exact h.wakeAll reason
  | wakeMutex mutex => cases hs; exact h.wakeWhere _
  | reap => exact h.reap hs

theorem partition_of_reachable (h : system.Reachable s) : Partition s := by
  refine h.invariant ?_ (fun _ _ _ hs hn => hs.call hn)
  rintro s ⟨hproc, hready, hsleep, hcur⟩
  have hvals : s.sleepers.values = [] := by rw [KMinHeap.values, hsleep]; rfl
  refine ⟨⟨⟨?_, ?_, ?_, ?_, ?_, ?_, ?_⟩, .inl hcur⟩, fun hne => absurd hcur hne⟩
  · rw [hready]; exact nodup_nil
  · rw [hvals]; exact nodup_nil
  · intro p; simp [hready, hproc]
  · intro p; simp [hvals, hproc]
  · intro n hn; rw [hsleep] at hn; cases hn
  · intro p hp; rw [hproc] at hp; cases hp
  · rw [hproc]; exact not_mem_nil

/-! ## What the invariant says of one process -/

/-- Each listed process is in the one place its state names. -/
structure InOnePlace (s : Sched) : Prop where
  ready : ∀ p ∈ s.processes, ((s.procs p).isReady = true ↔ s.ready.count p = 1) ∧
    ((s.procs p).isReady = true → p ≠ s.cpu.process)
  sleeping : ∀ p ∈ s.processes, ((s.procs p).state = .sleeping ↔ s.sleepers.values.count p = 1) ∧
    ∀ n ∈ s.sleepers.toList, n.value = p → n.key = (s.procs p).wakeTimeNs
  settled : ∀ p ∈ s.processes,
    (s.procs p).state = .blocked ∨ (s.procs p).state = .zombie ∨ (s.procs p).state = .dead →
      p ∉ s.ready ∧ p ∉ s.sleepers.values
  running : ∀ p ∈ s.processes, ((s.procs p).state = .running ↔ p = s.cpu.process) ∧
    ((s.procs p).state = .running → p ∉ s.ready ∧ p ∉ s.sleepers.values)
  idle : s.cpu.idleProcess ∉ s.processes ∧ s.cpu.idleProcess ∉ s.ready ∧
    s.cpu.idleProcess ∉ s.sleepers.values

theorem Partition.running_iff (h : Partition s) (hp : p ∈ s.processes) :
    (s.procs p).state = .running ↔ p = s.cpu.process := by
  constructor
  · intro hr
    by_contra hne
    exact h.queued.notRunning p hp hne hr
  · rintro rfl
    exact h.running (fun hi => h.queued.idle (hi ▸ hp))

/-- By the state of a process one can tell the one place in which it is. -/
theorem Partition.inOnePlace (h : Partition s) : InOnePlace s := by
  -- the queues have no duplicates, so that once and at all is the same
  have hcount : ∀ {l : List ProcRef} {p : ProcRef}, l.Nodup → (l.count p = 1 ↔ p ∈ l) := by
    intro l p hl
    rw [← one_le_count_iff]
    have := nodup_iff_count_le_one.mp hl p
    omega
  have hcur : ∀ p ∈ s.processes, (s.procs p).state ≠ .running → p ≠ s.cpu.process :=
    fun p hp hst heq => hst ((h.running_iff hp).mpr heq)
  have hnotin : ∀ p, (s.procs p).isReady = false → (s.procs p).state ≠ .sleeping →
      p ∉ s.ready ∧ p ∉ s.sleepers.values := by
    intro p hr hsl
    constructor
    · intro hm; simp [((h.queued.memReady p).mp hm).2.2] at hr
    · intro hm; exact hsl ((h.queued.memSleepers p).mp hm).2.2
  refine ⟨?_, ?_, ?_, ?_, ?_⟩
  · intro p hp
    have hne : (s.procs p).isReady = true → p ≠ s.cpu.process := by
      intro hr
      apply hcur p hp
      rcases isReady_iff.mp hr with hst | hst <;> simp [hst]
    refine ⟨?_, hne⟩
    rw [hcount h.queued.readyNodup, h.queued.memReady p]
    exact ⟨fun hr => ⟨hp, hne hr, hr⟩, fun hr => hr.2.2⟩
  · intro p hp
    constructor
    · rw [hcount h.queued.sleepersNodup, h.queued.memSleepers p]
      exact ⟨fun hst => ⟨hp, hcur p hp (by simp [hst]), hst⟩, fun hr => hr.2.2⟩
    · rintro n hn rfl
      exact h.queued.key n hn
  · intro p _ hst
    have hset : Queued.Settled (s.procs p) := by
      rcases hst with hst | hst | hst
      · exact .inl hst
      · exact .inr (.inr hst)
      · exact .inr (.inl hst)
    exact hnotin p hset.not_ready hset.not_sleeping
  · intro p hp
    refine ⟨h.running_iff hp, fun hst => hnotin p ?_ ?_⟩
    · simp [isReady, hst]
    · simp [hst]
  · exact ⟨h.queued.idle, fun hm => h.queued.idle ((h.queued.memReady _).mp hm).1,
      fun hm => h.queued.idle ((h.queued.memSleepers _).mp hm).1⟩

/-- **The partition invariant.** In every state that any sequence of calls can reach, at any clock
values, each process is in exactly the container its state names, and the idle process in none. -/
theorem reachable_inOnePlace {s : Sched} (h : system.Reachable s) : InOnePlace s :=
  (partition_of_reachable h).inOnePlace

/-- The record of a process that has not run yet, with an address space. -/
def freshProcess (pid : Int) : Process where
  pid := pid
  parent := none
  state := .new
  waitReason := .none
  waitPid := -1
  exitStatus := 0
  contextSwitches := 0
  wakeTimeNs := 0
  quantumStartNs := 0
  waitMutex := none
  pml4 := some 1
  heapBreak := 0
  uheap := ⟨1, 0, 0, 0⟩
  kernelRsp := 0
  userRsp := 0
  entry := 0
  fsBase := 0
  tidptr := 0

/-- A machine that runs its idle process, process 0, and nothing else. -/
def idleMachine : Sched where
  procs p := freshProcess p
  processes := []
  ready := []
  sleepers := KMinHeap.empty
  cpu :=
    { process := 0, idleProcess := 0, preemptionEnabled := true, kernelRsp := 0, cr3 := some 1,
      fsBase := 0, tssRsp0 := 0 }

theorem idleMachine_init : system.init idleMachine := ⟨rfl, rfl, rfl, rfl⟩

/-- Two processes are added; the first runs, goes to sleep for five nanoseconds, and the second
runs. -/
def sleeperRun : Option Sched :=
  system.exec
    [(.addProcess 1 (freshProcess 1), fun _ => 0), (.addProcess 2 (freshProcess 2), fun _ => 0),
      (.tick, fun _ => 0), (.yieldSleepNs 5, fun _ => 1)]
    idleMachine

theorem sleeperRun_inOnePlace :
    sleeperRun.isSome = true ∧ InOnePlace (sleeperRun.getD idleMachine) := by
  have hrun : sleeperRun.isSome = true := by decide +kernel
  refine ⟨hrun, reachable_inOnePlace ?_⟩
  obtain ⟨s, hs⟩ := isSome_iff_exists.mp hrun
  rw [hs]
  exact Lib.Transition.System.Reachable.of_exec (.start idleMachine_init) hs

end Sched

end Hltos
