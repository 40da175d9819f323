import Hltos.Scheduler.Partition

/-!
# Processes that are not scheduled

A blocked, zombie or dead process is in no container, so choosing another process to run does not
touch its record; the others stay alive, and nobody's pid, parent or exit status changes.
-/

namespace Hltos

namespace Sched

open Queued Process Option Set

variable {s s' s'' : Sched} {q : ProcRef} {D : Set ProcRef}

/-- What scheduling may do to a record: its family is the same, and if it was alive it still is. -/
structure Stirred (r r' : Process) : Prop where
  pid : r'.pid = r.pid
  parent : r'.parent = r.parent
  exitStatus : r'.exitStatus = r.exitStatus
  active : ¬ Settled r → ¬ Settled r'

theorem Stirred.refl (r : Process) : Stirred r r := ⟨rfl, rfl, rfl, id⟩

theorem Stirred.trans {r r' r'' : Process} (h : Stirred r r') (h' : Stirred r' r'') :
  Stirred r r'' := ⟨h'.pid.trans h.pid, h'.parent.trans h.parent, h'.exitStatus.trans h.exitStatus,
    fun hr => h'.active (h.active hr)⟩

theorem Stirred.wake (r : Process) : Stirred r r.wake := ⟨rfl, rfl, rfl, fun _ => by simp [Settled]⟩

theorem Stirred.activate (now : Word) (r : Process) : Stirred r (r.activate now) :=
  ⟨rfl, rfl, rfl, fun _ => by simp [Settled]⟩

theorem Stirred.pause (r : Process) : Stirred r r.pause := by
  unfold Process.pause
  split
  · exact ⟨rfl, rfl, rfl, fun _ => by simp [Settled]⟩
  · exact .refl r

/-- The CPU has been given to another process, or sleepers have been woken. -/
structure Rescheduled (s s' : Sched) : Prop where
  processes : s'.processes = s.processes
  stirred : ∀ q, Stirred (s.procs q) (s'.procs q)
  settled : ∀ q ∈ s.processes, Settled (s.procs q) → s'.procs q = s.procs q

theorem Rescheduled.refl (s : Sched) : Rescheduled s s := ⟨rfl, fun _ => .refl _, fun _ _ _ => rfl⟩

theorem Rescheduled.trans (h : Rescheduled s s') (h' : Rescheduled s' s'') : Rescheduled s s'' := by
  refine ⟨h'.processes.trans h.processes, fun q => (h.stirred q).trans (h'.stirred q), ?_⟩
  intro q hq hs
  have heq := h.settled q hq hs
  rw [h'.settled q (h.processes ▸ hq) (heq ▸ hs), heq]

/-- A process that is settled afterwards was settled before, with the same record. -/
theorem Rescheduled.settled_of (h : Rescheduled s s') (hq : q ∈ s.processes)
    (hs : Settled (s'.procs q)) : s'.procs q = s.procs q := by
  by_cases hs0 : Settled (s.procs q)
  · exact h.settled q hq hs0
  · exact absurd hs ((h.stirred q).active hs0)

/-- The record of one process that is alive is stirred. -/
theorem Rescheduled.update {p : ProcRef} {f : Process → Process}
    (hf : Stirred (s.procs p) (f (s.procs p)))
    (hp : p ∈ s.processes → ¬ Settled (s.procs p)) : Rescheduled s (s.update p f) := by
  refine ⟨rfl, fun q => ?_, fun q hq hs => ?_⟩
  · by_cases hqp : q = p
    · subst hqp
      rw [update_procs_self]
      exact hf
    · rw [update_procs_of_ne f s hqp]
      exact .refl _
  · exact update_procs_of_ne f s (fun hqp => hp (hqp ▸ hq) (hqp ▸ hs))

/-! ## The mechanism -/

theorem wakeProcess_stirred (p : ProcRef) (s : Sched) (q : ProcRef) :
    Stirred (s.procs q) ((s.wakeProcess p).procs q) := by
  by_cases hqp : q = p
  · subst hqp
    show Stirred _ ((s.update q wake).procs q)
    rw [update_procs_self]
    exact .wake _
  · rw [wakeProcess_procs_of_ne s hqp]
    exact .refl _

theorem wakes_stirred : Wakes Set.univ (fun s s' => ∀ q, Stirred (s.procs q) (s'.procs q)) where
  refl _ _ := .refl _
  trans h h' q := (h q).trans (h' q)
  sleepers _ _ _ := .refl _
  blocked s p _ := wakeProcess_stirred p s
  due s p _ _ _ := wakeProcess_stirred p s

theorem Queued.wakeSleepers_rescheduled (h : Queued s D) (now : Word) :
    Rescheduled s (s.wakeSleepers now) := by
  refine ⟨(wakeSleepers_spec now h).2.1, wakes_stirred.wakeSleepers (mem_univ now) s, ?_⟩
  exact fun q _ hq => (wakeSleepers_spec now (h.detach_settled hq)).2.2.2 q (mem_insert q D)

/-- A settled process is not chosen. -/
theorem Queued.pickNextProcess_ne (h : Queued s D) (now : Word) (hmem : q ∈ s.processes)
    (hq : Settled (s.procs q)) : (s.pickNextProcess now).1 ≠ q := by
  rintro rfl
  rcases (pickNextProcess_spec now (h.detach_settled hq)).choice with hi | ⟨-, hnot⟩
  · exact h.idle (hi ▸ hmem)
  · exact hnot (mem_insert _ _)

theorem pickNextProcess_procs (now : Word) (s : Sched) :
    (s.pickNextProcess now).2.procs = (s.wakeSleepers now).procs := by
  unfold pickNextProcess pickNext
  cases (s.wakeSleepers now).ready <;> rfl

theorem Queued.pickNextProcess_rescheduled (h : Queued s D) (now : Word) :
    Rescheduled s (s.pickNextProcess now).2 := by
  have hw := h.wakeSleepers_rescheduled now
  refine ⟨(pickNextProcess_spec now h).processes, fun q => ?_, fun q hq hs => ?_⟩
  · rw [pickNextProcess_procs]
    exact hw.stirred q
  · rw [pickNextProcess_procs]
    exact hw.settled q hq hs

theorem activateProcess_rescheduled {now : Word} {next : ProcRef}
    (ha : s.activateProcess now next = some s')
    (hnext : next ∈ s.processes → ¬ Settled (s.procs next)) : Rescheduled s s' := by
  have hspec := activateProcess_spec ha
  have hup := Rescheduled.update (s := s) (.activate now (s.procs next)) hnext
  have hprocs : s'.procs = (s.update next (activate now)).procs := by
    unfold activateProcess at ha
    split at ha
    · simp only [some.injEq] at ha
      subst ha
      rfl
    · cases ha
  refine ⟨hspec.processes, fun q => ?_, fun q hq hs => ?_⟩
  · rw [hprocs]
    exact hup.stirred q
  · rw [hprocs]
    exact hup.settled q hq hs

/-- Choosing a process and activating it. -/
theorem Queued.rescheduled_of_pick {t now : Word} (h : Queued s D)
    (ha : (s.pickNextProcess t).2.activateProcess now (s.pickNextProcess t).1 = some s') :
    Rescheduled s s' := by
  have hp := h.pickNextProcess_rescheduled t
  refine hp.trans (activateProcess_rescheduled ha fun hmem hs => ?_)
  rw [hp.processes] at hmem
  exact h.pickNextProcess_ne t hmem (hp.settled_of hmem hs ▸ hs) rfl

variable {clock : Nat → Word} {e : Exit}

theorem Queued.leaveForever_rescheduled (h : Queued s ∅)
    (hs : s.leaveForever clock = some (s', e)) : Rescheduled s s' := by
  unfold Sched.leaveForever at hs
  simp only at hs
  split at hs
  · cases hs
  · obtain ⟨s1, ha, hs⟩ := map_eq_some_iff.mp hs
    cases hs
    exact h.rescheduled_of_pick ha

theorem enqueueIfRunnable_rescheduled (p : ProcRef) (s : Sched) :
    Rescheduled s (s.enqueueIfRunnable p) := by
  unfold enqueueIfRunnable
  split
  · exact .refl s
  · split
    · exact ⟨rfl, fun q => .refl _, fun _ _ _ => rfl⟩
    · exact .refl s

/-- The current process of a partition is alive. -/
theorem Partition.not_settled (h : Partition s) (hmem : s.cpu.process ∈ s.processes) :
    ¬ Settled (s.procs s.cpu.process) := by
  intro hs
  exact hs.not_running (h.running (fun hi => h.queued.idle (hi ▸ hmem)))

/-- `pause` touches a running process only. -/
theorem pause_rescheduled (p : ProcRef) (s : Sched) : Rescheduled s (s.update p Process.pause) := by
  by_cases hr : (s.procs p).state = .running
  · exact .update (.pause _) (fun _ hs => hs.not_running hr)
  · have hsame : (s.procs p).pause = s.procs p := if_neg hr
    refine ⟨rfl, fun q => ?_, fun q _ _ => ?_⟩ <;> by_cases hqp : q = p
    · subst hqp; rw [update_procs_self, hsame]; exact .refl _
    · rw [update_procs_of_ne _ _ hqp]; exact .refl _
    · subst hqp; rw [update_procs_self, hsame]
    · rw [update_procs_of_ne _ _ hqp]

theorem Held.preempt_rescheduled (h : Held s) (hs : s.preempt clock = some (s', e)) :
    Rescheduled s s' := by
  unfold Sched.preempt at hs
  have hp := h.queued.pickNextProcess_rescheduled (clock 1)
  split at hs
  · simp only at hs
    split at hs
    · cases hs
      exact hp
    · obtain ⟨s1, ha, hs⟩ := map_eq_some_iff.mp hs
      cases hs
      -- the current process is paused and queued, and the chosen one is activated
      have hqueue := (hp.trans (pause_rescheduled s.cpu.process _)).trans
        (enqueueIfRunnable_rescheduled s.cpu.process _)
      refine hqueue.trans (activateProcess_rescheduled ha fun hmem hset => ?_)
      rw [hqueue.processes] at hmem
      exact h.queued.pickNextProcess_ne (clock 1) hmem (hqueue.settled_of hmem hset ▸ hset) rfl
  · cases hs
    exact .refl _

theorem Held.tick_rescheduled (h : Held s) (hs : s.tick clock = some (s', e)) : Rescheduled s s' :=
  (h.queued.wakeSleepers_rescheduled (clock 0)).trans
    ((h.wakeSleepers (clock 0)).1.preempt_rescheduled hs)

/-- A process that is taken off the CPU with its state already `BLOCKED` is in no container, where
a blocked process belongs. -/
theorem Held.preempt_of_settled (h : Held s)
    (hmem : s.cpu.process ∈ s.processes) (hset : Settled (s.procs s.cpu.process))
    (hs : s.preempt clock = some (s', e)) : Partition s' ∨ s' = s := by
  unfold Sched.preempt at hs
  split at hs
  · simp only at hs
    have hp := pickNextProcess_spec (clock 1) h.queued
    have hne := h.queued.pickNextProcess_ne (clock 1) hmem hset
    rw [if_neg hne.symm] at hs
    obtain ⟨s1, ha, hs⟩ := map_eq_some_iff.mp hs
    cases hs
    refine .inl ?_
    have hrec : (s.pickNextProcess (clock 1)).2.procs s.cpu.process = s.procs s.cpu.process :=
      hp.kept _ rfl
    have hpause : (s.procs s.cpu.process).pause = s.procs s.cpu.process := if_neg hset.not_running
    have hq := hp.queued.update_of_mem (mem_insert_of_mem _ (mem_singleton _)) pause
    have hset' : Settled (((s.pickNextProcess (clock 1)).2.update s.cpu.process
        pause).procs s.cpu.process) := by
      rw [update_procs_self, hrec, hpause]
      exact hset
    have hskip : ((s.pickNextProcess (clock 1)).2.update s.cpu.process pause).enqueueIfRunnable
      s.cpu.process = (s.pickNextProcess (clock 1)).2.update s.cpu.process pause := by
      unfold Sched.enqueueIfRunnable
      rw [hset'.not_ready]
      simp
    rw [hskip] at ha
    rw [pair_comm] at hq
    refine (hq.attach_settled hset').partition_of_activate ?_ ha
    rw [update_cpu, hp.cpu, update_processes, hp.processes]
    exact hp.choice.imp id And.left
  · cases hs
    exact .inr rfl

theorem Partition.tick_rescheduled (h : Partition s)
    (hs : s.tick clock = some (s', e)) : Rescheduled s s' := h.toHeld.tick_rescheduled hs

/-- The body of `yield_blocked`, for a reason other than `SLEEP`: the current process is blocked,
and another one is chosen. -/
theorem Held.yieldBlocked_rescheduled {reason : WaitReason}
    (h : Held s) (hreason : reason ≠ .sleep) (hmem : s.cpu.process ∈ s.processes)
    (hs : s.yieldBlocked reason clock = some (s', e)) :
    Rescheduled (s.update s.cpu.process (waitFor reason)) s' ∧
      s'.procs s.cpu.process = (s.procs s.cpu.process).waitFor reason := by
  have hset : Settled ((s.procs s.cpu.process).waitFor reason) :=
    .inl (by rw [waitFor_state, if_neg hreason])
  have hbegin : s.beginWait reason = s.update s.cpu.process (waitFor reason) := by
    unfold Sched.beginWait
    simp only [if_neg hreason]
  have hq := h.beginWait reason hmem
  unfold Sched.yieldBlocked at hs
  rw [hbegin] at hs hq
  have hself : (s.update s.cpu.process (waitFor reason)).procs s.cpu.process =
      (s.procs s.cpu.process).waitFor reason := update_procs_self _ _ _
  have hne := hq.pickNextProcess_ne (clock 0) (q := s.cpu.process) hmem (hself ▸ hset)
  simp only [if_neg hne.symm] at hs
  obtain ⟨s1, ha, hs⟩ := map_eq_some_iff.mp hs
  cases hs
  have hr := hq.rescheduled_of_pick ha
  exact ⟨hr, by rw [hr.settled _ hmem (hself ▸ hset), hself]⟩

/-! ## Waking loops -/

/-- The loops wake exactly the blocked processes that match. -/
theorem foldl_wakeIf_procs (cond : Process → Bool) (q : ProcRef) :
    ∀ (l : List ProcRef) (s : Sched), (l.foldl (wakeIf cond) s).procs q =
      if q ∈ l ∧ ((s.procs q).isBlocked && cond (s.procs q)) = true then (s.procs q).wake
      else s.procs q
  | [], s => by simp
  | p :: l, s => by
    rw [List.foldl_cons, foldl_wakeIf_procs cond q l]
    by_cases hqp : q = p
    · subst hqp
      unfold wakeIf
      split
      · next hc =>
        have hself : (s.wakeProcess q).procs q = (s.procs q).wake := update_procs_self _ _ _
        rw [hself, if_neg (by simp [isBlocked]), if_pos ⟨List.mem_cons_self, hc⟩]
      · next hc =>
        rw [if_neg (fun h => hc h.2), if_neg (fun h => hc h.2)]
    · have hother : (s.wakeIf cond p).procs q = s.procs q := by
        unfold wakeIf
        split
        · exact wakeProcess_procs_of_ne s hqp
        · rfl
      rw [hother]
      simp [hqp]

theorem wakeWhere_procs (cond : Process → Bool) (s : Sched) (q : ProcRef) :
    (s.wakeWhere cond).procs q =
      if q ∈ s.processes ∧ ((s.procs q).isBlocked && cond (s.procs q)) = true then
        (s.procs q).wake
      else s.procs q :=
  foldl_wakeIf_procs cond q s.processes s

end Sched

end Hltos
