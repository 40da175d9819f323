import Hltos.Scheduler.Partition

/-!
# The order of the ready queue

Whatever wakes or enqueues a process appends it to the ready queue, and whatever picks one pops the
front. A call therefore either leaves the front of the queue where it is, or activates it
(`Partition.call_ready`); processes are activated in the order in which they queue up.

The idle process is activated only when the queue was empty at the pick. The process that gives up
the CPU is enqueued after the pick, so it may be left waiting behind the idle process.
-/

namespace Hltos

open List Option Process

/-- The process that a call ends up activating, if any. -/
def Exit.activated : Exit → Option ProcRef
  | .returns | .status _ => none
  | .contextSwitch _ next => some next
  | .permanentContextSwitch next => some next

/-- Whoever is activated is current afterwards. -/
theorem Exit.Fits.activated {s s' : Sched} {e : Exit} {p : ProcRef} (h : e.Fits s s')
    (he : e.activated = some p) : s'.cpu.process = p := by
  cases e with
  | returns | status _ => cases he
  | contextSwitch old next => cases he; exact h.2.symm
  | permanentContextSwitch next => cases he; exact h.symm

namespace Sched

/-- Where a call of the current process, or a tick, ends. -/
def outcome (c : Call) (clock : Nat → Word) (s : Sched) : Option (Sched × Exit) :=
  match c with
  | .tick => s.tick clock
  | .yieldBlocked reason => s.yieldBlocked reason clock
  | .yieldSleepNs duration => s.yieldSleepNs duration clock
  | .yieldMutex mutex => s.yieldMutex mutex clock
  | .yieldToChild childPid => s.yieldToChild childPid clock
  | .yieldZombie => s.yieldZombie clock
  | .yieldDead => s.yieldDead clock
  | .exec image => s.exec image clock
  | .addProcess _ _ | .wakeSingle _ | .wakeAll _ | .wakeMutex _ | .reap => none

/-- The process that `activate_process` is applied to in a call. -/
def activated (c : Call) (clock : Nat → Word) (s : Sched) : Option ProcRef :=
  (s.outcome c clock).bind (fun r => r.2.activated)

variable {s s' : Sched} {clock : Nat → Word} {c : Call} {p : ProcRef} {rest : List ProcRef}
  {e : Exit} {t now : Word} {D : Set ProcRef} {image : Process.ExecImage} {childPid : Int}
  {reason : WaitReason}

/-- A call is one that concerns other processes only, or it ends in its outcome. -/
theorem call_outcome (h : s.call c clock = some s') (hc : c.isPassive = false) :
    (∃ e, s.outcome c clock = some (s', e)) ∧ (c = .tick ∨ s.cpu.process ≠ s.cpu.idleProcess) := by
  cases c with
  | tick =>
    obtain ⟨⟨t, e⟩, ht, rfl⟩ := map_eq_some_iff.mp h
    exact ⟨⟨e, ht⟩, .inl rfl⟩
  | addProcess _ _ | wakeSingle _ | wakeAll _ | wakeMutex _ | reap => cases hc
  | _ => exact ⟨(byCurrent_eq_some h).2, .inr (byCurrent_eq_some h).1⟩

theorem activated_of_outcome (h : s.outcome c clock = some (s', e)) :
    s.activated c clock = e.activated := by
  rw [activated, h]
  rfl

theorem activated_of_passive (hc : c.isPassive = true) : s.activated c clock = none := by
  cases c with
  | addProcess _ _ | wakeSingle _ | wakeAll _ | wakeMutex _ | reap => rfl
  | _ => cases hc

/-- A call adds no process, and who it activates is the one that runs. -/
theorem outcome_spec (h : s.outcome c clock = some (s', e)) :
    s'.processes = s.processes ∧ (e.activated = some p → s'.cpu.process = p) := by
  have hfits : ∀ {s0 : Sched}, s0.processes = s.processes → Advances s0 s' ∧ e.Fits s s' →
      s'.processes = s.processes ∧ (e.activated = some p → s'.cpu.process = p) :=
    fun h0 h => ⟨h.1.processes.trans h0, h.2.activated⟩
  cases c with
  | tick => exact hfits rfl (tick_spec h)
  | yieldBlocked reason => exact hfits (beginWait_processes reason s) (yieldBlocked_spec h)
  | yieldSleepNs duration =>
    have h' : s.yieldSleepNs duration clock = some (s', e) := h
    exact hfits (beginWait_processes .sleep (s.beginSleep duration (clock 0)))
      (yieldBlocked_spec h')
  | yieldMutex mutex =>
    exact hfits (beginWait_processes .mutex (s.beginMutex mutex)) (yieldBlocked_spec h)
  | yieldToChild childPid => exact hfits rfl (yieldToChild_spec h)
  | yieldZombie =>
    obtain ⟨hadv, rfl⟩ := yieldZombie_spec h
    exact hfits rfl ⟨hadv, rfl⟩
  | yieldDead =>
    obtain ⟨hadv, rfl⟩ := yieldDead_spec h
    exact hfits rfl ⟨hadv, rfl⟩
  | exec image =>
    obtain ⟨hadv, hfit⟩ := yieldNewProcess_spec h
    exact hfits hadv.processes ⟨Advances.respects.refl s', hfit.of_cpu rfl⟩
  | addProcess _ _ | wakeSingle _ | wakeAll _ | wakeMutex _ | reap => cases h

/-! ## What is appended -/

/-- The ready queue has grown at its end. -/
def Appends (s s' : Sched) : Prop := s.ready <+: s'.ready

namespace Appends

variable {s'' : Sched}

theorem enqueue (p : ProcRef) (s : Sched) : Appends s (s.enqueue p) := prefix_append s.ready [p]

theorem wakes : Wakes Set.univ Appends where
  refl _ := prefix_rfl
  trans h h' := List.IsPrefix.trans h h'
  sleepers _ _ := prefix_rfl
  blocked s p _ := enqueue p (s.update p wake)
  due s p _ _ _ := enqueue p (s.update p wake)

theorem wakeSleepers (now : Word) (s : Sched) : Appends s (s.wakeSleepers now) :=
  wakes.wakeSleepers (Set.mem_univ now) s

theorem enqueueIfRunnable (p : ProcRef) (s : Sched) : Appends s (s.enqueueIfRunnable p) := by
  unfold Sched.enqueueIfRunnable
  split
  · exact wakes.refl s
  · split
    · exact enqueue p s
    · exact wakes.refl s

theorem activateProcess {now : Word} (h : s.activateProcess now p = some s') : Appends s s' := by
  exact ⟨[], by rw [append_nil, (activateProcess_spec h).ready]⟩

/-- The calls that activate nobody. -/
theorem passive (h : s.call c clock = some s') (hc : c.isPassive = true) : Appends s s' := by
  cases c with
  | addProcess p record =>
    simp only [Sched.call, ite_none_right_eq_some] at h
    cases h.2
    exact prefix_append s.ready [p]
  | wakeSingle reason => cases h; exact wakes.wakeSingle reason s
  | wakeAll reason => cases h; exact wakes.wakeAll reason s
  | wakeMutex mutex => cases h; exact wakes.wakeWhere _ s
  | reap =>
    simp only [Sched.call, Sched.reap, ite_none_left_eq_some] at h
    cases h.2
    exact wakes.refl s
  | _ => cases hc

end Appends

/-! ## What is picked -/

/-- The front of the queue is picked, whoever is woken before. -/
theorem pickNextProcess_of_ready (now : Word) (hq : s.ready = p :: rest) :
    (s.pickNextProcess now).1 = p ∧ rest <+: (s.pickNextProcess now).2.ready := by
  obtain ⟨woken, hw⟩ := Appends.wakeSleepers now s
  rw [hq, cons_append] at hw
  unfold pickNextProcess pickNext
  rw [← hw]
  exact ⟨rfl, prefix_append rest woken⟩

/-- With the queue empty and nobody due there is nobody to wake or to pick. -/
theorem pickNextProcess_of_alone (hq : s.ready = []) (hdue : s.noneDue now = true) :
    s.pickNextProcess now = (s.cpu.idleProcess, s) := by
  unfold pickNextProcess pickNext
  rw [wakeSleepers_of_noneDue hdue, hq]

theorem noneDue_of_wakeSleepers (h : (s.wakeSleepers now).ready = []) :
    s.ready = [] ∧ s.noneDue now = true := by
  have hgrow := Appends.wakeSleepers now s
  rw [Appends, h, prefix_nil] at hgrow
  refine ⟨hgrow, ?_⟩
  unfold noneDue
  split
  · rfl
  · next p hp =>
    by_contra hdue
    -- the root is due, so that the loop goes round once and enqueues it
    obtain ⟨k, xs, hlist⟩ := KMinHeap.peak_eq_some hp
    have hsize : s.sleepers.size = xs.length + 1 := by
      simpa [KMinHeap.toList, KMinHeap.size] using congrArg List.length hlist
    rw [decide_eq_true_eq] at hdue
    have hround : s.wakeSleepers now = wakeSleepersLoop now xs.length
        { s.wakeProcess p with sleepers := s.sleepers.pop } := by
      rw [wakeSleepers, hsize, wakeSleepersLoop]
      simp only [hp, if_neg hdue]
    have hmem : p ∈ (s.wakeSleepers now).ready := by
      rw [hround]
      apply (Appends.wakes.wakeSleepersLoop (Set.mem_univ now) _ _).subset
      exact mem_append_right _ mem_cons_self
    rw [h] at hmem
    cases hmem

theorem Queued.pick_idle (h : Queued s D) (hpick : (s.pickNextProcess now).1 = s.cpu.idleProcess) :
    s.ready = [] ∧ s.noneDue now = true := by
  obtain ⟨hq, hproc, hcpu, -⟩ := wakeSleepers_spec now h
  apply noneDue_of_wakeSleepers
  unfold pickNextProcess pickNext at hpick
  cases hr : (s.wakeSleepers now).ready with
  | nil => rfl
  | cons p rest =>
    rw [hr] at hpick
    have hp : p = s.cpu.idleProcess := hpick
    have hmem := ((hq.memReady p).mp (by rw [hr]; exact mem_cons_self)).1
    rw [hp, ← hcpu] at hmem
    exact absurd hmem hq.idle

/-! ## One call -/

/-- The front `p` of a queue stays there, or it is activated. -/
def Takes (p : ProcRef) (rest : List ProcRef) (s' : Sched) (activated : Option ProcRef) : Prop :=
  activated = none ∧ p :: rest <+: s'.ready ∨ activated = some p ∧ rest <+: s'.ready

theorem Takes.of_appends (h : Appends s s') (hq : s.ready = p :: rest) : Takes p rest s' none :=
  .inl ⟨rfl, hq ▸ h⟩

/-- Pick a process, perhaps enqueue another, and activate the one picked. -/
theorem Takes.of_pick {s1 : Sched} (hq : s.ready = p :: rest)
    (h1 : Appends (s.pickNextProcess t).2 s1)
    (ha : s1.activateProcess now (s.pickNextProcess t).1 = some s') :
    Takes p rest s' (some (s.pickNextProcess t).1) := by
  obtain ⟨hpick, hrest⟩ := pickNextProcess_of_ready t hq
  rw [hpick] at ha ⊢
  exact .inr ⟨rfl, (hrest.trans h1).trans (Appends.activateProcess ha)⟩

section Front

variable (hq : s.ready = p :: rest)

include hq

theorem preempt_takes (hne : s.cpu.process ≠ p) (h : s.preempt clock = some (s', e)) :
    Takes p rest s' e.activated := by
  unfold preempt at h
  split at h
  · simp only at h
    split at h
    · next heq => exact absurd (heq.trans (pickNextProcess_of_ready _ hq).1) hne
    · obtain ⟨s1, ha, h⟩ := map_eq_some_iff.mp h
      cases h
      exact .of_pick hq (.enqueueIfRunnable _ (update _ _ _)) ha
  · cases h
    exact .of_appends (Appends.wakes.refl s) hq

theorem tick_takes (hne : s.cpu.process ≠ p) (h : s.tick clock = some (s', e)) :
    Takes p rest s' e.activated := by
  obtain ⟨woken, hw⟩ := Appends.wakeSleepers (clock 0) s
  rw [hq, cons_append] at hw
  have ht := preempt_takes hw.symm (by rw [wakeSleepers_cpu]; exact hne) h
  refine ht.imp (.imp_right fun hp => ?_) (.imp_right fun hp => ?_)
  · exact (prefix_append (p :: rest) woken).trans hp
  · exact (prefix_append rest woken).trans hp

theorem leaveForever_takes (h : s.leaveForever clock = some (s', e)) :
    Takes p rest s' e.activated := by
  unfold leaveForever at h
  simp only at h
  split at h
  · cases h
  · obtain ⟨s1, ha, h⟩ := map_eq_some_iff.mp h
    cases h
    exact .of_pick hq (Appends.wakes.refl _) ha

theorem yieldZombie_takes (h : s.yieldZombie clock = some (s', e)) :
    Takes p rest s' e.activated := by
  obtain ⟨woken, hw⟩ := Appends.wakes.wakeWhere (isWaitingForChild _)
    (s.update s.cpu.process zombify)
  rw [update_ready, hq, cons_append] at hw
  refine (leaveForever_takes hw.symm h).imp (.imp_right fun hp => ?_) (.imp_right fun hp => ?_)
  · exact (prefix_append (p :: rest) woken).trans hp
  · exact (prefix_append rest woken).trans hp

theorem yieldToChild_takes (h : s.yieldToChild childPid clock = some (s', e)) :
    Takes p rest s' e.activated := by
  unfold yieldToChild at h
  simp only at h
  split at h
  · cases h
    exact .of_appends (Appends.wakes.refl s) hq
  · split at h
    · cases h
      exact .of_appends (Appends.wakes.refl s) hq
    · obtain ⟨s1, ha, h⟩ := map_eq_some_iff.mp h
      cases h
      exact .of_pick (by exact hq) (Appends.wakes.refl _) ha

theorem yieldBlocked_takes (hne : s.cpu.process ≠ p)
    (h : s.yieldBlocked reason clock = some (s', e)) : Takes p rest s' e.activated := by
  have hq' : (s.beginWait reason).ready = p :: rest := by
    rw [← hq]
    unfold beginWait
    split <;> rfl
  unfold yieldBlocked at h
  simp only at h
  split at h
  · next heq => exact absurd (heq.trans (pickNextProcess_of_ready _ hq').1) hne
  · obtain ⟨s1, ha, h⟩ := map_eq_some_iff.mp h
    cases h
    exact .of_pick hq' (Appends.wakes.refl _) ha

theorem yieldNewProcess_takes (h : s.yieldNewProcess clock = some (s', e)) :
    Takes p rest s' e.activated := by
  unfold yieldNewProcess at h
  simp only at h
  split at h
  · cases h
  · obtain ⟨s1, ha, h⟩ := map_eq_some_iff.mp h
    cases h
    exact .of_pick hq (.enqueueIfRunnable _ (update _ _ _)) ha

theorem outcome_takes (hne : s.cpu.process ≠ p) (h : s.outcome c clock = some (s', e)) :
    Takes p rest s' e.activated := by
  cases c with
  | tick => exact tick_takes hq hne h
  | yieldBlocked reason => exact yieldBlocked_takes hq hne h
  | yieldSleepNs duration =>
    have h' : (s.beginSleep duration (clock 0)).yieldBlocked .sleep (fun k => clock (k + 1)) =
      some (s', e) := h
    exact yieldBlocked_takes (s := s.beginSleep duration (clock 0)) hq hne h'
  | yieldMutex mutex => exact yieldBlocked_takes (s := s.beginMutex _) hq hne h
  | yieldToChild childPid => exact yieldToChild_takes hq h
  | yieldZombie => exact yieldZombie_takes hq h
  | yieldDead => exact leaveForever_takes (s := s.update _ _) hq h
  | exec image => exact yieldNewProcess_takes (s := s.update _ _) hq h
  | addProcess _ _ | wakeSingle _ | wakeAll _ | wakeMutex _ | reap => cases h

end Front

/-- **A call leaves the front of the queue where it is, or activates it.** -/
theorem Partition.call_takes (h : Partition s) (hq : s.ready = p :: rest)
    (hs : s.call c clock = some s') : Takes p rest s' (s.activated c clock) := by
  cases hc : c.isPassive with
  | true =>
    rw [activated_of_passive hc]
    exact .of_appends (.passive hs hc) hq
  | false =>
    obtain ⟨⟨e, he⟩, -⟩ := call_outcome hs hc
    rw [activated_of_outcome he]
    refine outcome_takes hq (fun heq => ?_) he
    have hmem := (h.queued.memReady p).mp (by rw [hq]; exact mem_cons_self)
    exact hmem.2.1 heq.symm

/-! ## Whole runs -/

/-- The processes that are activated in the course of a run. -/
def activations : List (Call × (Nat → Word)) → Sched → List ProcRef
  | [], _ => []
  | l :: ls, s => (s.activated l.1 l.2).toList ++ ((s.call l.1 l.2).map (activations ls)).getD []

/-- What a run does to the queue ahead of a process, by induction on the calls. -/
theorem Partition.activations_take {ls : List (Call × (Nat → Word))} (h : Partition s)
    {ahead behind : List ProcRef} (hq : s.ready = ahead ++ p :: behind)
    (hrun : system.exec ls s = some s') (hp : p ∉ activations ls s) :
    ∃ k, activations ls s = ahead.take k ∧ ∃ behind', s'.ready = ahead.drop k ++ p :: behind' := by
  induction ls generalizing s ahead behind with
  | nil =>
    cases hrun
    exact ⟨0, rfl, behind, hq⟩
  | cons l ls ih =>
    obtain ⟨s1, hn, hrun⟩ := of_bind hrun
    have hcall : s.call l.1 l.2 = some s1 := hn
    rw [activations, hcall, map_some, getD_some] at hp ⊢
    rw [mem_append, not_or] at hp
    cases ahead with
    | nil =>
      rcases h.call_takes hq hcall with ⟨hnone, woken, hw⟩ | ⟨hsome, -⟩
      · have hw' : s1.ready = [] ++ p :: (behind ++ woken) := hw.symm
        obtain ⟨k, hacts, hq'⟩ := ih (h.call hcall) hw' hrun hp.2
        rw [hnone]
        exact ⟨k, hacts, hq'⟩
      · exact absurd (by rw [hsome]; exact mem_cons_self) hp.1
    | cons a ahead =>
      rcases h.call_takes hq hcall with ⟨hnone, woken, hw⟩ | ⟨hsome, woken, hw⟩
      · have hw' : s1.ready = (a :: ahead) ++ p :: (behind ++ woken) := by rw [← hw]; simp
        obtain ⟨k, hacts, hq'⟩ := ih (h.call hcall) hw' hrun hp.2
        rw [hnone]
        exact ⟨k, hacts, hq'⟩
      · have hw' : s1.ready = ahead ++ p :: (behind ++ woken) := by rw [← hw]; simp
        obtain ⟨k, hacts, hq'⟩ := ih (h.call hcall) hw' hrun hp.2
        rw [hsome, hacts]
        exact ⟨k + 1, rfl, hq'⟩

/-- **Round robin.** As long as a process in the ready queue is not activated, those that are
activated are the ones ahead of it, in the order of the queue and each once; it stays ready, and
when it is activated all of them have been. -/
theorem reachable_roundRobin {ahead behind : List ProcRef} {ls : List (Call × (Nat → Word))}
    (h : system.Reachable s) (hq : s.ready = ahead ++ p :: behind)
    (hrun : system.exec ls s = some s')
    (hp : p ∉ activations ls s) : ∃ k, activations ls s = ahead.take k ∧ (activations ls s).Nodup ∧
      s.cpu.idleProcess ∉ activations ls s ∧ (s'.procs p).isReady = true ∧
      (∃ behind', s'.ready = ahead.drop k ++ p :: behind') ∧
      ∀ c clock s'', s'.call c clock = some s'' → s'.activated c clock = some p →
        activations ls s = ahead := by
  have hpart := partition_of_reachable h
  have hpart' := partition_of_reachable (h.of_exec hrun)
  obtain ⟨k, hacts, behind', hq'⟩ := hpart.activations_take hq hrun hp
  have hnodup : (ahead ++ p :: behind).Nodup := hq ▸ hpart.queued.readyNodup
  have hsub : ∀ q ∈ ahead.take k, q ∈ s.ready :=
    fun q hm => by rw [hq]; exact mem_append_left _ (mem_of_mem_take hm)
  rw [hacts]
  refine ⟨k, rfl, ?_, fun hm => ?_, ?_, ⟨behind', hq'⟩, fun c clock s'' hcall hact => ?_⟩
  · exact (take_sublist k ahead).nodup (nodup_append.mp hnodup).1
  · exact hpart.queued.idle ((hpart.queued.memReady _).mp (hsub _ hm)).1
  · refine ((hpart'.queued.memReady p).mp ?_).2.2
    rw [hq']
    exact mem_append_right _ mem_cons_self
  · -- whoever is activated next is at the front, so nobody is left ahead
    cases hdrop : ahead.drop k with
    | nil => exact take_of_length_le (drop_eq_nil_iff.mp hdrop)
    | cons a rest =>
      rw [hdrop, cons_append] at hq'
      have hfront : a = p := by
        rcases hpart'.call_takes hq' hcall with ⟨hnone, -⟩ | ⟨hsome, -⟩
        · cases hnone.symm.trans hact
        · exact some.inj (hsome.symm.trans hact)
      have hdup : (a :: (rest ++ p :: behind')).Nodup := hq' ▸ hpart'.queued.readyNodup
      rw [hfront] at hdup
      exact absurd (mem_append_right rest mem_cons_self) (nodup_cons.mp hdup).1

/-- Three processes; the first one runs, and its slice ends. -/
theorem sliceEnd_roundRobin : ∃ s s', system.Reachable s ∧ s.ready = [2] ++ 3 :: [] ∧
    system.exec [(.tick, fun _ => timeSliceNs)] s = some s' ∧
    activations [(.tick, fun _ => timeSliceNs)] s = [2] ∧ s'.ready = [3, 1] ∧
    ∃ k, activations [(.tick, fun _ => timeSliceNs)] s = [2].take k := by
  have hrun : (system.exec [(.addProcess 1 (freshProcess 1), fun _ => 0),
      (.addProcess 2 (freshProcess 2), fun _ => 0), (.addProcess 3 (freshProcess 3), fun _ => 0),
      (.tick, fun _ => 0)] idleMachine).map (fun s => (s.ready,
        activations [(.tick, fun _ => timeSliceNs)] s,
        (system.exec [(.tick, fun _ => timeSliceNs)] s).map (fun s => s.ready))) =
      some ([2, 3], [2], some [3, 1]) := by
    decide
  obtain ⟨s, hs, hfacts⟩ := map_eq_some_iff.mp hrun
  simp only [Prod.mk.injEq] at hfacts
  obtain ⟨hready, hacts, hfacts⟩ := hfacts
  obtain ⟨s', hs', hready'⟩ := map_eq_some_iff.mp hfacts
  have hreach : system.Reachable s := .of_exec (.start idleMachine_init) hs
  have hqueue : s.ready = [2] ++ 3 :: [] := hready
  obtain ⟨k, htake, -⟩ := reachable_roundRobin hreach hqueue hs' (by rw [hacts]; decide)
  exact ⟨s, s', hreach, hready, hs', hacts, hready', k, htake⟩

/-! ## Idling -/

/-- The process that gives up the CPU stays runnable, and it is the only one: its slice is over, or
it has just been loaded, while nobody else is ready and no sleeper is due. -/
def GivesUpAlone (c : Call) (clock : Nat → Word) (s : Sched) : Prop :=
  match c with
  | .tick => s.wantsPreempt (clock 1) = true ∧ s.cpu.process ≠ s.cpu.idleProcess ∧ s.ready = [] ∧
      s.noneDue (clock 0) = true ∧ s.noneDue (clock 2) = true
  | .exec _ => s.ready = [] ∧ s.noneDue (clock 0) = true
  | _ => False

/-- Nobody is left to run: the queue is empty, and the process that gave up the CPU is not ready. -/
def NothingRunnable (s s' : Sched) : Prop :=
  s'.ready = [] ∧ (s'.procs s.cpu.process).isReady = false

/-- A listed process that is not current and not queued is not ready. -/
theorem Partition.nothingRunnable (h : Partition s') (hmem : s.cpu.process ∈ s'.processes)
    (hcur : s'.cpu.process ≠ s.cpu.process) (hq : s'.ready = []) : NothingRunnable s s' := by
  refine ⟨hq, Bool.eq_false_iff.mpr (fun hr => ?_)⟩
  have hm := (h.queued.memReady s.cpu.process).mpr ⟨hmem, fun heq => hcur heq.symm, hr⟩
  rw [hq] at hm
  cases hm

theorem pick_idle_ready (h : Queued s D) (hpick : (s.pickNextProcess t).1 = s.cpu.idleProcess)
    (ha : (s.pickNextProcess t).2.activateProcess now (s.pickNextProcess t).1 = some s') :
    s'.ready = [] := by
  obtain ⟨hq, hdue⟩ := h.pick_idle hpick
  rw [pickNextProcess_of_alone hq hdue] at ha
  rw [(activateProcess_spec ha).ready, hq]

theorem Queued.leaveForever_idle (h : Queued s ∅) (hs : s.leaveForever clock = some (s', e))
    (he : e.activated = some s.cpu.idleProcess) : s'.ready = [] := by
  unfold Sched.leaveForever at hs
  simp only at hs
  split at hs
  · cases hs
  · obtain ⟨s1, ha, hs⟩ := map_eq_some_iff.mp hs
    cases hs
    exact pick_idle_ready h (some.inj he) ha

theorem Held.yieldBlocked_idle (h : Held s) (hcur : s.cpu.process ∈ s.processes)
    (hs : s.yieldBlocked reason clock = some (s', e)) (he : e.activated = some s.cpu.idleProcess) :
    s'.ready = [] := by
  have hq := h.beginWait reason hcur
  unfold Sched.yieldBlocked at hs
  simp only at hs
  split at hs
  · cases hs
    cases he
  · obtain ⟨s1, ha, hs⟩ := map_eq_some_iff.mp hs
    cases hs
    refine pick_idle_ready hq ?_ ha
    rw [beginWait_cpu]
    exact some.inj he

section

variable (h : Partition s)

include h

theorem Partition.yieldToChild_idle
    (hs : s.yieldToChild childPid clock = some (s', e))
    (he : e.activated = some s.cpu.idleProcess) :
    s'.ready = [] := by
  unfold Sched.yieldToChild at hs
  simp only at hs
  split at hs
  · cases hs
    cases he
  · split at hs
    · cases hs
      cases he
    · obtain ⟨s1, ha, hs⟩ := map_eq_some_iff.mp hs
      cases hs
      have hq : Queued (s.update s.cpu.process (waitForChild childPid)) ∅ :=
        h.update_settled (.inl rfl)
      exact pick_idle_ready hq (some.inj he) ha

/-- The calls after which the current process cannot run at once. -/
theorem Partition.outcome_idle (hcur : s.cpu.process ∈ s.processes)
    (hs : s.outcome c clock = some (s', e)) (hc : c ≠ .tick ∧ ∀ image, c ≠ .exec image)
    (he : e.activated = some s.cpu.idleProcess) : s'.ready = [] := by
  cases c with
  | tick => exact absurd rfl hc.1
  | exec image => exact absurd rfl (hc.2 image)
  | yieldBlocked reason => exact h.toHeld.yieldBlocked_idle hcur hs he
  | yieldSleepNs duration =>
    have hs' : s.yieldSleepNs duration clock = some (s', e) := hs
    exact (h.toHeld.update_current _).yieldBlocked_idle hcur hs' he
  | yieldMutex mutex => exact (h.toHeld.update_current _).yieldBlocked_idle hcur hs he
  | yieldToChild childPid => exact h.yieldToChild_idle hs he
  | yieldZombie =>
    have hq : Queued (s.update s.cpu.process zombify) ∅ := h.update_settled (.inr (.inr rfl))
    refine (hq.wakeWhere (by simp [Queued.PassedOver])).leaveForever_idle hs ?_
    rw [wakes_cpu.wakeWhere]
    exact he
  | yieldDead => exact (h.update_settled (.inr (.inl rfl))).leaveForever_idle hs he
  | addProcess _ _ | wakeSingle _ | wakeAll _ | wakeMutex _ | reap => cases hs

/-- The slice of the only runnable process is over: it is enqueued behind the idle process. -/
theorem Partition.tick_givesUpAlone (hc : GivesUpAlone .tick clock s)
    (hs : s.tick clock = some (s', e)) :
    e.activated = some s.cpu.idleProcess ∧ s'.ready = [s.cpu.process] := by
  obtain ⟨hwants, hne, hq, hdue, hdue'⟩ := hc
  unfold Sched.tick Sched.preempt at hs
  rw [wakeSleepers_of_noneDue hdue, if_pos hwants] at hs
  simp only [pickNextProcess_of_alone hq hdue', if_neg hne] at hs
  obtain ⟨s1, ha, hs⟩ := map_eq_some_iff.mp hs
  cases hs
  have hready : ((s.update s.cpu.process pause).procs s.cpu.process).isReady = true := by
    rw [update_procs_self]
    exact isReady_pause (.inl (h.running hne))
  refine ⟨rfl, ?_⟩
  rw [(activateProcess_spec ha).ready, enqueueIfRunnable, update_cpu, if_neg hne, if_pos hready,
    enqueue_ready, update_ready, hq, nil_append]

theorem Partition.givesUpAlone_of_tick (hs : s.tick clock = some (s', e))
    (he : e.activated = some s.cpu.idleProcess) : GivesUpAlone .tick clock s := by
  obtain ⟨hheld, hcpu, -⟩ := h.toHeld.wakeSleepers (clock 0)
  unfold Sched.tick Sched.preempt at hs
  split at hs
  · next hwants =>
    simp only at hs
    split at hs
    · cases hs
      cases he
    · next hne =>
      obtain ⟨s1, ha, hs⟩ := map_eq_some_iff.mp hs
      cases hs
      have hpick := some.inj he
      rw [← hcpu] at hpick
      obtain ⟨hq, hdue'⟩ := hheld.queued.pick_idle hpick
      obtain ⟨hq, hdue⟩ := noneDue_of_wakeSleepers hq
      rw [hpick, hcpu] at hne
      rw [wakeSleepers_of_noneDue hdue] at hdue' hwants
      exact ⟨hwants, hne, hq, hdue, hdue'⟩
  · cases hs
    cases he

end

/-- Changing the record of a process that is not asleep changes nobody's wake time. -/
theorem noneDue_update {f : Process → Process} (hp : p ∉ s.sleepers.values) :
    (s.update p f).noneDue now = s.noneDue now := by
  unfold noneDue
  rw [update_sleepers]
  split
  · rfl
  · next q hq =>
    obtain ⟨k, xs, hlist⟩ := KMinHeap.peak_eq_some hq
    have hne : q ≠ p := by
      rintro rfl
      apply hp
      rw [KMinHeap.values, hlist]
      exact mem_cons_self
    rw [update_procs_of_ne f s hne]

/-- The same for the process that has just been loaded. -/
theorem Partition.exec_givesUpAlone (h : Partition s)
    (hcur : s.cpu.process ≠ s.cpu.idleProcess) (hc : GivesUpAlone (.exec image) clock s)
    (hs : s.exec image clock = some (s', e)) :
    e.activated = some s.cpu.idleProcess ∧ s'.ready = [s.cpu.process] := by
  obtain ⟨hq, hdue⟩ := hc
  rw [← noneDue_update (f := execReset image)
    (h.queued.not_mem_sleepers (Set.mem_singleton s.cpu.process))] at hdue
  have hpick := pickNextProcess_of_alone (s := s.update s.cpu.process (execReset image)) hq hdue
  unfold Sched.exec Sched.yieldNewProcess at hs
  simp only [hpick, update_cpu, if_neg hcur] at hs
  obtain ⟨s1, ha, hs⟩ := map_eq_some_iff.mp hs
  cases hs
  refine ⟨rfl, ?_⟩
  rw [(activateProcess_spec ha).ready, enqueueIfRunnable, update_cpu, update_cpu, if_neg hcur,
    if_pos (by rw [update_procs_self]; exact isReady_wake _), enqueue_ready, update_ready,
    update_ready, hq, nil_append]

theorem Partition.givesUpAlone_of_exec (h : Partition s)
    (hs : s.exec image clock = some (s', e)) (he : e.activated = some s.cpu.idleProcess) :
    GivesUpAlone (.exec image) clock s := by
  have hheld := h.toHeld.update_current (execReset image)
  unfold Sched.exec Sched.yieldNewProcess at hs
  simp only at hs
  split at hs
  · cases hs
  · obtain ⟨s1, ha, hs⟩ := map_eq_some_iff.mp hs
    cases hs
    obtain ⟨hq, hdue⟩ := hheld.queued.pick_idle (some.inj he)
    rw [noneDue_update (h.queued.not_mem_sleepers (Set.mem_singleton s.cpu.process))] at hdue
    exact ⟨hq, hdue⟩

/-- **Work conservation.** Whenever the idle process is activated nobody is left to run, exactly as
long as no process gives up the CPU alone: `preempt` and `yield_new_process` choose the next process
before they enqueue the current one. -/
theorem reachable_idles_iff (h : system.Reachable s) (hs : s.call c clock = some s') :
    (s.activated c clock = some s.cpu.idleProcess → NothingRunnable s s') ↔
      ¬ GivesUpAlone c clock s := by
  have hpart := partition_of_reachable h
  cases hpass : c.isPassive with
  | true =>
    rw [activated_of_passive hpass]
    refine ⟨fun _ hc => ?_, fun _ hsome => by cases hsome⟩
    cases c with
    | tick | exec _ => cases hpass
    | _ => exact hc
  | false =>
    obtain ⟨⟨e, he⟩, hwho⟩ := call_outcome hs hpass
    rw [activated_of_outcome he]
    have hleft : e.activated = some s.cpu.idleProcess → s'.ready = [s.cpu.process] →
        ¬ (e.activated = some s.cpu.idleProcess → NothingRunnable s s') := by
      intro hidle hq hall
      rw [(hall hidle).1] at hq
      cases hq
    by_cases htick : c = .tick
    · subst htick
      constructor
      · intro hall hc
        obtain ⟨hidle, hq⟩ := hpart.tick_givesUpAlone hc he
        exact hleft hidle hq hall
      · exact fun hc hidle => absurd (hpart.givesUpAlone_of_tick he hidle) hc
    · have hcur := hwho.resolve_left htick
      by_cases hexec : ∃ image, c = .exec image
      · obtain ⟨image, rfl⟩ := hexec
        constructor
        · intro hall hc
          obtain ⟨hidle, hq⟩ := hpart.exec_givesUpAlone hcur hc he
          exact hleft hidle hq hall
        · exact fun hc hidle => absurd (hpart.givesUpAlone_of_exec he hidle) hc
      · have hmem := hpart.member.resolve_left hcur
        have hne : c ≠ .tick ∧ ∀ image, c ≠ .exec image := ⟨htick, fun i hi => hexec ⟨i, hi⟩⟩
        refine ⟨fun _ hc => ?_, fun _ hidle => ?_⟩
        · cases c with
          | tick => exact htick rfl
          | exec image => exact hexec ⟨image, rfl⟩
          | _ => exact hc
        · obtain ⟨hproc, hcur'⟩ := outcome_spec he
          refine (hpart.call hs).nothingRunnable (hproc ▸ hmem) ?_
            (hpart.outcome_idle hmem he hne hidle)
          rw [hcur' hidle]
          exact hcur.symm

/-- The only process is put behind the idle process when its slice ends. -/
theorem lonely_preempted_idles :
    ∃ s s', system.Reachable s ∧ s.call .tick (fun _ => timeSliceNs) = some s' ∧
    s.activated .tick (fun _ => timeSliceNs) = some s.cpu.idleProcess ∧
    s.cpu.process = 1 ∧ s'.ready = [1] ∧ (s'.procs 1).state = .ready := by
  have hrun : (system.exec [(.addProcess 1 (freshProcess 1), fun _ => 0), (.tick, fun _ => 0)]
      idleMachine).map (fun s => (s.cpu.process,
        s.activated .tick (fun _ => timeSliceNs) == some s.cpu.idleProcess,
        (s.call .tick (fun _ => timeSliceNs)).map (fun s' => (s'.ready, (s'.procs 1).state)))) =
      some (1, true, some ([1], .ready)) := by
    decide
  obtain ⟨s, hs, hfacts⟩ := map_eq_some_iff.mp hrun
  simp only [Prod.mk.injEq, beq_iff_eq] at hfacts
  obtain ⟨hcur, hact, hfacts⟩ := hfacts
  obtain ⟨s', hs', hfacts⟩ := map_eq_some_iff.mp hfacts
  obtain ⟨hready, hstate⟩ := Prod.mk.inj hfacts
  exact ⟨s, s', .of_exec (.start idleMachine_init) hs, hs', hact, hcur, hready, hstate⟩

/-- The only process goes to sleep, and the idle process runs. -/
theorem sleeper_idles :
    ∃ s s', system.Reachable s ∧ s.call (.yieldSleepNs 5) (fun _ => 1) = some s' ∧
    s.activated (.yieldSleepNs 5) (fun _ => 1) = some s.cpu.idleProcess ∧ NothingRunnable s s' := by
  have hrun : (system.exec [(.addProcess 1 (freshProcess 1), fun _ => 0), (.tick, fun _ => 0)]
      idleMachine).map (fun s =>
        (s.activated (.yieldSleepNs 5) (fun _ => 1) == some s.cpu.idleProcess,
        (s.call (.yieldSleepNs 5) (fun _ => 1)).isSome)) = some (true, true) := by
    decide +kernel
  obtain ⟨s, hs, hfacts⟩ := map_eq_some_iff.mp hrun
  simp only [Prod.mk.injEq, beq_iff_eq, isSome_iff_exists] at hfacts
  obtain ⟨hact, s', hs'⟩ := hfacts
  have hreach : system.Reachable s := .of_exec (.start idleMachine_init) hs
  exact ⟨s, s', hreach, hs', hact, (reachable_idles_iff hreach hs').mpr (fun hc => hc) hact⟩

end Sched

end Hltos
