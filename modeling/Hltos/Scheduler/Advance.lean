import Hltos.Scheduler.Queued

/-!
# What any call leaves alone

A call is made of few single changes. A relation between the states before and after that holds for
each of them holds for the call (`Respects`), and the switch the call ends with goes from
`cpu->process` as the call found it to `cpu->process` as the call leaves it.

`Advances` is such a relation. A call lists and unlists nobody (`add_process` and `reap` apart) and
never replaces the idle process, and it gives a process a wait for a mutex only together with the
mutex, except that `yield_blocked(MUTEX)` counts on `yield_mutex` to have named it.
-/

namespace Hltos

open Process Bool Option Set

/-- A process that is blocked on a mutex names the mutex, so that `wake_mutex` can find it. -/
def Process.NamesMutex (r : Process) : Prop :=
  r.state = .blocked → r.waitReason = .mutex → r.waitMutex.isSome = true

variable {r : Process}

theorem Process.namesMutex_of_state (h : r.state ≠ .blocked) : r.NamesMutex := fun hb => absurd hb h

theorem Process.namesMutex_pause (h : r.NamesMutex) : r.pause.NamesMutex := by
  unfold pause
  split
  · exact namesMutex_of_state (by simp)
  · exact h

variable {reason : WaitReason}

/-- The switch a call ends with goes from the process that was current to the one that is. -/
def Exit.Fits (s s' : Sched) : Exit → Prop
  | .returns | .status _ => s'.cpu.process = s.cpu.process
  | .contextSwitch old next => old = s.cpu.process ∧ next = s'.cpu.process
  | .permanentContextSwitch next => next = s'.cpu.process

/-- `Fits` looks at nothing but the current processes. -/
theorem Exit.Fits.of_cpu {s0 s s' : Sched} {e : Exit} (h : e.Fits s s')
    (hcpu : s.cpu = s0.cpu) : e.Fits s0 s' := by
  cases e with
  | returns => exact h.trans (congrArg Cpu.process hcpu)
  | status v => exact h.trans (congrArg Cpu.process hcpu)
  | contextSwitch old next => exact ⟨h.1.trans (congrArg Cpu.process hcpu), h.2⟩
  | permanentContextSwitch next => exact h

namespace Sched

variable {s s' s'' : Sched} {p : ProcRef} {now : Word} {T : Set Word} {R : Sched → Sched → Prop}

/-! ## What waking is made of -/

/-- A relation that every process woken keeps, be it blocked or due at one of the instants `T`. -/
structure Wakes (T : Set Word) (R : Sched → Sched → Prop) : Prop where
  refl : ∀ s, R s s
  trans : ∀ {s s' s''}, R s s' → R s' s'' → R s s''
  sleepers : ∀ s sleepers, R s { s with sleepers }
  blocked : ∀ s p, (s.procs p).isBlocked = true → R s (s.wakeProcess p)
  due : ∀ s p, ∀ now ∈ T, ¬ now < (s.procs p).wakeTimeNs → R s (s.wakeProcess p)

namespace Wakes

theorem wakeIf (h : Wakes T R) (cond : Process → Bool) (s : Sched) (p : ProcRef) :
    R s (s.wakeIf cond p) := by
  unfold Sched.wakeIf
  split
  · next hc => exact h.blocked s p (and_eq_true_iff.mp hc).1
  · exact h.refl s

theorem wakeWhere (h : Wakes T R) (cond : Process → Bool) (s : Sched) : R s (s.wakeWhere cond) := by
  unfold Sched.wakeWhere
  generalize s.processes = l
  induction l generalizing s with
  | nil => exact h.refl s
  | cons p l ih => exact h.trans (h.wakeIf cond s p) (ih _)

theorem wakeAll (h : Wakes T R) (reason : WaitReason) (s : Sched) : R s (s.wakeAll reason) := by
  unfold Sched.wakeAll
  split
  · exact h.refl s
  · exact h.wakeWhere _ s

theorem wakeSingle (h : Wakes T R) (reason : WaitReason) (s : Sched) :
    R s (s.wakeSingle reason) := by
  unfold Sched.wakeSingle
  split
  · exact h.refl s
  · split
    · exact h.refl s
    · next hfind =>
      have hc := List.find?_some hfind
      exact h.blocked s _ (and_eq_true_iff.mp hc).1

theorem wakeSleepersLoop (h : Wakes T R) (hnow : now ∈ T) :
    ∀ (n : Nat) (s : Sched), R s (Sched.wakeSleepersLoop now n s)
  | 0, s => h.refl s
  | n + 1, s => by
    unfold Sched.wakeSleepersLoop
    split
    · exact h.refl s
    · next p _ =>
      split
      · exact h.refl s
      · next hdue =>
        have hwake := h.trans (h.due s p now hnow hdue) (h.sleepers _ s.sleepers.pop)
        exact h.trans hwake (h.wakeSleepersLoop hnow n _)

theorem wakeSleepers (h : Wakes T R) (hnow : now ∈ T) (s : Sched) : R s (s.wakeSleepers now) :=
  h.wakeSleepersLoop hnow _ s

end Wakes

theorem wakes_cpu : Wakes Set.univ (fun s s' => s'.cpu = s.cpu) where
  refl _ := rfl
  trans h h' := h'.trans h
  sleepers _ _ := rfl
  blocked _ _ _ := rfl
  due _ _ _ _ _ := rfl

theorem wakeSleepers_cpu (now : Word) (s : Sched) : (s.wakeSleepers now).cpu = s.cpu :=
  wakes_cpu.wakeSleepers (mem_univ now) s

theorem wakeSingle_cpu (reason : WaitReason) (s : Sched) : (s.wakeSingle reason).cpu = s.cpu :=
  wakes_cpu.wakeSingle reason s

theorem reap_cpu (h : s.reap = some s') : s'.cpu = s.cpu := by
  unfold reap at h
  split at h
  · cases h
  · cases h; rfl

theorem pickNextProcess_cpu (now : Word) (s : Sched) : (s.pickNextProcess now).2.cpu = s.cpu := by
  unfold pickNextProcess pickNext
  cases (s.wakeSleepers now).ready with
  | nil => exact wakeSleepers_cpu now s
  | cons p rest => exact wakeSleepers_cpu now s

/-! ## What the calls are made of -/

/-- What the calls do to the record of the current process, the beginning of a wait apart. -/
inductive Method : (Process → Process) → Prop
  | wake : Method Process.wake
  | pause : Method Process.pause
  | kill : Method Process.kill
  | zombify : Method Process.zombify
  | resume (now : Word) : Method (Process.resume now)
  | waitForChild (pid : Int) : Method (Process.waitForChild pid)

/-- A relation that each single change of a call keeps. A process is activated only if it was the
front of the ready queue or is the idle process. -/
structure Respects (T : Set Word) (R : Sched → Sched → Prop) : Prop extends Wakes T R where
  method : ∀ s f, Method f → R s (s.update s.cpu.process f)
  killZombie : ∀ s p, (s.procs p).isZombie = true → R s (s.update p Process.kill)
  enqueue : ∀ s, R s (s.enqueue s.cpu.process)
  dequeue : ∀ s p rest, s.ready = p :: rest → R s { s with ready := rest }
  activate : ∀ {s0 s s' p now}, p ∈ s0.ready ∨ p = s0.cpu.idleProcess → R s0 s →
    s.activateProcess now p = some s' → R s0 s'

variable {f : Process → Process}

namespace Respects

variable {clock : Nat → Word} {e : Exit} (h : Respects T R)

include h

theorem picked (now : Word) (s : Sched) : R (s.wakeSleepers now) (s.pickNextProcess now).2 ∧
      ((s.pickNextProcess now).1 ∈ (s.wakeSleepers now).ready ∨
        (s.pickNextProcess now).1 = (s.wakeSleepers now).cpu.idleProcess) := by
  unfold Sched.pickNextProcess Sched.pickNext
  cases hready : (s.wakeSleepers now).ready with
  | nil => exact ⟨h.refl _, .inr rfl⟩
  | cons p rest => exact ⟨h.dequeue _ p rest hready, .inl List.mem_cons_self⟩

theorem pickNextProcess (hnow : now ∈ T) (s : Sched) : R s (s.pickNextProcess now).2 :=
  h.trans (h.wakeSleepers hnow s) (h.picked now s).1

/-- The common tail of the calls: pick a process, and activate it in the end. -/
theorem pickAndActivate {t : Word} {s1 : Sched} (ht : t ∈ T) (h1 : R (s.pickNextProcess t).2 s1)
    (ha : s1.activateProcess now (s.pickNextProcess t).1 = some s') :
    R s s' ∧ (s.pickNextProcess t).1 = s'.cpu.process := by
  obtain ⟨hpick, hchoice⟩ := h.picked t s
  exact ⟨h.trans (h.wakeSleepers ht s) (h.activate hchoice (h.trans hpick h1) ha),
    (activateProcess_spec ha).process.symm⟩

/-- The current process goes to the end of the queue. -/
theorem requeue (hf : Method f) (hp : p = s.cpu.process) :
    R s ((s.update p f).enqueueIfRunnable p) := by
  subst hp
  apply h.trans (h.method s f hf)
  unfold Sched.enqueueIfRunnable
  split
  · exact h.refl _
  · split
    · exact h.enqueue _
    · exact h.refl _

section

variable (hclock : ∀ k, clock k ∈ T)

include hclock

theorem preempt (hs : s.preempt clock = some (s', e)) : R s s' ∧ e.Fits s s' := by
  unfold Sched.preempt at hs
  have hcpu := pickNextProcess_cpu (clock 1) s
  split at hs
  · simp only at hs
    split at hs
    · cases hs
      exact ⟨h.pickNextProcess (hclock 1) s, congrArg Cpu.process hcpu⟩
    · obtain ⟨s1, ha, hs⟩ := map_eq_some_iff.mp hs
      cases hs
      obtain ⟨hR, hnext⟩ := h.pickAndActivate (hclock 1) (h.requeue .pause (by rw [hcpu])) ha
      exact ⟨hR, rfl, hnext⟩
  · cases hs
    exact ⟨h.refl _, rfl⟩

theorem tick (hs : s.tick clock = some (s', e)) : R s s' ∧ e.Fits s s' := by
  obtain ⟨hR, hfit⟩ := h.preempt (fun k => hclock (k + 1)) hs
  exact ⟨h.trans (h.wakeSleepers (hclock 0) s) hR, hfit.of_cpu (wakeSleepers_cpu _ s)⟩

theorem leaveForever (hs : s.leaveForever clock = some (s', e)) :
    R s s' ∧ e = .permanentContextSwitch s'.cpu.process := by
  unfold Sched.leaveForever at hs
  simp only at hs
  split at hs
  · cases hs
  · obtain ⟨s1, ha, hs⟩ := map_eq_some_iff.mp hs
    cases hs
    obtain ⟨hR, hnext⟩ := h.pickAndActivate (hclock 0) (h.refl _) ha
    exact ⟨hR, congrArg Exit.permanentContextSwitch hnext⟩

theorem yieldDead (hs : s.yieldDead clock = some (s', e)) :
    R s s' ∧ e = .permanentContextSwitch s'.cpu.process := by
  obtain ⟨hR, he⟩ := h.leaveForever hclock hs
  exact ⟨h.trans (h.method s _ .kill) hR, he⟩

theorem yieldZombie (hs : s.yieldZombie clock = some (s', e)) :
    R s s' ∧ e = .permanentContextSwitch s'.cpu.process := by
  obtain ⟨hR, he⟩ := h.leaveForever hclock hs
  exact ⟨h.trans (h.trans (h.method s _ .zombify) (h.wakeWhere _ _)) hR, he⟩

theorem yieldToChild {pid : Int} (hs : s.yieldToChild pid clock = some (s', e)) :
    R s s' ∧ e.Fits s s' := by
  unfold Sched.yieldToChild at hs
  simp only at hs
  split at hs
  · cases hs
    exact ⟨h.refl _, rfl⟩
  · split at hs
    · next hzombie =>
      cases hs
      exact ⟨h.trans (h.killZombie s _ hzombie) (h.method (s.update _ _) _ (.resume _)), rfl⟩
    · obtain ⟨s1, ha, hs⟩ := map_eq_some_iff.mp hs
      cases hs
      obtain ⟨hR, hnext⟩ := h.pickAndActivate (hclock 0) (h.refl _) ha
      exact ⟨h.trans (h.method s _ (.waitForChild pid)) hR, rfl, hnext⟩

/-- `yield_blocked` is the wait, then a pick that may fall on the process itself. -/
theorem yieldBlocked (hs : s.yieldBlocked reason clock = some (s', e)) :
    R (s.beginWait reason) s' ∧ e.Fits s s' := by
  unfold Sched.yieldBlocked at hs
  have hcpu := (pickNextProcess_cpu (clock 0) _).trans (beginWait_cpu reason s)
  simp only at hs
  split at hs
  · cases hs
    refine ⟨h.trans (h.pickNextProcess (hclock 0) _) ?_, congrArg Cpu.process hcpu⟩
    rw [← hcpu]
    exact h.method _ _ (.resume _)
  · obtain ⟨s1, ha, hs⟩ := map_eq_some_iff.mp hs
    cases hs
    obtain ⟨hR, hnext⟩ := h.pickAndActivate (hclock 0) (h.refl _) ha
    exact ⟨hR, rfl, hnext⟩

theorem yieldNewProcess (hs : s.yieldNewProcess clock = some (s', e)) : R s s' ∧ e.Fits s s' := by
  unfold Sched.yieldNewProcess at hs
  simp only at hs
  split at hs
  · cases hs
  · obtain ⟨s1, ha, hs⟩ := map_eq_some_iff.mp hs
    cases hs
    have hcur : s.cpu.process = (s.pickNextProcess (clock 0)).2.cpu.process := by
      rw [pickNextProcess_cpu]
    exact h.pickAndActivate (hclock 0) (h.requeue .wake hcur) ha

end

end Respects

/-! ## What no call changes -/

/-- What no call changes, whatever the state it starts from. -/
structure Advances (s s' : Sched) : Prop where
  processes : s'.processes = s.processes
  idle : s'.cpu.idleProcess = s.cpu.idleProcess
  mutex : ∀ q, (s.procs q).NamesMutex → (s'.procs q).NamesMutex

namespace Advances

theorem trans (h : Advances s s') (h' : Advances s' s'') : Advances s s'' :=
  ⟨h'.processes.trans h.processes, h'.idle.trans h.idle, fun q hq => h'.mutex q (h.mutex q hq)⟩

theorem update (hf : (s.procs p).NamesMutex → (f (s.procs p)).NamesMutex) :
    Advances s (s.update p f) := by
  refine ⟨rfl, rfl, fun q hq => ?_⟩
  by_cases hqp : q = p
  · subst hqp
    rw [update_procs_self]
    exact hf hq
  · rw [update_procs_of_ne f s hqp]
    exact hq

theorem update_state (hf : (f (s.procs p)).state ≠ .blocked) : Advances s (s.update p f) :=
  update (fun _ => namesMutex_of_state hf)

theorem wakeProcess (p : ProcRef) (s : Sched) : Advances s (s.wakeProcess p) :=
  (update_state (by simp)).trans ⟨rfl, rfl, fun _ h => h⟩

theorem method (hf : Method f) (p : ProcRef) (s : Sched) : Advances s (s.update p f) := by
  cases hf with
  | pause => exact update namesMutex_pause
  | waitForChild pid => exact update (fun _ _ hr => absurd hr (by simp [waitForChild, waitFor]))
  | wake | kill | zombify | resume => exact update_state (by simp)

theorem activateProcess (h : s.activateProcess now p = some s') : Advances s s' := by
  have ha := activateProcess_spec h
  refine ⟨ha.processes, ha.idle, fun q hq => ?_⟩
  by_cases hqp : q = p
  · subst hqp
    exact namesMutex_of_state (by rw [ha.running]; simp)
  · rw [ha.kept q hqp]
    exact hq

theorem respects : Respects Set.univ Advances where
  refl _ := ⟨rfl, rfl, fun _ h => h⟩
  trans := trans
  sleepers _ _ := ⟨rfl, rfl, fun _ h => h⟩
  blocked s p _ := wakeProcess p s
  due s p _ _ _ := wakeProcess p s
  method s _ hf := method hf _ s
  killZombie s p _ := method .kill p s
  enqueue _ := ⟨rfl, rfl, fun _ h => h⟩
  dequeue _ _ _ _ := ⟨rfl, rfl, fun _ h => h⟩
  activate _ h ha := h.trans (activateProcess ha)

theorem beginWait (hm : reason = .mutex → (s.procs s.cpu.process).waitMutex.isSome = true) :
    Advances s (s.beginWait reason) := by
  have hup : Advances s (s.update s.cpu.process (waitFor reason)) := .update (fun _ _ hr => hm hr)
  unfold Sched.beginWait
  split
  · exact hup.trans ⟨rfl, rfl, fun _ h => h⟩
  · exact hup

end Advances

variable {clock : Nat → Word} {e : Exit}

theorem tick_spec (h : s.tick clock = some (s', e)) : Advances s s' ∧ e.Fits s s' :=
  Advances.respects.tick (fun _ => mem_univ _) h

theorem yieldDead_spec (h : s.yieldDead clock = some (s', e)) :
    Advances s s' ∧ e = .permanentContextSwitch s'.cpu.process :=
  Advances.respects.yieldDead (fun _ => mem_univ _) h

theorem yieldZombie_spec (h : s.yieldZombie clock = some (s', e)) :
    Advances s s' ∧ e = .permanentContextSwitch s'.cpu.process :=
  Advances.respects.yieldZombie (fun _ => mem_univ _) h

theorem yieldToChild_spec {pid : Int} (h : s.yieldToChild pid clock = some (s', e)) :
    Advances s s' ∧ e.Fits s s' :=
  Advances.respects.yieldToChild (fun _ => mem_univ _) h

theorem yieldBlocked_spec (h : s.yieldBlocked reason clock = some (s', e)) :
    Advances (s.beginWait reason) s' ∧ e.Fits s s' :=
  Advances.respects.yieldBlocked (fun _ => mem_univ _) h

theorem yieldNewProcess_spec (h : s.yieldNewProcess clock = some (s', e)) :
  Advances s s' ∧ e.Fits s s' := Advances.respects.yieldNewProcess (fun _ => mem_univ _) h

/-! ## Ticks that do not switch -/

theorem wakeProcess_quantumStartNs (p : ProcRef) (s : Sched) (q : ProcRef) :
    ((s.wakeProcess p).procs q).quantumStartNs = (s.procs q).quantumStartNs := by
  by_cases hqp : q = p
  · subst hqp
    show ((s.update q wake).procs q).quantumStartNs = _
    rw [update_procs_self]
    rfl
  · exact congrArg quantumStartNs (wakeProcess_procs_of_ne s hqp)

theorem wakes_quantumStartNs :
    Wakes Set.univ (fun s s' => ∀ q, (s'.procs q).quantumStartNs = (s.procs q).quantumStartNs) where
  refl _ _ := rfl
  trans h h' q := (h' q).trans (h q)
  sleepers _ _ _ := rfl
  blocked s p _ := wakeProcess_quantumStartNs p s
  due s p _ _ _ := wakeProcess_quantumStartNs p s

/-- Waking the sleepers does not change the answer of `preempt`'s two tests. -/
theorem wantsPreempt_wakeSleepers (now t : Word) (s : Sched) :
    (s.wakeSleepers t).wantsPreempt now = s.wantsPreempt now := by
  unfold wantsPreempt
  rw [wakeSleepers_cpu, wakes_quantumStartNs.wakeSleepers (mem_univ t) s]

theorem tick_of_not_wantsPreempt (h : s.wantsPreempt (clock 1) = false) :
    s.tick clock = some (s.wakeSleepers (clock 0), .returns) := by
  unfold tick preempt
  rw [wantsPreempt_wakeSleepers, h]
  rfl

/-- The root of `g_sleepers`, if there is one, is not due. -/
def noneDue (now : Word) (s : Sched) : Bool :=
  match s.sleepers.peak with
  | none => true
  | some p => decide (now < (s.procs p).wakeTimeNs)

theorem wakeSleepers_of_noneDue {now : Word} (h : s.noneDue now = true) :
    s.wakeSleepers now = s := by
  unfold noneDue at h
  unfold wakeSleepers
  cases s.sleepers.size with
  | zero => rfl
  | succ n =>
    unfold wakeSleepersLoop
    split
    · rfl
    · next p hp =>
      rw [hp] at h
      rw [if_pos (of_decide_eq_true h)]

/-- The tick leaves the current process on the CPU: `preempt` stops at one of its tests, or the
idle process is current and nobody is ready or due. -/
def calm (clock : Nat → Word) (s : Sched) : Bool :=
  !s.wantsPreempt (clock 1) ||
    s.cpu.process == s.cpu.idleProcess && s.ready.isEmpty && s.noneDue (clock 0) &&
      s.noneDue (clock 2)

theorem tick_of_calm (h : s.calm clock = true) (ht : s.tick clock = some (s', e)) :
    e = .returns := by
  simp only [calm, or_eq_true, not_eq_true', and_eq_true, beq_iff_eq, List.isEmpty_iff] at h
  rcases h with h | ⟨⟨⟨hidle, hready⟩, hdue⟩, hdue'⟩
  · rw [tick_of_not_wantsPreempt h] at ht
    cases ht; rfl
  · have hpick : s.pickNextProcess (clock 2) = (s.cpu.idleProcess, s) := by
      unfold pickNextProcess pickNext
      rw [wakeSleepers_of_noneDue hdue', hready]
    unfold tick preempt at ht
    rw [wakeSleepers_of_noneDue hdue] at ht
    simp only [hpick, hidle, if_true] at ht
    split at ht <;> cases ht <;> rfl

/-- The tick that switches has passed the tests of `preempt`. -/
theorem wantsPreempt_of_tick {old next : ProcRef}
    (ht : s.tick clock = some (s', .contextSwitch old next)) : s.wantsPreempt (clock 1) = true := by
  cases hw : s.wantsPreempt (clock 1) with
  | true => rfl
  | false =>
    rw [tick_of_not_wantsPreempt hw] at ht
    cases ht

end Sched

end Hltos
