import Hltos.Scheduler.Settled

/-!
# `kmutex`

`lock` tests the word and blocks in a later step, `unlock` frees the word and wakes the waiters in a
later step, and `yield_mutex` writes the wait record before `yield_blocked` takes the lock of the
scheduler. The steps between which another process may run are the points of `MutexPoint`; which
process runs is up to the scheduler and the timer.
-/

namespace Hltos

open Lib.Transition Sched Queued Option

/-- Where a process stands in the code of `kmutex`. -/
inductive MutexPoint
  | outside
  /-- at `_lock.exchange(0)` in the loop of `lock` -/
  | trying
  /-- the exchange has failed; before `wait_for_mutex` -/
  | failed
  /-- `wait_for_mutex` is done; before the lock of `yield_blocked` -/
  | gap
  | holding
  /-- `_lock.store(1)` is done; before `wake_mutex` -/
  | unlocking
deriving DecidableEq

structure MutexRun where
  sched : Sched
  /-- `_lock` -/
  lock : Int
  point : ProcRef → MutexPoint

inductive MutexOp
  /-- the current process creates another one -/
  | spawn (p : ProcRef) (record : Process)
  | tick
  /-- the current process takes its next step -/
  | proceed
deriving DecidableEq

namespace MutexRun

variable {m : MutexRef}

abbrev current (st : MutexRun) : ProcRef := st.sched.cpu.process

/-- The current process goes on to a point. -/
def goto (point : MutexPoint) (st : MutexRun) : MutexRun :=
  { st with point := fun q => if q = st.current then point else st.point q }

/-- One step of `lock` or `unlock` on the mutex `m`. -/
def proceed (m : MutexRef) (clock : Nat → Word) (st : MutexRun) : Option MutexRun :=
  match st.point st.current with
  | .outside => some (st.goto .trying)
  | .trying =>
    if st.lock = 1 then some { st.goto .holding with lock := 0 }
    else some { st.goto .failed with lock := 0 }
  | .failed => some { st.goto .gap with sched := st.sched.beginMutex m }
  | .gap =>
    (st.sched.yieldBlocked .mutex clock).map (fun r => { st.goto .trying with sched := r.1 })
  | .holding => some { st.goto .unlocking with lock := 1 }
  | .unlocking => some { st.goto .outside with sched := st.sched.wakeMutex m }

def next (m : MutexRef) (l : MutexOp × (Nat → Word)) (st : MutexRun) : Option MutexRun :=
  match l with
  | (.spawn p record, _) =>
    if (st.point st.current = .outside ∨ st.point st.current = .holding) ∧
        p ∉ st.sched.processes ∧ p ≠ st.sched.cpu.idleProcess ∧ record.state = .new then
      some { st with
        sched := st.sched.addProcess p record
        point := fun q => if q = p then .outside else st.point q }
    else none
  | (.tick, clock) => (st.sched.tick clock).map (fun r => { st with sched := r.1 })
  | (.proceed, clock) => if st.current = st.sched.cpu.idleProcess then none else st.proceed m clock

/-- The mutex is free, and no process has been created. -/
def system (m : MutexRef) : System MutexRun (MutexOp × (Nat → Word)) where
  init st := Sched.system.init st.sched ∧ st.lock = 1 ∧ ∀ p, st.point p = .outside
  next := next m

/-! ## Lost wakeups -/

/-- The process is blocked on the mutex. -/
def Waits (st : MutexRun) (p : ProcRef) : Prop :=
  (st.sched.procs p).state = .blocked ∧ (st.sched.procs p).waitReason = .mutex

/-- The mutex is free, nobody is inside `unlock`, and yet a process is blocked on it. -/
def LostWakeup (st : MutexRun) : Prop :=
  st.lock = 1 ∧ (∀ p ∈ st.sched.processes, st.point p ≠ .unlocking) ∧
    ∃ p ∈ st.sched.processes, st.Waits p

/-- `wake_mutex` does not run while a process stands in the gap of `yield_mutex`, nor, if the mutex
is free, while a process has failed to take it and not yet said that it waits. -/
def WakesSettled (l : MutexOp × (Nat → Word)) (st : MutexRun) : Prop :=
  l.1 = .proceed → st.point st.current = .unlocking → ∀ p ∈ st.sched.processes,
    st.point p ≠ .gap ∧ (st.lock = 1 → st.point p ≠ .failed)

instance (l : MutexOp × (Nat → Word)) (st : MutexRun) : Decidable (WakesSettled l st) :=
  inferInstanceAs (Decidable (_ → _))

/-- Whoever is blocked on the mutex names it and stands in `lock`; and if the mutex is free,
somebody is about to wake the waiters, or there are none. -/
structure Inv (m : MutexRef) (st : MutexRun) : Prop where
  held : Held st.sched
  running : st.current ≠ st.sched.cpu.idleProcess → st.point st.current ≠ .gap →
    (st.sched.procs st.current).state = .running
  gap : ∀ p ∈ st.sched.processes, st.point p = .gap → st.Waits p
  waits : ∀ p ∈ st.sched.processes, st.Waits p → (st.sched.procs p).waitMutex = some m
  free : st.lock = 1 → (∃ p ∈ st.sched.processes, st.point p = .unlocking) ∨
    ∀ p ∈ st.sched.processes, st.point p ≠ .failed ∧ ¬ st.Waits p

variable {st st' : MutexRun} {l : MutexOp × (Nat → Word)} {p q : ProcRef} {s' : Sched}

theorem Waits.settled (h : st.Waits p) : Settled (st.sched.procs p) := Or.inl h.1

section

variable (h : Inv m st)

include h

theorem Inv.not_lost : ¬ LostWakeup st := by
  rintro ⟨hlock, hnone, p, hp, hwait⟩
  rcases h.free hlock with ⟨q, hq, hunlock⟩ | hall
  · exact hnone q hq hunlock
  · exact (hall p hp).2 hwait

theorem Inv.partition (hgap : st.point st.current ≠ .gap) : Partition st.sched :=
  ⟨h.held, fun hi => h.running hi hgap⟩

/-- Only the word and the point of the current process change. -/
theorem Inv.goto {point : MutexPoint} {lock : Int}
    (hmem : st.current ∈ st.sched.processes) (hgap : st.point st.current ≠ .gap)
    (hpoint : point ≠ .gap) (hfree : lock = 1 → point = .unlocking ∨ st.lock = 1 ∧ point ≠ .failed ∧
      st.point st.current ≠ .unlocking) :
    Inv m { st.goto point with lock := lock } := by
  have hself : (st.goto point).point st.current = point := if_pos rfl
  have hother : ∀ q, q ≠ st.current → (st.goto point).point q = st.point q := fun q hq => if_neg hq
  refine ⟨h.held, fun hi _ => h.running hi hgap, fun p hp hg => ?_, h.waits, fun hlock => ?_⟩
  · by_cases hpc : p = st.current
    · exact absurd (by rw [← hself, ← hpc]; exact hg) hpoint
    · exact h.gap p hp ((hother p hpc).symm.trans hg)
  · rcases hfree hlock with hunlock | ⟨hlock0, hfailed, hcur⟩
    · exact .inl ⟨st.current, hmem, hself.trans hunlock⟩
    · rcases h.free hlock0 with ⟨q, hq, hunlock⟩ | hall
      · have hqc : q ≠ st.current := fun hqc => hcur (hqc ▸ hunlock)
        exact .inl ⟨q, hq, (hother q hqc).trans hunlock⟩
      · refine .inr (fun p hp => ⟨?_, (hall p hp).2⟩)
        by_cases hpc : p = st.current
        · rw [hpc, hself]
          exact hfailed
        · rw [hother p hpc]
          exact (hall p hp).1

/-- Nothing but the CPU moves. -/
theorem Inv.rescheduled (hr : Rescheduled st.sched s') (hheld : Held s')
    (hrun : s'.cpu.process ≠ s'.cpu.idleProcess → st.point s'.cpu.process ≠ .gap →
      (s'.procs s'.cpu.process).state = .running) : Inv m { st with sched := s' } := by
  have hwaits : ∀ {p}, p ∈ st.sched.processes → Waits { st with sched := s' } p →
      s'.procs p = st.sched.procs p := fun hp hw => hr.settled_of hp (.inl hw.1)
  have hback : ∀ {p}, p ∈ st.sched.processes → Waits { st with sched := s' } p → st.Waits p := by
    intro p hp hw
    have heq := hwaits hp hw
    exact ⟨heq ▸ hw.1, heq ▸ hw.2⟩
  refine ⟨hheld, hrun, fun p hp hg => ?_, fun p hp hw => ?_, fun hlock => ?_⟩
  · have hp : p ∈ st.sched.processes := hr.processes ▸ hp
    have hw := h.gap p hp hg
    have heq := hr.settled p hp hw.settled
    exact ⟨heq.symm ▸ hw.1, heq.symm ▸ hw.2⟩
  · have hp : p ∈ st.sched.processes := hr.processes ▸ hp
    rw [hwaits hp hw]
    exact h.waits p hp (hback hp hw)
  · refine (h.free hlock).imp (fun ⟨q, hq, hu⟩ =>
      ⟨q, hr.processes.symm ▸ hq, hu⟩) (fun hall p hp => ?_)
    have hp : p ∈ st.sched.processes := hr.processes ▸ hp
    exact ⟨(hall p hp).1, fun hw => (hall p hp).2 (hback hp hw)⟩

theorem Inv.tick {clock : Nat → Word} {e : Exit}
    (hs : st.sched.tick clock = some (s', e)) : Inv m { st with sched := s' } := by
  have hr := h.held.tick_rescheduled hs
  by_cases hgap : st.point st.current = .gap ∧ st.current ∈ st.sched.processes
  · -- the tick falls into the gap
    obtain ⟨hw, hcpu, hrec⟩ := h.held.wakeSleepers (clock 0)
    have hset : Settled (st.sched.procs st.current) := (h.gap _ hgap.2 hgap.1).settled
    have hmem : (st.sched.wakeSleepers (clock 0)).cpu.process ∈
        (st.sched.wakeSleepers (clock 0)).processes := by
      rw [hcpu, (wakeSleepers_spec (clock 0) h.held.queued).2.1]
      exact hgap.2
    rcases hw.preempt_of_settled hmem (by rw [hcpu, hrec]; exact hset) hs with hp | rfl
    · exact h.rescheduled hr hp.toHeld (fun hi _ => hp.running hi)
    · refine h.rescheduled hr hw (fun _ hne => absurd ?_ hne)
      rw [hcpu]
      exact hgap.1
  · have hpart : Partition st.sched := by
      refine ⟨h.held, fun hi => h.running hi (fun hg => hgap ⟨hg, h.held.member.resolve_left hi⟩)⟩
    have hp := hpart.tick hs
    exact h.rescheduled hr hp.toHeld (fun hi _ => hp.running hi)

/-- A new process is outside of the lock. -/
theorem Inv.spawn {record : Process} (hgap : st.point st.current ≠ .gap)
    (hp : p ∉ st.sched.processes) (hidle : p ≠ st.sched.cpu.idleProcess)
    (hnew : record.state = .new) :
    Inv m { st with
      sched := st.sched.addProcess p record
      point := fun q => if q = p then .outside else st.point q } := by
  have hpart := (h.partition hgap).addProcess hp hidle hnew
  have hne : ∀ {q}, q ∈ st.sched.processes → q ≠ p := fun hq hqp => hp (hqp ▸ hq)
  have hself : (st.sched.addProcess p record).procs p = record := by
    simp [Sched.addProcess, Sched.update]
  have hother : ∀ {q}, q ≠ p → (st.sched.addProcess p record).procs q = st.sched.procs q := by
    intro q hq
    simp [Sched.addProcess, Sched.update, hq]
  have hmem : ∀ {q}, q ∈ (st.sched.addProcess p record).processes ↔
      q ∈ st.sched.processes ∨ q = p := by
    simp [Sched.addProcess]
  refine ⟨hpart.toHeld, fun hi _ => hpart.running hi, fun q hq hg => ?_,
    fun q hq hw => ?_, fun hlock => ?_⟩
  · rcases hmem.mp hq with hq | rfl
    · simp only [hne hq, if_false] at hg
      simpa only [Waits, hother (hne hq)] using h.gap q hq hg
    · simp at hg
  · rcases hmem.mp hq with hq | rfl
    · simp only [Waits, hother (hne hq)] at hw ⊢
      exact h.waits q hq hw
    · simp [Waits, hself, hnew] at hw
  · rcases h.free hlock with ⟨q, hq, hu⟩ | hall
    · exact .inl ⟨q, hmem.mpr (.inl hq), by simpa [hne hq] using hu⟩
    · refine .inr (fun q hq => ?_)
      rcases hmem.mp hq with hq | rfl
      · simpa only [Waits, hother (hne hq), hne hq, if_false] using hall q hq
      · simp [Waits, hself, hnew]

end

/-! ## The steps of `lock` and `unlock` -/

section Steps

variable (h : Inv m st) (hmem : st.current ∈ st.sched.processes) {clock : Nat → Word}

include h hmem

/-- `wait_for_mutex`, before any lock is taken. -/
theorem Inv.waitForMutex (hpoint : st.point st.current = .failed) :
    Inv m { st.goto .gap with sched := st.sched.beginMutex m } := by
  have hself : (st.sched.beginMutex m).procs st.current =
      (st.sched.procs st.current).waitForMutex m := update_procs_self _ _ _
  have hother : ∀ {q}, q ≠ st.current → (st.sched.beginMutex m).procs q = st.sched.procs q :=
    fun hq => update_procs_of_ne _ _ hq
  have hpt : (st.goto .gap).point st.current = .gap := if_pos rfl
  have hpto : ∀ {q}, q ≠ st.current → (st.goto .gap).point q = st.point q := fun hq => if_neg hq
  refine ⟨h.held.update_current _, fun _ hne => absurd hpt hne, fun q hq hg => ?_,
    fun q hq hw => ?_, fun hlock => ?_⟩
  · by_cases hqc : q = st.current
    · subst hqc
      simp only [Waits, hself]
      exact ⟨rfl, rfl⟩
    · simp only [Waits, hother hqc]
      exact h.gap q hq ((hpto hqc).symm.trans hg)
  · by_cases hqc : q = st.current
    · subst hqc
      rw [hself]
      rfl
    · simp only [Waits, hother hqc] at hw ⊢
      exact h.waits q hq hw
  · rcases h.free hlock with ⟨q, hq, hu⟩ | hall
    · have hqc : q ≠ st.current := fun hqc => by rw [hqc, hpoint] at hu; cases hu
      exact .inl ⟨q, hq, (hpto hqc).trans hu⟩
    · exact absurd hpoint (hall _ hmem).1

/-- The body of `yield_blocked`. -/
theorem Inv.yieldBlocked {s' : Sched} {e : Exit} (hpoint : st.point st.current = .gap)
    (hs : st.sched.yieldBlocked .mutex clock = some (s', e)) :
    Inv m { st.goto .trying with sched := s' } := by
  have hpart := h.held.yieldBlocked hmem hs
  obtain ⟨hr, hcur⟩ := h.held.yieldBlocked_rescheduled (by simp) hmem hs
  have hpt : (st.goto .trying).point st.current = .trying := if_pos rfl
  have hpto : ∀ {q}, q ≠ st.current → (st.goto .trying).point q = st.point q := fun hq => if_neg hq
  have hsame : ∀ {q}, q ∈ st.sched.processes → q ≠ st.current → Settled (s'.procs q) →
      s'.procs q = st.sched.procs q := fun hq hqc hset => by
    rw [hr.settled_of hq hset, update_procs_of_ne _ _ hqc]
  have hlist : s'.processes = st.sched.processes := hr.processes
  refine ⟨hpart.toHeld, fun hi _ => hpart.running hi, fun q hq hg => ?_,
    fun q hq hw => ?_, fun hlock => ?_⟩
  · have hq : q ∈ st.sched.processes := hlist ▸ hq
    have hqc : q ≠ st.current := by
      rintro rfl
      rw [show MutexRun.point _ st.current = _ from hpt] at hg
      cases hg
    have hw := h.gap q hq ((hpto hqc).symm.trans hg)
    have heq : s'.procs q = st.sched.procs q := by
      rw [hr.settled q hq, update_procs_of_ne _ _ hqc]
      rw [update_procs_of_ne _ _ hqc]
      exact hw.settled
    simpa only [Waits, heq] using hw
  · have hq : q ∈ st.sched.processes := hlist ▸ hq
    by_cases hqc : q = st.current
    · subst hqc
      rw [hcur]
      exact h.waits _ hmem (h.gap _ hmem hpoint)
    · have heq := hsame hq hqc (.inl hw.1)
      rw [heq]
      exact h.waits q hq (by simpa only [Waits, heq] using hw)
  · rcases h.free hlock with ⟨q, hq, hu⟩ | hall
    · have hqc : q ≠ st.current := fun hqc => by rw [hqc, hpoint] at hu; cases hu
      exact .inl ⟨q, hlist.symm ▸ hq, (hpto hqc).trans hu⟩
    · exact absurd (h.gap _ hmem hpoint) (hall _ hmem).2

omit hmem in
/-- `wake_mutex`, when nobody is between a failed exchange and the end of `yield_blocked`. -/
theorem Inv.wakeMutex (hpoint : st.point st.current = .unlocking)
    (hok : ∀ p ∈ st.sched.processes, st.point p ≠ .gap ∧ (st.lock = 1 → st.point p ≠ .failed)) :
    Inv m { st.goto .outside with sched := st.sched.wakeMutex m } := by
  have hpart := (h.partition (by rw [hpoint]; simp)).wakeWhere (Process.isWaitingForMutex m)
  have hlist : (st.sched.wakeMutex m).processes = st.sched.processes :=
    (Advances.respects.wakeWhere _ st.sched).processes
  -- every waiter names the mutex, so that it is woken
  have hnone : ∀ q ∈ st.sched.processes,
      ¬ Waits { st.goto .outside with sched := st.sched.wakeMutex m } q := by
    rintro q hq ⟨hb, hr⟩
    have hb := hb
    have hr := hr
    rw [Sched.wakeMutex, wakeWhere_procs] at hb hr
    split at hb
    · simp at hb
    · next hnot =>
      rw [if_neg hnot] at hr
      have hm := h.waits q hq ⟨hb, hr⟩
      exact hnot ⟨hq, by simp [Process.isBlocked, Process.isWaitingForMutex, Process.isWaitingFor,
        hb, hr, hm]⟩
  have hpt : ∀ {q}, q ∈ st.sched.processes → (st.goto .outside).point q = .outside ∨
      (st.goto .outside).point q = st.point q := fun {q} _ => by
    by_cases hqc : q = st.current
    · exact .inl (if_pos hqc)
    · exact .inr (if_neg hqc)
  refine ⟨hpart.toHeld, fun hi _ => hpart.running hi, fun q hq hg => ?_, fun q hq hw => ?_,
    fun hlock => .inr (fun q hq => ?_)⟩
  · have hq : q ∈ st.sched.processes := hlist ▸ hq
    have hg := hg
    rcases hpt hq with ho | ho <;> rw [ho] at hg
    · cases hg
    · exact absurd hg (hok q hq).1
  · exact absurd hw (hnone q (hlist ▸ hq))
  · have hq : q ∈ st.sched.processes := hlist ▸ hq
    refine ⟨?_, hnone q hq⟩
    rcases hpt hq with ho | ho <;> rw [ho]
    · simp
    · exact (hok q hq).2 hlock

theorem Inv.proceed (hok : st.point st.current = .unlocking → ∀ p ∈ st.sched.processes,
      st.point p ≠ .gap ∧ (st.lock = 1 → st.point p ≠ .failed))
    (hs : st.proceed m clock = some st') : Inv m st' := by
  unfold MutexRun.proceed at hs
  split at hs
  · next hpt =>
    cases hs
    exact h.goto hmem (by simp [hpt]) (by simp) (fun hlock => .inr ⟨hlock, by simp, by simp [hpt]⟩)
  · next hpt =>
    split at hs <;> cases hs <;> exact h.goto hmem (by simp [hpt]) (by simp) (by simp)
  · next hpt => cases hs; exact h.waitForMutex hmem hpt
  · next hpt =>
    obtain ⟨⟨s', e⟩, hy, rfl⟩ := map_eq_some_iff.mp hs
    exact h.yieldBlocked hmem hpt hy
  · next hpt => cases hs; exact h.goto hmem (by simp [hpt]) (by simp) (fun _ => .inl rfl)
  · next hpt => cases hs; exact h.wakeMutex hpt (hok hpt)

end Steps

theorem Inv.next (h : Inv m st) (hok : WakesSettled l st) (hs : next m l st = some st') :
    Inv m st' := by
  obtain ⟨op, clock⟩ := l
  cases op with
  | spawn p record =>
    simp only [MutexRun.next, ite_none_right_eq_some, some.injEq] at hs
    obtain ⟨⟨hpt, hp, hidle, hnew⟩, rfl⟩ := hs
    exact h.spawn (by rcases hpt with hpt | hpt <;> simp [hpt]) hp hidle hnew
  | tick =>
    obtain ⟨⟨s', e⟩, ht, rfl⟩ := map_eq_some_iff.mp hs
    exact h.tick ht
  | proceed =>
    simp only [MutexRun.next] at hs
    split at hs
    · cases hs
    · next hidle => exact h.proceed (h.held.member.resolve_left hidle) (hok rfl) hs

/-- No wakeup is lost in a run in which `wake_mutex` never overtakes a process on its way from a
failed exchange into `yield_blocked`. -/
theorem reachable_not_lostWakeup (h : (system m).ReachableUnder WakesSettled st) :
    ¬ LostWakeup st := by
  refine Inv.not_lost (m := m) (h.invariant ?_ (fun s s' l hs hok hn => hs.next hok hn))
  rintro s ⟨hsched, -, hpt⟩
  have hp := Sched.partition_of_reachable (.start hsched)
  have hnil := hsched.1
  refine ⟨hp.toHeld, fun hi _ => hp.running hi, ?_, ?_, fun _ => .inr ?_⟩ <;> simp [hnil]

/-- Process 1 takes the mutex; process 2 fails to take it and is preempted. -/
def contended : List (MutexOp × (Nat → Word)) :=
  [(.spawn 1 (freshProcess 1), fun _ => 0), (.spawn 2 (freshProcess 2), fun _ => 0),
    (.tick, fun _ => 0), (.proceed, fun _ => 0), (.proceed, fun _ => 0),
    (.tick, fun _ => timeSliceNs), (.proceed, fun _ => 0), (.proceed, fun _ => 0)]

def boot : MutexRun := ⟨idleMachine, 1, fun _ => .outside⟩

theorem boot_init : (system m).init boot := ⟨idleMachine_init, rfl, fun _ => rfl⟩

/-- Then process 1 unlocks the mutex, and process 2 goes on and blocks. -/
theorem overtaken_lostWakeup : ∃ st, (system 0).Reachable st ∧ LostWakeup st := by
  have hrun : ((system 0).exec (contended ++ [(.tick, fun _ => timeSliceNs + timeSliceNs),
      (.proceed, fun _ => 0), (.proceed, fun _ => 0),
      (.tick, fun _ => timeSliceNs + timeSliceNs + timeSliceNs), (.proceed, fun _ => 0),
      (.proceed, fun _ => 0)]) boot).map (fun st =>
        (st.lock, st.sched.processes, st.point 1, st.point 2,
        (st.sched.procs 2).state, (st.sched.procs 2).waitReason)) =
      some (1, [1, 2], .outside, .trying, .blocked, .mutex) := by decide
  obtain ⟨st, hst, heq⟩ := map_eq_some_iff.mp hrun
  simp only [Prod.mk.injEq] at heq
  obtain ⟨hlock, hlist, h1, h2, hb, hr⟩ := heq
  refine ⟨st, .of_exec (.start boot_init) hst, hlock, ?_, 2, by simp [hlist], hb, hr⟩
  intro p hp
  rw [hlist] at hp
  rcases List.mem_pair.mp hp with rfl | rfl
  · simp [h1]
  · simp [h2]

/-- If process 2 blocks first, `unlock` wakes it. -/
theorem settled_not_lostWakeup : ∃ st, (system 0).ReachableUnder WakesSettled st ∧
    ¬ LostWakeup st ∧ st.lock = 1 ∧ (st.sched.procs 2).state = .ready := by
  have hrun : ((system 0).execUnder WakesSettled (contended ++ [(.proceed, fun _ => 0),
      (.proceed, fun _ => 0), (.proceed, fun _ => 0), (.proceed, fun _ => 0)]) boot).map
      (fun st => (st.lock, (st.sched.procs 2).state)) = some (1, .ready) := by decide
  obtain ⟨st, hst, heq⟩ := map_eq_some_iff.mp hrun
  have hreach := System.ReachableUnder.of_execUnder (.start boot_init) hst
  exact ⟨st, hreach, reachable_not_lostWakeup hreach, (Prod.mk.inj heq).1, (Prod.mk.inj heq).2⟩

/-! ## Mutual exclusion -/

/-- Whoever holds the mutex is alone, and the word is 0. -/
def Excludes (st : MutexRun) : Prop :=
  ∀ p, st.point p = .holding → st.lock = 0 ∧ ∀ q, st.point q = .holding → q = p

theorem Excludes.proceed {clock : Nat → Word} (h : st.Excludes)
    (hs : st.proceed m clock = some st') :
    st'.Excludes := by
  -- a process takes the mutex if the word is 1, and then nobody holds it
  unfold Excludes MutexRun.proceed goto at *
  split at hs
  case h_2 => split at hs <;> cases hs <;> grind
  case h_4 => obtain ⟨r, -, rfl⟩ := map_eq_some_iff.mp hs; grind
  all_goals cases hs; grind

/-- **Mutual exclusion**, however the processes and the timer interleave. -/
theorem reachable_excludes (h : (system m).Reachable st) : st.Excludes := by
  refine h.invariant (fun s hs p hp => by simp [hs.2.2 p] at hp) ?_
  rintro s s' ⟨op, clock⟩ hx hs
  cases op with
  | spawn p record => cases (ite_none_right_eq_some.mp hs).2; grind [Excludes]
  | tick => obtain ⟨r, -, rfl⟩ := map_eq_some_iff.mp hs; exact hx
  | proceed => exact hx.proceed (ite_none_left_eq_some.mp hs).2

theorem contended_excludes :
    ∃ st, (system 0).exec contended boot = some st ∧ st.point 1 = .holding ∧ st.Excludes := by
  have hrun : ((system 0).exec contended boot).map (·.point 1) = some .holding := by decide
  obtain ⟨st, hst, h1⟩ := map_eq_some_iff.mp hrun
  exact ⟨st, hst, h1, reachable_excludes (.of_exec (.start boot_init) hst)⟩

end MutexRun

end Hltos
