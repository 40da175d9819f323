import Hltos.Scheduler.Mechanism

/-!
# The containers agree with the states

Between two calls of the scheduler a process is runnable and queued, asleep and in the heap, or in
neither container. The entry points move the current process by several separate assignments, so
in the middle of a call this is false of the process being moved, and of it alone.

`Queued s D` is the invariant with the processes of `D` *detached*: they are in no container and
their state is unconstrained; all others are where their state says. A call starts and ends with
only `cpu->process` detached. In between it detaches what it takes from a container
(`Queued.pickNextProcess`), changes detached records freely (`Queued.update_of_mem`), and attaches
a process again once its state and its container agree (`Queued.attach_settled`,
`Queued.attach_ready`, `Queued.attach_sleeping`).
-/

namespace Hltos

open List Set

namespace Sched

/-- The containers and the states agree, the processes of `D` being in transit. -/
structure Queued (s : Sched) (D : Set ProcRef) : Prop where
  readyNodup : s.ready.Nodup
  sleepersNodup : s.sleepers.values.Nodup
  memReady : ∀ p, p ∈ s.ready ↔ p ∈ s.processes ∧ p ∉ D ∧ (s.procs p).isReady = true
  memSleepers : ∀ p, p ∈ s.sleepers.values ↔
    p ∈ s.processes ∧ p ∉ D ∧ (s.procs p).state = .sleeping
  key : ∀ n ∈ s.sleepers.toList, n.key = (s.procs n.value).wakeTimeNs
  notRunning : ∀ p ∈ s.processes, p ∉ D → (s.procs p).state ≠ .running
  idle : s.cpu.idleProcess ∉ s.processes

/-! ## Record updates -/

@[simp] theorem update_procs_self (p : ProcRef) (f : Process → Process) (s : Sched) :
    (s.update p f).procs p = f (s.procs p) := by
  simp [update]

variable {q : ProcRef}

theorem update_procs_of_ne {p : ProcRef} (f : Process → Process) (s : Sched) (h : q ≠ p) :
    (s.update p f).procs q = s.procs q := by
  simp [update, h]

section

variable (p : ProcRef)

section

variable (f : Process → Process) (s : Sched)

@[simp] theorem update_processes : (s.update p f).processes = s.processes := rfl

@[simp] theorem update_ready : (s.update p f).ready = s.ready := rfl

@[simp] theorem update_sleepers : (s.update p f).sleepers = s.sleepers := rfl

@[simp] theorem update_cpu : (s.update p f).cpu = s.cpu := rfl

end

section

variable (s : Sched)

@[simp] theorem enqueue_procs : (s.enqueue p).procs = s.procs := rfl

@[simp] theorem enqueue_processes : (s.enqueue p).processes = s.processes := rfl

@[simp] theorem enqueue_ready : (s.enqueue p).ready = s.ready ++ [p] := rfl

@[simp] theorem enqueue_sleepers : (s.enqueue p).sleepers = s.sleepers := rfl

@[simp] theorem enqueue_cpu : (s.enqueue p).cpu = s.cpu := rfl

end

end

theorem beginWait_cpu (reason : WaitReason) (s : Sched) : (s.beginWait reason).cpu = s.cpu := by
  unfold beginWait; simp only; split <;> rfl

theorem beginWait_processes (reason : WaitReason) (s : Sched) :
    (s.beginWait reason).processes = s.processes := by
  unfold beginWait; simp only; split <;> rfl

variable {cond : Process → Bool} {s' : Sched}

namespace Queued

variable {s : Sched} {D : Set ProcRef} {p : ProcRef} {ready : List ProcRef}
  {sleepers : KMinHeap Word ProcRef}

theorem not_mem_ready (h : Queued s D) (hp : p ∈ D) : p ∉ s.ready :=
  fun hm => ((h.memReady p).mp hm).2.1 hp

theorem not_mem_sleepers (h : Queued s D) (hp : p ∈ D) : p ∉ s.sleepers.values :=
  fun hm => ((h.memSleepers p).mp hm).2.1 hp

theorem value_mem {n : HeapNode Word ProcRef} (hn : n ∈ s.sleepers.toList) :
  n.value ∈ s.sleepers.values := mem_map_of_mem hn

/-- The records of detached processes do not matter. -/
theorem of_kept {s' : Sched} (h : Queued s D) (hready : s'.ready = s.ready)
    (hsleepers : s'.sleepers = s.sleepers) (hprocesses : s'.processes = s.processes)
    (hidle : s'.cpu.idleProcess = s.cpu.idleProcess) (hkept : ∀ q, q ∉ D → s'.procs q = s.procs q) :
    Queued s' D := by
  refine ⟨hready ▸ h.readyNodup, hsleepers ▸ h.sleepersNodup, fun q => ?_,
    fun q => ?_, fun n hn => ?_, fun q hq hqD => ?_, ?_⟩
  · rw [hready, hprocesses, h.memReady q]
    refine and_congr_right (fun _ => and_congr_right (fun hqD => ?_))
    rw [hkept q hqD]
  · rw [hsleepers, hprocesses, h.memSleepers q]
    refine and_congr_right (fun _ => and_congr_right (fun hqD => ?_))
    rw [hkept q hqD]
  · rw [hsleepers] at hn
    have hv : n.value ∉ D := fun hD => h.not_mem_sleepers hD (value_mem hn)
    rw [hkept _ hv]
    exact h.key n hn
  · rw [hkept q hqD]
    exact h.notRunning q (hprocesses ▸ hq) hqD
  · rw [hprocesses, hidle]
    exact h.idle

/-- Changing the record of a detached process breaks nothing. -/
theorem update_of_mem (h : Queued s D) (hp : p ∈ D) (f : Process → Process) :
    Queued (s.update p f) D := by
  refine h.of_kept rfl rfl rfl rfl fun q hq => ?_
  exact update_procs_of_ne f s (fun hqp => hq (hqp ▸ hp))

/-- Only listed processes count. -/
theorem congr_listed {D' : Set ProcRef} (h : Queued s D)
    (hD : ∀ q ∈ s.processes, (q ∈ D' ↔ q ∈ D)) :
    Queued s D' := by
  refine ⟨h.readyNodup, h.sleepersNodup, fun q => (h.memReady q).trans ?_,
    fun q => (h.memSleepers q).trans ?_, h.key, fun q hq hqD => ?_, h.idle⟩
  · exact and_congr_right fun hq => by rw [hD q hq]
  · exact and_congr_right fun hq => by rw [hD q hq]
  · exact h.notRunning q hq fun hin => hqD ((hD q hq).mpr hin)

theorem mem_insert_idle (hidle : s.cpu.idleProcess ∉ s.processes) {q : ProcRef}
    (hq : q ∈ s.processes) :
    q ∈ insert s.cpu.idleProcess D ↔ q ∈ D :=
  mem_insert_iff.trans (or_iff_right fun heq => hidle (heq ▸ hq))

/-- The idle process is not listed, so detaching it says nothing. -/
theorem insert_idle (h : Queued s D) : Queued s (insert s.cpu.idleProcess D) :=
  h.congr_listed fun _ => mem_insert_idle h.idle

/-- The inverse of `insert_idle`. -/
theorem remove_idle (h : Queued s (insert s.cpu.idleProcess D)) : Queued s D :=
  h.congr_listed fun _ hq => (mem_insert_idle h.idle hq).symm

/-- A process taken out of its container is detached. -/
theorem detach (h : Queued s D) (hready : ready.Nodup) (hsleepers : sleepers.values.Nodup)
    (hr : ∀ q, q ∈ ready ↔ q ∈ s.ready ∧ q ≠ p)
    (hs : ∀ q, q ∈ sleepers.values ↔ q ∈ s.sleepers.values ∧ q ≠ p)
    (hnodes : ∀ n ∈ sleepers.toList, n ∈ s.sleepers.toList) :
    Queued { s with ready := ready, sleepers := sleepers } (insert p D) := by
  refine ⟨hready, hsleepers, fun q => (hr q).trans ?_, fun q => (hs q).trans ?_,
    fun n hn => h.key n (hnodes n hn), fun q hq hqD => ?_, h.idle⟩
  · rw [h.memReady q, mem_insert_iff]
    grind
  · rw [h.memSleepers q, mem_insert_iff]
    grind
  · exact h.notRunning q hq (fun hD => hqD (mem_insert_of_mem _ hD))

/-! ## Attaching a process again -/

/-- A process that is blocked, dead or a zombie belongs in no container. -/
def Settled (r : Process) : Prop := r.state = .blocked ∨ r.state = .dead ∨ r.state = .zombie

variable {r : Process}

theorem Settled.not_ready (h : Settled r) : r.isReady = false := by
  rcases h with h | h | h <;> simp [Process.isReady, h]

theorem Settled.not_sleeping (h : Settled r) : r.state ≠ .sleeping := by
  rcases h with h | h | h <;> simp [h]

theorem Settled.not_running (h : Settled r) : r.state ≠ .running := by
  rcases h with h | h | h <;> simp [h]

/-- A process that is in no container may count as being in transit. -/
theorem detach_settled (h : Queued s D) (hp : Settled (s.procs p)) : Queued s (insert p D) := by
  refine h.detach h.readyNodup h.sleepersNodup (fun q => (and_iff_left_of_imp ?_).symm)
    (fun q => (and_iff_left_of_imp ?_).symm) (fun _ hn => hn)
  · rintro hin rfl
    exact absurd ((h.memReady q).mp hin).2.2 (by simp [hp.not_ready])
  · rintro hin rfl
    exact hp.not_sleeping ((h.memSleepers q).mp hin).2.2

section

variable (h : Queued s (insert p D))

include h

/-- With `p` in the container of its state, and nothing else changed, `p` is attached. -/
theorem attach (hready : ready.Nodup) (hsleepers : sleepers.values.Nodup)
    (hr : ∀ q, q ∈ ready ↔ q ∈ s.ready ∨ q = p ∧ (s.procs p).isReady = true)
    (hs : ∀ q, q ∈ sleepers.values ↔ q ∈ s.sleepers.values ∨ q = p ∧ (s.procs p).state = .sleeping)
    (hkey : ∀ n ∈ sleepers.toList, n.key = (s.procs n.value).wakeTimeNs)
    (hmem : (s.procs p).isReady = true ∨ (s.procs p).state = .sleeping → p ∈ s.processes ∧ p ∉ D)
    (hrun : (s.procs p).state ≠ .running) :
    Queued { s with ready := ready, sleepers := sleepers } D := by
  have hnr := h.not_mem_ready (mem_insert p D)
  have hns := h.not_mem_sleepers (mem_insert p D)
  have hD : ∀ q, q ≠ p → (q ∉ insert p D ↔ q ∉ D) := fun q hq => by simp [hq]
  refine ⟨hready, hsleepers, fun q => (hr q).trans ?_, fun q => (hs q).trans ?_, hkey,
    fun q hq hqD => ?_, h.idle⟩
  · have hq := h.memReady q
    grind
  · have hq := h.memSleepers q
    grind
  · by_cases hqp : q = p
    · rw [hqp]
      exact hrun
    · exact h.notRunning q hq ((hD q hqp).mpr hqD)

theorem attach_settled (hp : Settled (s.procs p)) : Queued s D :=
  h.attach h.readyNodup h.sleepersNodup (by simp [hp.not_ready]) (by simp [hp.not_sleeping]) h.key
    (by simp [hp.not_ready, hp.not_sleeping]) hp.not_running

theorem attach_ready (hpD : p ∉ D) (hmem : p ∈ s.processes)
    (hp : (s.procs p).isReady = true) : Queued (s.enqueue p) D := by
  have hnot : p ∉ s.ready := h.not_mem_ready (mem_insert p D)
  have hstate : (s.procs p).state ≠ .sleeping ∧ (s.procs p).state ≠ .running := by
    rcases Process.isReady_iff.mp hp with hst | hst <;> simp [hst]
  refine h.attach ?_ h.sleepersNodup (by simp [hp]) (by simp [hstate.1]) h.key
    (fun _ => ⟨hmem, hpD⟩) hstate.2
  exact concat_eq_append ▸ h.readyNodup.concat hnot

theorem attach_sleeping (hpD : p ∉ D) (hmem : p ∈ s.processes)
    (hp : (s.procs p).state = .sleeping) : Queued (s.insertSleeper p) D := by
  have hnot := h.not_mem_sleepers (mem_insert p D)
  have hperm := KMinHeap.insert_perm (s.procs p).wakeTimeNs p s.sleepers
  have hvals := KMinHeap.insert_values_perm (s.procs p).wakeTimeNs p s.sleepers
  refine h.attach h.readyNodup (hvals.nodup_iff.mpr (nodup_cons.mpr ⟨hnot, h.sleepersNodup⟩))
    (by simp [Process.isReady, hp]) (fun q => ?_) (fun n hn => ?_) (fun _ => ⟨hmem, hpD⟩)
    (by simp [hp])
  · rw [hvals.mem_iff, mem_cons, or_comm]
    simp [hp]
  · rcases mem_cons.mp (hperm.mem_iff.mp hn) with rfl | hold
    · rfl
    · exact h.key n hold

end

/-! ## Waking -/

/-- Waking a blocked process moves it into the ready queue. -/
theorem wakeProcess (h : Queued s D) (hpD : p ∉ D) (hmem : p ∈ s.processes)
    (hp : (s.procs p).state = .blocked) : Queued (s.wakeProcess p) D := by
  -- detach it first: blocked, it is in no container, so nothing is lost
  have hdet := h.detach_settled (.inl hp)
  exact (hdet.update_of_mem (mem_insert p D) Process.wake).attach_ready hpD hmem (by simp)

/-- No listed process in transit waits for `cond`, so the waking loops pass over `D`. -/
def PassedOver (cond : Process → Bool) (s : Sched) (D : Set ProcRef) : Prop :=
  ∀ q ∈ D, q ∈ s.processes → ((s.procs q).isBlocked && cond (s.procs q)) = false

theorem PassedOver.not_mem (hD : PassedOver cond s D)
    (hp : p ∈ s.processes) (hb : ((s.procs p).isBlocked && cond (s.procs p)) = true) : p ∉ D := by
  intro hpD
  rw [hD p hpD hp] at hb
  exact absurd hb (by simp)

theorem wakeIf (h : Queued s D) (hD : PassedOver cond s D)
    (hmem : p ∈ s.processes) : Queued (s.wakeIf cond p) D := by
  unfold Sched.wakeIf
  split
  · next hc =>
    have hb : (s.procs p).isBlocked = true := (Bool.and_eq_true_iff.mp hc).1
    exact h.wakeProcess (hD.not_mem hmem hc) hmem (Process.isBlocked_iff.mp hb)
  · exact h

end Queued

section

variable (cond : Process → Bool) (s : Sched) (p : ProcRef)

theorem wakeIf_processes : (s.wakeIf cond p).processes = s.processes := by
  unfold wakeIf; split <;> rfl

theorem wakeIf_cpu : (s.wakeIf cond p).cpu = s.cpu := by unfold wakeIf; split <;> rfl

end

/-- A record in transit is left alone by the waking loops. -/
theorem wakeIf_procs {s : Sched} {D : Set ProcRef} {p : ProcRef}
    (hD : Queued.PassedOver cond s D) (hp : p ∈ s.processes) (hq : q ∈ D) :
    (s.wakeIf cond p).procs q = s.procs q := by
  unfold wakeIf
  split
  · next hc => exact update_procs_of_ne _ _ (fun hqp => hD.not_mem hp hc (hqp ▸ hq))
  · rfl

/-- What the loop of `wake_all`, `wake_parents` and `wake_mutex` keeps, by induction on the part of
`g_processes` still to be visited. -/
theorem foldl_wakeIf {D : Set ProcRef} :
    ∀ (l : List ProcRef) {s : Sched}, (∀ p ∈ l, p ∈ s.processes) → Queued s D →
      Queued.PassedOver cond s D →
      Queued (l.foldl (wakeIf cond) s) D ∧
        (l.foldl (wakeIf cond) s).processes = s.processes ∧
        (l.foldl (wakeIf cond) s).cpu = s.cpu ∧
        ∀ q ∈ D, (l.foldl (wakeIf cond) s).procs q = s.procs q
  | [], s, _, h, _ => ⟨h, rfl, rfl, fun _ _ => rfl⟩
  | p :: l, s, hl, h, hD => by
    have hp : p ∈ s.processes := hl p mem_cons_self
    have hkeep : ∀ q ∈ D, (s.wakeIf cond p).procs q = s.procs q := fun q hq => wakeIf_procs hD hp hq
    obtain ⟨hq, hproc, hcpu, hrec⟩ := foldl_wakeIf l (s := s.wakeIf cond p)
      (fun q hq => by rw [wakeIf_processes]; exact hl q (mem_cons_of_mem _ hq))
      (h.wakeIf hD hp)
      (fun q hq hmem => by
        rw [wakeIf_processes] at hmem
        rw [hkeep q hq]
        exact hD q hq hmem)
    refine ⟨hq, hproc.trans (wakeIf_processes ..), hcpu.trans (wakeIf_cpu ..), ?_⟩
    intro q hq'
    exact (hrec q hq').trans (hkeep q hq')

namespace Queued

variable {s : Sched} {D : Set ProcRef} {p : ProcRef}

theorem wakeWhere (h : Queued s D) (hD : PassedOver cond s D) : Queued (s.wakeWhere cond) D :=
  (foldl_wakeIf s.processes (fun _ hp => hp) h hD).1

theorem wakeSingle {reason : WaitReason} (h : Queued s D)
    (hD : PassedOver (Process.isWaitingFor reason) s D) : Queued (s.wakeSingle reason) D := by
  unfold Sched.wakeSingle
  split
  · exact h
  · split
    · exact h
    · next q hfind =>
      have hc := List.find?_some hfind
      have hb : (s.procs q).isBlocked = true := (Bool.and_eq_true_iff.mp hc).1
      have hmem : q ∈ s.processes := mem_of_find?_eq_some hfind
      exact h.wakeProcess (hD.not_mem hmem hc) hmem (Process.isBlocked_iff.mp hb)

/-- One round of `wake_sleepers`: the root of the heap becomes the tail of the queue. -/
theorem wakeRoot (h : Queued s D) (hp : s.sleepers.peak = some p) :
    Queued { s.wakeProcess p with sleepers := s.sleepers.pop } D ∧ p ∉ D := by
  obtain ⟨k, xs, hlist⟩ := KMinHeap.peak_eq_some hp
  have hperm := KMinHeap.pop_perm hlist
  have hvals : s.sleepers.values = p :: xs.map HeapNode.value := by
    rw [KMinHeap.values, hlist, map_cons]
  have hpopv : s.sleepers.pop.values.Perm (xs.map HeapNode.value) := hperm.map _
  have hmemp : p ∈ s.sleepers.values := by rw [hvals]; exact mem_cons_self
  obtain ⟨hpp, hpD, hst⟩ := (h.memSleepers p).mp hmemp
  have hnd := h.sleepersNodup
  rw [hvals, nodup_cons] at hnd
  refine ⟨?_, hpD⟩
  -- detached, the root may leave the heap; woken, it is attached to the queue
  have hdet : Queued { s with sleepers := s.sleepers.pop } (insert p D) := by
    refine h.detach h.readyNodup (hpopv.nodup_iff.mpr hnd.2) ?_ ?_ ?_
    · intro q
      refine (and_iff_left_of_imp ?_).symm
      rintro hq rfl
      simpa [Process.isReady, hst] using ((h.memReady q).mp hq).2.2
    · intro q
      grind
    · intro n hn
      rw [hlist]
      exact mem_cons_of_mem _ (hperm.mem_iff.mp hn)
  exact (hdet.update_of_mem (mem_insert p D) Process.wake).attach_ready hpD hpp (by simp)

end Queued

theorem wakeProcess_procs_of_ne {p : ProcRef} (s : Sched) (h : q ≠ p) :
    (s.wakeProcess p).procs q = s.procs q :=
  update_procs_of_ne _ _ h

/-- The loop of `wake_sleepers`, by induction on the rounds left. -/
theorem wakeSleepersLoop_spec (now : Word) {D : Set ProcRef} : ∀ (n : Nat) {s : Sched}, Queued s D →
      Queued (wakeSleepersLoop now n s) D ∧
        (wakeSleepersLoop now n s).processes = s.processes ∧
        (wakeSleepersLoop now n s).cpu = s.cpu ∧
        ∀ q ∈ D, (wakeSleepersLoop now n s).procs q = s.procs q
  | 0, s, h => ⟨h, rfl, rfl, fun _ _ => rfl⟩
  | n + 1, s, h => by
    unfold wakeSleepersLoop
    split
    · exact ⟨h, rfl, rfl, fun _ _ => rfl⟩
    · next p hp =>
      split
      · exact ⟨h, rfl, rfl, fun _ _ => rfl⟩
      · obtain ⟨hroot, hpD⟩ := h.wakeRoot hp
        obtain ⟨hq, hproc, hcpu, hrec⟩ := wakeSleepersLoop_spec now n hroot
        refine ⟨hq, hproc, hcpu, ?_⟩
        intro q hqD
        rw [hrec q hqD]
        exact wakeProcess_procs_of_ne s (fun hqp => hpD (hqp ▸ hqD))

theorem wakeSleepers_spec (now : Word) {D : Set ProcRef} {s : Sched} (h : Queued s D) :
    Queued (s.wakeSleepers now) D ∧ (s.wakeSleepers now).processes = s.processes ∧
      (s.wakeSleepers now).cpu = s.cpu ∧ ∀ q ∈ D, (s.wakeSleepers now).procs q = s.procs q :=
  wakeSleepersLoop_spec now _ h

/-! ## Choosing and activating -/

/-- What `pick_next_process` returns: the idle process, or a listed process that was not in
transit; either way it is in transit now, and the records in transit before are untouched. -/
structure Picked (s : Sched) (D : Set ProcRef) (next : ProcRef) (s' : Sched) : Prop where
  queued : Queued s' (insert next D)
  choice : next = s.cpu.idleProcess ∨ next ∈ s.processes ∧ next ∉ D
  processes : s'.processes = s.processes
  cpu : s'.cpu = s.cpu
  kept : ∀ q ∈ D, s'.procs q = s.procs q

theorem pickNextProcess_spec (now : Word) {D : Set ProcRef} {s : Sched} (h : Queued s D) :
    Picked s D (s.pickNextProcess now).1 (s.pickNextProcess now).2 := by
  obtain ⟨hq, hproc, hcpu, hrec⟩ := wakeSleepers_spec now h
  unfold pickNextProcess pickNext
  cases hr : (s.wakeSleepers now).ready with
  | nil => exact ⟨hq.insert_idle, .inl (by simp [hcpu]), hproc, hcpu, hrec⟩
  | cons p rest =>
    have hp : p ∈ (s.wakeSleepers now).ready := by rw [hr]; exact mem_cons_self
    obtain ⟨hmem, hpD, hready⟩ := (hq.memReady p).mp hp
    have hnd := hq.readyNodup
    rw [hr, nodup_cons] at hnd
    refine ⟨?_, .inr ⟨hproc ▸ hmem, hpD⟩, hproc, hcpu, hrec⟩
    refine hq.detach hnd.2 hq.sleepersNodup ?_ ?_ (fun _ hn => hn)
    · intro q
      grind
    · intro q
      refine (and_iff_left_of_imp ?_).symm
      rintro hin rfl
      have hst := ((hq.memSleepers q).mp hin).2.2
      simp [Process.isReady, hst] at hready

/-- What `activate_process` does when it succeeds. -/
structure Activated (s : Sched) (p : ProcRef) (s' : Sched) : Prop where
  process : s'.cpu.process = p
  idle : s'.cpu.idleProcess = s.cpu.idleProcess
  preemption : s'.cpu.preemptionEnabled = s.cpu.preemptionEnabled
  processes : s'.processes = s.processes
  ready : s'.ready = s.ready
  sleepers : s'.sleepers = s.sleepers
  running : (s'.procs p).state = .running
  kept : ∀ q, q ≠ p → s'.procs q = s.procs q

theorem activateProcess_spec {now : Word} {p : ProcRef} {s : Sched}
    (h : s.activateProcess now p = some s') : Activated s p s' := by
  unfold activateProcess at h
  split at h
  · simp only [Option.some.injEq] at h
    subst h
    refine ⟨rfl, rfl, rfl, rfl, rfl, rfl, ?_, ?_⟩
    · simp
    · intro q hq
      exact update_procs_of_ne _ _ hq
  · cases h

theorem Queued.activate {s : Sched} {D : Set ProcRef} {p : ProcRef} (h : Queued s D)
    (hp : p ∈ D) (ha : Activated s p s') : Queued s' D := by
  apply h.of_kept ha.ready ha.sleepers ha.processes ha.idle
  exact fun q hq => ha.kept q (fun hqp => hq (hqp ▸ hp))

/-- `enqueue_if_runnable` attaches the process that gives up the CPU, unless it is idle. -/
theorem Queued.enqueueIfRunnable {s : Sched} {cur next : ProcRef}
    (h : Queued s (insert next {cur})) (hne : cur ≠ next)
    (hmem : cur = s.cpu.idleProcess ∨ cur ∈ s.processes)
    (hready : cur ≠ s.cpu.idleProcess → (s.procs cur).isReady = true) :
    Queued (s.enqueueIfRunnable cur) {next} := by
  have hswap := pair_comm next cur
  rw [hswap] at h
  unfold Sched.enqueueIfRunnable
  split
  · next hidle =>
    rw [hidle] at h
    exact h.remove_idle
  · next hidle =>
    rw [if_pos (hready hidle)]
    exact h.attach_ready (by simpa using hne) (hmem.resolve_left hidle) (hready hidle)

@[simp] theorem enqueueIfRunnable_processes (p : ProcRef) (s : Sched) :
    (s.enqueueIfRunnable p).processes = s.processes := by
  unfold enqueueIfRunnable; split
  · rfl
  · split <;> rfl

@[simp] theorem enqueueIfRunnable_cpu (p : ProcRef) (s : Sched) :
    (s.enqueueIfRunnable p).cpu = s.cpu := by
  unfold enqueueIfRunnable; split
  · rfl
  · split <;> rfl

end Sched

end Hltos
