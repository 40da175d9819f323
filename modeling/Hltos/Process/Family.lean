import Hltos.Scheduler.Settled

/-!
# Parents and children

`find_child`, and what `sys_exit` and `yield_to_child` do to the processes: to the one or two that
the call is about, and to the others, which are woken, paused or activated at most.
-/

namespace Hltos

namespace Sched

open Queued List Option Process

variable {s s' : Sched} {r r' : Process} {status : Int} {clock : Nat → Word} {e : Exit}

/-! ## `find_child` -/

/-- The two tests of the loop: the pid, and the pid of the parent. -/
def matchesChild (s : Sched) (parent : ProcRef) (pid : Int) (p : ProcRef) : Bool :=
  (pid == -1 || (s.procs p).pid == pid) &&
    match (s.procs p).parent with
    | none => false
    | some q => (s.procs q).pid == (s.procs parent).pid

section

variable (s : Sched) (parent : ProcRef) (pid : Int)

/-- The loop returns the first match that is a zombie, or else the first match. -/
theorem findChildFrom_eq (l : List ProcRef) (first : Option ProcRef) :
    s.findChildFrom parent pid first l =
      (l.find? (fun p => s.matchesChild parent pid p && (s.procs p).isZombie)).or
        (first.or (l.find? (s.matchesChild parent pid))) := by
  induction l generalizing first with
  | nil => simp [findChildFrom]
  | cons p l ih =>
    unfold findChildFrom
    split
    · next hpid =>
      have hm : s.matchesChild parent pid p = false := by simp [matchesChild, hpid.1, hpid.2]
      rw [ih, find?_cons_of_neg (by simp [hm]), find?_cons_of_neg (by simp [hm])]
    · next hpid =>
      have hpid : (pid == -1 || (s.procs p).pid == pid) = true := by
        by_contra hne
        simp only [Bool.or_eq_true, beq_iff_eq, not_or] at hne
        exact hpid hne
      split
      · next hpar =>
        have hm : s.matchesChild parent pid p = false := by simp [matchesChild, hpar]
        rw [ih, find?_cons_of_neg (by simp [hm]), find?_cons_of_neg (by simp [hm])]
      · next q hpar =>
        have hm : s.matchesChild parent pid p = ((s.procs q).pid == (s.procs parent).pid) := by
          simp [matchesChild, hpid, hpar]
        split
        · next hne =>
          have hm : s.matchesChild parent pid p = false := by rw [hm]; simpa using hne
          rw [ih, find?_cons_of_neg (by simp [hm]), find?_cons_of_neg (by simp [hm])]
        · next heq =>
          have hm : s.matchesChild parent pid p = true := by rw [hm]; simpa using heq
          split
          · next hz => rw [find?_cons_of_pos (by simp [hm, hz])]; rfl
          · next hz =>
            rw [ih, find?_cons_of_neg (by simp [hz]), find?_cons_of_pos hm]
            cases first <;> simp

theorem findChild_eq : s.findChild parent pid =
      (s.processes.find? (fun p => s.matchesChild parent pid p && (s.procs p).isZombie)).or
        (s.processes.find? (s.matchesChild parent pid)) := by
  rw [findChild, findChildFrom_eq]
  rfl

end

theorem findChild_some {parent child : ProcRef} {pid : Int}
    (h : s.findChild parent pid = some child) :
    child ∈ s.processes ∧ s.matchesChild parent pid child = true := by
  rw [findChild_eq, or_eq_some_iff] at h
  rcases h with h | ⟨-, h⟩
  · have hc := find?_some h
    rw [Bool.and_eq_true] at hc
    exact ⟨mem_of_find?_eq_some h, hc.1⟩
  · exact ⟨mem_of_find?_eq_some h, find?_some h⟩

/-! ## What the calls do to the records -/

/-- A record after a step that is not about it: whoever is settled was so before, and whoever has
ended stays as it is. -/
structure Kept (r r' : Process) : Prop where
  exitStatus : r'.exitStatus = r.exitStatus
  settled : Settled r' → r' = r
  ended : r.state = .zombie ∨ r.state = .dead → r' = r

/-- A step of the CPU that is about the processes of `X` only. -/
structure Effect (s s' : Sched) (X : Set ProcRef) : Prop where
  processes : s'.processes = s.processes
  pid : ∀ q, (s'.procs q).pid = (s.procs q).pid
  parent : ∀ q, (s'.procs q).parent = (s.procs q).parent
  kept : ∀ q ∈ s.processes, q ∉ X → Kept (s.procs q) (s'.procs q)

theorem Kept.trans {r'' : Process} (h : Kept r r') (h' : Kept r' r'') : Kept r r'' := by
  refine ⟨h'.exitStatus.trans h.exitStatus, fun hs => ?_, fun he => ?_⟩
  · have heq := h'.settled hs
    rw [heq]
    exact h.settled (heq ▸ hs)
  · have heq := h.ended he
    rw [h'.ended (by rw [heq]; exact he), heq]

theorem Kept.dead_iff (h : Kept r r') : r'.state = .dead ↔ r.state = .dead := by
  constructor
  · intro hd
    rw [← h.settled (.inr (.inl hd))]
    exact hd
  · intro hd
    rw [h.ended (.inr hd)]
    exact hd

theorem Rescheduled.effect (h : Rescheduled s s') : Effect s s' ∅ := by
  refine ⟨h.processes, fun q => (h.stirred q).pid, fun q => (h.stirred q).parent, fun q hq _ => ?_⟩
  refine ⟨(h.stirred q).exitStatus, h.settled_of hq, fun he => ?_⟩
  exact h.settled q hq (.inr he.symm)

theorem Effect.trans {s'' : Sched} {X : Set ProcRef} (h : Effect s s' X) (h' : Effect s' s'' ∅) :
    Effect s s'' X := by
  refine ⟨h'.processes.trans h.processes, fun q => (h'.pid q).trans (h.pid q),
    fun q => (h'.parent q).trans (h.parent q), fun q hq hX => ?_⟩
  exact (h.kept q hq hX).trans (h'.kept q (h.processes ▸ hq) (Set.notMem_empty q))

/-- One record is written. -/
theorem Effect.update {p : ProcRef} {f : Process → Process}
    (hpid : (f (s.procs p)).pid = (s.procs p).pid)
    (hparent : (f (s.procs p)).parent = (s.procs p).parent) : Effect s (s.update p f) {p} := by
  refine ⟨rfl, fun q => ?_, fun q => ?_, fun q _ hX => ?_⟩
  · by_cases hqp : q = p
    · subst hqp; rw [update_procs_self, hpid]
    · rw [update_procs_of_ne f s hqp]
  · by_cases hqp : q = p
    · subst hqp; rw [update_procs_self, hparent]
    · rw [update_procs_of_ne f s hqp]
  · rw [update_procs_of_ne f s hX]
    exact ⟨rfl, fun _ => rfl, fun _ => rfl⟩

/-- The waking loops wake blocked processes only. -/
theorem wakeWhere_effect (cond : Process → Bool) (s : Sched) : Effect s (s.wakeWhere cond) ∅ := by
  refine ⟨(Advances.respects.wakeWhere cond s).processes, fun q => ?_, fun q => ?_, fun q _ _ => ?_⟩
  · rw [wakeWhere_procs]; split <;> rfl
  · rw [wakeWhere_procs]; split <;> rfl
  · rw [wakeWhere_procs]
    split
    · next hc =>
      have hb : (s.procs q).state = .blocked := by
        have := hc.2
        rw [Bool.and_eq_true] at this
        exact isBlocked_iff.mp this.1
      exact ⟨rfl, fun hs => by simp [Settled] at hs, fun he => by simp [hb] at he⟩
    · exact ⟨rfl, fun _ => rfl, fun _ => rfl⟩

/-- `sys_exit` -/
def sysExit (status : Int) (clock : Nat → Word) (s : Sched) : Option (Sched × Exit) :=
  (s.update s.cpu.process (fun p => { p with exitStatus := status })).yieldZombie clock

theorem Partition.sysExit (h : Partition s) (hs : s.sysExit status clock = some (s', e)) :
  Partition s' := (h.toHeld.update_current _).yieldZombie hs

/-- What `sys_exit` does: the current process is a zombie, and nobody waits for it any more. -/
structure Exited (s s' : Sched) (status : Int) : Prop where
  effect : Effect s s' {s.cpu.process}
  zombie : s'.procs s.cpu.process =
    { s.procs s.cpu.process with exitStatus := status, state := .zombie }
  woken : ∀ q ∈ s.processes, q ≠ s.cpu.process → (s'.procs q).state = .blocked →
    (s'.procs q).isWaitingForChild (s.procs s.cpu.process).pid = false

theorem Partition.sysExit_exited (h : Partition s)
    (hmem : s.cpu.process ∈ s.processes) (hs : s.sysExit status clock = some (s', e)) :
    Exited s s' status := by
  -- the record is written twice, the waiters are woken, and another process is chosen
  let r := { s.procs s.cpu.process with exitStatus := status, state := .zombie }
  let s1 := (s.update s.cpu.process (fun p => { p with exitStatus := status })).update s.cpu.process
    zombify
  have hcur : s1.procs s.cpu.process = r := by simp [s1, r, zombify]
  have hother : ∀ q, q ≠ s.cpu.process → s1.procs q = s.procs q := fun q hq => by
    rw [update_procs_of_ne _ _ hq, update_procs_of_ne _ _ hq]
  have h1 : Effect s s1 {s.cpu.process} := by
    refine ⟨rfl, fun q => ?_, fun q => ?_, fun q _ hX => ?_⟩
    · by_cases hq : q = s.cpu.process
      · subst hq; rw [hcur]
      · rw [hother q hq]
    · by_cases hq : q = s.cpu.process
      · subst hq; rw [hcur]
      · rw [hother q hq]
    · rw [hother q hX]
      exact ⟨rfl, fun _ => rfl, fun _ => rfl⟩
  have hq1 : Queued s1 ∅ := (h.toHeld.update_current _).update_settled (.inr (.inr rfl))
  have hpid : (s1.procs s.cpu.process).pid = (s.procs s.cpu.process).pid := by rw [hcur]
  have hs : (s1.wakeWhere (isWaitingForChild (s.procs s.cpu.process).pid)).leaveForever clock =
      some (s', e) := by
    rw [← hpid]
    exact hs
  have h2 := wakeWhere_effect (isWaitingForChild (s.procs s.cpu.process).pid) s1
  have h3 := ((hq1.wakeWhere (by simp [PassedOver])).leaveForever_rescheduled hs).effect
  have h23 := h2.trans h3
  refine ⟨h1.trans h23, ?_, fun q hq hne hb => ?_⟩
  · rw [(h23.kept _ hmem (Set.notMem_empty _)).ended (by rw [hcur]; exact .inl rfl), hcur]
  · -- a process that is still blocked was passed over
    have heq := (h3.kept q (h2.processes ▸ hq) (Set.notMem_empty q)).settled (.inl hb)
    rw [heq, wakeWhere_procs] at hb ⊢
    split at hb
    · simp at hb
    · next hnot =>
      rw [if_neg hnot]
      have hblocked := isBlocked_iff.mpr hb
      have hq1 : q ∈ s1.processes := hq
      simpa [hq1, hblocked] using hnot

/-- What `yield_to_child` does in one round. -/
inductive Waited (s s' : Sched) (childPid : Int) : Exit → Prop
  | noChild : s.findChild s.cpu.process childPid = none → s' = s →
    Waited s s' childPid (.status noChild)
  | collects (child : ProcRef) : s.findChild s.cpu.process childPid = some child →
    (s.procs child).state = .zombie → Effect s s' {child} →
    s'.procs child = (s.procs child).kill →
    Waited s s' childPid (.status (s.procs child).exitStatus)
  | blocks (child next : ProcRef) : s.findChild s.cpu.process childPid = some child →
    (s.procs child).state ≠ .zombie → Effect s s' {s.cpu.process} →
    s'.procs s.cpu.process = (s.procs s.cpu.process).waitForChild childPid →
    Waited s s' childPid (.contextSwitch s.cpu.process next)

theorem Partition.yieldToChild_waited {childPid : Int} (h : Partition s)
    (hmem : s.cpu.process ∈ s.processes)
    (hs : s.yieldToChild childPid clock = some (s', e)) : Waited s s' childPid e := by
  unfold Sched.yieldToChild at hs
  simp only at hs
  split at hs
  · next hnone => cases hs; exact .noChild hnone rfl
  · next child hchild =>
    split at hs
    · next hz =>
      cases hs
      have hzombie : (s.procs child).state = .zombie := by simpa [isZombie] using hz
      have hne : child ≠ s.cpu.process := by
        rintro rfl
        exact h.not_settled hmem (.inr (.inr hzombie))
      have hk : Effect s (s.update child kill) {child} := .update rfl rfl
      have hsame : (s.update child kill).procs s.cpu.process = s.procs s.cpu.process :=
        update_procs_of_ne _ _ hne.symm
      refine .collects child hchild hzombie (hk.trans ?_) ?_
      · -- the parent is running, before and after
        refine Rescheduled.effect (.update ⟨rfl, rfl, rfl, fun _ => by simp [Settled]⟩ fun _ => ?_)
        rw [hsame]
        exact h.not_settled hmem
      · rw [update_procs_of_ne _ _ hne, update_procs_self]
    · next hz =>
      obtain ⟨s1, ha, hs⟩ := map_eq_some_iff.mp hs
      cases hs
      have hzombie : (s.procs child).state ≠ .zombie := by simpa [isZombie] using hz
      have hw : Effect s (s.update s.cpu.process (waitForChild childPid)) {s.cpu.process} :=
        .update rfl rfl
      have hq : Queued (s.update s.cpu.process (waitForChild childPid)) ∅ :=
        h.update_settled (.inl rfl)
      have hr := hq.rescheduled_of_pick ha
      refine .blocks child _ hchild hzombie (hw.trans hr.effect) ?_
      rw [hr.settled _ hmem (by rw [update_procs_self]; exact .inl rfl), update_procs_self]

end Sched

end Hltos
