import Hltos.Process.Family

/-!
# Runs of `fork`, `exit`, `yield_to_child` and `reap`

Each is one step, in any order, while `tick` passes the CPU around. Addresses come from the
allocator, which may hand out the address of a deleted process again, and the pid counter is a
32-bit `int`. Which process is meant is kept beside the state: every process has a birth number of
its own, which the code does not see.
-/

namespace Hltos

open Lib.Transition Sched Queued Option

/-- The scheduler and the pid counter, with the history that the code does not keep. -/
structure Family where
  sched : Sched
  gPid : BitVec 32
  /-- The process at an address, by the number of its birth. -/
  birth : ProcRef → Nat
  /-- The process that forked the one at an address. -/
  forkedBy : ProcRef → Option Nat
  births : Nat
  /-- The processes whose exit status has been returned. -/
  collected : List Nat

inductive FamilyOp
  /-- `add_process(new Process)` or `add_process(new KThread)`, by the kernel -/
  | spawn (p : ProcRef) (pml4 : Frame) (kernelRsp : Word)
  /-- `sys_fork`, with the address that `new Process` returns -/
  | fork (p : ProcRef) (clonedPml4 : Frame) (uheap : Heap) (kernelRsp : Word)
  | exit (status : Int)
  | yieldToChild (childPid : Int)
  | reap
  | tick
deriving DecidableEq

/-- The address of the process that is created. -/
def FamilyOp.places : FamilyOp → Option ProcRef
  | .spawn p _ _ | .fork p _ _ _ => some p
  | _ => none

/-- The argument of `yield_to_child`. -/
def FamilyOp.waitsFor : FamilyOp → Option Int
  | .yieldToChild childPid => some childPid
  | _ => none

namespace Family

/-- A new process at `p`. -/
def born (p : ProcRef) (record : Process) (forker : Option Nat) (st : Family) : Family :=
  { st with
    sched := st.sched.addProcess p record
    gPid := st.gPid + 1
    birth := fun q => if q = p then st.births else st.birth q
    forkedBy := fun q => if q = p then forker else st.forkedBy q
    births := st.births + 1 }

/-- `new Process` may return any address at which no process lives. -/
def canPlace (p : ProcRef) (st : Family) : Prop :=
  p ∉ st.sched.processes ∧ p ≠ st.sched.cpu.idleProcess

instance (p : ProcRef) (st : Family) : Decidable (st.canPlace p) :=
  inferInstanceAs (Decidable (_ ∧ _))

def construct (p : ProcRef) (kernelRsp : Word) (st : Family) : Process :=
  (st.sched.procs p).construct st.gPid.toInt kernelRsp

abbrev current (st : Family) : ProcRef := st.sched.cpu.process

/-- The process whose status a call of `yield_to_child` returns. -/
def zombieFound (childPid : Int) (st : Family) : Option ProcRef :=
  (st.sched.findChild st.current childPid).filter (fun p => (st.sched.procs p).isZombie)

def next (l : FamilyOp × (Nat → Word)) (st : Family) : Option Family :=
  match l with
  | (.spawn p pml4 kernelRsp, _) =>
    if st.canPlace p then
      some (st.born p { st.construct p kernelRsp with pml4 := some pml4 } none)
    else none
  | (.fork p clonedPml4 uheap kernelRsp, _) =>
    if st.canPlace p ∧ st.current ≠ st.sched.cpu.idleProcess then
      let forked := (st.sched.procs st.current).fork st.current clonedPml4 uheap
        (st.construct p kernelRsp)
      some (st.born p forked (some (st.birth st.current)))
    else none
  | (.exit status, clock) =>
    (st.sched.byCurrent (Sched.sysExit status clock)).map (fun s => { st with sched := s })
  | (.yieldToChild childPid, clock) =>
    (st.sched.byCurrent (Sched.yieldToChild childPid clock)).map (fun s =>
      { st with
        sched := s
        collected := ((st.zombieFound childPid).map st.birth).toList ++ st.collected })
  | (.reap, _) => st.sched.reap.map (fun s => { st with sched := s })
  | (.tick, clock) => (st.sched.tick clock).map (fun r => { st with sched := r.1 })

/-- The kernel runs its idle process, and nothing has been created yet. -/
def system : System Family (FamilyOp × (Nat → Word)) where
  init st := Sched.system.init st.sched ∧ st.collected = []
  next := next

variable {st st' : Family} {l : FamilyOp × (Nat → Word)} {op : FamilyOp} {s' : Sched}
  {ok : FamilyOp × (Nat → Word) → Family → Prop}

/-! ## One step -/

/-- What one step does. -/
inductive Step (st st' : Family) : FamilyOp → Prop
  | born {op : FamilyOp} {p : ProcRef} (record : Process) (forker : Option Nat) :
    op.places = some p → st.canPlace p → record.state = .new → record.pid = st.gPid.toInt →
    (record.parent = none ∧ forker = none ∨ record.parent = some st.current ∧
      forker = some (st.birth st.current) ∧ st.current ∈ st.sched.processes) →
    st' = st.born p record forker → Step st st' op
  | exit {status : Int} (s' : Sched) : st.current ∈ st.sched.processes →
    Exited st.sched s' status → st' = { st with sched := s' } → Step st st' (.exit status)
  | wait {childPid : Int} (s' : Sched) (e : Exit) : st.current ∈ st.sched.processes →
    Waited st.sched s' childPid e →
    st' = { st with
      sched := s'
      collected := ((st.zombieFound childPid).map st.birth).toList ++ st.collected } →
    Step st st' (.yieldToChild childPid)
  | reap : st' = { st with sched := { st.sched with
      processes := st.sched.processes.filter (fun p => !(st.sched.procs p).isDead) } } →
    Step st st' .reap
  | tick (s' : Sched) : Effect st.sched s' ∅ → st' = { st with sched := s' } → Step st st' .tick

/-- The current process of a call is listed. -/
theorem byCurrent_eq_some {s : Sched} {f : Sched → Option (Sched × Exit)} (hp : Partition s)
    (h : s.byCurrent f = some s') : s.cpu.process ∈ s.processes ∧ ∃ e, f s = some (s', e) := by
  unfold Sched.byCurrent at h
  split at h
  · cases h
  · next hidle =>
    obtain ⟨⟨t, e⟩, ht, rfl⟩ := map_eq_some_iff.mp h
    exact ⟨hp.member.resolve_left hidle, e, ht⟩

/-- Every call that returns is one of the steps. -/
theorem step_of_next (hp : Partition st.sched) (h : next l st = some st') :
    Step st st' l.1 ∧ Partition st'.sched := by
  obtain ⟨op, clock⟩ := l
  cases op with
  | spawn p pml4 kernelRsp =>
    simp only [next, ite_none_right_eq_some, some.injEq] at h
    obtain ⟨hplace, rfl⟩ := h
    exact ⟨.born _ none rfl hplace rfl rfl (Or.inl ⟨rfl, rfl⟩) rfl,
      hp.addProcess hplace.1 hplace.2 rfl⟩
  | fork p clonedPml4 uheap kernelRsp =>
    simp only [next, ite_none_right_eq_some, some.injEq] at h
    obtain ⟨⟨hplace, hidle⟩, rfl⟩ := h
    refine ⟨.born _ _ rfl hplace rfl rfl (Or.inr ⟨rfl, rfl, hp.member.resolve_left hidle⟩) rfl, ?_⟩
    exact hp.addProcess hplace.1 hplace.2 rfl
  | exit status =>
    obtain ⟨s', hs, rfl⟩ := map_eq_some_iff.mp h
    obtain ⟨hmem, e, he⟩ := byCurrent_eq_some hp hs
    exact ⟨.exit s' hmem (hp.sysExit_exited hmem he) rfl, hp.sysExit he⟩
  | yieldToChild childPid =>
    obtain ⟨s', hs, rfl⟩ := map_eq_some_iff.mp h
    obtain ⟨hmem, e, he⟩ := byCurrent_eq_some hp hs
    exact ⟨.wait s' e hmem (hp.yieldToChild_waited hmem he) rfl, hp.yieldToChild he⟩
  | reap =>
    obtain ⟨s', hs, rfl⟩ := map_eq_some_iff.mp h
    refine ⟨.reap ?_, hp.reap hs⟩
    unfold Sched.reap at hs
    split at hs
    · cases hs
    · cases hs; rfl
  | tick =>
    obtain ⟨⟨s', e⟩, hs, rfl⟩ := map_eq_some_iff.mp h
    exact ⟨.tick s' (hp.tick_rescheduled hs).effect rfl, hp.tick hs⟩

theorem partition_of_reachable (h : system.ReachableUnder ok st) : Partition st.sched := by
  apply h.invariant
  · exact fun s hs => Sched.partition_of_reachable (.start hs.1)
  · exact fun s s' l hs _ hn => (step_of_next hs hn).2

/-- An invariant of every step is one of every run. -/
theorem invariant_of_step {I : Family → Prop}
    (hinit : ∀ st, st.sched.processes = [] → st.collected = [] → I st)
    (hstep : ∀ st st' l, Sched.Partition st.sched → I st → ok l st → Step st st' l.1 → I st')
    (h : system.ReachableUnder ok st) : I st := by
  suffices Partition st.sched ∧ I st from this.2
  apply h.invariant (I := fun st => Sched.Partition st.sched ∧ I st)
  · exact fun s hs => ⟨Sched.partition_of_reachable (.start hs.1), hinit s hs.1.1 hs.2⟩
  · rintro s s' l ⟨hp, hi⟩ hok hn
    obtain ⟨hst, hp'⟩ := step_of_next hp hn
    exact ⟨hp', hstep s s' l hp hi hok hst⟩

/-- The process that runs is not dead. -/
theorem current_alive (hp : Partition st.sched) (hcur : st.current ∈ st.sched.processes) :
    (st.sched.procs st.current).state ≠ .dead :=
  fun hd => hp.not_settled hcur (Or.inr (Or.inl hd))

/-! ### The records after a birth -/

section Born

variable {p q : ProcRef} {record : Process} {forker : Option Nat}

theorem born_processes : (st.born p record forker).sched.processes = st.sched.processes ++ [p] :=
  rfl

theorem mem_born :
    q ∈ (st.born p record forker).sched.processes ↔ q ∈ st.sched.processes ∨ q = p := by
  rw [born_processes, List.mem_append, List.mem_singleton]

theorem born_procs_self : (st.born p record forker).sched.procs p = record := by
  show (st.sched.update p (fun _ => record)).procs p = record
  exact update_procs_self _ _ _

theorem born_procs_of_ne (hq : q ≠ p) :
    (st.born p record forker).sched.procs q = st.sched.procs q := by
  show (st.sched.update p (fun _ => record)).procs q = _
  exact update_procs_of_ne _ _ hq

theorem canPlace.ne (h : st.canPlace p) (hq : q ∈ st.sched.processes) : q ≠ p :=
  fun hqp => h.1 (hqp ▸ hq)

end Born

/-! ## Whose child a process is -/

/-- An address that the list of processes leads to: of a process, or of the parent of one. -/
def Known (s : Sched) (r : ProcRef) : Prop :=
  r ∈ s.processes ∨ ∃ q ∈ s.processes, (s.procs q).parent = some r

/-- Neither the address nor the pid of a new process is that of a process or of the parent that a
process names, deleted or not. -/
def Fresh (p : ProcRef) (st : Family) : Prop :=
  ∀ r, Known st.sched r → r ≠ p ∧ (st.sched.procs r).pid ≠ st.gPid.toInt

/-- No process is created at the address or with the pid of another that is still referred to. -/
def FreshFork (l : FamilyOp × (Nat → Word)) (st : Family) : Prop :=
  ∀ p, l.1.places = some p → st.Fresh p

instance (p : ProcRef) (st : Family) : Decidable (st.Fresh p) :=
  decidable_of_iff (∀ q ∈ st.sched.processes, (q ≠ p ∧ (st.sched.procs q).pid ≠ st.gPid.toInt) ∧
      (st.sched.procs q).parent.all (fun r =>
        decide (r ≠ p ∧ (st.sched.procs r).pid ≠ st.gPid.toInt)) = true) <| by
    constructor
    · rintro h r (hr | ⟨q, hq, hr⟩)
      · exact (h r hr).1
      · simpa [hr] using (h q hq).2
    · intro h q hq
      refine ⟨h q (Or.inl hq), ?_⟩
      cases hr : (st.sched.procs q).parent with
      | none => rfl
      | some r => simpa using h r (Or.inr ⟨q, hq, hr⟩)

instance (l : FamilyOp × (Nat → Word)) (st : Family) : Decidable (FreshFork l st) :=
  decidable_of_iff (l.1.places.all (fun p => decide (st.Fresh p)) = true) <| by
    unfold FreshFork
    cases l.1.places <;> simp

/-- The pids of the processes tell them apart, from each other and from the parents they name; a
parent link leads to the process that forked. -/
structure Identified (st : Family) : Prop where
  unique : ∀ p ∈ st.sched.processes, ∀ r, Known st.sched r →
    (st.sched.procs r).pid = (st.sched.procs p).pid → r = p
  links : ∀ q ∈ st.sched.processes, ∀ r, (st.sched.procs q).parent = some r →
    st.forkedBy q = some (st.birth r)

/-- A step of the CPU changes none of it. -/
theorem Identified.effect {X : Set ProcRef} {collected : List Nat}
    (h : Identified st) (he : Effect st.sched s' X) :
    Identified { st with sched := s', collected := collected } := by
  have hknown : ∀ r, Known s' r → Known st.sched r := by
    intro r hr
    unfold Known at hr ⊢
    simpa only [he.processes, he.parent] using hr
  refine ⟨fun p hp r hr hpid => ?_, fun q hq r hr => ?_⟩
  · rw [show Family.sched _ = s' from rfl, he.pid, he.pid] at hpid
    exact h.unique p (he.processes ▸ hp) r (hknown r hr) hpid
  · rw [show Family.sched _ = s' from rfl, he.parent] at hr
    exact h.links q (he.processes ▸ hq) r hr

/-- One step keeps the pids apart, if `fork` gets a pid that is not in use. -/
theorem Identified.step (h : Identified st) (hok : FreshFork l st) (hs : Step st st' l.1) :
    Identified st' := by
  obtain ⟨op, clock⟩ := l
  cases hs with
  | @born _ p record forker hop hplace hnew hpid hparent heq =>
    subst heq
    have hfresh := hok p hop
    have hne : ∀ {r}, Known st.sched r → r ≠ p := fun hr => (hfresh _ hr).1
    have hlisted : ∀ {q}, q ∈ (st.born p record forker).sched.processes → q ≠ p →
        q ∈ st.sched.processes := fun hq hqp => (mem_born.mp hq).resolve_right hqp
    -- whatever the list leads to is the new process or was known before
    have hknown : ∀ r, Known (st.born p record forker).sched r → r ≠ p → Known st.sched r := by
      rintro r (hr | ⟨q, hq, hr⟩) hrp
      · exact Or.inl (hlisted hr hrp)
      · by_cases hqp : q = p
        · subst hqp
          rw [born_procs_self] at hr
          rcases hparent with ⟨hnone, -⟩ | ⟨hsome, -, hcur⟩
          · rw [hnone] at hr; cases hr
          · rw [hsome] at hr; cases hr; exact Or.inl hcur
        · rw [born_procs_of_ne hqp] at hr
          exact Or.inr ⟨q, hlisted hq hqp, hr⟩
    refine ⟨fun q hq r hr heq => ?_, fun q hq r hr => ?_⟩
    · by_cases hqp : q = p <;> by_cases hrp : r = p
      · rw [hqp, hrp]
      · rw [hqp, born_procs_self, born_procs_of_ne hrp, hpid] at heq
        exact absurd heq (hfresh r (hknown r hr hrp)).2
      · rw [hrp, born_procs_self, born_procs_of_ne hqp, hpid] at heq
        exact absurd heq.symm (hfresh q (Or.inl (hlisted hq hqp))).2
      · rw [born_procs_of_ne hqp, born_procs_of_ne hrp] at heq
        exact h.unique q (hlisted hq hqp) r (hknown r hr hrp) heq
    · by_cases hqp : q = p
      · subst hqp
        rw [born_procs_self] at hr
        rcases hparent with ⟨hnone, -⟩ | ⟨hsome, rfl, hcur⟩
        · rw [hnone] at hr; cases hr
        · rw [hsome] at hr
          cases hr
          simp [Family.born, hplace.ne hcur]
      · rw [born_procs_of_ne hqp] at hr
        have hrp : r ≠ p := hne (Or.inr ⟨q, hlisted hq hqp, hr⟩)
        simp only [Family.born, hqp, hrp, if_false]
        exact h.links q (hlisted hq hqp) r hr
  | exit s' _ he heq => subst heq; exact h.effect he.effect
  | wait s' e _ he heq =>
    subst heq
    cases he with
    | noChild _ hs => subst hs; exact ⟨h.unique, h.links⟩
    | collects child _ _ heff _ => exact h.effect heff
    | blocks child next _ _ heff _ => exact h.effect heff
  | reap heq =>
    subst heq
    have hmem {q : ProcRef} := List.mem_of_mem_filter (a := q) (l := st.sched.processes)
      (p := fun p => !(st.sched.procs p).isDead)
    refine ⟨fun p hp r hr => h.unique p (hmem hp) r ?_, fun q hq => h.links q (hmem hq)⟩
    exact hr.imp hmem (fun ⟨q, hq, hr⟩ => ⟨q, hmem hq, hr⟩)
  | tick s' he heq => subst heq; exact h.effect he

/-- A match of `find_child` is a child of the caller. -/
theorem Identified.parent_of_matches (h : Identified st) (hcur : st.current ∈ st.sched.processes)
    {pid : Int} {p : ProcRef} (hp : p ∈ st.sched.processes)
    (hm : st.sched.matchesChild st.current pid p = true) :
    (st.sched.procs p).parent = some st.current ∧ (pid = -1 ∨ (st.sched.procs p).pid = pid) := by
  unfold Sched.matchesChild at hm
  rw [Bool.and_eq_true, Bool.or_eq_true, beq_iff_eq, beq_iff_eq] at hm
  refine ⟨?_, hm.1⟩
  cases hpar : (st.sched.procs p).parent with
  | none => simp [hpar] at hm
  | some q =>
    rw [hpar] at hm
    rw [h.unique _ hcur q (Or.inr ⟨p, hp, hpar⟩) (by simpa using hm.2)]

theorem identified_of_reachable
    (hok : ∀ l st, ok l st → FreshFork l st) (h : system.ReachableUnder ok st) : Identified st := by
  refine invariant_of_step (fun st hnil _ => ?_) (fun _ _ _ _ hi ho hs => hi.step (hok _ _ ho) hs) h
  exact ⟨by simp [hnil], by simp [hnil]⟩

/-! ## Two runs -/

/-- The idle machine. -/
def boot : Family := ⟨idleMachine, 1, fun _ => 0, fun _ => none, 1, []⟩

theorem boot_init : system.init boot := ⟨idleMachine_init, rfl⟩

/-- Process 1 forks a process at address 2, which forks one at address 3 and exits; process 1
collects it, and it is deleted. -/
def orphaned : List (FamilyOp × (Nat → Word)) :=
  [(.spawn 1 1 0, fun _ => 0), (.tick, fun _ => 0), (.fork 2 2 ⟨1, 0, 0, 0⟩ 0, fun _ => 0),
    (.tick, fun _ => timeSliceNs), (.fork 3 3 ⟨1, 0, 0, 0⟩ 0, fun _ => 0),
    (.exit 7, fun _ => timeSliceNs), (.yieldToChild (-1), fun _ => timeSliceNs),
    (.reap, fun _ => 0)]

/-- Process 1 forks process 2, which exits. -/
def exited : List (FamilyOp × (Nat → Word)) :=
  [(.spawn 1 1 0, fun _ => 0), (.tick, fun _ => 0), (.fork 2 2 ⟨1, 0, 0, 0⟩ 0, fun _ => 0),
    (.tick, fun _ => timeSliceNs), (.exit 7, fun _ => timeSliceNs)]

end Family

end Hltos
