import Hltos.Process.Lineage

/-!
# Collecting

An exit status goes to the process that forked, once, provided that nobody takes the place of a
parent that has been deleted: `find_child` compares the pid at the end of the parent link.
-/

namespace Hltos

open Lib.Transition Sched Queued List Option

namespace Family

variable {st st' : Family} {l : FamilyOp × (Nat → Word)} {op : FamilyOp}

/-- The dead processes are those that have been collected. -/
structure Counted (st : Family) : Prop where
  lt : ∀ p ∈ st.sched.processes, st.birth p < st.births
  inj : ∀ p ∈ st.sched.processes, ∀ q ∈ st.sched.processes, st.birth p = st.birth q → p = q
  past : ∀ b ∈ st.collected, b < st.births
  dead : ∀ p ∈ st.sched.processes, (st.sched.procs p).state = .dead ↔ st.birth p ∈ st.collected

/-- A step of the CPU in which nobody dies. -/
theorem Counted.effect {s' : Sched} {X : Set ProcRef} (h : Counted st) (he : Effect st.sched s' X)
    (hX : ∀ q ∈ st.sched.processes, q ∈ X → (st.sched.procs q).state ≠ .dead ∧
      (s'.procs q).state ≠ .dead) :
    Counted { st with sched := s' } := by
  refine ⟨fun p hp => h.lt p (he.processes ▸ hp), fun p hp q hq => h.inj p (he.processes ▸ hp) q
    (he.processes ▸ hq), h.past, fun p hp => ?_⟩
  have hp : p ∈ st.sched.processes := he.processes ▸ hp
  rw [← h.dead p hp]
  by_cases hpX : p ∈ X
  · exact iff_of_false (hX p hp hpX).2 (hX p hp hpX).1
  · exact (he.kept p hp hpX).dead_iff

/-- A new process has a birth number of its own. -/
theorem Counted.born {p : ProcRef} {record : Process} {forker : Option Nat} (h : Counted st)
    (hplace : st.canPlace p) (hnew : record.state = .new) : Counted (st.born p record forker) := by
  have hself : (st.born p record forker).birth p = st.births := if_pos rfl
  have hother : ∀ {q}, q ∈ st.sched.processes → (st.born p record forker).birth q = st.birth q :=
    fun hq => if_neg (hplace.ne hq)
  refine ⟨fun q hq => ?_, fun q hq r hr heq => ?_, fun b hb => ?_, fun q hq => ?_⟩
  · show _ < st.births + 1
    rcases mem_born.mp hq with hq | rfl
    · rw [hother hq]; have := h.lt q hq; omega
    · rw [hself]; omega
  · rcases mem_born.mp hq with hq' | hq' <;> rcases mem_born.mp hr with hr' | hr'
    · rw [hother hq', hother hr'] at heq
      exact h.inj q hq' r hr' heq
    · rw [hr', hother hq', hself] at heq
      have := h.lt q hq'
      omega
    · rw [hq', hother hr', hself] at heq
      have := h.lt r hr'
      omega
    · rw [hq', hr']
  · have := h.past b hb
    show b < st.births + 1
    omega
  · rcases mem_born.mp hq with hq | rfl
    · rw [born_procs_of_ne (hplace.ne hq), hother hq]
      exact h.dead q hq
    · rw [born_procs_self, hself, hnew]
      refine iff_of_false (by simp) (fun hb => ?_)
      have := h.past _ hb
      omega

theorem zombieFound_eq {childPid : Int} {child : ProcRef}
    (h : st.sched.findChild st.current childPid = some child) :
    st.zombieFound childPid =
      if (st.sched.procs child).state = .zombie then some child else none := by
  rw [zombieFound, h]
  by_cases hz : (st.sched.procs child).state = .zombie <;> simp [Process.isZombie, hz]

/-- One step: the dead processes are still those that have been collected. -/
theorem Counted.step (hp : Partition st.sched) (h : Counted st) (hs : Step st st' op) :
    Counted st' := by
  cases hs with
  | born record forker _ hplace hnew _ _ heq => subst heq; exact h.born hplace hnew
  | exit s' hcur he heq =>
    subst heq
    refine h.effect he.effect (fun q _ hq => ?_)
    cases hq
    exact ⟨current_alive hp hcur, by rw [he.zombie]; simp⟩
  | wait s' e hcur he heq =>
    subst heq
    cases he with
    | noChild hnone hs =>
      subst hs
      simpa [zombieFound, current, hnone] using h
    | collects child hfound hz heff hkill =>
      -- the child is the one process that dies, and its birth the one that is added
      have hchild := (findChild_some hfound).1
      rw [zombieFound_eq hfound, if_pos hz]
      refine ⟨fun p hp => h.lt p (heff.processes ▸ hp), fun p hp q hq => h.inj p
        (heff.processes ▸ hp) q (heff.processes ▸ hq), ?_, fun p hp => ?_⟩
      · intro b hb
        rcases mem_cons.mp hb with rfl | hb
        · exact h.lt child hchild
        · exact h.past b hb
      · have hp : p ∈ st.sched.processes := heff.processes ▸ hp
        show (s'.procs p).state = .dead ↔ st.birth p ∈ st.birth child :: st.collected
        rw [mem_cons]
        by_cases hpc : p = child
        · subst hpc
          rw [hkill]
          exact iff_of_true rfl (.inl rfl)
        · rw [(heff.kept p hp hpc).dead_iff, h.dead p hp]
          exact ⟨.inr, fun hb => hb.resolve_left (fun heq => hpc (h.inj p hp child hchild heq))⟩
    | blocks child next hfound hz heff hwait =>
      rw [zombieFound_eq hfound, if_neg hz]
      refine h.effect heff (fun q _ hq => ?_)
      cases hq
      exact ⟨current_alive hp hcur, by rw [hwait]; simp⟩
  | reap heq =>
    subst heq
    exact ⟨fun p hp => h.lt p (mem_of_mem_filter hp), fun p hp q hq =>
      h.inj p (mem_of_mem_filter hp) q (mem_of_mem_filter hq), h.past,
      fun p hp => h.dead p (mem_of_mem_filter hp)⟩
  | tick s' he heq => subst heq; exact h.effect he (fun _ _ hq => absurd hq (Set.notMem_empty _))

theorem counted_of_reachable {ok : FamilyOp × (Nat → Word) → Family → Prop}
    (h : system.ReachableUnder ok st) : Counted st := by
  refine invariant_of_step (fun st hnil hc => ?_) (fun _ _ _ hp hi _ hs => hi.step hp hs) h
  exact ⟨by simp [hnil], by simp [hnil], by simp [hc], by simp [hnil]⟩

/-- An exit status goes to the process that forked, once, and only then is the process deleted. -/
structure CollectsOnce (st : Family) : Prop where
  wait : ∀ childPid clock s' v, st.current ≠ st.sched.cpu.idleProcess →
    st.sched.yieldToChild childPid clock = some (s', .status v) → v ≠ Sched.noChild →
    ∃ child ∈ st.sched.processes, (st.sched.procs child).state = .zombie ∧
      v = (st.sched.procs child).exitStatus ∧
      st.forkedBy child = some (st.birth st.current) ∧
      (childPid = -1 ∨ (st.sched.procs child).pid = childPid) ∧
      (s'.procs child).state = .dead ∧ st.birth child ∉ st.collected ∧
      ∀ st', next (.yieldToChild childPid, clock) st = some st' →
        st'.collected = st.birth child :: st.collected
  reap : ∀ s', st.sched.reap = some s' → ∀ p ∈ st.sched.processes, p ∉ s'.processes →
    (st.sched.procs p).state = .dead ∧ st.birth p ∈ st.collected

/-- Then process 1 forks again, and the new process gets address 2; process 3 exits. -/
def adopted : Option Family :=
  system.exec
    (orphaned ++ [(.fork 2 4 ⟨1, 0, 0, 0⟩ 0, fun _ => 0),
      (.tick, fun _ => timeSliceNs + timeSliceNs), (.exit 9, fun _ => 0)])
    boot

end Family

end Hltos
