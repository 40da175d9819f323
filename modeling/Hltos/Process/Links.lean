import Hltos.Process.Lineage

/-!
# Parent links

No operation besides `fork` writes the parent field, so that a link dangles as soon as the parent is
deleted.
-/

namespace Hltos

open Lib.Transition Sched Queued Option

namespace Family

variable {st st' : Family} {l : FamilyOp × (Nat → Word)} {op : FamilyOp} {s' : Sched}
  {X : Set ProcRef} {collected : List Nat} {p : ProcRef} {record : Process} {forker : Option Nat}

/-- Every parent link leads to a process of the list. -/
def Linked (st : Family) : Prop :=
  ∀ q ∈ st.sched.processes, ∀ r, (st.sched.procs q).parent = some r → r ∈ st.sched.processes

/-- Every zombie has a parent that can still collect it. -/
def Attended (st : Family) : Prop :=
  ∀ z ∈ st.sched.processes, (st.sched.procs z).state = .zombie →
    ∃ r ∈ st.sched.processes, (st.sched.procs z).parent = some r ∧
      (st.sched.procs r).state ≠ .zombie ∧ (st.sched.procs r).state ≠ .dead

/-- `reap` deletes no process that has a child which it does not delete as well. -/
def ReapsNoParent (l : FamilyOp × (Nat → Word)) (st : Family) : Prop :=
  l.1 = .reap → ∀ q ∈ st.sched.processes, ∀ r ∈ st.sched.processes,
    (st.sched.procs q).parent = some r → (st.sched.procs r).state = .dead →
      (st.sched.procs q).state = .dead

instance (l : FamilyOp × (Nat → Word)) (st : Family) : Decidable (ReapsNoParent l st) :=
  inferInstanceAs (Decidable (_ → _))

/-- A process exits only when it has a parent and all its children have been collected. -/
def ExitsChildless (l : FamilyOp × (Nat → Word)) (st : Family) : Prop :=
  ∀ status, l.1 = .exit status → (st.sched.procs st.current).parent ≠ none ∧
    ∀ q ∈ st.sched.processes, (st.sched.procs q).parent = some st.current →
      (st.sched.procs q).state = .dead

theorem Linked.effect (h : Linked st)
    (he : Effect st.sched s' X) : Linked { st with sched := s', collected := collected } := by
  intro q hq r hr
  have hr := hr
  rw [he.parent] at hr
  rw [he.processes]
  exact h q (he.processes ▸ hq) r hr

theorem Linked.born (h : Linked st) (hplace : st.canPlace p)
    (hparent : ∀ r, record.parent = some r → r ∈ st.sched.processes) :
    Linked (st.born p record forker) := by
  intro q hq r hr
  refine mem_born.mpr (.inl ?_)
  rcases mem_born.mp hq with hq | rfl
  · rw [born_procs_of_ne (hplace.ne hq)] at hr
    exact h q hq r hr
  · rw [born_procs_self] at hr
    exact hparent r hr

theorem parent_listed (h : record.parent = none ∧ forker = none ∨ record.parent = some st.current ∧
      forker = some (st.birth st.current) ∧ st.current ∈ st.sched.processes) {r : ProcRef}
    (hr : record.parent = some r) : r = st.current ∧ r ∈ st.sched.processes := by
  rcases h with ⟨hnone, -⟩ | ⟨hsome, -, hcur⟩
  · rw [hnone] at hr; cases hr
  · rw [hsome] at hr; cases hr; exact ⟨rfl, hcur⟩

/-- Only `reap` can break a link, and it breaks the links to the processes that it deletes. -/
theorem Linked.step_iff (h : Linked st) (hs : Step st st' l.1) :
    Linked st' ↔ ReapsNoParent l st := by
  obtain ⟨op, clock⟩ := l
  have hall : op ≠ .reap → (ReapsNoParent (op, clock) st ↔ True) :=
    fun hne => iff_true_intro (fun heq => absurd heq hne)
  cases hs with
  | @born _ p record forker hop hplace _ _ hparent heq =>
    subst heq
    rw [hall (by rintro rfl; cases hop), iff_true]
    exact h.born hplace (fun r hr => (parent_listed hparent hr).2)
  | exit s' _ he heq => subst heq; rw [hall (by simp), iff_true]; exact h.effect he.effect
  | wait s' e _ he heq =>
    subst heq
    rw [hall (by simp), iff_true]
    cases he with
    | noChild _ hs => subst hs; exact h
    | collects _ _ _ heff _ => exact h.effect heff
    | blocks _ _ _ _ heff _ => exact h.effect heff
  | tick s' he heq => subst heq; rw [hall (by simp), iff_true]; exact h.effect he
  | reap heq =>
    subst heq
    have hmem : ∀ q, q ∈ st.sched.processes.filter (fun p => !(st.sched.procs p).isDead) ↔
        q ∈ st.sched.processes ∧ (st.sched.procs q).state ≠ .dead := by
      intro q
      simp [Process.isDead]
    constructor
    · intro hl _ q hq r _ hpar hdead
      by_contra halive
      exact ((hmem r).mp (hl q ((hmem q).mpr ⟨hq, halive⟩) r hpar)).2 hdead
    · intro hok q hq r hpar
      obtain ⟨hq, halive⟩ := (hmem q).mp hq
      have hr := h q hq r hpar
      exact (hmem r).mpr ⟨hr, fun hd => halive (hok rfl q hq r hr hpar hd)⟩

/-- A process whose children are all dead exits, and only then: whoever is not dead has a parent
that has not ended. -/
structure Supervised (st : Family) : Prop where
  linked : Linked st
  alive : ∀ q ∈ st.sched.processes, (st.sched.procs q).state ≠ .dead → ∀ r,
    (st.sched.procs q).parent = some r →
      (st.sched.procs r).state ≠ .zombie ∧ (st.sched.procs r).state ≠ .dead
  zombie : ∀ q ∈ st.sched.processes, (st.sched.procs q).state = .zombie →
    (st.sched.procs q).parent ≠ none

section

variable (h : Supervised st)

include h

theorem Supervised.attended : Attended st := by
  intro z hz hzombie
  obtain ⟨r, hr⟩ := ne_none_iff_exists'.mp (h.zombie z hz hzombie)
  exact ⟨r, h.linked z hz r hr, hr, h.alive z hz (by simp [hzombie]) r hr⟩

theorem Supervised.reapsNoParent : ReapsNoParent l st := by
  intro _ q hq r _ hpar hdead
  by_contra halive
  exact (h.alive q hq halive r hpar).2 hdead

/-- A step of the CPU in which nobody ends but those of `X`, whose children are dead. -/
theorem Supervised.effect (he : Effect st.sched s' X)
    (hchild : ∀ r ∈ X, (s'.procs r).state = .zombie ∨ (s'.procs r).state = .dead →
      ∀ q ∈ st.sched.processes, (st.sched.procs q).parent = some r →
        (st.sched.procs q).state = .dead)
    (hX : ∀ r ∈ X, r ∈ st.sched.processes → (st.sched.procs r).state ≠ .dead ∧
      ((s'.procs r).state = .zombie → (st.sched.procs r).parent ≠ none)) :
    Supervised { st with sched := s', collected := collected } := by
  refine ⟨h.linked.effect he, fun q hq halive r hr => ?_, fun q hq hz => ?_⟩
  · have hq : q ∈ st.sched.processes := he.processes ▸ hq
    have hr : (st.sched.procs q).parent = some r := (he.parent q).symm.trans hr
    have hrmem := h.linked q hq r hr
    have halive0 : (st.sched.procs q).state ≠ .dead := by
      by_cases hqX : q ∈ X
      · exact (hX q hqX hq).1
      · exact fun hd => halive ((he.kept q hq hqX).dead_iff.mpr hd)
    by_cases hrX : r ∈ X
    · exact ⟨fun hz => halive0 (hchild r hrX (.inl hz) q hq hr),
        fun hd => halive0 (hchild r hrX (.inr hd) q hq hr)⟩
    · obtain ⟨hnz, hnd⟩ := h.alive q hq halive0 r hr
      have hk := he.kept r hrmem hrX
      refine ⟨fun hz => hnz ?_, fun hd => hnd (hk.dead_iff.mp hd)⟩
      rw [← hk.settled (.inr (.inr hz))]
      exact hz
  · have hq : q ∈ st.sched.processes := he.processes ▸ hq
    rw [he.parent]
    by_cases hqX : q ∈ X
    · exact (hX q hqX hq).2 hz
    · have heq := (he.kept q hq hqX).settled (.inr (.inr hz))
      exact h.zombie q hq (heq ▸ hz)

theorem Supervised.born (hp : Partition st.sched) (hplace : st.canPlace p)
    (hnew : record.state = .new)
    (hparent : ∀ r, record.parent = some r → r = st.current ∧ r ∈ st.sched.processes) :
    Supervised (st.born p record forker) := by
  refine ⟨h.linked.born hplace (fun r hr => (hparent r hr).2), fun q hq halive r hr => ?_,
    fun q hq hz => ?_⟩
  · rcases mem_born.mp hq with hq | rfl
    · rw [born_procs_of_ne (hplace.ne hq)] at halive hr
      rw [born_procs_of_ne (hplace.ne (h.linked q hq r hr))]
      exact h.alive q hq halive r hr
    · rw [born_procs_self] at hr
      obtain ⟨rfl, hmem⟩ := hparent r hr
      rw [born_procs_of_ne (hplace.ne hmem)]
      have hs := hp.not_settled hmem
      exact ⟨fun hz => hs (.inr (.inr hz)), fun hd => hs (.inr (.inl hd))⟩
  · rcases mem_born.mp hq with hq | rfl
    · rw [born_procs_of_ne (hplace.ne hq)] at hz ⊢
      exact h.zombie q hq hz
    · rw [born_procs_self, hnew] at hz
      cases hz

end

/-- One step, if a process exits only when its children are dead. -/
theorem Supervised.step (hp : Partition st.sched) (h : Supervised st) (hok : ExitsChildless l st)
    (hs : Step st st' l.1) : Supervised st' := by
  obtain ⟨op, clock⟩ := l
  cases hs with
  | born record forker _ hplace hnew _ hparent heq =>
    subst heq
    exact h.born hp hplace hnew (fun r hr => parent_listed hparent hr)
  | @exit status s' hcur he heq =>
    subst heq
    obtain ⟨hpar, hdead⟩ := hok status rfl
    refine h.effect he.effect (fun r hr _ q hq hqr => ?_) (fun r hr hmem => ?_)
    · cases hr; exact hdead q hq hqr
    · cases hr; exact ⟨current_alive hp hcur, fun _ => hpar⟩
  | wait s' e hcur he heq =>
    subst heq
    cases he with
    | noChild _ hs => subst hs; exact ⟨h.linked, h.alive, h.zombie⟩
    | collects child hfound hz heff hkill =>
      refine h.effect heff (fun r hr _ q hq hqr => ?_) (fun r hr hmem => ?_)
      · -- the children of a zombie are dead already
        cases hr
        by_contra halive
        exact (h.alive q hq halive child hqr).1 hz
      · cases hr
        exact ⟨by simp [hz], fun _ => h.zombie child hmem hz⟩
    | blocks child next hfound _ heff hwait =>
      refine h.effect heff (fun r hr hended => ?_) (fun r hr hmem => ?_)
      · cases hr
        rw [hwait] at hended
        simp at hended
      · cases hr
        exact ⟨current_alive hp hcur, fun hz => by rw [hwait] at hz; cases hz⟩
  | reap heq =>
    have hlinked : Linked st' :=
      (h.linked.step_iff (l := (.reap, clock)) (.reap heq)).mpr h.reapsNoParent
    subst heq
    exact ⟨hlinked, fun q hq => h.alive q (List.mem_of_mem_filter hq),
      fun q hq => h.zombie q (List.mem_of_mem_filter hq)⟩
  | tick s' he heq =>
    subst heq
    exact h.effect he (fun r hr => absurd hr (Set.notMem_empty r))
      (fun r hr => absurd hr (Set.notMem_empty r))

/-- As long as no process is deleted before its children are, no parent link dangles, and only such
a deletion breaks one. If moreover processes exit only after their children have been collected,
then every zombie has a parent that can collect it. -/
theorem reachable_linked (st : Family) : (system.ReachableUnder ReapsNoParent st → Linked st ∧
      ∀ l st', next l st = some st' → (Linked st' ↔ ReapsNoParent l st)) ∧
    (system.ReachableUnder ExitsChildless st → Linked st ∧ Attended st) := by
  refine ⟨fun h => ?_, fun h => ?_⟩
  · have hl : Linked st := invariant_of_step (fun st hnil _ => by simp [Linked, hnil])
      (fun _ _ _ _ hi hok hs => (hi.step_iff hs).mpr hok) h
    exact ⟨hl, fun l st' hn => hl.step_iff (step_of_next (partition_of_reachable h) hn).1⟩
  · have hs : Supervised st := invariant_of_step
      (fun st hnil _ => ⟨by simp [Linked, hnil], by simp [hnil], by simp [hnil]⟩)
      (fun _ _ _ hp hi hok hs => hi.step hp hok hs) h
    exact ⟨hs.linked, hs.attended⟩

/-- Process 2 is deleted while process 3, which it forked, is alive. -/
theorem orphaned_not_linked : ∃ st, system.Reachable st ∧ ¬ Linked st := by
  have hrun : (system.exec orphaned boot).map (fun st => (st.sched.processes,
      (st.sched.procs 3).parent, (st.sched.procs 3).state)) = some ([1, 3], some 2, .new) := by
    decide
  obtain ⟨st, hst, heq⟩ := map_eq_some_iff.mp hrun
  simp only [Prod.mk.injEq] at heq
  obtain ⟨hlist, hparent, -⟩ := heq
  refine ⟨st, .of_exec (.start boot_init) hst, fun hl => ?_⟩
  have hmem := hl 3 (by rw [hlist]; simp) 2 hparent
  rw [hlist] at hmem
  simp at hmem

/-- Process 1 forks process 2, which exits, is collected and deleted. -/
theorem childless_linked : ∃ st, system.ReachableUnder ReapsNoParent st ∧ Linked st ∧
    st.sched.processes = [1] := by
  have hrun : (system.execUnder ReapsNoParent (exited ++ [(.yieldToChild (-1), fun _ => 0),
      (.reap, fun _ => 0)]) boot).map (fun st => st.sched.processes) = some [1] := by
    decide
  obtain ⟨st, hst, heq⟩ := map_eq_some_iff.mp hrun
  have hreach := System.ReachableUnder.of_execUnder (.start boot_init) hst
  exact ⟨st, hreach, ((reachable_linked st).1 hreach).1, heq⟩

end Family

end Hltos
