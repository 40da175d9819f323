import Hltos.Process.Lineage

/-!
# A parent that waits

A process that is blocked on a child can be woken by an exit only if a child that matches has not
been collected yet. `find_child` falls back to any match, dead or not.
-/

namespace Hltos

open Lib.Transition Sched Queued List Option

namespace Family

variable {st st' : Family} {l : FamilyOp × (Nat → Word)} {op : FamilyOp} {s' : Sched}
  {X : Set ProcRef} {collected : List Nat} {child : ProcRef} {childPid : Int}

/-- The child that a waiting process waits for. -/
def Awaits (st : Family) (w child : ProcRef) : Prop :=
  child ∈ st.sched.processes ∧ (st.sched.procs child).parent = some w ∧
    ((st.sched.procs w).waitPid = -1 ∨ (st.sched.procs child).pid = (st.sched.procs w).waitPid) ∧
    (st.sched.procs child).state ≠ .dead

/-- Every process that is blocked on a child has one that matches and has not been collected. -/
def CanWake (st : Family) : Prop :=
  ∀ w ∈ st.sched.processes, (st.sched.procs w).state = .blocked →
    (st.sched.procs w).waitReason = .childProcess → ∃ child, st.Awaits w child

/-- If `yield_to_child` finds a child at all, there is one among the matches that is not dead. -/
def LivingMatch (childPid : Int) (st : Family) : Prop :=
  (∃ p ∈ st.sched.processes, st.sched.matchesChild st.current childPid p = true) →
    ∃ p ∈ st.sched.processes, st.sched.matchesChild st.current childPid p = true ∧
      (st.sched.procs p).state ≠ .dead

def WaitsForLiving (l : FamilyOp × (Nat → Word)) (st : Family) : Prop :=
  FreshFork l st ∧ ∀ childPid, l.1.waitsFor = some childPid → st.LivingMatch childPid

instance (childPid : Int) (st : Family) : Decidable (st.LivingMatch childPid) :=
  inferInstanceAs (Decidable (_ → _))

instance (l : FamilyOp × (Nat → Word)) (st : Family) : Decidable (WaitsForLiving l st) :=
  decidable_of_iff (FreshFork l st ∧
      l.1.waitsFor.all (fun childPid => decide (st.LivingMatch childPid)) = true) <| by
    unfold WaitsForLiving
    cases l.1.waitsFor <;> simp

/-- A child that is awaited stays awaited while the CPU does something else. -/
theorem Awaits.effect {w : ProcRef}
    (h : Awaits st w child) (he : Effect st.sched s' X) (hw : s'.procs w = st.sched.procs w)
    (hX : child ∈ X → (s'.procs child).state ≠ .dead) :
    Awaits { st with sched := s', collected := collected } w child := by
  obtain ⟨hmem, hparent, hpid, halive⟩ := h
  refine ⟨he.processes ▸ hmem, (he.parent child).trans hparent, ?_, ?_⟩
  · rw [hw, he.pid]
    exact hpid
  · by_cases hc : child ∈ X
    · exact hX hc
    · exact fun hd => halive ((he.kept child hmem hc).dead_iff.mp hd)

theorem CanWake.born {p : ProcRef} {record : Process} {forker : Option Nat} (h : CanWake st)
    (hplace : st.canPlace p) (hnew : record.state = .new) : CanWake (st.born p record forker) := by
  intro w hw hb hr
  rcases mem_born.mp hw with hw | rfl
  · rw [born_procs_of_ne (hplace.ne hw)] at hb hr
    obtain ⟨child, hmem, hparent, hpid, halive⟩ := h w hw hb hr
    refine ⟨child, mem_born.mpr (Or.inl hmem), ?_⟩
    rw [born_procs_of_ne (hplace.ne hw), born_procs_of_ne (hplace.ne hmem)]
    exact ⟨hparent, hpid, halive⟩
  · rw [born_procs_self, hnew] at hb
    cases hb

/-- A match of the caller is a child that it can wait for. -/
theorem Identified.awaits_of_matches (hi : Identified st) (hcur : st.current ∈ st.sched.processes)
    (he : Effect st.sched s' {st.current})
    (hwait : s'.procs st.current = (st.sched.procs st.current).waitForChild childPid)
    (hmem : child ∈ st.sched.processes)
    (hm : st.sched.matchesChild st.current childPid child = true)
    (halive : (st.sched.procs child).state ≠ .dead) :
    Awaits { st with sched := s', collected := collected } st.current child := by
  obtain ⟨hparent, hpid⟩ := hi.parent_of_matches hcur hmem hm
  refine ⟨he.processes ▸ hmem, (he.parent child).trans hparent, ?_, ?_⟩
  · rw [hwait, he.pid]
    exact hpid
  · by_cases hc : child = st.current
    · subst hc
      rw [hwait]
      simp
    · exact fun hd => halive ((he.kept child hmem hc).dead_iff.mp hd)

/-- Only the processes that the step is about need a look, as waiting processes and as children. -/
theorem CanWake.effect (h : CanWake st) (he : Effect st.sched s' X)
    (hX : ∀ w ∈ X, (s'.procs w).state = .blocked →
      ∃ child, Awaits { st with sched := s', collected := collected } w child)
    (hchild : ∀ w ∈ st.sched.processes, w ∉ X → s'.procs w = st.sched.procs w →
      (st.sched.procs w).state = .blocked → (st.sched.procs w).waitReason = .childProcess →
      ∀ child ∈ X, Awaits st w child → (s'.procs child).state ≠ .dead) :
    CanWake { st with sched := s', collected := collected } := by
  intro w hw hb hr
  have hw : w ∈ st.sched.processes := he.processes ▸ hw
  have hb := hb
  have hr := hr
  by_cases hwX : w ∈ X
  · exact hX w hwX hb
  · have hsame := (he.kept w hw hwX).settled (Or.inl hb)
    rw [hsame] at hb hr
    obtain ⟨child, hawait⟩ := h w hw hb hr
    exact ⟨child, hawait.effect he hsame (fun hc => hchild w hw hwX hsame hb hr child hc hawait)⟩

/-- One step: who waits for a child has one that was not collected. -/
theorem CanWake.step (hp : Partition st.sched) (hi : Identified st) (h : CanWake st)
    (hok : ∀ childPid, op.waitsFor = some childPid → st.LivingMatch childPid)
    (hs : Step st st' op) : CanWake st' := by
  cases hs with
  | born record forker _ hplace hnew _ _ heq => subst heq; exact h.born hplace hnew
  | exit s' hcur he heq =>
    subst heq
    refine h.effect he.effect (fun w hw hb => ?_) (fun w hw hne hsame hb hr child hc hawait => ?_)
    · cases hw
      rw [he.zombie] at hb
      cases hb
    · -- the child is not the one that exits: its parent would have been woken
      cases hc
      have hnot := he.woken w hw hne (hsame ▸ hb)
      rw [hsame] at hnot
      simp only [Process.isWaitingForChild, Process.isWaitingFor, hr] at hnot
      rcases hawait.2.2.1 with hpid | hpid
      · simp [hpid] at hnot
      · rw [← hpid] at hnot
        simp at hnot
  | wait s' e hcur he heq =>
    subst heq
    cases he with
    | noChild _ hs => subst hs; exact h
    | collects child hfound hz heff hkill =>
      refine h.effect heff (fun w hw hb => ?_) (fun w hw _ _ hb _ c hc hawait => ?_)
      · cases hw
        rw [hkill] at hb
        cases hb
      · -- the caller collects a child of its own, and the caller is not blocked
        cases hc
        obtain ⟨hmem, hm⟩ := findChild_some hfound
        have hparent := (hi.parent_of_matches hcur hmem hm).1
        rw [hawait.2.1] at hparent
        cases hparent
        exact absurd (Or.inl hb) (hp.not_settled hcur)
    | blocks child next hfound hz heff hwait =>
      refine h.effect heff (fun w hw _ => ?_) (fun _ _ _ _ _ _ c hc _ => ?_)
      · cases hw
        obtain ⟨c, hmem, hm, halive⟩ := hok _ rfl ⟨child, findChild_some hfound⟩
        exact ⟨c, hi.awaits_of_matches hcur heff hwait hmem hm halive⟩
      · cases hc
        rw [hwait]
        simp
  | reap heq =>
    subst heq
    intro w hw hb hr
    obtain ⟨child, hmem, hparent, hpid, halive⟩ := h w (mem_filter.mp hw).1 hb hr
    refine ⟨child, mem_filter.mpr ⟨hmem, ?_⟩, hparent, hpid, halive⟩
    simpa [Process.isDead] using halive
  | tick s' he heq =>
    subst heq
    exact h.effect he (fun w hw => absurd hw (Set.notMem_empty w))
      (fun _ _ _ _ _ _ c hc => absurd hc (Set.notMem_empty c))

/-- A call that finds dead matches only blocks for good. -/
theorem not_canWake_of_dead (hp : Partition st.sched) (hcur : st.current ∈ st.sched.processes)
    {clock : Nat → Word} (hdead : ¬ st.LivingMatch childPid)
    (hn : next (.yieldToChild childPid, clock) st = some st') : ¬ CanWake st' := by
  simp only [LivingMatch, Classical.not_imp, not_exists, not_and, not_not] at hdead
  obtain ⟨⟨p, hmem, hm⟩, hall⟩ := hdead
  obtain ⟨s', hs, rfl⟩ := map_eq_some_iff.mp hn
  obtain ⟨-, e, he⟩ := byCurrent_eq_some hp hs
  have hw := hp.yieldToChild_waited hcur he
  cases hw with
  | noChild hnone _ =>
    rw [findChild_eq, or_eq_none_iff] at hnone
    exact absurd hm (by simpa using find?_eq_none.mp hnone.2 p hmem)
  | collects child hfound hz _ _ =>
    obtain ⟨hc, hcm⟩ := findChild_some hfound
    have := hall child hc hcm
    rw [hz] at this
    cases this
  | blocks child _ hfound _ heff hwait =>
    intro hcan
    obtain ⟨c, hcmem, hparent, hpid, halive⟩ := hcan st.current (heff.processes.symm ▸ hcur)
      (by show (s'.procs st.current).state = _; rw [hwait]; rfl)
      (by show (s'.procs st.current).waitReason = _; rw [hwait]; rfl)
    have hcmem : c ∈ st.sched.processes := heff.processes ▸ hcmem
    have hparent : (st.sched.procs c).parent = some st.current := (heff.parent c).symm.trans hparent
    have hpid : (s'.procs st.current).waitPid = -1 ∨
        (s'.procs c).pid = (s'.procs st.current).waitPid := hpid
    rw [hwait, heff.pid] at hpid
    have hpid : childPid = -1 ∨ (st.sched.procs c).pid = childPid := hpid
    have hcm : st.sched.matchesChild st.current childPid c = true := by
      simpa [Sched.matchesChild, hparent] using hpid
    have hcd := hall c hcmem hcm
    have hne : c ≠ st.current := fun hc => current_alive hp hcur (hc ▸ hcd)
    exact halive ((heff.kept c hcmem hne).dead_iff.mpr hcd)

end Family

end Hltos
