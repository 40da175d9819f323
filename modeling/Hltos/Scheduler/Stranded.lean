import Hltos.Scheduler.SavedContext

/-!
# No process is stranded

A process is stranded when nothing can make it runnable any more: it sleeps outside `g_sleepers`,
it is ready outside the ready queue, or it is blocked on a mutex it does not name. `sleep_for` and
`wait_for_mutex` publish the new state before `yield_blocked` takes the lock; a tick that preempts
in this gap takes a process off the CPU that `enqueue_if_runnable` will not put anywhere. In every
run without such a tick no process is ever stranded, however the other interrupts fall.
-/

namespace Hltos

open Option Point Process

/-- The gap in `yield_sleep_ns` and `yield_mutex`: the state is changed, the lock not yet taken. -/
def Point.isGap : Point → Bool
  | .blocking .sleep | .blocking .mutex => true
  | _ => false

/-- What the record of the current process looks like when its stack is at a given point. -/
def Expects : Option Point → Process → Prop
  | some (.blocking .sleep), r => r.state = .sleeping
  | some (.blocking .mutex), r =>
    r.state = .blocked ∧ r.waitReason = .mutex ∧ r.waitMutex.isSome = true
  | some .loading, r => r.state = .running ∨ r.isReady = true
  | some .starting, r => r.state = .running ∨ r.isReady = true
  | _, r => r.state = .running

variable {r : Process} {reason : WaitReason}

theorem expects_of_running {top : Option Point} (htop : top.any Point.isGap = false)
    (hr : r.state = .running) : Expects top r := by
  unfold Expects
  split
  · cases htop
  · cases htop
  · exact .inl hr
  · exact .inl hr
  · exact hr

theorem Expects.running_or_ready {top : Option Point} (h : Expects top r)
    (htop : top.any isGap = false) : r.state = .running ∨ r.isReady = true := by
  unfold Expects at h
  split at h
  · cases htop
  · cases htop
  · exact h
  · exact h
  · exact .inl h

/-- The current process is never blocked on anything but a mutex. -/
theorem Expects.not_waiting {top : Option Point} (h : Expects top r) (hreason : reason ≠ .mutex) :
    (r.isBlocked && r.isWaitingFor reason) = false := by
  have hready : r.state = .running ∨ r.isReady = true → r.isBlocked = false := by
    rintro (hr | hr)
    · simp [isBlocked, hr]
    · rcases isReady_iff.mp hr with hr | hr <;> simp [isBlocked, hr]
  unfold Expects at h
  split at h
  · simp [isBlocked, h]
  · simp [isWaitingFor, h.2.1, Ne.symm hreason]
  · rw [hready h]; rfl
  · rw [hready h]; rfl
  · rw [hready (.inl h)]; rfl

variable {point : Point}

namespace Sched

/-- The scheduler's state is in order for a current stack at `top`. -/
structure Tidy (top : Option Point) (s : Sched) : Prop extends Held s where
  expected : s.cpu.process ≠ s.cpu.idleProcess → Expects top (s.procs s.cpu.process)
  mutex : ∀ p ∈ s.processes, (s.procs p).NamesMutex

variable {s s' : Sched} {top top' : Option Point} {clock : Nat → Word} {e : Exit}

theorem Advances.namesMutex (h : Advances s s') (hs : ∀ p ∈ s.processes, (s.procs p).NamesMutex) :
    ∀ p ∈ s'.processes, (s'.procs p).NamesMutex := by
  intro p hp
  rw [h.processes] at hp
  exact h.mutex p (hs p hp)

theorem Partition.tidy (h : Partition s) (hm : ∀ p ∈ s.processes, (s.procs p).NamesMutex)
    (htop : top.any isGap = false) : Tidy top s :=
  ⟨h.toHeld, fun hi => expects_of_running htop (h.running hi), hm⟩

/-- Outside the gaps and `exec` the current process is running. -/
theorem Tidy.partition (h : Tidy (some point) s) (hgap : point.isGap = false)
    (hload : point ≠ .loading) (hstart : point ≠ .starting) : Partition s := by
  refine ⟨h.toHeld, fun hi => ?_⟩
  have he := h.expected hi
  unfold Expects at he
  split at he
  · next heq => cases heq; cases hgap
  · next heq => cases heq; cases hgap
  · next heq => cases heq; exact absurd rfl hload
  · next heq => cases heq; exact absurd rfl hstart
  · exact he

theorem Tidy.mem (h : Tidy top s) (hidle : s.cpu.process ≠ s.cpu.idleProcess) :
  s.cpu.process ∈ s.processes := h.member.resolve_left hidle

/-- A tick outside the gaps, or one that `preempt` ignores. -/
theorem Tidy.tick (h : Tidy top s) (hok : top.any isGap = true → s.wantsPreempt (clock 1) = false)
    (hs : s.tick clock = some (s', e)) : (e = .returns ∧ Tidy top s') ∨
      ((∃ next, e = .contextSwitch s.cpu.process next) ∧
        ∀ top', top'.any isGap = false → Tidy top' s') := by
  have hm := (tick_spec hs).1.namesMutex h.mutex
  have hcur : s.wantsPreempt (clock 1) = true → s.cpu.process ≠ s.cpu.idleProcess →
      (s.procs s.cpu.process).state = .running ∨ (s.procs s.cpu.process).isReady = true := by
    intro hw hi
    apply (h.expected hi).running_or_ready
    cases hg : top.any isGap with
    | false => rfl
    | true => rw [hok hg] at hw; cases hw
  rcases h.toHeld.tick hcur hs with ⟨hh, he, hc, hr⟩ | ⟨hp, hnext⟩
  · refine .inl ⟨he, hh, fun hi => ?_, hm⟩
    rw [hc] at hi ⊢
    rw [hr]
    exact h.expected hi
  · exact .inr ⟨hnext, fun top' htop' => hp.tidy hm htop'⟩

/-- The keyboard interrupt may come at any point. -/
theorem Tidy.wakeKeyboard (h : Tidy top s) : Tidy top (s.wakeSingle .keyboard) := by
  have hD : Queued.PassedOver (isWaitingFor .keyboard) s {s.cpu.process} := by
    intro q hq hmem
    cases Set.mem_singleton_iff.mp hq
    exact (h.expected (fun hi => h.queued.idle (hi ▸ hmem))).not_waiting (by decide)
  refine ⟨h.toHeld.wakeSingle hD, fun hi => ?_,
    (Advances.respects.wakeSingle _ s).namesMutex h.mutex⟩
  rw [wakeSingle_cpu] at hi ⊢
  rw [wakeSingle_procs hD (Set.mem_singleton _)]
  exact h.expected hi

theorem Tidy.yieldBlocked
    (h : Tidy (some (.blocking reason)) s) (hidle : s.cpu.process ≠ s.cpu.idleProcess)
    (hs : s.yieldBlocked reason clock = some (s', e)) (htop : top'.any isGap = false) :
    Tidy top' s' := by
  have hm : reason = .mutex → (s.procs s.cpu.process).waitMutex.isSome = true := by
    rintro rfl
    exact (h.expected hidle).2.2
  have hadv := (Advances.beginWait hm).trans (yieldBlocked_spec hs).1
  exact (h.toHeld.yieldBlocked (h.mem hidle) hs).tidy (hadv.namesMutex h.mutex) htop

theorem Tidy.yieldToChild {pid : Int} (h : Tidy (some (.child pid)) s)
    (hs : s.yieldToChild pid clock = some (s', e)) (htop : top'.any isGap = false) : Tidy top' s' :=
  ((h.partition rfl (by simp) (by simp)).yieldToChild hs).tidy
    ((yieldToChild_spec hs).1.namesMutex h.mutex) htop

theorem Tidy.yieldNewProcess (h : Tidy top s) (hs : s.yieldNewProcess clock = some (s', e))
    (htop : top'.any isGap = false) : Tidy top' s' :=
  (h.toHeld.yieldNewProcess hs).tidy ((yieldNewProcess_spec hs).1.namesMutex h.mutex) htop

/-- The unlocked first half of a yield changes the current record only. -/
theorem Tidy.update_current {f : Process → Process} (h : Tidy top s)
    (hf : Expects top' (f (s.procs s.cpu.process)))
    (hm : (f (s.procs s.cpu.process)).NamesMutex) : Tidy top' (s.update s.cpu.process f) := by
  refine ⟨h.toHeld.update_current f, fun _ => ?_, ?_⟩
  · rw [update_cpu, update_procs_self]
    exact hf
  · exact (Advances.update (fun _ => hm)).namesMutex h.mutex

/-- After a passive call, who is blocked on a mutex still names it. -/
theorem namesMutex_call {c : Call} (hc : c.isPassive = true) (hs : s.call c clock = some s')
    (h : ∀ p ∈ s.processes, (s.procs p).NamesMutex) :
    ∀ p ∈ s'.processes, (s'.procs p).NamesMutex := by
  cases c with
  | addProcess p record =>
    simp only [Sched.call] at hs
    split at hs
    · next hnew =>
      cases hs
      intro q hq
      show ((s.update p (fun _ => record)).procs q).NamesMutex
      by_cases hqp : q = p
      · subst hqp
        rw [update_procs_self]
        exact namesMutex_of_state (by rw [hnew.2.2]; simp)
      · rw [update_procs_of_ne _ _ hqp]
        apply h
        have hq' : q ∈ s.processes ++ [p] := hq
        simpa [hqp] using hq'
    · cases hs
  | reap =>
    simp only [Sched.call, Sched.reap] at hs
    split at hs
    · cases hs
    · cases hs
      exact fun q hq => h q (List.mem_of_mem_filter hq)
  | wakeSingle reason => cases hs; exact (Advances.respects.wakeSingle reason s).namesMutex h
  | wakeAll reason => cases hs; exact (Advances.respects.wakeAll reason s).namesMutex h
  | wakeMutex mutex => cases hs; exact (Advances.respects.wakeWhere _ s).namesMutex h
  | _ => cases hc

/-- No process of `g_processes` is out of reach of the next tick or the next wake. -/
structure NotStranded (s : Sched) : Prop where
  sleeping : ∀ p ∈ s.processes, p ≠ s.cpu.process → (s.procs p).state = .sleeping →
    p ∈ s.sleepers.values
  ready : ∀ p ∈ s.processes, p ≠ s.cpu.process → (s.procs p).state = .ready → p ∈ s.ready
  mutex : ∀ p ∈ s.processes, (s.procs p).state = .blocked → (s.procs p).waitReason = .mutex →
    (s.procs p).waitMutex.isSome = true

theorem Tidy.notStranded (h : Tidy top s) : NotStranded s := by
  refine ⟨fun p hp hne hst => ?_, fun p hp hne hst => ?_, h.mutex⟩
  · exact (h.queued.memSleepers p).mpr ⟨hp, hne, hst⟩
  · exact (h.queued.memReady p).mpr ⟨hp, hne, isReady_iff.mpr (.inl hst)⟩

end Sched

namespace Machine

variable {a : Action × (Nat → Word)} {m m' : Machine}

/-- The current process is in the gap of a sleep or of a wait for a mutex. -/
def inGap (m : Machine) : Bool := m.context.points.head?.any Point.isGap

/-- A timer tick inside a gap is ignored by `preempt`: preemption is off, or the time slice is not
used up. -/
def UnpreemptedGaps (a : Action × (Nat → Word)) (m : Machine) : Prop :=
  a.1.isTimer = true → m.inGap = true → m.sched.wantsPreempt (a.2 1) = false

instance (a : Action × (Nat → Word)) (m : Machine) : Decidable (UnpreemptedGaps a m) :=
  inferInstanceAs (Decidable (_ = true → _ = true → _ = false))

/-- A context on the idle stack is not inside a yield. -/
def Rests (idle : ProcRef) (c : Context) : Prop := c.stack = idle → Free Point.isPending c.points

/-- Nothing on the idle stack is ever inside a yield. -/
structure IdleRests (m : Machine) : Prop where
  running : Rests m.sched.cpu.idleProcess m.context
  saved : ∀ p, Rests m.sched.cpu.idleProcess (m.saved p)

theorem IdleRests.of_saved {q : ProcRef} {c : Context} (h : IdleRests m)
    (hc : Rests m.sched.cpu.idleProcess c) :
    ∀ p, Rests m.sched.cpu.idleProcess (if p = q then c else m.saved p) := by
  intro p
  split
  · exact hc
  · exact h.saved p

theorem rests_fresh (idle p : ProcRef) : Rests idle (Context.fresh p) :=
  fun _ => .cons rfl (free_nil _)

variable {rest : List Point} {clock : Nat → Word} {c : Sched.Call}

/-- A stack that is inside a yield is not the idle one. -/
theorem IdleRests.not_idle (h : IdleRests m)
    (hp : m.context.points = point :: rest) (hpt : point.isPending = true) :
    m.context.stack ≠ m.sched.cpu.idleProcess := by
  intro hstack
  have hfree := h.running hstack point (by rw [hp]; exact List.mem_cons_self)
  rw [hpt] at hfree
  cases hfree

/-- No step leaves a yield on the idle stack. -/
theorem IdleRests.moves (h : IdleRests m)
    (hidle : m'.sched.cpu.idleProcess = m.sched.cpu.idleProcess) (hm : Moves a m m') :
    IdleRests m' := by
  have hrest : ∀ {point rest}, m.context.points = point :: rest →
      Rests m.sched.cpu.idleProcess ⟨m.context.stack, rest⟩ := by
    intro point rest hp hstack
    have := (h.running hstack).tail
    rwa [hp] at this
  suffices hnew : Rests m.sched.cpu.idleProcess m'.context ∧
      ∀ p, Rests m.sched.cpu.idleProcess (m'.saved p) by
    exact ⟨by rw [hidle]; exact hnew.1, by rw [hidle]; exact hnew.2⟩
  cases hm with
  | stay hc hs _ _ => exact ⟨by rw [hc]; exact h.running, by rw [hs]; exact h.saved⟩
  | add p hc hs _ _ =>
    exact ⟨by rw [hc]; exact h.running, by rw [hs]; exact h.of_saved (rests_fresh _ p)⟩
  | enter point _ hb hstack hc hs _ _ =>
    exact ⟨by rw [hc]; exact fun hk => absurd hk hstack, by rw [hs]; exact h.saved⟩
  | load rest hp hc hs _ _ =>
    exact ⟨by rw [hc]; exact fun hk => absurd hk (h.not_idle hp rfl),
      by rw [hs]; exact h.of_saved (rests_fresh _ _)⟩
  | back point rest hp _ hc hs _ _ => exact ⟨by rw [hc]; exact hrest hp, by rw [hs]; exact h.saved⟩
  | release point rest again hp hpt _ hc hs _ =>
    exact ⟨by rw [hc]; exact fun hk => absurd hk (h.not_idle hp hpt), by rw [hs]; exact h.saved⟩
  | releaseForever point rest again hp hpt _ hc hs _ =>
    exact ⟨by rw [hc]; exact fun hk => absurd hk (h.not_idle hp hpt), by rw [hs]; exact h.saved⟩
  | switch old next rest hp hm' =>
    have hsaved := h.of_saved (q := old) (hrest hp)
    subst hm'
    exact ⟨hsaved next, hsaved⟩
  | switchForever next rest hp hm' => subst hm'; exact ⟨h.saved next, h.saved⟩
  | preempt s next _ _ _ hm' =>
    have hsaved := h.of_saved (q := m.current)
      (c := ⟨m.context.stack, .handler :: m.context.points⟩) (fun hk => (h.running hk).cons rfl)
    subst hm'
    exact ⟨hsaved next, hsaved⟩
  | die s hm' => subst hm'; exact ⟨h.saved _, h.saved⟩

/-! ## Runs -/

/-- The whole invariant: contexts are owned, gaps are on top only, the idle stack rests, and the
scheduler's state is what the top of the current stack expects. -/
structure Orderly (m : Machine) : Prop extends Contexts m where
  gaps : TopOnly Point.isGap m
  rests : IdleRests m
  tidy : m.sched.Tidy m.context.points.head?

section

variable (h : Orderly m) (hp : m.context.points = point :: rest)

include h hp

theorem Orderly.tidy_at : m.sched.Tidy (some point) := by
  have := h.tidy
  rwa [hp] at this

/-- Inside a yield the current process is not the idle one. -/
theorem Orderly.not_idle (hpt : point.isPending = true) :
    m.sched.cpu.process ≠ m.sched.cpu.idleProcess := by
  have hstack := h.rests.not_idle hp hpt
  rwa [((h.at hp).of_pending hpt).1] at hstack

end

theorem head_of_free {kind : Point → Bool} {points : List Point} (h : Free kind points) :
    points.head?.any kind = false := by
  cases points with
  | nil => rfl
  | cons point rest => exact h point List.mem_cons_self

/-- The scheduler's part of a step, and the fact that it keeps the idle process. -/
structure TidyStep (m m' : Machine) : Prop where
  tidy : m'.sched.Tidy m'.context.points.head?
  idle : m'.sched.cpu.idleProcess = m.sched.cpu.idleProcess

theorem Orderly.timer (h : Orderly m)
    (hok : UnpreemptedGaps (.timer, clock) m) (hgaps : TopOnly isGap m')
    (hn : m.timer clock = some m') : TidyStep m m' := by
  unfold Machine.timer at hn
  split at hn
  · obtain ⟨⟨s, e⟩, ht, rfl⟩ := map_eq_some_iff.mp hn
    have hidle := (Sched.tick_spec ht).1.idle
    rcases h.tidy.tick (hok rfl) ht with ⟨rfl, hs⟩ | ⟨⟨next, rfl⟩, hs⟩
    · exact ⟨hs, hidle⟩
    · exact ⟨hs _ (head_of_free (hgaps.saved next)), hidle⟩
  · cases hn

/-- Releasing the lock leads to a window, or back to where there is no gap. -/
theorem head_exitUnlocked {again : List Point} {s : Sched} {e : Exit} (hrest : Free isGap rest) :
    (m.exitUnlocked again rest s e).context.points.head?.any isGap = false := by
  cases e with
  | returns => exact head_of_free hrest
  | status v => exact head_of_free hrest
  | contextSwitch old next => rfl
  | permanentContextSwitch next => rfl

/-- Going on leaves the scheduler as the new top of the stack expects it. -/
theorem Orderly.proceed (h : Orderly m) (hgaps : TopOnly Point.isGap m')
    (hn : m.proceed clock = some m') : TidyStep m m' := by
  have htail : ∀ {point rest}, m.context.points = point :: rest → Free isGap rest := by
    intro point rest hp
    have := h.gaps.tail
    rwa [hp] at this
  unfold Machine.proceed at hn
  split at hn
  · next reason rest hp =>
    obtain ⟨⟨s, e⟩, hs, rfl⟩ := map_eq_some_iff.mp hn
    have hidle : s.cpu.idleProcess = (m.sched.beginWait reason).cpu.idleProcess :=
      (Sched.yieldBlocked_spec hs).1.idle
    rw [Sched.beginWait_cpu] at hidle
    exact ⟨(h.tidy_at hp).yieldBlocked (h.not_idle hp rfl) hs (head_exitUnlocked (htail hp)), hidle⟩
  · next pid rest hp =>
    obtain ⟨⟨s, e⟩, hs, rfl⟩ := map_eq_some_iff.mp hn
    exact ⟨(h.tidy_at hp).yieldToChild hs (head_exitUnlocked (htail hp)),
      (Sched.yieldToChild_spec hs).1.idle⟩
  · next rest hp =>
    cases hn
    have ht := h.tidy_at hp
    exact ⟨⟨ht.toHeld, ht.expected, ht.mutex⟩, rfl⟩
  · next rest hp =>
    obtain ⟨⟨s, e⟩, hs, rfl⟩ := map_eq_some_iff.mp hn
    exact ⟨(h.tidy_at hp).yieldNewProcess hs (head_exitUnlocked (htail hp)),
      (Sched.yieldNewProcess_spec hs).1.idle⟩
  · next old next rest hp =>
    cases hn
    have ht := h.tidy_at hp
    exact ⟨(ht.partition rfl (by simp) (by simp)).tidy ht.mutex (head_of_free (hgaps.saved next)),
      rfl⟩
  · next next rest hp =>
    cases hn
    have ht := h.tidy_at hp
    exact ⟨(ht.partition rfl (by simp) (by simp)).tidy ht.mutex (head_of_free (h.gaps.saved next)),
      rfl⟩
  · next rest hp =>
    cases hn
    have ht := h.tidy_at hp
    exact ⟨(ht.partition rfl (by simp) (by simp)).tidy ht.mutex (head_of_free (htail hp)), rfl⟩
  · cases hn

/-- The yields, entered by the code of a process. -/
theorem Orderly.yields (h : Orderly m)
    (hb : m.context.points = [.body]) (hn : m.yields c clock = some m') : TidyStep m m' := by
  have ht := h.tidy_at hb
  have hp := ht.partition rfl (by simp) (by simp)
  unfold Machine.yields at hn
  split at hn
  · next reason =>
    split at hn
    · cases hn
    · next hr =>
      cases hn
      refine ⟨hp.tidy ht.mutex ?_, rfl⟩
      cases reason <;> first | rfl | exact absurd (by simp) hr
  · cases hn
    exact ⟨ht.update_current rfl (namesMutex_of_state (by simp)), rfl⟩
  · cases hn
    exact ⟨ht.update_current ⟨rfl, rfl, rfl⟩ (fun _ _ => rfl), rfl⟩
  · cases hn
    exact ⟨hp.tidy ht.mutex rfl, rfl⟩
  · cases hn
    exact ⟨ht.update_current (.inr rfl) (namesMutex_of_state (by simp [execReset])), rfl⟩
  · obtain ⟨⟨s, e⟩, hs, rfl⟩ := map_eq_some_iff.mp hn
    obtain ⟨hadv, rfl⟩ := Sched.yieldZombie_spec hs
    exact ⟨(hp.toHeld.yieldZombie hs).tidy (hadv.namesMutex ht.mutex)
      (head_of_free (h.gaps.saved _)), hadv.idle⟩
  · obtain ⟨⟨s, e⟩, hs, rfl⟩ := map_eq_some_iff.mp hn
    obtain ⟨hadv, rfl⟩ := Sched.yieldDead_spec hs
    exact ⟨(hp.toHeld.yieldDead hs).tidy (hadv.namesMutex ht.mutex) (head_of_free (h.gaps.saved _)),
      hadv.idle⟩
  · cases hn

theorem Orderly.call (h : Orderly m)
    (hb : m.context.points = [.body]) (hn : m.call c clock = some m') : TidyStep m m' := by
  unfold Machine.call at hn
  split at hn
  · next hc =>
    obtain ⟨s, hs, rfl⟩ := map_eq_some_iff.mp hn
    have ht := h.tidy_at hb
    have hp := (ht.partition rfl (by simp) (by simp)).call hs
    refine ⟨hp.tidy (Sched.namesMutex_call hc hs ht.mutex) ?_,
      congrArg Cpu.idleProcess (call_cpu hc hs)⟩
    rw [hb]
    rfl
  · split at hn
    · cases hn
    · exact h.yields hb hn

/-- **One step keeps everything in order**, unless it is a tick that preempts in a gap. -/
theorem Orderly.next (h : Orderly m) (hok : UnpreemptedGaps a m) (hn : m.next a = some m') :
    Orderly m' := by
  have hm := next_moves hn
  have hgaps : TopOnly isGap m' := by
    apply h.gaps.moves rfl rfl (fun _ => rfl) _ hm
    intro s next ha ht
    have hw := Sched.wantsPreempt_of_tick ht
    cases hg : m.inGap with
    | false => exact hg
    | true => rw [hok ha hg] at hw; cases hw
  have hstep : TidyStep m m' := by
    obtain ⟨a, clock⟩ := a
    cases a with
    | timer => exact h.timer hok hgaps hn
    | keyboard =>
      simp only [Machine.next, Machine.keyboard] at hn
      split at hn
      · cases hn
        exact ⟨h.tidy.wakeKeyboard, congrArg Cpu.idleProcess (Sched.wakeSingle_cpu _ _)⟩
      · cases hn
    | proceed => exact h.proceed hgaps hn
    | call c =>
      simp only [Machine.next] at hn
      split at hn
      · next hb => exact h.call hb hn
      · cases hn
    | setFlags interrupts preemption =>
      simp only [Machine.next] at hn
      split at hn
      · cases hn
        have hq := h.tidy.queued
        exact ⟨⟨⟨⟨hq.readyNodup, hq.sleepersNodup, hq.memReady, hq.memSleepers, hq.key,
          hq.notRunning, hq.idle⟩, h.tidy.member⟩, h.tidy.expected, h.tidy.mutex⟩, rfl⟩
      · cases hn
  exact ⟨h.toContexts.moves hm, hgaps, h.rests.moves hstep.idle hm, hstep.tidy⟩

theorem orderly_of_init (h : system.init m) : Orderly m := by
  have hp := Sched.partition_of_reachable (.start h.1)
  obtain ⟨hs, hc, hsaved, -⟩ := id h
  refine ⟨contexts_of_init h, topOnly_of_init rfl h, ⟨?_, fun p => ?_⟩, ?_⟩
  · rw [hc]; exact rests_fresh _ _
  · rw [hsaved]; exact rests_fresh _ _
  · refine hp.tidy (fun p hmem => ?_) (by rw [hc]; rfl)
    rw [hs.1] at hmem
    cases hmem

/-- **No process is stranded** in any run in which no tick preempts in a gap. -/
theorem reachable_notStranded (h : system.ReachableUnder UnpreemptedGaps m) : m.sched.NotStranded :=
  (h.invariant (fun _ => orderly_of_init) (fun _ _ _ hm hok hn => hm.next hok hn)).tidy.notStranded

/-- Ten milliseconds, the length of a time slice. -/
def sliceUsed : Nat → Word := fun _ => Sched.timeSliceNs

/-- Process 1 goes to sleep; a tick comes in the gap, before its time slice is used up. -/
def sleepRun : Option Machine :=
  system.execUnder UnpreemptedGaps
    (started ++ [(.call (.yieldSleepNs 5), fun _ => 0), (.timer, fun _ => 1),
      (.proceed, fun _ => 1), (.proceed, fun _ => 1)])
    idle

theorem sleepRun_notStranded : sleepRun.isSome = true ∧ (sleepRun.getD idle).sched.NotStranded := by
  have hrun : sleepRun.isSome = true := by decide +kernel
  refine ⟨hrun, reachable_notStranded ?_⟩
  obtain ⟨m, hm⟩ := isSome_iff_exists.mp hrun
  rw [hm]
  exact Lib.Transition.System.ReachableUnder.of_execUnder (.start idle_init) hm

/-- The same, but the tick finds the time slice used up. -/
def strandedSleeper : Option Machine :=
  system.exec (started ++ [(.call (.yieldSleepNs 5), fun _ => 0), (.timer, sliceUsed)]) idle

/-- Process 1 is preempted in the gap of `yield_mutex`. Process 2 unlocks the mutex, which wakes
process 1 and clears its `wait_mutex`; resumed, process 1 goes on to block on no mutex at all. -/
def strandedWaiter : Option Machine :=
  system.exec
    ([(.call (.addProcess 1 (Sched.freshProcess 1)), fun _ => 0),
      (.call (.addProcess 2 (Sched.freshProcess 2)), fun _ => 0), (.timer, fun _ => 0),
      (.call (.yieldMutex 7), fun _ => 0), (.timer, sliceUsed),
      (.call (.wakeMutex 7), sliceUsed), (.timer, fun _ => Sched.timeSliceNs + Sched.timeSliceNs),
      (.proceed, sliceUsed), (.proceed, sliceUsed)])
    idle

/-- A tick that preempts in a gap strands the process for good: a sleeper that no tick will wake,
or a process blocked on a mutex that no `wake_mutex` will find. -/
theorem preempted_gap_strands :
    (∃ m p, system.Reachable m ∧ p ∈ m.sched.processes ∧ p ≠ m.sched.cpu.process ∧
      (m.sched.procs p).state = .sleeping ∧ p ∉ m.sched.sleepers.values) ∧
    (∃ m p, system.Reachable m ∧ p ∈ m.sched.processes ∧ (m.sched.procs p).state = .blocked ∧
      (m.sched.procs p).waitReason = .mutex ∧ (m.sched.procs p).waitMutex = none) := by
  have hsleeper : strandedSleeper.map (fun m => (m.sched.processes, m.sched.cpu.process,
      (m.sched.procs 1).state, m.sched.sleepers.values)) = some ([1], 0, .sleeping, []) := by
    decide +kernel
  have hwaiter : strandedWaiter.map (fun m => (m.sched.processes, (m.sched.procs 1).state,
      (m.sched.procs 1).waitReason, (m.sched.procs 1).waitMutex)) =
      some ([1, 2], .blocked, .mutex, none) := by
    decide +kernel
  constructor
  · obtain ⟨m, hm, hfacts⟩ := map_eq_some_iff.mp hsleeper
    simp only [Prod.mk.injEq] at hfacts
    obtain ⟨hmem, hcur, hstate, hvals⟩ := hfacts
    refine ⟨m, 1, .of_exec (.start idle_init) hm, ?_, ?_, hstate, ?_⟩
    · rw [hmem]; decide
    · rw [hcur]; decide
    · rw [hvals]; decide
  · obtain ⟨m, hm, hfacts⟩ := map_eq_some_iff.mp hwaiter
    simp only [Prod.mk.injEq] at hfacts
    obtain ⟨hmem, hstate, hreason, hmutex⟩ := hfacts
    refine ⟨m, 1, .of_exec (.start idle_init) hm, ?_, hstate, hreason, hmutex⟩
    rw [hmem]; decide

end Machine

end Hltos
