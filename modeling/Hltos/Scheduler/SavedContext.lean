import Hltos.Scheduler.Machine

/-!
# Whose stack a saved stack pointer points into

`activate_process` makes the next process current before the stacks are switched, and the lock is
released in between. While a yield of an interruptible caller stands in that window, the CPU runs
on the stack of one process with another as `cpu->process`; a timer tick that preempts there saves
the stack of the first as the context of the second.

`Owns p c` says that `c` may be loaded as the context of `p`: it is on the stack of `p`, or it is
in a window of a switch to `p`. This holds of every saved context in every run. The stacks
themselves match exactly as long as no tick preempts inside a window.
-/

namespace Hltos

/-- `c` is what remains to run for `p`. -/
inductive Owns : ProcRef → Context → Prop where
  | body (p : ProcRef) : Owns p ⟨p, [.body]⟩
  | pending (p : ProcRef) {point : Point} : point.isPending = true → Owns p ⟨p, [point, .body]⟩
  | switching {old k : ProcRef} {rest : List Point} (next : ProcRef) :
      Owns old ⟨k, rest⟩ → Owns next ⟨k, .switching old next :: rest⟩
  | leaving (next k : ProcRef) (rest : List Point) : Owns next ⟨k, .leaving next :: rest⟩
  | handler {p k : ProcRef} {points : List Point} :
      Owns p ⟨k, points⟩ → Owns p ⟨k, .handler :: points⟩

/-- No point of a given kind is left on the stack. -/
def Free (kind : Point → Bool) (points : List Point) : Prop := ∀ point ∈ points, kind point = false

variable {kind : Point → Bool} {points : List Point} {point : Point}

theorem Free.cons (hpt : kind point = false) (h : Free kind points) :
    Free kind (point :: points) := by
  intro q hq
  rcases List.mem_cons.mp hq with rfl | hq
  · exact hpt
  · exact h q hq

theorem Free.tail (h : Free kind points) : Free kind points.tail :=
  fun point hp => h point (List.mem_of_mem_tail hp)

theorem free_nil (kind : Point → Bool) : Free kind [] := fun _ hp => by cases hp

variable {p : ProcRef} {c : Context}

/-- A stack without a pending switch belongs to the process it runs for. -/
theorem Owns.stack_eq (h : Owns p c) (hc : Free Point.isWindow c.points) : c.stack = p := by
  induction h with
  | body p => rfl
  | pending p _ => rfl
  | switching next _ _ => cases hc _ List.mem_cons_self
  | leaving next k rest => cases hc _ List.mem_cons_self
  | handler _ ih => exact ih (fun point hp => hc point (List.mem_cons_of_mem _ hp))

variable {k : ProcRef}

theorem Owns.of_body (h : Owns p ⟨k, [.body]⟩) : k = p := by
  cases h; rfl

variable {rest : List Point}

theorem Owns.of_pending
    (hpt : point.isPending = true) (h : Owns p ⟨k, point :: rest⟩) : k = p ∧ rest = [.body] := by
  cases h with
  | pending => exact ⟨rfl, rfl⟩
  | body => cases hpt
  | switching => cases hpt
  | leaving => cases hpt
  | handler => cases hpt

theorem Owns.of_handler (h : Owns p ⟨k, .handler :: rest⟩) : Owns p ⟨k, rest⟩ := by
  cases h with
  | handler ho => exact ho
  | pending _ hpt => cases hpt

variable {next : ProcRef} {old : ProcRef}

theorem Owns.of_switching (h : Owns p ⟨k, .switching old next :: rest⟩) :
    p = next ∧ Owns old ⟨k, rest⟩ := by
  cases h with
  | switching _ ho => exact ⟨rfl, ho⟩
  | pending _ hpt => cases hpt

theorem Owns.of_leaving (h : Owns p ⟨k, .leaving next :: rest⟩) : p = next := by
  cases h with
  | leaving => rfl
  | pending _ hpt => cases hpt

namespace Machine

variable {a : Action × (Nat → Word)} {m m' : Machine} {q : ProcRef}

/-- Every context is owned by the process it is kept for. -/
structure Contexts (m : Machine) : Prop where
  running : Owns m.current m.context
  saved : ∀ p, Owns p (m.saved p)

theorem Contexts.at (h : Contexts m) (hp : m.context.points = points) :
    Owns m.current ⟨m.context.stack, points⟩ := hp ▸ h.running

theorem Contexts.of_saved (h : Contexts m) (hc : Owns q c) :
    ∀ p, Owns p (if p = q then c else m.saved p) := by
  intro p
  split
  · next hpq => rw [hpq]; exact hc
  · exact h.saved p

/-- **One step keeps every context owned**, whatever interrupts whatever. -/
theorem Contexts.moves (h : Contexts m) (hm : Moves a m m') : Contexts m' := by
  cases hm with
  | stay hc hs _ hcur => exact ⟨by rw [hcur, hc]; exact h.running, by rw [hs]; exact h.saved⟩
  | add p hc hs _ hcur =>
    exact ⟨by rw [hcur, hc]; exact h.running, by rw [hs]; exact h.of_saved (.body p)⟩
  | enter point hpt hb _ hc hs _ hcur =>
    have hk := (h.at hb).of_body
    refine ⟨?_, by rw [hs]; exact h.saved⟩
    rw [hcur, hc, hb, hk]
    exact .pending _ hpt
  | load rest hp hc hs _ hcur =>
    obtain ⟨hk, rfl⟩ := (h.at hp).of_pending rfl
    refine ⟨?_, by rw [hs]; exact h.of_saved (.body _)⟩
    rw [hcur, hc, hk]
    exact .pending _ rfl
  | back point rest hp hpt hc hs _ hcur =>
    refine ⟨?_, by rw [hs]; exact h.saved⟩
    rw [hcur, hc]
    rcases hpt with hpt | rfl
    · obtain ⟨hk, rfl⟩ := (h.at hp).of_pending hpt
      rw [hk]
      exact .body _
    · exact (h.at hp).of_handler
  | release point rest again hp hpt hagain hc hs _ =>
    obtain ⟨hk, rfl⟩ := (h.at hp).of_pending hpt
    refine ⟨?_, by rw [hs]; exact h.saved⟩
    rw [hc, hk]
    rcases hagain with rfl | ⟨-, rfl⟩
    · exact .switching _ (.body _)
    · exact .switching _ (.pending _ hpt)
  | releaseForever point rest again _ _ _ hc hs _ =>
    exact ⟨by rw [hc]; exact .leaving _ _ _, by rw [hs]; exact h.saved⟩
  | switch old next rest hp hm' =>
    obtain ⟨hcur, ho⟩ := (h.at hp).of_switching
    have hsaved := h.of_saved ho
    subst hm'
    refine ⟨?_, hsaved⟩
    show Owns m.current _
    rw [hcur]
    exact hsaved next
  | switchForever next rest hp hm' =>
    have hcur := (h.at hp).of_leaving
    subst hm'
    refine ⟨?_, h.saved⟩
    show Owns m.current _
    rw [hcur]
    exact h.saved next
  | preempt s next _ _ hnext hm' =>
    subst hm'
    have hsaved := h.of_saved (.handler h.running)
    exact ⟨by subst hnext; exact hsaved _, hsaved⟩
  | die s hm' =>
    subst hm'
    exact ⟨h.saved _, h.saved⟩

theorem contexts_of_init (h : system.init m) : Contexts m := by
  obtain ⟨⟨-, -, -, hidle⟩, hc, hs, -⟩ := h
  refine ⟨?_, fun p => by rw [hs]; exact .body p⟩
  rw [hc]
  show Owns m.sched.cpu.process _
  rw [hidle]
  exact .body _

/-! ## Points that stay on top -/

/-- A kind of point is found nowhere except, perhaps, at the very top of the current stack. -/
structure TopOnly (kind : Point → Bool) (m : Machine) : Prop where
  tail : Free kind m.context.points.tail
  saved : ∀ p, Free kind (m.saved p).points

theorem TopOnly.of_saved (h : TopOnly kind m)
    (hc : Free kind c.points) : ∀ p, Free kind (if p = q then c else m.saved p).points := by
  intro p
  split
  · exact hc
  · exact h.saved p

theorem TopOnly.free (h : TopOnly kind m)
    (htop : m.context.points.head?.any kind = false) : Free kind m.context.points := by
  have htail := h.tail
  cases hp : m.context.points with
  | nil => exact free_nil kind
  | cons point rest =>
    rw [hp] at htail htop
    exact .cons htop htail

/-- A point gets under another one only by a preemption, or by the loop of `yield_to_child`. So a
kind of point at which the current process is never preempted stays on top. -/
theorem TopOnly.moves (hbody : kind .body = false)
    (hhandler : kind .handler = false) (hchild : ∀ pid, kind (.child pid) = false)
    (h : TopOnly kind m) (hok : ∀ s next, a.1.isTimer = true →
      m.sched.tick a.2 = some (s, .contextSwitch m.current next) →
      m.context.points.head?.any kind = false)
    (hm : Moves a m m') : TopOnly kind m' := by
  have hfresh : Free kind [.body] := .cons hbody (free_nil kind)
  have htail : ∀ {point rest}, m.context.points = point :: rest → Free kind rest := by
    intro point rest hp
    have := h.tail
    rwa [hp] at this
  have hagain : ∀ {point rest again}, m.context.points = point :: rest →
      Again point rest again → Free kind again := by
    rintro point rest again hp (rfl | ⟨⟨pid, rfl⟩, rfl⟩)
    · exact htail hp
    · exact (htail hp).cons (hchild pid)
  cases hm with
  | stay hc hs _ _ => exact ⟨by rw [hc]; exact h.tail, by rw [hs]; exact h.saved⟩
  | add p hc hs _ _ => exact ⟨by rw [hc]; exact h.tail, by rw [hs]; exact h.of_saved hfresh⟩
  | enter point _ hb _ hc hs _ _ => exact ⟨by rw [hc, hb]; exact hfresh, by rw [hs]; exact h.saved⟩
  | load rest hp hc hs _ _ =>
    exact ⟨by rw [hc]; exact htail hp, by rw [hs]; exact h.of_saved hfresh⟩
  | back point rest hp _ hc hs _ _ =>
    exact ⟨by rw [hc]; exact (htail hp).tail, by rw [hs]; exact h.saved⟩
  | release point rest again hp _ hag hc hs _ =>
    exact ⟨by rw [hc]; exact hagain hp hag, by rw [hs]; exact h.saved⟩
  | releaseForever point rest again hp _ hag hc hs _ =>
    exact ⟨by rw [hc]; exact hagain hp hag, by rw [hs]; exact h.saved⟩
  | switch old next rest hp hm' =>
    have hsaved := h.of_saved (q := old) (c := ⟨m.context.stack, rest⟩) (htail hp)
    subst hm'
    exact ⟨(hsaved next).tail, hsaved⟩
  | switchForever next rest hp hm' =>
    subst hm'
    exact ⟨(h.saved next).tail, h.saved⟩
  | preempt s next ha ht hnext hm' =>
    have hfree := h.free (hok s next ha ht)
    have hsaved := h.of_saved (q := m.current)
      (c := ⟨m.context.stack, .handler :: m.context.points⟩) (hfree.cons hhandler)
    subst hm'
    exact ⟨(hsaved next).tail, hsaved⟩
  | die s hm' =>
    subst hm'
    exact ⟨(h.saved _).tail, h.saved⟩

theorem topOnly_of_init (hbody : kind .body = false) (h : system.init m) : TopOnly kind m := by
  have hfresh : Free kind [.body] := .cons hbody (free_nil kind)
  refine ⟨?_, fun p => ?_⟩
  · rw [h.2.1]; exact hfresh.tail
  · rw [h.2.2.1]; exact hfresh

/-! ## Runs without a preemption inside a window -/

/-- The CPU stands between the release of the lock and the `cli` of a switch. -/
def inWindow (m : Machine) : Bool := m.context.points.head?.any Point.isWindow

/-- A timer tick inside a window leaves the current process on the CPU. -/
def CalmWindows (a : Action × (Nat → Word)) (m : Machine) : Prop :=
  a.1.isTimer = true → m.inWindow = true → m.sched.calm a.2 = true

instance (a : Action × (Nat → Word)) (m : Machine) : Decidable (CalmWindows a m) :=
  inferInstanceAs (Decidable (_ = true → _ = true → _ = true))

/-- Every switch so far saved the stack pointer of the process on whose stack it ran, and every
saved stack pointer points into the stack of its process. -/
structure OwnStacks (m : Machine) : Prop where
  switched : ∀ q k, (q, k) ∈ m.switches → k = q
  suspended : ∀ p, (m.saved p).stack = p

structure Straight (m : Machine) : Prop extends Contexts m where
  windows : TopOnly Point.isWindow m
  switched : ∀ q k, (q, k) ∈ m.switches → k = q

theorem Straight.switched_cons (h : Straight m) (hk : k = old) :
    ∀ q k', (q, k') ∈ (old, k) :: m.switches → k' = q := by
  intro q k' hq
  rcases List.mem_cons.mp hq with heq | hq
  · cases heq; exact hk
  · exact h.switched q k' hq

/-- A tick that switches is not calm, so it was not in a window. -/
theorem CalmWindows.not_inWindow (hok : CalmWindows a m) {s : Sched}
    (ha : a.1.isTimer = true) (ht : m.sched.tick a.2 = some (s, .contextSwitch m.current next)) :
    m.inWindow = false := by
  cases hw : m.inWindow with
  | false => rfl
  | true => cases Sched.tick_of_calm (hok ha hw) ht

/-- One step, if a timer tick inside a window does not switch. -/
theorem Straight.moves (h : Straight m) (hok : CalmWindows a m) (hm : Moves a m m') :
    Straight m' := by
  have hctx := h.toContexts.moves hm
  have hwin : TopOnly Point.isWindow m' := h.windows.moves rfl rfl (fun _ => rfl)
    (fun _ _ ha ht => hok.not_inWindow ha ht) hm
  refine ⟨hctx, hwin, ?_⟩
  cases hm with
  | stay _ _ hw _ => rw [hw]; exact h.switched
  | add p _ _ hw _ => rw [hw]; exact h.switched
  | enter point _ _ _ _ _ hw _ => rw [hw]; exact h.switched
  | load rest _ _ _ hw _ => rw [hw]; exact h.switched
  | back point rest _ _ _ _ hw _ => rw [hw]; exact h.switched
  | release point rest again _ _ _ _ _ hw => rw [hw]; exact h.switched
  | releaseForever point rest again _ _ _ _ _ hw => rw [hw]; exact h.switched
  | switch old next rest hp hm' =>
    -- the switch runs on the stack of the process it saves
    have htail := h.windows.tail
    rw [hp] at htail
    subst hm'
    exact h.switched_cons ((h.at hp).of_switching.2.stack_eq htail)
  | switchForever next rest hp hm' => subst hm'; exact h.switched
  | preempt s next ha ht _ hm' =>
    have hfree := h.windows.free (hok.not_inWindow ha ht)
    subst hm'
    exact h.switched_cons (h.running.stack_eq hfree)
  | die s hm' => subst hm'; exact h.switched

theorem straight_of_init (h : system.init m) : Straight m := by
  refine ⟨contexts_of_init h, topOnly_of_init rfl h, ?_⟩
  intro q k hq
  rw [h.2.2.2] at hq
  cases hq

/-- **Saved stacks are owned** in every run in which no tick preempts between the release of the
lock and the `cli` of the switch. -/
theorem reachable_ownStacks (h : system.ReachableUnder CalmWindows m) : OwnStacks m := by
  have hs : Straight m :=
    h.invariant (fun _ => straight_of_init) (fun _ _ _ hs hok hn => hs.moves hok (next_moves hn))
  exact ⟨hs.switched, fun p => (hs.saved p).stack_eq (hs.windows.saved p)⟩

/-- Process 1 blocks, and a tick hits the window while nobody is ready. -/
def blockRun : Option Machine :=
  system.execUnder CalmWindows
    (started ++ [(.call (.yieldBlocked .keyboard), fun _ => 0), (.proceed, fun _ => 0),
      (.timer, fun _ => 0), (.proceed, fun _ => 0)])
    idle

theorem blockRun_ownStacks : blockRun.isSome = true ∧ OwnStacks (blockRun.getD idle) := by
  have hrun : blockRun.isSome = true := by decide
  refine ⟨hrun, reachable_ownStacks ?_⟩
  obtain ⟨m, hm⟩ := Option.isSome_iff_exists.mp hrun
  rw [hm]
  exact Lib.Transition.System.ReachableUnder.of_execUnder (.start idle_init) hm

/-- Process 1 blocks with interrupts on. In the window, a key wakes it up again and a tick takes
the idle process, by then current, off the CPU. -/
def windowRun : Option Machine :=
  system.exec
    (started ++ [(.call (.yieldBlocked .keyboard), fun _ => 0), (.proceed, fun _ => 0),
      (.keyboard, fun _ => 0), (.timer, fun _ => 0)])
    idle

/-- A tick in the window saves the stack of the blocking process as that of the idle process. -/
theorem windowRun_foreign_stack : ∃ m q k, system.Reachable m ∧ (q, k) ∈ m.switches ∧ k ≠ q ∧
      q ≠ m.current ∧ (m.saved q).stack = k := by
  have hrun : windowRun.map (fun m => (m.switches, m.current, (m.saved 0).stack)) =
      some ([(0, 1), (0, 0)], 1, 1) := by decide
  obtain ⟨m, hm, hfacts⟩ := Option.map_eq_some_iff.mp hrun
  simp only [Prod.mk.injEq] at hfacts
  obtain ⟨hsw, hcur, hstack⟩ := hfacts
  refine ⟨m, 0, 1, ?_, ?_, by decide, ?_, hstack⟩
  · exact Lib.Transition.System.Reachable.of_exec (.start idle_init) hm
  · rw [hsw]; exact List.mem_cons_self
  · rw [hcur]; decide

end Machine

end Hltos
