import Hltos.Scheduler.Partition

/-!
# The scheduler on one CPU, with interrupts

The calls of `scheduler_mechanism.cpp` are not atomic. `yield_sleep_ns` and `yield_mutex` change
the state of the current process before `yield_blocked` takes the lock, and every yield releases
the lock, which restores the caller's interrupt flag, before `context_switch` executes its `cli`.
This module adds what is needed to say what an interrupt sees there: the code each kernel stack
still has to run, as a list of program points, and the interrupt flag.

A `Context` is what a saved stack pointer stands for. `saved` holds `kernel_rsp_saved` of each
process. The stack of the idle process is the boot stack: `percpu::init` makes the idle process
current while `kernel_main` runs, so its first saved context is that of `kernel_main`.
-/

namespace Hltos

open Option Sched

/-- Where a kernel stack stands. Every stack ends in `body`, the code of its process outside the
scheduler. -/
inductive Point where
  | body
  /-- in `yield_blocked`, before the lock is taken -/
  | blocking (reason : WaitReason)
  /-- in `yield_to_child`, at the top of the loop -/
  | child (pid : Int)
  /-- in `exec_elf64`, with the record already reset -/
  | loading
  /-- in `yield_new_process`, before the lock is taken -/
  | starting
  /-- before the `cli` of `context_switch(&old->kernel_rsp_saved, next->kernel_rsp_saved)` -/
  | switching (old next : ProcRef)
  /-- before the `cli` of `permanent_context_switch(next->kernel_rsp_saved)` -/
  | leaving (next : ProcRef)
  /-- in the timer handler, after the switch it made has been undone -/
  | handler
  deriving DecidableEq

/-- The points inside a yield at which the lock is still to be taken. -/
def Point.isPending : Point → Bool
  | .blocking _ | .child _ | .loading | .starting => true
  | _ => false

/-- The points between the release of the lock and the `cli` of the switch. -/
def Point.isWindow : Point → Bool
  | .switching _ _ | .leaving _ => true
  | _ => false

/-- A kernel stack, named by the process it belongs to, and what is left to run on it. -/
structure Context where
  stack : ProcRef
  points : List Point
  deriving DecidableEq

/-- The context a new process starts from: the synthetic frame on its own stack. -/
def Context.fresh (p : ProcRef) : Context := ⟨p, [.body]⟩

structure Machine where
  sched : Sched
  context : Context
  saved : ProcRef → Context
  /-- the interrupt flag -/
  interrupts : Bool
  /-- the executions of `context_switch` so far: whose stack pointer it saved, and on whose stack
  it ran -/
  switches : List (ProcRef × ProcRef)

namespace Machine

/-- `context_switch`: save the rest of the current stack as the context of `old`, load that of
`next`, and enable interrupts. -/
def contextSwitch (old next : ProcRef) (rest : List Point) (m : Machine) : Machine :=
  let saved := fun q => if q = old then ⟨m.context.stack, rest⟩ else m.saved q
  { m with
    saved := saved, context := saved next, interrupts := true,
    switches := (old, m.context.stack) :: m.switches }

def permanentContextSwitch (next : ProcRef) (m : Machine) : Machine :=
  { m with context := m.saved next, interrupts := true }

/-- Leave a section that ran with interrupts off: whatever switch it ends with is executed before
anything else can happen. `rest` is what remains to run once the caller is resumed. -/
def exitMasked (rest : List Point) (s : Sched) (e : Exit) (m : Machine) : Machine :=
  match e with
  | .contextSwitch old next => contextSwitch old next rest { m with sched := s }
  | .permanentContextSwitch next => permanentContextSwitch next { m with sched := s }
  | _ => { m with sched := s }

/-- Release the lock in a caller that may have interrupts on: a switch is now only pending.
`again` is what runs after the switch has been undone, `rest` what runs after a plain return. -/
def exitUnlocked (again rest : List Point) (s : Sched) (e : Exit) (m : Machine) : Machine :=
  let points :=
    match e with
    | .contextSwitch old next => .switching old next :: again
    | .permanentContextSwitch next => .leaving next :: again
    | _ => rest
  { m with sched := s, context := ⟨m.context.stack, points⟩ }

/-! ## Steps -/

/-- The timer interrupt. Its gate clears the interrupt flag, so `tick` is not interrupted; `iretq`
sets the flag again. -/
def timer (clock : Nat → Word) (m : Machine) : Option Machine :=
  if m.interrupts then
    (m.sched.tick clock).map (fun r => m.exitMasked (.handler :: m.context.points) r.1 r.2)
  else none

/-- The keyboard interrupt. -/
def keyboard (m : Machine) : Option Machine :=
  if m.interrupts then some { m with sched := m.sched.wakeSingle .keyboard } else none

/-- Go on with whatever the current stack was doing inside the scheduler. -/
def proceed (clock : Nat → Word) (m : Machine) : Option Machine :=
  match m.context.points with
  | .blocking reason :: rest =>
    (m.sched.yieldBlocked reason clock).map (fun r => m.exitUnlocked rest rest r.1 r.2)
  | .child pid :: rest =>
    (m.sched.yieldToChild pid clock).map
      (fun r => m.exitUnlocked (.child pid :: rest) rest r.1 r.2)
  | .loading :: rest =>
    -- `build_synthetic_context_frame`: the process will start from the new image
    let current := m.sched.cpu.process
    some { m with
      saved := fun q => if q = current then Context.fresh current else m.saved q
      context := ⟨m.context.stack, .starting :: rest⟩ }
  | .starting :: rest =>
    (m.sched.yieldNewProcess clock).map (fun r => m.exitUnlocked rest rest r.1 r.2)
  | .switching old next :: rest => some (m.contextSwitch old next rest)
  | .leaving next :: _ => some (m.permanentContextSwitch next)
  | .handler :: rest => some { m with context := ⟨m.context.stack, rest⟩, interrupts := true }
  | _ => none

/-- Enter a yield, with the change to the current record that comes before the lock. -/
def enter (point : Point) (s : Sched) (m : Machine) : Machine :=
  { m with sched := s, context := ⟨m.context.stack, point :: m.context.points⟩ }

/-- A call made by the code of a process. The two halting loops that run on the idle stack make no
yield. `SLEEP` and `MUTEX` are only waited for through `yield_sleep_ns` and `yield_mutex`.
`yield_dead` and `yield_zombie` start with `cli`. -/
def yields (c : Sched.Call) (clock : Nat → Word) (m : Machine) : Option Machine :=
  match c with
  | .yieldBlocked reason =>
    if reason = .sleep ∨ reason = .mutex then none
    else some (m.enter (.blocking reason) m.sched)
  | .yieldSleepNs duration =>
    some (m.enter (.blocking .sleep) (m.sched.beginSleep duration (clock 0)))
  | .yieldMutex mutex => some (m.enter (.blocking .mutex) (m.sched.beginMutex mutex))
  | .yieldToChild pid => some (m.enter (.child pid) m.sched)
  | .exec image =>
    some (m.enter .loading (m.sched.update m.sched.cpu.process (Process.execReset image)))
  | .yieldZombie => (m.sched.yieldZombie clock).map (fun r => m.exitMasked [] r.1 r.2)
  | .yieldDead => (m.sched.yieldDead clock).map (fun r => m.exitMasked [] r.1 r.2)
  | _ => none

/-- A new process comes with its synthetic frame. -/
def savedAfter (c : Sched.Call) (m : Machine) : ProcRef → Context :=
  match c with
  | .addProcess p _ => fun q => if q = p then Context.fresh p else m.saved q
  | _ => m.saved

/-- A call from `body`. -/
def call (c : Sched.Call) (clock : Nat → Word) (m : Machine) : Option Machine :=
  if c.isPassive then
    (m.sched.call c clock).map (fun s => { m with sched := s, saved := m.savedAfter c })
  else if m.context.stack = m.sched.cpu.idleProcess then none
  else m.yields c clock

inductive Action where
  | timer
  | keyboard
  | proceed
  | call (c : Sched.Call)
  /-- the code of the process sets or clears the interrupt flag, or `preemption_enabled` -/
  | setFlags (interrupts preemption : Bool)

def Action.isTimer : Action → Bool
  | .timer => true
  | _ => false

def next (a : Action × (Nat → Word)) (m : Machine) : Option Machine :=
  match a.1 with
  | .timer => m.timer a.2
  | .keyboard => m.keyboard
  | .proceed => m.proceed a.2
  | .call c => if m.context.points = [.body] then m.call c a.2 else none
  | .setFlags interrupts preemption =>
    if m.context.points = [.body] then
      some { m with
        interrupts := interrupts
        sched := { m.sched with cpu := { m.sched.cpu with preemptionEnabled := preemption } } }
    else none

/-- The machine once `kernel_main` reaches its halting loop. -/
def system : Lib.Transition.System Machine (Action × (Nat → Word)) where
  init m := Sched.system.init m.sched ∧ m.context = Context.fresh m.sched.cpu.idleProcess ∧
    (∀ p, m.saved p = Context.fresh p) ∧ m.switches = []
  next := next

/-! ## What a step does to the contexts -/

def current (m : Machine) : ProcRef := m.sched.cpu.process

/-- What runs once the switch of a yield has been undone: `yield_to_child` goes round its loop, all
others return. -/
def Again (point : Point) (rest again : List Point) : Prop :=
  again = rest ∨ (∃ pid, point = .child pid) ∧ again = point :: rest

/-- The effect of a step on `cpu->process` and on the contexts. -/
inductive Moves (a : Action × (Nat → Word)) (m m' : Machine) : Prop where
  /-- nothing moves -/
  | stay : m'.context = m.context → m'.saved = m.saved → m'.switches = m.switches →
      m'.current = m.current → Moves a m m'
  /-- a new process gets its synthetic frame -/
  | add (p : ProcRef) : m'.context = m.context →
      m'.saved = (fun q => if q = p then Context.fresh p else m.saved q) →
      m'.switches = m.switches → m'.current = m.current → Moves a m m'
  /-- a process enters a yield -/
  | enter (point : Point) : point.isPending = true → m.context.points = [.body] →
      m.context.stack ≠ m.sched.cpu.idleProcess →
      m'.context = ⟨m.context.stack, point :: m.context.points⟩ → m'.saved = m.saved →
      m'.switches = m.switches → m'.current = m.current → Moves a m m'
  /-- `exec_elf64` is done: the process gets its new synthetic frame -/
  | load (rest : List Point) : m.context.points = .loading :: rest →
      m'.context = ⟨m.context.stack, .starting :: rest⟩ →
      m'.saved = (fun q => if q = m.current then Context.fresh m.current else m.saved q) →
      m'.switches = m.switches → m'.current = m.current → Moves a m m'
  /-- a yield or the timer handler returns -/
  | back (point : Point) (rest : List Point) : m.context.points = point :: rest →
      point.isPending = true ∨ point = .handler → m'.context = ⟨m.context.stack, rest⟩ →
        m'.saved = m.saved →
      m'.switches = m.switches → m'.current = m.current → Moves a m m'
  /-- a yield releases the lock, its switch pending -/
  | release (point : Point) (rest again : List Point) : m.context.points = point :: rest →
      point.isPending = true → Again point rest again →
      m'.context = ⟨m.context.stack, .switching m.current m'.current :: again⟩ →
      m'.saved = m.saved → m'.switches = m.switches → Moves a m m'
  /-- the same, for a switch that will not be undone -/
  | releaseForever (point : Point) (rest again : List Point) :
      m.context.points = point :: rest → point.isPending = true → Again point rest again →
      m'.context = ⟨m.context.stack, .leaving m'.current :: again⟩ →
      m'.saved = m.saved → m'.switches = m.switches → Moves a m m'
  /-- a pending switch is executed -/
  | switch (old next : ProcRef) (rest : List Point) :
      m.context.points = .switching old next :: rest →
      m' = m.contextSwitch old next rest → Moves a m m'
  | switchForever (next : ProcRef) (rest : List Point) :
      m.context.points = .leaving next :: rest →
      m' = m.permanentContextSwitch next → Moves a m m'
  /-- the timer handler takes the current process off the CPU -/
  | preempt (s : Sched) (next : ProcRef) : a.1.isTimer = true →
      m.sched.tick a.2 = some (s, .contextSwitch m.current next) → next = s.cpu.process →
      m' = contextSwitch m.current next (.handler :: m.context.points) { m with sched := s } →
      Moves a m m'
  /-- the current process dies -/
  | die (s : Sched) : m' = permanentContextSwitch s.cpu.process { m with sched := s } →
      Moves a m m'

variable {clock : Nat → Word} {m m' : Machine} {a : Action × (Nat → Word)} {s : Sched}

theorem timer_moves (h : m.timer clock = some m') : Moves (.timer, clock) m m' := by
  unfold timer at h
  split at h
  · obtain ⟨⟨s, e⟩, ht, rfl⟩ := map_eq_some_iff.mp h
    have hfit := (tick_spec ht).2
    cases e with
    | returns => exact .stay rfl rfl rfl hfit
    | status v => exact .stay rfl rfl rfl hfit
    | contextSwitch old next =>
      obtain ⟨rfl, hnext⟩ := hfit
      exact .preempt s next rfl ht hnext rfl
    | permanentContextSwitch next =>
      cases hfit
      exact .die s rfl
  · cases h

/-- Releasing the lock at a pending point: return, or leave a switch pending. -/
theorem exitUnlocked_moves {point : Point}
    {rest again : List Point} {e : Exit} (hp : m.context.points = point :: rest)
    (hpend : point.isPending = true) (hagain : Again point rest again)
    (hfit : e.Fits m.sched s) : Moves a m (m.exitUnlocked again rest s e) := by
  cases e with
  | returns => exact .back point rest hp (.inl hpend) rfl rfl rfl hfit
  | status v => exact .back point rest hp (.inl hpend) rfl rfl rfl hfit
  | contextSwitch old next =>
    obtain ⟨rfl, rfl⟩ := hfit
    exact .release point rest again hp hpend hagain rfl rfl rfl
  | permanentContextSwitch next =>
    cases hfit
    exact .releaseForever point rest again hp hpend hagain rfl rfl rfl

/-- Going on is one of the moves. -/
theorem proceed_moves (h : m.proceed clock = some m') : Moves (.proceed, clock) m m' := by
  unfold proceed at h
  split at h
  · next reason rest hp =>
    obtain ⟨⟨s, e⟩, hs, rfl⟩ := map_eq_some_iff.mp h
    exact exitUnlocked_moves hp rfl (.inl rfl) (yieldBlocked_spec hs).2
  · next pid rest hp =>
    obtain ⟨⟨s, e⟩, hs, rfl⟩ := map_eq_some_iff.mp h
    exact exitUnlocked_moves hp rfl (.inr ⟨⟨pid, rfl⟩, rfl⟩) (yieldToChild_spec hs).2
  · next rest hp =>
    cases h
    exact .load rest hp rfl rfl rfl rfl
  · next rest hp =>
    obtain ⟨⟨s, e⟩, hs, rfl⟩ := map_eq_some_iff.mp h
    exact exitUnlocked_moves hp rfl (.inl rfl) (yieldNewProcess_spec hs).2
  · next old next rest hp =>
    cases h
    exact .switch old next rest hp rfl
  · next next rest hp =>
    cases h
    exact .switchForever next rest hp rfl
  · next rest hp =>
    cases h
    exact .back .handler rest hp (.inr rfl) rfl rfl rfl rfl
  · cases h

variable {c : Sched.Call}

theorem yields_moves
    (hb : m.context.points = [.body]) (hidle : m.context.stack ≠ m.sched.cpu.idleProcess)
    (h : m.yields c clock = some m') : Moves (.call c, clock) m m' := by
  have henter : ∀ (point : Point) (s : Sched), point.isPending = true → s.cpu = m.sched.cpu →
      Moves (.call c, clock) m (m.enter point s) := fun point s hpt hs =>
    .enter point hpt hb hidle rfl rfl rfl (congrArg Cpu.process hs)
  unfold yields at h
  split at h
  · split at h
    · cases h
    · cases h; exact henter _ _ rfl rfl
  · cases h; exact henter _ _ rfl rfl
  · cases h; exact henter _ _ rfl rfl
  · cases h; exact henter _ _ rfl rfl
  · cases h; exact henter _ _ rfl rfl
  · obtain ⟨⟨s, e⟩, hs, rfl⟩ := map_eq_some_iff.mp h
    obtain rfl : e = _ := (yieldZombie_spec hs).2
    exact .die s rfl
  · obtain ⟨⟨s, e⟩, hs, rfl⟩ := map_eq_some_iff.mp h
    obtain rfl : e = _ := (yieldDead_spec hs).2
    exact .die s rfl
  · cases h

theorem call_cpu {s' : Sched} (hc : c.isPassive = true) (h : s.call c clock = some s') :
    s'.cpu = s.cpu := by
  cases c with
  | addProcess p record =>
    simp only [Sched.call] at h
    split at h
    · cases h; rfl
    · cases h
  | wakeSingle reason => cases h; exact wakeSingle_cpu _ _
  | wakeAll reason => cases h; exact wakes_cpu.wakeAll _ _
  | wakeMutex mutex => cases h; exact wakes_cpu.wakeWhere _ _
  | reap => exact reap_cpu h
  | _ => cases hc

theorem call_moves (hb : m.context.points = [.body]) (h : m.call c clock = some m') :
    Moves (.call c, clock) m m' := by
  unfold call at h
  split at h
  · next hc =>
    obtain ⟨s, hs, rfl⟩ := map_eq_some_iff.mp h
    have hcur : s.cpu.process = m.current := congrArg Cpu.process (call_cpu hc hs)
    cases c with
    | addProcess p record => exact .add p rfl rfl rfl hcur
    | _ => exact .stay rfl rfl rfl hcur
  · split at h
    · cases h
    · next hidle => exact yields_moves hb hidle h

/-- **Every step is one of the moves.** -/
theorem next_moves (h : m.next a = some m') : Moves a m m' := by
  obtain ⟨a, clock⟩ := a
  cases a with
  | timer => exact timer_moves h
  | keyboard =>
    simp only [next, keyboard] at h
    split at h
    · cases h
      exact .stay rfl rfl rfl (congrArg Cpu.process (wakeSingle_cpu _ _))
    · cases h
  | proceed => exact proceed_moves h
  | call c =>
    simp only [next] at h
    split at h
    · next hb => exact call_moves hb h
    · cases h
  | setFlags i p =>
    simp only [next] at h
    split at h
    · cases h; exact .stay rfl rfl rfl rfl
    · cases h

/-- The idle machine, halting with interrupts on. -/
def idle : Machine where
  sched := Sched.idleMachine
  context := Context.fresh 0
  saved := Context.fresh
  interrupts := true
  switches := []

theorem idle_init : system.init idle := ⟨Sched.idleMachine_init, rfl, fun _ => rfl, rfl⟩

/-- Process 1 is added to the idle machine and taken onto the CPU by the first tick. -/
def started : List (Action × (Nat → Word)) :=
  [(.call (.addProcess 1 (Sched.freshProcess 1)), fun _ => 0), (.timer, fun _ => 0)]

end Machine

end Hltos
