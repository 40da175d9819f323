import Hltos.Drivers.Keyboard
import Hltos.Scheduler.Settled

/-!
# Waiting for a key

`DevTtyInode::read` polls the keyboard until it has no more events and then calls
`yield_blocked(KEYBOARD)`; the interrupt handler fills the buffer and then calls
`wake_single(KEYBOARD)`. Each of the two works on the buffer and on the scheduler in two separate
critical sections. A system call starts with interrupts disabled; the `sti` of the `context_switch`
that returns to the reader enables them.
-/

namespace Hltos

open Lib.Transition Sched Queued Option

/-- `scancode_to_ascii_table`: the printable keys, by their codes. -/
def scancodeToAsciiTable : List Nat :=
  [0, 0, 49, 50, 51, 52, 53, 54, 55, 56, 57, 48, 45, 61, 0, 0,
    113, 119, 101, 114, 116, 121, 117, 105, 111, 112, 91, 93, 0, 0, 97, 115,
    100, 102, 103, 104, 106, 107, 108, 59, 39, 96, 0, 92, 122, 120, 99, 118,
    98, 110, 109, 44, 46, 47, 0, 42, 0, 32, 0, 0, 0, 0, 0, 0,
    0, 0, 0, 0, 0, 0, 0, 55, 56, 57, 45, 52, 53, 54, 43, 49,
    50, 51, 48, 46, 0, 0, 0, 0, 0, 0, 0, 0, 0, 0, 0, 0,
    0, 0, 0, 0, 0, 0, 0, 0, 0, 0, 0, 0, 0, 0, 0, 0,
    0, 0, 0, 0, 0, 0, 0, 0, 0, 0, 0, 0, 0, 0, 0, 0]

def scancodeToAscii (code : ScanCode) (caps : Bool) : Nat :=
  let ascii := scancodeToAsciiTable.getD code.toNat 0
  if caps ∧ 97 ≤ ascii ∧ ascii ≤ 122 then ascii - 32 else ascii

/-- The event that makes `read` return: the branches before that of `Enter` do not apply. -/
def KeyEvent.endsLine (event : KeyEvent) : Bool :=
  !event.released && !event.controlHeld &&
    scancodeToAscii event.scancode (event.shiftHeld || event.capsLockOn) == 0 &&
    event.scancode != ScanCode.backspace && event.scancode == ScanCode.enter

/-- Where the reader stands. -/
inductive ReadPoint
  | outside
  /-- at `poll`, in the inner loop -/
  | polling
  /-- `poll` has found nothing; before the lock of `yield_blocked` -/
  | yielding
deriving DecidableEq

structure TtyRun where
  sched : Sched
  keyboard : Keyboard
  point : ReadPoint
  /-- the interrupt flag while the reader runs -/
  interrupts : Bool

inductive TtyOp
  /-- the current process creates another one -/
  | spawn (p : ProcRef) (record : Process)
  | timer
  /-- the keyboard interrupt, with the bytes the controller has -/
  | keyboard (bytes : List Byte)
  /-- the reader takes its next step -/
  | proceed
deriving DecidableEq

namespace TtyRun

variable {reader : ProcRef}

abbrev current (st : TtyRun) : ProcRef := st.sched.cpu.process

/-- An interrupt can be taken. -/
def interruptible (reader : ProcRef) (st : TtyRun) : Bool := st.current != reader || st.interrupts

/-- The switch that ends `yield_blocked` enables interrupts. -/
def afterExit (e : Exit) (interrupts : Bool) : Bool :=
  match e with
  | .contextSwitch _ _ => true
  | _ => interrupts

/-- One step of the reader: the entry into the system call, or one round of a loop of `read`. -/
def proceed (clock : Nat → Word) (st : TtyRun) : Option TtyRun :=
  match st.point with
  | .outside => some { st with point := .polling, interrupts := false }
  | .polling =>
    match st.keyboard.poll with
    | none => some { st with point := .yielding }
    | some (event, k) =>
      if event.endsLine then some { st with keyboard := k, point := .outside, interrupts := true }
      else some { st with keyboard := k }
  | .yielding =>
    (st.sched.yieldBlocked .keyboard clock).map (fun r =>
      { st with sched := r.1, point := .polling, interrupts := afterExit r.2 st.interrupts })

def next (reader : ProcRef) (l : TtyOp × (Nat → Word)) (st : TtyRun) : Option TtyRun :=
  match l with
  | (.spawn p record, _) =>
    if (st.current = reader → st.point = .outside) ∧
        p ∉ st.sched.processes ∧ p ≠ st.sched.cpu.idleProcess ∧ record.state = .new then
      some { st with sched := st.sched.addProcess p record }
    else none
  | (.timer, clock) =>
    if st.interruptible reader then
      (st.sched.tick clock).map (fun r => { st with sched := r.1 })
    else none
  | (.keyboard bytes, _) =>
    if st.interruptible reader then
      some { st with
        keyboard := st.keyboard.handleScancodes bytes
        sched := st.sched.wakeSingle .keyboard }
    else none
  | (.proceed, clock) =>
    if st.current = reader ∧ reader ≠ st.sched.cpu.idleProcess then st.proceed clock else none

/-- Nobody has been created, and no key has been pressed. -/
def system (reader : ProcRef) : System TtyRun (TtyOp × (Nat → Word)) where
  init st := Sched.system.init st.sched ∧ st.keyboard = {} ∧ st.point = .outside ∧
    st.interrupts = true
  next := next reader

/-! ## Lost keys -/

/-- The process is blocked until a key is pressed. -/
def WaitsForKey (s : Sched) (p : ProcRef) : Prop :=
  (s.procs p).state = .blocked ∧ (s.procs p).waitReason = .keyboard

/-- The reader is blocked although there is something to read. -/
def LostKey (reader : ProcRef) (st : TtyRun) : Prop :=
  reader ∈ st.sched.processes ∧ WaitsForKey st.sched reader ∧ st.keyboard.eventBuffer ≠ []

/-- No key event arrives after an empty `poll` and before the body of `yield_blocked`. -/
def QuietGaps (l : TtyOp × (Nat → Word)) (st : TtyRun) : Prop :=
  match l.1 with
  | .keyboard bytes => st.point = .yielding → ∀ b ∈ bytes, b = extendedPrefix
  | _ => True

instance (l : TtyOp × (Nat → Word)) (st : TtyRun) : Decidable (QuietGaps l st) :=
  match l with
  | (.keyboard _, _) => inferInstanceAs (Decidable (_ → _))
  | (.spawn _ _, _) | (.timer, _) | (.proceed, _) => inferInstanceAs (Decidable True)

/-- Only the reader waits for a key, and the buffer is empty when it waits or is about to. -/
structure Inv (reader : ProcRef) (st : TtyRun) : Prop where
  part : Partition st.sched
  only : ∀ p ∈ st.sched.processes, WaitsForKey st.sched p → p = reader
  waiting : reader ∈ st.sched.processes → WaitsForKey st.sched reader → st.keyboard.eventBuffer = []
  yielding : st.point = .yielding → st.keyboard.eventBuffer = []

variable {st st' : TtyRun} {l : TtyOp × (Nat → Word)} {s' : Sched} {clock : Nat → Word} {e : Exit}

section

variable (h : Inv reader st)

include h

theorem Inv.not_lost : ¬ LostKey reader st := fun ⟨hmem, hwait, hne⟩ => hne (h.waiting hmem hwait)

/-- The scheduler moves, and nobody waits for a key who did not before. -/
theorem Inv.sched (hpart : Partition s') (hback : ∀ p ∈ s'.processes, WaitsForKey s' p →
      p ∈ st.sched.processes ∧ WaitsForKey st.sched p) :
    Inv reader { st with sched := s' } where
  part := hpart
  only p hp hw := h.only p (hback p hp hw).1 (hback p hp hw).2
  waiting hp hw := h.waiting (hback _ hp hw).1 (hback _ hp hw).2
  yielding := h.yielding

theorem Inv.spawn {p : ProcRef} {record : Process}
    (hp : p ∉ st.sched.processes) (hidle : p ≠ st.sched.cpu.idleProcess)
    (hnew : record.state = .new) :
    Inv reader { st with sched := st.sched.addProcess p record } := by
  refine h.sched (h.part.addProcess hp hidle hnew) (fun q hq hw => ?_)
  by_cases hqp : q = p
  · simp [WaitsForKey, Sched.addProcess, Sched.update, hqp, hnew] at hw
  · refine ⟨by simpa [Sched.addProcess, hqp] using hq, ?_⟩
    simpa [WaitsForKey, Sched.addProcess, Sched.update, hqp] using hw

theorem Inv.timer (hs : st.sched.tick clock = some (s', e)) :
    Inv reader { st with sched := s' } := by
  have hr := h.part.tick_rescheduled hs
  refine h.sched (h.part.tick hs) (fun p hp hw => ?_)
  have hp : p ∈ st.sched.processes := hr.processes ▸ hp
  have heq := hr.settled_of hp (Or.inl hw.1)
  exact ⟨hp, heq ▸ hw.1, heq ▸ hw.2⟩

end

/-- If only the reader can wait for a key, `wake_single` leaves nobody who does. -/
theorem wakeSingle_keyboard_none {s : Sched} (h : ∀ p ∈ s.processes, WaitsForKey s p → p = reader) :
    ∀ p ∈ s.processes, ¬ WaitsForKey (s.wakeSingle .keyboard) p := by
  intro p hp hw
  unfold Sched.wakeSingle at hw
  simp only [reduceCtorEq, if_false] at hw
  split at hw
  · next hnone =>
    have hneg := List.find?_eq_none.mp hnone p hp
    exact hneg (by simp [Process.isBlocked, Process.isWaitingFor, hw.1, hw.2])
  · next q hq =>
    by_cases hpq : p = q
    · subst hpq
      have hself : (s.wakeProcess p).procs p = (s.procs p).wake := update_procs_self _ _ _
      simp [WaitsForKey, hself] at hw
    · -- the process that was woken is the reader, and so is the one that still waits
      rw [WaitsForKey, wakeProcess_procs_of_ne s hpq] at hw
      have hq' := List.find?_some hq
      simp only [Process.isBlocked, Process.isWaitingFor, Bool.and_eq_true, beq_iff_eq] at hq'
      exact hpq ((h p hp hw).trans (h q (List.mem_of_find?_eq_some hq) hq').symm)

section

variable (h : Inv reader st)

include h

theorem Inv.keyboard {bytes : List Byte}
    (hok : st.point = .yielding → ∀ b ∈ bytes, b = extendedPrefix) :
    Inv reader { st with
      keyboard := st.keyboard.handleScancodes bytes
      sched := st.sched.wakeSingle .keyboard } := by
  have hlist : (st.sched.wakeSingle .keyboard).processes = st.sched.processes :=
    (Advances.respects.wakeSingle _ st.sched).processes
  have hnone : ∀ p ∈ (st.sched.wakeSingle .keyboard).processes,
      ¬ WaitsForKey (st.sched.wakeSingle .keyboard) p := by
    rw [hlist]
    exact wakeSingle_keyboard_none h.only
  refine ⟨h.part.wakeSingle .keyboard, fun p hp hw => absurd hw (hnone p hp),
    fun hp hw => absurd hw (hnone _ hp), fun hy => ?_⟩
  have hy := hy
  exact (Keyboard.handleScancodes_eventBuffer_of_prefix _ (hok hy)).trans (h.yielding hy)

section

variable (hcur : st.current = reader) (hmem : reader ∈ st.sched.processes)

include hcur hmem

/-- While the reader runs it does not wait. -/
theorem Inv.not_waits : ¬ WaitsForKey st.sched reader := by
  subst hcur
  exact fun hw => h.part.not_settled hmem (Or.inl hw.1)

theorem Inv.yieldBlocked {interrupts : Bool}
    (hpoint : st.point = .yielding) (hs : st.sched.yieldBlocked .keyboard clock = some (s', e)) :
    Inv reader { st with sched := s', point := .polling, interrupts := interrupts } := by
  subst hcur
  obtain ⟨hr, -⟩ := h.part.toHeld.yieldBlocked_rescheduled (by simp) hmem hs
  refine ⟨h.part.toHeld.yieldBlocked hmem hs, fun p hp hw => ?_, fun _ _ => h.yielding hpoint,
    fun hy => absurd hy (by simp)⟩
  by_contra hpc
  have hp : p ∈ st.sched.processes := hr.processes ▸ hp
  have heq := hr.settled_of hp (Or.inl hw.1)
  rw [update_procs_of_ne _ _ hpc] at heq
  exact hpc (h.only p hp ⟨heq ▸ hw.1, heq ▸ hw.2⟩)

/-- A process goes on, the reader perhaps. -/
theorem Inv.proceed (hs : st.proceed clock = some st') : Inv reader st' := by
  have hidle := h.not_waits hcur hmem
  -- the reader itself does not wait, so that it may change its point and the buffer
  have hmove : ∀ {k : Keyboard} {point : ReadPoint} {interrupts : Bool},
      (point = .yielding → k.eventBuffer = []) →
      Inv reader ⟨st.sched, k, point, interrupts⟩ := fun hy =>
    ⟨h.part, h.only, fun _ hw => absurd hw hidle, hy⟩
  unfold TtyRun.proceed at hs
  split at hs
  · cases hs
    exact hmove (by simp)
  · next hpt =>
    unfold Keyboard.poll at hs
    cases hbuf : st.keyboard.eventBuffer with
    | nil =>
      simp only [hbuf] at hs
      cases hs
      exact hmove (fun _ => hbuf)
    | cons event rest =>
      simp only [hbuf] at hs
      split at hs <;> cases hs
      · exact hmove (by simp)
      · exact hmove (by simp [hpt])
  · next hpt =>
    obtain ⟨⟨s', e⟩, hy, rfl⟩ := map_eq_some_iff.mp hs
    exact h.yieldBlocked hcur hmem hpt hy

end

theorem Inv.next (hok : QuietGaps l st) (hs : next reader l st = some st') : Inv reader st' := by
  obtain ⟨op, clock⟩ := l
  cases op with
  | spawn p record =>
    simp only [TtyRun.next, ite_none_right_eq_some, some.injEq] at hs
    obtain ⟨⟨-, hp, hidle, hnew⟩, rfl⟩ := hs
    exact h.spawn hp hidle hnew
  | timer =>
    simp only [TtyRun.next, ite_none_right_eq_some] at hs
    obtain ⟨⟨s', e⟩, ht, rfl⟩ := map_eq_some_iff.mp hs.2
    exact h.timer ht
  | keyboard bytes =>
    simp only [TtyRun.next, ite_none_right_eq_some, some.injEq] at hs
    obtain ⟨-, rfl⟩ := hs
    exact h.keyboard hok
  | proceed =>
    simp only [TtyRun.next, ite_none_right_eq_some] at hs
    obtain ⟨⟨rfl, hidle⟩, hs⟩ := hs
    exact h.proceed rfl (h.part.member.resolve_left hidle) hs

end

/-- No key is lost in a run in which none arrives between an empty `poll` and `yield_blocked`. -/
theorem reachable_not_lostKey (h : (system reader).ReachableUnder QuietGaps st) :
    ¬ LostKey reader st := by
  refine Inv.not_lost (h.invariant ?_ (fun s s' l hs hok hn => hs.next hok hn))
  rintro s ⟨hsched, hk, -, -⟩
  have hnil := hsched.1
  exact ⟨Sched.partition_of_reachable (.start hsched), by simp [hnil], by simp [hnil], by simp [hk]⟩

def boot : TtyRun := ⟨idleMachine, {}, .outside, true⟩

theorem boot_init : (system reader).init boot := ⟨idleMachine_init, rfl, rfl, rfl⟩

/-- Process 1 blocks in `read`; the key A is pressed, and process 1 is resumed and takes the event.
-/
def keyPressed : List (TtyOp × (Nat → Word)) :=
  [(.spawn 1 (freshProcess 1), fun _ => 0), (.timer, fun _ => 0), (.proceed, fun _ => 0),
    (.proceed, fun _ => 0), (.proceed, fun _ => 0), (.keyboard [0x1E], fun _ => 0),
    (.timer, fun _ => 0), (.proceed, fun _ => 0)]

/-- Then the buffer is empty, the key is released, and process 1 blocks. -/
theorem released_lostKey : ∃ st, (system 1).Reachable st ∧ LostKey 1 st := by
  have hrun :
    ((system 1).exec (keyPressed ++ [(.proceed, fun _ => 0), (.keyboard [0x9E], fun _ => 0),
      (.proceed, fun _ => 0)]) boot).map (fun st => (st.sched.processes, (st.sched.procs 1).state,
        (st.sched.procs 1).waitReason, st.keyboard.eventBuffer.map KeyEvent.scancode)) =
      some ([1], .blocked, .keyboard, [0x1E]) := by decide
  obtain ⟨st, hst, heq⟩ := map_eq_some_iff.mp hrun
  simp only [Prod.mk.injEq] at heq
  obtain ⟨hlist, hb, hr, hbuf⟩ := heq
  refine ⟨st, .of_exec (.start boot_init) hst, by simp [hlist], ⟨hb, hr⟩, ?_⟩
  rintro hnil
  simp [hnil] at hbuf

/-- If the key is released before the buffer is found empty, process 1 takes both events. -/
theorem quiet_not_lostKey : ∃ st, (system 1).ReachableUnder QuietGaps st ∧ ¬ LostKey 1 st ∧
    WaitsForKey st.sched 1 := by
  have hrun : ((system 1).execUnder QuietGaps (keyPressed ++ [(.keyboard [0x9E], fun _ => 0),
      (.proceed, fun _ => 0), (.proceed, fun _ => 0), (.proceed, fun _ => 0)]) boot).map
      (fun st => ((st.sched.procs 1).state, (st.sched.procs 1).waitReason)) =
      some (.blocked, .keyboard) := by decide
  obtain ⟨st, hst, heq⟩ := map_eq_some_iff.mp hrun
  have hreach := System.ReachableUnder.of_execUnder (.start boot_init) hst
  exact ⟨st, hreach, reachable_not_lostKey hreach, (Prod.mk.inj heq).1, (Prod.mk.inj heq).2⟩

end TtyRun

end Hltos
