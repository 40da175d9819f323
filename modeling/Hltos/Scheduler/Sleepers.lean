import Hltos.Scheduler.Switched

/-!
# Sleeping and waking

`wake_sleepers` looks at the root of `g_sleepers` only, and stops at the first process that is not
due. That this wakes every due process rests on the heap order, which every pop restores.

The second half follows one sleeper. A process that is asleep, in no queue and not due keeps its
record through every call of the others (`Dozing`), so what decides when it is woken is the wake
time `sleep_for` computed. That sum, and the products of the callers above it, are taken modulo
`2^64`.
-/

namespace Hltos

open List Option

namespace Sched

open KMinHeap (Ordered)

/-! ## What `wake_sleepers` does -/

/-- `s'` is `s` with exactly the due sleepers `woken` moved to the ready queue, earliest first. -/
structure WokeDue (s : Sched) (now : Word) (woken : List ProcRef) (s' : Sched) : Prop where
  ready : s'.ready = s.ready ++ woken
  nodup : woken.Nodup
  mem : ∀ p, p ∈ woken ↔ p ∈ s.sleepers.values ∧ (s.procs p).wakeTimeNs ≤ now
  sorted : woken.Pairwise (fun p q => (s.procs p).wakeTimeNs ≤ (s.procs q).wakeTimeNs)
  woke : ∀ p ∈ woken, s'.procs p = (s.procs p).wake ∧ (s'.procs p).state = .ready
  kept : ∀ p, p ∉ woken → s'.procs p = s.procs p
  heap : s'.sleepers.toList.Perm (s.sleepers.toList.filter (fun n => now < n.key))
  ordered : Ordered s'.sleepers.array
  processes : s'.processes = s.processes
  cpu : s'.cpu = s.cpu

/-- What `wake_sleepers` relies on: the heap order, keys that repeat the wake times, and no
process entered twice. -/
structure SleepersOk (s : Sched) : Prop where
  ordered : Ordered s.sleepers.array
  key : ∀ n ∈ s.sleepers.toList, n.key = (s.procs n.value).wakeTimeNs
  nodup : s.sleepers.values.Nodup

variable {s s' : Sched} {now : Word} {p : ProcRef}

/-- Every sleeper is due no earlier than the root. -/
theorem SleepersOk.root_le (h : SleepersOk s) (hp : s.sleepers.peak = some p) {q : ProcRef}
    (hq : q ∈ s.sleepers.values) : (s.procs p).wakeTimeNs ≤ (s.procs q).wakeTimeNs := by
  obtain ⟨k, xs, hlist⟩ := KMinHeap.peak_eq_some hp
  obtain ⟨n, hn, rfl⟩ := mem_map.mp hq
  have hroot : s.sleepers.array[0]? = some ⟨k, p⟩ := by
    rw [← Array.getElem?_toList, show s.sleepers.array.toList = _ from hlist]
    rfl
  obtain ⟨j, hj, hget⟩ := mem_iff_getElem.mp hn
  have hnode : s.sleepers.array[j]? = some n := by
    rw [← Array.getElem?_toList]
    exact List.getElem?_eq_some_iff.mpr ⟨hj, hget⟩
  have hle := h.ordered.root_le (Array.getElem?_eq_some_iff.mp hnode).1 _ _ hroot hnode
  have hkey := h.key ⟨k, p⟩ (by rw [hlist]; exact mem_cons_self)
  rw [h.key n hn] at hle
  exact hkey ▸ hle

/-- The state after one round of the loop. -/
def wakeRoot (p : ProcRef) (s : Sched) : Sched :=
  { s.wakeProcess p with sleepers := s.sleepers.pop }

theorem wakeRoot_procs_of_ne {q : ProcRef} (h : q ≠ p) : (s.wakeRoot p).procs q = s.procs q :=
  wakeProcess_procs_of_ne s h

theorem wakeRoot_procs_self : (s.wakeRoot p).procs p = (s.procs p).wake := update_procs_self ..

/-- The root leaves the heap, and the rest is as it was. -/
theorem wakeRoot_sleepers (hp : s.sleepers.peak = some p) :
    ∃ k xs, s.sleepers.toList = ⟨k, p⟩ :: xs ∧ (s.wakeRoot p).sleepers.toList.Perm xs := by
  obtain ⟨k, xs, hlist⟩ := KMinHeap.peak_eq_some hp
  exact ⟨k, xs, hlist, KMinHeap.pop_perm hlist⟩

section

variable (h : SleepersOk s)

include h

theorem mem_values_wakeRoot (hp : s.sleepers.peak = some p) {q : ProcRef} :
    q ∈ (s.wakeRoot p).sleepers.values ↔ q ∈ s.sleepers.values ∧ q ≠ p := by
  obtain ⟨k, xs, hlist, hperm⟩ := wakeRoot_sleepers hp
  have hvals : s.sleepers.values = p :: xs.map HeapNode.value := by
    rw [KMinHeap.values, hlist, map_cons]
  have hnd := h.nodup
  rw [hvals, nodup_cons] at hnd
  rw [KMinHeap.values, (hperm.map _).mem_iff, hvals, mem_cons]
  constructor
  · intro hq
    refine ⟨.inr hq, ?_⟩
    rintro rfl
    exact hnd.1 hq
  · rintro ⟨hq, hne⟩
    exact hq.resolve_left hne

theorem SleepersOk.wakeRoot (hp : s.sleepers.peak = some p) : SleepersOk (s.wakeRoot p) := by
  obtain ⟨k, xs, hlist, hperm⟩ := wakeRoot_sleepers hp
  refine ⟨KMinHeap.pop_ordered h.ordered, ?_, ?_⟩
  · intro n hn
    have hmem := (mem_values_wakeRoot h hp).mp (Queued.value_mem hn)
    rw [wakeRoot_procs_of_ne hmem.2]
    apply h.key
    rw [hlist]
    exact mem_cons_of_mem _ (hperm.mem_iff.mp hn)
  · have hnd := h.nodup
    rw [KMinHeap.values, hlist, map_cons, nodup_cons] at hnd
    exact (hperm.map _).nodup_iff.mpr hnd.2

/-- When the root is not due, nobody is. -/
theorem SleepersOk.wokeNone
    (hdue : ∀ q ∈ s.sleepers.values, now < (s.procs q).wakeTimeNs) : WokeDue s now [] s := by
  refine ⟨(append_nil _).symm, nodup_nil, ?_, List.Pairwise.nil, ?_, fun _ _ => rfl, ?_,
    h.ordered, rfl, rfl⟩
  · intro q
    simp only [not_mem_nil, false_iff, not_and]
    intro hq hle
    exact absurd hle (Std.not_le.mpr (hdue q hq))
  · intro q hq
    cases hq
  · rw [filter_eq_self.mpr]
    intro n hn
    rw [h.key n hn]
    exact decide_eq_true (hdue _ (Queued.value_mem hn))

/-- A due root is the first to be woken. -/
theorem WokeDue.cons {woken : List ProcRef} (hp : s.sleepers.peak = some p)
    (hdue : (s.procs p).wakeTimeNs ≤ now) (hw : WokeDue (s.wakeRoot p) now woken s') :
    WokeDue s now (p :: woken) s' := by
  have hvals := fun q => mem_values_wakeRoot h hp (q := q)
  have hne : ∀ q ∈ woken, q ≠ p := fun q hq => ((hvals q).mp ((hw.mem q).mp hq).1).2
  have hpmem : p ∈ s.sleepers.values := by
    obtain ⟨k, xs, hlist⟩ := KMinHeap.peak_eq_some hp
    rw [KMinHeap.values, hlist]
    exact mem_cons_self
  refine ⟨?_, ?_, ?_, ?_, ?_, ?_, ?_, hw.ordered, hw.processes, hw.cpu⟩
  · rw [hw.ready]
    exact append_assoc s.ready [p] woken
  · exact nodup_cons.mpr ⟨fun hm => hne p hm rfl, hw.nodup⟩
  · intro q
    rw [mem_cons, hw.mem, hvals]
    by_cases hqp : q = p
    · subst hqp
      simp [hpmem, hdue]
    · rw [wakeRoot_procs_of_ne hqp]
      simp [hqp]
  · refine pairwise_cons.mpr ⟨?_, ?_⟩
    · intro q hq
      exact h.root_le hp ((hvals q).mp ((hw.mem q).mp hq).1).1
    · refine hw.sorted.imp_of_mem ?_
      intro q r hq hr hle
      rwa [wakeRoot_procs_of_ne (hne q hq), wakeRoot_procs_of_ne (hne r hr)] at hle
  · intro q hq
    rcases mem_cons.mp hq with rfl | hq
    · rw [hw.kept q (fun hm => hne q hm rfl), wakeRoot_procs_self]
      exact ⟨rfl, rfl⟩
    · rw [← wakeRoot_procs_of_ne (s := s) (hne q hq)]
      exact hw.woke q hq
  · intro q hq
    rw [mem_cons, not_or] at hq
    rw [hw.kept q hq.2, wakeRoot_procs_of_ne hq.1]
  · obtain ⟨k, xs, hlist, hperm⟩ := wakeRoot_sleepers hp
    have hkey := h.key ⟨k, p⟩ (by rw [hlist]; exact mem_cons_self)
    refine hw.heap.trans ((hperm.filter _).trans ?_)
    rw [hlist, filter_cons_of_neg]
    rw [hkey]
    simpa using hdue

end

/-- The loop, by induction on the size of the heap. -/
theorem wakeSleepersLoop_wokeDue (now : Word) :
    ∀ (n : Nat) {s : Sched}, s.sleepers.size = n → SleepersOk s →
      ∃ woken, WokeDue s now woken (wakeSleepersLoop now n s)
  | 0, s, hn, h => by
    refine ⟨[], h.wokeNone ?_⟩
    intro q hq
    rw [KMinHeap.values, KMinHeap.toList, Array.eq_empty_of_size_eq_zero hn] at hq
    cases hq
  | n + 1, s, hn, h => by
    unfold wakeSleepersLoop
    split
    · next hnone =>
      refine ⟨[], h.wokeNone ?_⟩
      intro q hq
      rw [KMinHeap.values, KMinHeap.peak_eq_none hnone] at hq
      cases hq
    · next p hp =>
      split
      · next hlt => exact ⟨[], h.wokeNone (fun q hq => Std.lt_of_lt_of_le hlt (h.root_le hp hq))⟩
      · next hle =>
        obtain ⟨k, xs, hlist, hperm⟩ := wakeRoot_sleepers hp
        have hsize : (s.wakeRoot p).sleepers.size = n := by
          have hl := congrArg List.length hlist
          rw [length_cons, ← hperm.length_eq] at hl
          exact Nat.succ.inj (hl.symm.trans hn)
        obtain ⟨woken, hw⟩ := wakeSleepersLoop_wokeDue now n hsize (h.wakeRoot hp)
        exact ⟨p :: woken, hw.cons h hp (Std.not_lt.mp hle)⟩

/-- **The due sleepers are woken exactly**: whatever the heap holds and whatever the clock says,
the ready queue grows by the due processes, each once and in the order of their wake times, and
the heap keeps the others in heap order. -/
theorem wakeSleepers_wokeDue (h : SleepersOk s) (now : Word) :
    ∃ woken, WokeDue s now woken (s.wakeSleepers now) :=
  wakeSleepersLoop_wokeDue now _ rfl h

/-- Three sleepers, due at 3, 7 and 5. -/
def threeSleepers : Sched :=
  { idleMachine with
    procs := fun p => { freshProcess p with
      state := .sleeping, wakeTimeNs := if p = 1 then 3 else if p = 2 then 7 else 5 }
    processes := [1, 2, 3]
    sleepers := ⟨#[⟨3, 1⟩, ⟨7, 2⟩, ⟨5, 3⟩]⟩ }

theorem threeSleepers_ok : SleepersOk threeSleepers := by
  refine ⟨?_, by decide, by decide⟩
  intro i j hj x y hx hy
  have hlt := hj.lt
  obtain ⟨hsize, hy⟩ := Array.getElem?_eq_some_iff.mp hy
  have hj3 : j < 3 := hsize
  obtain rfl : i = 0 := by
    unfold KMinHeap.IsChild KMinHeap.getLeft KMinHeap.getRight at hj
    omega
  cases hx
  have hcases : j = 1 ∨ j = 2 := by omega
  rcases hcases with rfl | rfl
  · cases hy
    exact show (3 : Word) ≤ 7 by decide
  · cases hy
    exact show (3 : Word) ≤ 5 by decide

theorem threeSleepers_wokeDue :
    (∃ woken, WokeDue threeSleepers 5 woken (threeSleepers.wakeSleepers 5)) ∧
      (threeSleepers.wakeSleepers 5).ready = [1, 3] :=
  ⟨wakeSleepers_wokeDue threeSleepers_ok 5, by decide +kernel⟩

/-! ## A process that is not due sleeps on -/

/-- `q` is listed, waits in no queue, and its record is `r`. -/
structure Dozing (q : ProcRef) (r : Process) (s : Sched) : Prop where
  record : s.procs q = r
  listed : q ∈ s.processes
  notReady : q ∉ s.ready
  notIdle : q ≠ s.cpu.idleProcess

namespace Dozing

variable {q : ProcRef} {r : Process} {clock : Nat → Word} {e : Exit}

section

variable (h : Dozing q r s) (hne : q ≠ p)

include h hne

theorem update (f : Process → Process) : Dozing q r (s.update p f) :=
  ⟨(update_procs_of_ne f s hne).trans h.record, h.listed, h.notReady, h.notIdle⟩

theorem enqueue : Dozing q r (s.enqueue p) := by
  refine ⟨h.record, h.listed, ?_, h.notIdle⟩
  rw [enqueue_ready, mem_append, mem_singleton, not_or]
  exact ⟨h.notReady, hne⟩

theorem wakeProcess : Dozing q r (s.wakeProcess p) := (h.update hne _).enqueue hne

theorem activateProcess (ha : s.activateProcess now p = some s') :
    Dozing q r s' ∧ q ≠ s'.cpu.process := by
  unfold Sched.activateProcess at ha
  split at ha
  · cases ha
    have hu := h.update hne (Process.activate now)
    exact ⟨⟨hu.record, hu.listed, hu.notReady, hu.notIdle⟩, hne⟩
  · cases ha

end

/-- Nobody looks at a sleeping process when waking blocked ones, and `wake_sleepers` compares the
wake time in the record, so it stops at `q` or before. -/
theorem wakes (q : ProcRef) (hr : r.state = .sleeping) :
    Wakes { t | t < r.wakeTimeNs } (fun s s' => Dozing q r s → Dozing q r s') where
  refl _ := id
  trans h h' hs := h' (h hs)
  sleepers _ _ h := ⟨h.record, h.listed, h.notReady, h.notIdle⟩
  blocked s p hb h := by
    apply h.wakeProcess
    rintro rfl
    rw [h.record, Process.isBlocked, hr] at hb
    exact absurd hb (by simp)
  due s p now hnow hdue h := by
    apply h.wakeProcess
    rintro rfl
    rw [h.record] at hdue
    exact hdue hnow

section

variable (h : Dozing q r s) (hr : r.state = .sleeping) (hnow : now < r.wakeTimeNs)

include h hr hnow

theorem wakeSleepers : Dozing q r (s.wakeSleepers now) := (wakes q hr).wakeSleepers hnow s h

theorem pickNextProcess : Dozing q r (s.pickNextProcess now).2 ∧ q ≠ (s.pickNextProcess now).1 := by
  have hw := h.wakeSleepers hr hnow
  unfold Sched.pickNextProcess Sched.pickNext
  cases hready : (s.wakeSleepers now).ready with
  | nil => exact ⟨hw, hw.notIdle⟩
  | cons p rest =>
    have hnot := hw.notReady
    rw [hready, mem_cons, not_or] at hnot
    exact ⟨⟨hw.record, hw.listed, hnot.2, hw.notIdle⟩, hnot.1⟩

end

/-- Unless `q` is current, what a call does to the records concerns others. -/
theorem respects (q : ProcRef) (hr : r.state = .sleeping) :
    Respects { t | t < r.wakeTimeNs } (fun s s' => Dozing q r s ∧ q ≠ s.cpu.process →
      Dozing q r s' ∧ q ≠ s'.cpu.process) where
  refl _ := id
  trans h h' hs := h' (h hs)
  sleepers s sleepers h := ⟨(wakes q hr).sleepers s sleepers h.1, h.2⟩
  blocked s p hb h := ⟨(wakes q hr).blocked s p hb h.1, h.2⟩
  due s p now hnow hdue h := ⟨(wakes q hr).due s p now hnow hdue h.1, h.2⟩
  method _ f _ h := ⟨h.1.update h.2 f, h.2⟩
  killZombie s p hz h := by
    refine ⟨h.1.update ?_ _, h.2⟩
    rintro rfl
    rw [h.1.record, Process.isZombie, hr] at hz
    exact absurd hz (by simp)
  enqueue _ h := ⟨h.1.enqueue h.2, h.2⟩
  dequeue s p rest hready h := by
    have hnot := h.1.notReady
    rw [hready, mem_cons, not_or] at hnot
    exact ⟨⟨h.1.record, h.1.listed, hnot.2, h.1.notIdle⟩, h.2⟩
  activate hp h ha hs := by
    apply (h hs).1.activateProcess _ ha
    rintro rfl
    exact hp.elim hs.1.notReady hs.1.notIdle

/-- **A call leaves a sleeper alone** that is not current and not due at any of its clock
readings. -/
theorem call {c : Call} (h : Dozing q r s) (hcur : q ≠ s.cpu.process) (hr : r.state = .sleeping)
    (hclock : ∀ k, clock k < r.wakeTimeNs) (hs : s.call c clock = some s') :
    Dozing q r s' ∧ q ≠ s'.cpu.process := by
  cases c with
  | addProcess p record =>
    simp only [Sched.call] at hs
    split at hs
    · next hok =>
      cases hs
      have hne : q ≠ p := fun hqp => hok.1 (hqp ▸ h.listed)
      have hu := h.update hne (fun _ => record)
      have hl : Dozing q r { s.update p (fun _ => record) with processes := s.processes ++ [p] } :=
        ⟨hu.record, mem_append_left _ hu.listed, hu.notReady, hu.notIdle⟩
      exact ⟨hl.enqueue hne, hcur⟩
    · cases hs
  | exec image =>
    obtain ⟨-, e, ht⟩ := byCurrent_eq_some hs
    exact ((respects q hr).yieldNewProcess hclock ht).1 ⟨h.update hcur _, hcur⟩
  | reap =>
    simp only [Sched.call, Sched.reap] at hs
    split at hs
    · cases hs
    · cases hs
      refine ⟨⟨h.record, ?_, h.notReady, h.notIdle⟩, hcur⟩
      refine mem_filter.mpr ⟨h.listed, ?_⟩
      rw [h.record, Process.isDead, hr]
      rfl
  | _ => exact (respects q hr).call (fun _ f _ h => ⟨h.1.update h.2 f, h.2⟩) hclock rfl hs ⟨h, hcur⟩

end Dozing

/-! ## The sleeping calls -/

def yieldSleepUs (durationUs : Word) (clock : Nat → Word) (s : Sched) : Option (Sched × Exit) :=
  s.yieldSleepNs (durationUs * 1000) clock

def yieldSleepMs (durationMs : Word) (clock : Nat → Word) (s : Sched) : Option (Sched × Exit) :=
  s.yieldSleepUs (durationMs * 1000) clock

/-- `sys_sleep_ns`, up to the `return 0` that follows once the process runs again. -/
def sysSleepNs (ns : Word) (clock : Nat → Word) (s : Sched) : Option (Sched × Exit) :=
  s.yieldSleepNs ns clock

/-- The calls by which a process goes to sleep for a duration. -/
inductive SleepCall where
  | yieldSleepNs (duration : Word)
  | yieldSleepUs (duration : Word)
  | yieldSleepMs (duration : Word)
  | sysSleepNs (duration : Word)
  deriving DecidableEq, Repr

namespace SleepCall

def run (clock : Nat → Word) (s : Sched) : SleepCall → Option (Sched × Exit)
  | .yieldSleepNs d => s.yieldSleepNs d clock
  | .yieldSleepUs d => s.yieldSleepUs d clock
  | .yieldSleepMs d => s.yieldSleepMs d clock
  | .sysSleepNs d => s.sysSleepNs d clock

/-- The duration asked for, in nanoseconds. -/
def requestedNs : SleepCall → Nat
  | .yieldSleepNs d | .sysSleepNs d => d.toNat
  | .yieldSleepUs d => d.toNat * 1000
  | .yieldSleepMs d => d.toNat * 1000000

/-- The first instant at which the sleep is over, the call having read `now`. -/
def due (now : Word) (c : SleepCall) : Nat := now.toNat + c.requestedNs

/-- The duration that arrives in `sleep_for`. -/
def passedNs : SleepCall → Word
  | .yieldSleepNs d | .sysSleepNs d => d
  | .yieldSleepUs d => d * 1000
  | .yieldSleepMs d => d * 1000 * 1000

theorem run_eq (c : SleepCall) (clock : Nat → Word) (s : Sched) :
    c.run clock s = s.yieldSleepNs c.passedNs clock := by
  cases c <;> rfl

theorem toNat_passedNs (c : SleepCall) : c.passedNs.toNat = c.requestedNs % 2 ^ 64 := by
  cases c with
  | yieldSleepNs d => exact (Nat.mod_eq_of_lt d.isLt).symm
  | sysSleepNs d => exact (Nat.mod_eq_of_lt d.isLt).symm
  | yieldSleepUs d => exact BitVec.toNat_mul d 1000
  | yieldSleepMs d =>
    show (d * 1000 * 1000).toNat = d.toNat * 1000000 % 2 ^ 64
    rw [BitVec.toNat_mul, BitVec.toNat_mul, show (1000 : Word).toNat = 1000 from rfl]
    omega

/-- Without a wrap, the wake time is the instant at which the sleep is over. -/
theorem toNat_wakeTime {c : SleepCall} {now : Word} (h : c.due now < 2 ^ 64) :
    (now + c.passedNs).toNat = c.due now := by
  unfold due at h ⊢
  rw [BitVec.toNat_add, toNat_passedNs]
  omega

end SleepCall

/-- The scheduler from a given state on. -/
def systemFrom (s : Sched) : Lib.Transition.System Sched (Call × (Nat → Word)) where
  init t := t = s
  next l t := t.call l.1 l.2

/-- Every clock reading of the call is before `due`. -/
def ReadsBefore (due : Nat) (l : Call × (Nat → Word)) (_ : Sched) : Prop :=
  ∀ k, (l.2 k).toNat < due

/-- The sleep is not cut short. As long as every clock reading is before the end of the sleep, be it
the one in the call itself or one in a later call, `p` is asleep and `wake_sleepers` would leave it
so. -/
def SleepsOut (p : ProcRef) (due : Nat) (reading : Word) (s' : Sched) : Prop :=
  reading.toNat < due → ∀ t, (systemFrom s').ReachableUnder (ReadsBefore due) t →
    (t.procs p).state = .sleeping ∧
      ∀ now : Word, now.toNat < due → ((t.wakeSleepers now).procs p).state = .sleeping

variable {clock : Nat → Word} {e : Exit} {c : SleepCall}

/-- The call puts the current process to sleep, if it is not due at once. -/
theorem Partition.dozing_of_yieldSleepNs {duration : Word} (h : Partition s)
    (hidle : s.cpu.process ≠ s.cpu.idleProcess) (hlt : clock 1 < clock 0 + duration)
    (hs : s.yieldSleepNs duration clock = some (s', e)) :
    ∃ r, r.state = .sleeping ∧ r.wakeTimeNs = clock 0 + duration ∧
      Dozing s.cpu.process r s' ∧ s.cpu.process ≠ s'.cpu.process := by
  let r := ((s.procs s.cpu.process).sleepFor (clock 0) duration).waitFor .sleep
  have hwait : Dozing s.cpu.process r ((s.beginSleep duration (clock 0)).beginWait .sleep) := by
    refine ⟨?_, h.member.resolve_left hidle, h.queued.not_mem_ready rfl, hidle⟩
    show (((s.beginSleep duration (clock 0)).update s.cpu.process _).procs s.cpu.process) = r
    rw [update_procs_self, beginSleep, update_procs_self]
  have hnow := hlt
  refine ⟨r, rfl, rfl, ?_⟩
  obtain ⟨hp, hne⟩ := hwait.pickNextProcess rfl hnow
  replace hs := (if_neg hne).symm.trans hs
  obtain ⟨s1, ha, hs⟩ := map_eq_some_iff.mp hs
  cases hs
  exact hp.activateProcess hne ha

/-- What a run of later calls preserves. -/
theorem Dozing.sleepsOn {q : ProcRef} {r : Process} {t : Sched} (h : Dozing q r s)
    (hcur : q ≠ s.cpu.process) (hr : r.state = .sleeping)
    (ht : (systemFrom s).ReachableUnder (ReadsBefore r.wakeTimeNs.toNat) t) :
    Dozing q r t ∧ q ≠ t.cpu.process := by
  refine ht.invariant (I := fun t => Dozing q r t ∧ q ≠ t.cpu.process) ?_ ?_
  · rintro _ rfl
    exact ⟨h, hcur⟩
  · rintro t t' l ⟨hd, hne⟩ hread hnext
    exact hd.call hne hr (fun k => BitVec.lt_def.mpr (hread k)) hnext

/-- At the last instant of the clock everybody is due, and the heap is emptied. -/
theorem wakeSleepersLoop_last : ∀ (n : Nat) {s : Sched}, s.sleepers.size = n →
      (wakeSleepersLoop (BitVec.allOnes 64) n s).sleepers.toList = []
  | 0, s, hn => by
    unfold wakeSleepersLoop
    rw [KMinHeap.toList, Array.eq_empty_of_size_eq_zero hn]
  | n + 1, s, hn => by
    unfold wakeSleepersLoop
    split
    · next hnone => exact KMinHeap.peak_eq_none hnone
    · next p hp =>
      have hdue : ¬ BitVec.allOnes 64 < (s.procs p).wakeTimeNs := by
        rw [BitVec.lt_def, BitVec.toNat_allOnes]
        omega
      rw [if_neg hdue]
      obtain ⟨k, xs, hlist, hperm⟩ := wakeRoot_sleepers hp
      have hl := congrArg List.length hlist
      rw [length_cons, ← hperm.length_eq] at hl
      exact wakeSleepersLoop_last n (Nat.succ.inj (hl.symm.trans hn))

theorem Partition.wakes_at_last (h : Partition s) (hp : p ∈ s.processes)
    (hcur : p ≠ s.cpu.process) :
    ((s.wakeSleepers (BitVec.allOnes 64)).procs p).state ≠ .sleeping := by
  obtain ⟨hq, hproc, -, -⟩ := wakeSleepers_spec (BitVec.allOnes 64) h.queued
  intro hst
  have hmem := (hq.memSleepers p).mpr ⟨hproc ▸ hp, hcur, hst⟩
  rw [KMinHeap.values, wakeSleepers, wakeSleepersLoop_last _ rfl] at hmem
  cases hmem

/-- **A sleep is never cut short, as long as it ends before the clock wraps.** The wake time is
computed modulo `2^64`, so a sleep that would end later is over at once or much too early. -/
theorem sleepCall_sleepsOut_iff (h : system.Reachable s)
    (hidle : s.cpu.process ≠ s.cpu.idleProcess) (hs : c.run clock s = some (s', e)) :
    SleepsOut s.cpu.process (c.due (clock 0)) (clock 1) s' ↔ c.due (clock 0) < 2 ^ 64 := by
  have hpart := partition_of_reachable h
  rw [SleepCall.run_eq] at hs
  constructor
  · intro hout
    by_contra hge
    have hlt : ∀ w : Word, w.toNat < c.due (clock 0) := fun w => by
      have := w.isLt
      omega
    obtain ⟨hst, hwake⟩ := hout (hlt _) s' (.start rfl)
    have hcall : s.call (.yieldSleepNs c.passedNs) clock = some s' := by
      simp [Sched.call, Sched.byCurrent, if_neg hidle, hs]
    have hpart' := hpart.call hcall
    have hlisted : s.cpu.process ∈ s'.processes := by
      rw [(yieldBlocked_spec hs).1.processes, beginWait_processes]
      exact hpart.member.resolve_left hidle
    have hcur : s.cpu.process ≠ s'.cpu.process := by
      intro heq
      have hrun := (hpart'.running_iff hlisted).mpr heq
      rw [hst] at hrun
      cases hrun
    exact hpart'.wakes_at_last hlisted hcur (hwake _ (hlt _))
  · intro hlt hread t ht
    have hdue := SleepCall.toNat_wakeTime hlt
    have hbefore : ∀ w : Word, w.toNat < c.due (clock 0) → w < clock 0 + c.passedNs := by
      intro w hw
      rw [BitVec.lt_def, hdue]
      exact hw
    obtain ⟨r, hr, hwt, hd, hcur⟩ := hpart.dozing_of_yieldSleepNs hidle (hbefore _ hread) hs
    have hdue' : r.wakeTimeNs.toNat = c.due (clock 0) := by rw [hwt, hdue]
    rw [← hdue'] at ht
    obtain ⟨hd', -⟩ := hd.sleepsOn hcur hr ht
    refine ⟨by rw [hd'.record, hr], ?_⟩
    intro now hnow
    have hnow' : now < r.wakeTimeNs := by
      rw [hwt]
      exact hbefore now hnow
    rw [(hd'.wakeSleepers hr hnow').record, hr]

/-- Process 1 runs and process 2 is ready. -/
def firstRuns : Sched :=
  (system.exec [(.addProcess 1 (freshProcess 1), fun _ => 0),
    (.addProcess 2 (freshProcess 2), fun _ => 0), (.tick, fun _ => 0)]
    idleMachine).getD idleMachine

theorem firstRuns_reachable : system.Reachable firstRuns := by
  have hrun : (system.exec
      [(.addProcess 1 (freshProcess 1), fun _ => 0), (.addProcess 2 (freshProcess 2), fun _ => 0),
        (.tick, fun _ => 0)]
      idleMachine).isSome = true := by decide
  obtain ⟨s, hs⟩ := isSome_iff_exists.mp hrun
  rw [firstRuns, hs]
  exact Lib.Transition.System.Reachable.of_exec (.start idleMachine_init) hs

theorem fiveMs_sleepsOut :
    ∃ s' e, (SleepCall.yieldSleepMs 5).run (fun _ => 1) firstRuns = some (s', e) ∧
      SleepsOut firstRuns.cpu.process 5000001 1 s' := by
  have hrun : ((SleepCall.yieldSleepMs 5).run (fun _ => 1) firstRuns).isSome = true := by
    decide +kernel
  obtain ⟨⟨s', e⟩, hs⟩ := isSome_iff_exists.mp hrun
  exact ⟨s', e, hs,
    (sleepCall_sleepsOut_iff firstRuns_reachable (by decide) hs).mpr (by decide)⟩

/-- A sleep of `2^64 - 1` nanoseconds, begun at instant 1, is over at once: the wake time is 0. -/
theorem longestSleep_cutShort :
    ∃ s' e, (SleepCall.sysSleepNs (BitVec.allOnes 64)).run (fun _ => 1) firstRuns = some (s', e) ∧
      (s'.procs 1).state = .ready ∧ firstRuns.cpu.process = 1 ∧
      ¬ SleepsOut 1 ((SleepCall.sysSleepNs (BitVec.allOnes 64)).due 1) 1 s' := by
  have hrun : ((SleepCall.sysSleepNs (BitVec.allOnes 64)).run (fun _ => 1) firstRuns).map
      (fun r => (r.1.procs 1).state) = some .ready := by decide +kernel
  obtain ⟨⟨s', e⟩, hs, hready⟩ := map_eq_some_iff.mp hrun
  refine ⟨s', e, hs, hready, by decide, ?_⟩
  intro hout
  have hasleep := (hout (by decide) s' (.start rfl)).1
  rw [hready] at hasleep
  cases hasleep

end Sched

end Hltos
