import Hltos.Drivers.Keyboard
import Hltos.Lib.Transition

/-!
# The modifier flags and the keys that are held

`update_modifiers` has one flag for both keys of a kind and sets it to what the last of them did. It
also toggles Caps Lock with each make code. So the flags agree with the keys as long as no modifier
is released while its twin is held, and Caps Lock is not held until it repeats.
-/

namespace Hltos

open Lib.Transition Function

/-- A physical key. No key has the code whose release would be the prefix. -/
structure Key where
  extended : Bool
  code : Byte
  isCode : code < releaseMask ∧ code ||| releaseMask ≠ extendedPrefix
deriving DecidableEq

namespace Key

def leftShift : Key := ⟨false, ScanCode.leftShift, by decide⟩
def rightShift : Key := ⟨false, ScanCode.rightShift, by decide⟩
def leftCtrl : Key := ⟨false, ScanCode.leftCtrl, by decide⟩
def rightCtrl : Key := ⟨true, ExtendedScanCode.rightCtrl, by decide⟩
def leftAlt : Key := ⟨false, ScanCode.leftAlt, by decide⟩
def rightAlt : Key := ⟨true, ExtendedScanCode.rightAlt, by decide⟩
def capsLock : Key := ⟨false, ScanCode.capsLock, by decide⟩

/-- The bytes of a press or a release. -/
def bytes (key : Key) (released : Bool) : List Byte :=
  (if key.extended then [extendedPrefix] else []) ++
    [if released then key.code ||| releaseMask else key.code]

end Key

/-- The keyboard, with the keys that are held and what the presses of Caps Lock amount to. -/
structure Typing where
  keyboard : Keyboard := {}
  held : Key → Bool := fun _ => false
  capsOn : Bool := false

inductive KeyChange
  | press (key : Key)
  | release (key : Key)

/-- A key is pressed, or repeats; a key that is held is released. -/
def KeyChange.next : KeyChange → Typing → Option Typing
  | press key, t => some {
      keyboard := t.keyboard.handleScancodes (key.bytes false)
      held := update t.held key true
      capsOn := t.capsOn ^^ (key = Key.capsLock && !t.held key) }
  | release key, t =>
    if t.held key then some { t with
      keyboard := t.keyboard.handleScancodes (key.bytes true)
      held := update t.held key false }
    else none

def typing : System Typing KeyChange := ⟨(· = {}), KeyChange.next⟩

/-- The keys that share a flag. -/
def sharing : List (Key × Key) :=
  [(.leftShift, .rightShift), (.leftCtrl, .rightCtrl), (.leftAlt, .rightAlt)]

/-- Where the flags go on agreeing with the keys. -/
def KeyChange.Ok : KeyChange → Typing → Prop
  | press key, t => key = .capsLock → t.held key = false
  | release key, t => ∀ pair ∈ sharing,
    (key = pair.1 → t.held pair.2 = false) ∧ (key = pair.2 → t.held pair.1 = false)

def Keyboard.flags (k : Keyboard) : Bool × Bool × Bool × Bool :=
  (k.shiftHeld, k.controlHeld, k.altHeld, k.capsLock)

def KeyEvent.flags (e : KeyEvent) : Bool × Bool × Bool × Bool :=
  (e.shiftHeld, e.controlHeld, e.altHeld, e.capsLockOn)

namespace Typing

open Key

/-- The flags that the keys call for. -/
def flags (t : Typing) : Bool × Bool × Bool × Bool :=
  (t.held leftShift || t.held rightShift, t.held leftCtrl || t.held rightCtrl,
    t.held leftAlt || t.held rightAlt, t.capsOn)

/-- The event of the last byte has these flags. -/
def Shows (t : Typing) : Prop := ∀ e ∈ t.keyboard.eventBuffer.getLast?, e.flags = t.flags

variable {t t' : Typing} (key : Key) (released : Bool)

theorem byte_spec : ∀ c : Byte, c < releaseMask ∧ c ||| releaseMask ≠ extendedPrefix →
    ∀ released : Bool, (if released then c ||| releaseMask else c) ≠ extendedPrefix ∧
      (if released then c ||| releaseMask else c) &&& ~~~releaseMask = c ∧
      ((if released then c ||| releaseMask else c) &&& releaseMask != 0) = released := by
  decide +kernel

theorem updateModifiers_flags (k : Keyboard) :
    (k.updateModifiers (if key.extended then ScanCode.nil else key.code)
      (if key.extended then key.code else ExtendedScanCode.nil) released).flags =
      (if key = leftShift ∨ key = rightShift then !released else k.shiftHeld,
        if key = leftCtrl ∨ key = rightCtrl then !released else k.controlHeld,
        if key = leftAlt ∨ key = rightAlt then !released else k.altHeld,
        if key = capsLock then k.capsLock ^^ !released else k.capsLock) := by
  obtain ⟨extended, code, hcode⟩ := key
  simp only [Keyboard.updateModifiers, Keyboard.flags, leftShift, rightShift,
    leftCtrl, rightCtrl, leftAlt,
    rightAlt, capsLock, Key.mk.injEq, ScanCode.nil, ScanCode.leftShift, ScanCode.rightShift,
    ScanCode.leftCtrl, ScanCode.leftAlt, ScanCode.capsLock, ExtendedScanCode.nil,
    ExtendedScanCode.rightCtrl, ExtendedScanCode.rightAlt]
  cases extended <;> simp <;> split_ifs <;> simp_all

/-- A key makes one event, with the flags that it leaves. -/
theorem handle_eq {k : Keyboard} (hk : k.extendedPending = false) :
    k.handleScancodes (key.bytes released) =
      let scancode := if key.extended then ScanCode.nil else key.code
      let extended := if key.extended then key.code else ExtendedScanCode.nil
      let k' := k.updateModifiers scancode extended released
      k'.pushEvent ⟨scancode, extended, released, k'.shiftHeld, k'.controlHeld,
        k'.altHeld, k'.capsLock⟩ := by
  obtain ⟨extended, code, hcode⟩ := key
  obtain ⟨hfirst, hdecode, hreleased⟩ := byte_spec code hcode released
  have hself : { k with extendedPending := false } = k := by rw [← hk]
  cases extended with
  | true =>
    show Keyboard.handleScancode { k with extendedPending := true } _ = _
    simp only [Keyboard.handleScancode, if_neg hfirst, Keyboard.decode, hdecode,
      hreleased, if_true, hself]
  | false =>
    show k.handleScancode _ = _
    simp only [Keyboard.handleScancode, if_neg hfirst, Keyboard.decode, hdecode,
      hreleased, hk, hself, Bool.false_eq_true, if_false]

theorem updateModifiers_pending (scancode extended : Byte) (k : Keyboard) :
    (k.updateModifiers scancode extended released).extendedPending = k.extendedPending := by
  simp only [Keyboard.updateModifiers]
  split_ifs <;> rfl

/-- The flags of the keyboard are those that the keys call for. -/
structure Inv (t : Typing) : Prop where
  pending : t.keyboard.extendedPending = false
  flags : t.keyboard.flags = t.flags

/-- The flag of two keys after one of them changed. -/
theorem shared_iff {a b key : Key} (hab : a ≠ b) (held : Key → Bool) (down : Bool) :
    (if key = a ∨ key = b then down else held a || held b) =
      (update held key down a || update held key down b) ↔
    down = true ∨ (key = a → held b = false) ∧ (key = b → held a = false) := by
  by_cases ha : key = a
  · subst ha
    cases down <;> simp [hab.symm, hab]
  · by_cases hb : key = b
    · subst hb
      cases down <;> simp [hab, ha]
    · simp [ha, hb, Ne.symm ha, Ne.symm hb]

/-- One press or release: whether the flags agree depends on the twin of the key, and on Caps Lock.
-/
theorem change_spec (h : t.Inv)
    (hkey : t'.keyboard = t.keyboard.handleScancodes (key.bytes released))
    (hheld : t'.held = update t.held key (!released)) : (t'.Shows ↔ t'.Inv) ∧ (t'.Inv ↔
      ((!released) = true ∨ ∀ pair ∈ sharing, (key = pair.1 → t.held pair.2 = false) ∧
        (key = pair.2 → t.held pair.1 = false)) ∧
      (if key = capsLock then t.capsOn ^^ !released else t.capsOn) = t'.capsOn) := by
  rw [handle_eq key released h.pending] at hkey
  have hpending : t'.keyboard.extendedPending = false := by
    rw [hkey]
    exact (updateModifiers_pending ..).trans h.pending
  have hflags : t'.keyboard.flags = _ := (congrArg Keyboard.flags hkey).trans
    (updateModifiers_flags key released t.keyboard)
  constructor
  · rw [Shows, hkey]
    simp only [Keyboard.pushEvent, List.getLast?_concat, Option.mem_def,
      Option.some.injEq, forall_eq']
    refine ⟨fun heq => ⟨hpending, ?_⟩, fun hinv => ?_⟩
    · rwa [hkey]
    · have heq := hinv.flags
      rwa [hkey] at heq
  · have hold := h.flags
    simp only [Keyboard.flags, Typing.flags, Prod.mk.injEq] at hold
    obtain ⟨hshift, hctrl, halt, hcaps⟩ := hold
    have hiff : t'.Inv ↔ t'.keyboard.flags = t'.flags := ⟨Inv.flags, fun heq => ⟨hpending, heq⟩⟩
    rw [hiff, hflags, Typing.flags, hheld, hshift, hctrl, halt, hcaps]
    simp only [Prod.mk.injEq, shared_iff (show leftShift ≠ rightShift by decide),
      shared_iff (show leftCtrl ≠ rightCtrl by decide),
        shared_iff (show leftAlt ≠ rightAlt by decide),
      sharing, List.forall_mem_cons, List.not_mem_nil, false_implies, implies_true, and_true]
    grind

theorem next_spec {c : KeyChange} (h : t.Inv) (hs : c.next t = some t') :
    (t'.Shows ↔ t'.Inv) ∧ (t'.Inv ↔ c.Ok t) := by
  cases c with
  | press key =>
    obtain rfl := Option.some.inj hs
    refine (change_spec key false h rfl rfl).imp id fun hinv => hinv.trans ?_
    by_cases hkey : key = capsLock
    · cases t.capsOn <;> simp [KeyChange.Ok, hkey]
    · simp [KeyChange.Ok, hkey]
  | release key =>
    obtain ⟨-, hs⟩ := Option.ite_none_right_eq_some.mp hs
    obtain rfl := Option.some.inj hs
    refine (change_spec key true h rfl rfl).imp id fun hinv => hinv.trans ?_
    simp [KeyChange.Ok]

/-- **When the flags are the keys that are held**: in a run in which no modifier is released before
its twin and Caps Lock does not repeat, every event has the flags of the keys, and the first change
that is not of this kind makes one that has not. -/
theorem shows_iff_ok {c : KeyChange} (h : typing.ReachableUnder KeyChange.Ok t)
    (hs : typing.next c t = some t') : t'.Shows ↔ c.Ok t := by
  have hinv : t.Inv := by
    refine h.invariant ?_ fun s s' c hs hok hnext => (next_spec hs hnext).2.mpr hok
    rintro _ rfl
    exact ⟨rfl, rfl⟩
  exact (next_spec hinv hs).1.trans (next_spec hinv hs).2

/-- Both shift keys are pressed. -/
theorem pressBoth_shows : ∃ t, typing.exec [.press leftShift, .press rightShift] {} = some t ∧
    t.held leftShift = true ∧ t.held rightShift = true ∧ t.Shows := by
  have hleft : typing.ReachableUnder KeyChange.Ok _ :=
    .tail (l := .press leftShift) (.start rfl) (fun hcaps => absurd hcaps (by decide)) rfl
  exact ⟨_, rfl, rfl, rfl, (shows_iff_ok (c := .press rightShift) hleft rfl).mpr fun hcaps =>
    absurd hcaps (by decide)⟩

/-- Both shift keys are pressed and the left one is released. -/
theorem releaseOne_unheld :
    ∃ t, typing.exec [.press leftShift, .press rightShift, .release leftShift] {} =
    some t ∧ t.held rightShift = true ∧
    t.keyboard.eventBuffer.getLast?.map KeyEvent.shiftHeld = some false ∧ ¬ t.Shows := by
  refine ⟨_, rfl, rfl, rfl, fun h => ?_⟩
  exact absurd (h _ rfl) (by decide)

end Typing

end Hltos
