import Hltos.Basic

/-!
# The PS/2 keyboard

`handle_scancode` turns the bytes of the controller into key events, and `poll` takes them out of
the buffer again, oldest first.
-/

namespace Hltos

/-- `ScanCode` and `ExtendedScanCode` are bytes: a code that has no name is cast all the same. -/
abbrev ScanCode := Byte

abbrev ExtendedScanCode := Byte

namespace ScanCode

def nil : ScanCode := 0x00
def backspace : ScanCode := 0x0E
def enter : ScanCode := 0x1C
def leftCtrl : ScanCode := 0x1D
def leftShift : ScanCode := 0x2A
def rightShift : ScanCode := 0x36
def leftAlt : ScanCode := 0x38
def capsLock : ScanCode := 0x3A

end ScanCode

namespace ExtendedScanCode

def nil : ExtendedScanCode := 0x00
def rightCtrl : ExtendedScanCode := 0x1D
def rightAlt : ExtendedScanCode := 0x38

end ExtendedScanCode

def extendedPrefix : Byte := 0xE0

def releaseMask : Byte := 0x80

structure KeyEvent where
  scancode : ScanCode
  extendedScancode : ExtendedScanCode
  released : Bool
  shiftHeld : Bool
  controlHeld : Bool
  altHeld : Bool
  capsLockOn : Bool
deriving DecidableEq

/-- The static variables of the two files. -/
structure Keyboard where
  eventBuffer : List KeyEvent := []
  shiftHeld : Bool := false
  controlHeld : Bool := false
  altHeld : Bool := false
  capsLock : Bool := false
  extendedPending : Bool := false
deriving DecidableEq

namespace Keyboard

def updateModifiers (scancode : ScanCode) (extended : ExtendedScanCode) (released : Bool)
    (k : Keyboard) : Keyboard :=
  let k :=
    if scancode = ScanCode.leftShift ∨ scancode = ScanCode.rightShift then
      { k with shiftHeld := !released }
    else if scancode = ScanCode.leftCtrl then { k with controlHeld := !released }
    else if scancode = ScanCode.leftAlt then { k with altHeld := !released }
    else if scancode = ScanCode.capsLock ∧ released = false then { k with capsLock := !k.capsLock }
    else k
  if extended = ExtendedScanCode.rightCtrl then { k with controlHeld := !released }
  else if extended = ExtendedScanCode.rightAlt then { k with altHeld := !released }
  else k

def pushEvent (event : KeyEvent) (k : Keyboard) : Keyboard :=
  { k with eventBuffer := k.eventBuffer ++ [event] }

/-- `poll`: the oldest event. -/
def poll (k : Keyboard) : Option (KeyEvent × Keyboard) :=
  match k.eventBuffer with
  | [] => none
  | event :: rest => some (event, { k with eventBuffer := rest })

/-- The codes of a byte that is not the prefix: the one that counts depends on the byte before. -/
def decode (byte : Byte) (extendedPending : Bool) : ScanCode × ExtendedScanCode :=
  let code := byte &&& ~~~releaseMask
  if extendedPending then (ScanCode.nil, code) else (code, ExtendedScanCode.nil)

def handleScancode (k : Keyboard) (byte : Byte) : Keyboard :=
  if byte = extendedPrefix then { k with extendedPending := true }
  else
    let released := byte &&& releaseMask != 0
    let codes := decode byte k.extendedPending
    let k := updateModifiers codes.1 codes.2 released { k with extendedPending := false }
    k.pushEvent {
      scancode := codes.1
      extendedScancode := codes.2
      released := released
      shiftHeld := k.shiftHeld
      controlHeld := k.controlHeld
      altHeld := k.altHeld
      capsLockOn := k.capsLock }

/-- The loop of `keyboard_interrupt_handler`, over the bytes the controller has. -/
def handleScancodes (bytes : List Byte) (k : Keyboard) : Keyboard := bytes.foldl handleScancode k

/-- The prefix byte alone makes no event. -/
theorem handleScancodes_eventBuffer_of_prefix {bytes : List Byte} (k : Keyboard)
    (h : ∀ b ∈ bytes, b = extendedPrefix) :
    (k.handleScancodes bytes).eventBuffer = k.eventBuffer := by
  induction bytes generalizing k with
  | nil => rfl
  | cons b bytes ih =>
    have hb : k.handleScancode b = { k with extendedPending := true } :=
      if_pos (h b List.mem_cons_self)
    unfold handleScancodes at ih ⊢
    rw [List.foldl_cons, hb, ih _ (fun b' hb' => h b' (List.mem_cons_of_mem b hb'))]

end Keyboard

end Hltos
