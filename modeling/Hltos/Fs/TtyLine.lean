import Hltos.Containers.KVector
import Hltos.Fs.TtyRead

/-!
# The line editor of the terminal

The fields of a `DevTtyInode` and what each key does to them, up to the key that ends the line. What
the editor draws on the console is left out. A `kstring` holds its characters and a NUL in memory
that grows as that of a `kvector`; if the kernel heap has no more to give, there is no result.
-/

namespace Hltos

open List Option

/-! ## Strings that grow -/

namespace KStr

variable {heap : KHeap} {v v' : KVector Byte} {pos : Nat} {c : Byte}

def pushBack (heap : KHeap) (c : Byte) (v : KVector Byte) : Option (KVector Byte) := do
  let v ← v.ensureCapacity heap (v.size + 2)
  return { v with elems := v.elems ++ [c] }

def insert (heap : KHeap) (pos : Nat) (c : Byte) (v : KVector Byte) : Option (KVector Byte) := do
  if pos > v.size then return v
  else
    let v ← v.ensureCapacity heap (v.size + 1)
    if pos = v.size then pushBack heap c v
    else return { v with elems := v.elems.take pos ++ c :: v.elems.drop pos }

def erase (pos : Nat) (v : KVector Byte) : KVector Byte :=
  if pos ≥ v.size then v else { v with elems := v.elems.eraseIdx pos }

def truncate (pos : Nat) (v : KVector Byte) : KVector Byte :=
  if pos ≥ v.size then v else { v with elems := v.elems.take pos }

/-- `operator=(const kstring&)`: an empty string is copied without memory. -/
def copy (heap : KHeap) (v : KVector Byte) : Option (KVector Byte) := do
  if v.size = 0 then return .empty
  else
    let w ← (KVector.empty : KVector Byte).ensureCapacity heap (v.size + 1)
    return { w with elems := v.elems }

/-- `operator=(const char*)`, and the constructor from a C string. -/
def assign (heap : KHeap) (chars : List Byte) : Option (KVector Byte) := do
  let w ← (KVector.empty : KVector Byte).ensureCapacity heap (chars.length + 1)
  return { w with elems := chars }

section

variable (h : v.Allocated)

include h

/-- Other characters in the same memory. -/
theorem allocated_elems {elems : List Byte} (hfit : elems.length ≤ v.capacity) :
    ({ v with elems } : KVector Byte).Allocated := ⟨h.capacity, h.bound, hfit⟩

theorem pushBack_allocated (hrun : pushBack heap c v = some v') : v'.Allocated := by
  obtain ⟨w, hw, hrun⟩ := of_bind hrun
  cases hrun
  obtain ⟨hw, helems, hcap⟩ := h.ensureCapacityFrom hw
  apply allocated_elems hw
  rw [helems, length_append, length_singleton]
  rw [KVector.size] at hcap
  omega

theorem insert_allocated (hrun : insert heap pos c v = some v') : v'.Allocated := by
  unfold insert at hrun
  split at hrun
  · cases hrun
    exact h
  · obtain ⟨w, hw, hrun⟩ := of_bind hrun
    obtain ⟨hw, helems, hcap⟩ := h.ensureCapacityFrom hw
    split at hrun
    · exact pushBack_allocated hw hrun
    · cases hrun
      apply allocated_elems hw
      rw [KVector.size] at hcap
      simp only [helems, length_append, length_take, length_cons, length_drop]
      omega

theorem erase_allocated : (erase pos v).Allocated := by
  have hfit := h.fit
  unfold erase
  split
  · exact h
  · apply allocated_elems h
    exact (length_eraseIdx_le _ _).trans hfit

theorem truncate_allocated : (truncate pos v).Allocated := by
  have hfit := h.fit
  unfold truncate
  split
  · exact h
  · apply allocated_elems h
    exact (length_take_le' _ _).trans hfit

end

theorem assign_allocated {chars : List Byte} (hrun : assign heap chars = some v') :
    v'.Allocated ∧ v'.elems = chars := by
  obtain ⟨w, hw, hrun⟩ := of_bind hrun
  cases hrun
  obtain ⟨hw, -, hcap⟩ := KVector.allocated_empty.ensureCapacityFrom hw
  exact ⟨allocated_elems hw (by omega), rfl⟩

theorem copy_allocated (hrun : copy heap v = some v') : v'.Allocated := by
  unfold copy at hrun
  split at hrun
  · cases hrun
    exact KVector.allocated_empty
  · exact (assign_allocated hrun).1

end KStr

/-! ## The editor -/

/-- The private fields of `DevTtyInode`. -/
structure TtyLine where
  buffer : KVector Byte
  history : List (KVector Byte)
  bufferIndex : Nat
  historyIndex : Nat

namespace TtyLine

open KStr

variable {heap : KHeap} {line line' : TtyLine} {event : KeyEvent}

def insertChar (heap : KHeap) (c : Byte) (line : TtyLine) : Option TtyLine := do
  let buffer ← insert heap line.bufferIndex c line.buffer
  return { line with buffer, bufferIndex := line.bufferIndex + 1 }

def deleteBack (line : TtyLine) : TtyLine :=
  if line.bufferIndex = 0 then line
  else { line with
    buffer := erase (line.bufferIndex - 1) line.buffer
    bufferIndex := line.bufferIndex - 1 }

def deleteForward (line : TtyLine) : TtyLine :=
  if line.bufferIndex = line.buffer.size then line
  else { line with buffer := erase line.bufferIndex line.buffer }

def moveLeft (line : TtyLine) : TtyLine :=
  if line.bufferIndex > 0 then { line with bufferIndex := line.bufferIndex - 1 } else line

def moveRight (line : TtyLine) : TtyLine :=
  if line.bufferIndex <
    line.buffer.size then { line with bufferIndex := line.bufferIndex + 1 } else line

def moveToStart (line : TtyLine) : TtyLine := { line with bufferIndex := 0 }

def moveToEnd (line : TtyLine) : TtyLine := { line with bufferIndex := line.buffer.size }

def deleteToEnd (line : TtyLine) : TtyLine :=
  { line with buffer := truncate line.bufferIndex line.buffer }

/-- Neither an empty line nor the same line again is remembered. -/
def addBufferHistory (heap : KHeap) (line : TtyLine) : Option TtyLine := do
  if line.buffer.size = 0 then return line
  else if line.history.getLast?.map (·.elems) = some line.buffer.elems then return line
  else
    let entry ← copy heap line.buffer
    return { line with history := line.history ++ [entry], historyIndex := line.history.length + 1 }

/-- The buffer becomes a line of the history. -/
def recallLine (heap : KHeap) (index : Nat) (line : TtyLine) : Option TtyLine := do
  let entry ← line.history[index]?
  let buffer ← copy heap entry
  return { line with buffer, bufferIndex := buffer.size, historyIndex := index }

def bufferHistoryUp (heap : KHeap) (line : TtyLine) : Option TtyLine :=
  if line.history ≠ [] ∧ line.historyIndex > 0 then
    line.moveToStart.deleteToEnd.recallLine heap (line.historyIndex - 1)
  else some line

def bufferHistoryDown (heap : KHeap) (line : TtyLine) : Option TtyLine :=
  let line := line.moveToStart.deleteToEnd
  if line.historyIndex + 1 < line.history.length then line.recallLine heap (line.historyIndex + 1)
  else do
    let buffer ← assign heap []
    return { line with buffer, bufferIndex := buffer.size, historyIndex := line.history.length }

def processCtrl (c : ScanCode) (line : TtyLine) : TtyLine :=
  if c = 0x1E then line.moveToStart
  else if c = 0x12 then line.moveToEnd
  else if c = 0x25 then line.deleteToEnd
  else if c = 0x30 then line.moveLeft
  else if c = 0x21 then line.moveRight
  else if c = 0x20 then line.deleteForward
  else line

/-- What a key does that does not end the line. -/
def handleKey (heap : KHeap) (event : KeyEvent) (line : TtyLine) : Option TtyLine :=
  let ascii := scancodeToAscii event.scancode (event.shiftHeld || event.capsLockOn)
  if event.released then some line
  else if event.controlHeld then some (line.processCtrl event.scancode)
  else if ascii ≠ 0 then line.insertChar heap (BitVec.ofNat 8 ascii)
  else if event.scancode = ScanCode.backspace then some line.deleteBack
  else if event.extendedScancode = 0x4B then some line.moveLeft
  else if event.extendedScancode = 0x4D then some line.moveRight
  else if event.extendedScancode = 0x53 then some line.deleteForward
  else if event.extendedScancode = 0x48 then line.bufferHistoryUp heap
  else if event.extendedScancode = 0x50 then line.bufferHistoryDown heap
  else some line

/-- The loop of `read`, over the events that come in; it waits for more if there are none. -/
def editFrom (heap : KHeap) : List KeyEvent → TtyLine → Option TtyLine
  | [], _ => none
  | event :: events, line =>
    if event.endsLine then line.addBufferHistory heap
    else do editFrom heap events (← line.handleKey heap event)

/-- `read` up to the copy: an empty buffer, and the keys. -/
def edit (heap : KHeap) (events : List KeyEvent) (line : TtyLine) : Option TtyLine := do
  let buffer ← assign heap []
  editFrom heap events { line with buffer, bufferIndex := 0 }

/-! ## The memory of the strings -/

/-- Every string is in memory that the heap has given. -/
structure Allocated (line : TtyLine) : Prop where
  buffer : line.buffer.Allocated
  history : ∀ entry ∈ line.history, entry.Allocated

namespace Allocated

section

variable (h : Allocated line)

include h

theorem with_buffer {buffer : KVector Byte} (hbuffer : buffer.Allocated)
    (bufferIndex historyIndex : Nat) :
    Allocated { line with buffer, bufferIndex, historyIndex } := ⟨hbuffer, h.history⟩

theorem moveToStart : Allocated line.moveToStart := h.with_buffer h.buffer _ _

theorem deleteToEnd : Allocated line.deleteToEnd := h.with_buffer (truncate_allocated h.buffer) _ _

theorem deleteForward : Allocated line.deleteForward := by
  unfold TtyLine.deleteForward
  split
  · exact h
  · exact h.with_buffer (erase_allocated h.buffer) _ _

theorem deleteBack : Allocated line.deleteBack := by
  unfold TtyLine.deleteBack
  split
  · exact h
  · exact h.with_buffer (erase_allocated h.buffer) _ _

theorem moveLeft : Allocated line.moveLeft := by
  unfold TtyLine.moveLeft
  split
  · exact h.with_buffer h.buffer _ _
  · exact h

theorem moveRight : Allocated line.moveRight := by
  unfold TtyLine.moveRight
  split
  · exact h.with_buffer h.buffer _ _
  · exact h

theorem insertChar {c : Byte} (hrun : line.insertChar heap c = some line') : Allocated line' := by
  obtain ⟨buffer, hbuffer, hrun⟩ := of_bind hrun
  cases hrun
  exact h.with_buffer (insert_allocated h.buffer hbuffer) _ _

theorem recallLine {index : Nat} (hrun : line.recallLine heap index = some line') :
    Allocated line' := by
  obtain ⟨entry, -, hrun⟩ := of_bind hrun
  obtain ⟨buffer, hbuffer, hrun⟩ := of_bind hrun
  cases hrun
  exact h.with_buffer (copy_allocated hbuffer) _ _

theorem bufferHistoryUp (hrun : line.bufferHistoryUp heap = some line') : Allocated line' := by
  unfold TtyLine.bufferHistoryUp at hrun
  split at hrun
  · exact h.moveToStart.deleteToEnd.recallLine hrun
  · cases hrun
    exact h

theorem bufferHistoryDown (hrun : line.bufferHistoryDown heap = some line') : Allocated line' := by
  unfold TtyLine.bufferHistoryDown at hrun
  dsimp only at hrun
  split at hrun
  · exact h.moveToStart.deleteToEnd.recallLine hrun
  · obtain ⟨buffer, hbuffer, hrun⟩ := of_bind hrun
    cases hrun
    exact h.moveToStart.deleteToEnd.with_buffer (assign_allocated hbuffer).1 _ _

theorem processCtrl (c : ScanCode) : Allocated (line.processCtrl c) := by
  unfold TtyLine.processCtrl
  repeat' split
  · exact h.moveToStart
  · exact h.with_buffer h.buffer _ _
  · exact h.deleteToEnd
  · exact h.moveLeft
  · exact h.moveRight
  · exact h.deleteForward
  · exact h

theorem handleKey (hrun : line.handleKey heap event = some line') : Allocated line' := by
  unfold TtyLine.handleKey at hrun
  dsimp only at hrun
  repeat' split at hrun
  all_goals first
    | exact h.insertChar hrun
    | exact h.bufferHistoryUp hrun
    | exact h.bufferHistoryDown hrun
    | cases hrun
  · exact h
  · exact h.processCtrl _
  · exact h.deleteBack
  · exact h.moveLeft
  · exact h.moveRight
  · exact h.deleteForward
  · exact h

/-- The line that is remembered is a copy. -/
theorem addBufferHistory (hrun : line.addBufferHistory heap = some line') : Allocated line' := by
  unfold TtyLine.addBufferHistory at hrun
  split at hrun
  · cases hrun
    exact h
  · split at hrun
    · cases hrun
      exact h
    · obtain ⟨entry, hentry, hrun⟩ := of_bind hrun
      cases hrun
      refine ⟨h.buffer, fun e he => ?_⟩
      rcases mem_append.mp he with hold | hnew
      · exact h.history e hold
      · rw [mem_singleton.mp hnew]
        exact copy_allocated hentry

end

variable {events : List KeyEvent}

variable (h : Allocated line)

include h

theorem editFrom (hrun : editFrom heap events line = some line') : Allocated line' := by
  induction events generalizing line with
  | nil => cases hrun
  | cons event events ih =>
    rw [TtyLine.editFrom] at hrun
    split at hrun
    · exact h.addBufferHistory hrun
    · obtain ⟨next, hnext, hrun⟩ := of_bind hrun
      exact ih (h.handleKey hnext) hrun

theorem edit (hrun : edit heap events line = some line') : Allocated line' := by
  obtain ⟨buffer, hbuffer, hrun⟩ := of_bind hrun
  exact (h.with_buffer (assign_allocated hbuffer).1 _ _).editFrom hrun

/-- A line is shorter than an `int` can count. -/
theorem edit_size_lt (hrun : TtyLine.edit heap events line = some line') :
  line'.buffer.size < 2 ^ 31 := (h.edit hrun).buffer.fit.trans_lt (h.edit hrun).buffer.bound

end Allocated

end TtyLine

end Hltos
