import Hltos.Basic
import Hltos.Lib.BitField
import Hltos.Lib.Radix

/-!
# Page-table entries

`PML4E`, `PDPTE`, `PDE` and `PTE` of `vmm.hpp` are words with the same layout of the fields that
`vmm.cpp` reads and writes. The `populate_*` functions assign one field after another, so that the
fields they do not name (`avl`, `mpk`, the ignored bits, and `nx` of the upper levels) keep
whatever the entry held before.
-/

namespace Hltos

open Lib.BitField Lib.Radix

/-- The `int flags` of the mapping functions. -/
abbrev Flags := BitVec 32

def pageWrite : Flags := 0x02
def pageUser : Flags := 0x04
def pageCacheDisable : Flags := 0x08
def pageGlobal : Flags := 0x10
def pageNx : Flags := 0x20

/-- `(flags & mask) ? 1 : 0` -/
def flagBit (flags mask : Flags) : BitVec 1 := if flags &&& mask ≠ 0 then 1 else 0

namespace Pte

def p (e : Word) : Bool := e.getLsbD 0
def rw (e : Word) : BitVec 1 := e.extractLsb' 1 1
def us (e : Word) : BitVec 1 := e.extractLsb' 2 1
def pcd (e : Word) : BitVec 1 := e.extractLsb' 4 1
def g (e : Word) : BitVec 1 := e.extractLsb' 8 1
def addr (e : Word) : Frame := e.extractLsb' 12 40
def nx (e : Word) : BitVec 1 := e.extractLsb' 63 1

def setP (v : BitVec 1) (e : Word) : Word := setBits e 0 v
def setRw (v : BitVec 1) (e : Word) : Word := setBits e 1 v
def setUs (v : BitVec 1) (e : Word) : Word := setBits e 2 v
def setPwt (v : BitVec 1) (e : Word) : Word := setBits e 3 v
def setPcd (v : BitVec 1) (e : Word) : Word := setBits e 4 v
def setA (v : BitVec 1) (e : Word) : Word := setBits e 5 v
def setD (v : BitVec 1) (e : Word) : Word := setBits e 6 v
/-- Bit 7: `ps` of the upper levels, `pat` of a `PTE`. -/
def setPs (v : BitVec 1) (e : Word) : Word := setBits e 7 v
def setG (v : BitVec 1) (e : Word) : Word := setBits e 8 v
def setAddr (v : Frame) (e : Word) : Word := setBits e 12 v
def setNx (v : BitVec 1) (e : Word) : Word := setBits e 63 v

end Pte

open Pte

/-- The assignments that `populate_pml4e`, `populate_pdpte` and `populate_pde` share. -/
def populateTable (e : Word) (frame : Frame) (flags : Flags) : Word :=
  setAddr frame (setA 0 (setPcd 0 (setPwt 0 (setUs (flagBit flags pageUser) (setRw 1 (setP 1 e))))))

def populatePml4e (e : Word) (frame : Frame) (flags : Flags) : Word := populateTable e frame flags

def populatePdpte (e : Word) (frame : Frame) (flags : Flags) : Word :=
  setPs 0 (populateTable e frame flags)

def populatePde (e : Word) (frame : Frame) (flags : Flags) : Word :=
  setPs 0 (populateTable e frame flags)

def populatePte (e : Word) (frame : Frame) (flags : Flags) : Word :=
  setNx (flagBit flags pageNx) (setAddr frame (setG (flagBit flags pageGlobal) (setPs 0 (setD 0
    (setA 0 (setPcd (flagBit flags pageCacheDisable) (setPwt 0 (setUs (flagBit flags pageUser)
      (setRw (flagBit flags pageWrite) (setP 1 e))))))))))

/-! ## What the entries say -/

/-- A present entry points to the frame in its `addr` field. `find_pte` looks at `p` only: the
page-size bit plays no part. -/
instance : Entry Word Frame where
  child e := if p e then some (addr e) else none

theorem child_eq (e : Word) : child e = if p e then some (addr e) else none := rfl

theorem child_zero : child (0 : Word) = none := by decide

variable {e : Word} {f : Frame}

theorem child_of_p (h : p e = true) : child e = some (addr e) := by rw [child_eq, if_pos h]

theorem child_eq_none : child e = none ↔ p e = false := by
  rw [child_eq]
  cases p e <;> simp

theorem addr_of_child (h : child e = some f) : addr e = f ∧ p e = true := by
  rw [child_eq] at h
  split at h
  · next hp => exact ⟨Option.some.inj h, hp⟩
  · cases h

/-! ## Fields after assignments -/

/-- Assigning a field above bit 0 does not touch `p`. -/
theorem p_setBits {k : Nat} (e : Word) {lo : Nat} (v : BitVec k) (h : 0 < lo) :
    p (setBits e lo v) = p e := by
  rw [p, getLsbD_setBits e lo v (by decide), if_neg (by omega), p]

theorem p_setP (v : BitVec 1) (e : Word) : p (setP v e) = v.getLsbD 0 := by
  rw [p, setP, getLsbD_setBits e 0 v (by decide), if_pos (by decide)]

theorem child_setAddr {v : Frame} (h : p e = true) : child (setAddr v e) = some v := by
  rw [child_of_p (by rw [setAddr, p_setBits e v (by decide)]; exact h)]
  exact congrArg some (extract_setBits_self e v (by decide))

theorem child_populateTable (e : Word) (f : Frame) (flags : Flags) :
    child (populateTable e f flags) = some f := by
  apply child_setAddr
  simp (disch := decide) only [setA, setPcd, setPwt, setUs, setRw, p_setBits, p_setP]
  rfl

theorem child_setPs (v : BitVec 1) (e : Word) : child (setPs v e) = child e := by
  have hp : p (setPs v e) = p e := p_setBits e v (by decide)
  have ha : addr (setPs v e) = addr e := extract_setBits_disjoint e v (by decide) (by decide)
  rw [child_eq, child_eq, hp, ha]

theorem child_populatePdpte (e : Word) (f : Frame) (flags : Flags) :
    child (populatePdpte e f flags) = some f := by
  rw [populatePdpte, child_setPs, child_populateTable]

/-- What a caller of the mapping functions asks of an entry. -/
structure Maps (e : Word) (f : Frame) (flags : Flags) : Prop where
  p : p e = true
  addr : addr e = f
  rw : rw e = flagBit flags pageWrite
  us : us e = flagBit flags pageUser
  pcd : pcd e = flagBit flags pageCacheDisable
  g : g e = flagBit flags pageGlobal
  nx : nx e = flagBit flags pageNx

theorem maps_populatePte (e : Word) (f : Frame) (flags : Flags) :
    Maps (populatePte e f flags) f flags := by
  constructor
  · simp (disch := decide) only [populatePte, setNx, setAddr, setG, setPs, setD, setA, setPcd,
      setPwt, setUs, setRw, p_setBits, p_setP]
    rfl
  all_goals
    simp (disch := decide) only [populatePte, addr, rw, us, pcd, g, nx, setNx, setAddr, setG,
      setPs, setD, setA, setPcd, setPwt, setUs, setRw, setP, extract_setBits_disjoint,
      extract_setBits_self]

theorem Maps.child {flags : Flags} (h : Maps e f flags) : child e = some f := by
  rw [child_of_p h.p, h.addr]

end Hltos
