import Hltos.Basic

/-!
# The records of the MADT

`madt::parse` goes from record to record by the length byte each of them carries and reads a record
as the structure its type byte names. Neither byte is checked. Pointers into the table are offsets
from its first byte. The memory that `map_phys` and the vectors need is taken to be there.
-/

namespace Hltos

namespace Madt

open List

/-- What `madt` points to: the bytes from the header on, those behind the table included. -/
abbrev Image := Nat → Byte

/-- A little-endian integer of `width` bytes. -/
def field (t : Image) (offset : Nat) : Nat → Nat
  | 0 => 0
  | width + 1 => (t offset).toNat + 256 * field t (offset + 1) width

def recordOffset : Nat := 0x2C

/-- `madt->std_header.length` -/
def length (t : Image) : Nat := field t 4 4

inductive RecordType
  | lapic | ioapic | ioapicIso | ioapicNmiSource | lapicNmi | lapicAddrOverride | x2apic | unknown
deriving DecidableEq

def RecordType.ofByte (b : Byte) : RecordType :=
  match b.toNat with
  | 0 => .lapic
  | 1 => .ioapic
  | 2 => .ioapicIso
  | 3 => .ioapicNmiSource
  | 4 => .lapicNmi
  | 5 => .lapicAddrOverride
  | 9 => .x2apic
  | _ => .unknown

/-- The size of the packed structure a record is read as. Of an unknown one only the
`RecordHeader` is read. -/
def RecordType.size : RecordType → Nat
  | .lapic => 8
  | .ioapic => 12
  | .ioapicIso => 10
  | .ioapicNmiSource => 10
  | .lapicNmi => 6
  | .lapicAddrOverride => 12
  | .x2apic => 16
  | .unknown => 2

def recordType (t : Image) (record : Nat) : RecordType := .ofByte (t record)

def recordLength (t : Image) (record : Nat) : Nat := (t (record + 1)).toNat

/-- How far a record extends: over the bytes that its length byte gives to it, and over the
structure that it is read as. -/
def extent (t : Image) (record : Nat) : Nat :=
  max (recordLength t record) (recordType t record).size

/-- The static variables of `madt.cpp`. -/
structure Stored where
  ioapics : List Nat
  overrides : List Nat
  localApics : List Nat
  /-- the physical and the virtual address -/
  mappedIoapics : List (Nat × Nat)
  lapicAddr : Nat

variable {mapPhys : Nat → Nat → Nat} {t : Image} {record fuel : Nat} {visited : List Nat}
  {st st' : Stored} {r : Nat}

/-- The `switch`. The `n`-th call of `map_phys` returns `mapPhys n`. -/
def parseRecord (mapPhys : Nat → Nat → Nat) (t : Image) (record : Nat) (st : Stored) : Stored :=
  match recordType t record with
  | .lapic => { st with localApics := st.localApics ++ [record] }
  | .ioapic =>
    let phys := field t (record + 4) 4
    { st with
      ioapics := st.ioapics ++ [record]
      mappedIoapics := st.mappedIoapics ++ [(phys, mapPhys st.mappedIoapics.length phys)] }
  | .ioapicIso => { st with overrides := st.overrides ++ [record] }
  | .lapicAddrOverride => { st with lapicAddr := field t (record + 4) 8 }
  -- these are only logged
  | .ioapicNmiSource | .lapicNmi | .x2apic | .unknown => st

/-- The loop of `parse`, and the records it has visited; `none` if `fuel` rounds are not enough. -/
def parseFrom (mapPhys : Nat → Nat → Nat) (t : Image) :
    Nat → Nat → Stored → Option (List Nat × Stored)
  | 0, _, _ => none
  | fuel + 1, record, st =>
    if record < length t then
      (parseFrom mapPhys t fuel (record + recordLength t record)
        (parseRecord mapPhys t record st)).map
        (fun r => (record :: r.1, r.2))
    else some ([], st)

def parse (mapPhys : Nat → Nat → Nat) (t : Image) (fuel : Nat) (st : Stored) :
    Option (List Nat × Stored) :=
  parseFrom mapPhys t fuel recordOffset { st with lapicAddr := field t 36 4 }

/-! ## The records of a table -/

/-- The records from an offset on. Each begins where the one before it ends, up to the end of the
table. -/
inductive Records (t : Image) : Nat → List Nat → Prop
  | done {record : Nat} : length t ≤ record → Records t record []
  | cons {record : Nat} {rest : List Nat} : record < length t →
      Records t (record + recordLength t record) rest → Records t record (record :: rest)

theorem Records.next_mem (h : Records t record visited) (hr : r ∈ visited)
    (hlt : r + recordLength t r < length t) : r + recordLength t r ∈ visited := by
  induction h with
  | done => cases hr
  | cons hrec hrest ih =>
    rcases mem_cons.mp hr with rfl | hr
    · apply mem_cons_of_mem
      cases hrest with
      | done hend => omega
      | cons => exact mem_cons_self
    · exact mem_cons_of_mem _ (ih hr)

/-- A record of length zero would be followed by itself. -/
theorem Records.length_ne_zero (h : Records t record visited) (hinc : visited.Pairwise (· < ·))
    (hr : r ∈ visited) : recordLength t r ≠ 0 := by
  induction h with
  | done => cases hr
  | @cons record rest hrec hrest ih =>
    obtain ⟨hhead, htail⟩ := pairwise_cons.mp hinc
    rcases mem_cons.mp hr with rfl | hr
    · intro hzero
      rw [hzero] at hrest
      cases hrest with
      | done hend => omega
      | cons => exact Nat.lt_irrefl r (hhead r mem_cons_self)
    · exact ih htail hr

/-! ## Parsing inside the table -/

/-- `parse` returns. It has visited the records of the table, at increasing offsets, all of them
entirely inside, and has stored those of the two types. -/
structure ParsesInside (mapPhys : Nat → Nat → Nat) (t : Image) (st : Stored) (visited : List Nat)
    (st' : Stored) : Prop where
  returns : ∃ fuel, parse mapPhys t fuel st = some (visited, st')
  records : Records t recordOffset visited
  increasing : visited.Pairwise (· < ·)
  inside : ∀ r ∈ visited, r + extent t r ≤ length t
  ioapics : st'.ioapics = st.ioapics ++ visited.filter (recordType t · = .ioapic)
  overrides : st'.overrides = st.overrides ++ visited.filter (recordType t · = .ioapicIso)

/-- Where the length bytes lead, from the first record on. -/
inductive Reaches (t : Image) : Nat → Prop
  | first : Reaches t recordOffset
  | next {r : Nat} : Reaches t r → r < length t → Reaches t (r + recordLength t r)

/-- No record in the table has length zero or crosses its end, by its length byte or by its type. -/
def WellFormed (t : Image) : Prop :=
  ∀ r, Reaches t r → r < length t → recordLength t r ≠ 0 ∧ r + extent t r ≤ length t

theorem Records.mem_of_reaches (h : Records t recordOffset visited) (hr : Reaches t r)
    (hlt : r < length t) : r ∈ visited := by
  induction hr with
  | first =>
    cases h with
    | done hend => omega
    | cons => exact mem_cons_self
  | next hr hlt' ih => exact h.next_mem (ih hlt') hlt

/-- One round stores the record if it is of one of the two types. -/
theorem parseRecord_stored (mapPhys : Nat → Nat → Nat) (t : Image) (record : Nat) (st : Stored) :
    (parseRecord mapPhys t record st).ioapics =
        st.ioapics ++ [record].filter (recordType t · = .ioapic) ∧
      (parseRecord mapPhys t record st).overrides =
        st.overrides ++ [record].filter (recordType t · = .ioapicIso) := by
  unfold parseRecord
  cases h : recordType t record <;> simp [h]

/-- The rest of the table is shorter after each round, which bounds the rounds. -/
theorem WellFormed.parseFrom (h : WellFormed t) (hr : Reaches t record)
    (hfuel : length t - record < fuel) (st : Stored) :
    ∃ visited st', parseFrom mapPhys t fuel record st = some (visited, st') ∧
      Records t record visited ∧ visited.Pairwise (· < ·) ∧
      (∀ r ∈ visited, record ≤ r ∧ Reaches t r ∧ r < length t) ∧
      st'.ioapics = st.ioapics ++ visited.filter (recordType t · = .ioapic) ∧
      st'.overrides = st.overrides ++ visited.filter (recordType t · = .ioapicIso) := by
  induction fuel generalizing record st with
  | zero => omega
  | succ fuel ih =>
    rw [Madt.parseFrom]
    by_cases hlt : record < length t
    · have hne := (h record hr hlt).1
      obtain ⟨visited, st', hrun, hrec, hinc, hmem, hio, hiso⟩ :=
        ih (hr.next hlt) (by omega) (parseRecord mapPhys t record st)
      obtain ⟨hio1, hiso1⟩ := parseRecord_stored mapPhys t record st
      rw [if_pos hlt, hrun]
      refine ⟨record :: visited, st', rfl, .cons hlt hrec, ?_, ?_, ?_, ?_⟩
      · refine pairwise_cons.mpr ⟨fun r hrm => ?_, hinc⟩
        have := (hmem r hrm).1
        omega
      · intro r hrm
        rcases mem_cons.mp hrm with rfl | hrm
        · exact ⟨Nat.le_refl _, hr, hlt⟩
        · obtain ⟨hle, hreach⟩ := hmem r hrm
          exact ⟨by omega, hreach⟩
      · rw [hio, hio1, append_assoc, ← filter_append, singleton_append]
      · rw [hiso, hiso1, append_assoc, ← filter_append, singleton_append]
    · rw [if_neg hlt]
      exact ⟨[], st, rfl, .done (by omega), .nil, by simp, by simp, by simp⟩

/-- **The MADT is parsed inside the table exactly if its records are well formed.** -/
theorem parsesInside_iff_wellFormed (mapPhys : Nat → Nat → Nat) (t : Image) (st : Stored) :
    (∃ visited st', ParsesInside mapPhys t st visited st') ↔ WellFormed t := by
  constructor
  · rintro ⟨visited, st', h⟩ r hr hlt
    have hmem := h.records.mem_of_reaches hr hlt
    exact ⟨h.records.length_ne_zero h.increasing hmem, h.inside r hmem⟩
  · intro h
    obtain ⟨visited, st', hrun, hrec, hinc, hmem, hio, hiso⟩ :=
      h.parseFrom .first (Nat.lt_succ_self _)
        { st with lapicAddr := field t 36 4 }
    refine ⟨visited, st', ⟨_, hrun⟩, hrec, hinc, ?_, hio, hiso⟩
    intro r hrm
    exact (h r (hmem r hrm).2.1 (hmem r hrm).2.2).2

/-- A table of 52 bytes with one record for a local APIC, whose length byte is 0. -/
def zeroLength : Image := fun offset => if offset = 4 then 52 else 0

/-- It is visited for ever. -/
theorem zeroLength_never_returns :
    ¬ ∃ visited st',
      ParsesInside (fun _ phys => phys) zeroLength ⟨[], [], [], [], 0⟩ visited st' := by
  rintro ⟨visited, st', h⟩
  obtain ⟨fuel, hrun⟩ := h.returns
  have hnone : ∀ st,
      Madt.parseFrom (fun _ phys => phys) zeroLength fuel recordOffset st = none := by
    clear hrun
    induction fuel with
    | zero => exact fun _ => rfl
    | succ fuel ih =>
      intro st
      rw [Madt.parseFrom, if_pos (by decide)]
      exact congrArg _ (ih _)
  rw [parse, hnone] at hrun
  cases hrun

end Madt

end Hltos
