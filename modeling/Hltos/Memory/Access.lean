import Hltos.Memory.Space

/-!
# Memory access through the page tables

What the kernel reads and writes at virtual addresses while an address space is loaded: single
bytes, and the loops of `memcpy` and `memset` over them. An address that is not canonical or not
mapped faults, and the run ends. Access rights are not looked at.
-/

namespace Hltos

open Lib.Radix FrameAllocator Pte Option List

namespace Vmm

variable {σ : Type} {v : Word}

/-! ## Bytes -/

/-- The upper bits of an address are copies of bit 47. -/
def isCanonical (v : Word) : Bool := v.toNat < 2 ^ 47 || 2 ^ 64 - 2 ^ 47 ≤ v.toNat

/-- The word of a page that an address is in. -/
def wordIdx (v : Word) : Idx := v.extractLsb' 3 9

/-- The first bit of an address's byte in its word. -/
def bitPos (v : Word) : Nat := 8 * (v.extractLsb' 0 3).toNat

def getByte (w : Word) (pos : Nat) : Byte := w.extractLsb' pos 8

def setByte (w : Word) (pos : Nat) (b : Byte) : Word :=
  (w &&& ~~~((0xFF : Word) <<< pos)) ||| (b.setWidth 64 <<< pos)

def loadByte (pml4 : Frame) (v : Word) (s : Vmm σ) : Option Byte :=
  if isCanonical v then
    (findPte s.mem pml4 v).map (fun (pt, i) =>
      getByte (s.mem (addr (s.mem pt i)) (wordIdx v)) (bitPos v))
  else none

def storeByte (pml4 : Frame) (v : Word) (b : Byte) (s : Vmm σ) : Option (Vmm σ) :=
  if isCanonical v then
    (findPte s.mem pml4 v).map (fun (pt, i) =>
      let f := addr (s.mem pt i)
      s.writeEntry f (wordIdx v) (setByte (s.mem f (wordIdx v)) (bitPos v) b))
  else none

/-- A load goes through the entry of the page. -/
theorem loadByte_eq (pml4 : Frame) (v : Word) (s : Vmm σ) :
    s.loadByte pml4 v = if isCanonical v then
      (walk s.mem pml4 v).map (fun e => getByte (s.mem (addr e) (wordIdx v)) (bitPos v))
    else none := by
  unfold loadByte walk
  rw [Option.map_map]
  rfl

/-! ## Loops -/

def memcpy (pml4 : Frame) : Nat → Word → Word → Vmm σ → Option (Vmm σ)
  | 0, _, _, s => some s
  | count + 1, dest, src, s => do
    let s ← s.storeByte pml4 dest (← s.loadByte pml4 src)
    memcpy pml4 count (dest + 1) (src + 1) s

def memset (pml4 : Frame) (val : Byte) : Nat → Word → Vmm σ → Option (Vmm σ)
  | 0, _, s => some s
  | count + 1, dest, s => do
    let s ← s.storeByte pml4 dest val
    memset pml4 val count (dest + 1) s

/-- The bytes of a list, at consecutive addresses: a `memcpy` from a string, or a store of several
bytes. -/
def storeBytes (pml4 : Frame) : List Byte → Word → Vmm σ → Option (Vmm σ)
  | [], _, s => some s
  | b :: bs, dest, s => do
    let s ← s.storeByte pml4 dest b
    storeBytes pml4 bs (dest + 1) s

/-- The eight bytes of a word, the lowest first. -/
def wordBytes (w : Word) : List Byte := (List.range 8).map (fun k => getByte w (8 * k))

/-! ## The addresses that are written -/

/-- Bytes are stored at the addresses of a list, one after the other. -/
inductive Stored (r : Frame) : List Word → Vmm σ → Vmm σ → Prop
  | nil (s : Vmm σ) : Stored r [] s s
  | cons {v : Word} {b : Byte} {vs : List Word} {s s1 s' : Vmm σ} :
    s.storeByte r v b = some s1 → Stored r vs s1 s' → Stored r (v :: vs) s s'

/-- Consecutive addresses. -/
def bytesFrom : Nat → Word → List Word
  | 0, _ => []
  | n + 1, v => v :: bytesFrom n (v + 1)

theorem mem_bytesFrom {n : Nat} {u : Word} : u ∈ bytesFrom n v ↔ ∃ k < n, u = v + .ofNat 64 k := by
  induction n generalizing v with
  | zero => simp [bytesFrom]
  | succ n ih =>
    have hnext : ∀ k, v + 1 + .ofNat 64 k = v + .ofNat 64 (k + 1) := by
      intro k
      rw [BitVec.add_assoc, BitVec.ofNat_add, BitVec.add_comm (.ofNat 64 k)]
      rfl
    simp only [bytesFrom, List.mem_cons, ih, hnext, Nat.exists_lt_succ_left]
    simp

theorem length_bytesFrom (n : Nat) (v : Word) : (bytesFrom n v).length = n := by
  induction n generalizing v with
  | zero => rfl
  | succ n ih => rw [bytesFrom, length_cons, ih]

theorem bytesFrom_append (m n : Nat) (v : Word) :
    bytesFrom (m + n) v = bytesFrom m v ++ bytesFrom n (v + .ofNat 64 m) := by
  induction m generalizing v with
  | zero => simp [bytesFrom]
  | succ m ih =>
    rw [Nat.add_right_comm, bytesFrom, bytesFrom, ih, List.cons_append, BitVec.add_assoc,
      BitVec.ofNat_add m, BitVec.add_comm (.ofNat 64 m)]
    rfl

section Stored

variable {s s' s'' : Vmm σ} {r : Frame} {vs ws : List Word} {count : Nat} {dest : Word} {val : Byte}

theorem Stored.append (h : Stored r vs s s') (h' : Stored r ws s' s'') :
    Stored r (vs ++ ws) s s'' := by
  induction h with
  | nil s => exact h'
  | cons hb _ ih => exact .cons hb (ih h')

theorem memcpy_stored {src : Word} (h : s.memcpy r count dest src = some s') :
    Stored r (bytesFrom count dest) s s' := by
  induction count generalizing s dest src with
  | zero => cases h; exact .nil _
  | succ n ih =>
    obtain ⟨b, -, h⟩ := of_bind h
    obtain ⟨s1, hb, h⟩ := of_bind h
    exact .cons hb (ih h)

theorem storeBytes_stored {bs : List Byte}
    (h : s.storeBytes r bs dest = some s') : Stored r (bytesFrom bs.length dest) s s' := by
  induction bs generalizing s dest with
  | nil => cases h; exact .nil _
  | cons b bs ih =>
    obtain ⟨s1, hb, h⟩ := of_bind h
    exact .cons hb (ih h)

theorem memset_eq_storeBytes :
    s.memset r val count dest = s.storeBytes r (List.replicate count val) dest := by
  induction count generalizing s dest with
  | zero => rfl
  | succ n ih => simp only [memset, List.replicate_succ, storeBytes, ih]

theorem memset_stored (h : s.memset r val count dest = some s') :
    Stored r (bytesFrom count dest) s s' := by
  rw [memset_eq_storeBytes] at h
  have hstored := storeBytes_stored h
  rwa [length_replicate] at hstored

theorem storeByte_eq_some {v : Word} {b : Byte} (h : s.storeByte r v b = some s') :
    isCanonical v = true ∧ ∃ e w, find s.mem r (path v) = some e ∧
      s' = s.writeEntry (addr e) (wordIdx v) w := by
  unfold storeByte at h
  split at h
  · next hc =>
    obtain ⟨⟨pt, i⟩, hfind, rfl⟩ := map_eq_some_iff.mp h
    exact ⟨hc, s.mem pt i, _, by rw [← walk_eq_find, walk, hfind]; rfl, rfl⟩
  · cases h

theorem Stored.canonical (h : Stored r vs s s') : ∀ v ∈ vs, isCanonical v = true := by
  induction h with
  | nil s => simp
  | cons hb _ ih =>
    intro v hv
    rcases mem_cons.mp hv with rfl | hv
    · exact (storeByte_eq_some hb).1
    · exact ih v hv

end Stored

/-! ## Stores keep the tables -/

variable [FrameAllocator σ] {s s' : Vmm σ} {r : Frame} {H : Idx → Prop} {K : Set Frame}

/-- Stores to mapped pages of a space: its tables and all that others hold are as they were. -/
structure Writes (H : Idx → Prop) (r : Frame) (K : Set Frame) (s s' : Vmm σ) : Prop where
  keeps : Keeps H r K s s'
  find : ∀ i, ∀ τ ∈ below H 3, find s'.mem r (i :: τ) = find s.mem r (i :: τ)
  pmm : s'.pmm = s.pmm

theorem Writes.walk (h : Writes H r K s s') (hv : H (pml4Idx v)) :
    walk s'.mem r v = walk s.mem r v := by
  simp only [walk_eq_find]
  exact h.find _ _ (path_tail_mem hv)

theorem storeByte_writes {b : Byte} (ho : Owns H r K s) (hH : H (pml4Idx v))
    (h : s.storeByte r v b = some s') : Writes H r K s s' := by
  obtain ⟨-, e, w, he, rfl⟩ := storeByte_eq_some h
  have hother : ∀ f ≠ addr e, (s.writeEntry (addr e) (wordIdx v) w).mem f = s.mem f :=
    fun f hf => setEntry_of_ne _ _ _ hf
  obtain ⟨hk, hfind, -⟩ := ho.write_page hH he hother rfl ⟨rfl, rfl, rfl⟩
  exact ⟨hk, hfind, rfl⟩

theorem Stored.writes {vs : List Word} (h : Stored r vs s s') (ho : Owns H r K s)
    (hH : ∀ v ∈ vs, H (pml4Idx v)) : Writes H r K s s' := by
  induction h with
  | nil s => exact ⟨.refl ho, fun _ _ _ => rfl, rfl⟩
  | cons hb _ ih =>
    have hw := storeByte_writes ho (hH _ mem_cons_self) hb
    have hw' := ih hw.keeps.owns (fun v hv => hH v (mem_cons_of_mem _ hv))
    exact ⟨hw.keeps.trans hw'.keeps, fun i τ hτ => (hw'.find i τ hτ).trans (hw.find i τ hτ),
      hw'.pmm.trans hw.pmm⟩

/-- Every address that was stored to is canonical and mapped. -/
theorem Stored.mapped {vs : List Word} (h : Stored r vs s s') (ho : Owns anyHead r K s) :
    ∀ v ∈ vs, isCanonical v = true ∧ walk s.mem r v ≠ none := by
  induction h with
  | nil s => simp
  | cons hb _ ih =>
    obtain ⟨hc, e, w, he, -⟩ := storeByte_eq_some hb
    have hw := storeByte_writes ho trivial hb
    intro v hv
    rcases mem_cons.mp hv with rfl | hv
    · refine ⟨hc, ?_⟩
      rw [walk_eq_find, he]
      exact some_ne_none e
    · rw [← hw.walk trivial]
      exact ih hw.keeps.owns v hv

end Vmm

end Hltos
