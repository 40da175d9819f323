import Mathlib

/-!
# Growing vectors

`kvector` doubles its capacity until the elements fit. `kalloc` gives what the kernel heap has: less
than all of the `MAX_MEMORY_BYTES` that the frame allocator manages.
-/

namespace Hltos

open List Option

/-- The sizes that `kalloc` can give. -/
structure KHeap where
  fits : Nat → Bool
  bounded : ∀ n, fits n = true → n < 2 ^ 31

structure KVector (α : Type) where
  elems : List α
  capacity : Nat
deriving DecidableEq

namespace KVector

variable {α : Type} {heap : KHeap} {v v' : KVector α} {n m : Nat} {fuel : Nat}

def empty : KVector α := ⟨[], 0⟩

def size (v : KVector α) : Nat := v.elems.length

def grow (heap : KHeap) (v : KVector α) : Option (KVector α) :=
  let newCapacity := if v.capacity = 0 then 16 else v.capacity * 2
  if heap.fits newCapacity then some { v with capacity := newCapacity } else none

/-- The loop of `ensure_capacity`; it has doubled to more than the heap can give after 28 rounds. -/
def ensureCapacityFrom (heap : KHeap) : Nat → Nat → KVector α → Option (KVector α)
  | 0, newCapacity, v => if v.capacity < newCapacity then none else some v
  | fuel + 1, newCapacity, v =>
    if v.capacity < newCapacity then do ensureCapacityFrom heap fuel newCapacity (← v.grow heap)
    else some v

def ensureCapacity (heap : KHeap) (newCapacity : Nat) (v : KVector α) : Option (KVector α) :=
  ensureCapacityFrom heap 32 newCapacity v

/-- `resize` fills with `T{}`, and does not shrink. -/
def resize [Inhabited α] (heap : KHeap) (newSize : Nat) (v : KVector α) : Option (KVector α) := do
  if newSize ≤ v.size then return v
  else
    let v ← v.ensureCapacity heap newSize
    return { v with elems := v.elems ++ List.replicate (newSize - v.size) default }

/-! ## What the heap can give -/

/-- A capacity is 0 or 16 doubled some times, and the heap has given it. -/
structure Allocated (v : KVector α) : Prop where
  capacity : v.capacity = 0 ∨ ∃ k, v.capacity = 16 * 2 ^ k
  bound : v.capacity < 2 ^ 31
  fit : v.size ≤ v.capacity

theorem allocated_empty : Allocated (empty : KVector α) :=
  ⟨Or.inl rfl, Nat.two_pow_pos 31, Nat.le_refl 0⟩

theorem Allocated.grow (h : Allocated v) (hrun : v.grow heap = some v') :
    Allocated v' ∧ v'.elems = v.elems ∧ v.capacity < v'.capacity := by
  unfold KVector.grow at hrun
  simp only [ite_none_right_eq_some, some.injEq] at hrun
  obtain ⟨hfits, rfl⟩ := hrun
  have hbound := heap.bounded _ hfits
  have hfit := h.fit
  by_cases hzero : v.capacity = 0
  · simp only [hzero, if_true] at hbound ⊢
    refine ⟨⟨.inr ⟨0, rfl⟩, hbound, ?_⟩, trivial, by omega⟩
    show v.elems.length ≤ 16
    rw [size] at hfit
    omega
  · simp only [hzero, if_false] at hbound ⊢
    obtain ⟨k, hk⟩ := h.capacity.resolve_left hzero
    refine ⟨⟨.inr ⟨k + 1, ?_⟩, hbound, ?_⟩, trivial, by omega⟩
    · rw [hk]
      ring
    · show v.elems.length ≤ v.capacity * 2
      rw [size] at hfit
      omega

theorem Allocated.ensureCapacityFrom (h : Allocated v)
    (hrun : ensureCapacityFrom heap fuel n v = some v') :
    Allocated v' ∧ v'.elems = v.elems ∧ n ≤ v'.capacity := by
  induction fuel generalizing v with
  | zero =>
    simp only [KVector.ensureCapacityFrom, ite_none_left_eq_some, some.injEq] at hrun
    obtain ⟨hle, rfl⟩ := hrun
    exact ⟨h, rfl, Nat.not_lt.mp hle⟩
  | succ fuel ih =>
    simp only [KVector.ensureCapacityFrom] at hrun
    split at hrun
    · obtain ⟨w, hw, hrun⟩ := bind_eq_some_iff.mp hrun
      obtain ⟨hw', helems, -⟩ := h.grow hw
      obtain ⟨hv, helems', hcap⟩ := ih hw' hrun
      exact ⟨hv, helems'.trans helems, hcap⟩
    · next hle =>
      cases hrun
      exact ⟨h, rfl, Nat.not_lt.mp hle⟩

/-- `resize` to `n`: the elements, and default ones up to `n`. -/
theorem Allocated.resize [Inhabited α] (h : Allocated v) (hrun : v.resize heap n = some v') :
    Allocated v' ∧ v'.elems = v.elems ++ List.replicate (n - v.size) default := by
  unfold KVector.resize at hrun
  split at hrun
  · next hle =>
    cases hrun
    exact ⟨h, by rw [Nat.sub_eq_zero_of_le hle, replicate_zero, append_nil]⟩
  · next hgt =>
    obtain ⟨w, hw, hrun⟩ := bind_eq_some_iff.mp hrun
    cases hrun
    obtain ⟨hw', helems, hcap⟩ := h.ensureCapacityFrom hw
    have hsize : w.size = v.size := by rw [size, helems, size]
    refine ⟨⟨hw'.capacity, hw'.bound, ?_⟩, by rw [helems, hsize]⟩
    show (w.elems ++ List.replicate (n - w.size) default).length ≤ w.capacity
    have hfit := hw'.fit
    rw [length_append, length_replicate]
    rw [size] at hfit ⊢
    omega

/-! ## When it returns -/

/-- The heap can give every capacity on the way to `n` elements. -/
def Provides (heap : KHeap) (n : Nat) : Prop :=
  ∀ k, 16 * 2 ^ k < 2 * n ∨ k = 0 → heap.fits (16 * 2 ^ k) = true

theorem grow_returns (h : Allocated v) (hprov : Provides heap n) (hlt : v.capacity < n) :
    ∃ w, v.grow heap = some w ∧ 2 * max v.capacity 1 ≤ max w.capacity 1 := by
  unfold grow
  by_cases hzero : v.capacity = 0
  · have hfits := hprov 0 (.inr rfl)
    simp only [hzero, if_true]
    refine ⟨⟨v.elems, 16⟩, if_pos hfits, ?_⟩
    show 2 ≤ max 16 1
    decide
  · obtain ⟨k, hk⟩ := h.capacity.resolve_left hzero
    have hpow : 16 * 2 ^ (k + 1) = v.capacity * 2 := by rw [hk]; ring
    have hfits := hprov (k + 1) (.inl (by omega))
    rw [hpow] at hfits
    simp only [hzero, if_false]
    refine ⟨⟨v.elems, v.capacity * 2⟩, if_pos hfits, ?_⟩
    show 2 * max v.capacity 1 ≤ max (v.capacity * 2) 1
    omega

theorem ensureCapacityFrom_returns (h : Allocated v) (hprov : Provides heap n)
    (hfuel : 2 ^ 32 ≤ 2 ^ fuel * max v.capacity 1) :
    ∃ w, ensureCapacityFrom heap fuel n v = some w := by
  induction fuel generalizing v with
  | zero =>
    have hbound := h.bound
    omega
  | succ fuel ih =>
    simp only [ensureCapacityFrom]
    split
    · next hlt =>
      obtain ⟨w, hw, hdouble⟩ := grow_returns h hprov hlt
      have hmore : 2 ^ 32 ≤ 2 ^ fuel * max w.capacity 1 :=
        calc 2 ^ 32 ≤ 2 ^ (fuel + 1) * max v.capacity 1 := hfuel
          _ = 2 ^ fuel * (2 * max v.capacity 1) := by ring
          _ ≤ 2 ^ fuel * max w.capacity 1 := Nat.mul_le_mul_left _ hdouble
      obtain ⟨u, hu⟩ := ih (h.grow hw).1 hmore
      exact ⟨u, by rw [hw]; exact hu⟩
    · exact ⟨v, rfl⟩

theorem resize_returns [Inhabited α] (h : Allocated v) (hprov : v.size < n → Provides heap n) :
    ∃ w, v.resize heap n = some w := by
  unfold resize
  split
  · exact ⟨v, rfl⟩
  · next hgt =>
    obtain ⟨w, hw⟩ : ∃ w, v.ensureCapacity heap n = some w :=
      ensureCapacityFrom_returns h (hprov (Nat.not_le.mp hgt))
        (Nat.le_mul_of_pos_right _ (by omega))
    exact ⟨_, by rw [hw]; rfl⟩

end KVector

end Hltos
