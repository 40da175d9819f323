import Mathlib

/-!
# Bit fields

Reading and writing a field of `k` bits at bit `lo` of a word. Reading is `BitVec.extractLsb'`; a
field that has been written reads back, and every field disjoint from it is unchanged.
-/

namespace Lib.BitField

open BitVec

variable {n k k' : Nat}

/-- Overwrite the `k` bits of `w` from bit `lo` on. -/
def setBits (w : BitVec n) (lo : Nat) (v : BitVec k) : BitVec n :=
  (w &&& ~~~((BitVec.allOnes k).setWidth n <<< lo)) ||| (v.setWidth n <<< lo)

theorem getLsbD_setBits (w : BitVec n) (lo : Nat) (v : BitVec k) {i : Nat} (hi : i < n) :
    (setBits w lo v).getLsbD i =
      if lo ≤ i ∧ i < lo + k then v.getLsbD (i - lo) else w.getLsbD i := by
  simp only [setBits, getLsbD_or, getLsbD_and, getLsbD_not,
    getLsbD_shiftLeft, getLsbD_setWidth, getLsbD_allOnes]
  by_cases hlo : lo ≤ i
  · by_cases hk : i < lo + k
    · have h1 : i - lo < k := by omega
      have h2 : i - lo < n := by omega
      simp [hi, hlo, hk, h1, h2, Nat.not_lt.mpr hlo]
    · have h1 : ¬ i - lo < k := by omega
      simp [hi, hlo, hk, h1, getLsbD_of_ge v (i - lo) (by omega)]
  · simp [hi, hlo, Nat.lt_of_not_le hlo]

theorem extract_setBits_self (w : BitVec n) {lo : Nat} (v : BitVec k) (h : lo + k ≤ n) :
    (setBits w lo v).extractLsb' lo k = v := by
  apply eq_of_getLsbD_eq
  intro i hi
  rw [getLsbD_extractLsb', getLsbD_setBits w lo v (by omega)]
  simp [hi]

theorem extract_setBits_disjoint (w : BitVec n) {lo lo' : Nat} (v : BitVec k)
    (hn : lo' + k' ≤ n) (h : lo' + k' ≤ lo ∨ lo + k ≤ lo') :
    (setBits w lo v).extractLsb' lo' k' = w.extractLsb' lo' k' := by
  apply eq_of_getLsbD_eq
  intro i hi
  have hout : ¬ (lo ≤ lo' + i ∧ lo' + i < lo + k) := by omega
  rw [getLsbD_extractLsb', getLsbD_extractLsb', getLsbD_setBits w lo v (by omega), if_neg hout]

end Lib.BitField
