import Hltos.Memory.Clone

/-!
# Teardown

`free_user_pml4` takes the user half down from the leaves: a page or an empty table is freed and its
entry cleared in one step, so that after every step the space owns what is still reached from its
root. At the end that is the root alone, which is freed last.
-/

namespace Hltos

open Lib.Radix FrameAllocator Pte List

namespace Vmm

variable {σ : Type} [FrameAllocator σ] {s s' s'' : Vmm σ} {r f : Frame} {i : Idx}
  {π : List Idx} {H : Idx → Prop} {K : Set Frame} {X Y : List Idx → Prop} {τ : List Idx}
  {below' : Frame → Vmm σ → Vmm σ}

/-- The entries at the paths in `X` have been cleared and what they pointed to freed; the other
entries are as they were. -/
structure Clears (H : Idx → Prop) (r : Frame) (K : Set Frame) (X : List Idx → Prop)
    (s s' : Vmm σ) : Prop where
  keeps : Keeps H r K s s'
  exact : Exact H r K s → Exact H r K s'
  gone : ∀ i, ∀ τ ∈ below H 3, X (i :: τ) → find s'.mem r (i :: τ) = none
  other : ∀ i, ∀ τ ∈ below H 3, ¬ X (i :: τ) → find s'.mem r (i :: τ) = find s.mem r (i :: τ)

theorem Clears.trans (h : Clears H r K X s s') (h' : Clears H r K Y s' s'') :
    Clears H r K (fun τ => X τ ∨ Y τ) s s'' := by
  refine ⟨h.keeps.trans h'.keeps, fun hx => h'.exact (h.exact hx), ?_, ?_⟩
  · intro i τ hτ hXY
    by_cases hY : Y (i :: τ)
    · exact h'.gone i τ hτ hY
    · rw [h'.other i τ hτ hY]
      exact h.gone i τ hτ (hXY.resolve_right hY)
  · intro i τ hτ hXY
    rw [not_or] at hXY
    rw [h'.other i τ hτ hXY.2, h.other i τ hτ hXY.1]

theorem Clears.congr (h : Clears H r K X s s')
    (hXY : ∀ i, ∀ τ ∈ below H 3, Y (i :: τ) ↔ X (i :: τ)) : Clears H r K Y s s' :=
  ⟨h.keeps, h.exact, fun i τ hτ hY => h.gone i τ hτ ((hXY i τ hτ).mp hY),
    fun i τ hτ hY => h.other i τ hτ (fun hX => hY ((hXY i τ hτ).mpr hX))⟩

theorem Owns.nothing_to_clear (ho : Owns H r K s)
    (hX : ∀ i, ∀ τ ∈ below H 3, X (i :: τ) → find s.mem r (i :: τ) = none) : Clears H r K X s s :=
  ⟨.refl ho, id, hX, fun _ _ _ _ => rfl⟩

theorem Clears.table (h : Clears H r K X s s') (hτ : τ ∈ below H 3) (hX : ¬ X τ) :
    table s'.mem r τ = Lib.Radix.table s.mem r τ := by
  cases τ with
  | nil => rfl
  | cons i τ => rw [table_cons, table_cons, h.other i τ ((below H 3).tail hτ) hX]

/-- Clearing one entry behind which nothing is left. -/
theorem Owns.freeEntry (ho : Owns H r K s) (hi : i :: π ∈ below H 4)
    (ht : table s.mem r π = some f) (hp : p (s.mem f i) = true)
    (hempty : i :: π ∈ below H 3 → ∀ j, find s.mem r (j :: i :: π) = none) :
    Clears H r K (· = i :: π) s (s.freeEntry f i) := by
  have hπ : π ∈ below H 3 := tail_mem_below hi
  have hw : child (setP 0 (s.mem f i)) = none := by
    rw [child_eq_none, p_setP]
    rfl
  have hre : Rebound (below H 3) s.mem (s.freeEntry f i).mem r (i :: π) none := by
    by_cases hmem : i :: π ∈ below H 3
    · exact rebound_unlink ho.tables.separated hπ ht hw (hempty hmem)
    · have := rebound_leaf ho.tables.separated hπ ht hmem (setP 0 (s.mem f i))
      rwa [present_eq_none.mpr hw] at this
  have hold : table s.mem r (i :: π) = some (addr (s.mem f i)) := by
    rw [table_cons_of_table ht, child_of_p hp]
  have hpmm : allocated (s.freeEntry f i).pmm = allocated s.pmm \ {addr (s.mem f i)} :=
    free_allocated _ _
  refine ⟨⟨?_, ?_, ?_, ⟨rfl, rfl, rfl⟩⟩, ?_, ?_, ?_⟩
  · apply ho.rebound hi (by simp) hre (by simp)
    intro g hg hne
    rw [hpmm]
    exact ⟨hg, fun heq => hne (by rw [hold, Set.mem_singleton_iff.mp heq])⟩
  · intro g hg
    apply setEntry_of_ne
    rintro rfl
    exact ho.not_table hg (mem_frames hπ ht)
  · intro j hj
    show setEntry s.mem f i _ r j = s.mem r j
    by_cases hjw : r = f ∧ j = i
    · -- an entry of the root itself is one of `H`
      obtain ⟨rfl, rfl⟩ := hjw
      cases ho.tables.separated π hπ [] (below H 3).nil r ht rfl
      exact absurd (singleton_mem_below.mp hi) hj
    · simp [setEntry, hjw]
  · intro hx
    apply hx.rebound hi (by simp) hre
    intro g hg
    rw [hpmm] at hg
    exact Or.inr ⟨hg.1, fun heq => hg.2 (Option.some.inj (heq.symm.trans hold))⟩
  · intro j τ _ heq
    cases heq
    exact hre.here
  · exact fun j τ hτ hne => hre.other j τ hτ hne

/-! ## The loops -/

/-- What is behind an entry: strictly below its path. -/
def Behind (π τ : List Idx) : Prop := π <:+ τ ∧ τ ≠ π

theorem behind_iff : Behind π τ ↔ ∃ i, i :: π <:+ τ := by
  constructor
  · exact fun h => exists_cons_suffix h.1 h.2
  · rintro ⟨i, hs⟩
    refine ⟨(suffix_cons i π).trans hs, ?_⟩
    rintro rfl
    exact not_cons_suffix_self i τ hs

/-- One entry with all that is behind it. -/
theorem Clears.freeSubtree (hi : i :: π ∈ below H 4)
    (ht : Lib.Radix.table s.mem r π = some f) (hp : p (s.mem f i) = true)
    (hbelow : Clears H r K (Behind (i :: π)) s (below' (addr (s.mem f i)) s)) :
    Clears H r K (i :: π <:+ ·) s ((below' (addr (s.mem f i)) s).freeEntry f i) := by
  have hπ : π ∈ below H 3 := tail_mem_below hi
  have ht' : Lib.Radix.table (below' (addr (s.mem f i)) s).mem r π = some f := by
    rw [hbelow.table hπ (fun h => not_cons_suffix_self i π h.1), ht]
  -- the entry itself has not been touched so far
  have he : (below' (addr (s.mem f i)) s).mem f i = s.mem f i := by
    have hfind := hbelow.other i π hπ (fun h => h.2 rfl)
    rw [find_cons_of_table ht', find_cons_of_table ht, present_of_child (child_of_p hp)] at hfind
    exact (eq_of_present hfind).1.symm
  have hfree := hbelow.keeps.owns.freeEntry hi ht' (by rw [he]; exact hp) (fun hmem j =>
    hbelow.gone j _ hmem (behind_iff.mpr ⟨j, suffix_rfl⟩))
  refine (hbelow.trans hfree).congr ?_
  intro j τ _
  constructor
  · intro hs
    by_cases heq : j :: τ = i :: π
    · exact Or.inr heq
    · exact Or.inl ⟨hs, heq⟩
  · rintro (h | heq)
    · exact h.1
    · cases heq
      exact suffix_rfl

/-- One of the nested loops, if the loop inside it clears what is behind an entry. -/
theorem freeEntries_clears {is : List Idx}
    (hbelow : ∀ i ∈ is, ∀ s g, Owns H r K s → table s.mem r (i :: π) = some g →
      Clears H r K (Behind (i :: π)) s (below' g s))
    (his : ∀ i ∈ is, i :: π ∈ below H 4) (hπ : π ∈ below H 3) (ho : Owns H r K s)
    (ht : table s.mem r π = some f) :
    Clears H r K (fun τ => ∃ i ∈ is, i :: π <:+ τ) s (s.freeEntries below' f is) := by
  induction is generalizing s with
  | nil => exact ho.nothing_to_clear (by simp)
  | cons i is ih =>
    have hstep : Clears H r K (i :: π <:+ ·) s
        (if !p (s.mem f i) then s else (below' (addr (s.mem f i)) s).freeEntry f i) := by
      by_cases hp : p (s.mem f i)
      · simp only [hp, Bool.not_true, Bool.false_eq_true, if_false]
        apply Clears.freeSubtree (his i mem_cons_self) ht hp
        apply hbelow i mem_cons_self s _ ho
        rw [table_cons_of_table ht, child_of_p hp]
      · simp only [hp, Bool.not_false, if_true]
        apply ho.nothing_to_clear
        intro j τ _ hs
        have hnone : table s.mem r (i :: π) = none := by
          rw [table_cons_of_table ht, child_eq_none]
          simpa using hp
        exact find_eq_none_iff.mpr (table_eq_none_of_suffix hnone hs)
    have ht' := hstep.table hπ (not_cons_suffix_self i π)
    have hrest := ih (fun j hj => hbelow j (mem_cons_of_mem i hj))
      (fun j hj => his j (mem_cons_of_mem i hj)) hstep.keeps.owns (ht'.trans ht)
    exact (hstep.trans hrest).congr (by simp)

/-- By induction on the levels that are left below the table. -/
theorem freeTables_clears {depth : Nat} (hlen : π.length + depth = 3) (hne : π ≠ [])
    (hπ : π ∈ below H 3) (ho : Owns H r K s) (ht : table s.mem r π = some f) :
    Clears H r K (Behind π) s (freeTables depth f s) := by
  have hmem : ∀ π : List Idx, π ≠ [] → π ∈ below H 3 → ∀ i, i :: π ∈ below H 4 := by
    intro π hne hπ i
    refine ⟨Nat.succ_le_succ hπ.1, ?_⟩
    cases π with
    | nil => exact absurd rfl hne
    | cons j π => simpa using hπ.2
  have hall : ∀ (π : List Idx) (j : Idx), ∀ τ ∈ below H 3,
      (Behind π (j :: τ) ↔ ∃ i ∈ allIdx, i :: π <:+ j :: τ) := by
    intro π j τ _
    rw [behind_iff]
    exact ⟨fun ⟨i, hs⟩ => ⟨i, mem_allIdx i, hs⟩, fun ⟨i, _, hs⟩ => ⟨i, hs⟩⟩
  induction depth generalizing π f s with
  | zero =>
    apply (freeEntries_clears _ (fun i _ => hmem π hne hπ i) hπ ho ht).congr (hall π)
    -- behind a page there is nothing
    intro i _ s g ho _
    apply ho.nothing_to_clear
    rintro j τ hτ ⟨hs, hne'⟩
    have hle := hs.length_le
    have h3 := hτ.1
    simp only [length_cons] at hle
    exact absurd (hs.eq_of_length (by simp; omega)).symm hne'
  | succ depth ih =>
    apply (freeEntries_clears _ (fun i _ => hmem π hne hπ i) hπ ho ht).congr (hall π)
    intro i _ s g ho hg
    refine ih (by simp; omega) (by simp) ⟨by simp; omega, ?_⟩ ho hg
    exact (hmem π hne hπ i).2

/-! ## `free_user_pml4` -/

/-- The frames of the others are as they were, and if nothing was orphaned then they are all that is
still allocated. -/
theorem freeUserPml4_spec {pml4 : Frame} (hne : pml4 ≠ s.kernelPml4)
    (ho : Owns s.userHead pml4 K s) :
    (∀ f ∈ K, (s.freeUserPml4 pml4).mem f = s.mem f ∧ f ∈ allocated (s.freeUserPml4 pml4).pmm) ∧
    (Exact s.userHead pml4 K s → allocated (s.freeUserPml4 pml4).pmm ⊆ K) ∧ Same s
    (s.freeUserPml4 pml4) := by
  have hc : Clears s.userHead pml4 K (fun τ => ∃ i ∈ s.userIdx, [i] <:+ τ) s
      (s.freeEntries (freeTables 2) pml4 s.userIdx) := by
    apply freeEntries_clears _ _ (below s.userHead 3).nil ho rfl
    · intro i hi s' g ho' hg
      apply freeTables_clears rfl (by simp) _ ho' hg
      exact singleton_mem_below.mpr (mem_userIdx.mp hi)
    · exact fun i hi => singleton_mem_below.mpr (mem_userIdx.mp hi)
  have hroot : ∀ f ∈ K, f ≠ pml4 := by
    rintro f hf rfl
    exact ho.apart f hf (root_mem_frames _ _ _)
  rw [freeUserPml4, if_neg hne]
  generalize s.freeEntries (freeTables 2) pml4 s.userIdx = s1 at hc ⊢
  have hpmm : allocated ((s1.zeroPage pml4).free pml4).pmm = allocated s1.pmm \ {pml4} :=
    free_allocated _ _
  refine ⟨fun f hf => ⟨?_, ?_⟩, fun hx f hf => ?_, ?_⟩
  · show setPage s1.mem pml4 _ f = s.mem f
    rw [setPage_of_ne _ _ (hroot f hf), hc.keeps.mem f hf]
  · rw [hpmm]
    exact ⟨hc.keeps.owns.kept hf, hroot f hf⟩
  · rw [hpmm] at hf
    rcases hc.exact hx f hf.1 with hK | ⟨τ, hτ, ht⟩
    · exact hK
    · -- the user half is empty, so the only frame left is the root
      refine absurd ?_ hf.2
      rcases eq_nil_or_concat τ with rfl | ⟨ρ, i, rfl⟩
      · exact (Option.some.inj ht).symm
      · have hi : s.userHead i := hτ.2 i (by simp)
        have hgone := hc.gone i [] (below s.userHead 3).nil ⟨i, mem_userIdx.mpr hi, suffix_rfl⟩
        have hnone := find_eq_none_iff.mp hgone
        rw [table_eq_none_of_suffix hnone ⟨ρ, by simp⟩] at ht
        cases ht
  · exact ⟨hc.keeps.same.kernelPml4, hc.keeps.same.hhdmOffset, hc.keeps.same.kheap⟩

end Vmm

end Hltos
