import Mathlib

/-!
# Linked lists in memory

The nodes are of type `α`, the pointers of type `β`; `loc` is where a node is, `next` and `prev` are
what its fields hold. `Chain` is a singly linked list and `Doubly` a doubly linked one: both say of
a pointer which list of nodes is reached from it. They are stated for given fields, so that a change
of the memory is a change of `next` and `prev`, and what has to be known of it is what these are at
the nodes of the list.
-/

namespace Lib.LinkedList

open List

variable {α β : Type} {loc next next' prev prev' : α → β} {null before start : β} {x y : α}
  {l l1 l2 : List α}

/-! ## Singly linked -/

/-- The nodes from a pointer on, up to the null pointer. -/
def Chain (loc next : α → β) (null : β) : β → List α → Prop
  | start, [] => start = null
  | start, x :: l => start = loc x ∧ Chain loc next null (next x) l

theorem Chain.congr (h : Chain loc next null start l) (heq : ∀ x ∈ l, next' x = next x) :
    Chain loc next' null start l := by
  induction l generalizing start with
  | nil => exact h
  | cons x l ih =>
    obtain ⟨hx, hl⟩ := h
    refine ⟨hx, ?_⟩
    rw [heq x mem_cons_self]
    exact ih hl (fun y hy => heq y (mem_cons_of_mem x hy))

/-- The pointer is null exactly if there is no node. -/
theorem Chain.eq_null_iff (h : Chain loc next null start l) (hloc : ∀ x ∈ l, loc x ≠ null) :
    start = null ↔ l = [] := by
  cases l with
  | nil => exact iff_of_true h rfl
  | cons x l =>
    rw [h.1]
    exact iff_of_false (hloc x mem_cons_self) (cons_ne_nil x l)

/-- Nodes that are numbered, each with a pointer to the following one. -/
theorem chain_range' {loc next : Nat → β} {j n : Nat}
    (hnext : ∀ i, j ≤ i → i < j + n → next i = loc (i + 1))
    (hlast : next (j + n) = null) : Chain loc next null (loc j) (List.range' j (n + 1)) := by
  induction n generalizing j with
  | zero => exact ⟨rfl, hlast⟩
  | succ n ih =>
    refine ⟨rfl, ?_⟩
    rw [hnext j (Nat.le_refl j) (by omega)]
    refine ih (fun i hi hlt => hnext i (by omega) (by omega)) ?_
    rw [Nat.add_right_comm]
    exact hlast

/-! ## Doubly linked -/

/-- The nodes from `start` on; the first one points back to `before`. -/
def Doubly (loc next prev : α → β) (null : β) : β → β → List α → Prop
  | _, start, [] => start = null
  | before, start, x :: l =>
    start = loc x ∧ prev x = before ∧ Doubly loc next prev null (loc x) (next x) l

namespace Doubly

section

variable (h : Doubly loc next prev null before start l)

include h

theorem congr (hnext : ∀ x ∈ l, next' x = next x)
    (hprev : ∀ x ∈ l, prev' x = prev x) : Doubly loc next' prev' null before start l := by
  induction l generalizing before start with
  | nil => exact h
  | cons x l ih =>
    obtain ⟨hx, hb, hl⟩ := h
    refine ⟨hx, ?_, ?_⟩
    · rw [hprev x mem_cons_self]
      exact hb
    · rw [hnext x mem_cons_self]
      exact ih hl (fun y hy => hnext y (mem_cons_of_mem x hy))
        (fun y hy => hprev y (mem_cons_of_mem x hy))

/-- The first node is made to point back elsewhere. -/
theorem rebase {before' : β} (hnodup : l.Nodup)
    (hnext : ∀ y ∈ l, next' y = next y) (hfirst : ∀ y ∈ l.head?, prev' y = before')
    (hprev : ∀ y ∈ l, l.head? ≠ some y → prev' y = prev y) :
    Doubly loc next' prev' null before' start l := by
  cases l with
  | nil => exact h
  | cons x l =>
    obtain ⟨hx, -, hl⟩ := h
    refine ⟨hx, hfirst x rfl, ?_⟩
    rw [hnext x mem_cons_self]
    apply hl.congr (fun y hy => hnext y (mem_cons_of_mem x hy))
    intro y hy
    apply hprev y (mem_cons_of_mem x hy)
    rintro ⟨rfl⟩
    exact (nodup_cons.mp hnodup).1 hy

/-- A new node in front. -/
theorem push (hnodup : l.Nodup) (hx : next' x = start)
    (hbefore : prev' x = before) (hnext : ∀ y ∈ l, next' y = next y)
    (hfirst : ∀ y ∈ l.head?, prev' y = loc x)
    (hprev : ∀ y ∈ l, l.head? ≠ some y → prev' y = prev y) :
    Doubly loc next' prev' null before (loc x) (x :: l) := by
  refine ⟨rfl, hbefore, ?_⟩
  rw [hx]
  exact h.rebase hnodup hnext hfirst hprev

theorem start_eq : start = (l.head?.map loc).getD null := by
  cases l with
  | nil => exact h
  | cons x l => exact h.1

end

section

variable (h : Doubly loc next prev null before start (l1 ++ x :: l2))

include h

theorem next_eq : next x = (l2.head?.map loc).getD null := by
  induction l1 generalizing before start with
  | nil => exact h.2.2.start_eq
  | cons y l1 ih => exact ih h.2.2

theorem prev_eq : prev x = (l1.getLast?.map loc).getD before := by
  induction l1 generalizing before start with
  | nil => exact h.2.1
  | cons y l1 ih =>
    rw [ih h.2.2, getLast?_cons]
    cases l1.getLast? <;> rfl

/-- A node is taken out: its neighbours are made to point to each other. -/
theorem remove (hnodup : (l1 ++ x :: l2).Nodup)
    (hlast : ∀ y ∈ l1.getLast?, next' y = next x) (hfirst : ∀ y ∈ l2.head?, prev' y = prev x)
    (hnext : ∀ y ∈ l1 ++ l2, l1.getLast? ≠ some y → next' y = next y)
    (hprev : ∀ y ∈ l1 ++ l2, l2.head? ≠ some y → prev' y = prev y) :
    Doubly loc next' prev' null before (if l1 = [] then next x else start) (l1 ++ l2) := by
  induction l1 generalizing before start with
  | nil =>
    obtain ⟨-, hb, hl⟩ := h
    rw [hb] at hfirst
    exact hl.rebase (nodup_cons.mp hnodup).2 (fun y hy => hnext y hy (by simp)) hfirst hprev
  | cons y l1 ih =>
    obtain ⟨hy, hb, hl⟩ := h
    obtain ⟨hnotin, hnodup⟩ := nodup_cons.mp hnodup
    have hrest : ∀ z ∈ l1 ++ l2, z ≠ y := by
      rintro z hz rfl
      exact hnotin (mem_append.mpr ((mem_append.mp hz).imp id (mem_cons_of_mem x)))
    refine ⟨hy, ?_, ?_⟩
    · rw [hprev y mem_cons_self (fun heq => hrest y (mem_append_right _ (mem_of_head? heq)) rfl)]
      exact hb
    · have htail :=
        ih hl hnodup (fun z hz => hlast z (by rw [getLast?_cons, hz]; rfl)) (fun z hz hne =>
        hnext z (mem_cons_of_mem y hz) ?_) (fun z hz => hprev z (mem_cons_of_mem y hz))
      · cases l1 with
        | nil =>
          rw [hlast y rfl]
          exact htail
        | cons z l1 =>
          rw [hnext y mem_cons_self]
          · exact htail
          · intro heq
            exact hrest y (mem_append_left _ (mem_of_getLast? heq)) rfl
      · -- the last node of the rest is the last one of all, if there is a rest
        rw [getLast?_cons]
        cases hl1 : l1.getLast? with
        | none =>
          rintro ⟨rfl⟩
          exact hrest _ hz rfl
        | some u =>
          rw [hl1] at hne
          exact hne

end

end Doubly

end Lib.LinkedList
