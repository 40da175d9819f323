import Mathlib

/-!
# Walks in a graph with labelled edges

From a node, a label leads to at most one other node. A graph is *unambiguous* from a root if no two
paths from there end in the same node, as in a tree. A new edge to a node that is not in use yet
adds one path to such a graph, and no more.
-/

namespace Lib.Walk

open Option

variable {α β : Type}

/-- Follow the labels. -/
def walk (next : α → β → Option α) (x : α) (path : List β) : Option α := path.foldlM next x

variable {next next' : α → β → Option α} {root x y c : α} {label : β} {p q : List β}

@[simp] theorem walk_nil : walk next x [] = some x := rfl

theorem walk_cons : walk next x (label :: p) = (next x label).bind (walk next · p) :=
  List.foldlM_cons

theorem walk_append : walk next x (p ++ q) = (walk next x p).bind (walk next · q) :=
  List.foldlM_append

theorem walk_singleton : walk next x [label] = next x label := by exact Option.bind_fun_some _

theorem walk_concat : walk next x (p ++ [label]) = (walk next x p).bind (next · label) := by
  simp only [walk_append, walk_singleton]

/-- No two paths from the root end in the same node. -/
def Unambiguous (next : α → β → Option α) (root : α) : Prop :=
  ∀ p q y, walk next root p = some y → walk next root q = some y → p = q

/-- `next'` has one more edge than `next`: from `x` to `c`, a node that was not in use. -/
structure AddEdge (next next' : α → β → Option α) (root x : α) (label : β) (c : α) : Prop where
  absent : next x label = none
  edge : next' x label = some c
  other : ∀ y l, ¬ (y = x ∧ l = label) → next' y l = next y l
  fresh : ∀ y l, next y l ≠ some c
  leaf : ∀ l, next c l = none
  ne_root : c ≠ root

namespace AddEdge

section

variable (h : AddEdge next next' root x label c)

include h

/-- No path led to the new node. -/
theorem walk_ne (q : List β) : walk next root q ≠ some c := by
  rcases q.eq_nil_or_concat with rfl | ⟨q, l, rfl⟩
  · exact fun hc => h.ne_root (some.inj hc).symm
  · rw [List.concat_eq_append, walk_concat]
    intro hc
    obtain ⟨y, -, hy⟩ := bind_eq_some_iff.mp hc
    exact h.fresh y l hy

section

variable (hun : Unambiguous next root) (hp : walk next root p = some x)

include hun hp

/-- **One more edge is one more path.** -/
theorem walk_eq [DecidableEq β] (q : List β) :
    walk next' root q = if q = p ++ [label] then some c else walk next root q := by
  have hxc : c ≠ x := fun hx => h.walk_ne p (hx ▸ hp)
  -- from the end of the path: the last edge is the new one only if the rest leads to `x`
  induction q using List.reverseRecOn with
  | nil => simp
  | append_singleton q l ih =>
    rw [walk_concat, ih]
    by_cases hq : q = p ++ [label]
    · have hold : walk next root (q ++ [l]) = none := by
        rw [hq, walk_concat, walk_concat, hp, bind_some, h.absent, Option.bind_none]
      have hne : q ++ [l] ≠ p ++ [label] := by
        intro heq
        have := (List.append_inj' heq rfl).1
        simp [hq] at this
      rw [if_pos hq, if_neg hne, hold, bind_some, h.other c l (fun hc => hxc hc.1), h.leaf]
    · rw [if_neg hq]
      cases hy : walk next root q with
      | none =>
        have hne : q ++ [l] ≠ p ++ [label] := by
          intro heq
          have hqp := (List.append_inj' heq rfl).1
          rw [hqp, hp] at hy
          cases hy
        rw [if_neg hne, walk_concat, hy]
        rfl
      | some y =>
        rw [bind_some]
        by_cases hnew : y = x ∧ l = label
        · obtain ⟨rfl, rfl⟩ := hnew
          rw [hun q p y hy hp, if_pos rfl, h.edge]
        · have hne : q ++ [l] ≠ p ++ [label] := by
            intro heq
            obtain ⟨hqp, hl⟩ := List.append_inj' heq rfl
            rw [hqp, hp] at hy
            exact hnew ⟨(some.inj hy).symm, List.head_eq_of_cons_eq hl⟩
          rw [if_neg hne, h.other y l hnew, walk_concat, hy, bind_some]

/-- The graph stays unambiguous. -/
theorem unambiguous [DecidableEq β] : Unambiguous next' root := by
  intro q r y hq hr
  rw [h.walk_eq hun hp] at hq hr
  split at hq <;> split at hr
  · next hq' hr' => rw [hq', hr']
  · cases hq
    exact absurd hr (h.walk_ne r)
  · cases hr
    exact absurd hq (h.walk_ne q)
  · exact hun q r y hq hr

end

end

end AddEdge

end Lib.Walk
