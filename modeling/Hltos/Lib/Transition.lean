import Mathlib

/-!
# Transition systems with executable steps

A system is a set of initial states and a partial function that takes a label and a state to the
next state. `ReachableUnder ok` restricts the runs to those whose every step satisfies `ok` in the
state it starts from; `Reachable` is the unrestricted case. The one induction over runs is
`ReachableUnder.invariant`: a property of the initial states that every admitted step keeps holds
in every state reached.
-/

namespace Lib.Transition

/-- A labelled transition system whose steps can be evaluated. -/
structure System (S L : Type) where
  init : S → Prop
  next : L → S → Option S

namespace System

variable {S L : Type}

/-- The states reached by runs all of whose steps meet `ok`. -/
inductive ReachableUnder (M : System S L) (ok : L → S → Prop) : S → Prop where
  | start {s : S} : M.init s → M.ReachableUnder ok s
  | tail {s s' : S} {l : L} :
      M.ReachableUnder ok s → ok l s → M.next l s = some s' → M.ReachableUnder ok s'

/-- The states reached by any run. -/
def Reachable (M : System S L) : S → Prop := M.ReachableUnder (fun _ _ => True)

variable {M : System S L} {ok : L → S → Prop}

/-- **The induction over runs**: one step lemma gives the property everywhere. -/
theorem ReachableUnder.invariant {I : S → Prop} (hinit : ∀ s, M.init s → I s)
    (hstep : ∀ s s' l, I s → ok l s → M.next l s = some s' → I s') {s : S}
    (h : M.ReachableUnder ok s) : I s := by
  induction h with
  | start hs => exact hinit _ hs
  | tail _ hok hnext ih => exact hstep _ _ _ ih hok hnext

/-- The unrestricted form, for invariants that no step can break. -/
theorem Reachable.invariant {I : S → Prop} (hinit : ∀ s, M.init s → I s)
    (hstep : ∀ s s' l, I s → M.next l s = some s' → I s') {s : S} (h : M.Reachable s) : I s :=
  ReachableUnder.invariant hinit (fun s s' l hs _ hn => hstep s s' l hs hn) h

/-- A run that meets a condition meets every weaker one. -/
theorem ReachableUnder.mono {ok' : L → S → Prop} {s : S} (h : M.ReachableUnder ok s)
    (himp : ∀ l s, ok l s → ok' l s) : M.ReachableUnder ok' s := by
  induction h with
  | start hs => exact .start hs
  | tail _ hok hnext ih => exact ih.tail (himp _ _ hok) hnext

/-- Evaluate a list of labels. -/
def exec (M : System S L) : List L → S → Option S
  | [], s => some s
  | l :: ls, s => (M.next l s).bind (M.exec ls)

/-- Evaluate a list of labels, stopping at a step that `ok` does not admit. -/
def execUnder (M : System S L) (ok : L → S → Prop) [∀ l s, Decidable (ok l s)] :
    List L → S → Option S
  | [], s => some s
  | l :: ls, s => if ok l s then (M.next l s).bind (M.execUnder ok ls) else none

/-- A state computed by evaluating admitted labels from an initial state is reachable. -/
theorem ReachableUnder.of_execUnder [∀ l s, Decidable (ok l s)] {s s' : S} {ls : List L}
    (hs : M.ReachableUnder ok s) (h : M.execUnder ok ls s = some s') : M.ReachableUnder ok s' := by
  induction ls generalizing s with
  | nil => cases h; exact hs
  | cons l ls ih =>
    unfold execUnder at h
    split at h
    · next hok =>
      obtain ⟨s1, hn, hrest⟩ := Option.bind_eq_some_iff.mp h
      exact ih (hs.tail hok hn) hrest
    · cases h

/-- The unrestricted form. -/
theorem Reachable.of_exec {s s' : S} {ls : List L} (hs : M.Reachable s)
    (h : M.exec ls s = some s') : M.Reachable s' := by
  induction ls generalizing s with
  | nil => cases h; exact hs
  | cons l ls ih =>
    obtain ⟨s1, hn, hrest⟩ := Option.bind_eq_some_iff.mp h
    exact ih (ReachableUnder.tail hs trivial hn) hrest

end System

end Lib.Transition
