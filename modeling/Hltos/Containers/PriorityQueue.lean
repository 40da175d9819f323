import Hltos.Containers.KMinHeap
import Hltos.Lib.Transition

/-!
# The heaps as priority queues

`insert` puts its node behind the last one and sifts it up. While it moves, the order fails only
between the node and its parent (`OrderedBelow`). So every run of insertions and removals keeps the
heap order, and draining the heap gives its nodes in order of their keys.

`kmax_heap` is `kmin_heap` with every comparison turned round: the heap over the dual order.
-/

namespace Hltos

open Lib.Transition

/-- `kmax_heap`. -/
abbrev KMaxHeap (κ ν : Type) := KMinHeap κᵒᵈ ν

namespace KMinHeap

section SiftUp

variable {κ ν : Type} [LE κ] {a : Array (HeapNode κ ν)} {i j : Nat}

/-- The order, except that the node at `i` may have a smaller key than its parent. -/
structure OrderedBelow (a : Array (HeapNode κ ν)) (i : Nat) : Prop where
  other : ∀ p c, IsChild c p → c ≠ i → KeyLe a p c
  grand : ∀ p c, IsChild i p → IsChild c i → KeyLe a p c

theorem keyLe_of_keyLe [DecidableLE κ] (h : keyLe a i j = true) : KeyLe a i j := by
  intro x y hx hy
  simpa [keyLe, hx, hy] using h

variable [Std.IsLinearOrder κ]

theorem keyLe_of_not_keyLe [DecidableLE κ] (h : ¬ keyLe a i j = true) : KeyLe a j i := by
  intro y x hy hx
  exact (Std.le_total).resolve_right fun hle => h (by simpa [keyLe, hx, hy] using hle)

/-- The node that was smaller than its parent `p` moves up, and the order holds where it was. -/
theorem OrderedBelow.swap {p : Nat} (h : OrderedBelow a i) (hi : i < a.size) (hp : IsChild i p)
    (hle : KeyLe a i p) : OrderedBelow (a.swapIfInBounds i p) p := by
  have hlt := hp.lt
  have hpsize : p < a.size := by omega
  have hget := getElem?_swapIfInBounds hi hpsize
  constructor
  · -- a pair of the new array is one of the old, or the one that was out of order
    intro q c hc hcp x y hx hy
    have hother := h.other q c hc
    have hgrand := h.grand p c hp
    have hsibling := fun hcp hci => hle.trans hpsize (h.other p c hcp hci)
    grind [KeyLe, IsChild.unique]
  · intro q c hq hc x y hx hy
    have hqp := hq.lt
    have hpc := hc.lt
    have hup := h.other q p hq (Nat.ne_of_lt hlt)
    have hsibling := fun hci => hup.trans hpsize (h.other p c hc hci)
    grind [KeyLe]

variable [DecidableLE κ]

theorem siftUp_ordered (h : OrderedBelow a i) (hi : i < a.size) : Ordered (siftUp a i) := by
  fun_induction siftUp a i with
  | case1 a =>
    intro p c hc
    exact h.other p c hc (Nat.ne_of_gt (Nat.zero_lt_of_lt hc.lt))
  | case2 a i hne hle =>
    intro p c hc
    by_cases hci : c = i
    · subst hci
      obtain rfl := hc.unique (isChild_getParent (Nat.pos_of_ne_zero hne))
      exact keyLe_of_keyLe hle
    · exact h.other p c hc hci
  | case3 a i hne hnot ih =>
    have hp := isChild_getParent (Nat.pos_of_ne_zero hne)
    refine ih (h.swap hi hp (keyLe_of_not_keyLe hnot)) ?_
    rw [Array.size_swapIfInBounds]
    exact Nat.lt_trans hp.lt hi

theorem insert_ordered {h : KMinHeap κ ν} (ho : Ordered h.array) (k : κ) (v : ν) :
    Ordered (h.insert k v).array := by
  have hlast : (h.array.push ⟨k, v⟩).size - 1 = h.array.size := by simp
  have hget : ∀ {j x}, (h.array.push ⟨k, v⟩)[j]? = some x → j ≤ h.array.size := by
    intro j x hx
    have hj := (Array.getElem?_eq_some_iff.mp hx).1
    omega
  apply siftUp_ordered
  · rw [hlast]
    constructor
    · intro p c hc hne x y hx hy
      have hlt := hc.lt
      have hle := hget hy
      rw [Array.getElem?_push, if_neg (by omega)] at hx hy
      exact ho p c hc x y hx hy
    · intro p c _ hc x y _ hy
      exact absurd (hget hy) (Nat.not_le.mpr hc.lt)
  · simp

end SiftUp

/-! ## Runs of the heap -/

variable {κ ν : Type} [LinearOrder κ]

/-- A call of the heap. -/
inductive Call (κ ν : Type) where
  | insert (key : κ) (value : ν)
  | pop

/-- The heap, with the nodes inserted and popped so far. -/
structure Run (κ ν : Type) where
  heap : KMinHeap κ ν
  inserted : List (HeapNode κ ν)
  popped : List (HeapNode κ ν)

/-- One call. `pop` asserts that the heap is not empty. -/
def Call.next : Call κ ν → Run κ ν → Option (Run κ ν)
  | .insert k v, r => some ⟨r.heap.insert k v, ⟨k, v⟩ :: r.inserted, r.popped⟩
  | .pop, r => r.heap.toList.head?.map fun x => ⟨r.heap.pop, r.inserted, x :: r.popped⟩

/-- The runs from the empty heap. -/
def runs : System (Run κ ν) (Call κ ν) := ⟨(· = ⟨empty, [], []⟩), Call.next⟩

/-- Popping until empty: the nodes in the order they come out. -/
def drain : Nat → KMinHeap κ ν → List (HeapNode κ ν)
  | 0, _ => []
  | n + 1, h => h.toList.head?.toList ++ drain n h.pop

/-- The heap is a priority queue for the pairs inserted and not popped. -/
structure Run.Queue (first : κ → κ → Prop) (r : Run κ ν) : Prop where
  ordered : ∀ i j x y, IsChild j i → r.heap.array[i]? = some x → r.heap.array[j]? = some y →
    first x.key y.key
  nodes : r.inserted.Perm (r.popped ++ r.heap.toList)
  empty : r.heap.peak = none → r.heap.toList = []
  root : ∀ v, r.heap.peak = some v → ∃ k rest, r.heap.toList = ⟨k, v⟩ :: rest ∧
    (∀ y ∈ rest, first k y.key) ∧ r.heap.pop.toList.Perm rest
  drained : (drain r.heap.size r.heap).Perm r.heap.toList
  sorted : (drain r.heap.size r.heap).Pairwise (first ·.key ·.key)

theorem Ordered.head_le {h : KMinHeap κ ν} (ho : Ordered h.array) {x : HeapNode κ ν}
    {rest : List (HeapNode κ ν)} (hx : h.toList = x :: rest) : ∀ y ∈ rest, x.key ≤ y.key := by
  have hget : ∀ i, h.array[i]? = (x :: rest)[i]? := fun i => by
    rw [← Array.getElem?_toList]
    exact congrArg (·[i]?) hx
  intro y hy
  obtain ⟨i, hi⟩ := List.mem_iff_getElem?.mp hy
  have hnode := (hget (i + 1)).trans hi
  exact ho.root_le (Array.getElem?_eq_some_iff.mp hnode).1 x y (hget 0) hnode

theorem drain_spec {n : Nat} {h : KMinHeap κ ν} (ho : Ordered h.array) (hn : h.toList.length = n) :
    (drain n h).Perm h.toList ∧ (drain n h).Pairwise (·.key ≤ ·.key) := by
  induction n generalizing h with
  | zero =>
    rw [List.length_eq_zero_iff.mp hn]
    exact ⟨.refl _, .nil⟩
  | succ n ih =>
    obtain ⟨x, rest, hx⟩ := List.exists_cons_of_length_eq_add_one hn
    have hperm := pop_perm hx
    rw [hx, List.length_cons, Nat.add_right_cancel_iff] at hn
    obtain ⟨hall, hsorted⟩ := ih (pop_ordered ho) (hperm.length_eq.trans hn)
    have hrest := hall.trans hperm
    rw [drain, hx]
    exact ⟨hrest.cons x, .cons (fun y hy => ho.head_le hx y (hrest.mem_iff.mp hy)) hsorted⟩

/-- What every call keeps: the order, and the account of the nodes. -/
def Run.Inv (r : Run κ ν) : Prop :=
  Ordered r.heap.array ∧ r.inserted.Perm (r.popped ++ r.heap.toList)

theorem Call.next_inv {c : Call κ ν} {r r' : Run κ ν} (hi : r.Inv) (h : c.next r = some r') :
    r'.Inv := by
  cases c with
  | insert k v =>
    cases h
    refine ⟨insert_ordered hi.1 k v, ?_⟩
    have hperm := (insert_perm k v r.heap).append_left r.popped
    exact ((hi.2.cons _).trans List.perm_middle.symm).trans hperm.symm
  | pop =>
    obtain ⟨x, hx, rfl⟩ := Option.map_eq_some_iff.mp h
    obtain ⟨rest, hlist⟩ := List.head?_eq_some_iff.mp hx
    have hnodes := hi.2
    rw [hlist] at hnodes
    refine ⟨pop_ordered hi.1, hnodes.trans (List.perm_middle.trans ?_)⟩
    exact ((pop_perm hlist).append_left r.popped).symm.cons x

theorem queue_of_reachable {r : Run κ ν} (h : runs.Reachable r) : r.Queue (· ≤ ·) := by
  obtain ⟨ho, hn⟩ : r.Inv := by
    refine System.Reachable.invariant ?_ (fun _ _ _ => Call.next_inv) h
    rintro _ rfl
    exact ⟨fun _ _ _ _ _ hx => absurd hx (by simp [empty]), .refl _⟩
  obtain ⟨hall, hsorted⟩ := drain_spec ho rfl
  refine ⟨fun i j x y hj => ho i j hj x y, hn, peak_eq_none, fun v hv => ?_, hall, hsorted⟩
  obtain ⟨k, rest, hx⟩ := peak_eq_some hv
  exact ⟨k, rest, hx, ho.head_le hx, pop_perm hx⟩

/-- **Both heaps are priority queues**: `kmin_heap` by smallest and `kmax_heap` by greatest key. -/
theorem heaps_queue : (∀ r : Run κ ν, runs.Reachable r → r.Queue (· ≤ ·)) ∧
    ∀ (h : KMaxHeap κ ν) inserted popped, runs.Reachable (⟨h, inserted, popped⟩ : Run κᵒᵈ ν) →
      (⟨h, inserted, popped⟩ : Run κᵒᵈ ν).Queue
        fun k k' => OrderDual.ofDual k' ≤ OrderDual.ofDual k :=
  ⟨fun _ => queue_of_reachable, fun _ _ _ => queue_of_reachable⟩

theorem insertTwo_queue : ∃ r : Run Nat Nat,
    runs.Reachable r ∧ r.inserted.length = 2 ∧ r.Queue (· ≤ ·) := by
  have hr : runs.Reachable ⟨(empty.insert 5 0).insert 3 1, [⟨3, 1⟩, ⟨5, 0⟩], []⟩ :=
    .tail (l := .insert 3 1) (.tail (l := .insert 5 0) (.start rfl) trivial rfl) trivial rfl
  exact ⟨_, hr, rfl, heaps_queue.1 _ hr⟩

end KMinHeap

end Hltos
