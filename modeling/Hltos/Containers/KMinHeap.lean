import Mathlib

/-!
# `kmin_heap`: the array-backed binary min-heap

`kmin_heap<TKey, TValue>` keeps `(key, value)` nodes in a `kvector`, with the children of index `i`
at `2i + 1` and `2i + 2`. The scheduler keeps its sleeping processes in one, keyed by wake time.

The functions are those of `kmin_heap.hpp`. What every user of the heap needs first is that no
operation loses or duplicates a node: `insert` adds exactly one (`insert_perm`) and `pop` removes
exactly the one `peak` shows (`pop_perm`). Neither fact needs the heap order.

The order itself is `Ordered`. `pop` puts the last node at the root, and sifting it down restores
the order (`pop_ordered`), so that the root always has the smallest key (`Ordered.root_le`).
-/

namespace Hltos

open Array List Option

/-- `kmin_heap::node`. -/
structure HeapNode (κ ν : Type) where
  key : κ
  value : ν
  deriving DecidableEq, Repr

/-- `kmin_heap`: the nodes, in array order. -/
structure KMinHeap (κ ν : Type) where
  array : Array (HeapNode κ ν)

namespace KMinHeap

variable {κ ν : Type} {h : KMinHeap κ ν}

def empty : KMinHeap κ ν := ⟨#[]⟩

def size (h : KMinHeap κ ν) : Nat := h.array.size

def isEmpty (h : KMinHeap κ ν) : Bool := h.array.size == 0

/-- The nodes as a list, root first. -/
def toList (h : KMinHeap κ ν) : List (HeapNode κ ν) := h.array.toList

/-- The values held by the heap, root first. -/
def values (h : KMinHeap κ ν) : List ν := h.toList.map HeapNode.value

def getLeft (i : Nat) : Nat := i * 2 + 1

def getRight (i : Nat) : Nat := i * 2 + 2

def getParent (i : Nat) : Nat := (i - 1) / 2

/-- `peak`: the value at the root. The `kassert(!empty())` is the `none` case. -/
def peak (h : KMinHeap κ ν) : Option ν := h.array[0]?.map HeapNode.value

/-! ## Moving nodes -/

section Moves

variable {a : Array (HeapNode κ ν)} {i j : Nat}

theorem getElem?_swapIfInBounds (hi : i < a.size) (hj : j < a.size) (k : Nat) :
    (a.swapIfInBounds i j)[k]? = if k = i then a[j]? else if k = j then a[i]? else a[k]? := by
  grind

theorem swapIfInBounds_perm (a : Array (HeapNode κ ν)) (i j : Nat) :
    (a.swapIfInBounds i j).Perm a := by
  rw [swapIfInBounds_def]
  split
  · split
    · exact swap_perm _ _
    · exact Array.Perm.refl a
  · exact Array.Perm.refl a

/-- `j` is a child of `i`. -/
def IsChild (j i : Nat) : Prop := j = getLeft i ∨ j = getRight i

theorem IsChild.lt (h : IsChild j i) : i < j := by
  unfold IsChild getLeft getRight at h
  omega

theorem IsChild.unique {i' : Nat} (h : IsChild j i) (h' : IsChild j i') : i = i' := by
  unfold IsChild getLeft getRight at h h'
  omega

theorem isChild_getParent (h : 0 < j) : IsChild j (getParent j) := by
  unfold IsChild getLeft getRight getParent
  omega

end Moves

section SiftDown

variable [LT κ] [DecidableLT κ] {a : Array (HeapNode κ ν)} {i j root : Nat}

/-- `get_key(i) < get_key(j)`, false when an index is past the end. -/
def keyLt (a : Array (HeapNode κ ν)) (i j : Nat) : Bool :=
  match a[i]?, a[j]? with
  | some x, some y => decide (x.key < y.key)
  | _, _ => false

theorem keyLt_bound (h : keyLt a i j = true) : i < a.size := by
  unfold keyLt at h
  split at h
  · next hx _ => exact (Array.getElem?_eq_some_iff.mp hx).1
  · simp at h

theorem keyLt_iff :
     keyLt a i j = true ↔ ∃ x y, a[i]? = some x ∧ a[j]? = some y ∧ x.key < y.key := by
  unfold keyLt
  split
  · next x y hx hy => simp [hx, hy]
  · next hnone =>
    simp only [Bool.false_eq_true, false_iff]
    rintro ⟨x, y, hx, hy, -⟩
    exact hnone x y hx hy

/-- The left half of `min_heapify`'s choice: the left child if its key is smaller. -/
def smallerLeft (a : Array (HeapNode κ ν)) (root : Nat) : Nat :=
  if keyLt a (getLeft root) root then getLeft root else root

/-- The index `min_heapify` settles on: the root, or the child with the smaller key. -/
def smallest (a : Array (HeapNode κ ν)) (root : Nat) : Nat :=
  if keyLt a (getRight root) (smallerLeft a root) then getRight root else smallerLeft a root

/-- Whatever `min_heapify` swaps with lies further down and inside the array. -/
theorem smallest_bound (h : smallest a root ≠ root) :
    root < smallest a root ∧ smallest a root < a.size := by
  unfold smallest at h ⊢
  split
  · next hr => exact ⟨by unfold getRight; omega, keyLt_bound hr⟩
  · next hr =>
    rw [if_neg hr] at h
    unfold smallerLeft at h ⊢
    split
    · next hl => exact ⟨by unfold getLeft; omega, keyLt_bound hl⟩
    · next hl => exact absurd (if_neg hl) h

theorem smallest_isChild (h : smallest a root ≠ root) : IsChild (smallest a root) root := by
  unfold smallest at h ⊢
  split
  · exact Or.inr rfl
  · next hr =>
    rw [if_neg hr] at h
    unfold smallerLeft at h ⊢
    split
    · exact Or.inl rfl
    · next hl => exact absurd (if_neg hl) h

/-- `min_heapify`: sift the node at `root` down. -/
def minHeapify (a : Array (HeapNode κ ν)) (root : Nat) : Array (HeapNode κ ν) :=
  if _h : smallest a root = root then a
  else minHeapify (a.swapIfInBounds root (smallest a root)) (smallest a root)
termination_by a.size - root
decreasing_by
  have := smallest_bound ‹smallest a root ≠ root›
  simp only [size_swapIfInBounds]
  omega

/-- `pop`: the last node replaces the root and sifts down. -/
def pop (h : KMinHeap κ ν) : KMinHeap κ ν :=
  if h.size ≤ 1 then ⟨h.array.pop⟩
  else
    match h.array.back? with
    | none => h
    | some back => ⟨minHeapify (h.array.set! 0 back).pop 0⟩

theorem minHeapify_perm (a : Array (HeapNode κ ν)) (root : Nat) : (minHeapify a root).Perm a := by
  fun_induction minHeapify a root with
  | case1 a root _ => exact Array.Perm.refl a
  | case2 a root _ ih => exact ih.trans (swapIfInBounds_perm _ _ _)

/-- `pop` removes the root and nothing else. -/
theorem pop_perm {h : KMinHeap κ ν} {x : HeapNode κ ν} {xs : List (HeapNode κ ν)}
    (hx : h.toList = x :: xs) : h.pop.toList.Perm xs := by
  have hsize : h.array.size = xs.length + 1 := by
    exact (congrArg List.length hx).trans (length_cons ..)
  unfold pop
  split
  · next hle =>
    -- a single node: `pop_back` leaves nothing
    have hnil : xs = [] := length_eq_zero_iff.mp (by unfold size at hle; omega)
    subst hnil
    show h.array.pop.toList.Perm []
    rw [toList_pop, show h.array.toList = [x] from hx]
    exact List.Perm.refl _
  · next hlt =>
    have hne : xs ≠ [] := by
      intro hnil; subst hnil
      unfold size at hlt; simp at hsize; omega
    have hback : h.array.back? = some (xs.getLast hne) := by
      rw [← Array.getLast?_toList, show h.array.toList = x :: xs from hx,
        getLast?_eq_getLast_of_ne_nil (cons_ne_nil x xs), getLast_cons hne]
    rw [hback]
    refine (minHeapify_perm _ _).toList.trans ?_
    rw [toList_pop, Array.set!_eq_setIfInBounds, toList_setIfInBounds,
      show h.array.toList = x :: xs from hx, set_cons_zero, dropLast_cons_of_ne_nil hne]
    have hsplit := dropLast_concat_getLast hne
    conv_rhs => rw [← hsplit]
    show ([xs.getLast hne] ++ xs.dropLast).Perm _
    exact perm_append_comm

end SiftDown

section SiftUp

variable [LE κ] [DecidableLE κ]

/-- `get_key(i) <= get_key(j)`, false when an index is past the end. -/
def keyLe (a : Array (HeapNode κ ν)) (i j : Nat) : Bool :=
  match a[i]?, a[j]? with
  | some x, some y => decide (x.key ≤ y.key)
  | _, _ => false

/-- The `while` loop of `insert`: sift the node at `i` up. -/
def siftUp (a : Array (HeapNode κ ν)) (i : Nat) : Array (HeapNode κ ν) :=
  if i = 0 then a
  else if keyLe a (getParent i) i then a
  else siftUp (a.swapIfInBounds i (getParent i)) (getParent i)
termination_by i
decreasing_by unfold getParent; omega

def insert (k : κ) (v : ν) (h : KMinHeap κ ν) : KMinHeap κ ν :=
  let a := h.array.push ⟨k, v⟩
  ⟨siftUp a (a.size - 1)⟩

theorem siftUp_perm (a : Array (HeapNode κ ν)) (i : Nat) : (siftUp a i).Perm a := by
  fun_induction siftUp a i with
  | case1 a => exact Array.Perm.refl a
  | case2 a i _ _ => exact Array.Perm.refl a
  | case3 a i _ _ ih => exact ih.trans (swapIfInBounds_perm _ _ _)

/-- `insert` adds its node and nothing else. -/
theorem insert_perm (k : κ) (v : ν) (h : KMinHeap κ ν) :
    (h.insert k v).toList.Perm (⟨k, v⟩ :: h.toList) := by
  have hs : (siftUp (h.array.push ⟨k, v⟩) ((h.array.push ⟨k, v⟩).size - 1)).toList.Perm
      (h.array.push ⟨k, v⟩).toList := (siftUp_perm _ _).toList
  refine hs.trans ?_
  rw [toList_push]
  exact perm_append_comm

theorem insert_values_perm (k : κ) (v : ν) (h : KMinHeap κ ν) :
  (h.insert k v).values.Perm (v :: h.values) := (insert_perm k v h).map HeapNode.value

end SiftUp

/-! ## The heap order -/

section HeapOrder

variable [LE κ] {a : Array (HeapNode κ ν)} {i j root : Nat}

/-- The key at `i` is not greater than the one at `j`, if there are nodes at both. -/
def KeyLe (a : Array (HeapNode κ ν)) (i j : Nat) : Prop :=
  ∀ x y, a[i]? = some x → a[j]? = some y → x.key ≤ y.key

/-- No node has a smaller key than its parent. -/
def Ordered (a : Array (HeapNode κ ν)) : Prop := ∀ i j, IsChild j i → KeyLe a i j

/-- The order, except that the node at `root` may have a greater key than its children. -/
structure OrderedBut (a : Array (HeapNode κ ν)) (root : Nat) : Prop where
  other : ∀ i j, IsChild j i → i ≠ root → KeyLe a i j
  grand : ∀ i j, IsChild root i → IsChild j root → KeyLe a i j

variable [Std.IsLinearOrder κ]

theorem KeyLe.refl (a : Array (HeapNode κ ν)) (i : Nat) : KeyLe a i i := by
  intro x y hx hy
  cases hx.symm.trans hy
  exact Std.le_refl _

theorem KeyLe.trans {k : Nat} (h : KeyLe a i j) (hj : j < a.size) (h' : KeyLe a j k) :
    KeyLe a i k := by
  intro x z hx hz
  have hy : a[j]? = some a[j] := Array.getElem?_eq_getElem hj
  exact Std.le_trans (h x _ hx hy) (h' _ z hy hz)

/-- The root has the smallest key. -/
theorem Ordered.root_le (h : Ordered a) (hj : j < a.size) : KeyLe a 0 j := by
  induction j using Nat.strongRecOn with
  | _ j ih =>
    by_cases hzero : j = 0
    · subst hzero
      exact .refl a 0
    · have hchild := isChild_getParent (Nat.pos_of_ne_zero hzero)
      have hlt := hchild.lt
      exact (ih _ hlt (by omega)).trans (by omega) (h _ _ hchild)

variable [LT κ] [DecidableLT κ] [Std.LawfulOrderLT κ]

omit [Std.IsLinearOrder κ] in
theorem keyLe_of_keyLt (h : keyLt a i j = true) : KeyLe a i j := by
  obtain ⟨x, y, hx, hy, hlt⟩ := keyLt_iff.mp h
  intro x' y' hx' hy'
  cases hx.symm.trans hx'
  cases hy.symm.trans hy'
  exact Std.le_of_lt hlt

theorem keyLe_of_not_keyLt (h : keyLt a i j ≠ true) : KeyLe a j i := by
  intro y x hy hx
  rw [← Std.not_lt]
  exact fun hlt => h (keyLt_iff.mpr ⟨x, y, hx, hy, hlt⟩)

/-- `min_heapify` goes on with the smallest of the three nodes. -/
theorem smallest_keyLe (hroot : root < a.size) : KeyLe a (smallest a root) root ∧
    ∀ j, IsChild j root → KeyLe a (smallest a root) j := by
  have hleft : KeyLe a (smallerLeft a root) root ∧ KeyLe a (smallerLeft a root) (getLeft root) ∧
      smallerLeft a root < a.size := by
    unfold smallerLeft
    split
    · next h => exact ⟨keyLe_of_keyLt h, .refl a _, keyLt_bound h⟩
    · next h => exact ⟨.refl a _, keyLe_of_not_keyLt h, hroot⟩
  obtain ⟨h1, h2, hsize⟩ := hleft
  unfold smallest
  split
  · next h =>
    have hlt := keyLe_of_keyLt h
    refine ⟨hlt.trans hsize h1, ?_⟩
    rintro j (rfl | rfl)
    · exact hlt.trans hsize h2
    · exact .refl a _
  · next h =>
    refine ⟨h1, ?_⟩
    rintro j (rfl | rfl)
    · exact h2
    · exact keyLe_of_not_keyLt h

/-- The node that was greater than its children moves down, and the order holds where it was. -/
theorem OrderedBut.swap (h : OrderedBut a root) (hroot : root < a.size)
    (hne : smallest a root ≠ root) :
    OrderedBut (a.swapIfInBounds root (smallest a root)) (smallest a root) := by
  obtain ⟨hle, hchild⟩ := smallest_keyLe hroot
  have hm := smallest_isChild hne
  have hsize := (smallest_bound hne).2
  generalize smallest a root = m at *
  have hget := getElem?_swapIfInBounds hroot hsize
  have hlt := hm.lt
  constructor
  · intro i j hj hi x y hx hy
    rw [hget] at hx hy
    have hij := hj.lt
    rw [if_neg hi] at hx
    by_cases hir : i = root
    · subst hir
      rw [if_pos rfl] at hx
      rw [if_neg (by omega)] at hy
      by_cases hjm : j = m
      · rw [if_pos hjm] at hy
        exact hle x y hx hy
      · rw [if_neg hjm] at hy
        exact hchild j hj x y hx hy
    · rw [if_neg hir] at hx
      by_cases hjr : j = root
      · rw [if_pos hjr] at hy
        exact h.grand i m (hjr ▸ hj) hm x y hx hy
      · have hjm : j ≠ m := by
          rintro rfl
          exact hir (hj.unique hm)
        rw [if_neg hjr, if_neg hjm] at hy
        exact h.other i j hj hir x y hx hy
  · intro i j hi hj x y hx hy
    obtain rfl : i = root := hi.unique hm
    have hmj := hj.lt
    rw [hget, if_pos rfl] at hx
    rw [hget, if_neg (by omega), if_neg (by omega)] at hy
    exact h.other m j hj (by omega) x y hx hy

theorem minHeapify_ordered (h : OrderedBut a root) (hroot : root < a.size) :
    Ordered (minHeapify a root) := by
  fun_induction minHeapify a root with
  | case1 a root heq =>
    intro i j hj
    by_cases hi : i = root
    · subst hi
      have hchild := (smallest_keyLe hroot).2 j hj
      rwa [heq] at hchild
    · exact h.other i j hj hi
  | case2 a root hne ih =>
    refine ih (h.swap hroot hne) ?_
    rw [size_swapIfInBounds]
    exact (smallest_bound hne).2

/-- The last node goes to the root and is sifted down. -/
theorem pop_ordered {h : KMinHeap κ ν} (ho : Ordered h.array) : Ordered h.pop.array := by
  unfold pop
  split
  · next hle =>
    intro i j hj x y _ hy
    have hlt := hj.lt
    obtain ⟨hsize, -⟩ := Array.getElem?_eq_some_iff.mp hy
    rw [size_pop] at hsize
    unfold size at hle
    omega
  · next hgt =>
    split
    · exact ho
    · next back _ =>
      have hget : ∀ k x, k ≠ 0 → (h.array.set! 0 back).pop[k]? = some x → h.array[k]? = some x := by
        intro k x hk hx
        grind
      apply minHeapify_ordered
      · constructor
        · intro i j hj hi x y hx hy
          have hlt := hj.lt
          exact ho i j hj x y (hget i x hi hx) (hget j y (by omega) hy)
        · intro i j hi
          exact absurd hi.lt (Nat.not_lt_zero i)
      · rw [size_pop, Array.set!_eq_setIfInBounds, size_setIfInBounds]
        unfold size at hgt
        omega

end HeapOrder

/-! ## Reading the root -/

theorem peak_eq_some {v : ν} (hp : h.peak = some v) : ∃ k xs, h.toList = ⟨k, v⟩ :: xs := by
  unfold peak at hp
  rw [← Array.getElem?_toList] at hp
  cases hl : h.array.toList with
  | nil => simp [hl] at hp
  | cons x xs =>
    rw [hl] at hp
    simp only [getElem?_cons_zero, map_some, Option.some.injEq] at hp
    exact ⟨x.key, xs, by rw [toList, hl, ← hp]⟩

theorem peak_eq_none (hp : h.peak = none) : h.toList = [] := by
  unfold peak at hp
  simpa [toList] using hp

end KMinHeap

end Hltos
