import Mathlib

/-!
# A memory of bytes, read and written by words

Addresses are 64-bit words and wrap around. A range of `n` bytes from `a` on is all that is less
than `n` above `a`, so that nothing has to be said about where it ends. `load` and `store` are
little-endian. `words` reads an array of words; `pushAll` writes one downwards, as a machine with a
stack does.
-/

namespace Lib.ByteMemory

open BitVec List

abbrev Mem := BitVec 64 → BitVec 8

variable {m m' : Mem} {a b x v : BitVec 64} {n k : Nat} {fields : List (Nat × BitVec 64)}
  {dst src : BitVec 64}

/-- `x` is one of the `n` bytes from `a` on. -/
def Within (a : BitVec 64) (n : Nat) (x : BitVec 64) : Prop := (x - a).toNat < n

instance : Decidable (Within a n x) := inferInstanceAs (Decidable (_ < _))

/-- No byte is in both ranges. -/
def Apart (a : BitVec 64) (n : Nat) (b : BitVec 64) (k : Nat) : Prop :=
  ∀ x, Within a n x → ¬ Within b k x

theorem Apart.symm (h : Apart a n b k) : Apart b k a n := fun x hb ha => h x ha hb

/-- A range inside another one. -/
theorem Within.trans (h : Within b k x) (hb : (b - a).toNat + k ≤ n) : Within a n x := by
  unfold Within at *
  have hx := x.isLt
  have ha := a.isLt
  have hlt := b.isLt
  rw [toNat_sub] at *
  omega

theorem Apart.mono {c : BitVec 64} {l : Nat} (h : Apart a n b k) (hc : (c - a).toNat + l ≤ n) :
    Apart c l b k :=
  fun x hx => h x (hx.trans hc)

/-- One range ends before the other one starts. -/
theorem apart_of_le (h : a.toNat + n ≤ b.toNat) (hb : b.toNat + k ≤ 2 ^ 64) : Apart a n b k := by
  intro x hx hx'
  unfold Within at *
  have hlt := x.isLt
  rw [toNat_sub] at *
  omega

/-- The bytes right below. -/
theorem apart_below (h : n + k ≤ 2 ^ 64) : Apart a n (a - BitVec.ofNat 64 k) k := by
  intro x hx hx'
  unfold Within at *
  have hlt := x.isLt
  have ha := a.isLt
  simp only [toNat_sub, toNat_ofNat] at *
  omega

/-- The bytes right above. -/
theorem apart_above (h : n + k ≤ 2 ^ 64) : Apart a n (a + BitVec.ofNat 64 n) k := by
  intro x hx hx'
  unfold Within at *
  have hlt := x.isLt
  have ha := a.isLt
  simp only [toNat_sub, toNat_add, toNat_ofNat] at *
  omega

theorem sub_self_toNat (a : BitVec 64) : (a - a).toNat = 0 := by
  rw [BitVec.sub_self]
  rfl

/-- An address is what is left of it after rounding down, and what was cut off. -/
theorem and_not_add_and (a mask : BitVec 64) : (a &&& ~~~mask) + (a &&& mask) = a := by
  rw [add_eq_or_of_and_eq_zero]
  · ext i
    grind
  · ext i
    grind

theorem toNat_add_sub (h : k < 2 ^ 64) : (a + BitVec.ofNat 64 k - a).toNat = k := by
  rw [toNat_sub, toNat_add, toNat_ofNat]
  have ha := a.isLt
  omega

/-! ## Words -/

def load (m : Mem) (a : BitVec 64) : BitVec 64 :=
  m (a + 7) ++ m (a + 6) ++ m (a + 5) ++ m (a + 4) ++ m (a + 3) ++ m (a + 2) ++ m (a + 1) ++
    m (a + 0)

def store (m : Mem) (a v : BitVec 64) : Mem :=
  fun x => if (x - a).toNat < 8 then v.extractLsb' (8 * (x - a).toNat) 8 else m x

theorem store_of_not_within (h : ¬ Within a 8 x) : store m a v x = m x := if_neg h

theorem store_add (hk : k < 8) : store m a v (a + .ofNat 64 k) = v.extractLsb' (8 * k) 8 := by
  have h := toNat_add_sub (a := a) (k := k) (by omega)
  rw [store, h, if_pos hk]

/-- A word is its bytes. -/
theorem append_bytes (v : BitVec 64) :
    (v.extractLsb' 56 8 ++ v.extractLsb' 48 8 ++ v.extractLsb' 40 8 ++
    v.extractLsb' 32 8 ++ v.extractLsb' 24 8 ++ v.extractLsb' 16 8 ++ v.extractLsb' 8 8 ++
    v.extractLsb' 0 8 : BitVec 64) = v := by
  rw [extractLsb'_append_extractLsb'_eq_extractLsb' (by rfl),
    extractLsb'_append_extractLsb'_eq_extractLsb' (by rfl),
    extractLsb'_append_extractLsb'_eq_extractLsb' (by rfl),
    extractLsb'_append_extractLsb'_eq_extractLsb' (by rfl),
    extractLsb'_append_extractLsb'_eq_extractLsb' (by rfl),
    extractLsb'_append_extractLsb'_eq_extractLsb' (by rfl),
    extractLsb'_append_extractLsb'_eq_extractLsb' (by rfl)]
  exact extractLsb'_eq_self

/-- Eight bytes make the word they are the bytes of. -/
theorem load_eq (h : ∀ k < 8, m (a + BitVec.ofNat 64 k) = v.extractLsb' (8 * k) 8) :
    load m a = v := by
  unfold load
  rw [show m (a + 0) = v.extractLsb' 0 8 from h 0 (by decide),
    show m (a + 1) = v.extractLsb' 8 8 from h 1 (by decide),
    show m (a + 2) = v.extractLsb' 16 8 from h 2 (by decide),
    show m (a + 3) = v.extractLsb' 24 8 from h 3 (by decide),
    show m (a + 4) = v.extractLsb' 32 8 from h 4 (by decide),
    show m (a + 5) = v.extractLsb' 40 8 from h 5 (by decide),
    show m (a + 6) = v.extractLsb' 48 8 from h 6 (by decide),
    show m (a + 7) = v.extractLsb' 56 8 from h 7 (by decide)]
  exact append_bytes v

/-- What is stored is loaded. -/
theorem load_store : load (store m a v) a = v := load_eq (fun _ hk => store_add hk)

theorem load_congr (h : ∀ x, Within a 8 x → m' x = m x) : load m' a = load m a := by
  have hbyte : ∀ k < 8, m' (a + .ofNat 64 k) = m (a + .ofNat 64 k) := by
    intro k hk
    apply h
    rw [Within, toNat_add_sub (by omega)]
    exact hk
  unfold load
  rw [show m' (a + 0) = m (a + 0) from hbyte 0 (by decide),
    show m' (a + 1) = m (a + 1) from hbyte 1 (by decide),
    show m' (a + 2) = m (a + 2) from hbyte 2 (by decide),
    show m' (a + 3) = m (a + 3) from hbyte 3 (by decide),
    show m' (a + 4) = m (a + 4) from hbyte 4 (by decide),
    show m' (a + 5) = m (a + 5) from hbyte 5 (by decide),
    show m' (a + 6) = m (a + 6) from hbyte 6 (by decide),
    show m' (a + 7) = m (a + 7) from hbyte 7 (by decide)]

theorem load_store_of_apart (h : Apart b 8 a 8) : load (store m a v) b = load m b :=
  load_congr (fun x hx => store_of_not_within (h x hx))

/-! ## Arrays of words -/

/-- The `n` words from `a` on. -/
def words (m : Mem) : BitVec 64 → Nat → List (BitVec 64)
  | _, 0 => []
  | a, n + 1 => load m a :: words m (a + 8) n

theorem length_words (m : Mem) (a : BitVec 64) (n : Nat) : (words m a n).length = n := by
  induction n generalizing a with
  | zero => rfl
  | succ n ih => rw [words, length_cons, ih]

theorem words_congr (hn : 8 * n ≤ 2 ^ 64) (h : ∀ x, Within a (8 * n) x → m' x = m x) :
    words m' a n = words m a n := by
  induction n generalizing a with
  | zero => rfl
  | succ n ih =>
    have hself := sub_self_toNat a
    have hnext : (a + 8 - a).toNat = 8 := toNat_add_sub (k := 8) (by decide)
    rw [words, words, ih (by omega) (fun x hx => h x (hx.trans (by omega))),
      load_congr (fun x hx => h x (hx.trans (by omega)))]

theorem words_append (m : Mem) (a : BitVec 64) (n k : Nat) :
    words m a (n + k) = words m a n ++ words m (a + .ofNat 64 (8 * n)) k := by
  induction n generalizing a with
  | zero => simp [words]
  | succ n ih =>
    have hadd : a + 8 + .ofNat 64 (8 * n) = a + .ofNat 64 (8 * (n + 1)) := by
      rw [Nat.mul_add, BitVec.ofNat_add, BitVec.add_assoc, BitVec.add_comm (8 : BitVec 64)]
      rfl
    rw [Nat.add_right_comm, words, words, ih, hadd, List.cons_append]

/-- A word of the array is written. -/
theorem words_set {i : Nat} (hn : 8 * n ≤ 2 ^ 64) (hi : i < n) :
    words (store m (a + .ofNat 64 (8 * i)) v) a n = (words m a n).set i v := by
  induction n generalizing a i with
  | zero => omega
  | succ n ih =>
    cases i with
    | zero =>
      have hzero := BitVec.add_zero a
      have hrest : Apart (a + 8) (8 * n) a 8 := (apart_above (n := 8) (by omega)).symm
      rw [hzero, words, words, load_store, List.set_cons_zero,
        words_congr (by omega) (fun x hx => store_of_not_within (hrest x hx))]
    | succ i =>
      have hfirst : Apart a 8 (a + .ofNat 64 (8 * (i + 1))) 8 :=
        (apart_above (n := 8 * (i + 1)) (by omega)).mono (by rw [sub_self_toNat]; omega)
      have hadd : a + .ofNat 64 (8 * (i + 1)) = a + 8 + .ofNat 64 (8 * i) := by
        rw [Nat.mul_add, BitVec.ofNat_add, BitVec.add_assoc, BitVec.add_comm (8 : BitVec 64)]
        rfl
      rw [words, words, List.set_cons_succ, load_store_of_apart hfirst, hadd,
        ih (by omega) (by omega)]

/-- Assign words of the array one after the other, by their index. -/
def storeFields (m : Mem) (a : BitVec 64) (fields : List (Nat × BitVec 64)) : Mem :=
  fields.foldl (fun m f => store m (a + BitVec.ofNat 64 (8 * f.1)) f.2) m

section

variable (hn : 8 * n ≤ 2 ^ 64) (hfields : ∀ f ∈ fields, f.1 < n)

include hn hfields

theorem words_storeFields :
    words (storeFields m a fields) a n =
      fields.foldl (fun ws f => ws.set f.1 f.2) (words m a n) := by
  induction fields generalizing m with
  | nil => rfl
  | cons f fields ih =>
    have htail := ih (m := store m (a + .ofNat 64 (8 * f.1)) f.2)
      (fun g hg => hfields g (mem_cons_of_mem f hg))
    rw [words_set hn (hfields f mem_cons_self)] at htail
    exact htail

theorem storeFields_of_not_within (hx : ¬ Within a (8 * n) x) : storeFields m a fields x = m x := by
  induction fields generalizing m with
  | nil => rfl
  | cons f fields ih =>
    have hf := hfields f mem_cons_self
    have htail := ih (m := store m (a + .ofNat 64 (8 * f.1)) f.2)
      (fun g hg => hfields g (mem_cons_of_mem f hg))
    refine htail.trans (store_of_not_within (fun h => hx (h.trans ?_)))
    rw [toNat_add_sub (by omega)]
    omega

end

/-- Copy `n` words, the first one first. -/
def copyWords (m : Mem) (src dst : BitVec 64) : Nat → Mem
  | 0 => m
  | n + 1 =>
    let m := copyWords m src dst n
    store m (dst + BitVec.ofNat 64 (8 * n)) (load m (src + BitVec.ofNat 64 (8 * n)))

theorem copyWords_of_not_within (hn : 8 * n ≤ 2 ^ 64)
    (hx : ¬ Within dst (8 * n) x) : copyWords m src dst n x = m x := by
  induction n with
  | zero => rfl
  | succ n ih =>
    have hlast : ¬ Within (dst + .ofNat 64 (8 * n)) 8 x := by
      refine fun h => hx (h.trans ?_)
      rw [toNat_add_sub (by omega)]
      omega
    have hrest : ¬ Within dst (8 * n) x := fun h => hx (Nat.lt_of_lt_of_le h (by omega))
    rw [copyWords, store_of_not_within hlast, ih (by omega) hrest]

theorem words_copyWords (hn : 8 * n ≤ 2 ^ 64)
    (h : Apart src (8 * n) dst (8 * n)) : words (copyWords m src dst n) dst n = words m src n := by
  induction n with
  | zero => rfl
  | succ n ih =>
    have hsrc : load (copyWords m src dst n) (src + .ofNat 64 (8 * n)) =
        load m (src + .ofNat 64 (8 * n)) := by
      apply load_congr
      intro x hx
      apply copyWords_of_not_within (by omega)
      intro hin
      refine h x (hx.trans ?_) (Nat.lt_of_lt_of_le hin (by omega))
      rw [toNat_add_sub (by omega)]
      omega
    have hhead : words (copyWords m src dst (n + 1)) dst n =
        words (copyWords m src dst n) dst n := by
      apply words_congr (by omega)
      exact fun x hx => store_of_not_within (apart_above (by omega) x hx)
    rw [words_append, words_append, hhead, ih (by omega) (fun x hx hx' => h x
      (Nat.lt_of_lt_of_le hx (by omega)) (Nat.lt_of_lt_of_le hx' (by omega)))]
    simp only [words, copyWords, load_store, hsrc]

/-! ## Pushing -/

/-- Push the words one after the other, with the stack pointer at `a`. -/
def pushAll (m : Mem) (a : BitVec 64) : List (BitVec 64) → Mem
  | [] => m
  | v :: vs => pushAll (store m (a - 8) v) (a - 8) vs

theorem words_push (hn : 8 * (n + 1) ≤ 2 ^ 64) :
    words (store m (a - 8) v) (a - 8) (n + 1) = v :: words m a n := by
  have hset := words_set (m := m) (a := a - 8) (v := v) hn (Nat.succ_pos n)
  rw [show a - 8 + .ofNat 64 (8 * 0) = a - 8 from BitVec.add_zero _] at hset
  rw [hset, words, List.set_cons_zero, BitVec.sub_add_cancel]

theorem sub_mul (a : BitVec 64) (n : Nat) :
    a - 8 - .ofNat 64 (8 * n) = a - .ofNat 64 (8 * (n + 1)) := by
  apply eq_of_toNat_eq
  rw [toNat_sub, toNat_sub, toNat_sub, toNat_ofNat, toNat_ofNat,
    show (8 : BitVec 64).toNat = 8 from rfl]
  omega

/-- The stack pointer after `n` pushes. -/
theorem iterate_sub (a : BitVec 64) (n : Nat) : (· - 8)^[n] a = a - BitVec.ofNat 64 (8 * n) := by
  induction n generalizing a with
  | zero => simp
  | succ n ih => rw [Function.iterate_succ_apply, ih, sub_mul]

theorem pushAll_append (m : Mem) (a : BitVec 64) (vs ws : List (BitVec 64)) :
    pushAll m a (vs ++ ws) = pushAll (pushAll m a vs) (a - .ofNat 64 (8 * vs.length)) ws := by
  induction vs generalizing m a with
  | nil => simp [pushAll]
  | cons v vs ih => rw [List.cons_append, pushAll, ih, sub_mul, pushAll, List.length_cons]

/-- What was pushed last comes first. -/
theorem words_pushAll (m : Mem) (a : BitVec 64) (vs : List (BitVec 64)) (n : Nat)
    (hn : 8 * (vs.length + n) ≤ 2 ^ 64) :
    words (pushAll m a vs) (a - .ofNat 64 (8 * vs.length)) (vs.length + n) =
      vs.reverse ++ words m a n := by
  induction vs generalizing m a n with
  | nil => simp [pushAll]
  | cons v vs ih =>
    rw [length_cons] at hn
    have h := ih (store m (a - 8) v) (a - 8) (n + 1) (by omega)
    rw [words_push (by omega), sub_mul] at h
    rw [pushAll, length_cons, Nat.add_right_comm, Nat.add_assoc, h]
    simp

theorem pushAll_of_not_within (vs : List (BitVec 64)) (hn : 8 * vs.length ≤ 2 ^ 64)
    (h : ¬ Within (a - .ofNat 64 (8 * vs.length)) (8 * vs.length) x) : pushAll m a vs x = m x := by
  induction vs generalizing m a with
  | nil => rfl
  | cons v vs ih =>
    rw [length_cons] at hn h
    have hfirst : (a - 8 - (a - .ofNat 64 (8 * (vs.length + 1)))).toNat = 8 * vs.length := by
      rw [toNat_sub, toNat_sub, toNat_sub, toNat_ofNat, show (8 : BitVec 64).toNat = 8 from rfl]
      have ha := a.isLt
      omega
    have hrest : ¬ Within (a - 8 - .ofNat 64 (8 * vs.length)) (8 * vs.length) x := by
      intro hx
      rw [sub_mul] at hx
      exact h (Nat.lt_of_lt_of_le hx (by omega))
    rw [pushAll, ih (by omega) hrest, store_of_not_within]
    intro hx
    exact h (hx.trans (by omega))

end Lib.ByteMemory
