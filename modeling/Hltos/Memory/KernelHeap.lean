import Hltos.Lib.ByteMemory
import Hltos.Memory.Contents

/-!
# The kernel heap, page by page

What the allocators of `lib/memory` use of `arch::vmm`: pages that are mapped and unmapped, and
loads and stores. `page` is what the kernel sees, the words of each page of the heap that is mapped;
the operations are said to do what they do to it. A page is at a multiple of 4096 and not at the
null pointer. The allocators are verified against this, and the memory manager is shown to keep it.
-/

namespace Hltos

open Option Function

open Vmm (getByte setByte)

class KernelHeap (μ : Type) where
  Valid : μ → Prop
  /-- The heap can take another page without leaving its part of the address space. -/
  Room : μ → Prop
  page : μ → Word → Option (Idx → Word)
  loadByte : Word → μ → Option Byte
  storeByte : Word → Byte → μ → Option μ
  allocKernelPage : μ → Option (Word × μ)
  freeKernelPage : Word → μ → Option μ
  aligned : ∀ {s : μ} {p : Word} {w : Idx → Word}, Valid s → page s p = some w →
    p ≠ 0 ∧ p.toNat % 4096 = 0
  loadByte_page : ∀ {s : μ} {p : Word} {w : Idx → Word} {k : Nat}, Valid s →
    page s p = some w → k < 4096 →
    loadByte (p + BitVec.ofNat 64 k) s = some (getByte (w (BitVec.ofNat 9 (k / 8))) (8 * (k % 8)))
  storeByte_page : ∀ {s : μ} {p : Word} {w : Idx → Word} {k : Nat} (b : Byte), Valid s →
    page s p = some w →
    k < 4096 → ∃ s', storeByte (p + BitVec.ofNat 64 k) b s = some s' ∧ Valid s' ∧
      page s' = update (page s) p (some (update w (BitVec.ofNat 9 (k / 8))
        (setByte (w (BitVec.ofNat 9 (k / 8))) (8 * (k % 8)) b)))
  allocKernelPage_page : ∀ {s s' : μ} {p : Word}, Valid s → Room s →
    allocKernelPage s = some (p, s') →
    Valid s' ∧ page s p = none ∧ ∃ w, page s' = update (page s) p (some w)
  freeKernelPage_page : ∀ {s : μ} {p : Word} {w : Idx → Word}, Valid s → page s p = some w →
    ∃ s', freeKernelPage p s = some s' ∧ Valid s' ∧ page s' = update (page s) p none

namespace KernelHeap

/-! ## Words -/

section Bytes

variable {v w : Word}

/-- A word is given by its bytes. -/
theorem eq_of_getByte (h : ∀ j < 8, getByte v (8 * j) = getByte w (8 * j)) : v = w := by
  rw [← Lib.ByteMemory.append_bytes v, ← Lib.ByteMemory.append_bytes w]
  rw [show v.extractLsb' 0 8 = _ from h 0 (by decide),
    show v.extractLsb' 8 8 = _ from h 1 (by decide),
    show v.extractLsb' 16 8 = _ from h 2 (by decide),
      show v.extractLsb' 24 8 = _ from h 3 (by decide),
    show v.extractLsb' 32 8 = _ from h 4 (by decide),
      show v.extractLsb' 40 8 = _ from h 5 (by decide),
    show v.extractLsb' 48 8 = _ from h 6 (by decide),
      show v.extractLsb' 56 8 = _ from h 7 (by decide)]
  rfl

/-- The first bytes of a word are those of another. -/
def setBytes (v : Word) : Nat → Word → Word
  | 0, w => w
  | n + 1, w => setByte (setBytes v n w) (8 * n) (getByte v (8 * n))

theorem getByte_setBytes {n j : Nat} (hn : n ≤ 8) (hj : j < 8) :
    getByte (setBytes v n w) (8 * j) = if j < n then getByte v (8 * j) else getByte w (8 * j) := by
  induction n with
  | zero => rfl
  | succ n ih =>
    rw [setBytes]
    by_cases heq : j = n
    · subst heq
      rw [Vmm.getByte_setByte_self _ _ (by omega), if_pos (Nat.lt_succ_self j)]
    · rw [Vmm.getByte_setByte_of_ne _ _ (by omega) (by omega), ih (by omega)]
      by_cases hlt : j < n
      · rw [if_pos hlt, if_pos (Nat.lt_succ_of_lt hlt)]
      · rw [if_neg hlt, if_neg (by omega)]

theorem setBytes_eight (v w : Word) : setBytes v 8 w = v := by
  apply eq_of_getByte
  intro j hj
  rw [getByte_setBytes (Nat.le_refl 8) hj, if_pos hj]

end Bytes

variable {μ : Type} [KernelHeap μ] {s s' : μ} {p q a : Word} {w w' : Idx → Word} {i j k : Nat}
  {pages : Word → Option (Idx → Word)}

/-- Eight bytes, the lowest first. -/
def loadWord (a : Word) (s : μ) : Option Word := do
  let b0 ← loadByte a s
  let b1 ← loadByte (a + 1) s
  let b2 ← loadByte (a + 2) s
  let b3 ← loadByte (a + 3) s
  let b4 ← loadByte (a + 4) s
  let b5 ← loadByte (a + 5) s
  let b6 ← loadByte (a + 6) s
  let b7 ← loadByte (a + 7) s
  return b7 ++ b6 ++ b5 ++ b4 ++ b3 ++ b2 ++ b1 ++ b0

/-- The first `n` bytes of a word, at consecutive addresses. -/
def storeBytes (v : Word) (a : Word) : Nat → μ → Option μ
  | 0, s => some s
  | n + 1, s => do
    let s ← storeBytes v a n s
    storeByte (a + BitVec.ofNat 64 n) (getByte v (8 * n)) s

def storeWord (a v : Word) (s : μ) : Option μ := storeBytes v a 8 s

theorem ofNat_add_ofNat (p : Word) (i j : Nat) :
    p + .ofNat 64 i + .ofNat 64 j = p + .ofNat 64 (i + j) := by
  rw [BitVec.add_assoc, ← BitVec.ofNat_add]

/-- A word of a page that is mapped. -/
theorem loadWord_page (hs : Valid s) (hp : page s p = some w) (hi : i < 512) :
    loadWord (p + .ofNat 64 (8 * i)) s = some (w (.ofNat 9 i)) := by
  have hbyte : ∀ j < 8, loadByte (p + .ofNat 64 (8 * i) + .ofNat 64 j) s =
      some (getByte (w (.ofNat 9 i)) (8 * j)) := by
    intro j hj
    rw [ofNat_add_ofNat, loadByte_page hs hp (by omega), show (8 * i + j) / 8 = i by omega,
      show (8 * i + j) % 8 = j by omega]
  have h0 := hbyte 0 (by decide)
  rw [show p + .ofNat 64 (8 * i) + .ofNat 64 0 = p + .ofNat 64 (8 * i) from BitVec.add_zero _] at h0
  have h1 : loadByte (p + .ofNat 64 (8 * i) + 1) s = _ := hbyte 1 (by decide)
  have h2 : loadByte (p + .ofNat 64 (8 * i) + 2) s = _ := hbyte 2 (by decide)
  have h3 : loadByte (p + .ofNat 64 (8 * i) + 3) s = _ := hbyte 3 (by decide)
  have h4 : loadByte (p + .ofNat 64 (8 * i) + 4) s = _ := hbyte 4 (by decide)
  have h5 : loadByte (p + .ofNat 64 (8 * i) + 5) s = _ := hbyte 5 (by decide)
  have h6 : loadByte (p + .ofNat 64 (8 * i) + 6) s = _ := hbyte 6 (by decide)
  have h7 : loadByte (p + .ofNat 64 (8 * i) + 7) s = _ := hbyte 7 (by decide)
  simp only [loadWord, h0, h1, h2, h3, h4, h5, h6, h7, bind_eq_bind, bind_some]
  exact congrArg some (Lib.ByteMemory.append_bytes _)

/-- A page has new contents, and nothing else has changed. -/
structure Sets (p : Word) (w : Idx → Word) (s s' : μ) : Prop where
  valid : Valid s'
  page : page s' = update (page s) p (some w)

theorem Sets.refl (hs : Valid s) (hp : KernelHeap.page s p = some w) : Sets p w s s :=
  ⟨hs, by rw [← hp, update_eq_self]⟩

theorem Sets.here (h : Sets p w s s') : KernelHeap.page s' p = some w := by rw [h.page, update_self]

theorem Sets.other (h : Sets p w s s') (hne : q ≠ p) :
    KernelHeap.page s' q = KernelHeap.page s q := by
  rw [h.page, update_of_ne hne]

theorem Sets.trans {s'' : μ} (h : Sets p w s s') (h' : Sets p w' s' s'') : Sets p w' s s'' :=
  ⟨h'.valid, by rw [h'.page, h.page, update_idem]⟩

section

variable (v : Word) (hs : Valid s) (hp : page s p = some w) (hi : i < 512)

include hs hp hi

theorem storeBytes_page {n : Nat} (hn : n ≤ 8) :
    ∃ s', storeBytes v (p + .ofNat 64 (8 * i)) n s = some s' ∧
      Sets p (update w (.ofNat 9 i) (setBytes v n (w (.ofNat 9 i)))) s s' := by
  induction n with
  | zero => exact ⟨s, rfl, .refl hs (by rw [setBytes, update_eq_self, hp])⟩
  | succ n ih =>
    obtain ⟨s1, hrun, hsets⟩ := ih (by omega)
    have hk : 8 * i + n < 4096 := by omega
    obtain ⟨s', hstore, hvalid, hpage⟩ :=
      storeByte_page (getByte v (8 * n)) hsets.valid hsets.here hk
    rw [show (8 * i + n) / 8 = i by omega, show (8 * i + n) % 8 = n by omega, update_self,
      update_idem] at hpage
    refine ⟨s', ?_, hsets.trans ⟨hvalid, hpage⟩⟩
    simp [storeBytes, hrun, ofNat_add_ofNat, hstore]

theorem storeWord_page : ∃ s', storeWord (p + .ofNat 64 (8 * i)) v s = some s' ∧
      Sets p (update w (.ofNat 9 i) v) s s' := by
  obtain ⟨s', hrun, hsets⟩ := storeBytes_page v hs hp hi (Nat.le_refl 8)
  rw [setBytes_eight] at hsets
  exact ⟨s', hrun, hsets⟩

end

/-! ## Fields of pages -/

/-- A word of a page is set, if the page is mapped. -/
def setWord (pages : Word → Option (Idx → Word)) (a : Word) (i : Idx) (v : Word) :
  Word → Option (Idx → Word) := update pages a ((pages a).map (fun w => update w i v))

/-- A word of a page, or null. -/
def field (i : Idx) (s : μ) (p : Word) : Word := ((page s p).map (· i)).getD 0

theorem field_eq {i : Idx} (hp : page s p = some w) : field i s p = w i := by
  rw [field, hp]
  rfl

theorem field_congr {i : Idx} (h : page s' p = page s p) : field i s' p = field i s p := by
  rw [field, field, h]

theorem page_null (hs : Valid s) : page s 0 = none := by
  cases hp : page s 0 with
  | none => rfl
  | some w => exact absurd rfl (aligned hs hp).1

/-- A store behind a test for the null pointer. -/
theorem storeWord_unless_null {v : Word} (hs : Valid s) (ha : a ≠ 0 → page s a ≠ none)
    (hi : i < 512) :
    ∃ s', (if a ≠ 0 then storeWord (a + .ofNat 64 (8 * i)) v s else some s) = some s' ∧ Valid s' ∧
      page s' = setWord (page s) a (.ofNat 9 i) v := by
  split
  · next hne =>
    obtain ⟨w, hw⟩ := ne_none_iff_exists'.mp (ha hne)
    obtain ⟨s', hrun, hsets⟩ := storeWord_page v hs hw hi
    refine ⟨s', hrun, hsets.valid, ?_⟩
    rw [hsets.page, setWord, hw]
    rfl
  · next hnull =>
    rw [not_not] at hnull
    refine ⟨s, rfl, hs, ?_⟩
    rw [setWord, hnull, page_null hs, map_none, ← page_null hs, update_eq_self]

theorem setWord_of_ne {i : Idx} {v : Word} (hne : p ≠ a) :
    setWord pages a i v p = pages p := update_of_ne hne _ _

theorem setWord_eq_none {i : Idx} {v : Word} : setWord pages a i v p = none ↔ pages p = none := by
  by_cases h : p = a
  · subst h
    rw [setWord, update_self, map_eq_none_iff]
  · rw [setWord_of_ne h]

theorem field_setWord {i : Idx} {v : Word}
    (h : page s' = setWord (page s) a i v) (hp : page s p ≠ none) (x : Idx) :
    field x s' p = if p = a ∧ x = i then v else field x s p := by
  obtain ⟨w, hw⟩ := ne_none_iff_exists'.mp hp
  by_cases hpa : p = a
  · subst hpa
    rw [field, field, h, setWord, update_self, hw]
    by_cases hx : x = i
    · subst hx
      rw [if_pos ⟨rfl, rfl⟩]
      exact update_self ..
    · rw [if_neg (fun hand => hx hand.2)]
      exact update_of_ne hx ..
  · rw [if_neg (fun hand => hpa hand.1), field, field, h, setWord_of_ne hpa]

end KernelHeap

end Hltos
