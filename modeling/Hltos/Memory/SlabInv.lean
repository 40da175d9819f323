import Hltos.Lib.LinkedList
import Hltos.Memory.Slab

/-!
# What the slabs look like

A slab page with its free list, and the lists of slabs. The ghost state `Shape` has the slabs of
each class and the free chunks of each slab, both in the order in which they are linked; `Rep` says
that the memory is linked so.
-/

namespace Hltos

open List Option Function

open Vmm (getByte setByte)
open KernelHeap Lib.LinkedList

namespace Slab

variable {c c' : Fin 6} {q q' : Word} {k k' : Nat} {w w' : Idx → Word} {l : List Nat} {bytes : Word}
  {n : Nat}

/-! ## Chunks -/

/-- The words of a chunk. -/
def words (c : Fin 6) : Nat := 4 * 2 ^ c.val

/-- The bytes of a chunk. -/
def size (c : Fin 6) : Nat := 8 * words c

/-- The chunks of a slab. -/
def count (c : Fin 6) : Nat := 4056 / size c

section

variable (c : Fin 6)

theorem initClasses_eq :
    initClasses c = ⟨.ofNat 8 c.val, .ofNat 64 (size c), 0, 0, .ofNat 8 (count c)⟩ := by
  revert c
  decide

theorem count_pos : 0 < count c := by
  revert c
  decide

theorem count_lt : count c < 256 := by
  revert c
  decide

theorem words_pos : 0 < words c := by
  revert c
  decide

/-- The chunks are inside the page. -/
theorem count_mul_words : 5 + count c * words c ≤ 512 := by
  revert c
  decide

end

theorem mul_words_lt (hk : k < count c) : 5 + k * words c + words c ≤ 512 := by
  have hle : (k + 1) * words c ≤ count c * words c := Nat.mul_le_mul_right _ hk
  have hfit := count_mul_words c
  rw [Nat.succ_mul] at hle
  omega

/-- The class is big enough, and there is one for every size up to 1024. -/
theorem getSizeClass_eq_some (h : getSizeClass bytes = some c) : bytes.toNat ≤ size c := by
  unfold getSizeClass at h
  repeat' split at h
  all_goals cases h
  all_goals assumption

theorem getSizeClass_isSome : (∃ c, getSizeClass bytes = some c) ↔ bytes.toNat ≤ 1024 := by
  constructor
  · rintro ⟨c, hc⟩
    have hsize : ∀ c, size c ≤ 1024 := by decide
    exact (getSizeClass_eq_some hc).trans (hsize c)
  · intro hle
    have hlast : bytes ≤ 1024 := hle
    unfold getSizeClass
    repeat' split
    all_goals exact ⟨_, rfl⟩

/-- Chunk `k` of the slab at `q`. -/
def chunkAt (c : Fin 6) (q : Word) (k : Nat) : Word := q + BitVec.ofNat 64 (40 + k * size c)

/-- The word that links chunk `k` if it is free. -/
def link (c : Fin 6) (k : Nat) : Idx := BitVec.ofNat 9 (5 + k * words c)

theorem chunkAt_eq (c : Fin 6) (q : Word) (k : Nat) :
    chunkAt c q k = q + .ofNat 64 (8 * (5 + k * words c)) := by
  rw [chunkAt, size, Nat.mul_add, Nat.mul_left_comm]

theorem toNat_link (hk : k < count c) : (link c k).toNat = 5 + k * words c := by
  have hlt := mul_words_lt hk
  have hpos := words_pos c
  rw [link, BitVec.toNat_ofNat, Nat.mod_eq_of_lt (by omega)]

theorem link_inj (hk : k < count c) (hk' : k' < count c) (h : link c k = link c k') : k = k' := by
  have heq := congrArg BitVec.toNat h
  rw [toNat_link hk, toNat_link hk'] at heq
  exact Nat.eq_of_mul_eq_mul_right (words_pos c) (Nat.add_left_cancel heq)

/-- The header is not in a chunk. -/
theorem link_ne {i : Idx} (hk : k < count c) (hi : i.toNat < 5) : link c k ≠ i := by
  rintro rfl
  rw [toNat_link hk] at hi
  omega

section

variable (hq : q.toNat % 4096 = 0)

include hq

theorem toNat_add_of_aligned (hn : n < 4096) : (q + BitVec.ofNat 64 n).toNat = q.toNat + n := by
  have hlt := q.isLt
  rw [BitVec.toNat_add, BitVec.toNat_ofNat]
  omega

theorem toNat_chunkAt (hk : k < count c) :
    (chunkAt c q k).toNat = q.toNat + 8 * (5 + k * words c) := by
  have hlt := mul_words_lt hk
  have hpos := words_pos c
  rw [chunkAt_eq, toNat_add_of_aligned hq (by omega)]

/-- The page of an address in it. -/
theorem and_mask (hn : n < 4096) : (q + BitVec.ofNat 64 n) &&& ~~~0xFFF = q := by
  have halign : (q + .ofNat 64 n) &&& ~~~0xFFF = Vmm.pageAlign (q + .ofNat 64 n) := rfl
  apply BitVec.eq_of_toNat_eq
  rw [halign, Vmm.toNat_pageAlign, toNat_add_of_aligned hq hn]
  omega

theorem chunkAt_mask (hk : k < count c) : chunkAt c q k &&& ~~~0xFFF = q := by
  have hlt := mul_words_lt hk
  have hpos := words_pos c
  rw [chunkAt_eq]
  exact and_mask hq (by omega)

theorem chunkAt_ne_zero (hk : k < count c) : chunkAt c q k ≠ 0 := by
  intro h
  have hz := toNat_chunkAt hq hk
  rw [h, show (0 : Word).toNat = 0 from rfl] at hz
  omega

/-- A chunk is in one slab, at one place. -/
theorem chunkAt_inj (hq' : q'.toNat % 4096 = 0) (hk : k < count c)
    (hk' : k' < count c') (h : chunkAt c q k = chunkAt c' q' k') : q = q' ∧ (c = c' → k = k') := by
  have hpage : q = q' := by rw [← chunkAt_mask hq hk, h, chunkAt_mask hq' hk']
  refine ⟨hpage, ?_⟩
  rintro rfl
  subst hpage
  have heq := congrArg BitVec.toNat h
  rw [toNat_chunkAt hq hk, toNat_chunkAt hq hk'] at heq
  apply Nat.eq_of_mul_eq_mul_right (words_pos c)
  omega

end

/-! ## A slab -/

/-- A page that is a slab of class `c` with the free chunks `free`. -/
structure SlabPage (c : Fin 6) (q : Word) (w : Idx → Word) (free : List Nat) : Prop where
  magic : w 0 = slabMagic
  index : getByte (w 4) 0 = BitVec.ofNat 8 c.val
  freeChunks : getByte (w 4) 8 = BitVec.ofNat 8 free.length
  linked : Chain (chunkAt c q) (fun k => w (link c k)) 0 (w 1) free
  nodup : free.Nodup
  bound : ∀ k ∈ free, k < count c

namespace SlabPage

section

variable (h : SlabPage c q w l)

include h

/-- Words outside the header and the links may have any value. -/
theorem congr (h0 : w' 0 = w 0) (h1 : w' 1 = w 1) (h4 : w' 4 = w 4)
    (hlink : ∀ k ∈ l, w' (link c k) = w (link c k)) : SlabPage c q w' l where
  magic := by rw [h0, h.magic]
  index := by rw [h4, h.index]
  freeChunks := by rw [h4, h.freeChunks]
  linked := by
    rw [h1]
    exact h.linked.congr hlink
  nodup := h.nodup
  bound := h.bound

/-- The links to other slabs may have any value. -/
theorem relink (hsame : ∀ x : Idx, x ≠ 2 → x ≠ 3 → w' x = w x) : SlabPage c q w' l := by
  apply h.congr (hsame 0 (by decide) (by decide)) (hsame 1 (by decide) (by decide))
    (hsame 4 (by decide) (by decide))
  intro k hk
  exact hsame _ (link_ne (h.bound k hk) (by decide)) (link_ne (h.bound k hk) (by decide))

theorem length_le : l.length ≤ count c := by
  have hsub : l ⊆ List.range (count c) := fun k hk => mem_range.mpr (h.bound k hk)
  have hle := (subperm_of_subset h.nodup hsub).length_le
  rwa [length_range] at hle

theorem head_eq_zero_iff (hq : q.toNat % 4096 = 0) : w 1 = 0 ↔ l = [] :=
  h.linked.eq_null_iff fun _ hk => chunkAt_ne_zero hq (h.bound _ hk)

end

theorem getByte_setByte_index (v : Word) (b : Byte) : getByte (setByte v 8 b) 0 = getByte v 0 :=
  Vmm.getByte_setByte_of_ne v b (by decide) (by decide)

/-- The first free chunk is taken. -/
theorem take (h : SlabPage c q w (k :: l)) : SlabPage c q
    (update (update w 1 (w (link c k))) 4 (setByte (w 4) 8 (getByte (w 4) 8 - 1))) l := by
  have hlink : ∀ j < count c, link c j ≠ 1 ∧ link c j ≠ 4 := fun j hj =>
    ⟨link_ne hj (by decide), link_ne hj (by decide)⟩
  constructor
  · exact h.magic
  · rw [update_self, getByte_setByte_index, h.index]
  · rw [update_self, Vmm.getByte_setByte_self _ _ (by decide), h.freeChunks,
      length_cons, BitVec.ofNat_add]
    exact BitVec.add_sub_cancel _ 1
  · refine h.linked.2.congr fun j hj => ?_
    obtain ⟨h1, h4⟩ := hlink j (h.bound j (mem_cons_of_mem k hj))
    rw [update_of_ne h4, update_of_ne h1]
  · exact (nodup_cons.mp h.nodup).2
  · exact fun j hj => h.bound j (mem_cons_of_mem k hj)

/-- A chunk is put in front of the free list. -/
theorem put (h : SlabPage c q w l) (hk : k < count c) (hnew : k ∉ l) : SlabPage c q
    (update (update (update w (link c k) (w 1)) 1 (chunkAt c q k)) 4
      (setByte (w 4) 8 (getByte (w 4) 8 + 1))) (k :: l) := by
  have hlink : ∀ j < count c, link c j ≠ 1 ∧ link c j ≠ 4 := fun j hj =>
    ⟨link_ne hj (by decide), link_ne hj (by decide)⟩
  constructor
  · show update w (link c k) (w 1) 0 = slabMagic
    rw [update_of_ne (link_ne hk (by decide)).symm, h.magic]
  · rw [update_self, getByte_setByte_index, h.index]
  · rw [update_self, Vmm.getByte_setByte_self _ _ (by decide), h.freeChunks,
      length_cons, BitVec.ofNat_add]
    rfl
  · refine ⟨rfl, ?_⟩
    obtain ⟨h1, h4⟩ := hlink k hk
    dsimp only
    rw [update_of_ne h4, update_of_ne h1, update_self]
    refine h.linked.congr fun j hj => ?_
    obtain ⟨h1, h4⟩ := hlink j (h.bound j hj)
    rw [update_of_ne h4, update_of_ne h1, update_of_ne]
    intro heq
    exact hnew (link_inj (h.bound j hj) hk heq ▸ hj)
  · exact nodup_cons.mpr ⟨hnew, h.nodup⟩
  · intro j hj
    rcases mem_cons.mp hj with rfl | hj
    · exact hk
    · exact h.bound j hj

end SlabPage

/-! ## Access to the fields -/

section Fields

variable {μ : Type} [KernelHeap μ] {s : μ} {a v : Word}

section

variable (hs : Valid s) (hp : page s q = some w)

include hs hp

theorem load_magic : loadWord (Slab.magic q) s = some (w 0) := by
  have h := loadWord_page (i := 0) hs hp (by decide)
  rw [show q + .ofNat 64 (8 * 0) = q from BitVec.add_zero q] at h
  exact h

theorem load_freeHead : loadWord (freeHead q) s = some (w 1) :=
  loadWord_page (i := 1) hs hp (by decide)

theorem load_nextSlab : loadWord (nextSlab q) s = some (w 2) :=
  loadWord_page (i := 2) hs hp (by decide)

theorem load_prevSlab : loadWord (prevSlab q) s = some (w 3) :=
  loadWord_page (i := 3) hs hp (by decide)

theorem load_sizeClassIndex : loadByte (sizeClassIndex q) s = some (getByte (w 4) 0) :=
  loadByte_page (k := 32) hs hp (by decide)

theorem load_freeChunks : loadByte (Slab.freeChunks q) s = some (getByte (w 4) 8) :=
  loadByte_page (k := 33) hs hp (by decide)

theorem load_chunk (hk : k < count c) : loadWord (chunkAt c q k) s = some (w (link c k)) := by
  have hlt := mul_words_lt hk
  have hpos := words_pos c
  rw [chunkAt_eq]
  exact loadWord_page hs hp (by omega)

end

section

variable (v : Word) (hs : Valid s) (hp : page s q = some w)

include hs hp

theorem store_magic :
    ∃ s', storeWord (Slab.magic q) v s = some s' ∧ Sets q (update w 0 v) s s' := by
  have h := storeWord_page (i := 0) v hs hp (by decide)
  rw [show q + .ofNat 64 (8 * 0) = q from BitVec.add_zero q] at h
  exact h

theorem store_freeHead : ∃ s', storeWord (freeHead q) v s = some s' ∧ Sets q (update w 1 v) s s' :=
  storeWord_page (i := 1) v hs hp (by decide)

theorem store_nextSlab : ∃ s', storeWord (nextSlab q) v s = some s' ∧ Sets q (update w 2 v) s s' :=
  storeWord_page (i := 2) v hs hp (by decide)

theorem store_prevSlab : ∃ s', storeWord (prevSlab q) v s = some s' ∧ Sets q (update w 3 v) s s' :=
  storeWord_page (i := 3) v hs hp (by decide)

end

theorem store_sizeClassIndex (b : Byte) (hs : Valid s) (hp : page s q = some w) :
    ∃ s', storeByte (sizeClassIndex q) b s = some s' ∧
      Sets q (update w 4 (setByte (w 4) 0 b)) s s' := by
  obtain ⟨s', hrun, hvalid, hpage⟩ := storeByte_page (k := 32) b hs hp (by decide)
  exact ⟨s', hrun, hvalid, hpage⟩

theorem store_freeChunks (b : Byte) (hs : Valid s) (hp : page s q = some w) :
    ∃ s', storeByte (Slab.freeChunks q) b s = some s' ∧
      Sets q (update w 4 (setByte (w 4) 8 b)) s s' := by
  obtain ⟨s', hrun, hvalid, hpage⟩ := storeByte_page (k := 33) b hs hp (by decide)
  exact ⟨s', hrun, hvalid, hpage⟩

theorem store_chunk (v : Word) (hs : Valid s) (hp : page s q = some w) (hk : k < count c) :
    ∃ s', storeWord (chunkAt c q k) v s = some s' ∧ Sets q (update w (link c k) v) s s' := by
  have hlt := mul_words_lt hk
  have hpos := words_pos c
  rw [chunkAt_eq]
  exact storeWord_page v hs hp (by omega)

theorem setNext_page (hs : Valid s) (ha : a ≠ 0 → page s a ≠ none) :
    ∃ s', setNext a v s = some s' ∧ Valid s' ∧ page s' = setWord (page s) a 2 v :=
  storeWord_unless_null (i := 2) hs ha (by decide)

theorem setPrev_page (hs : Valid s) (ha : a ≠ 0 → page s a ≠ none) :
    ∃ s', setPrev a v s = some s' ∧ Valid s' ∧ page s' = setWord (page s) a 3 v :=
  storeWord_unless_null (i := 3) hs ha (by decide)

/-- The slab of a chunk. -/
theorem tryGetSlab_chunk {free : List Nat} (hs : Valid s) (hp : page s q = some w)
    (hslab : SlabPage c q w free) (hk : k < count c) :
    tryGetSlab (chunkAt c q k) s = some (some q) := by
  obtain ⟨-, hq⟩ := aligned hs hp
  rw [tryGetSlab, if_neg (chunkAt_ne_zero hq hk), chunkAt_mask hq hk]
  simp only [load_magic hs hp, hslab.magic, bind_eq_bind, bind_some, if_true]
  rfl

end Fields

/-! ## A new slab -/

section New

variable {μ : Type} [KernelHeap μ] {s : μ}

theorem chunkAt_succ (c : Fin 6) (q : Word) (k : Nat) :
    chunkAt c q k + .ofNat 64 (size c) = chunkAt c q (k + 1) := by
  rw [chunkAt, ofNat_add_ofNat, chunkAt, Nat.succ_mul, Nat.add_assoc]

theorem chunkAt_mul (c : Fin 6) (q : Word) (k : Nat) :
    q + slabSize + .ofNat 64 k * .ofNat 64 (size c) = chunkAt c q k := by
  rw [← BitVec.ofNat_mul]
  exact ofNat_add_ofNat q 40 (k * size c)

/-- The loop links each chunk to the next one, and writes nothing else. -/
theorem linkChunks_page {is : List Nat} (hs : Valid s) (hp : page s q = some w)
    (his : ∀ i ∈ is, i + 1 < count c) :
    ∃ s' w', linkChunks (q + slabSize) (.ofNat 64 (size c)) is s = some s' ∧ Sets q w' s s' ∧
      (∀ i ∈ is, w' (link c i) = chunkAt c q (i + 1)) ∧ ∀ x, (∀ i ∈ is, x ≠ link c i) →
        w' x = w x := by
  induction is generalizing s w with
  | nil => exact ⟨s, w, rfl, .refl hs hp, by simp, fun _ _ => rfl⟩
  | cons i is ih =>
    have hi := his i mem_cons_self
    obtain ⟨-, hq⟩ := aligned hs hp
    obtain ⟨s1, hstore, hsets⟩ :=
      store_chunk (k := i) (c := c) (chunkAt c q (i + 1)) hs hp (by omega)
    obtain ⟨s', w', hrun, hsets', hlink, hother⟩ :=
      ih hsets.valid hsets.here (fun j hj => his j (mem_cons_of_mem i hj))
    refine ⟨s', w', ?_, hsets.trans hsets', ?_, ?_⟩
    · have hnull : ¬ (chunkAt c q i = 0 ∨ chunkAt c q (i + 1) = 0) :=
        not_or.mpr ⟨chunkAt_ne_zero hq (by omega), chunkAt_ne_zero hq hi⟩
      simp only [linkChunks, chunkAt_mul, chunkAt_succ, if_neg hnull, hstore,
        bind_eq_bind, bind_some, hrun]
    · intro j hj
      by_cases hin : j ∈ is
      · exact hlink j hin
      · obtain rfl := (mem_cons.mp hj).resolve_right hin
        rw [hother (link c j), update_self]
        intro n hn heq
        rw [link_inj (by omega) (Nat.lt_of_succ_lt (his n (mem_cons_of_mem j hn))) heq] at hin
        exact hin hn
    · intro x hx
      rw [hother x (fun j hj => hx j (mem_cons_of_mem i hj)), update_of_ne (hx i mem_cons_self)]

/-- All chunks are free, in their order. -/
theorem slabPage_new (h0 : w 0 = slabMagic) (h1 : w 1 = chunkAt c q 0)
    (hindex : getByte (w 4) 0 = .ofNat 8 c.val) (hchunks : getByte (w 4) 8 = .ofNat 8 (count c))
    (hlink : ∀ i, i + 1 < count c → w (link c i) = chunkAt c q (i + 1))
    (hlast : w (link c (count c - 1)) = 0) : SlabPage c q w (List.range (count c)) where
  magic := h0
  index := hindex
  freeChunks := by rw [length_range, hchunks]
  linked := by
    have hpos := count_pos c
    have hchain : Chain (chunkAt c q) (fun k => w (link c k)) 0 (chunkAt c q 0)
        (List.range' 0 (count c - 1 + 1)) :=
      chain_range' (fun i _ hi => hlink i (by omega)) (by rw [Nat.zero_add]; exact hlast)
    rw [Nat.sub_add_cancel hpos, ← range_eq_range'] at hchain
    rw [h1]
    exact hchain
  nodup := nodup_range
  bound := fun _ => mem_range.mp

theorem setWidth_count (c : Fin 6) :
    (BitVec.ofNat 8 (count c)).setWidth 64 - 1 = BitVec.ofNat 64 (count c - 1) := by
  revert c
  decide

/-- A new slab has all its chunks in the free list, in the order of their addresses. -/
theorem initSlab_page {sc : SizeClass} {n f : Word} (hs : Valid s) (hp : page s q = some w)
    (hsc : sc = { initClasses c with numSlabs := n, firstSlab := f }) :
    ∃ s' w', initSlab sc q s = some s' ∧ Sets q w' s s' ∧
    SlabPage c q w' (List.range (count c)) := by
  rw [initClasses_eq] at hsc
  have hpos := count_pos c
  have hlast : count c - 1 < count c := by omega
  have hnum : (BitVec.ofNat 8 (count c)).toNat = count c := by
    rw [BitVec.toNat_ofNat, Nat.mod_eq_of_lt (count_lt c)]
  have his : ∀ i ∈ List.range (count c - 1), i + 1 < count c := by
    intro i hi
    rw [mem_range] at hi
    omega
  obtain ⟨s1, w1, hrun1, hs1, hlink, -⟩ := linkChunks_page hs hp his
  obtain ⟨s2, hrun2, hs2⟩ := store_chunk 0 hs1.valid hs1.here hlast
  obtain ⟨s3, hrun3, hs3⟩ := store_magic slabMagic hs2.valid hs2.here
  obtain ⟨s4, hrun4, hs4⟩ := store_sizeClassIndex (.ofNat 8 c.val) hs3.valid hs3.here
  obtain ⟨s5, hrun5, hs5⟩ := store_freeHead (chunkAt c q 0) hs4.valid hs4.here
  obtain ⟨s6, hrun6, hs6⟩ := store_freeChunks (.ofNat 8 (count c)) hs5.valid hs5.here
  have hfirst : q + slabSize = chunkAt c q 0 := by
    rw [chunkAt, Nat.zero_mul]
    rfl
  refine ⟨s6, _, ?_, ((((hs1.trans hs2).trans hs3).trans hs4).trans hs5).trans hs6, ?_⟩
  · simp only [initSlab, hsc, hnum, hrun1, setWidth_count, chunkAt_mul, hrun2,
      hrun3, hrun4, bind_eq_bind, bind_some]
    rw [hfirst, hrun5, bind_some, hrun6]
  · -- a word of a chunk is none of the header's
    have hchunk : ∀ k < count c, ∀ v0 v1 v4 v4' : Word, update (update (update
        (update (update w1 (link c (count c - 1)) 0) 0 v0) 4 v4) 1 v1) 4 v4' (link c k) =
        update w1 (link c (count c - 1)) 0 (link c k) := by
      intro k hk v0 v1 v4 v4'
      rw [update_of_ne (link_ne hk (by decide)), update_of_ne (link_ne hk (by decide)),
        update_of_ne (link_ne hk (by decide)), update_of_ne (link_ne hk (by decide))]
    apply slabPage_new
    · rfl
    · rfl
    · rw [update_self, SlabPage.getByte_setByte_index]
      show getByte (setByte _ 0 _) 0 = _
      rw [Vmm.getByte_setByte_self _ _ (by decide)]
    · rw [update_self, Vmm.getByte_setByte_self _ _ (by decide)]
    · intro i hi
      rw [hchunk i (by omega), update_of_ne, hlink i (mem_range.mpr (by omega))]
      intro heq
      have := link_inj (by omega) hlast heq
      omega
    · rw [hchunk _ hlast, update_self]

end New

end Slab

end Hltos
