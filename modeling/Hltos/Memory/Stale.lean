import Hltos.Memory.Contents

/-!
# What is left in a page of the old contents of its frame

Two runs of the same operations, from states that differ in the contents of free frames only. A
frame that is handed out for a table is cleared, one that is handed out for a page is not: its bytes
are stale until they are stored to. Which addresses are stale can be said without the contents of
memory (`stale`), and the two runs agree on all others (`Twin`). What they hold at the stale
addresses is related by `ρ`: by anything, or each byte by its complement.
-/

namespace Hltos

open Lib.Radix FrameAllocator Pte
open Option hiding or_assoc

/-- What a call does to an address space, as far as it matters for stale bytes. -/
inductive FillStep
  /-- a new frame for every page of a list -/
  | map (pages : List Word)
  /-- `memcpy` -/
  | copy (count : Nat) (dest src : Word)
  /-- bytes that do not come from memory -/
  | store (vs : List Word)
  /-- the first word of a page -/
  | word (page : Word)

namespace FillStep

open Vmm

/-- `memcpy` copies stale bytes as well. -/
def staleCopy : Nat → Word → Word → Set Word → Set Word
  | 0, _, _, S => S
  | count + 1, dest, src, S =>
    staleCopy count (dest + 1) (src + 1) {v | v = dest ∧ src ∈ S ∨ v ≠ dest ∧ v ∈ S}

/-- The stale addresses after a step. -/
def stale : FillStep → Set Word → Set Word
  | map pages, S => S ∪ {v | ∃ w ∈ pages, vpn v = vpn w}
  | copy count dest src, S => staleCopy count dest src S
  | store vs, S => S \ {v | v ∈ vs}
  | word page, S => S \ {v | vpn v = vpn page ∧ wordIdx v = 0}

/-- The stale addresses after all steps. -/
def staleAfter (steps : List FillStep) (S : Set Word) : Set Word :=
  steps.foldl (fun S step => step.stale S) S

theorem staleAfter_append (steps steps' : List FillStep) (S : Set Word) :
    staleAfter (steps ++ steps') S = staleAfter steps' (staleAfter steps S) := List.foldl_append

theorem stale_map_nil (S : Set Word) : (map []).stale S = S := by
  ext v
  simp [stale]

theorem stale_store_nil (S : Set Word) : (store []).stale S = S := by
  ext v
  simp [stale]

section

variable (w : Word) (ws : List Word) (S : Set Word)

theorem stale_map_cons : (map (w :: ws)).stale S = (map ws).stale (S ∪ {v | path v = path w}) := by
  ext v
  simp [stale, Set.mem_union, Set.mem_ofPred_eq, exists_eq_or_imp, or_assoc, path_eq_iff]

theorem stale_store_cons : (store (w :: ws)).stale S = (store ws).stale (S \ {w}) := by
  ext v
  simp [stale, Set.mem_sdiff, Set.mem_ofPred_eq, not_or, and_assoc]

end

end FillStep

namespace Vmm

variable {σ : Type} [FrameAllocator σ] {s s' s1 t t' : Vmm σ} {q f g : Frame} {flags : Flags}

/-! ## Tables in two runs -/

/-- The same frames are allocated, and the tables of a region are the same. -/
structure SameTables (T : Region Idx) (q : Frame) (s t : Vmm σ) : Prop where
  pmm : t.pmm = s.pmm
  same : Same s t
  tables : ∀ f ∈ frames s.mem q T, t.mem f = s.mem f

variable {i4 i3 i2 : Idx} {e bytes first : Word}

namespace SameTables

variable {T : Region Idx} {π : List Idx} {i : Idx}

theorem alloc (h : SameTables T q s t) (ha : s.alloc = some (f, s')) :
    ∃ t', t.alloc = some (f, t') ∧ t'.mem = t.mem ∧ SameTables T q s' t' := by
  obtain ⟨⟨g, pmm⟩, hp, heq⟩ := map_eq_some_iff.mp ha
  cases heq
  refine ⟨{ t with pmm := pmm }, ?_, rfl, rfl, ⟨h.same.1, h.same.2, h.same.3⟩, h.tables⟩
  rw [Vmm.alloc, h.pmm, hp]
  rfl

/-- A missing table is taken from the same frame in both runs, and is cleared. -/
theorem ensurePresent {populate : Word → Frame → Flags → Word}
    (hpop : ∀ e g fl, child (populate e g fl) = some g) (h : SameTables T q s t) (hs : Tree T q s)
    (hf : table s.mem q π = some f) (hi : i :: π ∈ T)
    (hrun : s.ensurePresent populate f i flags = some (g, s')) :
    ∃ t', t.ensurePresent populate f i flags = some (g, t') ∧ SameTables T q s' t' := by
  have hgrown := (ensurePresent_spec hpop hs hf hi hrun).1
  have hmem : t.mem f = s.mem f := h.tables f (mem_frames (T.tail hi) hf)
  unfold Vmm.ensurePresent at hrun ⊢
  rw [hmem]
  split at hrun
  · next hp =>
    obtain ⟨⟨frame, sa⟩, ha, hrun⟩ := of_bind hrun
    obtain ⟨ta, hta, htmem, hsame⟩ := h.alloc ha
    obtain ⟨-, halloc, hsmem, -⟩ := alloc_spec ha
    have hentry : ta.mem f = sa.mem f := by rw [htmem, hsmem, hmem]
    cases hrun
    -- the new table is blank in both runs
    have hpage : ∀ x ∈ frames ((sa.writeEntry f i (populate (sa.mem f i) frame flags)).zeroPage
        frame).mem q T,
          ((ta.writeEntry f i (populate (ta.mem f i) frame flags)).zeroPage frame).mem x =
          ((sa.writeEntry f i (populate (sa.mem f i) frame flags)).zeroPage frame).mem x := by
      intro x hx
      show setPage (setEntry ta.mem f i _) frame _ x = setPage (setEntry sa.mem f i _) frame _ x
      by_cases hxf : x = frame
      · rw [hxf, setPage_self, setPage_self]
      · rw [setPage_of_ne _ _ hxf, setPage_of_ne _ _ hxf, hentry]
        by_cases hxt : x = f
        · funext j
          rw [hxt]
          simp [setEntry, hentry]
        · rw [setEntry_of_ne _ _ _ hxt, setEntry_of_ne _ _ _ hxt, htmem, hsmem]
          refine h.tables x ((hgrown.tables x hx).resolve_right (fun hnot => ?_))
          have hin : x ∈ insert frame (allocated s.pmm) := halloc ▸ hgrown.tree.allocated hx
          exact hin.elim hxf hnot
    refine ⟨(ta.writeEntry f i (populate (ta.mem f i) frame flags)).zeroPage frame, ?_, hsame.pmm,
      ⟨hsame.same.1, hsame.same.2, hsame.same.3⟩, hpage⟩
    have haddr := hpage f (hgrown.frames (mem_frames (T.tail hi) hf))
    rw [if_pos hp, hta]
    show some (addr _, _) = some (addr _, _)
    rw [haddr]
  · next hp =>
    cases hrun
    rw [if_neg hp]
    exact ⟨t, rfl, h⟩

theorem ensureTables (h : SameTables T q s t) (hs : Tree T q s)
    (hmem : [i2, i3, i4] ∈ T) (hrun : s.ensureTables q i4 i3 i2 flags = some (g, s')) :
    ∃ t', t.ensureTables q i4 i3 i2 flags = some (g, t') ∧ SameTables T q s' t' := by
  obtain ⟨⟨pdpt, s1⟩, h1, hrun⟩ := of_bind hrun
  obtain ⟨⟨pd, s2⟩, h2, h3⟩ := of_bind hrun
  obtain ⟨g1, p1⟩ := ensurePresent_spec child_populateTable hs rfl (T.tail (T.tail hmem)) h1
  obtain ⟨g2, p2⟩ := ensurePresent_spec child_populatePdpte g1.tree p1 (T.tail hmem) h2
  obtain ⟨t1, e1, w1⟩ := h.ensurePresent child_populateTable hs rfl (T.tail (T.tail hmem)) h1
  obtain ⟨t2, e2, w2⟩ := w1.ensurePresent child_populatePdpte g1.tree p1 (T.tail hmem) h2
  obtain ⟨t3, e3, w3⟩ := w2.ensurePresent child_populatePdpte g2.tree p2 hmem h3
  have e1' : t.ensurePdptePresent q i4 flags = some (pdpt, t1) := e1
  have e2' : t1.ensurePdePresent pdpt i3 flags = some (pd, t2) := e2
  have e3' : t2.ensurePtePresent pd i2 flags = some (g, t3) := e3
  exact ⟨t3, by simp [Vmm.ensureTables, e1', e2', e3'], w3⟩

end SameTables

/-! ## Two runs in an address space -/

/-- The first word of a page is written. -/
theorem loadByte_writeWord {K : Set Frame} {v : Word} (ho : Owns anyHead q K s)
    (he : walk s.mem q v = some e) (value u : Word) :
    (s.writeEntry (addr e) 0 value).loadByte q u = if vpn u = vpn v ∧ wordIdx u = 0 then
      (if isCanonical u then some (getByte value (bitPos u)) else none) else s.loadByte q u := by
  have he' := walk_eq_find s.mem q v ▸ he
  have hframe : ∀ y ≠ addr e, (s.writeEntry (addr e) 0 value).mem y = s.mem y :=
    fun y hy => setEntry_of_ne _ _ _ hy
  obtain ⟨-, hfind, hother⟩ := ho.write_page trivial he' hframe rfl ⟨rfl, rfl, rfl⟩
  have hwalk : walk (s.writeEntry (addr e) 0 value).mem q u = walk s.mem q u := by
    rw [walk_eq_find, walk_eq_find]
    exact hfind _ _ (path_tail_mem trivial)
  by_cases hv : vpn u = vpn v
  · rw [loadByte_eq, loadByte_eq, hwalk, walk_congr hv, he]
    show (if _ then some (getByte (setEntry s.mem (addr e) 0 value (addr e) (wordIdx u)) _) else
      none) = _
    by_cases hi : wordIdx u = 0
    · rw [if_pos (And.intro hv hi), hi, setEntry_self]
    · have hword : setEntry s.mem (addr e) 0 value (addr e) (wordIdx u) =
        s.mem (addr e) (wordIdx u) := if_neg (fun hc => hi hc.2)
      rw [if_neg (fun hc : vpn u = vpn v ∧ wordIdx u = 0 => hi hc.2), hword]
      rfl
  · rw [if_neg (fun hc => hv hc.1)]
    exact (hother _ (isPage_path trivial) (fun heq => hv (path_eq_iff.mp heq))).loadByte

/-- Two states with the same tables below `q`. They read the same, except at the addresses of `S`;
what they hold there, and in the free frames, is related by `ρ`. -/
structure Twin (ρ : Byte → Byte → Prop) (q : Frame) (S : Set Word) (s t : Vmm σ) : Prop
    extends SameTables (below anyHead 3) q s t where
  owns : Owns anyHead q ∅ s
  clean : ∀ v ∉ S, t.loadByte q v = s.loadByte q v
  stale : ∀ v ∈ S, ∀ b c, s.loadByte q v = some b → t.loadByte q v = some c → ρ b c
  mapped : ∀ v ∈ S, walk s.mem q v ≠ none
  free : ∀ f ∉ allocated s.pmm, ∀ i pos, pos + 8 ≤ 64 →
    ρ (getByte (s.mem f i) pos) (getByte (t.mem f i) pos)

variable {n : Nat} {heap heap' : Heap}

namespace Twin

variable {ρ : Byte → Byte → Prop} {S S' : Set Word} {v : Word}

theorem find (h : Twin ρ q S s t) (i : Idx) (τ : List Idx) (hτ : τ ∈ below anyHead 3) :
    find t.mem q (i :: τ) = find s.mem q (i :: τ) := find_of_agree h.tables hτ

theorem walk (h : Twin ρ q S s t) (v : Word) : walk t.mem q v = walk s.mem q v := by
  rw [walk_eq_find, walk_eq_find]
  exact h.find _ _ (path_tail_mem trivial)

theorem owns_right (h : Twin ρ q S s t) : Owns anyHead q ∅ t := h.owns.congr h.find (by rw [h.pmm])

/-- The frames of an address space are the same. -/
theorem of_owned (ho : Owns anyHead q ∅ s) (hpmm : t.pmm = s.pmm) (hsame : Same s t)
    (hmem : ∀ f ∈ owned anyHead q s, t.mem f = s.mem f)
    (hfree : ∀ f ∉ allocated s.pmm, ∀ i pos, pos + 8 ≤ 64 →
      ρ (getByte (s.mem f i) pos) (getByte (t.mem f i) pos)) : Twin ρ q ∅ s t := by
  refine ⟨⟨hpmm, hsame, fun f hf => hmem f (owned_of_tables hf)⟩, ho, fun v _ => ?_, ?_, ?_, hfree⟩
  · exact (Untouched.of_agree hmem (isPage_path trivial)).loadByte
  · exact fun v hv => absurd hv (Set.notMem_empty v)
  · exact fun v hv => absurd hv (Set.notMem_empty v)

section

variable (h : Twin ρ q S s t)

include h

theorem alloc (ha : s.alloc = some (f, s')) : ∃ t', t.alloc = some (f, t') ∧ Twin ρ q S s' t' := by
  obtain ⟨t', ht, htmem, hst⟩ := h.toSameTables.alloc ha
  obtain ⟨-, halloc, hmem, -⟩ := alloc_spec ha
  have hload : ∀ v, s'.loadByte q v = s.loadByte q v := fun v => by simp only [Vmm.loadByte, hmem]
  have hload' : ∀ v, t'.loadByte q v = t.loadByte q v := fun v => by simp only [Vmm.loadByte, htmem]
  refine ⟨t', ht, hst, (h.owns.alloc ha).1, ?_, ?_, ?_, ?_⟩
  · intro v hv
    rw [hload, hload', h.clean v hv]
  · intro v hv
    rw [hload, hload']
    exact h.stale v hv
  · rw [hmem]
    exact h.mapped
  · intro g hg
    rw [hmem, htmem]
    exact h.free g (fun hin => hg (halloc ▸ Or.inr hin))

theorem ensureTables (hs : s.ensureTables q i4 i3 i2 flags = some (g, s')) :
    ∃ t', t.ensureTables q i4 i3 i2 flags = some (g, t') ∧ Twin ρ q S s' t' := by
  have hπ : [i2, i3, i4] ∈ below anyHead 3 := by simp [mem_below, anyHead]
  obtain ⟨t', ht, hst⟩ := h.toSameTables.ensureTables h.owns.tables hπ hs
  have hgrown := (ensureTables_spec h.owns.tables hπ hs).1
  have hgrown' := (ensureTables_spec h.owns_right.tables hπ ht).1
  have hload : ∀ v, s'.loadByte q v = s.loadByte q v :=
    fun v => (hgrown.untouched h.owns (isPage_path trivial)).loadByte
  have hload' : ∀ v, t'.loadByte q v = t.loadByte q v :=
    fun v => (hgrown'.untouched h.owns_right (isPage_path trivial)).loadByte
  refine ⟨t', ht, hst, (h.owns.grown hgrown).owns, ?_, ?_, ?_, ?_⟩
  · intro v hv
    rw [hload, hload', h.clean v hv]
  · intro v hv
    rw [hload, hload']
    exact h.stale v hv
  · intro v hv
    rw [hgrown.walk trivial]
    exact h.mapped v hv
  · -- free frames are not written
    have hk := ensureTables_freeKept h.owns.tables hπ hs
    have hk' := ensureTables_freeKept h.owns_right.tables hπ ht
    intro x hx
    rw [hk.2 x hx, hk'.2 x (by rw [hst.pmm]; exact hx)]
    exact h.free x (fun hin => hx (hk.1 hin))

/-- A new frame for one page: all its bytes are stale. -/
theorem place {pt : Frame} {sa : Vmm σ} (i1 : Idx)
    (ha : s.alloc = some (f, sa)) (hens : sa.ensureTables q i4 i3 i2 flags = some (pt, s1)) :
    ∃ ta t1, t.alloc = some (f, ta) ∧ ta.ensureTables q i4 i3 i2 flags = some (pt, t1) ∧
      Twin ρ q (S ∪ {v | path v = [i1, i2, i3, i4]}) (s1.populateEntry pt i1 f flags)
        (t1.populateEntry pt i1 f flags) := by
  have hπ : [i2, i3, i4] ∈ below anyHead 3 := by simp [mem_below, anyHead]
  obtain ⟨ta, hta, hal⟩ := h.alloc ha
  obtain ⟨t1, htens, hst⟩ := hal.ensureTables hens
  obtain ⟨hgrown, hpt⟩ := ensureTables_spec hal.owns.tables hπ hens
  obtain ⟨e, he, hp⟩ : ∃ e, Maps e f flags ∧ Placed anyHead q [i1, i2, i3, i4] e sa s1
      (s1.populateEntry pt i1 f flags) := placed_populateEntry hal.owns.tables trivial hens
  obtain ⟨e', he', hp'⟩ : ∃ e, Maps e f flags ∧ Placed anyHead q [i1, i2, i3, i4] e ta t1
      (t1.populateEntry pt i1 f flags) := placed_populateEntry hal.owns_right.tables trivial htens
  have hpage := Placed.page_mem h.owns ha hp
  have hpage' := Placed.page_mem h.owns_right hta hp'
  have hwalk : ∀ u, path u = [i1, i2, i3, i4] →
      Vmm.walk (s1.populateEntry pt i1 f flags).mem q u = some e := fun u hu =>
    Placed.walk_here (hu ▸ hp) (by rw [he.child]; rfl)
  have hwalk' : ∀ u, path u = [i1, i2, i3, i4] →
      Vmm.walk (t1.populateEntry pt i1 f flags).mem q u = some e' := fun u hu =>
    Placed.walk_here (hu ▸ hp') (by rw [he'.child]; rfl)
  have hother : ∀ u, path u ≠ [i1, i2, i3, i4] →
      Untouched q s1 (s1.populateEntry pt i1 f flags) (path u) ∧
        Untouched q t1 (t1.populateEntry pt i1 f flags) (path u) := fun u hu =>
    ⟨hp.leaf.untouched hst.owns (isPage_path trivial) hu,
      hp'.leaf.untouched hst.owns_right (isPage_path trivial) hu⟩
  refine ⟨ta, t1, hta, htens,
    ⟨hst.pmm, ⟨hst.same.1, hst.same.2, hst.same.3⟩, ?_⟩, ?_, ?_, ?_, ?_, ?_⟩
  · -- the entry is written in the same table, over the same entry
    intro x hx
    rw [hp.leaf.frames_eq] at hx
    funext j
    show setEntry t1.mem pt i1 (populatePte (t1.mem pt i1) f flags) x j =
      setEntry s1.mem pt i1 (populatePte (s1.mem pt i1) f flags) x j
    rw [setEntry, setEntry, hst.tables pt (mem_frames hπ hpt), hst.tables x hx]
  · exact (Placed.keeps h.owns trivial ha he.child hp).owns
  · intro u hu
    have hne : path u ≠ [i1, i2, i3, i4] := fun heq => hu (Or.inr heq)
    rw [(hother u hne).1.loadByte, (hother u hne).2.loadByte]
    exact hst.clean u (fun hm => hu (Or.inl hm))
  · intro u hu b c hb hc
    by_cases heq : path u = [i1, i2, i3, i4]
    · rw [loadByte_eq, hwalk u heq] at hb
      rw [loadByte_eq, hwalk' u heq] at hc
      obtain ⟨hcan, hb⟩ := ite_none_right_eq_some.mp hb
      rw [if_pos hcan] at hc
      simp only [map_some, he.addr, he'.addr, hpage, hpage'] at hb hc
      cases hb
      cases hc
      exact h.free f (alloc_spec ha).1 _ _ (by rw [bitPos_eq]; omega)
    · rw [(hother u heq).1.loadByte] at hb
      rw [(hother u heq).2.loadByte] at hc
      exact hst.stale u (hu.resolve_right heq) b c hb hc
  · intro u hu
    by_cases heq : path u = [i1, i2, i3, i4]
    · rw [hwalk u heq]
      exact some_ne_none e
    · rw [walk_eq_find, (hother u heq).1.find, ← walk_eq_find]
      exact hst.mapped u (hu.resolve_right heq)
  · intro x hx
    have hne : x ≠ pt := by
      rintro rfl
      exact hx (hgrown.tree.allocated (mem_frames hπ hpt))
    rw [show (s1.populateEntry pt i1 f flags).mem x = s1.mem x from setEntry_of_ne _ _ _ hne,
      show (t1.populateEntry pt i1 f flags).mem x = t1.mem x from setEntry_of_ne _ _ _ hne]
    exact hst.free x hx

/-- A word of a mapped page is written. -/
theorem write {w w' : Word} {i : Idx} (he : Vmm.walk s.mem q v = some e)
    (hclean : ∀ u ∉ S',
      (t.writeEntry (addr e) i w').loadByte q u = (s.writeEntry (addr e) i w).loadByte q u)
    (hstale : ∀ u ∈ S', ∀ b c, (s.writeEntry (addr e) i w).loadByte q u = some b →
      (t.writeEntry (addr e) i w').loadByte q u = some c → ρ b c)
    (hmapped : ∀ u ∈ S', Vmm.walk s.mem q u ≠ none) :
    Twin ρ q S' (s.writeEntry (addr e) i w) (t.writeEntry (addr e) i w') := by
  rw [walk_eq_find] at he
  obtain ⟨x, hx, htable⟩ := child_of_find he
  have hpage : addr e = x := (addr_of_child hx).1
  have hnot := h.owns.page_not_table (isPage_path trivial) htable
  have hmem : ∀ y ≠ addr e, (s.writeEntry (addr e) i w).mem y = s.mem y ∧
      (t.writeEntry (addr e) i w').mem y = t.mem y :=
    fun y hy => ⟨setEntry_of_ne _ _ _ hy, setEntry_of_ne _ _ _ hy⟩
  have hframe : ∀ y ≠ addr e, (s.writeEntry (addr e) i w).mem y = s.mem y :=
    fun y hy => (hmem y hy).1
  obtain ⟨hk, hfind, -⟩ := h.owns.write_page trivial he hframe rfl ⟨rfl, rfl, rfl⟩
  have htables : ∀ y ∈ frames s.mem q (below anyHead 3), y ≠ addr e := by
    rintro y hy rfl
    exact hnot (hpage ▸ hy)
  refine ⟨⟨h.pmm, ⟨h.same.1, h.same.2, h.same.3⟩, ?_⟩, hk.owns, hclean, hstale, ?_, ?_⟩
  · intro y hy
    rw [frames_of_agree (fun y hy => (hmem y (htables y hy)).1)] at hy
    obtain ⟨h1, h2⟩ := hmem y (htables y hy)
    rw [h1, h2, h.tables y hy]
  · intro u hu
    have hsame : Vmm.walk (s.writeEntry (addr e) i w).mem q u = Vmm.walk s.mem q u := by
      rw [walk_eq_find, walk_eq_find]
      exact hfind _ _ (path_tail_mem trivial)
    rw [hsame]
    exact hmapped u hu
  · intro y hy j pos hpos
    have hne : y ≠ addr e := by
      rintro rfl
      exact hy (hpage ▸ h.owns.tree.allocated ⟨_, path_mem trivial, htable⟩)
    obtain ⟨h1, h2⟩ := hmem y hne
    rw [h1, h2]
    exact h.free y hy j pos hpos

end

variable {b : Byte}

/-- Stores of two bytes at the same address. -/
theorem storeByte (S' : Set Word) {c : Byte} (h : Twin ρ q S s t)
    (hs : s.storeByte q v b = some s') (hS : ∀ u, u ≠ v → (u ∈ S' ↔ u ∈ S))
    (hstale : v ∈ S' → ρ b c) (hclean : v ∉ S' → c = b) :
    ∃ t', t.storeByte q v c = some t' ∧ Twin ρ q S' s' t' := by
  obtain ⟨hcan, e, he, hs'⟩ := storeByte_eq_walk hs
  obtain ⟨t', ht⟩ := storeByte_returns (s := t) (r := q) (v := v) c hcan (by rw [h.walk, he]; simp)
  obtain ⟨-, e', he', ht'⟩ := storeByte_eq_walk ht
  rw [h.walk, he] at he'
  cases he'
  have hload := loadByte_storeByte h.owns hs
  have hload' := loadByte_storeByte h.owns_right ht
  refine ⟨t', ht, ?_⟩
  rw [hs'] at hload ⊢
  rw [ht'] at hload' ⊢
  apply h.write he
  · intro u hu
    rw [hload, hload']
    by_cases heq : u = v
    · rw [if_pos heq, if_pos heq, hclean (heq ▸ hu)]
    · rw [if_neg heq, if_neg heq]
      exact h.clean u (fun hm => hu ((hS u heq).mpr hm))
  · intro u hu b' c' hb hc
    rw [hload] at hb
    rw [hload'] at hc
    by_cases heq : u = v
    · rw [if_pos heq] at hb hc
      cases hb
      cases hc
      exact hstale (heq ▸ hu)
    · rw [if_neg heq] at hb hc
      exact h.stale u ((hS u heq).mp hu) b' c' hb hc
  · intro u hu
    by_cases heq : u = v
    · rw [heq, he]
      exact some_ne_none e
    · exact h.mapped u ((hS u heq).mp hu)

section

variable (h : Twin ρ q S s t)

include h

/-- The same byte is stored. -/
theorem storeSame (hs : s.storeByte q v b = some s') :
    ∃ t', t.storeByte q v b = some t' ∧ Twin ρ q (S \ {v}) s' t' := by
  refine h.storeByte _ hs (fun u hu => ?_) (fun hv => absurd rfl hv.2) (fun _ => rfl)
  exact ⟨fun hm => hm.1, fun hm => ⟨hm, hu⟩⟩

/-- A word that is stored as a whole. -/
theorem storeWord {value : Word} (hs : s.storeWord q v value = some s') :
    ∃ t', t.storeWord q v value = some t' ∧ Twin ρ q ((FillStep.word v).stale S) s' t' := by
  obtain ⟨e, he, rfl⟩ := storeWord_eq_some hs
  rw [← walk_eq_find] at he
  have ht : t.storeWord q v value = some (t.writeEntry (addr e) 0 value) := by
    obtain ⟨⟨pt, i⟩, hfind, hentry⟩ := map_eq_some_iff.mp ((h.walk v).trans he)
    rw [Vmm.storeWord, hfind, ← hentry]
    rfl
  have hload := loadByte_writeWord h.owns he value
  have hload' := loadByte_writeWord h.owns_right ((h.walk v).trans he) value
  refine ⟨_, ht, h.write he ?_ ?_ (fun u hu => h.mapped u hu.1)⟩
  · intro u hu
    rw [hload, hload']
    split
    · rfl
    · next hout => exact h.clean u (fun hm => hu ⟨hm, hout⟩)
  · rintro u ⟨hu, hout⟩ b c hb hc
    have hneg : ¬ (vpn u = vpn v ∧ wordIdx u = 0) := hout
    rw [hload, if_neg hneg] at hb
    rw [hload', if_neg hneg] at hc
    exact h.stale u hu b c hb hc

/-! ### Loops -/

/-- The new pages are stale: nothing was stored to them yet. -/
theorem mapPagesFrom {virtPage : Word} (hs : s.mapPagesFrom q flags n virtPage = some s') :
    ∃ t', t.mapPagesFrom q flags n virtPage = some t' ∧
      Twin ρ q ((FillStep.map (pagesFrom n virtPage)).stale S) s' t' := by
  induction n generalizing S s t virtPage with
  | zero =>
    cases hs
    exact ⟨t, rfl, (FillStep.stale_map_nil S).symm ▸ h⟩
  | succ n ih =>
    obtain ⟨⟨frame, sa⟩, ha, hs⟩ := of_bind hs
    obtain ⟨sm, hm, hs⟩ := of_bind hs
    unfold mapPageToFrame at hm
    split at hm
    · cases hm
    · next halign =>
      obtain ⟨⟨pt, s1⟩, hens, hm⟩ := of_bind hm
      cases hm
      obtain ⟨ta, t1, hta, htens, htwin⟩ := h.place (ptIdx virtPage) ha hens
      obtain ⟨t', ht', hfinal⟩ := ih htwin hs
      refine ⟨t', ?_, ?_⟩
      · simp only [Vmm.mapPagesFrom, hta, bind_eq_bind, bind_some, mapPageToFrame,
          halign, htens, pure_def]
        exact ht'
      · rw [pagesFrom, FillStep.stale_map_cons]
        exact hfinal

theorem mapPages {virt : Word}
    (hs : s.mapPages q virt bytes flags = some s') : ∃ t', t.mapPages q virt bytes flags = some t' ∧
      Twin ρ q ((FillStep.map (pagesFrom (numPages virt bytes).toNat (pageStart virt))).stale S)
        s' t' := by
  obtain ⟨t', ht', htwin⟩ := h.mapPagesFrom (mapPages_eq hs)
  refine ⟨t', ?_, htwin⟩
  unfold Vmm.mapPages at hs ⊢
  split at hs
  · cases hs
  · next h1 =>
    rw [if_neg h1]
    split at hs
    · cases hs
    · next h2 =>
      rw [if_neg h2]
      split at hs
      · cases hs
      · next h3 =>
        rw [if_neg h3]
        exact ht'

theorem mapHeapPagesFrom {first' : Word}
    (hs : s.mapHeapPagesFrom q flags n first heap = some (first', heap', s')) :
    ∃ t', t.mapHeapPagesFrom q flags n first heap = some (first', heap', t') ∧
      Twin ρ q ((FillStep.map (heapPagesFrom n heap)).stale S) s' t' := by
  induction n generalizing S s t first heap with
  | zero =>
    cases hs
    exact ⟨t, rfl, (FillStep.stale_map_nil S).symm ▸ h⟩
  | succ n ih =>
    obtain ⟨⟨frame, sa⟩, ha, hs⟩ := of_bind hs
    obtain ⟨⟨virtPage, heap1, sm⟩, hm, hs⟩ := of_bind hs
    simp only [mapHeapPage] at hm
    split at hm
    · cases hm
    · next halign =>
      obtain ⟨i4, h4, hm⟩ := of_bind hm
      obtain ⟨i3, h3, hm⟩ := of_bind hm
      obtain ⟨i2, h2, hm⟩ := of_bind hm
      obtain ⟨⟨pt, s1⟩, hens, hm⟩ := of_bind hm
      obtain ⟨i1, h1, hm⟩ := of_bind hm
      have hcursor : cursor heap = some [i1, i2, i3, i4] := by simp [cursor, h1, h2, h3, h4]
      obtain ⟨-, hpath⟩ := cursor_eq_some hcursor
      cases hm
      rw [frameOf_physOf] at hs
      obtain ⟨ta, t1, hta, htens, htwin⟩ := h.place i1 ha hens
      obtain ⟨t', ht', hfinal⟩ := ih htwin hs
      refine ⟨t', ?_, ?_⟩
      · simp only [Vmm.mapHeapPagesFrom, hta, bind_eq_bind, bind_some, mapHeapPage,
          halign, h1, h2, h3, h4, htens, pure_def, frameOf_physOf]
        exact ht'
      · rw [heapPagesFrom, FillStep.stale_map_cons, ← hpath]
        exact hfinal

theorem loadByte (hb : s.loadByte q v = some b) :
    ∃ c, t.loadByte q v = some c ∧ (v ∈ S → ρ b c) ∧ (v ∉ S → c = b) := by
  by_cases hv : v ∈ S
  · have hsome := hb
    rw [loadByte_eq] at hsome
    obtain ⟨hcan, hsome⟩ := ite_none_right_eq_some.mp hsome
    obtain ⟨e, he, -⟩ := map_eq_some_iff.mp hsome
    obtain ⟨c, hc⟩ := loadByte_isSome (s := t) (r := q) hcan (by rw [h.walk, he]; simp)
    exact ⟨c, hc, fun _ => h.stale v hv b c hb hc, fun hnot => absurd hv hnot⟩
  · exact ⟨b, (h.clean v hv).trans hb, fun hin => absurd hin hv, fun _ => rfl⟩

end

variable {dest : Word} {count : Nat}

variable (h : Twin ρ q S s t)

include h

theorem memcpy {src : Word}
    (hs : s.memcpy q count dest src = some s') : ∃ t', t.memcpy q count dest src = some t' ∧
      Twin ρ q ((FillStep.copy count dest src).stale S) s' t' := by
  induction count generalizing S s t dest src with
  | zero =>
    cases hs
    exact ⟨t, rfl, h⟩
  | succ n ih =>
    obtain ⟨b, hb, hs⟩ := of_bind hs
    obtain ⟨s1, hstore, hs⟩ := of_bind hs
    obtain ⟨c, hc, hstale, hclean⟩ := h.loadByte hb
    obtain ⟨t1, ht1, htwin⟩ := h.storeByte {v | v = dest ∧ src ∈ S ∨ v ≠ dest ∧ v ∈ S} hstore
      (fun u hu => by simp [hu]) (fun hin => hstale (by simpa using hin))
      (fun hout => hclean (by simpa using hout))
    obtain ⟨t', ht', hfinal⟩ := ih htwin hs
    refine ⟨t', ?_, hfinal⟩
    simp only [Vmm.memcpy, hc, ht1, bind_eq_bind, bind_some]
    exact ht'

theorem storeBytes {bs : List Byte}
    (hs : s.storeBytes q bs dest = some s') : ∃ t', t.storeBytes q bs dest = some t' ∧
      Twin ρ q ((FillStep.store (bytesFrom bs.length dest)).stale S) s' t' := by
  induction bs generalizing S s t dest with
  | nil =>
    cases hs
    exact ⟨t, rfl, (FillStep.stale_store_nil S).symm ▸ h⟩
  | cons b bs ih =>
    obtain ⟨s1, hstore, hs⟩ := of_bind hs
    obtain ⟨t1, ht1, htwin⟩ := h.storeSame hstore
    obtain ⟨t', ht', hfinal⟩ := ih htwin hs
    refine ⟨t', ?_, ?_⟩
    · simp only [Vmm.storeBytes, ht1, bind_eq_bind, bind_some]
      exact ht'
    · rw [List.length_cons, bytesFrom, FillStep.stale_store_cons]
      exact hfinal

theorem memset {val : Byte}
    (hs : s.memset q val count dest = some s') : ∃ t', t.memset q val count dest = some t' ∧
      Twin ρ q ((FillStep.store (bytesFrom count dest)).stale S) s' t' := by
  rw [memset_eq_storeBytes] at hs ⊢
  have htwin := h.storeBytes hs
  rwa [List.length_replicate] at htwin

end Twin

/-! ### Heap pages -/

/-- The page that `map_heap_pages` stores the number of pages in. -/
def firstHeapPage (n : Nat) (heap : Heap) : Word :=
  ((heapPagesFrom n heap).find? (fun v => v ≠ 0)).getD 0

/-- The first page that is not null. -/
theorem mapHeapPagesFrom_firstHeapPage
    (hs : s.mapHeapPagesFrom q flags n 0 heap = some (first, heap', s')) :
    first = firstHeapPage n heap := by
  induction n generalizing s heap with
  | zero => cases hs; rfl
  | succ n ih =>
    obtain ⟨⟨frame, sa⟩, ha, hs⟩ := of_bind hs
    obtain ⟨⟨virtPage, heap1, sm⟩, hm, hs⟩ := of_bind hs
    have hpage : virtPage = nextHeapVirtPage heap ∧ heap1 = advanceHeap heap := by
      simp only [mapHeapPage] at hm
      split at hm
      · cases hm
      · obtain ⟨i4, -, hm⟩ := of_bind hm
        obtain ⟨i3, -, hm⟩ := of_bind hm
        obtain ⟨i2, -, hm⟩ := of_bind hm
        obtain ⟨⟨pt, s1⟩, -, hm⟩ := of_bind hm
        obtain ⟨i1, -, hm⟩ := of_bind hm
        cases hm
        rw [physOf_offset]
        exact ⟨BitVec.add_zero _, rfl⟩
    obtain ⟨rfl, rfl⟩ := hpage
    rw [firstHeapPage, heapPagesFrom, List.find?_cons]
    by_cases hzero : nextHeapVirtPage heap = 0
    · simp only [hzero, if_true] at hs
      simp only [hzero, ne_eq, not_true, decide_false]
      exact ih hs
    · simp only [hzero, ne_eq, not_false_eq_true, decide_true, getD_some]
      exact mapHeapPagesFrom_first hzero hs

theorem Twin.mapHeapPages {ρ : Byte → Byte → Prop} {S : Set Word} {addr : Word} (h : Twin ρ q S s t)
    (hs : s.mapHeapPages q heap bytes flags = some (addr, heap', s')) :
    ∃ t', t.mapHeapPages q heap bytes flags = some (addr, heap', t') ∧
      Twin ρ q (FillStep.staleAfter [.map (heapPagesFrom (heapPages bytes).toNat heap),
        .word (firstHeapPage (heapPages bytes).toNat heap)] S) s' t' := by
  obtain ⟨first, s1, hm, hne, hst, rfl⟩ := mapHeapPages_eq hs
  obtain ⟨t1, e1, w1⟩ := h.mapHeapPagesFrom hm
  obtain ⟨t2, e2, w2⟩ := w1.storeWord hst
  rw [← mapHeapPagesFrom_firstHeapPage hm]
  refine ⟨t2, ?_, w2⟩
  unfold heapPages at e1 e2
  simp only [Vmm.mapHeapPages, e1, bind_eq_bind, bind_some, hne, if_false, e2, pure_def]

/-! ## Free frames -/

/-- Two states that differ in the contents of free frames only. -/
structure DifferInFree (s t : Vmm σ) : Prop where
  pmm : t.pmm = s.pmm
  same : Same s t
  mem : ∀ f ∈ allocated s.pmm, t.mem f = s.mem f

/-- Every byte of a free frame is replaced by its complement. -/
noncomputable def flipFree (s : Vmm σ) : Vmm σ :=
  open Classical in
  { s with mem := fun f i => if f ∈ allocated s.pmm then s.mem f i else ~~~s.mem f i }

theorem differInFree_flipFree (s : Vmm σ) : DifferInFree s s.flipFree :=
  ⟨rfl, ⟨rfl, rfl, rfl⟩, fun f hf => by funext i; exact if_pos hf⟩

theorem getByte_flipFree (hf : f ∉ allocated s.pmm) (i : Idx) {pos : Nat} (hpos : pos + 8 ≤ 64) :
    getByte (s.flipFree.mem f i) pos = ~~~getByte (s.mem f i) pos := by
  have hmem : s.flipFree.mem f i = ~~~s.mem f i := if_neg hf
  rw [hmem]
  apply BitVec.eq_of_getLsbD_eq
  intro k hk
  simp [getByte, hk, show pos + k < 64 by omega]

/-- An address space whose frames are in use reads the same. -/
theorem DifferInFree.twin {ρ : Byte → Byte → Prop} (h : DifferInFree s t) (ho : Owns anyHead q ∅ s)
    (hfree : ∀ f ∉ allocated s.pmm, ∀ i pos, pos + 8 ≤ 64 →
      ρ (getByte (s.mem f i) pos) (getByte (t.mem f i) pos)) : Twin ρ q ∅ s t :=
  .of_owned ho h.pmm h.same (fun f hf => h.mem f (ho.tree.allocated hf)) hfree

end Vmm

end Hltos
