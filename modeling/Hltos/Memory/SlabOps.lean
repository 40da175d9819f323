import Hltos.Memory.SlabInv

/-!
# The operations on slabs

What `create_slab`, `destroy_slab`, `alloc` and `free` do to the lists, and what they leave alone.
-/

namespace Hltos

open Option Function

open Vmm (getByte setByte)
open KernelHeap Lib.LinkedList Slab

/-- The slabs of each class and the free chunks of each slab, as they are linked. -/
structure Shape where
  slabs : Fin 6 → List Word
  free : Word → List Nat

namespace Shape

variable {g : Shape} {c c' : Fin 6} {q p : Word} {k : Nat} {l : List Nat}

def setFree (q : Word) (l : List Nat) (g : Shape) : Shape := { g with free := update g.free q l }

/-- A new slab, all of whose chunks are free. -/
def push (c : Fin 6) (q : Word) (g : Shape) : Shape :=
  ⟨update g.slabs c (q :: g.slabs c), update g.free q (List.range (count c))⟩

def remove (c : Fin 6) (q : Word) (g : Shape) : Shape :=
  { g with slabs := update g.slabs c ((g.slabs c).erase q) }

theorem free_setFree_self : (g.setFree q l).free q = l := update_self ..

theorem free_setFree_of_ne (h : p ≠ q) : (g.setFree q l).free p = g.free p := update_of_ne h ..

theorem slabs_push_self : (g.push c q).slabs c = q :: g.slabs c := update_self ..

theorem slabs_push_of_ne (h : c' ≠ c) : (g.push c q).slabs c' = g.slabs c' := update_of_ne h ..

theorem free_push_self : (g.push c q).free q = List.range (count c) := update_self ..

theorem free_push_of_ne (h : p ≠ q) : (g.push c q).free p = g.free p := update_of_ne h ..

theorem slabs_remove_self : (g.remove c q).slabs c = (g.slabs c).erase q := update_self ..

theorem slabs_remove_of_ne (h : c' ≠ c) : (g.remove c q).slabs c' = g.slabs c' := update_of_ne h ..

theorem mem_push : p ∈ (g.push c q).slabs c' ↔ p ∈ g.slabs c' ∨ p = q ∧ c' = c := by
  by_cases h : c' = c
  · subst h
    rw [slabs_push_self, List.mem_cons]
    tauto
  · rw [slabs_push_of_ne h]
    tauto

/-- Chunk `k` of the slab at `q` is allocated. -/
def Used (c : Fin 6) (q : Word) (k : Nat) (g : Shape) : Prop :=
  q ∈ g.slabs c ∧ k < count c ∧ k ∉ g.free q

/-- A page is a slab. -/
def IsSlab (q : Word) (g : Shape) : Prop := ∃ c, q ∈ g.slabs c

end Shape

variable {o : Option Word}

/-- A pointer that is null if there is nothing to point to. -/
theorem eq_some_iff_getD {r : Word} (h : ∀ r ∈ o, r ≠ 0) : o = some r ↔ r = o.getD 0 ∧ r ≠ 0 := by
  cases o with
  | none =>
    constructor
    · intro hnone
      cases hnone
    · rintro ⟨heq, hne⟩
      exact absurd heq hne
  | some u =>
    constructor
    · rintro ⟨rfl⟩
      exact ⟨rfl, h _ rfl⟩
    · rintro ⟨rfl, -⟩
      rfl

theorem eq_none_iff_null {v : Word} (h : ∀ r, o = some r ↔ r = v ∧ r ≠ 0) : o = none ↔ v = 0 := by
  rw [eq_none_iff_forall_ne_some]
  constructor
  · intro hnone
    by_contra hv
    exact hnone v ((h v).mpr ⟨rfl, hv⟩)
  · intro hv r hr
    exact ((h r).mp hr).2 (((h r).mp hr).1.trans hv)

theorem length_lt_of_nodup {l : List Word} (hnodup : l.Nodup) (hl : ∀ r ∈ l, r ≠ 0) :
    l.length < 2 ^ 64 := by
  have hsub : l.map BitVec.toNat ⊆ List.range' 1 (2 ^ 64 - 1) := by
    intro n hn
    obtain ⟨r, hr, rfl⟩ := List.mem_map.mp hn
    have hpos : r.toNat ≠ 0 := fun h => hl r hr (BitVec.eq_of_toNat_eq h)
    have hlt := r.isLt
    rw [List.mem_range'_1]
    omega
  have hmap : (l.map BitVec.toNat).Nodup :=
    List.Nodup.map (fun _ _ h => BitVec.eq_of_toNat_eq h) hnodup
  have hle := (List.subperm_of_subset hmap hsub).length_le
  rw [List.length_map, List.length_range'] at hle
  omega

namespace Slabs

variable {μ : Type} [KernelHeap μ] {s s' : Slabs μ} {g : Shape} {c c' : Fin 6} {q p : Word}
  {k : Nat} {w w' : Idx → Word} {l : List Nat} {h h' h'' : μ} {E : Word → Idx → Prop}

/-- The memory holds the lists. -/
structure Rep (s : Slabs μ) (g : Shape) : Prop where
  valid : Valid s.heap
  fixed : ∀ c, s.classes c = { initClasses c with
    numSlabs := BitVec.ofNat 64 (g.slabs c).length, firstSlab := (s.classes c).firstSlab }
  slab : ∀ c, ∀ q ∈ g.slabs c, ∃ w, page s.heap q = some w ∧ SlabPage c q w (g.free q)
  linked : ∀ c, Doubly id (field 2 s.heap) (field 3 s.heap) 0 0 (s.classes c).firstSlab (g.slabs c)
  nodup : ∀ c, (g.slabs c).Nodup
  apart : ∀ c c' q, q ∈ g.slabs c → q ∈ g.slabs c' → c = c'

/-- Chunks that stay allocated keep their words, except those in `E`, and other pages are not
touched. -/
structure Frame (E : Word → Idx → Prop) (g g' : Shape) (h h' : μ) : Prop where
  chunk : ∀ q, g.IsSlab q → g'.IsSlab q → ∀ x : Idx, 5 ≤ x.toNat → ¬ E q x →
    field x h' q = field x h q
  other : ∀ p, ¬ g.IsSlab p → ¬ g'.IsSlab p → page h' p = page h p

/-- Nothing is excepted. -/
def nowhere : Word → Idx → Prop := fun _ _ => False

theorem frame_of_sets (hq : g.IsSlab q) (hp : page h q = some w) (hs : Sets q w' h h')
    (hw : ∀ x : Idx, 5 ≤ x.toNat → ¬ E q x → w' x = w x) : Frame E g (g.setFree q l) h h' where
  chunk r _ _ x hx hE := by
    by_cases hr : r = q
    · subst hr
      rw [field_eq hs.here, field_eq hp, hw x hx hE]
    · rw [field, field, hs.other hr]
  other r hr _ := hs.other (fun heq => hr (heq ▸ hq))

theorem Frame.trans {g' g'' : Shape} (hf : Frame E g g' h h') (hf' : Frame E g' g'' h' h'')
    (hin : ∀ q, g.IsSlab q → g''.IsSlab q → g'.IsSlab q)
    (hout : ∀ q, ¬ g.IsSlab q → ¬ g''.IsSlab q → ¬ g'.IsSlab q) : Frame E g g'' h h'' where
  chunk q hq hq'' x hx hE :=
    (hf'.chunk q (hin q hq hq'') hq'' x hx hE).trans (hf.chunk q hq (hin q hq hq'') x hx hE)
  other q hq hq'' := (hf'.other q (hout q hq hq'') hq'').trans (hf.other q hq (hout q hq hq''))

namespace Rep

theorem aligned (hr : Rep s g) (hq : q ∈ g.slabs c) : q ≠ 0 ∧ q.toNat % 4096 = 0 := by
  obtain ⟨w, hw, -⟩ := hr.slab c q hq
  exact KernelHeap.aligned hr.valid hw

/-! ## One slab is changed -/

/-- The contents of a slab change, but not its links to other slabs. -/
theorem sets (hr : Rep s g) (hq : q ∈ g.slabs c) (hp : page s.heap q = some w)
    (hs : Sets q w' s.heap h')
    (hslab : SlabPage c q w' l) (hnext : w' 2 = w 2) (hprev : w' 3 = w 3) :
    Rep { s with heap := h' } (g.setFree q l) := by
  have hfield : ∀ i : Idx, w' i = w i → ∀ r, field i h' r = field i s.heap r := by
    intro i hi r
    by_cases heq : r = q
    · subst heq
      rw [field_eq hs.here, field_eq hp, hi]
    · rw [field, field, hs.other heq]
  refine ⟨hs.valid, hr.fixed, ?_, ?_, hr.nodup, hr.apart⟩
  · intro c' r hrin
    by_cases heq : r = q
    · subst heq
      cases hr.apart _ _ _ hq hrin
      exact ⟨w', hs.here, by rw [Shape.free_setFree_self]; exact hslab⟩
    · obtain ⟨v, hv, hslab'⟩ := hr.slab c' r hrin
      refine ⟨v, (hs.other heq).trans hv, ?_⟩
      rw [Shape.free_setFree_of_ne heq]
      exact hslab'
  · exact fun c' => (hr.linked c').congr (fun r _ => hfield 2 hnext r) (fun r _ => hfield 3 hprev r)

/-- The last steps of `alloc`: the first free chunk of a slab is taken. -/
theorem take (hr : Rep s g) (hq : q ∈ g.slabs c) (hfree : g.free q = k :: l) :
    ∃ v h1 b h', loadWord (freeHead q) s.heap = some (chunkAt c q k) ∧
      loadWord (chunkAt c q k) s.heap = some v ∧ storeWord (freeHead q) v s.heap = some h1 ∧
      loadByte (Slab.freeChunks q) h1 = some b ∧
        storeByte (Slab.freeChunks q) (b - 1) h1 = some h' ∧
      Rep { s with heap := h' } (g.setFree q l) ∧ Frame nowhere g (g.setFree q l) s.heap h' := by
  obtain ⟨w, hp, hslab⟩ := hr.slab c q hq
  rw [hfree] at hslab
  have hk := hslab.bound k List.mem_cons_self
  obtain ⟨h1, hrun1, hs1⟩ := store_freeHead (w (link c k)) hr.valid hp
  obtain ⟨h', hrun', hs'⟩ := store_freeChunks (getByte (w 4) 8 - 1) hs1.valid hs1.here
  have hload := load_freeChunks hs1.valid hs1.here
  refine ⟨_, h1, getByte (w 4) 8, h', ?_, load_chunk hr.valid hp hk, hrun1, hload, hrun',
    hr.sets hq hp (hs1.trans hs') hslab.take rfl rfl, frame_of_sets ⟨c, hq⟩ hp (hs1.trans hs') ?_⟩
  · rw [load_freeHead hr.valid hp, hslab.linked.1]
  · intro x hx _
    have h1 : x ≠ 1 := by rintro rfl; exact absurd hx (by decide)
    have h4 : x ≠ 4 := by rintro rfl; exact absurd hx (by decide)
    rw [update_of_ne h4, update_of_ne h1]

/-- The first steps of `free`: a chunk is put in front of the free list of its slab. -/
theorem put (hr : Rep s g) (hu : g.Used c q k) :
    ∃ v h1 h2 b h', loadWord (freeHead q) s.heap = some v ∧
      storeWord (chunkAt c q k) v s.heap = some h1 ∧
      storeWord (freeHead q) (chunkAt c q k) h1 = some h2 ∧
        loadByte (Slab.freeChunks q) h2 = some b ∧
      storeByte (Slab.freeChunks q) (b + 1) h2 = some h' ∧
      loadByte (Slab.freeChunks q) h' = some (.ofNat 8 ((g.free q).length + 1)) ∧
      Rep { s with heap := h' } (g.setFree q (k :: g.free q)) ∧
      Frame (fun p x => p = q ∧ x = link c k) g (g.setFree q (k :: g.free q)) s.heap h' := by
  obtain ⟨hq, hk, hnew⟩ := hu
  obtain ⟨w, hp, hslab⟩ := hr.slab c q hq
  obtain ⟨h1, hrun1, hs1⟩ := store_chunk (w 1) hr.valid hp hk
  obtain ⟨h2, hrun2, hs2⟩ := store_freeHead (chunkAt c q k) hs1.valid hs1.here
  have hcount : update (update w (link c k) (w 1)) 1 (chunkAt c q k) 4 = w 4 := by
    show update w (link c k) (w 1) 4 = w 4
    rw [update_of_ne (link_ne hk (by decide)).symm]
  obtain ⟨h', hrun', hs'⟩ := store_freeChunks (getByte (w 4) 8 + 1) hs2.valid hs2.here
  have hload := load_freeChunks hs2.valid hs2.here
  rw [hcount] at hs' hload
  have hsets := (hs1.trans hs2).trans hs'
  have hslab' := hslab.put hk hnew
  have hlink : ∀ i : Idx, i.toNat < 5 → i ≠ link c k := fun i hi => (link_ne hk hi).symm
  refine ⟨w 1, h1, h2, getByte (w 4) 8, h', load_freeHead hr.valid hp, hrun1,
    hrun2, hload, hrun', ?_, hr.sets hq hp hsets hslab' ?_ ?_, frame_of_sets ⟨c, hq⟩ hp hsets ?_⟩
  · rw [load_freeChunks hsets.valid hsets.here, hslab'.freeChunks, List.length_cons]
  · show update w (link c k) (w 1) 2 = w 2
    rw [update_of_ne (hlink 2 (by decide))]
  · show update w (link c k) (w 1) 3 = w 3
    rw [update_of_ne (hlink 3 (by decide))]
  · intro x hx hE
    have h1 : x ≠ 1 := by rintro rfl; exact absurd hx (by decide)
    have h4 : x ≠ 4 := by rintro rfl; exact absurd hx (by decide)
    rw [update_of_ne h4, update_of_ne h1, update_of_ne (fun heq => hE ⟨rfl, heq⟩)]

/-- The words of a chunk. -/
def InChunk (c : Fin 6) (q : Word) (k : Nat) (p : Word) (x : Idx) : Prop :=
  p = q ∧ 5 + k * words c ≤ x.toNat ∧ x.toNat < 5 + k * words c + words c

section

variable (hr : Rep s g)

include hr

/-- A client writes into a chunk. -/
theorem write (hu : g.Used c q k) {n : Nat} (hn : n < size c) (b : Byte) :
    ∃ h', storeByte (chunkAt c q k + .ofNat 64 n) b s.heap = some h' ∧ Rep { s with heap := h' } g ∧
      Frame (InChunk c q k) g g s.heap h' := by
  obtain ⟨hq, hk, hnew⟩ := hu
  obtain ⟨w, hp, hslab⟩ := hr.slab c q hq
  have hfit := mul_words_lt hk
  have hdiv : (8 * (5 + k * words c) + n) / 8 = 5 + k * words c + n / 8 := by omega
  have hword : n / 8 < words c := Nat.div_lt_of_lt_mul hn
  obtain ⟨h', hrun, hvalid, hpage⟩ :=
    storeByte_page (k := 8 * (5 + k * words c) + n) b hr.valid hp (by unfold size at hn; omega)
  rw [hdiv] at hpage
  have hidx : (BitVec.ofNat 9 (5 + k * words c + n / 8)).toNat = 5 + k * words c + n / 8 := by
    rw [BitVec.toNat_ofNat, Nat.mod_eq_of_lt (by omega)]
  have hsets : Sets q _ s.heap h' := ⟨hvalid, hpage⟩
  -- neither the header nor a link of a free chunk
  have hhead : ∀ i : Idx, i.toNat < 5 → i ≠ .ofNat 9 (5 + k * words c + n / 8) := by
    rintro i hi rfl
    omega
  have hlink : ∀ j ∈ g.free q, link c j ≠ .ofNat 9 (5 + k * words c + n / 8) := by
    intro j hj heq
    have hnat := congrArg BitVec.toNat heq
    rw [toNat_link (hslab.bound j hj), hidx] at hnat
    have hjk : j = k := by
      have hdivk : (j * words c) / words c = (n / 8 + k * words c) / words c := by
        congr 1
        omega
      rwa [Nat.mul_div_cancel _ (words_pos c), Nat.add_mul_div_right _ _ (words_pos c),
        Nat.div_eq_of_lt hword, Nat.zero_add] at hdivk
    exact hnew (hjk ▸ hj)
  have hslab' : ∀ v, SlabPage c q (update w (.ofNat 9 (5 + k * words c + n / 8)) v) (g.free q) :=
    fun v => hslab.congr (update_of_ne (hhead 0 (by decide)) _ _)
      (update_of_ne (hhead 1 (by decide)) _ _) (update_of_ne (hhead 4 (by decide)) _ _)
      (fun j hj => update_of_ne (hlink j hj) _ _)
  have hrep := hr.sets hq hp hsets (hslab' _) (update_of_ne (hhead 2 (by decide)) _ _)
    (update_of_ne (hhead 3 (by decide)) _ _)
  have hframe : Frame (InChunk c q k) g (g.setFree q (g.free q)) s.heap h' := by
    refine frame_of_sets ⟨c, hq⟩ hp hsets fun x _ hE => update_of_ne ?_ _ _
    rintro rfl
    exact hE ⟨rfl, by omega, by omega⟩
  rw [Shape.setFree, update_eq_self] at hrep hframe
  refine ⟨h', ?_, hrep, hframe⟩
  rw [chunkAt_eq, ofNat_add_ofNat]
  exact hrun

/-! ## Slabs come and go -/

theorem firstSlab_eq (c : Fin 6) : (s.classes c).firstSlab = (g.slabs c).head?.getD 0 := by
  rw [(hr.linked c).start_eq, Option.map_id_fun]
  rfl

/-- The first slab is null exactly if there is none. -/
theorem firstSlab_mem (hne : (s.classes c).firstSlab ≠ 0) :
    (s.classes c).firstSlab ∈ g.slabs c ∧ (g.slabs c).head? = some (s.classes c).firstSlab := by
  have hfirst := hr.firstSlab_eq c
  cases hl : g.slabs c with
  | nil =>
    rw [hl] at hfirst
    exact absurd hfirst hne
  | cons r l =>
    rw [hl] at hfirst
    rw [hfirst]
    exact ⟨List.mem_cons_self, rfl⟩

/-- Slabs of which only the links have changed. -/
theorem slab_of_relinked (hq : q ∈ g.slabs c) (hmapped : page h' q ≠ none)
    (hfield : ∀ x : Idx, x ≠ 2 → x ≠ 3 → field x h' q = field x s.heap q) :
    ∃ w, page h' q = some w ∧ SlabPage c q w (g.free q) := by
  obtain ⟨w, hw, hslab⟩ := hr.slab c q hq
  obtain ⟨w', hw'⟩ := ne_none_iff_exists'.mp hmapped
  refine ⟨w', hw', hslab.relink fun x h2 h3 => ?_⟩
  rw [← field_eq hw', ← field_eq hw]
  exact hfield x h2 h3

theorem page_ne_none (hq : q ∈ g.slabs c) : page s.heap q ≠ none := by
  obtain ⟨w, hw, -⟩ := hr.slab c q hq
  rw [hw]
  exact some_ne_none w

/-- `create_slab` puts a new slab in front of the list. It returns whenever there is a page. -/
theorem createSlab (c : Fin 6) {h0 : μ} (hroom : Room s.heap)
    (halloc : allocKernelPage s.heap = some (q, h0)) :
    ∃ s', s.createSlab c = some (q, s') ∧ Rep s' (g.push c q) ∧ page s.heap q = none ∧
      Frame nowhere g (g.push c q) s.heap s'.heap := by
  obtain ⟨hv0, hfresh, w0, hpage0⟩ := allocKernelPage_page hr.valid hroom halloc
  have hs0 : Sets q w0 s.heap h0 := ⟨hv0, hpage0⟩
  have hold : ∀ {c' r}, r ∈ g.slabs c' → r ≠ q := by
    rintro c' r hrin rfl
    exact hr.page_ne_none hrin hfresh
  obtain ⟨h1, w1, hrun1, hs1, hslab⟩ := initSlab_page hs0.valid hs0.here (hr.fixed c)
  have hsets := hs0.trans hs1
  -- the slab that was the first one
  obtain ⟨first, hfirst⟩ : ∃ first, first = (s.classes c).firstSlab := ⟨_, rfl⟩
  have hmem : first ≠ 0 → first ∈ g.slabs c := by
    rw [hfirst]
    exact fun hne => (hr.firstSlab_mem hne).1
  have hmapped : first ≠ 0 → page h1 first ≠ none := by
    intro hne
    rw [hsets.other (hold (hmem hne))]
    exact hr.page_ne_none (hmem hne)
  obtain ⟨h2, hrun2, hv2, hpage2⟩ := setPrev_page (v := q) hsets.valid hmapped
  have hne : q ≠ first := by
    intro heq
    by_cases hnull : first = 0
    · exact (KernelHeap.aligned hsets.valid hsets.here).1 (heq.trans hnull)
    · exact hold (hmem hnull) heq.symm
  have hq2 : page h2 q = some w1 := by rw [hpage2, setWord_of_ne hne, hsets.here]
  obtain ⟨h3, hrun3, hs3⟩ := store_nextSlab first hv2 hq2
  obtain ⟨h4, hrun4, hs4⟩ := store_prevSlab 0 hs3.valid hs3.here
  have hlast := hs3.trans hs4
  -- what has become of the slabs that there were
  have hkept : ∀ {c' r}, r ∈ g.slabs c' → page h4 r ≠ none := by
    intro c' r hrin
    rw [hlast.other (hold hrin), hpage2, Ne, setWord_eq_none, hsets.other (hold hrin)]
    exact hr.page_ne_none hrin
  have hfield : ∀ {c' r}, r ∈ g.slabs c' → ∀ x : Idx,
      field x h4 r = if r = first ∧ x = 3 then q else field x s.heap r := by
    intro c' r hrin x
    have hold1 := hsets.other (hold hrin)
    rw [field_congr (hlast.other (hold hrin)),
      field_setWord hpage2 (by rw [hold1]; exact hr.page_ne_none hrin) x, field_congr hold1]
  have hnext : ∀ {c' r}, r ∈ g.slabs c' → ∀ x : Idx, x ≠ 3 → field x h4 r = field x s.heap r := by
    intro c' r hrin x hx
    rw [hfield hrin x, if_neg (fun hand => hx hand.2)]
  refine ⟨setClass c { s.classes c with firstSlab := q, numSlabs := (s.classes c).numSlabs + 1 }
    { s with heap := h4 }, ?_, ⟨hlast.valid, ?_, ?_, ?_, ?_, ?_⟩, hfresh, ⟨?_, ?_⟩⟩
  · simp only [Slabs.createSlab, halloc, hrun1, ← hfirst, hrun2, hrun3, hrun4,
      bind_eq_bind, bind_some]
    rfl
  · intro c'
    by_cases heq : c' = c
    · subst heq
      rw [Shape.slabs_push_self]
      simp only [setClass, update_self, List.length_cons, BitVec.ofNat_add]
      rw [hr.fixed c']
      rfl
    · rw [Shape.slabs_push_of_ne heq]
      simp only [setClass, update_of_ne heq]
      exact hr.fixed c'
  · intro c' r hrin
    rcases Shape.mem_push.mp hrin with hrin | ⟨rfl, rfl⟩
    · rw [Shape.free_push_of_ne (hold hrin)]
      exact hr.slab_of_relinked hrin (hkept hrin) (fun x _ hx => hnext hrin x hx)
    · refine ⟨_, hlast.here, ?_⟩
      rw [Shape.free_push_self]
      exact hslab.relink fun x h2 h3 => by rw [update_of_ne h3, update_of_ne h2]
  · intro c'
    by_cases heq : c' = c
    · subst heq
      rw [Shape.slabs_push_self]
      simp only [setClass, update_self]
      refine (hr.linked c').push (hr.nodup c') ?_ ?_ ?_ ?_ ?_
      · rw [← hfirst]
        exact field_eq hlast.here
      · exact field_eq hlast.here
      · exact fun r hrin => hnext hrin 2 (by decide)
      · intro r hrhead
        rw [hfield (List.mem_of_mem_head? hrhead), if_pos]
        · rfl
        · refine ⟨?_, rfl⟩
          rw [hfirst, hr.firstSlab_eq, mem_def.mp hrhead]
          rfl
      · intro r hrin hnot
        rw [hfield hrin, if_neg]
        rintro ⟨rfl, -⟩
        rw [hfirst] at hnot hrin
        exact hnot (hr.firstSlab_mem (hr.aligned hrin).1).2
    · rw [Shape.slabs_push_of_ne heq]
      simp only [setClass, update_of_ne heq]
      refine (hr.linked c').congr (fun r hrin => hnext hrin 2 (by decide)) (fun r hrin => ?_)
      rw [hfield hrin, if_neg]
      rintro ⟨rfl, -⟩
      exact heq (hr.apart _ _ _ hrin (hmem (hr.aligned hrin).1))
  · intro c'
    by_cases heq : c' = c
    · subst heq
      rw [Shape.slabs_push_self]
      exact List.nodup_cons.mpr ⟨fun hin => hold hin rfl, hr.nodup c'⟩
    · rw [Shape.slabs_push_of_ne heq]
      exact hr.nodup c'
  · intro c1 c2 r h1 h2
    rcases Shape.mem_push.mp h1 with h1 | ⟨heq1, rfl⟩
    · rcases Shape.mem_push.mp h2 with h2 | ⟨heq2, -⟩
      · exact hr.apart _ _ _ h1 h2
      · exact absurd heq2 (hold h1)
    · rcases Shape.mem_push.mp h2 with h2 | ⟨-, rfl⟩
      · exact absurd heq1 (hold h2)
      · rfl
  · rintro r ⟨c', hrin⟩ - x hx -
    exact hnext hrin x (by rintro rfl; exact absurd hx (by decide))
  · intro r hnot hnot'
    have hrq : r ≠ q := fun heq =>
      hnot' ⟨c, by rw [heq, Shape.slabs_push_self]; exact List.mem_cons_self⟩
    show page h4 r = _
    rw [hlast.other hrq]
    by_cases heq : r = first
    · -- the null pointer, since the first slab is one
      have hnull : r = 0 := by
        by_contra hne
        exact hnot ⟨c, heq ▸ hmem (heq ▸ hne)⟩
      rw [hnull, page_null hv2, page_null hr.valid]
    · rw [hpage2, setWord_of_ne heq, hsets.other hrq]

end

/-- The slabs before and after `q` in the list of its class, null where there is none. -/
structure Neighbours (s : Slabs μ) (g : Shape) (c : Fin 6) (q : Word) (l1 l2 : List Word)
    (prev next : Word) :
    Prop where
  split : g.slabs c = l1 ++ q :: l2
  prev_eq : prev = field 3 s.heap q
  next_eq : next = field 2 s.heap q
  last : ∀ r, l1.getLast? = some r ↔ r = prev ∧ r ≠ 0
  first : ∀ r, l2.head? = some r ↔ r = next ∧ r ≠ 0
  mem : ∀ r ∈ l1 ++ l2, r ∈ g.slabs c ∧ r ≠ q

theorem exists_neighbours (hr : Rep s g) (hq : q ∈ g.slabs c) :
    ∃ l1 l2 prev next, Neighbours s g c q l1 l2 prev next := by
  obtain ⟨l1, l2, hsplit⟩ := List.append_of_mem hq
  have hnodup := hr.nodup c
  have hlinked := hr.linked c
  rw [hsplit] at hnodup hlinked
  have hmem : ∀ r ∈ l1 ++ l2, r ∈ g.slabs c ∧ r ≠ q := by
    intro r hrin
    refine ⟨by rw [hsplit]; grind, ?_⟩
    rintro rfl
    exact (List.nodup_cons.mp (List.perm_middle.nodup_iff.mp hnodup)).1 hrin
  refine ⟨l1, l2, _, _, hsplit, rfl, rfl, fun r => ?_, fun r => ?_, hmem⟩
  · rw [hlinked.prev_eq, Option.map_id_fun]
    exact eq_some_iff_getD fun r hrin =>
      (hr.aligned (hmem r (List.mem_append_left _ (List.mem_of_getLast? hrin))).1).1
  · rw [hlinked.next_eq, Option.map_id_fun]
    exact eq_some_iff_getD fun r hrin =>
      (hr.aligned (hmem r (List.mem_append_right _ (List.mem_of_mem_head? hrin))).1).1

/-- The neighbours are linked to each other, and the page is given back. -/
structure Unlinked (s : Slabs μ) (g : Shape) (q prev next : Word) (h' : μ) : Prop where
  valid : Valid h'
  gone : page h' q = none
  mapped : ∀ {c r}, r ∈ g.slabs c → r ≠ q → page h' r ≠ none
  fields : ∀ {c r}, r ∈ g.slabs c → r ≠ q → ∀ x : Idx, field x h' r =
    if r = next ∧ x = 3 then prev else if r = prev ∧ x = 2 then next else field x s.heap r
  other : ∀ r, r ≠ q → r ≠ prev → r ≠ next → page h' r = page s.heap r

namespace Neighbours

variable {l1 l2 : List Word} {prev next : Word} (hn : Neighbours s g c q l1 l2 prev next)

include hn

theorem prev_mem (hne : prev ≠ 0) : prev ∈ g.slabs c ∧ prev ≠ q :=
  hn.mem prev (List.mem_append_left _ (List.mem_of_getLast? ((hn.last prev).mpr ⟨rfl, hne⟩)))

theorem next_mem (hne : next ≠ 0) : next ∈ g.slabs c ∧ next ≠ q :=
  hn.mem next (List.mem_append_right _ (List.mem_of_head? ((hn.first next).mpr ⟨rfl, hne⟩)))

theorem nil_iff :
    l1 = [] ↔ prev = 0 := List.getLast?_eq_none_iff.symm.trans (eq_none_iff_null hn.last)

/-- Not the only slab of its class. -/
theorem not_alone (hlen : 1 < (g.slabs c).length) : ¬ (prev = 0 ∧ next = 0) := by
  rintro ⟨hprev, hnext⟩
  have hl2 : l2 = [] := List.head?_eq_none_iff.mp ((eq_none_iff_null hn.first).mpr hnext)
  rw [hn.split, hn.nil_iff.mpr hprev, hl2] at hlen
  exact absurd hlen (by simp)

theorem erase_eq : (g.slabs c).erase q = l1 ++ l2 := by
  rw [hn.split,
    List.erase_append_right _ (fun hin => (hn.mem q (List.mem_append_left _ hin)).2 rfl),
    List.erase_cons_head]

/-- The stores of `destroy_slab`. -/
theorem unlink (hr : Rep s g) (hq : q ∈ g.slabs c) :
    ∃ h1 h2 h', setNext prev next s.heap = some h1 ∧
    setPrev next prev h1 = some h2 ∧ freeKernelPage q h2 = some h' ∧
    Unlinked s g q prev next h' := by
  obtain ⟨w, hw, -⟩ := hr.slab c q hq
  have hq0 : q ≠ 0 := (hr.aligned hq).1
  obtain ⟨h1, hrun1, hv1, hpage1⟩ :=
    setNext_page (v := next) hr.valid (fun hne => hr.page_ne_none (hn.prev_mem hne).1)
  obtain ⟨h2, hrun2, hv2, hpage2⟩ := setPrev_page (v := prev) hv1 (a := next)
    (fun hne => by rw [hpage1, Ne, setWord_eq_none]; exact hr.page_ne_none (hn.next_mem hne).1)
  have hqprev : q ≠ prev := fun heq => (hn.prev_mem (heq ▸ hq0)).2 heq.symm
  have hqnext : q ≠ next := fun heq => (hn.next_mem (heq ▸ hq0)).2 heq.symm
  have hq2 : page h2 q = some w := by
    rw [hpage2, setWord_of_ne hqnext, hpage1, setWord_of_ne hqprev, hw]
  obtain ⟨h3, hrun3, hv3, hpage3⟩ := freeKernelPage_page hv2 hq2
  have hother : ∀ r ≠ q, page h3 r = page h2 r := fun r hne => by rw [hpage3, update_of_ne hne]
  refine ⟨h1, h2, h3, hrun1, hrun2, hrun3, hv3, by rw [hpage3, update_self], ?_, ?_, ?_⟩
  · intro c' r hrin hne
    rw [hother r hne, hpage2, Ne, setWord_eq_none, hpage1, setWord_eq_none]
    exact hr.page_ne_none hrin
  · intro c' r hrin hne x
    have hold := hr.page_ne_none hrin
    rw [field_congr (hother r hne),
      field_setWord hpage2 (by rw [hpage1, Ne, setWord_eq_none]; exact hold) x,
      field_setWord hpage1 hold x]
  · intro r hne hrp hrn
    rw [hother r hne, hpage2, setWord_of_ne hrn, hpage1, setWord_of_ne hrp]

/-- The list without the slab. -/
theorem linked (hr : Rep s g) (hu : Unlinked s g q prev next h') :
    Doubly id (field 2 h') (field 3 h') 0 0 (if prev ≠
      0 then (s.classes c).firstSlab else next) (l1 ++ l2) := by
  have hnodup := hr.nodup c
  have hlinked := hr.linked c
  rw [hn.split] at hnodup hlinked
  have hremoved : Doubly id (field 2 h') (field 3 h') 0 0
      (if l1 = [] then field 2 s.heap q else (s.classes c).firstSlab) (l1 ++ l2) := by
    refine hlinked.remove hnodup (fun r hrlast => ?_) (fun r hrfirst => ?_) (fun r hrin hnot => ?_)
      (fun r hrin hnot => ?_)
    · obtain ⟨hmem, hne⟩ := hn.mem r (List.mem_append_left _ (List.mem_of_getLast? hrlast))
      rw [hu.fields hmem hne, if_neg (fun hand => absurd hand.2 (by decide)),
        if_pos ⟨((hn.last r).mp hrlast).1, rfl⟩, hn.next_eq]
    · obtain ⟨hmem, hne⟩ := hn.mem r (List.mem_append_right _ (List.mem_of_mem_head? hrfirst))
      rw [hu.fields hmem hne, if_pos ⟨((hn.first r).mp hrfirst).1, rfl⟩, hn.prev_eq]
    · obtain ⟨hmem, hne⟩ := hn.mem r hrin
      rw [hu.fields hmem hne, if_neg (fun hand => absurd hand.2 (by decide)), if_neg]
      exact fun hand => hnot ((hn.last r).mpr ⟨hand.1, (hr.aligned hmem).1⟩)
    · obtain ⟨hmem, hne⟩ := hn.mem r hrin
      rw [hu.fields hmem hne, if_neg, if_neg (fun hand => absurd hand.2 (by decide))]
      exact fun hand => hnot ((hn.first r).mpr ⟨hand.1, (hr.aligned hmem).1⟩)
  simp only [hn.nil_iff, ← hn.next_eq] at hremoved
  simpa only [ne_eq, ite_not] using hremoved

/-- The neighbours are of the same class. -/
theorem fields_of_ne (hr : Rep s g) (hq : q ∈ g.slabs c) (hu : Unlinked s g q prev next h')
    (hne : c' ≠ c) (x : Idx) : ∀ r ∈ g.slabs c', field x h' r = field x s.heap r := by
  intro r hrin
  have hfar : r ∉ g.slabs c := fun hin => hne (hr.apart _ _ _ hrin hin)
  have hr0 := (hr.aligned hrin).1
  rw [hu.fields hrin (fun heq => hfar (heq ▸ hq)), if_neg, if_neg]
  · rintro ⟨rfl, -⟩
    exact hfar (hn.prev_mem hr0).1
  · rintro ⟨rfl, -⟩
    exact hfar (hn.next_mem hr0).1

end Neighbours

/-- Other slabs keep all but their links. -/
theorem Unlinked.fields_of_not_link {prev next : Word} (hu : Unlinked s g q prev next h')
    (hp : p ∈ g.slabs c)
    (hne : p ≠ q) {x : Idx} (h2 : x ≠ 2) (h3 : x ≠ 3) : field x h' p = field x s.heap p := by
  rw [hu.fields hp hne, if_neg (fun hand => h3 hand.2), if_neg (fun hand => h2 hand.2)]

section

variable (hr : Rep s g)

include hr

theorem mem_remove (hq : q ∈ g.slabs c) (hp : p ∈ (g.remove c q).slabs c') :
    p ∈ g.slabs c' ∧ p ≠ q := by
  by_cases heq : c' = c
  · subst heq
    rw [Shape.slabs_remove_self, (hr.nodup c').mem_erase_iff] at hp
    exact hp.symm
  · rw [Shape.slabs_remove_of_ne heq] at hp
    refine ⟨hp, ?_⟩
    rintro rfl
    exact heq (hr.apart _ _ _ hp hq)

/-- `destroy_slab` takes a slab out of the list and unmaps its page. -/
theorem destroySlab (hq : q ∈ g.slabs c) (hlen : 1 < (g.slabs c).length) :
    ∃ s', s.destroySlab c q = some s' ∧ Rep s' (g.remove c q) ∧ page s'.heap q = none ∧
      Frame nowhere g (g.remove c q) s.heap s'.heap := by
  obtain ⟨l1, l2, prev, next, hn⟩ := hr.exists_neighbours hq
  obtain ⟨h1, h2, h3, hrun1, hrun2, hrun3, hu⟩ := hn.unlink hr hq
  obtain ⟨w, hw, -⟩ := hr.slab c q hq
  have hload3 : loadWord (prevSlab q) s.heap = some prev := by
    rw [load_prevSlab hr.valid hw, hn.prev_eq, field_eq hw]
  have hload2 : loadWord (nextSlab q) s.heap = some next := by
    rw [load_nextSlab hr.valid hw, hn.next_eq, field_eq hw]
  refine ⟨setClass c { s.classes c with
    firstSlab := if prev ≠ 0 then (s.classes c).firstSlab else next, numSlabs :=
      (s.classes c).numSlabs - 1 }
    { s with heap := h3 }, ?_, ⟨hu.valid, ?_, ?_, ?_, ?_, ?_⟩, hu.gone, ⟨?_, ?_⟩⟩
  · simp only [Slabs.destroySlab, if_neg (hr.aligned hq).1, hload3, hload2,
      if_neg (hn.not_alone hlen), hrun1, hrun2, hrun3, bind_eq_bind, bind_some]
    by_cases hp0 : prev = 0
    · rw [if_neg (not_not.mpr hp0), if_neg (not_not.mpr hp0)]
      rfl
    · rw [if_pos hp0, if_pos hp0]
      rfl
  · intro c'
    by_cases heq : c' = c
    · subst heq
      have hsize : (g.slabs c').length = ((g.slabs c').erase q).length + 1 := by
        rw [List.length_erase_of_mem hq]
        omega
      rw [Shape.slabs_remove_self]
      simp only [setClass, update_self]
      rw [hr.fixed c', hsize, BitVec.ofNat_add]
      simp only [show .ofNat 64 1 = (1 : Word) from rfl, BitVec.add_sub_cancel]
    · rw [Shape.slabs_remove_of_ne heq]
      simp only [setClass, update_of_ne heq]
      exact hr.fixed c'
  · intro c' r hrin
    obtain ⟨hrin, hne⟩ := hr.mem_remove hq hrin
    exact hr.slab_of_relinked hrin (hu.mapped hrin hne) fun x => hu.fields_of_not_link hrin hne
  · intro c'
    by_cases heq : c' = c
    · subst heq
      rw [Shape.slabs_remove_self, hn.erase_eq]
      simp only [setClass, update_self]
      exact hn.linked hr hu
    · rw [Shape.slabs_remove_of_ne heq]
      simp only [setClass, update_of_ne heq]
      exact (hr.linked c').congr (hn.fields_of_ne hr hq hu heq 2) (hn.fields_of_ne hr hq hu heq 3)
  · intro c'
    by_cases heq : c' = c
    · subst heq
      rw [Shape.slabs_remove_self]
      exact (hr.nodup c').erase q
    · rw [Shape.slabs_remove_of_ne heq]
      exact hr.nodup c'
  · exact fun c1 c2 r hr1 hr2 => hr.apart _ _ _ (hr.mem_remove hq hr1).1 (hr.mem_remove hq hr2).1
  · rintro r - ⟨c', hrin⟩ x hx -
    obtain ⟨hrin, hne⟩ := hr.mem_remove hq hrin
    have hx2 : x ≠ 2 := by rintro rfl; exact absurd hx (by decide)
    have hx3 : x ≠ 3 := by rintro rfl; exact absurd hx (by decide)
    exact hu.fields_of_not_link hrin hne hx2 hx3
  · intro r hnot _
    by_cases hr0 : r = 0
    · rw [hr0, page_null hr.valid]
      exact page_null hu.valid
    · refine hu.other r (fun heq => hnot ⟨c, heq ▸ hq⟩) ?_ ?_
      · rintro rfl
        exact hnot ⟨c, (hn.prev_mem hr0).1⟩
      · rintro rfl
        exact hnot ⟨c, (hn.next_mem hr0).1⟩

/-! ## Finding a slab -/

/-- The first slab with a free chunk, as the loop of `alloc` finds it. -/
theorem findSlab {rest : List Word} {before start : Word} {fuel : Nat}
    (hlinked : Doubly id (field 2 s.heap) (field 3 s.heap) 0 before start rest)
    (hrest : ∀ r ∈ rest, r ∈ g.slabs c) (hfuel : rest.length < fuel) :
    (Slab.findSlab fuel start s.heap = some 0 ∧ ∀ r ∈ rest, g.free r = []) ∨
      ∃ q ∈ rest, Slab.findSlab fuel start s.heap = some q ∧ g.free q ≠ [] := by
  induction rest generalizing before start fuel with
  | nil =>
    obtain ⟨fuel, rfl⟩ := Nat.exists_eq_add_one.mpr hfuel
    rw [hlinked, Slab.findSlab, if_pos rfl]
    exact .inl ⟨rfl, by simp⟩
  | cons r rest ih =>
    obtain ⟨fuel, rfl⟩ := Nat.exists_eq_add_one.mpr (Nat.zero_lt_of_lt hfuel)
    obtain ⟨hstart, -, hlinked⟩ := hlinked
    have hr' := hrest r List.mem_cons_self
    obtain ⟨w, hw, hslab⟩ := hr.slab c r hr'
    obtain ⟨hnull, halign⟩ := hr.aligned hr'
    have hstep : Slab.findSlab (fuel + 1) r s.heap =
        if w 1 = 0 then Slab.findSlab fuel (w 2) s.heap else some r := by
      rw [Slab.findSlab, if_neg hnull]
      simp only [load_freeHead hr.valid hw, load_nextSlab hr.valid hw, bind_eq_bind, bind_some]
      rfl
    rw [hstart, show id r = r from rfl, hstep]
    by_cases hfree : g.free r = []
    · rw [if_pos ((hslab.head_eq_zero_iff halign).mpr hfree), ← field_eq hw]
      rcases ih hlinked (fun u hu =>
        hrest u (List.mem_cons_of_mem r hu)) (Nat.lt_of_succ_lt_succ hfuel) with
        ⟨hrun, hall⟩ | ⟨q, hq, hrun, hne⟩
      · refine .inl ⟨hrun, fun u hu => ?_⟩
        rcases List.mem_cons.mp hu with rfl | hu
        · exact hfree
        · exact hall u hu
      · exact .inr ⟨q, List.mem_cons_of_mem r hq, hrun, hne⟩
    · rw [if_neg (fun hzero => hfree ((hslab.head_eq_zero_iff halign).mp hzero))]
      exact .inr ⟨r, List.mem_cons_self, rfl, hfree⟩

/-- There are fewer slabs than addresses. -/
theorem length_lt (c : Fin 6) : (g.slabs c).length < 2 ^ 64 :=
  length_lt_of_nodup (hr.nodup c) (fun _ hq => (hr.aligned hq).1)

theorem toNat_numSlabs (c : Fin 6) : (s.classes c).numSlabs.toNat = (g.slabs c).length := by
  rw [hr.fixed c]
  exact Nat.mod_eq_of_lt (hr.length_lt c)

end

end Rep

/-! ## Allocation and release -/

/-- An allocation: chunk `k` of the slab at `q` was free, or its page was not mapped and all slabs
of the class were full. -/
structure Allocs (c : Fin 6) (q : Word) (k : Nat) (s : Slabs μ) (g : Shape)
    (s' : Slabs μ) (g' : Shape) :
    Prop where
  rep : Rep s' g'
  frame : Frame nowhere g g' s.heap s'.heap
  bound : k < count c
  used : ∀ c' r j, g'.Used c' r j ↔ g.Used c' r j ∨ c' = c ∧ r = q ∧ j = k
  slabs : (q ∈ g.slabs c ∧ k ∈ g.free q ∧ g'.slabs = g.slabs) ∨
    page s.heap q = none ∧ (∀ r ∈ g.slabs c, g.free r = []) ∧
      g'.slabs = update g.slabs c (q :: g.slabs c)
  shorter : (g'.free q).length < count c
  others : ∀ r ≠ q, g'.free r = g.free r

/-- The first free chunk of a slab, as a step of `alloc`. -/
theorem used_setFree (hr : Rep s g) (hq : q ∈ g.slabs c) (hfree : g.free q = k :: l)
    (c' : Fin 6) (r : Word)
    (j : Nat) : (g.setFree q l).Used c' r j ↔ g.Used c' r j ∨ c' = c ∧ r = q ∧ j = k := by
  obtain ⟨w, hw, hslab⟩ := hr.slab c q hq
  rw [hfree] at hslab
  have hk := (List.nodup_cons.mp hslab.nodup).1
  have hbound := hslab.bound k List.mem_cons_self
  unfold Shape.Used
  by_cases heq : r = q
  · subst heq
    rw [Shape.free_setFree_self, hfree, List.mem_cons, not_or]
    constructor
    · rintro ⟨hin, hj, hnot⟩
      cases hr.apart _ _ _ hin hq
      by_cases hjk : j = k
      · exact .inr ⟨rfl, rfl, hjk⟩
      · exact .inl ⟨hin, hj, hjk, hnot⟩
    · rintro (⟨hin, hj, -, hnot⟩ | ⟨rfl, -, rfl⟩)
      · exact ⟨hin, hj, hnot⟩
      · exact ⟨hq, hbound, hk⟩
  · rw [Shape.free_setFree_of_ne heq]
    constructor
    · exact fun h => .inl h
    · rintro (h | ⟨-, h, -⟩)
      · exact h
      · exact absurd h heq

namespace Rep

/-- The steps of `alloc` behind its loop. -/
theorem alloc_of_take (hr : Rep s g) (hq : q ∈ g.slabs c) (hfree : g.free q = k :: l) : ∃ h', (do
      let chunk ← loadWord (freeHead q) s.heap
      let h ← storeWord (freeHead q) (← loadWord chunk s.heap) s.heap
      let h ← storeByte (Slab.freeChunks q) ((← loadByte (Slab.freeChunks q) h) - 1) h
      return (chunk, { s with heap := h }) : Option (Word × Slabs μ)) =
        some (chunkAt c q k, { s with heap := h' }) ∧
      Rep { s with heap := h' } (g.setFree q l) ∧ Frame nowhere g (g.setFree q l) s.heap h' := by
  obtain ⟨v, h1, b, h', hhead, hlink, hrun1, hload, hrun', hrep, hframe⟩ := hr.take hq hfree
  refine ⟨h', ?_, hrep, hframe⟩
  simp only [hhead, hlink, hrun1, hload, hrun', bind_eq_bind, bind_some]
  rfl

/-- The chunks of a new slab are free. -/
theorem used_push (hr : Rep s g) (hfresh : page s.heap q = none) (c' : Fin 6) (r : Word) (j : Nat) :
    (g.push c q).Used c' r j ↔ g.Used c' r j := by
  unfold Shape.Used
  by_cases heq : r = q
  · subst heq
    rw [Shape.free_push_self, List.mem_range]
    constructor
    · rintro ⟨hin, hj, hnot⟩
      rcases Shape.mem_push.mp hin with hin | ⟨-, rfl⟩
      · exact absurd hfresh (hr.page_ne_none hin)
      · exact absurd hj hnot
    · rintro ⟨hin, -⟩
      exact absurd hfresh (hr.page_ne_none hin)
  · rw [Shape.mem_push, Shape.free_push_of_ne heq]
    simp [heq]

theorem length_free (hr : Rep s g) (hq : q ∈ g.slabs c) (hfree : g.free q = k :: l) :
    l.length < count c := by
  obtain ⟨w, -, hslab⟩ := hr.slab c q hq
  have hle := hslab.length_le
  rw [hfree, List.length_cons] at hle
  omega

/-- `alloc` returns a chunk unless it needs a page and there is none. -/
theorem alloc (hr : Rep s g) {n : Word} (hroom : Room s.heap) (hc : getSizeClass n = some c) :
    (s.alloc n = none ∧ allocKernelPage s.heap = none) ∨
      ∃ q k s' g', s.alloc n = some (chunkAt c q k, s') ∧ Allocs c q k s g s' g' := by
  have hfuel : (g.slabs c).length < (s.classes c).numSlabs.toNat + 1 := by
    rw [hr.toNat_numSlabs]
    omega
  rcases hr.findSlab (hr.linked c) (fun _ h => h) hfuel with ⟨hfind, hfull⟩ | ⟨q, hq, hfind, hne⟩
  · cases halloc : allocKernelPage s.heap with
    | none =>
      refine .inl ⟨?_, rfl⟩
      simp [Slabs.alloc, hc, hfind, Slabs.createSlab, halloc]
    | some r =>
      obtain ⟨q, h0⟩ := r
      obtain ⟨s1, hrun1, hrep1, hfresh, hframe1⟩ := hr.createSlab c hroom halloc
      have hq : q ∈ (g.push c q).slabs c := by
        rw [Shape.slabs_push_self]
        exact List.mem_cons_self
      obtain ⟨l, hl⟩ : ∃ l, (g.push c q).free q = 0 :: l := by
        rw [Shape.free_push_self, ← Nat.sub_add_cancel (count_pos c), List.range_succ_eq_map]
        exact ⟨_, rfl⟩
      obtain ⟨h', hrun, hrep, hframe⟩ := hrep1.alloc_of_take hq hl
      refine .inr ⟨q, 0, { s1 with heap := h' }, (g.push c q).setFree q l, ?_,
        hrep, ?_, count_pos c, ?_, ?_, ?_, ?_⟩
      · have hnull := (hrep1.aligned hq).1
        simp only [Slabs.alloc, hc, hfind, hrun1, bind_eq_bind, bind_some, if_true, if_neg hnull]
        exact hrun
      · refine hframe1.trans hframe (fun r _ h => h) (fun r _ h => h)
      · intro c' r j
        rw [used_setFree hrep1 hq hl, hr.used_push hfresh]
      · exact .inr ⟨hfresh, hfull, rfl⟩
      · rw [Shape.free_setFree_self]
        exact (hrep1.length_free hq hl)
      · intro r hne
        rw [Shape.free_setFree_of_ne hne, Shape.free_push_of_ne hne]
  · obtain ⟨k, l, hl⟩ := List.exists_cons_of_ne_nil hne
    obtain ⟨h', hrun, hrep, hframe⟩ := hr.alloc_of_take hq hl
    obtain ⟨w, -, hslab⟩ := hr.slab c q hq
    rw [hl] at hslab
    refine .inr ⟨q, k, { s with heap := h' }, g.setFree q l, ?_, hrep, hframe,
      hslab.bound k List.mem_cons_self, used_setFree hr hq hl, ?_, ?_, ?_⟩
    · have hnull := (hr.aligned hq).1
      simp only [Slabs.alloc, hc, hfind, bind_eq_bind, bind_some, if_neg hnull]
      exact hrun
    · exact .inl ⟨hq, by rw [hl]; exact List.mem_cons_self, rfl⟩
    · rw [Shape.free_setFree_self]
      exact hr.length_free hq hl
    · exact fun r hne => Shape.free_setFree_of_ne hne

end Rep

/-- A release: the chunk goes back to its slab, and the slab goes if it has become empty and is not
the only one. -/
structure Frees (c : Fin 6) (q : Word) (k : Nat) (s : Slabs μ) (g : Shape)
    (s' : Slabs μ) (g' : Shape) :
    Prop where
  rep : Rep s' g'
  frame : Frame (fun p x => p = q ∧ x = link c k) g g' s.heap s'.heap
  used : ∀ c' r j, g'.Used c' r j ↔ g.Used c' r j ∧ ¬ (r = q ∧ j = k)
  free : g'.free = update g.free q (k :: g.free q)
  slabs : (g'.slabs = g.slabs ∧ ¬ ((g.free q).length + 1 = count c ∧ 1 < (g.slabs c).length)) ∨
    g'.slabs = update g.slabs c ((g.slabs c).erase q) ∧ page s'.heap q = none

theorem classAt_ofNat (c : Fin 6) : classAt (BitVec.ofNat 8 c.val) = some c := by
  revert c
  decide

theorem used_put (c' : Fin 6) (r : Word) (j : Nat) :
    (g.setFree q (k :: g.free q)).Used c' r j ↔ g.Used c' r j ∧ ¬ (r = q ∧ j = k) := by
  unfold Shape.Used
  by_cases heq : r = q
  · subst heq
    rw [Shape.free_setFree_self, List.mem_cons, not_or]
    constructor
    · rintro ⟨hin, hj, hne, hnot⟩
      exact ⟨⟨hin, hj, hnot⟩, fun hand => hne hand.2⟩
    · rintro ⟨⟨hin, hj, hnot⟩, hne⟩
      exact ⟨hin, hj, fun hjk => hne ⟨rfl, hjk⟩, hnot⟩
  · rw [Shape.free_setFree_of_ne heq]
    exact ⟨fun h => ⟨h, fun hand => heq hand.1⟩, fun h => h.1⟩

namespace Rep

/-- No chunk of an empty slab is allocated. -/
theorem mem_free_of_full (hr : Rep s g) (hq : q ∈ g.slabs c)
    (hfull : (g.free q).length = count c) {j : Nat} (hj : j < count c) : j ∈ g.free q := by
  obtain ⟨w, -, hslab⟩ := hr.slab c q hq
  have hsub : g.free q ⊆ List.range (count c) := fun k hk => List.mem_range.mpr (hslab.bound k hk)
  have hperm :=
    (List.subperm_of_subset hslab.nodup hsub).perm_of_length_le (by rw [List.length_range, hfull])
  exact hperm.mem_iff.mpr (List.mem_range.mpr hj)

theorem used_remove (hr : Rep s g) (hq : q ∈ g.slabs c)
    (hfull : (g.free q).length = count c) (c' : Fin 6) (r : Word)
    (j : Nat) : (g.remove c q).Used c' r j ↔ g.Used c' r j := by
  unfold Shape.Used
  rw [show (g.remove c q).free = g.free from rfl]
  by_cases hc : c' = c
  · subst hc
    rw [Shape.slabs_remove_self, (hr.nodup c').mem_erase_iff]
    constructor
    · exact fun h => ⟨h.1.2, h.2⟩
    · rintro ⟨hin, hj, hnot⟩
      refine ⟨⟨?_, hin⟩, hj, hnot⟩
      rintro rfl
      exact hnot (hr.mem_free_of_full hq hfull hj)
  · rw [Shape.slabs_remove_of_ne hc]

/-- `free` of an allocated chunk returns. -/
theorem free (hr : Rep s g) (hu : g.Used c q k) :
    ∃ s' g', s.free (chunkAt c q k) = some s' ∧ Frees c q k s g s' g' := by
  obtain ⟨hq, hk, -⟩ := id hu
  obtain ⟨w, hw, hslab⟩ := hr.slab c q hq
  obtain ⟨v, h1, h2, b, h', hhead, hrun1, hrun2, hload, hrun', hcount, hrep, hframe⟩ := hr.put hu
  have hclass : loadByte (sizeClassIndex q) s.heap = some (.ofNat 8 c.val) := by
    rw [load_sizeClassIndex hr.valid hw, hslab.index]
  have hstep : s.free (chunkAt c q k) =
      if .ofNat 8 ((g.free q).length + 1) = (s.classes c).chunksPerSlab ∧
        (s.classes c).numSlabs > 1
      then Slabs.destroySlab c q { s with heap := h' } else some { s with heap := h' } := by
    simp only [Slabs.free, tryGetSlab_chunk hr.valid hw hslab hk, hclass,
      classAt_ofNat, hhead, hrun1, hrun2, hload, hrun', hcount, bind_eq_bind, bind_some]
    rfl
  -- the counter does not wrap around
  have hlen : (g.free q).length + 1 ≤ count c := by
    obtain ⟨w', -, hslab'⟩ := hrep.slab c q hq
    have hle := hslab'.length_le
    rwa [Shape.free_setFree_self] at hle
  have hcond : (.ofNat 8 ((g.free q).length + 1) = (s.classes c).chunksPerSlab ∧
    (s.classes c).numSlabs > 1) ↔ (g.free q).length + 1 = count c ∧ 1 < (g.slabs c).length := by
    have hchunks : (s.classes c).chunksPerSlab = .ofNat 8 (count c) := by
      rw [hr.fixed c, initClasses_eq]
    have hlt := count_lt c
    rw [hchunks, ← hr.toNat_numSlabs]
    refine and_congr ?_ Iff.rfl
    constructor
    · intro heq
      have hnat := congrArg BitVec.toNat heq
      rw [BitVec.toNat_ofNat, BitVec.toNat_ofNat, Nat.mod_eq_of_lt (by omega),
        Nat.mod_eq_of_lt (by omega)] at hnat
      exact hnat
    · intro heq
      rw [heq]
  by_cases hempty : (g.free q).length + 1 = count c ∧ 1 < (g.slabs c).length
  · have hfull : ((g.setFree q (k :: g.free q)).free q).length = count c := by
      rw [Shape.free_setFree_self]
      exact hempty.1
    obtain ⟨s', hrun, hrep', hnone, hframe'⟩ := hrep.destroySlab hq hempty.2
    refine ⟨s', _, ?_, hrep', ?_, ?_, rfl, .inr ⟨rfl, hnone⟩⟩
    · rw [hstep, if_pos (hcond.mpr hempty), hrun]
    · refine hframe.trans ⟨fun r hin hin' x hx _ => hframe'.chunk r hin hin' x hx id, hframe'.other⟩
        (fun r h _ => h) (fun r h _ => h)
    · intro c' r j
      rw [hrep.used_remove hq hfull, used_put]
  · refine ⟨_, _, ?_, hrep, hframe, ?_, rfl, .inl ⟨rfl, hempty⟩⟩
    · rw [hstep, if_neg (fun hyes => hempty (hcond.mp hyes))]
    · intro c' r j
      rw [used_put]

end Rep

end Slabs

end Hltos
