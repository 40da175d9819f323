import Hltos.Memory.Orphans

/-!
# What teardown touches, in order

`free_user_pml4` with a record of the table entries that it reads and writes and of the frames that
it passes to `free_frame`. The tables are changed while they are walked; in a tree of distinct
frames the record is nevertheless the one of a walk over the tables as they were.
-/

namespace Hltos

open Lib.Radix FrameAllocator Pte List Option

inductive TableEvent where
  | read (f : Frame) (i : Idx)
  | write (f : Frame) (i : Idx)
  | free (f : Frame)
deriving DecidableEq

variable {e : TableEvent}

namespace TableEvent

/-- The table that is accessed. -/
def table : TableEvent → Option Frame
  | read f _ | write f _ => some f
  | free _ => none

def freed : TableEvent → Option Frame
  | free f => some f
  | _ => none

/-- The second event does not access what the first one has freed. -/
def Safe (e e' : TableEvent) : Prop := ∀ f, e.freed = some f → e'.table ≠ some f

theorem safe_of_freed (h : e.freed = none) (e' : TableEvent) : Safe e e' := by
  intro f hf
  rw [h] at hf
  cases hf

end TableEvent

open TableEvent (Safe)

/-! ## The run -/

/-- The state, and what has happened so far. -/
structure Recorded (σ : Type) where
  vmm : Vmm σ
  trace : List TableEvent

namespace Recorded

variable {σ : Type}

/-- An entry is read; its value is that in `vmm.mem`. -/
def read (f : Frame) (i : Idx) (t : Recorded σ) : Recorded σ :=
  { t with trace := t.trace ++ [.read f i] }

def write (f : Frame) (i : Idx) (e : Word) (t : Recorded σ) : Recorded σ :=
  ⟨t.vmm.writeEntry f i e, t.trace ++ [.write f i]⟩

/-- `get_pdpt`, `get_pd` or `get_pt` of an inner entry. A leaf has no table behind it. -/
def getTable (inner : Bool) (f : Frame) (i : Idx) (t : Recorded σ) : Recorded σ :=
  if inner then t.read f i else t

@[simp] theorem vmm_getTable (inner : Bool) (f : Frame) (i : Idx) (t : Recorded σ) :
    (t.getTable inner f i).vmm = t.vmm := by
  cases inner <;> rfl

def zeroPage (f : Frame) (t : Recorded σ) : Recorded σ :=
  ⟨t.vmm.zeroPage f, t.trace ++ Vmm.allIdx.map (.write f)⟩

variable [FrameAllocator σ]

/-- `pmm::free_frame` -/
def free (f : Frame) (t : Recorded σ) : Recorded σ := ⟨t.vmm.free f, t.trace ++ [.free f]⟩

/-- `free_pml4e`, `free_pdpte`, `free_pde` and `free_pte`. The bit is cleared in the entry as it is
then. -/
def freeEntry (f : Frame) (i : Idx) (t : Recorded σ) : Recorded σ :=
  let t := (t.read f i).free (addr (t.vmm.mem f i))
  (t.read f i).write f i (setP 0 (t.vmm.mem f i))

/-- One of the loops of `free_user_pml4`. The entry is read for its present bit, and an inner one
again for the table behind it. -/
def freeEntries (inner : Bool) (below : Frame → Recorded σ → Recorded σ) (f : Frame) :
    List Idx → Recorded σ → Recorded σ
  | [], t => t
  | i :: is, t =>
    if !p (t.vmm.mem f i) then freeEntries inner below f is (t.read f i)
    else
      let t' := below (addr (t.vmm.mem f i)) ((t.read f i).getTable inner f i)
      freeEntries inner below f is (t'.freeEntry f i)

/-- The loops below a frame, `depth` levels of tables deep. A page is not looked into. -/
def freeBelow : Nat → Frame → Recorded σ → Recorded σ
  | 0, _, t => t
  | depth + 1, f, t => t.freeEntries (0 < depth) (freeBelow depth) f Vmm.allIdx

def freeUserPml4 (pml4 : Frame) (t : Recorded σ) : Recorded σ :=
  if pml4 = t.vmm.kernelPml4 then t
  else ((t.freeEntries true (freeBelow 3) pml4 t.vmm.userIdx).zeroPage pml4).free pml4

/-- The frames that have been passed to `free_frame`. -/
def frees (t : Recorded σ) : List Frame := t.trace.filterMap TableEvent.freed

/-! ### It is the same function -/

theorem vmm_freeEntry (f : Frame) (i : Idx) (t : Recorded σ) :
    (t.freeEntry f i).vmm = t.vmm.freeEntry f i := rfl

theorem vmm_freeEntries {inner : Bool} {below : Frame → Recorded σ → Recorded σ}
    {below' : Frame → Vmm σ → Vmm σ}
    (h : ∀ f t, (below f t).vmm = below' f t.vmm) (f : Frame) (is : List Idx) (t : Recorded σ) :
    (t.freeEntries inner below f is).vmm = t.vmm.freeEntries below' f is := by
  induction is generalizing t with
  | nil => rfl
  | cons i is ih =>
    rw [freeEntries, Vmm.freeEntries, foldl_cons]
    split
    · exact ih _
    · rw [ih, vmm_freeEntry, h, vmm_getTable]
      rfl

theorem vmm_freeBelow (depth : Nat) (f : Frame) (t : Recorded σ) :
    (t.freeBelow (depth + 1) f).vmm = Vmm.freeTables depth f t.vmm := by
  induction depth generalizing f t with
  | zero => exact vmm_freeEntries (fun _ _ => rfl) f _ t
  | succ depth ih => exact vmm_freeEntries (fun f t => ih f t) f _ t

theorem vmm_freeUserPml4 (pml4 : Frame) (t : Recorded σ) :
    (t.freeUserPml4 pml4).vmm = t.vmm.freeUserPml4 pml4 := by
  rw [freeUserPml4, Vmm.freeUserPml4]
  split
  · rfl
  · show ((t.freeEntries true (freeBelow 3) pml4 t.vmm.userIdx).vmm.zeroPage pml4).free pml4 = _
    rw [vmm_freeEntries (vmm_freeBelow 2)]

end Recorded

/-! ## A walk over the tables as they are -/

namespace Vmm

variable {m : Memory} {f g : Frame} {i : Idx} {is : List Idx}

/-- The second read of an inner entry. -/
def again (inner : Bool) (f : Frame) (i : Idx) : List TableEvent :=
  if inner then [.read f i] else []

/-- What happens for an entry. -/
def entryPlan (m : Memory) (inner : Bool) (below : Frame → List TableEvent) (f : Frame) (i : Idx) :
    List TableEvent :=
  .read f i :: if !p (m f i) then []
    else again inner f i ++
      (below (addr (m f i)) ++ [.read f i, .free (addr (m f i)), .read f i, .write f i])

def plan (m : Memory) : Nat → Frame → List TableEvent
  | 0, _ => []
  | depth + 1, f => allIdx.flatMap (entryPlan m (0 < depth) (plan m depth) f)

/-- The frames behind an entry, and the one it points to. -/
def entryFrames (m : Memory) (below : Frame → List Frame) (f : Frame) (i : Idx) : List Frame :=
  if !p (m f i) then [] else below (addr (m f i)) ++ [addr (m f i)]

def framesBelow (m : Memory) : Nat → Frame → List Frame
  | 0, _ => []
  | depth + 1, f => allIdx.flatMap (entryFrames m (framesBelow m depth) f)

variable {below' : Frame → List Frame} {depth : Nat} {inner : Bool}

theorem eq_read_of_mem_again (he : e ∈ again inner f i) : e = .read f i := by
  cases inner
  · cases he
  · exact mem_singleton.mp he

/-- The frames that are freed. -/
theorem freed_entryPlan {below : Frame → List TableEvent}
    (h : ∀ g, (below g).filterMap TableEvent.freed = below' g) (f : Frame) (i : Idx) :
    (entryPlan m inner below f i).filterMap TableEvent.freed = entryFrames m below' f i := by
  unfold entryPlan entryFrames
  split
  · rfl
  · rw [filterMap_cons_none rfl, filterMap_append, filterMap_append, h]
    cases inner <;> rfl

theorem freed_plan (depth : Nat) (f : Frame) :
    (plan m depth f).filterMap TableEvent.freed = framesBelow m depth f := by
  induction depth generalizing f with
  | zero => rfl
  | succ depth ih =>
    rw [plan, framesBelow, filterMap_flatMap]
    exact flatMap_congr fun i _ => freed_entryPlan ih f i

/-- The tables that are accessed: the one itself and those behind its entries. -/
theorem table_of_mem_entryPlan {below : Frame → List TableEvent}
    (h : ∀ x e, e ∈ below x → e.table = some g → g = x ∨ g ∈ below' x)
    (he : e ∈ entryPlan m inner below f i)
    (hg : e.table = some g) : g = f ∨ g ∈ entryFrames m below' f i := by
  unfold entryPlan at he
  unfold entryFrames
  split at he
  · rw [mem_singleton.mp he] at hg
    exact .inl (some.inj hg).symm
  · next hp =>
    rw [if_neg hp]
    simp only [mem_cons, mem_append, not_mem_nil, or_false] at he
    rcases he with rfl | hin | hin | rfl | rfl | rfl | rfl
    · exact .inl (some.inj hg).symm
    · rw [eq_read_of_mem_again hin] at hg
      exact .inl (some.inj hg).symm
    · rcases h _ e hin hg with rfl | hmem
      · exact .inr (mem_append_right _ mem_cons_self)
      · exact .inr (mem_append_left _ hmem)
    · exact .inl (some.inj hg).symm
    · cases hg
    · exact .inl (some.inj hg).symm
    · exact .inl (some.inj hg).symm

theorem table_of_mem_plan (he : e ∈ plan m depth f) (hg : e.table = some g) :
    g = f ∨ g ∈ framesBelow m depth f := by
  induction depth generalizing f e with
  | zero => cases he
  | succ depth ih =>
    obtain ⟨i, hi, he⟩ := mem_flatMap.mp he
    rcases table_of_mem_entryPlan (fun x e hin hg => ih hin hg) he hg with rfl | hmem
    · exact .inl rfl
    · exact .inr (mem_flatMap.mpr ⟨i, hi, hmem⟩)

theorem freed_of_mem_entryPlan {below : Frame → List TableEvent}
    (h : ∀ x, (below x).filterMap TableEvent.freed = below' x)
    (he : e ∈ entryPlan m inner below f i)
    (hg : e.freed = some g) : g ∈ entryFrames m below' f i := by
  rw [← freed_entryPlan h]
  exact mem_filterMap.mpr ⟨e, he, hg⟩

/-! ### Nothing is accessed once it is freed -/

/-- For one entry: what is behind it goes first, and then only the table itself is accessed. -/
theorem pairwise_entryPlan {below : Frame → List TableEvent}
    (hfreed : ∀ x, (below x).filterMap TableEvent.freed = below' x)
    (hbelow : ∀ x, (below' x ++ [x]).Nodup → (below x).Pairwise Safe)
    (hnodup : (entryFrames m below' f i ++ [f]).Nodup) :
    (entryPlan m inner below f i).Pairwise Safe := by
  unfold entryFrames at hnodup
  refine pairwise_cons.mpr ⟨fun e' _ => TableEvent.safe_of_freed rfl e', ?_⟩
  split
  · exact List.Pairwise.nil
  · next hp =>
    rw [if_neg hp] at hnodup
    obtain ⟨hblock, -, hne⟩ := nodup_append.mp hnodup
    have hlast : ∀ e' ∈ [TableEvent.read f i, .free (addr (m f i)), .read f i, .write f i],
        ∀ g, e'.table = some g → g = f := by
      intro e' he' g hg
      simp only [mem_cons, not_mem_nil, or_false] at he'
      rcases he' with rfl | rfl | rfl | rfl <;> cases hg <;> rfl
    have hagain : ∀ e ∈ again inner f i, ∀ e', Safe e e' := by
      intro e he
      rw [eq_read_of_mem_again he]
      exact TableEvent.safe_of_freed rfl
    refine pairwise_append.mpr ⟨?_, ?_, fun e he e' _ => hagain e he e'⟩
    · exact pairwise_of_forall_mem_list fun e he e' _ => hagain e he e'
    refine pairwise_append.mpr ⟨hbelow _ hblock, ?_, ?_⟩
    · refine pairwise_cons.mpr ⟨fun e' _ => TableEvent.safe_of_freed rfl e', ?_⟩
      refine pairwise_cons.mpr ⟨?_, ?_⟩
      · intro e' he' g hg htab
        cases hlast e' (mem_cons_of_mem _ (mem_cons_of_mem _ he')) g htab
        exact hne _ (mem_append_right _ mem_cons_self) _ mem_cons_self (some.inj hg)
      · refine pairwise_cons.mpr ⟨fun e' _ => TableEvent.safe_of_freed rfl e', ?_⟩
        exact pairwise_singleton _ _
    · intro e he e' he' g hg htab
      have hmem : g ∈ below' (addr (m f i)) := by
        rw [← hfreed]
        exact mem_filterMap.mpr ⟨e, he, hg⟩
      cases hlast e' he' g htab
      exact hne _ (mem_append_left _ hmem) _ mem_cons_self rfl

/-- For the entries of a table, one after the other. -/
theorem pairwise_entries
    (hbelow : ∀ x, (framesBelow m depth x ++ [x]).Nodup → (plan m depth x).Pairwise Safe)
    (hnodup : (is.flatMap (entryFrames m (framesBelow m depth) f) ++ [f]).Nodup) :
    (is.flatMap (entryPlan m inner (plan m depth) f)).Pairwise Safe := by
  obtain ⟨hframes, -, hne⟩ := nodup_append.mp hnodup
  have hf : ∀ i ∈ is, f ∉ entryFrames m (framesBelow m depth) f i := fun i hi hmem =>
    hne f (mem_flatMap.mpr ⟨i, hi, hmem⟩) f mem_cons_self rfl
  obtain ⟨hone, htwo⟩ := nodup_flatMap.mp hframes
  refine pairwise_flatMap.mpr ⟨fun i hi => ?_, htwo.imp_of_mem fun {i j} hi hj hij => ?_⟩
  · apply pairwise_entryPlan (freed_plan depth) hbelow
    exact concat_eq_append ▸ (hone i hi).concat (hf i hi)
  · intro e he e' he' g hg htab
    have hmem := freed_of_mem_entryPlan (freed_plan depth) he hg
    rcases table_of_mem_entryPlan (fun x e hin hg => table_of_mem_plan hin hg) he' htab
      with rfl | hmem'
    · exact hf i hi hmem
    · exact hij hmem hmem'

theorem pairwise_plan (depth : Nat) (f : Frame) (hnodup : (framesBelow m depth f ++ [f]).Nodup) :
    (plan m depth f).Pairwise Safe := by
  induction depth generalizing f with
  | zero => exact List.Pairwise.nil
  | succ depth ih => exact pairwise_entries ih hnodup

/-! ### The frames are those of the tree -/

theorem mem_entryFrames {below : Frame → List Frame} :
    g ∈ entryFrames m below f i ↔ ∃ x, child (m f i) = some x ∧ (g ∈ below x ∨ g = x) := by
  unfold entryFrames
  cases hp : p (m f i) with
  | false =>
    rw [child_eq_none.mpr hp]
    simp
  | true =>
    rw [child_of_p hp]
    simp

/-- The frames listed for entries of a table are those behind them. -/
theorem mem_entries (is : List Idx) (hbelow : ∀ x, g ∈ framesBelow m depth x ↔
      ∃ τ, τ ≠ [] ∧ τ.length ≤ depth ∧ table m x τ = some g) :
    g ∈ is.flatMap (entryFrames m (framesBelow m depth) f) ↔
      ∃ i ∈ is, ∃ τ, τ.length ≤ depth ∧ table m f (τ ++ [i]) = some g := by
  have htable : ∀ i τ, table m f (τ ++ [i]) = (child (m f i)).bind (fun x => table m x τ) := by
    intro i τ
    rw [table_append, table_cons_of_table (table_nil m f)]
  rw [mem_flatMap]
  refine exists_congr fun i => and_congr_right fun _ => ?_
  rw [mem_entryFrames]
  constructor
  · rintro ⟨x, hx, hg | rfl⟩
    · obtain ⟨τ, -, hlen, hτ⟩ := (hbelow x).mp hg
      exact ⟨τ, hlen, by rw [htable, hx]; exact hτ⟩
    · exact ⟨[], Nat.zero_le _, by rw [htable, hx]; rfl⟩
  · rintro ⟨τ, hlen, hτ⟩
    rw [htable] at hτ
    obtain ⟨x, hx, hτ⟩ := of_bind hτ
    refine ⟨x, hx, ?_⟩
    cases τ with
    | nil => exact .inr (some.inj hτ).symm
    | cons j τ => exact .inl ((hbelow x).mpr ⟨j :: τ, cons_ne_nil j τ, hlen, hτ⟩)

theorem mem_framesBelow :
    g ∈ framesBelow m depth f ↔ ∃ τ, τ ≠ [] ∧ τ.length ≤ depth ∧ table m f τ = some g := by
  induction depth generalizing f with
  | zero =>
    constructor
    · intro hg
      cases hg
    · rintro ⟨τ, hne, hlen, -⟩
      exact absurd (length_eq_zero_iff.mp (Nat.le_zero.mp hlen)) hne
  | succ depth ih =>
    rw [framesBelow, mem_entries allIdx (fun x => ih)]
    constructor
    · rintro ⟨i, -, τ, hlen, hτ⟩
      exact ⟨τ ++ [i], by simp, by simpa using hlen, hτ⟩
    · rintro ⟨τ, hne, hlen, hτ⟩
      obtain ⟨σ, i, rfl⟩ := (eq_nil_or_concat τ).resolve_left hne
      rw [concat_eq_append] at hτ hlen
      exact ⟨i, mem_allIdx i, σ, by simpa using hlen, hτ⟩

/-- In a tree of distinct frames each is listed once. -/
theorem nodup_entries {H : Idx → Prop} (his : is.Nodup) (hH : ∀ i ∈ is, H i)
    (hbelow : ∀ x, Separated m x (below anyHead depth) → (framesBelow m depth x ++ [x]).Nodup)
    (hsep : Separated m f (below H (depth + 1))) :
    (is.flatMap (entryFrames m (framesBelow m depth) f) ++ [f]).Nodup := by
  have hmem : ∀ {i τ}, i ∈ is → τ.length ≤ depth → τ ++ [i] ∈ below H (depth + 1) := by
    intro i τ hi hlen
    refine ⟨by simpa using hlen, fun j hj => ?_⟩
    rw [getLast?_concat] at hj
    exact some.inj hj ▸ hH i hi
  have hpath : ∀ {i g}, i ∈ is → g ∈ entryFrames m (framesBelow m depth) f i →
      ∃ τ, τ.length ≤ depth ∧ table m f (τ ++ [i]) = some g := by
    intro i g hi hg
    obtain ⟨j, hj, τ, hτ⟩ := (mem_entries [i] (fun x => mem_framesBelow)).mp
      (mem_flatMap.mpr ⟨i, mem_cons_self, hg⟩)
    cases mem_singleton.mp hj
    exact ⟨τ, hτ⟩
  refine nodup_append.mpr ⟨nodup_flatMap.mpr ⟨fun i hi => ?_, ?_⟩, nodup_singleton f, ?_⟩
  · -- behind one entry
    unfold entryFrames
    split
    · exact nodup_nil
    · next hp =>
      have hchild := child_of_p (by simpa using hp)
      apply hbelow
      intro τ hτ τ' hτ' x hx hx'
      have htable : ∀ σ, table m (addr (m f i)) σ = table m f (σ ++ [i]) := by
        intro σ
        rw [table_append, table_cons_of_table (table_nil m f), hchild]
        rfl
      rw [htable] at hx hx'
      exact append_cancel_right (hsep _ (hmem hi hτ.1) _ (hmem hi hτ'.1) x hx hx')
  · -- behind two entries: the paths end differently
    refine his.imp_of_mem fun {i j} hi hj hne g hgi hgj => ?_
    obtain ⟨τ, hlen, hτ⟩ := hpath hi hgi
    obtain ⟨τ', hlen', hτ'⟩ := hpath hj hgj
    have heq := hsep _ (hmem hi hlen) _ (hmem hj hlen') g hτ hτ'
    exact hne (singleton_inj.mp (append_inj' heq rfl).2)
  · -- the table itself is at the empty path
    rintro g hg x hx rfl
    obtain ⟨i, hi, hg⟩ := mem_flatMap.mp hg
    obtain ⟨τ, hlen, hτ⟩ := hpath hi hg
    rw [mem_singleton.mp hx] at hτ
    have heq := hsep _ (hmem hi hlen) [] (below H (depth + 1)).nil f hτ rfl
    exact append_ne_nil_of_right_ne_nil τ (cons_ne_nil i []) heq

theorem nodup_framesBelow (depth : Nat) (f : Frame) (hsep : Separated m f (below anyHead depth)) :
    (framesBelow m depth f ++ [f]).Nodup := by
  induction depth generalizing f with
  | zero => exact nodup_singleton f
  | succ depth ih => exact nodup_entries nodup_allIdx (fun _ _ => trivial) ih hsep

end Vmm

/-! ## The run is the walk -/

namespace Recorded

open Vmm

variable {σ : Type} [FrameAllocator σ] {m : Memory} {f : Frame} {i : Idx} {t t' : Recorded σ}
  {inner : Bool}

/-- From `t` to `t'` the events in `events` have happened, and frames outside `fs` are as they were.
-/
structure Records (events : List TableEvent) (fs : List Frame) (t t' : Recorded σ) : Prop where
  trace : t'.trace = t.trace ++ events
  other : ∀ x ∉ fs, t'.vmm.mem x = t.vmm.mem x

/-- One present entry, and all that is behind it. -/
theorem records_entry {below : List TableEvent} {fs : List Frame} (hp : p (m f i) = true)
    (hread : t.vmm.mem f i = m f i) (hf : f ∉ fs)
    (h : Records below fs ((t.read f i).getTable inner f i) t') :
    Records (entryPlan m inner (fun _ => below) f i) (fs ++ [f]) t (t'.freeEntry f i) ∧
      ∀ j ≠ i, (t'.freeEntry f i).vmm.mem f j = t.vmm.mem f j := by
  have hother : ∀ x ∉ fs, t'.vmm.mem x = t.vmm.mem x := by simpa [read] using h.other
  have hkept := hother f hf
  have hread' : t'.vmm.mem f i = m f i := by rw [hkept, hread]
  refine ⟨⟨?_, fun x hx => ?_⟩, fun j hj => ?_⟩
  · show (((t'.trace ++ [.read f i]) ++ [.free (addr (t'.vmm.mem f i))]) ++ [.read f i]) ++
      [.write f i] = _
    rw [h.trace, hread', entryPlan, hp]
    cases inner <;> simp [read, getTable, again]
  · rw [mem_append, mem_singleton, not_or] at hx
    show setEntry t'.vmm.mem f i _ x = t.vmm.mem x
    rw [setEntry_of_ne _ _ _ hx.2]
    exact hother x hx.1
  · show setEntry t'.vmm.mem f i _ f j = t.vmm.mem f j
    rw [← hkept]
    simp [setEntry, hj]

/-- The loop over the entries of a table. What has been taken down so far is not looked at again, so
that the entries and frames still to come are as they were in `m`. -/
theorem records_freeEntries {depth : Nat} {is : List Idx} (his : is.Nodup)
    (hbelow : ∀ (x : Frame) (t : Recorded σ), (framesBelow m depth x ++ [x]).Nodup →
      (∀ y ∈ framesBelow m depth x ++ [x], t.vmm.mem y = m y) →
      Records (plan m depth x) (framesBelow m depth x ++ [x]) t (t.freeBelow depth x))
    (hnodup : (is.flatMap (entryFrames m (framesBelow m depth) f) ++ [f]).Nodup)
    (hread : ∀ i ∈ is, t.vmm.mem f i = m f i)
    (hmem : ∀ y ∈ is.flatMap (entryFrames m (framesBelow m depth) f), t.vmm.mem y = m y) :
    Records (is.flatMap (entryPlan m inner (plan m depth) f))
      (is.flatMap (entryFrames m (framesBelow m depth) f) ++ [f]) t
      (t.freeEntries inner (freeBelow depth) f is) := by
  induction is generalizing t with
  | nil => exact ⟨(append_nil _).symm, fun _ _ => rfl⟩
  | cons i is ih =>
    obtain ⟨hi, his⟩ := nodup_cons.mp his
    rw [flatMap_cons, append_assoc] at hnodup
    obtain ⟨hhere, hrest, hapart⟩ := nodup_append.mp hnodup
    have hreadi := hread i mem_cons_self
    rw [freeEntries, hreadi]
    split
    · next hp =>
      have hnone : entryFrames m (framesBelow m depth) f i = [] := if_pos hp
      have hplan : entryPlan m inner (plan m depth) f i = [.read f i] := by
        rw [entryPlan, if_pos hp]
      obtain ⟨htrace, hother⟩ := ih (t := t.read f i) his hrest
        (fun j hj => hread j (mem_cons_of_mem i hj))
        (fun y hy => hmem y (by rw [flatMap_cons]; exact mem_append_right _ hy))
      refine ⟨?_, ?_⟩
      · rw [htrace, flatMap_cons, hplan, read, append_assoc]
      · rw [flatMap_cons, hnone]
        exact hother
    · next hp =>
      have hblock : entryFrames m (framesBelow m depth) f i =
        framesBelow m depth (addr (m f i)) ++ [addr (m f i)] := if_neg hp
      rw [hblock] at hhere hapart
      have hbelowi := hbelow (addr (m f i)) ((t.read f i).getTable inner f i) hhere fun y hy => by
        rw [vmm_getTable]
        exact hmem y (by rw [flatMap_cons, hblock]; exact mem_append_left _ hy)
      have hf : f ∉ framesBelow m depth (addr (m f i)) ++ [addr (m f i)] := fun hin =>
        hapart f hin f (mem_append_right _ mem_cons_self) rfl
      obtain ⟨hone, hentries⟩ := records_entry (by simpa using hp) hreadi hf hbelowi
      have hrest' : ∀ y ∈ is.flatMap (entryFrames m (framesBelow m depth) f),
          y ∉ framesBelow m depth (addr (m f i)) ++ [addr (m f i)] ++ [f] := by
        intro y hy hin
        rcases mem_append.mp hin with hin | hin
        · exact hapart y hin y (mem_append_left _ hy) rfl
        · rw [mem_singleton.mp hin] at hy
          exact (nodup_append.mp hrest).2.2 f hy f mem_cons_self rfl
      obtain ⟨htrace, hother⟩ := ih his hrest
        (fun j hj => (hentries j (fun heq => hi (heq ▸ hj))).trans (hread j (mem_cons_of_mem i hj)))
        (fun y hy => (hone.other y (hrest' y hy)).trans
          (hmem y (by rw [flatMap_cons]; exact mem_append_right _ hy)))
      refine ⟨?_, fun x hx => ?_⟩
      · rw [htrace, hone.trace, append_assoc]
        rfl
      · rw [flatMap_cons, hblock, append_assoc, mem_append, not_or] at hx
        rw [hother x hx.2]
        apply hone.other
        rw [mem_append, not_or]
        exact ⟨hx.1, fun hin => hx.2 (mem_append_right _ hin)⟩

theorem records_freeBelow (depth : Nat) (f : Frame) (t : Recorded σ)
    (hnodup : (framesBelow m depth f ++ [f]).Nodup)
    (hmem : ∀ y ∈ framesBelow m depth f ++ [f], t.vmm.mem y = m y) :
    Records (plan m depth f) (framesBelow m depth f ++ [f]) t (t.freeBelow depth f) := by
  induction depth generalizing f t with
  | zero => exact ⟨(append_nil _).symm, fun _ _ => rfl⟩
  | succ depth ih =>
    apply records_freeEntries nodup_allIdx ih hnodup
    · intro i _
      rw [hmem f (mem_append_right _ mem_cons_self)]
    · exact fun y hy => hmem y (mem_append_left _ hy)

/-! ## The whole teardown -/

/-- Nothing has been recorded yet. -/
def start (s : Vmm σ) : Recorded σ := ⟨s, []⟩

omit [FrameAllocator σ] in
theorem trace_start (s : Vmm σ) : (start s).trace = [] := rfl

theorem trace_free (f : Frame) (t : Recorded σ) : (t.free f).trace = t.trace ++ [.free f] := rfl

omit [FrameAllocator σ] in
theorem trace_zeroPage (f : Frame) (t : Recorded σ) :
    (t.zeroPage f).trace = t.trace ++ allIdx.map (.write f) := rfl

end Recorded

namespace Vmm

variable {σ : Type} {s : Vmm σ} {pml4 : Frame}

/-- The kernel's root and what is reached from the entries of its upper half. The entry of the
direct map, whose leaves are all of memory, is taken to be empty, as in `KernelHalf`. -/
def kernelTables (s : Vmm σ) : Set Frame :=
  frames s.mem s.kernelPml4 (below (fun i => s.kernelStart ≤ i) 4)

/-- The lower half of a user PML4 is a tree of distinct frames, which are not the kernel's; the
direct map is not counted among the kernel's tables. -/
structure UserTree (s : Vmm σ) (pml4 : Frame) : Prop where
  separated : Separated s.mem pml4 (below s.userHead 4)
  apart : ∀ f ∈ s.kernelTables, f ∉ owned s.userHead pml4 s

/-- The frames below a user PML4, in the order in which they are freed. -/
def userFrames (s : Vmm σ) (pml4 : Frame) : List Frame :=
  s.userIdx.flatMap (entryFrames s.mem (framesBelow s.mem 3) pml4)

theorem nodup_userIdx (s : Vmm σ) : s.userIdx.Nodup := nodup_allIdx.filter _

namespace UserTree

theorem nodup (h : UserTree s pml4) : (s.userFrames pml4 ++ [pml4]).Nodup :=
  nodup_entries s.nodup_userIdx (fun _ hi => mem_userIdx.mp hi) (nodup_framesBelow 3) h.separated

theorem ne_kernel (h : UserTree s pml4) : pml4 ≠ s.kernelPml4 := by
  rintro rfl
  exact h.apart _ (root_mem_frames _ _ _) (root_mem_frames _ _ _)

end UserTree

/-- An address space in a run is such a tree. -/
theorem UserSpace.userTree [FrameAllocator σ] {K : Set Frame} (h : UserSpace pml4 K s)
    (hK : s.kernelTables ⊆ K) : UserTree s pml4 :=
  ⟨h.owns.tree.separated, fun f hf => h.owns.apart f (hK hf)⟩

theorem mem_userFrames {f : Frame} :
    f ∈ s.userFrames pml4 ++ [pml4] ↔ f ∈ owned s.userHead pml4 s := by
  rw [userFrames, mem_append, mem_entries s.userIdx (fun x => mem_framesBelow), mem_singleton]
  constructor
  · rintro (⟨i, hi, τ, hlen, hτ⟩ | rfl)
    · refine ⟨τ ++ [i], ⟨length_append ▸ Nat.succ_le_succ hlen, fun j hj => ?_⟩, hτ⟩
      rw [getLast?_concat] at hj
      exact some.inj hj ▸ mem_userIdx.mp hi
    · exact root_mem_frames _ _ _
  · rintro ⟨τ, hτ, ht⟩
    rcases eq_nil_or_concat τ with rfl | ⟨π, i, rfl⟩
    · exact .inr (some.inj ht).symm
    · rw [concat_eq_append] at ht hτ
      have hlen : π.length + 1 ≤ 4 := by
        rw [← length_concat, concat_eq_append]
        exact hτ.1
      exact .inl ⟨i, mem_userIdx.mpr (hτ.2 i (by simp)), π, Nat.le_of_succ_le_succ hlen, ht⟩

end Vmm

namespace Recorded

open Vmm

variable {σ : Type} [FrameAllocator σ] {s : Vmm σ} {pml4 : Frame}

section

variable (h : UserTree s pml4)

include h

theorem records_userEntries :
    Records (s.userIdx.flatMap (entryPlan s.mem true (plan s.mem 3) pml4))
      (s.userFrames pml4 ++ [pml4]) (start s)
      ((start s).freeEntries true (freeBelow 3) pml4 s.userIdx) :=
  records_freeEntries s.nodup_userIdx (records_freeBelow 3) h.nodup (fun _ _ =>
    rfl) (fun _ _ => rfl)

/-- What `free_user_pml4` does in order: the walk, the zeroes in the root, and the root's frame. -/
theorem trace_freeUserPml4 :
    ((start s).freeUserPml4 pml4).trace = s.userIdx.flatMap
    (entryPlan s.mem true (plan s.mem 3) pml4) ++
      (allIdx.map (.write pml4) ++ [.free pml4]) := by
  have hrun : (start s).freeUserPml4 pml4 =
      ((((start s).freeEntries true (freeBelow 3) pml4 s.userIdx).zeroPage pml4).free pml4) :=
        if_neg h.ne_kernel
  rw [hrun, trace_free, trace_zeroPage, (records_userEntries h).trace, trace_start,
    nil_append, append_assoc]

theorem frees_freeUserPml4 : ((start s).freeUserPml4 pml4).frees = s.userFrames pml4 ++ [pml4] := by
  have hwalk : (s.userIdx.flatMap (entryPlan s.mem true (plan s.mem 3) pml4)).filterMap
    TableEvent.freed = s.userFrames pml4 := by
    rw [filterMap_flatMap]
    exact flatMap_congr fun i _ => freed_entryPlan (freed_plan 3) pml4 i
  have hzeroes : (allIdx.map (.write pml4)).filterMap TableEvent.freed = [] := by
    rw [filterMap_map]
    exact filterMap_eq_nil_iff.mpr fun _ _ => rfl
  rw [frees, trace_freeUserPml4 h, filterMap_append, filterMap_append, hwalk, hzeroes]
  rfl

theorem pairwise_freeUserPml4 : ((start s).freeUserPml4 pml4).trace.Pairwise Safe := by
  have hzeroes : ∀ e ∈ allIdx.map (.write pml4), ∀ e', Safe e e' := by
    intro e he e'
    obtain ⟨i, -, rfl⟩ := List.mem_map.mp he
    exact TableEvent.safe_of_freed rfl e'
  have hlast : (allIdx.map (TableEvent.write pml4) ++ [TableEvent.free pml4]).Pairwise Safe :=
    pairwise_append.mpr ⟨pairwise_iff_forall_sublist.mpr fun hsub =>
        hzeroes _ (hsub.subset mem_cons_self) _,
      pairwise_singleton _ _, fun e he e' _ => hzeroes e he e'⟩
  rw [trace_freeUserPml4 h]
  refine pairwise_append.mpr ⟨pairwise_entries (pairwise_plan 3) h.nodup, hlast, ?_⟩
  -- the root is not among the frames below it
  intro e he e' he' f hf htab
  obtain ⟨i, hi, he⟩ := mem_flatMap.mp he
  have hmem := mem_flatMap.mpr ⟨i, hi, freed_of_mem_entryPlan (freed_plan 3) he hf⟩
  rcases mem_append.mp he' with he' | he'
  · obtain ⟨j, -, rfl⟩ := List.mem_map.mp he'
    cases htab
    exact (nodup_append.mp h.nodup).2.2 _ hmem _ mem_cons_self rfl
  · rw [mem_singleton.mp he'] at htab
    cases htab

theorem mem_freeUserPml4 {f : Frame} (hf : f ∉ owned s.userHead pml4 s) :
    (s.freeUserPml4 pml4).mem f = s.mem f := by
  have hmem : (s.freeUserPml4 pml4).mem =
      ((s.freeEntries (Vmm.freeTables 2) pml4 s.userIdx).zeroPage pml4).mem := by
    rw [Vmm.freeUserPml4, if_neg h.ne_kernel]
    rfl
  have hroot : f ≠ pml4 := by
    rintro rfl
    exact hf (root_mem_frames _ _ _)
  have hwalk : ((start s).freeEntries true (freeBelow 3) pml4 s.userIdx).vmm =
      s.freeEntries (Vmm.freeTables 2) pml4 s.userIdx :=
        vmm_freeEntries (vmm_freeBelow 2) pml4 s.userIdx (start s)
  rw [hmem, ← hwalk]
  show setPage _ pml4 _ f = s.mem f
  rw [setPage_of_ne _ _ hroot]
  exact (records_userEntries h).other f (fun hin => hf (mem_userFrames.mp hin))

end

/-- `free_user_pml4` frees each page and each table of the lower half and the root, once each and
nothing else, and does not access a table that it has freed. The kernel's tables stay as they are,
and the kernel's root is not taken down. -/
theorem freeUserPml4_frees_owned (s : Vmm σ) (pml4 : Frame) :
    (start s).freeUserPml4 s.kernelPml4 = start s ∧
      (UserTree s pml4 → ((start s).freeUserPml4 pml4).vmm = s.freeUserPml4 pml4 ∧
        ((start s).freeUserPml4 pml4).frees.Nodup ∧
        (∀ f, f ∈ ((start s).freeUserPml4 pml4).frees ↔ f ∈ owned s.userHead pml4 s) ∧
        ((start s).freeUserPml4 pml4).trace.Pairwise Safe ∧
        ∀ f ∈ s.kernelTables, (s.freeUserPml4 pml4).mem f = s.mem f) := by
  refine ⟨if_pos rfl, fun h => ⟨vmm_freeUserPml4 pml4 (start s), ?_, fun f => ?_, ?_, ?_⟩⟩
  · rw [frees_freeUserPml4 h]
    exact h.nodup
  · rw [frees_freeUserPml4 h]
    exact mem_userFrames
  · exact pairwise_freeUserPml4 h
  · exact fun f hf => mem_freeUserPml4 h (h.apart f hf)

open Spaces (bootVmm)

/-- One page is mapped in a new address space. -/
theorem brkByte_frees_owned : ∃ s0 s : Vmm FramePool, bootVmm.createUserPml4 = some (1, s0) ∧
    (brkByte 0).next 1 s0 = some s ∧ (Vmm.walk s.mem 1 0x402000).isSome = true ∧
    ((start s).freeUserPml4 1).frees.Nodup ∧
    ∀ f, f ∈ ((start s).freeUserPml4 1).frees ↔ f ∈ owned s.userHead 1 s := by
  have hrun : bootVmm.createUserPml4.bind (fun (q, s0) => ((brkByte 0).next 1 s0).map (fun s =>
      (q, (Vmm.walk s.mem 1 0x402000).isSome))) = some (1, true) := by
    decide +kernel
  obtain ⟨⟨q, s0⟩, hs0, hrun⟩ := of_bind hrun
  obtain ⟨s, hs, heq⟩ := map_eq_some_iff.mp hrun
  simp only [Prod.mk.injEq] at heq
  obtain ⟨rfl, hwalk⟩ := heq
  obtain ⟨hspace0, -⟩ := UserSpace.of_created (bootVmm_created hs0)
  have hlow : (brkByte 0).Low := by unfold SpaceOp.Low brkByte; decide
  have hk := (hspace0.step hlow hs).1
  have hroot : (0 : Frame) ∈ allocated bootVmm.pmm :=
    (by decide : (0 : Frame) ∉ bootVmm.pmm.free)
  have hnew := createUserPml4_spec (s := bootVmm) hroot hs0
  have hmem : s.mem 0 = fun _ => 0 := by
    rw [hk.mem 0 hroot, hnew.mem 0 hroot]
    rfl
  have htree : UserTree s 1 := by
    apply (hspace0.of_keeps hk).userTree
    rintro f ⟨π, -, hπ⟩
    have hkernel : s.kernelPml4 = 0 := by
      rw [hk.same.kernelPml4, hnew.same.kernelPml4]
      rfl
    rw [hkernel] at hπ
    obtain ⟨-, rfl⟩ := table_of_blank (fun i _ => by rw [hmem]; exact child_zero) hπ
    exact hroot
  obtain ⟨-, hfreed⟩ := freeUserPml4_frees_owned s 1
  obtain ⟨-, hnodup, hiff, -⟩ := hfreed htree
  exact ⟨s0, s, hs0, hs, hwalk, hnodup, hiff⟩

end Recorded

end Hltos
