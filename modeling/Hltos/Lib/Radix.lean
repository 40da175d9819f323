import Mathlib

/-!
# Radix tables in memory

A radix tree kept in a flat memory: a table is a frame, each of its entries is absent or points to
another frame. A *path* lists the indices that lead from the root to a frame, the innermost first,
so that `i :: π` is entry `i` of the table at `π` and the tables passed on the way to `π` are the
suffixes of `π`.

The memory is read as a partial map from paths to entries, `find`. A write through one table could
be seen through any other; it is not if the tables are `Separated`, that is if no frame is the
table at two paths. Under that condition each of the elementary writes changes the partial map at
one path only (`Rebound`): replacing an entry that nothing hangs from (`rebound_leaf`), hanging up
a new blank table (`rebound_link`), and taking down an empty one (`rebound_unlink`).
-/

namespace Lib.Radix

open List Option

/-- Words that serve as table entries: `child` is the frame an entry points to, if it is
present. -/
class Entry (W : Type) (F : outParam Type) where
  child : W → Option F

export Entry (child)

variable {F I W : Type} [Entry W F] {q : F}

/-- An entry, if it is present. -/
def present (w : W) : Option W := if (child w).isSome then some w else none

/-- The frame at a path from `r`. -/
def table (m : F → I → W) (r : F) : List I → Option F
  | [] => some r
  | i :: π => (table m r π).bind (fun f => child (m f i))

/-- The present entry at a path from `r`. -/
def find (m : F → I → W) (r : F) : List I → Option W
  | [] => none
  | i :: π => (table m r π).bind (fun f => present (m f i))

@[simp] theorem table_nil (m : F → I → W) (r : F) : table m r [] = some r := rfl

@[simp] theorem find_nil (m : F → I → W) (r : F) : find m r [] = none := rfl

theorem present_eq_none {w : W} : present w = none ↔ child w = none := by simp [present]

theorem present_of_child {w : W} {f : F} (h : child w = some f) : present w = some w := by
  simp [present, h]

theorem eq_of_present {w w' : W} (h : present w = some w') : w' = w ∧ (child w).isSome = true := by
  simp only [present] at h
  split at h
  · next hw => exact ⟨(Option.some.inj h).symm, hw⟩
  · cases h

theorem present_bind_child (w : W) : (present w).bind child = child w := by
  unfold present
  split
  · rfl
  · next hw => exact (not_isSome_iff_eq_none.mp hw).symm

/-- The frame at a path is what the entry there points to. -/
theorem table_cons (m : F → I → W) (r : F) (i : I) (π : List I) :
    table m r (i :: π) = (find m r (i :: π)).bind child := by
  simp only [table, find, bind_assoc, present_bind_child]

theorem find_cons_of_table {m : F → I → W} {r f : F} {π : List I} (h : table m r π = some f)
    (i : I) : find m r (i :: π) = present (m f i) := by
  simp [find, h]

theorem table_cons_of_table {m : F → I → W} {r f : F} {π : List I} (h : table m r π = some f)
    (i : I) : table m r (i :: π) = child (m f i) := by
  simp [table, h]

theorem find_eq_none_of_table {m : F → I → W} {r : F} {π : List I} (h : table m r π = none)
    (i : I) : find m r (i :: π) = none := by
  simp [find, h]

theorem child_of_find {m : F → I → W} {r : F} {π : List I} {w : W} (h : find m r π = some w) :
    ∃ f, child w = some f ∧ table m r π = some f := by
  cases π with
  | nil => cases h
  | cons i π =>
    obtain ⟨f, hf, hw⟩ := bind_eq_some_iff.mp h
    obtain ⟨rfl, hc⟩ := eq_of_present hw
    obtain ⟨g, hg⟩ := isSome_iff_exists.mp hc
    exact ⟨g, hg, by rw [table_cons, h]; exact hg⟩

theorem table_append (m : F → I → W) (r : F) (σ π : List I) :
    table m r (σ ++ π) = (table m r π).bind (fun f => table m f σ) := by
  induction σ with
  | nil => simp
  | cons i σ ih =>
    show (table m r (σ ++ π)).bind _ = _
    rw [ih, bind_assoc]
    rfl

/-- Nothing is found behind an entry that is absent. -/
theorem table_eq_none_of_suffix {m : F → I → W} {r : F} {π σ : List I} (h : table m r π = none)
    (hs : π <:+ σ) : table m r σ = none := by
  obtain ⟨τ, rfl⟩ := hs
  rw [table_append, h]
  rfl

theorem find_eq_none_iff {m : F → I → W} {r : F} {i : I} {π : List I} :
    find m r (i :: π) = none ↔ table m r (i :: π) = none := by
  cases h : find m r (i :: π) with
  | none => simp [table_cons, h]
  | some w =>
    obtain ⟨f, -, hf⟩ := child_of_find h
    simp [hf]

/-- Behind an absent entry of the root there is nothing. -/
theorem table_of_blank {m : F → I → W} {r f : F} {π : List I}
    (hblank : ∀ i ∈ π.getLast?, child (m r i) = none) (h : table m r π = some f) :
    π = [] ∧ f = r := by
  rcases eq_nil_or_concat π with rfl | ⟨σ, i, rfl⟩
  · exact ⟨rfl, (Option.some.inj h).symm⟩
  · have hnone : table m r [i] = none := hblank i (by simp)
    rw [concat_eq_append, table_append, hnone] at h
    cases h

/-! ## Regions -/

/-- A set of paths closed under going back towards the root. -/
structure Region (I : Type) where
  mem : List I → Prop
  nil_mem : mem []
  tail_mem : ∀ {i : I} {π : List I}, mem (i :: π) → mem π

instance : Membership (List I) (Region I) := ⟨fun T π => T.mem π⟩

namespace Region

variable (T : Region I) {π : List I}

theorem nil : [] ∈ T := T.nil_mem

theorem tail {i : I} (h : i :: π ∈ T) : π ∈ T := T.tail_mem h

theorem of_suffix {σ : List I} (hπ : π ∈ T) (h : σ <:+ π) : σ ∈ T := by
  obtain ⟨τ, rfl⟩ := h
  induction τ with
  | nil => exact hπ
  | cons i τ ih => exact ih (T.tail hπ)

end Region

section

omit [Entry W F]

variable {i j : I} {π σ : List I}

theorem suffix_of_cons (h : j :: σ <:+ i :: π) : σ <:+ π := by
  rcases suffix_cons_iff.mp h with heq | h
  · cases heq; exact suffix_rfl
  · exact (suffix_cons j σ).trans h

/-- No path goes through two entries of a table. -/
theorem eq_of_cons_suffix (h : i :: π <:+ σ) (h' : j :: π <:+ σ) : i = j := by
  have heq := suffix_of_suffix_length_le h h' (by simp)
  cases heq.eq_of_length (by simp)
  rfl

theorem exists_cons_suffix (h : π <:+ σ) (hne : σ ≠ π) : ∃ i, i :: π <:+ σ := by
  obtain ⟨ρ, rfl⟩ := h
  rcases eq_nil_or_concat ρ with rfl | ⟨ρ, i, rfl⟩
  · exact absurd rfl hne
  · exact ⟨i, ρ, by simp⟩

end

/-- No frame is the table at two paths of the region. -/
def Separated (m : F → I → W) (r : F) (T : Region I) : Prop :=
  ∀ π ∈ T, ∀ π' ∈ T, ∀ f, table m r π = some f → table m r π' = some f → π = π'

/-- The frames of a region. -/
def frames (m : F → I → W) (r : F) (T : Region I) : Set F := { f | ∃ π ∈ T, table m r π = some f }

theorem mem_frames {m : F → I → W} {r f : F} {T : Region I} {π : List I} (hπ : π ∈ T)
    (h : table m r π = some f) : f ∈ frames m r T :=
  ⟨π, hπ, h⟩

theorem root_mem_frames (m : F → I → W) (r : F) (T : Region I) : r ∈ frames m r T :=
  mem_frames T.nil rfl

/-- What is found depends on the tables passed on the way only. -/
theorem find_congr {m m' : F → I → W} {r : F} {π : List I}
    (h : ∀ i σ f, i :: σ <:+ π → table m r σ = some f → m' f i = m f i) :
    find m' r π = find m r π := by
  induction π with
  | nil => rfl
  | cons i π ih =>
    have hfind := ih (fun j σ f hs => h j σ f (hs.trans (suffix_cons i π)))
    have hπ : table m' r π = table m r π := by
      cases π with
      | nil => rfl
      | cons j π => rw [table_cons, table_cons, hfind]
    show (table m' r π).bind _ = (table m r π).bind _
    rw [hπ]
    cases hf : table m r π with
    | none => rfl
    | some f => exact congrArg present (h i π f suffix_rfl hf)

/-- Behind equal entries two roots show the same. -/
theorem table_of_same_entry {m : F → I → W} {r : F} {π : List I}
    (h : ∀ i ∈ π.getLast?, m q i = m r i) (hne : π ≠ []) : table m q π = table m r π := by
  induction π with
  | nil => exact absurd rfl hne
  | cons i π ih =>
    cases π with
    | nil => exact congrArg child (h i rfl)
    | cons j π =>
      show (table m q (j :: π)).bind _ = (table m r (j :: π)).bind _
      rw [ih (fun k hk => h k (by simpa using hk)) (by simp)]

theorem find_of_same_entry {m : F → I → W} {r : F} {π : List I}
    (h : ∀ i ∈ π.getLast?, m q i = m r i) : find m q π = find m r π := by
  cases π with
  | nil => rfl
  | cons i π =>
    cases π with
    | nil => exact congrArg present (h i rfl)
    | cons j π =>
      show (table m q (j :: π)).bind _ = (table m r (j :: π)).bind _
      rw [table_of_same_entry (fun k hk => h k (by simpa using hk)) (by simp)]

/-- A memory that agrees on the tables of a region shows the same entries there. -/
theorem find_of_agree {m m' : F → I → W} {r : F} {T : Region I}
    (h : ∀ f ∈ frames m r T, m' f = m f) {i : I} {π : List I} (hπ : π ∈ T) :
    find m' r (i :: π) = find m r (i :: π) := by
  apply find_congr
  intro j σ f hs hf
  rw [h f (mem_frames (T.of_suffix hπ (suffix_of_cons hs)) hf)]

theorem table_of_agree {m m' : F → I → W} {r : F} {T : Region I}
    (h : ∀ f ∈ frames m r T, m' f = m f) {π : List I} (hπ : π ∈ T) :
    table m' r π = table m r π := by
  cases π with
  | nil => rfl
  | cons i π => rw [table_cons, table_cons, find_of_agree h (T.tail hπ)]

theorem frames_of_agree {m m' : F → I → W} {r : F} {T : Region I}
    (h : ∀ f ∈ frames m r T, m' f = m f) : frames m' r T = frames m r T := by
  ext f
  constructor
  · rintro ⟨π, hπ, hf⟩
    exact ⟨π, hπ, by rw [← table_of_agree h hπ]; exact hf⟩
  · rintro ⟨π, hπ, hf⟩
    exact ⟨π, hπ, by rw [table_of_agree h hπ]; exact hf⟩

theorem Separated.of_agree {m m' : F → I → W} {r : F} {T : Region I} (hsep : Separated m r T)
    (h : ∀ f ∈ frames m r T, m' f = m f) : Separated m' r T := by
  intro π hπ π' hπ' f hf hf'
  rw [table_of_agree h hπ] at hf
  rw [table_of_agree h hπ'] at hf'
  exact hsep π hπ π' hπ' f hf hf'

/-! ## Writing -/

section Write

variable [DecidableEq F] [DecidableEq I]

def setEntry (m : F → I → W) (f : F) (i : I) (w : W) : F → I → W :=
  fun g j => if g = f ∧ j = i then w else m g j

def setPage (m : F → I → W) (f : F) (page : I → W) : F → I → W :=
  fun g => if g = f then page else m g

section

omit [Entry W F]

section

variable (m : F → I → W)

@[simp] theorem setEntry_self (f : F) (i : I) (w : W) : setEntry m f i w f i = w := by
  simp [setEntry]

theorem setEntry_of_ne {f g : F} (i : I) (w : W) (h : g ≠ f) : setEntry m f i w g = m g := by
  funext j; simp [setEntry, h]

theorem setEntry_setEntry (f : F) (i : I) (w w' : W) :
    setEntry (setEntry m f i w) f i w' = setEntry m f i w' := by
  funext g j
  by_cases h : g = f ∧ j = i <;> simp [setEntry, h]

end

end

omit [Entry W F] [DecidableEq I] in
@[simp] theorem setPage_self (m : F → I → W) (f : F) (page : I → W) :
    setPage m f page f = page := by
  simp [setPage]

omit [Entry W F] [DecidableEq I] in
theorem setPage_of_ne (m : F → I → W) {f g : F} (page : I → W) (h : g ≠ f) :
    setPage m f page g = m g := by
  simp [setPage, h]

/-- The partial map has changed at `π` only, where it now holds `o`. -/
structure Rebound (T : Region I) (m m' : F → I → W) (r : F) (π : List I) (o : Option W) :
    Prop where
  here : find m' r π = o
  other : ∀ i σ, σ ∈ T → i :: σ ≠ π → find m' r (i :: σ) = find m r (i :: σ)

variable {m : F → I → W} {r f g : F} {T : Region I} {i : I} {π : List I} {w : W} {σ : List I}

/-- A write to one table is not seen on paths that do not pass through the written entry. -/
theorem find_setEntry_of_not_suffix (hsep : Separated m r T) (hπ : π ∈ T)
    (hf : table m r π = some f) {j : I} (hσ : σ ∈ T) (hne : ¬ i :: π <:+ j :: σ) :
    find (setEntry m f i w) r (j :: σ) = find m r (j :: σ) := by
  apply find_congr
  intro k τ h hs hh
  by_cases hw : h = f ∧ k = i
  · obtain ⟨rfl, rfl⟩ := hw
    have : τ = π := hsep τ (T.of_suffix hσ (suffix_of_cons hs)) π hπ h hh hf
    exact absurd (this ▸ hs) hne
  · simp [setEntry, hw]

theorem table_setEntry_of_not_suffix (hsep : Separated m r T) (hπ : π ∈ T)
    (hf : table m r π = some f) (hσ : σ ∈ T) (hne : ¬ i :: π <:+ σ) :
    table (setEntry m f i w) r σ = table m r σ := by
  cases σ with
  | nil => rfl
  | cons j σ => rw [table_cons, table_cons, find_setEntry_of_not_suffix hsep hπ hf (T.tail hσ) hne]

omit [Entry W F] [DecidableEq F] [DecidableEq I] in
theorem not_cons_suffix_self (i : I) (π : List I) : ¬ i :: π <:+ π := by
  intro h
  have := h.length_le
  simp only [length_cons] at this
  omega

section

variable (hsep : Separated m r T) (hπ : π ∈ T) (hf : table m r π = some f)

include hsep hπ hf

/-- The written table is still where it was. -/
theorem table_setEntry_self : table (setEntry m f i w) r π = some f := by
  rw [table_setEntry_of_not_suffix hsep hπ hf hπ (not_cons_suffix_self i π), hf]

/-- **Replacing an entry that no table of the region hangs from.** -/
theorem rebound_leaf (hleaf : i :: π ∉ T) (w : W) :
    Rebound T m (setEntry m f i w) r (i :: π) (present w) := by
  constructor
  · rw [find_cons_of_table (table_setEntry_self hsep hπ hf), setEntry_self]
  · intro j σ hσ hne
    apply find_setEntry_of_not_suffix hsep hπ hf hσ
    intro hs
    rcases suffix_cons_iff.mp hs with heq | hs
    · exact hne heq.symm
    · exact hleaf (T.of_suffix hσ hs)

/-- **Taking down an entry behind which nothing is found.** -/
theorem rebound_unlink (hw : child w = none) (hempty : ∀ j, find m r (j :: i :: π) = none) :
    Rebound T m (setEntry m f i w) r (i :: π) none := by
  have hhere : find (setEntry m f i w) r (i :: π) = none := by
    rw [find_cons_of_table (table_setEntry_self hsep hπ hf), setEntry_self, present_eq_none.mpr hw]
  refine ⟨hhere, fun j σ hσ hne => ?_⟩
  by_cases hs : i :: π <:+ j :: σ
  · -- behind the entry there was nothing before and is nothing now
    have hs' : i :: π <:+ σ := (suffix_cons_iff.mp hs).resolve_left (fun h => hne h.symm)
    have hnew : table (setEntry m f i w) r (i :: π) = none := by rw [table_cons, hhere]; rfl
    rw [find_eq_none_of_table (table_eq_none_of_suffix hnew hs')]
    rcases hs' with ⟨τ, rfl⟩
    rcases eq_nil_or_concat τ with rfl | ⟨τ', k, rfl⟩
    · exact (hempty j).symm
    · have hold : table m r (k :: i :: π) = none := by rw [table_cons, hempty k]; rfl
      rw [find_eq_none_of_table]
      exact table_eq_none_of_suffix hold ⟨τ', by simp⟩
  · exact find_setEntry_of_not_suffix hsep hπ hf hσ hs

/-- **Hanging up a blank table** in an absent entry. The frame must be new to the region. -/
theorem rebound_link {page : I → W} (hnone : find m r (i :: π) = none) (hw : child w = some g)
    (hg : g ∉ frames m r T) (hblank : ∀ j, child (page j) = none) :
    Rebound T m (setPage (setEntry m f i w) g page) r (i :: π) (some w) := by
  have hframes : ∀ σ ∈ T, ∀ h, table m r σ = some h → h ≠ g :=
    fun σ hσ h hh heq => hg (heq ▸ mem_frames hσ hh)
  have hpage : ∀ h ≠ g, setPage (setEntry m f i w) g page h = setEntry m f i w h :=
    fun h hh => setPage_of_ne _ _ hh
  -- away from the new entry neither write is seen
  have haway : ∀ {j σ}, σ ∈ T → ¬ i :: π <:+ j :: σ →
      find (setPage (setEntry m f i w) g page) r (j :: σ) = find m r (j :: σ) := by
    intro j σ hσ hs
    rw [← find_setEntry_of_not_suffix (w := w) hsep hπ hf hσ hs]
    apply find_congr
    intro k τ h hτ hh
    rw [table_setEntry_of_not_suffix hsep hπ hf (T.of_suffix hσ (suffix_of_cons hτ))] at hh
    · rw [hpage h (hframes τ (T.of_suffix hσ (suffix_of_cons hτ)) h hh)]
    · exact fun h' => hs (h'.trans ((suffix_cons k τ).trans hτ))
  have htable : table (setPage (setEntry m f i w) g page) r π = some f := by
    cases π with
    | nil => exact hf
    | cons j σ => rw [table_cons, haway (T.tail hπ) (not_cons_suffix_self i _), ← table_cons, hf]
  have hhere : find (setPage (setEntry m f i w) g page) r (i :: π) = some w := by
    rw [find_cons_of_table htable, hpage f (hframes π hπ f hf), setEntry_self, present_of_child hw]
  refine ⟨hhere, fun j σ hσ hne => ?_⟩
  by_cases hs : i :: π <:+ j :: σ
  · have hs' : i :: π <:+ σ := (suffix_cons_iff.mp hs).resolve_left (fun h => hne h.symm)
    have hold : table m r (i :: π) = none := by rw [table_cons, hnone]; rfl
    rw [find_eq_none_of_table (table_eq_none_of_suffix hold hs')]
    have hnew : table (setPage (setEntry m f i w) g page) r (i :: π) = some g := by
      rw [table_cons, hhere]; exact hw
    rcases hs' with ⟨τ, rfl⟩
    rcases eq_nil_or_concat τ with rfl | ⟨τ', k, rfl⟩
    · show find _ r (j :: i :: π) = none
      rw [find_cons_of_table hnew, setPage_self, present_eq_none.mpr (hblank j)]
    · rw [find_eq_none_of_table]
      have hdeep : table (setPage (setEntry m f i w) g page) r (k :: i :: π) = none := by
        rw [table_cons_of_table hnew, setPage_self, hblank k]
      exact table_eq_none_of_suffix hdeep ⟨τ', by simp⟩
  · exact haway hσ hs

end

end Write

/-! ## What a rebinding does to the frames -/

namespace Rebound

variable {T P : Region I} {m m' : F → I → W} {r : F} {π : List I} {o : Option W}
  (h : Rebound T m m' r π o)

include h

theorem table_here (hπ : π ≠ []) : table m' r π = o.bind child := by
  cases π with
  | nil => exact absurd rfl hπ
  | cons i π => rw [table_cons, h.here]

section

variable (hTP : ∀ i σ, i :: σ ∈ P → σ ∈ T)

include hTP

theorem table_other {σ : List I} (hσ : σ ∈ P) (hne : σ ≠ π) : table m' r σ = table m r σ := by
  cases σ with
  | nil => rfl
  | cons i σ => rw [table_cons, table_cons, h.other i σ (hTP i σ hσ) hne]

/-- A rebinding keeps the frames of a region separated if the frame it brings in, if any, is at no
other path. -/
theorem separated (hπ : π ≠ []) (hsep : Separated m r P)
    (hnew : ∀ f, o.bind child = some f → ∀ σ ∈ P, σ ≠ π → table m r σ ≠ some f) :
    Separated m' r P := by
  intro σ hσ σ' hσ' f hf hf'
  by_cases h1 : σ = π <;> by_cases h2 : σ' = π
  · rw [h1, h2]
  · rw [h1, h.table_here hπ] at hf
    rw [h.table_other hTP hσ' h2] at hf'
    exact absurd hf' (hnew f hf σ' hσ' h2)
  · rw [h2, h.table_here hπ] at hf'
    rw [h.table_other hTP hσ h1] at hf
    exact absurd hf (hnew f hf' σ hσ h1)
  · rw [h.table_other hTP hσ h1] at hf
    rw [h.table_other hTP hσ' h2] at hf'
    exact hsep σ hσ σ' hσ' f hf hf'

theorem mem_frames_iff (hπ : π ≠ []) {f : F} : f ∈ frames m' r P ↔
      (∃ σ ∈ P, σ ≠ π ∧ table m r σ = some f) ∨ (π ∈ P ∧ o.bind child = some f) := by
  constructor
  · rintro ⟨σ, hσ, hf⟩
    by_cases hσπ : σ = π
    · subst hσπ
      exact Or.inr ⟨hσ, by rw [← h.table_here hπ]; exact hf⟩
    · exact Or.inl ⟨σ, hσ, hσπ, by rw [← h.table_other hTP hσ hσπ]; exact hf⟩
  · rintro (⟨σ, hσ, hne, hf⟩ | ⟨hmem, hf⟩)
    · exact ⟨σ, hσ, by rw [h.table_other hTP hσ hne]; exact hf⟩
    · exact ⟨π, hmem, by rw [h.table_here hπ]; exact hf⟩

end

end Rebound

end Lib.Radix
