import Hltos.Fs.Initramfs

/-!
# The members of an archive

What the tree of an initramfs shows is a function of the list of members, in the order of the image:
at each path the first member that is there or below counts (`membersView`). Everything else about
the tree follows, and so does whether `parse_tar_headers` comes to its end.
-/

namespace Hltos

open Lib.ByteMemory (Mem)
open Tar Option

/-- A member as it is inserted. -/
structure Member where
  components : List KString
  kind : InitramfsKind
deriving DecidableEq

namespace Initramfs

variable {m : Mem} {s t : Initramfs} {es : List Member} {e : Member} {q : List KString}
  {header : Word}

/-- What the first member at or below a path makes of it. -/
def membersView (es : List Member) (q : List KString) : Option InitramfsKind :=
  if q = [] then some .directory
  else (es.find? (fun e => q <+: e.components)).map
    (fun e => if q = e.components then e.kind else .directory)

theorem membersView_concat : membersView (es ++ [e]) q = (membersView es q).or
      (if q <+: e.components then some (if q = e.components then e.kind else .directory)
        else none) := by
  unfold membersView
  by_cases hq : q = []
  · simp [hq]
  · simp only [if_neg hq, List.find?_append, Option.map_or, List.find?_singleton]
    congr 1
    split <;> simp_all

theorem membersView_eq_none_iff (hq : q ≠ []) :
    membersView es q = none ↔ ∀ e ∈ es, ¬ q <+: e.components := by
  simp [membersView, hq]

/-- No member lies at a path that an earlier one has made already. -/
def NewNames (es : List Member) : Prop := es.Pairwise (fun e f => ¬ f.components <+: e.components)

theorem newNames_concat (hne : e.components ≠ []) :
    NewNames (es ++ [e]) ↔ NewNames es ∧ membersView es e.components = none := by
  rw [membersView_eq_none_iff hne, NewNames, NewNames, List.pairwise_append]
  simp

/-- The tree is that of the members. -/
structure Exposes (s : Initramfs) (es : List Member) : Prop where
  inv : s.Inv
  view : ∀ q, s.view q = membersView es q
  namesOnce : s.NamesOnce ↔ NewNames es
  reached : NewNames es → s.ReachedBut []

/-- The path of a member leads through directories only. -/
def PathOpen (es : List Member) (path : List KString) : Prop :=
  ∀ q, q <+: path → q ≠ path → ∀ tarData size, membersView es q ≠ some (.file tarData size)

theorem pathOpen_nil (path : List KString) : PathOpen [] path := by
  intro q _ _ tarData size
  simp [membersView]

@[simp] theorem children_empty (x : InodeRef) : empty.children x = [] := children_alloc

theorem lookup_empty (x : InodeRef) (token : KString) : empty.lookup x token = none := by
  rw [lookup, children_empty, List.find?_nil]

theorem exposes_empty : Exposes empty [] where
  inv := {
    directory := rfl
    closed x c hc := by simp at hc
    unambiguous p q y hp hq := by
      cases p <;> cases q <;> simp_all [Lib.Walk.walk_cons, lookup_empty] }
  view q := by
    cases q with
    | nil => rfl
    | cons token q => simp [view, find, Lib.Walk.walk_cons, lookup_empty, membersView]
  namesOnce := by simp [NamesOnce, NewNames, readdir]
  reached _ x hx _ := by
    have hx : x = root := Nat.lt_one_iff.mp hx
    exact ⟨[], by rw [hx, find_nil]⟩

/-! ### A header -/

/-- The member that a header stands for. -/
def member (m : Mem) (header : Word) : Option Member := do
  let filename ← memberName m header
  let path ← cString m filename
  return ⟨Algo.split path slash, memberKind m header⟩

/-- A header that is passed over, or has a name of at least one component that leads through
directories only. -/
def HeaderOk (m : Mem) (es : List Member) (header : Word) : Prop :=
  ∀ filename, memberName m header = some filename →
    ∃ path, cString m filename = some path ∧ Algo.split path slash ≠ [] ∧
      PathOpen es (Algo.split path slash)

theorem length_split_lt {a : Word} {path : KString} (h : cString m a = some path) :
    (Algo.split path slash).length < 2 ^ 64 :=
  (Algo.length_split_le path slash).trans_lt (cStringFrom_eq_some h).1

/-- A member is inserted. -/
theorem Exposes.inserted (h : Exposes s es) (hne : e.components ≠ [])
    (hins : Inserted (s.alloc e.kind none []).2 t s.inodes.length e.components e.kind) :
    Exposes t (es ++ [e]) where
  inv := hins.inv
  view q := by rw [hins.view, h.inv.view_alloc, h.view, membersView_concat]
  namesOnce := by
    rw [hins.namesOnce, h.inv.view_alloc, h.view, newNames_concat hne, ← h.namesOnce]
    simp only [NamesOnce, h.inv.readdir_alloc]
  reached hnew := by
    obtain ⟨hold, habs⟩ := (newNames_concat hne).mp hnew
    apply hins.reached (h.inv.reached_alloc (h.reached hold))
    rw [h.inv.view_alloc, h.view, habs]

/-- **One header.** -/
theorem Exposes.parseHeader (h : Exposes s es) (m : Mem) (header : Word) :
    (¬ HeaderOk m es header ∧ s.parseHeader m header = none) ∨ (HeaderOk m es header ∧
      ∃ t, s.parseHeader m header = some t ∧ Exposes t (es ++ (member m header).toList)) := by
  unfold Initramfs.parseHeader HeaderOk member
  cases hname : memberName m header with
  | none => exact .inr ⟨by simp, s, rfl, by simpa using h⟩
  | some filename =>
    cases hpath : cString m filename with
    | none => exact .inl ⟨by simp [hpath], by simp [hpath]⟩
    | some path =>
      simp only [some.injEq, forall_eq', hpath, exists_eq_left', bind_eq_bind,
        bind_some, Option.pure_def, Option.toList_some]
      by_cases hne : Algo.split path slash = []
      · exact .inl ⟨fun hok => hok.1 hne, insertInode_of_split_eq_nil hne⟩
      · have hins := h.inv.alloc.insertInode (s := (s.alloc (memberKind m header) none []).2)
          h.inv.loose_alloc kind_alloc_self hne (length_split_lt hpath)
        simp only [PathClear, h.inv.view_alloc, h.view] at hins
        rcases hins with ⟨hclosed, hnone⟩ | ⟨hopen, t, hsome, hins⟩
        · exact .inl ⟨fun hok => hclosed hok.2, hnone⟩
        · exact .inr ⟨⟨hne, hopen⟩, t, hsome, h.inserted hne hins⟩

/-! ### The headers of an image -/

/-- The loop comes to this address, behind these headers. -/
inductive Visited (m : Mem) (tarBuffer tarSize : Word) : List Word → Word → Prop
  | start : Visited m tarBuffer tarSize [] tarBuffer
  | next {headers addr} : Visited m tarBuffer tarSize headers addr → addr < tarBuffer + tarSize →
      Visited m tarBuffer tarSize (headers ++ [addr]) (nextHeader m addr)

/-- What the loop does at a header: it steps forward, the header lies in the image, and the loop of
`insert_inode` makes no more turns than the name has components. -/
structure StepInside (m : Mem) (tarBuffer tarSize header : Word) : Prop where
  forward : header.toNat + 512 ≤ (nextHeader m header).toNat
  above : tarBuffer.toNat ≤ header.toNat
  below : header.toNat + 512 ≤ tarBuffer.toNat + tarSize.toNat
  turns : ∀ filename path, memberName m header = some filename → cString m filename = some path →
    insertTurns (Algo.split path slash) ≤ (Algo.split path slash).length

/-- The parser comes to its end, inside the image. -/
def Finishes (m : Mem) (tarBuffer tarSize : Word) : Prop :=
  (∃ s, Mounts m tarBuffer tarSize s) ∧
  ∀ headers addr, Visited m tarBuffer tarSize headers addr → addr < tarBuffer + tarSize →
    StepInside m tarBuffer tarSize addr

/-- The size of a member does not lead beyond the address space. -/
def SizeFits (m : Mem) (header : Word) : Prop :=
  header.toNat + 512 + 512 * (numBlocks m header).toNat < 2 ^ 64

/-- Every header that the loop comes to has a size that fits and a name that can be inserted. -/
def ImageOk (m : Mem) (tarBuffer tarSize : Word) : Prop :=
  ∀ headers addr, Visited m tarBuffer tarSize headers addr → addr < tarBuffer + tarSize →
    SizeFits m addr ∧ HeaderOk m (headers.filterMap (member m)) addr

variable {tarBuffer tarSize addr : Word} {headers : List Word}

theorem toNat_nextHeader (h : SizeFits m header) :
    (nextHeader m header).toNat = header.toNat + 512 + 512 * (numBlocks m header).toNat := by
  unfold SizeFits at h
  unfold nextHeader
  bv_omega

/-- A step that wraps around does not lead forward. -/
theorem sizeFits_iff : SizeFits m header ↔ header.toNat + 512 ≤ (nextHeader m header).toNat := by
  constructor
  · intro h
    rw [toNat_nextHeader h]
    omega
  · have hblocks : (numBlocks m header).toNat ≤ (2 ^ 64 - 1) / 512 := by
      exact Nat.div_le_div_right (by omega)
    intro h
    unfold SizeFits
    unfold nextHeader at h
    bv_omega

theorem insertTurns_le {tokens : List KString} (h : tokens.length < 2 ^ 64) :
    insertTurns tokens ≤ tokens.length ↔ tokens ≠ [] := by
  obtain rfl | ⟨tokens, last, rfl⟩ := tokens.eq_nil_or_concat
  · have : insertTurns [] = 18446744073709551615 := by decide
    simp [this]
  · rw [List.concat_eq_append] at *
    rw [insertTurns_concat (by simpa using h)]
    simp

/-- As long as the sizes fit, the addresses go up in steps of whole blocks. -/
theorem Visited.aligned (hok : ∀ headers addr, Visited m tarBuffer tarSize headers addr →
      addr < tarBuffer + tarSize → SizeFits m addr)
    (h : Visited m tarBuffer tarSize headers addr) :
    tarBuffer.toNat ≤ addr.toNat ∧ (addr.toNat - tarBuffer.toNat) % 512 = 0 := by
  induction h with
  | start => simp
  | next hv hlt ih =>
    rw [toNat_nextHeader (hok _ _ hv hlt)]
    omega

theorem Visited.inside (hsize : tarSize.toNat % 512 = 0)
    (hok : ∀ headers addr, Visited m tarBuffer tarSize headers addr →
      addr < tarBuffer + tarSize → SizeFits m addr)
    (h : Visited m tarBuffer tarSize headers addr) (hlt : addr < tarBuffer + tarSize) :
    addr.toNat + 512 ≤ tarBuffer.toNat + tarSize.toNat := by
  obtain ⟨hle, hmod⟩ := h.aligned hok
  have hlt' : addr.toNat < (tarBuffer.toNat + tarSize.toNat) % 2 ^ 64 := by exact hlt
  have : (tarBuffer.toNat + tarSize.toNat) % 2 ^ 64 ≤ tarBuffer.toNat + tarSize.toNat :=
    Nat.mod_le _ _
  omega

/-- What is left of a run of the loop, at every header that it comes to. -/
theorem Visited.remaining (h : Visited m tarBuffer tarSize headers addr)
    (hmount : Mounts m tarBuffer tarSize s) : ∃ fuel t, Exposes t (headers.filterMap (member m)) ∧
      parseFrom m (tarBuffer + tarSize) fuel addr t = some s := by
  induction h with
  | start =>
    obtain ⟨fuel, hfuel⟩ := hmount
    exact ⟨fuel, empty, exposes_empty, hfuel⟩
  | @next headers addr _ hlt ih =>
    obtain ⟨fuel, t, ht, hrun⟩ := ih
    cases fuel with
    | zero => simp [parseFrom, hlt] at hrun
    | succ fuel =>
      rw [parseFrom, if_pos hlt] at hrun
      obtain ⟨t', ht', hrun⟩ := of_bind hrun
      refine ⟨fuel, t', ?_, hrun⟩
      rcases ht.parseHeader m addr with ⟨-, hnone⟩ | ⟨-, u, hsome, hu⟩
      · rw [hnone] at ht'
        cases ht'
      · rw [hsome] at ht'
        cases ht'
        cases hmem : member m addr <;> simpa [hmem] using hu

/-- The loop gets past every header that it comes to. -/
theorem Visited.headerOk (h : Visited m tarBuffer tarSize headers addr)
    (hlt : addr < tarBuffer + tarSize) (hmount : Mounts m tarBuffer tarSize s) :
    HeaderOk m (headers.filterMap (member m)) addr := by
  obtain ⟨fuel, t, ht, hrun⟩ := h.remaining hmount
  rcases ht.parseHeader m addr with ⟨-, hnone⟩ | ⟨hok, -⟩
  · cases fuel with
    | zero => simp [parseFrom, hlt] at hrun
    | succ fuel => simp [parseFrom, hlt, hnone] at hrun
  · exact hok

/-- The loop comes to its end, as the addresses go up. -/
theorem ImageOk.parseFrom (hok : ImageOk m tarBuffer tarSize)
    (h : Visited m tarBuffer tarSize headers addr) (ht : Exposes t (headers.filterMap (member m))) :
    ∃ fuel s, parseFrom m (tarBuffer + tarSize) fuel addr t = some s := by
  -- by what is left of the image
  induction hleft : (tarBuffer + tarSize).toNat - addr.toNat using Nat.strongRecOn
    generalizing headers addr t with
  | _ left ih =>
    by_cases hlt : addr < tarBuffer + tarSize
    · obtain ⟨hsize, hheader⟩ := hok headers addr h hlt
      rcases ht.parseHeader m addr with ⟨hbad, -⟩ | ⟨-, u, hsome, hu⟩
      · exact absurd hheader hbad
      · have hu' : Exposes u ((headers ++ [addr]).filterMap (member m)) := by
          rw [List.filterMap_append]
          cases hmem : member m addr <;> simpa [hmem] using hu
        have hdown : (tarBuffer + tarSize).toNat - (nextHeader m addr).toNat < left := by
          have hlt' : addr.toNat < (tarBuffer + tarSize).toNat := hlt
          rw [toNat_nextHeader hsize]
          omega
        obtain ⟨fuel, s, hs⟩ := ih _ hdown (h.next hlt) hu' rfl
        refine ⟨fuel + 1, s, ?_⟩
        rw [Initramfs.parseFrom, if_pos hlt, hsome]
        exact hs
    · exact ⟨0, t, by rw [Initramfs.parseFrom, if_neg hlt]⟩

/-- **The parser finishes inside the image exactly if** no size leads beyond the address space and
every name that is not passed over has a component and does not lead through a file. -/
theorem finishes_iff_imageOk (m : Mem) (tarBuffer tarSize : Word)
    (hsize : tarSize.toNat % 512 = 0) :
    Finishes m tarBuffer tarSize ↔ ImageOk m tarBuffer tarSize := by
  constructor
  · rintro ⟨⟨s, hmount⟩, hsteps⟩ headers addr hv hlt
    exact ⟨sizeFits_iff.mpr (hsteps headers addr hv hlt).forward, hv.headerOk hlt hmount⟩
  · intro hok
    have hfit : ∀ headers addr, Visited m tarBuffer tarSize headers addr →
        addr < tarBuffer + tarSize → SizeFits m addr := fun headers addr hv hlt =>
      (hok headers addr hv hlt).1
    refine ⟨?_, fun headers addr hv hlt => ?_⟩
    · obtain ⟨fuel, s, hs⟩ := hok.parseFrom .start exposes_empty
      exact ⟨s, fuel, hs⟩
    · obtain ⟨hfits, hheader⟩ := hok headers addr hv hlt
      exact {
        forward := sizeFits_iff.mp hfits
        above := (hv.aligned hfit).1
        below := hv.inside hsize hfit hlt
        turns := by
          intro filename path hname hpath
          obtain ⟨path', hpath', hne, -⟩ := hheader filename hname
          rw [hpath] at hpath'
          cases hpath'
          exact (insertTurns_le (length_split_lt hpath)).mpr hne }

/-- Memory with these bytes from `base` on, and zero elsewhere. -/
def sparse (base : Word) (bytes : List (Nat × Byte)) : Mem :=
  fun x => ((bytes.find? (fun b => b.1 = (x - base).toNat)).map (·.2)).getD 0

/-- An image of one header, with a name and a size. -/
def oneHeader (name : List Byte) (size : List Byte) : Mem :=
  sparse 0x1000 (name.mapIdx (fun i b => (i, b)) ++ size.mapIdx (fun i b => (124 + i, b)))

theorem oneHeader_finishes :
    (512 : Word).toNat % 512 = 0 ∧ Finishes (oneHeader [0x66] [0x30]) 0x1000 512 := by
  refine ⟨by decide, (finishes_iff_imageOk (oneHeader [0x66] [0x30]) 0x1000 512 (by decide)).mpr ?_⟩
  intro headers addr hv hlt
  have hone : headers = [] ∧ addr = 0x1000 ∨ addr = 0x1200 := by
    clear hlt
    induction hv with
    | start => exact .inl ⟨rfl, rfl⟩
    | next _ hlt ih =>
      rcases ih with ⟨-, rfl⟩ | rfl
      · exact .inr (by decide)
      · exact absurd hlt (by decide)
  rcases hone with ⟨rfl, rfl⟩ | rfl
  · refine ⟨by unfold SizeFits; decide, ?_⟩
    intro filename hname
    rw [show memberName (oneHeader [0x66] [0x30]) 0x1000 = some 0x1000 by decide,
      some.injEq] at hname
    subst hname
    have hfield : fieldString (oneHeader [0x66] [0x30]) 100 0x1000 = kstring [0x66] := by decide
    refine ⟨kstring [0x66], ?_, by decide, pathOpen_nil _⟩
    rw [← hfield]
    exact cString_of_terminated (by decide)
  · exact absurd hlt (by decide)

/-- Of the size `00000000/000` the character below `'0'` makes -512, and the step is zero. The name
`/` has no components, and the loop over them would make 2^64 - 1 turns. -/
theorem stuck_not_finishes :
    ¬ Finishes (oneHeader [0x66] [0x30, 0x30, 0x30, 0x30, 0x30, 0x30, 0x30, 0x30,
      0x2F, 0x30, 0x30, 0x30])
      0x1000 512 ∧
    ¬ Finishes (oneHeader [0x2F] [0x30]) 0x1000 512 := by
  constructor
  · rintro ⟨-, hsteps⟩
    have := (hsteps [] 0x1000 .start (by decide)).forward
    revert this
    decide
  · rintro ⟨-, hsteps⟩
    have hfield : fieldString (oneHeader [0x2F] [0x30]) 100 0x1000 = [slash] := by decide
    have hpath : cString (oneHeader [0x2F] [0x30]) 0x1000 = some [slash] := by
      rw [← hfield]
      exact cString_of_terminated (by decide)
    have := (hsteps [] 0x1000 .start (by decide)).turns 0x1000 [slash] (by decide) hpath
    revert this
    decide

end Initramfs

end Hltos
