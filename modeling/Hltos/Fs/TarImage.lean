import Hltos.Fs.Archive

/-!
# Archives as tar writes them

A tar image is a sequence of headers with the data behind each, and zero blocks at the end. The tree
that the kernel makes of it is compared with the archive.
-/

namespace Hltos

open List Option

open Lib.ByteMemory (Mem)

namespace Tar

/-- An entry of an archive. -/
structure TarEntry where
  name : KString
  digits : List (Fin 8)
  typeflag : Byte
deriving DecidableEq

namespace TarEntry

/-- The size that the digits stand for. -/
def size (e : TarEntry) : Nat := octalFrom 0 e.digits

def blocks (e : TarEntry) : Nat := (e.size + 511) / 512

def isDirectory (e : TarEntry) : Prop := e.typeflag = typeflagDir

instance (e : TarEntry) : Decidable e.isDirectory := inferInstanceAs (Decidable (_ = _))

/-- The components of the name, without the leading `"./"`. -/
def components (e : TarEntry) : List KString := Algo.split (stripDot e.name) slash

/-- The entries `"."` and `"./"` stand for the root. -/
def Skipped (e : TarEntry) : Prop := PassedOver e.name

instance (e : TarEntry) : Decidable e.Skipped := inferInstanceAs (Decidable (PassedOver _))

end TarEntry

/-- The header of an entry: the name is ended by a NUL in its field, the prefix is empty, and the
size is given in octal digits that are ended by a NUL. -/
structure HeaderAt (m : Mem) (header : Word) (e : TarEntry) : Prop where
  name : fieldString m 100 header = e.name
  nonempty : e.name ≠ []
  terminated : e.name.length < 100
  size : OctalAt m (header + 124) e.digits
  digits : e.digits.length < 12
  typeflag : typeflag m header = e.typeflag
  noPrefix : m (header + 345) = 0

/-- An image of `size` bytes: the entries, each with its data padded to whole blocks, and zero
blocks behind them. The entries come with the addresses of their headers. -/
inductive TarImage (m : Mem) : Word → Nat → List (Word × TarEntry) → Prop
  | zeros {addr size} : size % 512 = 0 → (∀ i < size, m (addr + BitVec.ofNat 64 i) = 0) →
      TarImage m addr size []
  | entry {addr size e es} : HeaderAt m addr e →
      TarImage m (addr + BitVec.ofNat 64 (512 + 512 * e.blocks)) size es →
      TarImage m addr (512 + 512 * e.blocks + size) ((addr, e) :: es)

/-- The entries that are inserted. -/
def inserted (es : List (Word × TarEntry)) : List (Word × TarEntry) :=
  es.filter (fun x => ¬ x.2.Skipped)

variable {m : Mem} {addr : Word} {e : TarEntry} {es : List (Word × TarEntry)} {n : Nat}

section

variable (h : HeaderAt m addr e)

include h

theorem HeaderAt.size_lt : e.size < 2 ^ 33 := by
  have hlt : e.size < 8 ^ (0 + e.digits.length) := octalFrom_lt (by decide)
  calc e.size < 8 ^ (0 + e.digits.length) := hlt
    _ ≤ 8 ^ 11 := Nat.pow_le_pow_right (by decide) (by have := h.digits; omega)
    _ = 2 ^ 33 := by decide

theorem HeaderAt.sizeField : sizeField m addr = BitVec.ofNat 64 e.size := by
  rw [Tar.sizeField, Fmt.parseUint, show (0 : Word) = .ofNat 64 0 from rfl,
    parseUintFrom_octal h.size h.digits.le, TarEntry.size]

theorem HeaderAt.toNat_numBlocks : (numBlocks m addr).toNat = e.blocks := by
  have hlt := h.size_lt
  have hsum : (BitVec.ofNat 64 e.size + 511).toNat = e.size + 511 := by bv_omega
  rw [numBlocks, h.sizeField, TarEntry.blocks, BitVec.toNat_udiv, hsum,
    show (512 : Word).toNat = 512 from rfl]

theorem HeaderAt.nextHeader : nextHeader m addr = addr + .ofNat 64 (512 + 512 * e.blocks) := by
  have hn := h.toNat_numBlocks
  have hlt := h.size_lt
  rw [Tar.nextHeader]
  congr 1
  apply BitVec.eq_of_toNat_eq
  unfold TarEntry.blocks at *
  bv_omega

end

/-- A zero block is passed over, and the step is one block. -/
theorem of_zero_block (h : ∀ i < 512, m (addr + BitVec.ofNat 64 i) = 0) :
    memberName m addr = none ∧ Tar.nextHeader m addr = addr + 512 := by
  have h0 : m addr = 0 := by
    have := h 0 (by decide)
    rwa [show addr + .ofNat 64 0 = addr by bv_omega] at this
  have hsize : Tar.sizeField m addr = 0 := by
    have h124 : m (addr + 124) = 0 := h 124 (by decide)
    rw [Tar.sizeField, Fmt.parseUint, Fmt.parseUintFrom, if_pos h124]
  refine ⟨if_pos (decide_eq_true h0), ?_⟩
  rw [Tar.nextHeader, numBlocks, hsize]
  rfl

/-- What is asked of the entries of an archive: apart from those for the root, each has a component,
no two have the same ones, and no file is on the way to another entry. -/
structure Consistent (es : List (Word × TarEntry)) : Prop where
  nonempty : ∀ x ∈ inserted es, x.2.components ≠ []
  distinct : ((inserted es).map (fun x => x.2.components)).Nodup
  leaves : ∀ x ∈ inserted es, ∀ y ∈ inserted es, ¬ x.2.isDirectory →
    x.2.components <+: y.2.components → x.2.components = y.2.components

end Tar

namespace Initramfs

open Tar

variable {m : Mem} {addr : Word} {e : TarEntry} {es : List (Word × TarEntry)} {n : Nat}

/-- The member that an entry stands for. -/
def entryMember (x : Word × TarEntry) : Member where
  components := x.2.components
  kind := if x.2.isDirectory then .directory else .file (x.1 + 512) (BitVec.ofNat 64 x.2.size)

@[simp] theorem components_entryMember (x : Word × TarEntry) :
    (entryMember x).components = x.2.components := rfl

/-- A header is read as the entry says. -/
theorem member_of_headerAt (h : HeaderAt m addr e) : (e.Skipped ∧ memberName m addr = none) ∨
    (¬ e.Skipped ∧ ∃ filename, memberName m addr = some filename ∧
      cString m filename = some (stripDot e.name) ∧
      memberKind m addr = (entryMember (addr, e)).kind) := by
  have hname : cString m addr = some e.name := by
    rw [← h.name]
    exact cString_of_terminated (by rw [h.name]; exact h.terminated)
  rcases memberName_of_cString hname with hskip | ⟨hins, filename, hf, hpath⟩
  · exact .inl hskip
  · refine .inr ⟨hins, filename, hf, hpath, ?_⟩
    rw [memberKind, h.typeflag, h.sizeField]
    rfl

/-- The members that the entries stand for. -/
def entryMembers (es : List (Word × TarEntry)) : List Member := (inserted es).map entryMember

theorem entryMembers_cons (x : Word × TarEntry) (es : List (Word × TarEntry)) :
    entryMembers (x :: es) = (if x.2.Skipped then [] else [entryMember x]) ++ entryMembers es := by
  unfold entryMembers inserted
  by_cases hx : x.2.Skipped <;> simp [hx]

/-- Every member can be inserted behind those before it. -/
def Insertable : List Member → List Member → Prop
  | _, [] => True
  | before, e :: es =>
    (e.components ≠ [] ∧ PathOpen before e.components) ∧ Insertable (before ++ [e]) es

variable {s t : Initramfs} {before : List Member} {ms : List Member} {q : List KString}

/-- Zero blocks change nothing. -/
theorem parseFrom_zeros {k : Nat} (hzero : ∀ i < 512 * k, m (addr + BitVec.ofNat 64 i) = 0)
    (hfit : addr.toNat + 512 * k < 2 ^ 64) :
    ∃ fuel, parseFrom m (addr + .ofNat 64 (512 * k)) fuel addr t = some t := by
  induction k generalizing addr with
  | zero =>
    refine ⟨0, if_neg ?_⟩
    bv_omega
  | succ k ih =>
    obtain ⟨hname, hnext⟩ := of_zero_block (fun i hi => hzero i (by omega))
    have hlt : addr < addr + .ofNat 64 (512 * (k + 1)) := by bv_omega
    have hrest : ∀ i < 512 * k, m (addr + 512 + .ofNat 64 i) = 0 := by
      intro i hi
      have := hzero (512 + i) (by omega)
      rwa [show addr + .ofNat 64 (512 + i) = addr + 512 + .ofNat 64 i by bv_omega] at this
    obtain ⟨fuel, hfuel⟩ := ih hrest (by bv_omega)
    refine ⟨fuel + 1, ?_⟩
    rw [parseFrom, if_pos hlt, parseHeader, hname, hnext]
    rwa [show addr + 512 + .ofNat 64 (512 * k) = addr + .ofNat 64 (512 * (k + 1)) by bv_omega]
      at hfuel

/-- **A header is read as its entry says.** -/
theorem Exposes.parseHeader_entry (ht : Exposes t before) (h : HeaderAt m addr e)
    (hins : ¬ e.Skipped → e.components ≠ [] ∧ PathOpen before e.components) :
    ∃ u, t.parseHeader m addr = some u ∧
      Exposes u (before ++ if e.Skipped then [] else [entryMember (addr, e)]) := by
  rcases member_of_headerAt h with ⟨hskip, hname⟩ | ⟨hskip, filename, hname, hpath, hkind⟩
  · refine ⟨t, by rw [Initramfs.parseHeader, hname], ?_⟩
    rwa [if_pos hskip, append_nil]
  · obtain ⟨hne, hopen⟩ := hins hskip
    have hok : HeaderOk m before addr := by
      intro filename' hname'
      rw [hname] at hname'
      cases hname'
      exact ⟨stripDot e.name, hpath, hne, hopen⟩
    have hmember : member m addr = some (entryMember (addr, e)) := by
      rw [member, hname, bind_eq_bind, bind_some, hpath, bind_eq_bind, bind_some, hkind]
      rfl
    rcases ht.parseHeader m addr with ⟨hbad, -⟩ | ⟨-, u, hsome, hu⟩
    · exact absurd hok hbad
    · rw [hmember] at hu
      rw [if_neg hskip]
      exact ⟨u, hsome, hu⟩

/-- **The image is read as its entries say.** -/
theorem parseFrom_tarImage (himg : TarImage m addr n es) (hfit : addr.toNat + n < 2 ^ 64)
    (ht : Exposes t before) (hins : Insertable before (entryMembers es)) :
    ∃ fuel s, parseFrom m (addr + .ofNat 64 n) fuel addr t = some s ∧
      Exposes s (before ++ entryMembers es) := by
  induction himg generalizing t before with
  | @zeros addr n hmod hzero =>
    obtain ⟨k, rfl⟩ : ∃ k, n = 512 * k := ⟨n / 512, by omega⟩
    obtain ⟨fuel, hfuel⟩ := parseFrom_zeros hzero hfit
    exact ⟨fuel, t, hfuel, by simpa [entryMembers, inserted] using ht⟩
  | @entry addr n e es hheader himg ih =>
    have hlt : addr < addr + .ofNat 64 (512 + 512 * e.blocks + n) := by bv_omega
    have hlast : addr + .ofNat 64 (512 + 512 * e.blocks) + .ofNat 64 n =
        addr + .ofNat 64 (512 + 512 * e.blocks + n) := by bv_omega
    rw [entryMembers_cons] at hins ⊢
    -- the entry, and then the rest of the image
    obtain ⟨hentry, hrest⟩ : (¬ e.Skipped → e.components ≠ [] ∧ PathOpen before e.components) ∧
        Insertable (before ++ if e.Skipped then [] else [entryMember (addr, e)])
          (entryMembers es) := by
      by_cases hskip : e.Skipped
      · simp only [if_pos hskip, nil_append, append_nil] at hins ⊢
        exact ⟨fun hn => absurd hskip hn, hins⟩
      · simp only [if_neg hskip] at hins ⊢
        exact ⟨fun _ => hins.1, hins.2⟩
    obtain ⟨u, hread, hu⟩ := ht.parseHeader_entry hheader hentry
    obtain ⟨fuel, s, hrun, hs⟩ := ih (by bv_omega) hu hrest
    refine ⟨fuel + 1, s, ?_, by rwa [append_assoc] at hs⟩
    rw [parseFrom, if_pos hlt, hread, hheader.nextHeader, ← hlast]
    exact hrun

/-! ### The tree of a consistent archive -/

theorem mem_entryMembers {f : Member} (h : f ∈ entryMembers es) :
    ∃ x ∈ inserted es, f = entryMember x := by
  obtain ⟨x, hx, rfl⟩ := mem_map.mp h
  exact ⟨x, hx, rfl⟩

/-- What is seen as a file is a file of the archive. -/
theorem membersView_eq_file {tarData size : Word}
    (h : membersView ms q = some (.file tarData size)) :
    ∃ f ∈ ms, f.components = q ∧ f.kind = .file tarData size := by
  unfold membersView at h
  split at h
  · cases h
  · obtain ⟨f, hf, hkind⟩ := map_eq_some_iff.mp h
    split at hkind
    · next hq => exact ⟨f, mem_of_find?_eq_some hf, hq.symm, hkind⟩
    · cases hkind

/-- The members of a consistent archive can be inserted one after the other. -/
theorem insertable_of_leaves (hne : ∀ f ∈ ms, f.components ≠ [])
    (hleaf : ∀ f ∈ before ++ ms, ∀ g ∈ ms, f.kind ≠ .directory → f.components <+: g.components →
      f.components = g.components) : Insertable before ms := by
  induction ms generalizing before with
  | nil => trivial
  | cons e ms ih =>
    refine ⟨⟨hne e mem_cons_self, ?_⟩, ?_⟩
    · intro q hpre hq tarData size hfile
      obtain ⟨f, hf, rfl, hkind⟩ := membersView_eq_file hfile
      exact hq (hleaf f (mem_append_left _ hf) e mem_cons_self (by simp [hkind]) hpre)
    · apply ih (fun f hf => hne f (mem_cons_of_mem e hf))
      intro f hf g hg
      rw [append_assoc, singleton_append] at hf
      exact hleaf f hf g (mem_cons_of_mem e hg)

theorem insertable_of_consistent (h : Consistent es) : Insertable [] (entryMembers es) := by
  apply insertable_of_leaves
  · intro f hf
    obtain ⟨x, hx, rfl⟩ := mem_entryMembers hf
    exact h.nonempty x hx
  · intro f hf g hg hkind hpre
    obtain ⟨x, hx, rfl⟩ := mem_entryMembers hf
    obtain ⟨y, hy, rfl⟩ := mem_entryMembers hg
    apply h.leaves x hx y hy _ hpre
    intro hdir
    exact hkind (if_pos hdir)

theorem mounts_tarImage (himg : TarImage m addr n es) (hfit : addr.toNat + n < 2 ^ 64)
    (hes : Consistent es) : ∃ s, Mounts m addr (.ofNat 64 n) s ∧ Exposes s (entryMembers es) := by
  obtain ⟨fuel, s, hrun, hs⟩ :=
    parseFrom_tarImage himg hfit exposes_empty (insertable_of_consistent hes)
  exact ⟨s, ⟨fuel, hrun⟩, hs⟩

/-- The first member at or below an entry is the entry itself, or makes a directory of it. -/
theorem membersView_entry (hes : Consistent es) {x : Word × TarEntry} (hx : x ∈ inserted es) :
    membersView (entryMembers es) x.2.components = some (entryMember x).kind := by
  have hmem : entryMember x ∈ entryMembers es := mem_map_of_mem hx
  obtain ⟨f, hf⟩ : ∃ f,
      (entryMembers es).find? (fun e => x.2.components <+: e.components) = some f := by
    rw [← isSome_iff_exists, find?_isSome]
    exact ⟨entryMember x, hmem, decide_eq_true prefix_rfl⟩
  obtain ⟨y, hy, rfl⟩ := mem_entryMembers (mem_of_find?_eq_some hf)
  have hpre : x.2.components <+: y.2.components := by
    have hp := find?_some hf
    rwa [decide_eq_true_eq] at hp
  rw [membersView, if_neg (hes.nonempty x hx), hf, map_some, components_entryMember]
  by_cases heq : x.2.components = y.2.components
  · rw [if_pos heq, inj_on_of_nodup_map hes.distinct hx hy heq]
  · rw [if_neg heq]
    have hdir : x.2.isDirectory := by
      by_contra hfile
      exact heq (hes.leaves x hx y hy hfile hpre)
    rw [entryMember, if_pos hdir]

theorem exists_of_view {kind : InitramfsKind} (h : s.view q = some kind) :
    ∃ y, s.find q = some y ∧ s.kind y = some kind := of_bind h

/-- The tree shows the archive: every file with its data and size, every directory, and nothing that
is not an entry or on the way to one. -/
structure Shows (s : Initramfs) (es : List (Word × TarEntry)) : Prop where
  file : ∀ x ∈ inserted es, ¬ x.2.isDirectory → ∃ y, s.find x.2.components = some y ∧
    s.kind y = some (.file (x.1 + 512) (BitVec.ofNat 64 x.2.size))
  directory : ∀ x ∈ inserted es, x.2.isDirectory → ∃ y, s.find x.2.components = some y ∧
    s.kind y = some .directory
  other : ∀ q, q ≠ [] → (∀ x ∈ inserted es, ¬ q <+: x.2.components) → s.find q = none

/-- **Mounting an initramfs exposes every entry of the archive**, in whatever order they come. -/
theorem tarImage_mounts_shows (himg : TarImage m addr n es) (hfit : addr.toNat + n < 2 ^ 64)
    (hes : Consistent es) : ∃ s, Mounts m addr (BitVec.ofNat 64 n) s ∧ Shows s es := by
  obtain ⟨s, hmount, hs⟩ := mounts_tarImage himg hfit hes
  refine ⟨s, hmount, ?_, ?_, ?_⟩
  · intro x hx hfile
    apply exists_of_view
    rw [hs.view, membersView_entry hes hx, entryMember, if_neg hfile]
  · intro x hx hdir
    apply exists_of_view
    rw [hs.view, membersView_entry hes hx, entryMember, if_pos hdir]
  · intro q hq hnone
    rw [← hs.inv.view_eq_none_iff, hs.view, membersView_eq_none_iff hq]
    intro f hf
    obtain ⟨x, hx, rfl⟩ := mem_entryMembers hf
    exact hnone x hx

/-- An entry in front of the rest of an image. -/
theorem entryAt {next : Word} {total : Nat} (h : HeaderAt m addr e)
    (hnext : addr + .ofNat 64 (512 + 512 * e.blocks) = next)
    (htotal : 512 + 512 * e.blocks + n = total) (himg : TarImage m next n es) :
    TarImage m addr total ((addr, e) :: es) := by
  subst hnext htotal
  exact .entry h himg

/-- A file `a/f` of three bytes, its directory `./a/` behind it, and a zero block. -/
def childFirst : Mem := sparse 0x1000
  [(0, 0x61), (1, 0x2F), (2, 0x66), (124, 0x33), (156, 0x30), (512, 0x78), (513, 0x79), (514, 0x7A),
    (1024, 0x2E), (1025, 0x2F), (1026, 0x61), (1027, 0x2F), (1148, 0x30), (1180, 0x35)]

def fileEntry : TarEntry := ⟨kstring [0x61, 0x2F, 0x66], [3], 0x30⟩

def dirEntry : TarEntry := ⟨kstring [0x2E, 0x2F, 0x61, 0x2F], [0], 0x35⟩

theorem childFirst_image :
    TarImage childFirst 0x1000 2048 [(0x1000, fileEntry), (0x1400, dirEntry)] := by
  have hfile : HeaderAt childFirst 0x1000 fileEntry :=
    ⟨by decide, by decide, by decide, by decide, by decide, by decide, by decide⟩
  have hdir : HeaderAt childFirst 0x1400 dirEntry :=
    ⟨by decide, by decide, by decide, by decide, by decide, by decide, by decide⟩
  have hzeros : TarImage childFirst 0x1600 512 [] := .zeros (by decide) (by decide +kernel)
  have hrest : TarImage childFirst 0x1400 1024 [(0x1400, dirEntry)] :=
    entryAt hdir (by decide) (by decide) hzeros
  exact entryAt hfile (by decide) (by decide) hrest

theorem consistent_childFirst : Consistent [(0x1000, fileEntry), (0x1400, dirEntry)] :=
  ⟨by decide, by decide, by decide⟩

theorem childFirst_mounts_shows : ∃ s, Mounts childFirst 0x1000 2048 s ∧
    Shows s [(0x1000, fileEntry), (0x1400, dirEntry)] :=
  tarImage_mounts_shows childFirst_image (by decide) consistent_childFirst

/-! ### Names that are listed twice -/

/-- No entry comes behind one that is below it. -/
def ParentsFirst (es : List (Word × TarEntry)) : Prop :=
  (inserted es).Pairwise (fun x y => ¬ y.2.components <+: x.2.components)

instance (es : List (Word × TarEntry)) : Decidable (ParentsFirst es) :=
  inferInstanceAs (Decidable ((inserted es).Pairwise _))

theorem newNames_entryMembers : NewNames (entryMembers es) ↔ ParentsFirst es := pairwise_map

/-- **Each name is listed once, and every inode is reached, exactly if parents come first.** A
directory that was made for the sake of an entry below it is not found again by its own entry. -/
theorem tarImage_lists_once_iff (himg : TarImage m addr n es) (hfit : addr.toNat + n < 2 ^ 64)
    (hes : Consistent es) : ∃ s, Mounts m addr (BitVec.ofNat 64 n) s ∧
      (s.NamesOnce ∧ s.ReachedBut [] ↔ ParentsFirst es) := by
  obtain ⟨s, hmount, hs⟩ := mounts_tarImage himg hfit hes
  refine ⟨s, hmount, ?_⟩
  rw [← newNames_entryMembers]
  constructor
  · rintro ⟨honce, -⟩
    exact hs.namesOnce.mp honce
  · intro hnew
    exact ⟨hs.namesOnce.mpr hnew, hs.reached hnew⟩

/-- The same entries, the directory in front. -/
def parentFirst : Mem := sparse 0x1000
  [(0, 0x2E), (1, 0x2F), (2, 0x61), (3, 0x2F), (124, 0x30), (156, 0x35),
    (512, 0x61), (513, 0x2F), (514, 0x66), (636, 0x33), (668, 0x30), (1024, 0x78), (1025, 0x79),
    (1026, 0x7A)]

theorem parentFirst_image :
    TarImage parentFirst 0x1000 1536 [(0x1000, dirEntry), (0x1200, fileEntry)] := by
  have hdir : HeaderAt parentFirst 0x1000 dirEntry :=
    ⟨by decide, by decide, by decide, by decide, by decide, by decide, by decide⟩
  have hfile : HeaderAt parentFirst 0x1200 fileEntry :=
    ⟨by decide, by decide, by decide, by decide, by decide, by decide, by decide⟩
  have hend : TarImage parentFirst 0x1600 0 [] := .zeros (by decide) (by decide)
  have hrest : TarImage parentFirst 0x1200 1024 [(0x1200, fileEntry)] :=
    entryAt hfile (by decide) (by decide) hend
  exact entryAt hdir (by decide) (by decide) hrest

theorem parentFirst_lists_once :
    ∃ s, Mounts parentFirst 0x1000 1536 s ∧ s.NamesOnce ∧ s.ReachedBut [] := by
  obtain ⟨s, hmount, hs⟩ :=
    tarImage_lists_once_iff parentFirst_image (by decide) ⟨by decide, by decide, by decide⟩
  exact ⟨s, hmount, hs.mpr (by decide)⟩

/-- With the file in front, the root lists `a` twice. -/
theorem childFirst_lists_twice :
    TarImage childFirst 0x1000 2048 [(0x1000, fileEntry), (0x1400, dirEntry)] ∧
    Consistent [(0x1000, fileEntry), (0x1400, dirEntry)] ∧ ∃ s, Mounts childFirst 0x1000 2048 s ∧
      s.readdir root = [some (kstring [0x61]), some (kstring [0x61])] := by
  refine ⟨childFirst_image, consistent_childFirst, ?_⟩
  have hrun : (parseTarHeaders 4 childFirst 0x1000 2048).map (·.readdir root) =
      some [some (kstring [0x61]), some (kstring [0x61])] := by
    decide
  obtain ⟨s, hs, hnames⟩ := map_eq_some_iff.mp hrun
  exact ⟨s, ⟨4, hs⟩, hnames⟩

end Initramfs

/-! ### Full names -/

namespace Tar

variable {m : Mem} {header : Word} {name rest : KString} {c : KChar}

def filename (m : Mem) (header : Word) : KString := fieldString m 100 header

def namePrefix (m : Mem) (header : Word) : KString := fieldString m 155 (header + 345)

/-- The name of a member in the `ustar` format. -/
def fullName (m : Mem) (header : Word) : KString :=
  if namePrefix m header = [] then filename m header
  else namePrefix m header ++ slash :: filename m header

/-- A header of the `ustar` format: it has a name, its mode is a number, and its magic is right. -/
structure UstarHeader (m : Mem) (header : Word) : Prop where
  named : filename m header ≠ []
  mode : ∃ d : Fin 8, m (header + 100) = 0x30 + BitVec.ofNat 8 d
  magic : fieldString m 6 (header + 257) = kstring [0x75, 0x73, 0x74, 0x61, 0x72]

/-- The components of a prefix, without the leading `"./"`. -/
def prefixComponents (name : KString) : List KString :=
  if name = dot then [] else Algo.split (stripDot name) slash

theorem singleton_eq_dot : [c] = dot ↔ c.1 = 0x2E := by
  rw [show dot = [⟨0x2E, by decide⟩] from rfl, singleton_inj, Subtype.ext_iff]

/-- A prefix puts its components in front of those of the name. -/
theorem split_stripDot_prefix (hne : name ≠ []) :
    Algo.split (stripDot (name ++ slash :: rest)) slash =
      prefixComponents name ++ Algo.split rest slash := by
  unfold prefixComponents
  match name with
  | [c] =>
    rw [singleton_append, stripDot]
    by_cases hc : c.1 = 0x2E
    · rw [if_pos ⟨hc, rfl⟩, if_pos (singleton_eq_dot.mpr hc), nil_append]
    · rw [if_neg (fun h => hc h.1), if_neg (mt singleton_eq_dot.mp hc)]
      exact Algo.split_append slash [c] rest
  | c :: d :: name =>
    have hdot : c :: d :: name ≠ dot := fun h => by
      simpa [dot, kstring] using congrArg List.length h
    rw [if_neg hdot, cons_append, cons_append, stripDot, stripDot]
    split
    · exact Algo.split_append slash name rest
    · exact Algo.split_append slash (c :: d :: name) rest

/-- What begins with `"./"`, and what does not. -/
theorem stripDot_cases (name : KString) :
    (∃ g, name = dotSlash ++ g ∧ stripDot name = g) ∨
    (¬ dotSlash <+: name ∧ stripDot name = name) := by
  have hds : dotSlash = [⟨0x2E, by decide⟩, slash] := rfl
  match name with
  | [] => exact .inr ⟨by simp [hds], rfl⟩
  | [c] => exact .inr ⟨by simp [hds], rfl⟩
  | c :: d :: g =>
    rw [stripDot]
    by_cases hdot : c.1 = 0x2E ∧ d.1 = 0x2F
    · obtain rfl : c = ⟨0x2E, by decide⟩ := Subtype.ext hdot.1
      obtain rfl : d = slash := Subtype.ext hdot.2
      exact .inl ⟨g, rfl, if_pos hdot⟩
    · refine .inr ⟨fun hpre => hdot ?_, if_neg hdot⟩
      rw [hds, cons_prefix_cons, cons_prefix_cons] at hpre
      exact ⟨(congrArg Subtype.val hpre.1).symm, (congrArg Subtype.val hpre.2.1).symm⟩

theorem stripDot_append (h : 2 ≤ name.length) :
    stripDot (name ++ rest) = stripDot name ++ rest := by
  match name with
  | c :: d :: name =>
    rw [cons_append, cons_append, stripDot, stripDot]
    split <;> rfl

theorem not_passedOver_of_length (h : 3 ≤ name.length) : ¬ PassedOver name := by
  rintro (rfl | rfl | rfl)
  · simp at h
  · exact absurd h (by decide)
  · exact absurd h (by decide)

theorem octal_ne_slash : ∀ d : Fin 8, (0x30 + BitVec.ofNat 8 d : Byte) ≠ slash.1 := by decide

/-- A character that is no delimiter shows. -/
theorem split_append_ne (hc : c ≠ slash) :
    Algo.split (name ++ c :: rest) slash ≠ Algo.split name slash := by
  intro h
  have hlen := congrArg (fun l => (List.flatten l).length) h
  simp [Algo.flatten_split, hc] at hlen

end Tar

namespace Initramfs

open Tar

variable {m : Mem} {header : Word}

/-- The components under which a member is inserted; none if it is passed over. -/
def insertedComponents (m : Mem) (header : Word) : Option (List KString) :=
  (member m header).map (·.components)

/-- The components of the full name, without the leading `"./"`; none if that stands for the root.
-/
def fullComponents (m : Mem) (header : Word) : Option (List KString) :=
  if PassedOver (fullName m header) then none
  else some (Algo.split (stripDot (fullName m header)) slash)

theorem insertedComponents_of_cString {name : KString} (h : cString m header = some name) :
    insertedComponents m header =
      if PassedOver name then none else some (Algo.split (stripDot name) slash) := by
  unfold insertedComponents member
  rcases memberName_of_cString h with ⟨hpass, hnone⟩ | ⟨hpass, filename, hsome, hpath⟩
  · rw [if_pos hpass, hnone]
    rfl
  · rw [if_neg hpass, hsome]
    simp [hpath]

theorem insertedComponents_of_none (h : cString m header = none) :
    insertedComponents m header = none := by
  -- the pointer is moved by two characters at most, and both are there
  have hnone : ∀ filename, memberName m header = some filename → cString m filename = none := by
    intro filename hname
    rcases memberName_eq_some hname with rfl | ⟨hdot, hslash, rfl⟩
    · exact h
    · rw [cString_of_ne_zero (by rw [hdot]; decide),
        cString_of_ne_zero (by rw [hslash]; decide)] at h
      rw [show header + 2 = header + 1 + 1 by bv_omega]
      simpa using h
  unfold insertedComponents member
  cases hname : memberName m header with
  | none => rfl
  | some filename => simp [hnone filename hname]

/-- The name is what the kernel takes it for: the field is ended by a NUL, and there is no prefix or
one without components in front of a name that does not begin with a dot. The last case is that of a
name that fills its field, where the bytes behind it may happen to stand in for the prefix. -/
def NameSeen (m : Mem) (header : Word) : Prop :=
  ((filename m header).length < 100 ∧ (namePrefix m header = [] ∨
      prefixComponents (namePrefix m header) = [] ∧ filename m header ≠ dot ∧
        ¬ dotSlash <+: filename m header)) ∨
  ((filename m header).length = 100 ∧ namePrefix m header ≠ [] ∧ ∃ rest,
    cString m (header + 100) = some rest ∧
      prefixComponents (namePrefix m header) ++ Algo.split (filename m header) slash =
        Algo.split (stripDot (filename m header) ++ rest) slash)

theorem insertedComponents_of_terminated (h : (filename m header).length < 100) :
    insertedComponents m header = if PassedOver (filename m header) then none
      else some (Algo.split (stripDot (filename m header)) slash) :=
  insertedComponents_of_cString (cString_of_terminated h)

theorem insertedComponents_of_full (h : (filename m header).length = 100) :
    insertedComponents m header = (cString m (header + 100)).map
      (fun rest => Algo.split (stripDot (filename m header) ++ rest) slash) := by
  have hfull : cString m header = (cString m (header + 100)).map (filename m header ++ ·) :=
    cString_of_full h
  cases hrest : cString m (header + 100) with
  | none =>
    rw [hrest] at hfull
    exact insertedComponents_of_none hfull
  | some rest =>
    rw [hrest, map_some] at hfull
    rw [insertedComponents_of_cString hfull, if_neg (not_passedOver_of_length (by simp; omega)),
      stripDot_append (by omega), map_some]

theorem fullComponents_prefixed (hp : namePrefix m header ≠ []) (hf : filename m header ≠ []) :
    fullComponents m header =
      some (prefixComponents (namePrefix m header) ++ Algo.split (filename m header) slash) := by
  have hlen : 3 ≤ (namePrefix m header ++ slash :: filename m header).length := by
    have := length_pos_of_ne_nil hp
    have := length_pos_of_ne_nil hf
    simp
    omega
  rw [fullComponents, fullName, if_neg hp, if_neg (not_passedOver_of_length hlen),
    split_stripDot_prefix hp]

/-- A prefix is not seen, unless it has no components. -/
theorem terminated_prefix_iff (h : (filename m header).length < 100) (hp : namePrefix m header ≠ [])
    (hf : filename m header ≠ []) : insertedComponents m header = fullComponents m header ↔
      prefixComponents (namePrefix m header) = [] ∧ filename m header ≠ dot ∧
        ¬ dotSlash <+: filename m header := by
  rw [insertedComponents_of_terminated h, fullComponents_prefixed hp hf]
  generalize filename m header = name at *
  rcases stripDot_cases name with ⟨g, rfl, hstrip⟩ | ⟨hdot, hstrip⟩
  · -- a leading `"./"` of the file name is a component of the full name
    have hsplit : Algo.split (dotSlash ++ g) slash = dot :: Algo.split g slash := by
      have hdot : Algo.split dot slash = [dot] := by decide
      have := Algo.split_append slash dot g
      rwa [hdot] at this
    refine ⟨fun heq => ?_, fun hr => absurd (prefix_append dotSlash g) hr.2.2⟩
    split at heq
    · cases heq
    · rw [hstrip, hsplit, Option.some.injEq] at heq
      have := congrArg List.length heq
      simp at this
      omega
  · by_cases hname : name = dot
    · rw [if_pos (.inr (.inl hname))]
      exact ⟨fun heq => (some_ne_none _ heq.symm).elim, fun hr => absurd hname hr.2.1⟩
    · have hpass : ¬ PassedOver name := by
        rintro (rfl | rfl | rfl)
        · exact hf rfl
        · exact hname rfl
        · exact hdot prefix_rfl
      rw [if_neg hpass, hstrip, Option.some.injEq, self_eq_append_left]
      exact ⟨fun hnil => ⟨hnil, hname, hdot⟩, fun hr => hr.1⟩

/-- **A member is inserted under its full name exactly if** the kernel sees that name. -/
theorem insertedComponents_eq_full_iff (h : UstarHeader m header) :
    insertedComponents m header = fullComponents m header ↔ NameSeen m header := by
  unfold NameSeen
  rcases Nat.lt_or_eq_of_le (length_fieldString_le m 100 header) with hlen | hlen
  · have hlen : (filename m header).length < 100 := hlen
    by_cases hp : namePrefix m header = []
    · have hfull : fullName m header = filename m header := if_pos hp
      rw [insertedComponents_of_terminated hlen, fullComponents, hfull]
      simp [hlen, hp]
    · rw [terminated_prefix_iff hlen hp h.named]
      simp [hlen, hp, hlen.ne]
  · have hlen : (filename m header).length = 100 := hlen
    rw [insertedComponents_of_full hlen]
    by_cases hp : namePrefix m header = []
    · -- what is behind the field makes the name longer
      have hfull : fullName m header = filename m header := if_pos hp
      rw [fullComponents, hfull, if_neg (not_passedOver_of_length (by omega))]
      constructor
      · intro heq
        obtain ⟨rest, hrest, heq⟩ := map_eq_some_iff.mp heq
        obtain ⟨d, hmode⟩ := h.mode
        cases rest with
        | nil =>
          rw [cString_eq_nil_iff, hmode] at hrest
          exact absurd hrest (octal_byte d).1
        | cons c rest =>
          apply absurd heq (split_append_ne _)
          rintro rfl
          rw [cString_eq_cons_iff, hmode] at hrest
          exact absurd hrest.1 (octal_ne_slash d)
      · rintro (hseen | hseen)
        · exact absurd hlen hseen.1.ne
        · exact absurd hp hseen.2.1
    · rw [fullComponents_prefixed hp h.named, map_eq_some_iff]
      constructor
      · rintro ⟨rest, hrest, heq⟩
        exact .inr ⟨hlen, hp, rest, hrest, heq.symm⟩
      · rintro (hseen | ⟨-, -, rest, hrest, heq⟩)
        · exact absurd hlen hseen.1.ne
        · exact ⟨rest, hrest, heq.symm⟩

/-- The bytes of a header that count for its name. -/
def ustarBytes (offset : Nat) (name front : List Byte) : List (Nat × Byte) :=
  name.mapIdx (fun i b => (offset + i, b)) ++ [(offset + 100, 0x30)] ++
    [0x75, 0x73, 0x74, 0x61, 0x72].mapIdx (fun i b => (offset + 257 + i, b)) ++
    front.mapIdx (fun i b => (offset + 345 + i, b))

theorem short_name_seen : UstarHeader (sparse 0x1000 (ustarBytes 0 [0x61] [])) 0x1000 ∧
    insertedComponents (sparse 0x1000 (ustarBytes 0 [0x61] [])) 0x1000 =
      fullComponents (sparse 0x1000 (ustarBytes 0 [0x61] [])) 0x1000 := by
  have h : UstarHeader (sparse 0x1000 (ustarBytes 0 [0x61] [])) 0x1000 :=
    ⟨by decide, ⟨0, by decide⟩, by decide⟩
  exact ⟨h, (insertedComponents_eq_full_iff h).mpr (.inl ⟨by decide, .inl (by decide)⟩)⟩

/-- Two headers: `a` with the prefix `x`, and `a` with the prefix `y`. -/
def twoPrefixes : Mem := sparse 0x1000 (ustarBytes 0 [0x61] [0x78] ++ ustarBytes 512 [0x61] [0x79])

/-- The members `x/a` and `y/a` are both inserted under `a`. -/
theorem twoPrefixes_collide : UstarHeader twoPrefixes 0x1000 ∧ UstarHeader twoPrefixes 0x1200 ∧
    fullComponents twoPrefixes 0x1000 = some [kstring [0x78], kstring [0x61]] ∧
    fullComponents twoPrefixes 0x1200 = some [kstring [0x79], kstring [0x61]] ∧
    insertedComponents twoPrefixes 0x1000 = some [kstring [0x61]] ∧
    insertedComponents twoPrefixes 0x1200 = some [kstring [0x61]] := by
  have hins : ∀ header, filename twoPrefixes header = kstring [0x61] →
      insertedComponents twoPrefixes header = some [kstring [0x61]] := by
    intro header hname
    rw [insertedComponents_of_terminated (by rw [hname]; decide), hname]
    decide
  exact ⟨⟨by decide, ⟨0, by decide⟩, by decide⟩, ⟨by decide, ⟨0, by decide⟩, by decide⟩,
    by decide, by decide, hins _ (by decide), hins _ (by decide)⟩

end Initramfs

end Hltos
