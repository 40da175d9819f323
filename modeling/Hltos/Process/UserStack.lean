import Hltos.Lib.ByteMemory
import Hltos.Process.Overlap

/-!
# The first stack of a program

What `build_user_stack` leaves in memory, against the layout that a program expects: the number of
arguments, their pointers and a null, the pointers of the environment and a null, and the end of the
auxiliary vector. The stack is built downwards, so its contents are a list of bytes that grows at
the front.
-/

namespace Hltos

open Lib.Radix FrameAllocator Pte BitVec List Option

namespace Vmm

variable {σ : Type} [FrameAllocator σ] {s s' : Vmm σ} {q : Frame} {K : Set Frame}
  {read : Word → Option Byte} {a stack : Word} {bs cs content : List Byte} {w ptr : Word}
  {str content' : List Byte} {ptrs : List Word} {strs : List (List Byte)}

/-! ## Contents -/

/-- The bytes from an address on are those of a list. -/
def Holds (read : Word → Option Byte) (a : Word) (bytes : List Byte) : Prop :=
  ∀ i b, bytes[i]? = some b → read (a + BitVec.ofNat 64 i) = some b

theorem holds_append :
    Holds read a (bs ++ cs) ↔ Holds read a bs ∧ Holds read (a + BitVec.ofNat 64 bs.length) cs := by
  constructor
  · intro h
    refine ⟨fun i b hb => h i b ?_, fun i b hb => ?_⟩
    · rw [List.getElem?_append_left (List.getElem?_eq_some_iff.mp hb).1]
      exact hb
    · rw [BitVec.add_assoc, ← BitVec.ofNat_add]
      apply h
      rw [getElem?_append_right (Nat.le_add_right _ _), Nat.add_sub_cancel_left]
      exact hb
  · rintro ⟨hfirst, hrest⟩ i b hb
    by_cases hi : i < bs.length
    · rw [getElem?_append_left hi] at hb
      exact hfirst i b hb
    · rw [getElem?_append_right (Nat.not_lt.mp hi)] at hb
      have hread := hrest (i - bs.length) b hb
      rwa [BitVec.add_assoc, ← BitVec.ofNat_add, Nat.add_sub_cancel' (Nat.not_lt.mp hi)] at hread

theorem length_wordBytes (w : Word) : (wordBytes w).length = 8 := by
  rw [wordBytes, length_map, length_range]

theorem length_flatMap_wordBytes (ws : List Word) :
    (ws.flatMap wordBytes).length = 8 * ws.length := by
  simp [length_flatMap, length_wordBytes, Nat.mul_comm]

/-- Eight bytes are the bytes of one word only. -/
theorem Holds.word_eq {w' : Word}
    (h : Holds read a (wordBytes w)) (h' : Holds read a (wordBytes w')) : w = w' := by
  have hbyte (k : Nat) (hk : k < 8) : getByte w (8 * k) = getByte w' (8 * k) := by
    have hget (u : Word) : (wordBytes u)[k]? = some (getByte u (8 * k)) := by simp [wordBytes, hk]
    exact Option.some.inj ((h k _ (hget w)).symm.trans (h' k _ (hget w')))
  rw [← Lib.ByteMemory.append_bytes w, ← Lib.ByteMemory.append_bytes w']
  simp only [getByte] at hbyte
  rw [hbyte 0 (by decide), hbyte 1 (by decide), hbyte 2 (by decide), hbyte 3 (by decide),
    hbyte 4 (by decide), hbyte 5 (by decide), hbyte 6 (by decide), hbyte 7 (by decide)]

/-- A word of an array. -/
theorem Holds.word {ws : List Word} (h : Holds read a (ws.flatMap wordBytes)) {i : Nat}
    (hw : ws[i]? = some w) : Holds read (a + .ofNat 64 (8 * i)) (wordBytes w) := by
  induction ws generalizing a i with
  | nil => cases hw
  | cons v ws ih =>
    rw [flatMap_cons, holds_append, length_wordBytes] at h
    cases i with
    | zero =>
      cases hw
      rw [Nat.mul_zero, BitVec.add_zero]
      exact h.1
    | succ i =>
      have hnext := ih h.2 hw
      rwa [BitVec.add_assoc, ← BitVec.ofNat_add, Nat.add_comm 8, ← Nat.mul_succ] at hnext

omit [FrameAllocator σ] in
theorem storeBytes_append (s : Vmm σ) (q : Frame) (bs cs : List Byte) (a : Word) :
    s.storeBytes q (bs ++ cs) a =
      (s.storeBytes q bs a).bind fun s => s.storeBytes q cs (a + .ofNat 64 bs.length) := by
  induction bs generalizing s a with
  | nil => simp [storeBytes]
  | cons b bs ih =>
    rw [List.cons_append, storeBytes, storeBytes, List.length_cons]
    cases s.storeByte q a b with
    | none => rfl
    | some s1 =>
      simp only [bind_eq_bind, bind_some]
      rw [ih, succ_add]

/-! ## Pushing -/

/-- The stack holds these bytes, up to its top, and can be written further down. -/
structure Built (q : Frame) (content : List Byte) (stack : Word) (s : Vmm σ) : Prop where
  room : Room q 0x800000 stack s
  pointer : stack.toNat + content.length = 0x808000
  holds : Holds (fun v => s.loadByte q v) stack content

namespace Built

/-- Bytes are stored right below. -/
theorem store (h : Built q content stack s) (bs : List Byte)
    (hfit : content.length + bs.length ≤ 0x8000) :
    ∃ s', s.storeBytes q bs (stack - .ofNat 64 bs.length) = some s' ∧
      Built q (bs ++ content) (stack - .ofNat 64 bs.length) s' := by
  have hpointer := h.pointer
  have hroom : 0x800000 + bs.length ≤ stack.toNat := by omega
  have hsub := h.room.toNat_sub hroom
  obtain ⟨s', hs⟩ : ∃ s', s.storeBytes q bs (stack - .ofNat 64 bs.length) = some s' :=
    storeBytes_returns h.room.owns (fun k hk => h.room.accessible hroom hk)
  refine ⟨s', hs, h.room.stored (storeBytes_stored hs) hroom, ?_, holds_append.mpr ⟨?_, ?_⟩⟩
  · rw [hsub, length_append]
    omega
  · exact fun i b hb => storeBytes_loadByte h.room.owns (by omega) hs hb
  · -- what is there already is above
    rw [sub_add_cancel]
    intro i b hb
    have hi := (List.getElem?_eq_some_iff.mp hb).1
    have haddr : (stack + .ofNat 64 i).toNat = stack.toNat + i := toNat_add_ofNat (by omega)
    show s'.loadByte q (stack + .ofNat 64 i) = some b
    rw [(storeBytes_stored hs).loadByte_of_notMem h.room.owns
      (notMem_bytesFrom (by omega) (.inr (by omega)))]
    exact h.holds i b hb

theorem push (h : Built q content stack s) (value : Word) (hfit : content.length + 8 ≤ 0x8000) :
    ∃ stack' s', s.push q value stack = some (stack', s') ∧
        Built q (wordBytes value ++ content) stack' s' := by
  obtain ⟨s', hs, hbuilt⟩ := h.store (wordBytes value) (by rw [length_wordBytes]; exact hfit)
  exact ⟨_, s', bind_eq_some_iff.mpr ⟨s', hs, rfl⟩, hbuilt⟩

variable {ws : List Word}

/-- A word on top of others. -/
theorem pushWord (h : Built q (ws.flatMap wordBytes ++ content) stack s) (value : Word)
    (hfit : content.length + 8 * (ws.length + 1) ≤ 0x8000) :
    ∃ stack' s', s.push q value stack = some (stack', s') ∧
      Built q ((value :: ws).flatMap wordBytes ++ content) stack' s' := by
  apply h.push
  rw [length_append, length_flatMap_wordBytes]
  omega

theorem pushAll (values : List Word) (h : Built q (ws.flatMap wordBytes ++ content) stack s)
    (hfit : content.length + 8 * (ws.length + values.length) ≤ 0x8000) :
    ∃ stack' s', s.pushAll q values stack = some (stack', s') ∧
      Built q ((values.reverse ++ ws).flatMap wordBytes ++ content) stack' s' := by
  induction values generalizing stack s ws with
  | nil => exact ⟨stack, s, rfl, h⟩
  | cons value values ih =>
    rw [length_cons] at hfit
    obtain ⟨stack1, s1, h1, hb1⟩ := h.pushWord value (by omega)
    obtain ⟨stack', s', h', hb'⟩ := ih hb1 (by rw [length_cons]; omega)
    refine ⟨stack', s', bind_eq_some_iff.mpr ⟨_, h1, h'⟩, ?_⟩
    rw [List.reverse_cons, List.append_assoc, List.singleton_append]
    exact hb'

theorem pushString (h : Built q content stack s) (str : List Byte)
    (hfit : content.length + (str.length + 1) ≤ 0x8000) :
    ∃ ptr s', s.pushString q str stack = some (ptr, s') ∧
    Built q (str ++ [0] ++ content) ptr s' := by
  have hlen : (str ++ [0]).length = str.length + 1 := length_append
  obtain ⟨s', hs, hbuilt⟩ := h.store (str ++ [0]) (by rw [hlen]; exact hfit)
  rw [hlen] at hs hbuilt
  rw [storeBytes_append] at hs
  obtain ⟨s1, h1, hs⟩ := of_bind hs
  obtain ⟨s2, h2, hs⟩ := of_bind hs
  cases hs
  exact ⟨_, s', bind_eq_some_iff.mpr ⟨s1, h1, bind_eq_some_iff.mpr ⟨s', h2, rfl⟩⟩, hbuilt⟩

end Built

/-- A pointer into the stack, and the string with its terminator there. -/
def Points (content : List Byte) (ptr : Word) (str : List Byte) : Prop :=
  ∃ rest, str ++ [0] ++ rest <:+ content ∧ ptr.toNat + (str ++ [0] ++ rest).length = 0x808000

theorem Points.mono (h : Points content ptr str)
    (hsuffix : content <:+ content') : Points content' ptr str := by
  obtain ⟨rest, hrest, hptr⟩ := h
  exact ⟨rest, hrest.trans hsuffix, hptr⟩

theorem Built.holds_string (h : Built q content stack s) (hp : Points content ptr str) :
    Holds (fun v => s.loadByte q v) ptr (str ++ [0]) := by
  obtain ⟨rest, ⟨front, rfl⟩, hptr⟩ := hp
  have hpointer := h.pointer
  have hstart : stack + .ofNat 64 front.length = ptr := by
    apply eq_of_toNat_eq
    rw [length_append] at hpointer
    rw [toNat_add_ofNat (by omega)]
    omega
  have hholds := (holds_append.mp h.holds).2
  rw [hstart] at hholds
  exact (holds_append.mp hholds).1

/-! ## Strings -/

/-- A string and its terminator, as a range of addresses. -/
def piece (ptr : Word) (str : List Byte) : Nat × Nat := (ptr.toNat, str.length + 1)

/-- The strings are there, each one below the one before. -/
structure StringsAt (content : List Byte) (lo hi : Nat) (ptrs : List Word)
    (strs : List (List Byte)) : Prop where
  points : List.Forall₂ (Points content) ptrs strs
  apart : (List.zipWith piece ptrs strs).Pairwise fun x y => y.1 + y.2 ≤ x.1
  within : ∀ x ∈ List.zipWith piece ptrs strs, lo ≤ x.1 ∧ x.1 + x.2 ≤ hi

/-- The strings are pushed one after the other, each below the one before. -/
theorem Built.pushStrings (strs : List (List Byte)) (ptrs : List Word) (h : Built q content stack s)
    (hfit : content.length + stringBytes strs ≤ 0x8000) :
    ∃ new area stack' s', s.pushStrings q strs ptrs stack = some (ptrs ++ new, stack', s') ∧
      Built q (area ++ content) stack' s' ∧ area.length = stringBytes strs ∧
      StringsAt (area ++ content) stack'.toNat stack.toNat new strs := by
  induction strs generalizing stack s content ptrs with
  | nil =>
    refine ⟨[], [], stack, s, by rw [append_nil]; rfl, h, rfl, .nil, .nil, ?_⟩
    exact fun x hx => nomatch hx
  | cons str strs ih =>
    rw [stringBytes_cons] at hfit
    obtain ⟨ptr, s1, h1, hb1⟩ := h.pushString str (by omega)
    have hlen : (str ++ [0] ++ content).length = str.length + 1 + content.length := by
      rw [length_append, length_append, length_singleton]
    obtain ⟨new, area, stack', s', h', hb', harea, hstrings⟩ := ih (ptrs ++ [ptr]) hb1 (by omega)
    have hpointer := h.pointer
    have hptr := hb1.pointer
    have hpointer' := hb'.pointer
    rw [length_append] at hpointer'
    rw [append_assoc ptrs, singleton_append] at h'
    refine ⟨ptr :: new, area ++ (str ++ [0]), stack', s',
      bind_eq_some_iff.mpr ⟨_, h1, h'⟩, ?_, ?_, ?_⟩
    · rw [List.append_assoc]
      exact hb'
    · rw [stringBytes_cons, length_append, harea, length_append, length_singleton]
      omega
    · rw [List.append_assoc]
      refine ⟨.cons ⟨content, suffix_append _ _, hptr⟩ hstrings.points, ?_, ?_⟩
      · exact pairwise_cons.mpr ⟨fun y hy => (hstrings.within y hy).2, hstrings.apart⟩
      · intro x hx
        rcases mem_cons.mp hx with rfl | hx
        · show stack'.toNat ≤ ptr.toNat ∧ ptr.toNat + (str.length + 1) ≤ stack.toNat
          omega
        · have hx' := hstrings.within x hx
          omega

theorem StringsAt.mono {lo hi lo' hi' : Nat}
    (h : StringsAt content lo hi ptrs strs) (hsuffix : content <:+ content') (hlo : lo' ≤ lo)
    (hhi : hi ≤ hi') :
    StringsAt content' lo' hi' ptrs strs := by
  refine ⟨h.points.imp fun _ _ hp => hp.mono hsuffix, h.apart, fun x hx => ?_⟩
  have hx' := h.within x hx
  omega

/-- What `build_user_stack` leaves, from the stack pointer on: the pointers of both lists are in one
vector, the environment first. -/
structure Layout (q : Frame)
    (argv envp : List (List Byte)) (argvPtrs envpPtrs : List Word) (area : List Byte)
    (rsp : Word) (s : Vmm σ) : Prop where
  fit : stackBytes argv envp ≤ 0x8000
  built : Built q ((BitVec.ofNat 64 argv.length :: (envpPtrs ++ argvPtrs ++ [0, 0, 0, 0])).flatMap
    wordBytes ++ area)
    rsp s
  length : area.length = 8 + stringBytes envp + stringBytes argv
  argvAt : StringsAt area (0x808000 - area.length) 0x808000 argvPtrs argv
  envpAt : StringsAt area (0x808000 - area.length) 0x808000 envpPtrs envp

/-- If its pages can be mapped and it fits, the stack is built. -/
theorem buildUserStack_layout {s1 : Vmm σ} (ho : Owns anyHead q ∅ s)
    (hmap : s.mapUserPages q userStackBase userStackSize = some s1) (argv envp : List (List Byte))
    (hfit : stackBytes argv envp ≤ 0x8000) :
    ∃ argvPtrs envpPtrs area rsp s', s.buildUserStack q argv envp = some (rsp, s') ∧
      Layout q argv envp argvPtrs envpPtrs area rsp s' := by
  have hbytes := hfit
  rw [stackBytes] at hbytes
  have hfrom := mapUserPages_from hmap
  have hspec := mapPagesFrom_spec ho.tables (fun _ _ => trivial) hfrom
  have hbuilt : Built q [] userStackTop s1 := by
    refine ⟨⟨(mapPagesFrom_keeps ho (fun _ _ => trivial) hfrom).owns, by decide,
      fun v hlo hhi => ?_⟩, rfl, fun i b hb => by cases hb⟩
    have hcovers : Covers (pageStart userStackBase) (numPages userStackBase userStackSize).toNat
        v := by
      refine (covers_iff (by decide) (by decide) v).mpr ⟨v.toNat, hlo, hhi, ?_⟩
      rw [ofNat_toNat, setWidth_eq]
    obtain ⟨e, f, he, -⟩ := hspec.new v hcovers
    rw [he]
    exact some_ne_none e
  obtain ⟨a2, s2, h2, b2⟩ := hbuilt.push 0 (by decide)
  rw [append_nil] at b2
  have l2 := length_wordBytes 0
  obtain ⟨envpPtrs, envpArea, a3, s3, h3, b3, l3, henvp⟩ := b2.pushStrings envp [] (by omega)
  obtain ⟨argvPtrs, argvArea, a4, s4, h4, b4, l4, hargv⟩ := b3.pushStrings argv envpPtrs
    (by rw [length_append]; omega)
  generalize harea : argvArea ++ (envpArea ++ wordBytes 0) = area at b4 hargv
  have hlen : area.length = 8 + stringBytes envp + stringBytes argv := by
    rw [← harea, length_append, length_append]
    omega
  have hptrs : (envpPtrs ++ argvPtrs).length = envp.length + argv.length := by
    rw [length_append, henvp.points.length_eq, hargv.points.length_eq]
  have hwords : Built q (([] : List Word).flatMap wordBytes ++ area) a4 s4 := b4
  obtain ⟨a5, s5, h5, b5⟩ := hwords.pushAll [0, 0] (by simp only [List.length]; omega)
  rw [show [(0 : Word), 0].reverse ++ [] = [0, 0] from rfl] at b5
  obtain ⟨a6, s6, h6, b6⟩ := b5.pushWord 0 (by simp only [List.length]; omega)
  obtain ⟨a7, s7, h7, b7⟩ := b6.pushWord 0 (by simp only [List.length]; omega)
  obtain ⟨a8, s8, h8, b8⟩ := b7.pushAll (envpPtrs ++ argvPtrs).reverse
    (by rw [length_reverse, hptrs]; simp only [List.length]; omega)
  rw [reverse_reverse] at b8
  obtain ⟨rsp, s9, h9, b9⟩ := b8.pushWord (.ofNat 64 argv.length)
    (by rw [length_append, hptrs]; simp only [List.length]; omega)
  have hnone : ∀ (a : Word) (s : Vmm σ), s.pushAll q [] a = some (a, s) := fun _ _ => rfl
  refine ⟨argvPtrs, envpPtrs, area, rsp, s9, ?_, hfit, b9, hlen, ?_, ?_⟩
  · simp only [buildUserStack, hmap, h2, h3, h4, h5, h6, h7, h8, h9, reverse_nil, nil_append, hnone,
      bind_eq_bind, bind_some]
  · have htop := b4.pointer
    have hmid := b3.pointer
    exact hargv.mono suffix_rfl (by omega) (by omega)
  · have htop := b4.pointer
    have hmid := b2.pointer
    have hend := b3.pointer
    refine henvp.mono ?_ ?_ (by omega)
    · rw [← harea]
      exact suffix_append _ _
    · rw [length_append] at hend
      omega

theorem exists_points
    (h : List.Forall₂ (Points content) ptrs strs) (hptr : ptr ∈ ptrs) :
    ∃ str, Points content ptr str := by
  induction h with
  | nil => cases hptr
  | cons hp _ ih =>
    rcases mem_cons.mp hptr with rfl | hptr
    · exact ⟨_, hp⟩
    · exact ih hptr

/-! ## What a program expects -/

/-- The vectors and the strings, as ranges of addresses. -/
def pieces (rsp : Word) (ptrs : List Word) (strs : List (List Byte)) : List (Nat × Nat) :=
  (rsp.toNat, 8 * (strs.length + 5)) :: List.zipWith piece ptrs strs

/-- The stack of a new program, as the ABI has it. -/
structure AbiStack (read : Word → Option Byte) (rsp : Word) (argv envp : List (List Byte)) :
    Prop where
  vectors : ∃ argvPtrs envpPtrs : List Word, argvPtrs.length = argv.length ∧
    envpPtrs.length = envp.length ∧
    Holds read rsp ((BitVec.ofNat 64 argv.length ::
      (argvPtrs ++ 0 :: (envpPtrs ++ [0, 0, 0]))).flatMap wordBytes) ∧
    List.Forall₂ (fun ptr str =>
      Holds read ptr (str ++ [0])) (argvPtrs ++ envpPtrs) (argv ++ envp) ∧
    (pieces rsp (argvPtrs ++ envpPtrs) (argv ++ envp)).Pairwise
      (fun x y => x.1 + x.2 ≤ y.1 ∨ y.1 + y.2 ≤ x.1) ∧
    ∀ x ∈ pieces rsp (argvPtrs ++ envpPtrs) (argv ++ envp),
      userStackBase.toNat ≤ x.1 ∧ x.1 + x.2 ≤ userStackTop.toNat
  aligned : rsp.toNat % 16 = 0

namespace Layout

variable {argv envp : List (List Byte)} {argvPtrs envpPtrs : List Word} {area : List Byte}
  {rsp : Word}

section

variable (h : Layout q argv envp argvPtrs envpPtrs area rsp s)

include h

theorem rsp_eq : rsp.toNat + stackBytes argv envp = 0x808000 := by
  have hpointer := h.built.pointer
  have hargv := h.argvAt.points.length_eq
  have henvp := h.envpAt.points.length_eq
  rw [length_append, length_flatMap_wordBytes, length_cons, length_append, length_append, h.length]
    at hpointer
  rw [stackBytes]
  simp only [List.length] at hpointer
  omega

/-- No pointer is null. -/
theorem ptr_ne_zero {ptr : Word} (hptr : ptr ∈ envpPtrs ++ argvPtrs) : ptr ≠ 0 := by
  obtain ⟨str, rest, hsuffix, heq⟩ : ∃ str, Points area ptr str := by
    rcases mem_append.mp hptr with hmem | hmem
    · exact exists_points h.envpAt.points hmem
    · exact exists_points h.argvAt.points hmem
  have hlen := hsuffix.length_le
  have hfit := h.fit
  have harea := h.length
  rw [stackBytes] at hfit
  rintro rfl
  rw [show (0 : Word).toNat = 0 from rfl] at heq
  omega

/-- Behind as many pointers as there are arguments there is another one, if there is an environment.
-/
theorem envp_eq_nil (habi : AbiStack (fun v => s.loadByte q v) rsp argv envp) : envp = [] := by
  obtain ⟨ptrs, ptrs', hlen, -, hwords, -⟩ := habi.vectors
  by_contra hne
  have hpos := length_pos_iff.mpr hne
  have hargv := h.argvAt.points.length_eq
  have henvp := h.envpAt.points.length_eq
  have hlt : argv.length < (envpPtrs ++ argvPtrs).length := by
    rw [length_append]
    omega
  obtain ⟨ptr, hptr⟩ : ∃ ptr, (envpPtrs ++ argvPtrs)[argv.length]? = some ptr :=
    ⟨_, getElem?_eq_getElem hlt⟩
  have hcode : (.ofNat 64 argv.length :: (envpPtrs ++ argvPtrs ++ [0, 0, 0, 0]))[argv.length + 1]? =
      some ptr := by
    rw [getElem?_cons_succ, getElem?_append_left hlt]
    exact hptr
  have hnull : (.ofNat 64 argv.length :: (ptrs ++ 0 :: (ptrs' ++ [0, 0, 0])))[argv.length + 1]? =
      some 0 := by
    rw [getElem?_cons_succ, ← hlen, getElem?_append_right (Nat.le_refl _),
      Nat.sub_self, getElem?_cons_zero]
  have hword := (holds_append.mp h.built.holds).1.word hcode
  exact h.ptr_ne_zero (mem_of_getElem? hptr) (hword.word_eq (hwords.word hnull))

end

/-- Without an environment everything is in its place; what is left is the alignment. -/
theorem abi (h : Layout q argv [] argvPtrs envpPtrs area rsp s) (halign : rsp.toNat % 16 = 0) :
    AbiStack (fun v => s.loadByte q v) rsp argv [] := by
  obtain rfl : envpPtrs = [] := eq_nil_of_length_eq_zero h.envpAt.points.length_eq
  have hrsp := h.rsp_eq
  have hfit := h.fit
  have harea := h.length
  have hstack : stackBytes argv [] = 48 + stringBytes argv + 8 * argv.length := by
    simp [stackBytes, stringBytes]
  rw [show stringBytes [] = 0 from rfl] at harea
  refine ⟨⟨argvPtrs, [], h.argvAt.points.length_eq, rfl, ?_, ?_, ?_, ?_⟩, halign⟩
  · have hwords := (holds_append.mp h.built.holds).1
    rwa [nil_append, show [(0 : Word), 0, 0, 0] = 0 :: ([] ++ [0, 0, 0]) from rfl] at hwords
  · rw [append_nil, append_nil]
    exact h.argvAt.points.imp fun _ _ hp => h.built.holds_string (hp.mono (suffix_append _ _))
  · rw [append_nil, append_nil]
    refine pairwise_cons.mpr ⟨fun y hy => .inl ?_, h.argvAt.apart.imp .inr⟩
    have hy' := (h.argvAt.within y hy).1
    omega
  · rw [append_nil, append_nil, show userStackBase.toNat = 0x800000 from rfl,
      show userStackTop.toNat = 0x808000 from rfl]
    intro x hx
    rcases mem_cons.mp hx with rfl | hx
    · omega
    · have hx' := h.argvAt.within x hx
      omega

theorem abi_iff (h : Layout q argv envp argvPtrs envpPtrs area rsp s) :
    AbiStack (fun v => s.loadByte q v) rsp argv envp ↔
      envp = [] ∧ (stringBytes argv + 8 * argv.length) % 16 = 0 := by
  have hrsp := h.rsp_eq
  have hstack : stackBytes argv [] = 48 + stringBytes argv + 8 * argv.length := by
    simp [stackBytes, stringBytes]
  constructor
  · intro habi
    obtain rfl := h.envp_eq_nil habi
    have halign := habi.aligned
    exact ⟨rfl, by omega⟩
  · rintro ⟨rfl, halign⟩
    exact h.abi (by omega)

end Layout

/-- **The first stack**: whatever the strings are, as long as they fit, the stack is built; it has
the layout of the ABI exactly if there is no environment, and the arguments with their terminators
and pointers take a multiple of sixteen bytes. -/
theorem buildUserStack_abi_iff {s s1 : Vmm σ} {q : Frame} (ho : Owns anyHead q ∅ s)
    (hmap : s.mapUserPages q userStackBase userStackSize = some s1) (argv envp : List (List Byte))
    (hfit : stackBytes argv envp ≤ userStackSize.toNat) :
    ∃ rsp s', s.buildUserStack q argv envp = some (rsp, s') ∧
      (AbiStack (fun v => s'.loadByte q v) rsp argv envp ↔
        envp = [] ∧ (stringBytes argv + 8 * argv.length) % 16 = 0) := by
  obtain ⟨argvPtrs, envpPtrs, area, rsp, s', hrun, hlayout⟩ :=
    buildUserStack_layout ho hmap argv envp hfit
  exact ⟨rsp, s', hrun, hlayout.abi_iff⟩

/-- A new address space whose stack can be mapped. -/
theorem exists_newSpace : ∃ (s s1 : Vmm FramePool) (q : Frame), Owns anyHead q ∅ s ∧
    s.mapUserPages q userStackBase userStackSize = some s1 := by
  have hrun : (fileVmm (elfWords 0x400000)).map (fileCheck (elfWords 0x400000)) = some true := by
    decide +kernel
  obtain ⟨s, hfile, hcheck⟩ := map_eq_some_iff.mp hrun
  obtain ⟨-, hready, hfree⟩ := ready_of_fileCheck hfile hcheck (by decide)
  have hpool : CanAlloc (32 + 1) s.pmm := canAlloc_framePool (by omega)
  obtain ⟨q, s1, hcreate, hcan⟩ := createUserPml4_returns hpool
  have howns : Owns anyHead q ∅ s1 := hready.kernel.owns_newRoot
    (createUserPml4_spec hready.kernel.root_mem hcreate) (Set.empty_subset _)
    (fun f hf => absurd hf (Set.notMem_empty f))
  obtain ⟨s2, hmap, -⟩ : ∃ s2,
    s1.mapPages q userStackBase userStackSize (pageUser ||| pageWrite) = some s2 ∧
    CanAlloc 0 s2.pmm := mapPages_returns q _ (by decide) (by decide) hcan
  exact ⟨s1, s2, q, howns, hmap⟩

/-- With the one argument `"a"` the stack pointer is not aligned. With an argument of seven bytes it
is, but an environment string takes the place of the argument. -/
theorem buildUserStack_not_abi :
    ∃ (s : Vmm FramePool) (q : Frame) (rsp rsp' : Word) (s1 s2 s' : Vmm FramePool),
    Owns anyHead q ∅ s ∧ s.mapUserPages q userStackBase userStackSize = some s' ∧
    s.buildUserStack q [[0x61]] [] = some (rsp, s1) ∧
      ¬ AbiStack (fun v => s1.loadByte q v) rsp [[0x61]] [] ∧
    s.buildUserStack q [List.replicate 7 0x61] [List.replicate 7 0x62] = some (rsp', s2) ∧
    ¬ AbiStack (fun v => s2.loadByte q v) rsp' [List.replicate 7 0x61] [List.replicate 7 0x62] := by
  obtain ⟨s, s', q, howns, hmap⟩ := exists_newSpace
  obtain ⟨_, _, _, rsp, s1, hrun, hlayout⟩ :=
    buildUserStack_layout howns hmap [[0x61]] [] (by decide)
  obtain ⟨_, _, _, rsp', s2, hrun', hlayout'⟩ :=
    buildUserStack_layout howns hmap [replicate 7 0x61] [replicate 7 0x62] (by decide)
  refine ⟨s, q, rsp, rsp', s1, s2, s', howns, hmap, hrun, fun habi => ?_, hrun', fun habi => ?_⟩
  · exact absurd (hlayout.abi_iff.mp habi).2 (by decide)
  · exact absurd (hlayout'.abi_iff.mp habi).1 (by decide)

/-- An argument of seven bytes. -/
theorem buildUserStack_sevenBytes :
    ∃ (s : Vmm FramePool) (q : Frame) (rsp : Word) (s' : Vmm FramePool),
    s.buildUserStack q [List.replicate 7 0x61] [] = some (rsp, s') ∧
      AbiStack (fun v => s'.loadByte q v) rsp [List.replicate 7 0x61] [] := by
  obtain ⟨s, s1, q, howns, hmap⟩ := exists_newSpace
  obtain ⟨rsp, s', hrun, hiff⟩ :=
    buildUserStack_abi_iff howns hmap [replicate 7 0x61] [] (by decide)
  exact ⟨s, q, rsp, s', hrun, hiff.mpr ⟨rfl, by decide⟩⟩

end Vmm

end Hltos
