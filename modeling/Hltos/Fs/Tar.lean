import Hltos.Lib.ByteMemory
import Hltos.Fs.Vfs

/-!
# Headers of a tar image

The image lies in memory, and a `TarHeader*` is the address of a header. The fields that the kernel
reads are the name, the size and the type; it steps from one header to the next by the size of the
data between them, rounded up to whole blocks.
-/

namespace Hltos

open Option

open Lib.ByteMemory (Mem)

namespace Fmt

/-- `number_format_divisor(NumberFormat::OCT)` -/
def octDivisor : Word := 8

/-- The loop of `parse_uint` with the number read so far. `str[i] - '0'` is an `int`, so a character
below `'0'` makes it negative. -/
def parseUintFrom (m : Mem) (divisor : Word) : Nat → Word → Word → Word
  | 0, _, result => result
  | len + 1, str, result =>
    if m str = 0 then result
    else parseUintFrom m divisor len (str + 1) (result * divisor + ((m str).signExtend 64 - 0x30))

def parseUint (m : Mem) (str : Word) (len : Nat) (divisor : Word) : Word :=
  parseUintFrom m divisor len str 0

end Fmt

/-- The characters from an address up to the first NUL, if there is one among the next `n`. -/
def cStringFrom (m : Mem) : Nat → Word → Option KString
  | 0, _ => none
  | n + 1, a => if h : m a ≠ 0 then (cStringFrom m n (a + 1)).map (⟨m a, h⟩ :: ·) else some []

/-- What `kstring_view{str}` shows. `strlen` returns if there is a NUL anywhere in memory. -/
def cString (m : Mem) (str : Word) : Option KString := cStringFrom m (2 ^ 64) str

section CString

variable {m : Mem} {a : Word} {n k : Nat} {str : KString}

theorem cStringFrom_eq_some (h : cStringFrom m n a = some str) :
    str.length < n ∧ m (a + .ofNat 64 str.length) = 0 := by
  induction n generalizing a str with
  | zero => cases h
  | succ n ih =>
    rw [cStringFrom] at h
    split at h
    · obtain ⟨rest, hrest, rfl⟩ := map_eq_some_iff.mp h
      obtain ⟨hlen, hnul⟩ := ih hrest
      refine ⟨by simpa using hlen, ?_⟩
      rwa [show a + 1 + .ofNat 64 rest.length = a + .ofNat 64 (rest.length + 1) by bv_omega]
        at hnul
    · next ha =>
      cases h
      simpa using ha

/-- More bytes to look at change nothing once there is a NUL. -/
theorem cStringFrom_of_lt (h : cStringFrom m n a = some str) (hk : str.length < k) :
    cStringFrom m k a = some str := by
  induction n generalizing a k str with
  | zero => cases h
  | succ n ih =>
    obtain ⟨k, rfl⟩ : ∃ l, k = l + 1 := ⟨k - 1, by omega⟩
    rw [cStringFrom] at h ⊢
    split at h
    · next ha =>
      obtain ⟨rest, hrest, rfl⟩ := map_eq_some_iff.mp h
      rw [dif_pos ha, ih hrest (by simpa using hk)]
      rfl
    · next ha =>
      rw [dif_neg ha]
      exact h

theorem cString_of_eq_zero (h : m a = 0) : cString m a = some [] := by
  rw [cString, show 2 ^ 64 = 2 ^ 64 - 1 + 1 by decide, cStringFrom, dif_neg (by simpa using h)]

/-- The bound of `cString` never shows: before it is met, the string has come round to `a`. -/
theorem cString_of_ne_zero (h : m a ≠ 0) :
    cString m a = (cString m (a + 1)).map (⟨m a, h⟩ :: ·) := by
  have hbound : cStringFrom m (2 ^ 64 - 1) (a + 1) = cString m (a + 1) := by
    cases hs : cString m (a + 1) with
    | none =>
      cases hs' : cStringFrom m (2 ^ 64 - 1) (a + 1) with
      | none => rfl
      | some str =>
        have hlen := (cStringFrom_eq_some hs').1
        rw [cString, cStringFrom_of_lt hs' (by omega)] at hs
        exact hs
    | some str =>
      obtain ⟨hlen, hnul⟩ := cStringFrom_eq_some hs
      apply cStringFrom_of_lt hs
      by_contra hge
      apply h
      rw [← hnul]
      congr 1
      bv_omega
  rw [cString, show 2 ^ 64 = 2 ^ 64 - 1 + 1 by decide, cStringFrom, dif_pos h, hbound]

theorem cString_eq_nil_iff : cString m a = some [] ↔ m a = 0 := by
  constructor
  · intro h
    by_contra ha
    rw [cString_of_ne_zero ha] at h
    simp at h
  · exact cString_of_eq_zero

theorem cString_eq_cons_iff {c : KChar} :
    cString m a = some (c :: str) ↔ m a = c.1 ∧ cString m (a + 1) = some str := by
  by_cases ha : m a = 0
  · rw [cString_of_eq_zero ha]
    constructor
    · intro h
      cases h
    · rintro ⟨hc, -⟩
      exact absurd (hc ▸ ha) c.2
  · rw [cString_of_ne_zero ha]
    simp [Subtype.ext_iff, and_comm]

end CString

/-- The characters of a field: up to its first NUL, or all of them. -/
def fieldString (m : Mem) : Nat → Word → KString
  | 0, _ => []
  | n + 1, a => if h : m a ≠ 0 then ⟨m a, h⟩ :: fieldString m n (a + 1) else []

theorem length_fieldString_le (m : Mem) (n : Nat) (a : Word) : (fieldString m n a).length ≤ n := by
  induction n generalizing a with
  | zero => exact Nat.le_refl 0
  | succ n ih =>
    rw [fieldString]
    split
    · simpa using ih (a + 1)
    · exact Nat.zero_le _

/-- A field that has a NUL is a C string. -/
theorem cString_of_terminated {m : Mem} {n : Nat} {a : Word} (h : (fieldString m n a).length < n) :
    cString m a = some (fieldString m n a) := by
  induction n generalizing a with
  | zero => cases h
  | succ n ih =>
    rw [fieldString] at h ⊢
    split
    · next ha =>
      rw [dif_pos ha] at h
      rw [cString_of_ne_zero ha, ih (by simpa using h)]
      rfl
    · next ha => exact cString_of_eq_zero (by simpa using ha)

/-- A field that has none runs into what is behind it. -/
theorem cString_of_full {m : Mem} {n : Nat} {a : Word} (h : (fieldString m n a).length = n) :
    cString m a = (cString m (a + .ofNat 64 n)).map (fieldString m n a ++ ·) := by
  induction n generalizing a with
  | zero => simp [fieldString]
  | succ n ih =>
    rw [fieldString] at h ⊢
    split
    · next ha =>
      rw [dif_pos ha] at h
      rw [cString_of_ne_zero ha, ih (by simpa using h), Option.map_map,
        show a + 1 + .ofNat 64 n = a + .ofNat 64 (n + 1) by bv_omega]
      rfl
    · next ha =>
      rw [dif_neg ha] at h
      cases h

namespace Tar

/-! ### The fields of a header -/

def typeflagDir : Byte := 0x35

/-- `header->size` -/
def sizeField (m : Mem) (header : Word) : Word := Fmt.parseUint m (header + 124) 12 Fmt.octDivisor

def typeflag (m : Mem) (header : Word) : Byte := m (header + 156)

def numBlocks (m : Mem) (header : Word) : Word := (sizeField m header + 511) / 512

/-- The header after this one. -/
def nextHeader (m : Mem) (header : Word) : Word := header + (512 + numBlocks m header * 512)

def isEmptyHeader (m : Mem) (header : Word) : Bool := m header = 0

/-- The name under which a member is inserted; none if the header is passed over. -/
def memberName (m : Mem) (header : Word) : Option Word :=
  if isEmptyHeader m header then none
  else if m header = 0x2E ∧ m (header + 1) = 0 then none
  else
    let filename := if m header = 0x2E ∧ m (header + 1) = 0x2F then header + 2 else header
    if m filename = 0 then none else some filename

/-! ### The name of a member -/

variable {m : Mem} {header : Word} {c : KChar} {name : KString} {v : Nat} {digits : List (Fin 8)}

theorem memberName_eq_some {filename : Word} (h : memberName m header = some filename) :
    filename = header ∨ m header = 0x2E ∧ m (header + 1) = 0x2F ∧ filename = header + 2 := by
  simp only [memberName] at h
  by_cases hdot : m header = 0x2E ∧ m (header + 1) = 0x2F
  · simp only [if_pos hdot, ite_none_left_eq_some, some.injEq] at h
    exact .inr ⟨hdot.1, hdot.2, h.2.2.2.symm⟩
  · simp only [if_neg hdot, ite_none_left_eq_some, some.injEq] at h
    exact .inl h.2.2.2.symm

/-- `"./"` -/
def dotSlash : KString := kstring [0x2E, 0x2F]

/-- A name without a leading `"./"`. -/
def stripDot : KString → KString
  | c :: d :: name => if c.1 = 0x2E ∧ d.1 = 0x2F then name else c :: d :: name
  | name => name

/-- The names that are passed over. -/
def PassedOver (name : KString) : Prop := name = [] ∨ name = dot ∨ name = dotSlash

instance (name : KString) : Decidable (PassedOver name) :=
  inferInstanceAs (Decidable (name = [] ∨ name = dot ∨ name = dotSlash))

theorem passedOver_singleton : PassedOver [c] ↔ c.1 = 0x2E := by
  rw [PassedOver, show dot = [⟨0x2E, by decide⟩] from rfl,
    show dotSlash = [⟨0x2E, by decide⟩, ⟨0x2F, by decide⟩] from rfl]
  simp only [List.cons.injEq, Subtype.ext_iff]
  simp

theorem passedOver_cons_cons {d : KChar} :
    PassedOver (c :: d :: name) ↔ (c.1 = 0x2E ∧ d.1 = 0x2F) ∧ name = [] := by
  rw [PassedOver, show dot = [⟨0x2E, by decide⟩] from rfl,
    show dotSlash = [⟨0x2E, by decide⟩, ⟨0x2F, by decide⟩] from rfl]
  simp only [List.cons.injEq, Subtype.ext_iff]
  simp [and_assoc]

/-- A member is inserted under its name without the `"./"`. -/
theorem memberName_of_cString (h : cString m header = some name) :
    (PassedOver name ∧ memberName m header = none) ∨ (¬ PassedOver name ∧
      ∃ filename, memberName m header = some filename ∧
      cString m filename = some (stripDot name)) := by
  unfold memberName
  match name with
  | [] => exact .inl ⟨.inl rfl, if_pos (decide_eq_true (cString_eq_nil_iff.mp h))⟩
  | [c] =>
    obtain ⟨hc, hnul⟩ := cString_eq_cons_iff.mp h
    rw [cString_eq_nil_iff] at hnul
    have hhead : ¬ isEmptyHeader m header := fun he => c.2 (hc ▸ of_decide_eq_true he)
    rw [if_neg hhead, passedOver_singleton, hc, hnul]
    by_cases hdot : c.1 = 0x2E
    · exact .inl ⟨hdot, if_pos ⟨hdot, rfl⟩⟩
    · refine .inr ⟨hdot, header, ?_, h⟩
      have hdot' : ¬ (c.1 = 0x2E ∧ (0 : Byte) = 0x2F) := fun hd => hdot hd.1
      simp only [if_neg hdot']
      rw [if_neg (fun hd => hdot hd.1), if_neg (hc ▸ c.2)]
  | c :: d :: name =>
    obtain ⟨hc, hrest⟩ := cString_eq_cons_iff.mp h
    obtain ⟨hd, hname⟩ := cString_eq_cons_iff.mp hrest
    rw [BitVec.add_assoc] at hname
    have hhead : ¬ isEmptyHeader m header := fun he => c.2 (hc ▸ of_decide_eq_true he)
    rw [if_neg hhead, passedOver_cons_cons, hc, hd, if_neg (fun hdot => d.2 hdot.2), stripDot]
    by_cases hdot : c.1 = 0x2E ∧ d.1 = 0x2F
    · simp only [if_pos hdot]
      cases name with
      | nil => exact .inl ⟨⟨hdot, rfl⟩, if_pos (cString_eq_nil_iff.mp hname)⟩
      | cons e name =>
        refine .inr ⟨fun hn => List.cons_ne_nil e name hn.2, header + 2, ?_, hname⟩
        exact if_neg (fun he => e.2 ((cString_eq_cons_iff.mp hname).1 ▸ he))
    · simp only [if_neg hdot]
      exact .inr ⟨fun hn => hdot hn.1, header, if_neg (hc ▸ c.2), h⟩

/-! ### The size of a member -/

/-- Octal digits, ended by a NUL. -/
def OctalAt (m : Mem) : Word → List (Fin 8) → Prop
  | a, [] => m a = 0
  | a, d :: digits => m a = 0x30 + BitVec.ofNat 8 d ∧ OctalAt m (a + 1) digits

instance decidableOctalAt (m : Mem) : ∀ a digits, Decidable (OctalAt m a digits)
  | a, [] => inferInstanceAs (Decidable (m a = 0))
  | a, d :: digits =>
    have := decidableOctalAt m (a + 1) digits
    inferInstanceAs (Decidable (m a = 0x30 + BitVec.ofNat 8 d ∧ OctalAt m (a + 1) digits))

/-- The number that digits stand for, behind the digits of `v`. -/
def octalFrom (v : Nat) (digits : List (Fin 8)) : Nat := digits.foldl (fun v d => v * 8 + d.1) v

theorem octalFrom_lt {k : Nat} (h : v < 8 ^ k) : octalFrom v digits < 8 ^ (k + digits.length) := by
  induction digits generalizing v k with
  | nil => exact h
  | cons d digits ih =>
    have hv : v * 8 + d < 8 ^ (k + 1) := by omega
    have := ih hv
    rwa [Nat.add_right_comm, Nat.add_assoc] at this

theorem octal_byte : ∀ d : Fin 8, (0x30 + BitVec.ofNat 8 d : Byte) ≠ 0 ∧
    (0x30 + .ofNat 8 d : Byte).signExtend 64 - 0x30 = .ofNat 64 d := by
  decide

theorem parseUintFrom_octal {a : Word} {len : Nat} (h : OctalAt m a digits)
    (hlen : digits.length ≤ len) :
    Fmt.parseUintFrom m Fmt.octDivisor len a (.ofNat 64 v) =
      .ofNat 64 (octalFrom v digits) := by
  induction digits generalizing a len v with
  | nil =>
    cases len with
    | zero => rfl
    | succ len => exact if_pos h
  | cons d digits ih =>
    obtain ⟨len, rfl⟩ : ∃ l, len = l + 1 := ⟨len - 1, by simp at hlen; omega⟩
    obtain ⟨hd, hrest⟩ := h
    obtain ⟨hne, hdigit⟩ := octal_byte d
    rw [Fmt.parseUintFrom, hd, if_neg hne, hdigit]
    have hv : .ofNat 64 v * Fmt.octDivisor + .ofNat 64 d.1 = .ofNat 64 (v * 8 + d.1) := by
      rw [BitVec.ofNat_add, BitVec.ofNat_mul]
      rfl
    rw [hv]
    exact ih hrest (by simpa using hlen)

end Tar

end Hltos
