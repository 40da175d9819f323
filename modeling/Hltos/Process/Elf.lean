import Hltos.Basic

/-!
# ELF files

`elf.cpp`. The file is read where it lies, at an address and through a function that may fault;
`none` is a fault or a panic. The fields of the two headers are read at their offsets, little-endian
and as the code comes to them. `size` is not looked at.
-/

namespace Hltos

/-- `Elf64_ProgramHeader`. -/
structure Elf64ProgramHeader where
  pType : Word
  pFlags : Word
  pOffset : Word
  pVaddr : Word
  pPaddr : Word
  pFilesz : Word
  pMemsz : Word
  pAlign : Word
  deriving DecidableEq, Repr

/-- `Elf64_File`. -/
structure Elf64File where
  isValidElf : Bool
  entry : Word
  programHeaders : List Elf64ProgramHeader
  deriving DecidableEq, Repr

namespace Elf

section Read

variable (read : Word → Option Byte)

/-- An unsigned field of `n` bytes. -/
def readField : Nat → Word → Option Word
  | 0, _ => some 0
  | n + 1, a => do
    let low ← read a
    let high ← readField n (a + 1)
    return low.setWidth 64 ||| (high <<< 8)

def validateMagic (header : Word) : Option Bool := do
  if (← read header) ≠ 0x7F then return false
  else if (← read (header + 1)) ≠ 0x45 then return false
  else if (← read (header + 2)) ≠ 0x4C then return false
  else return (← read (header + 3)) == 0x46

/-- `e_ident[EI_CLASS] == ELFCLASS64` -/
def validateClass (header : Word) : Option Bool := do return (← read (header + 4)) == 2

/-- `e_machine == EM_X86_64` -/
def validateMachine (header : Word) : Option Bool := do
  return (← readField read 2 (header + 18)) == 0x3E

/-- `e_type == ET_EXEC` -/
def validateType (header : Word) : Option Bool := do
  return (← readField read 2 (header + 16)) == 2

def eEntry (header : Word) : Option Word := readField read 8 (header + 24)

def ePhoff (header : Word) : Option Word := readField read 8 (header + 32)

def ePhentsize (header : Word) : Option Word := readField read 2 (header + 54)

def ePhnum (header : Word) : Option Word := readField read 2 (header + 56)

def ptLoad : Word := 1

/-- `*phdr` -/
def readProgramHeader (addr : Word) : Option Elf64ProgramHeader := do
  return {
    pType := ← readField read 4 addr
    pFlags := ← readField read 4 (addr + 4)
    pOffset := ← readField read 8 (addr + 8)
    pVaddr := ← readField read 8 (addr + 16)
    pPaddr := ← readField read 8 (addr + 24)
    pFilesz := ← readField read 8 (addr + 32)
    pMemsz := ← readField read 8 (addr + 40)
    pAlign := ← readField read 8 (addr + 48) }

/-- The loop of `parse_file` over the program headers, from the `i`-th on: those to be loaded. -/
def loadHeaders (buffer : Word) : Nat → Word → Option (List Elf64ProgramHeader)
  | 0, _ => some []
  | n + 1, i => do
    let addr := buffer + (← ePhoff read buffer) + i * (← ePhentsize read buffer)
    if (← readField read 4 addr) ≠ ptLoad then loadHeaders buffer n (i + 1)
    else
      let header ← readProgramHeader read addr
      return header :: (← loadHeaders buffer n (i + 1))

def parseFile (buffer : Word) : Option Elf64File := do
  if buffer = 0 then none
  else if !(← validateMagic read buffer) then none
  else if !(← validateClass read buffer) then none
  else if !(← validateMachine read buffer) then none
  else if !(← validateType read buffer) then none
  else
    let entry ← eEntry read buffer
    let headers ← loadHeaders read buffer (← ePhnum read buffer).toNat 0
    return ⟨!headers.isEmpty, entry, headers⟩

end Read

/-! ## Another reader -/

/-- What returns on the left returns the same on the right. -/
def Below {α : Type} (x y : Option α) : Prop := ∀ a, x = some a → y = some a

theorem Below.refl {α : Type} (x : Option α) : Below x x := fun _ h => h

theorem Below.bind {α β : Type} {x y : Option α} {f g : α → Option β} (h : Below x y)
    (hf : ∀ a, Below (f a) (g a)) : Below (x >>= f) (y >>= g) := by
  intro b hb
  obtain ⟨a, ha, hb⟩ := of_bind hb
  exact Option.bind_eq_some_iff.mpr ⟨a, h a ha, hf a b hb⟩

theorem Below.ite {α : Type} {c : Prop} [Decidable c] {x x' y y' : Option α} (h : Below x y)
    (h' : Below x' y') : Below (if c then x else x') (if c then y else y') := by
  split
  · exact h
  · exact h'

section Mono

variable {read read' : Word → Option Byte} (h : ∀ v, Below (read v) (read' v))

include h

theorem readField_mono (n : Nat) (a : Word) : Below (readField read n a) (readField read' n a) := by
  induction n generalizing a with
  | zero => exact .refl _
  | succ n ih => exact (h a).bind (fun _ => (ih (a + 1)).bind (fun _ => .refl _))

theorem readProgramHeader_mono (a : Word) :
    Below (readProgramHeader read a) (readProgramHeader read' a) :=
  (readField_mono h 4 _).bind fun _ => (readField_mono h 4 _).bind fun _ =>
    (readField_mono h 8 _).bind fun _ => (readField_mono h 8 _).bind fun _ =>
    (readField_mono h 8 _).bind fun _ => (readField_mono h 8 _).bind fun _ =>
    (readField_mono h 8 _).bind fun _ => (readField_mono h 8 _).bind fun _ => .refl _

theorem loadHeaders_mono (buffer : Word) (n : Nat) (i : Word) :
    Below (loadHeaders read buffer n i) (loadHeaders read' buffer n i) := by
  induction n generalizing i with
  | zero => exact .refl _
  | succ n ih =>
    refine (readField_mono h 8 _).bind fun _ => (readField_mono h 2 _).bind fun _ =>
      (readField_mono h 4 _).bind fun _ => .ite (ih _) ?_
    exact (readProgramHeader_mono h _).bind fun _ => (ih _).bind fun _ => .refl _

theorem validateMagic_mono (a : Word) : Below (validateMagic read a) (validateMagic read' a) :=
  (h _).bind fun _ => .ite (.refl _) <| (h _).bind fun _ => .ite (.refl _) <|
    (h _).bind fun _ => .ite (.refl _) <| (h _).bind fun _ => .refl _

/-- A file that can be parsed is parsed alike by a reader that sees more. -/
theorem parseFile_mono (buffer : Word) : Below (parseFile read buffer) (parseFile read' buffer) :=
  .ite (.refl _) <| (validateMagic_mono h _).bind fun _ => .ite (.refl _) <|
    ((h _).bind fun _ => .refl _).bind fun _ => .ite (.refl _) <|
    ((readField_mono h 2 _).bind fun _ => .refl _).bind fun _ => .ite (.refl _) <|
    ((readField_mono h 2 _).bind fun _ => .refl _).bind fun _ => .ite (.refl _) <|
    (readField_mono h 8 _).bind fun _ => (readField_mono h 2 _).bind fun _ =>
    (loadHeaders_mono h _ _ _).bind fun _ => .refl _

end Mono

/-- A file is valid if there is something to load. -/
theorem parseFile_isValidElf {read : Word → Option Byte} {buffer : Word} {file : Elf64File}
    (h : parseFile read buffer = some file) : file.isValidElf = !file.programHeaders.isEmpty := by
  simp only [parseFile, Option.bind_eq_bind, Option.ite_none_left_eq_some,
    Option.bind_eq_some_iff] at h
  obtain ⟨-, -, -, -, -, -, -, -, -, -, -, -, -, entry, -, num, -, headers, -, h⟩ := h
  cases h
  rfl

end Elf

end Hltos
