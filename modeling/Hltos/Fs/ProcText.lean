import Hltos.Containers.Substring
import Hltos.Process.Process

/-!
# The text of `/proc/self`

Numbers are written in decimal and in hex, `sprintf` puts them into the format, and
`Process::to_string` is the text that `/proc/self` reads.
-/

namespace Hltos

/-! ## Numbers and `sprintf` -/

namespace Fmt

def ascii (s : String) : List Byte := s.toList.map (fun c => BitVec.ofNat 8 c.toNat)

/-- `number_format_char`, for all formats. -/
def digitChar (i : Nat) : Byte :=
  if i < 10 then BitVec.ofNat 8 (0x30 + i) else BitVec.ofNat 8 (0x37 + i)

/-- The loop over the digits, the last one first. -/
def digitsFrom (divisor : Nat) : Nat → Nat → List Byte
  | 0, _ => []
  | fuel + 1, n =>
    if n = 0 then [] else digitChar (n % divisor) :: digitsFrom divisor fuel (n / divisor)

def digits (divisor n : Nat) : List Byte :=
  if n = 0 then [digitChar 0] else (digitsFrom divisor 64 n).reverse

/-- `to_string` of an unsigned number. -/
def toDec (n : Word) : List Byte := digits 10 n.toNat

/-- `to_string` of a signed number. -/
def toSignedDec (n : Int) : List Byte :=
  if n < 0 then 0x2D :: digits 10 n.natAbs else digits 10 n.natAbs

/-- `to_string` of a `hex`: the digits are filled up to a multiple of four. -/
def toHex (n : Word) : List Byte :=
  ascii "0x" ++ List.replicate ((4 - (digits 16 n.toNat).length % 4) % 4) 0x30 ++ digits 16 n.toNat

/-- The text before and behind the first pair of braces. -/
def findBraces : List Byte → Option (List Byte × List Byte)
  | [] => none
  | [_] => none
  | c :: d :: rest =>
    if c = 0x7B ∧ d = 0x7D then some ([], rest)
    else (findBraces (d :: rest)).map (fun r => (c :: r.1, r.2))

def sprintf : List Byte → List (List Byte) → List Byte
  | format, [] => format
  | format, first :: rest =>
    match findBraces format with
    | none => format
    | some (before, after) => before ++ first ++ sprintf after rest

open KStringView

/-- The braces that are found are the leftmost ones. -/
theorem findBraces_spec (f : List Byte) : match findBraces f with
    | none => ∀ k, ¬ Occurs f braces k
    | some (before, after) =>
        f = before ++ braces ++ after ∧ ∀ k < before.length, ¬ Occurs f braces k := by
  fun_induction findBraces f with
  | case1 => simp [Occurs, braces]
  | case2 c => simp [Occurs, braces]
  | case3 c d rest h => exact ⟨by simp [braces, h.1, h.2], nofun⟩
  | case4 c d rest h ih =>
    have hnot (k : Nat) (hk : ∀ j, k = j + 1 →
        ¬ Occurs (d :: rest) braces j) : ¬ Occurs (c :: d :: rest) braces k := by
      cases k with
      | zero => simpa [Occurs, braces] using h
      | succ j => simpa [Occurs, braces] using hk j rfl
    split at ih
    · next hr =>
      simp only [hr, Option.map_none]
      exact fun k => hnot k fun j _ => ih j
    · next before after hr =>
      simp only [hr, Option.map_some]
      refine ⟨by simp [ih.1], fun k hk => hnot k fun j hj => ih.2 j ?_⟩
      rw [List.length_cons] at hk
      omega

/-- What is computed on the characters is the substitution. -/
theorem substitutes_sprintf (f : List Byte) (args : List (List Byte)) :
    Substitutes f args (sprintf f args) := by
  induction args generalizing f with
  | nil => exact .nil f
  | cons a args ih =>
    have hb := findBraces_spec f
    rw [sprintf]
    cases h : findBraces f with
    | none => exact .verbatim (by rwa [h] at hb)
    | some r =>
      rw [h] at hb
      obtain ⟨before, after⟩ := r
      obtain ⟨rfl, hmin⟩ := hb
      have hrest : Substitutes ((before ++ braces ++ after).drop (before.length + 2))
          args (sprintf after args) := by
        simpa [braces] using ih after
      simpa using hrest.next (a := a) (by simp [Occurs]) hmin

end Fmt

/-! ## `Process::to_string` -/

/-- What `Process::to_string` shows. -/
structure ProcInfo where
  pid : BitVec 32
  /-- `fs::getcwd(cwd_inode)` -/
  cwd : KString
  state : ProcessState
  pml4 : Word
  kernelStack : Word
  kernelRsp : Word
  entry : Word
  contextSwitches : Word

namespace ProcInfo

/-- `get_state_str`; a state that is not named there is a panic. -/
def getStateStr : ProcessState → Option (List Byte)
  | .ready => some (Fmt.ascii "READY")
  | .new => some (Fmt.ascii "NEW")
  | .running => some (Fmt.ascii "RUNNING")
  | .dead => some (Fmt.ascii "DEAD")
  | .zombie => some (Fmt.ascii "ZOMBIE")
  | .blocked => some (Fmt.ascii "BLOCKED")
  | .sleeping => none

def format : List Byte := Fmt.ascii (
  "pid = \x7b\x7d\ncwd = \x7b\x7d\nstate = \x7b\x7d\npml4         @ \x7b\x7d\n" ++
  "kernel stack @ \x7b\x7d\nkernel rsp   @ \x7b\x7d\nentry rip    @ \x7b\x7d\n" ++
  "context switch count = \x7b\x7d")

def toString (p : ProcInfo) : Option (List Byte) := do
  let state ← getStateStr p.state
  return Fmt.sprintf format [Fmt.toSignedDec p.pid.toInt, p.cwd.map (·.1), state, Fmt.toHex p.pml4,
    Fmt.toHex p.kernelStack, Fmt.toHex p.kernelRsp, Fmt.toHex p.entry, Fmt.toDec p.contextSwitches]

end ProcInfo

end Hltos
