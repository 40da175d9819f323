import Hltos.Basic

/-!
# Strings, and the parts of a path

`algo::split` drops empty parts, and `algo::join` is its inverse on parts that are not empty and do
not hold the delimiter.
-/

namespace Hltos

open List

/-- A character of a C string: any byte but the terminator. -/
abbrev KChar := { c : Byte // c ≠ 0 }

/-- A `kstring` that was made from a C string, as the paths of the file system are. -/
abbrev KString := List KChar

/-- A string literal. -/
def kstring (bytes : List Byte) : KString :=
  bytes.filterMap (fun b => if h : b ≠ 0 then some ⟨b, h⟩ else none)

namespace Algo

variable {α : Type} [DecidableEq α]

/-- The loop of `split`, with the part read so far. -/
def splitFrom (delim : α) : List α → List α → List (List α)
  | [], part => if part.isEmpty then [] else [part]
  | c :: cs, part =>
    if c = delim then
      if part.isEmpty then splitFrom delim cs part else part :: splitFrom delim cs []
    else splitFrom delim cs (part ++ [c])

def split (str : List α) (delim : α) : List (List α) := splitFrom delim str []

/-- `join`: a delimiter behind every item, and the last one taken off again. -/
def join (list : List (List α)) (delim : α) : List α :=
  (list.flatMap (· ++ [delim])).dropLast

/-- What `split` returns, and `join` takes apart again. -/
def IsPart (delim : α) (part : List α) : Prop := part ≠ [] ∧ delim ∉ part

variable {delim : α} {a b part : List α} {list : List (List α)}

theorem splitFrom_append (delim : α) (a b part : List α) :
    splitFrom delim (a ++ delim :: b) part = splitFrom delim a part ++ splitFrom delim b [] := by
  induction a generalizing part with
  | nil =>
    cases part with
    | nil => simp [splitFrom]
    | cons c cs => simp [splitFrom]
  | cons c cs ih =>
    simp only [cons_append, splitFrom]
    split
    · split <;> simp [ih]
    · exact ih _

theorem split_append (delim : α) (a b : List α) :
    split (a ++ delim :: b) delim = split a delim ++ split b delim := splitFrom_append delim a b []

theorem splitFrom_of_notMem (h : delim ∉ a) :
    splitFrom delim a part = if (part ++ a).isEmpty then [] else [part ++ a] := by
  induction a generalizing part with
  | nil => simp [splitFrom]
  | cons c cs ih =>
    have hc : c ≠ delim := fun heq => h (heq ▸ mem_cons_self)
    simp only [splitFrom, hc, if_false]
    rw [ih (fun hm => h (mem_cons_of_mem c hm)), append_assoc, singleton_append]

theorem split_part (h : IsPart delim part) : split part delim = [part] := by
  rw [split, splitFrom_of_notMem h.2]
  simp [h.1]

theorem split_append_delim (delim : α) (a : List α) :
    split (a ++ [delim]) delim = split a delim := by
  rw [split_append]
  simp [split, splitFrom]

theorem split_flatMap (h : ∀ part ∈ list, IsPart delim part) :
    split (list.flatMap (· ++ [delim])) delim = list := by
  induction list with
  | nil => rfl
  | cons part list ih =>
    have hrest := ih (fun p hp => h p (mem_cons_of_mem part hp))
    rw [flatMap_cons, append_assoc, singleton_append, split_append, hrest,
      split_part (h part mem_cons_self), singleton_append]

/-- `split` is the inverse of `join`. -/
theorem split_join (h : ∀ part ∈ list, IsPart delim part) :
    split (join list delim) delim = list := by
  rcases list.eq_nil_or_concat with rfl | ⟨init, last, rfl⟩
  · rfl
  · have hjoin : join (init.concat last) delim ++ [delim] =
        (init.concat last).flatMap (· ++ [delim]) := by
      simp [join, concat_eq_append, ← append_assoc]
    rw [← split_append_delim, hjoin, split_flatMap h]

theorem flatten_splitFrom (delim : α) (a part : List α) :
    (splitFrom delim a part).flatten = part ++ a.filter (· ≠ delim) := by
  induction a generalizing part with
  | nil => cases part <;> simp [splitFrom]
  | cons c cs ih =>
    simp only [splitFrom]
    by_cases hc : c = delim
    · cases part <;> simp [hc, ih]
    · simp [hc, ih]

/-- Only the delimiters are lost. -/
theorem flatten_split (str : List α) (delim : α) :
    (split str delim).flatten = str.filter (· ≠ delim) := flatten_splitFrom delim str []

theorem length_splitFrom_le (delim : α) (a part : List α) :
    (splitFrom delim a part).length ≤ a.length + if part = [] then 0 else 1 := by
  induction a generalizing part with
  | nil => cases part <;> simp [splitFrom]
  | cons c cs ih =>
    have hnil := ih []
    have hpart := ih (part ++ [c])
    simp only [splitFrom]
    cases part <;> split <;> simp at * <;> omega

theorem length_split_le (str : List α) (delim : α) : (split str delim).length ≤ str.length := by
  have := length_splitFrom_le delim str []
  rwa [if_pos rfl] at this

/-- Parts are not empty and have no delimiter. -/
theorem isPart_splitFrom (hpart : delim ∉ part) : ∀ p ∈ splitFrom delim a part, IsPart delim p := by
  induction a generalizing part with
  | nil =>
    intro p hp
    simp only [splitFrom] at hp
    split at hp
    · cases hp
    · next hne =>
      rw [mem_singleton.mp hp]
      exact ⟨by simpa using hne, hpart⟩
  | cons c cs ih =>
    intro p hp
    simp only [splitFrom] at hp
    split at hp
    · split at hp
      · exact ih hpart p hp
      · next hne =>
        rcases mem_cons.mp hp with rfl | hp
        · exact ⟨by simpa using hne, hpart⟩
        · exact ih (by simp) p hp
    · next hc =>
      refine ih ?_ p hp
      simp only [mem_append, mem_singleton, not_or]
      exact ⟨hpart, fun heq => hc heq.symm⟩

theorem isPart_split (str : List α) (delim : α) : ∀ p ∈ split str delim, IsPart delim p :=
  isPart_splitFrom (by simp)

end Algo

end Hltos
