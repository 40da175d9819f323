import Hltos.Containers.KString

/-!
# Parts of strings

`trim` goes from both ends towards each other, but its second iterator begins at the terminator and
not at the last character. `kstring_view::substr` looks for the end of a C string where the rest of
the view is asked for, and does not cut a length off at the end of the view. `find` tries the places
where a pattern may begin, and `sprintf` puts its arguments there; `tokenize` keeps the empty parts
that `split` drops.
-/

namespace Hltos

open List Option

/-! ## Trimming -/

namespace KStr

variable {c : Byte} {s : List Byte}

/-- The terminator. -/
def nul : Byte := 0

/-- `while (*b == c && b < e) ++b`: the steps, with the characters from `*b` on. -/
def frontSteps (c : Byte) : List Byte → Nat
  | [] => 0
  | x :: rest => if x = c then frontSteps c rest + 1 else 0

/-- `while (*e == c && e > b) --e`: the steps, with `*e` and the characters from there down to `b`.
-/
def backSteps (c : Byte) : Byte → List Byte → Nat
  | _, [] => 0
  | x, y :: below => if x = c then backSteps c y below + 1 else 0

/-- The private `trim`; a string without memory is `none`, and so is a fault. -/
def trimWith (front back : Bool) (c : Byte) (str : Option (List Byte)) : Option (List Byte) :=
  if !front && !back then str
  else str.map fun s =>
    let rest := s.drop (if front then frontSteps c s else 0)
    rest.take (rest.length - if back then backSteps c nul rest.reverse else 0)

def trimFront (c : Byte) := trimWith true false c

def trimBack (c : Byte) := trimWith false true c

def trim (c : Byte) := trimWith true true c

/-- The characters from `pos` on are pushed, as long as there are fewer than `len`. -/
def substr (s : List Byte) (pos len : Nat) : List Byte :=
  if pos ≥ s.length then [] else (s.drop pos).take len

/-- The laws of trimming for one string and character. -/
structure TrimLaws (str : Option (List Byte)) (c : Byte) : Prop where
  front : trimFront c str = some ((str.getD []).dropWhile (· = c))
  back : trimBack c str = some ((str.getD []).rdropWhile (· = c))
  both : trim c str = some (((str.getD []).dropWhile (· = c)).rdropWhile (· = c))
  front_idem : (trimFront c str).bind (trimFront c ∘ some) = trimFront c str
  back_idem : (trimBack c str).bind (trimBack c ∘ some) = trimBack c str
  both_idem : (trim c str).bind (trim c ∘ some) = trim c str
  both_eq : trim c str = (trimFront c str).bind (trimBack c ∘ some)
  reverse : (trimBack c str).map List.reverse = trimFront c (str.map List.reverse)

theorem drop_frontSteps (c : Byte) (s : List Byte) :
    s.drop (frontSteps c s) = s.dropWhile (· = c) := by
  induction s with
  | nil => rfl
  | cons x rest ih =>
    rw [frontSteps, dropWhile_cons]
    by_cases hx : x = c
    · simp [hx, ih]
    · simp [hx]

theorem trimFront_some (c : Byte) (s : List Byte) :
    trimFront c (some s) = some (s.dropWhile (· = c)) := by
  simp [trimFront, trimWith, drop_frontSteps]

theorem backSteps_of_ne {x : Byte} (hx : x ≠ c) (below : List Byte) : backSteps c x below = 0 := by
  cases below with
  | nil => rfl
  | cons y below => rw [backSteps, if_neg hx]

/-- The terminator is no character to trim, so nothing is. -/
theorem trimBack_some (hc : c ≠ nul) (s : List Byte) : trimBack c (some s) = some s := by
  simp only [trimBack, trimWith, map_some, backSteps_of_ne (Ne.symm hc)]
  simp

theorem trim_some (hc : c ≠ nul) (s : List Byte) :
    trim c (some s) = some (s.dropWhile (· = c)) := by
  simp only [trim, trimWith, map_some, backSteps_of_ne (Ne.symm hc), if_true, drop_frontSteps]
  simp

/-- From the terminator on, one step more than there are characters to trim. -/
theorem backSteps_nul (below : List Byte) :
    backSteps nul nul below = min below.length ((below.takeWhile (· = nul)).length + 1) := by
  induction below with
  | nil => rfl
  | cons y below ih =>
    rw [backSteps, if_pos rfl]
    by_cases hy : y = nul
    · rw [hy, ih]
      simp
    · rw [backSteps_of_ne hy]
      simp [hy]

theorem trimBack_nul_iff (s : List Byte) :
    trimBack nul (some s) = some (s.rdropWhile (· = nul)) ↔ ∀ x ∈ s, x = nul := by
  have hsplit := congrArg length (takeWhile_append_dropWhile (p := fun x : Byte =>
    decide (x = nul)) (l := s.reverse))
  have hall : s.reverse.dropWhile (· = nul) = [] ↔ ∀ x ∈ s, x = nul := by
    simp [dropWhile_eq_nil_iff]
  have htrim : trimBack nul (some s) = some (s.take (s.length - backSteps nul nul s.reverse)) := by
    simp [trimBack, trimWith]
  rw [htrim, backSteps_nul, rdropWhile, some.injEq, ← hall]
  rw [length_append, length_reverse] at hsplit
  constructor
  · intro heq
    have hlen := congrArg length heq
    rw [length_take, length_reverse, length_reverse] at hlen
    exact length_eq_zero_iff.mp (by omega)
  · intro hnil
    rw [hnil] at hsplit ⊢
    rw [length_nil] at hsplit
    rw [reverse_nil, take_eq_nil_iff, length_reverse]
    omega

/-- **When the laws of trimming hold**: there is memory, and no character to trim at the end. -/
theorem trimLaws_iff (str : Option (List Byte)) (c : Byte) : TrimLaws str c ↔
    ∃ s, str = some s ∧ if c = nul then ∀ x ∈ s, x = nul else s.getLast? ≠ some c := by
  cases str with
  | none => exact iff_of_false (fun h => nomatch h.front) (by simp)
  | some s =>
    simp only [some.injEq, exists_eq_left']
    by_cases hc : c = nul
    · subst hc
      rw [if_pos rfl]
      refine ⟨fun h => (trimBack_nul_iff s).mp h.back, fun h => ?_⟩
      have hfront : s.dropWhile (· = nul) = [] := by simpa [dropWhile_eq_nil_iff] using h
      have hback : s.rdropWhile (· = nul) = [] := by simpa [rdropWhile_eq_nil_iff] using h
      have hfront' : s.reverse.dropWhile (· = nul) = [] := by simpa [dropWhile_eq_nil_iff] using h
      have ht : trimBack nul (some s) = some [] := by rw [(trimBack_nul_iff s).mpr h, hback]
      have hb : trim nul (some s) = some [] := by
        simp only [trim, trimWith, map_some, if_true, drop_frontSteps, hfront]
        rfl
      have hf : trimFront nul (some s) = some [] := by rw [trimFront_some, hfront]
      exact ⟨hf.trans (congrArg some hfront.symm), ht.trans (congrArg some hback.symm),
        by rw [hb, getD_some, hfront]; rfl, by rw [hf]; rfl, by rw [ht]; rfl, by rw [hb]; rfl,
        by rw [hb, hf]; rfl, by rw [ht, map_some, map_some, trimFront_some, hfront']; rfl⟩
    · rw [if_neg hc]
      have hself (l : List Byte) : l.rdropWhile (· = c) = l ↔ l.getLast? ≠ some c := by
        rw [rdropWhile_eq_self_iff]
        cases l.eq_nil_or_concat with
        | inl h => simp [h]
        | inr h =>
          obtain ⟨l', x, rfl⟩ := h
          simp
      refine ⟨fun h => (hself s).mp (some.inj (h.back.symm.trans (trimBack_some hc s))),
        fun h => ?_⟩
      have hdrop : (s.dropWhile (· = c)).rdropWhile (· = c) = s.dropWhile (· = c) := by
        rw [hself]
        intro hlast
        obtain ⟨front, hs⟩ := dropWhile_suffix (fun x : Byte => decide (x = c)) (l := s)
        apply h
        rw [← hs, getLast?_append, hlast]
        rfl
      have hidem := dropWhile_idempotent (fun x : Byte => decide (x = c)) s
      have hrev : s.reverse.dropWhile (· = c) = s.reverse := by
        rw [← reverse_reverse (s.reverse.dropWhile _), ← rdropWhile, (hself s).mpr h]
      constructor <;> simp [trimFront_some, trimBack_some hc, trim_some hc,
        (hself s).mpr h, hdrop, hidem, hrev]

/-- The blank at the end stays. -/
theorem trimBack_blank : trimBack 0x20 (some [0x61, 0x20]) = some [0x61, 0x20] ∧
    ¬ TrimLaws (some [0x61, 0x20]) 0x20 := by
  refine ⟨rfl, fun h => ?_⟩
  cases h.back

end KStr

/-! ## Views -/

/-- A view, with the bytes from `_data` to the end of the array that it points into. -/
structure KStringView where
  data : List Byte
  length : Nat
deriving DecidableEq

namespace KStringView

variable {v : KStringView} {pos len : Nat}

def npos : Nat := 2 ^ 64 - 1

/-- What the view shows. -/
def chars (v : KStringView) : List Byte := v.data.take v.length

/-- A view of a C string; without a terminator in the array there is none. -/
def ofCString (str : List Byte) : Option KStringView := (str.idxOf? 0).map fun length =>
  ⟨str, length⟩

def substr (v : KStringView) (pos len : Nat) : Option KStringView :=
  if pos ≥ v.length then some ⟨[0], 0⟩
  else if len ≥ v.length ∨ len = npos then ofCString (v.data.drop pos)
  else some ⟨v.data.drop pos, len⟩

/-- The view lies in its array. -/
structure Valid (v : KStringView) : Prop where
  inside : v.length ≤ v.data.length
  fits : v.length ≤ npos

/-- What `substr` should return: these characters of the view, and nothing behind it. -/
structure IsSubstr (v : KStringView) (pos len : Nat) (w : KStringView) : Prop where
  chars : w.chars = (v.chars.drop pos).take len
  inside : w.length = 0 ∨ w.data = v.data.drop pos ∧ pos + w.length ≤ v.length
  kstring : w.chars = KStr.substr v.chars pos len

theorem Valid.length_chars (hv : v.Valid) : v.chars.length = v.length := length_take_of_le hv.inside

/-- `kstring` cuts a length off at the end of the string. -/
theorem kstring_substr (s : List Byte) (pos len : Nat) :
    KStr.substr s pos len = (s.drop pos).take len := by
  unfold KStr.substr
  split
  · next hle => rw [drop_eq_nil_of_le hle, take_nil]
  · rfl

/-- A view that begins at `pos` is right if it has the length of the rest, or the one that is asked
for. -/
theorem isSubstr_iff (hv : v.Valid) (hpos : pos < v.length) {n : Nat} :
    IsSubstr v pos len ⟨v.data.drop pos, n⟩ ↔ n = min len (v.length - pos) := by
  have hchars : (v.chars.drop pos).take len =
      (v.data.drop pos).take (min len (v.length - pos)) := by
    rw [KStringView.chars, drop_take, take_take]
  have hroom : v.length - pos ≤ (v.data.drop pos).length := by
    have := hv.inside
    rw [length_drop]
    omega
  constructor
  · intro h
    have hlen := congrArg List.length (h.chars.trans hchars)
    change (take n (v.data.drop pos)).length = _ at hlen
    have hin : n ≤ v.length - pos := by
      rcases h.inside with hzero | ⟨-, hle⟩
      · exact hzero.trans_le (Nat.zero_le _)
      · exact Nat.le_sub_of_add_le' hle
    rw [length_take, length_take] at hlen
    omega
  · rintro rfl
    exact ⟨hchars.symm, .inr ⟨rfl, by show pos + min len (v.length - pos) ≤ v.length; omega⟩,
      hchars.symm.trans (kstring_substr _ _ _).symm⟩

/-- **When `substr` of a view is right**, and then substrings compose and rebuild the view. A length
below that of the view must not go past its end; otherwise the view has to end with a C string. -/
theorem substr_iff (hv : v.Valid) :
    (∀ pos len, (∃ w, v.substr pos len = some w ∧ IsSubstr v pos len w) ↔ (pos < v.length →
      if v.length ≤ len then (v.data.drop pos).idxOf? 0 = some (v.length - pos)
      else pos + len ≤ v.length)) ∧
    (∀ a b w u w', IsSubstr v a npos w → IsSubstr w b npos u → IsSubstr v (a + b) npos w' →
      u.chars = w'.chars) ∧
    ∀ k w u, IsSubstr v 0 k w → IsSubstr v k npos u → w.chars ++ u.chars = v.chars := by
  have hall (k : Nat) : (v.chars.drop k).take npos = v.chars.drop k := by
    apply take_of_length_le
    have := hv.fits
    rw [length_drop, hv.length_chars]
    omega
  refine ⟨fun pos len => ?_, fun a b w u w' hw hu hw' => ?_, fun k w u hw hu => ?_⟩
  · unfold substr
    by_cases hpos : pos < v.length
    · have hnpos : (len ≥ v.length ∨ len = npos) ↔ v.length ≤ len :=
        or_iff_left_of_imp (fun heq => heq ▸ hv.fits)
      simp only [if_neg (Nat.not_le.mpr hpos), hpos, forall_const, hnpos]
      by_cases hlen : v.length ≤ len
      · simp only [hlen, if_true, ofCString]
        cases hidx : (v.data.drop pos).idxOf? 0 with
        | none => simp
        | some n =>
          simp only [map_some, some.injEq, exists_eq_left', isSubstr_iff hv hpos]
          omega
      · simp only [hlen, if_false, some.injEq, exists_eq_left', isSubstr_iff hv hpos]
        omega
    · have hnil := drop_eq_nil_of_le (hv.length_chars.trans_le (Nat.not_lt.mp hpos))
      refine iff_of_true ⟨_, if_pos (Nat.not_lt.mp hpos), ?_, .inl rfl, ?_⟩ (fun h => absurd h hpos)
      · rw [hnil, take_nil]
        rfl
      · rw [kstring_substr, hnil, take_nil]
        rfl
  · rw [hu.chars, hw.chars, hw'.chars, hall, hall, drop_drop, hall]
  · rw [hw.chars, hu.chars, hall, drop_zero, take_append_drop]

/-- The whole of a C string. -/
theorem cString_substr : Valid ⟨[0x61, 0x62, 0], 2⟩ ∧
    ∃ w, substr ⟨[0x61, 0x62, 0], 2⟩ 1 npos = some w ∧ IsSubstr ⟨[0x61, 0x62, 0], 2⟩ 1 npos w := by
  have hv : Valid ⟨[0x61, 0x62, 0], 2⟩ := ⟨by decide, by decide⟩
  exact ⟨hv, ((substr_iff hv).1 1 npos).mpr (fun _ => by decide)⟩

/-- The view `ab` of the C string `abc`: from its second character on it is `bc`. -/
theorem middle_substr : Valid ⟨[0x61, 0x62, 0x63, 0], 2⟩ ∧
    substr ⟨[0x61, 0x62, 0x63, 0], 2⟩ 1 npos = some ⟨[0x62, 0x63, 0], 2⟩ ∧
    ¬ IsSubstr ⟨[0x61, 0x62, 0x63, 0], 2⟩ 1 npos ⟨[0x62, 0x63, 0], 2⟩ := by
  refine ⟨⟨by decide, by decide⟩, by decide, fun h => ?_⟩
  have hchars := h.chars
  revert hchars
  decide

/-! ## Searching -/

/-- The inner loop: whether the bytes from `i` on are those of `str`. Outside the array is a fault.
-/
def matchesAt (data : List Byte) : Nat → List Byte → Option Bool
  | _, [] => some true
  | i, c :: str => data[i]?.bind fun x => if x = c then matchesAt data (i + 1) str else some false

/-- The outer loop. It ends at the length of the view, at the latest. -/
def findFrom (v : KStringView) (str : List Byte) : Nat → Nat → Option Nat
  | 0, _ => some npos
  | n + 1, i =>
    if i + str.length - 1 < v.length then
      (matchesAt v.data i str).bind fun found => if found then some i else findFrom v str n (i + 1)
    else some npos

/-- `find`, for the characters of a C string or a null pointer. -/
def find (v : KStringView) : Option (List Byte) → Option Nat
  | none => some npos
  | some str =>
    if str.length = 0 ∨ str.length > v.length then some npos else findFrom v str v.length 0

end KStringView

/-- `kstring::find` is the loop of the view, over the characters with their terminator. -/
def KStr.find (s : List Byte) (str : Option (List Byte)) : Option Nat :=
  KStringView.find ⟨s ++ [nul], s.length⟩ str

namespace KStringView

variable {v : KStringView} {data p : List Byte} {i n : Nat}

/-- The pattern stands at `i`. -/
abbrev Occurs (s p : List Byte) (i : Nat) : Prop :=
  i + p.length ≤ s.length ∧ (s.drop i).take p.length = p

/-- The least place where the pattern stands; `npos` if there is none. -/
def IsFind (s p : List Byte) (r : Nat) : Prop :=
  if r = npos then ∀ k, ¬ Occurs s p k else Occurs s p r ∧ ∀ k < r, ¬ Occurs s p k

theorem matchesAt_eq (h : i + p.length ≤ data.length) :
    matchesAt data i p = some (decide ((data.drop i).take p.length = p)) := by
  induction p generalizing i with
  | nil => simp [matchesAt]
  | cons c p ih =>
    rw [length_cons] at h
    have hi : i < data.length := by omega
    rw [matchesAt, getElem?_eq_getElem hi, bind_some, ih (by omega), drop_eq_getElem_cons hi,
      length_cons, take_succ_cons]
    by_cases hc : data[i] = c <;> simp [hc]

theorem find?_of_short (hv : v.Valid) (h : v.length < i + p.length) :
    (range' i n).find? (Occurs v.chars p ·) = none := by
  refine find?_eq_none.mpr fun k hk hocc => ?_
  have hroom := (of_decide_eq_true hocc).1
  have hle := (mem_range'_1.mp hk).1
  rw [hv.length_chars] at hroom
  omega

theorem findFrom_eq (hv : v.Valid) (hp : p ≠ []) :
    findFrom v p n i = some (((range' i n).find? (Occurs v.chars p ·)).getD npos) := by
  have hpos := length_pos_of_ne_nil hp
  induction n generalizing i with
  | zero => rfl
  | succ n ih =>
    rw [findFrom]
    by_cases hi : i + p.length ≤ v.length
    · have hmin : min p.length (v.length - i) = p.length := by omega
      have hocc : Occurs v.chars p i ↔ (v.data.drop i).take p.length = p := by
        rw [Occurs, hv.length_chars, and_iff_right hi, chars, drop_take, take_take, hmin]
      rw [if_pos (by omega), matchesAt_eq (hi.trans hv.inside), bind_some, ih,
        range'_succ, find?_cons]
      by_cases hhere : (v.data.drop i).take p.length = p
      · simp only [hocc, hhere, decide_true, if_true, getD_some]
      · simp only [hocc, hhere, decide_false, Bool.false_eq_true, if_false]
    · rw [if_neg (by omega), find?_of_short hv (by omega), getD_none]

/-- The first place of the pattern in what the view shows. -/
theorem find_eq (hv : v.Valid) (hp : p ≠ []) :
    v.find (some p) = some (((range v.length).find? (Occurs v.chars p ·)).getD npos) := by
  rw [find, range_eq_range']
  split
  · next h =>
    rw [find?_of_short hv (by have := length_pos_of_ne_nil hp; omega), getD_none]
  · exact findFrom_eq hv hp

theorem find_spec (hv : v.Valid) (hp : p ≠ []) :
    ∃ r, v.find (some p) = some r ∧ IsFind v.chars p r := by
  have hlt (k : Nat) (hk : Occurs v.chars p k) : k < v.length := by
    have hroom := hk.1
    rw [hv.length_chars] at hroom
    have := length_pos_of_ne_nil hp
    omega
  refine ⟨_, find_eq hv hp, ?_⟩
  cases hr : (range v.length).find? (Occurs v.chars p ·) with
  | none => exact (if_pos rfl).mpr fun k hk =>
    find?_eq_none.mp hr k (mem_range.mpr (hlt k hk)) (decide_eq_true hk)
  | some r =>
    obtain ⟨hocc, -, hmin⟩ := find?_range_eq_some.mp hr
    have hocc := of_decide_eq_true hocc
    have hne : r ≠ npos := ((hlt r hocc).trans_le hv.fits).ne
    exact (if_neg hne).mpr ⟨hocc, fun k hk =>
      of_decide_eq_false ((Bool.not_eq_true' _).mp (hmin k hk))⟩

theorem chars_append (rest : List Byte) : chars ⟨p ++ rest, p.length⟩ = p := take_left

theorem valid_append (rest : List Byte) (hp : p.length ≤ npos) :
    Valid ⟨p ++ rest, p.length⟩ := ⟨by simp, hp⟩

/-- **`find` returns the leftmost match** in a view and in a string, and comes to the same where the
array ends with the view. -/
theorem find_leftmost (hp : p ≠ []) :
    (∀ v : KStringView, v.Valid → ∃ r, v.find (some p) = some r ∧ IsFind v.chars p r ∧
      find ⟨v.chars, v.length⟩ (some p) = some r) ∧
    ∀ s : List Byte, s.length ≤ npos → ∃ r, KStr.find s (some p) = some r ∧ IsFind s p r ∧
      find ⟨s, s.length⟩ (some p) = some r := by
  have hview (v : KStringView) (hv : v.Valid) : ∃ r, v.find (some p) = some r ∧ IsFind v.chars p r ∧
      find ⟨v.chars, v.length⟩ (some p) = some r := by
    obtain ⟨r, hr, hfind⟩ := find_spec hv hp
    refine ⟨r, hr, hfind, ?_⟩
    have hchars : chars ⟨v.chars, v.length⟩ = v.chars := by
      rw [chars, chars, take_take, Nat.min_self]
    rw [find_eq (v := ⟨v.chars, v.length⟩) ⟨hv.length_chars.ge, hv.fits⟩ hp, hchars]
    exact (find_eq hv hp).symm.trans hr
  refine ⟨hview, fun s hs => ?_⟩
  simpa only [KStr.find, chars_append] using hview _ (valid_append [KStr.nul] hs)

/-- The second of two overlapping places is not the one. -/
theorem find_overlap :
    [0x61, 0x61] ≠ ([] : List Byte) ∧ ∃ r, KStr.find [0x62, 0x61, 0x61, 0x61] (some [0x61, 0x61]) =
    some r ∧ IsFind [0x62, 0x61, 0x61, 0x61] [0x61, 0x61] r :=
  ⟨by decide, ((find_leftmost (by decide)).2 [0x62, 0x61, 0x61, 0x61] (by decide)).imp fun _ h =>
    ⟨h.1, h.2.1⟩⟩

end KStringView

theorem takeWhile_ne_zero {s : List Byte} (hs : 0 ∉ s) : s.takeWhile (· ≠ 0) = s :=
  takeWhile_eq_self_iff.mpr fun _ hx => decide_eq_true fun heq => hs (heq ▸ hx)

/-! ## `sprintf` -/

namespace KStringView

/-- The placeholder. -/
def braces : List Byte := [0x7B, 0x7D]

/-- An argument is the text that `to_string` returns, a C string. -/
def sprintf : KStringView → List (List Byte) → Option (List Byte)
  | v, [] => some v.chars
  | v, first :: rest => do
    let pos ← v.find (some braces)
    if pos = npos then return v.chars
    let before ← v.substr 0 pos
    let behind ← v.substr (pos + 2) npos
    return before.chars ++ first.takeWhile (· ≠ 0) ++ (← sprintf behind rest)

/-- What `sprintf` is for: as long as there are arguments, the leftmost placeholder gives way to the
next one, and the search goes on behind it. -/
inductive Substitutes : List Byte → List (List Byte) → List Byte → Prop
  | nil (f : List Byte) : Substitutes f [] f
  | verbatim {f args} (h : ∀ k, ¬ Occurs f braces k) : Substitutes f args f
  | next {f a args out i} (h : Occurs f braces i) (hmin : ∀ k < i, ¬ Occurs f braces k)
    (hrest : Substitutes (f.drop (i + 2)) args out) :
    Substitutes f (a :: args) (f.take i ++ a ++ out)

variable {f : List Byte} {args : List (List Byte)} {i : Nat}

/-- The rest of a C string is a C string. -/
theorem substr_rest (hf : 0 ∉ f) (hfits : f.length ≤ npos) (tail : List Byte) : ∃ tail',
    substr ⟨f ++ 0 :: tail, f.length⟩ i npos = some ⟨f.drop i ++ 0 :: tail',
      (f.drop i).length⟩ := by
  unfold substr
  dsimp only
  split
  · next hi => exact ⟨[], by simp [drop_eq_nil_of_le hi]⟩
  · next hi =>
    have hno : (f.drop i).findIdx? (· == 0) = none :=
      findIdx?_eq_none_iff.mpr fun x hx => beq_false_of_ne fun heq => hf (heq ▸ mem_of_mem_drop hx)
    refine ⟨tail, ?_⟩
    rw [if_pos (.inl hfits), ofCString, drop_append_of_le_length (by omega),
      idxOf?, findIdx?_append, hno]
    simp [findIdx?_cons]

/-- **`sprintf` substitutes**: for a C string and arguments without a terminator. -/
theorem sprintf_substitutes (tail : List Byte) (hf : 0 ∉ f) (hfits : f.length ≤ npos)
    (hargs : ∀ a ∈ args, 0 ∉ a) :
    ∃ out, sprintf ⟨f ++ 0 :: tail, f.length⟩ args = some out ∧ Substitutes f args out := by
  induction args generalizing f tail with
  | nil => exact ⟨f, by rw [sprintf, chars_append], .nil f⟩
  | cons first rest ih =>
    obtain ⟨hfirst, hrest⟩ := forall_mem_cons.mp hargs
    obtain ⟨pos, hpos, hfind⟩ :=
      find_spec (valid_append (0 :: tail) hfits) (p := braces) (by decide)
    rw [chars_append] at hfind
    simp only [sprintf, hpos, bind_eq_bind, bind_some, chars_append]
    unfold IsFind at hfind
    split at hfind
    · next heq => exact ⟨f, by rw [if_pos heq]; rfl, .verbatim hfind⟩
    · next hne =>
      have hlen : pos + 2 ≤ f.length := hfind.1.1
      obtain ⟨tail', hbehind⟩ := substr_rest (i := pos + 2) hf hfits tail
      have hbefore : substr ⟨f ++ 0 :: tail, f.length⟩ 0 pos = some ⟨f ++ 0 :: tail, pos⟩ := by
        rw [substr, if_neg (show ¬ 0 ≥ f.length by omega),
          if_neg (show ¬ (pos ≥ f.length ∨ pos = npos) by omega)]
        rfl
      obtain ⟨out, hout, hsub⟩ :=
        ih (f := f.drop (pos + 2)) tail' (fun hm => hf (mem_of_mem_drop hm))
        (by rw [length_drop]; omega) hrest
      refine ⟨_, ?_, hsub.next hfind.1 hfind.2⟩
      rw [if_neg hne, hbefore, hbehind]
      simp only [bind_some, hout, takeWhile_ne_zero hfirst]
      simp [chars, take_append_of_le_length (show pos ≤ f.length by omega)]

/-- One argument for two placeholders. -/
theorem sprintf_twice : ∃ out, sprintf ⟨braces ++ braces ++ [0], 4⟩ [[0x61]] = some out ∧
    Substitutes (braces ++ braces) [[0x61]] out :=
  sprintf_substitutes [] (by decide) (by decide) (by decide)

end KStringView

/-! ## Tokens -/

namespace Algo

/-- The loop of `tokenize`, with the part and the character read last. -/
def tokenizeFrom (delim : Byte) : List Byte → List Byte → Byte → List (List Byte)
  | [], part, last => if part ≠ [] ∨ last = delim then [part] else []
  | c :: cs, part, _ =>
    if c = delim then part :: tokenizeFrom delim cs [] c else tokenizeFrom delim cs (part ++ [c]) c

def tokenize (str : List Byte) (delim : Byte) : List (List Byte) := tokenizeFrom delim str [] 0

def splitView (sv : KStringView) (delim : Byte) : List (List Byte) := split sv.chars delim

/-- `join` on a `klist`: `fmt::to_string` gives the C string of an item. -/
def joinList (list : List (List Byte)) (delim : Byte) : List Byte :=
  join (list.map (·.takeWhile (· ≠ 0))) delim

variable {d last : Byte} {s part : List Byte}

theorem join_eq (ts : List (List Byte)) (d : Byte) : join ts d = [d].intercalate ts := by
  induction ts with
  | nil => rfl
  | cons t ts ih =>
    cases ts with
    | nil => simp [join]
    | cons u ts =>
      have hne : (u :: ts).flatMap (· ++ [d]) ≠ [] := by simp
      rw [join, flatMap_cons, dropLast_append_of_ne_nil hne, ← join, ih, intercalate_cons_cons]

/-- A character of a part goes from the rest of the string to the part that was read. -/
theorem splitOn_cons {c : Byte} : ((c :: s).splitOn d).modifyHead (part ++ ·) =
    if c = d then part :: s.splitOn d else (s.splitOn d).modifyHead (part ++ [c] ++ ·) := by
  rw [splitOn, splitOnP_cons_eq_if_modifyHead]
  by_cases hc : c = d
  · simp [hc, splitOn]
  · simp [hc, splitOn, Function.comp_def]

theorem modifyHead_nil (ts : List (List Byte)) : ts.modifyHead ([] ++ ·) = ts := by
  cases ts <;> rfl

theorem splitFrom_eq :
    splitFrom d s part = ((s.splitOn d).modifyHead (part ++ ·)).filter (· ≠ []) := by
  induction s generalizing part with
  | nil => cases part <;> simp [splitFrom, splitOn_nil]
  | cons c s ih =>
    rw [splitOn_cons, splitFrom]
    by_cases hc : c = d
    · have hrest := @ih []
      rw [modifyHead_nil] at hrest
      cases part <;> simp [hc, hrest]
    · simp [hc, ih]

/-- The last part is kept, unless nothing has been read. -/
theorem tokenizeFrom_eq (h : s ≠ [] ∨ part ≠ [] ∨ last = d) :
    tokenizeFrom d s part last = (s.splitOn d).modifyHead (part ++ ·) := by
  induction s generalizing part last with
  | nil => simp [tokenizeFrom, splitOn_nil, h.resolve_left (· rfl)]
  | cons c s ih =>
    rw [splitOn_cons, tokenizeFrom]
    by_cases hc : c = d
    · rw [if_pos hc, if_pos hc, ih (.inr (.inr hc)), modifyHead_nil]
    · rw [if_neg hc, if_neg hc, ih (.inr (.inl (by simp)))]

theorem tokenize_eq (h : s ≠ []) : tokenize s d = s.splitOn d := by
  rw [tokenize, tokenizeFrom_eq (.inl h), modifyHead_nil]

theorem split_eq : split s d = (tokenize s d).filter (· ≠ []) := by
  cases s with
  | nil => simp [split, splitFrom, tokenize, tokenizeFrom]
  | cons c s => rw [tokenize_eq (cons_ne_nil c s), split, splitFrom_eq, modifyHead_nil]

theorem join_tokenize (s : List Byte) (d : Byte) : join (tokenize s d) d = s := by
  cases s with
  | nil => simp only [tokenize, tokenizeFrom]; split <;> simp [join]
  | cons c s => rw [tokenize_eq (cons_ne_nil c s), join_eq, intercalate_splitOn]

theorem tokenize_join
    {ts : List (List Byte)} (hts : ∀ t ∈ ts, d ∉ t) (hnil : ts ≠ []) (hone : ts ≠ [[]]) :
    tokenize (join ts d) d = ts := by
  rw [tokenize_eq, join_eq, splitOn_intercalate d hts hnil]
  match ts with
  | [t] => simpa [join] using hone
  | t :: u :: ts => simp [join_eq, intercalate_cons_cons]

/-- **The laws of `split`, `tokenize` and `join`.** -/
theorem tokenize_laws (s : List Byte) (d : Byte) :
    join (tokenize s d) d = s ∧ (∀ t ∈ tokenize s d, d ∉ t) ∧
    split s d = (tokenize s d).filter (· ≠ []) ∧
      (∀ v : KStringView, v.chars = s → splitView v d = split s d) ∧
    (∀ ts : List (List Byte), (∀ t ∈ ts, d ∉ t) → ts ≠ [] → ts ≠ [[]] →
      tokenize (join ts d) d = ts) ∧
    ∀ ts : List (List Byte), (∀ t ∈ ts, 0 ∉ t) → joinList ts d = join ts d := by
  refine ⟨join_tokenize s d, fun t ht hd => ?_, split_eq, fun v hv => congrArg (split · d) hv,
    fun _ => tokenize_join, fun ts hts => ?_⟩
  · -- a token that is not empty is a part of `split`
    have hpart : t ∈ split s d := split_eq ▸ mem_filter.mpr ⟨ht, by simpa using ne_nil_of_mem hd⟩
    exact (isPart_split s d t hpart).2 hd
  · rw [joinList, map_congr_left fun t ht => takeWhile_ne_zero (hts t ht), List.map_id']

end Algo

end Hltos
