import Hltos.Scheduler.Mechanism

/-!
# The clock: ticks of the TSC and nanoseconds

`tsc.cpp` converts between ticks and nanoseconds without a 128-bit product: the quotient and the
remainder of the division are scaled apart (`mulDiv`). As long as the remainder's product fits into
64 bits this loses nothing, and the result is the exact floor of `x * num / den` (`toNat_mulDiv`).

The timer handler arms the TSC deadline for the wake time of the next sleeper. Both conversions
round down, so the deadline is never after the wake time; on a TSC of at least 1 GHz it is at most
one nanosecond before it.
-/

namespace Hltos

open BitVec

/-- What `tsc::init` leaves behind. -/
structure Tsc where
  bootTsc : Word
  tscFreq : Word

namespace Tsc

/-- `x * num / den` with 64-bit intermediate results. -/
def mulDiv (x num den : Word) : Word :=
  let quotient := x / den
  let remainder := x % den
  quotient * num + remainder * num / den

/-- `get_ticks`, the TSC reading `rdtsc`. -/
def getTicks (rdtsc : Word) (t : Tsc) : Word := rdtsc - t.bootTsc

def getTimeNs (rdtsc : Word) (t : Tsc) : Word := mulDiv (t.getTicks rdtsc) 1000000000 t.tscFreq

def nsToTicks (ns : Word) (t : Tsc) : Word := mulDiv ns t.tscFreq 1000000000

def nsToRawTicks (ns : Word) (t : Tsc) : Word := t.nsToTicks ns + t.bootTsc

/-- `get_next_sleeper`, once a policy is installed. -/
def getNextSleeper (s : Sched) : Option ProcRef := s.sleepers.peak

/-- What `apic_timer_handler` makes of `interrupt_deadline` before it writes it to
`IA32_TSC_DEADLINE`. -/
def armedDeadline (interruptDeadline interruptDelta : Word) (s : Sched) (t : Tsc) : Word :=
  let deadline := interruptDeadline + interruptDelta
  match getNextSleeper s with
  | none => deadline
  | some sleeper =>
    let sleeperDeadline := t.nsToRawTicks (s.procs sleeper).wakeTimeNs
    if sleeperDeadline < deadline then sleeperDeadline else deadline

/-! ## Scaling quotient and remainder apart -/

/-- In exact arithmetic the split changes nothing. -/
theorem div_mul_add_mod_mul_div {den : Nat} (hden : 0 < den) (x num : Nat) :
    x / den * num + x % den * num / den = x * num / den := by
  have hsplit : x * num = x % den * num + x / den * num * den := by
    calc x * num = (den * (x / den) + x % den) * num := by rw [Nat.div_add_mod]
      _ = x % den * num + x / den * num * den := by ring
  rw [hsplit, Nat.add_mul_div_right _ _ hden, Nat.add_comm]

/-- No intermediate result of `mulDiv` is cut off. -/
structure Fits (x num den : Word) : Prop where
  quotient : x.toNat / den.toNat * num.toNat < 2 ^ 64
  remainder : x.toNat % den.toNat * num.toNat < 2 ^ 64
  sum : x.toNat / den.toNat * num.toNat + x.toNat % den.toNat * num.toNat / den.toNat < 2 ^ 64

variable {x ns den num : Word} {f g : Nat}

theorem fits_of_lt (hden : 0 < den.toNat)
    (hrem : den.toNat * num.toNat ≤ 2 ^ 64) (h : x.toNat * num.toNat / den.toNat < 2 ^ 64) :
    Fits x num den := by
  have hsum := div_mul_add_mod_mul_div hden x.toNat num.toNat
  have hlt : x.toNat / den.toNat * num.toNat + x.toNat % den.toNat * num.toNat / den.toNat <
      2 ^ 64 := by
    rwa [hsum]
  refine ⟨Nat.lt_of_le_of_lt (Nat.le_add_right _ _) hlt, ?_, hlt⟩
  rcases Nat.eq_zero_or_pos num.toNat with hnum | hnum
  · rw [hnum, Nat.mul_zero]
    decide
  · calc x.toNat % den.toNat * num.toNat < den.toNat * num.toNat :=
        Nat.mul_lt_mul_of_pos_right (Nat.mod_lt _ hden) hnum
      _ ≤ 2 ^ 64 := hrem

theorem toNat_mulDiv (hden : 0 < den.toNat) (h : Fits x num den) :
    (mulDiv x num den).toNat = x.toNat * num.toNat / den.toNat := by
  unfold mulDiv
  rw [toNat_add, toNat_mul, toNat_udiv, toNat_udiv, toNat_mul,
    toNat_umod, Nat.mod_eq_of_lt h.quotient, Nat.mod_eq_of_lt h.remainder,
    Nat.mod_eq_of_lt h.sum, div_mul_add_mod_mul_div hden]

/-- There and back, rounding down twice, is not beyond the start. -/
theorem mul_div_mul_div_le (hf : 0 < f) (n : Nat) : n * f / g * g / f ≤ n := by
  calc n * f / g * g / f ≤ n * f / f := Nat.div_le_div_right (Nat.div_mul_le_self _ _)
    _ = n := Nat.mul_div_cancel _ hf

/-- With `g ≤ f` the two roundings lose at most one. -/
theorem le_mul_div_mul_div (hg : 0 < g) (hgf : g ≤ f) (n : Nat) : n ≤ n * f / g * g / f + 1 := by
  cases n with
  | zero => exact Nat.zero_le _
  | succ n =>
    have hmod := Nat.mod_lt ((n + 1) * f) hg
    have hdiv := Nat.div_add_mod' ((n + 1) * f) g
    have hstep : (n + 1) * f = n * f + f := Nat.succ_mul n f
    have hle : n * f ≤ (n + 1) * f / g * g := by omega
    have hn : n ≤ (n + 1) * f / g * g / f := (Nat.le_div_iff_mul_le (by omega)).mpr hle
    omega

/-! ## The conversions -/

/-- The ticks that `delta` stands for, in nanoseconds and in exact arithmetic. -/
def exactNs (delta : Word) (t : Tsc) : Nat := delta.toNat * 1000000000 / t.tscFreq.toNat

/-- The ticks that `ns` stands for, in exact arithmetic. -/
def exactTicks (ns : Word) (t : Tsc) : Nat := ns.toNat * t.tscFreq.toNat / 1000000000

/-- `time` is not after `ns`, and on a TSC of at least 1 GHz at most 1 ns before it. -/
def JustBefore (time ns : Word) (t : Tsc) : Prop :=
  time ≤ ns ∧ (1000000000 ≤ t.tscFreq.toNat → ns.toNat ≤ time.toNat + 1)

/-- The conversions are exact on their whole range. -/
structure Exact (t : Tsc) : Prop where
  time : ∀ rdtsc, t.exactNs (t.getTicks rdtsc) < 2 ^ 64 →
    (t.getTimeNs rdtsc).toNat = t.exactNs (t.getTicks rdtsc) ∧
      Fits (t.getTicks rdtsc) 1000000000 t.tscFreq
  time_mono : ∀ rdtsc rdtsc', t.getTicks rdtsc ≤ t.getTicks rdtsc' →
    t.exactNs (t.getTicks rdtsc') < 2 ^ 64 → t.getTimeNs rdtsc ≤ t.getTimeNs rdtsc'
  ticks : ∀ ns, t.exactTicks ns < 2 ^ 64 →
    (t.nsToTicks ns).toNat = t.exactTicks ns ∧ Fits ns t.tscFreq 1000000000
  ticks_mono : ∀ ns ns', ns ≤ ns' → t.exactTicks ns' < 2 ^ 64 → t.nsToTicks ns ≤ t.nsToTicks ns'
  /-- the time when the TSC has come to the converted value -/
  roundTrip : ∀ ns, t.exactTicks ns < 2 ^ 64 → t.JustBefore (t.getTimeNs (t.nsToRawTicks ns)) ns
  deadline : ∀ s sleeper interruptDeadline interruptDelta, getNextSleeper s = some sleeper →
    t.exactTicks (s.procs sleeper).wakeTimeNs < 2 ^ 64 →
    t.armedDeadline interruptDeadline interruptDelta s = interruptDeadline + interruptDelta ∨
      t.JustBefore (t.getTimeNs (t.armedDeadline interruptDeadline interruptDelta s))
        (s.procs sleeper).wakeTimeNs

variable {t : Tsc}

theorem getTicks_nsToRawTicks (ns : Word) (t : Tsc) :
  t.getTicks (t.nsToRawTicks ns) = t.nsToTicks ns := add_sub_cancel _ _

theorem toNat_getTimeNs (hpos : 0 < t.tscFreq.toNat) (hfreq : t.tscFreq.toNat ≤ 18446744073)
    {rdtsc : Word} (h : t.exactNs (t.getTicks rdtsc) < 2 ^ 64) :
    (t.getTimeNs rdtsc).toNat = t.exactNs (t.getTicks rdtsc) ∧
      Fits (t.getTicks rdtsc) 1000000000 t.tscFreq := by
  have hfits : Fits (t.getTicks rdtsc) 1000000000 t.tscFreq :=
    fits_of_lt hpos (by rw [show (1000000000 : Word).toNat = 1000000000 from rfl]; omega) h
  exact ⟨toNat_mulDiv hpos hfits, hfits⟩

theorem toNat_nsToTicks (hfreq : t.tscFreq.toNat ≤ 18446744073) (h : t.exactTicks ns < 2 ^ 64) :
    (t.nsToTicks ns).toNat = t.exactTicks ns ∧ Fits ns t.tscFreq 1000000000 := by
  have hfits : Fits ns t.tscFreq 1000000000 :=
    fits_of_lt (by decide) (by rw [show (1000000000 : Word).toNat = 1000000000 from rfl]; omega) h
  exact ⟨toNat_mulDiv (by decide) hfits, hfits⟩

theorem exactNs_mono {delta delta' : Word} (h : delta ≤ delta') :
  t.exactNs delta ≤ t.exactNs delta' := Nat.div_le_div_right (Nat.mul_le_mul_right _ (le_def.mp h))

theorem exactTicks_mono {ns' : Word} (h : ns ≤ ns') : t.exactTicks ns ≤ t.exactTicks ns' :=
  Nat.div_le_div_right (Nat.mul_le_mul_right _ (le_def.mp h))

/-- The deadline for a wake time, read back as a time. -/
theorem justBefore_nsToRawTicks (hpos : 0 < t.tscFreq.toNat) (hfreq : t.tscFreq.toNat ≤ 18446744073)
    (h : t.exactTicks ns < 2 ^ 64) : t.JustBefore (t.getTimeNs (t.nsToRawTicks ns)) ns := by
  have hticks := (toNat_nsToTicks hfreq h).1
  have hexact : t.exactNs (t.getTicks (t.nsToRawTicks ns)) =
      ns.toNat * t.tscFreq.toNat / 1000000000 * 1000000000 / t.tscFreq.toNat := by
    rw [getTicks_nsToRawTicks, exactNs, hticks, exactTicks]
  have hle := mul_div_mul_div_le (g := 1000000000) hpos ns.toNat
  have hlt : t.exactNs (t.getTicks (t.nsToRawTicks ns)) < 2 ^ 64 := by
    rw [hexact]
    exact Nat.lt_of_le_of_lt hle ns.isLt
  have htime := (toNat_getTimeNs hpos hfreq hlt).1
  rw [hexact] at htime
  constructor
  · rw [le_def, htime]
    exact hle
  · intro hghz
    rw [htime]
    exact le_mul_div_mul_div (by decide) hghz ns.toNat

/-- **The conversions are exact** for every TSC frequency up to about 18.4 GHz. -/
theorem conversions_exact (hpos : 0 < t.tscFreq.toNat) (hfreq : t.tscFreq.toNat ≤ 18446744073) :
    t.Exact := by
  constructor
  case time => exact fun rdtsc h => toNat_getTimeNs hpos hfreq h
  case time_mono =>
    intro rdtsc rdtsc' hle h
    have hmono := exactNs_mono (t := t) hle
    rw [le_def, (toNat_getTimeNs hpos hfreq (Nat.lt_of_le_of_lt hmono h)).1,
      (toNat_getTimeNs hpos hfreq h).1]
    exact hmono
  case ticks => exact fun ns h => toNat_nsToTicks hfreq h
  case ticks_mono =>
    intro ns ns' hle h
    have hmono := exactTicks_mono (t := t) hle
    rw [le_def, (toNat_nsToTicks hfreq (Nat.lt_of_le_of_lt hmono h)).1, (toNat_nsToTicks hfreq h).1]
    exact hmono
  case roundTrip => exact fun ns h => justBefore_nsToRawTicks hpos hfreq h
  case deadline =>
    intro s sleeper interruptDeadline interruptDelta hs h
    unfold armedDeadline
    rw [hs]
    simp only
    split
    · exact Or.inr (justBefore_nsToRawTicks hpos hfreq h)
    · exact Or.inl rfl

/-- A TSC of 3 GHz. -/
theorem threeGHz_exact : Exact ⟨12345, 3000000000⟩ := conversions_exact (by decide) (by decide)

end Tsc

end Hltos
