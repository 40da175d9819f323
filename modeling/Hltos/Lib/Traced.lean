import Mathlib

/-!
# Computations that leave events

A computation works on a state, leaves events and may stop without a result. For a run of it from a
state there are two questions: whether all its events have a property (`Always`), and what it
returns (`Returns`). Both are answered along `bind`, so that a program is followed statement by
statement.
-/

namespace Lib.Traced

variable {ε σ τ α β γ : Type}

/-- The events, and the result with the new state unless the computation stops. -/
def Prog (ε σ α : Type) : Type := σ → List ε × Option (α × σ)

namespace Prog

def pure (a : α) : Prog ε σ α := fun s => ([], some (a, s))

def bind (x : Prog ε σ α) (f : α → Prog ε σ β) : Prog ε σ β := fun s =>
  match x s with
  | (events, none) => (events, none)
  | (events, some (a, s')) => (events ++ (f a s').1, (f a s').2)

instance : Monad (Prog ε σ) where
  pure := pure
  bind := bind

def emit (e : ε) : Prog ε σ Unit := fun s => ([e], some ((), s))

def stop : Prog ε σ α := fun _ => ([], none)

def get : Prog ε σ σ := fun s => ([], some (s, s))

def modify (f : σ → σ) : Prog ε σ Unit := fun s => ([], some ((), f s))

/-- Stop unless a condition holds. -/
def assert (c : Bool) : Prog ε σ Unit := if c then pure () else stop

/-- Run the body until it says that it is finished, at most `n` times. -/
def loop (body : τ → Prog ε σ (Bool × τ)) : Nat → τ → Prog ε σ τ
  | 0, t => pure t
  | n + 1, t => do
    let r ← body t
    if r.1 then loop body n r.2 else pure r.2

def events (x : Prog ε σ α) (s : σ) : List ε := (x s).1

end Prog

open Prog

/-- Every event of the run from `s` has the property. -/
def Always (P : ε → Prop) (x : Prog ε σ α) (s : σ) : Prop := ∀ e ∈ x.events s, P e

/-- The run from `s` ends with `a` in the state `s'`. -/
def Returns (x : Prog ε σ α) (s : σ) (a : α) (s' : σ) : Prop := (x s).2 = some (a, s')

/-- No run changes what `f` sees of the state. -/
def Keeps (f : σ → γ) (x : Prog ε σ α) : Prop := ∀ s a s', Returns x s a s' → f s' = f s

/-- Every run returns. -/
def Total (x : Prog ε σ α) : Prop := ∀ s, ∃ a s', Returns x s a s'

variable {P P' : ε → Prop} {x : Prog ε σ α} {f : α → Prog ε σ β} {s s' t : σ} {a a' : α} {b : β}

/-! ## Events -/

@[simp] theorem always_pure : Always P (Pure.pure a : Prog ε σ α) s ↔ True := by
  constructor
  · exact fun _ => trivial
  · rintro - e ⟨⟩

/-- The events of the first part, and those of the second if the first returns. -/
theorem always_bind :
    Always P (x >>= f) s ↔ Always P x s ∧ ∀ a s', Returns x s a s' → Always P (f a) s' := by
  unfold Always Returns events
  show (∀ e ∈ (Prog.bind x f s).1, P e) ↔ _
  unfold Prog.bind
  rcases x s with ⟨es, none | ⟨a, s'⟩⟩
  · simp
  · simp [or_imp, forall_and]

variable {e : ε}

@[simp] theorem always_emit : Always P (emit e : Prog ε σ Unit) s ↔ P e := by
  simp [Always, events, emit]

@[simp] theorem always_stop : Always P (stop : Prog ε σ α) s ↔ True := by
  simp [Always, events, stop]

@[simp] theorem always_get : Always P (Prog.get : Prog ε σ σ) s ↔ True := by
  simp [Always, events, Prog.get]

variable {g : σ → σ}

@[simp] theorem always_modify : Always P (Prog.modify g : Prog ε σ Unit) s ↔ True := by
  simp [Always, events, Prog.modify]

@[simp] theorem always_assert {c : Bool} : Always P (assert c : Prog ε σ Unit) s ↔ True := by
  cases c <;> simp [Always, events, assert, stop, Prog.pure]

variable {y : Prog ε σ α}

theorem always_ite {c : Prop} [Decidable c] :
    Always P (if c then x else y) s ↔ (c → Always P x s) ∧ (¬ c → Always P y s) := by
  split <;> simp_all

/-! ## Results -/

theorem Returns.unique (h : Returns x s a t) (h' : Returns x s a' s') : a = a' ∧ t = s' := by
  unfold Returns at h h'
  simpa [h] using h'

@[simp] theorem returns_pure : Returns (Pure.pure a : Prog ε σ α) s a' s' ↔ a = a' ∧ s = s' := by
  show some (a, s) = some (a', s') ↔ _
  simp

theorem returns_bind :
    Returns (x >>= f) s b t ↔ ∃ a s', Returns x s a s' ∧ Returns (f a) s' b t := by
  unfold Returns
  show (Prog.bind x f s).2 = _ ↔ _
  unfold Prog.bind
  rcases x s with ⟨es, none | ⟨a, s'⟩⟩
  · simp
  · constructor
    · exact fun h => ⟨a, s', rfl, h⟩
    · rintro ⟨_, _, ⟨⟩, h⟩
      exact h

variable {u : Unit}

@[simp] theorem returns_emit : Returns (emit e : Prog ε σ Unit) s u s' ↔ s = s' := by
  simp [Returns, emit]

@[simp] theorem returns_stop : Returns (stop : Prog ε σ α) s a s' ↔ False := by simp [Returns, stop]

@[simp] theorem returns_get {r : σ} : Returns (Prog.get : Prog ε σ σ) s r s' ↔ s = r ∧ s = s' := by
  simp [Returns, Prog.get]

@[simp] theorem returns_modify : Returns (Prog.modify g : Prog ε σ Unit) s u s' ↔ g s = s' := by
  simp [Returns, Prog.modify]

@[simp] theorem returns_assert {c : Bool} :
    Returns (assert c : Prog ε σ Unit) s u s' ↔ c = true ∧ s = s' := by
  cases c <;> simp [Returns, assert, stop, Prog.pure]

theorem returns_ite {c : Prop} [Decidable c] :
    Returns (if c then x else y) s a s' ↔ (c → Returns x s a s') ∧ (¬ c → Returns y s a s') := by
  split <;> simp_all

/-! ## Statements that come first -/

theorem always_get_bind {f : σ → Prog ε σ β} : Always P (Prog.get >>= f) s ↔ Always P (f s) s := by
  rw [always_bind]
  constructor
  · rintro ⟨-, h⟩
    exact h s s (returns_get.mpr ⟨rfl, rfl⟩)
  · intro h
    refine ⟨always_get.mpr trivial, ?_⟩
    rintro a s' hr
    obtain ⟨rfl, rfl⟩ := returns_get.mp hr
    exact h

theorem always_modify_bind {f : Unit → Prog ε σ β} :
    Always P (Prog.modify g >>= f) s ↔ Always P (f ()) (g s) := by
  simp only [always_bind, always_modify, returns_modify, true_and]
  constructor
  · exact fun h => h () _ rfl
  · rintro h ⟨⟩ _ rfl
    exact h

theorem always_assert_bind {c : Bool} {f : Unit → Prog ε σ β} :
    Always P (assert c >>= f) s ↔ (c = true → Always P (f ()) s) := by
  simp only [always_bind, always_assert, returns_assert, true_and]
  constructor
  · exact fun h hc => h () s ⟨hc, rfl⟩
  · rintro h ⟨⟩ _ ⟨hc, rfl⟩
    exact h hc

theorem returns_get_bind {f : σ → Prog ε σ β} :
    Returns (Prog.get >>= f) s b t ↔ Returns (f s) s b t := by
  simp only [returns_bind, returns_get]
  constructor
  · rintro ⟨_, _, ⟨rfl, rfl⟩, h⟩
    exact h
  · exact fun h => ⟨s, s, ⟨rfl, rfl⟩, h⟩

theorem returns_modify_bind {f : Unit → Prog ε σ β} :
    Returns (Prog.modify g >>= f) s b t ↔ Returns (f ()) (g s) b t := by
  simp only [returns_bind, returns_modify]
  constructor
  · rintro ⟨⟨⟩, _, rfl, h⟩
    exact h
  · exact fun h => ⟨(), _, rfl, h⟩

/-! ## Loops -/

section Loop

variable {body : τ → Prog ε σ (Bool × τ)} {n : Nat} {c : τ}

theorem always_loop_succ : Always P (loop body (n + 1) c) s ↔ Always P (body c) s ∧
    ∀ c' s', Returns (body c) s (true, c') s' → Always P (loop body n c') s' := by
  rw [loop, always_bind]
  refine and_congr_right fun _ => ?_
  constructor
  · intro h c' s' hr
    exact h _ _ hr
  · rintro h ⟨more, c'⟩ s' hr
    cases more with
    | true => exact h c' s' hr
    | false => exact always_pure.mpr trivial

/-- An invariant of the loop under which no round leaves a wrong event. -/
theorem always_loop {I : τ → σ → Prop} (hbody : ∀ c s, I c s → Always P (body c) s)
    (hnext : ∀ c s c' s', I c s → Returns (body c) s (true, c') s' → I c' s') (h : I c s) :
    Always P (loop body n c) s := by
  induction n generalizing c s with
  | zero => exact always_pure.mpr trivial
  | succ n ih => exact always_loop_succ.mpr ⟨hbody c s h, fun c' s' hr => ih (hnext c s c' s' h hr)⟩

end Loop

/-! ## What stays -/

variable {p : σ → γ}

theorem Keeps.pure : Keeps p (Pure.pure a : Prog ε σ α) := by
  rintro s b s' h
  rw [(returns_pure.mp h).2]

theorem Keeps.bind (hx : Keeps p x) (hf : ∀ a, Keeps p (f a)) : Keeps p (x >>= f) := by
  intro s b t h
  obtain ⟨a, s', ha, hb⟩ := returns_bind.mp h
  rw [hf a _ _ _ hb, hx _ _ _ ha]

theorem Keeps.emit : Keeps p (Prog.emit e : Prog ε σ Unit) := by
  rintro s b s' h
  rw [returns_emit.mp h]

theorem Keeps.stop : Keeps p (Prog.stop : Prog ε σ α) := fun _ _ _ h => (returns_stop.mp h).elim

theorem Keeps.get : Keeps p (Prog.get : Prog ε σ σ) := by
  rintro s b s' h
  rw [(returns_get.mp h).2]

theorem Keeps.assert {c : Bool} : Keeps p (Prog.assert c : Prog ε σ Unit) := by
  rintro s b s' h
  rw [(returns_assert.mp h).2]

theorem Keeps.modify (hg : ∀ s, p (g s) = p s) : Keeps p (Prog.modify g : Prog ε σ Unit) := by
  rintro s b s' h
  rw [← returns_modify.mp h, hg]

theorem Keeps.loop
    {body : τ → Prog ε σ (Bool × τ)} (hbody : ∀ c, Keeps p (body c)) (n : Nat) (c : τ) :
    Keeps p (Prog.loop body n c) := by
  induction n generalizing c with
  | zero => exact Keeps.pure
  | succ n ih =>
    apply (hbody c).bind
    rintro ⟨more, c'⟩
    cases more with
    | true => exact ih c'
    | false => exact Keeps.pure

theorem Keeps.ite {c : Prop} [Decidable c] (hx : Keeps p x) (hy : Keeps p y) :
    Keeps p (if c then x else y) := by
  split
  · exact hx
  · exact hy

/-! ## What returns -/

theorem Total.pure : Total (Pure.pure a : Prog ε σ α) := fun s =>
  ⟨a, s, returns_pure.mpr ⟨rfl, rfl⟩⟩

theorem Total.bind (hx : Total x) (hf : ∀ a, Total (f a)) : Total (x >>= f) := by
  intro s
  obtain ⟨a, s', ha⟩ := hx s
  obtain ⟨b, t, hb⟩ := hf a s'
  exact ⟨b, t, returns_bind.mpr ⟨a, s', ha, hb⟩⟩

theorem Total.emit : Total (Prog.emit e : Prog ε σ Unit) := fun s => ⟨(), s, returns_emit.mpr rfl⟩

theorem Total.get : Total (Prog.get : Prog ε σ σ) := fun s => ⟨s, s, returns_get.mpr ⟨rfl, rfl⟩⟩

theorem Total.modify : Total (Prog.modify g : Prog ε σ Unit) :=
  fun s => ⟨(), g s, returns_modify.mpr rfl⟩

theorem Total.ite {c : Prop} [Decidable c] (hx : Total x) (hy : Total y) :
    Total (if c then x else y) := by
  split
  · exact hx
  · exact hy

/-! ## Sections of a program -/

/-- From states with `Q` on, all events have the property, and `Q` holds again at the end. -/
def Safe (P : ε → Prop) (Q : σ → Prop) (x : Prog ε σ α) : Prop :=
  ∀ s, Q s → Always P x s ∧ ∀ a s', Returns x s a s' → Q s'

variable {Q : σ → Prop}

theorem Safe.pure : Safe P Q (Pure.pure a : Prog ε σ α) := by
  intro s h
  refine ⟨always_pure.mpr trivial, fun _ s' hr => ?_⟩
  rwa [← (returns_pure.mp hr).2]

theorem Safe.bind (hx : Safe P Q x) (hf : ∀ a, Safe P Q (f a)) : Safe P Q (x >>= f) := by
  intro s h
  refine ⟨always_bind.mpr ⟨(hx s h).1, fun a s' hr => (hf a s' ((hx s h).2 a s' hr)).1⟩, ?_⟩
  intro b t hr
  obtain ⟨a, s', ha, hb⟩ := returns_bind.mp hr
  exact (hf a s' ((hx s h).2 a s' ha)).2 b t hb

theorem Safe.stop : Safe P Q (Prog.stop : Prog ε σ α) :=
  fun _ _ => ⟨always_stop.mpr trivial, fun _ _ hr => (returns_stop.mp hr).elim⟩

theorem Safe.get : Safe P Q (Prog.get : Prog ε σ σ) := by
  intro s h
  refine ⟨always_get.mpr trivial, fun _ s' hr => ?_⟩
  rwa [← (returns_get.mp hr).2]

theorem Safe.assert {c : Bool} : Safe P Q (Prog.assert c : Prog ε σ Unit) := by
  intro s h
  refine ⟨always_assert.mpr trivial, fun _ s' hr => ?_⟩
  rwa [← (returns_assert.mp hr).2]

theorem Safe.ite {c : Prop} [Decidable c] (hx : Safe P Q x) (hy : Safe P Q y) :
    Safe P Q (if c then x else y) := by
  split
  · exact hx
  · exact hy

theorem Safe.loop
    {body : τ → Prog ε σ (Bool × τ)} (hbody : ∀ c, Safe P Q (body c)) (n : Nat) (c : τ) :
    Safe P Q (Prog.loop body n c) := by
  induction n generalizing c with
  | zero => exact Safe.pure
  | succ n ih =>
    apply (hbody c).bind
    rintro ⟨more, c'⟩
    cases more with
    | true => exact ih c'
    | false => exact Safe.pure

end Lib.Traced
