import Hltos.Syscall.Access

/-!
# Copies between the kernel and the caller

An access through a pointer of the caller should be *confined* to the user half, and every access to
the user half *covered* by AC. A loop that goes up through memory is followed from its first access
on: the hole between the halves and the unmapped last page end it before it could come from one half
into the other.
-/

namespace Hltos

open Lib.Traced List BitVec
open Vmm (isUserAddr isUserRange userMaxAddr)

/-! ## Addresses -/

theorem isUserAddr_iff {v : Word} : isUserAddr v = true ↔ v.toNat < 2 ^ 47 := by
  rw [isUserAddr, decide_eq_true_iff]
  exact lt_def

theorem isUserAddr_of_range {v n : Word} (h : isUserRange v n = true) : isUserAddr v = true := by
  unfold isUserRange at h
  simp only [Bool.and_eq_true] at h
  exact h.1

namespace CallState

variable {s : CallState} {kind : AccessKind} {v : Word} {n : Nat}

/-- Every byte of an access that does not fault is mapped. -/
theorem allows_of_allowed (h : s.allowed kind v n = true) {i : Nat} (hi : i < n) :
    s.mem.allows kind (v + BitVec.ofNat 64 i) = true := by
  unfold allowed at h
  simp only [Bool.and_eq_true, all_eq_true, mem_range] at h
  exact h.1 i hi

/-- Behind the user half nothing is mapped. -/
theorem fits_of_allowed (hv : v.toNat < 2 ^ 47 + 8) (hn : 0 < n)
    (h : s.allowed kind v n = true) : v.toNat + n ≤ 2 ^ 47 := by
  by_contra hgt
  -- a byte of the access that lies between the halves
  obtain ⟨i, hi, hlow, hhigh⟩ : ∃ i, i < n ∧ 2 ^ 47 ≤ v.toNat + i ∧ v.toNat + i < 2 ^ 48 := by
    by_cases hbelow : v.toNat < 2 ^ 47
    · exact ⟨2 ^ 47 - v.toNat, by omega, by omega, by omega⟩
    · exact ⟨0, hn, by omega, by omega⟩
  have haddr : (v + BitVec.ofNat 64 i).toNat = v.toNat + i := by
    rw [toNat_add, toNat_ofNat]
    omega
  have hmapped := allows_of_allowed h hi
  rw [s.mem.hole kind _ ?_ ?_] at hmapped
  · exact Bool.noConfusion hmapped
  · rw [le_def, haddr]
    exact hlow
  · rw [lt_def, haddr]
    exact hhigh.trans (by decide)

/-- Nothing in the last page is mapped. -/
theorem below_top (hn : 0 < n) (h : s.allowed kind v n = true) : v.toNat < 0xFFFFFFFFFFFFF000 := by
  have hmapped := allows_of_allowed h hn
  rw [BitVec.add_zero] at hmapped
  by_contra hge
  rw [s.mem.top kind v (BitVec.le_def.mpr (Nat.le_of_not_lt hge))] at hmapped
  exact Bool.noConfusion hmapped

/-- Upwards from the kernel half one comes to the last page, not to the user half. -/
theorem kernel_of_allowed (hv : isUserAddr v = false) (hn : 0 < n)
    (h : s.allowed kind v n = true) {d : Word}
    (hd : d.toNat ≤ 0x1000) : isUserAddr (v + d) = false := by
  have hlt := below_top hn h
  rw [← Bool.not_eq_true, isUserAddr_iff] at hv ⊢
  rw [toNat_add]
  omega

end CallState

/-! ## Properties of accesses -/

namespace Access

/-- What goes through a pointer of the caller and does not fault is below `user_max_addr`. -/
def Confined (e : Access) : Prop :=
  e.user = true → e.done = true → e.addr.toNat + e.size ≤ userMaxAddr.toNat

/-- AC is set where the address is in the user half. -/
def Covered (e : Access) : Prop := isUserAddr e.addr = true → e.ac = true

/-- As an access that the kernel makes for the caller should be. -/
def Guarded (e : Access) : Prop := e.Confined ∧ e.Covered

instance (e : Access) : Decidable e.Confined := inferInstanceAs (Decidable (_ → _ → _))

instance (e : Access) : Decidable e.Covered := inferInstanceAs (Decidable (_ → _))

variable {s : CallState} {kind : AccessKind} {v : Word} {n : Nat} {ac done : Bool}

theorem always_guarded {α : Type} {x : KProg α} :
    Always Guarded x s ↔ Always Confined x s ∧ Always Covered x s := forall₂_and

theorem confined_of_kernel : Confined ⟨kind, v, n, ac, done, false⟩ := fun h => nomatch h

/-- An access through a pointer of the caller is confined if it begins in the user half or faults.
-/
theorem confined_iff (hn : 0 < n) : Confined ⟨kind, v, n, ac, s.allowed kind v n, true⟩ ↔
    (s.allowed kind v n = true → isUserAddr v = true) := by
  rw [isUserAddr_iff]
  constructor
  · intro h hdone
    have hle := h rfl hdone
    have hmax : userMaxAddr.toNat = 2 ^ 47 := rfl
    dsimp only at hle
    omega
  · intro h _ hdone
    exact CallState.fits_of_allowed (Nat.lt_add_right 8 (h hdone)) hn hdone

end Access

/-! ## Copies -/

namespace KProg

open Access (Confined Covered Guarded always_guarded)

section Walk

variable {τ : Type}

/-- Every round of a loop makes at most one access that matters, and the next round begins up to
eight bytes further up. `reach` says when a round comes to its access. -/
structure Walk (user : Bool) (kind : AccessKind) (size : Nat) (ptr : τ → Word) (I : τ → Prop)
    (reach : τ → CallState → Prop) (body : τ → KProg (Bool × τ)) : Prop where
  size_pos : 0 < size
  confined : ∀ c s, I c → (Always Confined (body c) s ↔
    (user = true → reach c s → s.allowed kind (ptr c) size = true → isUserAddr (ptr c) = true))
  covered : ∀ c s, I c →
    (Always Covered (body c) s ↔ (reach c s → isUserAddr (ptr c) = true → s.ac = true))
  next : ∀ c s c' s', I c → Returns (body c) s (true, c') s' → I c' ∧ reach c s ∧
    s.allowed kind (ptr c) size = true ∧ (∃ d : Word, d.toNat ≤ 8 ∧ ptr c' = ptr c + d) ∧
      s'.ac = s.ac

namespace Walk

variable {user : Bool} {kind : AccessKind} {size : Nat} {ptr : τ → Word} {I : τ → Prop}
  {reach : τ → CallState → Prop} {body : τ → KProg (Bool × τ)} {n : Nat} {c : τ} {s : CallState}
  (h : Walk user kind size ptr I reach body) (hc : I c)

include h hc

/-- If the first access is confined, the others are in the user half or fault directly behind it. -/
theorem always_confined :
    Always Confined (Prog.loop body n c) s ↔ (n ≠ 0 → user = true → reach c s →
      s.allowed kind (ptr c) size = true → isUserAddr (ptr c) = true) := by
  cases n with
  | zero => simp [Prog.loop, Always, Prog.events, Prog.pure]
  | succ n =>
    rw [always_loop_succ, h.confined c s hc]
    refine ⟨fun hall _ => hall.1, fun hfirst => ⟨hfirst n.succ_ne_zero, fun c' s' hr => ?_⟩⟩
    refine always_loop (I := fun c _ => I c ∧ (user = true → (ptr c).toNat < 2 ^ 47 + 8)) ?_ ?_ ?_
    · rintro c s ⟨hc, hlow⟩
      rw [h.confined c s hc]
      intro huser _ hdone
      have := CallState.fits_of_allowed (hlow huser) h.size_pos hdone
      have := h.size_pos
      rw [isUserAddr_iff]
      omega
    · rintro c s c' s' ⟨hc, hlow⟩ hr
      obtain ⟨hc', -, hdone, ⟨d, hd, hptr⟩, -⟩ := h.next c s c' s' hc hr
      refine ⟨hc', fun huser => ?_⟩
      have := CallState.fits_of_allowed (hlow huser) h.size_pos hdone
      have := h.size_pos
      rw [hptr, toNat_add]
      omega
    · obtain ⟨hc', hreach, hdone, ⟨d, hd, hptr⟩, -⟩ := h.next c s c' s' hc hr
      refine ⟨hc', fun huser => ?_⟩
      have := isUserAddr_iff.mp (hfirst n.succ_ne_zero huser hreach hdone)
      rw [hptr, toNat_add]
      omega

/-- If AC is set or the first access is outside the user half, the same is true of the others. -/
theorem always_covered : Always Covered (Prog.loop body n c) s ↔
      (n ≠ 0 → reach c s → isUserAddr (ptr c) = true → s.ac = true) := by
  have hstep (c : τ) (s : CallState) (c' : τ) (s' : CallState) (hc : I c)
      (hr : Returns (body c) s (true, c') s') (hac : isUserAddr (ptr c) = true → s.ac = true) :
      I c' ∧ (isUserAddr (ptr c') = true → s'.ac = true) := by
    obtain ⟨hc', -, hdone, ⟨d, hd, hptr⟩, hkeep⟩ := h.next c s c' s' hc hr
    refine ⟨hc', fun huser => ?_⟩
    rw [hkeep]
    apply hac
    by_contra hkernel
    rw [hptr, CallState.kernel_of_allowed (Bool.eq_false_iff.mpr hkernel) h.size_pos
      hdone (hd.trans (by decide))] at huser
    exact Bool.noConfusion huser
  cases n with
  | zero => simp [Prog.loop, Always, Prog.events, Prog.pure]
  | succ n =>
    rw [always_loop_succ, h.covered c s hc]
    refine ⟨fun hall _ => hall.1, fun hfirst => ⟨hfirst n.succ_ne_zero, fun c' s' hr => ?_⟩⟩
    refine always_loop (I := fun c s => I c ∧ (isUserAddr (ptr c) = true → s.ac = true)) ?_ ?_ ?_
    · rintro c s ⟨hc, hac⟩
      exact (h.covered c s hc).mpr fun _ => hac
    · rintro c s c' s' ⟨hc, hac⟩ hr
      exact hstep c s c' s' hc hr hac
    · exact hstep c s c' s' hc hr (hfirst n.succ_ne_zero (h.next c s c' s' hc hr).2.1)

/-- Accesses of the caller's memory from the user half on with AC set. -/
theorem always_guarded (hac : s.ac = true)
    (hptr : isUserAddr (ptr c) = true) : Always Guarded (Prog.loop body n c) s :=
  Access.always_guarded.mpr ⟨(h.always_confined hc).mpr fun _ _ _ _ => hptr,
    (h.always_covered hc).mpr fun _ _ _ => hac⟩

end Walk

end Walk

variable {s s' : CallState} {user : Bool} {dst src v : Word} {bytes : List Byte} {n : Nat}

/-- Every round is a single access. -/
theorem walk_of_access {τ : Type} {kind : AccessKind} {size : Nat} {ptr : τ → Word}
    {body : τ → KProg (Bool × τ)} (hsize : 0 < size)
    (hevents : ∀ (P : Access → Prop) c s, Always P (body c) s ↔
      P ⟨kind, ptr c, size, s.ac, s.allowed kind (ptr c) size, user⟩)
    (hnext : ∀ c s c' s', Returns (body c) s (true, c') s' → s.allowed kind (ptr c) size = true ∧
      (∃ d : Word, d.toNat ≤ 8 ∧ ptr c' = ptr c + d) ∧ s'.ac = s.ac) :
    Walk user kind size ptr (fun _ => True) (fun _ _ => True) body where
  size_pos := hsize
  confined c s _ := by
    rw [hevents]
    cases user with
    | true => simp [Access.confined_iff hsize]
    | false => simp [Access.confined_of_kernel]
  covered c s _ := by
    rw [hevents]
    simp [Covered]
  next c s c' s' _ hr := by
    obtain ⟨hdone, hptr, hac⟩ := hnext c s c' s' hr
    exact ⟨trivial, trivial, hdone, hptr, hac⟩

theorem walk_storeBytes : Walk user .store 1 Prod.fst (fun _ => True) (fun _ _ => True)
    (fun c : Word × List Byte => do
      storeByte user c.1 (c.2.headD 0)
      return (true, (c.1 + 1, c.2.tail))) := by
  apply walk_of_access Nat.one_pos
  · intro P c s
    simp [always_bind, always_storeByte, always_pure]
  · intro c s c' s' hr
    simp only [returns_bind, returns_storeByte, returns_pure, Prod.mk.injEq] at hr
    obtain ⟨_, _, ⟨hdone, rfl⟩, ⟨-, rfl⟩, rfl⟩ := hr
    exact ⟨hdone, ⟨1, by decide, rfl⟩, rfl⟩

theorem walk_loadBytes : Walk user .load 1 Prod.fst (fun _ => True) (fun _ _ => True)
    (fun c : Word × List Byte => do
      let b ← loadByte user c.1
      return (true, (c.1 + 1, c.2 ++ [b]))) := by
  apply walk_of_access Nat.one_pos
  · intro P c s
    simp [always_bind, always_loadByte, always_pure]
  · intro c s c' s' hr
    simp only [returns_bind, returns_loadByte, returns_pure, Prod.mk.injEq] at hr
    obtain ⟨_, _, ⟨hdone, -, rfl⟩, ⟨-, rfl⟩, rfl⟩ := hr
    exact ⟨hdone, ⟨1, by decide, rfl⟩, rfl⟩

theorem walk_strlen :
    Walk true .load 1 Prod.fst (fun _ => True) (fun _ _ => True) (fun c : Word × Nat => do
      let b ← loadByte true c.1
      return (b ≠ 0, (c.1 + 1, c.2 + if b = 0 then 0 else 1))) := by
  apply walk_of_access Nat.one_pos
  · intro P c s
    simp [always_bind, always_loadByte, always_pure]
  · intro c s c' s' hr
    simp only [returns_bind, returns_loadByte, returns_pure, Prod.mk.injEq] at hr
    obtain ⟨_, _, ⟨hdone, -, rfl⟩, ⟨-, rfl⟩, rfl⟩ := hr
    exact ⟨hdone, ⟨1, by decide, rfl⟩, rfl⟩

/-- A copy from the kernel half. -/
theorem walk_memcpy : Walk user .store 1 Prod.fst (fun c => isUserAddr c.2 = false)
    (fun c s => s.allowed .load c.2 1 = true) (fun c : Word × Word => do
      let b ← loadByte false c.2
      storeByte user c.1 b
      return (true, (c.1 + 1, c.2 + 1))) where
  size_pos := Nat.one_pos
  confined c s _ := by
    simp only [always_bind, always_loadByte, always_storeByte, returns_loadByte,
      always_pure, implies_true, and_true, Access.confined_of_kernel, true_and]
    cases user with
    | true =>
      simp only [Access.confined_iff Nat.one_pos, true_implies]
      exact ⟨fun h hload => h _ s ⟨hload, rfl, rfl⟩, by rintro h _ _ ⟨hload, -, rfl⟩; exact h hload⟩
    | false => simp [Access.confined_of_kernel]
  covered c s hc := by
    simp only [always_bind, always_loadByte, always_storeByte, returns_loadByte,
      always_pure, implies_true, and_true, Covered, hc, Bool.false_eq_true, false_implies, true_and]
    exact ⟨fun h hload => h _ s ⟨hload, rfl, rfl⟩, by rintro h _ _ ⟨hload, -, rfl⟩; exact h hload⟩
  next c s c' s' hc hr := by
    simp only [returns_bind, returns_loadByte, returns_storeByte, returns_pure, Prod.mk.injEq] at hr
    obtain ⟨_, _, ⟨hload, -, rfl⟩, _, _, ⟨hdone, rfl⟩, ⟨-, rfl⟩, rfl⟩ := hr
    exact ⟨CallState.kernel_of_allowed hc Nat.one_pos hload (by decide), hload, hdone,
      ⟨1, by decide, rfl⟩, rfl⟩

theorem confined_memcpy (hsrc : isUserAddr src = false) :
    Always Confined (memcpy user dst src n) s ↔
    (n ≠ 0 → user = true → s.allowed .load src 1 = true → s.allowed .store dst 1 = true →
      isUserAddr dst = true) := by
  simp only [memcpy, always_bind, always_pure, implies_true, and_true]
  exact walk_memcpy.always_confined hsrc

theorem covered_memcpy (hsrc : isUserAddr src = false) : Always Covered (memcpy user dst src n) s ↔
    (n ≠ 0 → s.allowed .load src 1 = true → isUserAddr dst = true → s.ac = true) := by
  simp only [memcpy, always_bind, always_pure, implies_true, and_true]
  exact walk_memcpy.always_covered hsrc

theorem always_withAc {α : Type} {x : KProg α} {P : Access → Prop}
    (hx : ∀ s, s.ac = true → Always P x s) :
    Always P (withAc x) s := by
  simp only [withAc, readRflags, stac, writeRflags, always_bind, always_get,
    always_pure, always_modify, returns_modify, implies_true, and_true, true_and]
  rintro _ _ - _ _ rfl
  exact hx _ rfl

/-- A copy that checks the range first. -/
theorem guarded_kcopyToUser : Always Guarded (kcopyToUser dst bytes) s := by
  rw [kcopyToUser, always_assert_bind]
  intro hrange
  apply always_withAc
  intro s hac
  simp only [storeBytes, always_bind, always_pure, implies_true, and_true]
  exact walk_storeBytes.always_guarded trivial hac (isUserAddr_of_range hrange)

theorem guarded_kcopyFromUser {size : Word} : Always Guarded (kcopyFromUser src size) s := by
  rw [kcopyFromUser, always_assert_bind]
  intro hrange
  apply always_withAc
  intro s hac
  simp only [loadBytes, always_bind, always_pure, implies_true, and_true]
  exact walk_loadBytes.always_guarded trivial hac (isUserAddr_of_range hrange)

theorem guarded_heapOps : Always Guarded heapOps s :=
  always_heapOps fun _ => ⟨Access.confined_of_kernel, fun _ => rfl⟩

/-- A `strlen` that returns has read the first byte. -/
theorem allowed_of_strlen {len : Nat} (h : Returns (strlen v) s len s') :
    s.allowed .load v 1 = true := by
  obtain ⟨k, hk⟩ : ∃ k, 2 ^ 64 - v.toNat = k + 1 := ⟨2 ^ 64 - v.toNat - 1, by have := v.isLt; omega⟩
  simp only [strlen, hk, Prog.loop, returns_bind, returns_loadByte] at h
  obtain ⟨_, _, ⟨_, _, ⟨_, _, ⟨hload, -, -⟩, -⟩, -⟩, -⟩ := h
  exact hload

theorem fuel_strlen (v : Word) : 2 ^ 64 - v.toNat ≠ 0 := by
  have := v.isLt
  omega

/-- The string is read from its first byte on, twice. -/
theorem confined_kstringOf : Always Confined (kstringOf v) s ↔
    (v ≠ 0 → s.allowed .load v 1 = true → isUserAddr v = true) := by
  have hstrlen : Always Confined (strlen v) s ↔
      (s.allowed .load v 1 = true → isUserAddr v = true) := by
    simp only [strlen, always_bind, always_pure, implies_true, and_true,
      walk_strlen.always_confined trivial, ne_eq, fuel_strlen, not_false_eq_true, true_implies]
  rw [kstringOf, always_ite]
  simp only [always_pure, implies_true, true_and, always_bind, hstrlen, and_true]
  refine forall_congr' fun _ => and_iff_left_of_imp fun hfirst => ?_
  intro len t hlen
  refine ⟨(always_guarded.mp guarded_heapOps).1, fun _ t' _ => ?_⟩
  have huser := hfirst (allowed_of_strlen hlen)
  simp only [loadBytes, always_bind, always_pure, implies_true, and_true]
  exact (walk_loadBytes.always_confined trivial).mpr fun _ _ _ _ => huser

theorem covered_kstringOf :
    Always Covered (kstringOf v) s ↔ (v ≠ 0 → isUserAddr v = true → s.ac = true) := by
  have hstrlen : Always Covered (strlen v) s ↔ (isUserAddr v = true → s.ac = true) := by
    simp only [strlen, always_bind, always_pure, implies_true, and_true,
      walk_strlen.always_covered trivial, ne_eq, fuel_strlen, not_false_eq_true, true_implies]
  rw [kstringOf, always_ite]
  simp only [always_pure, implies_true, true_and, always_bind, hstrlen, and_true]
  refine forall_congr' fun _ => and_iff_left_of_imp fun hfirst => ?_
  intro len t hlen
  refine ⟨(always_guarded.mp guarded_heapOps).2, fun _ t' ht' => ?_⟩
  have hac : t'.ac = s.ac :=
    (keeps_ac_heapOps _ _ _ ht').trans (keeps_strlen (p := (·.ac)) _ _ _ hlen)
  simp only [loadBytes, always_bind, always_pure, implies_true, and_true]
  exact (walk_loadBytes.always_covered trivial).mpr fun _ _ huser => hac.trans (hfirst huser)

theorem guarded_fromUserspace : Always Guarded (fromUserspace v) s := by
  rw [fromUserspace, always_assert_bind]
  intro huser
  apply always_withAc
  intro s hac
  exact always_guarded.mpr ⟨confined_kstringOf.mpr fun _ _ => huser,
    covered_kstringOf.mpr fun _ _ => hac⟩

end KProg

end Hltos
