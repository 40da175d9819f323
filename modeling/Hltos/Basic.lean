import Mathlib

/-!
# Machine words

The kernel runs on x86-64: `std::uint64_t`, `std::size_t` and `std::uintptr_t` are all the same
64-bit word, and a physical frame is named by the 40-bit frame number that a page-table entry
stores in its `addr` field (the physical address shifted right by twelve). A function that may fail
returns an `Option`, and most of them are `do` blocks.
-/

namespace Hltos

/-- `std::uint64_t`, `std::size_t`, `std::uintptr_t`. -/
abbrev Word := BitVec 64

/-- `std::uint8_t`. -/
abbrev Byte := BitVec 8

/-- A physical 4 KiB frame, by number: what the 40-bit `addr` field of an entry holds. -/
abbrev Frame := BitVec 40

/-- A `do` block that returns has got past its first step, and returns from there on. -/
theorem of_bind {α β : Type} {x : Option α} {f : α → Option β} {b : β} (h : x >>= f = some b) :
    ∃ a, x = some a ∧ f a = some b := Option.bind_eq_some_iff.mp h

end Hltos
