import Mathlib.Tactic

set_option autoImplicit false

/-! # Integers of 32 bits

Arithmetic on `Int` reduced to 32 bits in two's complement. A sum that fits is the sum itself, so a
computation that nowhere leaves the range is the one over `Int`. -/

namespace WrapInt

/-- The numbers of 32 bits. -/
def InRange (x : Int) : Prop := -2147483648 ≤ x ∧ x ≤ 2147483647

instance (x : Int) : Decidable (InRange x) :=
  inferInstanceAs (Decidable (-2147483648 ≤ x ∧ x ≤ 2147483647))

/-- What 32 bits hold of `x`: overflow wraps around. Unfolding it on a variable would count up to the
    modulus. -/
@[irreducible] def int32 (x : Int) : Int := Int.bmod x 4294967296

theorem int32_of_inRange {x : Int} (h : InRange x) : int32 x = x := by
  obtain ⟨hlo, hhi⟩ := h
  unfold int32
  rw [Int.bmod_def]
  omega

/-- The range spelled out, for side conditions that are linear. -/
theorem int32_eq {x : Int} (hlo : -2147483648 ≤ x) (hhi : x ≤ 2147483647) : int32 x = x :=
  int32_of_inRange ⟨hlo, hhi⟩

end WrapInt
