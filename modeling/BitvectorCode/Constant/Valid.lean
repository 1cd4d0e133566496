import BitvectorCode.Constant.Basic
import Mathlib.Algebra.Ring.Nat

/-!
# Constants that fit

A constant fits when its value is below `2 ^ bits`. The low bits of a number are its remainder
modulo a power of two, so everything that `Constant.ofNat` makes fits.
-/

namespace BitvectorCode

theorem ones_eq (bits : Nat) : ones bits = 2 ^ bits - 1 := by
  rw [ones, Nat.one_shiftLeft]

theorem lowBits_eq_mod (value bits : Nat) : lowBits value bits = value % 2 ^ bits := by
  unfold lowBits
  split
  · next h =>
    by_cases hv : value = 0
    · simp [hv]
    · exact (Nat.mod_eq_of_lt ((Nat.log2_lt hv).1 h)).symm
  · rw [ones_eq]
    exact Nat.and_two_pow_sub_one_eq_mod value bits

theorem lowBits_lt (value bits : Nat) : lowBits value bits < 2 ^ bits := by
  rw [lowBits_eq_mod]
  exact Nat.mod_lt _ (Nat.two_pow_pos bits)

namespace Constant

/-- The value fits its width. -/
def Valid (c : Constant) : Prop := c.value < 2 ^ c.bits

instance (c : Constant) : Decidable c.Valid := inferInstanceAs (Decidable (_ < _))

theorem ofNat_valid (value bits : Nat) : (ofNat value bits).Valid := lowBits_lt value bits

theorem value_ofNat (value bits : Nat) : (ofNat value bits).value = value % 2 ^ bits :=
  lowBits_eq_mod value bits

end Constant

end BitvectorCode
