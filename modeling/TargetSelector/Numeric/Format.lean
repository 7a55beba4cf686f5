import TargetSelector.Numeric.Rounding

/-!
Binary floating-point formats. The nonnegative values of a format are numbered `0, 1, 2, …` in
increasing order; the number of a value is its *index*. Infinity stands at the index `limit`.
-/
namespace TargetSelector

/-- Widths of a binary interchange format: stored fraction bits and exponent bits. -/
structure FloatFormat where
  fractionBits : Nat
  exponentBits : Nat
deriving DecidableEq

namespace FloatFormat

def binary64 : FloatFormat := ⟨52, 11⟩

def binary32 : FloatFormat := ⟨23, 8⟩

variable (F : FloatFormat)

/-- The least positive value is `2 ^ -depth`. -/
def depth : Nat := Nat.pow 2 (F.exponentBits - 1) - 2 + F.fractionBits

/-- The first index of a value that is not subnormal, and the count of significands there are for each
power of two. -/
def implicitBit : Nat := Nat.pow 2 F.fractionBits

/-- The first index past the finite values. -/
def limit : Nat := (Nat.pow 2 F.exponentBits - 1) * F.implicitBit

def coefficient (k : Nat) : Nat :=
  if k < F.implicitBit then k else F.implicitBit + k % F.implicitBit

/-- The power of two that multiplies the significand at an index. -/
def scale (k : Nat) : Nat := k / F.implicitBit - 1

/-- The value at an index, in units of the least positive value. -/
def units (k : Nat) : Nat := F.coefficient k * Nat.pow 2 (F.scale k)

/-- The index nearest to `a / b` units, ties to the even index; it may lie past `limit`. -/
def nearest (a b : Nat) : Nat :=
  let j := (a / b).log2 - F.fractionBits
  j * F.implicitBit + roundEven a (b * Nat.pow 2 j)

example : binary64.depth = 1074 ∧ binary32.depth = 149 := by decide
example : binary64.limit = 0x7ff0000000000000 := by decide
example : binary64.units (binary64.limit - 1) = (2 ^ 53 - 1) * 2 ^ 2045 := by decide +kernel

theorem implicitBit_pos : 0 < F.implicitBit := Nat.two_pow_pos F.fractionBits

private theorem log2_sub_eq {t f j : Nat} (hlo : Nat.pow 2 (f + j) ≤ t)
    (hhi : t < Nat.pow 2 (f + j + 1)) : t.log2 - f = j := by
  have hpos : t ≠ 0 := Nat.ne_of_gt (Nat.lt_of_lt_of_le (Nat.two_pow_pos (f + j)) hlo)
  have h1 := (Nat.le_log2 hpos).2 hlo
  have h2 := (Nat.log2_lt hpos).2 hhi
  omega

/-- A value of the format is its own nearest value. -/
theorem nearest_units (k : Nat) : F.nearest (F.units k) 1 = k := by
  have hp := F.implicitBit_pos
  unfold nearest
  dsimp only
  by_cases hk : k < F.implicitBit
  · have hs : F.scale k = 0 := by simp [scale, Nat.div_eq_of_lt hk]
    have hu : F.units k = k := by simp [units, coefficient, hk, hs]
    rw [hu, Nat.div_one]
    have hj : k.log2 - F.fractionBits = 0 := by
      by_cases h0 : k = 0
      · simp [h0]
      · have := (Nat.log2_lt h0).2 hk
        omega
    rw [hj]
    simp [roundEven_one]
  · have hdiv : 1 ≤ k / F.implicitBit := (Nat.one_le_div_iff hp).2 (by omega)
    have hmod := Nat.mod_lt k hp
    have hu : F.units k = (F.implicitBit + k % F.implicitBit) * Nat.pow 2 (F.scale k) := by
      rw [units, coefficient, if_neg hk]
    have hlo : Nat.pow 2 (F.fractionBits + F.scale k) = F.implicitBit * Nat.pow 2 (F.scale k) :=
      Nat.pow_add 2 F.fractionBits (F.scale k)
    have hhi : Nat.pow 2 (F.fractionBits + F.scale k + 1) =
        (2 * F.implicitBit) * Nat.pow 2 (F.scale k) := by
      rw [Nat.mul_assoc, ← hlo, Nat.mul_comm]
      rfl
    have hj : (F.units k / 1).log2 - F.fractionBits = F.scale k := by
      apply log2_sub_eq
      · rw [Nat.div_one, hu, hlo]
        exact Nat.mul_le_mul_right _ (by omega)
      · rw [Nat.div_one, hu, hhi]
        exact Nat.mul_lt_mul_of_pos_right (by omega) (Nat.two_pow_pos _)
    have h2 : 0 < Nat.pow 2 (F.scale k) := Nat.two_pow_pos _
    rw [hj, hu, Nat.one_mul, roundEven_mul_right _ _ h2]
    have hdm := Nat.div_add_mod k F.implicitBit
    have hsc : F.scale k + 1 = k / F.implicitBit := by unfold scale; omega
    rw [← hsc, Nat.mul_add, Nat.mul_one, Nat.mul_comm] at hdm
    omega

theorem nearest_mul_mul (a b : Nat) {c : Nat} (hc : 0 < c) :
    F.nearest (a * c) (b * c) = F.nearest a b := by
  unfold nearest
  dsimp only
  rw [Nat.mul_div_mul_right a b hc, Nat.mul_right_comm, roundEven_mul_mul a _ hc]

theorem units_injective {k l : Nat} (h : F.units k = F.units l) : k = l := by
  rw [← F.nearest_units k, h, F.nearest_units l]

@[simp] theorem units_zero : F.units 0 = 0 := by
  rw [units, coefficient, if_pos F.implicitBit_pos, Nat.zero_mul]

end FloatFormat

end TargetSelector
