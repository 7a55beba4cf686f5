import TargetSelector.Json.Number

/-!
How large a rounded value can get. Rounding moves an index up by at most one binade past that of the
exact value.
-/
namespace TargetSelector

private theorem roundEven_le_of_lt {a b c : Nat} (h : a < b * c) : roundEven a b ≤ c := by
  have hup := (roundEven_bounds a b).2
  have hdiv := Nat.div_lt_of_lt_mul h
  omega

namespace FloatFormat

variable (F : FloatFormat)

theorem nearest_le (a : Nat) {b : Nat} (hb : 0 < b) :
    F.nearest a b ≤ ((a / b).log2 - F.fractionBits + 2) * F.implicitBit := by
  let j := (a / b).log2 - F.fractionBits
  have hpow : Nat.pow 2 (j + (F.fractionBits + 1)) = Nat.pow 2 j * (2 * F.implicitBit) := by
    rw [Nat.mul_comm 2]
    exact Nat.pow_add 2 j (F.fractionBits + 1)
  have hquot : a / b < Nat.pow 2 j * (2 * F.implicitBit) := by
    rw [← hpow]
    exact Nat.lt_of_lt_of_le Nat.lt_log2_self (Nat.pow_le_pow_right (by decide) (by omega))
  have hlt : a < b * Nat.pow 2 j * (2 * F.implicitBit) := by
    rw [Nat.mul_assoc]
    exact Nat.lt_of_lt_of_le (Nat.lt_mul_div_succ a hb) (Nat.mul_le_mul_left b hquot)
  have hround : roundEven a (b * Nat.pow 2 j) ≤ 2 * F.implicitBit := roundEven_le_of_lt hlt
  rw [Nat.add_mul]
  exact Nat.add_le_add_left hround _

/-- A quotient that is less than `2 ^ m` in size is not rounded to infinity, if the exponent range has
room for `m`. -/
theorem nearest_lt_limit (hF : 2 ≤ F.exponentBits) {a b m : Nat} (hb : 0 < b)
    (hlt : a / b < Nat.pow 2 (m + F.depth)) (hm : m < Nat.pow 2 (F.exponentBits - 1)) :
    F.nearest a b < F.limit := by
  have hbinades : Nat.pow 2 F.exponentBits = 2 * Nat.pow 2 (F.exponentBits - 1) := by
    rw [show F.exponentBits = F.exponentBits - 1 + 1 by omega, Nat.mul_comm]
    rfl
  have htwo : 2 ≤ Nat.pow 2 (F.exponentBits - 1) :=
    Nat.pow_le_pow_right Nat.two_pos (by omega : 1 ≤ F.exponentBits - 1)
  have hlog : (a / b).log2 < m + F.depth ∨ (a / b).log2 = 0 := by
    by_cases h0 : a / b = 0
    · exact Or.inr (by rw [h0]; rfl)
    · exact Or.inl ((Nat.log2_lt h0).2 hlt)
  have hdepth : F.depth = Nat.pow 2 (F.exponentBits - 1) - 2 + F.fractionBits := rfl
  refine Nat.lt_of_le_of_lt (F.nearest_le a hb) ((Nat.mul_lt_mul_right F.implicitBit_pos).2 ?_)
  omega

def nearestToNat (n : Nat) : Nat := F.nearest (n * Nat.pow 2 F.depth) 1

theorem nearestToNat_lt_limit (hF : 2 ≤ F.exponentBits) {n m : Nat} (hn : n < Nat.pow 2 m)
    (hm : m < Nat.pow 2 (F.exponentBits - 1)) : F.nearestToNat n < F.limit := by
  refine F.nearest_lt_limit hF Nat.one_pos ?_ hm
  have hpow : Nat.pow 2 (m + F.depth) = Nat.pow 2 m * Nat.pow 2 F.depth :=
    Nat.pow_add 2 m F.depth
  rw [Nat.div_one, hpow]
  exact (Nat.mul_lt_mul_right (Nat.two_pow_pos F.depth)).2 hn

end FloatFormat

namespace Binary

variable {F : FloatFormat}

theorem ofIndex_of_lt (s : Bool) {k : Nat} (h : k < F.limit) :
    (ofIndex s k : Binary F) = .finite s ⟨k, h⟩ :=
  dif_pos h

private theorem isFinite_ofIndex (s : Bool) {k : Nat} (h : k < F.limit) :
    (ofIndex s k : Binary F).isFinite := by
  rw [ofIndex_of_lt s h]
  rfl

theorem isFinite_ofInt (hF : 2 ≤ F.exponentBits) {n : Int} {m : Nat}
    (hn : n.natAbs < Nat.pow 2 m) (hm : m < Nat.pow 2 (F.exponentBits - 1)) :
    (ofInt n : Binary F).isFinite :=
  isFinite_ofIndex _ (F.nearestToNat_lt_limit hF hn hm)

end Binary

theorem JsonNumber.isFinite_toBinary (n : JsonNumber) : n.toBinary.isFinite := by
  cases n with
  | integer i h =>
    refine Binary.isFinite_ofInt (m := 65) (by decide) ?_ (by decide)
    have hpow : Nat.pow 2 65 = 0x20000000000000000 := rfl
    omega
  | float x h => exact h

end TargetSelector
