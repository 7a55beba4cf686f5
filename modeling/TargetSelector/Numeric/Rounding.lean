/-! Nearest integer to a quotient, with a midpoint going to the even neighbour, and digit counts. -/
namespace TargetSelector

/-- The integer nearest to `a / b`; the midpoint of two integers goes to the even one. -/
def roundEven (a b : Nat) : Nat :=
  let q := a / b
  let r := 2 * (a % b)
  if r < b then q
  else if b < r then q + 1
  else q + q % 2

/-- The count of decimal digits of `n`; zero has one. -/
def digitCount (n : Nat) : Nat :=
  (Nat.toDigits 10 n).length

theorem roundEven_one (n : Nat) : roundEven n 1 = n := by
  simp [roundEven, Nat.mod_one]

theorem roundEven_mul_right (n b : Nat) (hb : 0 < b) : roundEven (n * b) b = n := by
  simp [roundEven, hb]

theorem roundEven_mul_mul (a b : Nat) {c : Nat} (hc : 0 < c) :
    roundEven (a * c) (b * c) = roundEven a b := by
  have hm : 2 * (a * c % (b * c)) = 2 * (a % b) * c := by
    rw [Nat.mul_mod_mul_right, Nat.mul_assoc]
  unfold roundEven
  dsimp only
  rw [Nat.mul_div_mul_right a b hc, hm]
  simp only [Nat.mul_lt_mul_right hc]

theorem roundEven_bounds (a b : Nat) : a / b ≤ roundEven a b ∧ roundEven a b ≤ a / b + 1 := by
  unfold roundEven
  dsimp only
  split
  · omega
  · split <;> omega

end TargetSelector
