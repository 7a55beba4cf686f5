import TargetSelector.Numeric.Binary
import TargetSelector.Numeric.Decimal

/-!
Shortest decimals. Of the decimals that read back to a value, the text of the value takes one with the
fewest significant digits, and of those the nearest.
-/
namespace TargetSelector

/-- The neighbour that is taken where a value lies midway between two decimals. -/
inductive Midpoint where
  | upward
  | toEven
deriving DecidableEq

namespace FloatFormat

variable (F : FloatFormat)

def nearestToDecimal (d : Decimal) : Nat :=
  if 0 ≤ d.exponent then F.nearest (d.coefficient * Nat.pow 10 d.exponent.toNat * Nat.pow 2 F.depth) 1
  else F.nearest (d.coefficient * Nat.pow 2 F.depth) (Nat.pow 10 (-d.exponent).toNat)

/-- The count of digits that the value at `k` has before the point; for a value under one, less the
zeros that follow the point. -/
def leadingExponent (k : Nat) : Int :=
  let a := F.units k
  let b := Nat.pow 2 F.depth
  if b ≤ a then digitCount (a / b) else 1 - digitCount ((b - 1) / a)

/-- The neighbours of the value at `k` among the multiples of `10 ^ e`, the nearer first. -/
def neighbours (m : Midpoint) (k : Nat) (e : Int) : List Decimal :=
  let a := if 0 ≤ e then F.units k else F.units k * Nat.pow 10 (-e).toNat
  let b := if 0 ≤ e then Nat.pow 2 F.depth * Nat.pow 10 e.toNat else Nat.pow 2 F.depth
  let c := a / b
  let r := 2 * (a % b)
  let up := b < r || (r = b && (m = .upward || c % 2 = 1))
  if up then [⟨c + 1, e⟩, ⟨c, e⟩] else [⟨c, e⟩, ⟨c + 1, e⟩]

/-- A decimal of `digits` significant digits that reads back to the value at `k`. -/
def decimal? (m : Midpoint) (k digits : Nat) : Option Decimal :=
  (F.neighbours m k (F.leadingExponent k - digits)).find? fun d => F.nearestToDecimal d = k

def exactDecimal (k : Nat) : Decimal :=
  ⟨F.units k * Nat.pow 5 F.depth, -F.depth⟩

/-- The shortest decimal that reads back to the value at `k`. -/
def shortest (m : Midpoint) (k : Nat) : Decimal :=
  if k = 0 then ⟨0, 0⟩
  else ((List.range' 1 17).findSome? (F.decimal? m k)).getD (F.exactDecimal k)

theorem nearestToDecimal_exactDecimal (k : Nat) : F.nearestToDecimal (F.exactDecimal k) = k := by
  have hpow : Nat.pow 10 F.depth = Nat.pow 5 F.depth * Nat.pow 2 F.depth :=
    Nat.mul_pow 5 2 F.depth
  have hpos : 0 < Nat.pow 10 F.depth := Nat.pow_pos (by decide)
  unfold nearestToDecimal exactDecimal
  dsimp only
  split
  · next h =>
    have h0 : F.depth = 0 := by omega
    simp [h0, F.nearest_units]
  · rw [show (- -(F.depth : Int)).toNat = F.depth by omega, Nat.mul_assoc, ← hpow,
      ← Nat.one_mul (Nat.pow 10 F.depth), ← Nat.mul_assoc, Nat.mul_one,
      F.nearest_mul_mul _ _ hpos, F.nearest_units]

theorem nearestToDecimal_of_decimal? {m : Midpoint} {k digits : Nat} {d : Decimal}
    (h : F.decimal? m k digits = some d) : F.nearestToDecimal d = k := by
  simpa using List.find?_some h

/-- The shortest decimal of a value reads back to it. -/
theorem nearestToDecimal_shortest (m : Midpoint) (k : Nat) :
    F.nearestToDecimal (F.shortest m k) = k := by
  unfold shortest
  split
  · next h =>
    subst h
    simpa [nearestToDecimal] using F.nearest_units 0
  · cases hf : (List.range' 1 17).findSome? (F.decimal? m k) with
    | none => exact F.nearestToDecimal_exactDecimal k
    | some d =>
      obtain ⟨n, _, hn⟩ := List.exists_of_findSome?_eq_some hf
      exact F.nearestToDecimal_of_decimal? hn

end FloatFormat

namespace Binary

variable {F : FloatFormat}

/-- The text of a value: a minus sign where it is negative, then its shortest decimal. -/
def text : Binary F → String
  | .nan => "NaN"
  | .infinite s => (if s then "-" else "") ++ "inf"
  | .finite s k => (if s then "-" else "") ++ (F.shortest .upward k).text

example : (Binary.ofDecimal false 1 (-7) : Binary64).text = "0.0000001" := by decide +kernel
example : (Binary.ofDecimal true 0 0 : Binary64).text = "-0" := by decide +kernel
example : (Binary.ofNat (2 ^ 63) : Binary64).text = "9223372036854776000" := by decide +kernel
example : (Binary.ofDecimal false 1 (-1) : Binary32).text = "0.1" := by decide +kernel
example : (Binary.finite false ⟨1, by decide⟩ : Binary32).text.length = 47 := by decide +kernel

end Binary

end TargetSelector
