import TargetSelector.Numeric.Rounding

/-!
Unsigned decimal numbers and their positional text. The text never has an exponent, and no zero ends
its fraction; a whole number has no point.
-/
namespace TargetSelector

/-- The number `coefficient · 10 ^ exponent`. -/
structure Decimal where
  coefficient : Nat
  exponent : Int
deriving DecidableEq

namespace Decimal

/-- Decimal digits of `n`, filled up with zeros on the left to `width` places. -/
def padded (width n : Nat) : List Char :=
  let ds := Nat.toDigits 10 n
  List.replicate (width - ds.length) '0' ++ ds

/-- A list of digits without the zeros at its end. -/
def trimZeros (ds : List Char) : List Char :=
  (ds.reverse.dropWhile (· == '0')).reverse

def fixedText (n places : Nat) : String :=
  let whole := n / Nat.pow 10 places
  let part := n % Nat.pow 10 places
  if part = 0 then whole.repr
  else whole.repr ++ "." ++ String.ofList (trimZeros (padded places part))

def text (d : Decimal) : String :=
  if 0 ≤ d.exponent then (d.coefficient * Nat.pow 10 d.exponent.toNat).repr
  else fixedText d.coefficient (-d.exponent).toNat

/-- The same number without zeros at the end of its coefficient. -/
def normal (d : Decimal) : Decimal :=
  let ds := Nat.toDigits 10 d.coefficient
  let zeros := ds.length - (trimZeros ds).length
  if d.coefficient = 0 then ⟨0, 0⟩
  else ⟨d.coefficient / Nat.pow 10 zeros, d.exponent + zeros⟩

example : text ⟨15, -1⟩ = "1.5" := by decide +kernel
example : text ⟨5, 2⟩ = "500" := by decide +kernel
example : text ⟨10, -8⟩ = "0.0000001" := by decide +kernel

end Decimal

end TargetSelector
