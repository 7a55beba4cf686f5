import TargetSelector.Numeric.Numeral

/-!
JSON numbers. A numeral is an integer if it fits into 64 bits, signed or not, and a finite floating-
point value otherwise. That is not the nearest one to its numeral: the digits go into a significand of
64 bits, which is then multiplied or divided by a power of ten, and both steps round.
-/
namespace TargetSelector

inductive JsonNumber where
  | integer (value : Int) (range : -0x8000000000000000 ≤ value ∧ value < 0x10000000000000000)
  | float (value : Binary64) (finite : value.isFinite)
deriving DecidableEq

namespace JsonNumber

def toInt64? : JsonNumber → Option Int64
  | .integer n _ => if n < 0x8000000000000000 then some (Int64.ofInt n) else none
  | .float _ _ => none

def toBinary : JsonNumber → Binary64
  | .integer n _ => .ofInt n
  | .float x _ => x

def float? (x : Binary64) : Option JsonNumber :=
  if h : x.isFinite then some (.float x h) else none

/-- Adds digits to a significand for as long as it fits into 64 bits. The second part holds the digits
that are left. -/
def gather (n : Nat) : List Nat → Nat × List Nat
  | [] => (n, [])
  | d :: ds =>
    if n * 10 + d < 0x10000000000000000 then gather (n * 10 + d) ds else (n, d :: ds)

/-- `x` divided by `10 ^ m`, in steps of at most `10 ^ 308`. -/
def divPow (x : Binary64) (m : Nat) : Binary64 :=
  if m ≤ 308 then x.div (.ofNat (Nat.pow 10 m))
  else if x.isZero then x
  else divPow (x.div (.ofNat (Nat.pow 10 308))) (m - 308)
termination_by m
decreasing_by omega

/-- `x` times `10 ^ e`. The result is infinite where the power is too large. -/
def scale (x : Binary64) (e : Int) : Binary64 :=
  if e < 0 then divPow x (-e).toNat
  else if e ≤ 308 then x.mul (.ofNat (Nat.pow 10 e.toNat))
  else if x.isZero then x
  else .infinite false

/-- The value of a numeral with a fraction or an exponent, or with more digits than fit. A whole digit
that does not fit raises the power of ten, and a fraction digit that does not fit is dropped. -/
def inexact? (x : Numeral) : Option JsonNumber :=
  let (n, unfit) := gather 0 x.whole
  let fraction := x.fraction.getD []
  let (n, dropped) := gather n fraction
  let e := x.exponent.getD 0 + unfit.length - (fraction.length - dropped.length : Nat)
  let y := scale (.ofNat n) e
  float? (if x.negative then y.neg else y)

/-- The number that a numeral writes, unless it is out of range. The negative zero is no integer. -/
def ofNumeral? (x : Numeral) : Option JsonNumber :=
  let n := ofDigits 0 x.whole
  let i : Int := if x.negative then -n else n
  if h : (-0x8000000000000000 ≤ i ∧ i < 0x10000000000000000) ∧
      x.fraction = none ∧ x.exponent = none ∧ ¬ (x.negative ∧ n = 0) then
    some (.integer i h.1)
  else inexact? x

end JsonNumber

end TargetSelector
