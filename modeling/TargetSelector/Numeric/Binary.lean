import TargetSelector.Numeric.Format

/-!
Floating-point values of a binary format. Arithmetic is exact and then rounds once to the nearest value.
Nothing here goes through the native floating-point type.
-/
namespace TargetSelector

/-- A value of format `F`; a finite value is a sign and the index of its magnitude. -/
inductive Binary (F : FloatFormat) where
  | nan
  | infinite (negative : Bool)
  | finite (negative : Bool) (magnitude : Fin F.limit)
deriving DecidableEq

abbrev Binary64 := Binary .binary64

abbrev Binary32 := Binary .binary32

namespace Binary

variable {F : FloatFormat}

/-- The value of a sign and an index; an index past the finite ones is infinity. -/
def ofIndex (negative : Bool) (k : Nat) : Binary F :=
  if h : k < F.limit then .finite negative ⟨k, h⟩ else .infinite negative

/-- The value nearest to `±a / b`, ties to the even index. -/
def ofRatio (negative : Bool) (a b : Nat) : Binary F :=
  ofIndex negative (F.nearest (a * Nat.pow 2 F.depth) b)

/-- The value nearest to `±n · 10 ^ e`. -/
def ofDecimal (negative : Bool) (n : Nat) (e : Int) : Binary F :=
  if 0 ≤ e then ofRatio negative (n * Nat.pow 10 e.toNat) 1
  else ofRatio negative n (Nat.pow 10 (-e).toNat)

def ofNat (n : Nat) : Binary F := ofRatio false n 1

/-- The value nearest to an integer; zero gets the positive sign. -/
def ofInt (n : Int) : Binary F := ofRatio (decide (n < 0)) n.natAbs 1

def neg : Binary F → Binary F
  | .nan => .nan
  | .infinite s => .infinite !s
  | .finite s k => .finite (!s) k

def mul : Binary F → Binary F → Binary F
  | .finite s k, .finite t l =>
    ofIndex (s ^^ t) (F.nearest (F.units k * F.units l) (Nat.pow 2 F.depth))
  | .nan, _ | _, .nan => .nan
  | .infinite s, .infinite t => .infinite (s ^^ t)
  | .infinite s, .finite t l => if l.val = 0 then .nan else .infinite (s ^^ t)
  | .finite s k, .infinite t => if k.val = 0 then .nan else .infinite (s ^^ t)

def div : Binary F → Binary F → Binary F
  | .finite s k, .finite t l =>
    if l.val = 0 then (if k.val = 0 then .nan else .infinite (s ^^ t))
    else ofIndex (s ^^ t) (F.nearest (F.units k * Nat.pow 2 F.depth) (F.units l))
  | .nan, _ | _, .nan => .nan
  | .infinite _, .infinite _ => .nan
  | .infinite s, .finite t _ => .infinite (s ^^ t)
  | .finite s k, .infinite t => .finite (s ^^ t) ⟨0, Nat.zero_lt_of_lt k.isLt⟩

def isFinite : Binary F → Bool
  | .finite _ _ => true
  | _ => false

def isZero : Binary F → Bool
  | .finite _ k => k.val = 0
  | _ => false

/-- Numeric equality: the two zeros are equal, and `nan` is equal to nothing. -/
def ieeeEq : Binary F → Binary F → Bool
  | .finite s k, .finite t l => k = l && (s = t || k.val = 0)
  | .infinite s, .infinite t => s = t
  | _, _ => false

/-- The same number with a negative zero made positive. -/
def canonical : Binary F → Binary F
  | .finite s k => .finite (s && k.val ≠ 0) k
  | x => x

theorem ieeeEq_self_iff (x : Binary F) : x.ieeeEq x = true ↔ x ≠ .nan := by
  cases x <;> simp [ieeeEq]

theorem ieeeEq_comm (x y : Binary F) : x.ieeeEq y = y.ieeeEq x := by
  cases x <;> cases y <;> simp [ieeeEq, eq_comm]
  grind

/-- Away from `nan`, numeric equality is equality of canonical values. -/
theorem ieeeEq_iff_canonical {x y : Binary F} :
    x.ieeeEq y = true ↔ x ≠ .nan ∧ x.canonical = y.canonical := by
  cases x <;> cases y <;> simp [ieeeEq, canonical]
  grind

theorem isFinite_canonical (x : Binary F) : x.canonical.isFinite = x.isFinite := by
  cases x <;> rfl

theorem canonical_canonical (x : Binary F) : x.canonical.canonical = x.canonical := by
  cases x <;> simp [canonical]

end Binary

end TargetSelector
