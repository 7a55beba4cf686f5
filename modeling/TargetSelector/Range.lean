import TargetSelector.Numeric.Shortest

/-! Ranges of numbers: one value, or an interval with a bound on one side or on both. -/
namespace TargetSelector

inductive Range where
  | exact (value : Binary64)
  | between (lower upper : Binary64)
  | atLeast (lower : Binary64)
  | atMost (upper : Binary64)
deriving DecidableEq

namespace Range

/-- A range from optional bounds. Bounds that are equal as numbers make one value, the lower one. -/
def ofBounds? : Option Binary64 → Option Binary64 → Option Range
  | some lo, some hi => some (if lo.ieeeEq hi then .exact lo else .between lo hi)
  | some lo, none => some (.atLeast lo)
  | none, some hi => some (.atMost hi)
  | none, none => none

def min? : Range → Option Binary64
  | .exact v | .atLeast v | .between v _ => some v
  | .atMost _ => none

def max? : Range → Option Binary64
  | .exact v | .atMost v | .between _ v => some v
  | .atLeast _ => none

def isFinite (r : Range) : Bool :=
  r.min?.all Binary.isFinite && r.max?.all Binary.isFinite

def text : Range → String
  | .exact v => v.canonical.text
  | .between lo hi => lo.canonical.text ++ ".." ++ hi.canonical.text
  | .atLeast lo => lo.canonical.text ++ ".."
  | .atMost hi => ".." ++ hi.canonical.text

/-- The same form, with bounds that are equal as numbers. -/
def eqv : Range → Range → Bool
  | .exact v, .exact w => v.ieeeEq w
  | .between lo hi, .between lo' hi' => lo.ieeeEq lo' && hi.ieeeEq hi'
  | .atLeast lo, .atLeast lo' => lo.ieeeEq lo'
  | .atMost hi, .atMost hi' => hi.ieeeEq hi'
  | _, _ => false

theorem eqv_comm (r q : Range) : r.eqv q = q.eqv r := by
  cases r <;> cases q <;> simp [eqv, Binary.ieeeEq_comm]

end Range

end TargetSelector
