import TargetSelector.Json.Basic
import TargetSelector.Numeric.Shortest
import TargetSelector.Text.Quoted

/-!
Errors of JSON that has the wrong layout, and the reading of a value that is one of a few names.
-/
namespace TargetSelector

inductive DecodeError where
  | missingField (name : String)
  | wrongType (found : Json) (expected : String)
  | tooShort (length : Nat) (expected : String)
  | tooLong (length : Nat)
  | unknownVariant (given : String) (known : List String)
  | notSingleton
  | unbounded
  | notRange

/-- A value in an error message: the fewest digits that read back, with a point. Powers of ten from
`-5` to `15` are written out. -/
def FloatFormat.pointedText (F : FloatFormat) (k : Nat) : String :=
  let d := (F.shortest .toEven k).normal
  let ds := Nat.toDigits 10 d.coefficient
  let e := d.exponent + ds.length - 1
  if k = 0 then "0.0"
  else if -5 ≤ e ∧ e ≤ 15 then
    if 0 ≤ d.exponent then d.text ++ ".0" else d.text
  else
    String.ofList (ds.take 1) ++ (if ds.length = 1 then "" else "." ++ String.ofList (ds.drop 1)) ++
      "e" ++ (if e < 0 then "-" else "+") ++ e.natAbs.repr

def Binary.pointedText {F : FloatFormat} : Binary F → String
  | .finite s k => (if s then "-" else "") ++ F.pointedText k
  | x => x.text

def JsonNumber.describe : JsonNumber → String
  | .integer n _ => "integer `" ++ n.repr ++ "`"
  | .float x _ => "floating point `" ++ x.pointedText ++ "`"

/-- A JSON value as messages name it: its kind, with the value of a scalar. -/
def Json.describe : Json → String
  | .null => "null"
  | .bool b => "boolean `" ++ (if b then "true" else "false") ++ "`"
  | .number n => n.describe
  | .string s => "string " ++ quoted s
  | .array _ => "sequence"
  | .object _ => "map"

def DecodeError.message : DecodeError → String
  | .missingField name => "missing field `" ++ name ++ "`"
  | .wrongType found expected => "invalid type: " ++ found.describe ++ ", expected " ++ expected
  | .tooShort n expected => "invalid length " ++ n.repr ++ ", expected " ++ expected
  | .tooLong n => "invalid length " ++ n.repr ++ ", expected fewer elements in array"
  | .unknownVariant given known =>
    "unknown variant `" ++ given ++ "`, expected one of " ++
      ", ".intercalate (known.map fun k => "`" ++ k ++ "`")
  | .notSingleton => "invalid value: map, expected map with a single key"
  | .unbounded => "range must have at least one bound"
  | .notRange => "data did not match any variant of untagged enum RangeRepr"

namespace Json

/-- The alternative of that name. -/
def pickVariant {α : Type} (variants : List (String × α)) (given : String) : Except DecodeError α :=
  match variants.find? fun v => v.1 = given with
  | some v => .ok v.2
  | none => .error (.unknownVariant given (variants.map (·.1)))

/-- One of a few alternatives: its name, or an object whose one member has that name and is null. -/
def toVariant {α : Type} (variants : List (String × α)) : Json → Except DecodeError α
  | .string s => pickVariant variants s
  | .object [(name, payload)] => do
    let a ← pickVariant variants name
    match payload with
    | .null => return a
    | v => .error (.wrongType v "unit")
  | .object _ => .error .notSingleton
  | v => .error (.wrongType v "string or map")

end Json

end TargetSelector
