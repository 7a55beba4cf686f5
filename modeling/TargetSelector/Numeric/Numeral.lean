import TargetSelector.Numeric.Binary

/-!
Numerals: a sign, digits on both sides of a point, and a power of ten. `Binary.ofText?` reads a whole
text as a number of a format, rounding once.
-/
namespace TargetSelector

/-- The digits at the front of a text, and the rest of it. -/
def splitDigits (cs : List Char) : List Nat × List Char :=
  ((cs.takeWhile Char.isDigit).map fun c => c.toNat - '0'.toNat, cs.dropWhile Char.isDigit)

/-- The number that a list of digits writes, after the number `n`. -/
def ofDigits (n : Nat) (ds : List Nat) : Nat :=
  ds.foldl (fun m d => 10 * m + d) n

/-- An optional sign at the front of a text, and the rest of it. -/
def splitSign : List Char → Bool × List Char
  | '-' :: r => (true, r)
  | '+' :: r => (false, r)
  | r => (false, r)

/-- A written number. A part that is not written is `none`. -/
structure Numeral where
  negative : Bool
  whole : List Nat
  fraction : Option (List Nat) := none
  exponent : Option Int := none

namespace Numeral

def coefficient (x : Numeral) : Nat :=
  ofDigits (ofDigits 0 x.whole) (x.fraction.getD [])

def power (x : Numeral) : Int :=
  x.exponent.getD 0 - ((x.fraction.getD []).length : Int)

/-- The value nearest to a numeral. A power of ten beyond every value of the format is moved to just
beyond it, which keeps the result. -/
def toBinary (F : FloatFormat) (x : Numeral) : Binary F :=
  let n := x.coefficient
  let least : Int := -(F.depth + 1 + digitCount n : Nat)
  let most : Int := (Nat.pow 2 F.exponentBits : Nat)
  .ofDecimal x.negative n (max least (min most x.power))

private def exponent? : List Char → Option (Option Int)
  | [] => some none
  | c :: r =>
    if c = 'e' || c = 'E' then
      let (negative, r) := splitSign r
      match splitDigits r with
      | (d :: ds, []) =>
        let e : Int := ofDigits 0 (d :: ds)
        some (some (if negative then -e else e))
      | _ => none
    else none

/-- Reads digits with at most one point, then an optional power of ten. A point needs a digit on one
side. -/
def ofChars? (negative : Bool) (cs : List Char) : Option Numeral :=
  match splitDigits cs with
  | (whole, '.' :: r) =>
    let (fraction, r) := splitDigits r
    if whole.isEmpty && fraction.isEmpty then none
    else (exponent? r).map fun e => ⟨negative, whole, some fraction, e⟩
  | ([], _) => none
  | (whole, r) => (exponent? r).map fun e => ⟨negative, whole, none, e⟩

end Numeral

/-- Reads a number: a numeral, `inf`, `infinity` or `nan`, the words in either case, after an optional
sign. -/
def Binary.ofText? (F : FloatFormat) (s : String) : Option (Binary F) :=
  let (negative, cs) := splitSign s.toList
  let word := cs.map Char.toLower
  if word = ['n', 'a', 'n'] then some .nan
  else if word = ['i', 'n', 'f'] || word = ['i', 'n', 'f', 'i', 'n', 'i', 't', 'y'] then
    some (.infinite negative)
  else (Numeral.ofChars? negative cs).map (Numeral.toBinary F)

example : Binary.ofText? .binary64 "-1.5e1" = some (.ofInt (-15)) := by decide +kernel
example : Binary.ofText? .binary64 "1e999" = some (.infinite false) := by decide +kernel
example : Binary.ofText? .binary64 "." = none := by decide +kernel

end TargetSelector
