import Mathlib.Logic.Basic
import TargetSelector.Proofs.Json.Reading

/-!
Numerals that are read without a rounding error. Where significand and power of ten are values of the
format, only their product or quotient rounds.
-/
namespace TargetSelector

/-- The text of a value is a numeral that reads back to the value. -/
theorem FloatFormat.exists_shortest_numeral (F : FloatFormat) (m : Midpoint) (k : Nat) :
    ∃ (w : Nat) (fraction : List Char),
      (F.shortest m k).text.toList = Nat.toDigits 10 w ++ Decimal.fractionText fraction ∧
      (∀ c ∈ fraction, c.isDigit) ∧
      F.nearest (Nat.ofDigitChars 10 fraction w * Nat.pow 2 F.depth) (Nat.pow 10 fraction.length) = k := by
  have hread := F.nearestToDecimal_shortest m k
  generalize F.shortest m k = d at hread ⊢
  obtain ⟨fraction, htext, hfraction, hvalue⟩ := Decimal.exists_fraction d.digits d.places
  rw [← Decimal.text_eq] at htext
  refine ⟨_, fraction, htext, hfraction, ?_⟩
  generalize Nat.ofDigitChars 10 fraction (d.digits / Nat.pow 10 d.places) = value at hvalue ⊢
  have hplaces : 0 < Nat.pow 10 d.places := Nat.pow_pos (by decide)
  have hlength : 0 < Nat.pow 10 fraction.length := Nat.pow_pos (by decide)
  calc F.nearest (value * Nat.pow 2 F.depth) (Nat.pow 10 fraction.length)
      = F.nearest (value * Nat.pow 2 F.depth * Nat.pow 10 d.places)
          (Nat.pow 10 fraction.length * Nat.pow 10 d.places) := (F.nearest_mul_mul _ _ hplaces).symm
    _ = F.nearest (d.digits * Nat.pow 2 F.depth * Nat.pow 10 fraction.length)
          (Nat.pow 10 d.places * Nat.pow 10 fraction.length) := by
        rw [Nat.mul_right_comm, ← hvalue, Nat.mul_right_comm, Nat.mul_comm (Nat.pow 10 d.places)]
    _ = F.nearest (d.digits * Nat.pow 2 F.depth) (Nat.pow 10 d.places) := F.nearest_mul_mul _ _ hlength
    _ = k := by rw [← F.nearestToDecimal_eq, hread]

namespace Binary

variable {F : FloatFormat}

theorem ofNat_eq_finite {n : Nat} (h : F.nearestToNat n < F.limit) :
    (ofNat n : Binary F) = .finite false ⟨F.nearestToNat n, h⟩ :=
  dif_pos h

/-- The quotient of two whole numbers that are values is rounded once. -/
theorem div_ofNat {m q : Nat} (hm : F.units (F.nearestToNat m) = m * Nat.pow 2 F.depth)
    (hq : F.units (F.nearestToNat q) = q * Nat.pow 2 F.depth) (hpos : 0 < q)
    (hmlimit : F.nearestToNat m < F.limit) (hqlimit : F.nearestToNat q < F.limit) :
    (ofNat m : Binary F).div (ofNat q) = ofIndex false (F.nearest (m * Nat.pow 2 F.depth) q) := by
  have hdepth : 0 < Nat.pow 2 F.depth := Nat.two_pow_pos F.depth
  have hne : F.nearestToNat q ≠ 0 := by
    intro h
    rw [h, F.units_zero] at hq
    exact Nat.ne_of_lt (Nat.mul_pos hpos hdepth) hq
  rw [ofNat_eq_finite hmlimit, ofNat_eq_finite hqlimit, div]
  dsimp only
  rw [if_neg hne, hm, hq, F.nearest_mul_mul _ _ hdepth]
  rfl

theorem mul_ofNat_one (s : Bool) (k : Fin F.limit) (hone : F.nearestToNat 1 < F.limit) :
    (finite s k : Binary F).mul (ofNat 1) = .finite s k := by
  have hdepth : 0 < Nat.pow 2 F.depth := Nat.two_pow_pos F.depth
  have hunits : F.units (F.nearestToNat 1) = Nat.pow 2 F.depth := by
    rw [F.units_nearestToNat (by have := F.implicitBit_pos; omega), Nat.one_mul]
  have hproduct : F.nearest (F.units k * Nat.pow 2 F.depth) (Nat.pow 2 F.depth) = k := by
    have hcancel := F.nearest_mul_mul (F.units k) 1 hdepth
    rwa [Nat.one_mul, F.nearest_units] at hcancel
  rw [ofNat_eq_finite hone, mul]
  dsimp only
  rw [hunits, hproduct, Bool.xor_false, ofIndex_of_lt s k.isLt]

end Binary

namespace JsonNumber

/-- A numeral that is read as an integer has only a sign and digits, and they are those of the integer. -/
theorem eq_of_ofNumeral?_eq_integer {x : Numeral} {n : Int}
    {range : -0x8000000000000000 ≤ n ∧ n < 0x10000000000000000}
    (h : ofNumeral? x = some (.integer n range)) :
    (if x.negative then -(ofDigits 0 x.whole : Int) else ofDigits 0 x.whole) = n ∧
      x.fraction = none ∧ x.exponent = none ∧ ¬ (x.negative ∧ ofDigits 0 x.whole = 0) := by
  have hfloat : ∀ y, float? y ≠ some (.integer n range) := by
    intro y
    unfold float?
    split <;> simp
  rw [ofNumeral?] at h
  rcases dite_eq_iff.1 h with ⟨hcond, h⟩ | ⟨-, h⟩
  · cases h
    exact ⟨rfl, hcond.2⟩
  · exact absurd h (hfloat _)

/-- A numeral that is read as an integer is the text of the integer. -/
theorem eq_of_ofNumeral?_toDigits {negative : Bool} {w : Nat} {fraction : List Char} {e? : Option Int}
    {n : Int} {range : -0x8000000000000000 ≤ n ∧ n < 0x10000000000000000}
    (h : ofNumeral? { Reader.numeral negative (Nat.toDigits 10 w) fraction with exponent := e? } =
      some (.integer n range)) :
    fraction = [] ∧ e? = none ∧ negative = decide (n < 0) ∧ w = n.natAbs := by
  obtain ⟨hvalue, hfraction, hexponent, hzero⟩ := eq_of_ofNumeral?_eq_integer h
  have hdigits : ofDigits 0 (Reader.digitValues (Nat.toDigits 10 w)) = w := by
    rw [Reader.ofDigits_digitValues, Nat.ofDigitChars_ten_toDigits]
  simp only [Reader.numeral, hdigits] at hvalue hzero
  refine ⟨?_, hexponent, ?_, ?_⟩
  · by_cases hnil : fraction = []
    · exact hnil
    · rw [Reader.numeral, if_neg hnil] at hfraction
      cases hfraction
  · cases negative <;> simp at hvalue hzero ⊢ <;> omega
  · cases negative <;> simp at hvalue <;> omega

theorem le_ofDigits (n : Nat) (ds : List Nat) : n ≤ ofDigits n ds := by
  induction ds generalizing n with
  | nil => exact Nat.le_refl n
  | cons d ds ih =>
    have hle : 10 * n + d ≤ ofDigits (10 * n + d) ds := ih (10 * n + d)
    show n ≤ ofDigits (10 * n + d) ds
    omega

theorem gather_eq {n : Nat} {ds : List Nat} (h : ofDigits n ds < 0x10000000000000000) :
    gather n ds = (ofDigits n ds, []) := by
  induction ds generalizing n with
  | nil => rfl
  | cons d ds ih =>
    have hle : 10 * n + d ≤ ofDigits (10 * n + d) ds := le_ofDigits _ ds
    have hlt : ofDigits (10 * n + d) ds < 0x10000000000000000 := h
    rw [gather, if_pos (by omega), Nat.mul_comm n 10]
    exact ih hlt

private theorem scale_zero (x : Binary64) : scale x 0 = x.mul (.ofNat 1) := by
  have hpow : Nat.pow 10 (Int.toNat 0) = 1 := rfl
  rw [scale, if_neg (by decide), if_pos (by decide), hpow]

private theorem scale_neg (x : Binary64) {p : Nat} (hpos : 0 < p) (hp : p ≤ 308) :
    scale x (-(p : Int)) = x.div (.ofNat (Nat.pow 10 p)) := by
  rw [scale, if_pos (by omega), show (- -(p : Int)).toNat = p by omega, divPow, if_pos hp]

def signed (negative : Bool) (y : Binary64) : Option JsonNumber :=
  float? (if negative then y.neg else y)

section Numerals

variable {negative : Bool} {ds fraction : List Char}

/-- With all digits gathered, a numeral with a fraction is a quotient of two rounded whole numbers. -/
theorem inexact?_of_fraction (hne : fraction ≠ []) (hplaces : fraction.length ≤ 308)
    (h : Nat.ofDigitChars 10 fraction (Nat.ofDigitChars 10 ds 0) < 0x10000000000000000) :
    inexact? (Reader.numeral negative ds fraction) =
      signed negative ((Binary.ofNat (Nat.ofDigitChars 10 fraction (Nat.ofDigitChars 10 ds 0))).div
        (.ofNat (Nat.pow 10 fraction.length))) := by
  rw [← Reader.ofDigits_digitValues, ← Reader.ofDigits_digitValues] at h ⊢
  have hwhole := Nat.lt_of_le_of_lt (le_ofDigits _ _) h
  have hpos : 0 < fraction.length := List.length_pos_iff.2 hne
  have hlength : (Reader.digitValues fraction).length = fraction.length := List.length_map _
  have hpower : (0 : Int) + ([] : List Nat).length - (fraction.length - ([] : List Nat).length : Nat) =
      -(fraction.length : Int) := by
    simp
  unfold inexact? Reader.numeral
  dsimp only
  rw [gather_eq hwhole, if_neg hne]
  dsimp only [Option.getD_some, Option.getD_none]
  rw [gather_eq h]
  dsimp only
  rw [hlength, hpower, scale_neg _ hpos hplaces]
  rfl

/-- With all digits gathered, a numeral without a fraction is a rounded whole number. -/
theorem inexact?_of_whole (h : Nat.ofDigitChars 10 ds 0 < 0x10000000000000000) :
    inexact? (Reader.numeral negative ds []) =
      signed negative ((Binary.ofNat (Nat.ofDigitChars 10 ds 0)).mul (.ofNat 1)) := by
  rw [← Reader.ofDigits_digitValues] at h ⊢
  have hpower : (0 : Int) + ([] : List Nat).length - (([] : List Nat).length - ([] : List Nat).length : Nat) =
      0 := rfl
  unfold inexact? Reader.numeral
  dsimp only
  rw [gather_eq h, if_pos rfl]
  dsimp only [Option.getD_none, gather]
  rw [hpower, scale_zero]
  rfl

/-! Where the result is the value nearest to the numeral. -/

variable {k : Fin FloatFormat.binary64.limit}

theorem signed_finite : signed negative (.finite false k) =
    some (.float (.finite negative k) rfl) := by
  cases negative <;> rfl

/-- The powers of ten that are values of double width. -/
theorem units_nearestToNat_pow_ten {p : Nat} (hp : p ≤ 22) :
    FloatFormat.binary64.units (FloatFormat.binary64.nearestToNat (Nat.pow 10 p)) =
      Nat.pow 10 p * Nat.pow 2 FloatFormat.binary64.depth := by
  have hpow : Nat.pow 10 p = Nat.pow 5 p * Nat.pow 2 p := Nat.mul_pow 5 2 p
  have hle : Nat.pow 5 p ≤ 2 * FloatFormat.binary64.implicitBit :=
    Nat.le_trans (Nat.pow_le_pow_right (by decide) hp) (by decide)
  rw [hpow]
  exact FloatFormat.binary64.units_nearestToNat_mul p hle

/-- A numeral with a fraction is read as the nearest value if its digits and its power of ten are values
themselves. -/
theorem ofNumeral?_of_fraction (hne : fraction ≠ [])
    (hdigits : Nat.ofDigitChars 10 fraction (Nat.ofDigitChars 10 ds 0) ≤ 0x20000000000000)
    (hplaces : fraction.length ≤ 22)
    (hk : FloatFormat.binary64.nearest (Nat.ofDigitChars 10 fraction (Nat.ofDigitChars 10 ds 0) *
      Nat.pow 2 FloatFormat.binary64.depth) (Nat.pow 10 fraction.length) = k) :
    ofNumeral? (Reader.numeral negative ds fraction) = some (.float (.finite negative k) rfl) := by
  have hten : Nat.pow 10 fraction.length ≤ Nat.pow 10 22 := Nat.pow_le_pow_right (by decide) hplaces
  have hpos : 0 < Nat.pow 10 fraction.length := Nat.pow_pos (by decide)
  have hdigitslimit := FloatFormat.binary64.nearestToNat_lt_limit (m := 54) (by decide)
    (Nat.lt_of_le_of_lt hdigits (by decide)) (by decide)
  have htenlimit := FloatFormat.binary64.nearestToNat_lt_limit (m := 74) (by decide)
    (Nat.lt_of_le_of_lt hten (by decide)) (by decide)
  have hquotient := Binary.div_ofNat (FloatFormat.binary64.units_nearestToNat hdigits)
    (units_nearestToNat_pow_ten hplaces) hpos hdigitslimit htenlimit
  rw [hk, Binary.ofIndex_of_lt false k.isLt] at hquotient
  have hinexact : ofNumeral? (Reader.numeral negative ds fraction) =
      inexact? (Reader.numeral negative ds fraction) := by
    apply dif_neg
    rintro ⟨-, hfraction, -⟩
    rw [Reader.numeral, if_neg hne] at hfraction
    cases hfraction
  rw [hinexact, inexact?_of_fraction hne (Nat.le_trans hplaces (by decide))
    (Nat.lt_of_le_of_lt hdigits (by decide)), hquotient, signed_finite]

/-- A whole numeral of up to 64 bits is read as the nearest value, be it as an integer or not. -/
theorem exists_ofNumeral?_of_whole (hdigits : Nat.ofDigitChars 10 ds 0 < 0x10000000000000000)
    (hk : FloatFormat.binary64.nearestToNat (Nat.ofDigitChars 10 ds 0) = k) :
    ∃ n, ofNumeral? (Reader.numeral negative ds []) = some n ∧ n.toBinary = .finite negative k := by
  have hvalue := Reader.ofDigits_digitValues 0 ds
  generalize hm : Nat.ofDigitChars 10 ds 0 = m at hdigits hk hvalue
  by_cases hinteger : -0x8000000000000000 ≤ (if negative then -(m : Int) else m) ∧ ¬ (negative ∧ m = 0)
  · generalize hi : (if negative then -(m : Int) else m) = i at hinteger
    have range : -0x8000000000000000 ≤ i ∧ i < 0x10000000000000000 := by
      cases negative <;> simp at hi <;> omega
    have hsign : decide (i < 0) = negative := by
      cases negative <;> simp at hi hinteger ⊢ <;> omega
    have habs : i.natAbs = m := by
      cases negative <;> simp at hi <;> omega
    refine ⟨.integer i range, ?_, ?_⟩
    · apply Reader.ofNumeral?_eq_integer
      · rw [Reader.numeral, hvalue, hi]
      · rfl
      · rfl
      · rw [Reader.numeral, hvalue]
        exact hinteger.2
    · rw [toBinary, Binary.ofInt_eq, hsign, habs, hk, Binary.ofIndex_of_lt negative k.isLt]
  · refine ⟨.float (.finite negative k) rfl, ?_, rfl⟩
    have hinexact : ofNumeral? (Reader.numeral negative ds []) =
        inexact? (Reader.numeral negative ds []) := by
      apply dif_neg
      rintro ⟨⟨hlow, -⟩, -, -, hzero⟩
      rw [Reader.numeral, hvalue] at hlow hzero
      exact hinteger ⟨hlow, hzero⟩
    have hrounded : (Binary.ofNat m : Binary64) = .finite false k := by
      show Binary.ofIndex false (FloatFormat.binary64.nearestToNat m) = .finite false k
      rw [hk, Binary.ofIndex_of_lt false k.isLt]
    have hone : FloatFormat.binary64.nearestToNat 1 < FloatFormat.binary64.limit :=
      FloatFormat.binary64.nearestToNat_lt_limit (m := 1) (by decide) (by decide) (by decide)
    rw [hinexact, inexact?_of_whole (hm ▸ hdigits), hm, hrounded, Binary.mul_ofNat_one _ _ hone,
      signed_finite]

end Numerals

end JsonNumber

end TargetSelector
