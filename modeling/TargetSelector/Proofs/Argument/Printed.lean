import TargetSelector.Proofs.Argument.Numbers
import TargetSelector.Proofs.Json.Rounding

/-!
Printed numbers as numerals of JSON. The number that is read from the text of a finite value has the
same text again exactly if it is the same as a number.
-/
namespace TargetSelector

theorem Binary.ieeeEq_canonical {F : FloatFormat} (x y : Binary F) :
    x.ieeeEq y.canonical = x.ieeeEq y := by
  rw [Bool.eq_iff_iff, ieeeEq_iff_canonical, ieeeEq_iff_canonical, canonical_canonical]

/-- The digits of a text read as one number, whatever stands between them. -/
def digitsOf (text : String) : Nat := Nat.ofDigitChars 10 (text.toList.filter Char.isDigit) 0

def placesOf (text : String) : Nat := (text.toList.dropWhile (· ≠ '.')).length - 1

/-- The reader of numbers takes the text of a value for `n`. -/
def ReadsBack (x : Binary64) (n : JsonNumber) : Prop :=
  Reader.outcome (Reader.number x.canonical.text.toList) = some (n, [])

theorem toList_text_finite (s : Bool) (k : Fin FloatFormat.binary64.limit) :
    (Binary.finite s k : Binary64).text.toList =
      (if s then ['-'] else []) ++ (FloatFormat.binary64.shortest .upward k).text.toList := by
  rw [Binary.text, String.toList_append]
  cases s <;> rfl

/-- A sign and the digits of a numeral that the text of a value consists of. -/
structure IsPrinted (x : Binary64) (negative : Bool) (w : Nat) (fraction : List Char)
    (k : Fin FloatFormat.binary64.limit) : Prop where
  value : x = .finite negative k
  text : x.text.toList = Reader.numeralChars negative (Nat.toDigits 10 w) fraction
  digit : ∀ c ∈ fraction, c.isDigit
  nearest : FloatFormat.binary64.nearest (Nat.ofDigitChars 10 fraction w *
    Nat.pow 2 FloatFormat.binary64.depth) (Nat.pow 10 fraction.length) = k

theorem exists_isPrinted {x : Binary64} (h : x.isFinite) :
    ∃ negative w fraction k, IsPrinted x.canonical negative w fraction k := by
  rw [← Binary.isFinite_canonical] at h
  generalize x.canonical = y at h
  cases y with
  | finite s k =>
    obtain ⟨w, fraction, htext, hdigit, hk⟩ :=
      FloatFormat.binary64.exists_shortest_numeral .upward k
    refine ⟨s, w, fraction, k, rfl, ?_, hdigit, hk⟩
    rw [toList_text_finite, htext, Reader.numeralChars]
  | nan => cases h
  | infinite s => cases h

namespace IsPrinted

variable {x : Binary64} {negative : Bool} {w : Nat} {fraction : List Char}
  {k : Fin FloatFormat.binary64.limit} (h : IsPrinted x negative w fraction k)
include h

theorem outcome_number {r : List Char} (hr : Reader.EndsNumeral r) :
    Reader.outcome (Reader.number (x.text.toList ++ r)) =
      (JsonNumber.ofNumeral? (Reader.numeral negative (Nat.toDigits 10 w) fraction)).map
        fun n => (n, r) := by
  rw [h.text]
  exact Reader.outcome_number negative (Reader.isWhole_toDigits w) h.digit .absent hr

theorem outcome_value {r : List Char} (hr : Reader.EndsNumeral r) (room : Nat) :
    Reader.outcome (Reader.value room (x.text.toList ++ r)) =
      (JsonNumber.ofNumeral? (Reader.numeral negative (Nat.toDigits 10 w) fraction)).map
        fun n => (.number n, r) := by
  rw [h.text]
  exact Reader.outcome_value_numeral negative (Reader.isWhole_toDigits w) h.digit .absent hr
    (List.forall_mem_nil _) room

theorem digitsOf_eq : digitsOf x.text = Nat.ofDigitChars 10 fraction w := by
  have hfilter : x.text.toList.filter Char.isDigit = Nat.toDigits 10 w ++ fraction := by
    have hsign : (if negative then ['-'] else []).filter Char.isDigit = [] := by cases negative <;> rfl
    have hpoint : (Decimal.fractionText fraction).filter Char.isDigit = fraction := by
      unfold Decimal.fractionText
      split
      · next hnil => exact hnil.symm
      · rw [List.filter_cons_of_neg (by decide), List.filter_eq_self.2 h.digit]
    rw [h.text, Reader.numeralChars, List.filter_append, List.filter_append, hsign, hpoint,
      List.filter_eq_self.2 (Reader.isWhole_toDigits w).2.1, List.nil_append]
  rw [digitsOf, hfilter, Nat.ofDigitChars_append, Nat.ofDigitChars_ten_toDigits]

theorem placesOf_eq : placesOf x.text = fraction.length := by
  have hdrop : x.text.toList.dropWhile (· ≠ '.') = Decimal.fractionText fraction := by
    have hbefore : ∀ c ∈ (if negative then ['-'] else []) ++ Nat.toDigits 10 w, decide (c ≠ '.') := by
      intro c hc
      rcases List.mem_append.1 hc with hc | hc
      · cases negative with
        | true => rw [List.mem_singleton.1 hc]; rfl
        | false => cases hc
      · rw [decide_eq_true_eq]
        rintro rfl
        exact absurd ((Reader.isWhole_toDigits w).2.1 _ hc) (by decide)
    rw [h.text, Reader.numeralChars, ← List.append_assoc, List.dropWhile_append_of_pos hbefore]
    unfold Decimal.fractionText
    split <;> rfl
  rw [placesOf, hdrop, Decimal.fractionText]
  split
  · next hnil => rw [hnil]; rfl
  · exact Nat.add_sub_cancel _ 1

theorem nearestToNat_eq (hfraction : fraction = []) : FloatFormat.binary64.nearestToNat w = k := by
  have hnearest := h.nearest
  rw [hfraction] at hnearest
  exact hnearest

/-- An integer that is read from the text has the text, and is rounded to the value. -/
theorem of_integer {n : Int} {range : -0x8000000000000000 ≤ n ∧ n < 0x10000000000000000}
    (hn : JsonNumber.ofNumeral? (Reader.numeral negative (Nat.toDigits 10 w) fraction) =
      some (.integer n range)) : n.repr = x.text ∧ Binary.ofInt n = x := by
  obtain ⟨hnil, -, hsign, habs⟩ := JsonNumber.eq_of_ofNumeral?_toDigits hn
  constructor
  · apply String.toList_inj.1
    rw [Reader.toList_repr_eq, ← hsign, ← habs, h.text, hnil]
  · rw [Binary.ofInt_eq, ← hsign, ← habs, h.nearestToNat_eq hnil, h.value,
      Binary.ofIndex_of_lt negative k.isLt]

end IsPrinted

namespace IsPrinted

variable {x : Binary64} {negative : Bool} {w : Nat} {fraction : List Char}
  {k : Fin FloatFormat.binary64.limit} (h : IsPrinted x.canonical negative w fraction k)
  {n : JsonNumber}
include h

theorem readsBack_iff : ReadsBack x n ↔
    JsonNumber.ofNumeral? (Reader.numeral negative (Nat.toDigits 10 w) fraction) = some n := by
  have hnumber := h.outcome_number (r := []) fun _ hc => nomatch hc
  rw [List.append_nil] at hnumber
  rw [ReadsBack, hnumber, Option.map_eq_some_iff]
  simp

/-- A number that is read from the text has the text again, exactly if it is the same as a number. -/
theorem scalarText_eq_iff
    (hn : JsonNumber.ofNumeral? (Reader.numeral negative (Nat.toDigits 10 w) fraction) = some n) :
    n.scalarText = x.canonical.text ↔ n.toBinary.ieeeEq x := by
  rw [← Binary.ieeeEq_canonical]
  cases n with
  | integer n range =>
    obtain ⟨htext, hvalue⟩ := h.of_integer hn
    have hx : x.canonical ≠ .nan := by
      rw [h.value]
      exact fun hnan => nomatch hnan
    have hself : (Binary.ofInt n).ieeeEq x.canonical := by
      rw [hvalue]
      exact (Binary.ieeeEq_self_iff x.canonical).2 hx
    refine iff_of_true ?_ hself
    rw [JsonNumber.scalarText, htext, hvalue, ite_self]
  | float y finite =>
    have hy : y ≠ .nan := by
      rintro rfl
      cases finite
    rw [JsonNumber.scalarText, JsonNumber.toBinary, Binary.ieeeEq_iff_canonical,
      Binary.canonical_canonical]
    constructor
    · intro htext
      exact ⟨hy, Binary.text_injective htext⟩
    · intro heq
      rw [heq.2]

end IsPrinted

namespace ReadsBack

variable {x : Binary64} (hx : x.isFinite) {n : JsonNumber} (h : ReadsBack x n)
include hx h

theorem outcome_value {r : List Char} (hr : Reader.EndsNumeral r) (room : Nat) :
    Reader.outcome (Reader.value room (x.canonical.text.toList ++ r)) = some (.number n, r) := by
  obtain ⟨negative, w, fraction, k, hprinted⟩ := exists_isPrinted hx
  rw [hprinted.outcome_value hr, hprinted.readsBack_iff.1 h]
  rfl

theorem scalarText_eq_iff : n.scalarText = x.canonical.text ↔ n.toBinary.ieeeEq x := by
  obtain ⟨negative, w, fraction, k, hprinted⟩ := exists_isPrinted hx
  exact hprinted.scalarText_eq_iff (hprinted.readsBack_iff.1 h)

end ReadsBack

end TargetSelector
