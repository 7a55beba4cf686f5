import TargetSelector.Proofs.Numeric.Exact
import TargetSelector.Proofs.Numeric.Text

/-!
Whole numbers as texts. The shortest decimal of a whole value is the number itself for as long as the
format holds every whole number, for then a shorter numeral reads back to a different value.
-/
namespace TargetSelector

theorem repr_eq_sign (n : Int) : n.repr = (if n < 0 then "-" else "") ++ n.natAbs.repr := by
  rw [Int.repr_eq_if]
  by_cases hn : n < 0
  · rw [if_neg (by omega), if_pos hn, show (-n).toNat = n.natAbs by omega]
  · rw [if_pos (by omega), if_neg hn, String.empty_append, show n.toNat = n.natAbs by omega]

namespace FloatFormat

variable (F : FloatFormat)

theorem nearestToNat_mono {n m : Nat} (h : n ≤ m) : F.nearestToNat n ≤ F.nearestToNat m :=
  F.nearest_mono Nat.one_pos (Nat.mul_le_mul_right _ h)

theorem nearestToNat_of_units {k n : Nat} (h : F.units k = n * Nat.pow 2 F.depth) :
    F.nearestToNat n = k := by
  rw [nearestToNat, ← h, F.nearest_units]

/-- A whole number that a few bits times a power of two make up is a value. -/
theorem units_nearestToNat_mul (s : Nat) {c : Nat} (h : c ≤ 2 * F.implicitBit) :
    F.units (F.nearestToNat (c * Nat.pow 2 s)) = c * Nat.pow 2 s * Nat.pow 2 F.depth := by
  have hpow : c * Nat.pow 2 s * Nat.pow 2 F.depth = c * Nat.pow 2 (s + F.depth) := by
    rw [Nat.mul_assoc]
    exact congrArg (c * ·) (Nat.pow_add 2 s F.depth).symm
  rw [nearestToNat, hpow]
  exact F.units_nearest _ h

theorem units_nearestToNat {n : Nat} (h : n ≤ 2 * F.implicitBit) :
    F.units (F.nearestToNat n) = n * Nat.pow 2 F.depth := by
  have hone : n * Nat.pow 2 0 = n := Nat.mul_one n
  simpa only [hone] using F.units_nearestToNat_mul 0 h

theorem nearestToNat_zero : F.nearestToNat 0 = 0 := by
  apply F.units_injective
  rw [F.units_nearestToNat (Nat.zero_le _), F.units_zero, Nat.zero_mul]

/-- Whole numbers are told apart as long as the format holds all of them, and even ones a little longer. -/
theorem nearestToNat_lt {n m : Nat} (hn : n ≤ 2 * F.implicitBit) (h : n < m)
    (heven : n < 2 * F.implicitBit ∨ 2 ∣ m) : F.nearestToNat n < F.nearestToNat m := by
  have hpos : 0 < Nat.pow 2 F.depth := Nat.two_pow_pos F.depth
  have hbit := F.implicitBit_pos
  -- the next whole number that is a value
  obtain ⟨r, hnr, hrm, hr⟩ : ∃ r, n < r ∧ r ≤ m ∧
      F.units (F.nearestToNat r) = r * Nat.pow 2 F.depth := by
    rcases Nat.lt_or_eq_of_le hn with hlt | rfl
    · exact ⟨n + 1, Nat.lt_succ_self n, h, F.units_nearestToNat hlt⟩
    · refine ⟨(F.implicitBit + 1) * Nat.pow 2 1, ?_, ?_, F.units_nearestToNat_mul 1 (by omega)⟩
      · show 2 * F.implicitBit < (F.implicitBit + 1) * 2
        omega
      · show (F.implicitBit + 1) * 2 ≤ m
        omega
  apply Nat.lt_of_lt_of_le _ (F.nearestToNat_mono hrm)
  apply Nat.lt_of_le_of_ne (F.nearestToNat_mono (Nat.le_of_lt hnr))
  intro heq
  have hunits := F.units_nearestToNat hn
  rw [heq, hr] at hunits
  exact Nat.ne_of_gt hnr (Nat.eq_of_mul_eq_mul_right hpos hunits)

private theorem eq_of_nearestToNat_eq {n m : Nat} (hn : n ≤ 2 * F.implicitBit)
    (hm : m = n ∨ 2 ∣ m) (h : F.nearestToNat m = F.nearestToNat n) : m = n := by
  rcases hm with rfl | heven
  · rfl
  · rcases Nat.lt_trichotomy m n with hlt | heq | hgt
    · have := F.nearestToNat_lt (Nat.le_trans (Nat.le_of_lt hlt) hn) hlt (Or.inl (by omega))
      omega
    · exact heq
    · have := F.nearestToNat_lt hn hgt (Or.inr heven)
      omega

/-- A search upward from one ends at a place that has something, or before it. -/
private theorem exists_le_of_findSome?_range' {α : Type} {f : Nat → Option α} {count i : Nat}
    {a b : α}
    (h : (List.range' 1 count).findSome? f = some a) (hi : 1 ≤ i) (hb : f i = some b) :
    ∃ j, j ≤ i ∧ f j = some a := by
  obtain ⟨before, j, after, hrange, hj, hbefore⟩ := List.findSome?_eq_some_iff.1 h
  refine ⟨j, Nat.le_of_not_lt fun hlt => ?_, hj⟩
  have hmem : i ∈ before ++ j :: after := by
    have hlast : j ∈ List.range' 1 count := hrange ▸ List.mem_append_right _ List.mem_cons_self
    rw [← hrange]
    rw [List.mem_range'_1] at hlast ⊢
    omega
  have hsorted : (before ++ j :: after).Pairwise (· < ·) := hrange ▸ List.pairwise_lt_range'
  rcases List.mem_append.1 hmem with hmem | hmem
  · rw [hbefore i hmem] at hb
    cases hb
  · have hafter := (List.pairwise_cons.1 (List.pairwise_append.1 hsorted).2.1).1
    rcases List.mem_cons.1 hmem with heq | hmem
    · omega
    · have := hafter i hmem
      omega

private theorem exponent_of_mem_neighbours {m : Midpoint} {k : Nat} {e : Int} {d : Decimal}
    (h : d ∈ F.neighbours m k e) : d.exponent = e := by
  -- the two candidates stand in either order
  have hcases : ∀ (up : Bool) (c : Nat),
      d ∈ (if up then [⟨c + 1, e⟩, ⟨c, e⟩] else [⟨c, e⟩, ⟨c + 1, e⟩] : List Decimal) →
        d.exponent = e := by
    intro up c hd
    cases up <;> simp at hd <;> rcases hd with rfl | rfl <;> rfl
  exact hcases _ _ h

private theorem exponent_of_decimal? {m : Midpoint} {k digits : Nat} {d : Decimal}
    (h : F.decimal? m k digits = some d) : d.exponent = F.leadingExponent k - digits :=
  F.exponent_of_mem_neighbours (List.mem_of_find?_eq_some h)

/-- A decimal without a fraction reads back as the whole number that it writes. -/
theorem nearestToDecimal_of_nonneg {d : Decimal} (h : 0 ≤ d.exponent) :
    F.nearestToDecimal d = F.nearestToNat d.digits := by
  rw [nearestToDecimal, if_pos h]
  rfl

section Whole

variable {F} {k n : Nat} (hk : F.units k = n * Nat.pow 2 F.depth)
include hk

/-- The exact decimal of a whole value writes the number. -/
theorem text_exactDecimal_whole : (F.exactDecimal k).text = n.repr := by
  have hpow : Nat.pow 10 F.depth = Nat.pow 2 F.depth * Nat.pow 5 F.depth := Nat.mul_pow 2 5 F.depth
  have hpos : 0 < Nat.pow 10 F.depth := Nat.pow_pos (by decide)
  have hplaces : (F.exactDecimal k).places = F.depth := by
    show (- -(F.depth : Int)).toNat = F.depth
    omega
  have hdigits : (F.exactDecimal k).digits = n * Nat.pow 10 F.depth := by
    show F.units k * Nat.pow 5 F.depth * Nat.pow 10 (-(F.depth : Int)).toNat = _
    rw [show (-(F.depth : Int)).toNat = 0 by omega, hk, hpow, ← Nat.mul_assoc]
    exact Nat.mul_one _
  rw [Decimal.text_eq, hplaces, hdigits, Decimal.fixedText, Nat.mul_mod_left, if_pos rfl,
    Nat.mul_div_cancel _ hpos]

variable (hn : 0 < n)
include hn

theorem leadingExponent_whole : F.leadingExponent k = digitCount n := by
  have hpos : 0 < Nat.pow 2 F.depth := Nat.two_pow_pos F.depth
  have hle : Nat.pow 2 F.depth ≤ n * Nat.pow 2 F.depth := Nat.le_mul_of_pos_left _ hn
  rw [leadingExponent, hk, if_pos hle, Nat.mul_div_cancel _ hpos]

theorem decimal?_digitCount (m : Midpoint) : F.decimal? m k (digitCount n) = some ⟨n, 0⟩ := by
  have hpos : 0 < Nat.pow 2 F.depth := Nat.two_pow_pos F.depth
  have hone : Nat.pow 2 F.depth * Nat.pow 10 (0 : Int).toNat = Nat.pow 2 F.depth := Nat.mul_one _
  have hneighbours : F.neighbours m k 0 = [⟨n, 0⟩, ⟨n + 1, 0⟩] := by
    unfold neighbours
    dsimp only
    rw [if_pos (Int.le_refl 0), if_pos (Int.le_refl 0), hk, hone, Nat.mul_div_cancel _ hpos,
      Nat.mul_mod_left]
    have hnot : ¬ Nat.pow 2 F.depth < 2 * 0 := by omega
    have hne : ¬ 2 * 0 = Nat.pow 2 F.depth := by omega
    simp only [hnot, hne, decide_false, Bool.false_and, Bool.or_self, Bool.false_eq_true, ↓reduceIte]
  have hdigits : Decimal.digits ⟨n, 0⟩ = n := Nat.mul_one n
  have hread : F.nearestToDecimal ⟨n, 0⟩ = k := by
    rw [F.nearestToDecimal_of_nonneg (Int.le_refl 0), hdigits, F.nearestToNat_of_units hk]
  rw [decimal?, leadingExponent_whole hk hn, Int.sub_self, hneighbours,
    List.find?_cons_of_pos (by simpa using hread)]

/-- The text of a whole value is that of a whole number that reads back to it. Only if this is the number
itself does it not end in a zero. -/
theorem exists_shortest_text (m : Midpoint) :
    ∃ w, (F.shortest m k).text = w.repr ∧ F.nearestToNat w = k ∧ (w = n ∨ 10 ∣ w) := by
  have hpos : 0 < Nat.pow 2 F.depth := Nat.two_pow_pos F.depth
  have hne : k ≠ 0 := by
    rintro rfl
    rw [F.units_zero] at hk
    exact Nat.ne_of_lt (Nat.mul_pos hn hpos) hk
  rw [shortest, if_neg hne]
  cases hfound : (List.range' 1 17).findSome? (F.decimal? m k) with
  | none => exact ⟨n, text_exactDecimal_whole hk, F.nearestToNat_of_units hk, Or.inl rfl⟩
  | some d =>
    -- the search ends with all digits of the number at the latest
    have hcount : 1 ≤ digitCount n := List.length_pos_iff.2 Nat.toDigits_ne_nil
    obtain ⟨digits, hdigits, hd⟩ :=
      exists_le_of_findSome?_range' hfound hcount (decimal?_digitCount hk hn m)
    have hexp := F.exponent_of_decimal? hd
    rw [leadingExponent_whole hk hn] at hexp
    have hnonneg : 0 ≤ d.exponent := by omega
    have htext : d.text = d.digits.repr := if_pos hnonneg
    refine ⟨d.digits, htext, ?_, ?_⟩
    · rw [← F.nearestToDecimal_of_nonneg hnonneg, F.nearestToDecimal_of_decimal? hd]
    · rcases Nat.lt_or_eq_of_le hdigits with hlt | heq
      · have hten : 10 ∣ Nat.pow 10 d.exponent.toNat := by
          rw [show d.exponent.toNat = d.exponent.toNat - 1 + 1 by omega]
          exact Nat.dvd_mul_left 10 _
        exact Or.inr (Nat.dvd_trans hten (Nat.dvd_mul_left _ _))
      · rw [heq, decimal?_digitCount hk hn] at hd
        obtain rfl := Option.some.inj hd
        exact Or.inl (Nat.mul_one n)

end Whole

theorem exists_units_nearestToNat (n : Nat) :
    ∃ c, F.units (F.nearestToNat n) = c * Nat.pow 2 F.depth := by
  rcases Nat.le_or_ge n (2 * F.implicitBit) with hle | hge
  · exact ⟨n, F.units_nearestToNat hle⟩
  · -- the values of this binade and those above it are all whole
    have hpow : Nat.pow 2 (F.fractionBits + (F.depth + 1)) = 2 * F.implicitBit * Nat.pow 2 F.depth := by
      rw [F.two_mul_implicitBit, show F.fractionBits + (F.depth + 1) = F.fractionBits + 1 + F.depth by omega]
      exact Nat.pow_add 2 _ _
    have hindex : (F.depth + 1 + 1) * F.implicitBit ≤ F.nearestToNat n := by
      apply F.le_nearest
      rw [hpow, Nat.div_one]
      exact Nat.mul_le_mul_right _ hge
    have hscale : F.depth ≤ F.scale (F.nearestToNat n) := by
      have hquot := (Nat.le_div_iff_mul_le F.implicitBit_pos).2 hindex
      unfold scale
      omega
    have hsplit : Nat.pow 2 (F.scale (F.nearestToNat n)) =
        Nat.pow 2 (F.scale (F.nearestToNat n) - F.depth) * Nat.pow 2 F.depth := by
      rw [← Nat.sub_add_cancel hscale, Nat.add_sub_cancel]
      exact Nat.pow_add 2 _ _
    refine ⟨F.coefficient (F.nearestToNat n) * Nat.pow 2 (F.scale (F.nearestToNat n) - F.depth), ?_⟩
    rw [units, hsplit, Nat.mul_assoc]

/-- The text of a rounded whole number is that of a whole number that rounds to the same value. -/
theorem exists_text_shortest_nearestToNat (m : Midpoint) (n : Nat) :
    ∃ w, (F.shortest m (F.nearestToNat n)).text = w.repr ∧ F.nearestToNat w = F.nearestToNat n := by
  obtain ⟨c, hc⟩ := F.exists_units_nearestToNat n
  rcases Nat.eq_zero_or_pos c with rfl | hpos
  · have hzero : F.nearestToNat n = 0 := F.units_injective (by rw [hc, F.units_zero, Nat.zero_mul])
    rw [hzero]
    exact ⟨0, rfl, F.nearestToNat_zero⟩
  · obtain ⟨w, htext, hread, -⟩ := exists_shortest_text hc hpos m
    exact ⟨w, htext, hread⟩

/-- A whole number prints as itself if the format holds it and all whole numbers under it. -/
theorem text_shortest_nearestToNat (m : Midpoint) {n : Nat} (h : n ≤ 2 * F.implicitBit) :
    (F.shortest m (F.nearestToNat n)).text = n.repr := by
  have hunits := F.units_nearestToNat h
  rcases Nat.eq_zero_or_pos n with rfl | hn
  · rw [F.nearestToNat_zero]
    rfl
  · obtain ⟨w, htext, hread, hw⟩ := exists_shortest_text hunits hn m
    have heven : w = n ∨ 2 ∣ w := hw.imp_right (Nat.dvd_trans (by decide))
    rw [htext, F.eq_of_nearestToNat_eq h heven hread]

end FloatFormat

namespace Binary

variable {F : FloatFormat}

theorem ofInt_eq (n : Int) :
    (ofInt n : Binary F) = ofIndex (decide (n < 0)) (F.nearestToNat n.natAbs) :=
  rfl

/-- No integer is the negative zero. -/
theorem canonical_ofInt (n : Int) : (ofInt n : Binary F).canonical = ofInt n := by
  rw [ofInt_eq, ofIndex]
  split
  · by_cases hn : n < 0
    · have hbit := F.implicitBit_pos
      have hpos : F.nearestToNat 0 < F.nearestToNat n.natAbs :=
        F.nearestToNat_lt (Nat.zero_le _) (by omega) (Or.inl (by omega))
      have hne : F.nearestToNat n.natAbs ≠ 0 := by omega
      simp [canonical, hne]
    · simp [canonical, hn]
  · rfl

theorem text_ofInt {n : Int} (hfinite : (ofInt n : Binary F).isFinite)
    (h : n.natAbs ≤ 2 * F.implicitBit) : (ofInt n : Binary F).text = n.repr := by
  rw [ofInt_eq, ofIndex] at hfinite ⊢
  split at hfinite
  · next hlt =>
    rw [dif_pos hlt, text, F.text_shortest_nearestToNat .upward h, repr_eq_sign]
    simp only [decide_eq_true_eq]
  · cases hfinite

end Binary

end TargetSelector
