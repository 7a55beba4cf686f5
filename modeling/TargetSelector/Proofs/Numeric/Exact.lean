import TargetSelector.Proofs.Numeric.Magnitude

/-!
Numbers that rounding leaves alone, and the order that it keeps. An integer of few bits times a power of
two is a value itself.
-/
namespace TargetSelector

private theorem roundEven_mono {a a' : Nat} (b : Nat) (h : a ≤ a') :
    roundEven a b ≤ roundEven a' b := by
  have hquot : a / b ≤ a' / b := Nat.div_le_div_right h
  rcases Nat.lt_or_eq_of_le hquot with hlt | heq
  · exact Nat.le_trans (roundEven_bounds a b).2 (Nat.le_trans hlt (roundEven_bounds a' b).1)
  · have hrest : a % b ≤ a' % b := by
      have ha := Nat.div_add_mod a b
      have ha' := Nat.div_add_mod a' b
      rw [heq] at ha
      omega
    unfold roundEven
    dsimp only
    rw [heq]
    split
    · split
      · exact Nat.le_refl _
      · split <;> omega
    · split
      · apply Nat.le_of_eq
        rw [if_neg (by omega), if_pos (by omega)]
      · rw [if_neg (by omega)]
        split <;> omega

namespace FloatFormat

variable (F : FloatFormat)

theorem two_mul_implicitBit : 2 * F.implicitBit = Nat.pow 2 (F.fractionBits + 1) :=
  Nat.mul_comm 2 F.implicitBit

/-- A number of at least `2 ^ (fractionBits + j)` units is not rounded below that value. -/
theorem le_nearest {a b j : Nat} (h : Nat.pow 2 (F.fractionBits + j) ≤ a / b) :
    (j + 1) * F.implicitBit ≤ F.nearest a b := by
  have hne : a / b ≠ 0 := Nat.ne_of_gt (Nat.lt_of_lt_of_le (Nat.two_pow_pos _) h)
  have hlog : F.fractionBits + j ≤ (a / b).log2 := (Nat.le_log2 hne).2 h
  let i := (a / b).log2 - F.fractionBits
  have hround : F.implicitBit ≤ roundEven a (b * Nat.pow 2 i) := by
    apply Nat.le_trans _ (roundEven_bounds _ _).1
    have hpos : 0 < Nat.pow 2 i := Nat.two_pow_pos i
    rw [← Nat.div_div_eq_div_mul, Nat.le_div_iff_mul_le hpos]
    have hpow : F.implicitBit * Nat.pow 2 i = Nat.pow 2 (F.fractionBits + i) :=
      (Nat.pow_add 2 F.fractionBits i).symm
    rw [hpow, show F.fractionBits + i = (a / b).log2 by omega]
    exact Nat.log2_self_le hne
  calc (j + 1) * F.implicitBit ≤ (i + 1) * F.implicitBit := Nat.mul_le_mul_right _ (by omega)
    _ = i * F.implicitBit + F.implicitBit := Nat.succ_mul _ _
    _ ≤ F.nearest a b := Nat.add_le_add_left hround _

theorem nearest_mono {a a' b : Nat} (hb : 0 < b) (h : a ≤ a') : F.nearest a b ≤ F.nearest a' b := by
  have hquot : a / b ≤ a' / b := Nat.div_le_div_right h
  have hlog : (a / b).log2 ≤ (a' / b).log2 := by
    by_cases h0 : a / b = 0
    · rw [h0]
      exact Nat.zero_le _
    · have hne : a' / b ≠ 0 := Nat.ne_of_gt (Nat.lt_of_lt_of_le (Nat.pos_of_ne_zero h0) hquot)
      exact (Nat.le_log2 hne).2 (Nat.le_trans (Nat.log2_self_le h0) hquot)
  rcases Nat.lt_or_ge ((a / b).log2 - F.fractionBits) ((a' / b).log2 - F.fractionBits) with hlt | hge
  · -- the greater number lies in a higher binade
    let j := (a' / b).log2 - F.fractionBits
    have hne : a' / b ≠ 0 := by
      intro h0
      rw [h0] at hlt
      exact absurd hlt (by simp)
    have hlow : Nat.pow 2 (F.fractionBits + j) ≤ a' / b := by
      rw [show F.fractionBits + j = (a' / b).log2 by omega]
      exact Nat.log2_self_le hne
    calc F.nearest a b ≤ ((a / b).log2 - F.fractionBits + 2) * F.implicitBit := F.nearest_le a hb
      _ ≤ (j + 1) * F.implicitBit := Nat.mul_le_mul_right _ (by omega)
      _ ≤ F.nearest a' b := F.le_nearest hlow
  · have heq : (a / b).log2 - F.fractionBits = (a' / b).log2 - F.fractionBits := by omega
    unfold nearest
    dsimp only
    rw [heq]
    exact Nat.add_le_add_left (roundEven_mono _ h) _

private theorem units_of_lt {k : Nat} (h : k < F.implicitBit) : F.units k = k := by
  have hscale : F.scale k = 0 := by simp [scale, Nat.div_eq_of_lt h]
  rw [units, coefficient, if_pos h, hscale]
  exact Nat.mul_one k

theorem units_binade (s : Nat) {c : Nat} (h : c < F.implicitBit) :
    F.units ((s + 1) * F.implicitBit + c) = (F.implicitBit + c) * Nat.pow 2 s := by
  have hquot : ((s + 1) * F.implicitBit + c) / F.implicitBit = s + 1 := by
    rw [Nat.mul_comm, Nat.mul_add_div F.implicitBit_pos, Nat.div_eq_of_lt h, Nat.add_zero]
  have hrest : ((s + 1) * F.implicitBit + c) % F.implicitBit = c := by
    rw [Nat.mul_comm, Nat.mul_add_mod, Nat.mod_eq_of_lt h]
  have hge : ¬ (s + 1) * F.implicitBit + c < F.implicitBit := by
    rw [Nat.succ_mul]
    omega
  rw [units, coefficient, if_neg hge, scale, hquot, hrest, Nat.add_sub_cancel]

theorem exists_units_eq_of_ge (s : Nat) {c : Nat} (hge : F.implicitBit ≤ c)
    (h : c ≤ 2 * F.implicitBit) : ∃ k, F.units k = c * Nat.pow 2 s := by
  rcases Nat.lt_or_eq_of_le h with hlt | rfl
  · refine ⟨(s + 1) * F.implicitBit + (c - F.implicitBit), ?_⟩
    rw [F.units_binade s (by omega), Nat.add_sub_cancel' hge]
  · refine ⟨(s + 2) * F.implicitBit + 0, ?_⟩
    have hpow : Nat.pow 2 (s + 1) = 2 * Nat.pow 2 s := Nat.mul_comm _ 2
    rw [F.units_binade (s + 1) F.implicitBit_pos, Nat.add_zero, hpow, Nat.mul_left_comm, Nat.mul_assoc]

/-- A number of at most `fractionBits + 1` bits, or the power of two next to these, times a power of two
is the size of a value. -/
theorem exists_units_eq (s : Nat) {c : Nat} (h : c ≤ 2 * F.implicitBit) :
    ∃ k, F.units k = c * Nat.pow 2 s := by
  induction s generalizing c with
  | zero =>
    rcases Nat.lt_or_ge c F.implicitBit with hlt | hge
    · exact ⟨c, (F.units_of_lt hlt).trans (Nat.mul_one c).symm⟩
    · exact F.exists_units_eq_of_ge 0 hge h
  | succ s ih =>
    rcases Nat.lt_or_ge c F.implicitBit with hlt | hge
    · -- a small number has room for one more of the factors two
      have hpow : c * Nat.pow 2 (s + 1) = 2 * c * Nat.pow 2 s := by
        rw [Nat.mul_comm 2, Nat.mul_assoc, Nat.mul_comm 2]
        rfl
      rw [hpow]
      exact ih (by omega)
    · exact F.exists_units_eq_of_ge (s + 1) hge h

theorem units_nearest (s : Nat) {c : Nat} (h : c ≤ 2 * F.implicitBit) :
    F.units (F.nearest (c * Nat.pow 2 s) 1) = c * Nat.pow 2 s := by
  obtain ⟨k, hk⟩ := F.exists_units_eq s h
  rw [← hk, F.nearest_units]

end FloatFormat

end TargetSelector
