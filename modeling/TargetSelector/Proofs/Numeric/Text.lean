import TargetSelector.Numeric.Shortest
import TargetSelector.Proofs.Text.Delimited

/-!
The text of a number determines the number: the shortest decimal of a value reads back to the value.
-/
namespace TargetSelector

def isNumberChar (c : Char) : Bool := c.isAlphanum || c = '-' || c = '.'

theorem isNumberChar_of_isDigit {c : Char} (h : c.isDigit) : isNumberChar c := by
  simp [isNumberChar, Char.isAlphanum, h]

theorem not_isDelimiter_of_isNumberChar {c : Char} (h : isNumberChar c) : ¬ isDelimiter c := by
  intro hc
  simp only [isDelimiter, Bool.or_eq_true, decide_eq_true_eq] at hc
  rcases hc with (rfl | rfl) | rfl <;> revert h <;> decide

/-- A run of characters of numbers, with no break in it. -/
def IsToken (t : String) : Prop := t ≠ "" ∧ ∀ c ∈ t.toList, isNumberChar c

theorem IsToken.append {t u : String} (ht : IsToken t) (hu : ∀ c ∈ u.toList, isNumberChar c) :
    IsToken (t ++ u) := by
  constructor
  · simp [String.append_eq_empty_iff, ht.1]
  · intro c hc
    rw [String.toList_append] at hc
    rcases List.mem_append.1 hc with hc | hc
    · exact ht.2 c hc
    · exact hu c hc

theorem IsToken.exists_cons {t : String} (ht : IsToken t) :
    ∃ c cs, t.toList = c :: cs ∧ isNumberChar c := by
  cases hcs : t.toList with
  | nil => exact absurd (String.toList_eq_nil_iff.1 hcs) ht.1
  | cons c cs => exact ⟨c, cs, rfl, ht.2 c (hcs ▸ List.mem_cons_self)⟩

theorem IsToken.not_ends {t : String} (ht : IsToken t) : ¬ Ends t.toList := by
  obtain ⟨c, cs, hcs, hc⟩ := ht.exists_cons
  intro hends
  rw [hcs] at hends
  exact not_isDelimiter_of_isNumberChar hc (hends c rfl)

theorem token_unique {t u : String} (ht : IsToken t) (hu : IsToken u) {r s : List Char} (hr : Ends r)
    (hs : Ends s) (h : t.toList ++ r = u.toList ++ s) : t = u ∧ r = s := by
  have hbreak : ∀ {q : List Char}, Ends q → ∀ c ∈ q.head?, ¬ isNumberChar c := fun hq c hc hnum =>
    not_isDelimiter_of_isNumberChar hnum (hq c hc)
  obtain ⟨hlist, hrest⟩ := run_unique ht.2 hu.2 (hbreak hr) (hbreak hs) h
  exact ⟨String.toList_inj.1 hlist, hrest⟩

theorem isDigit_or_of_mem_repr {n : Int} {c : Char} (h : c ∈ n.repr.toList) : c.isDigit ∨ c = '-' := by
  have hdigit : ∀ m : Nat, c ∈ m.repr.toList → c.isDigit := by
    intro m hm
    rw [Nat.repr_eq_ofList_toDigits, String.toList_ofList] at hm
    exact Nat.isDigit_of_mem_toDigits (by decide) (by decide) hm
  rw [Int.repr_eq_if] at h
  split at h
  · exact Or.inl (hdigit _ h)
  · rw [String.toList_append] at h
    rcases List.mem_append.1 h with h | h
    · exact Or.inr (List.mem_singleton.1 h)
    · exact Or.inl (hdigit _ h)

theorem isToken_repr (n : Int) : IsToken n.repr := by
  constructor
  · rw [Int.repr_eq_if]
    split <;> simp [String.append_eq_empty_iff, Nat.repr_ne_empty]
  · intro c hc
    rcases isDigit_or_of_mem_repr hc with hc | rfl
    · exact isNumberChar_of_isDigit hc
    · rfl

theorem repr_unique {i j : Int} (h : i.repr = j.repr) : i = j := by
  have hdigits : ∀ {m n : Nat}, m.repr = n.repr → m = n := by
    intro m n heq
    rw [Nat.repr_eq_ofList_toDigits, Nat.repr_eq_ofList_toDigits, String.ofList_inj] at heq
    rw [← Nat.ofDigitChars_ten_toDigits (n := m), heq, Nat.ofDigitChars_ten_toDigits]
  have hminus : ∀ m n : Nat, m.repr ≠ "-" ++ n.repr := by
    intro m n heq
    have hmem : '-' ∈ Nat.toDigits 10 m := by
      rw [← String.toList_ofList (l := Nat.toDigits 10 m), ← Nat.repr_eq_ofList_toDigits, heq,
        String.toList_append]
      exact List.mem_append_left _ (List.mem_singleton.2 rfl)
    exact absurd (Nat.isDigit_of_mem_toDigits (by decide) (by decide) hmem) (by decide)
  rw [Int.repr_eq_if, Int.repr_eq_if] at h
  by_cases hi : 0 ≤ i <;> by_cases hj : 0 ≤ j
  · rw [if_pos hi, if_pos hj] at h
    have hnat := hdigits h
    omega
  · rw [if_pos hi, if_neg hj] at h
    exact absurd h (hminus _ _)
  · rw [if_neg hi, if_pos hj] at h
    exact absurd h.symm (hminus _ _)
  · rw [if_neg hi, if_neg hj] at h
    have hnat := hdigits ((String.append_right_inj "-").1 h)
    omega

namespace Decimal

private theorem exists_trimZeros (ds : List Char) :
    ∃ zeros, ds = trimZeros ds ++ List.replicate zeros '0' := by
  have hzero : ∀ c ∈ ds.reverse.takeWhile (· == '0'), c = '0' := fun c hc =>
    eq_of_beq (List.all_eq_true.1 List.all_takeWhile c hc)
  refine ⟨(ds.reverse.takeWhile (· == '0')).length, ?_⟩
  calc ds = (ds.reverse.takeWhile (· == '0') ++ ds.reverse.dropWhile (· == '0')).reverse := by
        rw [List.takeWhile_append_dropWhile, List.reverse_reverse]
    _ = trimZeros ds ++ (ds.reverse.takeWhile (· == '0')).reverse := List.reverse_append
    _ = trimZeros ds ++ List.replicate _ '0' := by
        rw [List.eq_replicate_of_mem hzero, List.reverse_replicate, List.length_replicate]

private theorem isDigit_of_mem_padded {places n : Nat} {c : Char} (h : c ∈ padded places n) :
    c.isDigit := by
  rcases List.mem_append.1 h with h | h
  · rw [List.eq_of_mem_replicate h]
    rfl
  · exact Nat.isDigit_of_mem_toDigits (by decide) (by decide) h

private theorem ofDigitChars_padded (places n : Nat) :
    Nat.ofDigitChars 10 (padded places n) 0 = n := by
  rw [padded, Nat.ofDigitChars_append, Nat.ofDigitChars_replicate_zero, Nat.mul_zero]
  exact Nat.ofDigitChars_ten_toDigits

theorem length_padded {places n : Nat} (hp : 0 < places) (h : n < Nat.pow 10 places) :
    (padded places n).length = places := by
  have hlen : (Nat.toDigits 10 n).length ≤ places := (Nat.length_toDigits_le_iff (by decide) hp).2 h
  rw [padded, List.length_append, List.length_replicate]
  omega

/-- The value that digits write after a whole part, and zeros left out at their end. -/
theorem ofDigitChars_shift (whole zeros : Nat) (ds : List Char) :
    (Nat.pow 10 (ds.length + zeros) * whole + Nat.pow 10 zeros * Nat.ofDigitChars 10 ds 0) *
        Nat.pow 10 ds.length =
      Nat.ofDigitChars 10 ds whole * Nat.pow 10 (ds.length + zeros) := by
  have hpow : Nat.pow 10 (ds.length + zeros) = Nat.pow 10 ds.length * Nat.pow 10 zeros :=
    Nat.pow_add 10 ds.length zeros
  have hwhole : Nat.ofDigitChars 10 ds whole =
      Nat.pow 10 ds.length * whole + Nat.ofDigitChars 10 ds 0 :=
    Nat.ofDigitChars_eq_ofDigitChars_zero
  rw [hpow, hwhole]
  generalize Nat.ofDigitChars 10 ds 0 = value
  grind

def fractionText (ds : List Char) : List Char := if ds = [] then [] else '.' :: ds

private theorem fractionText_injective {ds es : List Char} (h : fractionText ds = fractionText es) :
    ds = es := by
  unfold fractionText at h
  split at h <;> split at h <;> simp_all

theorem not_isDigit_of_mem_fractionText {ds : List Char} {c : Char}
    (h : c ∈ (fractionText ds).head?) : ¬ c.isDigit := by
  unfold fractionText at h
  split at h
  · cases h
  · cases h
    decide

/-- Positional text is the whole part and, after a point, the digits of a fraction. Read without the
point, the digits give the number, scaled by their count. -/
theorem exists_fraction (n places : Nat) :
    ∃ fraction : List Char,
      (fixedText n places).toList = Nat.toDigits 10 (n / Nat.pow 10 places) ++
        fractionText fraction ∧
      (∀ c ∈ fraction, c.isDigit) ∧
      n * Nat.pow 10 fraction.length =
        Nat.ofDigitChars 10 fraction (n / Nat.pow 10 places) * Nat.pow 10 places := by
  have hdiv := Nat.div_add_mod n (Nat.pow 10 places)
  unfold fixedText
  dsimp only
  by_cases hpart : n % Nat.pow 10 places = 0
  · refine ⟨[], ?_, fun c hc => (nomatch hc), ?_⟩
    · rw [if_pos hpart, fractionText, if_pos rfl, List.append_nil, Nat.repr_eq_ofList_toDigits,
        String.toList_ofList]
    · rw [hpart, Nat.add_zero, Nat.mul_comm] at hdiv
      rw [Nat.ofDigitChars_nil, hdiv]
      exact Nat.mul_one n
  · have hplaces : 0 < places := by
      cases places with
      | zero => exact absurd (Nat.mod_one n) hpart
      | succ places => exact Nat.succ_pos places
    have hlt : n % Nat.pow 10 places < Nat.pow 10 places := Nat.mod_lt n (Nat.pow_pos (by decide))
    have hvalue := ofDigitChars_padded places (n % Nat.pow 10 places)
    have hlength := length_padded hplaces hlt
    have hdigit : ∀ c ∈ padded places (n % Nat.pow 10 places), c.isDigit := fun c =>
      isDigit_of_mem_padded
    rw [if_neg hpart]
    generalize padded places (n % Nat.pow 10 places) = ds at hvalue hlength hdigit ⊢
    obtain ⟨zeros, hzeros⟩ := exists_trimZeros ds
    generalize trimZeros ds = fraction at hzeros ⊢
    subst hzeros
    rw [Nat.ofDigitChars_append, Nat.ofDigitChars_replicate_zero] at hvalue
    rw [List.length_append, List.length_replicate] at hlength
    refine ⟨fraction, ?_, fun c hc => hdigit c (List.mem_append_left _ hc), ?_⟩
    · have hne : fraction ≠ [] := by
        rintro rfl
        exact hpart hvalue.symm
      rw [fractionText, if_neg hne, Nat.repr_eq_ofList_toDigits]
      simp
    · have hshift := ofDigitChars_shift (n / Nat.pow 10 places) zeros fraction
      have hpart' : Nat.pow 10 zeros * Nat.ofDigitChars 10 fraction 0 = n % Nat.pow 10 places := hvalue
      rwa [hlength, hpart', hdiv] at hshift

theorem mul_eq_mul_of_fixedText {n m p q : Nat} (h : fixedText n p = fixedText m q) :
    n * Nat.pow 10 q = m * Nat.pow 10 p := by
  obtain ⟨ds, htext, -, hn⟩ := exists_fraction n p
  obtain ⟨es, htext', -, hm⟩ := exists_fraction m q
  rw [h, htext'] at htext
  have hdigits : ∀ k, ∀ c ∈ Nat.toDigits 10 k, c.isDigit := fun k c hc =>
    Nat.isDigit_of_mem_toDigits (by decide) (by decide) hc
  obtain ⟨hwhole, hfraction⟩ := run_unique (hdigits _) (hdigits _)
    (fun _ => not_isDigit_of_mem_fractionText) (fun _ => not_isDigit_of_mem_fractionText) htext
  obtain rfl := fractionText_injective hfraction
  have hquot : m / Nat.pow 10 q = n / Nat.pow 10 p := by
    rw [← Nat.ofDigitChars_ten_toDigits (n := m / Nat.pow 10 q), hwhole,
      Nat.ofDigitChars_ten_toDigits]
  rw [hquot] at hm
  generalize Nat.ofDigitChars 10 es (n / Nat.pow 10 p) = value at hn hm
  have hpos : 0 < Nat.pow 10 es.length := Nat.pow_pos (by decide)
  apply Nat.eq_of_mul_eq_mul_right hpos
  calc n * Nat.pow 10 q * Nat.pow 10 es.length = value * Nat.pow 10 p * Nat.pow 10 q := by
        rw [Nat.mul_right_comm, hn]
    _ = m * Nat.pow 10 p * Nat.pow 10 es.length := by
        rw [Nat.mul_right_comm, ← hm, Nat.mul_right_comm]

def places (d : Decimal) : Nat := (-d.exponent).toNat

/-- The number that the digits write, without the point. -/
def digits (d : Decimal) : Nat := d.coefficient * Nat.pow 10 d.exponent.toNat

theorem text_eq (d : Decimal) : d.text = fixedText d.digits d.places := by
  unfold text digits places
  by_cases h : 0 ≤ d.exponent
  · have hneg : (-d.exponent).toNat = 0 := by omega
    have hpow : Nat.pow 10 0 = 1 := rfl
    rw [if_pos h, hneg, fixedText, hpow, Nat.mod_one, if_pos rfl, Nat.div_one]
  · have hpos : d.exponent.toNat = 0 := by omega
    have hpow : Nat.pow 10 0 = 1 := rfl
    rw [if_neg h, hpos, hpow, Nat.mul_one]

theorem exists_parts (d : Decimal) :
    ∃ whole fraction : List Char, d.text.toList = whole ++ fractionText fraction ∧ whole ≠ [] ∧
      (∀ c ∈ whole, c.isDigit) ∧ ∀ c ∈ fraction, c.isDigit := by
  obtain ⟨fraction, htext, hfraction, -⟩ := exists_fraction d.digits d.places
  rw [← text_eq] at htext
  exact ⟨_, fraction, htext, Nat.toDigits_ne_nil,
    fun c hc => Nat.isDigit_of_mem_toDigits (by decide) (by decide) hc, hfraction⟩

theorem exists_digit (d : Decimal) : ∃ c cs, d.text.toList = c :: cs ∧ c.isDigit := by
  obtain ⟨whole, fraction, htext, hne, hwhole, -⟩ := d.exists_parts
  obtain ⟨c, cs, rfl⟩ := List.exists_cons_of_ne_nil hne
  exact ⟨c, cs ++ fractionText fraction, htext, hwhole c List.mem_cons_self⟩

private theorem isNumberChar_of_mem_text (d : Decimal) : ∀ c ∈ d.text.toList, isNumberChar c := by
  obtain ⟨whole, fraction, htext, -, hwhole, hfraction⟩ := d.exists_parts
  intro c hc
  rw [htext] at hc
  rcases List.mem_append.1 hc with hc | hc
  · exact isNumberChar_of_isDigit (hwhole c hc)
  · unfold fractionText at hc
    split at hc
    · cases hc
    · rcases List.mem_cons.1 hc with rfl | hc
      · rfl
      · exact isNumberChar_of_isDigit (hfraction c hc)

end Decimal

namespace FloatFormat

variable (F : FloatFormat)

theorem nearestToDecimal_eq (d : Decimal) :
    F.nearestToDecimal d = F.nearest (d.digits * Nat.pow 2 F.depth) (Nat.pow 10 d.places) := by
  unfold nearestToDecimal Decimal.digits Decimal.places
  by_cases h : 0 ≤ d.exponent
  · have hneg : (-d.exponent).toNat = 0 := by omega
    have hpow : Nat.pow 10 0 = 1 := rfl
    rw [if_pos h, hneg, hpow]
  · have hpos : d.exponent.toNat = 0 := by omega
    have hpow : Nat.pow 10 0 = 1 := rfl
    rw [if_neg h, hpos, hpow, Nat.mul_one]

private theorem nearestToDecimal_eq_of_text {d e : Decimal} (h : d.text = e.text) :
    F.nearestToDecimal d = F.nearestToDecimal e := by
  rw [d.text_eq, e.text_eq] at h
  have hcross := Decimal.mul_eq_mul_of_fixedText h
  have hd : 0 < Nat.pow 10 d.places := Nat.pow_pos (by decide)
  have he : 0 < Nat.pow 10 e.places := Nat.pow_pos (by decide)
  rw [nearestToDecimal_eq, nearestToDecimal_eq, ← F.nearest_mul_mul _ _ he,
    ← F.nearest_mul_mul (e.digits * _) _ hd, Nat.mul_right_comm, hcross, Nat.mul_right_comm,
    Nat.mul_comm (Nat.pow 10 e.places)]

private theorem shortest_text_injective (m : Midpoint) {k l : Nat}
    (h : (F.shortest m k).text = (F.shortest m l).text) : k = l := by
  rw [← F.nearestToDecimal_shortest m k, F.nearestToDecimal_eq_of_text h,
    F.nearestToDecimal_shortest]

end FloatFormat

namespace Binary

variable {F : FloatFormat}

def isNegative : Binary F → Bool
  | .nan => false
  | .infinite s | .finite s _ => s

def unsignedText : Binary F → String
  | .nan => "NaN"
  | .infinite _ => "inf"
  | .finite _ k => (F.shortest .upward k).text

theorem text_eq (x : Binary F) : x.text = (if x.isNegative then "-" else "") ++ x.unsignedText := by
  cases x <;> rfl

theorem exists_lead (x : Binary F) :
    ∃ c cs, x.unsignedText.toList = c :: cs ∧ (c.isDigit ∨ c = 'i' ∨ c = 'N') := by
  cases x with
  | nan => exact ⟨'N', ['a', 'N'], by simp [unsignedText], Or.inr (Or.inr rfl)⟩
  | infinite s => exact ⟨'i', ['n', 'f'], by simp [unsignedText], Or.inr (Or.inl rfl)⟩
  | finite s k =>
    obtain ⟨c, cs, htext, hc⟩ := (F.shortest .upward k).exists_digit
    exact ⟨c, cs, htext, Or.inl hc⟩

theorem minus_ne_unsignedText (cs : List Char) (x : Binary F) : '-' :: cs ≠ x.unsignedText.toList := by
  intro h
  obtain ⟨c, ds, htext, hc⟩ := x.exists_lead
  rw [htext] at h
  obtain ⟨rfl, -⟩ := List.cons_eq_cons.1 h
  revert hc
  decide

/-- The minus sign can be told from the text that it stands before. -/
theorem sign_unique {x y : Binary F} (h : x.text = y.text) :
    x.isNegative = y.isNegative ∧ x.unsignedText = y.unsignedText := by
  rw [text_eq, text_eq] at h
  have hlist := congrArg String.toList h
  cases hx : x.isNegative <;> cases hy : y.isNegative <;>
    simp only [hx, hy, Bool.false_eq_true, ↓reduceIte, String.toList_append, String.empty_append] at h hlist
  · exact ⟨rfl, h⟩
  · exact absurd hlist.symm (minus_ne_unsignedText _ x)
  · exact absurd hlist (minus_ne_unsignedText _ y)
  · exact ⟨rfl, (String.append_right_inj _).1 h⟩

theorem decimal_text_ne {w : String} {c : Char} (hw : w.toList.head? = some c) (hc : ¬ c.isDigit)
    (d : Decimal) : d.text ≠ w := by
  rintro rfl
  obtain ⟨digit, ds, htext, hdigit⟩ := d.exists_digit
  rw [htext] at hw
  cases hw
  exact hc hdigit

/-- Different values have different texts, the two zeros among them. -/
theorem text_injective {x y : Binary F} (h : x.text = y.text) : x = y := by
  obtain ⟨hsign, htext⟩ := sign_unique h
  have hnan : ∀ d : Decimal, d.text ≠ "NaN" := decimal_text_ne (by decide : _ = some 'N') (by decide)
  have hinf : ∀ d : Decimal, d.text ≠ "inf" := decimal_text_ne (by decide : _ = some 'i') (by decide)
  have hwords : "NaN" ≠ "inf" := by decide
  cases x with
  | nan =>
    cases y with
    | nan => rfl
    | infinite t => exact absurd htext hwords
    | finite t l => exact absurd htext.symm (hnan _)
  | infinite s =>
    cases y with
    | nan => exact absurd htext.symm hwords
    | infinite t => exact congrArg infinite hsign
    | finite t l => exact absurd htext.symm (hinf _)
  | finite s k =>
    cases y with
    | nan => exact absurd htext (hnan _)
    | infinite t => exact absurd htext (hinf _)
    | finite t l =>
      have hindex : k = l := Fin.ext (F.shortest_text_injective .upward htext)
      have hst : s = t := hsign
      rw [hindex, hst]

private theorem isNumberChar_of_mem_unsignedText (x : Binary F) :
    ∀ c ∈ x.unsignedText.toList, isNumberChar c := by
  cases x with
  | nan =>
    have hword : "NaN".toList.all isNumberChar := by decide
    exact List.all_eq_true.1 hword
  | infinite s =>
    have hword : "inf".toList.all isNumberChar := by decide
    exact List.all_eq_true.1 hword
  | finite s k => exact (F.shortest .upward k).isNumberChar_of_mem_text

theorem isToken_text (x : Binary F) : IsToken x.text := by
  constructor
  · obtain ⟨c, cs, htext, -⟩ := x.exists_lead
    have hne : x.unsignedText ≠ "" := by
      intro h
      rw [h] at htext
      cases htext
    rw [text_eq]
    simp [String.append_eq_empty_iff, hne]
  · intro c hc
    rw [text_eq, String.toList_append] at hc
    rcases List.mem_append.1 hc with hc | hc
    · cases hx : x.isNegative <;> rw [hx] at hc
      · cases hc
      · rw [List.mem_singleton.1 hc]
        rfl
    · exact x.isNumberChar_of_mem_unsignedText c hc

end Binary

end TargetSelector
