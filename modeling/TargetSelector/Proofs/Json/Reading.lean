import TargetSelector.Json.Reader
import TargetSelector.Proofs.Numeric.Whole
import TargetSelector.Proofs.Results

/-!
What the readers take from texts, without why and where they stop: equations, one for each kind of text,
that hold also where a part cannot be read.
-/
namespace TargetSelector

namespace Reader

variable {α β : Type} {s : List Char}

/-- The value that a reading takes, and the rest that it leaves. -/
def outcome (x : Except Stop (Taken α s)) : Option (α × List Char) :=
  match x with
  | .ok t => some (t.value, t.rest)
  | .error _ => none

theorem outcome_eq_some {x : Except Stop (Taken α s)} {a : α} {r : List Char} :
    outcome x = some (a, r) ↔ ∃ t, x = .ok t ∧ t.value = a ∧ t.rest = r := by
  cases x with
  | error e => simp [outcome]
  | ok t => simp [outcome]

theorem outcome_map (x : Except Stop (Taken α s)) (f : α → β) :
    outcome (x.map (·.map f)) = (outcome x).map fun p => (f p.1, p.2) := by
  cases x <;> rfl

theorem outcome_extend {r : List Char} (x : Except Stop (Taken α s)) (h : s.length ≤ r.length) :
    outcome (x.map (·.extend h)) = outcome x := by
  cases x <;> rfl

theorem skipBlank_cons {c : Char} (h : ¬ isBlank c) (r : List Char) : skipBlank (c :: r) = c :: r :=
  List.dropWhile_cons_of_neg h

theorem skipBlank_append {blanks : List Char} (hblanks : ∀ c ∈ blanks, isBlank c) (s : List Char) :
    skipBlank (blanks ++ s) = skipBlank s :=
  List.dropWhile_append_of_pos hblanks

/-- The end of a text, or a character that no numeral goes on with. -/
def EndsNumeral (r : List Char) : Prop :=
  ∀ c ∈ r.head?, ¬ c.isDigit ∧ c ≠ '.' ∧ c ≠ 'e' ∧ c ≠ 'E'

def digitValues (cs : List Char) : List Nat := cs.map fun c => c.toNat - '0'.toNat

theorem ofDigits_digitValues (n : Nat) (cs : List Char) :
    ofDigits n (digitValues cs) = Nat.ofDigitChars 10 cs n := by
  rw [ofDigits, digitValues, List.foldl_map]
  rfl

private theorem splitDigits_append {ds r : List Char} (hds : ∀ c ∈ ds, c.isDigit)
    (hr : ∀ c ∈ r.head?, ¬ c.isDigit) : splitDigits (ds ++ r) = (digitValues ds, r) := by
  have hnil : r.takeWhile Char.isDigit = [] ∧ r.dropWhile Char.isDigit = r := by
    cases r with
    | nil => exact ⟨rfl, rfl⟩
    | cons c r =>
      have hc : ¬ c.isDigit := hr c rfl
      exact ⟨List.takeWhile_cons_of_neg hc, List.dropWhile_cons_of_neg hc⟩
  rw [splitDigits, List.takeWhile_append_of_pos hds, List.dropWhile_append_of_pos hds, hnil.1, hnil.2,
    List.append_nil]
  rfl

theorem outcome_digits {ds r : List Char} (hne : ds ≠ []) (hds : ∀ c ∈ ds, c.isDigit)
    (hr : ∀ c ∈ r.head?, ¬ c.isDigit) :
    outcome (digits (ds ++ r)) = some (digitValues ds, r) := by
  obtain ⟨c, cs, rfl⟩ := List.exists_cons_of_ne_nil hne
  have hc : c.isDigit := hds c List.mem_cons_self
  have hsplit := splitDigits_append hds hr
  rw [List.cons_append] at hsplit ⊢
  unfold digits
  simp only [hc, ↓reduceDIte, outcome, hsplit]

/-- Digits without a zero before another digit. -/
def IsWhole (ds : List Char) : Prop :=
  ds ≠ [] ∧ (∀ c ∈ ds, c.isDigit) ∧ ∀ d ds', ds ≠ '0' :: d :: ds'

private theorem head?_toDigits_ne_zero {n : Nat} (hn : 0 < n) :
    (Nat.toDigits 10 n).head? ≠ some '0' := by
  induction n using Nat.strongRecOn with
  | ind n ih =>
    rcases Nat.lt_or_ge n 10 with hlt | hge
    · rw [Nat.toDigits_of_lt_base hlt, List.head?_cons]
      intro h
      have := Nat.digitChar_eq_zero.1 (Option.some.inj h)
      omega
    · obtain ⟨c, cs, hcs⟩ := List.exists_cons_of_ne_nil (Nat.toDigits_ne_nil (n := n / 10) (b := 10))
      have hhead := ih (n / 10) (by omega) (by omega)
      rw [Nat.toDigits_of_base_le (by decide) hge]
      rw [hcs] at hhead ⊢
      exact hhead

theorem isWhole_toDigits (n : Nat) : IsWhole (Nat.toDigits 10 n) := by
  refine ⟨Nat.toDigits_ne_nil, fun c hc => Nat.isDigit_of_mem_toDigits (by decide) (by decide) hc, ?_⟩
  intro d ds h
  rcases Nat.eq_zero_or_pos n with rfl | hn
  · rw [Nat.toDigits_zero] at h
    cases h
  · exact head?_toDigits_ne_zero hn (by rw [h]; rfl)

private theorem eq_zero_of_digitValue {c : Char} (hc : c.isDigit) (h : c.toNat - '0'.toNat = 0) :
    c = '0' := by
  have hge : '0'.toNat ≤ c.toNat := by
    simp only [Char.isDigit, Bool.and_eq_true, decide_eq_true_eq] at hc
    exact hc.1
  apply Char.toNat_inj.1
  omega

private theorem outcome_whole {ds r : List Char} (h : IsWhole ds) (hr : ∀ c ∈ r.head?, ¬ c.isDigit) :
    outcome (whole (ds ++ r)) = some (digitValues ds, r) := by
  obtain ⟨hne, hdigit, hzero⟩ := h
  obtain ⟨t, ht, hvalue, hrest⟩ := outcome_eq_some.1 (outcome_digits hne hdigit hr)
  unfold whole
  rw [ht]
  dsimp only [bind, Except.bind]
  split
  · next ns heq =>
    rw [hvalue] at heq
    obtain ⟨c, cs, rfl, hc, hcs⟩ := List.map_eq_cons_iff.1 heq
    obtain ⟨d, ds, rfl, -, -⟩ := List.map_eq_cons_iff.1 hcs
    obtain rfl := eq_zero_of_digitValue (hdigit c List.mem_cons_self) hc
    exact absurd rfl (hzero d ds)
  · exact outcome_eq_some.2 ⟨t, rfl, hvalue, hrest⟩

/-- The numeral of digits before and after a point. Without digits after it there is no point. -/
def numeral (negative : Bool) (ds fraction : List Char) : Numeral :=
  ⟨negative, digitValues ds, if fraction = [] then none else some (digitValues fraction), none⟩

private theorem outcome_withFraction {negative : Bool} {ds fraction r : List Char}
    (hfraction : ∀ c ∈ fraction, c.isDigit) (hr : ∀ c ∈ r.head?, ¬ c.isDigit ∧ c ≠ '.')
    (t : Taken Numeral s)
    (hvalue : t.value = ⟨negative, digitValues ds, none, none⟩)
    (hrest : t.rest = Decimal.fractionText fraction ++ r) :
    outcome (withFraction t) = some (numeral negative ds fraction, r) := by
  unfold withFraction Decimal.fractionText at *
  by_cases hnil : fraction = []
  · rw [if_pos hnil, List.nil_append] at hrest
    split
    · next r' hpoint =>
      rw [hrest] at hpoint
      exact absurd rfl (hr '.' (by rw [hpoint]; rfl)).2
    · exact outcome_eq_some.2 ⟨t, rfl, by rw [hvalue, numeral, if_pos hnil], hrest⟩
  · rw [if_neg hnil, List.cons_append] at hrest
    split
    · next r' hpoint =>
      rw [hrest] at hpoint
      obtain ⟨-, rfl⟩ := List.cons_eq_cons.1 hpoint
      obtain ⟨u, hu, huvalue, hurest⟩ :=
        outcome_eq_some.1 (outcome_digits hnil hfraction fun c hc => (hr c hc).1)
      rw [hu]
      refine outcome_eq_some.2 ⟨_, rfl, ?_, hurest⟩
      rw [hvalue, huvalue, numeral, if_neg hnil]
    · next hpoint => exact absurd hrest (hpoint _)

/-- The exponent of a numeral as it is written, if there is one. -/
inductive IsExponent : List Char → Option Int → Prop where
  | absent : IsExponent [] none
  | unsigned {c : Char} {ds : List Char} (hc : c = 'e' ∨ c = 'E') (hne : ds ≠ [])
    (hds : ∀ d ∈ ds, d.isDigit) : IsExponent (c :: ds) (some (Nat.ofDigitChars 10 ds 0))
  | plus {c : Char} {ds : List Char} (hc : c = 'e' ∨ c = 'E') (hne : ds ≠ [])
    (hds : ∀ d ∈ ds, d.isDigit) : IsExponent (c :: '+' :: ds) (some (Nat.ofDigitChars 10 ds 0))
  | minus {c : Char} {ds : List Char} (hc : c = 'e' ∨ c = 'E') (hne : ds ≠ [])
    (hds : ∀ d ∈ ds, d.isDigit) : IsExponent (c :: '-' :: ds) (some (-(Nat.ofDigitChars 10 ds 0 : Int)))

/-- An exponent, or what follows where there is none, goes on with neither digits nor a point. -/
theorem IsExponent.not_mem_head? {cs r : List Char} {e? : Option Int} (h : IsExponent cs e?)
    (hr : EndsNumeral r) : ∀ c ∈ (cs ++ r).head?, ¬ c.isDigit ∧ c ≠ '.' := by
  have hletter : ∀ c : Char, c = 'e' ∨ c = 'E' → ¬ c.isDigit ∧ c ≠ '.' := by
    rintro c (rfl | rfl) <;> decide
  intro c hc
  cases h with
  | absent => exact ⟨(hr c hc).1, (hr c hc).2.1⟩
  | unsigned hletters | plus hletters | minus hletters =>
    cases hc
    exact hletter _ hletters

private theorem outcome_digits_of_isDigit {ds r : List Char} (hne : ds ≠ [])
    (hds : ∀ c ∈ ds, c.isDigit)
    (hr : EndsNumeral r) : ∃ t, digits (ds ++ r) = .ok t ∧ ofDigits 0 t.value = Nat.ofDigitChars 10 ds 0 ∧
      t.rest = r := by
  obtain ⟨t, ht, hvalue, hrest⟩ := outcome_eq_some.1 (outcome_digits hne hds fun c hc => (hr c hc).1)
  exact ⟨t, ht, by rw [hvalue, ofDigits_digitValues], hrest⟩

private theorem splitSign_of_isDigit {ds r : List Char} (hne : ds ≠ []) (hds : ∀ c ∈ ds, c.isDigit) :
    splitSign (ds ++ r) = (false, ds ++ r) := by
  obtain ⟨d, ds, rfl⟩ := List.exists_cons_of_ne_nil hne
  have hd := hds d List.mem_cons_self
  unfold splitSign
  split
  · next h =>
    obtain ⟨rfl, -⟩ := List.cons_eq_cons.1 h
    exact absurd hd (by decide)
  · next h =>
    obtain ⟨rfl, -⟩ := List.cons_eq_cons.1 h
    exact absurd hd (by decide)
  · rfl

/-- An exponent after its letter is a sign, if there is one, and digits. -/
theorem outcome_withExponent_of_splitSign {c : Char} {w ds r : List Char} {negative : Bool}
    (hc : c = 'e' ∨ c = 'E') (hne : ds ≠ []) (hds : ∀ d ∈ ds, d.isDigit) (hr : EndsNumeral r)
    (t : Taken Numeral s) (hrest : t.rest = c :: w) (hsplit : splitSign w = (negative, ds ++ r))
    {e : Int} (he : (if negative then -(Nat.ofDigitChars 10 ds 0 : Int) else Nat.ofDigitChars 10 ds 0) = e) :
    outcome (withExponent t) = some ({ t.value with exponent := some e }, r) := by
  have hdigits : ∃ u, digits (splitSign w).2 = .ok u ∧
      ofDigits 0 u.value = Nat.ofDigitChars 10 ds 0 ∧ u.rest = r := by
    rw [hsplit]
    exact outcome_digits_of_isDigit hne hds hr
  obtain ⟨u, hu, huvalue, hurest⟩ := hdigits
  unfold withExponent
  split
  · next c' w' heq =>
    obtain ⟨rfl, rfl⟩ := List.cons_eq_cons.1 (heq.symm.trans hrest)
    rw [if_pos (by simpa using hc), hu]
    refine outcome_eq_some.2 ⟨_, rfl, ?_, hurest⟩
    dsimp only
    rw [huvalue, hsplit, he]
  · next heq => cases heq.symm.trans hrest

private theorem outcome_withExponent {cs r : List Char} {e? : Option Int} (h : IsExponent cs e?)
    (hr : EndsNumeral r) (t : Taken Numeral s) (hexponent : t.value.exponent = none)
    (hrest : t.rest = cs ++ r) :
    outcome (withExponent t) = some ({ t.value with exponent := e? }, r) := by
  cases h with
  | absent =>
    have hsame : withExponent t = .ok t := by
      unfold withExponent
      split
      · next c w heq =>
        obtain ⟨-, -, he, hE⟩ := hr c (by rw [← List.nil_append r, ← hrest, heq]; rfl)
        rw [if_neg (by simp [he, hE])]
        rfl
      · rfl
    rw [hsame]
    exact outcome_eq_some.2 ⟨t, rfl, by rw [← hexponent], hrest⟩
  | unsigned hc hne hds =>
    exact outcome_withExponent_of_splitSign hc hne hds hr t hrest (splitSign_of_isDigit hne hds) rfl
  | plus hc hne hds => exact outcome_withExponent_of_splitSign hc hne hds hr t hrest rfl rfl
  | minus hc hne hds => exact outcome_withExponent_of_splitSign hc hne hds hr t hrest rfl rfl

/-- A numeral without its sign is read as a whole, if its number is not out of range. -/
theorem outcome_unsigned (negative : Bool) {ds fraction exponent r : List Char} {e? : Option Int}
    (hds : IsWhole ds) (hfraction : ∀ c ∈ fraction, c.isDigit) (hexponent : IsExponent exponent e?)
    (hr : EndsNumeral r) :
    outcome (unsigned negative (ds ++ (Decimal.fractionText fraction ++ (exponent ++ r)))) =
      (JsonNumber.ofNumeral? { numeral negative ds fraction with exponent := e? }).map
        fun n => (n, r) := by
  have hhead := hexponent.not_mem_head? hr
  have hbreak : ∀ c ∈ (Decimal.fractionText fraction ++ (exponent ++ r)).head?, ¬ c.isDigit := by
    intro c hc
    unfold Decimal.fractionText at hc
    split at hc
    · exact (hhead c hc).1
    · cases hc
      decide
  obtain ⟨t, ht, hvalue, hrest⟩ := outcome_eq_some.1 (outcome_whole hds hbreak)
  obtain ⟨u, hu, huvalue, hurest⟩ := outcome_eq_some.1 (outcome_withFraction hfraction hhead
    (t.map fun ds => ⟨negative, ds, none, none⟩) (by rw [← hvalue]; rfl) hrest)
  obtain ⟨x, hx, hxvalue, hxrest⟩ := outcome_eq_some.1
    (outcome_withExponent hexponent hr u (by rw [huvalue]; rfl) hurest)
  rw [huvalue] at hxvalue
  unfold unsigned
  simp only [ht, hu, hx, bind, Except.bind, hxvalue]
  cases JsonNumber.ofNumeral? { numeral negative ds fraction with exponent := e? } with
  | none => rfl
  | some n => exact outcome_eq_some.2 ⟨_, rfl, rfl, hxrest⟩

/-- The sign, the digits and the fraction of a numeral without an exponent. -/
def numeralChars (negative : Bool) (ds fraction : List Char) : List Char :=
  (if negative then ['-'] else []) ++ (ds ++ Decimal.fractionText fraction)

private theorem number_cons_of_ne {c : Char} (h : c ≠ '-') (r : List Char) :
    number (c :: r) = unsigned false (c :: r) := by
  rw [number]
  intro r' heq
  exact h (List.cons_eq_cons.1 heq).1

/-- A value that does not open a container is read alike at any depth. -/
theorem outcome_value_cons {c : Char} {r : List Char} (hskip : skipBlank s = c :: r) (harray : c ≠ '[')
    (hobject : c ≠ '\x7b') (room : Nat) : outcome (value room s) = outcome (plain (c :: r)) := by
  cases room with
  | zero =>
    unfold value
    rw [outcome_extend, hskip]
  | succ room =>
    unfold value
    split
    · next heq => exact absurd (List.cons_eq_cons.1 (hskip.symm.trans heq)).1 harray
    · next heq => exact absurd (List.cons_eq_cons.1 (hskip.symm.trans heq)).1 hobject
    · rw [outcome_extend, hskip]

private theorem outcome_value_number {c : Char} {r : List Char} (h : c = '-' ∨ c.isDigit)
    (hskip : skipBlank s = c :: r) (room : Nat) :
    outcome (value room s) = (outcome (number (c :: r))).map fun p => (.number p.1, p.2) := by
  have hne : ∀ d : Char, ¬ (d = '-' ∨ d.isDigit) → c ≠ d := by
    rintro d hd rfl
    exact hd h
  rw [outcome_value_cons hskip (hne _ (by decide)) (hne _ (by decide)), ← outcome_map, plain,
    if_neg (hne 'n' (by decide)), if_neg (hne 't' (by decide)), if_neg (hne 'f' (by decide)),
    if_neg (hne '"' (by decide)), if_pos (by simpa using h)]

theorem not_isBlank_of_numeral {c : Char} (h : c = '-' ∨ c.isDigit) : ¬ isBlank c := by
  intro hblank
  simp only [isBlank, Bool.or_eq_true, decide_eq_true_eq] at hblank
  rcases hblank with ((rfl | rfl) | rfl) | rfl <;> exact absurd h (by decide)

theorem exists_numeralChars_eq_cons (negative : Bool) {ds : List Char} (hds : IsWhole ds)
    (fraction : List Char) :
    ∃ c cs, numeralChars negative ds fraction = c :: cs ∧ (c = '-' ∨ c.isDigit) := by
  obtain ⟨c, cs, rfl⟩ := List.exists_cons_of_ne_nil hds.1
  cases negative with
  | true => exact ⟨'-', _, rfl, Or.inl rfl⟩
  | false => exact ⟨c, _, rfl, Or.inr (hds.2.1 c List.mem_cons_self)⟩

section Numerals

variable (negative : Bool) {ds fraction exponent r : List Char} {e? : Option Int} (hds : IsWhole ds)
  (hfraction : ∀ c ∈ fraction, c.isDigit) (hexponent : IsExponent exponent e?) (hr : EndsNumeral r)
include hds hfraction hexponent hr

theorem outcome_number : outcome (number (numeralChars negative ds fraction ++ (exponent ++ r))) =
    (JsonNumber.ofNumeral? { numeral negative ds fraction with exponent := e? }).map
      fun n => (n, r) := by
  rw [numeralChars, List.append_assoc, List.append_assoc,
    ← outcome_unsigned negative hds hfraction hexponent hr]
  cases negative with
  | true => exact outcome_extend _ _
  | false =>
    obtain ⟨c, cs, rfl⟩ := List.exists_cons_of_ne_nil hds.1
    have hminus : c ≠ '-' := by
      rintro rfl
      exact absurd (hds.2.1 _ List.mem_cons_self) (by decide)
    exact congrArg outcome (number_cons_of_ne hminus _)

/-- A numeral is read as a value whatever follows, unless that goes on with it. -/
theorem outcome_value_numeral {blanks : List Char} (hblanks : ∀ c ∈ blanks, isBlank c) (room : Nat) :
    outcome (value room (blanks ++ (numeralChars negative ds fraction ++ (exponent ++ r)))) =
      (JsonNumber.ofNumeral? { numeral negative ds fraction with exponent := e? }).map
        fun n => (.number n, r) := by
  have hnumber : outcome (number (numeralChars negative ds fraction ++ (exponent ++ r))) = _ :=
    outcome_number negative hds hfraction hexponent hr
  obtain ⟨c, cs, hchars, hc⟩ := exists_numeralChars_eq_cons negative hds fraction
  rw [hchars, List.cons_append] at hnumber ⊢
  have hskip : skipBlank (blanks ++ c :: (cs ++ (exponent ++ r))) = c :: (cs ++ (exponent ++ r)) := by
    rw [skipBlank_append hblanks, skipBlank_cons (not_isBlank_of_numeral hc)]
  rw [outcome_value_number hc hskip, hnumber, Option.map_map]
  rfl

end Numerals

theorem toList_repr_eq (n : Int) :
    n.repr.toList = numeralChars (decide (n < 0)) (Nat.toDigits 10 n.natAbs) [] := by
  rw [repr_eq_sign, numeralChars, String.toList_append, Nat.toList_repr]
  by_cases hn : n < 0 <;> simp [hn, Decimal.fractionText]

theorem ofNumeral?_eq_integer {x : Numeral} {n : Int}
    (hn : (if x.negative then -(ofDigits 0 x.whole : Int) else ofDigits 0 x.whole) = n)
    (range : -0x8000000000000000 ≤ n ∧ n < 0x10000000000000000) (hfraction : x.fraction = none)
    (hexponent : x.exponent = none) (hzero : ¬ (x.negative ∧ ofDigits 0 x.whole = 0)) :
    JsonNumber.ofNumeral? x = some (.integer n range) := by
  subst hn
  exact dif_pos ⟨range, hfraction, hexponent, hzero⟩

private theorem ofNumeral?_toDigits {n : Int}
    (range : -0x8000000000000000 ≤ n ∧ n < 0x10000000000000000) :
    JsonNumber.ofNumeral? (numeral (decide (n < 0)) (Nat.toDigits 10 n.natAbs) []) =
      some (.integer n range) := by
  have hdigits : ofDigits 0 (digitValues (Nat.toDigits 10 n.natAbs)) = n.natAbs := by
    rw [ofDigits_digitValues, Nat.ofDigitChars_ten_toDigits]
  apply ofNumeral?_eq_integer
  · simp only [numeral, hdigits, decide_eq_true_eq]
    omega
  · rfl
  · rfl
  · simp only [numeral, hdigits, decide_eq_true_eq]
    omega

/-- The text of an integer is read as the integer, at any depth and whatever follows, if it fits. -/
theorem outcome_value_repr {n : Int} (range : -0x8000000000000000 ≤ n ∧ n < 0x10000000000000000)
    {blanks r : List Char} (hblanks : ∀ c ∈ blanks, isBlank c) (hr : EndsNumeral r) (room : Nat) :
    outcome (value room (blanks ++ (n.repr.toList ++ r))) =
      some (.number (.integer n range), r) := by
  have hfraction : ∀ c ∈ ([] : List Char), c.isDigit := List.forall_mem_nil _
  have hnumeral := outcome_value_numeral (decide (n < 0)) (isWhole_toDigits n.natAbs) hfraction .absent
    hr hblanks room
  rw [toList_repr_eq]
  exact hnumeral.trans (congrArg (Option.map fun x => (Json.number x, r)) (ofNumeral?_toDigits range))

theorem outcome_value_string {u r : List Char} {t : String} (hskip : skipBlank s = '"' :: u)
    (h : outcome (string u) = some (t, r)) (room : Nat) :
    outcome (value room s) = some (.string t, r) := by
  have hquote : plain ('"' :: u) = (string u).map fun t => (t.map Json.string).extend (by simp) := rfl
  obtain ⟨t, ht, hvalue, hrest⟩ := outcome_eq_some.1 h
  rw [outcome_value_cons hskip (by decide) (by decide), hquote, ht]
  exact outcome_eq_some.2 ⟨_, rfl, congrArg Json.string hvalue, hrest⟩

theorem outcome_member {u w r : List Char} {name : String} (hskip : skipBlank s = '"' :: u)
    (hname : outcome (string u) = some (name, w)) (hcolon : skipBlank w = ':' :: r)
    (read : Reader α) :
    outcome (member read s) = (outcome (read r)).map fun p => ((name, p.1), p.2) := by
  obtain ⟨key, hkey, hvalue, hrest⟩ := outcome_eq_some.1 hname
  unfold member
  split
  · next u' heq =>
    obtain ⟨-, rfl⟩ := List.cons_eq_cons.1 (hskip.symm.trans heq)
    rw [hkey]
    dsimp only [bind, Except.bind]
    split
    · next r' heq =>
      rw [hrest, hcolon] at heq
      obtain ⟨-, rfl⟩ := List.cons_eq_cons.1 heq
      rw [hvalue]
      cases read r <;> rfl
    · next hnot => exact absurd (by rw [hrest, hcolon]) (hnot r)
  · next hnot => exact absurd hskip (hnot u)

theorem outcome_separated (close : Char) (read : Reader α) (s : List Char) :
    outcome (separated close read s) = (outcome (read s)).bind fun p =>
      match skipBlank p.2 with
      | [] => none
      | c :: r =>
        if c = close then some ([p.1], r)
        else if c = ',' then (outcome (separated close read r)).map fun q => (p.1 :: q.1, q.2)
        else none := by
  rw [separated]
  cases hread : read s with
  | error e => rfl
  | ok t =>
    have hread : outcome (.ok t) = some (t.value, t.rest) := rfl
    dsimp only [bind, Except.bind]
    rw [hread, Option.bind_some]
    split
    · next heq =>
      rw [heq]
      rfl
    · next c r heq =>
      simp only [heq]
      split
      · rfl
      · split
        · cases separated close read r <;> rfl
        · rfl

theorem outcome_items {close c : Char} {r : List Char} (hs : skipBlank s = c :: r) (hc : c ≠ close)
    (read : Reader α) : outcome (items close read s) = outcome (separated close read s) := by
  unfold items
  split
  · next heq =>
    rw [hs] at heq
    cases heq
  · next heq =>
    rw [hs] at heq
    obtain ⟨rfl, -⟩ := List.cons_eq_cons.1 heq
    rw [if_neg hc]

theorem outcome_items_nil {close : Char} {r : List Char} (hs : skipBlank s = close :: r)
    (read : Reader α) : outcome (items close read s) = some ([], r) := by
  unfold items
  split
  · next heq =>
    rw [hs] at heq
    cases heq
  · next heq =>
    obtain ⟨rfl, rfl⟩ := List.cons_eq_cons.1 (hs.symm.trans heq)
    rw [if_pos rfl]
    rfl

theorem outcome_value_array {r : List Char} (hskip : skipBlank s = '[' :: r) (room : Nat) :
    outcome (value (room + 1) s) =
      (outcome (items ']' (value room) r)).map fun p => (.array p.1, p.2) := by
  unfold value
  split
  · next r' heq =>
    obtain ⟨-, rfl⟩ := List.cons_eq_cons.1 (hskip.symm.trans heq)
    cases items ']' (value room) r <;> rfl
  · next heq => exact absurd (List.cons_eq_cons.1 (hskip.symm.trans heq)).1 (by decide)
  · next hnot _ => exact absurd hskip (hnot _)

theorem outcome_value_object {r : List Char} (hskip : skipBlank s = '\x7b' :: r) (room : Nat) :
    outcome (value (room + 1) s) = (outcome (items '\x7d' (member (value room)) r)).map fun p =>
      (.object (OrderedMap.ofList p.1), p.2) := by
  unfold value
  split
  · next heq => exact absurd (List.cons_eq_cons.1 (hskip.symm.trans heq)).1 (by decide)
  · next r' heq =>
    obtain ⟨-, rfl⟩ := List.cons_eq_cons.1 (hskip.symm.trans heq)
    cases items '\x7d' (member (value room)) r <;> rfl
  · next hnot => exact absurd hskip (hnot _)

end Reader

/-- A text is one value, with blanks around it. -/
theorem Json.toOption_parse (text : String) : (parse text).toOption =
    (Reader.outcome (Reader.value maxDepth text.toList)).bind fun p =>
      if Reader.skipBlank p.2 = [] then some p.1 else none := by
  unfold parse
  cases Reader.value maxDepth text.toList with
  | error e => rfl
  | ok t =>
    dsimp only [bind, Except.bind, Reader.outcome, Option.bind]
    split
    · next heq =>
      rw [heq]
      rfl
    · next hne =>
      rw [if_neg hne]
      rfl

end TargetSelector
