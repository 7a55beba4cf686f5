import TargetSelector.Proofs.Json.Grammar
import TargetSelector.Proofs.Json.Rounding

/-! The reader takes nothing but what the grammar has: a text is read exactly as the value it writes. -/
namespace TargetSelector

namespace Reader

open Json

private theorem mem_of_isBlank {c : Char} (h : isBlank c) : c ∈ [' ', '\t', '\r', '\n'] := by
  simp only [isBlank, Bool.or_eq_true, decide_eq_true_eq] at h
  simp only [List.mem_cons, List.not_mem_nil, or_false]
  tauto

theorem exists_isBlank_append (s : List Char) : ∃ blanks, IsBlank blanks ∧ s = blanks ++ skipBlank s := by
  refine ⟨s.takeWhile isBlank, fun c hc => ?_, List.takeWhile_append_dropWhile.symm⟩
  exact mem_of_isBlank (List.all_eq_true.1 List.all_takeWhile c hc)

theorem exists_isBlank_cons {s r : List Char} {c : Char} (h : skipBlank s = c :: r) :
    ∃ blanks, IsBlank blanks ∧ s = blanks ++ c :: r := by
  obtain ⟨blanks, hblanks, hs⟩ := exists_isBlank_append s
  exact ⟨blanks, hblanks, by rw [← h, ← hs]⟩

private theorem toNat_bounds {c d e : Char} (h : (decide (c ≤ d) && decide (d ≤ e)) = true) :
    c.toNat ≤ d.toNat ∧ d.toNat ≤ e.toNat := by
  rw [Bool.and_eq_true, decide_eq_true_eq, decide_eq_true_eq] at h
  exact h

private theorem digitChar_of_isDigit {c : Char} (h : c.isDigit) :
    c.toNat - '0'.toNat < 10 ∧ (c.toNat - '0'.toNat).digitChar = c := by
  have hdigit : ∀ n < 10, n.digitChar.toNat = n + '0'.toNat := by decide
  have hbounds : '0'.toNat ≤ c.toNat ∧ c.toNat ≤ '9'.toNat := toNat_bounds h
  have hnine : '0'.toNat + 9 = '9'.toNat := rfl
  have hlt : c.toNat - '0'.toNat < 10 := by omega
  refine ⟨hlt, Char.toNat_inj.1 ?_⟩
  rw [hdigit _ hlt, Nat.sub_add_cancel hbounds.1]

theorem isHexDigit_of_hexDigit? {c : Char} {n : Nat} (h : hexDigit? c = some n) : IsHexDigit c n := by
  have hlower : ∀ n < 6, (n + 10).digitChar.toNat = n + 'a'.toNat := by decide
  have hupper : ∀ n < 6, (n + 10).digitChar.toUpper.toNat = n + 'A'.toNat := by decide
  have hf : 'a'.toNat + 5 = 'f'.toNat := rfl
  have hF : 'A'.toNat + 5 = 'F'.toNat := rfl
  unfold hexDigit? at h
  split at h
  · next hc =>
    cases h
    obtain ⟨hlt, hchar⟩ := digitChar_of_isDigit hc
    exact ⟨by omega, Or.inl hchar.symm⟩
  · split at h
    · next hc =>
      cases h
      have hbounds : 'a'.toNat ≤ c.toNat ∧ c.toNat ≤ 'f'.toNat := toNat_bounds hc
      refine ⟨by omega, Or.inl (Char.toNat_inj.1 ?_)⟩
      rw [hlower _ (by omega), Nat.sub_add_cancel hbounds.1]
    · split at h
      · next hc =>
        cases h
        have hbounds : 'A'.toNat ≤ c.toNat ∧ c.toNat ≤ 'F'.toNat := toNat_bounds hc
        refine ⟨by omega, Or.inr (Char.toNat_inj.1 ?_)⟩
        rw [hupper _ (by omega), Nat.sub_add_cancel hbounds.1]
      · cases h

theorem hex4_sound {s : List Char} {t : Taken Nat s} (h : hex4 s = .ok t) :
    ∃ hex, s = hex ++ t.rest ∧ IsHex4 hex t.value := by
  unfold hex4 at h
  split at h
  · next a b c d r =>
    split at h
    · next i j k l ha hb hc hd =>
      cases h
      exact ⟨[a, b, c, d], rfl, .mk (isHexDigit_of_hexDigit? ha) (isHexDigit_of_hexDigit? hb)
        (isHexDigit_of_hexDigit? hc) (isHexDigit_of_hexDigit? hd)⟩
    · cases h
  · cases h

theorem codePoint_sound {s : List Char} {t : Taken Char s} (h : codePoint s = .ok t) :
    ∃ e, s = e ++ t.rest ∧ IsEscape ('u' :: e) t.value := by
  obtain ⟨high, hhigh, h⟩ := bind_eq_ok.1 h
  obtain ⟨hex, hs, hhex⟩ := hex4_sound hhigh
  split at h
  · cases h
  · next hnotlow =>
    split at h
    · next hishigh =>
      split at h
      · next r hrest =>
        obtain ⟨low, hlow, h⟩ := bind_eq_ok.1 h
        obtain ⟨hex', hr, hhex'⟩ := hex4_sound hlow
        split at h
        · next hislow =>
          simp only [isHighSurrogate, isLowSurrogate, Bool.and_eq_true, decide_eq_true_eq] at hishigh hislow
          have hpair := IsEscape.pair hhex hhex' hishigh hislow
          have hunits : high.rest = '\\' :: 'u' :: hex' ++ low.rest :=
            hrest.trans (congrArg (fun w => '\\' :: 'u' :: w) hr)
          have htext : s = hex ++ '\\' :: 'u' :: hex' ++ low.rest :=
            (hs.trans (congrArg _ hunits)).trans (List.append_assoc _ _ _).symm
          obtain rfl := Except.ok.inj h
          dsimp only
          exact ⟨_, htext, hpair⟩
        · cases h
      · cases h
      · cases h
    · next hnothigh =>
      cases h
      refine ⟨hex, hs, .unit hhex ?_⟩
      simp only [isHighSurrogate, isLowSurrogate, Bool.and_eq_true, decide_eq_true_eq] at hnothigh hnotlow
      omega

theorem escape_sound {s : List Char} {t : Taken Char s} (h : escape s = .ok t) :
    ∃ e, s = e ++ t.rest ∧ IsEscape e t.value := by
  cases s with
  | nil => cases h
  | cons c r =>
    unfold escape at h
    dsimp only at h
    split at h
    · next d hd =>
      have hletter : IsEscape [c] d := by
        unfold escapeLetter? at hd
        split at hd <;> cases hd <;> exact .letter (by decide)
      cases h
      exact ⟨[c], rfl, hletter⟩
    · split at h
      · next hu =>
        obtain ⟨u, hcode, rfl⟩ := map_eq_ok.1 h
        obtain ⟨e, hr, he⟩ := codePoint_sound hcode
        rw [hu]
        exact ⟨'u' :: e, congrArg _ hr, he⟩
      · cases h

theorem stringChars_sound {s : List Char} {t : Taken (List Char) s} (h : stringChars s = .ok t) :
    ∃ body, s = body ++ '"' :: t.rest ∧ IsStringBody body t.value := by
  induction hn : s.length using Nat.strongRecOn generalizing s with
  | ind n ih =>
    unfold stringChars at h
    split at h
    · cases h
    · next c r =>
      split at h
      · next hquote =>
        cases h
        exact ⟨[], by rw [hquote]; rfl, .nil⟩
      · next hquote =>
        split at h
        · next hslash =>
          obtain ⟨u, hu, h⟩ := bind_eq_ok.1 h
          obtain ⟨w, hw, h⟩ := bind_eq_ok.1 h
          cases h
          obtain ⟨e, hr, he⟩ := escape_sound hu
          have hlt : u.rest.length < n := hn ▸ Nat.lt_succ_of_lt u.shorter
          obtain ⟨body, hrest, hbody⟩ := ih _ hlt hw rfl
          refine ⟨'\\' :: (e ++ body), ?_, .escape he hbody⟩
          rw [hslash, List.cons_append, List.append_assoc]
          exact congrArg _ (hr.trans (congrArg _ hrest))
        · next hslash =>
          split at h
          · cases h
          · next hcontrol =>
            obtain ⟨u, hu, h⟩ := bind_eq_ok.1 h
            cases h
            obtain ⟨body, hrest, hbody⟩ := ih _ (hn ▸ Nat.lt_succ_self _) hu rfl
            exact ⟨c :: body, congrArg _ hrest, .plain ⟨hquote, hslash, Char.not_lt.1 hcontrol⟩ hbody⟩

theorem string_sound {s : List Char} {t : Taken String s} (h : string s = .ok t) :
    ∃ text, s = text ++ t.rest ∧ IsString text t.value := by
  obtain ⟨u, hu, rfl⟩ := map_eq_ok.1 h
  obtain ⟨body, hs, hbody⟩ := stringChars_sound hu
  refine ⟨body ++ ['"'], hs.trans (List.append_cons _ _ _), .mk ?_⟩
  rwa [Taken.map, String.toList_ofList]

theorem digits_sound {s : List Char} {t : Taken (List Nat) s} (h : digits s = .ok t) :
    ∃ ds, s = ds ++ t.rest ∧ ds ≠ [] ∧ (∀ c ∈ ds, c.isDigit) ∧ t.value = digitValues ds := by
  unfold digits at h
  split at h
  · cases h
  · next c r =>
    split at h
    · next hc =>
      cases h
      refine ⟨(c :: r).takeWhile Char.isDigit, List.takeWhile_append_dropWhile.symm, ?_, ?_, rfl⟩
      · rw [List.takeWhile_cons_of_pos hc]
        exact List.cons_ne_nil _ _
      · exact List.all_eq_true.1 List.all_takeWhile
    · cases h

theorem whole_sound {s : List Char} {t : Taken (List Nat) s} (h : whole s = .ok t) :
    ∃ ds, s = ds ++ t.rest ∧ IsWhole ds ∧ t.value = digitValues ds := by
  obtain ⟨u, hu, h⟩ := bind_eq_ok.1 h
  obtain ⟨ds, hs, hne, hdigit, hvalue⟩ := digits_sound hu
  split at h
  · cases h
  · next hzero =>
    cases h
    refine ⟨ds, hs, ⟨hne, hdigit, ?_⟩, hvalue⟩
    rintro d ds' rfl
    exact hzero _ _ hvalue

theorem withFraction_sound {s : List Char} {t u : Taken Numeral s} (h : withFraction t = .ok u)
    (hnone : t.value.fraction = none) :
    ∃ fraction, t.rest = Decimal.fractionText fraction ++ u.rest ∧ (∀ c ∈ fraction, c.isDigit) ∧
      u.value = { t.value with
        fraction := if fraction = [] then none else some (digitValues fraction) } := by
  unfold withFraction at h
  split at h
  · next r hrest =>
    obtain ⟨w, hw, h⟩ := bind_eq_ok.1 h
    cases h
    obtain ⟨ds, hr, hne, hdigit, hvalue⟩ := digits_sound hw
    refine ⟨ds, ?_, hdigit, ?_⟩
    · rw [Decimal.fractionText, if_neg hne]
      exact hrest.trans (congrArg _ hr)
    · rw [hvalue, if_neg hne]
  · cases h
    refine ⟨[], rfl, List.forall_mem_nil _, ?_⟩
    rw [if_pos rfl, ← hnone]

private theorem exists_exponent {c : Char} {r ds q : List Char} (hc : c = 'e' ∨ c = 'E') (hne : ds ≠ [])
    (hds : ∀ d ∈ ds, d.isDigit) (hr : (splitSign r).2 = ds ++ q) :
    ∃ exponent, c :: r = exponent ++ q ∧ IsExponent exponent (some
      (if (splitSign r).1 then -(Nat.ofDigitChars 10 ds 0 : Int) else Nat.ofDigitChars 10 ds 0)) := by
  unfold splitSign at hr ⊢
  split at hr
  · exact ⟨c :: '-' :: ds, congrArg (fun w => c :: '-' :: w) hr, .minus hc hne hds⟩
  · exact ⟨c :: '+' :: ds, congrArg (fun w => c :: '+' :: w) hr, .plus hc hne hds⟩
  · exact ⟨c :: ds, congrArg (c :: ·) hr, .unsigned hc hne hds⟩

theorem withExponent_sound {s : List Char} {t u : Taken Numeral s} (h : withExponent t = .ok u)
    (hnone : t.value.exponent = none) :
    ∃ exponent e?, t.rest = exponent ++ u.rest ∧ IsExponent exponent e? ∧
      u.value = { t.value with exponent := e? } := by
  have habsent : u = t → ∃ exponent e?, t.rest = exponent ++ u.rest ∧ IsExponent exponent e? ∧
      u.value = { t.value with exponent := e? } := by
    rintro rfl
    exact ⟨[], none, rfl, .absent, by rw [← hnone]⟩
  unfold withExponent at h
  split at h
  · next c r hrest =>
    split at h
    · next hletter =>
      have hc : c = 'e' ∨ c = 'E' := by simpa using hletter
      obtain ⟨w, hw, h⟩ := bind_eq_ok.1 h
      cases h
      obtain ⟨ds, hr, hne, hdigit, hvalue⟩ := digits_sound hw
      obtain ⟨exponent, htext, hexponent⟩ := exists_exponent hc hne hdigit hr
      refine ⟨exponent, _, hrest.trans htext, hexponent, ?_⟩
      rw [hvalue, ofDigits_digitValues]
    · cases h
      exact habsent rfl
  · cases h
    exact habsent rfl

theorem unsigned_sound {negative : Bool} {s : List Char} {t : Taken JsonNumber s}
    (h : unsigned negative s = .ok t) :
    ∃ ds fraction exponent e?, s = ds ++ (Decimal.fractionText fraction ++ (exponent ++ t.rest)) ∧
      IsWhole ds ∧ (∀ c ∈ fraction, c.isDigit) ∧ IsExponent exponent e? ∧
      JsonNumber.ofNumeral? { numeral negative ds fraction with exponent := e? } = some t.value := by
  obtain ⟨u, hu, h⟩ := bind_eq_ok.1 h
  obtain ⟨w, hw, h⟩ := bind_eq_ok.1 h
  obtain ⟨x, hx, h⟩ := bind_eq_ok.1 h
  obtain ⟨ds, hs, hds, hwhole⟩ := whole_sound hu
  obtain ⟨fraction, hpoint, hfraction, hwvalue⟩ := withFraction_sound hw rfl
  have hnone : w.value.exponent = none := by rw [hwvalue]; rfl
  obtain ⟨exponent, e?, hletter, hexponent, hxvalue⟩ := withExponent_sound hx hnone
  have hnumeral : x.value = { numeral negative ds fraction with exponent := e? } := by
    rw [hxvalue, hwvalue, numeral, ← hwhole]
    rfl
  split at h
  · next n hn =>
    cases h
    refine ⟨ds, fraction, exponent, e?, ?_, hds, hfraction, hexponent, ?_⟩
    · exact hs.trans (congrArg _ (hpoint.trans (congrArg _ hletter)))
    · rw [← hnumeral]
      exact hn
  · cases h

theorem number_sound {s : List Char} {t : Taken JsonNumber s} (h : number s = .ok t) :
    ∃ negative ds fraction exponent e?, s = numeralChars negative ds fraction ++ exponent ++ t.rest ∧
      IsWhole ds ∧ (∀ c ∈ fraction, c.isDigit) ∧ IsExponent exponent e? ∧
      JsonNumber.ofNumeral? { numeral negative ds fraction with exponent := e? } = some t.value := by
  unfold number at h
  split at h
  · next r =>
    obtain ⟨u, hu, rfl⟩ := map_eq_ok.1 h
    obtain ⟨ds, fraction, exponent, e?, hr, hparts⟩ := unsigned_sound hu
    refine ⟨true, ds, fraction, exponent, e?, ?_, hparts⟩
    simpa [numeralChars, Taken.extend] using hr
  · obtain ⟨ds, fraction, exponent, e?, hs, hparts⟩ := unsigned_sound h
    refine ⟨false, ds, fraction, exponent, e?, ?_, hparts⟩
    simpa [numeralChars] using hs

/-- Digits without a zero before another digit are those of their number. -/
theorem IsWhole.toDigits_eq {ds : List Char} (h : IsWhole ds) :
    Nat.toDigits 10 (Nat.ofDigitChars 10 ds 0) = ds := by
  induction ds using List.reverseRecOn with
  | nil => exact absurd rfl h.1
  | append_singleton ds c ih =>
    obtain ⟨-, hdigit, hzero⟩ := h
    obtain ⟨hlt, hchar⟩ := digitChar_of_isDigit (hdigit c (List.mem_append_right _ List.mem_cons_self))
    rw [Nat.ofDigitChars_append, Nat.ofDigitChars_cons, Nat.ofDigitChars_nil]
    by_cases hnil : ds = []
    · subst hnil
      rw [Nat.ofDigitChars_nil, Nat.mul_zero, Nat.zero_add, Nat.toDigits_of_lt_base hlt, hchar]
      rfl
    · have hds : IsWhole ds := by
        refine ⟨hnil, fun d hd => hdigit d (List.mem_append_left _ hd), ?_⟩
        rintro d ds' rfl
        exact hzero d (ds' ++ [c]) rfl
      have hpos : 0 < Nat.ofDigitChars 10 ds 0 := by
        rw [Nat.pos_iff_ne_zero]
        intro h0
        have hzeros := ih hds
        rw [h0, Nat.toDigits_zero] at hzeros
        exact hzero c [] (by rw [← hzeros]; rfl)
      rw [Nat.toDigits_of_base_le (by decide) (by omega), Nat.mul_add_div (by decide),
        Nat.div_eq_of_lt hlt, Nat.add_zero, ih hds, Nat.mul_add_mod, Nat.mod_eq_of_lt hlt, hchar]

private theorem isPlain_of_ofNumeral? {negative : Bool} {ds fraction exponent : List Char} {e? : Option Int}
    {x : JsonNumber} (hds : IsWhole ds) (hfraction : ∀ c ∈ fraction, c.isDigit)
    (hexponent : IsExponent exponent e?)
    (h : JsonNumber.ofNumeral? { numeral negative ds fraction with exponent := e? } = some x) :
    IsPlain (numeralChars negative ds fraction ++ exponent) (.number x) := by
  have hread := outcome_value_numeral negative hds hfraction hexponent (r := []) (fun _ hc => nomatch hc)
    (List.forall_mem_nil _) 0
  obtain ⟨w, rfl⟩ : ∃ w, ds = Nat.toDigits 10 w := ⟨_, hds.toDigits_eq.symm⟩
  cases x with
  | integer n range =>
    obtain ⟨rfl, rfl, rfl, rfl⟩ := JsonNumber.eq_of_ofNumeral?_toDigits h
    cases hexponent
    rw [List.append_nil, ← toList_repr_eq]
    exact .integer n range
  | float y finite =>
    have hinteger : ∀ n : Int, -0x8000000000000000 ≤ n → n < 0x10000000000000000 →
        numeralChars negative (Nat.toDigits 10 w) fraction ++ exponent ≠ n.repr.toList := by
      intro n hlo hhi heq
      have hrepr := outcome_value_repr (n := n) ⟨hlo, hhi⟩ (List.forall_mem_nil _) (r := [])
        (fun _ hc => nomatch hc) 0
      rw [← heq, List.append_assoc, hread, h] at hrepr
      cases hrepr
    refine .inexact hfraction hexponent hinteger ?_
    rw [← ofNumeral?_eq_inexact? hexponent hinteger, h]

theorem word_sound {letters : String} {v : Json} {c : Char} {r : List Char} {t : Taken Json (c :: r)}
    (h : word letters v c r = .ok t) : r = letters.toList ++ t.rest ∧ t.value = v := by
  have hdrop : ∀ {w s q : List Char}, dropWord w s = .ok q → s = w ++ q := by
    intro w s q h
    fun_induction dropWord w s with
    | case1 s =>
      cases h
      rfl
    | case2 => cases h
    | case3 d w s ih => rw [ih h, List.cons_append]
    | case4 => cases h
  unfold word at h
  split at h
  · next rest hrest =>
    cases h
    exact ⟨hdrop hrest, rfl⟩
  · cases h

theorem plain_sound {s : List Char} {t : Taken Json s} (h : plain s = .ok t) :
    ∃ text, s = text ++ t.rest ∧ IsPlain text t.value := by
  cases s with
  | nil => cases h
  | cons c r =>
    unfold plain at h
    dsimp only at h
    split at h
    · next hc =>
      obtain ⟨hr, hvalue⟩ := word_sound h
      subst hc
      rw [hvalue]
      exact ⟨_, congrArg _ hr, .null⟩
    · split at h
      · next hc =>
        obtain ⟨hr, hvalue⟩ := word_sound h
        subst hc
        rw [hvalue]
        exact ⟨_, congrArg _ hr, .bool true⟩
      · split at h
        · next hc =>
          obtain ⟨hr, hvalue⟩ := word_sound h
          subst hc
          rw [hvalue]
          exact ⟨_, congrArg _ hr, .bool false⟩
        · split at h
          · next hc =>
            obtain ⟨u, hu, rfl⟩ := map_eq_ok.1 h
            obtain ⟨text, hr, htext⟩ := string_sound hu
            rw [hc]
            exact ⟨'"' :: text, congrArg _ hr, .string htext⟩
          · split at h
            · obtain ⟨u, hu, rfl⟩ := map_eq_ok.1 h
              obtain ⟨negative, ds, fraction, exponent, e?, hs, hds, hfraction, hexponent, hn⟩ :=
                number_sound hu
              exact ⟨_, hs, isPlain_of_ofNumeral? hds hfraction hexponent hn⟩
            · cases h

section Items

variable {α : Type}

/-- What a reader takes is blanks and a text of its value. -/
def Sound (read : Reader α) (item : List Char → α → Prop) : Prop :=
  ∀ {s : List Char} {t : Taken α s}, read s = .ok t →
    ∃ blanks text, s = blanks ++ (text ++ t.rest) ∧ IsBlank blanks ∧ item text t.value

variable {read : Reader α} {item : List Char → α → Prop} (hread : Sound read item)
include hread

theorem Sound.member : Sound (member read) (IsMember item) := by
  intro s t h
  unfold Reader.member at h
  split at h
  · next r hs =>
    obtain ⟨key, hkey, h⟩ := bind_eq_ok.1 h
    obtain ⟨blanks, hblanks, hquote⟩ := exists_isBlank_cons hs
    obtain ⟨name, hr, hname⟩ := string_sound hkey
    split at h
    · next r' hcolon =>
      obtain ⟨u, hu, h⟩ := bind_eq_ok.1 h
      cases h
      obtain ⟨before, hbefore, hrest⟩ := exists_isBlank_cons hcolon
      obtain ⟨after, text, hr', hafter, htext⟩ := hread hu
      refine ⟨blanks, _, ?_, hblanks, .mk hname hbefore hafter htext⟩
      have hkeyrest := hrest.trans (congrArg (fun w => before ++ ':' :: w) hr')
      refine hquote.trans (congrArg (blanks ++ ·) ?_)
      refine (congrArg ('"' :: ·) (hr.trans (congrArg (name ++ ·) hkeyrest))).trans ?_
      simp
    · cases h
  · cases h

theorem Sound.separated {close : Char} {s : List Char} {t : Taken (List α) s}
    (h : separated close read s = .ok t) :
    ∃ text, s = text ++ close :: t.rest ∧ AreSeparated item text t.value := by
  induction hn : s.length using Nat.strongRecOn generalizing s with
  | ind n ih =>
    unfold Reader.separated at h
    obtain ⟨u, hu, h⟩ := bind_eq_ok.1 h
    obtain ⟨before, text, hs, hbefore, htext⟩ := hread hu
    split at h
    · cases h
    · next c r hrest =>
      obtain ⟨after, hafter, hafterrest⟩ := exists_isBlank_cons hrest
      have hitem : s = before ++ (text ++ (after ++ c :: r)) :=
        hs.trans (congrArg (fun w => before ++ (text ++ w)) hafterrest)
      split at h
      · next hclose =>
        cases h
        refine ⟨before ++ (text ++ after), hitem.trans ?_, .single hbefore htext hafter⟩
        simp [hclose]
      · split at h
        · next hcomma =>
          obtain ⟨w, hw, h⟩ := bind_eq_ok.1 h
          cases h
          have hlt : r.length < n := hn ▸ Nat.lt_trans (length_of_skipBlank hrest) u.shorter
          obtain ⟨others, hr, hothers⟩ := ih _ hlt hw rfl
          refine ⟨_, hitem.trans ?_, .cons hbefore htext hafter hothers⟩
          refine (congrArg (fun w => before ++ (text ++ (after ++ c :: w))) hr).trans ?_
          simp [hcomma]
        · cases h

theorem Sound.items {close : Char} {s : List Char} {t : Taken (List α) s}
    (h : items close read s = .ok t) :
    ∃ text, s = text ++ close :: t.rest ∧ AreItems item text t.value := by
  unfold Reader.items at h
  split at h
  · cases h
  · next c r hs =>
    split at h
    · next hclose =>
      cases h
      obtain ⟨blanks, hblanks, hs⟩ := exists_isBlank_cons hs
      exact ⟨blanks, hs.trans (congrArg (fun d => blanks ++ d :: r) hclose), .none hblanks⟩
    · obtain ⟨text, hs, htext⟩ := hread.separated h
      exact ⟨text, hs, .some htext⟩

end Items

theorem sound_value (depth : Nat) : Sound (value depth) (IsValue depth) := by
  have hplain : ∀ {depth : Nat} {s : List Char} {u : Taken Json (skipBlank s)},
      plain (skipBlank s) = .ok u →
        ∃ blanks text, s = blanks ++ (text ++ u.rest) ∧ IsBlank blanks ∧ IsValue depth text u.value := by
    intro depth s u hu
    obtain ⟨blanks, hblanks, hs⟩ := exists_isBlank_append s
    obtain ⟨text, hrest, htext⟩ := plain_sound hu
    exact ⟨blanks, text, hs.trans (congrArg _ hrest), hblanks, htext.isValue depth⟩
  induction depth with
  | zero =>
    intro s t h
    obtain ⟨u, hu, rfl⟩ := map_eq_ok.1 h
    exact hplain hu
  | succ depth ih =>
    intro s t h
    unfold value at h
    split at h
    · next r hs =>
      obtain ⟨u, hu, rfl⟩ := map_eq_ok.1 h
      obtain ⟨blanks, hblanks, hs⟩ := exists_isBlank_cons hs
      obtain ⟨text, hr, htext⟩ := Sound.items ih hu
      refine ⟨blanks, _, ?_, hblanks, Or.inr (.array htext)⟩
      refine hs.trans (congrArg (fun w => blanks ++ '[' :: w) hr |>.trans ?_)
      simp [Taken.extend, Taken.map]
    · next r hs =>
      obtain ⟨u, hu, rfl⟩ := map_eq_ok.1 h
      obtain ⟨blanks, hblanks, hs⟩ := exists_isBlank_cons hs
      obtain ⟨text, hr, htext⟩ := Sound.items (Sound.member ih) hu
      refine ⟨blanks, _, ?_, hblanks, Or.inr (.object htext (OrderedMap.extends_ofList _))⟩
      refine hs.trans (congrArg (fun w => blanks ++ '\x7b' :: w) hr |>.trans ?_)
      simp [Taken.extend, Taken.map]
    · obtain ⟨u, hu, rfl⟩ := map_eq_ok.1 h
      exact hplain hu

end Reader

/-- The grammar has exactly the texts that are read, with the values that they are read as. -/
theorem Json.parse_eq_ok_iff {text : String} {v : Json} : parse text = .ok v ↔ v.IsWritten text := by
  refine ⟨fun h => ?_, parse_of_isWritten⟩
  obtain ⟨t, ht, h⟩ := bind_eq_ok.1 (mapError_eq_ok.1 h)
  obtain ⟨before, s, htext, hbefore, hs⟩ := Reader.sound_value maxDepth ht
  split at h
  · next hrest =>
    rw [Except.ok.inj h] at hs
    obtain ⟨after, hafter, hsplit⟩ := Reader.exists_isBlank_append t.rest
    rw [hrest, List.append_nil] at hsplit
    have hlist : text = .ofList (before ++ (s ++ after)) := by
      rw [← hsplit, ← htext, String.ofList_toList]
    rw [hlist]
    exact .mk hbefore hs hafter
  · cases h

end TargetSelector
