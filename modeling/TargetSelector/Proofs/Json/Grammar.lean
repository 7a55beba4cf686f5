import TargetSelector.Proofs.Json.Reading
import TargetSelector.Proofs.OrderedMap

/-!
JSON texts and the values that they write, as a grammar. The reader takes every such text for its value.
-/
namespace TargetSelector

namespace Json

def IsBlank (s : List Char) : Prop := ∀ c ∈ s, c ∈ [' ', '\t', '\r', '\n']

/-! ### Strings -/

def IsHexDigit (c : Char) (n : Nat) : Prop := n < 16 ∧ (c = n.digitChar ∨ c = n.digitChar.toUpper)

inductive IsHex4 : List Char → Nat → Prop where
  | mk {a b c d : Char} {i j k l : Nat} (ha : IsHexDigit a i) (hb : IsHexDigit b j)
    (hc : IsHexDigit c k) (hd : IsHexDigit d l) :
    IsHex4 [a, b, c, d] (((i * 16 + j) * 16 + k) * 16 + l)

/-- What follows the backslash of an escaped character. Beyond U+FFFF it is a pair of surrogates. -/
inductive IsEscape : List Char → Char → Prop where
  | letter {c d : Char} (h : (c, d) ∈ [('"', '"'), ('\\', '\\'), ('/', '/'), ('b', '\x08'),
      ('f', '\x0c'), ('n', '\n'), ('r', '\r'), ('t', '\t')]) : IsEscape [c] d
  | unit {hex : List Char} {n : Nat} (hn : IsHex4 hex n) (h : n < 0xD800 ∨ 0xE000 ≤ n) :
    IsEscape ('u' :: hex) (Char.ofNat n)
  | pair {hex hex' : List Char} {high low : Nat} (hhigh : IsHex4 hex high) (hlow : IsHex4 hex' low)
    (h : 0xD800 ≤ high ∧ high < 0xDC00) (h' : 0xDC00 ≤ low ∧ low < 0xE000) :
    IsEscape ('u' :: (hex ++ '\\' :: 'u' :: hex'))
      (Char.ofNat (0x10000 + (high - 0xD800) * 0x400 + (low - 0xDC00)))

/-- The inside of a string, and its characters. -/
inductive IsStringBody : List Char → List Char → Prop where
  | nil : IsStringBody [] []
  | plain {c : Char} {s cs : List Char} (hc : c ≠ '"' ∧ c ≠ '\\' ∧ ' ' ≤ c) (hs : IsStringBody s cs) :
    IsStringBody (c :: s) (c :: cs)
  | escape {e s cs : List Char} {c : Char} (he : IsEscape e c) (hs : IsStringBody s cs) :
    IsStringBody ('\\' :: (e ++ s)) (c :: cs)

inductive IsString : List Char → String → Prop where
  | mk {s : List Char} {t : String} (h : IsStringBody s t.toList) : IsString (s ++ ['"']) t

/-! ### Values -/

/-- The texts of the values that open no container. -/
inductive IsPlain : List Char → Json → Prop where
  | null : IsPlain "null".toList .null
  | bool (b : Bool) : IsPlain (if b then "true" else "false").toList (.bool b)
  | integer (n : Int) (range : -0x8000000000000000 ≤ n ∧ n < 0x10000000000000000) :
    IsPlain n.repr.toList (.number (.integer n range))
  | inexact {negative : Bool} {w : Nat} {fraction exponent : List Char} {e? : Option Int}
    {x : JsonNumber} (hfraction : ∀ c ∈ fraction, c.isDigit)
    (hexponent : Reader.IsExponent exponent e?)
    (hinteger : ∀ n : Int, -0x8000000000000000 ≤ n → n < 0x10000000000000000 →
      Reader.numeralChars negative (Nat.toDigits 10 w) fraction ++ exponent ≠ n.repr.toList)
    (h : JsonNumber.inexact?
      { Reader.numeral negative (Nat.toDigits 10 w) fraction with exponent := e? } = some x) :
    IsPlain (Reader.numeralChars negative (Nat.toDigits 10 w) fraction ++ exponent) (.number x)
  | string {s : List Char} {t : String} (h : IsString s t) : IsPlain ('"' :: s) (.string t)

section Containers

variable {α : Type}

/-- Items with blanks around them and commas between them. -/
inductive AreSeparated (item : List Char → α → Prop) : List Char → List α → Prop where
  | single {before s after : List Char} {a : α} (hbefore : IsBlank before) (h : item s a)
    (hafter : IsBlank after) : AreSeparated item (before ++ (s ++ after)) [a]
  | cons {before s after t : List Char} {a : α} {as : List α} (hbefore : IsBlank before) (h : item s a)
    (hafter : IsBlank after) (ht : AreSeparated item t as) :
    AreSeparated item (before ++ (s ++ (after ++ ',' :: t))) (a :: as)

/-- The inside of a container. -/
inductive AreItems (item : List Char → α → Prop) : List Char → List α → Prop where
  | none {s : List Char} (h : IsBlank s) : AreItems item s []
  | some {s : List Char} {as : List α} (h : AreSeparated item s as) : AreItems item s as

inductive IsMember (value : List Char → α → Prop) : List Char → String × α → Prop where
  | mk {key before after s : List Char} {name : String} {a : α} (hkey : IsString key name)
    (hbefore : IsBlank before) (hafter : IsBlank after) (h : value s a) :
    IsMember value ('"' :: (key ++ (before ++ ':' :: (after ++ s)))) (name, a)

/-- An array or an object, with the texts of its values. A name that is repeated has its last value, at
the place of the first. -/
inductive IsContainer (value : List Char → Json → Prop) : List Char → Json → Prop where
  | array {s : List Char} {items : List Json} (h : AreItems value s items) :
    IsContainer value ('[' :: (s ++ [']'])) (.array items)
  | object {s : List Char} {written members : List (String × Json)}
    (h : AreItems (IsMember value) s written) (hlast : OrderedMap.Extends [] written members) :
    IsContainer value ('\x7b' :: (s ++ ['\x7d'])) (.object members)

end Containers

/-- The texts of the values in which at most `depth` containers are open at a time. -/
def IsValue : Nat → List Char → Json → Prop
  | 0 => IsPlain
  | depth + 1 => fun s v => IsPlain s v ∨ IsContainer (IsValue depth) s v

theorem IsPlain.isValue {s : List Char} {v : Json} (h : IsPlain s v) (depth : Nat) :
    IsValue depth s v := by
  cases depth with
  | zero => exact h
  | succ depth => exact Or.inl h

/-- A text writes a value with blanks around it. -/
inductive IsWritten (v : Json) : String → Prop where
  | mk {before s after : List Char} (hbefore : IsBlank before) (h : IsValue 127 s v)
    (hafter : IsBlank after) : IsWritten v (.ofList (before ++ (s ++ after)))

end Json

namespace Reader

open Json

theorem isBlank_of_mem {s : List Char} (h : IsBlank s) : ∀ c ∈ s, isBlank c := by
  intro c hc
  have hmem := h c hc
  simp only [List.mem_cons, List.not_mem_nil, or_false] at hmem
  rcases hmem with rfl | rfl | rfl | rfl <;> decide

theorem skipBlank_isBlank_append {blanks : List Char} (hblanks : IsBlank blanks) {c : Char}
    (hc : ¬ isBlank c) (r : List Char) : skipBlank (blanks ++ c :: r) = c :: r := by
  rw [skipBlank_append (isBlank_of_mem hblanks), skipBlank_cons hc]

theorem EndsNumeral.isBlank_append {blanks r : List Char} (hblanks : IsBlank blanks)
    (hr : EndsNumeral r) : EndsNumeral (blanks ++ r) := by
  cases blanks with
  | nil => exact hr
  | cons c blanks =>
    intro d hd
    cases hd
    have hmem := hblanks c List.mem_cons_self
    simp only [List.mem_cons, List.not_mem_nil, or_false] at hmem
    rcases hmem with rfl | rfl | rfl | rfl <;> decide

theorem endsNumeral_cons {c : Char} (h : ¬ c.isDigit ∧ c ≠ '.' ∧ c ≠ 'e' ∧ c ≠ 'E') (r : List Char) :
    EndsNumeral (c :: r) := by
  intro d hd
  cases hd
  exact h

theorem hexDigit?_of_isHexDigit {c : Char} {n : Nat} (h : IsHexDigit c n) : hexDigit? c = some n := by
  have hall : ∀ n < 16, hexDigit? n.digitChar = some n ∧ hexDigit? n.digitChar.toUpper = some n := by
    decide
  obtain ⟨hn, rfl | rfl⟩ := h
  · exact (hall n hn).1
  · exact (hall n hn).2

theorem outcome_hex4 {hex : List Char} {n : Nat} (h : IsHex4 hex n) (r : List Char) :
    outcome (hex4 (hex ++ r)) = some (n, r) := by
  cases h with
  | mk ha hb hc hd =>
    simp only [List.cons_append, List.nil_append, hex4, hexDigit?_of_isHexDigit ha,
      hexDigit?_of_isHexDigit hb, hexDigit?_of_isHexDigit hc, hexDigit?_of_isHexDigit hd, outcome]

private theorem outcome_codePoint_unit {hex : List Char} {n : Nat} (hn : IsHex4 hex n)
    (h : n < 0xD800 ∨ 0xE000 ≤ n) (r : List Char) :
    outcome (codePoint (hex ++ r)) = some (Char.ofNat n, r) := by
  obtain ⟨t, ht, hvalue, hrest⟩ := outcome_eq_some.1 (outcome_hex4 hn r)
  have hlow : ¬ isLowSurrogate t.value := by simp [isLowSurrogate, hvalue]; omega
  have hhigh : ¬ isHighSurrogate t.value := by simp [isHighSurrogate, hvalue]; omega
  unfold codePoint
  rw [ht]
  dsimp only [bind, Except.bind]
  rw [if_neg hlow, if_neg hhigh]
  exact outcome_eq_some.2 ⟨_, rfl, congrArg Char.ofNat hvalue, hrest⟩

private theorem outcome_codePoint_pair {hex hex' : List Char} {high low : Nat}
    (hhigh : IsHex4 hex high)
    (hlow : IsHex4 hex' low) (h : 0xD800 ≤ high ∧ high < 0xDC00) (h' : 0xDC00 ≤ low ∧ low < 0xE000)
    (r : List Char) :
    outcome (codePoint (hex ++ '\\' :: 'u' :: (hex' ++ r))) =
      some (Char.ofNat (0x10000 + (high - 0xD800) * 0x400 + (low - 0xDC00)), r) := by
  obtain ⟨t, ht, hvalue, hrest⟩ := outcome_eq_some.1 (outcome_hex4 hhigh ('\\' :: 'u' :: (hex' ++ r)))
  obtain ⟨u, hu, huvalue, hurest⟩ := outcome_eq_some.1 (outcome_hex4 hlow r)
  have hnlow : ¬ isLowSurrogate t.value := by simp [isLowSurrogate, hvalue]; omega
  have hthigh : isHighSurrogate t.value := by simp [isHighSurrogate, hvalue]; omega
  have hulow : isLowSurrogate u.value := by simp [isLowSurrogate, huvalue]; omega
  unfold codePoint
  rw [ht]
  dsimp only [bind, Except.bind]
  rw [if_neg hnlow, if_pos hthigh]
  split
  · next r' heq =>
    rw [hrest] at heq
    obtain ⟨-, heq⟩ := List.cons_eq_cons.1 heq
    obtain ⟨-, rfl⟩ := List.cons_eq_cons.1 heq
    rw [hu]
    dsimp only
    rw [if_pos hulow]
    exact outcome_eq_some.2 ⟨_, rfl, by rw [hvalue, huvalue], hurest⟩
  · next heq => cases hrest.symm.trans heq
  · next hnot _ => exact absurd hrest (hnot _)

private theorem outcome_escape {e : List Char} {c : Char} (h : IsEscape e c) (r : List Char) :
    outcome (escape (e ++ r)) = some (c, r) := by
  have hunit : ∀ {s : List Char}, outcome (codePoint s) = some (c, r) →
      outcome (escape ('u' :: s)) = some (c, r) := by
    intro s hs
    have hescape : escape ('u' :: s) = (codePoint s).map (·.extend (by simp)) := rfl
    rw [hescape, outcome_extend, hs]
  cases h with
  | letter h =>
    simp only [List.mem_cons, List.not_mem_nil, or_false, Prod.mk.injEq] at h
    rcases h with ⟨rfl, rfl⟩ | ⟨rfl, rfl⟩ | ⟨rfl, rfl⟩ | ⟨rfl, rfl⟩ | ⟨rfl, rfl⟩ | ⟨rfl, rfl⟩ |
      ⟨rfl, rfl⟩ | ⟨rfl, rfl⟩ <;> rfl
  | unit hn h => exact hunit (outcome_codePoint_unit hn h r)
  | pair hhigh hlow h h' =>
    rw [List.cons_append, List.append_assoc]
    exact hunit (outcome_codePoint_pair hhigh hlow h h' r)

private theorem outcome_stringChars {s cs : List Char} (h : IsStringBody s cs) (r : List Char) :
    outcome (stringChars (s ++ '"' :: r)) = some (cs, r) := by
  induction h with
  | nil =>
    rw [List.nil_append, stringChars, if_pos rfl]
    rfl
  | @plain c s cs hc hs ih =>
    obtain ⟨t, ht, hvalue, hrest⟩ := outcome_eq_some.1 ih
    rw [List.cons_append, stringChars, if_neg hc.1, if_neg hc.2.1, if_neg (Char.not_lt.2 hc.2.2), ht]
    exact outcome_eq_some.2 ⟨_, rfl, by rw [hvalue], hrest⟩
  | @escape e s cs c he hs ih =>
    obtain ⟨t, ht, hvalue, hrest⟩ := outcome_eq_some.1 (outcome_escape he (s ++ '"' :: r))
    have hbody : ∃ u, stringChars t.rest = .ok u ∧ u.value = cs ∧ u.rest = r := by
      rw [hrest]
      exact outcome_eq_some.1 ih
    obtain ⟨u, hu, huvalue, hurest⟩ := hbody
    rw [List.cons_append, List.append_assoc, stringChars, if_neg (by decide), if_pos rfl, ht]
    dsimp only [bind, Except.bind]
    rw [hu]
    exact outcome_eq_some.2 ⟨_, rfl, by rw [hvalue, huvalue], hurest⟩

theorem outcome_string {s : List Char} {t : String} (h : IsString s t) (r : List Char) :
    outcome (string (s ++ r)) = some (t, r) := by
  cases h with
  | mk h =>
    rw [List.append_assoc, string, outcome_map, List.singleton_append, outcome_stringChars h]
    simp

def isPlainChar (c : Char) : Bool := c ≠ '"' && c ≠ '\\' && !(c < ' ')

theorem isStringBody_of_isPlainChar {cs : List Char} (h : ∀ c ∈ cs, isPlainChar c) :
    IsStringBody cs cs := by
  induction cs with
  | nil => exact .nil
  | cons c cs ih =>
    obtain ⟨hc, hrest⟩ := List.forall_mem_cons.1 h
    simp only [isPlainChar, Bool.and_eq_true, decide_eq_true_eq, Bool.not_eq_true',
      decide_eq_false_iff_not, Char.not_lt] at hc
    exact .plain ⟨hc.1.1, hc.1.2, hc.2⟩ (ih hrest)

theorem outcome_string_of_isPlainChar {name : String} (h : ∀ c ∈ name.toList, isPlainChar c)
    (r : List Char) : outcome (string (name.toList ++ '"' :: r)) = some (name, r) := by
  have hstring := outcome_string (.mk (isStringBody_of_isPlainChar h)) r
  rwa [List.append_assoc, List.singleton_append] at hstring

private theorem outcome_word (letters : String) (v : Json) (c : Char) (r : List Char) :
    outcome (word letters v c (letters.toList ++ r)) = some (v, r) := by
  have hdrop : ∀ w : List Char, dropWord w (w ++ r) = .ok r := by
    intro w
    induction w with
    | nil => rfl
    | cons d w ih => rw [List.cons_append, dropWord, if_pos rfl, ih]
  unfold word
  split
  · next rest heq =>
    obtain rfl := Except.ok.inj ((hdrop letters.toList).symm.trans heq)
    rfl
  · next heq => cases (hdrop letters.toList).symm.trans heq

section Items

variable {α : Type}

/-- Of what `item` holds, a reader takes the value, also after blanks, where no numeral goes on behind
it. Such texts begin with neither a blank nor the end of a container. -/
structure Completes (read : Reader α) (item : List Char → α → Prop) : Prop where
  opens : ∀ {s a}, item s a → ∃ c t, s = c :: t ∧ ¬ isBlank c ∧ c ≠ ']' ∧ c ≠ '\x7d'
  takes : ∀ {blanks s r a}, IsBlank blanks → item s a → EndsNumeral r →
    outcome (read (blanks ++ (s ++ r))) = some (a, r)

variable {read : Reader α} {item : List Char → α → Prop}

theorem Completes.member (hread : Completes read item) : Completes (member read) (IsMember item) where
  opens := by
    intro s a h
    cases h with
    | mk => exact ⟨'"', _, rfl, by decide, by decide, by decide⟩
  takes := by
    intro blanks s r a hblanks h hr
    cases h with
    | @mk key before after s name a hkey hbefore hafter h =>
      have hname := outcome_string hkey (before ++ ':' :: (after ++ (s ++ r)))
      have hcolon : skipBlank (before ++ ':' :: (after ++ (s ++ r))) = ':' :: (after ++ (s ++ r)) :=
        skipBlank_isBlank_append hbefore (by decide) _
      have hassoc : '"' :: (key ++ (before ++ ':' :: (after ++ s))) ++ r =
          '"' :: (key ++ (before ++ ':' :: (after ++ (s ++ r)))) := by simp
      rw [hassoc, outcome_member (skipBlank_isBlank_append hblanks (by decide) _) hname hcolon,
        hread.takes hafter h hr]
      rfl

variable (hread : Completes read item) {close : Char} (hclose : close ∈ [']', '\x7d'])
  {s : List Char} {as : List α}
include hread hclose

theorem Completes.separated (h : AreSeparated item s as) (r : List Char) :
    outcome (separated close read (s ++ close :: r)) = some (as, r) := by
  have hblank : ¬ isBlank close := by
    simp only [List.mem_cons, List.not_mem_nil, or_false] at hclose
    rcases hclose with rfl | rfl <;> decide
  have hcomma : close ≠ ',' := by
    rintro rfl
    simp at hclose
  have hends : EndsNumeral (close :: r) := by
    simp only [List.mem_cons, List.not_mem_nil, or_false] at hclose
    rcases hclose with rfl | rfl <;> exact endsNumeral_cons (by decide) r
  induction h with
  | @single before s after a hbefore h hafter =>
    have hitem := hread.takes hbefore h (hends.isBlank_append hafter)
    rw [List.append_assoc, List.append_assoc, outcome_separated, hitem, Option.bind_some]
    dsimp only
    rw [skipBlank_isBlank_append hafter hblank]
    exact if_pos rfl
  | @cons before s after t a as hbefore h hafter ht ih =>
    have hitem := hread.takes hbefore h
      ((endsNumeral_cons (c := ',') (by decide) (t ++ close :: r)).isBlank_append hafter)
    rw [List.append_assoc, List.append_assoc, List.append_assoc, List.cons_append, outcome_separated,
      hitem, Option.bind_some]
    dsimp only
    rw [skipBlank_isBlank_append hafter (by decide)]
    dsimp only
    rw [if_neg hcomma.symm, if_pos rfl, ih]
    rfl

theorem Completes.items (h : AreItems item s as) (r : List Char) :
    outcome (items close read (s ++ close :: r)) = some (as, r) := by
  have hblank : ¬ isBlank close := by
    simp only [List.mem_cons, List.not_mem_nil, or_false] at hclose
    rcases hclose with rfl | rfl <;> decide
  cases h with
  | none h => exact outcome_items_nil (skipBlank_isBlank_append h hblank r) read
  | some h =>
    have hhead : ∃ c t, skipBlank (s ++ close :: r) = c :: t ∧ c ≠ close := by
      have hopens : ∃ before c t, s = before ++ c :: t ∧ IsBlank before ∧ ¬ isBlank c ∧ c ≠ ']' ∧
          c ≠ '\x7d' := by
        cases h with
        | single hbefore h _ | cons hbefore h _ _ =>
          obtain ⟨c, t, rfl, hc⟩ := hread.opens h
          exact ⟨_, c, _, rfl, hbefore, hc⟩
      obtain ⟨before, c, t, rfl, hbefore, hc, harray, hobject⟩ := hopens
      refine ⟨c, t ++ close :: r, ?_, ?_⟩
      · rw [List.append_assoc, List.cons_append, skipBlank_isBlank_append hbefore hc]
      · rintro rfl
        simp only [List.mem_cons, List.not_mem_nil, or_false] at hclose
        exact hclose.elim harray hobject
    obtain ⟨c, t, hskip, hc⟩ := hhead
    rw [outcome_items hskip hc, hread.separated hclose h]

end Items

/-- A numeral that is not the text of an integer of up to 64 bits is not read as an integer. -/
theorem ofNumeral?_eq_inexact? {negative : Bool} {w : Nat} {fraction exponent : List Char}
    {e? : Option Int} (hexponent : IsExponent exponent e?)
    (hinteger : ∀ n : Int, -0x8000000000000000 ≤ n → n < 0x10000000000000000 →
      numeralChars negative (Nat.toDigits 10 w) fraction ++ exponent ≠ n.repr.toList) :
    JsonNumber.ofNumeral? { numeral negative (Nat.toDigits 10 w) fraction with exponent := e? } =
      JsonNumber.inexact? { numeral negative (Nat.toDigits 10 w) fraction with exponent := e? } := by
  have hdigits : ofDigits 0 (digitValues (Nat.toDigits 10 w)) = w := by
    rw [ofDigits_digitValues, Nat.ofDigitChars_ten_toDigits]
  refine dif_neg ?_
  rintro ⟨range, hfraction, habsent, hzero⟩
  simp only [numeral, hdigits] at range hfraction hzero
  have hnofraction : fraction = [] := by
    by_contra hne
    rw [if_neg hne] at hfraction
    cases hfraction
  have hnoexponent : exponent = [] := by
    cases hexponent with
    | absent => rfl
    | _ => cases habsent
  have hsign : decide ((if negative then -(w : Int) else w) < 0) = negative := by
    cases negative with
    | false =>
      simp only [Bool.false_eq_true, ↓reduceIte, decide_eq_false_iff_not]
      omega
    | true =>
      have hw : w ≠ 0 := fun h => hzero ⟨rfl, h⟩
      simp only [↓reduceIte, decide_eq_true_eq]
      omega
  have hw : (if negative then -(w : Int) else w).natAbs = w := by split <;> omega
  refine hinteger _ range.1 range.2 ?_
  rw [hnofraction, hnoexponent, List.append_nil, toList_repr_eq, hsign, hw]

theorem exists_numeral_eq_cons (negative : Bool) (w : Nat) (fraction exponent : List Char) :
    ∃ c t, numeralChars negative (Nat.toDigits 10 w) fraction ++ exponent = c :: t ∧ ¬ isBlank c ∧
      c ≠ ']' ∧ c ≠ '\x7d' := by
  obtain ⟨c, cs, hchars, hc⟩ := exists_numeralChars_eq_cons negative (isWhole_toDigits w) fraction
  refine ⟨c, cs ++ exponent, by rw [hchars, List.cons_append], not_isBlank_of_numeral hc, ?_, ?_⟩
  all_goals
    rintro rfl
    exact absurd hc (by decide)

theorem completes_plain (depth : Nat) : Completes (value depth) IsPlain where
  opens := by
    intro s v h
    cases h with
    | null => exact ⟨'n', _, rfl, by decide, by decide, by decide⟩
    | bool b =>
      cases b with
      | true => exact ⟨'t', _, rfl, by decide, by decide, by decide⟩
      | false => exact ⟨'f', _, rfl, by decide, by decide, by decide⟩
    | integer n range =>
      have hnumeral := exists_numeral_eq_cons (decide (n < 0)) n.natAbs [] []
      rwa [List.append_nil, ← toList_repr_eq] at hnumeral
    | inexact _ _ _ _ => exact exists_numeral_eq_cons _ _ _ _
    | string _ => exact ⟨'"', _, rfl, by decide, by decide, by decide⟩
  takes := by
    intro blanks s r v hblanks h hr
    -- A word is read by its letters after the first one.
    have hword : ∀ (c : Char) (letters : String) (v : Json), ¬ isBlank c → c ≠ '[' → c ≠ '\x7b' →
        (∀ t, plain (c :: t) = word letters v c t) →
        outcome (value depth (blanks ++ c :: (letters.toList ++ r))) = some (v, r) := by
      intro c letters v hc harray hobject hplain
      rw [outcome_value_cons (skipBlank_isBlank_append hblanks hc _) harray hobject, hplain,
        outcome_word]
    cases h with
    | null => exact hword 'n' "ull" _ (by decide) (by decide) (by decide) fun _ => rfl
    | bool b =>
      cases b with
      | true => exact hword 't' "rue" _ (by decide) (by decide) (by decide) fun _ => rfl
      | false => exact hword 'f' "alse" _ (by decide) (by decide) (by decide) fun _ => rfl
    | integer n range => exact outcome_value_repr range (isBlank_of_mem hblanks) hr depth
    | inexact hfraction hexponent hinteger h =>
      rw [List.append_assoc, outcome_value_numeral _ (isWhole_toDigits _) hfraction hexponent hr
        (isBlank_of_mem hblanks), ofNumeral?_eq_inexact? hexponent hinteger, h]
      rfl
    | string h =>
      exact outcome_value_string (skipBlank_isBlank_append hblanks (by decide) _)
        (outcome_string h r) depth

/-- The values of any depth are read up to their ends, by induction on the depth. -/
theorem completes_value (depth : Nat) : Completes (value depth) (IsValue depth) := by
  induction depth with
  | zero => exact completes_plain 0
  | succ depth ih =>
    constructor
    · rintro s v (h | h)
      · exact (completes_plain (depth + 1)).opens h
      · cases h with
        | array _ => exact ⟨'[', _, rfl, by decide, by decide, by decide⟩
        | object _ _ => exact ⟨'\x7b', _, rfl, by decide, by decide, by decide⟩
    · rintro blanks s r v hblanks (h | h) hr
      · exact (completes_plain (depth + 1)).takes hblanks h hr
      · cases h with
        | array h =>
          rw [List.cons_append, List.append_assoc,
            outcome_value_array (skipBlank_isBlank_append hblanks (by decide) _), List.singleton_append,
            ih.items (by decide) h]
          rfl
        | object h hlast =>
          rw [List.cons_append, List.append_assoc,
            outcome_value_object (skipBlank_isBlank_append hblanks (by decide) _),
            List.singleton_append, ih.member.items (by decide) h, Option.map_some,
            ← OrderedMap.eq_ofList hlast]

end Reader

/-- What the grammar says a text writes is what the text is read as. -/
theorem Json.parse_of_isWritten {v : Json} {text : String} (h : v.IsWritten text) :
    parse text = .ok v := by
  cases h with
  | @mk before s after hbefore h hafter =>
    have hends : Reader.EndsNumeral after := by
      have hnil : Reader.EndsNumeral [] := fun _ hc => nomatch hc
      simpa using hnil.isBlank_append hafter
    have hvalue := (Reader.completes_value maxDepth).takes hbefore h hends
    have hblank : Reader.skipBlank after = [] := by
      rw [← List.append_nil after, Reader.skipBlank_append (Reader.isBlank_of_mem hafter)]
      rfl
    rw [← toOption_eq_some, toOption_parse, String.toList_ofList, hvalue, Option.bind_some]
    exact if_pos hblank

end TargetSelector
