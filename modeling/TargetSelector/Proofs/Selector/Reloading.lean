import TargetSelector.Proofs.Argument.Printed
import TargetSelector.Proofs.Selector.Integers

/-!
Printed numbers in documents. The text of a number is a JSON numeral, but the reader of JSON need not
give the same number back, since it rounds twice.
-/
namespace TargetSelector

namespace Selector

/-- The document in which the text of a number stands for the number loads, and as a selector that has the
text of the number. -/
def Reloads (t : Target) (key : KnownKey) (x : Binary64) : Prop :=
  ∃ s, load (documentText t.text key.text (ArgumentValue.float x).display) = .ok s ∧
    s.format = format ⟨t, [(.known key, .float x)]⟩

section Scalar

variable (t : Target) {key : KnownKey} (hkey : key ∈ Shape.scalar.keys)
include hkey

theorem segments_float {x : Binary64} (hx : x.isFinite) :
    (ArgumentKey.known key).segments (.float x) =
      .ok [(ArgumentKey.known key).assign x.canonical.text] := by
  have hshape : (ArgumentKey.known key).shape = .scalar := Shape.mem_keys_iff.1 hkey
  rw [ArgumentKey.segments_eq_ok, hshape]
  exact ⟨hx, rfl⟩

theorem format_float {x : Binary64} (hx : x.isFinite) :
    format ⟨t, [(.known key, .float x)]⟩ =
      .ok ("@" ++ t.text ++ "[" ++ (ArgumentKey.known key).assign x.canonical.text ++ "]") :=
  format_singleton t (segments_float hkey hx)

theorem exists_segments_number (n : JsonNumber) :
    ∃ a, ArgumentValue.ofJson (.known key) (.number n) = .ok a ∧
      (ArgumentKey.known key).segments a = .ok [(ArgumentKey.known key).assign n.scalarText] := by
  obtain ⟨a, ss, ha, hss, hprints⟩ := ArgumentValue.exists_printsNumbers (.number hkey n)
  have hshape : (ArgumentKey.known key).shape = .scalar := Shape.mem_keys_iff.1 hkey
  rw [hprints.eq_of_number hshape] at hss
  exact ⟨a, ha, hss⟩

/-- The text of a number in any document gives the key the segments of the number again, exactly if the
reader gives the same number back. -/
theorem exists_segments_iff_read_back {x : Binary64} (hx : x.isFinite) {n : JsonNumber} (h : ReadsBack x n)
    {text : String} {v : Json} {d : Document} {s : Selector} (hparse : Json.parse text = .ok v)
    (hdoc : Document.ofJson v = .ok d) (hload : load text = .ok s)
    (hm : (key.text, Json.number n) ∈ d.arguments) :
    ∃ a, (.known key, a) ∈ s.arguments ∧ ((ArgumentKey.known key).segments a =
      (ArgumentKey.known key).segments (.float x) ↔ n.toBinary.ieeeEq x) := by
  have hofName : ArgumentKey.ofName key.text = .known key := ArgumentKey.ofName_name (.known key)
  obtain ⟨a, ha, hvalue⟩ := exists_argument_of_load hparse hdoc hload hm
  rw [hofName] at ha hvalue
  obtain ⟨b, hb, hsegments⟩ := exists_segments_number hkey n
  obtain rfl := Except.ok.inj (hvalue.symm.trans hb)
  refine ⟨a, ha, ?_⟩
  rw [hsegments, segments_float hkey hx, ← h.scalarText_eq_iff hx]
  simp [ArgumentKey.assign]

/-- A document with a number in it has the text that the number gets by itself. -/
theorem exists_load_iff {literal out : String} {n? : Option JsonNumber}
    (h : Reader.outcome (Reader.value 125 (literal.toList ++ ['\x7d', '\x7d'])) =
      n?.map fun n => (.number n, ['\x7d', '\x7d'])) :
    (∃ s, load (documentText t.text key.text literal) = .ok s ∧
      s.format = .ok ("@" ++ t.text ++ "[" ++ (ArgumentKey.known key).assign out ++ "]")) ↔
      ∃ n, n? = some n ∧ n.scalarText = out := by
  have hofName : ArgumentKey.ofName key.text = .known key := ArgumentKey.ofName_name (.known key)
  have hvalue : Reader.outcome (Reader.value 125 (literal.toList ++ ['\x7d', '\x7d'])) =
      (n?.map Json.number).map fun v => (v, ['\x7d', '\x7d']) := by
    rw [h, Option.map_map]
    rfl
  have hload := toOption_load_documentText t key.isPlainChar_of_mem_text hvalue
  simp only [← toOption_eq_some, hload, hofName]
  cases n? with
  | none => simp
  | some n =>
    obtain ⟨a, ha, hsegments⟩ := exists_segments_number hkey n
    simp [ha, format_singleton t hsegments, Except.toOption, ArgumentKey.assign]

/-- A finite number reloads exactly if the reader of numbers takes its text for the same number. -/
theorem reloads_iff {x : Binary64} (hx : x.isFinite) :
    Reloads t key x ↔ ∃ n, ReadsBack x n ∧ n.toBinary.ieeeEq x := by
  obtain ⟨negative, w, fraction, k, hprinted⟩ := exists_isPrinted hx
  rw [Reloads, format_float t hkey hx, ArgumentValue.display,
    exists_load_iff t hkey (hprinted.outcome_value endsNumeral_braces 125)]
  refine exists_congr fun n => ?_
  rw [hprinted.readsBack_iff]
  exact and_congr_right hprinted.scalarText_eq_iff

/-- A number reloads if the numeral that its text consists of is read as the number. -/
theorem reloads_of_isPrinted {x : Binary64} {negative : Bool} {w : Nat} {fraction : List Char}
    {k : Fin FloatFormat.binary64.limit} (h : IsPrinted x.canonical negative w fraction k)
    (hread : ∃ n, JsonNumber.ofNumeral? (Reader.numeral negative (Nat.toDigits 10 w) fraction) = some n ∧
      n.toBinary = .finite negative k) : Reloads t key x := by
  obtain ⟨n, hn, hvalue⟩ := hread
  have hfinite : x.canonical.isFinite := by
    rw [h.value]
    rfl
  rw [Binary.isFinite_canonical] at hfinite
  refine (reloads_iff t hkey hfinite).2 ⟨n, h.readsBack_iff.2 hn, ?_⟩
  rw [← Binary.ieeeEq_canonical, hvalue, ← h.value]
  refine (Binary.ieeeEq_self_iff _).2 fun hnan => ?_
  rw [h.value] at hnan
  cases hnan

/-- Whole numbers reload up to the greatest value under the limit of 64 bits. -/
theorem reloads_of_whole {x : Binary64} {n : Int} (hn : n.natAbs ≤ 0xFFFFFFFFFFFFF800)
    (hx : x.ieeeEq (.ofInt n)) : Reloads t key x := by
  have hcanonical : x.canonical = .ofInt n := by
    rw [(Binary.ieeeEq_iff_canonical.1 hx).2, Binary.canonical_ofInt]
  have hlimit : FloatFormat.binary64.nearestToNat n.natAbs < FloatFormat.binary64.limit :=
    FloatFormat.binary64.nearestToNat_lt_limit (m := 64) (by decide)
      (Nat.lt_of_le_of_lt hn (by decide)) (by decide)
  obtain ⟨w, htext, hw⟩ :=
    FloatFormat.binary64.exists_text_shortest_nearestToNat .upward n.natAbs
  have hwlt : w < 0x10000000000000000 := by
    by_contra hge
    have hlast : FloatFormat.binary64.nearestToNat 0xFFFFFFFFFFFFF800 <
        FloatFormat.binary64.nearestToNat 0x10000000000000000 := by decide +kernel
    have hup := FloatFormat.binary64.nearestToNat_mono (Nat.le_of_not_lt hge)
    have hdown := FloatFormat.binary64.nearestToNat_mono hn
    omega
  have hdigits : Nat.ofDigitChars 10 (Nat.toDigits 10 w) 0 = w := Nat.ofDigitChars_ten_toDigits
  have hprinted : IsPrinted x.canonical (decide (n < 0)) w [] ⟨_, hlimit⟩ := by
    have hvalue : x.canonical = .finite (decide (n < 0)) ⟨_, hlimit⟩ := by
      rw [hcanonical, Binary.ofInt_eq, Binary.ofIndex_of_lt _ hlimit]
    refine ⟨hvalue, ?_, List.forall_mem_nil _, hw⟩
    rw [hvalue, toList_text_finite, htext, Nat.toList_repr]
    simp [Reader.numeralChars, Decimal.fractionText]
  refine reloads_of_isPrinted t hkey hprinted (JsonNumber.exists_ofNumeral?_of_whole ?_ ?_)
  · rwa [hdigits]
  · rw [hdigits]
    exact hw

theorem reloads_of_short {x : Binary64} (hx : x.isFinite)
    (hdigits : digitsOf x.canonical.text ≤ 0x20000000000000) (hplaces : placesOf x.canonical.text ≤ 22) :
    Reloads t key x := by
  obtain ⟨negative, w, fraction, k, hprinted⟩ := exists_isPrinted hx
  have hvalue : Nat.ofDigitChars 10 fraction (Nat.ofDigitChars 10 (Nat.toDigits 10 w) 0) ≤
      0x20000000000000 := by
    rwa [Nat.ofDigitChars_ten_toDigits, ← hprinted.digitsOf_eq]
  apply reloads_of_isPrinted t hkey hprinted
  by_cases hnil : fraction = []
  · subst hnil
    refine JsonNumber.exists_ofNumeral?_of_whole (Nat.lt_of_le_of_lt hvalue (by decide)) ?_
    rw [Nat.ofDigitChars_ten_toDigits, hprinted.nearestToNat_eq rfl]
  · refine ⟨_, JsonNumber.ofNumeral?_of_fraction hnil hvalue ?_ ?_, rfl⟩
    · rwa [← hprinted.placesOf_eq]
    · rw [Nat.ofDigitChars_ten_toDigits, hprinted.nearest]

end Scalar

/-- Under a scalar key a finite number is written as its text. The text reloads exactly if the reader of
numbers gives the same number back for it, which it does for whole numbers under the limit of 64 bits and
for texts of few digits. The same decides for the segments of the key when the text stands in another
document, where it is read alike. -/
theorem reloads_iff_read_back (t : Target) {key : KnownKey} (hkey : key ∈ Shape.scalar.keys)
    {x : Binary64} (hx : x.isFinite) :
    format ⟨t, [(.known key, .float x)]⟩ =
      .ok ("@" ++ t.text ++ "[" ++ key.text ++ "=" ++ (ArgumentValue.float x).display ++ "]") ∧
    (Reloads t key x ↔ ∃ n, ReadsBack x n ∧ n.toBinary.ieeeEq x) ∧
    (∀ n : Int, n.natAbs ≤ 0xFFFFFFFFFFFFF800 → x.ieeeEq (.ofInt n) → Reloads t key x) ∧
    (digitsOf x.canonical.text ≤ 0x20000000000000 → placesOf x.canonical.text ≤ 22 →
      Reloads t key x) ∧
    ∀ n, ReadsBack x n →
      (∀ (room : Nat) (r : List Char), Reader.EndsNumeral r →
        Reader.outcome (Reader.value room (x.canonical.text.toList ++ r)) = some (.number n, r)) ∧
      ∀ (text : String) (v : Json) (d : Document) (s : Selector), Json.parse text = .ok v →
        Document.ofJson v = .ok d → load text = .ok s → (key.text, .number n) ∈ d.arguments →
          ∃ a, (.known key, a) ∈ s.arguments ∧ ((ArgumentKey.known key).segments a =
            (ArgumentKey.known key).segments (.float x) ↔ n.toBinary.ieeeEq x) := by
  refine ⟨?_, reloads_iff t hkey hx, ?_, ?_, ?_⟩
  · rw [format_float t hkey hx, ArgumentValue.display, ArgumentKey.assign, ArgumentKey.name]
    simp only [String.append_assoc]
  · intro n hn hwhole
    exact reloads_of_whole t hkey hn hwhole
  · intro hdigits hplaces
    exact reloads_of_short t hkey hx hdigits hplaces
  · intro n hback
    refine ⟨fun room r hr => hback.outcome_value hx hr room, ?_⟩
    intro text v d s hparse hdoc hload hm
    exact exists_segments_iff_read_back hkey hx hback hparse hdoc hload hm

/-- A decimal fraction. -/
theorem reloads_iff_read_back_fraction :
    let x : Binary64 := .ofDecimal true 15 (-1)
    x.isFinite ∧ Reloads .entities .x x := by
  intro x
  have hx : x.isFinite := by decide +kernel
  have hkey : KnownKey.x ∈ Shape.scalar.keys := by decide
  obtain ⟨-, -, -, hshort, -⟩ := reloads_iff_read_back .entities hkey hx
  exact ⟨hx, hshort (by decide +kernel) (by decide +kernel)⟩

/-- A fraction of sixteen digits that comes back as its neighbour, and the greatest value, of which the
text is out of range to the reader. -/
theorem exists_not_reloads :
    (∃ (x : Binary64) (s : Selector), x.isFinite ∧
      load (documentText "e" "x" (ArgumentValue.float x).display) = .ok s ∧
      format ⟨.entities, [(.known .x, .float x)]⟩ = .ok "@e[x=9.573334420910843]" ∧
      s.format = .ok "@e[x=9.573334420910845]") ∧
    ∃ x : Binary64, x.isFinite ∧
      ∀ s, load (documentText "e" "x" (ArgumentValue.float x).display) ≠ .ok s := by
  constructor
  · let x : Binary64 := .ofDecimal false 9573334420910843 (-15)
    have hx : x.isFinite := by decide +kernel
    have htext : x.canonical.text = "9.573334420910843" := by decide +kernel
    have hload : ((load (documentText "e" "x" (ArgumentValue.float x).display)).toOption.map
        fun s => s.format.toOption) = some (some "@e[x=9.573334420910845]") := by decide +kernel
    obtain ⟨s, hs, hformat⟩ := Option.map_eq_some_iff.1 hload
    refine ⟨x, s, hx, toOption_eq_some.1 hs, ?_, toOption_eq_some.1 hformat⟩
    rw [format_float .entities (by decide) hx, htext]
    rfl
  · let k : Fin FloatFormat.binary64.limit := ⟨FloatFormat.binary64.limit - 1, by decide⟩
    let d : Decimal := ⟨17976931348623157, 292⟩
    let w := d.coefficient * Nat.pow 10 d.exponent.toNat
    have hshortest : FloatFormat.binary64.shortest .upward k = d := by decide +kernel
    have hread : JsonNumber.ofNumeral? (Reader.numeral false (Nat.toDigits 10 w) []) = none := by
      decide +kernel
    have hdecimal : d.text.toList = Nat.toDigits 10 w := by
      rw [Decimal.text, if_pos (by decide), Nat.toList_repr]
    have htext : (Binary.finite false k : Binary64).text.toList =
        Reader.numeralChars false (Nat.toDigits 10 w) [] := by
      rw [toList_text_finite, hshortest, hdecimal, Reader.numeralChars, Decimal.fractionText, if_pos rfl,
        List.append_nil]
    have hfraction : ∀ c ∈ ([] : List Char), c.isDigit := List.forall_mem_nil _
    have hvalue : Reader.outcome (Reader.value 125
        ((ArgumentValue.float (.finite false k)).display.toList ++ ['\x7d', '\x7d'])) = none := by
      show Reader.outcome (Reader.value 125
        ((Binary.finite false k : Binary64).text.toList ++ ['\x7d', '\x7d'])) = none
      have hnumeral := Reader.outcome_value_numeral false (Reader.isWhole_toDigits w) hfraction
        .absent endsNumeral_braces (List.forall_mem_nil _) 125
      rw [htext]
      exact hnumeral.trans (congrArg (Option.map _) hread)
    exact ⟨.finite false k, rfl, load_documentText_ne_ok .entities .x hvalue⟩

end Selector

end TargetSelector
