import TargetSelector.Proofs.Selector.Equality
import TargetSelector.Proofs.Selector.Floats

/-!
Numbers that are not finite. No recognised key writes one, except that NBT writes any tree as it is.
-/
namespace TargetSelector

def isDecimalChar (c : Char) : Bool := c.isDigit || c = '-' || c = '.'

theorem Decimal.isDecimalChar_of_mem_text (d : Decimal) : ∀ c ∈ d.text.toList, isDecimalChar c := by
  obtain ⟨whole, fraction, htext, -, hwhole, hfraction⟩ := d.exists_parts
  have hdigit : ∀ c : Char, c.isDigit → isDecimalChar c := fun c hc => by simp [isDecimalChar, hc]
  intro c hc
  rw [htext] at hc
  rcases List.mem_append.1 hc with hc | hc
  · exact hdigit c (hwhole c hc)
  · unfold fractionText at hc
    split at hc
    · cases hc
    · rcases List.mem_cons.1 hc with rfl | hc
      · rfl
      · exact hdigit c (hfraction c hc)

namespace Binary

variable {F : FloatFormat}

/-- The text of a finite value has none of the letters of NaN and of infinity. -/
theorem isDecimalChar_of_mem_text {x : Binary F} (h : x.isFinite) :
    ∀ c ∈ x.text.toList, isDecimalChar c := by
  cases x with
  | nan => cases h
  | infinite s => cases h
  | finite s k =>
    intro c hc
    rw [text, String.toList_append] at hc
    rcases List.mem_append.1 hc with hc | hc
    · cases s with
      | false => cases hc
      | true =>
        rw [List.mem_singleton.1 hc]
        rfl
    · exact (F.shortest .upward k).isDecimalChar_of_mem_text c hc

def isDecimal (x : Binary F) : Bool := x.isFinite && x.canonical.text.toList.all isDecimalChar

theorem isDecimal_of_isFinite {x : Binary F} (h : x.isFinite) : x.isDecimal := by
  have hcanonical : x.canonical.isFinite := by rwa [isFinite_canonical]
  exact Bool.and_eq_true_iff.2 ⟨h, List.all_eq_true.2 (isDecimalChar_of_mem_text hcanonical)⟩

end Binary

theorem Range.isDecimal_of_isFinite {r : Range} (h : r.isFinite) :
    ∀ x ∈ r.bounds, x.isDecimal := fun x hx => Binary.isDecimal_of_isFinite (isFinite_iff.1 h x hx)

private theorem KnownKey.shape_ne_anything (k : KnownKey) : k.shape ≠ .anything := by
  cases k <;> decide

theorem KnownKey.shape_eq_nbt_iff {k : KnownKey} : k.shape = .nbt ↔ k = .nbt := by
  cases k <;> decide

/-- A shape of a recognised key admits decimals only, NBT aside. -/
theorem Shape.everyFloat_of_admits {sh : Shape} (hsh : sh ≠ .anything) {v : ArgumentValue}
    (h : sh.admits v) : (sh = .nbt ∧ ∃ n, v = .nbt n) ∨ v.everyFloat fun _ => Binary.isDecimal := by
  cases v with
  | int i | text t | bool b | flags m | advancements m => exact Or.inr rfl
  | float x =>
    cases sh with
    | scalar => exact Or.inr (Binary.isDecimal_of_isFinite h)
    | anything => exact absurd rfl hsh
    | _ => cases h
  | range r =>
    cases sh with
    | scalar | range => exact Or.inr (List.all_eq_true.2 (Range.isDecimal_of_isFinite h))
    | anything => exact absurd rfl hsh
    | _ => cases h
  | scores m =>
    cases sh with
    | scores =>
      refine Or.inr ((ArgumentValue.everyFloat_scores _).2 fun e he => ?_)
      exact Range.isDecimal_of_isFinite (List.all_eq_true.1 h e he)
    | anything => exact absurd rfl hsh
    | _ => cases h
  | nbt n =>
    cases sh with
    | nbt => exact Or.inl ⟨rfl, n, rfl⟩
    | anything => exact absurd rfl hsh
    | _ => cases h

namespace Selector

/-- In the text of a selector with recognised keys every number is finite and a decimal, be it a value,
the bound of a range or the bound of the range of a score, except within an NBT value. That stands under
its own key, which takes any tree and writes it as it is. -/
theorem everyFloat_of_format {s : Selector}
    (hkeys : ∀ key ∈ OrderedMap.keys s.arguments, ∃ k, key = .known k) {text : String}
    (h : s.format = .ok text) :
    (∀ a ∈ s.arguments,
      (∃ n, a = (.known .nbt, .nbt n)) ∨ a.2.everyFloat fun _ => Binary.isDecimal) ∧
    ∀ n, (ArgumentKey.known .nbt).segments (.nbt n) = .ok ["nbt=" ++ n.text] := by
  refine ⟨?_, fun n => ArgumentKey.segments_eq_ok.2 ⟨rfl, rfl⟩⟩
  rintro ⟨key, v⟩ ha
  obtain ⟨k, rfl⟩ := hkeys key (OrderedMap.mem_keys.2 ⟨v, ha⟩)
  have hall := exists_format_iff.1 ⟨text, h⟩
  have hadmits : k.shape.admits v := List.all_eq_true.1 hall _ ha
  rcases Shape.everyFloat_of_admits k.shape_ne_anything hadmits with ⟨hk, n, rfl⟩ | hfinite
  · rw [KnownKey.shape_eq_nbt_iff.1 hk]
    exact Or.inl ⟨n, rfl⟩
  · exact Or.inr hfinite

/-- A coordinate, a score and data with infinity in it. -/
theorem everyFloat_of_format_mixed :
    let data := Nbt.list [.float (.infinite true)]
    let s : Selector := ⟨.entities, [(.known .x, .float (.ofInt (-3))),
      (.known .scores, .scores [("kills", .atMost (.ofNat 2))]), (.known .nbt, .nbt data)]⟩
    s.format = .ok "@e[x=-3,scores=\x7bkills=..2\x7d,nbt=[-inff]]" ∧
      ∀ a ∈ s.arguments, a.1 ≠ .known .nbt → a.2.everyFloat fun _ => Binary.isDecimal := by
  intro data s
  have hkeys : ∀ key ∈ OrderedMap.keys s.arguments, ∃ k, key = .known k := by
    simp [s]
  have hformat : s.format = .ok "@e[x=-3,scores=\x7bkills=..2\x7d,nbt=[-inff]]" := by
    decide +kernel
  refine ⟨hformat, fun a ha hne => ?_⟩
  rcases (everyFloat_of_format hkeys hformat).1 a ha with ⟨n, rfl⟩ | hfinite
  · exact absurd rfl hne
  · exact hfinite

/-- A recognised key writes NaN that stands in NBT. -/
theorem exists_format_nan : ∃ s : Selector,
    (∀ key ∈ OrderedMap.keys s.arguments, ∃ k, key = .known k) ∧
    s.format = .ok "@e[nbt=\x7ba:NaNd\x7d]" ∧ ¬ s.everyFloat fun _ => Binary.isFinite := by
  refine ⟨⟨.entities, [(.known .nbt, .nbt (.compound [("a", .double .nan)]))]⟩, ?_, ?_, ?_⟩
  · simp
  · decide +kernel
  · decide

end Selector

end TargetSelector
