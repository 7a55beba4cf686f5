import TargetSelector.Proofs.Json.Grammar
import TargetSelector.Proofs.Selector.Loading

/-! Documents of one argument, read from their text. -/
namespace TargetSelector

def documentText (tag name value : String) : String :=
  "\x7b\"target\":\"" ++ tag ++ "\",\"arguments\":\x7b\"" ++ name ++ "\":" ++ value ++ "\x7d\x7d"

private theorem toList_documentText (tag name value : String) : (documentText tag name value).toList =
    '\x7b' :: '"' :: ("target".toList ++ '"' :: ':' :: '"' :: (tag.toList ++ '"' :: ',' :: '"' ::
      ("arguments".toList ++ '"' :: ':' :: '\x7b' :: '"' :: (name.toList ++ '"' :: ':' ::
        (value.toList ++ ['\x7d', '\x7d']))))) := by
  delta documentText
  simp only [String.toList_append, List.append_assoc]
  rfl

namespace Reader

theorem outcome_value_singleton {name : String} (hname : ∀ c ∈ name.toList, isPlainChar c)
    (room : Nat) {r r' : List Char} {value? : Option Json}
    (h : outcome (value room r) = value?.map fun v => (v, '\x7d' :: r')) :
    outcome (value (room + 1) ('\x7b' :: '"' :: (name.toList ++ '"' :: ':' :: r))) =
      value?.map fun v => (.object [(name, v)], r') := by
  rw [outcome_value_object (skipBlank_cons (by decide) _),
    outcome_items (skipBlank_cons (by decide) _) (by decide), outcome_separated,
    outcome_member (skipBlank_cons (by decide) _) (outcome_string_of_isPlainChar hname _)
      (skipBlank_cons (by decide) _), h]
  cases value? with
  | none => rfl
  | some v => rfl

end Reader

theorem endsNumeral_braces : Reader.EndsNumeral ['\x7d', '\x7d'] := by
  intro c hc
  cases hc
  decide

/-- The text of such a document is read as the target and the argument, if the value is read. -/
theorem toOption_parse_documentText {tag name text : String}
    (htag : ∀ c ∈ tag.toList, Reader.isPlainChar c) (hname : ∀ c ∈ name.toList, Reader.isPlainChar c)
    {value? : Option Json}
    (h : Reader.outcome (Reader.value 125 (text.toList ++ ['\x7d', '\x7d'])) =
      value?.map fun v => (v, ['\x7d', '\x7d'])) :
    (Json.parse (documentText tag name text)).toOption =
      value?.map fun v => .object [("target", .string tag), ("arguments", .object [(name, v)])] := by
  have hmaxDepth : Json.maxDepth = 125 + 1 + 1 := rfl
  have htarget : "target".toList.all Reader.isPlainChar := by decide
  have harguments : "arguments".toList.all Reader.isPlainChar := by decide
  have hinner := Reader.outcome_value_singleton hname 125 h
  have hskip : ∀ {c : Char} (r : List Char), ¬ Reader.isBlank c → Reader.skipBlank (c :: r) = c :: r :=
    fun r hc => Reader.skipBlank_cons hc r
  rw [Json.toOption_parse, toList_documentText, hmaxDepth,
    Reader.outcome_value_object (hskip _ (by decide)),
    Reader.outcome_items (hskip _ (by decide)) (by decide), Reader.outcome_separated,
    Reader.outcome_member (hskip _ (by decide))
      (Reader.outcome_string_of_isPlainChar (List.all_eq_true.1 htarget) _) (hskip _ (by decide)),
    Reader.outcome_value_string (hskip _ (by decide)) (Reader.outcome_string_of_isPlainChar htag _)]
  have hcomma : ∀ r, Reader.skipBlank (',' :: r) = ',' :: r := Reader.skipBlank_cons (by decide)
  simp only [Option.map_some, Option.bind_some, hcomma]
  rw [if_neg (by decide), if_pos trivial, Reader.outcome_separated,
    Reader.outcome_member (hskip _ (by decide))
      (Reader.outcome_string_of_isPlainChar (List.all_eq_true.1 harguments) _) (hskip _ (by decide)),
    hinner]
  cases value? with
  | none => rfl
  | some v => rfl

theorem Target.isPlainChar_of_mem_text (t : Target) : ∀ c ∈ t.text.toList, Reader.isPlainChar c := by
  have hall : t.text.toList.all Reader.isPlainChar := by cases t <;> decide
  exact List.all_eq_true.1 hall

theorem KnownKey.isPlainChar_of_mem_text (key : KnownKey) : ∀ c ∈ key.text.toList, Reader.isPlainChar c := by
  have hall : key.text.toList.all Reader.isPlainChar := by cases key <;> decide
  exact List.all_eq_true.1 hall

namespace Selector

private theorem toOption_load (text : String) :
    (load text).toOption = (Json.parse text).toOption.bind fun v => (ofJson v).toOption := by
  rw [load]
  cases Json.parse text <;> rfl

/-- Such a document loads if its value is read and if the key takes it. -/
theorem toOption_load_documentText (t : Target) {name text : String}
    (hname : ∀ c ∈ name.toList, Reader.isPlainChar c) {value? : Option Json}
    (h : Reader.outcome (Reader.value 125 (text.toList ++ ['\x7d', '\x7d'])) =
      value?.map fun v => (v, ['\x7d', '\x7d'])) :
    (load (documentText t.text name text)).toOption =
      value?.bind fun v => (ArgumentValue.ofJson (.ofName name) v).toOption.map fun a =>
        ⟨t, [(.ofName name, a)]⟩ := by
  rw [toOption_load, toOption_parse_documentText t.isPlainChar_of_mem_text hname h, Option.bind_map]
  congr 1
  funext v
  have hdoc : ofJson (.object [("target", .string t.text), ("arguments", .object [(name, v)])]) =
      ofDocument ⟨t.text, [(name, v)]⟩ := rfl
  rw [Function.comp_apply, hdoc, ofDocument_of_isWritten (Or.inl rfl), Document.readArguments,
    List.foldlM_cons, Document.withMember]
  cases ArgumentValue.ofJson (.ofName name) v with
  | error e => rfl
  | ok a => rfl

/-- A document does not load if its value is not read. -/
theorem load_documentText_ne_ok (t : Target) (key : KnownKey) {literal : String}
    (h : Reader.outcome (Reader.value 125 (literal.toList ++ ['\x7d', '\x7d'])) = none) (s : Selector) :
    load (documentText t.text key.text literal) ≠ .ok s := by
  intro hs
  have hvalue : Reader.outcome (Reader.value 125 (literal.toList ++ ['\x7d', '\x7d'])) =
      (none : Option Json).map fun v => (v, ['\x7d', '\x7d']) := h
  have hload := toOption_load_documentText t key.isPlainChar_of_mem_text hvalue
  rw [hs] at hload
  cases hload

end Selector

end TargetSelector
