import TargetSelector.Nbt.Snbt
import TargetSelector.Proofs.Numeric.Text
import TargetSelector.Proofs.Text.Nesting

/-!
Stringified NBT nests: a reader that comes to the text of a tree outside of quotes leaves it with the
same brackets open, and meets separators only within the brackets of the tree.
-/
namespace TargetSelector

theorem isOrdinary_of_isNumberChar {c : Char} (h : isNumberChar c) : isOrdinary c := by
  cases hc : isOrdinary c with
  | true => rfl
  | false =>
    simp only [isOrdinary, Bool.not_eq_false', Bool.or_eq_true, decide_eq_true_eq] at hc
    rcases hc with (((rfl | rfl) | rfl) | rfl) | rfl <;> cases h

namespace Nbt

private theorem isOrdinary_of_isBareChar {c : Char} (h : isBareChar c) : isOrdinary c := by
  cases hc : isOrdinary c with
  | true => rfl
  | false =>
    simp only [isOrdinary, Bool.not_eq_false', Bool.or_eq_true, decide_eq_true_eq] at hc
    rcases hc with (((rfl | rfl) | rfl) | rfl) | rfl <;> cases h

section Passing

variable {separators opened : List Char} (hsep : separators ⊆ [',', ':', ';'])
include hsep

theorem passes_token {t : String} (ht : IsToken t) : Passes separators opened t.toList := by
  refine passes_of_ordinary (fun c hc => isOrdinary_of_isNumberChar (ht.2 c hc)) fun _ c hc hmem => ?_
  have hnumber : isNumberChar c := ht.2 c hc
  have hseparator := hsep hmem
  simp only [List.mem_cons, List.not_mem_nil, or_false] at hseparator
  rcases hseparator with rfl | rfl | rfl <;> cases hnumber

theorem passes_suffixed {t suffix : String} (ht : IsToken t) (hsuffix : suffix.toList.all isNumberChar) :
    Passes separators opened (t ++ suffix).toList :=
  passes_token hsep (ht.append (List.all_eq_true.1 hsuffix))

omit hsep

/-- Inside of quotes a reader goes on to the quote that is not escaped. -/
theorem read_escaped (cs : List Char) :
    (⟨opened, .inside⟩ : Position).read separators (cs.flatMap escapedChar ++ ['"']) =
      some (.within opened) := by
  induction cs with
  | nil => simp [Position.read, Position.step, Position.top, Position.within]
  | cons c cs ih =>
    rw [List.flatMap_cons, List.append_assoc, Position.read_append]
    have hchar : (⟨opened, .inside⟩ : Position).read separators (escapedChar c) =
        some ⟨opened, .inside⟩ := by
      unfold escapedChar
      split
      · simp [Position.read, Position.step, Position.top, Position.within]
      · next hc =>
        simp only [Bool.or_eq_true, decide_eq_true_eq, not_or] at hc
        simp [Position.read, Position.step, Position.top, Position.within, hc.1, hc.2]
    rw [hchar]
    exact ih

include hsep

theorem passes_quotedText (s : String) : Passes separators opened (quotedText s).toList := by
  have hquote : '"' ∉ separators := fun h => by simpa using hsep h
  have hopen : (Position.within opened).step '"' = some ⟨opened, .inside⟩ := rfl
  rw [toList_quotedText, Passes, Position.read, if_neg fun h => hquote h.2, hopen]
  exact read_escaped s.toList

/-- The bracket that the text of a list, a compound or a typed array begins with. -/
def bracket? : Nbt → Option Char
  | .list _ | .byteArray _ | .intArray _ | .longArray _ => some '['
  | .compound _ => some '\x7b'
  | .byte _ | .short _ | .int _ | .long _ | .float _ | .double _ | .string _ => none

def parts : Nbt → List Nbt
  | .list items => items
  | .compound fields => fields.map (·.2)
  | _ => []

omit hsep in
theorem bracket_eq {n : Nbt} {b : Char} (h : n.bracket? = some b) : b = '[' ∨ b = '\x7b' := by
  cases n with
  | list items | byteArray items | intArray items | longArray items =>
    exact Or.inl (Option.some.inj h).symm
  | compound fields => exact Or.inr (Option.some.inj h).symm
  | _ => cases h

theorem bracket_not_mem {n : Nbt} {b : Char} (h : n.bracket? = some b) : b ∉ separators := by
  intro hb
  have hseparator := hsep hb
  rcases bracket_eq h with rfl | rfl <;> simp at hseparator

section Contents

variable (hplace : opened ≠ [] ∨ separators = [])
include hplace

private theorem passes_nameText (name : String) :
    Passes separators opened (nameText name).toList := by
  unfold nameText
  split
  · next h =>
    have hbare : ∀ c ∈ name.toList, isBareChar c := List.all_eq_true.1 (Bool.and_eq_true_iff.1 h).2
    exact passes_of_ordinary (fun c hc => isOrdinary_of_isBareChar (hbare c hc))
      fun hnil c _ => not_mem_of_place hplace hnil c
  · exact passes_quotedText hsep name

private theorem passes_field {f : String × Nbt} (h : Passes separators opened f.2.text.toList) :
    Passes separators opened (nameText f.1 ++ ":" ++ f.2.text).toList := by
  have hcolon : Passes separators opened ":".toList :=
    passes_singleton rfl fun hnil => not_mem_of_place hplace hnil ':'
  rw [String.toList_append, String.toList_append]
  exact ((passes_nameText hsep hplace f.1).append hcolon).append h

private theorem passes_numbers {letter suffix : String} (hletter : letter.toList.all isNumberChar)
    (hsuffix : suffix.toList.all isNumberChar) (items : List Int) :
    Passes separators opened (letter.toList ++ ';' ::
      (",".intercalate (items.map fun i => i.repr ++ suffix)).toList) := by
  have hletter : Passes separators opened letter.toList :=
    passes_of_ordinary (fun c hc => isOrdinary_of_isNumberChar (List.all_eq_true.1 hletter c hc))
      fun hnil c _ => not_mem_of_place hplace hnil c
  have hsemicolon : Passes separators opened [';'] :=
    passes_singleton rfl fun hnil => not_mem_of_place hplace hnil ';'
  have hitems : Passes separators opened
      (",".intercalate (items.map fun i => i.repr ++ suffix)).toList := by
    apply passes_intercalate hplace
    rw [List.forall_mem_map]
    exact fun i _ => passes_suffixed hsep (isToken_repr i) hsuffix
  exact hletter.append (hsemicolon.append hitems)

theorem exists_array_contents {letter suffix : String} (hletter : letter.toList.all isNumberChar)
    (hsuffix : suffix.toList.all isNumberChar) (items : List Int) : ∃ contents,
      (arrayText letter suffix items).toList = '[' :: (contents ++ [Position.closing '[']) ∧
        Passes separators opened contents := by
  refine ⟨_, ?_, passes_numbers hsep hplace hletter hsuffix items⟩
  rw [toList_arrayText, List.append_assoc]
  rfl

theorem exists_contents {n : Nbt} {b : Char} (hb : n.bracket? = some b)
    (hparts : ∀ m ∈ n.parts, Passes separators opened m.text.toList) :
    ∃ contents, n.text.toList = b :: (contents ++ [Position.closing b]) ∧
      Passes separators opened contents := by
  cases n with
  | list items =>
    cases hb
    refine ⟨_, toList_text_list items, passes_intercalate hplace ?_⟩
    exact List.forall_mem_map.2 hparts
  | compound fields =>
    cases hb
    refine ⟨_, toList_text_compound fields, passes_intercalate hplace ?_⟩
    rw [List.forall_mem_map]
    exact fun f hf => passes_field hsep hplace (hparts _ (List.mem_map_of_mem hf))
  | byteArray items =>
    cases hb
    exact exists_array_contents hsep hplace rfl rfl _
  | intArray items =>
    cases hb
    exact exists_array_contents hsep hplace rfl rfl _
  | longArray items =>
    cases hb
    exact exists_array_contents hsep hplace rfl rfl _
  | _ => cases hb

end Contents

theorem passes_of_parts {n : Nbt} {b : Char} (hb : n.bracket? = some b)
    (hparts : ∀ m ∈ n.parts, Passes separators (b :: opened) m.text.toList) :
    Passes separators opened n.text.toList := by
  obtain ⟨contents, htext, hcontents⟩ :=
    exists_contents hsep (Or.inl (List.cons_ne_nil b opened)) hb hparts
  rw [htext]
  exact passes_bracketed (bracket_eq hb) (bracket_not_mem hsep hb) hcontents

theorem passes_text (n : Nbt) : Passes separators opened n.text.toList := by
  induction n generalizing opened with
  | byte v => exact passes_suffixed hsep (isToken_repr _) rfl
  | short v => exact passes_suffixed hsep (isToken_repr _) rfl
  | int v => exact passes_token hsep (isToken_repr _)
  | long v => exact passes_suffixed hsep (isToken_repr _) rfl
  | float v => exact passes_suffixed hsep v.isToken_text rfl
  | double v => exact passes_suffixed hsep v.isToken_text rfl
  | string s => exact passes_quotedText hsep s
  | list items ih => exact passes_of_parts hsep rfl fun n hn => ih n hn
  | compound fields ih => exact passes_of_parts hsep rfl (List.forall_mem_map.2 fun f hf => ih f hf)
  | byteArray items => exact passes_of_parts hsep rfl fun n hn => nomatch hn
  | intArray items => exact passes_of_parts hsep rfl fun n hn => nomatch hn
  | longArray items => exact passes_of_parts hsep rfl fun n hn => nomatch hn

end Passing

/-- A reader that goes over the text of a tree from the top meets no bracket that closes another than
the one opened last, and no separator at the top, and ends at the top. In the text of a list, a compound
or a typed array a bracket is open behind every character but the last one. The strings and names in the
tree may be any. -/
theorem text_self_delimiting (n : Nbt) :
    Position.top.read [',', ':', ';'] n.text.toList = some .top ∧
      (n.bracket?.isSome → ∀ front c rest, n.text.toList = front ++ c :: rest → front ≠ [] →
        ∃ p, Position.top.read [',', ':', ';'] front = some p ∧ p.opened ≠ []) := by
  refine ⟨passes_text (List.Subset.refl _) n, fun hbracket front c rest hsplit hfront => ?_⟩
  obtain ⟨b, hb⟩ := Option.isSome_iff_exists.1 hbracket
  have hnone : ([] : List Char) ⊆ [',', ':', ';'] := List.nil_subset _
  obtain ⟨contents, htext, hcontents⟩ :=
    exists_contents hnone (Or.inr rfl) hb fun m _ => passes_text hnone m
  rw [htext] at hsplit
  exact exists_opened_of_bracketed (bracket_eq hb) (bracket_not_mem (List.Subset.refl _) hb) hcontents
    hsplit hfront

/-- Behind the brace and a name with a bracket and an escaped quote in it, the brace is the bracket that
is open. -/
theorem text_self_delimiting_escaped :
    ∃ p, Position.top.read [',', ':', ';'] "\x7b\"a]\\\"\":".toList = some p ∧ p.opened ≠ [] :=
  (text_self_delimiting (.compound [("a]\"", .list [.string "\\"])])).2 rfl
    "\x7b\"a]\\\"\":".toList '[' "\"\\\\\"]\x7d".toList (by decide +kernel) (by decide +kernel)

end Nbt

end TargetSelector
