import TargetSelector.Proofs.Nbt.Nesting
import TargetSelector.Proofs.Selector.Modes

/-!
The segments of a selector can be split back from its text: the only commas outside of brackets and
quotes are those between segments.
-/
namespace TargetSelector

def isStructural (c : Char) : Bool :=
  c = ',' || c = '[' || c = ']' || c = '\x7b' || c = '\x7d' || c = '"'

def isPlain (t : String) : Bool := t.toList.all fun c => !isStructural c

def Advancement.hasPlainNames : Advancement → Bool
  | .done _ => true
  | .criteria cs => cs.all fun e => isPlain e.1

/-- The texts and names outside of NBT are plain. -/
def ArgumentValue.hasPlainNames : ArgumentValue → Bool
  | .text t => isPlain t
  | .flags m => m.all fun e => isPlain e.1
  | .scores m => m.all fun e => isPlain e.1
  | .advancements m => m.all fun e => isPlain e.1 && e.2.hasPlainNames
  | .int _ | .float _ | .bool _ | .range _ | .nbt _ => true

def Selector.hasPlainNames (s : Selector) : Bool :=
  s.arguments.all fun a => isPlain a.1.name && a.2.hasPlainNames

section Passing

variable {opened : List Char}

theorem passes_plain {t : String} (h : isPlain t) : Passes [','] opened t.toList := by
  have hchar : ∀ c ∈ t.toList, isOrdinary c ∧ c ≠ ',' := by
    intro c hc
    have hplain : !isStructural c := List.all_eq_true.1 h c hc
    simp only [isStructural, Bool.not_eq_true', Bool.or_eq_false_iff, decide_eq_false_iff_not] at hplain
    simp [isOrdinary, hplain]
  refine passes_of_ordinary (fun c hc => (hchar c hc).1) fun _ c hc hmem => ?_
  exact (hchar c hc).2 (List.mem_singleton.1 hmem)

theorem passes_number {t : String} (h : IsToken t) : Passes [','] opened t.toList :=
  Nbt.passes_token (by simp) h

theorem passes_boolText (b : Bool) : Passes [','] opened (boolText b).toList := by
  cases b <;> exact passes_plain rfl

theorem passes_braced {α : Type} {text : α → String} {m : OrderedMap String α}
    (hname : ∀ e ∈ m, isPlain e.1)
    (htext : ∀ e ∈ m, Passes [','] ('\x7b' :: opened) (text e.2).toList) :
    Passes [','] opened (braced text m).toList := by
  have hentries : Passes [','] ('\x7b' :: opened)
      (",".intercalate (m.map fun e => e.1 ++ "=" ++ text e.2)).toList := by
    apply passes_intercalate (Or.inl (List.cons_ne_nil _ _))
    rw [List.forall_mem_map]
    intro e he
    have hequals : Passes [','] ('\x7b' :: opened) "=".toList := passes_plain rfl
    rw [String.toList_append, String.toList_append]
    exact ((passes_plain (hname e he)).append hequals).append (htext e he)
  rw [braced, String.toList_append, String.toList_append, List.append_assoc]
  exact passes_bracketed (Or.inr rfl) (by decide) hentries

theorem passes_range (r : Range) : Passes [','] opened r.text.toList := by
  have hnumber : ∀ x : Binary64, Passes [','] opened x.text.toList := fun x =>
    passes_number x.isToken_text
  have hpoints : Passes [','] opened "..".toList := passes_plain rfl
  cases r with
  | exact v => exact hnumber _
  | between lo hi =>
    rw [Range.text, String.toList_append, String.toList_append]
    exact ((hnumber _).append hpoints).append (hnumber _)
  | atLeast lo =>
    rw [Range.text, String.toList_append]
    exact (hnumber _).append hpoints
  | atMost hi =>
    rw [Range.text, String.toList_append]
    exact hpoints.append (hnumber _)

private theorem passes_advancement {a : Advancement} (h : a.hasPlainNames) :
    Passes [','] opened a.text.toList := by
  cases a with
  | done b => exact passes_boolText b
  | criteria cs => exact passes_braced (List.all_eq_true.1 h) fun e _ => passes_boolText e.2

private theorem passes_display {v : ArgumentValue} (h : v.hasPlainNames) :
    Passes [','] opened v.display.toList := by
  cases v with
  | int v => exact passes_number (isToken_repr _)
  | float v => exact passes_number v.canonical.isToken_text
  | text t => exact passes_plain h
  | bool b => exact passes_boolText b
  | range r => exact passes_range r
  | flags m => exact passes_braced (List.all_eq_true.1 h) fun e _ => passes_boolText e.2
  | scores m => exact passes_braced (List.all_eq_true.1 h) fun e _ => passes_range e.2
  | advancements m =>
    have hentry : ∀ e ∈ m, isPlain e.1 ∧ e.2.hasPlainNames := fun e he =>
      Bool.and_eq_true_iff.1 (List.all_eq_true.1 h e he)
    exact passes_braced (fun e he => (hentry e he).1) fun e he => passes_advancement (hentry e he).2
  | nbt n => exact Nbt.passes_text (by simp) n

private theorem passes_texts {v : ArgumentValue} (h : v.hasPlainNames) {sh : Shape} {t : String}
    (ht : t ∈ v.texts sh) : Passes [','] opened t.toList := by
  unfold ArgumentValue.texts at ht
  split at ht
  · next m =>
    obtain ⟨e, he, rfl⟩ := List.mem_map.1 ht
    have hname : isPlain e.1 := List.all_eq_true.1 h e he
    have hmark : Passes [','] opened (if e.2 then "" else "!").toList := by
      cases e.2 <;> exact passes_plain rfl
    rw [String.toList_append]
    exact hmark.append (passes_plain hname)
  · cases ht
  · cases ht
  · rw [List.mem_singleton.1 ht]
    exact passes_display h

end Passing

namespace Selector

private theorem passes_segment {s : Selector} (h : s.hasPlainNames) {t : String}
    (ht : t ∈ s.arguments.leading) : Passes [','] [] t.toList := by
  obtain ⟨a, ha, text, htext, rfl⟩ := Arguments.exists_assign_of_mem_leading ht
  obtain ⟨hkey, hvalue⟩ := Bool.and_eq_true_iff.1 (List.all_eq_true.1 h a ha)
  have hequals : Passes [','] [] "=".toList := passes_plain rfl
  rw [ArgumentKey.assign, String.toList_append, String.toList_append]
  exact ((passes_plain hkey).append hequals).append (passes_texts hvalue htext)

/-- Cut at the commas outside of brackets and quotes, the text between the brackets of a selector gives
its segments back. Only names and texts that are written as they are have to be plain, not those in
NBT. -/
theorem splitNested_format {s : Selector} (hne : s.arguments ≠ []) (hplain : s.hasPlainNames)
    {out : String} (h : s.format = .ok out) :
    ∃ list segments, out = "@" ++ s.target.text ++ "[" ++ list ++ "]" ∧ s.segments = .ok segments ∧
      splitNested list = some segments ∧ (list = "" ↔ segments = []) := by
  have hsplit := splitNested_intercalate (fun _ => passes_segment hplain)
    (fun _ => Arguments.ne_empty_of_mem_leading)
  have hempty : ",".intercalate s.arguments.leading = "" ↔ s.arguments.leading = [] :=
    intercalate_eq_empty_iff fun _ => Arguments.ne_empty_of_mem_leading
  rw [format_eq, Arguments.unlessMalformed] at h
  rw [segments_eq, Arguments.unlessMalformed]
  cases herror : s.arguments.firstError? with
  | some e =>
    rw [herror] at h
    cases h
  | none =>
    rw [herror] at h
    cases h
    refine ⟨_, _, ?_, rfl, hsplit, hempty⟩
    rw [text, if_neg (mt List.isEmpty_iff.1 hne)]
    rfl

/-- Structure characters in NBT, nested criteria, and an argument without segments. -/
theorem splitNested_format_nested :
    let s : Selector := ⟨.allPlayers, [
      (.known .nbt, .nbt (.compound [("a]b", .string "\x7d,\\\""), ("l", .list [.int 1, .string "\x7b"])])),
      (.known .scores, .scores []),
      (.known .tag, .flags [("vip", true), ("new", false)]),
      (.known .advancements, .advancements [("story", .criteria [("a", true), ("b", false)])])]⟩
    s.arguments ≠ [] ∧ s.hasPlainNames ∧
      ∃ out list segments, s.format = .ok out ∧ out = "@" ++ s.target.text ++ "[" ++ list ++ "]" ∧
        s.segments = .ok segments ∧ splitNested list = some segments ∧
        (list = "" ↔ segments = []) := by
  intro s
  have hne : s.arguments ≠ [] := List.cons_ne_nil _ _
  have hplain : s.hasPlainNames := by decide +kernel
  have herror : s.arguments.firstError? = none := by decide +kernel
  have hformat : s.format = .ok s.text := format_of_firstError? herror
  obtain ⟨list, segments, h⟩ := splitNested_format hne hplain hformat
  exact ⟨hne, hplain, s.text, list, segments, hformat, h⟩

end Selector

end TargetSelector
