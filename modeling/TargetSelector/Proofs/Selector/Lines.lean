import TargetSelector.Proofs.Argument.Admission
import TargetSelector.Proofs.CommandLine
import TargetSelector.Proofs.Text.Lines

/-!
The line breaks in the text of a selector. Names, texts and the strings of tagged data are copied with
the breaks in them; nothing else in the text has a break.
-/
namespace TargetSelector

/-- The names of a map, each with the strings of its value. -/
def OrderedMap.strings {α : Type} (strings : α → List String) (m : OrderedMap String α) :
    List String :=
  m.flatMap fun e => e.1 :: strings e.2

namespace Nbt

mutual

/-- The strings of a tree: those at its leaves and the names of its fields. -/
def strings : Nbt → List String
  | .string s => [s]
  | .list items => itemStrings items
  | .compound fields => fieldStrings fields
  | _ => []
termination_by structural n => n

def itemStrings : List Nbt → List String
  | [] => []
  | n :: items => n.strings ++ itemStrings items
termination_by structural items => items

def fieldStrings : List (String × Nbt) → List String
  | [] => []
  | (name, value) :: fields => name :: (value.strings ++ fieldStrings fields)
termination_by structural fields => fields

end

theorem itemStrings_eq_flatMap (items : List Nbt) : itemStrings items = items.flatMap strings := by
  induction items with
  | nil => rfl
  | cons n items ih => rw [itemStrings, ih, List.flatMap_cons]

theorem fieldStrings_eq_strings (fields : List (String × Nbt)) :
    fieldStrings fields = OrderedMap.strings strings fields := by
  induction fields with
  | nil => rfl
  | cons f fields ih => rw [fieldStrings, ih]; rfl

theorem lineBreaks_quotedText (s : String) : lineBreaks (quotedText s) = lineBreaks s := by
  have hescaped : ∀ c, (escapedChar c).count '\n' = [c].count '\n' := by
    intro c
    unfold escapedChar
    split
    · rw [List.count_cons_of_ne (by decide)]
    · rfl
  rw [quotedText, lineBreaks_enclosed rfl rfl, lineBreaks_ofList_flatMap hescaped]

theorem lineBreaks_nameText (name : String) : lineBreaks (nameText name) = lineBreaks name := by
  unfold nameText
  split
  · rfl
  · exact lineBreaks_quotedText name

theorem lineBreaks_arrayText {letter suffix : String} (hletter : lineBreaks letter = 0)
    (hsuffix : lineBreaks suffix = 0) (items : List Int) :
    lineBreaks (arrayText letter suffix items) = 0 := by
  have hitem : ∀ i ∈ items, lineBreaks (i.repr ++ suffix) = totalBreaks [] :=
    fun i _ => lineBreaks_suffixed (isToken_repr i) hsuffix
  have hitems : totalBreaks (items.map fun i => i.repr ++ suffix) = 0 := by
    rw [totalBreaks_map hitem, List.flatMap_eq_nil_iff.2 fun _ _ => rfl]
    rfl
  have hopening : lineBreaks ("[" ++ letter ++ ";") = 0 := by
    rw [lineBreaks_enclosed rfl rfl, hletter]
  rw [arrayText, lineBreaks_enclosed hopening rfl, lineBreaks_intercalate, hitems]

theorem lineBreaks_text (n : Nbt) : lineBreaks n.text = totalBreaks n.strings := by
  induction n with
  | byte v | short v | long v => exact lineBreaks_suffixed (isToken_repr _) rfl
  | int v => exact lineBreaks_of_isToken (isToken_repr _)
  | float v | double v => exact lineBreaks_suffixed v.isToken_text rfl
  | string s => exact lineBreaks_quotedText s
  | list items ih =>
    rw [text, strings, lineBreaks_enclosed rfl rfl, lineBreaks_intercalate, itemTexts_eq_map,
      itemStrings_eq_flatMap, totalBreaks_map ih]
  | compound fields ih =>
    have hfield : ∀ f ∈ fields,
        lineBreaks (nameText f.1 ++ ":" ++ f.2.text) = totalBreaks (f.1 :: f.2.strings) := by
      intro f hf
      rw [lineBreaks_separated rfl, lineBreaks_nameText, ih f hf, totalBreaks_cons]
    rw [text, strings, lineBreaks_enclosed rfl rfl, lineBreaks_intercalate, fieldTexts_eq_map,
      fieldStrings_eq_strings, totalBreaks_map hfield]
    rfl
  | byteArray items | intArray items | longArray items => exact lineBreaks_arrayText rfl rfl _

end Nbt

theorem lineBreaks_boolText (b : Bool) : lineBreaks (boolText b) = 0 := by cases b <;> rfl

theorem lineBreaks_braced {α : Type} {text : α → String} (strings : α → List String)
    (h : ∀ a, lineBreaks (text a) = totalBreaks (strings a)) (m : OrderedMap String α) :
    lineBreaks (braced text m) = totalBreaks (m.strings strings) := by
  have hentry : ∀ e ∈ m, lineBreaks (e.1 ++ "=" ++ text e.2) = totalBreaks (e.1 :: strings e.2) := by
    intro e _
    rw [lineBreaks_separated rfl, h, totalBreaks_cons]
  rw [braced, lineBreaks_enclosed rfl rfl, lineBreaks_intercalate, totalBreaks_map hentry]
  rfl

theorem Range.lineBreaks_text (r : Range) : lineBreaks r.text = 0 := by
  have hbound : ∀ x : Binary64, lineBreaks x.canonical.text = 0 := fun x =>
    lineBreaks_of_isToken x.canonical.isToken_text
  have hpoints : lineBreaks ".." = 0 := rfl
  cases r <;> simp only [text, lineBreaks_append, hbound, hpoints]

def Advancement.strings : Advancement → List String
  | .done _ => []
  | .criteria cs => cs.strings fun _ => []

theorem Advancement.lineBreaks_text (a : Advancement) : lineBreaks a.text = totalBreaks a.strings := by
  cases a with
  | done b => exact lineBreaks_boolText b
  | criteria cs => exact lineBreaks_braced (fun _ => []) lineBreaks_boolText cs

namespace ArgumentValue

/-- The strings that stand in the text of a value. -/
def strings : ArgumentValue → List String
  | .text t => [t]
  | .flags m => m.strings fun _ => []
  | .scores m => m.strings fun _ => []
  | .advancements m => m.strings Advancement.strings
  | .nbt n => n.strings
  | .int _ | .float _ | .bool _ | .range _ => []

theorem lineBreaks_display (v : ArgumentValue) : lineBreaks v.display = totalBreaks v.strings := by
  cases v with
  | int v => exact lineBreaks_of_isToken (isToken_repr _)
  | float v => exact lineBreaks_of_isToken v.canonical.isToken_text
  | text t => rfl
  | bool b => exact lineBreaks_boolText b
  | range r => exact r.lineBreaks_text
  | flags m => exact lineBreaks_braced (fun _ => []) lineBreaks_boolText m
  | scores m => exact lineBreaks_braced (fun _ => []) Range.lineBreaks_text m
  | advancements m => exact lineBreaks_braced Advancement.strings Advancement.lineBreaks_text m
  | nbt n => exact n.lineBreaks_text

private theorem totalBreaks_texts (v : ArgumentValue) (sh : Shape) :
    totalBreaks (v.texts sh) = totalBreaks v.strings := by
  unfold texts
  split
  · next m =>
    refine totalBreaks_map fun e _ => ?_
    have hmark : lineBreaks (if e.2 then "" else "!") = 0 := by cases e.2 <;> rfl
    rw [lineBreaks_append, hmark]
    exact Nat.zero_add _
  · rfl
  · rfl
  · rw [totalBreaks_cons, lineBreaks_display]
    rfl

end ArgumentValue

theorem KnownKey.lineBreaks_text (k : KnownKey) : lineBreaks k.text = 0 := by cases k <;> rfl

/-- The name of a key that is not recognised is copied, and it has one segment. -/
theorem ArgumentKey.totalBreaks_segments {key : ArgumentKey} {v : ArgumentValue} {ss : List String}
    (h : key.segments v = .ok ss) :
    totalBreaks ss = totalBreaks (key.name :: v.strings) := by
  obtain ⟨-, rfl⟩ := segments_eq_ok.1 h
  have hassign : ∀ t, lineBreaks (key.assign t) = lineBreaks key.name + lineBreaks t := by
    intro t
    rw [assign, lineBreaks_separated rfl]
  cases key with
  | known k =>
    have hname : lineBreaks (known k).name = 0 := k.lineBreaks_text
    have htext : ∀ t ∈ v.texts (known k).shape,
        lineBreaks ((known k).assign t) = totalBreaks [t] := by
      intro t _
      rw [hassign, hname, Nat.zero_add]
      rfl
    rw [totalBreaks_map htext, List.flatMap_singleton', v.totalBreaks_texts, totalBreaks_cons, hname,
      Nat.zero_add]
  | other name unknown =>
    change totalBreaks [(other name unknown).assign v.display] = _
    rw [totalBreaks_cons, hassign, v.lineBreaks_display]
    rfl

namespace Selector

/-- The strings that are copied into the text of a selector: the names of its keys, and the strings
of their values. -/
def strings (s : Selector) : List String := s.arguments.flatMap fun a => a.1.name :: a.2.strings

private theorem totalBreaks_leading {args : Arguments} (h : args.firstError? = none) :
    totalBreaks args.leading = totalBreaks (args.flatMap fun a => a.1.name :: a.2.strings) := by
  induction args with
  | nil => rfl
  | cons a args ih =>
    obtain ⟨ss, hss⟩ := (Arguments.firstError?_eq_none_iff _).1 h a List.mem_cons_self
    rw [Arguments.leading_cons_ok args hss, totalBreaks_append, ArgumentKey.totalBreaks_segments hss,
      ih (Arguments.firstError?_cons_ok args hss ▸ h), List.flatMap_cons, totalBreaks_append]

theorem lineBreaks_text {s : Selector} (h : s.arguments.firstError? = none) :
    lineBreaks s.text = totalBreaks s.strings := by
  have hhead : lineBreaks ("@" ++ s.target.text) = 0 := by
    rw [lineBreaks_append]
    cases s.target <;> rfl
  unfold text
  split
  · next hempty =>
    rw [hhead, strings, List.isEmpty_iff.1 hempty]
    rfl
  · rw [body, lineBreaks_append, lineBreaks_append, lineBreaks_append, hhead, lineBreaks_intercalate,
      totalBreaks_leading h]
    exact Nat.zero_add _

end Selector

namespace CommandLine

/-- A run that ends well gives the texts of its documents, each with a line break after it. The breaks
of its output are one for each document and those in the strings of the selectors; the lines of the
output are the texts exactly if no such string has a break. -/
theorem lineBreaks_run (o : Options) (input : Except ReadFailure ByteArray) {outcome : Outcome}
    (hrun : run o input = some outcome) (h : outcome.status = 0) :
    ∃ (bytes : ByteArray) (text : String) (selectors : List Selector) (texts : List String)
        (out : String),
      input = .ok bytes ∧ String.fromUTF8? bytes = some text ∧
      Selector.loadAll text = .ok selectors ∧ selectors.map Selector.format = texts.map .ok ∧
      outcome.stdout = out.toUTF8.data.toList ∧
      lineBreaks out = selectors.length + totalBreaks (selectors.flatMap Selector.strings) ∧
      (lineBreaks out = selectors.length ↔ ∀ s ∈ selectors, ∀ t ∈ s.strings, '\n' ∉ t.toList) ∧
      (readLines out = texts ↔ ∀ s ∈ selectors, ∀ t ∈ s.strings, '\n' ∉ t.toList) := by
  rcases run_cases o input with ⟨bytes, text, selectors, hinput, htext, hload, hall⟩ | ⟨f, -, hall⟩
  · obtain rfl := Option.some.inj (hrun.symm.trans (hall o.stream))
    have hbreaks : totalBreaks (selectors.map Selector.text) =
        totalBreaks (selectors.flatMap Selector.strings) :=
      totalBreaks_map fun s hs => Selector.lineBreaks_text (Selector.firstError?_of_loadAll hload s hs)
    have hstrings : totalBreaks (selectors.flatMap Selector.strings) = 0 ↔
        ∀ s ∈ selectors, ∀ t ∈ s.strings, '\n' ∉ t.toList := by
      rw [totalBreaks_eq_zero_iff, List.forall_mem_flatMap]
    have hcount : lineBreaks (lines selectors) =
        selectors.length + totalBreaks (selectors.flatMap Selector.strings) := by
      rw [lines_eq_join, lineBreaks_join_lines, List.length_map, hbreaks]
    refine ⟨bytes, text, selectors, selectors.map Selector.text, lines selectors, hinput, htext, hload,
      Selector.map_format_of_loadAll hload, rfl, hcount, ?_, ?_⟩
    · rw [hcount, Nat.add_eq_left, hstrings]
    · rw [lines_eq_join, readLines_join_lines_iff, ← totalBreaks_eq_zero_iff, hbreaks, hstrings]
  · obtain rfl := Option.some.inj (hrun.symm.trans (hall o.stream))
    have hstatus : (1 : UInt8) ≠ 0 := by decide
    exact absurd h hstatus

theorem fromUTF8?_toUTF8 (text : String) : String.fromUTF8? text.toUTF8 = some text := by
  have hvalid : text.toUTF8.IsValidUTF8 := text.isValidUTF8
  rw [String.fromUTF8?, dif_pos hvalid]
  rfl

theorem loadAll_name_break :
    Selector.loadAll
        "\x7b\"target\":\"a\",\"arguments\":\x7b\"name\":\x7b\"a\\nb\":true\x7d\x7d\x7d" =
      .ok [⟨.allPlayers, [(.known .name, .flags [("a\nb", true)])]⟩] := by
  with_unfolding_all rfl

/-- A name with a break in it, written fragment by fragment. -/
theorem lineBreaks_run_name :
    let text := "\x7b\"target\":\"a\",\"arguments\":\x7b\"name\":\x7b\"a\\nb\":true\x7d\x7d\x7d"
    ∃ (outcome : Outcome) (s : Selector) (texts : List String) (out : String),
      run ⟨none, true⟩ (.ok text.toUTF8) = some outcome ∧ outcome.status = 0 ∧
      Selector.loadAll text = .ok [s] ∧ [s].map Selector.format = texts.map .ok ∧
      outcome.stdout = out.toUTF8.data.toList ∧ lineBreaks out = 2 ∧ readLines out ≠ texts := by
  intro text
  have htext := fromUTF8?_toUTF8 text
  have hload := loadAll_name_break
  have hrun := run_of_loadAll ⟨none, true⟩ htext hload
  obtain ⟨bytes, text', selectors, texts, out, hinput, htext', hload', hformat, hout, hcount, -, hlines⟩ :=
    lineBreaks_run _ _ hrun rfl
  obtain rfl := Except.ok.inj hinput
  obtain rfl : text = text' := Option.some.inj (htext.symm.trans htext')
  obtain rfl := Except.ok.inj (hload.symm.trans hload')
  refine ⟨_, _, texts, out, hrun, rfl, hload, hformat, hout, hcount.trans (by decide), fun h => ?_⟩
  exact hlines.1 h _ List.mem_cons_self "a\nb" (by decide) (by decide)

/-- One document, and two lines: the name is written as it is. -/
theorem exists_run_two_lines :
    let text := "\x7b\"target\":\"a\",\"arguments\":\x7b\"name\":\x7b\"a\\nb\":true\x7d\x7d\x7d"
    (∃ s, Selector.loadAll text = .ok [s]) ∧
      run ⟨none, false⟩ (.ok text.toUTF8) =
        some ⟨0, "@a[name=a\nb]\n".toUTF8.data.toList, ""⟩ ∧
      lineBreaks "@a[name=a\nb]\n" = 2 ∧ readLines "@a[name=a\nb]\n" = ["@a[name=a", "b]"] := by
  intro text
  have hlines : lines [⟨.allPlayers, [(.known .name, .flags [("a\nb", true)])]⟩] =
      "@a[name=a\nb]\n" := by decide +kernel
  refine ⟨⟨_, loadAll_name_break⟩, ?_, by decide, by decide⟩
  rw [run_of_loadAll _ (fromUTF8?_toUTF8 text) loadAll_name_break, hlines]
  rfl

end CommandLine

end TargetSelector
