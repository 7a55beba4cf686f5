import TargetSelector.Proofs.Argument.Admission
import TargetSelector.Proofs.Selector.Fragments
import TargetSelector.Proofs.Selector.Sink

/-!
The ways to produce a selector agree: its list of segments, its text, its stream and what it writes.
-/
namespace TargetSelector

private theorem join_intersperse (sep : String) (ss : List String) :
    String.join (ss.intersperse sep) = sep.intercalate ss := by
  induction ss with
  | nil => rfl
  | cons s ss ih =>
    cases ss with
    | nil => rw [List.intersperse_singleton, String.intercalate_singleton, String.join_cons,
        String.join_nil, String.append_empty]
    | cons t ss =>
      rw [List.intersperse, String.join_cons, String.join_cons, ih, String.intercalate_cons_cons,
        String.append_assoc]
      exact List.cons_ne_nil t ss

private theorem mapM_id_fragments (texts : List String) (error? : Option MalformedArgument) :
    (texts.map Except.ok ++ (error?.map Except.error).toList : List Fragment).mapM id =
      match error? with
      | none => .ok texts
      | some e => .error e := by
  induction texts with
  | nil => cases error? <;> rfl
  | cons text texts ih =>
    rw [List.map_cons, List.cons_append, List.mapM_cons, ih]
    cases error? <;> rfl

theorem intercalate_eq_empty_iff {sep : String} {ss : List String} (h : ∀ s ∈ ss, s ≠ "") :
    sep.intercalate ss = "" ↔ ss = [] := by
  cases ss with
  | nil => simp
  | cons s ss =>
    have hs : s ≠ "" := h s List.mem_cons_self
    cases ss with
    | nil => simpa using hs
    | cons t ss => simp [String.intercalate_cons_cons, String.append_eq_empty_iff, hs]

namespace Arguments

theorem exists_assign_of_mem_leading {args : Arguments} {s : String} (hs : s ∈ args.leading) :
    ∃ a ∈ args, ∃ text ∈ a.2.texts a.1.shape, s = a.1.assign text := by
  induction args with
  | nil => cases hs
  | cons a args ih =>
    obtain ⟨key, value⟩ := a
    cases h : key.segments value with
    | error e =>
      rw [leading_cons_error args h] at hs
      cases hs
    | ok ss =>
      rw [leading_cons_ok args h, List.mem_append] at hs
      rcases hs with hs | hs
      · exact ⟨_, List.mem_cons_self, ArgumentKey.exists_assign_of_mem h hs⟩
      · obtain ⟨a, ha, htext⟩ := ih hs
        exact ⟨a, List.mem_cons_of_mem _ ha, htext⟩

theorem ne_empty_of_mem_leading {args : Arguments} {s : String} (hs : s ∈ args.leading) :
    s ≠ "" := by
  obtain ⟨a, -, text, -, rfl⟩ := exists_assign_of_mem_leading hs
  simp [ArgumentKey.assign, String.append_eq_empty_iff]

theorem firstError?_eq (args : Arguments) :
    args.firstError? = (args.find? fun a => !a.1.shape.admits a.2).map fun a => ⟨a.1⟩ := by
  induction args with
  | nil => rfl
  | cons a args ih =>
    rw [firstError?, List.findSome?_cons, ← firstError?, ih, List.find?_cons,
      ArgumentKey.segments_eq]
    cases a.1.shape.admits a.2 <;> rfl

theorem firstError?_of_isEmpty {args : Arguments} (h : args.isEmpty) : args.firstError? = none := by
  rw [List.isEmpty_iff.1 h]
  rfl

end Arguments

namespace Selector

/-- The text of a selector without the bracket at its end. -/
def body (s : Selector) : String :=
  "@" ++ s.target.text ++ "[" ++ ",".intercalate s.arguments.leading

/-- The whole text around the segments of the arguments. -/
def text (s : Selector) : String :=
  if s.arguments.isEmpty then "@" ++ s.target.text else s.body ++ "]"

/-- All that comes before an error, or the whole text. -/
def output (s : Selector) : String :=
  match s.arguments.firstError? with
  | none => s.text
  | some _ => s.body

def okTexts (s : Selector) : List String :=
  ("@" ++ s.target.text) :: if s.arguments.isEmpty then [] else
    "[" :: s.arguments.leading.intersperse "," ++ (s.arguments.unlessMalformed "]").toOption.toList

theorem segments_eq (s : Selector) :
    s.segments = s.arguments.unlessMalformed s.arguments.leading := by
  obtain ⟨target, args⟩ := s
  induction args with
  | nil => rfl
  | cons a args ih =>
    obtain ⟨key, value⟩ := a
    unfold segments at ih ⊢
    rw [List.mapM_cons]
    dsimp only at ih ⊢
    cases h : key.segments value with
    | error e => exact (Arguments.unlessMalformed_cons_error args _ h).symm
    | ok ss =>
      rw [Arguments.unlessMalformed_cons_ok args _ h, Arguments.leading_cons_ok args h,
        ← Arguments.map_unlessMalformed, ← ih]
      cases args.mapM fun a => a.1.segments a.2 with
      | error e => rfl
      | ok lists => rfl

/-- A stream ends after its texts, or with one error after them. -/
theorem toList_fragments (s : Selector) :
    s.fragments.toList = s.okTexts.map .ok ++ (s.arguments.firstError?.map .error).toList := by
  have hlist : s.fragments.toList = s.fragmentList := s.fragments.toList_eq
  have htag : String.singleton s.target.tag = s.target.text := rfl
  rw [hlist, fragmentList, okTexts, htag]
  by_cases h : s.arguments.isEmpty
  · rw [if_pos h, if_pos h, Arguments.firstError?_of_isEmpty h]
    rfl
  · rw [if_neg h, if_neg h, Arguments.unlessMalformed]
    cases s.arguments.firstError? <;> simp [Except.toOption]

theorem join_okTexts (s : Selector) : String.join s.okTexts = s.output := by
  unfold okTexts output text
  by_cases h : s.arguments.isEmpty
  · rw [if_pos h, if_pos h, Arguments.firstError?_of_isEmpty h, String.join_cons, String.join_nil,
      String.append_empty]
  · rw [if_neg h, if_neg h, Arguments.unlessMalformed, String.join_cons, List.cons_append,
      String.join_cons, String.join_append, join_intersperse, body]
    cases s.arguments.firstError? <;> simp [Except.toOption, String.append_assoc]

theorem format_eq (s : Selector) : s.format = s.arguments.unlessMalformed s.text := by
  have hjoin := s.join_okTexts
  rw [format, FragmentStream.collect, toList_fragments, mapM_id_fragments, Arguments.unlessMalformed]
  unfold output at hjoin
  cases h : s.arguments.firstError? with
  | some e => rfl
  | none =>
    rw [h] at hjoin
    exact congrArg Except.ok hjoin

theorem format_eq_error {s : Selector} {e : MalformedArgument} :
    s.format = .error e ↔ s.arguments.firstError? = some e := by
  rw [format_eq, Arguments.unlessMalformed]
  cases s.arguments.firstError? <;> simp

theorem format_of_firstError? {s : Selector} (h : s.arguments.firstError? = none) :
    s.format = .ok s.text := by
  rw [format_eq, Arguments.unlessMalformed, h]

theorem eq_of_writeTo_of_fits {s : Selector} {k : Sink} {r : Sink × Option WriteError}
    (hfits : k.Fits (utf8 s.output)) (h : s.writeTo k = some r) :
    r = (k.accepting (utf8 s.output), s.arguments.firstError?.map .malformed) := by
  rw [← join_okTexts] at hfits ⊢
  rw [writeTo, toList_fragments] at h
  have herror := writeFragments_of_fits hfits h
  cases hfirst : s.arguments.firstError? with
  | none =>
    rw [hfirst] at herror
    exact (Option.some.inj herror).symm
  | some e =>
    rw [hfirst] at herror
    exact (Option.some.inj herror).symm

theorem writeTo_of_fits (s : Selector) {k : Sink} (hk : k.Answers) (h : k.Fits (utf8 s.output)) :
    s.writeTo k =
      some (k.accepting (utf8 s.output), s.arguments.firstError?.map .malformed) := by
  obtain ⟨r, hr⟩ := exists_writeFragments hk s.fragments.toList
  rw [writeTo, hr, eq_of_writeTo_of_fits h hr]

/-- The brackets are empty if there are arguments but no segments, and not otherwise. -/
theorem text_eq_empty_brackets_iff (s : Selector) :
    s.text = "@" ++ s.target.text ++ "[]" ↔ s.arguments ≠ [] ∧ s.arguments.leading = [] := by
  unfold text
  by_cases h : s.arguments.isEmpty
  · have hne : "@" ++ s.target.text ≠ "@" ++ s.target.text ++ "[]" := fun he => by
      simpa using congrArg String.length he
    rw [if_pos h]
    exact ⟨fun he => absurd he hne, fun he => absurd (List.isEmpty_iff.1 h) he.1⟩
  · have hempty : ",".intercalate s.arguments.leading = "" ↔ s.arguments.leading = [] :=
      intercalate_eq_empty_iff fun _ => Arguments.ne_empty_of_mem_leading
    rw [if_neg h, body, String.append_assoc, String.append_assoc, String.append_right_inj,
      show "[]" = "[" ++ ("" ++ "]") from rfl, String.append_right_inj, String.append_left_inj,
      hempty]
    exact (and_iff_right (mt List.isEmpty_iff.2 h)).symm

/-- The modes agree on every selector. `leading` are the segments before the first malformed argument,
so all segments where there is none. A sink that never fails may take what it is given in any
portions. -/
theorem production_modes_agree (s : Selector) (k : Sink) :
    let head := "@" ++ String.singleton s.target.tag
    let body := head ++ "[" ++ ",".intercalate s.arguments.leading
    let text := if s.arguments.isEmpty then head else body ++ "]"
    let sink := { k with room := none, interruptions := fun _ _ => some 0 }
    (match s.arguments.firstError? with
      | none =>
        s.segments = .ok s.arguments.leading ∧ s.format = .ok text ∧
          (∃ texts, s.fragments.toList = texts.map .ok ∧ String.join texts = text) ∧
          s.writeTo sink =
            some ({ sink with received := k.received ++ text.toUTF8.data.toList }, none)
      | some e =>
        s.segments = .error e ∧ s.format = .error e ∧
          (∃ texts, s.fragments.toList = texts.map .ok ++ [.error e] ∧ String.join texts = body) ∧
          s.writeTo sink =
            some ({ sink with received := k.received ++ body.toUTF8.data.toList },
              some (.malformed e))) ∧
    (s.format = .ok (head ++ "[]") ↔ s.arguments ≠ [] ∧ s.segments = .ok []) := by
  intro head body text sink
  have hanswers : sink.Answers := fun _ _ => Option.some_ne_none 0
  have hwrite : s.writeTo sink = _ := s.writeTo_of_fits hanswers (Sink.fits_of_room rfl _)
  have hlist := s.toList_fragments
  have hjoin := s.join_okTexts
  have hbrackets := s.text_eq_empty_brackets_iff
  rw [segments_eq, format_eq, Arguments.unlessMalformed, Arguments.unlessMalformed, hwrite]
  unfold output at hjoin ⊢
  cases h : s.arguments.firstError? with
  | none =>
    rw [h] at hlist hjoin
    rw [Option.map_none, Option.toList_none, List.append_nil] at hlist
    refine ⟨⟨rfl, rfl, ⟨s.okTexts, hlist, hjoin⟩, rfl⟩, ?_⟩
    rw [Except.ok.injEq, Except.ok.injEq]
    exact hbrackets
  | some e =>
    rw [h] at hlist hjoin
    exact ⟨⟨rfl, rfl, ⟨s.okTexts, hlist, hjoin⟩, rfl⟩, by simp⟩

/-- A name that is not all ASCII, before an argument that is malformed. -/
theorem production_modes_agree_bytes :
    let s : Selector := ⟨.allPlayers, [(.known .name, .flags [("é", false)]), (.known .limit, .flags [])]⟩
    s.format = .error ⟨.known .limit⟩ ∧
      s.writeTo .unlimited =
        some ({ Sink.unlimited with
          received := [64, 97, 91, 110, 97, 109, 101, 61, 33, 195, 169] },
          some (.malformed ⟨.known .limit⟩)) := by
  intro s
  have hagree := (s.production_modes_agree .unlimited).1
  have herror : s.arguments.firstError? = some ⟨.known .limit⟩ := by decide +kernel
  rw [herror] at hagree
  obtain ⟨-, hformat, -, hwrite⟩ := hagree
  have hbytes : ("@" ++ String.singleton s.target.tag ++ "[" ++
      ",".intercalate s.arguments.leading).toUTF8.data.toList =
      [64, 97, 91, 110, 97, 109, 101, 61, 33, 195, 169] := by decide +kernel
  refine ⟨hformat, ?_⟩
  rw [hbytes] at hwrite
  exact hwrite

end Selector

end TargetSelector
