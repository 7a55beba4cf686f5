import TargetSelector.CommandLine
import TargetSelector.Proofs.Selector.Document

/-!
A run writes the lines of all its documents, or nothing: every document is loaded before the first
write, and a selector that is loaded has a text.
-/
namespace TargetSelector

/-- The documents of an input: the items of a list, or one value that is no list. -/
def Json.documents : Json → List Json
  | .array docs => docs
  | v => [v]

namespace Selector

theorem loadAll_eq (text : String) :
    loadAll text = (Json.parse text).mapError .notJson >>= fun v => v.documents.mapM ofJson := by
  unfold loadAll
  congr 1
  funext v
  cases v with
  | array docs => rfl
  | _ => simp [Json.documents]

theorem loadAll_eq_ok {text : String} {selectors : List Selector} :
    loadAll text = .ok selectors ↔
      ∃ v, Json.parse text = .ok v ∧ v.documents.map ofJson = selectors.map .ok := by
  rw [loadAll_eq, bind_eq_ok]
  simp only [mapError_eq_ok, mapM_eq_ok]

theorem loadAll_eq_error {text : String} {e : LoadError} :
    loadAll text = .error e ↔ (∃ cause, Json.parse text = .error cause ∧ .notJson cause = e) ∨
      ∃ v, Json.parse text = .ok v ∧ ∃ before d after, v.documents = before ++ d :: after ∧
        (∀ b ∈ before, ∃ s, ofJson b = .ok s) ∧ ofJson d = .error e := by
  rw [loadAll_eq, bind_eq_error]
  simp only [mapError_eq_ok, mapError_eq_error, mapM_eq_error]

theorem firstError?_of_loadAll {text : String} {selectors : List Selector}
    (h : loadAll text = .ok selectors) : ∀ s ∈ selectors, s.arguments.firstError? = none := by
  obtain ⟨v, -, hdocs⟩ := loadAll_eq_ok.1 h
  intro s hs
  have hmem : .ok s ∈ v.documents.map ofJson := hdocs ▸ List.mem_map_of_mem hs
  obtain ⟨d, -, hd⟩ := List.mem_map.1 hmem
  exact firstError?_of_ofJson hd

theorem map_format_of_loadAll {text : String} {selectors : List Selector}
    (h : loadAll text = .ok selectors) :
    selectors.map format = (selectors.map Selector.text).map .ok := by
  rw [List.map_map]
  apply List.map_congr_left
  intro s hs
  exact format_of_firstError? (firstError?_of_loadAll h s hs)

end Selector

namespace CommandLine

def lines (selectors : List Selector) : String :=
  String.join (selectors.map fun s => s.text ++ "\n")

theorem lines_eq_join (selectors : List Selector) :
    lines selectors = String.join ((selectors.map Selector.text).map (· ++ "\n")) := by
  rw [lines, List.map_map]
  rfl

section Writing

variable {k : Sink} (hroom : k.room = none) (hanswers : k.Answers)
include hroom hanswers

theorem writeText_of_room (text : String) :
    writeText text k = some (k.accepting (utf8 text), none) := by
  rw [writeText, Sink.writeAll_of_fits hanswers (Sink.fits_of_room hroom _)]
  rfl

/-- Both ways to write leave the same behind. -/
theorem writeSelector_of_room (stream : Bool) (context : String) {s : Selector}
    (h : s.arguments.firstError? = none) :
    writeSelector stream context s k = some (k.accepting (utf8 s.text), none) := by
  unfold writeSelector
  cases stream with
  | true =>
    have houtput : s.output = s.text := by rw [Selector.output, h]
    rw [if_pos rfl, s.writeTo_of_fits hanswers (Sink.fits_of_room hroom _), h, houtput]
    rfl
  | false =>
    rw [if_neg Bool.false_ne_true, Selector.format_of_firstError? h]
    exact writeText_of_room hroom hanswers s.text

private theorem writeLines_of_room (stream : Bool) (i : Nat) {selectors : List Selector}
    (h : ∀ s ∈ selectors, s.arguments.firstError? = none) :
    writeLines stream i selectors k = some (k.accepting (utf8 (lines selectors)), none) := by
  induction selectors generalizing i k with
  | nil => simp [writeLines, lines, utf8_empty]
  | cons s selectors ih =>
    obtain ⟨hs, hrest⟩ := List.forall_mem_cons.1 h
    have hline : (k.accepting (utf8 s.text)).room = none := Sink.room_accepting hroom _
    have hnext : ((k.accepting (utf8 s.text)).accepting (utf8 "\n")).room = none :=
      Sink.room_accepting hline _
    have hlines : lines (s :: selectors) = s.text ++ ("\n" ++ lines selectors) := by
      rw [lines, List.map_cons, String.join_cons, String.append_assoc, lines]
    rw [writeLines, writeSelector_of_room hroom hanswers stream _ hs]
    dsimp only [Option.bind_eq_bind, Option.bind_some]
    rw [writeText_of_room hline hanswers]
    dsimp only [Option.bind_some]
    rw [ih hnext hanswers (i + 1) hrest, hlines, utf8_append, utf8_append, Sink.accepting_append,
      Sink.accepting_append]

end Writing

section Input

variable (o : Options)

theorem run_of_decodeInput_eq_error {input : Except ReadFailure ByteArray} {e : ReadFailure}
    (h : decodeInput input = .error e) :
    run o input = some (.ofFailure [] ⟨readContext o, [e.message]⟩) := by
  rw [run, h]

private theorem run_error (e : ReadFailure) :
    run o (.error e) = some (.ofFailure [] ⟨readContext o, [e.message]⟩) :=
  run_of_decodeInput_eq_error o rfl

private theorem run_of_fromUTF8?_eq_none {bytes : ByteArray} (h : String.fromUTF8? bytes = none) :
    run o (.ok bytes) = some (.ofFailure [] ⟨readContext o, [ReadFailure.notText.message]⟩) := by
  refine run_of_decodeInput_eq_error o ?_
  unfold decodeInput
  dsimp only [bind, Except.bind]
  rw [h]

section Text

variable {bytes : ByteArray} {text : String} (htext : String.fromUTF8? bytes = some text)
include htext

theorem decodeInput_of_fromUTF8? : decodeInput (.ok bytes) = .ok text := by
  unfold decodeInput
  dsimp only [bind, Except.bind]
  rw [htext]
  rfl

theorem run_of_loadAll_eq_error {e : LoadError} (h : Selector.loadAll text = .error e) :
    run o (.ok bytes) = some (.ofFailure [] ⟨loadContext, loadCauses e⟩) := by
  rw [run, decodeInput_of_fromUTF8? htext]
  dsimp only
  rw [h]

theorem run_of_loadAll {selectors : List Selector} (h : Selector.loadAll text = .ok selectors) :
    run o (.ok bytes) = some ⟨0, utf8 (lines selectors), ""⟩ := by
  have hfirst := Selector.firstError?_of_loadAll h
  rw [run, decodeInput_of_fromUTF8? htext]
  dsimp only
  rw [h]
  dsimp only
  rw [writeLines_of_room rfl (fun _ _ => Option.some_ne_none 0) o.stream 0 hfirst]
  rfl

end Text

end Input

/-- The errors that a load error names before its own. -/
def sources : LoadError → List String
  | .notJson cause => [cause.message]
  | .layout cause => [cause.message]
  | .target _ | .argument _ => []

private theorem loadCauses_eq (e : LoadError) : loadCauses e = e.message :: sources e := by
  cases e <;> rfl

/-- The failures of an input: it cannot be read, it is no text, it is not JSON, or one of its documents
is the first that cannot be loaded. -/
inductive InputFailure (o : Options) : Except ReadFailure ByteArray → Failure → Prop where
  | unread (e : ReadFailure) :
    InputFailure o (.error e) ⟨"failed to read " ++ o.input.getD "stdin", [e.message]⟩
  | notText {bytes : ByteArray} (h : String.fromUTF8? bytes = none) :
    InputFailure o (.ok bytes)
      ⟨"failed to read " ++ o.input.getD "stdin", ["stream did not contain valid UTF-8"]⟩
  | notJson {bytes : ByteArray} {text : String} {e : ReadError}
    (htext : String.fromUTF8? bytes = some text) (h : Json.parse text = .error e) :
    InputFailure o (.ok bytes)
      ⟨"failed to load selector documents", ["invalid selector document: " ++ e.message, e.message]⟩
  | document {bytes : ByteArray} {text : String} {v d : Json} {before after : List Json}
    {e : LoadError} (htext : String.fromUTF8? bytes = some text) (hparse : Json.parse text = .ok v)
    (hdocs : v.documents = before ++ d :: after)
    (hbefore : ∀ b ∈ before, ∃ s, Selector.ofJson b = .ok s) (h : Selector.ofJson d = .error e) :
    InputFailure o (.ok bytes) ⟨"failed to load selector documents", e.message :: sources e⟩

theorem run_cases (o : Options) (input : Except ReadFailure ByteArray) :
    (∃ bytes text selectors, input = .ok bytes ∧ String.fromUTF8? bytes = some text ∧
      Selector.loadAll text = .ok selectors ∧
      ∀ stream, run { o with stream := stream } input = some ⟨0, utf8 (lines selectors), ""⟩) ∨
    ∃ f, InputFailure o input f ∧
      ∀ stream, run { o with stream := stream } input = some (.ofFailure [] f) := by
  cases input with
  | error e => exact Or.inr ⟨_, .unread e, fun stream => run_error { o with stream := stream } e⟩
  | ok bytes =>
    cases htext : String.fromUTF8? bytes with
    | none =>
      exact Or.inr ⟨_, .notText htext, fun stream =>
        run_of_fromUTF8?_eq_none { o with stream := stream } htext⟩
    | some text =>
      cases hload : Selector.loadAll text with
      | ok selectors =>
        exact Or.inl ⟨bytes, text, selectors, rfl, htext, hload, fun stream =>
          run_of_loadAll { o with stream := stream } htext hload⟩
      | error e =>
        refine Or.inr ⟨⟨loadContext, loadCauses e⟩, ?_, fun stream =>
          run_of_loadAll_eq_error { o with stream := stream } htext hload⟩
        rcases Selector.loadAll_eq_error.1 hload with ⟨cause, hparse, rfl⟩ | hdocument
        · exact .notJson htext hparse
        · obtain ⟨v, hparse, before, d, after, hdocs, hbefore, hd⟩ := hdocument
          rw [loadCauses_eq]
          exact .document htext hparse hdocs hbefore hd

/-! ### Reports -/

theorem report_toList (f : Failure) :
    ∃ rest, f.report.toList = "Error: ".toList ++ (f.context.toList ++ rest) := by
  unfold Failure.report
  dsimp only
  rw [String.append_assoc, String.append_assoc, String.toList_append, String.toList_append]
  exact ⟨_, rfl⟩

private theorem infix_join {t : String} {texts : List String} (h : t ∈ texts) :
    t.toList <:+: (String.join texts).toList := by
  rw [String.toList_join, List.flatMap_def]
  exact List.infix_of_mem_flatten (List.mem_map_of_mem h)

private theorem infix_markedCause (mark : String) {cause : String} (h : '\n' ∉ cause.toList) :
    cause.toList <:+: (markedCause mark cause).toList := by
  have hsame : cause.toList.flatMap (fun c =>
      if c = '\n' then c :: List.replicate mark.length ' ' else [c]) = cause.toList := by
    have hchar : ∀ c ∈ cause.toList,
        (if c = '\n' then c :: List.replicate mark.length ' ' else [c]) = [c] := by
      intro c hc
      exact if_neg (ne_of_mem_of_not_mem hc h)
    rw [List.flatMap_congr hchar, List.flatMap_singleton']
  rw [markedCause, hsame, String.toList_append, String.toList_ofList]
  exact (List.suffix_append _ _).isInfix

/-- A report has every cause in it. One of several lines is indented. -/
theorem infix_report {f : Failure} {cause : String} (hmem : cause ∈ f.causes)
    (h : '\n' ∉ cause.toList) : cause.toList <:+: f.report.toList := by
  unfold Failure.report
  extract_lets causes
  have hmarked : ∃ mark, markedCause mark cause ∈ causes := by
    unfold causes
    split
    · next c hc =>
      rw [hc, List.mem_singleton] at hmem
      exact ⟨"    ", by rw [hmem]; exact List.mem_singleton_self _⟩
    · obtain ⟨i, hi, hcause⟩ := List.mem_iff_getElem.1 hmem
      exact ⟨_, List.mem_mapIdx.2 ⟨i, hi, by rw [hcause]⟩⟩
  obtain ⟨mark, hmarked⟩ := hmarked
  have hne : ¬ causes.isEmpty := by
    rw [List.isEmpty_iff]
    exact List.ne_nil_of_mem hmarked
  have hjoin : cause.toList <:+: (String.join causes).toList :=
    (infix_markedCause mark h).trans (infix_join hmarked)
  rw [if_neg hne]
  simp only [String.toList_append]
  exact (hjoin.trans (List.suffix_append _ _).isInfix).trans (List.infix_append _ _ _)

theorem not_prefix_of_ne {c d : Char} (h : c ≠ d) (front s t : List Char) :
    ¬ front ++ c :: s <+: front ++ d :: t := by
  rw [List.prefix_append_right_inj, List.cons_prefix_cons]
  exact fun hcd => h hcd.1

/-- The verb of a report tells a failure of the input from one of the writing. -/
theorem InputFailure.not_writeContext_prefix {o : Options} {input : Except ReadFailure ByteArray}
    {f : Failure} (h : InputFailure o input f) (i : Nat) :
    ¬ ("Error: failed to format selector #" ++ i.repr).toList <+: f.report.toList := by
  have hwrite : ("Error: failed to format selector #" ++ i.repr).toList =
      "Error: ".toList ++ ("failed to ".toList ++ 'f' :: ("ormat selector #" ++ i.repr).toList) := by
    generalize i.repr = digits
    rw [String.toList_append, String.toList_append]
    rfl
  have hread : ("failed to read " ++ o.input.getD "stdin").toList =
      "failed to ".toList ++ 'r' :: ("ead " ++ o.input.getD "stdin").toList := by
    generalize o.input.getD "stdin" = name
    rw [String.toList_append, String.toList_append]
    rfl
  have hload : "failed to load selector documents".toList =
      "failed to ".toList ++ 'l' :: "oad selector documents".toList := rfl
  obtain ⟨rest, hrest⟩ := report_toList f
  rw [hrest, hwrite, List.prefix_append_right_inj]
  cases h with
  | unread _ | notText _ =>
    rw [hread, List.append_assoc]
    exact not_prefix_of_ne (by decide) _ _ _
  | notJson _ _ | document _ _ _ _ _ =>
    rw [hload, List.append_assoc]
    exact not_prefix_of_ne (by decide) _ _ _

/-- A run returns, the same in both ways to write. It ends well with one line for each document, each of
them loaded and with its text in the line, or it writes nothing and reports the failure of its input,
with what was being done and the causes of one line as they are. No report is about the writing. -/
theorem run_all_or_nothing (o : Options) (input : Except ReadFailure ByteArray) :
    ∃ outcome, (∀ stream, run { o with stream := stream } input = some outcome) ∧
      ((∃ (bytes : ByteArray) (text : String) (v : Json) (selectors : List Selector)
          (texts : List String),
        input = .ok bytes ∧ String.fromUTF8? bytes = some text ∧ Json.parse text = .ok v ∧
        v.documents.map Selector.ofJson = selectors.map .ok ∧
        selectors.map Selector.format = texts.map .ok ∧
        outcome = ⟨0, (String.join (texts.map (· ++ "\n"))).toUTF8.data.toList, ""⟩) ∨
      ∃ f, InputFailure o input f ∧ outcome.status ≠ 0 ∧ outcome.stdout = [] ∧
        outcome.stderr = f.report ∧ ("Error: " ++ f.context).toList <+: f.report.toList ∧
        ∀ cause ∈ f.causes, '\n' ∉ cause.toList → cause.toList <:+: f.report.toList) ∧
      ∀ i : Nat, ¬ ("Error: failed to format selector #" ++ i.repr).toList <+:
        outcome.stderr.toList := by
  rcases run_cases o input with ⟨bytes, text, selectors, hinput, htext, hload, hrun⟩ | ⟨f, hf, hrun⟩
  · obtain ⟨v, hparse, hdocs⟩ := Selector.loadAll_eq_ok.1 hload
    have hformat : selectors.map Selector.format = (selectors.map Selector.text).map .ok :=
      Selector.map_format_of_loadAll hload
    refine ⟨_, hrun, Or.inl ⟨bytes, text, v, selectors, _, hinput, htext, hparse, hdocs, hformat, ?_⟩,
      fun i h => ?_⟩
    · rw [lines_eq_join]
      rfl
    · simpa [String.toList_append] using h.length_le
  · have hstatus : (1 : UInt8) ≠ 0 := by decide
    obtain ⟨rest, hrest⟩ := report_toList f
    have hcontext : ("Error: " ++ f.context).toList <+: f.report.toList := by
      rw [hrest, String.toList_append, ← List.append_assoc]
      exact List.prefix_append _ _
    exact ⟨_, hrun, Or.inr ⟨f, hf, hstatus, rfl, rfl, hcontext, fun _ => infix_report⟩,
      hf.not_writeContext_prefix⟩

end CommandLine

end TargetSelector
