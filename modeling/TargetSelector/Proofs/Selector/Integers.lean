import TargetSelector.Proofs.Argument.Numbers
import TargetSelector.Proofs.Selector.OneArgument

/-! Integers of documents, from the text of a document to the text of its selector. -/
namespace TargetSelector

/-- The target and the arguments of a document, which is an object or a list. -/
inductive Json.IsDocument : Json → String → List (String × Json) → Prop where
  | object {members args : List (String × Json)} {tag : String}
    (htag : ("target", .string tag) ∈ members) (hargs : ("arguments", .object args) ∈ members) :
    IsDocument (.object members) tag args
  | targetOnly {members : List (String × Json)} {tag : String}
    (htag : ("target", .string tag) ∈ members) (hargs : ∀ v, ("arguments", v) ∉ members) :
    IsDocument (.object members) tag []
  | list (tag : String) (args : List (String × Json)) :
    IsDocument (.array [.string tag, .object args]) tag args
  | targetOnlyList (tag : String) : IsDocument (.array [.string tag]) tag []

theorem Json.IsDocument.ofJson {v : Json} {tag : String} {args : List (String × Json)}
    (h : v.IsDocument tag args) (hdistinct : v.hasDistinctNames) :
    Document.ofJson v = .ok ⟨tag, args⟩ := by
  cases h with
  | object htag hargs =>
    have hnodup := (Json.hasDistinctNames_object.1 hdistinct).1
    refine (Document.ofJson_object_eq_ok hnodup).2 ⟨(OrderedMap.mem_iff_get? hnodup).1 htag, ?_⟩
    rw [(OrderedMap.mem_iff_get? hnodup).1 hargs]
    rfl
  | targetOnly htag hargs =>
    have hnodup := (Json.hasDistinctNames_object.1 hdistinct).1
    refine (Document.ofJson_object_eq_ok hnodup).2 ⟨(OrderedMap.mem_iff_get? hnodup).1 htag, ?_⟩
    rw [OrderedMap.get?_eq_none_iff.2 fun h => (OrderedMap.mem_keys.1 h).elim hargs]
    rfl
  | list => exact Document.ofJson_array_eq_ok.2 (Or.inr rfl)
  | targetOnlyList => exact Document.ofJson_array_eq_ok.2 (Or.inl ⟨rfl, rfl⟩)

namespace Selector

theorem exists_segments_lists {members : List (String × Json)} {args : Arguments}
    (h : members.Forall₂ (fun m a => a.1 = .ofName m.1 ∧ ArgumentValue.ofJson a.1 m.2 = .ok a.2) args)
    (htakes : ∀ m ∈ members, (ArgumentKey.ofName m.1).TakesJson m.2) :
    ∃ lists : List (List String),
      members.Forall₂ (fun m ss => (ArgumentKey.ofName m.1).PrintsNumbers m.2 ss) lists ∧
      args.mapM (fun a => a.1.segments a.2) = .ok lists := by
  simp only [mapM_eq_ok]
  induction h with
  | nil => exact ⟨[], .nil, rfl⟩
  | @cons m a members args ha _ ih =>
    obtain ⟨hm, hmembers⟩ := List.forall_mem_cons.1 htakes
    obtain ⟨lists, hlists, hargs⟩ := ih hmembers
    obtain ⟨value, ss, hvalue, hss, hprints⟩ := ArgumentValue.exists_printsNumbers hm
    obtain ⟨hkey, hread⟩ := ha
    rw [hkey, hvalue] at hread
    obtain rfl := Except.ok.inj hread
    refine ⟨ss :: lists, .cons hprints hlists, ?_⟩
    rw [List.map_cons, List.map_cons, hargs, hkey, hss]

theorem format_of_segments {s : Selector} {ss : List String} (h : s.segments = .ok ss) :
    s.format = .ok (if s.arguments = [] then "@" ++ s.target.text
      else "@" ++ s.target.text ++ "[" ++ ",".intercalate ss ++ "]") := by
  rw [segments_eq, Arguments.unlessMalformed] at h
  cases herror : s.arguments.firstError? with
  | some e =>
    rw [herror] at h
    cases h
  | none =>
    rw [herror] at h
    obtain rfl := Except.ok.inj h
    rw [format_of_firstError? herror, text, body]
    simp only [List.isEmpty_iff]

theorem format_singleton (t : Target) {key : ArgumentKey} {a : ArgumentValue} {segment : String}
    (h : key.segments a = .ok [segment]) :
    format ⟨t, [(key, a)]⟩ = .ok ("@" ++ t.text ++ "[" ++ segment ++ "]") := by
  have hsegments : segments ⟨t, [(key, a)]⟩ = .ok [segment] := by
    rw [segments, List.mapM_cons, List.mapM_nil]
    dsimp only
    rw [h]
    rfl
  rw [format_of_segments hsegments, if_neg (List.cons_ne_nil _ _), String.intercalate_singleton]

/-- A document of a written target and arguments that their keys take loads, and its text prints the
numbers of the arguments. -/
theorem exists_load_printsNumbers {text : String} {v : Json} {d : Document} {t : Target}
    (hparse : Json.parse text = .ok v) (hdoc : Document.ofJson v = .ok d) (ht : t.IsWritten d.target)
    (htakes : ∀ m ∈ d.arguments, (ArgumentKey.ofName m.1).TakesJson m.2) :
    ∃ (s : Selector) (lists : List (List String)), load text = .ok s ∧
      d.arguments.Forall₂ (fun m ss => (ArgumentKey.ofName m.1).PrintsNumbers m.2 ss) lists ∧
      s.format = .ok (if d.arguments = [] then "@" ++ t.text
        else "@" ++ t.text ++ "[" ++ ",".intercalate lists.flatten ++ "]") := by
  have hnodup := nodup_keys_of_parse hparse hdoc
  have hvalues : ∀ m ∈ d.arguments, ∃ value, ArgumentValue.ofJson (.ofName m.1) m.2 = .ok value := by
    intro m hm
    obtain ⟨a, -, ha, -⟩ := ArgumentValue.exists_printsNumbers (htakes m hm)
    exact ⟨a, ha⟩
  obtain ⟨args, hargs⟩ := Document.exists_readArguments_eq_ok hnodup hvalues
  have hmembers := (Document.readArguments_eq_ok hnodup).1 hargs
  obtain ⟨lists, hlists, hsegments⟩ := exists_segments_lists hmembers htakes
  refine ⟨⟨t, args⟩, lists, ?_, hlists, ?_⟩
  · rw [load_of_parse hparse hdoc]
    exact (ofDocument_eq_ok ht).2 ⟨rfl, hargs⟩
  · have hall : segments ⟨t, args⟩ = .ok lists.flatten := by
      rw [segments, hsegments]
      rfl
    have hempty : d.arguments = [] ↔ args = [] := by
      rw [← List.length_eq_zero_iff, hmembers.length_eq, List.length_eq_zero_iff]
    rw [format_of_segments hall]
    simp only [hempty]

/-- Integers survive loading and formatting. A document whose keys take their values loads, however its
text is laid out, and the text of its selector has every number as its place has it: `scalarText` by
itself, `boundText` in a range or the range of a score, `nbtText` in NBT. Each of these is the decimal
text of an integer up to the limit of the place, and so is what stands in the document. Up to 2⁵³ the path
through integers and the path through floating-point values print the same digits. -/
theorem load_prints_integers :
    (∀ (text : String) (v : Json) (tag : String) (args : List (String × Json)) (t : Target),
      v.IsWritten text → v.IsDocument tag args → t.IsWritten tag →
      (∀ m ∈ args, (ArgumentKey.ofName m.1).TakesJson m.2) →
        ∃ (s : Selector) (lists : List (List String)), load text = .ok s ∧
          args.Forall₂ (fun m ss => (ArgumentKey.ofName m.1).PrintsNumbers m.2 ss) lists ∧
          s.format = .ok (if args = [] then "@" ++ t.text
            else "@" ++ t.text ++ "[" ++ ",".intercalate lists.flatten ++ "]")) ∧
    ∀ n : Int, n.natAbs ≤ 0x20000000000000 →
      (ArgumentValue.int (Int64.ofInt n)).display = n.repr ∧
        (ArgumentValue.float (.ofInt n)).display = n.repr := by
  constructor
  · intro text v tag args t hwritten hdocument ht htakes
    have hparse := Json.parse_of_isWritten hwritten
    have hdoc := hdocument.ofJson (Json.hasDistinctNames_of_parse hparse)
    exact exists_load_printsNumbers hparse hdoc ht htakes
  · intro n hn
    constructor
    · have hint : (Int64.ofInt n).toInt = n := Int64.toInt_ofInt_of_le (by omega) (by omega)
      exact congrArg Int.repr hint
    · rw [ArgumentValue.display, Binary.canonical_ofInt, JsonNumber.text_ofInt hn]

/-- A document with an integer that only the exact path keeps, and integers on both sides of a limit of
NBT. -/
private def limitsText : String :=
  "\x7b \"target\":\"e\",\n\"arguments\":\x7b\"limit\": 9007199254740993," ++
    "\"nbt\":\x7b\"a\":[2147483648, -2147483648]\x7d\x7d\x7d\n"

private def limitsFields : List (String × Json) :=
  [("a", .array [.number (.integer 2147483648 (by decide)), .number (.integer (-2147483648) (by decide))])]

private def limitsArguments : List (String × Json) :=
  [("limit", .number (.integer 9007199254740993 (by decide))), ("nbt", .object limitsFields)]

private theorem isWritten_limitsText :
    (Json.object [("target", .string "e"), ("arguments", .object limitsArguments)]).IsWritten
      limitsText := by
  have hnil : Json.IsBlank [] := List.forall_mem_nil _
  have hspace : Json.IsBlank [' '] := by simp [Json.IsBlank]
  have hbreak : Json.IsBlank ['\n'] := by simp [Json.IsBlank]
  have hname : ∀ name : String, name.toList.all Reader.isPlainChar →
      Json.IsString (name.toList ++ ['"']) name :=
    fun name h => .mk (Reader.isStringBody_of_isPlainChar (List.all_eq_true.1 h))
  have hinteger : ∀ n range depth, Json.IsValue depth n.repr.toList (.number (.integer n range)) :=
    fun n range depth => (Json.IsPlain.integer n range).isValue depth
  have hitems : Json.IsValue 124 _ (.array _) := Or.inr (.array (.some
    (.cons hnil (hinteger 2147483648 (by decide) _) hnil
      (.single hspace (hinteger (-2147483648) (by decide) _) hnil))))
  have hfields : Json.IsValue 125 _ (.object limitsFields) := Or.inr (.object (.some
    (.single hnil (.mk (hname "a" (by decide)) hnil hnil hitems) hnil)) (OrderedMap.extends_ofList _))
  have hargs : Json.IsValue 126 _ (.object limitsArguments) := Or.inr (.object (.some
    (.cons hnil (.mk (hname "limit" (by decide)) hnil hspace (hinteger _ (by decide) _)) hnil
      (.single hnil (.mk (hname "nbt" (by decide)) hnil hnil hfields) hnil)))
    (OrderedMap.extends_ofList _))
  have hvalue : Json.IsValue 127 _ (.object _) := Or.inr (.object (.some
    (.cons hspace (.mk (hname "target" (by decide)) hnil hnil
        (.inl (.string (hname "e" (by decide))))) hnil
      (.single hbreak (.mk (hname "arguments" (by decide)) hnil hnil hargs) hnil)))
    (OrderedMap.extends_ofList _))
  have htext : ∀ {v : Json} {t : String}, v.IsWritten t → t = limitsText → v.IsWritten limitsText :=
    fun h heq => heq ▸ h
  refine htext (.mk hnil hvalue hbreak) ?_
  decide +kernel

private theorem takesJson_limitsArguments :
    ∀ m ∈ limitsArguments, (ArgumentKey.ofName m.1).TakesJson m.2 := by
  have hnull : ¬ (Json.object limitsFields).Contains .null := by
    intro h
    cases h with
    | member hm h =>
      obtain rfl := List.mem_singleton.1 hm
      cases h with
      | item hv h =>
        rcases List.mem_pair.1 hv with rfl | rfl <;> cases h
  exact List.forall_mem_cons.2 ⟨.number (by decide) _, List.forall_mem_singleton.2 (.nbt hnull)⟩

theorem load_prints_integers_limits :
    ∃ s, load limitsText = .ok s ∧
      s.format = .ok "@e[limit=9007199254740993,nbt=\x7ba:[2147483648L,-2147483648]\x7d]" := by
  obtain ⟨hload, -⟩ := load_prints_integers
  obtain ⟨s, lists, hs, hlists, hformat⟩ := hload _ _ "e" _ .entities isWritten_limitsText
    (.object List.mem_cons_self (List.mem_cons_of_mem _ List.mem_cons_self)) (Or.inl rfl)
    takesJson_limitsArguments
  refine ⟨s, hs, hformat.trans ?_⟩
  obtain ⟨limitText, _, hlimit, hrest, rfl⟩ := List.forall₂_cons_left_iff.1 hlists
  obtain ⟨nbtText, _, hnbt, hend, rfl⟩ := List.forall₂_cons_left_iff.1 hrest
  obtain rfl := List.forall₂_nil_left_iff.1 hend
  have hcontains : (Json.object limitsFields).Contains (.number (.integer 2147483648 (by decide))) :=
    .member List.mem_cons_self (.item List.mem_cons_self (.self _))
  rw [hlimit.eq_of_number rfl, hnbt.eq_of_nbt hcontains]
  decide +kernel

end Selector

end TargetSelector
