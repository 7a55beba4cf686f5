import TargetSelector.Proofs.Selector.DistinctNames
import TargetSelector.Proofs.Target

/-!
Loading of documents. The layout is checked before the target, and the target before the arguments.
-/
namespace TargetSelector

namespace Selector

theorem ofJson_of_document {v : Json} {d : Document} (h : Document.ofJson v = .ok d) :
    ofJson v = ofDocument d := by
  rw [ofJson, h]
  rfl

private theorem ofDocument_ne_error_layout (d : Document) (e : DecodeError) :
    ofDocument d ≠ .error (.layout e) := by
  unfold ofDocument
  cases Target.parse d.target with
  | error e' => simp [Except.mapError, bind, Except.bind]
  | ok t =>
    cases Document.readArguments d.arguments <;>
      simp [Except.mapError, bind, Except.bind, pure, Except.pure]

private theorem ofJson_eq_error_layout {v : Json} {e : DecodeError} :
    ofJson v = .error (.layout e) ↔ Document.ofJson v = .error e := by
  cases h : Document.ofJson v with
  | error e' =>
    rw [ofJson, h]
    simp [Except.mapError, bind, Except.bind]
  | ok d =>
    rw [ofJson_of_document h]
    exact iff_of_false (ofDocument_ne_error_layout d e) fun h => nomatch h

private theorem ofDocument_eq_error_target {d : Document} {e : UnknownName} :
    ofDocument d = .error (.target e) ↔ Target.parse d.target = .error e := by
  unfold ofDocument
  cases Target.parse d.target with
  | error e' => simp [Except.mapError, bind, Except.bind]
  | ok t =>
    cases Document.readArguments d.arguments <;>
      simp [Except.mapError, bind, Except.bind, pure, Except.pure]

section WrittenTarget

variable {d : Document} {t : Target} (ht : t.IsWritten d.target)
include ht

theorem ofDocument_of_isWritten :
    ofDocument d = ((Document.readArguments d.arguments).mapError .argument).map (mk t ·) := by
  rw [ofDocument, Target.parse_eq_ok.2 ht]
  cases Document.readArguments d.arguments <;> rfl

private theorem ofDocument_eq_error_argument {e : MalformedArgument} :
    ofDocument d = .error (.argument e) ↔ Document.readArguments d.arguments = .error e := by
  rw [ofDocument_of_isWritten ht]
  cases Document.readArguments d.arguments <;> simp [Except.mapError, Except.map]

theorem ofDocument_eq_ok {s : Selector} :
    ofDocument d = .ok s ↔ s.target = t ∧ Document.readArguments d.arguments = .ok s.arguments := by
  rw [ofDocument_of_isWritten ht]
  cases Document.readArguments d.arguments with
  | error e => simp [Except.mapError, Except.map]
  | ok args =>
    obtain ⟨target, arguments⟩ := s
    simp [Except.mapError, Except.map, eq_comm]

end WrittenTarget

section Object

variable {members : List (String × Json)}

/-- Members of other names than the two of a document do not matter, not even to an error. -/
theorem ofJson_filter (members : List (String × Json)) :
    ofJson (.object (members.filter fun m => m.1 = "target" ∨ m.1 = "arguments")) =
      ofJson (.object members) := by
  rw [ofJson, Document.ofJson_filter]
  rfl

theorem exists_error_layout_iff (h : (OrderedMap.keys members).Nodup) :
    (∃ e, ofJson (.object members) = .error (.layout e)) ↔
      (∀ tag, OrderedMap.get? "target" members ≠ some (.string tag)) ∨
      ∃ v, OrderedMap.get? "arguments" members = some v ∧ ∀ args, v ≠ .object args := by
  have hexists : (∃ e, ofJson (.object members) = .error (.layout e)) ↔
      ∀ d, Document.ofJson (.object members) ≠ .ok d := by
    simp only [ofJson_eq_error_layout]
    cases Document.ofJson (.object members) <;> simp
  have hargs : (∀ args, (OrderedMap.get? "arguments" members).getD (.object []) ≠ .object args) ↔
      ∃ v, OrderedMap.get? "arguments" members = some v ∧ ∀ args, v ≠ .object args := by
    cases OrderedMap.get? "arguments" members <;> simp
  rw [hexists, ← hargs]
  constructor
  · intro h'
    by_contra hlayout
    simp only [not_or, not_forall, not_not] at hlayout
    obtain ⟨⟨tag, htag⟩, args, hargs⟩ := hlayout
    exact h' ⟨tag, args⟩ ((Document.ofJson_object_eq_ok h).2 ⟨htag, hargs⟩)
  · rintro (htag | hargs) d hd
    · exact htag _ ((Document.ofJson_object_eq_ok h).1 hd).1
    · exact hargs _ ((Document.ofJson_object_eq_ok h).1 hd).2

section Layout

variable (h : (Json.object members).hasDistinctNames) {tag : String} {args : List (String × Json)}
  (htag : OrderedMap.get? "target" members = some (.string tag))
  (hargs : (OrderedMap.get? "arguments" members).getD (.object []) = .object args)
include h htag hargs

theorem document_ofJson_eq : Document.ofJson (.object members) = .ok ⟨tag, args⟩ :=
  (Document.ofJson_object_eq_ok (Json.hasDistinctNames_object.1 h).1).2 ⟨htag, hargs⟩

theorem nodup_keys_arguments : (OrderedMap.keys args).Nodup := by
  have hdistinct : (Json.object args).hasDistinctNames :=
    Document.hasDistinctNames_of_ofJson (document_ofJson_eq h htag hargs) h
  exact (Json.hasDistinctNames_object.1 hdistinct).1

theorem ofJson_object_eq : ofJson (.object members) = ofDocument ⟨tag, args⟩ :=
  ofJson_of_document (document_ofJson_eq h htag hargs)

private theorem ofJson_object_eq_error_target {e : UnknownName} :
    ofJson (.object members) = .error (.target e) ↔ e = ⟨.target, tag⟩ ∧
      ∀ c ∈ ['p', 'r', 'a', 'e', 's'], tag ≠ String.singleton c ∧ tag ≠ "@" ++ String.singleton c := by
  rw [ofJson_object_eq h htag hargs, ofDocument_eq_error_target, Target.parse_eq_error,
    Target.forall_not_isWritten_iff]

variable {t : Target} (ht : t.IsWritten tag)
include ht

private theorem ofJson_object_eq_error_argument {e : MalformedArgument} :
    ofJson (.object members) = .error (.argument e) ↔
      ∃ before m after, args = before ++ m :: after ∧
        (∀ b ∈ before, ∃ value, ArgumentValue.ofJson (.ofName b.1) b.2 = .ok value) ∧
        ArgumentValue.ofJson (.ofName m.1) m.2 = .error e := by
  rw [ofJson_object_eq h htag hargs, ofDocument_eq_error_argument ht,
    Document.readArguments_eq_error (nodup_keys_arguments h htag hargs)]

theorem ofJson_object_eq_ok {s : Selector} :
    ofJson (.object members) = .ok s ↔ s.target = t ∧
      args.Forall₂ (fun m a => a.1.name = m.1 ∧ ArgumentValue.ofJson (.ofName m.1) m.2 = .ok a.2)
        s.arguments := by
  have hkey : ∀ (m : String × Json) (a : ArgumentKey × ArgumentValue),
      (a.1 = .ofName m.1 ∧ ArgumentValue.ofJson a.1 m.2 = .ok a.2) ↔
        (a.1.name = m.1 ∧ ArgumentValue.ofJson (.ofName m.1) m.2 = .ok a.2) := by
    intro m a
    constructor
    · rintro ⟨hkey, hvalue⟩
      rw [hkey] at hvalue
      exact ⟨by rw [hkey, ArgumentKey.name_ofName], hvalue⟩
    · rintro ⟨hname, hvalue⟩
      rw [← hname, ArgumentKey.ofName_name] at hvalue
      exact ⟨by rw [← hname, ArgumentKey.ofName_name], hvalue⟩
  rw [ofJson_object_eq h htag hargs, ofDocument_eq_ok ht,
    Document.readArguments_eq_ok (nodup_keys_arguments h htag hargs)]
  simp only [hkey]

theorem exists_ofJson_object_eq_ok
    (hvalues : ∀ m ∈ args, ∃ value, ArgumentValue.ofJson (.ofName m.1) m.2 = .ok value) :
    ∃ s, ofJson (.object members) = .ok s := by
  obtain ⟨read, hread⟩ :=
    Document.exists_readArguments_eq_ok (nodup_keys_arguments h htag hargs) hvalues
  refine ⟨⟨t, read⟩, ?_⟩
  rw [ofJson_object_eq h htag hargs]
  exact (ofDocument_eq_ok ht).2 ⟨rfl, hread⟩

end Layout

/-- What an object loads as. The layout, the target and the arguments are looked at in this order, and
the first that is wrong decides the error: a layout error if there is no target text or if the arguments
are no object, then the whole target text if it is no tag, then the error of the first argument that has
one. Else the selector has one argument for each member of the arguments, in order and by name. Members
of other names do not matter. -/
theorem ofJson_object (members : List (String × Json))
    (h : (Json.object members).hasDistinctNames) :
    let tag? := OrderedMap.get? "target" members
    let args? := OrderedMap.get? "arguments" members
    ((∃ e, ofJson (.object members) = .error (.layout e)) ↔
      (∀ tag, tag? ≠ some (.string tag)) ∨ ∃ v, args? = some v ∧ ∀ args, v ≠ .object args) ∧
    (∀ tag args, tag? = some (.string tag) → args?.getD (.object []) = .object args →
      (∀ e, ofJson (.object members) = .error (.target e) ↔ e = ⟨.target, tag⟩ ∧
        ∀ c ∈ ['p', 'r', 'a', 'e', 's'],
          tag ≠ String.singleton c ∧ tag ≠ "@" ++ String.singleton c) ∧
      ∀ t : Target, tag = t.text ∨ tag = "@" ++ t.text →
        (∀ e, ofJson (.object members) = .error (.argument e) ↔
          ∃ before m after, args = before ++ m :: after ∧
            (∀ b ∈ before, ∃ value, ArgumentValue.ofJson (.ofName b.1) b.2 = .ok value) ∧
            ArgumentValue.ofJson (.ofName m.1) m.2 = .error e) ∧
        ((∀ m ∈ args, ∃ value, ArgumentValue.ofJson (.ofName m.1) m.2 = .ok value) →
          ∃ s, ofJson (.object members) = .ok s) ∧
        ∀ s, ofJson (.object members) = .ok s ↔ s.target = t ∧
          args.Forall₂
            (fun m a => a.1.name = m.1 ∧ ArgumentValue.ofJson (.ofName m.1) m.2 = .ok a.2)
            s.arguments) ∧
    ofJson (.object (members.filter fun m => m.1 = "target" ∨ m.1 = "arguments")) =
      ofJson (.object members) := by
  intro tag? args?
  refine ⟨exists_error_layout_iff (Json.hasDistinctNames_object.1 h).1, ?_, ofJson_filter members⟩
  intro tag args htag hargs
  refine ⟨fun e => ofJson_object_eq_error_target h htag hargs, fun t ht => ⟨?_, ?_, ?_⟩⟩
  · exact fun e => ofJson_object_eq_error_argument h htag hargs ht
  · exact exists_ofJson_object_eq_ok h htag hargs ht
  · exact fun s => ofJson_object_eq_ok h htag hargs ht

/-- Arguments that are malformed do not matter to a target that is none, and two arguments of which one
has an unknown name. -/
theorem ofJson_object_strict :
    let args := [("sort", Json.string "nearest"), ("kind", .bool true)]
    let bad := [("arguments", Json.object (("limit", .null) :: args)), ("target", .string "@@e")]
    let good := [("note", Json.null), ("arguments", .object args), ("target", .string "@e")]
    ofJson (.object bad) = .error (.target ⟨.target, "@@e"⟩) ∧
    ∃ s, ofJson (.object good) = .ok s ∧ s.target = .entities ∧ s.arguments.length = 2 := by
  intro args bad good
  constructor
  · obtain ⟨-, hlayout, -⟩ := ofJson_object bad (by decide)
    obtain ⟨htarget, -⟩ := hlayout "@@e" (("limit", .null) :: args) rfl rfl
    refine (htarget _).2 ⟨rfl, ?_⟩
    simp only [List.forall_mem_cons, List.not_mem_nil, false_imp_iff, implies_true, and_true]
    decide
  · obtain ⟨-, hlayout, -⟩ := ofJson_object good (by decide)
    obtain ⟨-, hwritten⟩ := hlayout "@e" args rfl rfl
    obtain ⟨-, hexists, hok⟩ := hwritten .entities (Or.inr rfl)
    have hvalues : ∀ m ∈ args, ∃ value, ArgumentValue.ofJson (.ofName m.1) m.2 = .ok value := by
      rw [List.forall_mem_cons, List.forall_mem_singleton]
      exact ⟨⟨.text "nearest", rfl⟩, ⟨.bool true, rfl⟩⟩
    obtain ⟨s, hs⟩ := hexists hvalues
    obtain ⟨htarget, hargs⟩ := (hok s).1 hs
    exact ⟨s, hs, htarget, hargs.length_eq.symm⟩

end Object

section Loaded

variable {text : String} {v : Json} {d : Document} (hparse : Json.parse text = .ok v)
  (hdoc : Document.ofJson v = .ok d)
include hparse hdoc

theorem nodup_keys_of_parse : (OrderedMap.keys d.arguments).Nodup := by
  have hdistinct : (Json.object d.arguments).hasDistinctNames :=
    Document.hasDistinctNames_of_ofJson hdoc (Json.hasDistinctNames_of_parse hparse)
  exact (Json.hasDistinctNames_object.1 hdistinct).1

theorem load_of_parse : load text = ofDocument d := by
  rw [← ofJson_of_document hdoc, load, hparse]
  rfl

/-- A loaded selector has the argument that a member of the document is converted to. -/
theorem exists_argument_of_load {s : Selector} (h : load text = .ok s) {m : String × Json}
    (hm : m ∈ d.arguments) :
    ∃ a, (ArgumentKey.ofName m.1, a) ∈ s.arguments ∧
      ArgumentValue.ofJson (.ofName m.1) m.2 = .ok a := by
  rw [load_of_parse hparse hdoc] at h
  obtain ⟨t, -, h⟩ := bind_eq_ok.1 h
  obtain ⟨args, hargs, h⟩ := bind_eq_ok.1 h
  cases h
  rw [mapError_eq_ok, Document.readArguments_eq (nodup_keys_of_parse hparse hdoc), mapM_eq_ok] at hargs
  have hmember : Document.readArgument m ∈ args.map .ok := by
    rw [← hargs]
    exact List.mem_map_of_mem hm
  obtain ⟨⟨key, a⟩, ha, hread⟩ := List.mem_map.1 hmember
  obtain ⟨rfl, hvalue⟩ := Document.readArgument_eq_ok.1 hread.symm
  exact ⟨a, ha, hvalue⟩

end Loaded

/-! ### All documents -/

/-- A text that is no list is loaded alike as one document and as all documents, also in error. -/
theorem loadAll_of_not_list {text : String} (h : ∀ docs, Json.parse text ≠ .ok (.array docs)) :
    loadAll text = (load text).map fun s => [s] := by
  rw [loadAll_eq, load]
  cases hparse : Json.parse text with
  | error e => rfl
  | ok v =>
    have hdocs : v.documents = [v] := by
      cases v with
      | array docs => exact absurd hparse (h docs)
      | _ => rfl
    change v.documents.mapM ofJson = (ofJson v).map _
    rw [hdocs, List.mapM_cons, List.mapM_nil]
    cases ofJson v <;> rfl

/-- A list that is one document is none among all documents: its first item is the text of a target. -/
theorem loadAll_of_list {text : String} {docs : List Json} {s : Selector}
    (hparse : Json.parse text = .ok (.array docs)) (h : load text = .ok s) :
    ∃ tag more, docs = .string tag :: more ∧
      loadAll text = .error (.layout (.wrongType (.string tag) "struct SelectorDocument")) := by
  rw [load, hparse] at h
  obtain ⟨d, hd, -⟩ := bind_eq_ok.1 (show ofJson (.array docs) = .ok s from h)
  have hdocs : ∃ more, docs = .string d.target :: more := by
    rcases Document.ofJson_array_eq_ok.1 (mapError_eq_ok.1 hd) with ⟨hdocs, -⟩ | hdocs
    · exact ⟨_, hdocs⟩
    · exact ⟨_, hdocs⟩
  obtain ⟨more, rfl⟩ := hdocs
  refine ⟨d.target, more, rfl, loadAll_eq_error.2 (Or.inr ⟨_, hparse, ?_⟩)⟩
  exact ⟨[], .string d.target, more, rfl, fun _ hb => (nomatch hb), rfl⟩

/-- A text that loads as one document loads as all documents to the same selector, unless it is a list.
The list of a target and arguments is one document, but its items are none. -/
theorem loadAll_of_load {text : String} {s : Selector} (h : load text = .ok s) :
    (loadAll text = .ok [s] ↔ ∀ docs, Json.parse text ≠ .ok (.array docs)) ∧
    ∀ docs, Json.parse text = .ok (.array docs) → ∃ tag more, docs = .string tag :: more ∧
      loadAll text = .error (.layout (.wrongType (.string tag) "struct SelectorDocument")) := by
  refine ⟨⟨?_, ?_⟩, fun docs hparse => loadAll_of_list hparse h⟩
  · intro hall docs hparse
    obtain ⟨tag, more, -, herror⟩ := loadAll_of_list hparse h
    rw [hall] at herror
    cases herror
  · intro hparse
    rw [loadAll_of_not_list hparse, h]
    rfl

theorem loadAll_of_load_list : (∃ s, load "[\"a\"]" = .ok s) ∧ loadAll "[\"a\"]" =
    .error (.layout (.wrongType (.string "a") "struct SelectorDocument")) := by
  have hparse : Json.parse "[\"a\"]" = .ok (.array [.string "a"]) := by with_unfolding_all rfl
  have h : load "[\"a\"]" = .ok ⟨.allPlayers, []⟩ := by
    rw [load, hparse]
    rfl
  obtain ⟨tag, more, hdocs, herror⟩ := (loadAll_of_load h).2 _ hparse
  cases hdocs
  exact ⟨⟨_, h⟩, herror⟩

theorem exists_loadAll_ne_of_load : ∃ text s, load text = .ok s ∧ loadAll text ≠ .ok [s] := by
  have hone : (load "[\"a\"]").isOk = true := by decide +kernel
  have hall : (loadAll "[\"a\"]").isOk = false := by decide +kernel
  cases h : load "[\"a\"]" with
  | error e =>
    rw [h] at hone
    cases hone
  | ok s =>
    refine ⟨_, s, h, fun h' => ?_⟩
    rw [h'] at hall
    cases hall

end Selector

end TargetSelector
