import TargetSelector.Proofs.Argument.DistinctNames
import TargetSelector.Proofs.CommandLine
import TargetSelector.Proofs.Selector.Edits

/-! The arguments of a selector have distinct names, however it was made and edited. -/
namespace TargetSelector

namespace Change

/-- A value with distinct names, or none, is changed to one with distinct names. -/
def KeepsNamesDistinct (c : Change) : Prop :=
  ∀ a?, (∀ a ∈ a?, a.hasDistinctNames) → (c.2 a?).hasDistinctNames

theorem keepsNamesDistinct_const {key : ArgumentKey} {value : ArgumentValue} :
    KeepsNamesDistinct (key, fun _ => value) ↔ value.hasDistinctNames :=
  ⟨fun h => h none (fun _ ha => nomatch ha), fun h _ _ => h⟩

private theorem keepsNamesDistinct_flag (key : KnownKey) (name : String) (on : Bool) :
    (flag key name on).KeepsNamesDistinct := by
  intro a? ha
  simp only [flag]
  split
  · next m =>
    have hm := ArgumentValue.hasDistinctNames_flags.1 (ha _ rfl)
    exact ArgumentValue.hasDistinctNames_flags.2 (OrderedMap.nodup_keys_alter _ _ hm)
  · exact ArgumentValue.hasDistinctNames_flags.2 (List.pairwise_singleton _ _)

private theorem keepsNamesDistinct_score (objective : String) (range : Range) :
    (score objective range).KeepsNamesDistinct := by
  intro a? ha
  simp only [score]
  split
  · next m =>
    have hm := ArgumentValue.hasDistinctNames_scores.1 (ha _ rfl)
    exact ArgumentValue.hasDistinctNames_scores.2 (OrderedMap.nodup_keys_alter _ _ hm)
  · exact ArgumentValue.hasDistinctNames_scores.2 (List.pairwise_singleton _ _)

theorem keepsNamesDistinct_advancement (name : String) {f : Option Advancement → Advancement}
    (hf : ∀ a?, (∀ a ∈ a?, a.hasDistinctNames) → (f a?).hasDistinctNames) :
    (advancement name f).KeepsNamesDistinct := by
  intro a? ha
  simp only [advancement]
  split
  · next m =>
    obtain ⟨hm, hvalues⟩ := ArgumentValue.hasDistinctNames_advancements.1 (ha _ rfl)
    exact ArgumentValue.hasDistinctNames_advancements.2 ⟨OrderedMap.nodup_keys_alter _ _ hm,
      OrderedMap.forall_alter (P := fun a : Advancement => a.hasDistinctNames) hvalues hf⟩
  · have hnone : (f none).hasDistinctNames := hf none fun _ ha => nomatch ha
    refine ArgumentValue.hasDistinctNames_advancements.2 ⟨List.pairwise_singleton _ _, ?_⟩
    intro e he
    rw [List.mem_singleton.1 he]
    exact hnone

theorem hasDistinctNames_criterion (name : String) (met : Bool) (a? : Option Advancement)
    (ha : ∀ a ∈ a?, a.hasDistinctNames) : (criterion name met a?).hasDistinctNames := by
  unfold criterion
  split
  · next cs =>
    have hcs := Advancement.hasDistinctNames_criteria.1 (ha _ rfl)
    exact Advancement.hasDistinctNames_criteria.2 (OrderedMap.nodup_keys_alter _ _ hcs)
  · exact Advancement.hasDistinctNames_criteria.2 (List.pairwise_singleton _ _)

end Change

namespace Edit

/-- The maps and compounds that an edit brings with it have distinct names. -/
def hasDistinctNames : Edit → Bool
  | .nbt n => n.hasDistinctNames
  | .argument _ v => v.hasDistinctNames
  | _ => true

private theorem keepsNamesDistinct_of_mem_changes {e : Edit} (h : e.hasDistinctNames) :
    ∀ c ∈ e.changes, c.KeepsNamesDistinct := by
  cases e with
  | score o r => simp [changes, Change.keepsNamesDistinct_score]
  | advancement n done =>
    have hdone : ∀ a? : Option Advancement, (∀ a ∈ a?, a.hasDistinctNames) →
        (Advancement.done done).hasDistinctNames := fun _ _ => rfl
    simp [changes, Change.keepsNamesDistinct_advancement n hdone]
  | criterion n c met =>
    simp [changes, Change.keepsNamesDistinct_advancement n (Change.hasDistinctNames_criterion c met)]
  | team n on | gamemode g on | name n on | entityType t on | tag n on | predicate n on =>
    simp [changes, Change.keepsNamesDistinct_flag]
  | nbt n =>
    simpa [changes, Change.set, Change.keepsNamesDistinct_const, ArgumentValue.hasDistinctNames,
      hasDistinctNames] using h
  | argument key v => simpa [changes, Change.keepsNamesDistinct_const, hasDistinctNames] using h
  | _ =>
    simp [changes, Change.set, Change.keepsNamesDistinct_const, ArgumentValue.hasDistinctNames,
      ArgumentValue.ofSortOrder]

end Edit

namespace Document

theorem hasDistinctNames_of_ofJson {v : Json} {d : Document} (h : Document.ofJson v = .ok d)
    (hv : v.hasDistinctNames) : (Json.object d.arguments).hasDistinctNames := by
  have hempty : (Json.object []).hasDistinctNames := rfl
  cases v with
  | object members =>
    obtain ⟨hnames, hvalues⟩ := Json.hasDistinctNames_object.1 hv
    obtain ⟨-, hargs⟩ := (ofJson_object_eq_ok hnames).1 h
    cases hget : OrderedMap.get? "arguments" members with
    | none =>
      rw [hget] at hargs
      rwa [← Json.object.inj hargs]
    | some v =>
      rw [hget] at hargs
      rw [← hargs]
      exact hvalues _ ((OrderedMap.mem_iff_get? hnames).2 hget)
  | array items =>
    rcases ofJson_array_eq_ok.1 h with ⟨-, hnil⟩ | rfl
    · rwa [hnil]
    · exact Json.hasDistinctNames_array.1 hv _ (by simp)
  | _ => cases h

private theorem names_of_readArguments {members : List (String × Json)} {args : Arguments}
    (hnames : (OrderedMap.keys members).Nodup) (h : readArguments members = .ok args) :
    (OrderedMap.keys args).map ArgumentKey.name = OrderedMap.keys members := by
  have hargs := (readArguments_eq_ok hnames).1 h
  clear hnames h
  induction hargs with
  | nil => rfl
  | cons hargument _ ih =>
    rw [OrderedMap.keys_cons, OrderedMap.keys_cons, List.map_cons, ih, hargument.1,
      ArgumentKey.name_ofName]

theorem hasDistinctNames_of_readArguments {members : List (String × Json)} {args : Arguments}
    (h : readArguments members = .ok args) (hv : ∀ m ∈ members, m.2.hasDistinctNames) :
    ∀ a ∈ args, a.2.hasDistinctNames := by
  intro a ha
  obtain ⟨m, hm, -, hread⟩ := exists_of_readArguments h a ha
  exact ArgumentValue.hasDistinctNames_of_ofJson hread (hv m hm)

end Document

private theorem Json.hasDistinctNames_of_mem_documents {v d : Json} (hv : v.hasDistinctNames)
    (hd : d ∈ v.documents) : d.hasDistinctNames := by
  cases v with
  | array docs => exact hasDistinctNames_array.1 hv d hd
  | _ =>
    rw [List.mem_singleton.1 hd]
    exact hv

namespace Selector

/-- The selectors that edits start from: one without arguments, and what is loaded. A value of JSON
that is loaded as it stands has maps for its objects, so that they repeat no name. -/
inductive Origin : Selector → Prop where
  | new (t : Target) : Origin (new t)
  | ofJson {v : Json} {s : Selector} (hv : v.hasDistinctNames) (h : ofJson v = .ok s) : Origin s
  | load {text : String} {s : Selector} (h : load text = .ok s) : Origin s
  | loadAll {text : String} {selectors : List Selector} {s : Selector}
    (h : loadAll text = .ok selectors) (hs : s ∈ selectors) : Origin s

theorem exists_readArguments_of_ofJson {v : Json} {s : Selector} (h : ofJson v = .ok s)
    (hv : v.hasDistinctNames) : ∃ members, (Json.object members).hasDistinctNames ∧
      Document.readArguments members = .ok s.arguments := by
  obtain ⟨d, hd, h⟩ := bind_eq_ok.1 h
  obtain ⟨target, -, h⟩ := bind_eq_ok.1 h
  obtain ⟨args, hargs, h⟩ := bind_eq_ok.1 h
  cases h
  exact ⟨d.arguments, Document.hasDistinctNames_of_ofJson (mapError_eq_ok.1 hd) hv,
    mapError_eq_ok.1 hargs⟩

theorem Origin.exists_readArguments {s : Selector} (h : s.Origin) :
    ∃ members, (Json.object members).hasDistinctNames ∧
      Document.readArguments members = .ok s.arguments := by
  cases h with
  | new t => exact ⟨[], rfl, rfl⟩
  | ofJson hv h => exact exists_readArguments_of_ofJson h hv
  | load h =>
    obtain ⟨v, hparse, h⟩ := bind_eq_ok.1 h
    exact exists_readArguments_of_ofJson h (Json.hasDistinctNames_of_parse (mapError_eq_ok.1 hparse))
  | loadAll h hs =>
    obtain ⟨v, hparse, hdocs⟩ := loadAll_eq_ok.1 h
    have hmem : .ok s ∈ v.documents.map Selector.ofJson := hdocs ▸ List.mem_map_of_mem hs
    obtain ⟨d, hd, hload⟩ := List.mem_map.1 hmem
    have hv : v.hasDistinctNames := Json.hasDistinctNames_of_parse hparse
    exact exists_readArguments_of_ofJson hload (Json.hasDistinctNames_of_mem_documents hv hd)

theorem Origin.nodup_keys {s : Selector} (h : s.Origin) : (OrderedMap.keys s.arguments).Nodup := by
  obtain ⟨members, hmembers, hread⟩ := h.exists_readArguments
  have hnames : ((OrderedMap.keys s.arguments).map ArgumentKey.name).Nodup := by
    rw [Document.names_of_readArguments (Json.hasDistinctNames_object.1 hmembers).1 hread]
    exact (Json.hasDistinctNames_object.1 hmembers).1
  exact List.Pairwise.of_map ArgumentKey.name (fun _ _ hne h => hne (congrArg _ h)) hnames

theorem Origin.hasDistinctNames {s : Selector} (h : s.Origin) :
    ∀ a ∈ s.arguments, a.2.hasDistinctNames := by
  obtain ⟨members, hmembers, hread⟩ := h.exists_readArguments
  exact Document.hasDistinctNames_of_readArguments hread (Json.hasDistinctNames_object.1 hmembers).2

theorem hasDistinctNames_apply {s : Selector} {e : Edit} (he : e.hasDistinctNames)
    (h : ∀ a ∈ s.arguments, a.2.hasDistinctNames) :
    ∀ a ∈ (s.apply e).arguments, a.2.hasDistinctNames := by
  refine List.foldlRecOn (motive := fun args : Arguments => ∀ a ∈ args, a.2.hasDistinctNames)
    e.changes _ h ?_
  intro args hargs c hc
  exact OrderedMap.forall_alter (P := fun a : ArgumentValue => a.hasDistinctNames) hargs
    (Edit.keepsNamesDistinct_of_mem_changes he c hc)

theorem hasDistinctNames_run {s : Selector} {es : List Edit} (hes : ∀ e ∈ es, e.hasDistinctNames)
    (h : ∀ a ∈ s.arguments, a.2.hasDistinctNames) :
    ∀ a ∈ (s.run es).arguments, a.2.hasDistinctNames :=
  List.foldlRecOn (motive := fun s : Selector => ∀ a ∈ s.arguments, a.2.hasDistinctNames) es _ h
    fun _ hs e he => hasDistinctNames_apply (hes e he) hs

/-- The arguments of a selector have distinct names after any edits. Each of its keys is the key of its
name, so that no other key has a recognised name, and an edit may give a key or its name. The maps
within the arguments have distinct names as well, unless an edit brings one with it that has not. -/
theorem nodup_names_run {s₀ : Selector} (h₀ : s₀.Origin) (es : List Edit) :
    let s := s₀.run es
    ((OrderedMap.keys s.arguments).map ArgumentKey.name).Nodup ∧
    (∀ key ∈ OrderedMap.keys s.arguments, ArgumentKey.ofName key.name = key) ∧
    (∀ name unknown, .other name unknown ∈ OrderedMap.keys s.arguments →
      ∀ k : KnownKey, k.text ≠ name) ∧
    (∀ name, (ArgumentKey.ofName name).name = name) ∧
    (∀ key value, s.apply (.argument (.ofName key.name) value) = s.apply (.argument key value)) ∧
    ((∀ e ∈ es, e.hasDistinctNames) → ∀ a ∈ s.arguments, a.2.hasDistinctNames) := by
  intro s
  have hkeys : (OrderedMap.keys s.arguments).Nodup := nodup_keys_run es h₀.nodup_keys
  refine ⟨?_, fun key _ => ArgumentKey.ofName_name key, ?_, ArgumentKey.name_ofName, ?_, ?_⟩
  · exact List.Pairwise.map ArgumentKey.name
      (fun _ _ hne h => hne (ArgumentKey.name_injective h)) hkeys
  · intro name unknown _ k hk
    rw [← hk, KnownKey.ofText?_text] at unknown
    cases unknown
  · intro key value
    rw [ArgumentKey.ofName_name]
  · exact fun hes => hasDistinctNames_run hes h₀.hasDistinctNames

/-- Names that a document repeats, a key that is given by name and then as such, and edits that merge. -/
theorem nodup_names_run_repeated :
    let text := "\x7b\"target\":\"e\",\"arguments\":\x7b\"tag\":\x7b\"a\":true,\"a\":false\x7d," ++
      "\"kind\":1,\"kind\":2\x7d\x7d"
    let es : List Edit := [.tag "a" true, .argument (.ofName "limit") (.int 3), .limit 1,
      .criterion "story" "root" true, .nbt (.compound [("a", .byte 1), ("b", .byte 2)])]
    ∃ s₀, load text = .ok s₀ ∧
      ((OrderedMap.keys (s₀.run es).arguments).map ArgumentKey.name).Nodup ∧
      ∀ a ∈ (s₀.run es).arguments, a.2.hasDistinctNames := by
  intro text es
  have hok : (load text).isOk = true := by decide +kernel
  cases h : load text with
  | error e =>
    rw [h] at hok
    cases hok
  | ok s₀ =>
    have hes : ∀ e ∈ es, e.hasDistinctNames := by decide
    obtain ⟨hnames, -, -, -, -, hvalues⟩ := nodup_names_run (.load h) es
    exact ⟨s₀, rfl, hnames, hvalues hes⟩

end Selector

end TargetSelector
