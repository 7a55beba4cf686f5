import TargetSelector.Proofs.Argument.OfJson
import TargetSelector.Proofs.Json.DistinctNames

/-!
Argument values with distinct names in all of their maps. The conversion from JSON keeps the names of
each object.
-/
namespace TargetSelector

namespace Nbt

mutual

def hasDistinctNames : Nbt → Bool
  | .list items => itemsHaveDistinctNames items
  | .compound fields => decide (OrderedMap.keys fields).Nodup && fieldsHaveDistinctNames fields
  | .byte _ | .short _ | .int _ | .long _ | .float _ | .double _ | .string _ | .byteArray _
  | .intArray _ | .longArray _ => true
termination_by structural n => n

def itemsHaveDistinctNames : List Nbt → Bool
  | [] => true
  | n :: items => n.hasDistinctNames && itemsHaveDistinctNames items
termination_by structural items => items

def fieldsHaveDistinctNames : List (String × Nbt) → Bool
  | [] => true
  | (_, n) :: fields => n.hasDistinctNames && fieldsHaveDistinctNames fields
termination_by structural fields => fields

end

theorem itemsHaveDistinctNames_iff {items : List Nbt} :
    itemsHaveDistinctNames items ↔ ∀ n ∈ items, n.hasDistinctNames := by
  induction items with
  | nil => simp [itemsHaveDistinctNames]
  | cons n items ih => simp [itemsHaveDistinctNames, ih]

theorem fieldsHaveDistinctNames_iff {fields : List (String × Nbt)} :
    fieldsHaveDistinctNames fields ↔ ∀ f ∈ fields, f.2.hasDistinctNames := by
  induction fields with
  | nil => simp [fieldsHaveDistinctNames]
  | cons f fields ih => rw [fieldsHaveDistinctNames, Bool.and_eq_true, ih, List.forall_mem_cons]

theorem hasDistinctNames_list {items : List Nbt} :
    (list items).hasDistinctNames ↔ ∀ n ∈ items, n.hasDistinctNames := by
  rw [hasDistinctNames, itemsHaveDistinctNames_iff]

theorem hasDistinctNames_compound {fields : List (String × Nbt)} :
    (compound fields).hasDistinctNames ↔
      (OrderedMap.keys fields).Nodup ∧ ∀ f ∈ fields, f.2.hasDistinctNames := by
  rw [hasDistinctNames, Bool.and_eq_true, decide_eq_true_eq, fieldsHaveDistinctNames_iff]

private theorem exists_of_ofItems? {items : List Json} {ns : List Nbt}
    (h : ofItems? items = some ns) :
    ∀ n ∈ ns, ∃ v ∈ items, ofJson? v = some n := by
  induction items generalizing ns with
  | nil =>
    cases h
    exact fun n hn => nomatch hn
  | cons v items ih =>
    simp only [ofItems?, Option.bind_eq_bind, Option.bind_eq_some_iff] at h
    obtain ⟨m, hm, ms, hms, h⟩ := h
    cases h
    intro n hn
    rcases List.mem_cons.1 hn with rfl | hn
    · exact ⟨v, List.mem_cons_self, hm⟩
    · obtain ⟨w, hw, hn⟩ := ih hms n hn
      exact ⟨w, List.mem_cons_of_mem v hw, hn⟩

theorem ofMembers?_eq (members : List (String × Json)) :
    ofMembers? members = ArgumentValue.mapMembers? ofJson? members := by
  induction members with
  | nil => rfl
  | cons m members ih => rw [ofMembers?, ArgumentValue.mapMembers?, ih]

theorem hasDistinctNames_of_ofJson? {v : Json} {n : Nbt} (h : ofJson? v = some n)
    (hv : v.hasDistinctNames) : n.hasDistinctNames := by
  induction v generalizing n with
  | null => cases h
  | bool b =>
    cases h
    rfl
  | number x =>
    obtain ⟨rfl⟩ := Option.some.inj h
    split
    · split <;> rfl
    · rfl
  | string s =>
    cases h
    rfl
  | array items ih =>
    obtain ⟨ns, hns, rfl⟩ := Option.map_eq_some_iff.1 h
    apply hasDistinctNames_list.2
    intro m hm
    obtain ⟨w, hw, hm⟩ := exists_of_ofItems? hns m hm
    exact ih w hw hm (Json.hasDistinctNames_array.1 hv w hw)
  | object members ih =>
    obtain ⟨fields, hfields, rfl⟩ := Option.map_eq_some_iff.1 h
    obtain ⟨hnames, hmembers⟩ := Json.hasDistinctNames_object.1 hv
    rw [ofMembers?_eq] at hfields
    refine hasDistinctNames_compound.2 ⟨?_, ?_⟩
    · rw [ArgumentValue.keys_of_mapMembers? hfields]
      exact hnames
    · intro f hf
      obtain ⟨d, hd, hf⟩ := ArgumentValue.exists_of_mapMembers? hfields f hf
      exact ih d hd hf (hmembers d hd)

end Nbt

def Advancement.hasDistinctNames : Advancement → Bool
  | .done _ => true
  | .criteria cs => decide (OrderedMap.keys cs).Nodup

theorem Advancement.hasDistinctNames_criteria {cs : OrderedMap String Bool} :
    (criteria cs).hasDistinctNames ↔ (OrderedMap.keys cs).Nodup := decide_eq_true_iff

namespace ArgumentValue

/-- No map of the value has a name twice, at any depth. -/
def hasDistinctNames : ArgumentValue → Bool
  | .flags m => decide (OrderedMap.keys m).Nodup
  | .scores m => decide (OrderedMap.keys m).Nodup
  | .advancements m =>
    decide (OrderedMap.keys m).Nodup && m.all fun (_, a) => a.hasDistinctNames
  | .nbt n => n.hasDistinctNames
  | .int _ | .float _ | .text _ | .bool _ | .range _ => true

theorem hasDistinctNames_flags {m : OrderedMap String Bool} :
    (flags m).hasDistinctNames ↔ (OrderedMap.keys m).Nodup := decide_eq_true_iff

theorem hasDistinctNames_scores {m : OrderedMap String Range} :
    (scores m).hasDistinctNames ↔ (OrderedMap.keys m).Nodup := decide_eq_true_iff

theorem hasDistinctNames_advancements {m : OrderedMap String Advancement} :
    (advancements m).hasDistinctNames ↔
      (OrderedMap.keys m).Nodup ∧ ∀ e ∈ m, e.2.hasDistinctNames := by
  rw [hasDistinctNames, Bool.and_eq_true, decide_eq_true_eq, List.all_eq_true]

theorem nodup_keys_of_mapMembers? {α : Type} {f : Json → Option α}
    {members : List (String × Json)} {m : OrderedMap String α} (h : mapMembers? f members = some m)
    (hv : (Json.object members).hasDistinctNames) : (OrderedMap.keys m).Nodup := by
  rw [keys_of_mapMembers? h]
  exact (Json.hasDistinctNames_object.1 hv).1

theorem nodup_keys_of_flags? {v : Json} {m : OrderedMap String Bool} (h : flags? v = some m)
    (hv : v.hasDistinctNames) : (OrderedMap.keys m).Nodup := by
  cases v with
  | object members => exact nodup_keys_of_mapMembers? h hv
  | _ => cases h

theorem hasDistinctNames_of_advancement? {v : Json} {a : Advancement} (h : advancement? v = some a)
    (hv : v.hasDistinctNames) : a.hasDistinctNames := by
  unfold advancement? at h
  split at h
  · cases h
    rfl
  · obtain ⟨cs, hcs, rfl⟩ := Option.map_eq_some_iff.1 h
    exact Advancement.hasDistinctNames_criteria.2 (nodup_keys_of_flags? hcs hv)

theorem hasDistinctNames_of_scalar? {v : Json} {a : ArgumentValue} (h : scalar? v = some a) :
    a.hasDistinctNames := by
  cases v with
  | number n =>
    obtain ⟨rfl⟩ := Option.some.inj h
    split <;> rfl
  | string s =>
    cases h
    rfl
  | _ => cases h

theorem hasDistinctNames_of_ofShape? {sh : Shape} {v : Json} {a : ArgumentValue}
    (h : ofShape? sh v = some a) (hv : v.hasDistinctNames) : a.hasDistinctNames := by
  cases sh with
  | scalar =>
    cases v with
    | object members =>
      obtain ⟨r, -, rfl⟩ := Option.map_eq_some_iff.1 h
      rfl
    | _ =>
      unfold ofShape? at h
      exact hasDistinctNames_of_scalar? h
  | scores =>
    cases v with
    | object members =>
      obtain ⟨m, hm, rfl⟩ := Option.map_eq_some_iff.1 h
      exact hasDistinctNames_scores.2 (nodup_keys_of_mapMembers? hm hv)
    | _ => cases h
  | range =>
    obtain ⟨r, -, rfl⟩ := Option.map_eq_some_iff.1 h
    rfl
  | flags =>
    obtain ⟨m, hm, rfl⟩ := Option.map_eq_some_iff.1 h
    exact hasDistinctNames_flags.2 (nodup_keys_of_flags? hm hv)
  | advancements =>
    cases v with
    | object members =>
      obtain ⟨m, hm, rfl⟩ := Option.map_eq_some_iff.1 h
      refine hasDistinctNames_advancements.2 ⟨nodup_keys_of_mapMembers? hm hv, ?_⟩
      intro e he
      obtain ⟨d, hd, he⟩ := exists_of_mapMembers? hm e he
      exact hasDistinctNames_of_advancement? he ((Json.hasDistinctNames_object.1 hv).2 d hd)
    | _ => cases h
  | nbt =>
    cases v with
    | object members =>
      obtain ⟨n, hn, rfl⟩ := Option.map_eq_some_iff.1 h
      exact Nbt.hasDistinctNames_of_ofJson? hn hv
    | _ => cases h
  | anything =>
    cases v with
    | object members =>
      obtain ⟨m, hm, rfl⟩ := Option.map_eq_some_iff.1 h
      exact hasDistinctNames_flags.2 (nodup_keys_of_flags? hm hv)
    | bool b =>
      cases h
      rfl
    | _ =>
      unfold ofShape? at h
      exact hasDistinctNames_of_scalar? h

theorem hasDistinctNames_of_ofJson {key : ArgumentKey} {v : Json} {a : ArgumentValue}
    (h : ofJson key v = .ok a) (hv : v.hasDistinctNames) : a.hasDistinctNames :=
  hasDistinctNames_of_ofShape? (ofJson_eq_ok.1 h) hv

end ArgumentValue

end TargetSelector
