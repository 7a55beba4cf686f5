import TargetSelector.Proofs.Argument.DistinctNames
import TargetSelector.Proofs.Argument.Table

/-!
The JSON that each key takes. A value is converted if it has the shape of its key all through, and
refused otherwise.
-/
namespace TargetSelector

namespace Json

/-- A value contains itself, and what a part of it contains. -/
inductive Contains : Json → Json → Prop where
  | self (v : Json) : Contains v v
  | item {v w : Json} {items : List Json} (hw : w ∈ items) (h : Contains w v) :
    Contains (.array items) v
  | member {v : Json} {m : String × Json} {members : List (String × Json)} (hm : m ∈ members)
    (h : Contains m.2 v) : Contains (.object members) v

private theorem array_contains_null {items : List Json} :
    (array items).Contains .null ↔ ∃ v ∈ items, v.Contains .null := by
  constructor
  · intro h
    cases h with
    | item hw h => exact ⟨_, hw, h⟩
  · rintro ⟨v, hv, h⟩
    exact .item hv h

private theorem object_contains_null {members : List (String × Json)} :
    (object members).Contains .null ↔ ∃ m ∈ members, m.2.Contains .null := by
  constructor
  · intro h
    cases h with
    | member hm h => exact ⟨_, hm, h⟩
  · rintro ⟨m, hm, h⟩
    exact .member hm h

/-- A number, or an object with a number for a bound and no bound of another kind. A bound that is null
is none, and other members do not matter. -/
def IsRange : Json → Prop
  | .number _ => True
  | .object members =>
    (∀ name ∈ ["min", "max"], ∀ v, OrderedMap.get? name members = some v →
      v = .null ∨ ∃ n, v = .number n) ∧
    ∃ name ∈ ["min", "max"], ∃ n, OrderedMap.get? name members = some (.number n)
  | _ => False

def IsFlags (v : Json) : Prop :=
  ∃ members, v = .object members ∧ ∀ m ∈ members, ∃ b, m.2 = .bool b

end Json

namespace Range

theorem exists_bound_iff {name : String} {members : List (String × Json)} :
    (∃ x?, bound name members = .ok x?) ↔
      ∀ v, OrderedMap.get? name members = some v → v = .null ∨ ∃ n, v = .number n := by
  unfold bound
  cases OrderedMap.get? name members with
  | none => simp
  | some v => cases v <;> simp

theorem exists_bound_some_iff {name : String} {members : List (String × Json)} :
    (∃ x, bound name members = .ok (some x)) ↔
      ∃ n, OrderedMap.get? name members = some (.number n) := by
  unfold bound
  cases OrderedMap.get? name members with
  | none => simp
  | some v => cases v <;> simp

theorem exists_ofJson_object_iff {members : List (String × Json)} :
    (∃ r, ofJson (.object members) = .ok r) ↔
      ((∃ x?, bound "min" members = .ok x?) ∧ ∃ x?, bound "max" members = .ok x?) ∧
      ((∃ x, bound "min" members = .ok (some x)) ∨ ∃ x, bound "max" members = .ok (some x)) := by
  simp only [ofJson]
  cases bound "min" members with
  | error e => simp [bind, Except.bind]
  | ok lo =>
    cases bound "max" members with
    | error e => simp [bind, Except.bind]
    | ok hi => cases lo <;> cases hi <;> simp [bind, Except.bind, ofBounds?, pure, Except.pure]

theorem exists_ofJson_iff {v : Json} : (∃ r, ofJson v = .ok r) ↔ v.IsRange := by
  cases v with
  | number n => simp [ofJson, Json.IsRange]
  | object members =>
    simp [exists_ofJson_object_iff, exists_bound_iff, exists_bound_some_iff, Json.IsRange]
  | _ => simp [ofJson, Json.IsRange]

end Range

namespace ArgumentValue

theorem isSome_range?_iff {v : Json} : (range? v).isSome ↔ v.IsRange := by
  rw [← Range.exists_ofJson_iff, range?]
  cases Range.ofJson v <;> simp [Except.toOption]

theorem isSome_mapMembers?_iff {α : Type} {f : Json → Option α} {members : List (String × Json)} :
    (mapMembers? f members).isSome ↔ ∀ m ∈ members, (f m.2).isSome := by
  induction members with
  | nil => simp [mapMembers?]
  | cons member members ih =>
    obtain ⟨name, v⟩ := member
    rw [List.forall_mem_cons, ← ih, mapMembers?]
    cases f v with
    | none => simp
    | some a => cases mapMembers? f members <;> simp

theorem isSome_flags?_iff {v : Json} : (flags? v).isSome ↔ v.IsFlags := by
  have hbool : ∀ w : Json, (bool? w).isSome ↔ ∃ b, w = .bool b := by
    intro w
    cases w <;> simp [bool?]
  cases v with
  | object members => simp [flags?, isSome_mapMembers?_iff, hbool, Json.IsFlags]
  | _ => simp [flags?, Json.IsFlags]

theorem isSome_advancement?_iff {v : Json} :
    (advancement? v).isSome ↔ (∃ b, v = .bool b) ∨ v.IsFlags := by
  rw [← isSome_flags?_iff]
  cases v <;> simp [advancement?, flags?]

end ArgumentValue

namespace Nbt

theorem isSome_ofItems?_iff {items : List Json} :
    (ofItems? items).isSome ↔ ∀ v ∈ items, (ofJson? v).isSome := by
  induction items with
  | nil => simp [ofItems?]
  | cons v items ih =>
    rw [List.forall_mem_cons, ← ih, ofItems?]
    cases ofJson? v with
    | none => simp
    | some n => cases ofItems? items <;> simp

theorem isSome_ofJson?_iff {v : Json} : (ofJson? v).isSome ↔ ¬ v.Contains .null := by
  induction v with
  | null => exact iff_of_false (fun h => nomatch h) fun h => h (.self .null)
  | bool b => exact iff_of_true rfl fun h => nomatch h
  | number n => exact iff_of_true rfl fun h => nomatch h
  | string s => exact iff_of_true rfl fun h => nomatch h
  | array items ih =>
    rw [ofJson?, Option.isSome_map, isSome_ofItems?_iff, Json.array_contains_null]
    simp only [not_exists, not_and]
    exact forall₂_congr ih
  | object members ih =>
    rw [ofJson?, Option.isSome_map, ofMembers?_eq, ArgumentValue.isSome_mapMembers?_iff,
      Json.object_contains_null]
    simp only [not_exists, not_and]
    exact forall₂_congr ih

end Nbt

/-- The JSON that a key takes. -/
inductive ArgumentKey.TakesJson : ArgumentKey → Json → Prop where
  | number {k : KnownKey} (hk : k ∈ Shape.scalar.keys) (n : JsonNumber) :
    TakesJson (.known k) (.number n)
  | string {k : KnownKey} (hk : k ∈ Shape.scalar.keys) (s : String) :
    TakesJson (.known k) (.string s)
  | range {k : KnownKey} (hk : k ∈ Shape.scalar.keys ++ Shape.range.keys) {v : Json}
    (hv : v.IsRange) : TakesJson (.known k) v
  | scores {members : List (String × Json)} (hm : ∀ m ∈ members, m.2.IsRange) :
    TakesJson (.known .scores) (.object members)
  | flags {k : KnownKey} (hk : k ∈ Shape.flags.keys) {v : Json} (hv : v.IsFlags) :
    TakesJson (.known k) v
  | advancements {members : List (String × Json)}
    (hm : ∀ m ∈ members, (∃ b, m.2 = .bool b) ∨ m.2.IsFlags) :
    TakesJson (.known .advancements) (.object members)
  | nbt {members : List (String × Json)} (hm : ¬ (Json.object members).Contains .null) :
    TakesJson (.known .nbt) (.object members)
  | otherBool (name : String) (unknown : KnownKey.ofText? name = none) (b : Bool) :
    TakesJson (.other name unknown) (.bool b)
  | otherNumber (name : String) (unknown : KnownKey.ofText? name = none) (n : JsonNumber) :
    TakesJson (.other name unknown) (.number n)
  | otherString (name : String) (unknown : KnownKey.ofText? name = none) (s : String) :
    TakesJson (.other name unknown) (.string s)
  | otherFlags (name : String) (unknown : KnownKey.ofText? name = none) {v : Json}
    (hv : v.IsFlags) : TakesJson (.other name unknown) v

namespace ArgumentValue

section Shapes

variable {v : Json} {members : List (String × Json)}

-- Each shape is read off `ofShape?` by `rfl`: its equations cover all pairs of a shape and a kind of
-- JSON, and making them takes longer than these proofs.
theorem isSome_ofShape?_scalar :
    (ofShape? .scalar (.object members)).isSome ↔ (Json.object members).IsRange := by
  have hconv : ofShape? .scalar (.object members) = (range? (.object members)).map .range := rfl
  rw [hconv, Option.isSome_map, isSome_range?_iff]

theorem isSome_ofShape?_scores :
    (ofShape? .scores (.object members)).isSome ↔ ∀ m ∈ members, m.2.IsRange := by
  have hconv : ofShape? .scores (.object members) = (mapMembers? range? members).map .scores := rfl
  rw [hconv, Option.isSome_map, isSome_mapMembers?_iff]
  exact forall₂_congr fun _ _ => isSome_range?_iff

theorem isSome_ofShape?_range : (ofShape? .range v).isSome ↔ v.IsRange := by
  have hconv : ofShape? .range v = (range? v).map .range := rfl
  rw [hconv, Option.isSome_map, isSome_range?_iff]

theorem isSome_ofShape?_flags : (ofShape? .flags v).isSome ↔ v.IsFlags := by
  have hconv : ofShape? .flags v = (flags? v).map .flags := rfl
  rw [hconv, Option.isSome_map, isSome_flags?_iff]

theorem isSome_ofShape?_advancements :
    (ofShape? .advancements (.object members)).isSome ↔
      ∀ m ∈ members, (∃ b, m.2 = .bool b) ∨ m.2.IsFlags := by
  have hconv : ofShape? .advancements (.object members) =
    (mapMembers? advancement? members).map .advancements := rfl
  rw [hconv, Option.isSome_map, isSome_mapMembers?_iff]
  exact forall₂_congr fun _ _ => isSome_advancement?_iff

theorem isSome_ofShape?_nbt :
    (ofShape? .nbt (.object members)).isSome ↔ ¬ (Json.object members).Contains .null := by
  have hconv : ofShape? .nbt (.object members) = (Nbt.ofJson? (.object members)).map .nbt := rfl
  rw [hconv, Option.isSome_map, Nbt.isSome_ofJson?_iff]

theorem isSome_ofShape?_anything :
    (ofShape? .anything (.object members)).isSome ↔ (Json.object members).IsFlags := by
  have hconv : ofShape? .anything (.object members) = (flags? (.object members)).map .flags := rfl
  rw [hconv, Option.isSome_map, isSome_flags?_iff]

end Shapes

theorem isSome_of_takesJson {key : ArgumentKey} {v : Json} (h : key.TakesJson v) :
    (ofShape? key.shape v).isSome := by
  cases h with
  | number hk n | string hk s => rw [ArgumentKey.shape, Shape.mem_keys_iff.1 hk]; rfl
  | range hk hv =>
    rcases List.mem_append.1 hk with hk | hk
    · rw [ArgumentKey.shape, Shape.mem_keys_iff.1 hk]
      cases v with
      | number n => rfl
      | object members => exact isSome_ofShape?_scalar.2 hv
      | _ => cases hv
    · rw [ArgumentKey.shape, Shape.mem_keys_iff.1 hk]
      exact isSome_ofShape?_range.2 hv
  | scores hm => exact isSome_ofShape?_scores.2 hm
  | flags hk hv =>
    rw [ArgumentKey.shape, Shape.mem_keys_iff.1 hk]
    exact isSome_ofShape?_flags.2 hv
  | advancements hm => exact isSome_ofShape?_advancements.2 hm
  | nbt hm => exact isSome_ofShape?_nbt.2 hm
  | otherBool name unknown b => rfl
  | otherNumber name unknown n => rfl
  | otherString name unknown s => rfl
  | otherFlags name unknown hv =>
    obtain ⟨members, rfl, -⟩ := id hv
    exact isSome_ofShape?_anything.2 hv

private theorem takesJson_of_isSome {key : ArgumentKey} {v : Json}
    (h : (ofShape? key.shape v).isSome) :
    key.TakesJson v := by
  cases key with
  | other name unknown =>
    cases v with
    | bool b => exact .otherBool name unknown b
    | number n => exact .otherNumber name unknown n
    | string s => exact .otherString name unknown s
    | object members => exact .otherFlags name unknown (isSome_ofShape?_anything.1 h)
    | _ => cases h
  | known k =>
    rw [ArgumentKey.shape] at h
    have hk : k ∈ k.shape.keys := Shape.mem_keys_iff.2 rfl
    generalize k.shape = sh at h hk
    cases sh with
    | scalar =>
      cases v with
      | number n => exact .number hk n
      | string s => exact .string hk s
      | object members =>
        exact .range (List.mem_append_left _ hk) (isSome_ofShape?_scalar.1 h)
      | _ => cases h
    | scores =>
      obtain rfl := List.mem_singleton.1 hk
      cases v with
      | object members => exact .scores (isSome_ofShape?_scores.1 h)
      | _ => cases h
    | range => exact .range (List.mem_append_right _ hk) (isSome_ofShape?_range.1 h)
    | flags => exact .flags hk (isSome_ofShape?_flags.1 h)
    | advancements =>
      obtain rfl := List.mem_singleton.1 hk
      cases v with
      | object members => exact .advancements (isSome_ofShape?_advancements.1 h)
      | _ => cases h
    | nbt =>
      obtain rfl := List.mem_singleton.1 hk
      cases v with
      | object members => exact .nbt (isSome_ofShape?_nbt.1 h)
      | _ => cases h
    | anything => cases hk

end ArgumentValue

/-- Criteria have the names of the JSON in their order. -/
inductive Advancement.KeepsNames : Advancement → Json → Prop where
  | done (b : Bool) : KeepsNames (.done b) (.bool b)
  | criteria {cs : OrderedMap String Bool} {members : List (String × Json)}
    (h : OrderedMap.keys cs = OrderedMap.keys members) : KeepsNames (.criteria cs) (.object members)

namespace ArgumentValue

/-- A map has the names of the JSON in their order. A range is no map, though it may stand for an
object. -/
inductive KeepsNames : ArgumentValue → Json → Prop where
  | int (i : Int64) (n : JsonNumber) : KeepsNames (.int i) (.number n)
  | float (x : Binary64) (n : JsonNumber) : KeepsNames (.float x) (.number n)
  | text (s : String) : KeepsNames (.text s) (.string s)
  | bool (b : Bool) : KeepsNames (.bool b) (.bool b)
  | range (r : Range) (v : Json) : KeepsNames (.range r) v
  | flags {m : OrderedMap String Bool} {members : List (String × Json)}
    (h : OrderedMap.keys m = OrderedMap.keys members) : KeepsNames (.flags m) (.object members)
  | scores {m : OrderedMap String Range} {members : List (String × Json)}
    (h : OrderedMap.keys m = OrderedMap.keys members) : KeepsNames (.scores m) (.object members)
  | advancements {m : OrderedMap String Advancement} {members : List (String × Json)}
    (h : OrderedMap.keys m = OrderedMap.keys members)
    (hvalues : members.Forall₂ (fun d e => e.2.KeepsNames d.2) m) :
    KeepsNames (.advancements m) (.object members)
  | nbt {fields : List (String × Nbt)} {members : List (String × Json)}
    (h : OrderedMap.keys fields = OrderedMap.keys members) :
    KeepsNames (.nbt (.compound fields)) (.object members)

theorem keepsNames_of_flags? {v : Json} {m : OrderedMap String Bool} (h : flags? v = some m) :
    ∃ members, v = .object members ∧ OrderedMap.keys m = OrderedMap.keys members := by
  cases v with
  | object members => exact ⟨members, rfl, keys_of_mapMembers? h⟩
  | _ => cases h

private theorem keepsNames_of_advancement? {v : Json} {a : Advancement}
    (h : advancement? v = some a) :
    a.KeepsNames v := by
  unfold advancement? at h
  split at h
  · cases h
    exact .done _
  · obtain ⟨cs, hcs, rfl⟩ := Option.map_eq_some_iff.1 h
    obtain ⟨members, rfl, hnames⟩ := keepsNames_of_flags? hcs
    exact .criteria hnames

theorem keepsNames_of_scalar? {v : Json} {a : ArgumentValue} (h : scalar? v = some a) :
    a.KeepsNames v := by
  cases v with
  | number n =>
    obtain ⟨rfl⟩ := Option.some.inj h
    cases n.toInt64? with
    | none => exact .float _ n
    | some i => exact .int i n
  | string s =>
    cases h
    exact .text s
  | _ => cases h

private theorem keepsNames_of_ofShape? {sh : Shape} {v : Json} {a : ArgumentValue}
    (h : ofShape? sh v = some a) : a.KeepsNames v := by
  cases sh with
  | scalar =>
    cases v with
    | object members =>
      obtain ⟨r, -, rfl⟩ := Option.map_eq_some_iff.1 h
      exact .range r _
    | _ =>
      unfold ofShape? at h
      exact keepsNames_of_scalar? h
  | scores =>
    cases v with
    | object members =>
      obtain ⟨m, hm, rfl⟩ := Option.map_eq_some_iff.1 h
      exact .scores (keys_of_mapMembers? hm)
    | _ => cases h
  | range =>
    obtain ⟨r, -, rfl⟩ := Option.map_eq_some_iff.1 h
    exact .range r v
  | flags =>
    obtain ⟨m, hm, rfl⟩ := Option.map_eq_some_iff.1 h
    obtain ⟨members, rfl, hnames⟩ := keepsNames_of_flags? hm
    exact .flags hnames
  | advancements =>
    cases v with
    | object members =>
      obtain ⟨m, hm, rfl⟩ := Option.map_eq_some_iff.1 h
      have hentries := mapMembers?_eq_some.1 hm
      exact .advancements (keys_of_mapMembers? hm)
        (hentries.imp fun _ _ h => keepsNames_of_advancement? h.2)
    | _ => cases h
  | nbt =>
    cases v with
    | object members =>
      obtain ⟨n, hn, rfl⟩ := Option.map_eq_some_iff.1 h
      obtain ⟨fields, hfields, rfl⟩ := Option.map_eq_some_iff.1 hn
      rw [Nbt.ofMembers?_eq] at hfields
      exact .nbt (keys_of_mapMembers? hfields)
    | _ => cases h
  | anything =>
    cases v with
    | object members =>
      obtain ⟨m, hm, rfl⟩ := Option.map_eq_some_iff.1 h
      exact .flags (keys_of_mapMembers? hm)
    | bool b =>
      cases h
      exact .bool b
    | _ =>
      unfold ofShape? at h
      exact keepsNames_of_scalar? h

/-- A key takes exactly the JSON of its shape, and refuses any other in its own name. A map that it
makes has the names of the JSON in their order. -/
theorem ofJson_by_shape (key : ArgumentKey) (v : Json) :
    ((∃ a, ofJson key v = .ok a) ↔ key.TakesJson v) ∧
    (∀ a, ofJson key v = .ok a → a.KeepsNames v) ∧
    ∀ e, ofJson key v = .error e ↔ ¬ key.TakesJson v ∧ e.key = key ∧
      e.message = "malformed argument `" ++ key.name ++ "`: expected " ++ key.shape.expected := by
  have htakes : (ofShape? key.shape v).isSome ↔ key.TakesJson v :=
    ⟨takesJson_of_isSome, isSome_of_takesJson⟩
  refine ⟨?_, fun a ha => keepsNames_of_ofShape? (ofJson_eq_ok.1 ha), ?_⟩
  · rw [← htakes, Option.isSome_iff_exists]
    exact exists_congr fun a => ofJson_eq_ok
  · intro e
    rw [← htakes, ofJson_eq_error, Option.not_isSome_iff_eq_none]
    constructor
    · rintro ⟨hnone, rfl⟩
      exact ⟨hnone, rfl, rfl⟩
    · rintro ⟨hnone, rfl, -⟩
      exact ⟨hnone, rfl⟩

/-- An advancement that is done beside one with a criterion, and a null within criteria. -/
theorem ofJson_by_shape_criteria :
    let key := ArgumentKey.known .advancements
    let good := Json.object [("root", .bool true), ("story", .object [("wood", .bool false)])]
    let bad := Json.object [("root", .bool true), ("story", .object [("wood", .null)])]
    (∃ a, ofJson key good = .ok a ∧ a.KeepsNames good) ∧ ofJson key bad = .error ⟨key⟩ := by
  intro key good bad
  obtain ⟨htakes, hnames, -⟩ := ofJson_by_shape key good
  obtain ⟨-, -, herror⟩ := ofJson_by_shape key bad
  have hgood : key.TakesJson good := by
    refine .advancements ?_
    rw [List.forall_mem_cons, List.forall_mem_singleton]
    exact ⟨Or.inl ⟨true, rfl⟩, Or.inr ⟨_, rfl, List.forall_mem_singleton.2 ⟨false, rfl⟩⟩⟩
  have hbad : ¬ key.TakesJson bad := fun h => nomatch isSome_of_takesJson h
  obtain ⟨a, ha⟩ := htakes.2 hgood
  exact ⟨⟨a, ha, hnames a ha⟩, (herror _).2 ⟨hbad, rfl, rfl⟩⟩

end ArgumentValue

end TargetSelector
