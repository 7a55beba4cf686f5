import TargetSelector.Proofs.Selector.Document
import TargetSelector.Proofs.Selector.Edits

/-!
The only fault of a selector made by typed edits is a number that is not finite. Of the numbers that
edits store at one place, the last ones count.
-/
namespace TargetSelector

namespace KnownKey

def coordinates : List KnownKey := [.x, .y, .z, .dx, .dy, .dz]

def ranges : List KnownKey := [.distance, .level, .xRotation, .yRotation]

/-- The numbers of a value that have to be finite under a key: a coordinate or an extent, the bounds of
a range, and the bounds of the range of every score. -/
def numbers (k : KnownKey) : ArgumentValue → List Binary64
  | .float v => if k ∈ coordinates then [v] else []
  | .range r => if k ∈ ranges then r.bounds else []
  | .scores m => if k = .scores then m.flatMap fun e => e.2.bounds else []
  | _ => []

end KnownKey

namespace Edit

/-- Every edit but the one that sets an argument to any value. -/
def isTyped : Edit → Bool
  | .argument _ _ => false
  | _ => true

/-- What typed edits leave under a key. -/
inductive Leaves : ArgumentKey → ArgumentValue → Prop where
  | coordinate {k : KnownKey} (hk : k ∈ KnownKey.coordinates) (v : Binary64) :
    Leaves (.known k) (.float v)
  | range {k : KnownKey} (hk : k ∈ KnownKey.ranges) (r : Range) : Leaves (.known k) (.range r)
  | limit (n : Int64) : Leaves (.known .limit) (.int n)
  | sort (s : String) : Leaves (.known .sort) (.text s)
  | scores {m : OrderedMap String Range} (hm : (OrderedMap.keys m).Nodup) :
    Leaves (.known .scores) (.scores m)
  | flags {k : KnownKey} (hk : k.shape = .flags) (m : OrderedMap String Bool) :
    Leaves (.known k) (.flags m)
  | advancements (m : OrderedMap String Advancement) :
    Leaves (.known .advancements) (.advancements m)
  | nbt (n : Nbt) : Leaves (.known .nbt) (.nbt n)

private theorem Leaves.exists_known {key : ArgumentKey} {v : ArgumentValue} (h : Leaves key v) :
    ∃ k, key = .known k := by
  cases h <;> exact ⟨_, rfl⟩

theorem Leaves.admits_iff {k : KnownKey} {v : ArgumentValue} (h : Leaves (.known k) v) :
    k.shape.admits v ↔ ∀ x ∈ k.numbers v, x.isFinite := by
  cases h with
  | coordinate hk v =>
    have hshape : k.shape = .scalar := by
      revert hk
      cases k <;> decide
    simp [hshape, Shape.admits, KnownKey.numbers, hk]
  | range hk r =>
    have hshape : k.shape = .scalar ∨ k.shape = .range := by
      revert hk
      cases k <;> decide
    rcases hshape with hshape | hshape <;>
      simp [hshape, Shape.admits, KnownKey.numbers, hk, Range.isFinite_iff]
  | limit n => simp [KnownKey.shape, Shape.admits, KnownKey.numbers]
  | sort s => simp [KnownKey.shape, Shape.admits, KnownKey.numbers]
  | scores hm =>
    simp only [KnownKey.shape, Shape.admits, KnownKey.numbers, ↓reduceIte, List.all_eq_true,
      Range.isFinite_iff, List.mem_flatMap]
    constructor
    · rintro h x ⟨e, he, hx⟩
      exact h e he x hx
    · exact fun h e he x hx => h x ⟨e, he, hx⟩
  | flags hk m => simp [hk, Shape.admits, KnownKey.numbers]
  | advancements m => simp [KnownKey.shape, Shape.admits, KnownKey.numbers]
  | nbt n => simp [KnownKey.shape, Shape.admits, KnownKey.numbers]

end Edit

namespace Change

/-- A change of what typed edits leave is again such a value. -/
def KeepsLeaves (c : Change) : Prop :=
  ∀ a?, (∀ a ∈ a?, Edit.Leaves c.1 a) → Edit.Leaves c.1 (c.2 a?)

theorem keepsLeaves_set {k : KnownKey} {v : ArgumentValue} (h : Edit.Leaves (.known k) v) :
    (set k v).KeepsLeaves := fun _ _ => h

private theorem keepsLeaves_flag {k : KnownKey} (hk : k.shape = .flags) (name : String) (on : Bool) :
    (flag k name on).KeepsLeaves := by
  intro a? _
  simp only [flag]
  split <;> exact .flags hk _

private theorem keepsLeaves_score (objective : String) (range : Range) :
    (score objective range).KeepsLeaves := by
  intro a? ha
  simp only [score]
  split
  · next m =>
    cases ha _ rfl with
    | scores hm => exact .scores (OrderedMap.nodup_keys_alter _ _ hm)
  · exact .scores (List.nodup_singleton _)

private theorem keepsLeaves_advancement (name : String) (f : Option Advancement → Advancement) :
    (advancement name f).KeepsLeaves := by
  intro a? _
  simp only [advancement]
  split <;> exact .advancements _

end Change

namespace Edit

private theorem keepsLeaves_of_mem_changes {e : Edit} (h : e.isTyped) :
    ∀ c ∈ e.changes, c.KeepsLeaves := by
  cases e with
  | x v | y v | z v =>
    exact List.forall_mem_singleton.2 (Change.keepsLeaves_set (.coordinate (by decide) v))
  | volume dx dy dz =>
    simp only [changes, List.forall_mem_cons, List.not_mem_nil, false_imp_iff, implies_true, and_true]
    exact ⟨Change.keepsLeaves_set (.coordinate (by decide) dx),
      Change.keepsLeaves_set (.coordinate (by decide) dy),
      Change.keepsLeaves_set (.coordinate (by decide) dz)⟩
  | distance r | level r | xRotation r | yRotation r =>
    exact List.forall_mem_singleton.2 (Change.keepsLeaves_set (.range (by decide) r))
  | limit n => exact List.forall_mem_singleton.2 (Change.keepsLeaves_set (.limit _))
  | sort o => exact List.forall_mem_singleton.2 (Change.keepsLeaves_set (.sort _))
  | score o r => exact List.forall_mem_singleton.2 (Change.keepsLeaves_score o r)
  | team n on | gamemode g on | name n on | entityType t on | tag n on | predicate n on =>
    exact List.forall_mem_singleton.2 (Change.keepsLeaves_flag rfl _ on)
  | advancement n done | criterion n c met =>
    exact List.forall_mem_singleton.2 (Change.keepsLeaves_advancement n _)
  | nbt n => exact List.forall_mem_singleton.2 (Change.keepsLeaves_set (.nbt n))
  | argument key v => cases h

end Edit

namespace Selector

theorem leaves_run (t : Target) {es : List Edit} (h : ∀ e ∈ es, e.isTyped) :
    ∀ a ∈ ((new t).run es).arguments, Edit.Leaves a.1 a.2 := by
  rw [arguments_run]
  refine List.foldlRecOn (motive := fun args : Arguments => ∀ a ∈ args, Edit.Leaves a.1 a.2) _ _
    (fun a ha => nomatch ha) ?_
  intro args hargs c hc a ha
  obtain ⟨e, he, hc⟩ := List.mem_flatMap.1 hc
  rcases OrderedMap.exists_of_mem_alter ha with ha | ⟨a?, hold, rfl⟩
  · exact hargs a ha
  · exact Edit.keepsLeaves_of_mem_changes (h e he) c hc a? fun a ha => hargs _ (hold a ha)

def HasNonFinite (s : Selector) (k : KnownKey) : Prop :=
  ∃ v, OrderedMap.get? (.known k) s.arguments = some v ∧ ∃ x ∈ k.numbers v, ¬ x.isFinite

theorem hasNonFinite_iff (t : Target) {es : List Edit} (h : ∀ e ∈ es, e.isTyped) {k : KnownKey}
    {v : ArgumentValue} (hv : (.known k, v) ∈ ((new t).run es).arguments) :
    ((new t).run es).HasNonFinite k ↔ ¬ (ArgumentKey.known k).shape.admits v := by
  have hleaves : Edit.Leaves (.known k) v := leaves_run t h _ hv
  rw [HasNonFinite, (OrderedMap.mem_iff_get? (nodup_keys_run_new t es)).1 hv, ArgumentKey.shape, hleaves.admits_iff]
  simp

end Selector

/-- A place for numbers: a key, and for a score its objective. -/
abbrev Place := KnownKey × Option String

/-- The numbers of a value at a place of its key. -/
def KnownKey.numbersAt (k : KnownKey) : Option String → ArgumentValue → List Binary64
  | none, v => if k = .scores then [] else k.numbers v
  | some o, .scores m => if k = .scores then ((OrderedMap.get? o m).map Range.bounds).getD [] else []
  | some _, _ => []

theorem KnownKey.numbersAt_some {k : KnownKey} (hk : k ≠ .scores) (o : String) (v : ArgumentValue) :
    k.numbersAt (some o) v = [] := by
  cases v <;> simp [numbersAt, hk]

theorem Edit.Leaves.mem_numbers_iff {k : KnownKey} {v : ArgumentValue} {x : Binary64}
    (h : Leaves (.known k) v) : x ∈ k.numbers v ↔ ∃ objective, x ∈ k.numbersAt objective v := by
  cases h with
  | scores hm =>
    simp only [Option.exists, KnownKey.numbersAt, KnownKey.numbers, ↓reduceIte, List.not_mem_nil,
      false_or, List.mem_flatMap, Prod.exists]
    refine exists_congr fun o => ?_
    simp only [OrderedMap.mem_iff_get? hm]
    cases OrderedMap.get? o _ <;> simp
  | coordinate hk v =>
    have hne : k ≠ .scores := fun h => by simp [h, KnownKey.coordinates] at hk
    simp [Option.exists, KnownKey.numbersAt, hne]
  | range hk r =>
    have hne : k ≠ .scores := fun h => by simp [h, KnownKey.ranges] at hk
    simp [Option.exists, KnownKey.numbersAt, hne]
  | _ => simp [Option.exists, KnownKey.numbersAt, KnownKey.numbers]

/-- The numbers that an edit stores, with their places. -/
def Edit.stores : Edit → OrderedMap Place (List Binary64)
  | .x v => [((.x, none), [v])]
  | .y v => [((.y, none), [v])]
  | .z v => [((.z, none), [v])]
  | .volume dx dy dz => [((.dx, none), [dx]), ((.dy, none), [dy]), ((.dz, none), [dz])]
  | .distance r => [((.distance, none), r.bounds)]
  | .level r => [((.level, none), r.bounds)]
  | .xRotation r => [((.xRotation, none), r.bounds)]
  | .yRotation r => [((.yRotation, none), r.bounds)]
  | .score o r => [((.scores, some o), r.bounds)]
  | _ => []

namespace Arguments

def numbersAt (args : Arguments) (p : Place) : List Binary64 :=
  ((OrderedMap.get? (.known p.1) args).map (p.1.numbersAt p.2)).getD []

theorem numbersAt_eq_nil (args : Arguments) {p : Place} (h : ∀ v, p.1.numbersAt p.2 v = []) :
    args.numbersAt p = [] := by
  unfold numbersAt
  cases OrderedMap.get? (.known p.1) args <;> simp [h]

theorem numbersAt_alter (args : Arguments) (k : KnownKey) (f : Option ArgumentValue → ArgumentValue)
    (p : Place) : numbersAt (args.alter (.known k) f) p =
      if k = p.1 then p.1.numbersAt p.2 (f (OrderedMap.get? (.known k) args)) else numbersAt args p := by
  rw [numbersAt, OrderedMap.get?_alter]
  by_cases h : k = p.1
  · simp [h]
  · simp [h, numbersAt]

end Arguments

namespace Change

/-- The change stores numbers at some places and leaves those at other places. -/
def Stores (c : Change) (ds : OrderedMap Place (List Binary64)) : Prop :=
  ∀ (args : Arguments) (p : Place),
    Arguments.numbersAt (args.alter c.1 c.2) p = (OrderedMap.get? p ds).getD (args.numbersAt p)

theorem stores_set {k : KnownKey} (hk : k ≠ .scores) (v : ArgumentValue) :
    (set k v).Stores [((k, none), k.numbers v)] := by
  rintro args ⟨l, objective⟩
  simp only [set, Arguments.numbersAt_alter, OrderedMap.get?, Prod.mk.injEq]
  by_cases hl : k = l
  · subst hl
    cases objective with
    | none => simp [KnownKey.numbersAt, hk]
    | some o => simp [Arguments.numbersAt_eq_nil, KnownKey.numbersAt_some hk]
  · simp [hl]

theorem stores_score (o : String) (r : Range) :
    (score o r).Stores [((.scores, some o), r.bounds)] := by
  rintro args ⟨l, objective⟩
  simp only [score, Arguments.numbersAt_alter, OrderedMap.get?, Prod.mk.injEq]
  by_cases hl : .scores = l
  · subst hl
    cases objective with
    | none => simp [Arguments.numbersAt_eq_nil, KnownKey.numbersAt]
    | some q =>
      simp only [Arguments.numbersAt]
      cases OrderedMap.get? (.known .scores) args with
      | none => by_cases hq : o = q <;> simp [KnownKey.numbersAt, OrderedMap.get?, hq]
      | some v =>
        cases v with
        | scores m =>
          by_cases hq : o = q <;>
            simp [KnownKey.numbersAt, OrderedMap.insert, OrderedMap.get?_alter, hq]
        | _ => by_cases hq : o = q <;> simp [KnownKey.numbersAt, OrderedMap.get?, hq]
  · simp [hl]

theorem stores_nil {k : KnownKey} (hk : k ∉ .scores :: KnownKey.coordinates ++ KnownKey.ranges)
    (f : Option ArgumentValue → ArgumentValue) : Stores (.known k, f) [] := by
  rintro args ⟨l, objective⟩
  simp only [List.cons_append, List.mem_cons, List.mem_append, not_or] at hk
  obtain ⟨hscores, hcoordinates, hranges⟩ := hk
  have hnumbers : ∀ v, k.numbersAt objective v = [] := by
    intro v
    cases objective with
    | none => cases v <;> simp [KnownKey.numbersAt, KnownKey.numbers, *]
    | some o => exact KnownKey.numbersAt_some hscores o v
  rw [Arguments.numbersAt_alter]
  split
  · next hl =>
    dsimp only at hl
    subst hl
    rw [hnumbers, Arguments.numbersAt_eq_nil args hnumbers]
    rfl
  · rfl

end Change

private theorem Edit.numbersAt_changes {e : Edit} (h : e.isTyped) (args : Arguments) (p : Place) :
    Arguments.numbersAt (e.changes.foldl (fun args c => args.alter c.1 c.2) args) p =
      (OrderedMap.get? p e.stores).getD (args.numbersAt p) := by
  cases e with
  | x v | y v | z v => exact Change.stores_set (by decide) _ args p
  | volume dx dy dz =>
    rw [changes, List.foldl_cons, List.foldl_cons, List.foldl_cons, List.foldl_nil,
      Change.stores_set (k := .dz) (by decide), Change.stores_set (k := .dy) (by decide),
      Change.stores_set (k := .dx) (by decide)]
    by_cases hz : (.dz, none) = p
    · subst hz
      rfl
    · by_cases hy : (.dy, none) = p
      · subst hy
        rfl
      · simp [stores, OrderedMap.get?, hz, hy, KnownKey.numbers, KnownKey.coordinates]
  | distance r | level r | xRotation r | yRotation r =>
    exact Change.stores_set (by decide) _ args p
  | score o r => exact Change.stores_score o r args p
  | limit n | sort o | team n on | gamemode g on | name n on | entityType t on | tag n on
  | predicate n on | advancement n done | criterion n c met | nbt n =>
    exact Change.stores_nil (by decide) _ args p
  | argument key v => cases h

namespace Selector

private theorem numbersAt_run {s : Selector} {es : List Edit} (h : ∀ e ∈ es, e.isTyped) (p : Place) :
    (s.run es).arguments.numbersAt p =
      (es.reverse.findSome? fun e => OrderedMap.get? p e.stores).getD (s.arguments.numbersAt p) := by
  induction es generalizing s with
  | nil => rfl
  | cons e es ih =>
    obtain ⟨he, hes⟩ := List.forall_mem_cons.1 h
    have hstep : (s.apply e).arguments.numbersAt p =
        (OrderedMap.get? p e.stores).getD (s.arguments.numbersAt p) :=
      Edit.numbersAt_changes he s.arguments p
    rw [run, List.foldl_cons, ← run, ih hes, hstep, List.reverse_cons, List.findSome?_append]
    cases es.reverse.findSome? fun e => OrderedMap.get? p e.stores with
    | none => simp
    | some xs => simp

private theorem hasNonFinite_iff_numbersAt (t : Target) {es : List Edit} (h : ∀ e ∈ es, e.isTyped)
    (k : KnownKey) : ((new t).run es).HasNonFinite k ↔
      ∃ objective, ∃ x ∈ ((new t).run es).arguments.numbersAt (k, objective), ¬ x.isFinite := by
  cases hv : OrderedMap.get? (.known k) ((new t).run es).arguments with
  | none => simp [HasNonFinite, Arguments.numbersAt, hv]
  | some v =>
    have hleaves : Edit.Leaves (.known k) v :=
      leaves_run t h _ ((OrderedMap.mem_iff_get? (nodup_keys_run_new t es)).2 hv)
    simp only [HasNonFinite, Arguments.numbersAt, hv, Option.some.injEq, exists_eq_left',
      Option.map_some, Option.getD_some, hleaves.mem_numbers_iff]
    constructor
    · rintro ⟨x, ⟨objective, hx⟩, hfinite⟩
      exact ⟨objective, x, hx, hfinite⟩
    · rintro ⟨objective, x, hx, hfinite⟩
      exact ⟨x, ⟨objective, hx⟩, hfinite⟩

private theorem exists_format_error (t : Target) {es : List Edit} (h : ∀ e ∈ es, e.isTyped)
    {k : KnownKey}
    (hk : ((new t).run es).HasNonFinite k) : ∃ e, ((new t).run es).format = .error e := by
  obtain ⟨v, hv, -⟩ := id hk
  have hmem : (.known k, v) ∈ ((new t).run es).arguments :=
    (OrderedMap.mem_iff_get? (nodup_keys_run_new t es)).2 hv
  cases herror : ((new t).run es).arguments.firstError? with
  | some e => exact ⟨e, format_eq_error.2 herror⟩
  | none =>
    rw [Arguments.firstError?_eq, Option.map_eq_none_iff, List.find?_eq_none] at herror
    exact absurd (by simpa using herror _ hmem) ((hasNonFinite_iff t h hmem).1 hk)

theorem exists_of_format_error (t : Target) {es : List Edit} (h : ∀ e ∈ es, e.isTyped)
    {e : MalformedArgument} (he : ((new t).run es).format = .error e) :
    ∃ k before after, e = ⟨.known k⟩ ∧ ((new t).run es).HasNonFinite k ∧
      OrderedMap.keys ((new t).run es).arguments = before ++ .known k :: after ∧
      ∀ l, .known l ∈ before → ¬ ((new t).run es).HasNonFinite l := by
  rw [format_eq_error, Arguments.firstError?_eq] at he
  obtain ⟨⟨key, v⟩, hfind, rfl⟩ := Option.map_eq_some_iff.1 he
  obtain ⟨hadmits, before, after, hargs, hbefore⟩ := List.find?_eq_some_iff_append.1 hfind
  have hmem : (key, v) ∈ ((new t).run es).arguments := by simp [hargs]
  obtain ⟨k, rfl⟩ := (leaves_run t h _ hmem).exists_known
  have hk : ((new t).run es).HasNonFinite k := (hasNonFinite_iff t h hmem).2 (by simpa using hadmits)
  refine ⟨k, OrderedMap.keys before, OrderedMap.keys after, rfl, hk, ?_, ?_⟩
  · rw [hargs, OrderedMap.keys_append, OrderedMap.keys_cons]
  · intro l hl hnon
    obtain ⟨⟨_, w⟩, hw, rfl⟩ := List.mem_map.1 hl
    have hmem : (.known l, w) ∈ ((new t).run es).arguments := hargs ▸ List.mem_append_left _ hw
    exact (hasNonFinite_iff t h hmem).1 hnon (by simpa using hbefore _ hw)

/-- A selector that is made by typed edits has no text if a coordinate, an extent, or a bound of a range
or of the range of a score is not finite, and then the error names the first such key in the order in
which the keys were first touched. A number counts if it is among the last ones that were stored at its
place. -/
theorem format_run_typed (t : Target) (es : List Edit) (h : ∀ e ∈ es, e.isTyped) :
    let s := (new t).run es
    ((∃ e, s.format = .error e) ↔ ∃ k, s.HasNonFinite k) ∧
    (∀ e, s.format = .error e → ∃ k before after, e = ⟨.known k⟩ ∧ s.HasNonFinite k ∧
      ((es.flatMap Edit.names).map ArgumentKey.ofName).eraseDups = before ++ .known k :: after ∧
      ∀ l, .known l ∈ before → ¬ s.HasNonFinite l) ∧
    ∀ k, s.HasNonFinite k ↔ ∃ objective numbers,
      es.reverse.findSome? (fun e => OrderedMap.get? (k, objective) e.stores) = some numbers ∧
      ∃ x ∈ numbers, ¬ x.isFinite := by
  intro s
  refine ⟨⟨?_, ?_⟩, ?_, ?_⟩
  · rintro ⟨e, he⟩
    obtain ⟨k, -, -, -, hk, -⟩ := exists_of_format_error t h he
    exact ⟨k, hk⟩
  · rintro ⟨k, hk⟩
    exact exists_format_error t h hk
  · intro e he
    rw [← Edit.flatMap_touched, ← keys_run_new t]
    exact exists_of_format_error t h he
  · intro k
    have hnew : ∀ p, (new t).arguments.numbersAt p = [] := fun _ => rfl
    rw [hasNonFinite_iff_numbersAt t h]
    refine exists_congr fun objective => ?_
    rw [numbersAt_run h, hnew]
    cases es.reverse.findSome? fun e => OrderedMap.get? (k, objective) e.stores <;> simp

/-- A bound of a score that is overwritten, and the level that is not. -/
theorem format_run_typed_level :
    let es : List Edit := [.score "kills" (.atLeast (.infinite false)), .level (.exact .nan),
      .score "kills" (.atMost (.ofNat 5)), .tag "a" true, .x (.infinite true)]
    let s := (new .entities).run es
    (∀ e ∈ es, e.isTyped) ∧ s.HasNonFinite .level ∧ ∃ e, s.format = .error e := by
  intro es s
  have htyped : ∀ e ∈ es, e.isTyped := by decide
  obtain ⟨hformat, -, hstored⟩ := format_run_typed .entities es htyped
  have hlevel : s.HasNonFinite .level :=
    (hstored .level).2 ⟨none, [.nan], rfl, .nan, List.mem_singleton_self _, by decide⟩
  exact ⟨htyped, hlevel, hformat.2 ⟨.level, hlevel⟩⟩

end Selector

end TargetSelector
