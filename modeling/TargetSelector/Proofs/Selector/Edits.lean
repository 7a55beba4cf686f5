import TargetSelector.Proofs.OrderedMap
import TargetSelector.Selector.Edit

/-! Runs of edits, one key at a time. The value at a key is made by the changes at that key alone. -/
namespace TargetSelector

namespace Edit

def names : Edit → List String
  | .x _ => ["x"]
  | .y _ => ["y"]
  | .z _ => ["z"]
  | .volume _ _ _ => ["dx", "dy", "dz"]
  | .distance _ => ["distance"]
  | .limit _ => ["limit"]
  | .sort _ => ["sort"]
  | .score _ _ => ["scores"]
  | .level _ => ["level"]
  | .xRotation _ => ["x_rotation"]
  | .yRotation _ => ["y_rotation"]
  | .team _ _ => ["team"]
  | .gamemode _ _ => ["gamemode"]
  | .name _ _ => ["name"]
  | .entityType _ _ => ["type"]
  | .tag _ _ => ["tag"]
  | .predicate _ _ => ["predicate"]
  | .advancement _ _ | .criterion _ _ _ => ["advancements"]
  | .nbt _ => ["nbt"]
  | .argument key _ => [key.name]

def touches (key : ArgumentKey) (e : Edit) : Bool := decide (key.name ∈ e.names)

theorem names_eq (e : Edit) : e.names = e.touched.map ArgumentKey.name := by
  cases e <;> rfl

theorem touched_eq (e : Edit) : e.touched = e.names.map ArgumentKey.ofName := by
  rw [names_eq, List.map_map]
  exact (List.map_id'' ArgumentKey.ofName_name _).symm

theorem flatMap_touched (es : List Edit) :
    es.flatMap touched = (es.flatMap names).map ArgumentKey.ofName := by
  rw [List.map_flatMap]
  exact List.flatMap_congr fun e _ => e.touched_eq

theorem touches_iff {key : ArgumentKey} {e : Edit} : e.touches key ↔ key ∈ e.touched := by
  rw [touches, decide_eq_true_iff, names_eq,
    List.mem_map_of_injective fun _ _ => ArgumentKey.name_injective]

/-- The changes at one key among those of some edits, in order. -/
def changesAt (key : ArgumentKey) (es : List Edit) : List Change :=
  (es.flatMap changes).filter (·.1 = key)

theorem changesAt_append (key : ArgumentKey) (es fs : List Edit) :
    changesAt key (es ++ fs) = changesAt key es ++ changesAt key fs := by
  rw [changesAt, List.flatMap_append, List.filter_append]
  rfl

theorem changesAt_eq_nil_iff {key : ArgumentKey} {e : Edit} :
    changesAt key [e] = [] ↔ ¬ e.touches key := by
  rw [changesAt, touches_iff, touched, List.flatMap_singleton, List.filter_eq_nil_iff,
    List.mem_map, not_exists]
  exact forall_congr' fun c => by rw [decide_eq_true_iff, not_and]

theorem changesAt_filter (key : ArgumentKey) (es : List Edit) :
    changesAt key (es.filter (·.touches key)) = changesAt key es := by
  induction es with
  | nil => rfl
  | cons e es ih =>
    rw [← List.singleton_append (l := es), List.filter_append, changesAt_append, changesAt_append, ih]
    congr 1
    by_cases h : e.touches key
    · rw [List.filter_cons_of_pos h, List.filter_nil]
    · rw [List.filter_cons_of_neg h, List.filter_nil, changesAt_eq_nil_iff.2 h]
      rfl

theorem changesAt_swap {e f : Edit} (h : ∀ key, e.touches key → ¬ f.touches key)
    (key : ArgumentKey) : changesAt key [f, e] = changesAt key [e, f] := by
  change changesAt key ([f] ++ [e]) = changesAt key ([e] ++ [f])
  rw [changesAt_append, changesAt_append]
  by_cases he : e.touches key
  · rw [changesAt_eq_nil_iff.2 (h key he), List.append_nil, List.nil_append]
  · rw [changesAt_eq_nil_iff.2 he, List.append_nil, List.nil_append]

end Edit

namespace Selector

theorem run_append (s : Selector) (es more : List Edit) : s.run (es ++ more) = (s.run es).run more :=
  List.foldl_append

theorem arguments_run (s : Selector) (es : List Edit) : (s.run es).arguments =
    (es.flatMap Edit.changes).foldl (fun args c => args.alter c.1 c.2) s.arguments := by
  induction es generalizing s with
  | nil => rfl
  | cons e es ih =>
    rw [List.flatMap_cons, List.foldl_append]
    exact ih (s.apply e)

theorem target_run (s : Selector) (es : List Edit) : (s.run es).target = s.target := by
  induction es generalizing s with
  | nil => rfl
  | cons e es ih => exact ih (s.apply e)

theorem get?_run (s : Selector) (es : List Edit) (key : ArgumentKey) :
    OrderedMap.get? key (s.run es).arguments =
      (Edit.changesAt key es).foldl (fun a? c => some (c.2 a?)) (OrderedMap.get? key s.arguments) := by
  rw [arguments_run, OrderedMap.get?_foldl_alter]
  rfl

theorem keys_prefix_run (s : Selector) (es : List Edit) :
    OrderedMap.keys s.arguments <+: OrderedMap.keys (s.run es).arguments := by
  rw [arguments_run]
  exact OrderedMap.keys_prefix_foldl_alter _ _

theorem keys_run_new (t : Target) (es : List Edit) :
    OrderedMap.keys ((new t).run es).arguments = (es.flatMap Edit.touched).eraseDups := by
  have hnew : OrderedMap.keys (new t).arguments = ([] : List ArgumentKey).eraseDups := rfl
  have htouched : (es.flatMap Edit.changes).map (·.1) = es.flatMap Edit.touched := List.map_flatMap
  rw [arguments_run, OrderedMap.keys_foldl_alter _ hnew, List.nil_append, htouched]

theorem nodup_keys_run {s : Selector} (es : List Edit) (h : (OrderedMap.keys s.arguments).Nodup) :
    (OrderedMap.keys (s.run es).arguments).Nodup := by
  rw [arguments_run]
  exact OrderedMap.nodup_keys_foldl_alter _ h

theorem nodup_keys_run_new (t : Target) (es : List Edit) :
    (OrderedMap.keys ((new t).run es).arguments).Nodup :=
  nodup_keys_run es List.nodup_nil

/-- After a run of edits, each key has the value that the edits which touch it make by themselves, and
is there if such edits are. The keys stand in the order of the first edits that touch them, and more
edits put more keys after them. Edits next to each other that touch different keys may be swapped; all
that can change is the order of the keys. -/
theorem run_by_key (t : Target) (es : List Edit) :
    let args := ((new t).run es).arguments
    (∀ key, OrderedMap.get? key args =
      OrderedMap.get? key ((new t).run (es.filter (·.touches key))).arguments) ∧
    (∀ key, key ∈ OrderedMap.keys args ↔ es.filter (·.touches key) ≠ []) ∧
    OrderedMap.keys args = ((es.flatMap Edit.names).map ArgumentKey.ofName).eraseDups ∧
    (∀ more, OrderedMap.keys args <+: OrderedMap.keys ((new t).run (es ++ more)).arguments) ∧
    ((new t).run es).target = t ∧
    ∀ before e f after, es = before ++ e :: f :: after → (∀ key, e.touches key → ¬ f.touches key) →
      let swapped := ((new t).run (before ++ f :: e :: after)).arguments
      (∀ key, OrderedMap.get? key swapped = OrderedMap.get? key args) ∧ swapped.Perm args := by
  intro args
  refine ⟨?_, ?_, ?_, ?_, target_run _ es, ?_⟩
  · intro key
    rw [get?_run, get?_run, Edit.changesAt_filter]
  · intro key
    rw [keys_run_new, List.mem_eraseDups, List.mem_flatMap, Ne, List.filter_eq_nil_iff]
    simp only [Edit.touches_iff, not_forall, not_not, exists_prop]
  · rw [keys_run_new, Edit.flatMap_touched]
  · intro more
    rw [keys_run_new, keys_run_new, List.flatMap_append, List.eraseDups_append]
    exact List.prefix_append _ _
  · rintro before e f after rfl hdisjoint swapped
    have hvalues : ∀ key, OrderedMap.get? key swapped = OrderedMap.get? key args := by
      intro key
      have hboth : Edit.changesAt key (before ++ f :: e :: after) =
          Edit.changesAt key (before ++ e :: f :: after) := by
        change Edit.changesAt key (before ++ ([f, e] ++ after)) =
          Edit.changesAt key (before ++ ([e, f] ++ after))
        simp only [Edit.changesAt_append, Edit.changesAt_swap hdisjoint key]
      rw [get?_run, get?_run, hboth]
    have hperm : swapped.Perm args :=
      OrderedMap.perm_of_get?_eq (nodup_keys_run_new t _) (nodup_keys_run_new t _) hvalues
    exact ⟨hvalues, hperm⟩

/-- An edit of three keys and one of a key that is given by its name, between edits that merge. -/
theorem run_by_key_volume :
    let e := Edit.volume .nan (.infinite true) (.ofNat 1)
    let f := Edit.argument (.ofName "limit") (.text "many")
    (∀ key, e.touches key → ¬ f.touches key) ∧
      ((new .entities).run [.tag "a" true, f, e, .tag "b" false, .limit 3]).arguments.Perm
        ((new .entities).run [.tag "a" true, e, f, .tag "b" false, .limit 3]).arguments := by
  intro e f
  have hdisjoint : ∀ key, e.touches key → ¬ f.touches key := by
    intro key he hf
    have hname : key.name = "limit" := by
      simpa [f, Edit.touches, Edit.names, ArgumentKey.name_ofName] using hf
    simp [e, Edit.touches, Edit.names, hname] at he
  obtain ⟨-, -, -, -, -, hswap⟩ := run_by_key .entities [.tag "a" true, e, f, .tag "b" false, .limit 3]
  exact ⟨hdisjoint, (hswap [.tag "a" true] e f [.tag "b" false, .limit 3] rfl hdisjoint).2⟩

end Selector

end TargetSelector
